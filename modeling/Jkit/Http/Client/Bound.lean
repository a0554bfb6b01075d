import Jkit.Http.Client.Lease
import Mathlib.Data.Set.Card

/-! # How many connections the pools hold, and how old they are

A call opens a new connection only if it finds no idle one for its peer. At that moment every entry for the
peer is held by another call, so the entries and the connections that are being opened are no more than the
calls that run. No other step makes them more, so their number never exceeds the largest number of calls
that have run at the same time (`pool_bounded`).

A call that reuses a connection has swept the pool before. Entries that come back after the sweep are
young, so no connection is reused that had been idle for more than `m_unuse_timeout` (`reuse_young`). -/

namespace Jkit.Http.Client.Bound

open Jkit.Http.Message Jkit.Http.Client.Conns Jkit.Http.Client.H1 Jkit.Http.Client.Lease Jkit.Lib.Run

variable {A S : Type}

/-! ### Calls and connections of a peer -/

/-- The call has started and has not returned. -/
def running : Pc → Bool
  | .idle | .done _ => false
  | _ => true

/-- The call has found no idle connection and has not pushed a new one. -/
def connecting : Pc → Bool
  | .create | .opening _ _ | .push _ => true
  | _ => false

/-- The calls to a peer that run. -/
def calls (K : H1Kind A S) (args : ℕ → A) (peer : Str × Str) (s : Pool A S × (ℕ → Pc)) : Set ℕ :=
  {i | running (s.2 i) = true ∧ (K.host (args i), K.port (args i)) = peer}

/-- The peer of a connection. -/
def peerOf (K : H1Kind A S) (P : Pool A S) (p : ℕ) : Str × Str :=
  (K.host (P.cache.mem p).args, K.port (P.cache.mem p).args)

/-- The entries of the pool for a peer. -/
def entries (K : H1Kind A S) (peer : Str × Str) (P : Pool A S) : List ℕ :=
  P.cache.conns.filter fun p => peerOf K P p == peer

/-- The entries for a peer, and the calls that are opening a connection to it. -/
def occupied (K : H1Kind A S) (args : ℕ → A) (peer : Str × Str) (s : Pool A S × (ℕ → Pc)) : Set (ℕ ⊕ ℕ) :=
  {x | x.elim (fun p => p ∈ s.1.cache.conns ∧ peerOf K s.1 p = peer)
    fun i => connecting (s.2 i) = true ∧ (K.host (args i), K.port (args i)) = peer}

/-! ### Steps -/

/-- What a step does to the number of connections. -/
inductive Change (K : H1Kind A S) (args : ℕ → A) (i : ℕ) (P : Pool A S) : Pc → Pool A S → Pc → Prop
  /-- The search finds no idle connection. -/
  | miss (h : P.cache.search K.toKind (args i) = none) : Change K args i P .search P .create
  | push (now : ℤ) (p : ℕ) : Change K args i P (.push p) (P.push i now p) (.write p)
  | other {pc pc' : Pc} {P' : Pool A S} (hc : connecting pc' = true → connecting pc = true)
      (hp : ∀ p ∈ P'.cache.conns, p ∈ P.cache.conns ∧ peerOf K P' p = peerOf K P p) :
      Change K args i P pc P' pc'

theorem peerOf_update {K : H1Kind A S} {P P' : Pool A S} {p q : ℕ} {o : Conn A S}
    (hc : P'.cache.mem = Function.update P.cache.mem p o) (h : q = p →
      (K.host o.args, K.port o.args) = peerOf K P p) : peerOf K P' q = peerOf K P q := by
  unfold peerOf
  rw [hc, Function.update_apply]
  split_ifs with hqp
  · rw [hqp]
    exact h hqp
  · rfl

/-- Only the search makes a call one that is opening a connection. -/
theorem step_connecting {K : H1Kind A S} {args : ℕ → A} {i : ℕ} {P P' : Pool A S} {pc pc' : Pc} {e : Ev}
    (h : step K args i P pc e = some (P', pc')) : (connecting pc' = true → connecting pc = true) ∨
      pc = .search ∧ pc' = .create ∧ P.cache.search K.toKind (args i) = none := by
  unfold step at h
  split at h
  case h_3 =>
    split at h
    · obtain ⟨-, rfl⟩ := Prod.mk.inj (Option.some.inj h)
      exact Or.inl (by simp [connecting])
    · next hmiss =>
      obtain ⟨-, rfl⟩ := Prod.mk.inj (Option.some.inj h)
      exact Or.inr ⟨rfl, rfl, hmiss⟩
  case h_4 | h_5 | h_6 => exact Or.inl fun _ => rfl
  case h_11 =>
    obtain ⟨-, rfl⟩ := Prod.mk.inj (Option.some.inj h)
    left
    split_ifs <;> simp [connecting]
  case h_15 => exact absurd h (by simp)
  all_goals
    obtain ⟨-, rfl⟩ := Prod.mk.inj (Option.some.inj h)
    exact Or.inl (by simp [connecting])

theorem step_change {K : H1Kind A S} (hK : Lawful K) {args : ℕ → A} {i : ℕ} {P P' : Pool A S}
    {pc pc' : Pc} {e : Ev} {H F : ℕ → Option ℕ} (hI : Inv K args P H F)
    (h : step K args i P pc e = some (P', pc')) : Change K args i P pc P' pc' := by
  have hconn := step_connecting h
  rcases step_move h with ⟨-, -, -⟩ | now | ⟨now, p, hp⟩ | ⟨st, hst⟩ | ⟨now, p⟩ | ⟨p, r⟩ | ⟨now, p, res⟩
  · rcases hconn with hc | ⟨rfl, rfl, hmiss⟩
    · exact .other hc fun p hp => ⟨hp, rfl⟩
    · exact .miss hmiss
  · exact .other (by simp [connecting]) fun p hp => ⟨(Cache.mem_deleteTimeout.mp hp).1, rfl⟩
  · refine .other (by simp [connecting]) fun q hq => ⟨hq, peerOf_update rfl fun _ => ?_⟩
    exact Prod.ext (hK.host _ _ _) (hK.port _ _ _)
  · refine .other (by simp [connecting]) fun q hq => ⟨hq, peerOf_update rfl fun hqp => ?_⟩
    exact absurd (hI.bound q hq) (by omega)
  · exact .push now p
  · exact .other (by simp [connecting]) fun q hq => ⟨List.mem_of_mem_erase hq, rfl⟩
  · refine .other (by simp [connecting]) fun q hq => ?_
    by_cases hp : p ∈ P.cache.conns
    · have hcache : (P.release i now p).cache.mem =
          Function.update P.cache.mem p { P.cache.mem p with inUse := false, lastUse := now } := by
        simp only [Pool.release, Cache.release, if_pos hp]
      simp only [Pool.release, Cache.release, if_pos hp] at hq
      exact ⟨hq, peerOf_update hcache fun _ => rfl⟩
    · have hcache : (P.release i now p).cache = P.cache := by
        simp only [Pool.release, Cache.release, if_neg hp]
      rw [hcache] at hq
      exact ⟨hq, by unfold peerOf; rw [hcache]⟩

/-! ### The bound -/

section Bound

variable {K : H1Kind A S} {args : ℕ → A} {peer : Str × Str}

/-- An entry for the peer of call `i` that is not idle is held by a call to the same peer. -/
theorem exists_holder (hK : Lawful K) {s : Pool A S × (ℕ → Pc)} {i p : ℕ} (hs : Good K args s)
    (hmiss : s.1.cache.search K.toKind (args i) = none) (hp : p ∈ s.1.cache.conns)
    (hpeer : peerOf K s.1 p = (K.host (args i), K.port (args i))) :
    ∃ j, held (s.2 j) = some p ∧ (K.host (args j), K.port (args j)) = peerOf K s.1 p := by
  have hbusy : (s.1.cache.mem p).inUse = true := by
    by_contra hno
    have hfind := List.find?_eq_none.mp hmiss p hp
    obtain ⟨hhost, hport⟩ := Prod.mk.inj hpeer
    exact hfind (by simp [Cache.samePeer, hK.idle, hno, hhost, hport])
  obtain ⟨j, hj⟩ := hs.inv.busy p hp hbusy
  obtain ⟨-, -, hhost, hport⟩ := hs.inv.held j p hj
  exact ⟨j, hj, Prod.ext hhost.symm hport.symm⟩

theorem running_of_held {pc : Pc} {p : ℕ} (h : held pc = some p) : running pc = true := by
  rcases pc <;> simp [held, running] at h ⊢

theorem running_of_connecting {pc : Pc} (h : connecting pc = true) :
    running pc = true ∧ held pc = none := by
  rcases pc <;> simp [connecting, running, held] at h ⊢

/-- If no idle connection is found, the entries are held by other calls. -/
theorem encard_of_miss (hK : Lawful K) {s : Pool A S × (ℕ → Pc)} {i : ℕ} (hs : Good K args s)
    (hi : s.2 i = .search) (hmiss : s.1.cache.search K.toKind (args i) = none)
    (hpeer : (K.host (args i), K.port (args i)) = peer) :
    (occupied K args peer (s.1, Function.update s.2 i .create)).encard ≤ (calls K args peer s).encard := by
  classical
  have hholder : ∀ p, ∃ j, p ∈ s.1.cache.conns ∧ peerOf K s.1 p = peer →
      held (s.2 j) = some p ∧ (K.host (args j), K.port (args j)) = peer := by
    intro p
    by_cases hp : p ∈ s.1.cache.conns ∧ peerOf K s.1 p = peer
    · obtain ⟨j, hj, hjp⟩ := exists_holder hK hs hmiss hp.1 (hp.2.trans hpeer.symm)
      exact ⟨j, fun _ => ⟨hj, hjp.trans hp.2⟩⟩
    · exact ⟨0, fun h => absurd h hp⟩
  choose holder hholder using hholder
  -- a call that opens a connection holds none, also the one that begins now
  have hfree : ∀ j, connecting (Function.update s.2 i .create j) = true →
      running (s.2 j) = true ∧ held (s.2 j) = none := by
    intro j hj
    by_cases hji : j = i
    · rw [hji, hi]
      exact ⟨rfl, rfl⟩
    · rw [Function.update_of_ne hji] at hj
      exact running_of_connecting hj
  refine Set.encard_le_encard_of_injOn (f := Sum.elim holder id) ?_ ?_
  · rintro (p | j) hx
    · obtain ⟨hheld, hp⟩ := hholder p hx
      exact ⟨running_of_held hheld, hp⟩
    · exact ⟨(hfree j hx.1).1, hx.2⟩
  · rintro (p | j) hx (q | k) hy hxy
    · have hp := (hholder p hx).1
      have hq := (hholder q hy).1
      rw [show holder p = holder q from hxy, hq] at hp
      rw [Option.some.inj hp]
    · have hp := (hholder p hx).1
      rw [show holder p = k from hxy, (hfree k hy.1).2] at hp
      exact absurd hp (by simp)
    · have hq := (hholder q hy).1
      rw [← show j = holder q from hxy, (hfree j hx.1).2] at hq
      exact absurd hq (by simp)
    · rw [show j = k from hxy]

/-- A new connection takes the place of the call that has opened it. -/
theorem encard_of_push {s : Pool A S × (ℕ → Pc)} {i p : ℕ} (hs : Good K args s) (hi : s.2 i = .push p)
    (now : ℤ) : (occupied K args peer (s.1.push i now p, Function.update s.2 i (.write p))).encard ≤
      (occupied K args peer s).encard := by
  obtain ⟨-, hnew, hhost, hport⟩ := hs.inv.fresh i p (by rw [hi]; rfl)
  have hsame : ∀ q, peerOf K (s.1.push i now p) q = peerOf K s.1 q := fun q =>
    peerOf_update rfl fun _ => rfl
  have hmover : ∀ j, connecting (Function.update s.2 i (.write p) j) = true →
      j ≠ i ∧ connecting (s.2 j) = true := by
    intro j hj
    have hji : j ≠ i := by
      rintro rfl
      rw [Function.update_self] at hj
      exact absurd hj (by simp [connecting])
    rw [Function.update_of_ne hji] at hj
    exact ⟨hji, hj⟩
  have hold : ∀ q, q ∈ (s.1.push i now p).cache.conns → q ≠ p → q ∈ s.1.cache.conns := by
    intro q hq hqp
    rcases List.mem_append.mp hq with hq | hq
    · exact hq
    · exact absurd (List.mem_singleton.mp hq) hqp
  refine Set.encard_le_encard_of_injOn
    (f := Sum.elim (fun q => if q = p then Sum.inr i else Sum.inl q) Sum.inr) ?_ ?_
  · rintro (q | j) ⟨hq, hpeer⟩
    · rw [hsame] at hpeer
      rw [Sum.elim_inl]
      split_ifs with hqp
      · refine ⟨by rw [hi]; rfl, ?_⟩
        rw [← hpeer, hqp]
        exact Prod.ext hhost.symm hport.symm
      · exact ⟨hold q hq hqp, hpeer⟩
    · exact ⟨(hmover j hq).2, hpeer⟩
  · rintro (q | j) hx (r | k) hy hxy
    · simp only [Sum.elim_inl] at hxy
      split_ifs at hxy with hqp hrp hrp
      · rw [hqp, hrp]
      · exact hxy
    · simp only [Sum.elim_inl, Sum.elim_inr] at hxy
      split_ifs at hxy with hqp
      exact absurd (Sum.inr.inj hxy).symm (hmover k hy.1).1
    · simp only [Sum.elim_inl, Sum.elim_inr] at hxy
      split_ifs at hxy with hrp
      exact absurd (Sum.inr.inj hxy) (hmover j hx.1).1
    · exact hxy

theorem encard_step (hK : Lawful K) {o : Conn A S} {n : ℕ∞} (s : Pool A S × (ℕ → Pc)) (l : ℕ × Ev)
    (s' : Pool A S × (ℕ → Pc)) (hs : Good K args s) (hn : (calls K args peer s).encard ≤ n)
    (hocc : (occupied K args peer s).encard ≤ n) (h : (sys K args o).step s l = some s') :
    (occupied K args peer s').encard ≤ n := by
  obtain ⟨P', pc', hst, rfl⟩ := Sys.threads_step.mp h
  generalize hpc : s.2 l.1 = pc at hst
  have hchange := step_change hK hs.inv hst
  rcases hchange with hmiss | ⟨now, p⟩ | ⟨hc, hp⟩
  · by_cases hpeer : (K.host (args l.1), K.port (args l.1)) = peer
    · exact (encard_of_miss hK hs hpc hmiss hpeer).trans hn
    · refine (Set.encard_le_encard ?_).trans hocc
      rintro (p | j) ⟨hx, hxp⟩
      · exact ⟨hx, hxp⟩
      · have hj : j ≠ l.1 := by
          rintro rfl
          exact hpeer hxp
        dsimp only at hx
        rw [Function.update_of_ne hj] at hx
        exact ⟨hx, hxp⟩
  · exact (encard_of_push hs hpc now).trans hocc
  · refine (Set.encard_le_encard ?_).trans hocc
    rintro (p | j) ⟨hx, hxp⟩
    · exact ⟨(hp p hx).1, (hp p hx).2 ▸ hxp⟩
    · refine ⟨?_, hxp⟩
      dsimp only at hx
      by_cases hj : j = l.1
      · rw [hj, hpc]
        rw [hj, Function.update_self] at hx
        exact hc hx
      · rw [Function.update_of_ne hj] at hx
        exact hx

theorem length_entries_le {s : Pool A S × (ℕ → Pc)} (hs : Good K args s) :
    ((entries K peer s.1).length : ℕ∞) ≤ (occupied K args peer s).encard := by
  have hnodup : (entries K peer s.1).Nodup := hs.inv.nodup.filter _
  rw [← List.toFinset_card_of_nodup hnodup, ← Set.encard_coe_eq_coe_finsetCard]
  refine Set.encard_le_encard_of_injOn (f := Sum.inl) ?_ (Sum.inl_injective.injOn)
  intro p hp
  have hmem : p ∈ entries K peer s.1 := List.mem_toFinset.mp hp
  obtain ⟨hconn, hpeer⟩ := List.mem_filter.mp hmem
  exact ⟨hconn, by simpa using hpeer⟩

theorem encard_init (o : Conn A S) : (occupied K args peer (sys K args o).init).encard = 0 := by
  rw [Set.encard_eq_zero, Set.eq_empty_iff_forall_notMem]
  rintro (p | i) ⟨hx, -⟩
  · exact absurd hx List.not_mem_nil
  · exact absurd hx (by simp [sys, Sys.threads, connecting])

/-- The pool is in order, and no more connections are open or being opened than `n`. -/
def Within (K : H1Kind A S) (args : ℕ → A) (peer : Str × Str) (n : ℕ) (s : Pool A S × (ℕ → Pc)) : Prop :=
  Good K args s ∧ (occupied K args peer s).encard ≤ n

theorem within_init (o : Conn A S) (n : ℕ) : Within K args peer n (sys K args o).init :=
  ⟨good_init K args o, by rw [encard_init]; exact zero_le⟩

theorem within_step (hK : Lawful K) {o : Conn A S} {n : ℕ} {s s' : Pool A S × (ℕ → Pc)} {l : ℕ × Ev}
    (hs : Within K args peer n s) (hn : (calls K args peer s).encard ≤ n)
    (h : (sys K args o).step s l = some s') : Within K args peer n s' :=
  ⟨good_step hK s l s' hs.1 h, encard_step hK s l s' hs.1 hn hs.2 h⟩

theorem Within.length_le {n : ℕ} {s : Pool A S × (ℕ → Pc)} (h : Within K args peer n s) :
    (entries K peer s.1).length ≤ n := by
  have hle := (length_entries_le h.1).trans h.2
  exact_mod_cast hle

end Bound

/-- **The pools do not grow beyond the load**: if at most `n` calls of `h1_req` for HTTP to a peer, and at
most `m` for HTTPS, have run at the same time, the pools hold at most that many connections to it. -/
theorem pool_bounded (certOk : Str → Bool) (args : ℕ → HttpReqArgument) (argsS : ℕ → HttpsReqArgument)
    (o : Conn HttpReqArgument Unit) (oS : Conn HttpsReqArgument SslContext) (peer : Str × Str) (n m : ℕ)
    (ls : List ((ℕ × Ev) ⊕ (ℕ × Ev)))
    (s : (Pool HttpReqArgument Unit × (ℕ → Pc)) × (Pool HttpsReqArgument SslContext × (ℕ → Pc)))
    (hrun : (both certOk args argsS o oS).exec ls = some s)
    (hload : (both certOk args argsS o oS).Throughout (fun t => (calls http args peer t.1).encard ≤ n ∧
      (calls (https certOk) argsS peer t.2).encard ≤ m) (both certOk args argsS o oS).init ls) :
    (entries http peer s.1.1).length ≤ n ∧ (entries (https certOk) peer s.2.1).length ≤ m := by
  have hinv : Within http args peer n s.1 ∧ Within (https certOk) argsS peer m s.2 := by
    refine Sys.run_inv_throughout (P := fun t : (Pool HttpReqArgument Unit × (ℕ → Pc)) ×
      (Pool HttpsReqArgument SslContext × (ℕ → Pc)) =>
        Within http args peer n t.1 ∧ Within (https certOk) argsS peer m t.2) ?_ hload hrun
      ⟨within_init o n, within_init oS m⟩
    rintro t (e | e) t' ⟨h1, h2⟩ ⟨hn, hm⟩ hstep
    · obtain ⟨u, hu, rfl⟩ := Option.map_eq_some_iff.mp hstep
      exact ⟨within_step http_lawful h1 hn hu, h2⟩
    · obtain ⟨u, hu, rfl⟩ := Option.map_eq_some_iff.mp hstep
      exact ⟨h1, within_step (https_lawful certOk) h2 hm hu⟩
  exact ⟨hinv.1.length_le, hinv.2.length_le⟩

/-- Calls 0 and 1 both find the pool empty, and each opens a connection. -/
def overlapRun : List ((ℕ × Ev) ⊕ (ℕ × Ev)) :=
  [.inl (0, .call), .inl (1, .call), .inl (0, .sweep 0), .inl (0, .search 0), .inl (1, .sweep 0),
    .inl (1, .search 0), .inl (0, .create), .inl (1, .create), .inl (0, .io true), .inl (1, .io true),
    .inl (0, .io true), .inl (0, .push 1), .inl (1, .io true), .inl (1, .push 1), .inl (0, .write none)]

theorem pool_bounded_overlapRun :
    let args : HttpReqArgument := { host := str "h", port := str "80" }
    let argsS : HttpsReqArgument := { host := str "h", port := str "443" }
    let S := both (fun _ => true) (fun _ => args) (fun _ => argsS) { args := args, stream := () }
      { args := argsS, stream := {} }
    ∃ s, S.exec overlapRun = some s ∧ entries http (str "h", str "80") s.1.1 = [0, 1] ∧
      S.Throughout (fun t => (calls http (fun _ => args) (str "h", str "80") t.1).encard ≤ (2 : ℕ) ∧
        (calls (https fun _ => true) (fun _ => argsS) (str "h", str "80") t.2).encard ≤ (0 : ℕ))
        S.init overlapRun ∧
      (entries http (str "h", str "80") s.1.1).length ≤ 2 ∧
      (entries (https fun _ => true) (str "h", str "80") s.2.1).length ≤ 0 := by
  intro args argsS S
  have hload : S.Throughout (fun t => (calls http (fun _ => args) (str "h", str "80") t.1).encard ≤ (2 : ℕ) ∧
      (calls (https fun _ => true) (fun _ => argsS) (str "h", str "80") t.2).encard ≤ (0 : ℕ))
      S.init overlapRun := by
    refine Sys.throughout_of_inv (P := fun t => (∀ i, 1 < i → t.1.2 i = .idle) ∧ ∀ i, t.2.2 i = .idle)
      (C := fun l => ∃ i e, l = .inl (i, e) ∧ i ≤ 1) ?_ ?_ ?_ ⟨fun _ _ => rfl, fun _ => rfl⟩
    · rintro t ⟨h1, h2⟩
      constructor
      · have htwo : calls http (fun _ => args) (str "h", str "80") t.1 ⊆ {0, 1} := by
          intro k hk
          by_contra hne
          simp only [Set.mem_insert_iff, Set.mem_singleton_iff, not_or] at hne
          exact absurd hk.1 (by rw [h1 k (by omega)]; simp [running])
        exact (Set.encard_le_encard htwo).trans (Set.encard_pair (by omega)).le
      · have hempty : calls (https fun _ => true) (fun _ => argsS) (str "h", str "80") t.2 = ∅ := by
          rw [Set.eq_empty_iff_forall_notMem]
          intro k hk
          exact absurd hk.1 (by rw [h2 k]; simp [running])
        rw [hempty, Set.encard_empty]
        exact zero_le
    · rintro t l t' ⟨h1, h2⟩ ⟨i, e, rfl, hi⟩ hstep
      obtain ⟨u, hu, rfl⟩ := Option.map_eq_some_iff.mp hstep
      obtain ⟨P', pc', -, rfl⟩ := Sys.threads_step.mp hu
      refine ⟨fun j hj => ?_, h2⟩
      have hother : Function.update t.1.2 i pc' j = t.1.2 j := Function.update_of_ne (by omega) _ _
      exact hother.trans (h1 j hj)
    · intro l hl
      simp only [overlapRun, List.mem_cons, List.not_mem_nil, or_false] at hl
      rcases hl with rfl | rfl | rfl | rfl | rfl | rfl | rfl | rfl | rfl | rfl | rfl | rfl | rfl | rfl | rfl <;>
        exact ⟨_, _, rfl, by omega⟩
  exact ⟨_, rfl, rfl, hload, pool_bounded (fun _ => true) _ _ { args := args, stream := () }
    { args := argsS, stream := {} } (str "h", str "80") 2 0 overlapRun _ rfl hload⟩

/-! ### Idle connections -/

/-- The time a step reads on the clock. -/
def clock : Ev → Option ℤ
  | .sweep now | .search now | .push now | .release now => some now
  | _ => none

/-- No idle entry is older than the time limit, seen from the time `t`. -/
def Young (K : H1Kind A S) (t : ℤ) (P : Pool A S) : Prop :=
  ∀ p ∈ P.cache.conns, K.idle (P.cache.mem p) = true → t - (P.cache.mem p).lastUse ≤ unuseTimeout

theorem young_sweep (K : H1Kind A S) (t : ℤ) (P : Pool A S) : Young K t (P.sweep K t) := by
  intro p hp hidle
  obtain ⟨-, hexp⟩ := Cache.mem_deleteTimeout.mp hp
  have hidle' : K.idle (P.cache.mem p) = true := hidle
  simp only [Cache.expired, hidle', Bool.true_and, decide_eq_false_iff_not, not_lt] at hexp
  exact hexp

theorem young_release {K : H1Kind A S} {P : Pool A S} {t now : ℤ} (hy : Young K t P) (ht : t ≤ now) (i p : ℕ) :
    Young K t (P.release i now p) := by
  intro q hq hidle
  by_cases hp : p ∈ P.cache.conns
  · simp only [Pool.release, Cache.release, if_pos hp] at hq hidle ⊢
    by_cases hqp : q = p
    · rw [hqp, Function.update_self]
      show t - now ≤ unuseTimeout
      unfold unuseTimeout
      omega
    · rw [Function.update_of_ne hqp] at hidle ⊢
      exact hy q hq hidle
  · simp only [Pool.release, Cache.release, if_neg hp] at hq hidle ⊢
    exact hy q hq hidle

/-- Only a release makes an entry idle, and it takes the time. -/
theorem young_step {K : H1Kind A S} (hK : Lawful K) {args : ℕ → A} {i : ℕ} {P P' : Pool A S} {pc pc' : Pc}
    {e : Ev} {H F : ℕ → Option ℕ} {t : ℤ} (hI : Inv K args P H F) (hy : Young K t P)
    (h : step K args i P pc e = some (P', pc')) (hclock : ∀ x ∈ clock e, t ≤ x) : Young K t P' := by
  -- a write to an object that is not in the list, or that is in use afterwards
  have hwrite : ∀ {P' : Pool A S} {p : ℕ} {o : Conn A S},
      (∀ q ∈ P'.cache.conns, q = p ∨ q ∈ P.cache.conns) →
      P'.cache.mem = Function.update P.cache.mem p o →
      (p ∉ P'.cache.conns ∨ o.inUse = true) → Young K t P' := by
    intro P' p o hsub hmem hnew q hq hidle
    rw [hmem] at hidle ⊢
    by_cases hqp : q = p
    · rw [hqp, Function.update_self, hK.idle] at hidle
      rcases hnew with hnew | huse
      · exact absurd (hqp ▸ hq) hnew
      · exact absurd hidle (by simp [huse])
    · rw [Function.update_of_ne hqp] at hidle ⊢
      exact hy q ((hsub q hq).resolve_left hqp) hidle
  rcases step_move h with ⟨-, -, -⟩ | now | ⟨now, p, hp⟩ | ⟨st, hst⟩ | ⟨now, p⟩ | ⟨p, r⟩ | ⟨now, p, res⟩
  · exact hy
  · intro q hq hidle
    exact hy q (Cache.mem_deleteTimeout.mp hq).1 hidle
  · exact hwrite (fun q hq => Or.inr hq) rfl (Or.inr (hK.inUse _ _ _))
  · refine hwrite (fun q hq => Or.inr hq) rfl (Or.inl fun hbad => ?_)
    exact absurd (hI.bound _ hbad) (by omega)
  · refine hwrite (fun q hq => ?_) rfl (Or.inr rfl)
    rcases List.mem_append.mp hq with hq | hq
    · exact Or.inr hq
    · exact Or.inl (List.mem_singleton.mp hq)
  · intro q hq hidle
    exact hy q (List.mem_of_mem_erase hq) hidle
  · rcases e with _ | _ | _ | _ | _ | _ | _ | _ | _ | _ | now'
    case release =>
      have heq : P.release i now' p = P.release i now p := (Prod.mk.inj (Option.some.inj h)).1
      rw [← heq]
      exact young_release hy (hclock now' rfl) i p
    all_goals exact absurd h (by simp [step])

/-- Between its sweep at the time `t` and its search a call sees no idle entry of its pool that is older
than the time limit, if the clock shows no earlier time in between. -/
theorem young_of_search {K : H1Kind A S} (hK : Lawful K) {args : ℕ → A} {o : Conn A S}
    {es es' : List (ℕ × Ev)} {i p : ℕ} {t : ℤ} {s : Pool A S × (ℕ → Pc)}
    (hrun : (sys K args o).exec (es ++ (i, .sweep t) :: es') = some s)
    (hclock : ∀ l ∈ es', ∀ x ∈ clock l.2, t ≤ x)
    (hsearch : s.1.cache.search K.toKind (args i) = some p) :
    t - (s.1.cache.mem p).lastUse ≤ unuseTimeout := by
  obtain ⟨s1, h1, hrest⟩ := Sys.run_append.mp hrun
  obtain ⟨s2, h2, h3⟩ := Sys.run_cons.mp hrest
  have hgood := Sys.run_inv (good_step hK) h1 (good_init K args o)
  have hgood2 := good_step hK s1 _ s2 hgood h2
  have hyoung : Young K t s2.1 := by
    obtain ⟨P', pc', hst, rfl⟩ := Sys.threads_step.mp h2
    rcases hpc : s1.2 i with _ | _ | _ | _ | _ | _ | _ | _ | _ | _ | _ | _
    case sweep =>
      rw [hpc] at hst
      rw [← (Prod.mk.inj (Option.some.inj hst)).1]
      exact young_sweep K t s1.1
    all_goals
      rw [hpc] at hst
      exact absurd hst (by simp [step])
  have hinv : Good K args s ∧ Young K t s.1 := by
    refine Sys.run_inv_along (C := fun _ l => ∀ x ∈ clock l.2, t ≤ x)
      (P := fun u => Good K args u ∧ Young K t u.1) ?_ (Sys.along_of_mem fun l hl _ => hclock l hl) h3
      ⟨hgood2, hyoung⟩
    intro u l u' hu hl hstep
    refine ⟨good_step hK u l u' hu.1 hstep, ?_⟩
    obtain ⟨P', pc', hst, rfl⟩ := Sys.threads_step.mp hstep
    exact young_step hK hu.1.inv hu.2 hst hl
  obtain ⟨hp, hidle, -, -⟩ := Cache.search_some hsearch
  exact hinv.2 p hp hidle

/-- **No stale connection is reused**, in either pool: if call `i` has swept at the time `t`, the clock has
shown no earlier time since, and the search of the call finds an entry, then this has been idle for no
longer than the time limit at the time of the sweep. -/
theorem reuse_young (certOk : Str → Bool) (args : ℕ → HttpReqArgument) (argsS : ℕ → HttpsReqArgument)
    (o : Conn HttpReqArgument Unit) (oS : Conn HttpsReqArgument SslContext) (es es' : List (ℕ × Ev))
    (i p : ℕ) (t : ℤ) (hclock : ∀ l ∈ es', ∀ x ∈ clock l.2, t ≤ x) :
    (∀ s : Pool HttpReqArgument Unit × (ℕ → Pc),
      (sys http args o).exec (es ++ (i, .sweep t) :: es') = some s →
      s.1.cache.search http.toKind (args i) = some p →
      t - (s.1.cache.mem p).lastUse ≤ unuseTimeout) ∧
    ∀ s : Pool HttpsReqArgument SslContext × (ℕ → Pc),
      (sys (https certOk) argsS oS).exec (es ++ (i, .sweep t) :: es') = some s →
      s.1.cache.search (https certOk).toKind (argsS i) = some p →
      t - (s.1.cache.mem p).lastUse ≤ unuseTimeout :=
  ⟨fun _ hrun => young_of_search http_lawful hrun hclock,
    fun _ hrun => young_of_search (https_lawful certOk) hrun hclock⟩

/-- Call 0 has a connection and its response, and call 1 starts. -/
def readRun : List (ℕ × Ev) :=
  [(0, .call), (0, .sweep 0), (0, .search 0), (0, .create), (0, .io true), (0, .io true), (0, .push 1),
    (0, .write none), (0, .read (.ok { fields := [(str "Content-Length", str "0")] })), (1, .call)]

/-- Call 1 sweeps, call 0 gives its connection back, and call 1 finds it. -/
theorem reuse_young_readRun :
    let a : HttpReqArgument := { host := str "h", port := str "80" }
    ∃ s, (sys http (fun _ => a) { args := a, stream := () }).exec
        (readRun ++ (1, .sweep 50) :: [(0, .release 60)]) = some s ∧
      s.1.cache.search http.toKind a = some 0 ∧ 50 - (s.1.cache.mem 0).lastUse ≤ unuseTimeout := by
  intro a
  let aS : HttpsReqArgument := { host := str "h", port := str "443" }
  refine ⟨_, rfl, rfl, ?_⟩
  have hclock : ∀ l ∈ [((0 : ℕ), Ev.release 60)], ∀ x ∈ clock l.2, (50 : ℤ) ≤ x := by
    intro l hl x hx
    obtain rfl := List.mem_singleton.mp hl
    obtain rfl := Option.some.inj hx
    omega
  exact (reuse_young (fun _ => true) (fun _ => a) (fun _ => aS) { args := a, stream := () }
    { args := aS, stream := {} } readRun [(0, .release 60)] 1 0 50 hclock).1 _ rfl rfl

end Jkit.Http.Client.Bound
