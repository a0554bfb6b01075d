import Jkit.Http.Client.H1
import Jkit.Lib.Hold
import Mathlib.Data.List.Count

/-! # Leases of the HTTP and HTTPS pools

Every step of a call is one of the moves of `Move`: it does not touch the pool, or it is one of the
six locked sections. `Inv` relates the pool, the leases `H` (the connection a call holds) and the
connections under construction `F` (created, not yet pushed); each move keeps it. What follows for
the pool is `LeaseSafe`. -/

namespace Jkit.Http.Client.Lease

open Jkit.Http.Message Jkit.Http.Client.Conns Jkit.Http.Client.H1 Jkit.Lib.Run Jkit.Lib.Hold

variable {A S : Type}

/-! ### Leases -/

/-- The connection a call has a lease on. -/
def held : Pc → Option ℕ
  | .write p | .read p | .close p _ | .erase p _ | .release p _ => some p
  | _ => none

/-- The connection a call has created and not yet pushed. -/
def fresh : Pc → Option ℕ
  | .opening p _ | .push p => some p
  | _ => none

/-- The connection a history entry takes out of the pool. -/
def gone : Lease → Option ℕ
  | .erased _ p | .swept p => some p
  | _ => none

/-- The connection a history entry hands to a call. -/
def got : Lease → Option ℕ
  | .leased _ p => some p
  | _ => none

/-- The entry starts a lease of call `i`. -/
def begins (i : ℕ) : Lease → Bool
  | .leased j _ => i == j
  | _ => false

/-- The entry ends a lease of call `i`. -/
def ends (i : ℕ) : Lease → Bool
  | .released j _ | .erased j _ => i == j
  | _ => false

/-- **Leases are exclusive and none leaks.** -/
structure LeaseSafe (K : H1Kind A S) (args : ℕ → A) (s : Pool A S × (ℕ → Pc)) : Prop where
  /-- An object is in the list at most once. -/
  nodup : s.1.cache.conns.Nodup
  /-- An entry in use is held by exactly one running call. -/
  inUse : ∀ p ∈ s.1.cache.conns, (s.1.cache.mem p).inUse = true → ∃! i, held (s.2 i) = some p
  /-- An entry not in use is held by none. -/
  free : ∀ p ∈ s.1.cache.conns, (s.1.cache.mem p).inUse = false → ∀ i, held (s.2 i) ≠ some p
  /-- No connection is used by two calls, be it leased or still being opened. -/
  exclusive : ∀ i j p, (held (s.2 i) = some p ∨ fresh (s.2 i) = some p) →
    (held (s.2 j) = some p ∨ fresh (s.2 j) = some p) → i = j
  /-- The sweep keeps what a call holds, at any time on the clock. -/
  sweep : ∀ now i p, held (s.2 i) = some p → p ∈ (s.1.sweep K now).cache.conns
  /-- A call gets at most one lease, and a lease that is held has not been ended. -/
  lease : ∀ i p, held (s.2 i) = some p →
    s.1.log.countP (begins i) = 1 ∧ s.1.log.countP (ends i) = 0
  /-- A call that has returned has ended the lease it got, once. -/
  returned : ∀ i r, s.2 i = .done r →
    s.1.log.countP (begins i) ≤ 1 ∧ s.1.log.countP (ends i) = s.1.log.countP (begins i)
  /-- After an erase or a sweep of a connection no lease on it starts. -/
  erased : s.1.log.Pairwise fun new old => ∀ p, gone old = some p → got new ≠ some p
  /-- The connection of a call has the host and the port it asked for. -/
  peer : ∀ i p, held (s.2 i) = some p → K.host (s.1.cache.mem p).args = K.host (args i) ∧
    K.port (s.1.cache.mem p).args = K.port (args i)

/-! ### The moves -/

/-- What a step of call `i` can do. -/
inductive Move (K : H1Kind A S) (args : ℕ → A) (i : ℕ) (P : Pool A S) : Pc → Pool A S → Pc → Prop
  | inner {pc pc' : Pc} (hd : ∀ r, pc ≠ .done r) (hh : held pc' = held pc)
      (hf : fresh pc' = fresh pc ∨ fresh pc' = none) : Move K args i P pc P pc'
  | sweep (now : ℤ) : Move K args i P .sweep (P.sweep K now) .search
  | reuse (now : ℤ) (p : ℕ) (h : P.cache.search K.toKind (args i) = some p) :
      Move K args i P .search (P.reuse K i (args i) now p) (.write p)
  | create (st : S) (h : K.newStream (args i) = some st) : Move K args i P .create
      ⟨P.cache.alloc { args := args i, stream := st }, P.log⟩ (.opening P.cache.next K.opening)
  | push (now : ℤ) (p : ℕ) : Move K args i P (.push p) (P.push i now p) (.write p)
  | erase (p : ℕ) (r : Result) : Move K args i P (.erase p r) (P.deleteInvalid i p) (.done r)
  | release (now : ℤ) (p : ℕ) (res : StrResponse) :
      Move K args i P (.release p res) (P.release i now p) (.done (.response res))

theorem step_move {K : H1Kind A S} {args : ℕ → A} {i : ℕ} {P P' : Pool A S} {pc pc' : Pc} {e : Ev}
    (h : step K args i P pc e = some (P', pc')) : Move K args i P pc P' pc' := by
  cases pc with
  | idle =>
    cases e with
    | call => cases h; exact .inner (by simp) rfl (.inl rfl)
    | _ => cases h
  | sweep =>
    cases e with
    | sweep now => cases h; exact .sweep now
    | _ => cases h
  | search =>
    cases e with
    | search now =>
      simp only [step] at h
      split at h
      · next p hp => cases h; exact .reuse now p hp
      · cases h; exact .inner (by simp) rfl (.inl rfl)
    | _ => cases h
  | create =>
    cases e with
    | create =>
      simp only [step] at h
      split at h
      · next st hst => cases h; exact .create st hst
      · cases h; exact .inner (by simp) rfl (.inl rfl)
    | _ => cases h
  | opening p todo =>
    cases todo with
    | nil => cases h
    | cons o todo =>
      cases e with
      | io ok =>
        cases ok with
        | true => cases h; exact .inner (by simp) (by split <;> rfl) (by split <;> exact .inl rfl)
        | false => cases h; exact .inner (by simp) rfl (.inr rfl)
      | _ => cases h
  | push p =>
    cases e with
    | push now => cases h; exact .push now p
    | _ => cases h
  | write p =>
    cases e with
    | write ec =>
      cases ec with
      | none => cases h; exact .inner (by simp) rfl (.inl rfl)
      | some x => cases h; exact .inner (by simp) rfl (.inl rfl)
    | _ => cases h
  | read p =>
    cases e with
    | read r =>
      cases r with
      | error x => cases h; exact .inner (by simp) rfl (.inl rfl)
      | ok res => cases h; exact .inner (by simp) (by split <;> rfl) (by split <;> exact .inl rfl)
    | _ => cases h
  | close p res =>
    cases e with
    | close => cases h; exact .inner (by simp) rfl (.inl rfl)
    | _ => cases h
  | erase p r =>
    cases e with
    | erase => cases h; exact .erase p r
    | _ => cases h
  | release p res =>
    cases e with
    | release now => cases h; exact .release now p res
    | _ => cases h
  | done r => cases h

/-- The history only grows. -/
theorem Move.log_mono {K : H1Kind A S} {args : ℕ → A} {i : ℕ} {P P' : Pool A S} {pc pc' : Pc}
    (h : Move K args i P pc P' pc') : ∀ ev ∈ P.log, ev ∈ P'.log := by
  intro ev hev
  cases h with
  | inner | create => exact hev
  | sweep now => exact List.mem_append_right _ hev
  | reuse | push => exact List.mem_cons_of_mem _ hev
  | erase p r =>
    simp only [Pool.deleteInvalid]
    split_ifs
    · exact List.mem_cons_of_mem _ hev
    · exact hev
  | release now p res =>
    simp only [Pool.release]
    split_ifs
    · exact List.mem_cons_of_mem _ hev
    · exact hev

/-! ### The invariant -/

/-- What the invariant needs of a pool: `in_use` guards the search and the sweep, and the reuse
branch sets it and leaves the peer alone. -/
structure Lawful (K : H1Kind A S) : Prop where
  idle : ∀ o, K.idle o = !o.inUse
  inUse : ∀ a now o, (K.reuse a now o).inUse = true
  host : ∀ a now o, K.host (K.reuse a now o).args = K.host o.args
  port : ∀ a now o, K.port (K.reuse a now o).args = K.port o.args

theorem http_lawful : Lawful http := ⟨fun _ => rfl, fun _ _ _ => rfl, fun _ _ _ => rfl, fun _ _ _ => rfl⟩

theorem https_lawful (certOk : Str → Bool) : Lawful (https certOk) :=
  ⟨fun _ => rfl, fun _ _ _ => rfl, fun _ _ _ => rfl, fun _ _ _ => rfl⟩

/-- The object `p` has the peer that call `i` asked for. -/
def Peer (K : H1Kind A S) (args : ℕ → A) (c : Cache A S) (i p : ℕ) : Prop :=
  K.host (c.mem p).args = K.host (args i) ∧ K.port (c.mem p).args = K.port (args i)

/-- A write to an object that leaves its peer alone. -/
theorem Peer.write {K : H1Kind A S} {args : ℕ → A} {c c' : Cache A S} {i p q : ℕ} {o : Conn A S}
    (h : Peer K args c i q) (hc : c'.mem = Function.update c.mem p o)
    (hhost : K.host o.args = K.host (c.mem p).args) (hport : K.port o.args = K.port (c.mem p).args) :
    Peer K args c' i q := by
  unfold Peer at h ⊢
  rw [hc, Function.update_apply]
  split_ifs with hqp
  · rw [hhost, hport, ← hqp]
    exact h
  · exact h

/-- The pool with the leases `H` and the connections under construction `F`. -/
structure Inv (K : H1Kind A S) (args : ℕ → A) (P : Pool A S) (H F : ℕ → Option ℕ) : Prop where
  nodup : P.cache.conns.Nodup
  bound : ∀ p ∈ P.cache.conns, p < P.cache.next
  held : ∀ i p, H i = some p →
    p ∈ P.cache.conns ∧ (P.cache.mem p).inUse = true ∧ Peer K args P.cache i p
  fresh : ∀ i p, F i = some p → p < P.cache.next ∧ p ∉ P.cache.conns ∧ Peer K args P.cache i p
  heldOne : Exclusive H
  freshOne : Exclusive F
  busy : ∀ p ∈ P.cache.conns, (P.cache.mem p).inUse = true → ∃ i, H i = some p
  gone : ∀ ev ∈ P.log, ∀ p, gone ev = some p →
    p < P.cache.next ∧ p ∉ P.cache.conns ∧ ∀ i, F i ≠ some p
  order : P.log.Pairwise fun new old => ∀ p, Lease.gone old = some p → got new ≠ some p

section Moves

variable {K : H1Kind A S} {args : ℕ → A} {P : Pool A S} {H F : ℕ → Option ℕ}

theorem Inv.drop (h : Inv K args P H F) (i : ℕ) : Inv K args P H (Function.update F i none) := by
  refine { h with fresh := ?_, freshOne := h.freshOne.drop, gone := ?_ }
  · exact fun j p hj => h.fresh j p (of_drop hj).2
  · intro ev hev p hp
    obtain ⟨h1, h2, h3⟩ := h.gone ev hev p hp
    exact ⟨h1, h2, fun j hj => h3 j (of_drop hj).2⟩

theorem Inv.sweep (hK : Lawful K) (h : Inv K args P H F) (now : ℤ) :
    Inv K args (P.sweep K now) H F := by
  have hsub : ∀ p, p ∈ (P.sweep K now).cache.conns → p ∈ P.cache.conns := fun p hp =>
    (Cache.mem_deleteTimeout.mp hp).1
  have hkeep : ∀ p ∈ P.cache.conns, (P.cache.mem p).inUse = true →
      p ∈ (P.sweep K now).cache.conns := by
    intro p hp hu
    refine Cache.mem_deleteTimeout.mpr ⟨hp, ?_⟩
    simp [Cache.expired, hK.idle, hu]
  have hnew : ∀ ev ∈ (P.sweep K now).log, ev ∈ P.log ∨
      ∃ p ∈ P.cache.conns, p ∉ (P.sweep K now).cache.conns ∧ ev = .swept p := by
    intro ev hev
    simp only [Pool.sweep, List.mem_append, List.mem_reverse, List.mem_map, List.mem_filter] at hev
    rcases hev with ⟨p, ⟨hp, hx⟩, rfl⟩ | hev
    · exact .inr ⟨p, hp, fun hc => by simp [(Cache.mem_deleteTimeout.mp hc).2] at hx, rfl⟩
    · exact .inl hev
  refine ⟨h.nodup.filter _, fun p hp => h.bound p (hsub p hp), ?_, ?_, h.heldOne, h.freshOne,
    fun p hp hu => h.busy p (hsub p hp) hu, ?_, ?_⟩
  · intro i p hi
    obtain ⟨h1, h2, h3⟩ := h.held i p hi
    exact ⟨hkeep p h1 h2, h2, h3⟩
  · intro i p hi
    obtain ⟨h1, h2, h3⟩ := h.fresh i p hi
    exact ⟨h1, fun hc => h2 (hsub p hc), h3⟩
  · intro ev hev q hq
    rcases hnew ev hev with hev | ⟨p, hp, hnp, rfl⟩
    · obtain ⟨h1, h2, h3⟩ := h.gone ev hev q hq
      exact ⟨h1, fun hc => h2 (hsub q hc), h3⟩
    · simp only [Lease.gone, Option.some.injEq] at hq
      subst hq
      exact ⟨h.bound p hp, hnp, fun i hi => (h.fresh i p hi).2.1 hp⟩
  · refine List.pairwise_append.mpr ⟨?_, h.order, ?_⟩
    · refine List.pairwise_of_forall_mem_list fun a ha b _ p _ => ?_
      obtain ⟨q, -, rfl⟩ := List.mem_map.mp (List.mem_reverse.mp ha)
      simp [got]
    · intro a ha b _ p _
      obtain ⟨q, -, rfl⟩ := List.mem_map.mp (List.mem_reverse.mp ha)
      simp [got]

/-- A lease starts on an entry of the list that no call holds. -/
theorem Inv.reuse (hK : Lawful K) (h : Inv K args P H F) {i p : ℕ} (now : ℤ) (hi : H i = none)
    (hp : P.cache.search K.toKind (args i) = some p) :
    Inv K args (P.reuse K i (args i) now p) (Function.update H i (some p)) F := by
  obtain ⟨hpc, hidle, hhost, hport⟩ := Cache.search_some hp
  have hfree : ∀ j, H j ≠ some p := by
    intro j hj
    have hu := (h.held j p hj).2.1
    rw [hK.idle, hu] at hidle
    cases hidle
  have hpeer : ∀ j q, Peer K args P.cache j q → Peer K args (P.reuse K i (args i) now p).cache j q :=
    fun _ _ hq => hq.write rfl (hK.host _ _ _) (hK.port _ _ _)
  have hin : ∀ q, (P.cache.mem q).inUse = true →
      ((P.reuse K i (args i) now p).cache.mem q).inUse = true := by
    intro q hq
    simp only [Pool.reuse, Cache.reuse, Function.update_apply]
    split_ifs
    · exact hK.inUse _ _ _
    · exact hq
  refine ⟨h.nodup, h.bound, ?_, ?_, h.heldOne.take hfree, h.freshOne, ?_, ?_, ?_⟩
  · intro j q hj
    rcases of_take hj with ⟨rfl, rfl⟩ | ⟨-, hj⟩
    · refine ⟨hpc, ?_, hpeer _ _ ⟨hhost, hport⟩⟩
      simp [Pool.reuse, Cache.reuse, hK.inUse]
    · obtain ⟨h1, h2, h3⟩ := h.held j q hj
      exact ⟨h1, hin q h2, hpeer _ _ h3⟩
  · intro j q hj
    obtain ⟨h1, h2, h3⟩ := h.fresh j q hj
    exact ⟨h1, h2, hpeer _ _ h3⟩
  · intro q hq hu
    by_cases hqp : q = p
    · exact ⟨i, by simp [hqp]⟩
    · simp only [Pool.reuse, Cache.reuse, Function.update_apply, if_neg hqp] at hu
      exact holder_update (by simp [hi]) (h.busy q hq hu)
  · intro ev hev q hq
    rcases List.mem_cons.mp hev with rfl | hev
    · cases hq
    · exact h.gone ev hev q hq
  · refine List.Pairwise.cons ?_ h.order
    intro old hold q hq hgot
    cases hgot
    exact (h.gone old hold p hq).2.1 hpc

theorem Inv.create (h : Inv K args P H F) {i : ℕ} (st : S) :
    Inv K args ⟨P.cache.alloc { args := args i, stream := st }, P.log⟩ H
      (Function.update F i (some P.cache.next)) := by
  have hold : ∀ q, q < P.cache.next →
      (P.cache.alloc { args := args i, stream := st }).mem q = P.cache.mem q := by
    intro q hq
    simp only [Cache.alloc]
    rw [Function.update_of_ne (by omega)]
  have hpeer : ∀ j q, q < P.cache.next → Peer K args P.cache j q →
      Peer K args (P.cache.alloc { args := args i, stream := st }) j q := by
    intro j q hq hp
    unfold Peer
    rw [hold q hq]
    exact hp
  have hlt : ∀ {q}, q < P.cache.next → q < P.cache.next + 1 := fun hq => by omega
  have hnew : ∀ j, F j ≠ some P.cache.next := fun j hj => absurd (h.fresh j _ hj).1 (by omega)
  refine ⟨h.nodup, fun p hp => hlt (h.bound p hp), ?_, ?_, h.heldOne, h.freshOne.take hnew, ?_, ?_,
    h.order⟩
  · intro j p hj
    obtain ⟨h1, h2, h3⟩ := h.held j p hj
    have hp := h.bound p h1
    exact ⟨h1, by simp only [hold p hp, h2], hpeer j p hp h3⟩
  · intro j p hj
    rcases of_take hj with ⟨rfl, rfl⟩ | ⟨-, hj⟩
    · refine ⟨by simp [Cache.alloc], fun hc => absurd (h.bound _ hc) (by omega), ?_⟩
      simp [Peer, Cache.alloc]
    · obtain ⟨h1, h2, h3⟩ := h.fresh j p hj
      exact ⟨hlt h1, h2, hpeer j p h1 h3⟩
  · intro p hp hu
    have hb := h.bound p hp
    simp only [hold p hb] at hu
    exact h.busy p hp hu
  · intro ev hev p hp
    obtain ⟨h1, h2, h3⟩ := h.gone ev hev p hp
    refine ⟨hlt h1, h2, fun j hj => ?_⟩
    rcases of_take hj with ⟨rfl, rfl⟩ | ⟨-, hj⟩
    · omega
    · exact h3 j hj

/-- A lease starts on the new entry, which no other call knows. -/
theorem Inv.push (h : Inv K args P H F) {i p : ℕ} (now : ℤ) (hi : H i = none) (hp : F i = some p) :
    Inv K args (P.push i now p) (Function.update H i (some p)) (Function.update F i none) := by
  obtain ⟨hlt, hnew, hpe⟩ := h.fresh i p hp
  have hfree : ∀ j, H j ≠ some p := fun j hj => hnew (h.held j p hj).1
  have hmem : ∀ q, q ∈ (P.push i now p).cache.conns ↔ q ∈ P.cache.conns ∨ q = p := by
    intro q
    simp [Pool.push, Cache.push]
  have hpeer : ∀ j q, Peer K args P.cache j q → Peer K args (P.push i now p).cache j q :=
    fun _ _ hq => hq.write rfl rfl rfl
  have hout : ∀ q, q ∉ P.cache.conns → q ≠ p → q ∉ (P.push i now p).cache.conns := by
    intro q hq hqp hc
    exact ((hmem q).mp hc).elim hq hqp
  refine ⟨?_, ?_, ?_, ?_, h.heldOne.take hfree, h.freshOne.drop, ?_, ?_, ?_⟩
  · simp only [Pool.push, Cache.push]
    exact List.Nodup.append h.nodup (by simp) (by simpa using hnew)
  · intro q hq
    rcases (hmem q).mp hq with hq | rfl
    · exact h.bound q hq
    · exact hlt
  · intro j q hj
    rcases of_take hj with ⟨rfl, rfl⟩ | ⟨-, hj⟩
    · exact ⟨(hmem q).mpr (.inr rfl), by simp [Pool.push, Cache.push], hpeer _ _ hpe⟩
    · obtain ⟨h1, h2, h3⟩ := h.held j q hj
      refine ⟨(hmem q).mpr (.inl h1), ?_, hpeer _ _ h3⟩
      have hqp : q ≠ p := by rintro rfl; exact hnew h1
      simp only [Pool.push, Cache.push, Function.update_of_ne hqp, h2]
  · intro j q hj
    obtain ⟨hj, hqp⟩ := h.freshOne.ne_of_drop hp hj
    obtain ⟨h1, h2, h3⟩ := h.fresh j q hj
    exact ⟨h1, hout q h2 hqp, hpeer _ _ h3⟩
  · intro q hq hu
    by_cases hqp : q = p
    · exact ⟨i, by simp [hqp]⟩
    · simp only [Pool.push, Cache.push, Function.update_of_ne hqp] at hu
      exact holder_update (by simp [hi]) (h.busy q (((hmem q).mp hq).resolve_right hqp) hu)
  · intro ev hev q hq
    rcases List.mem_cons.mp hev with rfl | hev
    · cases hq
    · obtain ⟨h1, h2, h3⟩ := h.gone ev hev q hq
      have hqp : q ≠ p := by rintro rfl; exact h3 i hp
      exact ⟨h1, hout q h2 hqp, fun j hj => h3 j (of_drop hj).2⟩
  · refine List.Pairwise.cons ?_ h.order
    intro old hold q hq hgot
    cases hgot
    exact (h.gone old hold p hq).2.2 i hp

theorem Inv.erase (h : Inv K args P H F) {i p : ℕ} (hi : H i = some p) :
    Inv K args (P.deleteInvalid i p) (Function.update H i none) F := by
  have hpc := (h.held i p hi).1
  have hmem : ∀ q, q ∈ (P.deleteInvalid i p).cache.conns ↔ q ≠ p ∧ q ∈ P.cache.conns := fun q =>
    h.nodup.mem_erase_iff
  have hlog : (P.deleteInvalid i p).log = .erased i p :: P.log := if_pos hpc
  refine ⟨h.nodup.erase _, fun q hq => h.bound q ((hmem q).mp hq).2, ?_, ?_, h.heldOne.drop,
    h.freshOne, ?_, ?_, ?_⟩
  · intro j q hj
    obtain ⟨hj, hqp⟩ := h.heldOne.ne_of_drop hi hj
    obtain ⟨h1, h2, h3⟩ := h.held j q hj
    exact ⟨(hmem q).mpr ⟨hqp, h1⟩, h2, h3⟩
  · intro j q hj
    obtain ⟨h1, h2, h3⟩ := h.fresh j q hj
    exact ⟨h1, fun hc => h2 ((hmem q).mp hc).2, h3⟩
  · intro q hq hu
    obtain ⟨hqp, hq⟩ := (hmem q).mp hq
    exact holder_update (by simpa [hi] using Ne.symm hqp) (h.busy q hq hu)
  · intro ev hev q hq
    rw [hlog] at hev
    rcases List.mem_cons.mp hev with rfl | hev
    · cases hq
      exact ⟨h.bound p hpc, fun hc => ((hmem p).mp hc).1 rfl, fun j hj => (h.fresh j p hj).2.1 hpc⟩
    · obtain ⟨h1, h2, h3⟩ := h.gone ev hev q hq
      exact ⟨h1, fun hc => h2 ((hmem q).mp hc).2, h3⟩
  · rw [hlog]
    exact List.Pairwise.cons (fun _ _ _ _ hgot => by cases hgot) h.order

theorem Inv.release (h : Inv K args P H F) {i p : ℕ} (now : ℤ) (hi : H i = some p) :
    Inv K args (P.release i now p) (Function.update H i none) F := by
  have hpc := (h.held i p hi).1
  have hcache : (P.release i now p).cache = { P.cache with
      mem := Function.update P.cache.mem p { P.cache.mem p with inUse := false, lastUse := now } } :=
    if_pos hpc
  have hlog : (P.release i now p).log = .released i p :: P.log := if_pos hpc
  have hpeer : ∀ j q, Peer K args P.cache j q → Peer K args (P.release i now p).cache j q :=
    fun _ _ hq => hq.write (congrArg Cache.mem hcache) rfl rfl
  refine ⟨by rw [hcache]; exact h.nodup, by rw [hcache]; exact h.bound, ?_, ?_, h.heldOne.drop,
    h.freshOne, ?_, ?_, ?_⟩
  · intro j q hj
    obtain ⟨hj, hqp⟩ := h.heldOne.ne_of_drop hi hj
    obtain ⟨h1, h2, h3⟩ := h.held j q hj
    refine ⟨by rw [hcache]; exact h1, ?_, hpeer _ _ h3⟩
    simp only [hcache, Function.update_of_ne hqp, h2]
  · intro j q hj
    obtain ⟨h1, h2, h3⟩ := h.fresh j q hj
    exact ⟨by rw [hcache]; exact h1, by rw [hcache]; exact h2, hpeer _ _ h3⟩
  · intro q hq hu
    rw [hcache] at hq hu
    have hqp : q ≠ p := by rintro rfl; simp at hu
    simp only [Function.update_of_ne hqp] at hu
    exact holder_update (by simpa [hi] using Ne.symm hqp) (h.busy q hq hu)
  · intro ev hev q hq
    rw [hlog] at hev
    rw [hcache]
    rcases List.mem_cons.mp hev with rfl | hev
    · cases hq
    · exact h.gone ev hev q hq
  · rw [hlog]
    exact List.Pairwise.cons (fun _ _ _ _ hgot => by cases hgot) h.order

end Moves

/-! ### Counting leases -/

/-- How many leases of call `i` the log shows to have started and ended, by the position of `i`. -/
structure Tally (log : List Lease) (i : ℕ) (pc : Pc) : Prop where
  before : held pc = none → (∀ r, pc ≠ .done r) →
    log.countP (begins i) = 0 ∧ log.countP (ends i) = 0
  during : held pc ≠ none → log.countP (begins i) = 1 ∧ log.countP (ends i) = 0
  after : ∀ r, pc = .done r →
    log.countP (begins i) ≤ 1 ∧ log.countP (ends i) = log.countP (begins i)

theorem Tally.congr {log log' : List Lease} {i : ℕ} {pc : Pc} (h : Tally log i pc)
    (hb : log'.countP (begins i) = log.countP (begins i))
    (he : log'.countP (ends i) = log.countP (ends i)) : Tally log' i pc := by
  obtain ⟨h1, h2, h3⟩ := h
  exact ⟨by rwa [hb, he], by rwa [hb, he], by rwa [hb, he]⟩

theorem countP_swept (f : Lease → Bool) (hf : ∀ p, f (.swept p) = false) (l : List ℕ)
    (log : List Lease) : ((l.map Lease.swept).reverse ++ log).countP f = log.countP f := by
  rw [List.countP_append, List.countP_reverse, List.countP_map]
  simp [Function.comp_def, hf]

/-- An entry about another call does not count. -/
theorem Tally.other {log : List Lease} {j : ℕ} {pc : Pc} {ev : Lease} (h : Tally log j pc)
    (hb : begins j ev = false) (he : ends j ev = false) : Tally (ev :: log) j pc :=
  h.congr (by simp [hb]) (by simp [he])

theorem Tally.begin {log : List Lease} {i p : ℕ} {pc : Pc} (h : Tally log i pc)
    (hn : held pc = none) (hd : ∀ r, pc ≠ .done r) : Tally (.leased i p :: log) i (.write p) := by
  obtain ⟨h1, h2⟩ := h.before hn hd
  refine ⟨by simp [held], fun _ => ?_, by simp⟩
  simp [begins, ends, h1, h2]

theorem Tally.finish {log : List Lease} {i : ℕ} {pc : Pc} {ev : Lease} (h : Tally log i pc)
    (hn : held pc ≠ none) (hb : begins i ev = false) (he : ends i ev = true) (r : Result) :
    Tally (ev :: log) i (.done r) := by
  obtain ⟨h1, h2⟩ := h.during hn
  refine ⟨by simp, by simp [held], fun _ _ => ?_⟩
  simp [hb, he, h1, h2]

/-- The counts of the other calls do not change, and the mover's change with its position. -/
theorem Move.tally {K : H1Kind A S} {args : ℕ → A} {i : ℕ} {P P' : Pool A S} {pc pc' : Pc}
    (h : Move K args i P pc P' pc') (hheld : ∀ p, held pc = some p → p ∈ P.cache.conns) :
    (Tally P.log i pc → Tally P'.log i pc') ∧
      ∀ j u, j ≠ i → Tally P.log j u → Tally P'.log j u := by
  cases h with
  | inner hd hh hf =>
    refine ⟨fun ht => ⟨fun hn _ => ht.before (hh ▸ hn) hd, fun hn => ht.during (hh ▸ hn), ?_⟩,
      fun _ _ _ h => h⟩
    rintro r rfl
    have := ht.before hh.symm hd
    omega
  | sweep now =>
    have hc : ∀ j u, Tally P.log j u → Tally (P.sweep K now).log j u := fun j u ht =>
      ht.congr (countP_swept _ (fun _ => rfl) _ _) (countP_swept _ (fun _ => rfl) _ _)
    refine ⟨fun ht => hc i _ ⟨fun _ _ => ?_, by simp [held], by simp⟩, fun j u _ => hc j u⟩
    exact ht.before rfl (by simp)
  | reuse now p hp =>
    exact ⟨fun ht => ht.begin rfl (by simp),
      fun j u hj ht => ht.other (by simp [begins, hj]) rfl⟩
  | create st hst =>
    exact ⟨fun ht => ⟨fun _ _ => ht.before rfl (by simp), by simp [held], by simp⟩,
      fun _ _ _ h => h⟩
  | push now p =>
    exact ⟨fun ht => ht.begin rfl (by simp),
      fun j u hj ht => ht.other (by simp [begins, hj]) rfl⟩
  | erase p r =>
    have hlog : (P.deleteInvalid i p).log = .erased i p :: P.log := if_pos (hheld p rfl)
    rw [hlog]
    exact ⟨fun ht => ht.finish (by simp [held]) rfl (by simp [ends]) r,
      fun j u hj ht => ht.other rfl (by simp [ends, hj])⟩
  | release now p res =>
    have hlog : (P.release i now p).log = .released i p :: P.log := if_pos (hheld p rfl)
    rw [hlog]
    exact ⟨fun ht => ht.finish (by simp [held]) rfl (by simp [ends]) _,
      fun j u hj ht => ht.other rfl (by simp [ends, hj])⟩

/-! ### Every reachable state -/

/-- The invariant of the system. -/
structure Good (K : H1Kind A S) (args : ℕ → A) (s : Pool A S × (ℕ → Pc)) : Prop where
  inv : Inv K args s.1 (fun i => held (s.2 i)) (fun i => fresh (s.2 i))
  tally : ∀ i, Tally s.1.log i (s.2 i)

theorem good_init (K : H1Kind A S) (args : ℕ → A) (o : Conn A S) :
    Good K args (sys K args o).init := by
  refine ⟨⟨?_, ?_, ?_, ?_, ?_, ?_, ?_, ?_, ?_⟩, fun i => ⟨?_, ?_, ?_⟩⟩ <;>
    simp [sys, Sys.threads, held, fresh, Exclusive]

theorem Move.inv {K : H1Kind A S} (hK : Lawful K) {args : ℕ → A} {i : ℕ} {P P' : Pool A S}
    {pc pc' : Pc} {H F : ℕ → Option ℕ} (h : Move K args i P pc P' pc') (hI : Inv K args P H F)
    (hH : H i = held pc) (hF : F i = fresh pc) :
    Inv K args P' (Function.update H i (held pc')) (Function.update F i (fresh pc')) := by
  have keepH : ∀ {v}, H i = v → Function.update H i v = H := fun hv => by rw [← hv]; simp
  have keepF : ∀ {v}, F i = v → Function.update F i v = F := fun hv => by rw [← hv]; simp
  cases h with
  | inner hd hh hf =>
    rw [hh, keepH hH]
    rcases hf with hf | hf
    · rw [hf, keepF hF]; exact hI
    · rw [hf]; exact hI.drop i
  | sweep now =>
    rw [show held .search = held .sweep from rfl, keepH hH, show fresh .search = fresh .sweep from rfl,
      keepF hF]
    exact hI.sweep hK now
  | reuse now p hp =>
    rw [show fresh (.write p) = fresh .search from rfl, keepF hF]
    exact hI.reuse hK now hH hp
  | create st hst =>
    rw [show held (.opening P.cache.next K.opening) = held .create from rfl, keepH hH]
    exact hI.create st
  | push now p => exact hI.push now hH hF
  | erase p r =>
    rw [show fresh (.done r) = fresh (.erase p r) from rfl, keepF hF]
    exact hI.erase hH
  | release now p res =>
    rw [show fresh (.done (.response res)) = fresh (.release p res) from rfl, keepF hF]
    exact hI.release now hH

theorem good_step {K : H1Kind A S} (hK : Lawful K) {args : ℕ → A} {o : Conn A S}
    (s : Pool A S × (ℕ → Pc)) (l : ℕ × Ev) (s' : Pool A S × (ℕ → Pc)) (hs : Good K args s)
    (h : (sys K args o).step s l = some s') : Good K args s' := by
  obtain ⟨P', pc', hst, rfl⟩ := Sys.threads_step.mp h
  have hm := step_move hst
  have hH : (fun j => held (Function.update s.2 l.1 pc' j)) =
      Function.update (fun j => held (s.2 j)) l.1 (held pc') :=
    funext fun j => Function.apply_update (fun _ => held) s.2 l.1 pc' j
  have hF : (fun j => fresh (Function.update s.2 l.1 pc' j)) =
      Function.update (fun j => fresh (s.2 j)) l.1 (fresh pc') :=
    funext fun j => Function.apply_update (fun _ => fresh) s.2 l.1 pc' j
  obtain ⟨hself, hother⟩ := hm.tally fun p hp => (hs.inv.held l.1 p hp).1
  refine ⟨?_, fun j => ?_⟩
  · rw [hH, hF]
    exact hm.inv hK hs.inv rfl rfl
  · rcases eq_or_ne j l.1 with rfl | hj
    · simpa using hself (hs.tally _)
    · simpa [Function.update_of_ne hj] using hother j _ hj (hs.tally j)

theorem Good.leaseSafe {K : H1Kind A S} (hK : Lawful K) {args : ℕ → A} {s : Pool A S × (ℕ → Pc)}
    (h : Good K args s) : LeaseSafe K args s where
  nodup := h.inv.nodup
  inUse p hp hu := by
    obtain ⟨i, hi⟩ := h.inv.busy p hp hu
    exact ⟨i, hi, fun j hj => h.inv.heldOne j i p hj hi⟩
  free p _ hu i hi := by
    have := (h.inv.held i p hi).2.1
    rw [hu] at this
    cases this
  exclusive i j p hi hj := by
    rcases hi with hi | hi <;> rcases hj with hj | hj
    · exact h.inv.heldOne i j p hi hj
    · exact absurd (h.inv.held i p hi).1 (h.inv.fresh j p hj).2.1
    · exact absurd (h.inv.held j p hj).1 (h.inv.fresh i p hi).2.1
    · exact h.inv.freshOne i j p hi hj
  sweep now i p hi := ((h.inv.sweep hK now).held i p hi).1
  lease i p hi := (h.tally i).during (by rw [hi]; simp)
  returned i r hr := (h.tally i).after r hr
  erased := h.inv.order
  peer i p hi := (h.inv.held i p hi).2.2

/-- The calls of `h1_req` on both pools, in any interleaving. -/
def both (certOk : Str → Bool) (args : ℕ → HttpReqArgument) (argsS : ℕ → HttpsReqArgument)
    (o : Conn HttpReqArgument Unit) (oS : Conn HttpsReqArgument SslContext) :=
  (sys http args o).prod (sys (https certOk) argsS oS)

/-- **Exclusive leases without leak**, in every reachable state of both pools. -/
theorem h1_leaseSafe (certOk : Str → Bool) (args : ℕ → HttpReqArgument)
    (argsS : ℕ → HttpsReqArgument) (o : Conn HttpReqArgument Unit)
    (oS : Conn HttpsReqArgument SslContext) (ls : List ((ℕ × Ev) ⊕ (ℕ × Ev)))
    (s : (Pool HttpReqArgument Unit × (ℕ → Pc)) × (Pool HttpsReqArgument SslContext × (ℕ → Pc)))
    (h : (both certOk args argsS o oS).exec ls = some s) :
    LeaseSafe http args s.1 ∧ LeaseSafe (https certOk) argsS s.2 := by
  obtain ⟨h1, h2⟩ := Sys.reach_prod ⟨ls, h⟩
  have g1 := Sys.reach_inv (good_init http args o) (good_step http_lawful) h1
  have g2 := Sys.reach_inv (good_init _ argsS oS) (good_step (https_lawful certOk)) h2
  exact ⟨g1.leaseSafe http_lawful, g2.leaseSafe (https_lawful certOk)⟩

/-- A response the client keeps the connection after. -/
def keepRes : StrResponse := { fields := [(str "Content-Length", str "0")] }

/-- Call 0 opens a connection, gets its response and releases it; call 1 reuses it. -/
def reuseRun : List (ℕ × Ev) :=
  [(0, .call), (0, .sweep 0), (0, .search 0), (0, .create), (0, .io true), (0, .io true), (0, .push 1),
    (0, .write none), (0, .read (.ok keepRes)), (0, .release 2), (1, .call), (1, .sweep 3),
    (1, .search 3)]

theorem h1_leaseSafe_reuseRun :
    let args : HttpReqArgument := { host := str "h", port := str "80" }
    let argsS : HttpsReqArgument := { host := str "h", port := str "443" }
    ∃ s, (both (fun _ => true) (fun _ => args) (fun _ => argsS) { args := args, stream := () }
        { args := argsS, stream := {} }).exec (reuseRun.map .inl) = some s ∧
      s.1.2 1 = .write 0 ∧ s.1.1.log = [.leased 1 0, .released 0 0, .leased 0 0] ∧
      LeaseSafe http (fun _ => args) s.1 ∧
      LeaseSafe (https fun _ => true) (fun _ => argsS) s.2 := by
  intro args argsS
  exact ⟨_, rfl, rfl, rfl, h1_leaseSafe (fun _ => true) _ _ { args := args, stream := () }
    { args := argsS, stream := {} } (reuseRun.map .inl) _ rfl⟩

end Jkit.Http.Client.Lease
