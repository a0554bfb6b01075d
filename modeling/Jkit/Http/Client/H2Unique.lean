import Jkit.Http.Client.H2Pool

/-! # One connection for each peer

`get_http2s_connect` searches `m_h2s_conns` and pushes a new connection in two locked sections, and waits
for the connection between them without the lock. The push does not search again.

* `onePerPeer_iff`: the list never holds two connections of one peer exactly in the runs in which every
  push would find nothing if it searched again. `burstRun` is a run of two calls in which the second push
  would find the connection of the first.
* `onePerPeer_of_apart`: this is so if calls for one peer do not open connections at the same time. -/

namespace Jkit.Http.Client.H2Unique

open Jkit.Http.Message Jkit.Http.Client.Conns Jkit.Http.Client.H2 Jkit.Http.Client.H2Pool Jkit.Lib.Run

variable {certOk : Str → Bool} {args : ℕ → HttpsReqArgument} {o : Conn HttpsReqArgument Session}

/-! ### The peers in the list -/

/-- The host and the port of each entry of the list. -/
def peers (c : Cache HttpsReqArgument Session) : List (Str × Str) :=
  c.conns.map fun p => peer (c.mem p).args

/-- No two entries have the same host and port. -/
def OnePerPeer (s : Mem × (ℕ → Pc)) : Prop := (peers s.1.cache).Nodup

/-- When a call pushes its connection, its search would still find nothing. -/
def PushFresh (args : ℕ → HttpsReqArgument) (s : Mem × (ℕ → Pc)) : (ℕ × Ev) ⊕ IoEv → Prop
  | .inl (i, .push _) => s.1.cache.search http2s (args i) = none
  | _ => True

theorem pushFresh_of_ne {s : Mem × (ℕ → Pc)} {l : (ℕ × Ev) ⊕ IoEv}
    (h : ∀ i now, l ≠ .inl (i, .push now)) : PushFresh args s l := by
  unfold PushFresh
  split
  · next i now => exact absurd rfl (h i now)
  · trivial

theorem search_eq_none {c : Cache HttpsReqArgument Session} {a : HttpsReqArgument} :
    c.search http2s a = none ↔ peer a ∉ peers c := by
  have hpeer : ∀ p, peer (c.mem p).args = peer a ↔ c.samePeer http2s a p = true := by
    intro p
    simp [peer, Cache.samePeer, http2s]
  simp [Cache.search, peers, hpeer, show ∀ x, http2s.idle x = true from fun _ => rfl]

theorem peers_sublist {c c' : Cache HttpsReqArgument Session} (hs : c'.conns.Sublist c.conns)
    (hk : Kept args c c') (hb : ∀ p ∈ c.conns, p < c.next) : (peers c').Sublist (peers c) := by
  have heq : peers c' = c'.conns.map fun p => peer (c.mem p).args :=
    List.map_congr_left fun p hp => hk.peer p (hb p (hs.subset hp))
  rw [heq]
  exact hs.map _

theorem move_conns {i : ℕ} {m m' : Mem} {pc pc' : Pc} (h : Move certOk args i m pc m' pc') :
    m'.cache.conns.Sublist m.cache.conns ∨
      ∃ p, pc = .push p ∧ pc' = .submit p ∧ m'.cache.conns = m.cache.conns ++ [p] := by
  cases h with
  | inner hq => rw [hq.conns]; exact .inl (List.Sublist.refl _)
  | sweep now => exact .inl List.filter_sublist
  | reuse | create | await => exact .inl (List.Sublist.refl _)
  | push now p => exact .inr ⟨p, rfl, rfl, rfl⟩
  | erase p r => exact .inl List.erase_sublist

theorem step_push {i : ℕ} {m m' : Mem} {pc pc' : Pc} {now : ℤ}
    (h : step certOk args i m pc (.push now) = some (m', pc')) :
    ∃ p, pc = .push p ∧ m'.cache.conns = m.cache.conns ++ [p] := by
  cases step_trans h with
  | push now p => exact ⟨p, rfl, rfl⟩

/-- **A step removes peers from the list, or it is a push.** -/
theorem step_peers {s s' : Mem × (ℕ → Pc)} {l : (ℕ × Ev) ⊕ IoEv} (hS : Shared certOk args s)
    (h : (sys certOk args o).step s l = some s') :
    ((∀ i now, l ≠ .inl (i, .push now)) ∧ (peers s'.1.cache).Sublist (peers s.1.cache)) ∨
      ∃ i now p, l = .inl (i, .push now) ∧ s.2 i = .push p ∧
        s'.2 = Function.update s.2 i (.submit p) ∧ peers s'.1.cache = peers s.1.cache ++ [peer (args i)] := by
  rcases sys_step h with ⟨i, e, m, pc, rfl, hst, rfl⟩ | ⟨e, m, rfl, hio, rfl⟩
  · have hm := step_move hst
    have hk := move_kept hm
    rcases move_conns hm with hs | ⟨p, hpc, rfl, hc⟩
    · refine .inl ⟨fun j now hl => ?_, peers_sublist hs hk hS.bound⟩
      obtain ⟨-, rfl⟩ := Prod.mk.inj (Sum.inl.inj hl)
      obtain ⟨p, -, hp⟩ := step_push hst
      have hlen := hs.length_le
      rw [hp, List.length_append, List.length_singleton] at hlen
      omega
    · right
      obtain ⟨now, rfl⟩ := step_at_push (hpc ▸ hst)
      refine ⟨i, now, p, rfl, hpc, rfl, ?_⟩
      obtain ⟨hp, hpeer⟩ := hS.uses i p (by simp [hpc, Uses, creating])
      have hold : ∀ q ∈ s.1.cache.conns ++ [p], peer (m.cache.mem q).args = peer (s.1.cache.mem q).args := by
        intro q hq
        rcases List.mem_append.mp hq with hq | hq
        · exact hk.peer q (hS.bound q hq)
        · rw [List.mem_singleton.mp hq]; exact hk.peer p hp
      unfold peers
      rw [hc, List.map_congr_left hold, List.map_append, List.map_singleton, hpeer]
  · refine .inl ⟨by simp, peers_sublist ?_ (ioStep_kept hio : Kept args _ _) hS.bound⟩
    rcases ioStep_cases hio with hq | ⟨p, -, rfl⟩
    · rw [hq.conns]
    · exact List.erase_sublist

/-! ### The exact condition -/

structure UniqueInv (certOk : Str → Bool) (args : ℕ → HttpsReqArgument) (s : Mem × (ℕ → Pc)) :
    Prop where
  pool : PoolInv s.1.cache fun i => creating (s.2 i)
  shared : Shared certOk args s
  unique : OnePerPeer s

theorem uniqueInv_init : UniqueInv certOk args (sys certOk args o).init :=
  ⟨aliveInv_init.pool, shared_init, List.nodup_nil⟩

theorem uniqueInv_step (s : Mem × (ℕ → Pc)) (l : (ℕ × Ev) ⊕ IoEv) (s' : Mem × (ℕ → Pc))
    (hI : UniqueInv certOk args s) (hc : PushFresh args s l)
    (h : (sys certOk args o).step s l = some s') : UniqueInv certOk args s' := by
  obtain ⟨hP, hS⟩ := shared_step s l s' ⟨hI.pool, hI.shared⟩ h
  refine ⟨hP, hS, ?_⟩
  rcases step_peers hI.shared h with ⟨-, hs⟩ | ⟨i, now, p, rfl, -, -, hpeers⟩
  · exact hI.unique.sublist hs
  · have hnew : peer (args i) ∉ peers s.1.cache := search_eq_none.mp hc
    unfold OnePerPeer
    rw [hpeers]
    exact hI.unique.append (List.nodup_singleton _) (by simpa using hnew)

theorem pushFresh_of_onePerPeer (s : Mem × (ℕ → Pc)) (l : (ℕ × Ev) ⊕ IoEv) (s' : Mem × (ℕ → Pc))
    (hI : UniqueInv certOk args s) (h : (sys certOk args o).step s l = some s')
    (hN : OnePerPeer s') : PushFresh args s l := by
  rcases step_peers hI.shared h with ⟨hne, -⟩ | ⟨i, now, p, rfl, -, -, hpeers⟩
  · exact pushFresh_of_ne hne
  · unfold OnePerPeer at hN
    rw [hpeers, List.nodup_append] at hN
    refine search_eq_none.mpr fun hin => ?_
    exact hN.2.2 _ hin _ (List.mem_singleton_self _) rfl

/-- **One connection for each peer**, in every state of a run, if and only if every push of the run would
find no connection of its peer in the list. -/
theorem onePerPeer_iff (certOk : Str → Bool) (args : ℕ → HttpsReqArgument)
    (o : Conn HttpsReqArgument Session) (ls : List ((ℕ × Ev) ⊕ IoEv)) (s : Mem × (ℕ → Pc))
    (h : (sys certOk args o).exec ls = some s) :
    (sys certOk args o).Throughout OnePerPeer (sys certOk args o).init ls ↔
      (sys certOk args o).Along (PushFresh args) (sys certOk args o).init ls :=
  Sys.throughout_iff_along (fun _ => UniqueInv.unique) uniqueInv_step pushFresh_of_onePerPeer h
    uniqueInv_init

/-- Two calls for one peer: both search before either of them has pushed. -/
def burstRun : List ((ℕ × Ev) ⊕ IoEv) :=
  [.inl (0, .call), .inl (0, .sweep 0), .inl (0, .search 0), .inl (1, .call), .inl (1, .sweep 0),
    .inl (1, .search 0), .inl (0, .create true), .inl (1, .create true), .inl (0, .register),
    .inl (0, .register), .inl (1, .register), .inl (1, .register), .inr (.connect 0), .inr (.connect 1),
    .inl (0, .wake false), .inl (1, .wake false), .inl (0, .push 0), .inl (1, .push 0)]

theorem burstRun_twice :
    let a : HttpsReqArgument := { host := str "h", port := str "443" }
    ∃ s, (sys (fun _ => true) (fun _ => a) { args := a, stream := { ssl := {} } }).exec burstRun =
        some s ∧
      peers s.1.cache = [peer a, peer a] ∧ ¬ OnePerPeer s := by
  intro a
  refine ⟨_, rfl, rfl, fun h => ?_⟩
  have hnd : [peer a, peer a].Nodup := h
  simp at hnd

theorem onePerPeer_iff_burstRun :
    let a : HttpsReqArgument := { host := str "h", port := str "443" }
    let S := sys (fun _ => true) (fun _ => a) { args := a, stream := { ssl := {} } }
    ∃ s, S.exec (burstRun.take 17) = some s ∧ s.2 0 = .submit 0 ∧ s.2 1 = .push 1 ∧
      (S.Throughout OnePerPeer S.init (burstRun.take 17) ↔
        S.Along (PushFresh fun _ => a) S.init (burstRun.take 17)) := by
  intro a S
  exact ⟨_, rfl, rfl, rfl, onePerPeer_iff (fun _ => true) (fun _ => a)
    { args := a, stream := { ssl := {} } } (burstRun.take 17) _ rfl⟩

/-! ### Calls that do not open connections at the same time -/

/-- The call is between a search that has found nothing and its push. -/
def opening : Pc → Bool
  | .create | .onConnect _ | .onError _ | .connecting _ | .push _ => true
  | _ => false

/-- When a search finds nothing, no other call is opening a connection to the same peer. -/
def Apart (args : ℕ → HttpsReqArgument) (s : Mem × (ℕ → Pc)) : (ℕ × Ev) ⊕ IoEv → Prop
  | .inl (i, .search _) => s.1.cache.search http2s (args i) = none →
      ∀ j, j ≠ i → opening (s.2 j) = true → peer (args j) ≠ peer (args i)
  | _ => True

/-- A call starts to open a connection when its search has found nothing. -/
theorem step_opening {i : ℕ} {m m' : Mem} {pc pc' : Pc} {e : Ev}
    (h : step certOk args i m pc e = some (m', pc')) (hpc' : opening pc' = true) :
    opening pc = true ∨ ∃ now, e = .search now ∧ m.cache.search http2s (args i) = none := by
  cases step_trans h with
  | miss now hnone => exact .inr ⟨now, rfl, hnone⟩
  | create | onConnect | onError | connected => exact .inl rfl
  | _ => cases hpc'

/-- The calls that open connections have different peers, none of which is in the list. -/
structure ApartInv (certOk : Str → Bool) (args : ℕ → HttpsReqArgument) (s : Mem × (ℕ → Pc)) :
    Prop where
  unique : UniqueInv certOk args s
  fresh : ∀ i, opening (s.2 i) = true → peer (args i) ∉ peers s.1.cache
  differ : ∀ i j, i ≠ j → opening (s.2 i) = true → opening (s.2 j) = true →
    peer (args i) ≠ peer (args j)

theorem apartInv_init : ApartInv certOk args (sys certOk args o).init :=
  ⟨uniqueInv_init, fun _ _ => List.not_mem_nil, fun _ _ _ h _ => by cases h⟩

/-- A step at which call `i` starts to open a connection, or no call does. -/
theorem step_opens {s s' : Mem × (ℕ → Pc)} {l : (ℕ × Ev) ⊕ IoEv}
    (h : (sys certOk args o).step s l = some s') (hc : Apart args s l) :
    (∀ j, opening (s'.2 j) = true → opening (s.2 j) = true) ∨
      ∃ i, peer (args i) ∉ peers s.1.cache ∧
        (∀ j, j ≠ i → opening (s.2 j) = true → peer (args j) ≠ peer (args i)) ∧
        ∀ j, j ≠ i → s'.2 j = s.2 j := by
  rcases sys_step h with ⟨i, e, m, pc, rfl, hst, rfl⟩ | ⟨e, m, rfl, hio, rfl⟩
  · by_cases hpc : opening pc = true
    · rcases step_opening hst hpc with hold | ⟨now, rfl, hnone⟩
      · left
        intro j hj
        rcases eq_or_ne j i with rfl | hji
        · exact hold
        · simpa [Function.update_of_ne hji] using hj
      · exact .inr ⟨i, search_eq_none.mp hnone, hc hnone, fun j hji => Function.update_of_ne hji _ _⟩
    · left
      intro j hj
      rcases eq_or_ne j i with rfl | hji
      · simp [hpc] at hj
      · simpa [Function.update_of_ne hji] using hj
  · exact .inl fun j hj => hj

theorem apartInv_step (s : Mem × (ℕ → Pc)) (l : (ℕ × Ev) ⊕ IoEv) (s' : Mem × (ℕ → Pc))
    (hI : ApartInv certOk args s) (hc : Apart args s l) (h : (sys certOk args o).step s l = some s') :
    ApartInv certOk args s' := by
  have hfresh : ∀ j, opening (s'.2 j) = true → peer (args j) ∉ peers s.1.cache := by
    intro j hj
    rcases step_opens h hc with hold | ⟨i, hi, -, hrest⟩
    · exact hI.fresh j (hold j hj)
    · rcases eq_or_ne j i with rfl | hji
      · exact hi
      · exact hI.fresh j (hrest j hji ▸ hj)
  have hdiffer : ∀ j k, j ≠ k → opening (s'.2 j) = true → opening (s'.2 k) = true →
      peer (args j) ≠ peer (args k) := by
    intro j k hjk hj hk
    rcases step_opens h hc with hold | ⟨i, -, hi, hrest⟩
    · exact hI.differ j k hjk (hold j hj) (hold k hk)
    · by_cases hji : j = i
      · subst hji
        exact (hi k hjk.symm (hrest k hjk.symm ▸ hk)).symm
      · by_cases hki : k = i
        · subst hki
          exact hi j hji (hrest j hji ▸ hj)
        · exact hI.differ j k hjk (hrest j hji ▸ hj) (hrest k hki ▸ hk)
  rcases step_peers hI.unique.shared h with ⟨hne, hs⟩ | ⟨i, now, p, rfl, hpc, hpcs, hpeers⟩
  · have hu := uniqueInv_step s l s' hI.unique (pushFresh_of_ne hne) h
    exact ⟨hu, fun j hj hin => hfresh j hj (hs.subset hin), hdiffer⟩
  · have hopen : opening (s.2 i) = true := by rw [hpc]; rfl
    have hpush : PushFresh args s (.inl (i, .push now)) := search_eq_none.mpr (hI.fresh i hopen)
    refine ⟨uniqueInv_step s _ s' hI.unique hpush h, fun j hj hin => ?_, hdiffer⟩
    rw [hpeers, List.mem_append, List.mem_singleton] at hin
    rcases hin with hin | hin
    · exact hfresh j hj hin
    · -- the call that has pushed is not opening any more
      have hji : j ≠ i := by
        rintro rfl
        rw [hpcs, Function.update_self] at hj
        cases hj
      rw [hpcs, Function.update_of_ne hji] at hj
      exact hI.differ j i hji hj hopen hin

/-- **One connection for each peer**, if no search misses while another call for the same peer is between
its search and its push. -/
theorem onePerPeer_of_apart {ls : List ((ℕ × Ev) ⊕ IoEv)} {s : Mem × (ℕ → Pc)}
    (h : (sys certOk args o).exec ls = some s)
    (hc : (sys certOk args o).Along (Apart args) (sys certOk args o).init ls) : OnePerPeer s :=
  (Sys.run_inv_along apartInv_step hc h apartInv_init).unique.unique

end Jkit.Http.Client.H2Unique
