import Jkit.Http.Client.H2
import Jkit.Lib.Hold

/-! # The shared connections of the HTTP/2 pool

* `noDead_iff`: the list never holds a connection whose `on_error` callback has run, after the call
  that created it has returned, exactly in the runs in which no call pushes a connection whose
  `on_error` callback has already run. `deadRun` is a run in which one does.
* `ownTimeout_iff`: every call waits for its own `req_timeout`, in every interleaving, exactly if the
  calls that can meet on a connection have the same `req_timeout`. `otherTimeoutRun` is a run of two
  calls in which the first one waits for the `req_timeout` of the second. -/

namespace Jkit.Http.Client.H2Pool

open Jkit.Http.Message Jkit.Http.Client.Conns Jkit.Http.Client.H2 Jkit.Lib.Run
open Jkit.Lib.Hold
open Jkit.Http.Client.H1 (Result)

variable {certOk : Str → Bool} {args : ℕ → HttpsReqArgument} {o : Conn HttpsReqArgument Session}

/-! ### The list and the connections under construction -/

/-- The list without duplicates, and apart from the connections `C` under construction. -/
structure PoolInv (c : Cache HttpsReqArgument Session) (C : ℕ → Option ℕ) : Prop where
  nodup : c.conns.Nodup
  bound : ∀ p ∈ c.conns, p < c.next
  creating : ∀ i p, C i = some p → p < c.next ∧ p ∉ c.conns
  one : Exclusive C

section PoolInv

variable {c c' : Cache HttpsReqArgument Session} {C : ℕ → Option ℕ}

theorem PoolInv.sub (h : PoolInv c C) (hs : c'.conns.Sublist c.conns) (hn : c'.next = c.next) :
    PoolInv c' C := by
  refine ⟨h.nodup.sublist hs, fun p hp => ?_, fun i p hi => ?_, h.one⟩
  · rw [hn]; exact h.bound p (hs.subset hp)
  · obtain ⟨h1, h2⟩ := h.creating i p hi
    exact ⟨by rw [hn]; exact h1, fun hc => h2 (hs.subset hc)⟩

theorem PoolInv.drop (h : PoolInv c C) (i : ℕ) : PoolInv c (Function.update C i none) :=
  ⟨h.nodup, h.bound, fun j p hj => h.creating j p (of_drop hj).2, h.one.drop⟩

theorem PoolInv.create (h : PoolInv c C) (i : ℕ) (obj : Conn HttpsReqArgument Session) :
    PoolInv (c.alloc obj) (Function.update C i (some c.next)) := by
  have hnew : ∀ j, C j ≠ some c.next := fun j hj => absurd (h.creating j _ hj).1 (by omega)
  refine ⟨h.nodup, fun p hp => ?_, fun j p hj => ?_, h.one.take hnew⟩
  · have := h.bound p hp
    show p < c.next + 1
    omega
  · show p < c.next + 1 ∧ p ∉ c.conns
    rcases of_take hj with ⟨-, rfl⟩ | ⟨-, hj⟩
    · exact ⟨by omega, fun hc => absurd (h.bound _ hc) (by omega)⟩
    · obtain ⟨h1, h2⟩ := h.creating j p hj
      exact ⟨by omega, h2⟩

theorem PoolInv.push (h : PoolInv c C) {i p : ℕ} (now : ℤ) (hi : C i = some p) :
    PoolInv (c.push now p) (Function.update C i none) := by
  obtain ⟨hlt, hnew⟩ := h.creating i p hi
  have hmem : ∀ q, q ∈ (c.push now p).conns ↔ q ∈ c.conns ∨ q = p := by
    intro q
    simp [Cache.push]
  refine ⟨?_, fun q hq => ?_, fun j q hj => ?_, h.one.drop⟩
  · exact List.Nodup.append h.nodup (by simp) (by simpa using hnew)
  · rcases (hmem q).mp hq with hq | rfl
    · exact h.bound q hq
    · exact hlt
  · obtain ⟨hj, hqp⟩ := h.one.ne_of_drop hi hj
    obtain ⟨h1, h2⟩ := h.creating j q hj
    refine ⟨h1, fun hc => ?_⟩
    exact ((hmem q).mp hc).elim h2 hqp

end PoolInv

theorem move_poolInv {i : ℕ} {m m' : Mem} {pc pc' : Pc} {C : ℕ → Option ℕ}
    (h : Move certOk args i m pc m' pc') (hI : PoolInv m.cache C) (hC : C i = creating pc) :
    PoolInv m'.cache (Function.update C i (creating pc')) := by
  have keep : ∀ {v}, C i = v → Function.update C i v = C := fun hv => by rw [← hv]; simp
  cases h with
  | inner hq hc hu hw =>
    have hs : PoolInv m'.cache C := hI.sub (by rw [hq.conns]) hq.next
    rcases hc with hc | hc
    · rw [hc, keep hC]; exact hs
    · rw [hc]; exact hs.drop i
  | sweep now =>
    rw [show creating .search = creating .sweep from rfl, keep hC]
    exact hI.sub List.filter_sublist rfl
  | reuse now p hp =>
    rw [show creating (.submit p) = creating .search from rfl, keep hC]
    exact hI.sub (List.Sublist.refl _) rfl
  | create ctx hctx => exact hI.create i _
  | push now p => exact hI.push now hC
  | await p =>
    rw [show creating (.waiting p _) = creating (.await p) from rfl, keep hC]
    exact hI
  | erase p r =>
    rw [show creating (.done r) = creating (.erase p r) from rfl, keep hC]
    exact hI.sub List.erase_sublist rfl

/-- No move touches the `erred` mark of an existing connection. -/
theorem move_erred {i : ℕ} {m m' : Mem} {pc pc' : Pc} (h : Move certOk args i m pc m' pc') {q : ℕ}
    (hq : q < m.cache.next) :
    (m'.cache.mem q).stream.erred = (m.cache.mem q).stream.erred := by
  cases h with
  | inner hQ => exact hQ.erred q
  | sweep | await | erase => rfl
  | reuse now p hp =>
    simp only [Cache.reuse, Function.update_apply]
    split_ifs with hqp
    · subst hqp; rfl
    · rfl
  | create ctx hctx =>
    simp only [Cache.alloc]
    rw [Function.update_of_ne (by omega)]
  | push now p =>
    simp only [Cache.push, Function.update_apply]
    split_ifs with hqp
    · subst hqp; rfl
    · rfl

/-! ### Connections whose `on_error` has run -/

/-- A connection whose `on_error` callback has run is not in the list, once the call that created
it has returned from `get_http2s_connect`. -/
def NoDead (s : Mem × (ℕ → Pc)) : Prop :=
  ∀ p, (s.1.cache.mem p).stream.erred = true → (∀ i, creating (s.2 i) ≠ some p) →
    p ∉ s.1.cache.conns

/-- When a call pushes a connection, its `on_error` callback has not run. -/
def PushAlive (s : Mem × (ℕ → Pc)) : (ℕ × Ev) ⊕ IoEv → Prop
  | .inl (i, .push _) => ∀ p, s.2 i = .push p → (s.1.cache.mem p).stream.erred = false
  | _ => True

/-- The pool invariant, with no erred connection in the list. -/
structure AliveInv (s : Mem × (ℕ → Pc)) : Prop where
  pool : PoolInv s.1.cache fun i => creating (s.2 i)
  alive : ∀ p ∈ s.1.cache.conns, (s.1.cache.mem p).stream.erred = false

theorem AliveInv.noDead {s : Mem × (ℕ → Pc)} (h : AliveInv s) : NoDead s := by
  intro p he _ hp
  rw [h.alive p hp] at he
  cases he

theorem aliveInv_init : AliveInv (sys certOk args o).init := by
  refine ⟨⟨?_, ?_, ?_, ?_⟩, ?_⟩ <;> simp [sys, creating, Exclusive]

theorem creating_update (pcs : ℕ → Pc) (i : ℕ) (pc : Pc) :
    (fun j => creating (Function.update pcs i pc j)) =
      Function.update (fun j => creating (pcs j)) i (creating pc) :=
  funext fun j => Function.apply_update (fun _ => creating) pcs i pc j

theorem poolInv_step {s s' : Mem × (ℕ → Pc)} {l : (ℕ × Ev) ⊕ IoEv}
    (hI : PoolInv s.1.cache fun i => creating (s.2 i))
    (h : (sys certOk args o).step s l = some s') :
    PoolInv s'.1.cache fun i => creating (s'.2 i) := by
  rcases sys_step h with ⟨i, e, m, pc, rfl, hst, rfl⟩ | ⟨e, m, rfl, hio, rfl⟩
  · rw [creating_update]
    exact move_poolInv (step_move hst) hI rfl
  · rcases ioStep_cases hio with hq | ⟨p, hp, rfl⟩
    · exact hI.sub (by rw [hq.conns]) hq.next
    · exact hI.sub List.erase_sublist rfl

theorem aliveInv_step (s : Mem × (ℕ → Pc)) (l : (ℕ × Ev) ⊕ IoEv) (s' : Mem × (ℕ → Pc))
    (hI : AliveInv s) (hc : PushAlive s l) (h : (sys certOk args o).step s l = some s') :
    AliveInv s' := by
  refine ⟨poolInv_step hI.pool h, fun q hq => ?_⟩
  rcases sys_step h with ⟨i, e, m, pc, rfl, hst, rfl⟩ | ⟨e, m, rfl, hio, rfl⟩
  · have hlt : ∀ p ∈ s.1.cache.conns, (m.cache.mem p).stream.erred = false := fun p hp => by
      rw [move_erred (step_move hst) (hI.pool.bound p hp)]; exact hI.alive p hp
    have hm := step_move hst
    generalize hpc0 : s.2 i = pc0 at hm hst
    cases hm with
    | inner hQ => exact hlt q (by rw [← hQ.conns]; exact hq)
    | sweep | erase | create | reuse | await =>
      refine hlt q ?_
      first
        | exact hq
        | exact (List.filter_sublist).subset hq
        | exact (List.erase_sublist).subset hq
    | push now p =>
      have hq' : q ∈ s.1.cache.conns ∨ q = p := by simpa [Cache.push] using hq
      rcases hq' with hq' | rfl
      · exact hlt q hq'
      · obtain ⟨now', rfl⟩ := step_at_push hst
        rw [move_erred (step_move hst) (hI.pool.creating i q (by simp [hpc0, creating])).1]
        exact hc q hpc0
  · rcases ioStep_cases hio with hQ | ⟨p, hp, rfl⟩
    · rw [hQ.erred]
      exact hI.alive q (by rw [← hQ.conns]; exact hq)
    · obtain ⟨hqp, hq'⟩ := hI.pool.nodup.mem_erase_iff.mp hq
      simp only [Mem.deleteInvalid, Cache.deleteInvalid, Mem.session, Function.update_of_ne hqp]
      exact hI.alive q hq'

/-- A push of a connection whose `on_error` has run leaves it in the list for good. -/
theorem pushAlive_of_noDead (s : Mem × (ℕ → Pc)) (l : (ℕ × Ev) ⊕ IoEv) (s' : Mem × (ℕ → Pc))
    (hI : AliveInv s) (h : (sys certOk args o).step s l = some s') (hN : NoDead s') :
    PushAlive s l := by
  rcases sys_step h with ⟨i, e, m, pc, rfl, hst, rfl⟩ | ⟨e, m, rfl, -, -⟩
  swap
  · trivial
  cases e with
  | push now =>
    intro p hp
    rw [hp] at hst
    simp only [step, Option.some.injEq, Prod.mk.injEq] at hst
    obtain ⟨rfl, rfl⟩ := hst
    by_contra he
    simp only [Bool.not_eq_false] at he
    refine hN p ?_ ?_ (by simp [Cache.push])
    · simpa [Cache.push] using he
    · intro j hj
      rcases eq_or_ne j i with rfl | hji
      · simp [creating] at hj
      · have hj' : creating (s.2 j) = some p := by simpa [Function.update_of_ne hji] using hj
        exact hji (hI.pool.one j i p hj' (by simp [hp, creating]))
  | _ => trivial

/-- **No dead connection in the list**, in every state of a run, if and only if every push of the run
finds the `on_error` callback of its connection not yet run. -/
theorem noDead_iff (certOk : Str → Bool) (args : ℕ → HttpsReqArgument)
    (o : Conn HttpsReqArgument Session) (ls : List ((ℕ × Ev) ⊕ IoEv)) (s : Mem × (ℕ → Pc))
    (h : (sys certOk args o).exec ls = some s) :
    (sys certOk args o).Throughout NoDead (sys certOk args o).init ls ↔
      (sys certOk args o).Along PushAlive (sys certOk args o).init ls :=
  Sys.throughout_iff_along (fun _ => AliveInv.noDead) aliveInv_step pushAlive_of_noDead h aliveInv_init

/-- One call opens a connection and is woken by `on_connect`; `on_error` runs before the call has
pushed the connection. Another call gets it. -/
def deadRun : List ((ℕ × Ev) ⊕ IoEv) :=
  [.inl (0, .call), .inl (0, .sweep 0), .inl (0, .search 0), .inl (0, .create true),
    .inl (0, .register), .inl (0, .register), .inr (.connect 0), .inl (0, .wake false),
    .inr (.error 0), .inl (0, .push 0), .inl (1, .call), .inl (1, .sweep 1), .inl (1, .search 1)]

theorem deadRun_dead :
    let a : HttpsReqArgument := { host := str "h", port := str "443" }
    ∃ s, (sys (fun _ => true) (fun _ => a) { args := a, stream := { ssl := {} } }).exec deadRun =
        some s ∧
      (s.1.cache.mem 0).stream.erred = true ∧ s.2 0 = .submit 0 ∧ s.2 1 = .submit 0 ∧
      ¬ NoDead s := by
  intro a
  refine ⟨_, rfl, rfl, rfl, rfl, fun h => ?_⟩
  refine h 0 rfl (fun i => ?_) (by decide)
  match i with
  | 0 | 1 | i + 2 =>
    show none ≠ some 0
    simp

theorem noDead_iff_deadRun :
    let a : HttpsReqArgument := { host := str "h", port := str "443" }
    let S := sys (fun _ => true) (fun _ => a) { args := a, stream := { ssl := {} } }
    ∃ s, S.exec (deadRun.take 8) = some s ∧ s.2 0 = .push 0 ∧
      (S.Throughout NoDead S.init (deadRun.take 8) ↔ S.Along PushAlive S.init (deadRun.take 8)) := by
  intro a S
  exact ⟨_, rfl, rfl, noDead_iff (fun _ => true) (fun _ => a)
    { args := a, stream := { ssl := {} } } (deadRun.take 8) _ rfl⟩

/-! ### Where a connection comes from -/

/-- The host and the port of a request. -/
def peer (a : HttpsReqArgument) : Str × Str := (a.host, a.port)

/-- The connection `p` was opened for some call `k`, which has fixed its TLS policy and its peer,
and its `req_timeout` is that of some call `j` with the same peer. -/
structure Origin (certOk : Str → Bool) (args : ℕ → HttpsReqArgument)
    (c : Cache HttpsReqArgument Session) (p : ℕ) : Prop where
  opener : ∃ k, setSsl certOk {} (args k).sslCert = some (c.mem p).stream.ssl ∧
    peer (args k) = peer (c.mem p).args
  timeout : ∃ j, peer (args j) = peer (c.mem p).args ∧
    (args j).reqTimeout = (c.mem p).args.reqTimeout

/-- The existing connections keep their policy and their peer; the `req_timeout` of one may become
that of a call with its peer. -/
structure Kept (args : ℕ → HttpsReqArgument) (c c' : Cache HttpsReqArgument Session) : Prop where
  next : c.next ≤ c'.next
  ssl : ∀ q < c.next, (c'.mem q).stream.ssl = (c.mem q).stream.ssl
  peer : ∀ q < c.next, peer (c'.mem q).args = peer (c.mem q).args
  timeout : ∀ q < c.next, (c'.mem q).args.reqTimeout = (c.mem q).args.reqTimeout ∨
    ∃ j, H2Pool.peer (args j) = H2Pool.peer (c.mem q).args ∧
      (c'.mem q).args.reqTimeout = (args j).reqTimeout

theorem Kept.of_eq {c c' : Cache HttpsReqArgument Session} (hn : c.next ≤ c'.next)
    (hs : ∀ q < c.next, (c'.mem q).stream.ssl = (c.mem q).stream.ssl)
    (ha : ∀ q < c.next, (c'.mem q).args = (c.mem q).args) : Kept args c c' :=
  ⟨hn, hs, fun q hq => by rw [ha q hq], fun q hq => .inl (by rw [ha q hq])⟩

theorem Origin.kept {c c' : Cache HttpsReqArgument Session} {p : ℕ} (h : Origin certOk args c p)
    (hk : Kept args c c') (hp : p < c.next) : Origin certOk args c' p := by
  obtain ⟨⟨k, hssl, hpeer⟩, ⟨j, hj, ht⟩⟩ := h
  refine ⟨⟨k, ?_, ?_⟩, ?_⟩
  · rw [hk.ssl p hp, hssl]
  · rw [hk.peer p hp, hpeer]
  · rw [hk.peer p hp]
    rcases hk.timeout p hp with he | ⟨j', hj', ht'⟩
    · exact ⟨j, hj, by rw [he, ht]⟩
    · exact ⟨j', hj', ht'.symm⟩

/-- The call works with the connection `p`: it is opening it, or it has got it. -/
def Uses (pc : Pc) (p : ℕ) : Prop := creating pc = some p ∨ leased pc = some p

theorem move_kept {i : ℕ} {m m' : Mem} {pc pc' : Pc} (h : Move certOk args i m pc m' pc') :
    Kept args m.cache m'.cache := by
  have same : ∀ {c' : Cache HttpsReqArgument Session} {p : ℕ} {f : _ → Conn HttpsReqArgument Session},
      (∀ x, (f x).stream.ssl = x.stream.ssl) → (∀ x, (f x).args = x.args) →
      c'.mem = Function.update m.cache.mem p (f (m.cache.mem p)) → c'.next = m.cache.next →
      Kept args m.cache c' := by
    intro c' p f hs ha hmem hn
    refine .of_eq (by omega) (fun q _ => ?_) (fun q _ => ?_)
    all_goals
      rw [hmem, Function.update_apply]
      split_ifs with hqp
      · subst hqp; simp [hs, ha]
      · rfl
  cases h with
  | inner hQ => exact .of_eq (Nat.le_of_eq hQ.next.symm) (fun q _ => hQ.ssl q) fun q _ => hQ.args q
  | sweep | await | erase => exact .of_eq (Nat.le_refl _) (fun _ _ => rfl) fun _ _ => rfl
  | push now p =>
    exact same (f := fun x => { x with inUse := true, lastUse := now }) (fun _ => rfl) (fun _ => rfl)
      rfl rfl
  | create ctx hctx =>
    have hne : ∀ q < m.cache.next, q ≠ m.cache.next := fun q hq => by omega
    refine .of_eq (Nat.le_succ _) (fun q hq => ?_) (fun q hq => ?_)
    · simp only [Cache.alloc, Function.update_of_ne (hne q hq)]
    · simp only [Cache.alloc, Function.update_of_ne (hne q hq)]
  | reuse now p hp =>
    obtain ⟨hin, -, hhost, hport⟩ := Cache.search_some hp
    have hpeer : peer (m.cache.mem p).args = peer (args i) := by
      simp only [peer]
      exact Prod.ext hhost hport
    refine ⟨Nat.le_refl _, fun q _ => ?_, fun q _ => ?_, fun q _ => ?_⟩
    all_goals
      simp only [Cache.reuse, Function.update_apply]
      split_ifs with hqp
    · subst hqp; rfl
    · rfl
    · subst hqp; rfl
    · rfl
    · subst hqp; exact .inr ⟨i, hpeer.symm, rfl⟩
    · exact .inl rfl

theorem ioStep_kept {m m' : Mem} {e : IoEv} (h : ioStep m e = some m') :
    Kept args m.cache m'.cache := by
  rcases ioStep_cases h with hQ | ⟨p, -, rfl⟩
  · exact .of_eq (Nat.le_of_eq hQ.next.symm) (fun q _ => hQ.ssl q) fun q _ => hQ.args q
  · refine .of_eq (Nat.le_refl _) (fun q _ => ?_) (fun q _ => ?_)
    all_goals
      simp only [Mem.deleteInvalid, Cache.deleteInvalid, Mem.session, Function.update_apply]
      split_ifs with hqp
      · subst hqp; rfl
      · rfl

/-- How a call comes to a connection: it had it before, it found it in the list, or it is new. -/
theorem move_uses {i : ℕ} {m m' : Mem} {pc pc' : Pc} (h : Move certOk args i m pc m' pc') {p : ℕ}
    (hp : Uses pc' p) :
    Uses pc p ∨ (p ∈ m.cache.conns ∧ peer (m.cache.mem p).args = peer (args i)) ∨
      (p = m.cache.next ∧ m'.cache.next = m.cache.next + 1 ∧ (m'.cache.mem p).args = args i) := by
  cases h with
  | inner hQ hc hu =>
    left
    rcases hp with hp | hp
    · rcases hc with hc | hc
      · exact .inl (hc ▸ hp)
      · rw [hc] at hp; cases hp
    · rcases hu with hu | hu
      · exact .inr (hu ▸ hp)
      · rw [hu] at hp; cases hp
  | sweep => simp [Uses, creating, leased] at hp
  | reuse now q hq =>
    obtain ⟨hin, -, hhost, hport⟩ := Cache.search_some hq
    have hqp : q = p := by simpa [Uses, creating, leased] using hp
    subst hqp
    exact .inr (.inl ⟨hin, Prod.ext hhost hport⟩)
  | create ctx hctx =>
    have hqp : m.cache.next = p := by simpa [Uses, creating, leased] using hp
    subst hqp
    exact .inr (.inr ⟨rfl, rfl, by simp [Cache.alloc]⟩)
  | push now q => left; simpa [Uses, creating, leased] using hp
  | await q => left; simpa [Uses, creating, leased] using hp
  | erase q r => simp [Uses, creating, leased] at hp

/-- Every connection has an origin, every call has the peer of its connection, and a call waits for
the `req_timeout` of some call with its peer. -/
structure Shared (certOk : Str → Bool) (args : ℕ → HttpsReqArgument) (s : Mem × (ℕ → Pc)) :
    Prop where
  bound : ∀ p ∈ s.1.cache.conns, p < s.1.cache.next
  origin : ∀ p < s.1.cache.next, Origin certOk args s.1.cache p
  uses : ∀ i p, Uses (s.2 i) p →
    p < s.1.cache.next ∧ peer (s.1.cache.mem p).args = peer (args i)
  waits : ∀ i p d, s.2 i = .waiting p d →
    ∃ j, peer (args j) = peer (args i) ∧ d = (args j).reqTimeout

theorem shared_init : Shared certOk args (sys certOk args o).init := by
  refine ⟨?_, ?_, ?_, ?_⟩ <;> simp [sys, Uses, creating, leased]

theorem Shared.move {s : Mem × (ℕ → Pc)} {i : ℕ} {m : Mem} {pc : Pc} (hs : Shared certOk args s)
    (h : Move certOk args i s.1 (s.2 i) m pc) (hb : ∀ p ∈ m.cache.conns, p < m.cache.next) :
    Shared certOk args (m, Function.update s.2 i pc) := by
  have hk := move_kept h
  refine ⟨hb, fun p hp => ?_, fun j p hj => ?_, fun j p d hj => ?_⟩
  · by_cases hold : p < s.1.cache.next
    · exact (hs.origin p hold).kept hk hold
    · generalize s.2 i = pc0 at h
      cases h with
      | create ctx hctx =>
        obtain rfl : p = s.1.cache.next := by simp only [Cache.alloc] at hp; omega
        refine ⟨⟨i, ?_, ?_⟩, i, ?_, ?_⟩ <;> simp [Cache.alloc, hctx]
      | inner hQ => rw [hQ.next] at hp; exact absurd hp hold
      | sweep | reuse | push | await | erase => exact absurd hp hold
  · have old : ∀ {k : ℕ}, Uses (s.2 k) p →
        p < m.cache.next ∧ peer (m.cache.mem p).args = peer (args k) := fun hu => by
      obtain ⟨hp, hpeer⟩ := hs.uses _ p hu
      exact ⟨Nat.lt_of_lt_of_le hp hk.next, by rw [hk.peer p hp, hpeer]⟩
    rcases eq_or_ne j i with rfl | hji
    · simp only [Function.update_self] at hj
      rcases move_uses h hj with hu | ⟨hin, hpeer⟩ | ⟨rfl, hn, ha⟩
      · exact old hu
      · have hp := hs.bound p hin
        exact ⟨Nat.lt_of_lt_of_le hp hk.next, by rw [hk.peer p hp, hpeer]⟩
      · exact ⟨by rw [hn]; omega, by rw [ha]⟩
    · simp only [Function.update_of_ne hji] at hj
      exact old hj
  · rcases eq_or_ne j i with rfl | hji
    · simp only [Function.update_self] at hj
      subst hj
      generalize hpc0 : s.2 j = pc0 at h
      cases h with
      | inner hQ hc hu hw => exact absurd rfl (hw p d)
      | await q =>
        obtain ⟨hp, hpeer⟩ := hs.uses j p (by simp [hpc0, Uses, leased])
        obtain ⟨k, hk1, hk2⟩ := (hs.origin p hp).timeout
        exact ⟨k, by rw [hk1, hpeer], hk2.symm⟩
    · simp only [Function.update_of_ne hji] at hj
      exact hs.waits j p d hj

theorem shared_step (s : Mem × (ℕ → Pc)) (l : (ℕ × Ev) ⊕ IoEv) (s' : Mem × (ℕ → Pc))
    (hI : PoolInv s.1.cache (fun i => creating (s.2 i)) ∧ Shared certOk args s)
    (h : (sys certOk args o).step s l = some s') :
    PoolInv s'.1.cache (fun i => creating (s'.2 i)) ∧ Shared certOk args s' := by
  obtain ⟨hP, hs⟩ := hI
  have hP' := poolInv_step hP h
  refine ⟨hP', ?_⟩
  rcases sys_step h with ⟨i, e, m, pc, rfl, hst, rfl⟩ | ⟨e, m, rfl, hio, rfl⟩
  · exact hs.move (step_move hst) hP'.bound
  · have hk : Kept args s.1.cache m.cache := ioStep_kept hio
    have hn : m.cache.next = s.1.cache.next := by
      rcases ioStep_cases hio with hQ | ⟨p, -, rfl⟩
      · exact hQ.next
      · rfl
    refine ⟨hP'.bound, fun p hp => ?_, fun i p hi => ?_, hs.waits⟩
    · have hp' : p < s.1.cache.next := hn ▸ hp
      exact (hs.origin p hp').kept hk hp'
    · obtain ⟨hp, hpeer⟩ := hs.uses i p hi
      exact ⟨Nat.lt_of_lt_of_le hp hk.next, by rw [hk.peer p hp, hpeer]⟩

/-- **Every reachable state is shared consistently.** -/
theorem reach_shared {s : Mem × (ℕ → Pc)} (h : (sys certOk args o).Reach s) :
    Shared certOk args s :=
  (Sys.reach_inv (P := fun s => PoolInv s.1.cache (fun i => creating (s.2 i)) ∧
    Shared certOk args s) ⟨aliveInv_init.pool, shared_init⟩ shared_step h).2

/-! ### The time a call waits for its response -/

/-- Every call waits for its own `req_timeout`. -/
def OwnTimeout (args : ℕ → HttpsReqArgument) (s : Mem × (ℕ → Pc)) : Prop :=
  ∀ i p d, s.2 i = .waiting p d → d = (args i).reqTimeout

/-- One call and the io thread. -/
def one (certOk : Str → Bool) (args : ℕ → HttpsReqArgument) (o : Conn HttpsReqArgument Session)
    (i : ℕ) : Sys (Mem × Pc) (Ev ⊕ IoEv) where
  init := ({ cache := { mem := fun _ => o } }, .idle)
  step s
    | .inl e => step certOk args i s.1 s.2 e
    | .inr e => (ioStep s.1 e).map fun m => (m, s.2)

/-- The label of a step of call `i` or of the io thread. -/
def label (i : ℕ) : Ev ⊕ IoEv → (ℕ × Ev) ⊕ IoEv := Sum.map (Prod.mk i) id

/-- A call opens a connection and pushes it. -/
def opens : List (Ev ⊕ IoEv) :=
  [.inl .call, .inl (.sweep 0), .inl (.search 0), .inl (.create true), .inl .register, .inl .register,
    .inr (.connect 0), .inl (.wake false), .inl (.push 0)]

/-- A call finds a connection in the list. -/
def joins : List (Ev ⊕ IoEv) := [.inl .call, .inl (.sweep 0), .inl (.search 0)]

/-- A call that has a connection comes to wait for its response. -/
def waits : List (Ev ⊕ IoEv) := [.inl (.submit true), .inl .register, .inl .await]

section Runs

variable (certOk args o)

/-- A call that runs alone with the io thread, while the others stand still. -/
theorem run_one {i : ℕ} : ∀ {ls : List (Ev ⊕ IoEv)} {s : Mem × (ℕ → Pc)} {t : Mem × Pc},
    (one certOk args o i).run (s.1, s.2 i) ls = some t →
      (sys certOk args o).run s (ls.map (label i)) = some (t.1, Function.update s.2 i t.2)
  | [], s, t, h => by simp only [Sys.run_nil, Option.some.injEq] at h; subst h; simp
  | .inl e :: ls, s, t, h => by
    obtain ⟨u, he, hr⟩ := Sys.run_cons.mp h
    have h1 : (sys certOk args o).step s (.inl (i, e)) = some (u.1, Function.update s.2 i u.2) := by
      have he' : step certOk args i s.1 (s.2 i) e = some u := he
      simp [sys, he']
    have hr' : (one certOk args o i).run (u.1, Function.update s.2 i u.2 i) ls = some t := by
      simpa using hr
    have h2 := run_one (s := (u.1, Function.update s.2 i u.2)) hr'
    simp only [Function.update_idem] at h2
    exact Sys.run_of_step h1 h2
  | .inr e :: ls, s, t, h => by
    obtain ⟨u, he, hr⟩ := Sys.run_cons.mp h
    simp only [one, Option.map_eq_some_iff] at he
    obtain ⟨m, hm, rfl⟩ := he
    have h1 : (sys certOk args o).step s (.inr e) = some (m, s.2) := by simp [sys, hm]
    exact Sys.run_of_step h1 (run_one (s := (m, s.2)) hr)

/-- The pool after the first `new`, for a call with the arguments `a`. -/
def opened (a : HttpsReqArgument) (ctx : SslContext) : Mem where
  cache := Cache.alloc { mem := fun _ => o } { args := a, stream := { ssl := ctx } }

theorem run_opens {k : ℕ} {ctx : SslContext} (hctx : setSsl certOk {} (args k).sslCert = some ctx) :
    ∃ m, (sys certOk args o).exec (opens.map (label k)) =
        some (m, Function.update (fun _ => Pc.idle) k (.submit 0)) ∧
      m.cache.conns = [0] ∧ (m.cache.mem 0).args = args k ∧ (m.cache.mem 0).stream.ssl = ctx ∧
      (m.cache.mem 0).lastUse = 0 := by
  let S := one certOk args o k
  have h1 : S.run S.init (opens.take 4) = some (opened o (args k) ctx, .onConnect 0) := by
    show (step certOk args k S.init.1 .create (.create true)).bind some = _
    simp only [step, hctx]
    rfl
  have h2 : ∃ m, S.run (opened o (args k) ctx, .onConnect 0) (opens.drop 4) =
      some (m, .submit 0) ∧
      m.cache.conns = [0] ∧ (m.cache.mem 0).args = args k ∧ (m.cache.mem 0).stream.ssl = ctx ∧
      (m.cache.mem 0).lastUse = 0 := ⟨_, rfl, rfl, rfl, rfl, rfl⟩
  obtain ⟨m, h2, hm⟩ := h2
  have hrun : S.run S.init opens = some (m, .submit 0) := Sys.run_append.mpr ⟨_, h1, h2⟩
  exact ⟨m, run_one certOk args o (s := (_, fun _ => Pc.idle)) hrun, hm⟩

theorem run_joins {m : Mem} {pcs : ℕ → Pc} {i k : ℕ} (hc : m.cache.conns = [0])
    (ha : (m.cache.mem 0).args = args k) (ht : (m.cache.mem 0).lastUse = 0)
    (hp : peer (args i) = peer (args k)) (hi : pcs i = .idle) :
    ∃ m', (sys certOk args o).run (m, pcs) (joins.map (label i)) =
        some (m', Function.update pcs i (.submit 0)) ∧
      (m'.cache.mem 0).args.reqTimeout = (args i).reqTimeout ∧
      (m'.cache.mem 0).stream = (m.cache.mem 0).stream := by
  obtain ⟨hhost, hport⟩ := Prod.ext_iff.mp hp
  simp only [peer] at hhost hport
  simp [joins, label, Sys.run, sys, step, hi, hc, ha, ht, hhost, hport, Cache.deleteTimeout,
    Cache.search, Cache.reuse, Cache.samePeer, Cache.expired, http2s, unuseTimeout]

theorem run_waits {s : Mem × (ℕ → Pc)} {k : ℕ} (hk : s.2 k = .submit 0) :
    ∃ s', (sys certOk args o).run s (waits.map (label k)) = some s' ∧
      s'.2 k = .waiting 0 (s.1.cache.mem 0).args.reqTimeout := by
  simp [waits, label, Sys.run, sys, step, hk, Mem.frame]

end Runs

/-- **Every call waits for its own `req_timeout`**, in every interleaving, if and only if every call
has the `req_timeout` of every call that has its peer and can open a connection. -/
theorem ownTimeout_iff (certOk : Str → Bool) (args : ℕ → HttpsReqArgument)
    (o : Conn HttpsReqArgument Session) :
    (∀ ls s, (sys certOk args o).exec ls = some s → OwnTimeout args s) ↔
      ∀ k i, peer (args i) = peer (args k) → setSsl certOk {} (args k).sslCert ≠ none →
        (args i).reqTimeout = (args k).reqTimeout := by
  constructor
  · intro h k i hp hk
    by_contra hne
    obtain ⟨ctx, hctx⟩ := Option.ne_none_iff_exists'.mp hk
    have hik : i ≠ k := by rintro rfl; exact hne rfl
    obtain ⟨m, hs, hc, ha, -, ht⟩ := run_opens certOk args o hctx
    have hidle : Function.update (fun _ => Pc.idle) k (.submit 0) i = .idle :=
      Function.update_of_ne hik _ _
    obtain ⟨m', hs', ha', -⟩ := run_joins certOk args o hc ha ht hp hidle
    obtain ⟨s'', hs'', hw⟩ := run_waits certOk args o (k := k) (s := (m', Function.update
      (Function.update (fun _ => .idle) k (.submit 0)) i (.submit 0))) (by simp [hik.symm])
    have hrun : (sys certOk args o).exec
        (opens.map (label k) ++ (joins.map (label i) ++ waits.map (label k))) = some s'' :=
      Sys.run_append.mpr ⟨_, hs, Sys.run_append.mpr ⟨_, hs', hs''⟩⟩
    have := h _ _ hrun k 0 _ hw
    exact hne (ha' ▸ this)
  · intro h ls s hs i p d hw
    have hS := reach_shared ⟨ls, hs⟩
    obtain ⟨hp, hpeer⟩ := hS.uses i p (by simp [hw, Uses, leased])
    obtain ⟨k, hssl, hk⟩ := (hS.origin p hp).opener
    obtain ⟨j, hj, rfl⟩ := hS.waits i p d hw
    have hopen : setSsl certOk {} (args k).sslCert ≠ none := by rw [hssl]; simp
    have hik : peer (args i) = peer (args k) := by rw [hk, hpeer]
    rw [h k i hik hopen, h k j (hj.trans hik) hopen]

/-- The calls of `otherTimeoutRun` differ in their `req_timeout` only. -/
def twoTimeouts (i : ℕ) : HttpsReqArgument :=
  { host := str "h", port := str "443", reqTimeout := if i = 0 then 60 else 1 }

/-- The first call opens the connection, the second one finds it, the first one waits. -/
def otherTimeoutRun : List ((ℕ × Ev) ⊕ IoEv) :=
  opens.map (label 0) ++ joins.map (label 1) ++ waits.map (label 0)

theorem otherTimeoutRun_other :
    ∃ s, (sys (fun _ => true) twoTimeouts { args := twoTimeouts 0, stream := { ssl := {} } }).exec
        otherTimeoutRun = some s ∧
      s.2 0 = .waiting 0 1 ∧ (twoTimeouts 0).reqTimeout = 60 ∧ ¬ OwnTimeout twoTimeouts s := by
  refine ⟨_, rfl, rfl, rfl, fun h => ?_⟩
  have h1 : (1 : ℤ) = 60 := h 0 0 1 rfl
  exact absurd h1 (by decide)

end Jkit.Http.Client.H2Pool

