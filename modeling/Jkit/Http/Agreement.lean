import Jkit.Http.Exchange

/-! # Agreement between `h1_req` and `session`

`own p` is the call connection `p` works for: from the write of its request on, until the call has read
its response. A call that gives up before takes the connection out of the pool, so nobody reads what is
left on it. The invariant `Inv` says this for every connection, on top of the invariant of the leases;
`Turn` says what a step of a call does to its connection.

`agree_of_along`: in a run whose steps meet `Meets` every call that returns a response returns the one
to its own request. -/

namespace Jkit.Http.Agreement

open Jkit.Http.Message Jkit.Http.Head Jkit.Http.Wire Jkit.Http.Client.Conns Jkit.Http.Client.Lease
open Jkit.Http.Server.Session Jkit.Http.Exchange Jkit.Http.Spelling Jkit.Lib.Run Jkit.Lib.Frame
open Jkit.Lib.Hold
open Jkit.Http.Client

/-! ### The invariant -/

/-- The response a call is about to return, or has returned. -/
def returned : H1.Pc → Option StrResponse
  | .close _ res | .release _ res | .erase _ (.response res) | .done (.response res) => some res
  | _ => none

/-- The call has not written its request. -/
def early : H1.Pc → Bool
  | .idle | .sweep | .search | .create | .opening _ _ | .push _ | .write _ => true
  | _ => false

/-- Call `i` waits for a response on connection `p`, or has given up on it and on the connection. -/
def Waits (log : List H1.Lease) (p : ℕ) (pc : H1.Pc) : Prop :=
  pc = .read p ∨ (∃ e, pc = .erase p (.ioError e)) ∨
    (∃ e, pc = .done (.ioError e)) ∧ ∃ ev ∈ log, gone ev = some p

/-- The invariant of the system; `own p` is the call connection `p` works for. -/
structure Inv (args : ℕ → HttpReqArgument) (reqs : ℕ → StrRequest) (s : State) (own : ℕ → Option ℕ) :
    Prop where
  good : Good H1.http args (s.pool, s.calls)
  phase : ∀ p, Phase reqs s.answers (s.links p) (own p)
  one : Exclusive own
  waits : ∀ p i, own p = some i → Waits s.pool.log p (s.calls i)
  reads : ∀ i p, s.calls i = .read p → own p = some i
  result : ∀ i res, returned (s.calls i) = some res → Answered reqs s.answers i res
  unasked : ∀ i, early (s.calls i) = true → s.answers i = none

section Invariant

variable {args : ℕ → HttpReqArgument} {reqs : ℕ → StrRequest} {s : State} {own : ℕ → Option ℕ}

theorem Waits.mono {log log' : List H1.Lease} {p : ℕ} {pc : H1.Pc} (h : Waits log p pc)
    (hlog : ∀ ev ∈ log, ev ∈ log') : Waits log' p pc := by
  rcases h with h | h | ⟨h, ev, hev, hp⟩
  · exact .inl h
  · exact .inr (.inl h)
  · exact .inr (.inr ⟨h, ev, hlog ev hev, hp⟩)

/-- **A step of call `i`** that leaves connection `p` working for `o`: what has to hold of the new
position of the call. -/
theorem Inv.call (hI : Inv args reqs s own) {P : H1.Pool HttpReqArgument Unit} {i p : ℕ} {pc : H1.Pc}
    {L : Link} {o : Option ℕ} (hgood : Good H1.http args (P, Function.update s.calls i pc))
    (hlog : ∀ ev ∈ s.pool.log, ev ∈ P.log) (hphase : Phase reqs s.answers L o)
    (hone : Exclusive (Function.update own p o)) (ho : ∀ j, j ≠ i → (o = some j ↔ own p = some j))
    (hwaits : ∀ q, Function.update own p o q = some i → Waits P.log q pc)
    (hreads : ∀ q, pc = .read q → Function.update own p o q = some i)
    (hreturned : ∀ res, returned pc = some res → Answered reqs s.answers i res)
    (hearly : early pc = true → s.answers i = none) :
    Inv args reqs { s with
      pool := P, calls := Function.update s.calls i pc, links := Function.update s.links p L }
      (Function.update own p o) := by
  refine ⟨hgood, fun q => ?_, hone, fun q j hj => ?_, fun j q hj => ?_, fun j res hj => ?_,
    fun j hj => ?_⟩
  · dsimp only
    rcases eq_or_ne q p with rfl | hq
    · simpa using hphase
    · simpa [Function.update_of_ne hq] using hI.phase q
  · dsimp only
    rcases eq_or_ne j i with rfl | hji
    · simpa using hwaits q hj
    · rw [Function.update_of_ne hji]
      refine (hI.waits q j ?_).mono hlog
      rcases eq_or_ne q p with rfl | hq
      · exact (ho j hji).mp (by simpa using hj)
      · simpa [Function.update_of_ne hq] using hj
  · dsimp only at hj
    rcases eq_or_ne j i with rfl | hji
    · exact hreads q (by simpa using hj)
    · have hown := hI.reads j q (by simpa [Function.update_of_ne hji] using hj)
      rcases eq_or_ne q p with rfl | hq
      · simpa using (ho j hji).mpr hown
      · simpa [Function.update_of_ne hq] using hown
  · dsimp only at hj
    rcases eq_or_ne j i with rfl | hji
    · exact hreturned res (by simpa using hj)
    · exact hI.result j res (by simpa [Function.update_of_ne hji] using hj)
  · dsimp only at hj
    rcases eq_or_ne j i with rfl | hji
    · exact hearly (by simpa using hj)
    · exact hI.unasked j (by simpa [Function.update_of_ne hji] using hj)

/-- A step of a call that does not touch its connection. -/
theorem Inv.stay (hI : Inv args reqs s own) {P : H1.Pool HttpReqArgument Unit} {i : ℕ} {pc : H1.Pc}
    (hgood : Good H1.http args (P, Function.update s.calls i pc))
    (hlog : ∀ ev ∈ s.pool.log, ev ∈ P.log) (hwaits : ∀ q, own q = some i → Waits P.log q pc)
    (hreads : ∀ q, pc ≠ .read q)
    (hreturned : ∀ res, returned pc = some res → Answered reqs s.answers i res)
    (hearly : early pc = true → s.answers i = none) :
    Inv args reqs { s with pool := P, calls := Function.update s.calls i pc } own := by
  have h := hI.call hgood hlog (hI.phase 0) (by simpa using hI.one) (fun j _ => Iff.rfl)
    (by simpa using hwaits) (fun q hq => absurd hq (hreads q)) hreturned hearly
  simpa using h

end Invariant

/-! ### The steps of a call -/

/-- What a step of call `i` does to its position and to the connections. -/
inductive Turn (reqs : ℕ → StrRequest) (i k : ℕ) (e : H1.Ev) (P P' : H1.Pool HttpReqArgument Unit)
    (links : ℕ → Link) : H1.Pc → H1.Pc → (ℕ → Link) → Prop
  | inner {pc pc' : H1.Pc} (hw : ∀ log q, ¬ Waits log q pc) (hr : ∀ q, pc' ≠ .read q)
      (hret : ∀ res, returned pc' = some res → returned pc = some res)
      (he : early pc' = true → early pc = true) : Turn reqs i k e P P' links pc pc' links
  | send {p : ℕ} {pc' : H1.Pc} {w : List (Piece (ℕ × StrRequest))} (he : ∃ ec, e = .write ec)
      (hw : w <+: reqPieces i (reqs i)) (hpc : pc' = .read p ∨ ∃ x, pc' = .erase p (.ioError x)) :
      Turn reqs i k e P P' links (.write p) pc'
        (Function.update links p { links p with up := (links p).up ++ w })
  | receive {p : ℕ} {res : StrResponse} {L : Link} (h : receive res k (links p) = some L) :
      Turn reqs i k e P P' links (.read p) (if res.needEof then .close p res else .release p res)
        (Function.update links p L)
  | giveUp {p : ℕ} {x : H1.IoError} : Turn reqs i k e P P' links (.read p) (.erase p (.ioError x)) links
  | lost {p : ℕ} {x : H1.IoError} (h : P' = P.deleteInvalid i p) :
      Turn reqs i k e P P' links (.erase p (.ioError x)) (.done (.ioError x)) links

theorem not_waits_of_early {pc : H1.Pc} (h : early pc = true) (log : List H1.Lease) (q : ℕ) :
    ¬ Waits log q pc := by
  rintro (rfl | ⟨x, rfl⟩ | ⟨⟨x, rfl⟩, -⟩) <;> cases h

/-- Until it has a connection, a call comes nearer to its request or gives up without one. -/
theorem step_early {args : ℕ → HttpReqArgument} {i : ℕ} {P P' : H1.Pool HttpReqArgument Unit}
    {pc pc' : H1.Pc} {e : H1.Ev} (hpc : early pc = true) (hh : held pc = none)
    (h : H1.step H1.http args i P pc e = some (P', pc')) :
    early pc' = true ∨ pc' = .done .noConnection := by
  cases pc with
  | idle =>
    cases e with
    | call => cases h; exact .inl rfl
    | _ => cases h
  | sweep =>
    cases e with
    | sweep now => cases h; exact .inl rfl
    | _ => cases h
  | search =>
    cases e with
    | search now =>
      simp only [H1.step] at h
      split at h <;> cases h <;> exact .inl rfl
    | _ => cases h
  | create =>
    cases e with
    | create => cases h; exact .inl rfl
    | _ => cases h
  | opening p todo =>
    cases todo with
    | nil => cases h
    | cons o todo =>
      cases e with
      | io ok =>
        cases ok with
        | true => cases h; split_ifs <;> exact .inl rfl
        | false => cases h; exact .inr rfl
      | _ => cases h
  | push p =>
    cases e with
    | push now => cases h; exact .inl rfl
    | _ => cases h
  | write p => cases hh
  | read p | close p res | erase p r | release p res | done r => cases hpc

theorem returned_of_early {pc : H1.Pc} (h : early pc = true) : returned pc = none := by
  cases pc <;> first | rfl | cases h

theorem onLinks_keep {reqs : ℕ → StrRequest} {i k p : ℕ} {pc : H1.Pc} {e : H1.Ev}
    {links links' : ℕ → Link} (hp : held pc = some p)
    (h : onLink reqs i k pc e (links p) = some (links p))
    (hl : onLinks reqs i k pc e links = some links') : links' = links := by
  simp only [onLinks, hp, h, Option.map_some, Option.some.injEq] at hl
  rw [← hl, Function.update_eq_self]

/-- **What a step of a call does**, to its position and to its connection. -/
theorem step_turn {args : ℕ → HttpReqArgument} {reqs : ℕ → StrRequest} {i k : ℕ}
    {P P' : H1.Pool HttpReqArgument Unit} {pc pc' : H1.Pc} {e : H1.Ev} {links links' : ℕ → Link}
    (h : H1.step H1.http args i P pc e = some (P', pc'))
    (hl : onLinks reqs i k pc e links = some links') : Turn reqs i k e P P' links pc pc' links' := by
  cases pc with
  | idle | sweep | search | create | opening | push =>
    cases hl
    rcases step_early rfl rfl h with hpc' | rfl
    · refine .inner (not_waits_of_early rfl) ?_ ?_ fun _ => rfl
      · rintro q rfl
        cases hpc'
      · simp [returned_of_early hpc']
    · exact .inner (not_waits_of_early rfl) (by simp) (by simp [returned]) (by simp [early])
  | write p =>
    cases e with
    | write ec =>
      cases ec with
      | none =>
        cases h
        cases hl
        exact .send ⟨_, rfl⟩ List.prefix_rfl (.inl rfl)
      | some x =>
        cases h
        cases hl
        exact .send ⟨_, rfl⟩ (List.take_prefix _ _) (.inr ⟨x, rfl⟩)
    | _ => cases h
  | read p =>
    cases e with
    | read r =>
      cases r with
      | ok res =>
        cases h
        obtain ⟨L, hL, rfl⟩ := Option.map_eq_some_iff.mp hl
        exact .receive hL
      | error x =>
        cases h
        rw [onLinks_keep rfl rfl hl]
        exact .giveUp
    | _ => cases h
  | close p res =>
    cases e with
    | close =>
      cases h
      rw [onLinks_keep rfl rfl hl]
      exact .inner (by simp [Waits]) (by simp) (by simp [returned]) (by simp [early])
    | _ => cases h
  | erase p r =>
    cases e with
    | erase =>
      cases h
      rw [onLinks_keep rfl rfl hl]
      cases r with
      | ioError x => exact .lost rfl
      | noConnection | response =>
        exact .inner (by simp [Waits]) (by simp) (by simp [returned]) (by simp [early])
    | _ => cases h
  | release p res =>
    cases e with
    | release now =>
      cases h
      rw [onLinks_keep rfl rfl hl]
      exact .inner (by simp [Waits]) (by simp) (by simp [returned]) (by simp [early])
    | _ => cases h
  | done r => cases h

/-! ### Every run -/

section Runs

variable {args : ℕ → HttpReqArgument} {reqs : ℕ → StrRequest} {s : State} {own : ℕ → Option ℕ}

/-- A connection on which a request is about to be written works for no call. -/
theorem Inv.own_of_write (hI : Inv args reqs s own) {i p : ℕ} (hpc : s.calls i = .write p) :
    own p = none := by
  have hi : held (s.calls i) = some p := by rw [hpc]; rfl
  by_contra hne
  obtain ⟨j, hj⟩ := Option.ne_none_iff_exists'.mp hne
  have hji : held (s.calls j) = some p → s.calls j = .write p := fun h => by
    rw [← hI.good.inv.heldOne i j p hi h, hpc]
  rcases hI.waits p j hj with h | ⟨x, h⟩ | ⟨-, ev, hev, hgone⟩
  · rw [h] at hji
    cases hji rfl
  · rw [h] at hji
    cases hji rfl
  · exact (hI.good.inv.gone ev hev p hgone).2.1 (hI.good.inv.held i p hi).1

section Calls

variable {P : H1.Pool HttpReqArgument Unit} {i p : ℕ} {pc : H1.Pc}

/-- Call `i` writes its request; from now on the connection works for it. -/
theorem Inv.send (hI : Inv args reqs s own)
    (hgood : Good H1.http args (P, Function.update s.calls i pc))
    (hlog : ∀ ev ∈ s.pool.log, ev ∈ P.log) (hr : Plain (reqs i)) (hi : s.calls i = .write p)
    {w : List (Piece (ℕ × StrRequest))} (hw : w <+: reqPieces i (reqs i))
    (hpc : pc = .read p ∨ ∃ x, pc = .erase p (.ioError x)) :
    Inv args reqs { s with
      pool := P, calls := Function.update s.calls i pc
      links := Function.update s.links p { s.links p with up := (s.links p).up ++ w } }
      (Function.update own p (some i)) := by
  have hnone := hI.own_of_write hi
  have hearly : early (s.calls i) = true := by rw [hi]; rfl
  have hfree : ∀ q, own q ≠ some i := fun q hq => not_waits_of_early hearly _ q (hI.waits q i hq)
  have hphase := (hnone ▸ hI.phase p).send hr (hI.unasked i hearly) hw
  refine hI.call hgood hlog hphase (hI.one.take hfree) ?_ ?_ ?_ ?_ ?_
  · intro j hj
    simp [hnone, hj.symm]
  · intro q hq
    rcases of_take hq with ⟨rfl, -⟩ | ⟨-, hq⟩
    · exact hpc.imp id .inl
    · exact absurd hq (hfree q)
  · rintro q rfl
    rcases hpc with h | ⟨x, h⟩ <;> cases h
    exact Function.update_self _ _ _
  · intro res hres
    rcases hpc with rfl | ⟨x, rfl⟩ <;> cases hres
  · intro hearly
    rcases hpc with rfl | ⟨x, rfl⟩ <;> cases hearly

/-- Call `i` reads its response; the connection is quiet again. -/
theorem Inv.receive (hI : Inv args reqs s own) {res : StrResponse} {k : ℕ} {L : Link}
    (hgood : Good H1.http args (P, Function.update s.calls i
      (if res.needEof then .close p res else .release p res)))
    (hlog : ∀ ev ∈ s.pool.log, ev ∈ P.log) (hi : s.calls i = .read p)
    (hL : Exchange.receive res k (s.links p) = some L) :
    Inv args reqs { s with
      pool := P
      calls := Function.update s.calls i (if res.needEof then .close p res else .release p res)
      links := Function.update s.links p L } (Function.update own p none) := by
  have hown := hI.reads i p hi
  obtain ⟨hphase, j, hj, ha⟩ := (hI.phase p).receive hL
  obtain rfl : i = j := Option.some.inj (hown.symm.trans hj)
  refine hI.call hgood hlog hphase hI.one.drop ?_ ?_ ?_ ?_ ?_
  · intro j hj
    simp [hown, hj.symm]
  · intro q hq
    obtain ⟨hq, hne⟩ := of_drop hq
    exact absurd (hI.one q p i hne hown) hq
  · intro q hq
    split_ifs at hq
  · intro res' hres
    have heq : res = res' := by split_ifs at hres <;> exact Option.some.inj hres
    rw [← heq]
    exact ha
  · intro hearly
    split_ifs at hearly <;> cases hearly

/-- **A step of a call** keeps the invariant. -/
theorem Inv.turn (hI : Inv args reqs s own) {k : ℕ} {e : H1.Ev} {links : ℕ → Link}
    (hgood : Good H1.http args (P, Function.update s.calls i pc))
    (hlog : ∀ ev ∈ s.pool.log, ev ∈ P.log) (hplain : ∀ ec, e = .write ec → Plain (reqs i))
    (h : Turn reqs i k e s.pool P s.links (s.calls i) pc links) :
    ∃ own', Inv args reqs { s with
      pool := P, calls := Function.update s.calls i pc, links := links } own' := by
  generalize hi : s.calls i = pc₀ at h
  have hwaits : ∀ q, own q = some i → Waits s.pool.log q pc₀ := fun q hq => hi ▸ hI.waits q i hq
  cases h with
  | inner hw hr hret he =>
    refine ⟨own, hI.stay hgood hlog (fun q hq => absurd (hwaits q hq) (hw _ q)) hr ?_ ?_⟩
    · exact fun res hres => hI.result i res (hi ▸ hret res hres)
    · exact fun hearly => hI.unasked i (hi ▸ he hearly)
  | send he hw hpc =>
    obtain ⟨ec, hec⟩ := he
    exact ⟨_, hI.send hgood hlog (hplain ec hec) hi hw hpc⟩
  | receive hL => exact ⟨_, hI.receive hgood hlog hi hL⟩
  | @giveUp p x =>
    refine ⟨own, hI.stay hgood hlog (fun q hq => ?_) (by simp) (by simp [returned]) (by simp [early])⟩
    have hw := hwaits q hq
    simp only [Waits, H1.Pc.read.injEq, reduceCtorEq, exists_false, false_and, or_false] at hw
    exact .inr (.inl ⟨x, by rw [hw]⟩)
  | @lost p x hP =>
    refine ⟨own, hI.stay hgood hlog (fun q hq => ?_) (by simp) (by simp [returned]) (by simp [early])⟩
    have hw := hwaits q hq
    simp only [Waits, reduceCtorEq, H1.Pc.erase.injEq, exists_and_left, exists_false, false_and,
      or_false, false_or] at hw
    obtain ⟨rfl, -⟩ := hw
    have hheld : held (s.calls i) = some p := by rw [hi]; rfl
    have hconns := (hI.good.inv.held i p hheld).1
    refine .inr (.inr ⟨⟨x, rfl⟩, .erased i p, ?_, rfl⟩)
    simp [hP, H1.Pool.deleteInvalid, hconns]

end Calls

/-- **A step of a session** keeps the invariant. -/
theorem Inv.session (hI : Inv args reqs s own) {p : ℕ} {e : Server.Session.Ev} {L : Link}
    {a : Option Answer} (hm : Meets reqs s (.session p e))
    (h : Server.Session.step (s.links p) e = some (L, a)) :
    Inv args reqs { s with links := Function.update s.links p L, answers := record s.answers a } own := by
  obtain ⟨hphase, hown⟩ := (hI.phase p).session (by rintro d last rfl; exact hm)
    (by rintro k res rfl; exact hm res) h
  -- the answer is to a call that waits, on this connection
  have hsame : ∀ i, own p ≠ some i → record s.answers a i = s.answers i := by
    intro i hi
    match a with
    | none => rfl
    | some (j, r, res) =>
      have hji : i ≠ j := by rintro rfl; exact hi (hown _ _ _ rfl)
      exact Function.update_of_ne hji _ _
  refine ⟨hI.good, fun q => ?_, hI.one, hI.waits, hI.reads, fun i res hres => ?_, fun i hi => ?_⟩
  · dsimp only
    rcases eq_or_ne q p with rfl | hq
    · simpa using hphase
    · rw [Function.update_of_ne hq]
      exact (hI.phase q).congr fun i hi => hsame i fun hp => hq (hI.one q p i hi hp)
  · have hp : own p ≠ some i := by
      intro hp
      rcases hI.waits p i hp with h | ⟨x, h⟩ | ⟨⟨x, h⟩, -⟩ <;> rw [h] at hres <;> cases hres
    obtain ⟨a', ha, hres⟩ := hI.result i res hres
    exact ⟨a', (hsame i hp).trans ha, hres⟩
  · have hp : own p ≠ some i := fun hp => not_waits_of_early hi _ _ (hI.waits p i hp)
    rw [← hI.unasked i hi]
    exact hsame i hp

theorem inv_init (args : ℕ → HttpReqArgument) (reqs : ℕ → StrRequest) (o : Conn HttpReqArgument Unit) :
    Inv args reqs (sys args reqs o).init fun _ => none where
  good := good_init H1.http args o
  phase _ := .quiet rfl rfl (.inl rfl)
  one _ _ _ h := by cases h
  waits _ _ h := by cases h
  reads _ _ h := by cases h
  result _ _ h := by cases h
  unasked _ _ := rfl

theorem inv_step {o : Conn HttpReqArgument Unit} (s : State) (l : Label) (s' : State)
    (hs : ∃ own, Inv args reqs s own) (hm : Meets reqs s l)
    (h : (sys args reqs o).step s l = some s') : ∃ own, Inv args reqs s' own := by
  obtain ⟨own, hI⟩ := hs
  cases l with
  | call i e k =>
    obtain ⟨⟨P, pc⟩, hst, hl⟩ := Option.bind_eq_some_iff.mp h
    obtain ⟨links, hlinks, rfl⟩ := Option.map_eq_some_iff.mp hl
    have hgood := good_step http_lawful (o := o) (s.pool, s.calls) (i, e)
      (P, Function.update s.calls i pc) hI.good (Sys.threads_step.mpr ⟨P, pc, hst, rfl⟩)
    refine hI.turn hgood (step_move hst).log_mono ?_ (step_turn hst hlinks)
    rintro ec rfl
    exact hm
  | session p e =>
    obtain ⟨⟨L, a⟩, hst, rfl⟩ := Option.map_eq_some_iff.mp h
    exact ⟨own, hI.session hm hst⟩

/-- **Every call gets the answer to its own request**, in every run whose steps meet the condition. -/
theorem agree_of_along (args : ℕ → HttpReqArgument) (reqs : ℕ → StrRequest)
    (o : Conn HttpReqArgument Unit) (ls : List Label) (s : State)
    (hc : (sys args reqs o).Along (Meets reqs) (sys args reqs o).init ls)
    (h : (sys args reqs o).exec ls = some s) : Agree reqs s := by
  obtain ⟨own, hI⟩ := Sys.run_inv_along inv_step hc h ⟨_, inv_init args reqs o⟩
  intro i res hi
  exact hI.result i res (by rw [hi]; rfl)

end Runs

/-! ### Two calls over one connection -/

/-- The arguments of both calls. -/
def hostArgs : HttpReqArgument := { host := str "h", port := str "80" }

/-- A request with a body. -/
def postRequest : StrRequest :=
  { methodString := str "POST", target := str "/a", fields := [(str "Content-Length", str "1")]
    body := str "x" }

/-- The same request of a client that wants to be asked for the body. -/
def expectRequest : StrRequest :=
  { postRequest with fields := (str "Expect", str "100-continue") :: postRequest.fields }

/-- Call 0 sends `r`, call 1 a request without a body. -/
def twoRequests (r : StrRequest) (i : ℕ) : StrRequest := if i = 0 then r else { target := str "/b" }

/-- What the server makes of a resource that leaves `body` in the response. -/
def answerRes (r : StrRequest) (body : Str) : StrResponse :=
  finalRes (.resource r { body := body }) none

/-- Call 0 gets a connection and writes its request. -/
def openRun : List Label :=
  [.call 0 .call 0, .call 0 (.sweep 0) 0, .call 0 (.search 0) 0, .call 0 .create 0,
    .call 0 (.io true) 0, .call 0 (.io true) 0, .call 0 (.push 1) 0, .call 0 (.write none) 0]

/-- The session serves the request `r`. -/
def serveRun (r : StrRequest) (body : Str) : List Label :=
  [.session 0 .body, .session 0 (.process (.resource r { body := body }) none), .session 0 .written]

/-- Call 1 finds the connection in the pool and writes its request. -/
def reuseRun : List Label :=
  [.call 1 .call 0, .call 1 (.sweep 3) 0, .call 1 (.search 3) 0, .call 1 (.write none) 0]

/-- Both calls get their answers. -/
def plainRun : List Label :=
  openRun ++ [.session 0 .header] ++ serveRun postRequest (str "a") ++
    [.call 0 (.read (.ok (answerRes postRequest (str "a")).named)) 0, .call 0 (.release 2) 0] ++ reuseRun ++
    [.session 0 .header] ++ serveRun { target := str "/b" } (str "b") ++
    [.call 1 (.read (.ok (answerRes { target := str "/b" } (str "b")).named)) 0, .call 1 (.release 4) 0]

theorem plain_twoRequests (i : ℕ) : Plain (twoRequests postRequest i) := by
  have hpost : CleanRequest postRequest :=
    ⟨by decide, List.all_eq_true.mp (by decide), by decide, List.all_eq_true.mp (by decide), .inr rfl,
      forall_clean (by decide)⟩
  have hget : CleanRequest { target := str "/b" } :=
    ⟨by decide, List.all_eq_true.mp (by decide), by decide, List.all_eq_true.mp (by decide), .inr rfl,
      forall_clean (by decide)⟩
  unfold twoRequests
  split_ifs
  · exact ⟨by decide, by decide, reqLegible_of_clean hpost rfl⟩
  · exact ⟨by decide, by decide, reqLegible_of_clean hget rfl⟩

/-- The answers fit: the resource leaves a body only. -/
theorem fits_body {r : StrRequest} (hr : r.version = 11) (body : Str) :
    Fits (.resource r { body := body }) none :=
  ⟨finishRes_legible (.inr hr) ⟨.inr rfl, by simp, by simp, by simp⟩ rfl, by simp [bodyless]⟩

theorem agree_of_along_plainRun :
    ∃ s, (sys (fun _ => hostArgs) (twoRequests postRequest) { args := hostArgs, stream := () }).exec
        plainRun = some s ∧
      s.calls 1 = .done (.response (answerRes { target := str "/b" } (str "b")).named) ∧
      Agree (twoRequests postRequest) s := by
  obtain ⟨s, hs, h1⟩ : ∃ s, (sys (fun _ => hostArgs) (twoRequests postRequest)
      { args := hostArgs, stream := () }).exec plainRun = some s ∧
        s.calls 1 = .done (.response (answerRes { target := str "/b" } (str "b")).named) :=
    ⟨_, rfl, rfl⟩
  have hpost : Fits (.resource postRequest { body := str "a" }) none := fits_body rfl _
  have hget : Fits (.resource { target := str "/b" } { body := str "b" }) none := fits_body rfl _
  refine ⟨s, hs, h1, agree_of_along _ _ _ plainRun s (Sys.along_of_mem ?_) hs⟩
  simp [plainRun, openRun, serveRun, reuseRun, Meets, plain_twoRequests, hpost, hget]

/-- Call 0 gets the interim response, call 1 the final response to call 0. -/
def expectRun : List Label :=
  openRun ++ [.session 0 .header, .session 0 .written, .call 0 (.read (.ok continueRes.named)) 0,
    .call 0 (.release 2) 0] ++ serveRun expectRequest (str "a") ++ reuseRun ++
    [.call 1 (.read (.ok (answerRes expectRequest (str "a")).named)) 0, .call 1 (.release 4) 0,
      .session 0 .header] ++ serveRun { target := str "/b" } (str "b")

theorem expectRun_not_agree :
    ∃ s, (sys (fun _ => hostArgs) (twoRequests expectRequest) { args := hostArgs, stream := () }).exec
        expectRun = some s ∧
      s.calls 0 = .done (.response continueRes.named) ∧
      s.answers 0 = some (expectRequest, answerRes expectRequest (str "a")) ∧
      s.calls 1 = .done (.response (answerRes expectRequest (str "a")).named) ∧
      s.answers 1 = some ({ target := str "/b" }, answerRes { target := str "/b" } (str "b")) ∧
      ¬ Agree (twoRequests expectRequest) s := by
  refine ⟨_, rfl, rfl, rfl, rfl, rfl, fun h => ?_⟩
  obtain ⟨a, ha, hres⟩ := h 0 continueRes.named rfl
  have ha' : some (expectRequest, answerRes expectRequest (str "a")) = some (expectRequest, a) := ha
  obtain ⟨-, rfl⟩ := Prod.mk.inj (Option.some.inj ha')
  exact absurd (congrArg StrResponse.result hres) (by decide)

-- a resource that leaves a body under a status without one: the client does not read the body
example :
    let res : StrResponse := { result := 204, body := str "a" }
    let final := finalRes (.resource postRequest res) none
    ∃ s, (sys (fun _ => hostArgs) (twoRequests postRequest) { args := hostArgs, stream := () }).exec
        (openRun ++ [.session 0 .header, .session 0 .body,
          .session 0 (.process (.resource postRequest res) none), .session 0 .written,
          .call 0 (.read (.ok { final.named with body := [] })) 0, .call 0 (.release 2) 0]) = some s ∧
      s.calls 0 = .done (.response { final.named with body := [] }) ∧
      s.answers 0 = some (postRequest, final) :=
  ⟨_, rfl, rfl, rfl⟩

end Jkit.Http.Agreement
