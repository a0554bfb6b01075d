import Jkit.Http.Server.Session
import Jkit.Lib.Run

/-! # What a session does on its connection

`session` once more, now with a record of everything it does: the operations it starts and how they
end, and the calls of the hooks and of `handle_request`. A label says how an operation ends, whether
`m_running` holds at the test of the loop, and which callbacks are called; these are values of the label,
since a callback may behave differently each time. A callback that throws is left out.

The record is a sequence of rounds, of which only the last may be incomplete (`Inv`). From this
`session_protocol` is read off: which messages are written and in which order, and that nothing is read or
written behind an error or behind a response that ends the connection. `link_follows` carries this over to
the session of `Session`, which reads and writes the pieces of a connection. -/

namespace Jkit.Http.Server.Protocol

open Jkit.Lib.Run Jkit.Lib.Frame Jkit.Http.Message Jkit.Http.Wire Jkit.Http.Server.Context
open Jkit.Http.Server.Session

variable {E : Type}

/-! ### The model -/

/-- An entry of the record. `gotHeader` and `gotRequest` are the ends of the two reads, `last` is
`last_process` with the response it leaves; `error` is an operation that has failed, or the end of the
stream. -/
inductive Act
  | readHeader
  | gotHeader (r : StrRequest)
  | writeContinue
  | readBody
  | gotRequest (r : StrRequest)
  | first
  | handle
  | last (res : StrResponse)
  | write (res : StrResponse)
  | error

/-- The position of the session. -/
inductive Pc
  | start
  | test
  | header
  | interim (r : StrRequest)
  | body (r : StrRequest)
  | first
  | handle
  | last
  | write
  | ended

structure St (E : Type) where
  pc : Pc
  cxt : HttpContext E
  log : List Act

/-- The labels. The body of a request may come with trailer fields. -/
inductive Ev (E : Type)
  | endpoint (ep : Option E)
  | running (b : Bool)
  | header (r : Option StrRequest)
  | body (b : Option (Str × Fields))
  | written (ok : Bool)
  | first (f : Call E)
  | handle (S : HttpApiServer E)
  | last (f : Call E)

/-- A request with its body and trailer. -/
def full (r : StrRequest) (body : Str) (trailer : Fields) : StrRequest :=
  { r with body := body, fields := r.fields ++ trailer }

/-- One step of `session`. -/
def step (s : St E) (e : Ev E) : Option (St E) :=
  match s.pc, e with
  | .start, .endpoint (some ep) => some { s with pc := .test, cxt := { s.cxt with remoteEndpoint := ep } }
  | .start, .endpoint none => some { s with pc := .ended }
  | .test, .running b => some { s with pc := if b then .header else .ended }
  | .header, .header (some r) =>
    some { s with
      pc := if expects r then .interim r else .body r, log := s.log ++ [.readHeader, .gotHeader r] }
  | .header, .header none => some { s with pc := .ended, log := s.log ++ [.readHeader, .error] }
  | .interim r, .written true => some { s with pc := .body r, log := s.log ++ [.writeContinue] }
  | .interim _, .written false => some { s with pc := .ended, log := s.log ++ [.writeContinue, .error] }
  | .body r, .body (some (b, t)) =>
    some { pc := .first, cxt := { s.cxt with req := full r b t },
           log := s.log ++ [.readBody, .gotRequest (full r b t)] }
  | .body _, .body none => some { s with pc := .ended, log := s.log ++ [.readBody, .error] }
  | .first, .first f =>
    match f s.cxt with
    | (cxt, none) => some { pc := .handle, cxt := cxt, log := s.log ++ [.first] }
    | _ => none
  | .handle, .handle S =>
    match S.handleRequest s.cxt with
    | (cxt, none) => some { pc := .last, cxt := cxt, log := s.log ++ [.handle] }
    | _ => none
  | .last, .last f =>
    match f s.cxt with
    | (cxt, none) => some { pc := .write, cxt := cxt, log := s.log ++ [.last cxt.res] }
    | _ => none
  | .write, .written true =>
    some { s with
      pc := if s.cxt.res.needEof then .ended else .test, log := s.log ++ [.write s.cxt.res] }
  | .write, .written false => some { s with pc := .ended, log := s.log ++ [.write s.cxt.res, .error] }
  | _, _ => none

/-- `session` on a connection; `ep` is the endpoint of a context before it is assigned. -/
def sys (ep : E) : Sys (St E) (Ev E) where
  init := { pc := .start, cxt := { remoteEndpoint := ep }, log := [] }
  step := step

/-! ### What a step adds to the record -/

/-- The position and the context before, the entries, the position and the context after. -/
inductive Move : Pc → HttpContext E → List Act → Pc → HttpContext E → Prop
  | endpoint (c c' : HttpContext E) : Move .start c [] .test c'
  | noEndpoint (c : HttpContext E) : Move .start c [] .ended c
  | running (c : HttpContext E) : Move .test c [] .header c
  | stopped (c : HttpContext E) : Move .test c [] .ended c
  | expected (c : HttpContext E) (r : StrRequest) (h : expects r = true) :
    Move .header c [.readHeader, .gotHeader r] (.interim r) c
  | header (c : HttpContext E) (r : StrRequest) (h : expects r = false) :
    Move .header c [.readHeader, .gotHeader r] (.body r) c
  | noHeader (c : HttpContext E) : Move .header c [.readHeader, .error] .ended c
  | continued (c : HttpContext E) (r : StrRequest) : Move (.interim r) c [.writeContinue] (.body r) c
  | notContinued (c : HttpContext E) (r : StrRequest) :
    Move (.interim r) c [.writeContinue, .error] .ended c
  | body (c c' : HttpContext E) (r : StrRequest) (b : Str) (t : Fields) :
    Move (.body r) c [.readBody, .gotRequest (full r b t)] .first c'
  | noBody (c : HttpContext E) (r : StrRequest) : Move (.body r) c [.readBody, .error] .ended c
  | first (c c' : HttpContext E) : Move .first c [.first] .handle c'
  | handle (c c' : HttpContext E) : Move .handle c [.handle] .last c'
  | last (c c' : HttpContext E) : Move .last c [.last c'.res] .write c'
  | written (c : HttpContext E) (h : c.res.needEof = false) : Move .write c [.write c.res] .test c
  | final (c : HttpContext E) (h : c.res.needEof = true) : Move .write c [.write c.res] .ended c
  | notWritten (c : HttpContext E) : Move .write c [.write c.res, .error] .ended c

theorem step_move {s s' : St E} {e : Ev E} (h : step s e = some s') :
    ∃ acts, s'.log = s.log ++ acts ∧ Move s.pc s.cxt acts s'.pc s'.cxt := by
  unfold step at h
  split at h
  · next ep hpc =>
    obtain rfl := Option.some.inj h
    exact ⟨[], by simp, hpc ▸ .endpoint _ _⟩
  · next hpc =>
    obtain rfl := Option.some.inj h
    exact ⟨[], by simp, hpc ▸ .noEndpoint _⟩
  · next b hpc =>
    obtain rfl := Option.some.inj h
    cases b with
    | true => exact ⟨[], by simp, hpc ▸ .running _⟩
    | false => exact ⟨[], by simp, hpc ▸ .stopped _⟩
  · next r hpc =>
    obtain rfl := Option.some.inj h
    cases hx : expects r with
    | true => exact ⟨_, rfl, by simpa [hpc, hx] using .expected s.cxt r hx⟩
    | false => exact ⟨_, rfl, by simpa [hpc, hx] using .header s.cxt r hx⟩
  · next hpc =>
    obtain rfl := Option.some.inj h
    exact ⟨_, rfl, hpc ▸ .noHeader _⟩
  · next r hpc =>
    obtain rfl := Option.some.inj h
    exact ⟨_, rfl, hpc ▸ .continued _ r⟩
  · next r hpc =>
    obtain rfl := Option.some.inj h
    exact ⟨_, rfl, hpc ▸ .notContinued _ r⟩
  · next r b t hpc =>
    obtain rfl := Option.some.inj h
    exact ⟨_, rfl, hpc ▸ .body _ _ r b t⟩
  · next r hpc =>
    obtain rfl := Option.some.inj h
    exact ⟨_, rfl, hpc ▸ .noBody _ r⟩
  · next f hpc =>
    split at h
    · obtain rfl := Option.some.inj h
      exact ⟨_, rfl, hpc ▸ .first _ _⟩
    · cases h
  · next S hpc =>
    split at h
    · obtain rfl := Option.some.inj h
      exact ⟨_, rfl, hpc ▸ .handle _ _⟩
    · cases h
  · next f hpc =>
    split at h
    · obtain rfl := Option.some.inj h
      exact ⟨_, rfl, hpc ▸ .last _ _⟩
    · cases h
  · next hpc =>
    obtain rfl := Option.some.inj h
    cases hx : s.cxt.res.needEof with
    | true => exact ⟨_, rfl, by simpa [hpc, hx] using .final s.cxt hx⟩
    | false => exact ⟨_, rfl, by simpa [hpc, hx] using .written s.cxt hx⟩
  · next hpc =>
    obtain rfl := Option.some.inj h
    exact ⟨_, rfl, hpc ▸ .notWritten _⟩
  · cases h

/-! ### Rounds -/

/-- One request and its answer. -/
structure Round where
  head : StrRequest
  body : Str
  trailer : Fields
  res : StrResponse

/-- The request as it was fully read. -/
def Round.req (x : Round) : StrRequest := full x.head x.body x.trailer

/-- The header, and the 100 response if the request expects one. -/
def opening (r : StrRequest) : List Act :=
  .gotHeader r :: if expects r then [.writeContinue] else []

/-- What a round leaves in the record: each callback once, and the final response. -/
def Round.acts (x : Round) : List Act :=
  opening x.head ++ [.gotRequest x.req, .first, .handle, .last x.res, .write x.res]

/-- The entries that belong to rounds: all but the starts of the reads and the errors. -/
def Act.inRound : Act → Bool
  | .readHeader => false
  | .readBody => false
  | .error => false
  | _ => true

/-- The message of an entry, if it is one that is written and not a 100 response. -/
def Act.final : Act → Option StrResponse
  | .write res => some res
  | _ => none

/-- The request of an entry at which one has been fully read. -/
def Act.request : Act → Option StrRequest
  | .gotRequest r => some r
  | _ => none

/-- A read or a write. -/
def Act.isIo : Act → Bool
  | .readHeader => true
  | .readBody => true
  | .writeContinue => true
  | .write _ => true
  | _ => false

/-- An error, or a response that ends the connection. -/
def Act.stops : Act → Bool
  | .error => true
  | .write res => res.needEof
  | _ => false

/-- Nothing is read or written behind an entry that stops the session. -/
def Silent (log : List Act) : Prop :=
  ∀ pre a post, log = pre ++ a :: post → a.stops = true → ∀ b ∈ post, b.isIo = false

/-! ### The invariant -/

/-- How far the round has come at a position. -/
def Part (c : HttpContext E) (rest : List Act) : Pc → Prop
  | .start => rest = []
  | .test => rest = []
  | .header => rest = []
  | .interim r => expects r = true ∧ rest = [.gotHeader r]
  | .body r => rest = opening r
  | .first => ∃ r b t, rest = opening r ++ [.gotRequest (full r b t)]
  | .handle => ∃ r b t, rest = opening r ++ [.gotRequest (full r b t), .first]
  | .last => ∃ r b t, rest = opening r ++ [.gotRequest (full r b t), .first, .handle]
  | .write => ∃ r b t, rest = opening r ++ [.gotRequest (full r b t), .first, .handle, .last c.res]
  | .ended => ∃ x : Round, rest <+: x.acts ∧ rest ≠ x.acts

/-- Some entries of a round are missing. -/
theorem part_ended {c : HttpContext E} {rest : List Act} (x : Round) (more : List Act)
    (h : rest ++ more = x.acts) (hne : more ≠ []) : Part c rest .ended := by
  refine ⟨x, ⟨more, h⟩, ?_⟩
  intro heq
  rw [← heq] at h
  exact hne (List.append_right_eq_self.mp h)

theorem part_ended_nil {c : HttpContext E} : Part c [] .ended :=
  part_ended ⟨{}, [], [], {}⟩ _ (List.nil_append _) (by simp [Round.acts])

theorem part_ended_opening {c : HttpContext E} (r : StrRequest) : Part c (opening r) .ended :=
  part_ended ⟨r, [], [], {}⟩ _ rfl (by simp)

/-- **A step goes on in the round, or completes it.** -/
theorem move_part {pc pc' : Pc} {c c' : HttpContext E} {acts rest : List Act}
    (h : Move pc c acts pc' c') (hp : Part c rest pc) :
    Part c' (rest ++ acts.filter Act.inRound) pc' ∨
      ∃ x : Round, rest ++ acts.filter Act.inRound = x.acts ∧ Part c' [] pc' := by
  cases h with
  | endpoint => left; rw [show rest = [] from hp]; rfl
  | noEndpoint => left; rw [show rest = [] from hp]; exact part_ended_nil
  | running => left; rw [show rest = [] from hp]; rfl
  | stopped => left; rw [show rest = [] from hp]; exact part_ended_nil
  | expected _ r hx => left; rw [show rest = [] from hp]; exact ⟨hx, rfl⟩
  | header _ r hx =>
    left
    rw [show rest = [] from hp]
    show [Act.gotHeader r] = opening r
    simp [opening, hx]
  | noHeader => left; rw [show rest = [] from hp]; exact part_ended_nil
  | continued _ r =>
    left
    obtain ⟨hx, rfl⟩ := hp
    show [Act.gotHeader r, .writeContinue] = opening r
    simp [opening, hx]
  | notContinued _ r =>
    left
    obtain ⟨hx, rfl⟩ := hp
    have hvis : [Act.writeContinue, .error].filter Act.inRound = [.writeContinue] := rfl
    have hopen : [Act.gotHeader r] ++ [Act.writeContinue, .error].filter Act.inRound = opening r := by
      simp [opening, hx, hvis]
    rw [hopen]
    exact part_ended_opening r
  | body _ _ r b t => left; rw [show rest = opening r from hp]; exact ⟨r, b, t, rfl⟩
  | noBody _ r =>
    left
    have hopen : opening r ++ [Act.readBody, .error].filter Act.inRound = opening r := by
      simp [Act.inRound]
    rw [show rest = opening r from hp, hopen]
    exact part_ended_opening r
  | first =>
    left
    obtain ⟨r, b, t, rfl⟩ := hp
    exact ⟨r, b, t, by simp [Act.inRound]⟩
  | handle =>
    left
    obtain ⟨r, b, t, rfl⟩ := hp
    exact ⟨r, b, t, by simp [Act.inRound]⟩
  | last =>
    left
    obtain ⟨r, b, t, rfl⟩ := hp
    exact ⟨r, b, t, by simp [Act.inRound]⟩
  | written =>
    right
    obtain ⟨r, b, t, rfl⟩ := hp
    exact ⟨⟨r, b, t, c.res⟩, by simp [Act.inRound, Round.acts, Round.req], rfl⟩
  | final =>
    right
    obtain ⟨r, b, t, rfl⟩ := hp
    exact ⟨⟨r, b, t, c.res⟩, by simp [Act.inRound, Round.acts, Round.req], part_ended_nil⟩
  | notWritten =>
    right
    obtain ⟨r, b, t, rfl⟩ := hp
    have hvis : [Act.write c.res, .error].filter Act.inRound = [.write c.res] := rfl
    exact ⟨⟨r, b, t, c.res⟩, by simp [hvis, Round.acts, Round.req], part_ended_nil⟩

/-- Behind entries that do not stop the session, only what follows them matters. -/
theorem silent_append {l t : List Act} (hl : ∀ a ∈ l, a.stops = false) (ht : Silent t) :
    Silent (l ++ t) := by
  intro pre a post heq hstop
  rcases List.append_eq_append_iff.mp heq with ⟨u, rfl, rfl⟩ | ⟨u, rfl, hu⟩
  · exact ht u a post rfl hstop
  · -- the entry would be one of the first list
    cases u with
    | nil =>
      simp only [List.nil_append] at hu
      exact ht [] a post hu.symm hstop
    | cons b u =>
      obtain ⟨rfl, -⟩ := List.cons.inj (show a :: post = b :: (u ++ t) from hu)
      have := hl a (by simp)
      rw [hstop] at this
      cases this

theorem silent_of_tail {l : List Act} (h : ∀ b ∈ l.tail, b.isIo = false) : Silent l := by
  intro pre a post heq _ b hb
  apply h
  rw [heq]
  cases pre with
  | nil => exact hb
  | cons _ pre => exact List.mem_append_right _ (List.mem_cons_of_mem a hb)

/-- A step starts at most one operation, and does so first; it adds an entry that stops the session only
if the session ends with it. -/
theorem move_silent {pc pc' : Pc} {c c' : HttpContext E} {acts : List Act}
    (h : Move pc c acts pc' c') :
    pc ≠ .ended ∧ Silent acts ∧ ((∀ a ∈ acts, a.stops = false) ∨ pc' = .ended) := by
  have hpc : pc ≠ .ended := by
    rintro rfl
    cases h
  have htail : ∀ b ∈ acts.tail, b.isIo = false := by
    cases h <;> simp [Act.isIo]
  refine ⟨hpc, silent_of_tail htail, ?_⟩
  cases h with
  | noEndpoint | stopped | noHeader | notContinued | noBody | final | notWritten => exact .inr rfl
  | written _ hx =>
    left
    intro a ha
    rw [List.mem_singleton.mp ha]
    exact hx
  | _ => left; simp [Act.stops]

/-- The record is a sequence of rounds, the last of which may be incomplete. -/
structure Inv (s : St E) : Prop where
  rounds : ∃ (xs : List Round) (rest : List Act),
    s.log.filter Act.inRound = xs.flatMap Round.acts ++ rest ∧ Part s.cxt rest s.pc
  going : (∀ a ∈ s.log, a.stops = false) ∨ s.pc = .ended
  silent : Silent s.log

theorem inv_init (ep : E) : Inv (sys ep).init := by
  refine ⟨⟨[], [], rfl, rfl⟩, .inl (by simp [sys]), ?_⟩
  exact silent_of_tail (by simp [sys])

theorem inv_step {ep : E} (s : St E) (e : Ev E) (s' : St E) (hI : Inv s)
    (h : (sys ep).step s e = some s') : Inv s' := by
  obtain ⟨acts, hlog, hm⟩ := step_move h
  obtain ⟨hpc, hsil, hgo⟩ := move_silent hm
  have hold : ∀ a ∈ s.log, a.stops = false := hI.going.resolve_right hpc
  obtain ⟨xs, rest, hrec, hpart⟩ := hI.rounds
  refine ⟨?_, ?_, ?_⟩
  · rw [hlog, List.filter_append, hrec, List.append_assoc]
    rcases move_part hm hpart with hp | ⟨x, hx, hp⟩
    · exact ⟨xs, _, rfl, hp⟩
    · exact ⟨xs ++ [x], [], by simp [hx], hp⟩
  · refine hgo.imp_left fun hnew a ha => ?_
    rw [hlog, List.mem_append] at ha
    exact ha.elim (hold a) (hnew a)
  · rw [hlog]
    exact silent_append hold hsil

/-! ### The protocol -/

/-- At every position something of the round is missing. -/
theorem Part.missing {c : HttpContext E} {rest : List Act} {pc : Pc} (h : Part c rest pc) :
    ∃ x : Round, rest <+: x.acts ∧ rest ≠ x.acts := by
  have ended : Part c rest .ended → ∃ x : Round, rest <+: x.acts ∧ rest ≠ x.acts := id
  cases pc with
  | start | test | header =>
    obtain rfl : rest = [] := h
    exact ended part_ended_nil
  | interim r =>
    obtain ⟨hx, rfl⟩ := h
    let x : Round := ⟨r, [], [], {}⟩
    exact ended (part_ended x (x.acts.drop 1) rfl (by simp [x, Round.acts, opening]))
  | body r =>
    obtain rfl : rest = opening r := h
    exact ended (part_ended_opening r)
  | first =>
    obtain ⟨r, b, t, rfl⟩ := h
    exact ended (part_ended ⟨r, b, t, {}⟩ _ (List.append_assoc _ _ _) (by simp))
  | handle =>
    obtain ⟨r, b, t, rfl⟩ := h
    exact ended (part_ended ⟨r, b, t, {}⟩ _ (List.append_assoc _ _ _) (by simp))
  | last =>
    obtain ⟨r, b, t, rfl⟩ := h
    exact ended (part_ended ⟨r, b, t, {}⟩ _ (List.append_assoc _ _ _) (by simp))
  | write =>
    obtain ⟨r, b, t, rfl⟩ := h
    exact ended (part_ended ⟨r, b, t, c.res⟩ _ (List.append_assoc _ _ _) (by simp))
  | ended => exact h

/-- What the entries outside the rounds do not contribute to is read off round by round. -/
theorem filterMap_rounds {β : Type} {f : Act → Option β} {log rest : List Act} {xs : List Round}
    (hf : ∀ a, a.inRound = false → f a = none)
    (hlog : log.filter Act.inRound = xs.flatMap Round.acts ++ rest) :
    log.filterMap f = (xs.flatMap fun x => x.acts.filterMap f) ++ rest.filterMap f := by
  have hfilter : log.filterMap f = (log.filter Act.inRound).filterMap f := by
    rw [List.filterMap_filter]
    congr
    funext a
    by_cases ha : a.inRound = true
    · rw [if_pos ha]
    · rw [if_neg ha, hf a (by simpa using ha)]
  rw [hfilter, hlog, List.filterMap_append, List.filterMap_flatMap]

theorem acts_final (x : Round) : x.acts.filterMap Act.final = [x.res] := by
  unfold Round.acts opening
  split <;> rfl

theorem acts_request (x : Round) : x.acts.filterMap Act.request = [x.req] := by
  unfold Round.acts opening
  split <;> rfl

/-- An incomplete round has not written its final response. -/
theorem final_of_prefix {x : Round} {rest : List Act} (h : rest <+: x.acts) (hne : rest ≠ x.acts) :
    rest.filterMap Act.final = [] := by
  let most := opening x.head ++ [.gotRequest x.req, .first, .handle, .last x.res]
  have hacts : x.acts = most ++ [.write x.res] := by simp [most, Round.acts]
  have hmost : most.filterMap Act.final = [] := by
    simp only [most, opening]
    split <;> rfl
  rw [hacts] at h hne
  have hpre : rest <+: most := (List.prefix_concat_iff.mp h).resolve_left hne
  obtain ⟨more, hmore⟩ := hpre
  rw [← hmore, List.filterMap_append] at hmost
  exact (List.append_eq_nil_iff.mp hmost).1

/-- It has read its request, or not. -/
theorem request_of_prefix {x : Round} {rest : List Act} (h : rest <+: x.acts) :
    rest.filterMap Act.request = [] ∨ rest.filterMap Act.request = [x.req] := by
  obtain ⟨more, hmore⟩ := h
  have hreq := acts_request x
  rw [← hmore, List.filterMap_append] at hreq
  rcases List.append_eq_singleton_iff.mp hreq with ⟨h1, -⟩ | ⟨h1, -⟩
  · exact .inl h1
  · exact .inr h1

/-- **The protocol of a session.** In every state of every run the record is made of complete rounds
`xs` and the beginning of one more. The messages written other than 100 responses are the final
responses of the complete rounds, the requests fully read are theirs and at most one more, and behind an
error or a response that ends the connection nothing is read or written. -/
theorem session_protocol (ep : E) (s : St E) (h : (sys ep).Reach s) :
    ∃ (xs : List Round) (rest : List Act) (x : Round),
      s.log.filter Act.inRound = xs.flatMap Round.acts ++ rest ∧ rest <+: x.acts ∧ rest ≠ x.acts ∧
      s.log.filterMap Act.final = xs.map Round.res ∧
      (s.log.filterMap Act.request = xs.map Round.req ∨
        s.log.filterMap Act.request = xs.map Round.req ++ [x.req]) ∧
      Silent s.log := by
  have hI : Inv s := Sys.reach_inv (inv_init ep) inv_step h
  obtain ⟨xs, rest, hlog, hpart⟩ := hI.rounds
  obtain ⟨x, hpre, hne⟩ := hpart.missing
  have hfinal := filterMap_rounds (f := Act.final) (by rintro ⟨⟩ <;> simp [Act.inRound, Act.final]) hlog
  have hreq := filterMap_rounds (f := Act.request)
    (by rintro ⟨⟩ <;> simp [Act.inRound, Act.request]) hlog
  simp only [acts_final, final_of_prefix hpre hne, List.append_nil, ← List.map_eq_flatMap] at hfinal
  simp only [acts_request, ← List.map_eq_flatMap] at hreq
  refine ⟨xs, rest, x, hlog, hpre, hne, hfinal, ?_, hI.silent⟩
  rcases request_of_prefix hpre with h0 | h1
  · exact .inl (by rw [hreq, h0, List.append_nil])
  · exact .inr (by rw [hreq, h1])

/-! ### The session of a connection

`Session.step` is the same loop on a connection with what is on the way. Its steps are runs of `step`, with
the messages it writes in the record. -/

/-- The two positions are the same; a test of `m_running` and the read behind it are one step there, and so
are the callbacks. -/
def At (s : St E) : Session.Pc → Prop
  | .header => s.pc = .test
  | .writeContinue _ r => s.pc = .interim r
  | .body _ r => s.pc = .body r
  | .process _ r => s.pc = .first ∧ s.cxt.req = r
  | .write res => s.pc = .write ∧ s.cxt.res = res
  | .ended => s.pc = .ended

/-- What an entry puts on the connection. -/
def Act.pieces : Act → List (Piece StrResponse)
  | .writeContinue => resPieces continueRes
  | .write res => resPieces res
  | _ => []

/-- The label of an operation that fails. -/
def failed : Session.Ev → Bool
  | .readFailed | .writeFailed _ => true
  | _ => false

/-- The entries `acts` are the ones for what the step `e` of the session does. -/
structure Matches (L L' : Link) (e : Session.Ev) (a : Option Answer) (s s' : St E) (acts : List Act) :
    Prop where
  log : s'.log = s.log ++ acts
  pos : At s' L'.pc
  down : ∃ t, L'.down = L.down ++ t ∧ t <+: acts.flatMap Act.pieces ∧
    (failed e = false → t = acts.flatMap Act.pieces)
  error : Act.error ∈ acts ↔ failed e = true
  answer : ∀ i r res, a = some (i, r, res) → s.cxt.req = r ∧ s'.cxt.res = res

/-- A step without a message. -/
theorem Matches.silent {L L' : Link} {e : Session.Ev} {s s' : St E} {acts : List Act}
    (hlog : s'.log = s.log ++ acts) (hpos : At s' L'.pc) (hdown : L'.down = L.down)
    (hacts : acts.flatMap Act.pieces = []) (herror : Act.error ∈ acts ↔ failed e = true) :
    Matches L L' e none s s' acts :=
  ⟨hlog, hpos, ⟨[], by rw [hdown, List.append_nil], List.nil_prefix, fun _ => hacts.symm⟩, herror,
    fun _ _ _ h => by cases h⟩

/-- A server whose resources all answer with `res`. -/
def answering (res : StrResponse) : HttpApiServer E where
  regexMatch _ _ := none
  resource := []
  defaultResource cxt := ({ cxt with res := res }, none)
  badResource _ cxt := ({ cxt with res := res }, none)

theorem answering_handleRequest (res : StrResponse) (c : HttpContext E) :
    ∃ c', (answering res).handleRequest c = (c', none) ∧ c'.req = c.req ∧ c'.res = res := by
  unfold HttpApiServer.handleRequest
  dsimp only
  split_ifs
  · exact ⟨_, rfl, rfl, rfl⟩
  · split
    · exact ⟨_, rfl, rfl, rfl⟩
    · exact ⟨_, rfl, rfl, rfl⟩

section Simulation

variable {ep : E} {L L' : Link} {e : Session.Ev} {a : Option Answer} {s : St E}

theorem header_simulates (hpc : L.pc = .header) (hat : s.pc = .test)
    (h : Session.step L e = some (L', a)) :
    ∃ es s' acts, (sys ep).run s es = some s' ∧ Matches L L' e a s s' acts := by
  -- a header is read, whether it is the one that was written or not
  have read : ∀ (i : Option ℕ) (r : StrRequest) (w : List (Piece (ℕ × StrRequest))), failed e = false →
      ∃ es s' acts, (sys ep).run s es = some s' ∧
        Matches L { L with up := w, pc := afterHeader i r } e none s s' acts := by
    intro i r w he
    refine ⟨[.running true, .header (some r)], { s with
      pc := if expects r then .interim r else .body r, log := s.log ++ [.readHeader, .gotHeader r] }, _,
      ?_, .silent rfl ?_ rfl rfl (by simp [he])⟩
    · simp [Sys.run, sys, step, hat]
    · unfold afterHeader
      split_ifs <;> rfl
  unfold Session.step at h
  rw [hpc] at h
  cases e with
  | stop =>
    obtain ⟨rfl, rfl⟩ := Prod.mk.inj (Option.some.inj h)
    refine ⟨[.running false], { s with pc := .ended }, [], ?_, .silent (by simp) rfl rfl rfl (by simp [failed])⟩
    simp [Sys.run, sys, step, hat]
  | readFailed =>
    obtain ⟨rfl, rfl⟩ := Prod.mk.inj (Option.some.inj h)
    refine ⟨[.running true, .header none], { s with pc := .ended, log := s.log ++ [.readHeader, .error] }, _,
      ?_, .silent rfl rfl rfl rfl (by simp [failed])⟩
    simp [Sys.run, sys, step, hat]
  | header =>
    dsimp only at h
    split at h
    · obtain ⟨rfl, rfl⟩ := Prod.mk.inj (Option.some.inj h)
      exact read _ _ _ rfl
    · cases h
  | junkHeader r k =>
    dsimp only at h
    split at h
    · obtain ⟨rfl, rfl⟩ := Prod.mk.inj (Option.some.inj h)
      exact read _ _ _ rfl
    · cases h
  | body | junkBody | process | thrown | written | writeFailed => cases h

theorem interim_simulates {i : Option ℕ} {r : StrRequest} (hpc : L.pc = .writeContinue i r)
    (hat : s.pc = .interim r) (h : Session.step L e = some (L', a)) :
    ∃ es s' acts, (sys ep).run s es = some s' ∧ Matches L L' e a s s' acts := by
  unfold Session.step at h
  rw [hpc] at h
  cases e with
  | written =>
    obtain ⟨rfl, rfl⟩ := Prod.mk.inj (Option.some.inj h)
    refine ⟨[.written true], { s with pc := .body r, log := s.log ++ [.writeContinue] }, _, ?_, rfl, rfl,
      ⟨_, rfl, ?_, fun _ => ?_⟩, by simp [failed], fun _ _ _ ha => by cases ha⟩
    · simp [Sys.run, sys, step, hat]
    · simp [Act.pieces]
    · simp [Act.pieces]
  | writeFailed k =>
    obtain ⟨rfl, rfl⟩ := Prod.mk.inj (Option.some.inj h)
    refine ⟨[.written false], { s with pc := .ended, log := s.log ++ [.writeContinue, .error] }, _, ?_, rfl,
      rfl, ⟨_, rfl, ?_, fun hf => by cases hf⟩, by simp [failed], fun _ _ _ ha => by cases ha⟩
    · simp [Sys.run, sys, step, hat]
    · simpa [Act.pieces] using List.take_prefix _ _
  | stop | readFailed | header | junkHeader | body | junkBody | process | thrown => cases h

theorem body_simulates {i : Option ℕ} {r : StrRequest} (hpc : L.pc = .body i r) (hat : s.pc = .body r)
    (h : Session.step L e = some (L', a)) :
    ∃ es s' acts, (sys ep).run s es = some s' ∧ Matches L L' e a s s' acts := by
  have read : ∀ (b : Str) (w : List (Piece (ℕ × StrRequest))), failed e = false →
      ∃ es s' acts, (sys ep).run s es = some s' ∧
        Matches L { L with up := w, pc := .process i { r with body := b } } e none s s' acts := by
    intro b w he
    have hfull : full r b [] = { r with body := b } := by simp [full]
    refine ⟨[.body (some (b, []))], { pc := .first, cxt := { s.cxt with req := full r b [] }
                                      log := s.log ++ [.readBody, .gotRequest (full r b [])] }, _,
      ?_, .silent rfl ⟨rfl, hfull⟩ rfl rfl (by simp [he])⟩
    simp [Sys.run, sys, step, hat]
  unfold Session.step at h
  rw [hpc] at h
  cases e with
  | readFailed =>
    obtain ⟨rfl, rfl⟩ := Prod.mk.inj (Option.some.inj h)
    refine ⟨[.body none], { s with pc := .ended, log := s.log ++ [.readBody, .error] }, _, ?_,
      .silent rfl rfl rfl rfl (by simp [failed])⟩
    simp [Sys.run, sys, step, hat]
  | body =>
    dsimp only at h
    split at h
    · obtain ⟨rfl, rfl⟩ := Prod.mk.inj (Option.some.inj h)
      exact read _ _ rfl
    · cases h
  | junkBody b k =>
    dsimp only at h
    split at h
    · obtain ⟨rfl, rfl⟩ := Prod.mk.inj (Option.some.inj h)
      exact read _ _ rfl
    · cases h
  | stop | header | junkHeader | process | thrown | written | writeFailed => cases h

/-- The three callbacks: a server that leaves the response of the label, and a hook that replaces it. -/
theorem process_simulates {i : Option ℕ} {r : StrRequest} (hpc : L.pc = .process i r)
    (hat : s.pc = .first ∧ s.cxt.req = r) (he : e ≠ .thrown) (h : Session.step L e = some (L', a)) :
    ∃ es s' acts, (sys ep).run s es = some s' ∧ Matches L L' e a s s' acts := by
  obtain ⟨hat, hreq⟩ := hat
  unfold Session.step at h
  rw [hpc] at h
  cases e with
  | process d last =>
    obtain ⟨rfl, rfl⟩ := Prod.mk.inj (Option.some.inj h)
    obtain ⟨c, hc, -, hres⟩ := answering_handleRequest d.res s.cxt
    refine ⟨[.first fun c => (c, none), .handle (answering d.res),
        .last fun c => ({ c with res := last.getD c.res }, none)],
      { pc := .write, cxt := { c with res := finalRes d last }
        log := s.log ++ [.first, .handle, .last (finalRes d last)] }, _, ?_, rfl, ⟨rfl, rfl⟩,
      ⟨[], (List.append_nil _).symm, List.nil_prefix, fun _ => ?_⟩, by simp [failed], ?_⟩
    · simp [Sys.run, sys, step, hat, hc, hres, finalRes]
    · simp [Act.pieces]
    · rintro j r' res ha
      obtain ⟨k, -, hk⟩ := Option.map_eq_some_iff.mp ha
      obtain ⟨-, rfl, rfl⟩ : k = j ∧ r = r' ∧ finalRes d last = res := by simpa using hk
      exact ⟨hreq, rfl⟩
  | thrown => exact absurd rfl he
  | stop | readFailed | header | junkHeader | body | junkBody | written | writeFailed => cases h

theorem write_simulates {res : StrResponse} (hpc : L.pc = .write res)
    (hat : s.pc = .write ∧ s.cxt.res = res) (h : Session.step L e = some (L', a)) :
    ∃ es s' acts, (sys ep).run s es = some s' ∧ Matches L L' e a s s' acts := by
  obtain ⟨hat, rfl⟩ := hat
  unfold Session.step at h
  rw [hpc] at h
  cases e with
  | written =>
    obtain ⟨rfl, rfl⟩ := Prod.mk.inj (Option.some.inj h)
    refine ⟨[.written true], { s with
      pc := if s.cxt.res.needEof then .ended else .test, log := s.log ++ [.write s.cxt.res] }, _, ?_, rfl,
      ?_, ⟨_, rfl, ?_, fun _ => ?_⟩, by simp [failed], fun _ _ _ ha => by cases ha⟩
    · simp [Sys.run, sys, step, hat]
    · dsimp only
      split_ifs <;> rfl
    · simp [Act.pieces]
    · simp [Act.pieces]
  | writeFailed k =>
    obtain ⟨rfl, rfl⟩ := Prod.mk.inj (Option.some.inj h)
    refine ⟨[.written false], { s with pc := .ended, log := s.log ++ [.write s.cxt.res, .error] }, _, ?_,
      rfl, rfl, ⟨_, rfl, ?_, fun hf => by cases hf⟩, by simp [failed], fun _ _ _ ha => by cases ha⟩
    · simp [Sys.run, sys, step, hat]
    · simpa [Act.pieces] using List.take_prefix _ _
  | stop | readFailed | header | junkHeader | body | junkBody | process | thrown => cases h

/-- **A step of the session on its connection** is a run of the session, with the same messages. -/
theorem step_simulates (hat : At s L.pc) (he : e ≠ .thrown) (h : Session.step L e = some (L', a)) :
    ∃ es s' acts, (sys ep).run s es = some s' ∧ Matches L L' e a s s' acts := by
  cases hpc : L.pc with
  | header => exact header_simulates hpc (by rwa [hpc] at hat) h
  | writeContinue i r => exact interim_simulates hpc (by rwa [hpc] at hat) h
  | body i r => exact body_simulates hpc (by rwa [hpc] at hat) h
  | process i r => exact process_simulates hpc (by rwa [hpc] at hat) he h
  | write res => exact write_simulates hpc (by rwa [hpc] at hat) h
  | ended =>
    rw [step_ended hpc] at h
    cases h

end Simulation

/-- A connection with its session, and all pieces the session has written; in between anything may be put
on the way to the server and taken from the way to the client. -/
def linkSys : Sys (Link × List (Piece StrResponse))
    (Session.Ev ⊕ (List (Piece (ℕ × StrRequest)) × List (Piece StrResponse))) where
  init := ({}, [])
  step
    | _, .inl .thrown => none
    | (L, out), .inl e => (Session.step L e).map fun r => (r.1, out ++ r.1.down.drop L.down.length)
    | (L, out), .inr (up, down) => some ({ L with up := up, down := down }, out)

theorem link_step {L L' : Link} {out out' : List (Piece StrResponse)} {e : Session.Ev}
    (h : linkSys.step (L, out) (.inl e) = some (L', out')) :
    e ≠ .thrown ∧ ∃ a, Session.step L e = some (L', a) ∧ out' = out ++ L'.down.drop L.down.length := by
  cases e with
  | thrown => cases h
  | stop | readFailed | header | junkHeader | body | junkBody | process | written | writeFailed =>
    obtain ⟨⟨L₁, a⟩, hst, heq⟩ := Option.map_eq_some_iff.mp h
    obtain ⟨rfl, rfl⟩ := Prod.mk.inj heq
    exact ⟨by simp, a, hst, rfl⟩

/-- The positions are the same, and the session has written what the record says, but for the end of a
message whose write has failed. -/
structure Follows (ep : E) (x : Link × List (Piece StrResponse)) (s : St E) : Prop where
  reach : (sys ep).Reach s
  pos : At s x.1.pc
  out : x.2 <+: s.log.flatMap Act.pieces
  whole : Act.error ∉ s.log → x.2 = s.log.flatMap Act.pieces

theorem at_ended {s : St E} {pc : Session.Pc} (h : At s pc) (hs : s.pc = .ended) : pc = .ended := by
  cases pc with
  | ended => rfl
  | process | write => exact absurd (h.1.symm.trans hs) (by simp)
  | header | writeContinue | body => exact absurd (Eq.symm (show s.pc = _ from h) |>.trans hs) (by simp)

theorem follows_step {ep : E} (x : Link × List (Piece StrResponse))
    (l : Session.Ev ⊕ (List (Piece (ℕ × StrRequest)) × List (Piece StrResponse)))
    (x' : Link × List (Piece StrResponse)) (s : St E) (hf : Follows ep x s)
    (h : linkSys.step x l = some x') : ∃ es s', (sys ep).run s es = some s' ∧ Follows ep x' s' := by
  obtain ⟨L, out⟩ := x
  rcases l with e | ⟨up, down⟩
  · obtain ⟨L', out'⟩ := x'
    obtain ⟨he, a, hst, rfl⟩ := link_step h
    have hsim : ∃ es s' acts, (sys ep).run s es = some s' ∧ Matches L L' e a s s' acts :=
      step_simulates hf.pos he hst
    obtain ⟨es, s', acts, hrun, hm⟩ := hsim
    obtain ⟨t, hdown, hpre, hall⟩ := hm.down
    have hdrop : L'.down.drop L.down.length = t := by rw [hdown, List.drop_left]
    -- a session that has met an error has ended, and makes no step
    have hclean : Act.error ∉ s.log := by
      intro herr
      have hpc := (Sys.reach_inv (inv_init ep) inv_step hf.reach).going.resolve_left
        fun hgo => absurd (hgo _ herr) (by simp [Act.stops])
      rw [step_ended (at_ended hf.pos hpc)] at hst
      cases hst
    have hout : out = s.log.flatMap Act.pieces := hf.whole hclean
    obtain ⟨es₀, hes₀⟩ := hf.reach
    refine ⟨es, s', hrun, ⟨es₀ ++ es, Sys.run_append.mpr ⟨s, hes₀, hrun⟩⟩, hm.pos, ?_, ?_⟩
    · rw [hdrop, hout, hm.log, List.flatMap_append]
      exact (List.prefix_append_right_inj _).mpr hpre
    · intro hno
      rw [hm.log, List.mem_append, not_or, hm.error, Bool.not_eq_true] at hno
      rw [hdrop, hout, hm.log, List.flatMap_append, hall hno.2]
  · obtain rfl := Option.some.inj h
    exact ⟨[], s, rfl, hf.reach, hf.pos, hf.out, hf.whole⟩

/-- **The session of a connection keeps to the protocol**: whatever is put on the connection and taken from
it, a run of the session on it is a run of `session`, with the same positions and the same messages. -/
theorem link_follows (ep : E) {x : Link × List (Piece StrResponse)} (h : linkSys.Reach x) :
    ∃ s, Follows ep x s := by
  have hstart : Follows ep linkSys.init { (sys ep).init with pc := .test } :=
    ⟨⟨[.endpoint (some ep)], rfl⟩, rfl, List.prefix_rfl, fun _ => rfl⟩
  obtain ⟨es, hes⟩ := h
  obtain ⟨ds, s, -, hf⟩ := Sys.run_simulates follows_step hstart hes
  exact ⟨s, hf⟩

/-- A request that expects a 100 response and has no body. -/
def askRequest : StrRequest :=
  { target := str "/test_api", fields := [(str "Expect", str "100-continue")] }

/-- The callbacks and the response. -/
def answerRun : List (Ev Unit) :=
  [.first fun c => (c, none), .handle testApi, .last fun c => (c, none), .written true]

/-- It is answered by a resource; the next request by the default resource, which ends the connection. -/
def askRun : List (Ev Unit) :=
  [.endpoint (some ()), .running true, .header (some askRequest), .written true, .body (some ([], []))] ++
    answerRun ++ [.running true, .header (some { target := str "/x" }), .body (some ([], []))] ++ answerRun

theorem session_protocol_askRun :
    ∃ s, (sys ()).exec askRun = some s ∧ s.pc = .ended ∧
      (s.log.filterMap Act.final).map StrResponse.result = [200, 404] ∧
      ∃ (xs : List Round) (rest : List Act) (x : Round),
        s.log.filter Act.inRound = xs.flatMap Round.acts ++ rest ∧ rest <+: x.acts ∧ rest ≠ x.acts ∧
        s.log.filterMap Act.final = xs.map Round.res ∧
        (s.log.filterMap Act.request = xs.map Round.req ∨
          s.log.filterMap Act.request = xs.map Round.req ++ [x.req]) ∧
        Silent s.log :=
  ⟨_, rfl, rfl, rfl, session_protocol () _ ⟨askRun, rfl⟩⟩

end Jkit.Http.Server.Protocol
