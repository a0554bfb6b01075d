import Jkit.Http.Client.Lease
import Jkit.Http.Server.Session

/-! # The exchange between `MultiClientHttp::h1_req` and `HttpApiServer::session`

The calls of `h1_req` over the HTTP pool (`H1`) and the sessions of the server, one for each
connection, with what is on the way between them. A call writes its request to the connection it
holds and reads one message from it; bytes that had already come into the `flat_buffer` of the call
are lost when it returns. `answers` records for each call the request the server has read for it and
the final response it has produced; the code does not read it.

`Agree` is what the two sides owe each other, `Meets` the condition on the steps of a run under which
they do (`Agreement`): it excludes the requests the server answers with two messages
(`Expect: 100-continue`), messages that are longer than the other side takes them to be, and headers that
the other side reads as something else than they are. Under it a connection is always in one of the
phases of `Phase`, whatever the session and the client do next (`Phase.session`, `Phase.receive`). -/

namespace Jkit.Http.Exchange

open Jkit.Http.Message Jkit.Http.Wire Jkit.Http.Client.Conns Jkit.Http.Client.Lease
open Jkit.Http.Server.Session Jkit.Lib.Run Jkit.Lib.Frame
open Jkit.Http.Client

/-! ### The model -/

/-- The pool, the calls, the connections and the answers. -/
structure State where
  pool : H1.Pool HttpReqArgument Unit
  calls : ℕ → H1.Pc := fun _ => .idle
  links : ℕ → Link := fun _ => {}
  answers : ℕ → Option (StrRequest × StrResponse) := fun _ => none

/-- A step of a call or of the session of a connection. The number says how much of a request arrives
if its write fails, and how much is lost with the buffer of a read. -/
inductive Label
  | call (i : ℕ) (e : H1.Ev) (k : ℕ)
  | session (p : ℕ) (e : Server.Session.Ev)

/-- The client reads one message. What is left of an earlier one is read as whatever it spells. -/
def receive (res : StrResponse) (k : ℕ) (L : Link) : Option Link :=
  match read seeResponse resLen L.pc.isEnded L.down with
  | .ok (h, body) rest =>
    if { h with body := body } = res then some { L with down := rest.drop k } else none
  | .clash => some { L with down := L.down.drop k }
  | .wait => none

/-- What a step of call `i` does to the connection it holds. -/
def onLink (reqs : ℕ → StrRequest) (i k : ℕ) : H1.Pc → H1.Ev → Link → Option Link
  | .write _, .write none, L => some { L with up := L.up ++ reqPieces i (reqs i) }
  | .write _, .write (some _), L => some { L with up := L.up ++ (reqPieces i (reqs i)).take k }
  | .read _, .read (.ok res), L => receive res k L
  | _, _, L => some L

/-- The connections after a step of call `i`. -/
def onLinks (reqs : ℕ → StrRequest) (i k : ℕ) (pc : H1.Pc) (e : H1.Ev) (links : ℕ → Link) :
    Option (ℕ → Link) :=
  match held pc with
  | none => some links
  | some p => (onLink reqs i k pc e (links p)).map (Function.update links p)

/-- The answers after a session has given one. -/
def record (answers : ℕ → Option (StrRequest × StrResponse)) :
    Option Answer → ℕ → Option (StrRequest × StrResponse)
  | none => answers
  | some (i, r, res) => Function.update answers i (some (r, res))

/-- One step of the system. -/
def step (args : ℕ → HttpReqArgument) (reqs : ℕ → StrRequest) (s : State) : Label → Option State
  | .call i e k =>
    (H1.step H1.http args i s.pool (s.calls i) e).bind fun r =>
      (onLinks reqs i k (s.calls i) e s.links).map fun links =>
        { s with pool := r.1, calls := Function.update s.calls i r.2, links := links }
  | .session p e =>
    (Server.Session.step (s.links p) e).map fun r =>
      { s with links := Function.update s.links p r.1, answers := record s.answers r.2 }

/-- The calls of `h1_req` with the requests `reqs` and the sessions, in any interleaving. -/
def sys (args : ℕ → HttpReqArgument) (reqs : ℕ → StrRequest) (o : Conn HttpReqArgument Unit) :
    Sys State Label where
  init := { pool := { cache := { mem := fun _ => o } } }
  step := step args reqs

/-- The call has the final response the server produced for its request, with the reason it is sent
with. -/
def Answered (reqs : ℕ → StrRequest) (answers : ℕ → Option (StrRequest × StrResponse)) (i : ℕ)
    (res : StrResponse) : Prop :=
  ∃ a, answers i = some (reqs i, a) ∧ res = a.named

/-- **Agreement**: a call that has returned a response has returned the final response the server
produced for its request. -/
def Agree (reqs : ℕ → StrRequest) (s : State) : Prop :=
  ∀ i res, s.calls i = .done (.response res) → Answered reqs s.answers i res

/-- The request asks for no interim response, is read whole and has a legible header. -/
def Plain (r : StrRequest) : Prop := expects r = false ∧ ReqWhole r ∧ ReqLegible r

/-- The condition on a step: a request that is written is plain, a response fits, and the write of a
response that ends with the connection does not break off in the middle. -/
def Meets (reqs : ℕ → StrRequest) (s : State) : Label → Prop
  | .call i (.write _) _ => Plain (reqs i)
  | .session _ (.process h last) => Fits h last
  | .session p (.writeFailed k) =>
    ∀ res, (s.links p).pc = .write res → resLen res = .eof → k = 0 ∨ (resPieces res).length ≤ k
  | _ => True

/-! ### The phases of a connection -/

/-- What a connection and its session are doing for the call `o`, if for any. -/
inductive Phase (reqs : ℕ → StrRequest) (answers : ℕ → Option (StrRequest × StrResponse)) (L : Link) :
    Option ℕ → Prop
  | quiet (hup : L.up = []) (hdown : L.down = []) (hpc : L.pc = .header ∨ L.pc = .ended) :
      Phase reqs answers L none
  | asked {i : ℕ} (hr : Plain (reqs i)) (hup : L.up <+: reqPieces i (reqs i)) (hdown : L.down = [])
      (hpc : L.pc = .header) (ha : answers i = none) : Phase reqs answers L (some i)
  | inBody {i : ℕ} (hr : ReqWhole (reqs i))
      (hup : L.up <+: bodyPieces (reqs i).fields.chunked (reqs i).body) (hdown : L.down = [])
      (hpc : L.pc = .body (some i) { reqs i with body := [] }) (ha : answers i = none) :
      Phase reqs answers L (some i)
  | served {i : ℕ} (hup : L.up = []) (hdown : L.down = []) (hpc : L.pc = .process (some i) (reqs i))
      (ha : answers i = none) : Phase reqs answers L (some i)
  | answered {i : ℕ} {res : StrResponse} (hw : ResWhole res) (hl : ResLegible res) (hup : L.up = [])
      (hdown : L.down = []) (hpc : L.pc = .write res) (ha : answers i = some (reqs i, res)) :
      Phase reqs answers L (some i)
  | sent {i : ℕ} {res : StrResponse} (hw : ResWhole res) (hl : ResLegible res) (hup : L.up = [])
      (hdown : Arrived (resLen res) (fun h => h.fields.chunked) { res with body := [] } res.body L.down)
      (hpc : L.pc = .header ∨ L.pc = .ended) (ha : answers i = some (reqs i, res)) :
      Phase reqs answers L (some i)
  | broken {i : ℕ} (hdown : L.down = []) (hpc : L.pc = .ended) : Phase reqs answers L (some i)

section Phases

variable {reqs : ℕ → StrRequest} {answers : ℕ → Option (StrRequest × StrResponse)} {L L' : Link}

/-- A phase depends on the answer to its own call only. -/
theorem Phase.congr {answers' : ℕ → Option (StrRequest × StrResponse)} {o : Option ℕ}
    (h : Phase reqs answers L o) (ha : ∀ i, o = some i → answers' i = answers i) :
    Phase reqs answers' L o := by
  cases h with
  | quiet hup hdown hpc => exact .quiet hup hdown hpc
  | asked hr hup hdown hpc hn => exact .asked hr hup hdown hpc (by rw [ha _ rfl, hn])
  | inBody hr hup hdown hpc hn => exact .inBody hr hup hdown hpc (by rw [ha _ rfl, hn])
  | served hup hdown hpc hn => exact .served hup hdown hpc (by rw [ha _ rfl, hn])
  | answered hw hl hup hdown hpc hn => exact .answered hw hl hup hdown hpc (by rw [ha _ rfl, hn])
  | sent hw hl hup hdown hpc hn => exact .sent hw hl hup hdown hpc (by rw [ha _ rfl, hn])
  | broken hdown hpc => exact .broken hdown hpc

/-- Without a request the session can only end. -/
theorem idle_step {e : Server.Session.Ev} {a : Option Answer} (hup : L.up = [])
    (hpc : L.pc = .header ∨ L.pc = .ended) (h : Server.Session.step L e = some (L', a)) :
    a = none ∧ L' = { L with pc := .ended } := by
  rcases hpc with hpc | hpc
  · obtain ⟨ha, hL | ⟨i, r, w, hw, -⟩ | hw⟩ := step_header hpc h
    · exact ⟨ha, hL⟩
    · rw [hup] at hw
      cases hw
    · rw [hup] at hw
      cases hw
  · rw [step_ended hpc] at h
    cases h

/-- The request is at the head of what is on the way: the session reads its header. -/
theorem asked_step {i : ℕ} {e : Server.Session.Ev} {a : Option Answer} (hr : Plain (reqs i))
    (hup : L.up <+: reqPieces i (reqs i)) (hdown : L.down = []) (hpc : L.pc = .header)
    (ha : answers i = none) (h : Server.Session.step L e = some (L', a)) :
    a = none ∧ Phase reqs answers L' (some i) := by
  obtain ⟨hexpects, hwhole, hlegible⟩ := hr
  obtain ⟨hn, hL⟩ := step_header hpc h
  refine ⟨hn, ?_⟩
  -- the session waits, or reads the header that was written
  have hread : readHeader L.up = .wait ∨ ∃ t, readHeader L.up = .ok (i, { reqs i with body := [] }) t ∧
      t <+: bodyPieces (reqs i).fields.chunked (reqs i).body := by
    rcases List.prefix_cons_iff.mp hup with hnil | ⟨t, ht, hpre⟩
    · exact .inl (by rw [hnil]; rfl)
    · rw [ht]
      exact (readHeader_legible hlegible i t).imp id fun hok => ⟨t, hok, hpre⟩
  rcases hL with rfl | ⟨j, r, w, hw, rfl⟩ | hclash
  · exact .broken hdown rfl
  · rcases hread with hwait | ⟨t, hok, hpre⟩
    · rw [hwait] at hw
      cases hw
    · rw [hok] at hw
      obtain ⟨hx, rfl⟩ := Read.ok.inj hw
      obtain ⟨rfl, rfl⟩ := Prod.mk.inj hx
      refine .inBody hwhole hpre hdown ?_ ha
      show afterHeader _ _ = _
      rw [afterHeader, show expects { reqs i with body := [] } = expects (reqs i) from rfl, hexpects]
      rfl
  · rcases hread with hwait | ⟨t, hok, -⟩
    · rw [hwait] at hclash
      cases hclash
    · rw [hok] at hclash
      cases hclash

/-- The rest of the request is on the way: the session reads all of it. -/
theorem inBody_step {i : ℕ} {e : Server.Session.Ev} {a : Option Answer} (hr : ReqWhole (reqs i))
    (hup : L.up <+: bodyPieces (reqs i).fields.chunked (reqs i).body) (hdown : L.down = [])
    (hpc : L.pc = .body (some i) { reqs i with body := [] }) (ha : answers i = none)
    (h : Server.Session.step L e = some (L', a)) :
    a = none ∧ Phase reqs answers L' (some i) := by
  obtain ⟨hn, hL⟩ := step_body hpc h
  refine ⟨hn, ?_⟩
  have heof : reqLen (reqs i) ≠ .eof := by
    unfold reqLen
    split
    · simp
    · split
      · simp
      · split_ifs <;> simp
  have hread := readBody_whole hr hup (fun he => absurd he heof) false
  rw [show reqLen { reqs i with body := [] } = reqLen (reqs i) from rfl] at hL
  rcases hL with rfl | ⟨b, w, hb, rfl⟩ | hclash
  · exact .broken hdown rfl
  · rw [hb] at hread
    rcases hread with hread | hread
    · cases hread
    · obtain ⟨rfl, rfl⟩ := Read.ok.inj hread
      exact .served rfl hdown rfl ha
  · rw [hclash] at hread
    rcases hread with hread | hread <;> cases hread

theorem served_step {i : ℕ} {e : Server.Session.Ev} {a : Option Answer} (hup : L.up = [])
    (hdown : L.down = []) (hpc : L.pc = .process (some i) (reqs i))
    (hfit : ∀ h last, e = .process h last → Fits h last)
    (h : Server.Session.step L e = some (L', a)) :
    Phase reqs (record answers a) L' (some i) ∧ ∀ j r res, a = some (j, r, res) → i = j := by
  rcases step_process hpc h with ⟨rfl, rfl⟩ | ⟨d, last, he, rfl, rfl⟩
  · exact ⟨.broken hdown rfl, fun _ _ _ h => by cases h⟩
  · refine ⟨.answered (finalRes_whole (hfit d last he)) (hfit d last he).1 hup hdown rfl ?_, ?_⟩
    · exact Function.update_self _ _ _
    · rintro j r res hj
      exact congrArg Prod.fst (Option.some.inj hj)

theorem answered_step {i : ℕ} {res : StrResponse} {e : Server.Session.Ev} {a : Option Answer}
    (hw : ResWhole res) (hl : ResLegible res) (hup : L.up = []) (hdown : L.down = [])
    (hpc : L.pc = .write res) (ha : answers i = some (reqs i, res))
    (hcut : ∀ k, e = .writeFailed k → resLen res = .eof → k = 0 ∨ (resPieces res).length ≤ k)
    (h : Server.Session.step L e = some (L', a)) :
    a = none ∧ Phase reqs answers L' (some i) := by
  obtain ⟨hn, rfl | ⟨k, he, rfl⟩⟩ := step_write hpc h
  · refine ⟨hn, .sent hw hl hup ?_ ?_ ha⟩
    · rw [hdown, List.nil_append]
      exact arrived_write _ _ _ _
    · cases res.needEof with
      | true => exact .inr rfl
      | false => exact .inl rfl
  · refine ⟨hn, .sent hw hl hup ?_ (.inr rfl) ha⟩
    rw [hdown, List.nil_append]
    refine ⟨List.take_prefix _ _, fun hl => ?_⟩
    rcases hcut k he hl with rfl | hk
    · exact .inl rfl
    · exact .inr (List.take_of_length_le hk)

/-- **One step of a session** keeps its phase in order; the answer it gives, if any, is to the call it
works for. -/
theorem Phase.session {o : Option ℕ} (hp : Phase reqs answers L o) {e : Server.Session.Ev}
    {a : Option Answer} (hfit : ∀ h last, e = .process h last → Fits h last)
    (hcut : ∀ k res, e = .writeFailed k → L.pc = .write res → resLen res = .eof →
      k = 0 ∨ (resPieces res).length ≤ k)
    (h : Server.Session.step L e = some (L', a)) :
    Phase reqs (record answers a) L' o ∧ ∀ i r res, a = some (i, r, res) → o = some i := by
  -- all steps but the one that answers leave the answers as they are
  have silent : a = none ∧ Phase reqs answers L' o → Phase reqs (record answers a) L' o ∧
      ∀ i r res, a = some (i, r, res) → o = some i := by
    rintro ⟨rfl, hp⟩
    exact ⟨hp, fun _ _ _ h => by cases h⟩
  cases hp with
  | quiet hup hdown hpc =>
    obtain ⟨ha, rfl⟩ := idle_step hup hpc h
    exact silent ⟨ha, .quiet hup hdown (.inr rfl)⟩
  | asked hr hup hdown hpc ha => exact silent (asked_step hr hup hdown hpc ha h)
  | inBody hr hup hdown hpc ha => exact silent (inBody_step hr hup hdown hpc ha h)
  | served hup hdown hpc ha =>
    obtain ⟨hp, hi⟩ := served_step hup hdown hpc hfit h
    exact ⟨hp, fun j r res hj => congrArg some (hi j r res hj)⟩
  | answered hw hl hup hdown hpc ha =>
    exact silent (answered_step hw hl hup hdown hpc ha (fun k he => hcut k _ he hpc) h)
  | sent hw hl hup hdown hpc ha =>
    obtain ⟨hn, rfl⟩ := idle_step hup hpc h
    exact silent ⟨hn, .sent hw hl hup hdown (.inr rfl) ha⟩
  | broken hdown hpc =>
    rw [step_ended hpc] at h
    cases h

theorem receive_nil {res : StrResponse} {k : ℕ} (hdown : L.down = []) : receive res k L = none := by
  rw [receive, hdown]
  rfl

/-- **The client reads** the response to the call the connection works for, and leaves the connection
quiet. -/
theorem Phase.receive {o : Option ℕ} (hp : Phase reqs answers L o) {res : StrResponse} {k : ℕ}
    (h : receive res k L = some L') :
    Phase reqs answers L' none ∧ ∃ i, o = some i ∧ Answered reqs answers i res := by
  cases hp with
  | sent hw hl hup hdown hpc ha =>
    next i res' =>
    unfold Exchange.receive at h
    have hread := @read_whole _ seeResponse resLen (fun h => h.fields.chunked) _ _ _ _
      (see_of_resLegible hl) hdown hw L.pc.isEnded
    rcases hread with hread | hread
    · rw [hread] at h
      cases h
    · rw [hread] at h
      dsimp only at h
      split_ifs at h with heq
      cases h
      exact ⟨.quiet hup (by simp) hpc, i, rfl, res', ha, heq.symm⟩
  | quiet hup hdown hpc | asked hr hup hdown hpc ha | inBody hr hup hdown hpc ha
  | served hup hdown hpc ha | answered hw hl hup hdown hpc ha | broken hdown hpc =>
    rw [receive_nil hdown] at h
    cases h

/-- A request is written to a quiet connection. -/
theorem Phase.send {i : ℕ} (hp : Phase reqs answers L none) (hr : Plain (reqs i)) (ha : answers i = none)
    {w : List (Piece (ℕ × StrRequest))} (hw : w <+: reqPieces i (reqs i)) :
    Phase reqs answers { L with up := L.up ++ w } (some i) := by
  cases hp with
  | quiet hup hdown hpc =>
    rcases hpc with hpc | hpc
    · refine .asked hr ?_ hdown hpc ha
      rw [hup]
      exact hw
    · exact .broken hdown hpc

end Phases

end Jkit.Http.Exchange
