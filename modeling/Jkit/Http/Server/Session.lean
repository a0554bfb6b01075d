import Jkit.Http.Server.Context
import Jkit.Http.Spelling
import Jkit.Http.Wire

/-! # `HttpApiServer::session`

The loop of `session` on one connection, as a step function: the header of a request, the interim
response if the client asks for one, the body, the three callbacks, the final response. A label says
what the environment decides: whether `m_running` still holds, how an I/O operation ends, and what the
callbacks leave in the context. A resource is a `std::function` and may answer the same request
differently each time, so its result is part of the label; `handleRequest_leaves` says that
`handle_request` of `Context` comes to one of these.

`finalRes_whole` says which results of the callbacks give a response the client reads whole, and
`finishRes_legible` for which results of a resource the client can read the header. -/

namespace Jkit.Http.Server.Session

open Jkit.Http.Message Jkit.Http.Head Jkit.Http.Spelling Jkit.Http.Wire Jkit.Http.Server.Context
open Jkit.Lib.Frame
open HttpApiServer

/-! ### The model -/

/-- `continue_res`. -/
def continueRes : StrResponse := StrResponse.set { result := 100, version := 11 } "Server" beastVersion

/-- What `handle_request` makes the response from: the request and the response a resource leaves in
the context, or the response of `m_default_resource` or `m_bad_resource`. -/
inductive Handled
  | resource (req : StrRequest) (res : StrResponse)
  | page (res : StrResponse)

/-- The response after `handle_request`. -/
def Handled.res : Handled → StrResponse
  | .resource req res => finishRes req res
  | .page res => res

/-- The final response; `last` is the one `last_process` puts in place of it, if it does. -/
def finalRes (h : Handled) (last : Option StrResponse) : StrResponse := last.getD h.res

/-- The position of a session. A request comes with the call that sent it; one that is read out of the
rest of another has none. -/
inductive Pc
  | header
  | writeContinue (i : Option ℕ) (r : StrRequest)
  | body (i : Option ℕ) (r : StrRequest)
  | process (i : Option ℕ) (r : StrRequest)
  | write (res : StrResponse)
  | ended

/-- The end of the session closes the connection. -/
def Pc.isEnded : Pc → Bool
  | .ended => true
  | _ => false

/-- A connection with its session: what is on the way to the server and to the client. -/
structure Link where
  up : List (Piece (ℕ × StrRequest)) := []
  down : List (Piece StrResponse) := []
  pc : Pc := .header

/-- The label of a step of a session. -/
inductive Ev
  | stop
  | readFailed
  | header
  | junkHeader (r : StrRequest) (k : ℕ)
  | body
  | junkBody (body : Str) (k : ℕ)
  | process (h : Handled) (last : Option StrResponse)
  | thrown
  | written
  | writeFailed (k : ℕ)

/-- An answer: the call, its request and the final response. -/
abbrev Answer := ℕ × StrRequest × StrResponse

/-- The test on `http::field::expect`. -/
def expects (r : StrRequest) : Bool := r.fields.get (str "Expect") == str "100-continue"

/-- The position after the header of a request has been read. -/
def afterHeader (i : Option ℕ) (r : StrRequest) : Pc :=
  if expects r then .writeContinue i r else .body i r

/-- The header the server reads; it refuses one whose length is an error. -/
def readHeader (w : List (Piece (ℕ × StrRequest))) : Read (ℕ × StrRequest) (ℕ × StrRequest) :=
  match readHead seeRequest w with
  | .ok x w => if reqLen x.2 = .bad then .wait else .ok x w
  | r => r

/-- One step of a session, with the answer it gives, if any. -/
def step (L : Link) (e : Ev) : Option (Link × Option Answer) :=
  match L.pc, e with
  | .header, .stop | .header, .readFailed | .body _ _, .readFailed | .process _ _, .thrown =>
    some ({ L with pc := .ended }, none)
  | .header, .header =>
    match readHeader L.up with
    | .ok (i, r) w => some ({ L with up := w, pc := afterHeader (some i) r }, none)
    | _ => none
  -- what is left of an earlier request, or is no single header, is read as whatever it spells
  | .header, .junkHeader r k =>
    match readHeader L.up with
    | .clash => some ({ L with up := L.up.drop k, pc := afterHeader none r }, none)
    | _ => none
  | .writeContinue i r, .written =>
    some ({ L with down := L.down ++ resPieces continueRes, pc := .body i r }, none)
  | .writeContinue _ _, .writeFailed k =>
    some ({ L with down := L.down ++ (resPieces continueRes).take k, pc := .ended }, none)
  | .body i r, .body =>
    match readBody false (reqLen r) L.up with
    | .ok b w => some ({ L with up := w, pc := .process i { r with body := b } }, none)
    | _ => none
  | .body i r, .junkBody b k =>
    match readBody false (reqLen r) L.up with
    | .clash => some ({ L with up := L.up.drop k, pc := .process i { r with body := b } }, none)
    | _ => none
  | .process i r, .process h last =>
    let res := finalRes h last
    some ({ L with pc := .write res }, i.map fun i => (i, r, res))
  | .write res, .written =>
    some ({ L with
      down := L.down ++ resPieces res, pc := if res.needEof then .ended else .header }, none)
  | .write res, .writeFailed k =>
    some ({ L with down := L.down ++ (resPieces res).take k, pc := .ended }, none)
  | _, _ => none

/-! ### What a step does, by the position of the session -/

section Steps

variable {L L' : Link} {e : Ev} {a : Option Answer}

theorem step_header (hpc : L.pc = .header) (h : step L e = some (L', a)) :
    a = none ∧ (L' = { L with pc := .ended } ∨
      (∃ i r w, readHeader L.up = .ok (i, r) w ∧
        L' = { L with up := w, pc := afterHeader (some i) r }) ∨
      readHeader L.up = .clash) := by
  unfold step at h
  rw [hpc] at h
  cases e with
  | stop | readFailed =>
    obtain ⟨rfl, rfl⟩ := Prod.mk.inj (Option.some.inj h)
    exact ⟨rfl, .inl rfl⟩
  | header =>
    dsimp only at h
    split at h
    · next i r w hup =>
      obtain ⟨rfl, rfl⟩ := Prod.mk.inj (Option.some.inj h)
      exact ⟨rfl, .inr (.inl ⟨i, r, w, hup, rfl⟩)⟩
    · cases h
  | junkHeader r k =>
    dsimp only at h
    split at h
    · next hup =>
      obtain ⟨rfl, rfl⟩ := Prod.mk.inj (Option.some.inj h)
      exact ⟨rfl, .inr (.inr hup)⟩
    · cases h
  | body | junkBody | process | thrown | written | writeFailed => cases h

/-- A legible header is refused or read as it is. -/
theorem readHeader_legible {r : StrRequest} (hr : ReqLegible r) (i : ℕ)
    (w : List (Piece (ℕ × StrRequest))) :
    readHeader (.head (i, { r with body := [] }) :: w) = .wait ∨
      readHeader (.head (i, { r with body := [] }) :: w) = .ok (i, { r with body := [] }) w := by
  unfold readHeader
  rcases readHead_only (see_of_reqLegible hr i) w with h | h
  · exact .inl (by rw [h])
  · rw [h]
    dsimp only
    split_ifs
    · exact .inl rfl
    · exact .inr rfl

theorem step_body {i : Option ℕ} {r : StrRequest} (hpc : L.pc = .body i r)
    (h : step L e = some (L', a)) :
    a = none ∧ (L' = { L with pc := .ended } ∨
      (∃ b w, readBody false (reqLen r) L.up = .ok b w ∧
        L' = { L with up := w, pc := .process i { r with body := b } }) ∨
      readBody false (reqLen r) L.up = .clash) := by
  unfold step at h
  rw [hpc] at h
  cases e with
  | readFailed =>
    obtain ⟨rfl, rfl⟩ := Prod.mk.inj (Option.some.inj h)
    exact ⟨rfl, .inl rfl⟩
  | body =>
    dsimp only at h
    split at h
    · next b w hb =>
      obtain ⟨rfl, rfl⟩ := Prod.mk.inj (Option.some.inj h)
      exact ⟨rfl, .inr (.inl ⟨b, w, hb, rfl⟩)⟩
    · cases h
  | junkBody b k =>
    dsimp only at h
    split at h
    · next hb =>
      obtain ⟨rfl, rfl⟩ := Prod.mk.inj (Option.some.inj h)
      exact ⟨rfl, .inr (.inr hb)⟩
    · cases h
  | stop | header | junkHeader | process | thrown | written | writeFailed => cases h

theorem step_process {i : Option ℕ} {r : StrRequest} (hpc : L.pc = .process i r)
    (h : step L e = some (L', a)) :
    (a = none ∧ L' = { L with pc := .ended }) ∨
      ∃ d last, e = .process d last ∧ L' = { L with pc := .write (finalRes d last) } ∧
        a = i.map fun i => (i, r, finalRes d last) := by
  unfold step at h
  rw [hpc] at h
  cases e with
  | thrown =>
    obtain ⟨rfl, rfl⟩ := Prod.mk.inj (Option.some.inj h)
    exact .inl ⟨rfl, rfl⟩
  | process d last =>
    obtain ⟨rfl, rfl⟩ := Prod.mk.inj (Option.some.inj h)
    exact .inr ⟨d, last, rfl, rfl, rfl⟩
  | stop | readFailed | header | junkHeader | body | junkBody | written | writeFailed => cases h

theorem step_write {res : StrResponse} (hpc : L.pc = .write res) (h : step L e = some (L', a)) :
    a = none ∧
      (L' = { L with
          down := L.down ++ resPieces res, pc := if res.needEof then .ended else .header } ∨
        ∃ k, e = .writeFailed k ∧
          L' = { L with down := L.down ++ (resPieces res).take k, pc := .ended }) := by
  unfold step at h
  rw [hpc] at h
  cases e with
  | written =>
    obtain ⟨rfl, rfl⟩ := Prod.mk.inj (Option.some.inj h)
    exact ⟨rfl, .inl rfl⟩
  | writeFailed k =>
    obtain ⟨rfl, rfl⟩ := Prod.mk.inj (Option.some.inj h)
    exact ⟨rfl, .inr ⟨k, rfl, rfl⟩⟩
  | stop | readFailed | header | junkHeader | body | junkBody | process | thrown => cases h

theorem step_ended (hpc : L.pc = .ended) : step L e = none := by
  unfold step
  rw [hpc]

end Steps

/-! ### The callbacks -/

variable {E : Type}

/-- What a callback of the server leaves in the context. -/
inductive Leaves (S : HttpApiServer E) : Handled → Prop
  | resource {regex : Str} {byVerb : List (Verb × Call E)} {v : Verb} {fn : Call E}
      (hr : (regex, byVerb) ∈ S.resource) (hv : (v, fn) ∈ byVerb) (c : HttpContext E) :
      Leaves S (.resource (fn c).1.req (fn c).1.res)
  | defaultResource (c : HttpContext E) : Leaves S (.page (S.defaultResource c).1.res)
  | badResource (why : Str) (c : HttpContext E) : Leaves S (.page (S.badResource why c).1.res)

theorem badResource_leaves {S : HttpApiServer E} {cxt cxt' : HttpContext E} {why : Str}
    (h : S.badResource why cxt = (cxt', none)) : ∃ d, Leaves S d ∧ cxt'.res = d.res := by
  refine ⟨_, .badResource why cxt, ?_⟩
  rw [h]
  rfl

theorem dispatch_leaves {S : HttpApiServer E} {cxt cxt' : HttpContext E}
    (h : S.dispatch cxt = (cxt', none)) : ∃ d, Leaves S d ∧ cxt'.res = d.res := by
  unfold dispatch at h
  rw [callResource_eq] at h
  cases hr : S.route cxt.path cxt.req.method S.resource with
  | none =>
    rw [hr] at h
    dsimp only at h
    rcases hd : S.defaultResource cxt with ⟨c, t⟩
    rw [hd] at h
    rcases t with _ | _ | _
    · have hc : c = cxt' := congrArg Prod.fst h
      refine ⟨_, .defaultResource cxt, ?_⟩
      rw [hd, ← hc]
      rfl
    · exact badResource_leaves h
    · cases congrArg Prod.snd h
  | some x =>
    obtain ⟨fn, sm⟩ := x
    obtain ⟨e, he, hv, -⟩ := route_some hr
    rw [hr] at h
    dsimp only at h
    rcases hd : fn { cxt with pathParams := sm } with ⟨c, t⟩
    rw [hd] at h
    rcases t with _ | _ | _
    · have hc : finish c = cxt' := congrArg Prod.fst h
      refine ⟨_, .resource he hv { cxt with pathParams := sm }, ?_⟩
      rw [hd, ← hc]
      rfl
    · exact badResource_leaves h
    · cases congrArg Prod.snd h

/-- **What `handle_request` answers with**: what a resource leaves, completed by `finishRes`, or a
page. -/
theorem handleRequest_leaves {S : HttpApiServer E} {cxt cxt' : HttpContext E}
    (h : S.handleRequest cxt = (cxt', none)) : ∃ d, Leaves S d ∧ cxt'.res = d.res := by
  unfold handleRequest at h
  dsimp only at h
  split_ifs at h
  · exact badResource_leaves h
  · split at h
    · exact badResource_leaves h
    · exact dispatch_leaves h

/-- The callbacks leave a response whose header is legible, without a body where its status does not have
one, and announce the body where `handle_request` does not do it for them. -/
def Fits (h : Handled) (last : Option StrResponse) : Prop :=
  ResLegible (finalRes h last) ∧
    match last, h with
    | some res, _ => ResWhole res
    | none, .resource _ res => bodyless res.result = true → res.body = []
    | none, .page res => ResWhole res

theorem finishRes_whole {req : StrRequest} {res : StrResponse}
    (h : bodyless res.result = true → res.body = []) : ResWhole (finishRes req res) :=
  whole_of_announces ((contentLength_announces _ _).setKeepAlive _ _) h

theorem finalRes_whole {h : Handled} {last : Option StrResponse} (hf : Fits h last) :
    ResWhole (finalRes h last) := by
  cases last with
  | some res => exact hf.2
  | none =>
    cases h with
    | resource req res => exact finishRes_whole hf.2
    | page res => exact hf.2

/-! ### Legible responses -/

/-- The names of the fields `handle_request` writes itself. -/
def finishNames : List Str :=
  [str "Server", str "Content-Length", str "Transfer-Encoding", str "Connection"]

theorem cleanField_server : CleanField (str "Server", trim beastVersion) :=
  cleanField_of_text (by decide) (List.all_eq_true.mp (by decide))

/-- The fields a resource leaves come through clean, and so the header is. -/
theorem finishRes_clean_iff (req : StrRequest) (res : StrResponse) :
    CleanResponse (finishRes req res) ↔ (req.version = 10 ∨ req.version = 11) ∧ res.result ≤ 999 ∧
      (∀ c ∈ res.reason, isText c = true) ∧ CleanBut finishNames res.fields := by
  obtain ⟨g, hlength, hcoding⟩ := replaced_contentLength
    (res.fields.set (str "Server") beastVersion) res.body.length
  have hfields : (∀ e ∈ (finishRes req res).fields, CleanField e) ↔ CleanBut finishNames res.fields := by
    rw [← cleanBut_nil, finishNames, ← (replaced_set cleanField_server res.fields).clean_iff,
      ← hlength.clean_iff, ← hcoding.clean_iff, ← (replaced_setKeepAlive _ _ _).clean_iff]
    exact Iff.rfl
  constructor
  · exact fun h => ⟨h.version, h.result, h.reason, hfields.mp h.fields⟩
  · exact fun ⟨hversion, hresult, hreason, h⟩ => ⟨hversion, hresult, hreason, hfields.mpr h⟩

/-- **A resource that leaves a clean response** makes the client read the header as it is written. -/
theorem finishRes_legible {req : StrRequest} {res : StrResponse}
    (hversion : req.version = 10 ∨ req.version = 11) (h : CleanResponse res)
    (hf : Fields.gather res.fields = res.fields) : ResLegible (finishRes req res) := by
  obtain ⟨g, hlength, hcoding⟩ := replaced_contentLength
    (res.fields.set (str "Server") beastVersion) res.body.length
  refine resLegible_of_clean ((finishRes_clean_iff req res).mpr
    ⟨hversion, h.result, h.reason, fun e he _ => h.fields e he⟩) ?_
  exact (replaced_setKeepAlive _ _ _).gather
    (hcoding.gather (hlength.gather ((replaced_set cleanField_server res.fields).gather hf)))

/-- The pages of the constructor fit, whatever a resource has left, if that is clean. -/
theorem errorPage_fits {status : ℕ} {body : Str} {cxt : HttpContext E}
    (h : status = 400 ∨ status = 404) (hversion : cxt.req.version = 10 ∨ cxt.req.version = 11)
    (hc : CleanResponse cxt.res) (hf : Fields.gather cxt.res.fields = cxt.res.fields) :
    Fits (.page (errorPage status body cxt).1.res) none := by
  have htype : CleanField (str "Content-Type", trim (str "text/html")) :=
    cleanField_of_text (by decide) (List.all_eq_true.mp (by decide))
  have hserver := replaced_set cleanField_server cxt.res.fields
  have hpage := replaced_set htype (cxt.res.fields.set (str "Server") beastVersion)
  have hkeep := replaced_setKeepAlive ((cxt.res.fields.set (str "Server") beastVersion).set
    (str "Content-Type") (str "text/html")) cxt.req.version false
  obtain ⟨g, hlength, hcoding⟩ := replaced_contentLength (((cxt.res.fields.set (str "Server")
    beastVersion).set (str "Content-Type") (str "text/html")).setKeepAlive cxt.req.version false) body.length
  have hstatus : bodyless status = false ∧ status ≤ 999 := by rcases h with rfl | rfl <;> decide
  rw [errorPage_eq h]
  refine ⟨resLegible_of_clean ⟨hversion, hstatus.2, hc.reason, ?_⟩ ?_, ?_⟩
  · refine cleanBut_nil.mp ((hcoding.clean_iff _).mpr ((hlength.clean_iff _).mpr ?_))
    refine (hkeep.clean_iff _).mpr ((hpage.clean_iff _).mpr ((hserver.clean_iff _).mpr ?_))
    exact fun e he _ => hc.fields e he
  · exact hcoding.gather (hlength.gather (hkeep.gather (hpage.gather (hserver.gather hf))))
  · refine whole_of_announces (contentLength_announces _ _) fun hb => ?_
    exact absurd (hstatus.1.symm.trans hb) (by simp)

end Jkit.Http.Server.Session
