import Jkit.Http.Server.Session
import Jkit.Http.Tokens

/-! # The length of a response on the wire

`handle_request` announces the size of the body in `Content-Length` and takes a last `chunked` out of
`Transfer-Encoding`; the serializer then writes the header as it is and the body, chunk-coded if `chunked`
is still the last coding. The client reads the header out of these bytes, and `clientLen` is the rule of
RFC 7230 (section 3.3.3) by which it finds the end of the message. `framed_iff` says for which responses of
a resource it finds the header that was written and all of the body.

The method is that of the request the client has sent; the request in the context is what the resource has
left there. The hook `last_process` is empty in the source and is taken to leave the response alone. -/

namespace Jkit.Http.Server.Framing

open Jkit.Http.Message Jkit.Http.Head Jkit.Http.Spelling Jkit.Http.Wire Jkit.Http.Tokens
open Jkit.Http.Server.Context Jkit.Lib.Frame HttpApiServer
open Jkit.Http.Server.Session (finishNames finishRes_clean_iff)

/-! ### The rules of a client -/

/-- A response to which no body belongs: to `HEAD`, of the statuses 1xx, 204 and 304, or a successful
one to `CONNECT`. -/
def noBody (method : Str) (status : ℕ) : Bool :=
  method == str "HEAD" || bodyless status || (method == str "CONNECT" && status / 100 == 2)

/-- `1*DIGIT`. -/
def decimal (s : Str) : Option ℕ :=
  if s ≠ [] ∧ s.all (fun c => 48 ≤ c && c ≤ 57) then
    some (Nat.ofDigitChars 10 (s.map fun c => Char.ofNat c.toNat) 0)
  else none

/-- The last transfer coding is `chunked`. -/
def lastChunked (l : List Str) : Bool := l.getLast?.any fun t => iequals t (str "chunked")

/-- Where the client lets the body of the response to its request end. -/
def clientLen (method : Str) (res : StrResponse) : Len :=
  if noBody method res.result then .fixed 0
  else if values res.fields (str "Transfer-Encoding") ≠ [] then
    if lastChunked ((values res.fields (str "Transfer-Encoding")).flatMap tokenList) then .chunked
    else .eof
  else
    match values res.fields (str "Content-Length") with
    | [] => .eof
    | v :: vs =>
      if vs.all (· == v) then
        match decimal v with
        | some n => .fixed n
        | none => .bad
      else .bad

/-! ### What is written -/

/-- A body as one chunk and the last chunk. -/
def chunkCoded (body : Str) : Str :=
  (Nat.toDigits 16 body.length).map Char.toUInt8 ++ str "\r\n" ++ body ++ str "\r\n0\r\n\r\n"

/-- The bytes that follow the header. -/
def bodyBytes (res : StrResponse) : Str :=
  if res.fields.chunked then chunkCoded res.body else res.body

/-- The client takes exactly these bytes for the body; `closes` says that the connection ends with
them. -/
def Takes (closes : Bool) : Len → Str → Prop
  | .bad, _ => False
  | .fixed n, bytes => bytes.length = n
  | .chunked, bytes => ∃ body, bytes = chunkCoded body
  | .eof, _ => closes = true

/-- The bytes of the response. -/
def resBytes (res : StrResponse) : Str := responseText res ++ bodyBytes res

/-- The header of the response as it is read: its reason filled in, its fields in the order of
`basic_fields`. -/
def readRes (res : StrResponse) : StrResponse :=
  { res.named with fields := Fields.gather res.fields, body := [] }

/-- The response is one message for the client that has sent `method`: it finds the header in the bytes,
and by the header the rest of them as the body. -/
structure Framed (method : Str) (res : StrResponse) : Prop where
  head : parseResponse (resBytes res) = .ok (readRes res) (bodyBytes res)
  one : Takes res.needEof (clientLen method (readRes res)) (bodyBytes res)
  length : noBody method res.result = false →
    values (readRes res).fields (str "Content-Length") = [str (toString (bodyBytes res).length)]
  empty : noBody method res.result = true → bodyBytes res = []

/-- The resource leaves a header whose parts are clean where `handle_request` does not write them itself. -/
def FitsHead (req : StrRequest) (res : StrResponse) : Prop :=
  (req.version = 10 ∨ req.version = 11) ∧ res.result ≤ 999 ∧ (∀ c ∈ res.reason, isText c = true) ∧
    CleanBut finishNames res.fields

/-- The resource leaves such a header, no body where none belongs, and no transfer coding that outlives
`content_length`, unless it is not `chunked` and the connection is closed after the response. -/
def Fits (method : Str) (req : StrRequest) (res : StrResponse) : Prop :=
  FitsHead req res ∧ lastChunked (codingsLeft res.fields) = false ∧
    if noBody method res.result then res.body = []
    else codingsLeft res.fields = [] ∨ req.keepAlive = false

/-! ### The fields after `handle_request` -/

theorem decimal_toString (n : ℕ) : decimal (str (toString n)) = some n := by
  have hdig := isDigit_toDigits (n := n)
  have hchars : ((Nat.toDigits 10 n).map Char.toUInt8).map (fun c => Char.ofNat c.toNat) =
      Nat.toDigits 10 n := by
    calc _ = (Nat.toDigits 10 n).map id := by
          rw [List.map_map]
          apply List.map_congr_left
          intro c hc
          simp only [Function.comp_apply, toNat_toUInt8 (hdig c hc), Char.ofNat_toNat, id]
      _ = _ := List.map_id _
  unfold decimal
  rw [str_toString, hchars, if_pos, Nat.ofDigitChars_ten_toDigits]
  refine ⟨by simp, List.all_eq_true.mpr ?_⟩
  intro b hb
  obtain ⟨c, hc, rfl⟩ := List.mem_map.mp hb
  have hlo := (Char.isDigit_iff_toNat.mp (hdig c hc)).1
  have hhi := (Char.isDigit_iff_toNat.mp (hdig c hc)).2
  have h0 : '0'.toNat = 48 := rfl
  have h9 : '9'.toNat = 57 := rfl
  simp only [Bool.and_eq_true, decide_eq_true_eq, UInt8.le_iff_toNat_le, toNat_toUInt8 (hdig c hc)]
  exact ⟨by simp; omega, by simp; omega⟩

theorem str_toString_inj {m n : ℕ} (h : str (toString m) = str (toString n)) : m = n := by
  have hd := congrArg decimal h
  rw [decimal_toString, decimal_toString] at hd
  exact Option.some.inj hd

theorem values_announces {n : ℕ} {f : Fields} (h : Announces n f) :
    values f (str "Content-Length") = [str (toString n)] := by
  obtain ⟨A, B, rfl, hA, hB⟩ := h
  have hA' : values A (str "Content-Length") = [] := by
    simp only [values, List.map_eq_nil_iff, List.filter_eq_nil_iff]
    intro e he
    simp [(hA e he).1]
  have hB' : values B (str "Content-Length") = [] := by
    simp only [values, List.map_eq_nil_iff, List.filter_eq_nil_iff]
    intro e he
    simp [hB e he]
  have hself : iequals (str "Content-Length") (str "Content-Length") = true := iequals_self _
  rw [values_append, hA', List.nil_append]
  simp only [values, List.filter_cons, hself, if_true, List.map_cons]
  rw [values] at hB'
  rw [hB']

section Finish

variable (req : StrRequest) (res : StrResponse)

theorem values_finishRes_length : values (finishRes req res).fields (str "Content-Length") =
    [str (toString res.body.length)] :=
  values_announces ((contentLength_announces _ _).setKeepAlive _ _)

theorem values_finishRes_coding : values (finishRes req res).fields (str "Transfer-Encoding") =
    if codingsLeft res.fields = [] then [] else [joinTokens (codingsLeft res.fields)] := by
  have hconn : iequals (str "Transfer-Encoding") (str "Connection") = false := by decide
  have hserver : iequals (str "Transfer-Encoding") (str "Server") = false := by decide
  have hset := codingsLeft_congr (values_set_ne res.fields beastVersion hserver)
  calc values (finishRes req res).fields (str "Transfer-Encoding")
      = values ((res.fields.set (str "Server") beastVersion).contentLength res.body.length)
          (str "Transfer-Encoding") := values_setKeepAlive_ne _ _ _ hconn
    _ = _ := by rw [values_contentLength, hset]

/-- Read back, the announced length is the one that was written. -/
theorem values_readRes_length : values (readRes (finishRes req res)).fields (str "Content-Length") =
    [str (toString res.body.length)] := by
  refine (values_gather _ _).trans ?_
  rw [values_finishRes_length, List.map_singleton, trim_toString]

theorem values_readRes_coding : values (readRes (finishRes req res)).fields (str "Transfer-Encoding") =
    if codingsLeft res.fields = [] then [] else [joinTokens (codingsLeft res.fields)] := by
  refine (values_gather _ _).trans ?_
  rw [values_finishRes_coding]
  split_ifs
  · rfl
  · rw [List.map_singleton, trim_joinTokens (isToken_codingsLeft _)]

theorem chunked_finishRes :
    (finishRes req res).fields.chunked = lastChunked (codingsLeft res.fields) := by
  unfold Fields.chunked Fields.get
  rw [find_eq_head, values_finishRes_coding]
  by_cases hl : codingsLeft res.fields = []
  · rw [if_pos hl, hl]
    rfl
  · rw [if_neg hl, List.head?_cons, Option.getD_some, tokenList_joinTokens (isToken_codingsLeft _)]
    rfl

/-- The response says about the connection what the request said. -/
theorem needEof_finishRes : (finishRes req res).needEof = !req.keepAlive := by
  have hhas : (finishRes req res).fields.has (str "Content-Length") = true := by
    have hv := values_finishRes_length req res
    have hne : values (finishRes req res).fields (str "Content-Length") ≠ [] := by simp [hv]
    obtain ⟨v, hmem⟩ := List.exists_mem_of_ne_nil _ hne
    obtain ⟨e, he, -⟩ := List.mem_map.mp hmem
    obtain ⟨he, hname⟩ := List.mem_filter.mp he
    exact List.any_eq_true.mpr ⟨e, he, hname⟩
  have hka : (finishRes req res).keepAlive = req.keepAlive := keepAlive_setKeepAlive _ _ _
  unfold StrResponse.needEof
  rw [hhas, hka]
  simp

end Finish

/-! ### The message -/

theorem chunkCoded_length (body : Str) : body.length < (chunkCoded body).length := by
  have h : (str "\r\n0\r\n\r\n").length = 7 := by decide
  simp only [chunkCoded, List.length_append, h]
  omega

section Cases

variable {method : Str} {req : StrRequest} {res : StrResponse}

/-- The client finds the header that was written exactly if it is clean. -/
theorem head_iff : parseResponse (resBytes (finishRes req res)) =
    .ok (readRes (finishRes req res)) (bodyBytes (finishRes req res)) ↔ FitsHead req res :=
  (parseResponse_text_iff (finishRes req res) _).trans (finishRes_clean_iff req res)

/-- The client finds what `content_length` has announced, if no transfer coding is left. -/
theorem clientLen_readRes (hn : noBody method res.result = false) :
    clientLen method (readRes (finishRes req res)) =
      if codingsLeft res.fields = [] then .fixed res.body.length
      else if lastChunked (codingsLeft res.fields) then .chunked else .eof := by
  have hstatus : (readRes (finishRes req res)).result = res.result := rfl
  unfold clientLen
  rw [hstatus, hn, if_neg (by simp), values_readRes_coding, values_readRes_length]
  by_cases hl : codingsLeft res.fields = []
  · simp only [if_pos hl, ne_eq, not_true_eq_false, if_false, List.all_nil, if_true, decimal_toString]
  · simp only [if_neg hl, ne_eq, List.cons_ne_nil, not_false_eq_true, if_true, List.flatMap_cons,
      List.flatMap_nil, List.append_nil, tokenList_joinTokens (isToken_codingsLeft _)]

/-- A chunk-coded body is longer than announced, and not empty. -/
theorem not_framed_chunked (hc : lastChunked (codingsLeft res.fields) = true) :
    ¬Framed method (finishRes req res) := by
  have hbytes : bodyBytes (finishRes req res) = chunkCoded res.body := by
    rw [bodyBytes, chunked_finishRes, hc, if_pos rfl]
    rfl
  have hlt := chunkCoded_length res.body
  intro h
  cases hn : noBody method res.result with
  | true =>
    have hempty := h.empty hn
    rw [hbytes] at hempty
    simp [hempty] at hlt
  | false =>
    have hlength := h.length hn
    rw [values_readRes_length, hbytes] at hlength
    have := str_toString_inj (List.cons.inj hlength).1
    omega

theorem bodyBytes_finishRes (hc : lastChunked (codingsLeft res.fields) = false) :
    bodyBytes (finishRes req res) = res.body := by
  rw [bodyBytes, chunked_finishRes, hc, if_neg (by simp)]
  rfl

theorem framed_noBody (hc : lastChunked (codingsLeft res.fields) = false)
    (hn : noBody method res.result = true) :
    Framed method (finishRes req res) ↔ FitsHead req res ∧ res.body = [] := by
  have hbytes : bodyBytes (finishRes req res) = res.body := bodyBytes_finishRes hc
  constructor
  · intro h
    refine ⟨head_iff.mp h.head, ?_⟩
    rw [← hbytes]
    exact h.empty hn
  · rintro ⟨hhead, h⟩
    refine ⟨head_iff.mpr hhead, ?_, ?_, ?_⟩
    · have hclient : clientLen method (readRes (finishRes req res)) = .fixed 0 := if_pos hn
      rw [hclient, hbytes, h]
      rfl
    · intro hn'
      exact absurd (hn.symm.trans hn') (by simp)
    · intro _
      rw [hbytes, h]

theorem framed_body (hc : lastChunked (codingsLeft res.fields) = false)
    (hn : noBody method res.result = false) :
    Framed method (finishRes req res) ↔
      FitsHead req res ∧ (codingsLeft res.fields = [] ∨ req.keepAlive = false) := by
  have hbytes : bodyBytes (finishRes req res) = res.body := bodyBytes_finishRes hc
  have hclient := @clientLen_readRes method req res hn
  have htakes : Takes (finishRes req res).needEof (clientLen method (readRes (finishRes req res)))
      (bodyBytes (finishRes req res)) ↔ codingsLeft res.fields = [] ∨ req.keepAlive = false := by
    rw [hclient, hbytes, needEof_finishRes, hc]
    by_cases hl : codingsLeft res.fields = []
    · simp [hl, Takes]
    · simp [hl, Takes]
  constructor
  · exact fun h => ⟨head_iff.mp h.head, htakes.mp h.one⟩
  · rintro ⟨hhead, h⟩
    refine ⟨head_iff.mpr hhead, htakes.mpr h, ?_, ?_⟩
    · intro _
      rw [hbytes]
      exact values_readRes_length req res
    · intro hn'
      exact absurd (hn.symm.trans hn') (by simp)

end Cases

/-- **Which responses of a resource are one message for the client.** -/
theorem framed_iff (method : Str) (req : StrRequest) (res : StrResponse) :
    Framed method (finishRes req res) ↔ Fits method req res := by
  unfold Fits
  cases hc : lastChunked (codingsLeft res.fields) with
  | true => simp [not_framed_chunked hc]
  | false =>
    cases hn : noBody method res.result with
    | true => simp [framed_noBody hc hn]
    | false => simp [framed_body hc hn]

/-- A resource that answers `HEAD` with a body. -/
theorem headBody_not_framed :
    ¬Framed (str "HEAD") (finishRes { methodString := str "HEAD" } { body := str "ok" }) := by
  intro h
  exact absurd (h.empty (by decide)) (by decide)

end Jkit.Http.Server.Framing
