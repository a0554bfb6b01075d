import Jkit.Http.Head
import Jkit.Lib.Frame

/-! # HTTP messages on a connection

What Beast's serializer writes for a message, what its parser sees in the header, and where it lets the
body end (`do_field` and `finish_header` of `basic_parser.ipp`). A header is read as it was written, or
refused, if it is clean (`reqLegible_of_clean`, `resLegible_of_clean`). A message whose fields come out of
`content_length(body.size())` is read whole, unless its status is one of those that have no body
(`whole_of_announces`). -/

namespace Jkit.Http.Wire

open Jkit.Http.Message Jkit.Http.Head Jkit.Lib.Frame

/-! ### The model -/

/-- The largest `std::uint64_t`. -/
def maxUint64 : ℕ := 18446744073709551615

/-- One round of the loop of `parse_dec`. -/
def parseDigit (tmp : ℕ) (c : UInt8) : Option ℕ :=
  if c < 48 ∨ 57 < c ∨ maxUint64 / 10 < tmp then none
  else
    let d := c.toNat - 48
    if maxUint64 - tmp * 10 < d then none else some (tmp * 10 + d)

/-- `parse_dec`. -/
def parseDec (s : Str) : Option ℕ := if s = [] then none else s.foldlM parseDigit 0

/-- What the parser has seen of the length of the body: `flagContentLength` with `len_`, and
`flagChunked`. -/
structure Flags where
  contentLength : Option ℕ := none
  chunked : Bool := false

/-- The first token `chunked` is the last token. -/
def endsChunked (l : List Str) : Bool :=
  (l.dropWhile fun t => !iequals (str "chunked") t).length == 1

/-- `do_field`; `none` is an error. The test of the `Connection` tokens, which can only fail, is left
to the errors a read may end with anyway. -/
def doField (f : Flags) (e : Str × Str) : Option Flags :=
  if iequals e.1 (str "Content-Length") then
    if f.contentLength.isSome || f.chunked then none
    else (parseDec e.2).map fun v => { f with contentLength := some v }
  else if iequals e.1 (str "Transfer-Encoding") then
    if f.chunked || f.contentLength.isSome then none
    else some (if endsChunked (tokenList e.2) then { f with chunked := true } else f)
  else some f

/-- The fields of a header, in their order. -/
def scan (fields : Fields) : Option Flags := fields.foldlM doField {}

/-- `finish_header` of a request. -/
def reqLen (r : StrRequest) : Len :=
  match scan r.fields with
  | none => .bad
  | some f =>
    match f.contentLength with
    | some n => .fixed n
    | none => if f.chunked then .chunked else .fixed 0

/-- `finish_header` of a response. -/
def resLen (res : StrResponse) : Len :=
  match scan res.fields with
  | none => .bad
  | some f =>
    if bodyless res.result then .fixed 0
    else
      match f.contentLength with
      | some n => .fixed n
      | none => if f.chunked then .chunked else .eof

/-- The request is read whole by the server. -/
def ReqWhole (r : StrRequest) : Prop := Whole (reqLen r) r.fields.chunked r.body

/-- The response is read whole by the client. -/
def ResWhole (res : StrResponse) : Prop := Whole (resLen res) res.fields.chunked res.body

instance (r : StrRequest) : Decidable (ReqWhole r) := inferInstanceAs (Decidable (Whole _ _ _))

instance (res : StrResponse) : Decidable (ResWhole res) := inferInstanceAs (Decidable (Whole _ _ _))

/-- What a parser sees in the text of a header. -/
def seen {α : Type} : Parsed α → Seen α
  | .bad => .refused
  | .ok a [] => .header a
  | _ => .other

/-- What the server sees in the header of the request of call `h.1`. -/
def seeRequest (h : ℕ × StrRequest) : Seen (ℕ × StrRequest) :=
  seen ((parseRequest (requestText h.2)).map (Prod.mk h.1))

/-- What the client sees in the header of a response. -/
def seeResponse (res : StrResponse) : Seen StrResponse := seen (parseResponse (responseText res))

/-- The header of the request, as it is written, is refused or read as it is. -/
def ReqLegible (r : StrRequest) : Prop :=
  parseRequest (requestText r) = .bad ∨ parseRequest (requestText r) = .ok { r with body := [] } []

/-- The header of the response, as it is written, is refused or read as it is, with its reason. -/
def ResLegible (res : StrResponse) : Prop :=
  parseResponse (responseText res) = .bad ∨
    parseResponse (responseText res) = .ok { res.named with body := [] } []

instance (r : StrRequest) : Decidable (ReqLegible r) := inferInstanceAs (Decidable (_ ∨ _))

instance (res : StrResponse) : Decidable (ResLegible res) := inferInstanceAs (Decidable (_ ∨ _))

/-- What `async_write` writes for a response: the header is the message without its body. -/
def resPieces (res : StrResponse) : List (Piece StrResponse) :=
  write (fun h => h.fields.chunked) { res with body := [] } res.body

/-- What `async_write` writes for the request of call `i`. -/
def reqPieces (i : ℕ) (r : StrRequest) : List (Piece (ℕ × StrRequest)) :=
  write (fun h => h.2.fields.chunked) (i, { r with body := [] }) r.body

/-! ### Legible headers -/

theorem see_of_reqLegible {r : StrRequest} (h : ReqLegible r) (i : ℕ) :
    Seen.Only seeRequest (i, { r with body := [] }) (i, { r with body := [] }) := by
  have hsee : seeRequest (i, { r with body := [] }) =
      seen ((parseRequest (requestText r)).map (Prod.mk i)) := rfl
  rw [Seen.Only, hsee]
  rcases h with h | h
  · exact .inl (by rw [h]; rfl)
  · exact .inr (by rw [h]; rfl)

theorem see_of_resLegible {res : StrResponse} (h : ResLegible res) :
    Seen.Only seeResponse { res with body := [] } { res.named with body := [] } := by
  have hsee : seeResponse { res with body := [] } = seen (parseResponse (responseText res)) := rfl
  rw [Seen.Only, hsee]
  rcases h with h | h
  · exact .inl (by rw [h]; rfl)
  · exact .inr (by rw [h]; rfl)

/-- A clean header is legible if its fields are in the order in which `basic_fields` keeps them. -/
theorem reqLegible_of_clean {r : StrRequest} (h : CleanRequest r)
    (hf : Fields.gather r.fields = r.fields) : ReqLegible r := by
  have hparse := parseRequest_text h []
  rw [List.append_nil, hf] at hparse
  exact .inr hparse

-- a line that ends in a value: the server sees a field that is none
example : ¬ ReqLegible { target := str "/", fields := [(str "A", str "a\r\nExpect: 100-continue")] } := by
  decide

theorem resLegible_of_clean {res : StrResponse} (h : CleanResponse res)
    (hf : Fields.gather res.fields = res.fields) : ResLegible res := by
  have hparse := (parseResponse_text_iff res []).mpr h
  rw [List.append_nil, hf] at hparse
  exact .inr hparse

/-! ### The decimal length -/

theorem parseDigit_digit {tmp m : ℕ} {c : Char} (hc : c.isDigit = true)
    (h : parseDigit tmp c.toUInt8 = some m) : m = 10 * tmp + (c.toNat - '0'.toNat) := by
  have hlo := (Char.isDigit_iff_toNat.mp hc).1
  have hhi := (Char.isDigit_iff_toNat.mp hc).2
  have h0 : '0'.toNat = 48 := rfl
  have h9 : '9'.toNat = 57 := rfl
  have hn : c.toUInt8.toNat = c.toNat % 256 := rfl
  unfold parseDigit at h
  dsimp only at h
  split_ifs at h
  have hm := Option.some.inj h
  omega

theorem parseDigits {m : ℕ} : ∀ {l : List Char} {tmp : ℕ}, (∀ c ∈ l, c.isDigit = true) →
    (l.map Char.toUInt8).foldlM parseDigit tmp = some m → m = Nat.ofDigitChars 10 l tmp
  | [], tmp, _, h => by
    simp only [List.map_nil, List.foldlM_nil, pure, Option.some.injEq] at h
    rw [Nat.ofDigitChars_nil, h]
  | c :: l, tmp, hl, h => by
    simp only [List.map_cons, List.foldlM_cons, bind, Option.bind_eq_some_iff] at h
    obtain ⟨t, ht, hr⟩ := h
    rw [Nat.ofDigitChars_cons, ← parseDigit_digit (hl c (by simp)) ht]
    exact parseDigits (fun c' hc' => hl c' (by simp [hc'])) hr

/-- The parser reads the number `content_length` writes, or refuses it because it is too large. -/
theorem parseDec_toString (n : ℕ) :
    parseDec (str (toString n)) = none ∨ parseDec (str (toString n)) = some n := by
  cases h : parseDec (str (toString n)) with
  | none => exact .inl rfl
  | some m =>
    unfold parseDec at h
    split_ifs at h
    rw [str_toString] at h
    rw [parseDigits isDigit_toDigits h, Nat.ofDigitChars_ten_toDigits]
    exact .inr rfl

theorem trim_toString (n : ℕ) : trim (str (toString n)) = str (toString n) := by
  have hows : ∀ c ∈ str (toString n), isOws c = false := by
    intro c hc
    rw [str_toString] at hc
    obtain ⟨d, hd, rfl⟩ := List.mem_map.mp hc
    have hlo := (Char.isDigit_iff_toNat.mp (isDigit_toDigits d hd)).1
    have hhi := (Char.isDigit_iff_toNat.mp (isDigit_toDigits d hd)).2
    have h0 : '0'.toNat = 48 := rfl
    have h9 : '9'.toNat = 57 := rfl
    have hn : d.toUInt8.toNat = d.toNat % 256 := rfl
    have h32 : d.toUInt8 ≠ 32 := fun he => by
      have := congrArg UInt8.toNat he
      simp only [hn, UInt8.reduceToNat] at this
      omega
    have ht : d.toUInt8 ≠ 9 := fun he => by
      have := congrArg UInt8.toNat he
      simp only [hn, UInt8.reduceToNat] at this
      omega
    simp [isOws, h32, ht]
  have hdrop : ∀ {l : Str}, (∀ c ∈ l, isOws c = false) → l.dropWhile isOws = l := by
    intro l hl
    cases l with
    | nil => rfl
    | cons c l => simp [hl c (by simp)]
  unfold trim
  rw [hdrop hows, hdrop fun c hc => hows c (List.mem_reverse.mp hc), List.reverse_reverse]

/-! ### Announced lengths -/

/-- The fields announce a body of `n` bytes: there is one `Content-Length`, and no
`Transfer-Encoding` before it. -/
def Announces (n : ℕ) (f : Fields) : Prop :=
  ∃ A B, f = A ++ (str "Content-Length", str (toString n)) :: B ∧
    (∀ e ∈ A, iequals e.1 (str "Content-Length") = false ∧
      iequals e.1 (str "Transfer-Encoding") = false) ∧
    ∀ e ∈ B, iequals e.1 (str "Content-Length") = false

theorem Announces.erase {n : ℕ} {f : Fields} (h : Announces n f) {name : Str}
    (hn : iequals (str "Content-Length") name = false) : Announces n (f.erase name) := by
  obtain ⟨A, B, rfl, hA, hB⟩ := h
  refine ⟨A.filter fun e => !iequals e.1 name, B.filter fun e => !iequals e.1 name, ?_, ?_, ?_⟩
  · simp [Fields.erase, hn]
  · exact fun e he => hA e (List.mem_of_mem_filter he)
  · exact fun e he => hB e (List.mem_of_mem_filter he)

theorem Announces.snoc {n : ℕ} {f : Fields} (h : Announces n f) {e : Str × Str}
    (he : iequals e.1 (str "Content-Length") = false) : Announces n (f ++ [e]) := by
  obtain ⟨A, B, rfl, hA, hB⟩ := h
  refine ⟨A, B ++ [e], by simp, hA, fun e' he' => ?_⟩
  rcases List.mem_append.mp he' with he' | he'
  · exact hB e' he'
  · rw [List.mem_singleton.mp he']
    exact he

theorem iequals_comm (a b : Str) : iequals a b = iequals b a := BEq.comm

theorem Announces.set {n : ℕ} {f : Fields} (h : Announces n f) {name value : Str}
    (hn : iequals (str "Content-Length") name = false) : Announces n (f.set name value) :=
  (h.erase hn).snoc (by rw [iequals_comm]; exact hn)

theorem Announces.setKeepAlive {n : ℕ} {f : Fields} (h : Announces n f) (version : ℕ)
    (keepAlive : Bool) : Announces n (f.setKeepAlive version keepAlive) := by
  have hc : iequals (str "Content-Length") (str "Connection") = false := by decide
  unfold Fields.setKeepAlive
  dsimp only
  split_ifs
  · exact h.erase hc
  · exact h.set hc

theorem find_eq_none {f : Fields} {name : Str} (h : f.find name = none) :
    ∀ e ∈ f, iequals e.1 name = false := by
  intro e he
  have := List.find?_eq_none.mp (Option.map_eq_none_iff.mp h) e he
  simpa using this

/-- `content_length(n)` announces `n`. -/
theorem contentLength_announces (n : ℕ) (f : Fields) : Announces n (f.contentLength n) := by
  have hcl : ∀ e ∈ f.erase (str "Content-Length"), iequals e.1 (str "Content-Length") = false := by
    intro e he
    simpa using (List.mem_filter.mp he).2
  have hte : iequals (str "Content-Length") (str "Transfer-Encoding") = false := by decide
  -- without `Transfer-Encoding` the new field stands at the end, after fields of other names
  have herase : Announces n ((f.set (str "Content-Length") (str (toString n))).erase
      (str "Transfer-Encoding")) := by
    refine ⟨(f.erase (str "Content-Length")).erase (str "Transfer-Encoding"), [], ?_, ?_, by simp⟩
    · simp only [Fields.set, Fields.erase, trim_toString, List.filter_append, List.filter_cons, hte,
        Bool.not_false, if_true, List.filter_nil]
    · intro e he
      obtain ⟨he, ht⟩ := List.mem_filter.mp he
      exact ⟨hcl e he, by simpa using ht⟩
  unfold Fields.contentLength Fields.unsetChunked
  split
  · next hnone =>
    refine ⟨f.erase (str "Content-Length"), [], ?_, ?_, by simp⟩
    · rw [Fields.set, trim_toString]
    · exact fun e he => ⟨hcl e he, find_eq_none hnone e (List.mem_append_left _ he)⟩
  · dsimp only
    split_ifs
    · exact herase
    · exact herase.snoc (by rw [iequals_comm]; exact hte)

theorem scan_plain {A : Fields} (hA : ∀ e ∈ A, iequals e.1 (str "Content-Length") = false ∧
    iequals e.1 (str "Transfer-Encoding") = false) (f : Flags) : A.foldlM doField f = some f := by
  induction A with
  | nil => rfl
  | cons e A ih =>
    obtain ⟨h1, h2⟩ := hA e (by simp)
    have he : doField f e = some f := by simp [doField, h1, h2]
    rw [List.foldlM_cons, he]
    exact ih fun e' he' => hA e' (by simp [he'])

/-- After a `Content-Length` any `Transfer-Encoding` is an error. -/
theorem scan_announced {n : ℕ} : ∀ {B : Fields},
    (∀ e ∈ B, iequals e.1 (str "Content-Length") = false) →
      B.foldlM doField ⟨some n, false⟩ = none ∨
        (B.foldlM doField ⟨some n, false⟩ = some ⟨some n, false⟩ ∧
          ∀ e ∈ B, iequals e.1 (str "Transfer-Encoding") = false)
  | [], _ => .inr ⟨rfl, by simp⟩
  | e :: B, hB => by
    have hcl := hB e (by simp)
    rw [List.foldlM_cons]
    cases hte : iequals e.1 (str "Transfer-Encoding") with
    | true =>
      have he : doField ⟨some n, false⟩ e = none := by simp [doField, hcl, hte]
      exact .inl (by rw [he]; rfl)
    | false =>
      have he : doField ⟨some n, false⟩ e = some ⟨some n, false⟩ := by simp [doField, hcl, hte]
      rw [he]
      rcases scan_announced fun e' he' => hB e' (List.mem_cons_of_mem e he') with h | ⟨h, ht⟩
      · exact .inl h
      · exact .inr ⟨h, List.forall_mem_cons.mpr ⟨hte, ht⟩⟩

/-- The parser's view of such fields: an error, or the announced length. -/
theorem scan_announces {n : ℕ} {f : Fields} (h : Announces n f) :
    scan f = none ∨
      (scan f = some ⟨some n, false⟩ ∧ ∀ e ∈ f, iequals e.1 (str "Transfer-Encoding") = false) := by
  obtain ⟨A, B, rfl, hA, hB⟩ := h
  have hte : iequals (str "Content-Length") (str "Transfer-Encoding") = false := by decide
  have hscan : scan (A ++ (str "Content-Length", str (toString n)) :: B) =
      (parseDec (str (toString n))).bind fun v => B.foldlM doField ⟨some v, false⟩ := by
    rw [scan, List.foldlM_append, scan_plain hA]
    show (Option.map _ _).bind _ = _
    rw [Option.bind_map]
    rfl
  rw [hscan]
  rcases parseDec_toString n with hp | hp
  · exact .inl (by rw [hp]; rfl)
  · rw [hp, Option.bind_some]
    rcases scan_announced hB with h | ⟨h, ht⟩
    · exact .inl h
    · refine .inr ⟨h, fun e he => ?_⟩
      rcases List.mem_append.mp he with he | he
      · exact (hA e he).2
      · rcases List.mem_cons.mp he with rfl | he
        · exact hte
        · exact ht e he

/-- **A response whose fields announce its body is read whole**, if its status lets it have one. -/
theorem whole_of_announces {res : StrResponse} (h : Announces res.body.length res.fields)
    (hb : bodyless res.result = true → res.body = []) : ResWhole res := by
  unfold ResWhole resLen
  rcases scan_announces h with hs | ⟨hs, hte⟩
  · rw [hs]
    trivial
  · have hfind : res.fields.find (str "Transfer-Encoding") = none := by
      rw [Fields.find, Option.map_eq_none_iff, List.find?_eq_none]
      exact fun e he => by simp [hte e he]
    have hc : res.fields.chunked = false := by
      rw [Fields.chunked, Fields.get, hfind]
      rfl
    rw [hs]
    dsimp only
    split_ifs with hbl
    · exact ⟨hc, by simp [hb hbl]⟩
    · exact ⟨hc, le_rfl⟩

end Jkit.Http.Wire
