import Jkit.Http.Server.Context
import Jkit.Http.Tokens

/-! # What `handle_request` answers to a bad request

Two kinds of requests end in `m_bad_resource`: those with a target `handle_request` does not accept,
and those whose resource throws.

When a resource throws, `m_bad_resource` gets the response as the resource left it, and sets its
fields one by one. `page_eq` lists the header it leaves: every field of the resource with another
name than the five it sets is still there, and so are tokens of `Connection` and codings of
`Transfer-Encoding`. `thrown_response_iff` says which responses leave no trace.

The test of the target is made on the whole target and not on the path in it, so it also rejects
requests with `..` in their query string: `pathError_iff`. -/

namespace Jkit.Http.Server.BadRequest

open Jkit.Http.Message Jkit.Http.Tokens Jkit.Common.WebUtility Jkit.Http.Server.Context
open Jkit.Http.Server.Context.HttpApiServer

variable {E : Type}

/-! ### The header of an error page -/

/-- The names of the fields `m_bad_resource` writes or erases. -/
def pageNames : List Str :=
  [str "Server", str "Content-Type", str "Connection", str "Content-Length",
    str "Transfer-Encoding"]

/-- The fields with other names. -/
def foreign (f : Fields) : Fields := f.filter fun e => !pageNames.any (iequals e.1)

/-- The header `m_bad_resource` makes of the header `f`. -/
def page (f : Fields) (version n : ℕ) : Fields :=
  (((f.set (str "Server") beastVersion).set (str "Content-Type") (str "text/html")).setKeepAlive
    version false).contentLength n

/-- The `Connection` field of an error page. -/
def pageConnection (f : Fields) (version : ℕ) : Fields :=
  let v := keepAliveValue (f.get (str "Connection")) version false
  if v = [] then [] else [(str "Connection", v)]

/-- The `Transfer-Encoding` field of an error page. -/
def pageCoding (f : Fields) : Fields :=
  if codingsLeft f = [] then [] else [(str "Transfer-Encoding", joinTokens (codingsLeft f))]

theorem erase_append_ne {f g : Fields} {name : Str} (h : ∀ e ∈ g, iequals e.1 name = false) :
    Fields.erase (f ++ g) name = f.erase name ++ g := by
  have hg : g.filter (fun e => !iequals e.1 name) = g := by
    rw [List.filter_eq_self]
    intro e he
    rw [h e he]
    rfl
  unfold Fields.erase
  rw [List.filter_append, hg]

theorem get_congr {f g : Fields} {name : Str} (h : values f name = values g name) :
    f.get name = g.get name := by
  unfold Fields.get
  rw [find_eq_head, find_eq_head, h]

theorem trim_keepAliveValue (value : Str) (version : ℕ) (b : Bool) :
    trim (keepAliveValue value version b) = keepAliveValue value version b := by
  obtain ⟨l, htok, hv, -⟩ := keepAliveValue_eq value version b
  rw [hv, trim_joinTokens htok]

/-- `set_keep_alive_impl(false)` in the terms of an error page. -/
theorem setKeepAlive_eq (f : Fields) (version : ℕ) :
    f.setKeepAlive version false = f.erase (str "Connection") ++ pageConnection f version := by
  unfold Fields.setKeepAlive pageConnection
  dsimp only
  split_ifs with h
  · rw [List.append_nil]
  · rw [Fields.set, trim_keepAliveValue]

/-- The fields with other names are those that five times erasing leaves. -/
theorem foreign_eq (f : Fields) : foreign f =
    ((((f.erase (str "Server")).erase (str "Content-Type")).erase (str "Connection")).erase
      (str "Content-Length")).erase (str "Transfer-Encoding") := by
  unfold foreign Fields.erase
  simp only [List.filter_filter]
  refine List.filter_congr ?_
  intro e _
  simp only [pageNames, List.any_cons, List.any_nil]
  cases iequals e.1 (str "Server") <;> cases iequals e.1 (str "Content-Type") <;>
    cases iequals e.1 (str "Connection") <;> cases iequals e.1 (str "Content-Length") <;>
    cases iequals e.1 (str "Transfer-Encoding") <;> rfl

theorem pageConnection_name {f : Fields} {version : ℕ} :
    ∀ e ∈ pageConnection f version, e.1 = str "Connection" := by
  intro e he
  unfold pageConnection at he
  dsimp only at he
  split_ifs at he
  · simp at he
  · rw [List.mem_singleton.mp he]

theorem pageCoding_name {f : Fields} : ∀ e ∈ pageCoding f, e.1 = str "Transfer-Encoding" := by
  intro e he
  unfold pageCoding at he
  split_ifs at he
  · simp at he
  · rw [List.mem_singleton.mp he]

theorem pageConnection_congr {f g : Fields} {version : ℕ}
    (h : values f (str "Connection") = values g (str "Connection")) :
    pageConnection f version = pageConnection g version := by
  unfold pageConnection
  rw [get_congr h]

/-- The fields that do not depend on the header before. -/
def pageStart : Fields :=
  [(str "Server", trim beastVersion), (str "Content-Type", trim (str "text/html"))]

/-- The `Content-Length` field of an error page. -/
def pageLength (n : ℕ) : Fields := [(str "Content-Length", trim (str (toString n)))]

theorem pageStart_name : ∀ e ∈ pageStart, e.1 = str "Server" ∨ e.1 = str "Content-Type" := by
  simp [pageStart]

theorem pageLength_name {n : ℕ} : ∀ e ∈ pageLength n, e.1 = str "Content-Length" := by
  simp [pageLength]

/-- The header of an error page, field by field. -/
theorem page_eq (f : Fields) (version n : ℕ) : page f version n =
    foreign f ++ (pageStart ++ pageConnection f version ++ pageLength n ++ pageCoding f) := by
  -- the header before each of the three last steps
  let f2 := (f.set (str "Server") beastVersion).set (str "Content-Type") (str "text/html")
  let f3 := f2.setKeepAlive version false
  let f4 := f3.set (str "Content-Length") (str (toString n))
  have h2 : f2 = (f.erase (str "Server")).erase (str "Content-Type") ++ pageStart := by
    show Fields.erase (f.erase (str "Server") ++ [_]) (str "Content-Type") ++ [_] = _
    rw [erase_append_ne (by simp; decide), List.append_assoc]
    rfl
  have h3 : f3 = ((f.erase (str "Server")).erase (str "Content-Type")).erase (str "Connection") ++
      (pageStart ++ pageConnection f version) := by
    have hc : pageConnection f2 version = pageConnection f version := by
      refine pageConnection_congr ?_
      show values (Fields.set (f.set _ _) _ _) _ = _
      rw [values_set_ne _ _ (by decide), values_set_ne _ _ (by decide)]
    show f2.setKeepAlive version false = _
    rw [setKeepAlive_eq, hc, h2, erase_append_ne (by simp [pageStart]; decide), List.append_assoc]
  have h4 : f4 = (((f.erase (str "Server")).erase (str "Content-Type")).erase
      (str "Connection")).erase (str "Content-Length") ++
        (pageStart ++ pageConnection f version ++ pageLength n) := by
    show Fields.erase f3 _ ++ [_] = _
    rw [h3, erase_append_ne, List.append_assoc]
    · rfl
    · intro e he
      rcases List.mem_append.mp he with he | he
      · rcases pageStart_name e he with h | h
        · rw [h]; decide
        · rw [h]; decide
      · rw [pageConnection_name e he]; decide
  have h5 : codingsLeft f4 = codingsLeft f := by
    refine codingsLeft_congr ?_
    show values (Fields.set (Fields.setKeepAlive (Fields.set (f.set _ _) _ _) _ _) _ _) _ = _
    rw [values_set_ne _ _ (by decide), values_setKeepAlive_ne _ _ _ (by decide),
      values_set_ne _ _ (by decide), values_set_ne _ _ (by decide)]
  show f4.unsetChunked = _
  rw [unsetChunked_eq, h5, foreign_eq, h4, erase_append_ne, List.append_assoc]
  · rfl
  · intro e he
    rcases List.mem_append.mp he with he | he
    · rcases List.mem_append.mp he with he | he
      · rcases pageStart_name e he with h | h
        · rw [h]; decide
        · rw [h]; decide
      · rw [pageConnection_name e he]; decide
    · rw [pageLength_name e he]; decide

/-! ### Traces of the resource -/

/-- The `Connection` field of the resource goes without a trace: for HTTP/1.0 its tokens are `close`
and `keep-alive`, else it has besides `keep-alive` at most one token, and that is `close`. -/
def Silent (version : ℕ) (value : Str) : Prop :=
  if version < 11 then
    ∀ t ∈ tokenList value, ([str "close", str "keep-alive"] : List Str).any (iequals t) = true
  else
    let l := (tokenList value).filter fun t => !([str "keep-alive"] : List Str).any (iequals t)
    l = [] ∨ l = [str "close"]

theorem keepAliveValue_old (value : Str) {version : ℕ} (h : version < 11) :
    keepAliveValue value version false = filterTokenList value [str "close", str "keep-alive"] := by
  simp [keepAliveValue, h]

theorem keepAliveValue_new (value : Str) {version : ℕ} (h : ¬version < 11) :
    keepAliveValue value version false =
      if filterTokenList value [str "keep-alive"] = [] then str "close"
      else if tokenExists value (str "close") then filterTokenList value [str "keep-alive"]
      else filterTokenList value [str "keep-alive"] ++ str ", " ++ str "close" := by
  simp [keepAliveValue, h]

theorem filterTokenList_eq_nil {value : Str} {drop : List Str} : filterTokenList value drop = [] ↔
    (tokenList value).filter (fun t => !drop.any (iequals t)) = [] :=
  joinTokens_eq_nil isToken_filter

/-- Two lists of tokens with one text are equal. -/
theorem joinTokens_inj {l m : List Str} (hl : ∀ t ∈ l, IsToken t) (hm : ∀ t ∈ m, IsToken t)
    (h : joinTokens l = joinTokens m) : l = m := by
  rw [← tokenList_joinTokens hl, ← tokenList_joinTokens hm, h]

theorem isToken_close : IsToken (str "close") := ⟨by decide, List.all_eq_true.mp (by decide)⟩

theorem silent_iff (value : Str) (version : ℕ) :
    keepAliveValue value version false = keepAliveValue [] version false ↔ Silent version value := by
  unfold Silent
  by_cases hv : version < 11
  · rw [keepAliveValue_old _ hv, keepAliveValue_old _ hv, if_pos hv]
    have h0 : filterTokenList [] [str "close", str "keep-alive"] = [] := rfl
    rw [h0, filterTokenList_eq_nil, List.filter_eq_nil_iff]
    refine forall_congr' fun t => forall_congr' fun _ => ?_
    rw [Bool.not_eq_true', Bool.not_eq_false]
  · have h0 : keepAliveValue [] version false = str "close" := by
      rw [keepAliveValue_new _ hv]
      rfl
    rw [h0, keepAliveValue_new _ hv, if_neg hv]
    dsimp only
    have htok : ∀ t ∈ (tokenList value).filter fun t => !([str "keep-alive"] : List Str).any (iequals t),
        IsToken t := isToken_filter
    have hclose : ∀ t ∈ [str "close"], IsToken t := by
      intro t ht
      rw [List.mem_singleton.mp ht]
      exact isToken_close
    split_ifs with h1 h2
    · exact iff_of_true rfl (Or.inl (filterTokenList_eq_nil.mp h1))
    · constructor
      · intro h
        right
        refine joinTokens_inj htok hclose ?_
        rw [joinTokens_singleton]
        exact h
      · rintro (h | h)
        · exact absurd (filterTokenList_eq_nil.mpr h) h1
        · rw [filterTokenList, h, joinTokens_singleton]
    · -- a token is added to others, and a list with `close` in it would not get here
      refine iff_of_false ?_ ?_
      · intro h
        have hlen := congrArg List.length h
        have hpos := List.length_pos_iff.mpr h1
        simp only [List.length_append] at hlen
        omega
      · rintro (h | h)
        · exact h1 (filterTokenList_eq_nil.mpr h)
        · refine h2 (List.any_eq_true.mpr ⟨str "close", ?_, iequals_self _⟩)
          refine List.mem_of_mem_filter (p := fun t => !([str "keep-alive"] : List Str).any (iequals t)) ?_
          rw [h]
          exact List.mem_singleton.mpr rfl

theorem pageConnection_iff {f : Fields} {version : ℕ} :
    pageConnection f version = pageConnection [] version ↔
      Silent version (f.get (str "Connection")) := by
  rw [← silent_iff]
  have h0 : Fields.get [] (str "Connection") = [] := rfl
  unfold pageConnection
  rw [h0]
  dsimp only
  split_ifs with h1 h2 h2
  · simp [h1, h2]
  · simp [h1, Ne.symm h2]
  · simp [h1, h2]
  · simp

theorem pageCoding_iff {f : Fields} : pageCoding f = [] ↔ codingsLeft f = [] := by
  unfold pageCoding
  split_ifs with h
  · simp [h]
  · simp [h]

theorem foreign_append (f g : Fields) : foreign (f ++ g) = foreign f ++ foreign g :=
  List.filter_append f g

theorem foreign_of_name {g : Fields} (h : ∀ e ∈ g, e.1 ∈ pageNames) : foreign g = [] := by
  unfold foreign
  rw [List.filter_eq_nil_iff]
  intro e he
  have hany : pageNames.any (iequals e.1) = true := List.any_eq_true.mpr ⟨e.1, h e he, iequals_self _⟩
  rw [hany]
  decide

theorem foreign_foreign (f : Fields) : foreign (foreign f) = foreign f := by
  unfold foreign
  rw [List.filter_filter]
  simp only [Bool.and_self]

theorem filter_connection {g : Fields} (h : ∀ e ∈ g, e.1 = str "Connection") :
    g.filter (fun e => e.1 == str "Connection") = g := by
  rw [List.filter_eq_self]
  intro e he
  simp [h e he]

theorem filter_other {g : Fields} (h : ∀ e ∈ g, e.1 ≠ str "Connection") :
    g.filter (fun e => e.1 == str "Connection") = [] := by
  rw [List.filter_eq_nil_iff]
  intro e he
  simpa using h e he

/-- The page made of a header is that of an empty one exactly if it has no other fields, and its
`Connection` and its `Transfer-Encoding` leave nothing. -/
theorem page_iff {f : Fields} {version n : ℕ} : page f version n = page [] version n ↔
    foreign f = [] ∧ Silent version (f.get (str "Connection")) ∧ codingsLeft f = [] := by
  have h0 : foreign [] = [] := rfl
  have h1 : pageCoding [] = [] := rfl
  rw [page_eq, page_eq, h0, h1, List.nil_append, List.append_nil, ← pageConnection_iff,
    ← pageCoding_iff]
  constructor
  · intro h
    -- each part is read back by the names of its fields
    have hstart : foreign pageStart = [] := rfl
    have hlength : foreign (pageLength n) = [] := foreign_of_name fun e he => by
      rw [pageLength_name e he]; decide
    have hconn : ∀ g, foreign (pageConnection g version) = [] := fun g => foreign_of_name fun e he => by
      rw [pageConnection_name e he]; decide
    have hcoding : foreign (pageCoding f) = [] := foreign_of_name fun e he => by
      rw [pageCoding_name e he]; decide
    have hf : foreign f = [] := by
      have hh := congrArg foreign h
      simpa only [foreign_append, foreign_foreign, hstart, hlength, hconn, hcoding, List.append_nil]
        using hh
    rw [hf, List.nil_append, List.append_assoc, List.append_assoc, List.append_assoc,
      List.append_cancel_left_eq] at h
    have hc : pageConnection f version = pageConnection [] version := by
      have hh := congrArg (List.filter fun e => e.1 == str "Connection") h
      have hl : (pageLength n).filter (fun e => e.1 == str "Connection") = [] :=
        filter_other fun e he => by rw [pageLength_name e he]; decide
      have ht : (pageCoding f).filter (fun e => e.1 == str "Connection") = [] :=
        filter_other fun e he => by rw [pageCoding_name e he]; decide
      simpa only [List.filter_append, filter_connection pageConnection_name, hl, ht, List.append_nil]
        using hh
    rw [hc, List.append_cancel_left_eq, List.append_right_eq_self] at h
    exact ⟨hf, hc, h⟩
  · rintro ⟨h2, h3, h4⟩
    rw [h2, h3, h4, List.nil_append, List.append_nil]

/-! ### A resource that throws -/

/-- `m_bad_resource` writes over everything in the response. -/
structure Overwritten (version : ℕ) (res : StrResponse) : Prop where
  reason : res.reason = []
  names : ∀ e ∈ res.fields, pageNames.any (iequals e.1) = true
  connection : Silent version (res.fields.get (str "Connection"))
  codings : codingsLeft res.fields = []

/-- The request gets to a resource, and that throws a `std::exception` and leaves the context `c`. -/
def Throws (S : HttpApiServer E) (cxt : HttpContext E) (what : Str) (c : HttpContext E) : Prop :=
  rejected cxt.req.target = false ∧ ∃ path query fn sm,
    parseTarget cxt.req.target = some (path, query) ∧
      S.route path cxt.req.method S.resource = some (fn, sm) ∧
        fn { cxt with res := {}, path := path, queryParams := parseQueryString query, pathParams := sm } =
          (c, some (.exception what))

theorem handleRequest_throws {S : HttpApiServer E} {cxt c : HttpContext E} {what : Str}
    (h : Throws S cxt what c) : S.handleRequest cxt = S.badResource what c := by
  obtain ⟨hr, path, query, fn, sm, hp, hroute, hfn⟩ := h
  simp only [handleRequest, hr, hp, dispatch, callResource_eq, hroute, hfn]
  rfl

theorem badResource_res (why : Str) (cxt : HttpContext E) :
    (Context.badResource why cxt).1.res =
      { result := 400, reason := cxt.res.reason, version := cxt.req.version
        fields := page cxt.res.fields cxt.req.version why.length, body := why } := by
  rw [badResource_eq]
  rfl

/-- A resource that throws leaves no trace in the response exactly if `m_bad_resource` writes over
all it has left. -/
theorem thrown_response_iff {S : HttpApiServer E} (hS : S.badResource = Context.badResource)
    {cxt c : HttpContext E} {what : Str} (h : Throws S cxt what c) :
    (S.handleRequest cxt).1.res = (Context.badResource what { c with res := {} }).1.res ↔
      Overwritten c.req.version c.res := by
  rw [handleRequest_throws h, hS]
  simp only [badResource_res, StrResponse.mk.injEq, true_and, and_true, page_iff]
  constructor
  · rintro ⟨hreason, hf, hc, ht⟩
    refine ⟨hreason, ?_, hc, ht⟩
    intro e he
    have := List.filter_eq_nil_iff.mp hf e he
    simpa using this
  · rintro ⟨hreason, hnames, hc, ht⟩
    refine ⟨hreason, ?_, hc, ht⟩
    refine List.filter_eq_nil_iff.mpr ?_
    intro e he
    rw [hnames e he]
    decide

/-- A server with one resource, at `/f`, which does `write` to the response and throws. -/
def throwing (write : StrResponse → StrResponse) : HttpApiServer Unit where
  regexMatch path regex := if path = regex then some [{ first := 0, second := path.length }] else none
  resource := [(str "/f", [(some "GET", fun cxt =>
    ({ cxt with res := write cxt.res }, some (.exception (str "no rows"))))])]

/-- The request for that resource. -/
def throwingRequest : HttpContext Unit := { remoteEndpoint := (), req := { target := str "/f" } }

/-- What the resource leaves. -/
def thrownContext (write : StrResponse → StrResponse) : HttpContext Unit :=
  { throwingRequest with path := str "/f", pathParams := [{ first := 0, second := 2 }], res := write {} }

theorem throwing_throws (write : StrResponse → StrResponse) :
    Throws (throwing write) throwingRequest (str "no rows") (thrownContext write) := by
  refine ⟨by decide, str "/f", [], _, _, by decide, rfl, rfl⟩

/-- The response of a resource that has stored something. -/
def created (res : StrResponse) : StrResponse :=
  { res.set "Content-Type" (str "application/json") with result := 201, body := str "0" }

/-- A status, a content type and a body are overwritten. -/
theorem thrown_created : (throwing created).badResource = Context.badResource ∧
    Throws (throwing created) throwingRequest (str "no rows") (thrownContext created) ∧
    (((throwing created).handleRequest throwingRequest).1.res =
      (Context.badResource (str "no rows") { thrownContext created with res := {} }).1.res ↔
        Overwritten 11 (thrownContext created).res) :=
  ⟨rfl, throwing_throws created, thrown_response_iff rfl (throwing_throws created)⟩

/-- A cookie is not: the error page sets it. -/
theorem thrown_cookie : ¬∀ (S : HttpApiServer Unit) (cxt c : HttpContext Unit) (what : Str),
    S.badResource = Context.badResource → Throws S cxt what c →
      (S.handleRequest cxt).1.res = (Context.badResource what { c with res := {} }).1.res := by
  intro h
  have hthrows := throwing_throws fun res => res.set "Set-Cookie" (str "id=1")
  have heq := h _ _ _ _ rfl hthrows
  rw [handleRequest_throws hthrows] at heq
  have hhas := congrArg (fun res : StrResponse => res.fields.has (str "Set-Cookie")) heq
  exact absurd hhas (by decide)

/-! ### The test of the target -/

/-- The path of a target: the text before the first `?`. -/
def pathPart (target : Str) : Str := target.takeWhile (· != 63)

/-- The query string of a target: the text behind the first `?`. -/
def queryPart (target : Str) : Str := (target.dropWhile (· != 63)).drop 1

/-- The path is not absolute or contains `..`. -/
def BadPath (target : Str) : Prop :=
  (pathPart target).head? ≠ some 47 ∨ contains (pathPart target) (str "..") = true

/-- `handle_request` answers with the error for bad paths, on every server. -/
def AnswersPathError (cxt : HttpContext E) : Prop :=
  ∀ S : HttpApiServer E, S.handleRequest cxt =
    S.badResource (str "path must be absolute and not contain \"..\"") { cxt with res := {} }

theorem pathPart_cons {c : UInt8} (hc : c ≠ 63) (t : Str) : pathPart (c :: t) = c :: pathPart t := by
  simp [pathPart, hc]

theorem queryPart_cons {c : UInt8} (hc : c ≠ 63) (t : Str) : queryPart (c :: t) = queryPart t := by
  simp [queryPart, hc]

/-- `parse_target` cuts the target at its first `?`. -/
theorem parseTarget_eq (t : Str) : parseTarget t = some (pathPart t, queryPart t) := by
  induction t with
  | nil => rfl
  | cons c t ih =>
    unfold parseTarget at ih ⊢
    by_cases hc : c = 63
    · subst hc
      simp [List.findIdx?_cons, pathPart, queryPart]
    · rw [pathPart_cons hc, queryPart_cons hc, List.findIdx?_cons, if_neg (by simpa using hc)]
      cases hi : t.findIdx? (· == 63) with
      | none =>
        rw [hi] at ih
        obtain ⟨h1, h2⟩ := Prod.mk.inj (Option.some.inj ih)
        rw [← h1, ← h2]
        rfl
      | some i =>
        rw [hi] at ih
        obtain ⟨h1, h2⟩ := Prod.mk.inj (Option.some.inj ih)
        rw [← h1, ← h2]
        rfl

/-- The parts of a target: without `?` it is its path. -/
theorem target_cases (t : Str) :
    pathPart t = t ∧ queryPart t = [] ∨ t = pathPart t ++ 63 :: queryPart t := by
  induction t with
  | nil => left; exact ⟨rfl, rfl⟩
  | cons c t ih =>
    by_cases hc : c = 63
    · subst hc
      right
      simp [pathPart, queryPart]
    · rw [pathPart_cons hc, queryPart_cons hc]
      rcases ih with ⟨h1, h2⟩ | h
      · left; exact ⟨by rw [h1], h2⟩
      · right; rw [List.cons_append, ← h]

theorem contains_cons (c : UInt8) (s t : Str) :
    contains (c :: s) t = (t.isPrefixOf (c :: s) || contains s t) := by
  simp [contains, List.tails]

/-- A `?` is no part of `..`. -/
theorem contains_dots (p q : Str) : contains (p ++ 63 :: q) (str "..") =
    (contains p (str "..") || contains q (str "..")) := by
  have hd : str ".." = [46, 46] := by decide
  rw [hd]
  induction p with
  | nil =>
    rw [List.nil_append, contains_cons]
    rfl
  | cons c p ih =>
    rw [List.cons_append, contains_cons, contains_cons, ih, Bool.or_assoc]
    congr 1
    rcases p with - | ⟨d, p⟩
    · simp [List.isPrefixOf]
    · rfl

/-- The target is rejected for its path, or for `..` in its query string. -/
theorem rejected_iff (t : Str) :
    rejected t = true ↔ BadPath t ∨ contains (queryPart t) (str "..") = true := by
  have hhead : (t = [] ∨ t.head? ≠ some 47) ↔ (pathPart t).head? ≠ some 47 := by
    rcases t with - | ⟨c, t⟩
    · simp [pathPart]
    · by_cases hc : c = 63
      · subst hc; simp [pathPart]
      · simp [pathPart_cons hc]
  have hdots : contains t (str "..") =
      (contains (pathPart t) (str "..") || contains (queryPart t) (str "..")) := by
    rcases target_cases t with ⟨h1, h2⟩ | h
    · rw [h1, h2, show contains [] (str "..") = false by decide, Bool.or_false]
    · rw [← contains_dots, ← h]
  unfold rejected BadPath
  rw [← hhead, hdots]
  simp only [Bool.or_eq_true, beq_iff_eq, bne_iff_ne, or_assoc]

/-- A server that tells its answers apart by what they throw. -/
def telltale : HttpApiServer E where
  regexMatch _ _ := none
  resource := []
  defaultResource cxt := (cxt, none)
  badResource _ cxt := (cxt, some .other)

theorem answersPathError_iff (cxt : HttpContext E) :
    AnswersPathError cxt ↔ rejected cxt.req.target = true := by
  constructor
  · intro h
    by_contra hr
    rw [Bool.not_eq_true] at hr
    have ht := congrArg Prod.snd (h telltale)
    simp [handleRequest, hr, parseTarget_eq, dispatch, callResource, telltale] at ht
  · intro hr S
    simp only [handleRequest, hr, if_true]

/-- The query string has no influence on the test of the path exactly if the path is bad anyway, or
the query string does not contain `..`. -/
theorem pathError_iff (cxt : HttpContext E) :
    (AnswersPathError cxt ↔ BadPath cxt.req.target) ↔
      BadPath cxt.req.target ∨ contains (queryPart cxt.req.target) (str "..") = false := by
  rw [answersPathError_iff, rejected_iff]
  constructor
  · intro h
    by_cases hb : BadPath cxt.req.target
    · left; exact hb
    · right
      rw [Bool.eq_false_iff]
      intro hq
      exact hb (h.mp (Or.inr hq))
  · rintro (hb | hq)
    · exact iff_of_true (Or.inl hb) hb
    · rw [hq]
      simp

/-- A request with two dots in a parameter. -/
theorem pathError_query : ¬∀ cxt : HttpContext Unit, AnswersPathError cxt ↔ BadPath cxt.req.target := by
  intro h
  have hb := (h { remoteEndpoint := (), req := { target := str "/a?range=1..5" } }).mp
    ((answersPathError_iff _).mpr (by decide))
  rcases hb with hb | hb
  · exact hb (by decide)
  · exact absurd hb (by decide)

end Jkit.Http.Server.BadRequest
