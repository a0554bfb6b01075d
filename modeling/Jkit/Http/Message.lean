import Mathlib.Data.List.Basic
import Mathlib.Tactic.SplitIfs

/-! # HTTP messages

The messages of `http::request<string_body>` and `http::response<string_body>` with the member
functions of Beast the client and the server call: field lookup and replacement (`basic_fields`),
the `Connection` and `Transfer-Encoding` token lists (`rfc7230.ipp`, `fields.ipp`), `keep_alive`,
`content_length`, `need_eof` and `prepare_payload` (`message.hpp`), the status codes and their reasons
(`status.ipp`). A `std::string` is a list of bytes. Names and values are no longer than a field can hold
(65533 bytes; `new_element` throws for longer ones), and a status has at most three digits (`result` throws
above 999). -/

namespace Jkit.Http.Message

/-- A `std::string`. -/
abbrev Str := List UInt8

/-- A string literal of the source. -/
def str (s : String) : Str := s.toList.map Char.toUInt8

/-- `ascii_tolower`. -/
def tolower (c : UInt8) : UInt8 := if 65 ≤ c ∧ c ≤ 90 then c + 32 else c

/-- `beast::iequals`. -/
def iequals (a b : Str) : Bool := a.map tolower == b.map tolower

/-! ### Token lists -/

/-- A blank or a tab. -/
def isOws (c : UInt8) : Bool := c == 32 || c == 9

/-- `detail::is_token_char`: `tchar` of RFC 7230. -/
def isTokenChar (c : UInt8) : Bool :=
  (48 ≤ c && c ≤ 57) || (65 ≤ c && c ≤ 90) || (97 ≤ c && c ≤ 122) || c ∈ str "!#$%&'*+-.^_`|~"

/-- Where the iterator of a `token_list` stands: between tokens (`true` if a comma has to come
first) or inside one. -/
inductive TokPos
  | sep (needComma : Bool)
  | tok (acc : Str)

/-- The tokens from a position on; the list ends at the first character that does not fit. -/
def tokensFrom : TokPos → Str → List Str
  | .sep _, [] => []
  | .tok acc, [] => [acc]
  | .sep nc, c :: cs =>
    if isOws c then tokensFrom (.sep nc) cs
    else if isTokenChar c then (if nc then [] else tokensFrom (.tok [c]) cs)
    else if c = 44 then tokensFrom (.sep false) cs
    else []
  | .tok acc, c :: cs =>
    if isTokenChar c then tokensFrom (.tok (acc ++ [c])) cs
    else acc :: (if isOws c then tokensFrom (.sep true) cs
      else if c = 44 then tokensFrom (.sep false) cs else [])

/-- `token_list{value}`. -/
def tokenList (value : Str) : List Str := tokensFrom (.sep false) value

/-- `token_list::exists`. -/
def tokenExists (value token : Str) : Bool := (tokenList value).any (iequals token)

/-- Tokens as the filters write them back: with `, ` between neighbours. -/
def joinTokens (l : List Str) : Str := List.intercalate (str ", ") l

/-- `detail::filter_token_list` with an `iequals_predicate`. -/
def filterTokenList (value : Str) (drop : List Str) : Str :=
  joinTokens ((tokenList value).filter fun t => !drop.any (iequals t))

/-- `detail::filter_token_list_last`: only the last token is tested. -/
def filterTokenListLast (value : Str) (drop : List Str) : Str :=
  let l := tokenList value
  joinTokens (l.dropLast ++ l.getLast?.toList.filter fun t => !drop.any (iequals t))

/-! ### Fields -/

/-- `basic_fields`: names and values in the order of the message. -/
abbrev Fields := List (Str × Str)

/-- `find(name)`: the value of the first field of that name. -/
def Fields.find (f : Fields) (name : Str) : Option Str :=
  (List.find? (fun e => iequals e.1 name) f).map Prod.snd

/-- `operator[]`: the value, empty if there is no such field. -/
def Fields.get (f : Fields) (name : Str) : Str := (f.find name).getD []

/-- `count(name) > 0`. -/
def Fields.has (f : Fields) (name : Str) : Bool := List.any f fun e => iequals e.1 name

/-- `erase(name)`: all fields of that name. -/
def Fields.erase (f : Fields) (name : Str) : Fields := List.filter (fun e => !iequals e.1 name) f

/-- `detail::trim`: without the blanks and tabs at both ends. -/
def trim (s : Str) : Str := ((s.dropWhile isOws).reverse.dropWhile isOws).reverse

/-- `set(name, value)`: replaces all fields of that name by one at the end. -/
def Fields.set (f : Fields) (name value : Str) : Fields := f.erase name ++ [(name, trim value)]

/-- The fields up to the last one of that name, and those behind it. -/
def Fields.splitLast (name : Str) : Fields → Option (Fields × Fields)
  | [] => none
  | e :: f =>
    match Fields.splitLast name f with
    | some (before, behind) => some (e :: before, behind)
    | none => if iequals e.1 name then some ([e], f) else none

/-- `insert(name, value)`: behind the last field of that name, or at the end if there is none. -/
def Fields.insert (f : Fields) (name value : Str) : Fields :=
  match Fields.splitLast name f with
  | some (before, behind) => before ++ (name, trim value) :: behind
  | none => f ++ [(name, trim value)]

/-- `insert`, field by field. -/
def Fields.insertAll (f : Fields) (l : List (Str × Str)) : Fields :=
  l.foldl (fun f e => Fields.insert f e.1 e.2) f

/-- The fields of a header that comes in field by field. -/
def Fields.gather (l : List (Str × Str)) : Fields := Fields.insertAll [] l

/-- `get_keep_alive_impl`. -/
def Fields.keepAlive (f : Fields) (version : ℕ) : Bool :=
  match f.find (str "Connection") with
  | none => !(version < 11 : Bool)
  | some v => if version < 11 then tokenExists v (str "keep-alive") else !tokenExists v (str "close")

/-- `detail::keep_alive_impl`: the new value of the `Connection` field. -/
def keepAliveValue (value : Str) (version : ℕ) (keepAlive : Bool) : Str :=
  let kept (drop : List Str) (add : Str) : Str :=
    let s := filterTokenList value drop
    if s = [] then add else if tokenExists value add then s else s ++ str ", " ++ add
  if (version < 11) = keepAlive then
    -- the two cases in which a token is added: `keep-alive` to HTTP/1.0, `close` to HTTP/1.1
    if keepAlive then kept [str "close"] (str "keep-alive") else kept [str "keep-alive"] (str "close")
  else filterTokenList value [str "close", str "keep-alive"]

/-- `set_keep_alive_impl`. -/
def Fields.setKeepAlive (f : Fields) (version : ℕ) (keepAlive : Bool) : Fields :=
  let v := keepAliveValue (f.get (str "Connection")) version keepAlive
  if v = [] then f.erase (str "Connection") else f.set (str "Connection") v

/-- `get_chunked_impl`: the last transfer coding is `chunked`. -/
def Fields.chunked (f : Fields) : Bool :=
  (tokenList (f.get (str "Transfer-Encoding"))).getLast?.any fun t => iequals t (str "chunked")

/-- `set_chunked_impl(false)`. -/
def Fields.unsetChunked (f : Fields) : Fields :=
  match f.find (str "Transfer-Encoding") with
  | none => f
  | some v =>
    let v' := filterTokenListLast v [str "chunked"]
    if v' = [] then f.erase (str "Transfer-Encoding") else f.set (str "Transfer-Encoding") v'

/-- `content_length(n)`. -/
def Fields.contentLength (f : Fields) (n : ℕ) : Fields :=
  (f.set (str "Content-Length") (str (toString n))).unsetChunked

/-! ### Requests and responses -/

/-- `StrRequest`. -/
structure StrRequest where
  methodString : Str := str "GET"
  target : Str := []
  version : ℕ := 11
  fields : Fields := []
  body : Str := []
deriving DecidableEq

/-- `StrResponse`. -/
structure StrResponse where
  result : ℕ := 200
  reason : Str := []
  version : ℕ := 11
  fields : Fields := []
  body : Str := []
deriving DecidableEq, Inhabited

/-- The request methods of `http::verb`. -/
def verbs : List String :=
  ["DELETE", "GET", "HEAD", "POST", "PUT", "CONNECT", "OPTIONS", "TRACE", "COPY", "LOCK", "MKCOL",
    "MOVE", "PROPFIND", "PROPPATCH", "SEARCH", "UNLOCK", "BIND", "REBIND", "UNBIND", "ACL", "REPORT",
    "MKACTIVITY", "CHECKOUT", "MERGE", "M-SEARCH", "NOTIFY", "SUBSCRIBE", "UNSUBSCRIBE", "PATCH",
    "PURGE", "MKCALENDAR", "LINK", "UNLINK"]

/-- `http::verb`; `none` is `verb::unknown`. -/
abbrev Verb := Option String

/-- `req.method()`. -/
def StrRequest.method (r : StrRequest) : Verb := verbs.find? fun v => r.methodString == str v

/-- `req.keep_alive()`. -/
def StrRequest.keepAlive (r : StrRequest) : Bool := r.fields.keepAlive r.version

/-- The codes of `http::status`, each with its reason in `obsolete_reason`. -/
def reasons : List (ℕ × String) :=
  [(100, "Continue"), (101, "Switching Protocols"), (102, "Processing"), (200, "OK"), (201, "Created"),
    (202, "Accepted"), (203, "Non-Authoritative Information"), (204, "No Content"),
    (205, "Reset Content"), (206, "Partial Content"), (207, "Multi-Status"), (208, "Already Reported"),
    (226, "IM Used"), (300, "Multiple Choices"), (301, "Moved Permanently"), (302, "Found"),
    (303, "See Other"), (304, "Not Modified"), (305, "Use Proxy"), (307, "Temporary Redirect"),
    (308, "Permanent Redirect"), (400, "Bad Request"), (401, "Unauthorized"), (402, "Payment Required"),
    (403, "Forbidden"), (404, "Not Found"), (405, "Method Not Allowed"), (406, "Not Acceptable"),
    (407, "Proxy Authentication Required"), (408, "Request Timeout"), (409, "Conflict"), (410, "Gone"),
    (411, "Length Required"), (412, "Precondition Failed"), (413, "Payload Too Large"),
    (414, "URI Too Long"), (415, "Unsupported Media Type"), (416, "Range Not Satisfiable"),
    (417, "Expectation Failed"), (421, "Misdirected Request"), (422, "Unprocessable Entity"),
    (423, "Locked"), (424, "Failed Dependency"), (426, "Upgrade Required"),
    (428, "Precondition Required"), (429, "Too Many Requests"), (431, "Request Header Fields Too Large"),
    (444, "Connection Closed Without Response"), (451, "Unavailable For Legal Reasons"),
    (499, "Client Closed Request"), (500, "Internal Server Error"), (501, "Not Implemented"),
    (502, "Bad Gateway"), (503, "Service Unavailable"), (504, "Gateway Timeout"),
    (505, "HTTP Version Not Supported"), (506, "Variant Also Negotiates"), (507, "Insufficient Storage"),
    (508, "Loop Detected"), (510, "Not Extended"), (511, "Network Authentication Required"),
    (599, "Network Connect Timeout Error")]

/-- `int_to_status`; 0 is `status::unknown`. -/
def intToStatus (code : ℕ) : ℕ := if (reasons.lookup code).isSome then code else 0

/-- `obsolete_reason`. -/
def obsoleteReason (code : ℕ) : Str := str ((reasons.lookup code).getD "<unknown-status>")

/-- The statuses whose messages end with the header: 1xx, 204 and 304. -/
def bodyless (status : ℕ) : Bool := status / 100 == 1 || status == 204 || status == 304

namespace StrResponse

variable (res : StrResponse)

/-- `res.keep_alive()`. -/
def keepAlive : Bool := res.fields.keepAlive res.version

/-- `res.result()`. -/
def status : ℕ := intToStatus res.result

/-- `res.reason()`. -/
def reasonText : Str := if res.reason = [] then obsoleteReason res.result else res.reason

/-- The response with its reason filled in. -/
def named : StrResponse := { res with reason := res.reasonText }

/-- `res.need_eof()`. -/
def needEof : Bool :=
  if res.status == 204 || res.status == 304 || res.status / 100 == 1 ||
      res.fields.has (str "Content-Length") || res.fields.chunked then
    !res.keepAlive
  else true

/-- `res.set(name, value)`. -/
def set (name : String) (value : Str) : StrResponse :=
  { res with fields := res.fields.set (str name) value }

/-- `res.keep_alive(value)`. -/
def setKeepAlive (value : Bool) : StrResponse :=
  { res with fields := res.fields.setKeepAlive res.version value }

/-- `res.content_length(n)`. -/
def contentLength (n : ℕ) : StrResponse := { res with fields := res.fields.contentLength n }

/-- `res.prepare_payload()`: the body of a `string_body` message has a known size. `none` is the
`std::invalid_argument` for a body under a status without one. -/
def preparePayload : Option StrResponse :=
  -- `status_class(result())` is a cast into an enumeration where `informational` is 1: no 1xx is refused
  if 0 < res.body.length ∧ (res.status = 1 ∨ res.status = 204 ∨ res.status = 304) then none
  else some (res.contentLength res.body.length)

theorem preparePayload_eq {res : StrResponse} (h1 : res.status ≠ 1) (h204 : res.status ≠ 204)
    (h304 : res.status ≠ 304) : res.preparePayload = some (res.contentLength res.body.length) := by
  simp [preparePayload, h1, h204, h304]

end StrResponse

/-- `BOOST_BEAST_VERSION_STRING`. -/
def beastVersion : Str := str "Boost.Beast/277"

/-! ### The statuses without a body -/

theorem intToStatus_eq_iff {code status : ℕ} (h : (reasons.lookup status).isSome = true) (h0 : status ≠ 0) :
    intToStatus code = status ↔ code = status := by
  unfold intToStatus
  constructor
  · intro heq
    split_ifs at heq
    · exact heq
    · exact absurd heq.symm h0
  · rintro rfl
    rw [if_pos h]

/-- `prepare_payload` throws for a body under 204 or 304. -/
theorem preparePayload_eq_none_iff {res : StrResponse} : res.preparePayload = none ↔
    (res.result = 204 ∨ res.result = 304) ∧ res.body ≠ [] := by
  have h1 : res.status ≠ 1 := by
    unfold StrResponse.status intToStatus
    split_ifs with h
    · rintro h1
      rw [h1] at h
      exact absurd h (by decide)
    · decide
  have h204 : res.status = 204 ↔ res.result = 204 := intToStatus_eq_iff (by decide) (by decide)
  have h304 : res.status = 304 ↔ res.result = 304 := intToStatus_eq_iff (by decide) (by decide)
  unfold StrResponse.preparePayload
  split_ifs with h
  · simpa [h1, h204, h304, List.length_pos_iff, and_comm] using h
  · simpa [h1, h204, h304, List.length_pos_iff, and_comm] using h

/-! ### Decimal numbers -/

theorem str_toString (n : ℕ) : str (toString n) = (Nat.toDigits 10 n).map Char.toUInt8 := by
  simp [str]

theorem isDigit_toDigits {n : ℕ} : ∀ c ∈ Nat.toDigits 10 n, c.isDigit = true :=
  fun _ hc => Nat.isDigit_of_mem_toDigits (by omega) (by omega) hc

theorem toNat_toUInt8 {c : Char} (h : c.isDigit = true) : c.toUInt8.toNat = c.toNat := by
  have hhi := (Char.isDigit_iff_toNat.mp h).2
  have h9 : '9'.toNat = 57 := rfl
  have hn : c.toUInt8.toNat = c.toNat % 256 := rfl
  rw [hn, Nat.mod_eq_of_lt (by omega)]

end Jkit.Http.Message
