import Jkit.Http.Message
import Mathlib.Data.Int.Notation

/-! # `web_utility.hpp`

`Percent::encode` and `Percent::decode`, and the functions of `kkurl` that split the target of a request and the query
string. A `CaseInsensitiveMultimap` is the list of its pairs in the order of insertion. Positions
that may be `npos` are options. -/

namespace Jkit.Common.WebUtility

open Jkit.Http.Message

/-! ### `Percent` -/

/-- The characters that `encode` writes as `%` and two digits. -/
def escapes (c : UInt8) : Bool :=
  c == 33 || c == 35 || c == 36 || (38 ≤ c && c ≤ 44) || (47 ≤ c && c ≤ 59) || c == 61 || c == 63 ||
    c == 64 || c == 91 || c == 93

/-- `hex_chars[n]`. -/
def hexChar (n : UInt8) : UInt8 := (str "0123456789ABCDEF").getD n.toNat 0

/-- `Percent::encode`. -/
def encode : Str → Str
  | [] => []
  | c :: s =>
    if c = 32 then 43 :: encode s
    else if escapes c then 37 :: hexChar (c >>> 4) :: hexChar (c &&& 15) :: encode s
    else c :: encode s

/-- `isspace` in the `C` locale. -/
def isSpace (c : UInt8) : Bool := c == 32 || (9 ≤ c && c ≤ 13)

/-- The value of a hexadecimal digit. -/
def hexValue (c : UInt8) : Option ℕ :=
  if 48 ≤ c ∧ c ≤ 57 then some (c.toNat - 48)
  else if 65 ≤ c ∧ c ≤ 70 then some (c.toNat - 55)
  else if 97 ≤ c ∧ c ≤ 102 then some (c.toNat - 87)
  else none

/-- The number the leading hexadecimal digits denote. -/
def hexDigits (s : Str) : ℕ :=
  (s.takeWhile fun c => (hexValue c).isSome).foldl (fun n c => 16 * n + (hexValue c).getD 0) 0

/-- `std::strtol(s, nullptr, 16)`: leading blanks, a sign and a prefix `0x` are allowed. -/
def strtol16 (s : Str) : ℤ :=
  let unsigned (s : Str) : ℤ :=
    match s with
    | 48 :: x :: c :: r =>
      if (x = 120 ∨ x = 88) ∧ (hexValue c).isSome then hexDigits (c :: r) else hexDigits s
    | _ => hexDigits s
  match s.dropWhile isSpace with
  | 45 :: r => -unsigned r
  | 43 :: r => unsigned r
  | r => unsigned r

/-- `static_cast<char>`. -/
def toChar (n : ℤ) : UInt8 := (n % 256).toNat.toUInt8

/-- `Percent::decode`. -/
def decode : Str → Str
  | [] => []
  | 37 :: a :: b :: r => toChar (strtol16 [a, b]) :: decode r
  | 43 :: r => 32 :: decode r
  | c :: r => c :: decode r

/-! ### `kkurl` -/

/-- `substr(pos, n)`. -/
def substr (s : Str) (pos n : ℕ) : Str := (s.drop pos).take n

/-- `find(t) != npos`. -/
def contains (s t : Str) : Bool := s.tails.any fun u => t.isPrefixOf u

/-- `parse_target`: the path and the query string; `none` is the return value `false`. -/
def parseTarget (target : Str) : Option (Str × Str) :=
  match target.findIdx? (· == 63) with
  | some i => some (target.take i, target.drop (i + 1))
  | none => some (target, [])

/-- The locals of `parse_query_string`. -/
structure Scan where
  namePos : ℕ := 0
  nameEnd : Option ℕ := none
  valuePos : Option ℕ := none
  result : List (Str × Str) := []

/-- `result.emplace(name, Percent::decode(value))`, unless the name is empty. -/
def Scan.emplace (st : Scan) (name value : Str) : List (Str × Str) :=
  if name = [] then st.result else st.result ++ [(name, decode value)]

/-- The body of the loop at the position `x.2` with the character `x.1`. -/
def Scan.step (q : Str) (st : Scan) (x : UInt8 × ℕ) : Scan :=
  if x.1 = 38 then
    { namePos := x.2 + 1
      result := st.emplace (substr q st.namePos (st.nameEnd.getD x.2 - st.namePos))
        (match st.valuePos with
          | none => []
          | some v => substr q v (x.2 - v)) }
  else if x.1 = 61 then { st with nameEnd := some x.2, valuePos := some (x.2 + 1) }
  else st

/-- `parse_query_string`. -/
def parseQueryString (q : Str) : List (Str × Str) :=
  if q = [] then []
  else
    let st := q.zipIdx.foldl (Scan.step q) {}
    if st.namePos < q.length then
      st.emplace
        (match st.nameEnd with
          | none => q.drop st.namePos
          | some e => substr q st.namePos (e - st.namePos))
        (match st.valuePos with
          | none => []
          | some v => q.drop v)
    else st.result

/-- `parse_target` never fails. -/
theorem parseTarget_isSome (target : Str) : ∃ path query, parseTarget target = some (path, query) := by
  unfold parseTarget
  cases target.findIdx? (· == 63) with
  | none => exact ⟨_, _, rfl⟩
  | some i => exact ⟨_, _, rfl⟩

example : parseQueryString (str "a=1&b=%41+c&d&=x") =
    [(str "a", str "1"), (str "b", str "A c"), (str "d", [])] := by decide

end Jkit.Common.WebUtility
