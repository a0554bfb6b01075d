import Jkit.Http.Message
import Jkit.Lib.Scan

/-! # `LUrlParser::clParseURL`

`ParseURL` walks through a zero-terminated text and cuts it into the scheme, the user information, the
host, the port, the path, the query and the fragment. The text that is still to be read is a list, and the
terminating zero is its end. -/

namespace Jkit.Common.UrlParser

open Jkit.Http.Message Jkit.Lib.Scan

/-! ### The parser -/

inductive LUrlParserError
  | ok
  | uninitialized
  | noUrlCharacter
  | invalidSchemeName
  | noDoubleSlash
  | noAtSign
  | unexpectedEndOfLine
  | noSlash
deriving DecidableEq

structure ClParseURL where
  errorCode : LUrlParserError := .uninitialized
  scheme : Str := []
  host : Str := []
  port : Str := []
  path : Str := []
  query : Str := []
  fragment : Str := []
  userName : Str := []
  password : Str := []
deriving DecidableEq

/-- `IsValid`. -/
def ClParseURL.isValid (r : ClParseURL) : Bool := r.errorCode == .ok

/-- The constructor with an error code. -/
def failed (e : LUrlParserError) : ClParseURL := { errorCode := e }

/-- `isalpha`. -/
def isalpha (c : UInt8) : Bool := (65 ≤ c && c ≤ 90) || (97 ≤ c && c ≤ 122)

/-- The characters of a scheme. -/
def isSchemeChar (c : UInt8) : Bool := isalpha c || c == 43 || c == 45 || c == 46

/-- `IsSchemeValid`. -/
def isSchemeValid (scheme : Str) : Bool := scheme.all isSchemeChar

/-- `c_str`, up to the first zero. -/
def cStr (s : Str) : Str := s.takeWhile (· != 0)

/-- The loop that sets `bHasUserName`: is there an `@` before the first `/`? -/
def hasUserName : Str → Bool
  | [] => false
  | c :: cur => if c = 64 then true else if c = 47 then false else hasUserName cur

/-- The user name and the password, if they are specified; `none` is the error `NoAtSign`. -/
def readUser (result : ClParseURL) (cur : Str) : Option (ClParseURL × Str) :=
  if hasUserName cur then
    let name := cur.takeWhile fun c => c != 58 && c != 64
    let password := readOpt 58 (· != 64) (cur.dropWhile fun c => c != 58 && c != 64)
    (skip 64 password.2).map fun cur => ({ result with userName := name, password := password.1 }, cur)
  else some (result, cur)

/-- The loop of the host name, with `bHasBracket`: the host and the rest. -/
def hostLoop (hasBracket : Bool) : Str → Str × Str
  | [] => ([], [])
  | c :: cur =>
    if hasBracket && c == 93 then ([c], cur)
    else if !hasBracket && (c == 58 || c == 47) then ([], c :: cur)
    else (c :: (hostLoop hasBracket cur).1, (hostLoop hasBracket cur).2)

def readHost (cur : Str) : Str × Str := hostLoop (cur.head? == some 91) cur

/-- The path, the query and the fragment. -/
def readPath (result : ClParseURL) (cur : Str) : ClParseURL :=
  let path := cur.takeWhile fun c => c != 35 && c != 63
  let query := readOpt 63 (· != 35) (cur.dropWhile fun c => c != 35 && c != 63)
  let fragment := readOpt 35 (fun _ => true) query.2
  { result with path := path, query := query.1, fragment := fragment.1, errorCode := .ok }

/-- From behind the two slashes on. -/
def readAuthority (result : ClParseURL) (cur : Str) : ClParseURL :=
  match readUser result cur with
  | none => failed .noAtSign
  | some (result, cur) =>
    let host := readHost cur
    let port := readOpt 58 (· != 47) host.2
    let result := { result with host := host.1, port := port.1 }
    if port.2 = [] then { result with errorCode := .ok }
    else
      match skip 47 port.2 with
      | none => failed .noSlash
      | some cur => readPath result cur

/-- `ParseURL`. -/
def parseURL (url : Str) : ClParseURL :=
  let cur := cStr url
  if 58 ∉ cur then failed .noUrlCharacter
  else
    let scheme := cur.takeWhile (· != 58)
    if !isSchemeValid scheme then failed .invalidSchemeName
    else
      match (skip 58 (cur.dropWhile (· != 58))).bind fun cur => (skip 47 cur).bind (skip 47) with
      | none => failed .noDoubleSlash
      | some cur => readAuthority { scheme := scheme.map tolower } cur

/-! ### The number of the port -/

/-- `isspace`. -/
def isspace (c : UInt8) : Bool := c == 32 || (9 ≤ c && c ≤ 13)

/-- `isdigit`. -/
def isdigit (c : UInt8) : Bool := 48 ≤ c && c ≤ 57

/-- The number that decimal digits denote. -/
def decimal (digits : Str) : ℕ := digits.foldl (fun n c => 10 * n + (c.toNat - 48)) 0

/-- The sign in front of a number, and what follows it. -/
def readSign : Str → Bool × Str
  | 45 :: s => (true, s)
  | 43 :: s => (false, s)
  | s => (false, s)

/-- `atoi`, which is undefined for a number that is not in the range of `int`. -/
def atoi (s : Str) : Option ℤ :=
  let s := readSign (s.dropWhile isspace)
  let n := decimal (s.2.takeWhile isdigit)
  let z : ℤ := if s.1 then -n else n
  if -2147483648 ≤ z ∧ z ≤ 2147483647 then some z else none

/-- `GetPort`: what `*OutPort` is set to, or that it returns false; `none` where `atoi` is undefined. -/
def ClParseURL.getPort (r : ClParseURL) : Option (Option ℤ) :=
  if !r.isValid then some none
  else (atoi (cStr r.port)).map fun port => if port ≤ 0 ∨ 65535 < port then none else some port

end Jkit.Common.UrlParser
