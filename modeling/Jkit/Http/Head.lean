import Jkit.Http.Tokens
import Mathlib.Data.List.DropRight
import Mathlib.Data.List.TakeWhile

/-! # The header of a message as text

What the serializer writes for the header of a message (`basic_fields::writer` in `fields.hpp`) and what the
parser makes of a text (`parse_start_line`, `parse_fields` and what they call in `basic_parser.ipp`). The
writer copies method, target, reason, names and values as they are. So a header is read as it was written
only if it is clean (`CleanRequest`, `CleanResponse`): names are tokens, and no text has control characters,
such as those that end a line. The parser's limit on the size of a header is left out; a read that meets it
ends in an error.

`parseRequest_text` says that a clean request is read as it was written, whatever follows it;
`parseResponse_text_iff` says that a response is, if and only if it is clean. -/

namespace Jkit.Http.Head

open Jkit.Http.Message Jkit.Http.Tokens

/-! ### The writer -/

/-- `'0' + static_cast<char>(n)`. -/
def digitByte (n : ℕ) : UInt8 := 48 + UInt8.ofNat n

def crlf : Str := [13, 10]

/-- The line of a field. -/
def fieldLine (e : Str × Str) : Str := e.1 ++ 58 :: 32 :: (e.2 ++ crlf)

/-- The lines of the fields and the empty line. -/
def fieldsText (f : Fields) : Str := f.flatMap fieldLine ++ crlf

def versionText (version : ℕ) : Str :=
  str "HTTP/" ++ [digitByte (version / 10), 46, digitByte (version % 10)]

/-- The header of a request. The target is kept with a blank in front, unless it is empty. -/
def requestText (r : StrRequest) : Str :=
  r.methodString ++ ((if r.target = [] then [] else 32 :: r.target) ++
    32 :: (versionText r.version ++ (crlf ++ fieldsText r.fields)))

def statusText (code : ℕ) : Str :=
  [digitByte (code / 100), digitByte (code / 10 % 10), digitByte (code % 10)]

/-- The header of a response. -/
def responseText (res : StrResponse) : Str :=
  versionText res.version ++ 32 :: (statusText res.result ++
    32 :: (res.reasonText ++ (crlf ++ fieldsText res.fields)))

/-! ### The parser -/

/-- What the parser makes of a text: it needs more of it, it refuses it, or it has read something. -/
inductive Parsed (α : Type)
  | more
  | bad
  | ok (a : α) (rest : Str)
deriving DecidableEq

def Parsed.bind {α β : Type} : Parsed α → (α → Str → Parsed β) → Parsed β
  | .more, _ => .more
  | .bad, _ => .bad
  | .ok a rest, f => f a rest

def Parsed.map {α β : Type} (f : α → β) (p : Parsed α) : Parsed β := p.bind fun a rest => .ok (f a) rest

/-- A character of a reason or a value: no control character but the tab. -/
def isText (c : UInt8) : Bool := (32 ≤ c || c == 9) && c != 127

/-- `is_pathchar`. -/
def isPathChar (c : UInt8) : Bool := 33 ≤ c && c != 127

def isDigit (c : UInt8) : Bool := 48 ≤ c && c ≤ 57

/-- The line feed behind a carriage return. -/
def parseLf : Str → Parsed Str
  | [] => .more
  | c :: s => if c = 10 then .ok [] s else .bad

/-- `parse_token_to_eol`. -/
def parseTokenToEol : Str → Parsed Str
  | [] => .more
  | c :: s =>
    if isText c then (parseTokenToEol s).map (c :: ·) else if c = 13 then parseLf s else .bad

/-- The characters up to the one that ends them, at least one: `parse_method`, `parse_target` and the name
in `parse_field`. -/
def parseUpTo (p : UInt8 → Bool) (close : UInt8) (s : Str) : Parsed Str :=
  match s.dropWhile p with
  | [] => .more
  | c :: rest => if c = close ∧ s.takeWhile p ≠ [] then .ok (s.takeWhile p) rest else .bad

/-- `parse_method`. -/
def parseMethod : Str → Parsed Str := parseUpTo isTokenChar 32

/-- `parse_target`. -/
def parseTarget : Str → Parsed Str := parseUpTo isPathChar 32

/-- `parse_version`, with the test of `parse_start_line`. -/
def parseVersion : Str → Parsed ℕ
  | c1 :: c2 :: c3 :: c4 :: c5 :: a :: dot :: b :: rest =>
    let version := 10 * (a.toNat - 48) + (b.toNat - 48)
    if [c1, c2, c3, c4, c5] = str "HTTP/" ∧ isDigit a ∧ dot = 46 ∧ isDigit b ∧
        (version = 10 ∨ version = 11) then .ok version rest
    else .bad
  | _ => .more

/-- The end of a line. -/
def parseCrlf : Str → Parsed Unit
  | c :: d :: rest => if c = 13 ∧ d = 10 then .ok () rest else .bad
  | _ => .more

/-- The blank behind the version. -/
def parseBlank : Str → Parsed Unit
  | c :: rest => if c = 32 then .ok () rest else .bad
  | [] => .more

/-- `parse_status`. -/
def parseStatus : Str → Parsed ℕ
  | a :: b :: c :: d :: rest =>
    if isDigit a ∧ isDigit b ∧ isDigit c ∧ d = 32 then
      .ok (100 * (a.toNat - 48) + 10 * (b.toNat - 48) + (c.toNat - 48)) rest
    else .bad
  | _ => .more

/-- `trim_back`. -/
def trimBack (s : Str) : Str := (s.reverse.dropWhile isOws).reverse

/-- `max_obs_fold`. -/
def maxObsFold : ℕ := 4096

/-- A value that is folded over several lines, with one more of them. -/
def foldLine (buf line : Str) : Str :=
  if line = [] then buf else if buf = [] then line else buf ++ 32 :: line

/-- The value in `parse_field`, a line at a time; `buf` is what the lines before have come to. -/
def parseValue : ℕ → Str → Str → Parsed Str
  | 0, _, _ => .more
  | n + 1, buf, s =>
    (parseTokenToEol (s.dropWhile isOws)).bind fun line rest =>
      match rest with
      | [] => .more
      | c :: next =>
        let value := foldLine buf (trimBack line)
        -- a value on one line is not copied into the buffer
        if isOws c = false ∧ (buf = [] ∨ value.length ≤ maxObsFold) then .ok value rest
        else if maxObsFold < value.length then .bad
        else parseValue n value next

/-- `parse_field`. -/
def parseField (s : Str) : Parsed (Str × Str) :=
  (parseUpTo isTokenChar 58 s).bind fun name rest =>
    (parseValue rest.length [] rest).map fun value => (name, value)

/-- `parse_fields`, up to the empty line. -/
def parseFields : ℕ → Str → Parsed (List (Str × Str))
  | 0, _ => .more
  | n + 1, s =>
    match s with
    | c :: d :: rest =>
      if c = 13 then if d = 10 then .ok [] rest else .bad
      else (parseField s).bind fun e rest => (parseFields n rest).map (e :: ·)
    | _ => .more

/-- The header of a request. -/
def parseRequest (s : Str) : Parsed StrRequest :=
  (parseMethod s).bind fun method s =>
    (parseTarget s).bind fun target s =>
      (parseVersion s).bind fun version s =>
        (parseCrlf s).bind fun _ s =>
          (parseFields s.length s).map fun l =>
            { methodString := method, target := target, version := version, fields := Fields.gather l }

/-- The header of a response. -/
def parseResponse (s : Str) : Parsed StrResponse :=
  (parseVersion s).bind fun version s =>
    (parseBlank s).bind fun _ s =>
      (parseStatus s).bind fun code s =>
        (parseTokenToEol s).bind fun reason s =>
          (parseFields s.length s).map fun l =>
            { result := code, reason := reason, version := version, fields := Fields.gather l }

/-! ### Clean headers -/

/-- The name is a token, and the value has no control characters. -/
structure CleanField (e : Str × Str) : Prop where
  ne : e.1 ≠ []
  name : ∀ c ∈ e.1, isTokenChar c = true
  value : ∀ c ∈ e.2, isText c = true

/-- A header that the parser reads as it is written. -/
structure CleanRequest (r : StrRequest) : Prop where
  methodNe : r.methodString ≠ []
  method : ∀ c ∈ r.methodString, isTokenChar c = true
  targetNe : r.target ≠ []
  target : ∀ c ∈ r.target, isPathChar c = true
  version : r.version = 10 ∨ r.version = 11
  fields : ∀ e ∈ r.fields, CleanField e

structure CleanResponse (res : StrResponse) : Prop where
  version : res.version = 10 ∨ res.version = 11
  result : res.result ≤ 999
  reason : ∀ c ∈ res.reason, isText c = true
  fields : ∀ e ∈ res.fields, CleanField e

/-! ### Lines -/

theorem parseTokenToEol_text {t : Str} (h : ∀ c ∈ t, isText c = true) (rest : Str) :
    parseTokenToEol (t ++ (crlf ++ rest)) = .ok t rest := by
  induction t with
  | nil => rfl
  | cons c t ih =>
    have hc : isText c = true := h c (by simp)
    have ht := ih fun d hd => h d (by simp [hd])
    rw [List.cons_append, parseTokenToEol, if_pos hc, ht]
    rfl

theorem ok_of_bind {α β : Type} {p : Parsed α} {f : α → Str → Parsed β} {b : β} {rest : Str}
    (h : p.bind f = .ok b rest) : ∃ a s, p = .ok a s ∧ f a s = .ok b rest := by
  rcases p with _ | _ | ⟨a, s⟩
  · exact absurd h (by simp [Parsed.bind])
  · exact absurd h (by simp [Parsed.bind])
  · exact ⟨a, s, rfl, h⟩

theorem ok_of_map {α β : Type} {p : Parsed α} {f : α → β} {b : β} {rest : Str}
    (h : p.map f = .ok b rest) : ∃ a, p = .ok a rest ∧ f a = b := by
  obtain ⟨a, s, rfl, hf⟩ := ok_of_bind h
  obtain ⟨rfl, rfl⟩ := Parsed.ok.inj hf
  exact ⟨a, rfl, rfl⟩

theorem text_of_parseTokenToEol : ∀ {s t rest : Str}, parseTokenToEol s = .ok t rest →
    ∀ c ∈ t, isText c = true
  | [], _, _, h => absurd h (by simp [parseTokenToEol])
  | c :: s, t, rest, h => by
    unfold parseTokenToEol at h
    split_ifs at h with hc h13
    · obtain ⟨t', ht, rfl⟩ := ok_of_map h
      exact List.forall_mem_cons.mpr ⟨hc, text_of_parseTokenToEol ht⟩
    · unfold parseLf at h
      split at h
      · exact absurd h (by simp)
      · split_ifs at h
        obtain ⟨rfl, -⟩ := Parsed.ok.inj h
        simp

section UpTo

variable {p : UInt8 → Bool} {close : UInt8}

theorem parseUpTo_text {t : Str} (hne : t ≠ []) (h : ∀ c ∈ t, p c = true) (hclose : p close = false)
    (rest : Str) : parseUpTo p close (t ++ close :: rest) = .ok t rest := by
  have htake : (t ++ close :: rest).takeWhile p = t := by
    rw [List.takeWhile_append_of_pos h]
    simp [hclose]
  have hdrop : (t ++ close :: rest).dropWhile p = close :: rest := by
    rw [List.dropWhile_append_of_pos h]
    simp [hclose]
  simp [parseUpTo, htake, hdrop, hne]

theorem clean_of_parseUpTo {s t rest : Str} (h : parseUpTo p close s = .ok t rest) :
    t ≠ [] ∧ ∀ c ∈ t, p c = true := by
  unfold parseUpTo at h
  split at h
  · exact absurd h (by simp)
  · split_ifs at h with hc
    obtain ⟨rfl, -⟩ := Parsed.ok.inj h
    exact ⟨hc.2, fun c hmem => List.mem_takeWhile_imp hmem⟩

end UpTo

theorem parseVersion_text {version : ℕ} (h : version = 10 ∨ version = 11) (rest : Str) :
    parseVersion (versionText version ++ rest) = .ok version rest := by
  rcases h with rfl | rfl <;> rfl

theorem version_of_parseVersion {s rest : Str} {version : ℕ} (h : parseVersion s = .ok version rest) :
    version = 10 ∨ version = 11 := by
  unfold parseVersion at h
  split at h
  · dsimp only at h
    split_ifs at h with hv
    obtain ⟨rfl, -⟩ := Parsed.ok.inj h
    exact hv.2.2.2.2
  · exact absurd h (by simp)

theorem toNat_digitByte {n : ℕ} (h : n ≤ 9) :
    (digitByte n).toNat = 48 + n ∧ isDigit (digitByte n) = true := by
  have hn : (digitByte n).toNat = 48 + n := by
    simp only [digitByte, UInt8.toNat_add, UInt8.reduceToNat, UInt8.toNat_ofNat']
    omega
  refine ⟨hn, ?_⟩
  simp only [isDigit, Bool.and_eq_true, decide_eq_true_eq, UInt8.le_iff_toNat_le, hn, UInt8.reduceToNat]
  omega

theorem parseStatus_text {code : ℕ} (h : code ≤ 999) (rest : Str) :
    parseStatus (statusText code ++ 32 :: rest) = .ok code rest := by
  obtain ⟨ha, ha'⟩ := @toNat_digitByte (code / 100) (by omega)
  obtain ⟨hb, hb'⟩ := @toNat_digitByte (code / 10 % 10) (by omega)
  obtain ⟨hc, hc'⟩ := @toNat_digitByte (code % 10) (by omega)
  simp only [statusText, List.cons_append, List.nil_append, parseStatus, ha', hb', hc', ha, hb, hc,
    and_self, if_true, Parsed.ok.injEq, and_true]
  omega

theorem toNat_of_isDigit {c : UInt8} (h : isDigit c = true) : c.toNat ≤ 57 := by
  simp only [isDigit, Bool.and_eq_true, decide_eq_true_eq, UInt8.le_iff_toNat_le,
    UInt8.reduceToNat] at h
  exact h.2

theorem le_of_parseStatus {s rest : Str} {code : ℕ} (h : parseStatus s = .ok code rest) : code ≤ 999 := by
  unfold parseStatus at h
  split at h
  · split_ifs at h with hd
    obtain ⟨ha, hb, hc, -⟩ := hd
    obtain ⟨rfl, -⟩ := Parsed.ok.inj h
    have := toNat_of_isDigit ha
    have := toNat_of_isDigit hb
    have := toNat_of_isDigit hc
    omega
  · exact absurd h (by simp)

/-! ### Values -/

theorem isText_of_isOws {c : UInt8} (h : isOws c = true) : isText c = true := by
  simp only [isOws, Bool.or_eq_true, beq_iff_eq] at h
  rcases h with rfl | rfl <;> rfl

theorem trim_eq (s : Str) : trim s = trimBack (s.dropWhile isOws) := rfl

theorem trimBack_sublist (s : Str) : (trimBack s).Sublist s := (List.rdropWhile_prefix isOws s).sublist

theorem trim_sublist (s : Str) : (trim s).Sublist s :=
  (trimBack_sublist _).trans (List.dropWhile_sublist _)

theorem trim_trim (s : Str) : trim (trim s) = trim s := by
  have hfront : (trim s).dropWhile isOws = trim s := by
    rw [List.dropWhile_eq_self_iff]
    intro hl
    have hpre : trim s <+: s.dropWhile isOws := List.rdropWhile_prefix isOws _
    have hl' : 0 < (s.dropWhile isOws).length := Nat.lt_of_lt_of_le hl hpre.length_le
    rw [hpre.getElem hl]
    exact List.dropWhile_get_zero_not isOws s hl'
  rw [trim_eq, hfront, trim_eq]
  exact List.rdropWhile_idempotent isOws (s.dropWhile isOws)

/-- Blanks at the ends of a value are no control characters. -/
theorem isText_of_trim {s : Str} (h : ∀ c ∈ trim s, isText c = true) : ∀ c ∈ s, isText c = true := by
  intro c hc
  rw [← List.takeWhile_append_dropWhile (p := isOws) (l := s), List.mem_append] at hc
  rcases hc with hc | hc
  · exact isText_of_isOws (List.mem_takeWhile_imp hc)
  · rw [← List.rdropWhile_append_rtakeWhile (p := isOws) (l := s.dropWhile isOws), List.mem_append] at hc
    rcases hc with hc | hc
    · exact h c hc
    · exact isText_of_isOws (List.mem_rtakeWhile_imp hc)

theorem insert_trim (f : Fields) (name value : Str) :
    Fields.insert f name (trim value) = Fields.insert f name value := by
  simp only [Fields.insert, trim_trim]

theorem gather_trim (l : List (Str × Str)) :
    Fields.gather (l.map fun e => (e.1, trim e.2)) = Fields.gather l := by
  simp only [Fields.gather, Fields.insertAll, List.foldl_map, insert_trim]

theorem dropWhile_ows {v : Str} {c : UInt8} (hc : isOws c = false) (rest : Str) :
    (v ++ c :: rest).dropWhile isOws = v.dropWhile isOws ++ c :: rest := by
  rw [List.dropWhile_append]
  split_ifs with h
  · rw [List.isEmpty_iff.mp h]
    simp [hc]
  · rfl

/-- A value that is not folded ends with its line. -/
theorem parseValue_text {v : Str} (hv : ∀ c ∈ v, isText c = true) {c : UInt8} (hc : isOws c = false)
    (n : ℕ) (rest : Str) :
    parseValue (n + 1) [] (32 :: (v ++ (crlf ++ c :: rest))) = .ok (trim v) (c :: rest) := by
  have hdrop : (32 :: (v ++ (crlf ++ c :: rest))).dropWhile isOws =
      v.dropWhile isOws ++ (crlf ++ c :: rest) := by
    rw [List.dropWhile_cons_of_pos rfl]
    exact dropWhile_ows rfl _
  have hline := parseTokenToEol_text
    (fun d hd => hv d ((List.dropWhile_sublist isOws).subset hd)) (c :: rest)
  have hfold : foldLine [] (trim v) = trim v := by
    rw [foldLine, if_pos rfl]
    split_ifs with h
    · exact h.symm
    · rfl
  simp only [parseValue, hdrop, hline, Parsed.bind, hc, true_and, true_or, if_true]
  rw [← trim_eq, hfold]

theorem text_of_foldLine {buf line : Str} (hbuf : ∀ c ∈ buf, isText c = true)
    (hline : ∀ c ∈ line, isText c = true) : ∀ c ∈ foldLine buf line, isText c = true := by
  unfold foldLine
  split_ifs
  · exact hbuf
  · exact hline
  · exact List.forall_mem_append.mpr ⟨hbuf, List.forall_mem_cons.mpr ⟨rfl, hline⟩⟩

/-- A value has no control characters, however many lines it is folded over. -/
theorem text_of_parseValue : ∀ {n : ℕ} {buf s v rest : Str}, (∀ c ∈ buf, isText c = true) →
    parseValue n buf s = .ok v rest → ∀ c ∈ v, isText c = true
  | 0, _, _, _, _, _, h => absurd h (by simp [parseValue])
  | n + 1, buf, s, v, rest, hbuf, h => by
    rw [parseValue] at h
    obtain ⟨line, next, hline, h⟩ := ok_of_bind h
    have htext := text_of_foldLine hbuf fun c hc =>
      text_of_parseTokenToEol hline c ((trimBack_sublist line).subset hc)
    dsimp only at h
    split at h
    · exact absurd h (by simp)
    · split_ifs at h
      · obtain ⟨rfl, -⟩ := Parsed.ok.inj h
        exact htext
      · exact text_of_parseValue htext h

/-! ### Fields -/

theorem ne_cr_of_isTokenChar {c : UInt8} (h : isTokenChar c = true) : c ≠ 13 := by
  rintro rfl
  exact absurd h (by decide)

theorem parseField_text {e : Str × Str} (he : CleanField e) {c : UInt8} (hc : isOws c = false)
    (rest : Str) : parseField (fieldLine e ++ c :: rest) = .ok (e.1, trim e.2) (c :: rest) := by
  have hline : fieldLine e ++ c :: rest = e.1 ++ 58 :: 32 :: (e.2 ++ (crlf ++ c :: rest)) := by
    simp [fieldLine]
  rw [hline, parseField, parseUpTo_text he.ne he.name rfl, Parsed.bind, List.length_cons,
    parseValue_text he.value hc]
  rfl

theorem clean_of_parseField {s rest : Str} {e : Str × Str} (h : parseField s = .ok e rest) :
    CleanField e := by
  obtain ⟨name, s', hname, h⟩ := ok_of_bind h
  obtain ⟨value, hvalue, rfl⟩ := ok_of_map h
  obtain ⟨hne, htoken⟩ := clean_of_parseUpTo hname
  exact ⟨hne, htoken, text_of_parseValue (by simp) hvalue⟩

/-- The line of a field is no empty line. -/
theorem parseFields_succ {e : Str × Str} (he : CleanField e) (n : ℕ) (rest : Str) :
    parseFields (n + 1) (fieldLine e ++ rest) =
      (parseField (fieldLine e ++ rest)).bind fun e rest => (parseFields n rest).map (e :: ·) := by
  obtain ⟨c, name, hname⟩ := List.exists_cons_of_ne_nil he.ne
  have hc : c ≠ 13 := ne_cr_of_isTokenChar (he.name c (by simp [hname]))
  rcases name with - | ⟨d, name⟩ <;> simp [fieldLine, hname, parseFields, hc]

/-- What follows a line does not continue it. -/
theorem exists_fieldsText {f : Fields} (hf : ∀ e ∈ f, CleanField e) :
    ∃ c t, fieldsText f = c :: t ∧ isOws c = false := by
  rcases f with - | ⟨e, f⟩
  · exact ⟨13, [10], rfl, rfl⟩
  · have he : CleanField e := hf e (by simp)
    obtain ⟨c, name, hname⟩ := List.exists_cons_of_ne_nil he.ne
    refine ⟨c, _, by rw [fieldsText, List.flatMap_cons, fieldLine, hname]; rfl, ?_⟩
    exact isOws_of_isTokenChar (he.name c (by simp [hname]))

theorem parseFields_text {f : Fields} (hf : ∀ e ∈ f, CleanField e) (rest : Str) :
    ∀ {n : ℕ}, f.length < n →
      parseFields n (fieldsText f ++ rest) = .ok (f.map fun e => (e.1, trim e.2)) rest := by
  induction f with
  | nil =>
    intro n hn
    obtain ⟨n, rfl⟩ := Nat.exists_eq_succ_of_ne_zero (Nat.ne_of_gt hn)
    rfl
  | cons e f ih =>
    intro n hn
    obtain ⟨n, rfl⟩ := Nat.exists_eq_succ_of_ne_zero (Nat.ne_of_gt (Nat.zero_lt_of_lt hn))
    have he : CleanField e := hf e (by simp)
    have hf' : ∀ e ∈ f, CleanField e := fun e' he' => hf e' (by simp [he'])
    obtain ⟨c, t, ht, hc⟩ := exists_fieldsText hf'
    have hsplit : fieldsText (e :: f) ++ rest = fieldLine e ++ (fieldsText f ++ rest) := by
      simp [fieldsText]
    rw [hsplit, parseFields_succ he, ht, List.cons_append, parseField_text he hc, Parsed.bind,
      ← List.cons_append, ← ht, ih hf' (Nat.lt_of_succ_lt_succ hn)]
    rfl

theorem clean_of_parseFields : ∀ {n : ℕ} {s rest : Str} {l : List (Str × Str)},
    parseFields n s = .ok l rest → ∀ e ∈ l, CleanField e
  | 0, _, _, _, h => absurd h (by simp [parseFields])
  | n + 1, s, rest, l, h => by
    unfold parseFields at h
    split at h
    · split_ifs at h
      · obtain ⟨rfl, -⟩ := Parsed.ok.inj h
        simp
      · obtain ⟨e, s', he, h⟩ := ok_of_bind h
        obtain ⟨l, hl, rfl⟩ := ok_of_map h
        exact List.forall_mem_cons.mpr ⟨clean_of_parseField he, clean_of_parseFields hl⟩
    · exact absurd h (by simp)

theorem eq_append_of_splitLast {name : Str} : ∀ {f before behind : Fields},
    Fields.splitLast name f = some (before, behind) → f = before ++ behind
  | [], _, _, h => absurd h (by simp [Fields.splitLast])
  | e :: f, before, behind, h => by
    unfold Fields.splitLast at h
    split at h
    · next hf =>
      obtain ⟨rfl, rfl⟩ := Prod.mk.inj (Option.some.inj h)
      rw [List.cons_append, ← eq_append_of_splitLast hf]
    · split_ifs at h
      obtain ⟨rfl, rfl⟩ := Prod.mk.inj (Option.some.inj h)
      rfl

theorem mem_insert {f : Fields} {name value : Str} {e : Str × Str} :
    e ∈ Fields.insert f name value ↔ e ∈ f ∨ e = (name, trim value) := by
  unfold Fields.insert
  split
  · next hf =>
    rw [eq_append_of_splitLast hf]
    simp only [List.mem_append, List.mem_cons]
    tauto
  · simp

theorem mem_insertAll {e : Str × Str} : ∀ {l : List (Str × Str)} {f : Fields},
    e ∈ f.insertAll l ↔ e ∈ f ∨ ∃ e' ∈ l, e = (e'.1, trim e'.2)
  | [], f => by simp [Fields.insertAll]
  | e' :: l, f => by
    have ih : e ∈ (f.insert e'.1 e'.2).insertAll l ↔ _ := mem_insertAll
    rw [mem_insert, or_assoc] at ih
    rw [List.exists_mem_cons_iff]
    exact ih

theorem mem_gather {l : List (Str × Str)} {e : Str × Str} :
    e ∈ Fields.gather l ↔ ∃ e' ∈ l, e = (e'.1, trim e'.2) := by
  rw [Fields.gather, mem_insertAll]
  simp

/-- Fields that come to clean ones are clean. -/
theorem clean_of_gather {f : Fields} {l : List (Str × Str)} (h : Fields.gather f = Fields.gather l)
    (hl : ∀ e ∈ l, CleanField e) : ∀ e ∈ f, CleanField e := by
  intro e he
  have hmem : (e.1, trim e.2) ∈ Fields.gather l := h ▸ mem_gather.mpr ⟨e, he, rfl⟩
  obtain ⟨e', he', heq⟩ := mem_gather.mp hmem
  obtain ⟨hname, hvalue⟩ := Prod.mk.inj heq
  have hc := hl e' he'
  refine ⟨hname ▸ hc.ne, hname ▸ hc.name, isText_of_trim ?_⟩
  intro c hct
  exact hc.value c ((trim_sublist e'.2).subset (hvalue ▸ hct))

/-! ### Headers -/

theorem reason_text : ∀ p ∈ reasons, (str p.2).all isText = true := by decide

theorem obsoleteReason_text (code : ℕ) : ∀ c ∈ obsoleteReason code, isText c = true := by
  unfold obsoleteReason
  cases h : reasons.lookup code with
  | none => exact List.all_eq_true.mp (by decide)
  | some text =>
    obtain ⟨l, l', hl, -⟩ := List.lookup_eq_some_iff.mp h
    exact List.all_eq_true.mp (reason_text (code, text) (by simp [hl]))

theorem reasonText_text {res : StrResponse} :
    (∀ c ∈ res.reasonText, isText c = true) ↔ ∀ c ∈ res.reason, isText c = true := by
  unfold StrResponse.reasonText
  split_ifs with h
  · exact ⟨fun _ => by simp [h], fun _ => obsoleteReason_text _⟩
  · rfl

theorem length_lt_fieldsText (f : Fields) (rest : Str) : f.length < (fieldsText f ++ rest).length := by
  have hlines : ∀ f : Fields, f.length ≤ (f.flatMap fieldLine).length := by
    intro f
    induction f with
    | nil => simp
    | cons e f ih =>
      simp only [List.flatMap_cons, List.length_append, List.length_cons, fieldLine]
      omega
  have := hlines f
  simp only [fieldsText, crlf, List.length_append, List.length_cons, List.length_nil]
  omega

theorem parseFields_gather {f : Fields} (hf : ∀ e ∈ f, CleanField e) (rest : Str) :
    ∃ l, parseFields (fieldsText f ++ rest).length (fieldsText f ++ rest) = .ok l rest ∧
      Fields.gather l = Fields.gather f :=
  ⟨_, parseFields_text hf rest (length_lt_fieldsText f rest), gather_trim f⟩

/-- **A clean request** is read as it was written. -/
theorem parseRequest_text {r : StrRequest} (h : CleanRequest r) (rest : Str) :
    parseRequest (requestText r ++ rest) =
      .ok { r with fields := Fields.gather r.fields, body := [] } rest := by
  have htext : requestText r ++ rest = r.methodString ++ 32 :: (r.target ++ 32 ::
      (versionText r.version ++ (crlf ++ (fieldsText r.fields ++ rest)))) := by
    simp [requestText, h.targetNe]
  have hmethod : ∀ s, parseUpTo isTokenChar 32 (r.methodString ++ 32 :: s) = .ok r.methodString s :=
    parseUpTo_text h.methodNe h.method (by decide)
  have htarget : ∀ s, parseUpTo isPathChar 32 (r.target ++ 32 :: s) = .ok r.target s :=
    parseUpTo_text h.targetNe h.target (by decide)
  obtain ⟨l, hl, hgather⟩ := parseFields_gather h.fields rest
  rw [htext, parseRequest, parseMethod, hmethod, Parsed.bind, parseTarget, htarget, Parsed.bind,
    parseVersion_text h.version, Parsed.bind, show parseCrlf (crlf ++ (fieldsText r.fields ++ rest)) =
      .ok () (fieldsText r.fields ++ rest) from rfl, Parsed.bind, hl, Parsed.map, Parsed.bind, hgather]

/-- **A response** is read as it was written if and only if it is clean. -/
theorem parseResponse_text_iff (res : StrResponse) (rest : Str) :
    parseResponse (responseText res ++ rest) =
        .ok { res with reason := res.reasonText, fields := Fields.gather res.fields, body := [] } rest ↔
      CleanResponse res := by
  constructor
  · intro h
    obtain ⟨version, s1, hversion, h⟩ := ok_of_bind h
    obtain ⟨-, s2, -, h⟩ := ok_of_bind h
    obtain ⟨code, s3, hcode, h⟩ := ok_of_bind h
    obtain ⟨reason, s4, hreason, h⟩ := ok_of_bind h
    obtain ⟨l, hl, h⟩ := ok_of_map h
    obtain ⟨rfl, rfl, rfl, hgather, -⟩ := StrResponse.mk.inj h
    exact ⟨version_of_parseVersion hversion, le_of_parseStatus hcode,
      reasonText_text.mp (text_of_parseTokenToEol hreason),
      clean_of_gather hgather.symm (clean_of_parseFields hl)⟩
  · intro h
    have htext : responseText res ++ rest = versionText res.version ++ 32 :: (statusText res.result ++
        32 :: (res.reasonText ++ (crlf ++ (fieldsText res.fields ++ rest)))) := by
      simp [responseText]
    obtain ⟨l, hl, hgather⟩ := parseFields_gather h.fields rest
    rw [htext, parseResponse, parseVersion_text h.version, Parsed.bind, parseBlank, if_pos rfl,
      Parsed.bind, parseStatus_text h.result, Parsed.bind,
      parseTokenToEol_text (reasonText_text.mpr h.reason), Parsed.bind, hl, Parsed.map, Parsed.bind,
      hgather]

end Jkit.Http.Head
