import Jkit.Lib.Quote
import Mathlib.Data.Int.Notation
import Mathlib.Tactic.SplitIfs

/-! # JSON values and their text

The values are those of `nlohmann::json`, with strings of Unicode characters; the members of an
object stand in the order of its map. `dump` is the compact text of `json::dump()`. A string that is not
UTF-8, for which `dump()` throws `type_error.316`, is outside of this development.

The single quote is nothing special in JSON: it occurs in the text of a value only inside the strings
and the keys, as it stands there, between characters that are not quotes. `dump_local` says so for
any property of the quotes of a text that is checked piece by piece, `collapse_dump` for a text in which
doubled quotes are replaced by single ones. The zero character is escaped, so no text of a value has it
(`zero_notMem_dump`). -/

namespace Jkit.Db.JsonText

open Jkit.Lib.Quote

/-! ### Values -/

/-- A non-empty sequence of decimal digits. -/
structure Digits where
  first : Fin 10
  rest : List (Fin 10)
deriving DecidableEq

/-- A number; a finite floating-point number is given by the sign, the digits and the exponent it is
printed with. -/
inductive Number
  | integer (z : ℤ)
  | float (neg : Bool) (int : Digits) (frac : Option Digits) (exp : Option (Bool × Digits))
  | nonFinite
deriving DecidableEq

/-- `nlohmann::json`. -/
inductive Json
  | null
  | boolean (b : Bool)
  | number (n : Number)
  | string (s : List Char)
  | array (vs : List Json)
  | object (kvs : List (List Char × Json))

/-- Null, a boolean, a number or a string. -/
def Scalar : Json → Prop
  | .array _ => False
  | .object _ => False
  | _ => True

theorem Scalar.cases {v : Json} (h : Scalar v) :
    v = .null ∨ (∃ b, v = .boolean b) ∨ (∃ n, v = .number n) ∨ ∃ s, v = .string s := by
  rcases v with - | b | n | s | vs | kvs
  · exact .inl rfl
  · exact .inr (.inl ⟨b, rfl⟩)
  · exact .inr (.inr (.inl ⟨n, rfl⟩))
  · exact .inr (.inr (.inr ⟨s, rfl⟩))
  · exact absurd h id
  · exact absurd h id

/-! ### Text -/

def Digits.text (d : Digits) : List Char := (d.first :: d.rest).map fun i : Fin 10 => Nat.digitChar i.val

/-- The sign of a number. -/
def sign (neg : Bool) : List Char := if neg then ['-'] else []

/-- The fraction of a number. -/
def fraction : Option Digits → List Char
  | none => []
  | some d => '.' :: d.text

/-- The exponent of a number. -/
def exponent : Option (Bool × Digits) → List Char
  | none => []
  | some (neg, d) => 'e' :: (if neg then '-' else '+') :: d.text

/-- The text of a number; `dump_float` writes `null` if the number is not finite. -/
def Number.text : Number → List Char
  | .integer z => sign (z < 0) ++ Nat.toDigits 10 z.natAbs
  | .float neg int frac exp => sign neg ++ int.text ++ fraction frac ++ exponent exp
  | .nonFinite => ['n', 'u', 'l', 'l']

/-- `snprintf` with `%04x`, for a control character. -/
def hex4 (n : ℕ) : List Char := ['0', '0', Nat.digitChar (n / 16), Nat.digitChar (n % 16)]

/-- What `dump_escaped` writes for one character. -/
def escapeChar (c : Char) : List Char :=
  if c = '\x08' then ['\\', 'b']
  else if c = '\t' then ['\\', 't']
  else if c = '\n' then ['\\', 'n']
  else if c = '\x0c' then ['\\', 'f']
  else if c = '\r' then ['\\', 'r']
  else if c = '"' then ['\\', '"']
  else if c = '\\' then ['\\', '\\']
  else if c.toNat ≤ 0x1f then '\\' :: 'u' :: hex4 c.toNat
  else [c]

/-- A string in double quotes. -/
def quoted (s : List Char) : List Char := '"' :: s.flatMap escapeChar ++ ['"']

mutual

/-- `json::dump()`. -/
def dump : Json → List Char
  | .null => ['n', 'u', 'l', 'l']
  | .boolean true => ['t', 'r', 'u', 'e']
  | .boolean false => ['f', 'a', 'l', 's', 'e']
  | .number n => n.text
  | .string s => quoted s
  | .array vs => '[' :: dumpElems vs ++ [']']
  | .object kvs => '{' :: dumpMembers kvs ++ ['}']

/-- The elements of an array. -/
def dumpElems : List Json → List Char
  | [] => []
  | [v] => dump v
  | v :: w :: vs => dump v ++ ',' :: dumpElems (w :: vs)

/-- The members of an object. -/
def dumpMembers : List (List Char × Json) → List Char
  | [] => []
  | [(k, v)] => quoted k ++ ':' :: dump v
  | (k, v) :: m :: kvs => quoted k ++ ':' :: (dump v ++ ',' :: dumpMembers (m :: kvs))

end

/-- A character that JSON writes as it is; every other one is written longer. -/
theorem escapeChar_cases (c : Char) : escapeChar c = [c] ∧ c ≠ '"' ∧ c ≠ '\\' ∧ 0x1f < c.toNat ∨
    2 ≤ (escapeChar c).length ∧ (c = '"' ∨ c = '\\' ∨ c.toNat ≤ 0x1f) := by
  unfold escapeChar
  split_ifs with h1 h2 h3 h4 h5 h6 h7 h8
  · right; subst h1; decide
  · right; subst h2; decide
  · right; subst h3; decide
  · right; subst h4; decide
  · right; subst h5; decide
  · right; exact ⟨by simp, Or.inl h6⟩
  · right; exact ⟨by simp, Or.inr (Or.inl h7)⟩
  · right; exact ⟨by simp, Or.inr (Or.inr h8)⟩
  · left; exact ⟨rfl, h6, h7, by omega⟩

/-! ### The strings of a value -/

mutual

/-- The strings and the keys of a value, at any depth. -/
def strings : Json → List (List Char)
  | .string s => [s]
  | .array vs => stringsElems vs
  | .object kvs => stringsMembers kvs
  | _ => []

def stringsElems : List Json → List (List Char)
  | [] => []
  | v :: vs => strings v ++ stringsElems vs

def stringsMembers : List (List Char × Json) → List (List Char)
  | [] => []
  | (k, v) :: kvs => k :: strings v ++ stringsMembers kvs

end

/-! ### Single quotes -/

theorem digitChar_ne_quote : ∀ n < 16, '\'' ≠ Nat.digitChar n := by decide

theorem escapeChar_quote : escapeChar '\'' = ['\''] := by decide

theorem escapeChar_of_ne {c : Char} (hc : c ≠ '\'') : escapeChar c ≠ [] ∧ '\'' ∉ escapeChar c := by
  unfold escapeChar
  by_cases hctl : c.toNat ≤ 0x1f
  · have h1 := digitChar_ne_quote (c.toNat / 16) (by omega)
    have h2 := digitChar_ne_quote (c.toNat % 16) (by omega)
    have hhex : '\'' ∉ hex4 c.toNat := by simp [hex4, h1, h2]
    split_ifs <;> simp [hhex]
  · split_ifs <;> simp [hc.symm]

/-- The characters of finite numbers. -/
def numberChar (c : Char) : Bool := c.isDigit || c == '-' || c == '+' || c == '.' || c == 'e'

theorem numberChar_of_isDigit {c : Char} (h : c.isDigit = true) : numberChar c = true := by
  simp [numberChar, h]

theorem numberChar_sign (neg : Bool) : ∀ c ∈ sign neg, numberChar c = true := by
  rcases neg with - | -
  · exact List.all_eq_true.mp (by decide)
  · exact List.all_eq_true.mp (by decide)

theorem numberChar_digits (d : Digits) : ∀ c ∈ d.text, numberChar c = true := by
  intro c hc
  obtain ⟨i, -, rfl⟩ := List.mem_map.mp hc
  exact numberChar_of_isDigit (by simp [Nat.isDigit_digitChar])

theorem numberChar_fraction (frac : Option Digits) : ∀ c ∈ fraction frac, numberChar c = true := by
  rcases frac with - | d
  · simp [fraction]
  · intro c hc
    rcases List.mem_cons.mp hc with rfl | hc
    · decide
    · exact numberChar_digits d c hc

theorem numberChar_exponent (exp : Option (Bool × Digits)) :
    ∀ c ∈ exponent exp, numberChar c = true := by
  rcases exp with - | ⟨neg, d⟩
  · simp [exponent]
  · intro c hc
    rcases List.mem_cons.mp hc with rfl | hc
    · decide
    · rcases List.mem_cons.mp hc with rfl | hc
      · cases neg <;> decide
      · exact numberChar_digits d c hc

theorem numberChar_text {n : Number} (hn : n ≠ .nonFinite) : ∀ c ∈ n.text, numberChar c = true := by
  intro c hc
  rcases n with z | ⟨neg, int, frac, exp⟩ | -
  · rcases List.mem_append.mp hc with hc | hc
    · exact numberChar_sign _ c hc
    · exact numberChar_of_isDigit (Nat.isDigit_of_mem_toDigits (by omega) (by omega) hc)
  · rcases List.mem_append.mp hc with hc | hc
    · rcases List.mem_append.mp hc with hc | hc
      · rcases List.mem_append.mp hc with hc | hc
        · exact numberChar_sign neg c hc
        · exact numberChar_digits int c hc
      · exact numberChar_fraction frac c hc
    · exact numberChar_exponent exp c hc
  · exact absurd rfl hn

/-- The text of a number is free of characters that neither finite numbers nor `null` have. -/
theorem notMem_text {q : Char} (hq : numberChar q = false) (hnull : q ∉ ['n', 'u', 'l', 'l'])
    (n : Number) : q ∉ n.text := by
  intro h
  by_cases hn : n = .nonFinite
  · subst hn
    exact hnull h
  · have := numberChar_text hn q h
    rw [hq] at this
    cases this

theorem quote_notMem_text (n : Number) : '\'' ∉ n.text := notMem_text (by decide) (by decide) n

/-- A property of the quotes of a text that is checked piece by piece, where the pieces are separated
by characters that are not quotes, and that escaping does not change. -/
structure Local (Φ : List Char → Prop) : Prop where
  nil : Φ []
  sep : ∀ {c}, c ≠ '\'' → ∀ a b, Φ (a ++ c :: b) ↔ Φ a ∧ Φ b
  escape : ∀ s, Φ (s.flatMap escapeChar) ↔ Φ s

theorem local_notMem : Local ('\'' ∉ ·) where
  nil := by simp
  sep hc a b := by simp [hc.symm]
  escape s := by
    simp only [List.mem_flatMap, not_exists, not_and]
    constructor
    · intro h hs
      exact h _ hs (by simp [escapeChar_quote])
    · rintro h c hc
      exact (escapeChar_of_ne (by rintro rfl; exact h hc)).2

theorem local_paired : Local (paired '\'' · = true) where
  nil := rfl
  sep hc a b := by rw [paired_append_cons hc, Bool.and_eq_true]
  escape s := by rw [paired_flatMap escapeChar_quote fun c => escapeChar_of_ne]

variable {Φ : List Char → Prop}

theorem Local.cons (h : Local Φ) {c : Char} (hc : c ≠ '\'') (b : List Char) :
    Φ (c :: b) ↔ Φ b := by
  have := h.sep hc [] b
  simpa [h.nil] using this

theorem Local.plain (h : Local Φ) : ∀ {s : List Char}, '\'' ∉ s → Φ s
  | [], _ => h.nil
  | c :: s, hs => by
    obtain ⟨hc, hs⟩ := List.ne_and_not_mem_of_not_mem_cons hs
    exact (h.cons hc.symm s).mpr (h.plain hs)

theorem Local.quoted (h : Local Φ) (k : List Char) : Φ (quoted k) ↔ Φ k := by
  unfold JsonText.quoted
  rw [List.cons_append, h.cons (by decide), h.sep (by decide), h.escape]
  simp [h.nil]

mutual

/-- **The text of a value has the property exactly if its strings and its keys have it.** -/
theorem dump_local (h : Local Φ) : ∀ v, Φ (dump v) ↔ ∀ s ∈ strings v, Φ s
  | .null => by simp [dump, strings, h.plain]
  | .boolean true => by simp [dump, strings, h.plain]
  | .boolean false => by simp [dump, strings, h.plain]
  | .number n => by simp [dump, strings, h.plain (quote_notMem_text n)]
  | .string s => by simp [dump, strings, h.quoted]
  | .array vs => by
    rw [dump, List.cons_append, h.cons (by decide), h.sep (by decide), dumpElems_local h vs]
    simp [strings, h.nil]
  | .object kvs => by
    rw [dump, List.cons_append, h.cons (by decide), h.sep (by decide), dumpMembers_local h kvs]
    simp [strings, h.nil]

theorem dumpElems_local (h : Local Φ) : ∀ vs, Φ (dumpElems vs) ↔ ∀ s ∈ stringsElems vs, Φ s
  | [] => by simp [dumpElems, stringsElems, h.nil]
  | [v] => by simp [dumpElems, stringsElems, dump_local h v]
  | v :: w :: vs => by
    rw [dumpElems, h.sep (by decide), dump_local h v, dumpElems_local h (w :: vs)]
    simp only [stringsElems, List.mem_append, or_imp, forall_and]

theorem dumpMembers_local (h : Local Φ) :
    ∀ kvs, Φ (dumpMembers kvs) ↔ ∀ s ∈ stringsMembers kvs, Φ s
  | [] => by simp [dumpMembers, stringsMembers, h.nil]
  | [(k, v)] => by
    rw [dumpMembers, h.sep (by decide), h.quoted, dump_local h v]
    simp [stringsMembers]
  | (k, v) :: m :: kvs => by
    rw [dumpMembers, h.sep (by decide), h.quoted, h.sep (by decide), dump_local h v,
      dumpMembers_local h (m :: kvs)]
    simp [stringsMembers, or_imp, forall_and]

end

/-! ### The zero character -/

theorem digitChar_ne_zero : ∀ n < 16, '\x00' ≠ Nat.digitChar n := by decide

theorem zero_notMem_escapeChar (c : Char) : '\x00' ∉ escapeChar c := by
  unfold escapeChar
  by_cases hctl : c.toNat ≤ 0x1f
  · have h1 := digitChar_ne_zero (c.toNat / 16) (by omega)
    have h2 := digitChar_ne_zero (c.toNat % 16) (by omega)
    have hhex : '\x00' ∉ hex4 c.toNat := by simp [hex4, h1, h2]
    split_ifs <;> simp [hhex]
  · have hc : '\x00' ≠ c := by
      rintro rfl
      exact hctl (by decide)
    split_ifs <;> simp [hc]

theorem zero_notMem_quoted (s : List Char) : '\x00' ∉ quoted s := by
  simp [quoted, zero_notMem_escapeChar]

mutual

theorem zero_notMem_dump : ∀ v, '\x00' ∉ dump v
  | .null => by simp [dump]
  | .boolean true => by simp [dump]
  | .boolean false => by simp [dump]
  | .number n => notMem_text (by decide) (by decide) n
  | .string s => zero_notMem_quoted s
  | .array vs => by
    have h := zero_notMem_dumpElems vs
    simp [dump, h]
  | .object kvs => by
    have h := zero_notMem_dumpMembers kvs
    simp [dump, h]

theorem zero_notMem_dumpElems : ∀ vs, '\x00' ∉ dumpElems vs
  | [] => by simp [dumpElems]
  | [v] => zero_notMem_dump v
  | v :: w :: vs => by
    have hv := zero_notMem_dump v
    have hvs := zero_notMem_dumpElems (w :: vs)
    simp [dumpElems, hv, hvs]

theorem zero_notMem_dumpMembers : ∀ kvs, '\x00' ∉ dumpMembers kvs
  | [] => by simp [dumpMembers]
  | [(k, v)] => by
    have hv := zero_notMem_dump v
    simp [dumpMembers, zero_notMem_quoted, hv]
  | (k, v) :: m :: kvs => by
    have hv := zero_notMem_dump v
    have hm := zero_notMem_dumpMembers (m :: kvs)
    simp [dumpMembers, zero_notMem_quoted, hv, hm]

end

/-! ### Texts with collapsed quotes -/

mutual

/-- The value with its strings and its keys changed by `f`. -/
def mapStrings (f : List Char → List Char) : Json → Json
  | .string s => .string (f s)
  | .array vs => .array (mapElems f vs)
  | .object kvs => .object (mapMembers f kvs)
  | v => v

def mapElems (f : List Char → List Char) : List Json → List Json
  | [] => []
  | v :: vs => mapStrings f v :: mapElems f vs

def mapMembers (f : List Char → List Char) : List (List Char × Json) → List (List Char × Json)
  | [] => []
  | (k, v) :: kvs => (f k, mapStrings f v) :: mapMembers f kvs

end

theorem collapse_quoted {s : List Char} (h : paired '\'' s = true) :
    collapse '\'' (quoted s) = quoted (collapse '\'' s) := by
  have hesc : paired '\'' (s.flatMap escapeChar) = true := (local_paired.escape s).mpr h
  unfold quoted
  rw [List.cons_append, collapse_cons (by decide), collapse_append_cons (by decide) hesc,
    collapse_flatMap escapeChar_quote (fun c hc => (escapeChar_of_ne hc).2) h]
  rfl

mutual

/-- Collapsing the quotes of a text collapses them in each string and each key. -/
theorem collapse_dump : ∀ v, (∀ s ∈ strings v, paired '\'' s = true) →
    collapse '\'' (dump v) = dump (mapStrings (collapse '\'') v)
  | .null, _ => by decide
  | .boolean true, _ => by decide
  | .boolean false, _ => by decide
  | .number n, _ => collapse_of_notMem (quote_notMem_text n)
  | .string s, h => collapse_quoted (h s (by simp [strings]))
  | .array vs, h => by
    have hp := (dumpElems_local local_paired vs).mpr h
    rw [dump, List.cons_append, collapse_cons (by decide), collapse_append_cons (by decide) hp,
      collapse_elems vs h, mapStrings, dump]
    rfl
  | .object kvs, h => by
    have hp := (dumpMembers_local local_paired kvs).mpr h
    rw [dump, List.cons_append, collapse_cons (by decide), collapse_append_cons (by decide) hp,
      collapse_members kvs h, mapStrings, dump]
    rfl

theorem collapse_elems : ∀ vs, (∀ s ∈ stringsElems vs, paired '\'' s = true) →
    collapse '\'' (dumpElems vs) = dumpElems (mapElems (collapse '\'') vs)
  | [], _ => rfl
  | [v], h => collapse_dump v fun s hs => h s (by simp [stringsElems, hs])
  | v :: w :: vs, h => by
    have hv : ∀ s ∈ strings v, paired '\'' s = true := fun s hs => h s (by simp [stringsElems, hs])
    have hw : ∀ s ∈ stringsElems (w :: vs), paired '\'' s = true := fun s hs =>
      h s (by rw [stringsElems]; exact List.mem_append_right _ hs)
    rw [dumpElems, collapse_append_cons (by decide) ((dump_local local_paired v).mpr hv),
      collapse_dump v hv, collapse_elems (w :: vs) hw]
    simp only [mapElems, dumpElems]

theorem collapse_members : ∀ kvs, (∀ s ∈ stringsMembers kvs, paired '\'' s = true) →
    collapse '\'' (dumpMembers kvs) = dumpMembers (mapMembers (collapse '\'') kvs)
  | [], _ => rfl
  | [(k, v)], h => by
    have hk : paired '\'' k = true := h k (by simp [stringsMembers])
    have hv : ∀ s ∈ strings v, paired '\'' s = true := fun s hs => h s (by simp [stringsMembers, hs])
    rw [dumpMembers, collapse_append_cons (by decide) ((local_paired.quoted k).mpr hk),
      collapse_quoted hk, collapse_dump v hv]
    simp only [mapMembers, dumpMembers]
  | (k, v) :: m :: kvs, h => by
    have hk : paired '\'' k = true := h k (by simp [stringsMembers])
    have hv : ∀ s ∈ strings v, paired '\'' s = true := fun s hs => h s (by simp [stringsMembers, hs])
    have hm : ∀ s ∈ stringsMembers (m :: kvs), paired '\'' s = true := fun s hs =>
      h s (by rw [stringsMembers]; exact List.mem_append_right _ hs)
    rw [dumpMembers, collapse_append_cons (by decide) ((local_paired.quoted k).mpr hk),
      collapse_quoted hk, collapse_append_cons (by decide) ((dump_local local_paired v).mpr hv),
      collapse_dump v hv, collapse_members (m :: kvs) hm]
    obtain ⟨k', v'⟩ := m
    simp only [mapMembers, dumpMembers]

end

end Jkit.Db.JsonText
