import Jkit.Lib.Scan
import Mathlib

/-! # Names in PostgreSQL

A name without quotes is folded to lower case, and 63 bytes of it are kept. The name of a column is no
reserved key word (`readName`); behind a dot any key word is a name (`readLabel`). A table may be qualified by
the names of a schema and of a database (`readTable`).

What is read as a name is one, it is read as itself (`isName_of_readName`, `isTable_of_readTable`), and this
does not depend on what stands behind it (`readName_stops`, `readTable_stops`). -/

namespace Jkit.Db.SqlName

open Jkit.Lib.Scan

/-! ### The reader -/

def nameStart (c : Char) : Bool := c.isAlpha || c == '_' || decide (0x80 ≤ c.toNat)

def nameChar (c : Char) : Bool := nameStart c || c.isDigit || c == '$'

/-- The key words that are no names of columns. -/
def reserved : List String :=
  ["all", "analyse", "analyze", "and", "any", "array", "as", "asc", "asymmetric", "authorization",
    "binary", "both", "case", "cast", "check", "collate", "collation", "column", "concurrently",
    "constraint", "create", "cross", "current_catalog", "current_date", "current_role",
    "current_schema", "current_time", "current_timestamp", "current_user", "default", "deferrable",
    "desc", "distinct", "do", "else", "end", "except", "false", "fetch", "for", "foreign", "freeze",
    "from", "full", "grant", "group", "having", "ilike", "in", "initially", "inner", "intersect",
    "into", "is", "isnull", "join", "lateral", "leading", "left", "like", "limit", "localtime",
    "localtimestamp", "natural", "not", "notnull", "null", "offset", "on", "only", "or", "order",
    "outer", "overlaps", "placing", "primary", "references", "returning", "right", "select",
    "session_user", "similar", "some", "symmetric", "table", "tablesample", "then", "to", "trailing",
    "true", "union", "unique", "user", "using", "variadic", "verbose", "when", "where", "window",
    "with"]

/-- The longest beginning of a text that has at most `n` bytes. -/
def clip (n : ℕ) : List Char → List Char
  | [] => []
  | c :: s => if c.utf8Size ≤ n then c :: clip (n - c.utf8Size) s else []

/-- A name without quotes is folded to lower case, and PostgreSQL keeps 63 bytes of it. -/
def fold (s : List Char) : List Char := clip 63 (s.map Char.toLower)

/-- A name that may be a key word. -/
def readLabel (s : List Char) : Option (List Char × List Char) :=
  let name := fold (s.takeWhile nameChar)
  if name.head?.any nameStart then some (name, s.dropWhile nameChar) else none

/-- The name of a column. -/
def readName (s : List Char) : Option (List Char × List Char) :=
  (readLabel s).filter fun x => String.ofList x.1 ∉ reserved

/-- SQL reads the text as that name, which may be a key word. -/
def IsLabel (k : List Char) : Prop := readLabel k = some (k, [])

instance : DecidablePred IsLabel := fun k => inferInstanceAs (Decidable (readLabel k = some (k, [])))

/-- SQL reads the text as the column of that name. -/
def IsName (k : List Char) : Prop := readName k = some (k, [])

instance : DecidablePred IsName := fun k => inferInstanceAs (Decidable (readName k = some (k, [])))

def tableChar (c : Char) : Bool := nameChar c || c == '.'

/-- The parts of the name of a table: at most two of them stand behind a dot. -/
def Qualified : List (List Char) → Prop
  | [] => False
  | part :: parts => IsName part ∧ (∀ p ∈ parts, IsLabel p) ∧ parts.length ≤ 2

instance : DecidablePred Qualified
  | [] => inferInstanceAs (Decidable False)
  | part :: parts =>
    inferInstanceAs (Decidable (IsName part ∧ (∀ p ∈ parts, IsLabel p) ∧ parts.length ≤ 2))

/-- The name of a table, with the names that qualify it in front. -/
def readTable (s : List Char) : Option (List Char × List Char) :=
  let parts := ((s.takeWhile tableChar).splitOn '.').map fold
  if Qualified parts then some (['.'].intercalate parts, s.dropWhile tableChar) else none

/-- SQL reads the text as the table of that name. -/
def IsTable (t : List Char) : Prop := readTable t = some (t, [])

instance : DecidablePred IsTable := fun t => inferInstanceAs (Decidable (readTable t = some (t, [])))

/-! ### Names -/

theorem toLower_cases (c : Char) : c.toLower = c ∨ c.toLower.isAlpha = true := by
  by_cases h : c.isUpper = true
  · right
    simp [Char.isAlpha, h]
  · left
    exact Char.toLower_eq_of_not_isUpper h

theorem nameChar_toLower {c : Char} (h : nameChar c = true) : nameChar c.toLower = true := by
  rcases toLower_cases c with hc | hc
  · rwa [hc]
  · simp [nameChar, nameStart, hc]

theorem takeWhile_of_forall {p : Char → Bool} {s : List Char} (h : ∀ c ∈ s, p c = true) :
    s.takeWhile p = s ∧ s.dropWhile p = [] :=
  ⟨List.takeWhile_eq_self_iff.mpr h, List.dropWhile_eq_nil_iff.mpr h⟩

theorem mem_of_mem_clip {c : Char} {s : List Char} : ∀ {n : ℕ}, c ∈ clip n s → c ∈ s := by
  induction s with
  | nil => simp [clip]
  | cons d s ih =>
    intro n hc
    rw [clip] at hc
    split_ifs at hc with hd
    · rcases List.mem_cons.mp hc with rfl | hc
      · exact List.mem_cons_self
      · exact List.mem_cons_of_mem _ (ih hc)
    · simp at hc

theorem clip_clip (s : List Char) : ∀ n : ℕ, clip n (clip n s) = clip n s := by
  induction s with
  | nil => simp [clip]
  | cons c s ih =>
    intro n
    by_cases hc : c.utf8Size ≤ n
    · simp [clip, hc, ih]
    · simp [clip, hc]

/-- A folded name stays as it is. -/
theorem fold_fold (s : List Char) : fold (fold s) = fold s := by
  have hlow : (fold s).map Char.toLower = (fold s).map id := by
    refine List.map_congr_left fun c hc => ?_
    obtain ⟨d, -, rfl⟩ := List.mem_map.mp (mem_of_mem_clip hc)
    exact Char.toLower_toLower_eq_toLower d
  rw [List.map_id] at hlow
  rw [fold, hlow, fold, clip_clip]

theorem nameChar_fold {s : List Char} (h : ∀ c ∈ s, nameChar c = true) : ∀ c ∈ fold s, nameChar c = true := by
  intro c hc
  obtain ⟨d, hd, rfl⟩ := List.mem_map.mp (mem_of_mem_clip hc)
  exact nameChar_toLower (h d hd)

/-- A label is a folded run of the characters of a name. -/
theorem isLabel_of_readLabel {s k r : List Char} (h : readLabel s = some (k, r)) : IsLabel k := by
  unfold readLabel at h
  dsimp only at h
  split_ifs at h with hk
  obtain ⟨rfl, rfl⟩ := Prod.mk.inj (Option.some.inj h)
  obtain ⟨h1, h2⟩ := takeWhile_of_forall
    (nameChar_fold fun c hc => List.mem_takeWhile_imp (l := s) (p := nameChar) hc)
  unfold IsLabel readLabel
  dsimp only
  rw [h1, h2, fold_fold, if_pos hk]

theorem IsLabel.fold_takeWhile {k : List Char} (h : IsLabel k) : fold (k.takeWhile nameChar) = k := by
  unfold IsLabel readLabel at h
  dsimp only at h
  split_ifs at h
  exact (Prod.mk.inj (Option.some.inj h)).1

theorem IsLabel.chars {k : List Char} (h : IsLabel k) : ∀ c ∈ k, nameChar c = true := by
  rw [← h.fold_takeWhile]
  exact nameChar_fold fun c hc => List.mem_takeWhile_imp hc

theorem IsLabel.folded {k : List Char} (h : IsLabel k) : fold k = k := by
  rw [← h.fold_takeWhile, fold_fold]

/-- What stands behind a name does not change it. -/
theorem readLabel_stops {r : List Char} (hr : Stops nameChar r) (k : List Char) :
    readLabel (k ++ r) = (readLabel k).map fun x => (x.1, x.2 ++ r) := by
  obtain ⟨h1, h2⟩ := scan_stops hr k
  unfold readLabel
  dsimp only
  rw [h1, h2]
  split_ifs with hk
  · rfl
  · rfl

theorem readName_eq_some {s k r : List Char} :
    readName s = some (k, r) ↔ readLabel s = some (k, r) ∧ String.ofList k ∉ reserved := by
  simp [readName]

theorem isName_iff {k : List Char} : IsName k ↔ IsLabel k ∧ String.ofList k ∉ reserved :=
  readName_eq_some

/-- What is read as a name is one. -/
theorem isName_of_readName {s k r : List Char} (h : readName s = some (k, r)) : IsName k := by
  obtain ⟨hlabel, hres⟩ := readName_eq_some.mp h
  exact isName_iff.mpr ⟨isLabel_of_readLabel hlabel, hres⟩

/-- A label is read in front of a character that it cannot have. -/
theorem IsLabel.readLabel_append {k r : List Char} (h : IsLabel k) (hr : Stops nameChar r) :
    readLabel (k ++ r) = some (k, r) := by
  rw [readLabel_stops hr, h]
  rfl

theorem readName_stops {k r : List Char} (h : IsName k) (hr : Stops nameChar r) :
    readName (k ++ r) = some (k, r) := by
  obtain ⟨hlabel, hres⟩ := isName_iff.mp h
  exact readName_eq_some.mpr ⟨hlabel.readLabel_append hr, hres⟩

/-! ### Tables -/

theorem Qualified.isLabel {parts : List (List Char)} (h : Qualified parts) : ∀ p ∈ parts, IsLabel p := by
  rcases parts with - | ⟨part, parts⟩
  · exact absurd h id
  · obtain ⟨hpart, hparts, -⟩ := h
    exact List.forall_mem_cons.mpr ⟨(isName_iff.mp hpart).1, hparts⟩

theorem Qualified.ne_nil {parts : List (List Char)} (h : Qualified parts) : parts ≠ [] := by
  rintro rfl
  exact h

theorem mem_intercalate {b c : Char} {parts : List (List Char)} (h : c ∈ [b].intercalate parts) :
    c = b ∨ ∃ p ∈ parts, c ∈ p := by
  induction parts with
  | nil => simp at h
  | cons p parts ih =>
    rcases parts with - | ⟨q, parts⟩
    · exact Or.inr ⟨p, by simpa using h⟩
    · rw [List.intercalate_cons_cons, List.mem_append, List.mem_append, List.mem_singleton] at h
      rcases h with (hp | hb) | hq
      · exact Or.inr ⟨p, List.mem_cons_self, hp⟩
      · exact Or.inl hb
      · rcases ih hq with hb | ⟨q', hq', hc⟩
        · exact Or.inl hb
        · exact Or.inr ⟨q', List.mem_cons_of_mem _ hq', hc⟩

/-- The name of a table that is put together from its parts. -/
theorem isTable_of_qualified {parts : List (List Char)} (h : Qualified parts) :
    IsTable (['.'].intercalate parts) := by
  have hall : ∀ c ∈ ['.'].intercalate parts, tableChar c = true := by
    intro c hc
    rcases mem_intercalate hc with rfl | ⟨p, hp, hcp⟩
    · rfl
    · simp [tableChar, (h.isLabel p hp).chars c hcp]
  have hdot : ∀ p ∈ parts, '.' ∉ p := by
    intro p hp hc
    exact absurd ((h.isLabel p hp).chars '.' hc) (by decide)
  have hfold : parts.map fold = parts.map id := List.map_congr_left fun p hp => (h.isLabel p hp).folded
  obtain ⟨h1, h2⟩ := takeWhile_of_forall hall
  unfold IsTable readTable
  dsimp only
  rw [h1, h2, List.splitOn_intercalate '.' hdot h.ne_nil, hfold, List.map_id, if_pos h]

/-- What is read as a table is one. -/
theorem isTable_of_readTable {s t r : List Char} (h : readTable s = some (t, r)) : IsTable t := by
  unfold readTable at h
  dsimp only at h
  split_ifs at h with hparts
  obtain ⟨rfl, -⟩ := Prod.mk.inj (Option.some.inj h)
  exact isTable_of_qualified hparts

theorem readTable_stops {t r : List Char} (h : IsTable t) (hr : Stops tableChar r) :
    readTable (t ++ r) = some (t, r) := by
  obtain ⟨h1, h2⟩ := scan_stops hr t
  unfold IsTable at h
  unfold readTable at h ⊢
  dsimp only at h ⊢
  rw [h1, h2]
  split_ifs at h ⊢ with hparts
  obtain ⟨ht1, ht2⟩ := Prod.mk.inj (Option.some.inj h)
  rw [ht1, ht2]
  rfl

/-- Behind a dot a key word is a name; no table has four parts. -/
example : IsTable "public.user".toList ∧ ¬IsTable "user".toList ∧ ¬IsTable "a.b.c.d".toList := by decide

end Jkit.Db.SqlName
