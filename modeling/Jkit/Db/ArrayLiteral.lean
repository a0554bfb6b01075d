import Jkit.Db.Json2Sql

/-! # JSON arrays as array literals of PostgreSQL

`value_to_sql_str` takes the JSON text of an array for an array literal, with braces for the outermost
brackets. `readArray` reads a literal by PostgreSQL's input syntax for arrays, one character at a time.
The two languages agree on numbers, key words and on strings in which JSON escapes nothing but `"` and
`\`. They differ in three places: an inner array keeps its brackets and is read as a text, an escaped
control character is read as the letters of its escape, and a single quote ends the SQL string or stands
for half of a pair. `arrayLiteral_iff` says that these, and numbers without a JSON text, are all. -/

namespace Jkit.Db.ArrayLiteral

open Jkit.Lib.Quote Jkit.Db.JsonText Jkit.Db.SqlConst Jkit.Db.Json2Sql

/-! ### The reader -/

/-- The value of an array literal: its elements are texts for the input function of their type. -/
inductive Pg
  | null
  | text (s : List Char)
  | array (ps : List Pg)

/-- Where the reader stands in the innermost array. -/
inductive Item
  /-- before an element; only an array without elements may end here -/
  | fresh (first : Bool)
  /-- in an element without quotes; the flag says that it has a backslash -/
  | bare (acc : List Char) (escaped : Bool)
  /-- behind a backslash of such an element -/
  | bareEscape (acc : List Char)
  | quoted (acc : List Char)
  | quotedEscape (acc : List Char)
  /-- behind a quoted element or an inner array -/
  | closed

/-- The elements of the open arrays, the innermost first. -/
inductive Reader
  | start
  | elem (top : List Pg) (below : List (List Pg)) (item : Item)
  | done (p : Pg)

/-- An element without quotes; `NULL` in any case is null. -/
def bareValue (acc : List Char) (escaped : Bool) : Pg :=
  if escaped = false ∧ acc.map Char.toLower = ['n', 'u', 'l', 'l'] then .null else .text acc

/-- A closing brace. -/
def close (top : List Pg) : List (List Pg) → Reader
  | [] => .done (.array top)
  | t :: below => .elem (t ++ [.array top]) below .closed

/-- What may follow an element. -/
def separator (top : List Pg) (below : List (List Pg)) (c : Char) : Option Reader :=
  if c = ',' then some (.elem top below (.fresh false))
  else if c = '}' then some (close top below)
  else none

def step : Reader → Char → Option Reader
  | .start, c => if c = '{' then some (.elem [] [] (.fresh true)) else none
  | .elem top below (.fresh first), c =>
    if c = '{' then some (.elem [] (top :: below) (.fresh true))
    else if c = '"' then some (.elem top below (.quoted []))
    else if c = '\\' then some (.elem top below (.bareEscape []))
    else if c = '}' then if first then some (close top below) else none
    else if c = ',' then none
    else some (.elem top below (.bare [c] false))
  | .elem top below (.bare acc escaped), c =>
    if c = ',' ∨ c = '}' then separator (top ++ [bareValue acc escaped]) below c
    else if c = '"' ∨ c = '{' then none
    else if c = '\\' then some (.elem top below (.bareEscape acc))
    else some (.elem top below (.bare (acc ++ [c]) escaped))
  | .elem top below (.bareEscape acc), c => some (.elem top below (.bare (acc ++ [c]) true))
  | .elem top below (.quoted acc), c =>
    if c = '"' then some (.elem (top ++ [.text acc]) below .closed)
    else if c = '\\' then some (.elem top below (.quotedEscape acc))
    else some (.elem top below (.quoted (acc ++ [c])))
  | .elem top below (.quotedEscape acc), c => some (.elem top below (.quoted (acc ++ [c])))
  | .elem top below .closed, c => separator top below c
  | .done _, _ => none

/-- The array a literal denotes. -/
def readArray (s : List Char) : Option Pg :=
  match s.foldlM step .start with
  | some (.done p) => some p
  | _ => none

example : readArray "\x7b\x7b1,null\x7d,\x7b\"a\\\"\"\x7d\x7d".toList =
    some (.array [.array [.text ['1'], .null], .array [.text ['a', '"']]]) := rfl

/-! ### What a literal should denote -/

/-- The texts of a number; those of a number that is not finite are PostgreSQL's. -/
def NumberText : Number → List Char → Prop
  | .nonFinite, t => t ∈ [['N', 'a', 'N'], ['I', 'n', 'f', 'i', 'n', 'i', 't', 'y'],
      ['-', 'I', 'n', 'f', 'i', 'n', 'i', 't', 'y']]
  | n, t => t = n.text

mutual

/-- The same nesting, length and leaves. -/
def Denotes : Json → Pg → Prop
  | .null, .null => True
  | .boolean b, .text t => t = dump (.boolean b)
  | .number n, .text t => NumberText n t
  | .string s, .text t => t = s
  | .array vs, .array ps => DenotesElems vs ps
  | _, _ => False

def DenotesElems : List Json → List Pg → Prop
  | [], [] => True
  | v :: vs, p :: ps => Denotes v p ∧ DenotesElems vs ps
  | _, _ => False

end

/-- The text of the array is one SQL constant, which is read as an array that denotes it. -/
def ReadBack (vs : List Json) : Prop :=
  ∃ c p, readConst (valueToSqlStr (.array vs)) = some (.string c, []) ∧ readArray c = some p ∧
    Denotes (.array vs) p

/-- Null, a boolean, a finite number, or a string without single quotes and control characters. -/
def Leaf : Json → Prop
  | .null => True
  | .boolean _ => True
  | .number n => n ≠ .nonFinite
  | .string s => ∀ c ∈ s, c ≠ '\'' ∧ 0x1f < c.toNat
  | _ => False

/-! ### The runs of the reader -/

/-- The elements of the outermost array so far. -/
def outer : Reader → List Pg
  | .start => []
  | .elem top below _ => below.getLast?.getD top
  | .done (.array ps) => ps
  | .done _ => []

/-- An element more in the innermost array does not change the beginning of the outermost one. -/
theorem prefix_getD_append (top : List Pg) (below : List (List Pg)) (p : Pg) :
    below.getLast?.getD top <+: below.getLast?.getD (top ++ [p]) := by
  rcases below.getLast? with - | t
  · exact List.prefix_append top [p]
  · exact List.prefix_rfl

theorem outer_close (top : List Pg) (below : List (List Pg)) :
    below.getLast?.getD top <+: outer (close top below) := by
  rcases below with - | ⟨t, below⟩
  · exact List.prefix_rfl
  · rw [List.getLast?_cons]
    exact prefix_getD_append t below (.array top)

theorem outer_open (top : List Pg) (below : List (List Pg)) (item : Item) :
    outer (.elem [] (top :: below) item) = below.getLast?.getD top := by
  rw [outer, List.getLast?_cons]
  rfl

theorem prefix_outer {l : List Pg} {r r' : Reader} (h : some r = some r') (hr : l <+: outer r) :
    l <+: outer r' := by
  rwa [← Option.some.inj h]

theorem outer_separator {top : List Pg} {below : List (List Pg)} {c : Char} {r : Reader}
    (h : separator top below c = some r) : below.getLast?.getD top <+: outer r := by
  unfold separator at h
  split_ifs at h with h1 h2
  · exact prefix_outer h List.prefix_rfl
  · exact prefix_outer h (outer_close top below)

/-- A step only adds to the outermost array. -/
theorem outer_grows {r r' : Reader} {c : Char} (h : step r c = some r') : outer r <+: outer r' := by
  rcases r with - | ⟨top, below, item⟩ | p
  · exact List.nil_prefix
  · rcases item with first | ⟨acc, escaped⟩ | acc | acc | acc | -
    · simp only [step] at h
      split_ifs at h with h1 h2 h3 h4 h5 h6
      · exact prefix_outer h (outer_open top below _ ▸ List.prefix_rfl)
      · exact prefix_outer h List.prefix_rfl
      · exact prefix_outer h List.prefix_rfl
      · exact prefix_outer h (outer_close top below)
      · exact prefix_outer h List.prefix_rfl
    · simp only [step] at h
      split_ifs at h with h1 h2 h3
      · exact (prefix_getD_append top below _).trans (outer_separator h)
      · exact prefix_outer h List.prefix_rfl
      · exact prefix_outer h List.prefix_rfl
    · exact prefix_outer h List.prefix_rfl
    · simp only [step] at h
      split_ifs at h with h1 h2
      · exact prefix_outer h (prefix_getD_append top below _)
      · exact prefix_outer h List.prefix_rfl
      · exact prefix_outer h List.prefix_rfl
    · exact prefix_outer h List.prefix_rfl
    · exact outer_separator h
  · exact absurd h (by simp [step])

theorem outer_grows_run {s : List Char} {r r' : Reader} (h : s.foldlM step r = some r') :
    outer r <+: outer r' := by
  induction s generalizing r with
  | nil =>
    obtain rfl := Option.some.inj h
    exact List.prefix_rfl
  | cons c s ih =>
    rw [List.foldlM_cons] at h
    obtain ⟨r1, h1, h2⟩ := Option.bind_eq_some_iff.mp h
    exact (outer_grows h1).trans (ih h2)

/-! ### Elements -/

/-- A character that means nothing special in an element without quotes. -/
def plainChar (c : Char) : Bool := c != ',' && c != '}' && c != '{' && c != '"' && c != '\\'

theorem plainChar_of_numberChar {c : Char} (h : numberChar c = true) : plainChar c = true := by
  simp only [plainChar, Bool.and_eq_true, bne_iff_ne, ne_eq]
  refine ⟨⟨⟨⟨?_, ?_⟩, ?_⟩, ?_⟩, ?_⟩
  all_goals rintro rfl; exact absurd h (by decide)

theorem step_bare (top : List Pg) (below : List (List Pg)) (acc : List Char) (escaped : Bool) {c : Char}
    (h : plainChar c = true) : step (.elem top below (.bare acc escaped)) c =
      some (.elem top below (.bare (acc ++ [c]) escaped)) := by
  simp only [plainChar, Bool.and_eq_true, bne_iff_ne, ne_eq] at h
  simp [step, h]

theorem run_bare (top : List Pg) (below : List (List Pg)) (escaped : Bool) {s : List Char}
    (h : ∀ c ∈ s, plainChar c = true) (acc : List Char) :
    s.foldlM step (.elem top below (.bare acc escaped)) =
      some (.elem top below (.bare (acc ++ s) escaped)) := by
  induction s generalizing acc with
  | nil => simp
  | cons c s ih =>
    rw [List.foldlM_cons, step_bare top below acc escaped (h c List.mem_cons_self)]
    refine (ih (fun d hd => h d (List.mem_cons_of_mem _ hd)) (acc ++ [c])).trans ?_
    simp

/-- An element without quotes, and what follows it. -/
theorem run_bare_separator (top : List Pg) (below : List (List Pg)) (first : Bool) {s : List Char}
    (hs : s ≠ []) (h : ∀ c ∈ s, plainChar c = true) {c : Char} (hc : c = ',' ∨ c = '}') (t : List Char) :
    (s ++ c :: t).foldlM step (.elem top below (.fresh first)) =
      (c :: t).foldlM step (.elem (top ++ [bareValue s false]) below .closed) := by
  obtain ⟨d, s, rfl⟩ := List.exists_cons_of_ne_nil hs
  have hd := h d List.mem_cons_self
  have hfresh : step (.elem top below (.fresh first)) d =
      some (.elem top below (.bare [d] false)) := by
    simp only [plainChar, Bool.and_eq_true, bne_iff_ne, ne_eq] at hd
    simp [step, hd]
  have hrun := run_bare top below false (fun e he => h e (List.mem_cons_of_mem _ he)) [d]
  have hsep : step (.elem top below (.bare (d :: s) false)) c =
      step (.elem (top ++ [bareValue (d :: s) false]) below .closed) c := by
    simp only [step, if_pos hc]
  calc (d :: s ++ c :: t).foldlM step (.elem top below (.fresh first))
      = (s ++ c :: t).foldlM step (.elem top below (.bare [d] false)) := by
        rw [List.cons_append, List.foldlM_cons, hfresh]
        rfl
    _ = (c :: t).foldlM step (.elem top below (.bare (d :: s) false)) := by
        rw [List.foldlM_append, hrun]
        rfl
    _ = (c :: t).foldlM step (.elem (top ++ [bareValue (d :: s) false]) below .closed) := by
        rw [List.foldlM_cons, List.foldlM_cons, hsep]

/-- What a backslash that only protects the next character leaves of an escape. -/
def rereadChar (c : Char) : List Char :=
  match escapeChar c with
  | '\\' :: r => r
  | r => r

/-- What the reader makes of a string in JSON's escapes. -/
def reread (s : List Char) : List Char := s.flatMap rereadChar

theorem digitChar_plain : ∀ n < 16, Nat.digitChar n ≠ '"' ∧ Nat.digitChar n ≠ '\\' ∧
    0x1f < (Nat.digitChar n).toNat := by decide

/-- The escape of a control character has no other special characters in it. -/
theorem escapeChar_control {c : Char} (h : c.toNat ≤ 0x1f) : ∃ x r, escapeChar c = '\\' :: x :: r ∧
    (∀ d ∈ r, d ≠ '"' ∧ d ≠ '\\') ∧ ∀ d ∈ x :: r, 0x1f < d.toNat := by
  have h1 := digitChar_plain (c.toNat / 16) (by omega)
  have h2 := digitChar_plain (c.toNat % 16) (by omega)
  unfold escapeChar
  split_ifs with hb ht hn hf hr hq hs
  · exact ⟨'b', [], rfl, by simp, by simp⟩
  · exact ⟨'t', [], rfl, by simp, by simp⟩
  · exact ⟨'n', [], rfl, by simp, by simp⟩
  · exact ⟨'f', [], rfl, by simp, by simp⟩
  · exact ⟨'r', [], rfl, by simp, by simp⟩
  · subst hq; exact absurd h (by decide)
  · subst hs; exact absurd h (by decide)
  · refine ⟨'u', hex4 c.toNat, rfl, ?_, ?_⟩
    · simp [hex4, h1.1, h1.2.1, h2.1, h2.2.1]
    · simp [hex4, h1.2.2, h2.2.2]

/-- A character stands for itself, or it is written with a backslash before characters that have no
meaning; these are the character itself unless it is a control character. -/
theorem rereadChar_cases (c : Char) :
    escapeChar c = [c] ∧ rereadChar c = [c] ∧ c ≠ '"' ∧ c ≠ '\\' ∧ 0x1f < c.toNat ∨
    ∃ x r, escapeChar c = '\\' :: x :: r ∧ rereadChar c = x :: r ∧
      (∀ d ∈ r, d ≠ '"' ∧ d ≠ '\\') ∧ (∀ d ∈ x :: r, 0x1f < d.toNat) ∧
      (0x1f < c.toNat → x :: r = [c]) := by
  rcases escapeChar_cases c with ⟨he, hq, hb, hc⟩ | ⟨-, rfl | rfl | hc⟩
  · left
    refine ⟨he, ?_, hq, hb, hc⟩
    unfold rereadChar
    rw [he]
    split
    · next h => exact absurd (List.cons.inj h).1 hb
    · rfl
  · right; exact ⟨'"', [], by decide, by decide, by simp, by simp, fun _ => rfl⟩
  · right; exact ⟨'\\', [], by decide, by decide, by simp, by simp, fun _ => rfl⟩
  · right
    obtain ⟨x, r, he, hr, hd⟩ := escapeChar_control hc
    exact ⟨x, r, he, by simp only [rereadChar, he], hr, hd, fun h => by omega⟩

theorem run_quoted_plain (top : List Pg) (below : List (List Pg)) {s : List Char}
    (h : ∀ d ∈ s, d ≠ '"' ∧ d ≠ '\\') (acc : List Char) :
    s.foldlM step (.elem top below (.quoted acc)) = some (.elem top below (.quoted (acc ++ s))) := by
  induction s generalizing acc with
  | nil => simp
  | cons c s ih =>
    have hc := h c List.mem_cons_self
    have hstep : step (.elem top below (.quoted acc)) c =
        some (.elem top below (.quoted (acc ++ [c]))) := by simp [step, hc]
    rw [List.foldlM_cons, hstep]
    refine (ih (fun d hd => h d (List.mem_cons_of_mem _ hd)) (acc ++ [c])).trans ?_
    simp

theorem run_escapeChar (top : List Pg) (below : List (List Pg)) (acc : List Char) (c : Char) :
    (escapeChar c).foldlM step (.elem top below (.quoted acc)) =
      some (.elem top below (.quoted (acc ++ rereadChar c))) := by
  rcases rereadChar_cases c with ⟨he, hr, hq, hb, -⟩ | ⟨x, r, he, hr, hplain, -⟩
  · rw [he, hr]
    exact run_quoted_plain top below (by simp [hq, hb]) acc
  · rw [he, hr]
    show r.foldlM step (.elem top below (.quoted (acc ++ [x]))) = _
    rw [run_quoted_plain top below hplain]
    simp

theorem run_escaped (top : List Pg) (below : List (List Pg)) (s acc : List Char) :
    (s.flatMap escapeChar).foldlM step (.elem top below (.quoted acc)) =
      some (.elem top below (.quoted (acc ++ reread s))) := by
  induction s generalizing acc with
  | nil => simp [reread]
  | cons c s ih =>
    rw [List.flatMap_cons, List.foldlM_append, run_escapeChar]
    refine (ih (acc ++ rereadChar c)).trans ?_
    simp [reread]

/-- A string is read as far as its closing quote. -/
theorem run_quoted (top : List Pg) (below : List (List Pg)) (first : Bool) (s t : List Char) :
    (quoted s ++ t).foldlM step (.elem top below (.fresh first)) =
      t.foldlM step (.elem (top ++ [.text (reread s)]) below .closed) := by
  have hopen : step (.elem top below (.fresh first)) '"' = some (.elem top below (.quoted [])) := rfl
  have hclose : ∀ acc, step (.elem top below (.quoted acc)) '"' =
      some (.elem (top ++ [.text acc]) below .closed) := fun _ => rfl
  unfold quoted
  rw [List.cons_append, List.cons_append, List.foldlM_cons, hopen, List.append_assoc]
  show (s.flatMap escapeChar ++ ('"' :: t)).foldlM step (.elem top below (.quoted [])) = _
  rw [List.foldlM_append, run_escaped]
  show (('"' :: t).foldlM step (.elem top below (.quoted ([] ++ reread s)))) = _
  rw [List.foldlM_cons, hclose]
  rfl

/-- The element the text of a scalar is read as. -/
def readValue : Json → Pg
  | .string s => .text (reread s)
  | v => bareValue (dump v) false

theorem text_ne_nil (n : Number) : n.text ≠ [] := by
  rcases n with z | ⟨neg, int, frac, exp⟩ | -
  · simp [Number.text, Nat.toDigits_ne_nil]
  · simp [Number.text, Digits.text]
  · simp [Number.text]

theorem plainChar_text (n : Number) : ∀ c ∈ n.text, plainChar c = true := by
  by_cases hn : n = .nonFinite
  · subst hn
    exact List.all_eq_true.mp (by decide)
  · intro c hc
    exact plainChar_of_numberChar (numberChar_text hn c hc)

/-- A scalar, and what follows it. -/
theorem run_scalar (top : List Pg) (below : List (List Pg)) (first : Bool) {v : Json} (hv : Scalar v)
    {c : Char} (hc : c = ',' ∨ c = '}') (t : List Char) :
    (dump v ++ c :: t).foldlM step (.elem top below (.fresh first)) =
      (c :: t).foldlM step (.elem (top ++ [readValue v]) below .closed) := by
  obtain rfl | ⟨b, rfl⟩ | ⟨n, rfl⟩ | ⟨s, rfl⟩ := hv.cases
  · exact run_bare_separator top below first (by decide) (List.all_eq_true.mp (by decide)) hc t
  · rcases b with - | -
    · exact run_bare_separator top below first (by decide) (List.all_eq_true.mp (by decide)) hc t
    · exact run_bare_separator top below first (by decide) (List.all_eq_true.mp (by decide)) hc t
  · exact run_bare_separator top below first (text_ne_nil n) (plainChar_text n) hc t
  · exact run_quoted top below first s (c :: t)

theorem reread_of_printable {s : List Char} (h : ∀ c ∈ s, 0x1f < c.toNat) : reread s = s := by
  induction s with
  | nil => rfl
  | cons c s ih =>
    have hs := ih fun d hd => h d (List.mem_cons_of_mem _ hd)
    have hc : rereadChar c = [c] := by
      rcases rereadChar_cases c with ⟨-, hr, -⟩ | ⟨x, r, -, hr, -, -, hself⟩
      · exact hr
      · rw [hr, hself (h c List.mem_cons_self)]
    rw [reread, List.flatMap_cons, hc]
    exact congrArg (c :: ·) hs

/-- A control character is never read. -/
theorem printable_reread {s : List Char} {d : Char} (hd : d ∈ reread s) : 0x1f < d.toNat := by
  obtain ⟨c, -, hd⟩ := List.mem_flatMap.mp hd
  rcases rereadChar_cases c with ⟨-, hr, -, -, hc⟩ | ⟨x, r, -, hr, -, hplain, -⟩
  · rw [hr, List.mem_singleton] at hd
    rwa [hd]
  · rw [hr] at hd
    exact hplain d hd

theorem toLower_of_numberChar {c : Char} (h : numberChar c = true) : c.toLower = c := by
  simp only [numberChar, Bool.or_eq_true, beq_iff_eq] at h
  rcases h with (((h | rfl) | rfl) | rfl) | rfl
  · simp only [Char.isDigit, Bool.and_eq_true, decide_eq_true_eq, ge_iff_le] at h
    have hnot : ¬ (c.val ≥ 'A'.val ∧ c.val ≤ 'Z'.val) := by
      rintro ⟨hA, -⟩
      exact absurd (UInt32.le_trans hA h.2) (by decide)
    exact dif_neg hnot
  all_goals decide

/-- A finite number is not the key word `NULL`. -/
theorem bareValue_number {n : Number} (hn : n ≠ .nonFinite) : bareValue n.text false = .text n.text := by
  unfold bareValue
  rw [if_neg]
  rintro ⟨-, h⟩
  obtain ⟨c, hc, hlow⟩ : ∃ c ∈ n.text, c.toLower = 'l' := by
    rw [← List.mem_map, h]
    decide
  have hnum := numberChar_text hn c hc
  rw [toLower_of_numberChar hnum] at hlow
  rw [hlow] at hnum
  exact absurd hnum (by decide)

theorem scalar_mapStrings {v : Json} (h : Scalar v) (f : List Char → List Char) :
    Scalar (mapStrings f v) := by
  rcases v with - | b | n | s | vs | kvs
  all_goals first | exact trivial | exact h

theorem Leaf.scalar {v : Json} (h : Leaf v) : Scalar v := by
  rcases v with - | b | n | s | vs | kvs
  all_goals first | exact trivial | exact h

theorem Leaf.notMem {v : Json} (h : Leaf v) : ∀ s ∈ strings v, '\'' ∉ s := by
  obtain rfl | ⟨b, rfl⟩ | ⟨n, rfl⟩ | ⟨s, rfl⟩ := h.scalar.cases
  · simp [strings]
  · simp [strings]
  · simp [strings]
  · simp only [strings, List.mem_singleton, forall_eq]
    exact fun hq => (h _ hq).1 rfl

theorem Leaf.mapStrings {v : Json} (h : Leaf v) : mapStrings (collapse '\'') v = v := by
  obtain rfl | ⟨b, rfl⟩ | ⟨n, rfl⟩ | ⟨s, rfl⟩ := h.scalar.cases
  · rfl
  · rfl
  · rfl
  · exact congrArg Json.string (collapse_of_notMem (h.notMem s (by simp [strings])))

/-- A leaf is read as the value it stands for. -/
theorem Leaf.denotes {v : Json} (h : Leaf v) : Denotes v (readValue v) := by
  obtain rfl | ⟨b, rfl⟩ | ⟨n, rfl⟩ | ⟨s, rfl⟩ := h.scalar.cases
  · trivial
  · rcases b with - | -
    · rfl
    · rfl
  · rw [readValue, dump, bareValue_number h]
    · rcases n with z | ⟨neg, int, frac, exp⟩ | -
      · rfl
      · rfl
      · exact absurd rfl h
    · simp
  · exact (reread_of_printable fun c hc => (h c hc).2)

/-- A scalar that is read back is a leaf. -/
theorem leaf_of_denotes {v : Json} (hv : Scalar v) (hp : ∀ s ∈ strings v, paired '\'' s = true)
    (h : Denotes v (readValue (mapStrings (collapse '\'') v))) : Leaf v := by
  obtain rfl | ⟨b, rfl⟩ | ⟨n, rfl⟩ | ⟨s, rfl⟩ := hv.cases
  · trivial
  · trivial
  · rintro rfl
    exact h
  · have hread : reread (collapse '\'' s) = s := h
    have hprint : ∀ c ∈ s, 0x1f < c.toNat := by
      intro c hc
      rw [← hread] at hc
      exact printable_reread hc
    have hquote : '\'' ∉ s := by
      intro hq
      have hself : reread (collapse '\'' s) = collapse '\'' s :=
        reread_of_printable fun c hc => hprint c (collapse_subset s hc)
      have hlt := length_collapse_lt (hp s (by simp [strings])) hq
      rw [← hself, hread] at hlt
      omega
    exact fun c hc => ⟨fun e => hquote (e ▸ hc), hprint c hc⟩

/-! ### Literals -/

/-- What follows an element, up to the end of the literal. -/
def rest : List Json → List Char
  | [] => ['}']
  | v :: vs => ',' :: (dumpElems (v :: vs) ++ ['}'])

theorem dumpElems_append (v : Json) (vs : List Json) :
    dumpElems (v :: vs) ++ ['}'] = dump v ++ rest vs := by
  rcases vs with - | ⟨w, vs⟩
  · rfl
  · simp only [dumpElems, rest, List.append_assoc, List.cons_append]

/-- Behind the last element the reader is where it would be behind the opening brace. -/
theorem run_rest (top : List Pg) (vs : List Json) :
    (rest vs).foldlM step (.elem top [] .closed) =
      (dumpElems vs ++ ['}']).foldlM step (.elem top [] (.fresh vs.isEmpty)) := by
  rcases vs with - | ⟨w, vs⟩
  · rfl
  · rfl

/-- One scalar of an array. -/
theorem run_elems_cons (top : List Pg) (first : Bool) {v : Json} (hv : Scalar v) (vs : List Json) :
    (dumpElems (v :: vs) ++ ['}']).foldlM step (.elem top [] (.fresh first)) =
      (dumpElems vs ++ ['}']).foldlM step
        (.elem (top ++ [readValue v]) [] (.fresh vs.isEmpty)) := by
  rw [dumpElems_append, ← run_rest]
  rcases vs with - | ⟨w, vs⟩
  · exact run_scalar top [] first hv (Or.inr rfl) []
  · exact run_scalar top [] first hv (Or.inl rfl) _

/-- A literal of scalars. -/
theorem run_elems {vs : List Json} (hvs : ∀ v ∈ vs, Scalar v) (top : List Pg) {first : Bool}
    (hfirst : vs = [] → first = true) :
    (dumpElems vs ++ ['}']).foldlM step (.elem top [] (.fresh first)) =
      some (.done (.array (top ++ vs.map readValue))) := by
  induction vs generalizing top first with
  | nil =>
    rw [hfirst rfl, List.map_nil, List.append_nil]
    rfl
  | cons v vs ih =>
    rw [run_elems_cons top first (hvs v List.mem_cons_self), ih]
    · simp
    · exact fun w hw => hvs w (List.mem_cons_of_mem _ hw)
    · rintro rfl
      rfl

/-- An element that begins with a bracket and has no quotes is read as a text. -/
theorem run_bracket {top ps : List Pg} {s acc : List Char} {item : Item}
    (hitem : item = .bareEscape ('[' :: acc) ∨ ∃ escaped, item = .bare ('[' :: acc) escaped)
    (h : s.foldlM step (.elem top [] item) = some (.done (.array ps))) :
    ∃ t, top ++ [.text t] <+: ps := by
  induction s generalizing acc item with
  | nil => exact absurd (Option.some.inj h) (by simp)
  | cons c s ih =>
    rw [List.foldlM_cons] at h
    obtain ⟨r, hr, hs⟩ := Option.bind_eq_some_iff.mp h
    rcases hitem with rfl | ⟨escaped, rfl⟩
    · obtain rfl := Option.some.inj hr
      exact ih (Or.inr ⟨true, rfl⟩) hs
    · have hvalue : bareValue ('[' :: acc) escaped = .text ('[' :: acc) := by
        rw [bareValue, if_neg]
        rintro ⟨-, hnull⟩
        exact absurd (List.cons.inj hnull).1 (by decide)
      simp only [step] at hr
      split_ifs at hr with h1 h2 h3
      · rw [hvalue] at hr
        exact ⟨'[' :: acc, (outer_separator hr).trans (outer_grows_run hs)⟩
      · obtain rfl := Option.some.inj hr
        exact ih (Or.inl rfl) hs
      · obtain rfl := Option.some.inj hr
        exact ih (Or.inr ⟨escaped, rfl⟩) hs

/-- An array in an array is read as a text. -/
theorem run_array {top ps : List Pg} {first : Bool} {us vs : List Json}
    (h : (dumpElems (.array us :: vs) ++ ['}']).foldlM step (.elem top [] (.fresh first)) =
      some (.done (.array ps))) : ∃ t, top ++ [.text t] <+: ps := by
  rw [dumpElems_append, dump, List.cons_append, List.cons_append] at h
  have hitem : Item.bare ['['] false = .bareEscape ['['] ∨
      ∃ escaped, Item.bare ['['] false = .bare ['['] escaped := Or.inr ⟨false, rfl⟩
  exact run_bracket hitem h

theorem head_eq_of_grows {top ps : List Pg} {p q : Pg} (h : top ++ [p] <+: top ++ q :: ps) :
    p = q := by
  obtain ⟨t, ht⟩ := h
  rw [List.append_assoc, List.append_cancel_left_eq] at ht
  exact (List.cons.inj ht).1

/-- The elements that are read back are leaves; they are followed from the first to the last, as each of
them fixes what the elements before it were read as. -/
theorem leaf_of_run {vs : List Json} (hp : ∀ s ∈ stringsElems vs, paired '\'' s = true)
    {top ps : List Pg} {first : Bool} (hden : DenotesElems vs ps)
    (hrun : (dumpElems (mapElems (collapse '\'') vs) ++ ['}']).foldlM step
      (.elem top [] (.fresh first)) = some (.done (.array (top ++ ps)))) : ∀ v ∈ vs, Leaf v := by
  induction vs generalizing top ps first with
  | nil => simp
  | cons v vs ih =>
    rcases ps with - | ⟨p, ps⟩
    · exact absurd hden (by simp [DenotesElems])
    simp only [DenotesElems] at hden
    obtain ⟨hv, hvs⟩ := hden
    have hpv : ∀ s ∈ strings v, paired '\'' s = true := fun s hs => hp s (by simp [stringsElems, hs])
    by_cases hscalar : Scalar v
    · have hmap : Scalar (mapStrings (collapse '\'') v) := scalar_mapStrings hscalar _
      rw [mapElems, run_elems_cons top first hmap] at hrun
      have hhead := head_eq_of_grows (outer_grows_run hrun)
      have hleaf : Leaf v := leaf_of_denotes hscalar hpv (hhead ▸ hv)
      have hrest : ∀ w ∈ vs, Leaf w := by
        refine ih (fun s hs => hp s ?_) hvs (hrun.trans ?_)
        · rw [stringsElems]
          exact List.mem_append_right _ hs
        · rw [hhead, List.append_assoc, List.singleton_append]
      intro w hw
      rcases List.mem_cons.mp hw with rfl | hw
      · exact hleaf
      · exact hrest w hw
    · exfalso
      rcases v with - | b | n | s | us | kvs
      all_goals first | exact hscalar trivial | skip
      · obtain ⟨t, ht⟩ := run_array hrun
        have hhead := head_eq_of_grows ht
        subst hhead
        exact hv
      · exact hv

theorem readArray_brace (s : List Char) (p : Pg) : readArray ('{' :: s) = some p ↔
    s.foldlM step (.elem [] [] (.fresh true)) = some (.done p) := by
  have hopen : ('{' :: s).foldlM step .start = s.foldlM step (.elem [] [] (.fresh true)) := rfl
  unfold readArray
  rw [hopen]
  rcases s.foldlM step (.elem [] [] (.fresh true)) with - | ⟨- | ⟨top, below, item⟩ | p⟩
  all_goals simp

/-- The SQL constant of an array whose strings have their single quotes in pairs. -/
theorem collapse_literal {vs : List Json} (h : ∀ s ∈ stringsElems vs, paired '\'' s = true) :
    collapse '\'' ('{' :: dumpElems vs ++ ['}']) =
      '{' :: (dumpElems (mapElems (collapse '\'') vs) ++ ['}']) := by
  have hp := (dumpElems_local local_paired vs).mpr h
  rw [List.cons_append, collapse_cons (by decide), collapse_append_cons (by decide) hp,
    collapse_elems vs h]
  rfl

theorem readBack_iff_run (vs : List Json) : ReadBack vs ↔
    (∀ s ∈ stringsElems vs, paired '\'' s = true) ∧ ∃ ps, DenotesElems vs ps ∧
      (dumpElems (mapElems (collapse '\'') vs) ++ ['}']).foldlM step (.elem [] [] (.fresh true)) =
        some (.done (.array ps)) := by
  unfold ReadBack
  rw [valueToSqlStr_array]
  constructor
  · rintro ⟨c, p, hc, hread, hden⟩
    obtain ⟨hp, hc⟩ := readConst_string.mp hc
    have hpaired : ∀ s ∈ stringsElems vs, paired '\'' s = true := (paired_array vs).mp hp
    rw [collapse_literal hpaired] at hc
    obtain rfl := Const.string.inj hc
    rcases p with - | t | ps
    · exact absurd hden id
    · exact absurd hden id
    · exact ⟨hpaired, ps, hden, (readArray_brace _ _).mp hread⟩
  · rintro ⟨hpaired, ps, hden, hrun⟩
    refine ⟨_, .array ps, readConst_string.mpr ⟨(paired_array vs).mpr hpaired, rfl⟩, ?_, hden⟩
    rw [collapse_literal hpaired]
    exact (readArray_brace _ _).mpr hrun

theorem mapElems_of_leaf {vs : List Json} (h : ∀ v ∈ vs, Leaf v) :
    mapElems (collapse '\'') vs = vs := by
  induction vs with
  | nil => rfl
  | cons v vs ih =>
    rw [mapElems, (h v List.mem_cons_self).mapStrings, ih fun w hw => h w (List.mem_cons_of_mem _ hw)]

theorem stringsElems_of_leaf {vs : List Json} (h : ∀ v ∈ vs, Leaf v) :
    ∀ s ∈ stringsElems vs, '\'' ∉ s := by
  induction vs with
  | nil => simp [stringsElems]
  | cons v vs ih =>
    intro s hs
    rw [stringsElems, List.mem_append] at hs
    rcases hs with hs | hs
    · exact (h v List.mem_cons_self).notMem s hs
    · exact ih (fun w hw => h w (List.mem_cons_of_mem _ hw)) s hs

theorem denotesElems_of_leaf {vs : List Json} (h : ∀ v ∈ vs, Leaf v) :
    DenotesElems vs (vs.map readValue) := by
  induction vs with
  | nil => trivial
  | cons v vs ih =>
    rw [List.map_cons, DenotesElems]
    exact ⟨(h v List.mem_cons_self).denotes, ih fun w hw => h w (List.mem_cons_of_mem _ hw)⟩

/-- **Which arrays are read back**: those without inner arrays, whose elements are leaves. -/
theorem arrayLiteral_iff (vs : List Json) : ReadBack vs ↔ ∀ v ∈ vs, Leaf v := by
  rw [readBack_iff_run]
  constructor
  · rintro ⟨hpaired, ps, hden, hrun⟩
    exact leaf_of_run hpaired hden hrun
  · intro h
    refine ⟨fun s hs => paired_of_notMem (stringsElems_of_leaf h s hs), vs.map readValue,
      denotesElems_of_leaf h, ?_⟩
    rw [mapElems_of_leaf h]
    exact run_elems (fun v hv => (h v hv).scalar) [] fun _ => rfl

/-- An array in an array. -/
def nested : List Json := [.array [.number (.integer 1), .number (.integer 2)]]

theorem arrayLiteral_nested :
    valueToSqlStr (.array nested) = "'\x7b[1,2]\x7d'".toList ∧
      readArray "\x7b[1,2]\x7d".toList = some (.array [.text "[1".toList, .text "2]".toList]) ∧
      ¬ ReadBack nested := by
  refine ⟨by decide, rfl, fun h => ?_⟩
  obtain ⟨hpaired, ps, hden, hrun⟩ := (readBack_iff_run nested).mp h
  exact leaf_of_run hpaired hden hrun _ List.mem_cons_self

end Jkit.Db.ArrayLiteral
