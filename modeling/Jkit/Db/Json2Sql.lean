import Jkit.Db.SqlConst

/-! # `json2sql.cpp`

`valueToSqlStr` puts the text of a string, an array or an object between single quotes as it is.
`sqlValue_iff` says for which values this is one SQL constant with the right meaning: a string and an
object must be free of single quotes, in an array they must come in adjacent pairs in every string and
key at any depth. -/

namespace Jkit.Db.Json2Sql

open Jkit.Lib.Quote Jkit.Db.JsonText Jkit.Db.SqlConst

/-- `value_to_sql_str`. The brackets of an array become braces. -/
def valueToSqlStr : Json → List Char
  | .null => ['n', 'u', 'l', 'l']
  | .number n => dump (.number n)
  | .boolean b => dump (.boolean b)
  | .string s => '\'' :: s ++ ['\'']
  | .array vs =>
    let tmp := (dump (.array vs)).set 0 '{'
    let tmp := tmp.set (tmp.length - 1) '}'
    '\'' :: tmp ++ ['\'']
  | .object kvs => '\'' :: dump (.object kvs) ++ ['\'']

/-- A text with its first and its last character replaced. -/
theorem set_ends (a b c d : Char) (l : List Char) :
    ((a :: l ++ [b]).set 0 c).set (((a :: l ++ [b]).set 0 c).length - 1) d = c :: l ++ [d] := by
  have hlast : (l ++ [b]).set l.length d = l ++ [d] := by simp
  simp only [List.cons_append, List.set_cons_zero, List.length_cons, List.length_append,
    List.length_nil, Nat.zero_add, Nat.add_sub_cancel, List.set_cons_succ, hlast]

theorem valueToSqlStr_array (vs : List Json) :
    valueToSqlStr (.array vs) = '\'' :: ('{' :: dumpElems vs ++ ['}']) ++ ['\''] := by
  simp only [valueToSqlStr, dump, set_ends]

/-- The text of the value is one complete SQL constant, which denotes a string as it is and an object
by its JSON text. -/
def SqlValue (v : Json) : Prop :=
  ∃ c, readConst (valueToSqlStr v) = some (c, []) ∧
    (∀ s, v = .string s → c = .string s) ∧ ∀ kvs, v = .object kvs → c = .string (dump v)

/-- No single quote in a string or in an object, only pairs of them in an array, at any depth. -/
def Harmless : Json → Prop
  | .string s => '\'' ∉ s
  | .array vs => ∀ s ∈ strings (.array vs), paired '\'' s = true
  | .object kvs => ∀ s ∈ strings (.object kvs), '\'' ∉ s
  | _ => True

/-- The value is rendered as a quoted string with the body `t`. -/
theorem exists_const_string {t : List Char} {P : Const → Prop} :
    (∃ c, readConst ('\'' :: t ++ ['\'']) = some (c, []) ∧ P c) ↔
      paired '\'' t = true ∧ P (.string (collapse '\'' t)) := by
  constructor
  · rintro ⟨c, hc, hP⟩
    obtain ⟨hp, rfl⟩ := readConst_string.mp hc
    exact ⟨hp, hP⟩
  · rintro ⟨hp, hP⟩
    exact ⟨_, readConst_string.mpr ⟨hp, rfl⟩, hP⟩

theorem sqlValue_string (s : List Char) : SqlValue (.string s) ↔ '\'' ∉ s := by
  unfold SqlValue valueToSqlStr
  rw [exists_const_string, ← read_snoc_self, read_snoc]
  simp

theorem sqlValue_object (kvs : List (List Char × Json)) :
    SqlValue (.object kvs) ↔ ∀ s ∈ strings (.object kvs), '\'' ∉ s := by
  rw [← dump_local local_notMem]
  unfold SqlValue valueToSqlStr
  rw [exists_const_string, ← read_snoc_self, read_snoc]
  simp

/-- The quotes of the literal of an array are those of its strings. -/
theorem paired_array (vs : List Json) : paired '\'' ('{' :: dumpElems vs ++ ['}']) = true ↔
    ∀ s ∈ strings (.array vs), paired '\'' s = true := by
  rw [List.cons_append, paired_cons (by decide), paired_append_cons (by decide),
    Bool.and_eq_true, dumpElems_local local_paired]
  simp [strings, paired]

theorem sqlValue_array (vs : List Json) :
    SqlValue (.array vs) ↔ ∀ s ∈ strings (.array vs), paired '\'' s = true := by
  unfold SqlValue
  rw [valueToSqlStr_array, exists_const_string, paired_array]
  simp

/-- **Which values become one SQL constant**, with the right meaning. -/
theorem sqlValue_iff (v : Json) : SqlValue v ↔ Harmless v := by
  cases v with
  | null => exact ⟨fun _ => trivial, fun _ => ⟨.null, by decide, by simp, by simp⟩⟩
  | boolean b =>
    refine ⟨fun _ => trivial, fun _ => ⟨.boolean b, ?_, by simp, by simp⟩⟩
    cases b <;> decide
  | number n =>
    obtain ⟨c, hc⟩ := readConst_number n
    exact ⟨fun _ => trivial, fun _ => ⟨c, hc, by simp, by simp⟩⟩
  | string s => exact sqlValue_string s
  | array vs => exact sqlValue_array vs
  | object kvs => exact sqlValue_object kvs

/-- A name with an apostrophe. -/
def brien : List Char := "O'Brien".toList

theorem brien_not_sqlValue :
    valueToSqlStr (.string brien) = "'O'Brien'".toList ∧
      readConst (valueToSqlStr (.string brien)) = some (.string ['O'], "Brien'".toList) ∧
      ¬ SqlValue (.string brien) := by
  refine ⟨by decide, by decide, ?_⟩
  rw [sqlValue_string]
  decide

end Jkit.Db.Json2Sql
