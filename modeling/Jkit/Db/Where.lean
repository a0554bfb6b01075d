import Jkit.Db.Builders
import Jkit.Db.SqlName
import Mathlib

/-! # What the conditions of an update select

`obj_to_update_sql_str` writes its conditions as comparisons joined by `and`. `readClause` reads such a
clause by SQL's lexical rules and `evalConds` evaluates it on a row with three truth values, where `none`
is unknown. A quoted constant is read as the type of the column that it is compared with, so a string that
is given for a column of numbers would select the rows that hold the number.

Where the columns have the types of the given values, a clause is true on the rows that have these values
exactly if SQL reads every key as the column of that name and no value is written as `null` (`selects_iff`): a
comparison with `null` is unknown on every row, also on those whose column is null. -/

namespace Jkit.Db.Where

open Jkit.Lib.Quote Jkit.Lib.Scan
open Jkit.Db.JsonText Jkit.Db.SqlConst Jkit.Db.SqlName Jkit.Db.Json2Sql Jkit.Db.Builders

/-! ### Values and tables -/

/-- What a column holds. -/
inductive Value
  | null
  | boolean (b : Bool)
  | number (q : ℚ)
  /-- not a number, or infinite -/
  | nonFinite
  | string (s : Text)
deriving DecidableEq

/-- The types of columns: `boolean`, `numeric`, `text`. -/
inductive SqlType
  | boolean
  | numeric
  | text
deriving DecidableEq

/-- Every type has null, and no text has a zero character. -/
def Value.HasType : Value → SqlType → Prop
  | .null, _ => True
  | .boolean _, .boolean => True
  | .number _, .numeric => True
  | .nonFinite, .numeric => True
  | .string s, .text => '\x00' ∉ s
  | _, _ => False

/-- A table: the types of its columns by their names, and the input functions of the types, which read the
text of a quoted constant. A text is read as it is. -/
structure Table where
  types : Text → SqlType
  input : SqlType → Text → Option Value
  input_typed : ∀ ty s v, input ty s = some v → v.HasType ty
  input_text : ∀ s, '\x00' ∉ s → input .text s = some (.string s)

/-- The values of a row. -/
structure Row (T : Table) where
  value : Text → Value
  typed : ∀ k, (value k).HasType (T.types k)

/-- A decimal number by its sign, its digits and the power of ten they are multiplied with. -/
def decimal (neg : Bool) (digits : ℕ) (exp : ℤ) : ℚ :=
  (if neg then -(digits : ℚ) else digits) * 10 ^ exp

/-- The number that decimal digits denote. -/
def digitsValue (l : List (Fin 10)) : ℕ := l.foldl (fun n d => 10 * n + d.val) 0

/-- All digits. -/
def allDigits (d : Digits) : List (Fin 10) := d.first :: d.rest

/-- The digits of a fraction. -/
def fractionDigits : Option Digits → List (Fin 10)
  | none => []
  | some d => allDigits d

/-- The exponent of a number. -/
def exponentValue : Option (Bool × Digits) → ℤ
  | none => 0
  | some (neg, d) => if neg then -(digitsValue (allDigits d) : ℤ) else digitsValue (allDigits d)

/-- The value of a number of JSON. -/
def numberValue : Number → Value
  | .integer z => .number z
  | .float neg int frac exp =>
    .number (decimal neg (digitsValue (allDigits int ++ fractionDigits frac))
      (exponentValue exp - (fractionDigits frac).length))
  | .nonFinite => .nonFinite

/-- The value of a scalar of JSON. -/
def scalarValue : Json → Option Value
  | .null => some .null
  | .boolean b => some (.boolean b)
  | .number n => some (numberValue n)
  | .string s => some (.string s)
  | _ => none

/-! ### Constants -/

/-- The exponent of a constant, as it is written. -/
def textExponent : Text → ℤ
  | [] => 0
  | _ :: r =>
    let s := readSign r
    if s.1 = ['-'] then -(Nat.ofDigitChars 10 s.2 0 : ℤ) else Nat.ofDigitChars 10 s.2 0

/-- The number that the text of a constant denotes. -/
def textNumber (t : Text) : ℚ :=
  let s := readSign t
  let i := readDigits s.2
  let f := readFraction i.2
  let e := readExponent f.2
  decimal (s.1 = ['-']) (Nat.ofDigitChars 10 (i.1 ++ f.1.drop 1) 0)
    (textExponent e.1 - (f.1.drop 1).length)

/-- The value of a constant next to a column of the type. A quoted constant is read as that type; for the
constants of another type there is no comparison. -/
def Table.operand (T : Table) (ty : SqlType) : Const → Option Value
  | .null => some .null
  | .boolean b => if ty = .boolean then some (.boolean b) else none
  | .number t => if ty = .numeric then some (.number (textNumber t)) else none
  | .string s => T.input ty s

/-- The comparisons of a clause with the values of the constants; the database refuses the statement if one
has none. -/
def Table.operands (T : Table) : List (Text × Const) → Option (List (Text × Value))
  | [] => some []
  | x :: xs => do
    let v ← T.operand (T.types x.1) x.2
    let vs ← T.operands xs
    some ((x.1, v) :: vs)

/-! ### Three truth values -/

/-- `a = b` for two values of one type, which is unknown if one of them is null. -/
def sqlEq (a b : Value) : Option Bool := if a = .null ∨ b = .null then none else some (a = b)

/-- `and`. -/
def sqlAnd : Option Bool → Option Bool → Option Bool
  | some false, _ => some false
  | _, some false => some false
  | some true, some true => some true
  | _, _ => none

/-- The comparisons of columns with values, joined by `and`. -/
def evalConds {T : Table} (row : Row T) : List (Text × Value) → Option Bool
  | [] => some true
  | x :: xs => sqlAnd (sqlEq (row.value x.1) x.2) (evalConds row xs)

/-! ### The reader -/

/-- A comparison of a column with a constant. -/
def readCond (s : Text) : Option ((Text × Const) × Text) :=
  match readName s with
  | some (name, '=' :: r) => (readConst r).map fun x => ((name, x.1), x.2)
  | _ => none

/-- Comparisons joined by `and`, at most as many as the bound says. -/
def readConds : ℕ → Text → Option (List (Text × Const))
  | 0, _ => none
  | n + 1, s =>
    match readCond s with
    | some (x, []) => some [x]
    | some (x, ' ' :: 'a' :: 'n' :: 'd' :: ' ' :: r) => (readConds n r).map (x :: ·)
    | _ => none

/-- A clause of comparisons. -/
def readClause (s : Text) : Option (List (Text × Const)) := readConds s.length s

/-! ### What an update selects -/

/-- The clause behind `where`. -/
def whereClause (obj wheres : Members Json) (tbl : Text) : Option Text := do
  let head ← updateHead obj tbl
  let text ← objToUpdateSqlStrJson obj wheres tbl
  some (text.drop head.length)

/-- The clause is true on the row. -/
def Selects {T : Table} (obj wheres : Members Json) (tbl : Text) (row : Row T) : Prop :=
  ∃ clause cs vs, whereClause obj wheres tbl = some clause ∧ readClause clause = some cs ∧
    T.operands cs = some vs ∧ evalConds row vs = some true

/-- Every column holds the given value. -/
def Matches {T : Table} (wheres : Members Json) (row : Row T) : Prop :=
  ∀ kv ∈ wheres.list, scalarValue kv.2 = some (row.value kv.1)

/-- Conditions with scalars, and without quotes in the strings. -/
structure Conditions (wheres : Members Json) : Prop where
  ne : wheres.list ≠ []
  scalar : ∀ kv ∈ wheres.list, Scalar kv.2
  quotes : ∀ kv ∈ wheres.list, ∀ s, kv.2 = .string s → '\'' ∉ s

/-- Every column has the type of the value that is given for it. -/
def Table.Suits (T : Table) (wheres : Members Json) : Prop :=
  ∀ kv ∈ wheres.list, ∀ v ∈ scalarValue kv.2, v.HasType (T.types kv.1)

/-! ### Numbers -/

theorem ofDigitChars_map (l : List (Fin 10)) (n : ℕ) :
    Nat.ofDigitChars 10 (l.map fun i : Fin 10 => Nat.digitChar i.val) n =
      l.foldl (fun n d => 10 * n + d.val) n := by
  induction l generalizing n with
  | nil => rfl
  | cons d l ih =>
    rw [List.map_cons, Nat.ofDigitChars_cons_digitChar_of_lt_ten d.isLt, ih, List.foldl_cons]

theorem drop_fraction (frac : Option Digits) :
    (fraction frac).drop 1 = (fractionDigits frac).map fun i : Fin 10 => Nat.digitChar i.val := by
  rcases frac with - | d
  · rfl
  · rfl

theorem textExponent_exponent (exp : Option (Bool × Digits)) :
    textExponent (exponent exp) = exponentValue exp := by
  rcases exp with - | ⟨neg, d⟩
  · rfl
  · have hd : Nat.ofDigitChars 10 d.text 0 = digitsValue (allDigits d) := ofDigitChars_map (allDigits d) 0
    rcases neg with - | -
    · simp [exponent, textExponent, readSign, exponentValue, hd]
    · simp [exponent, textExponent, readSign, exponentValue, hd]

/-- The text of a number denotes what its parts do. -/
theorem textNumber_parts (neg : Bool) {d : Text} (hd : ∀ c ∈ d, c.isDigit = true) (hne : d ≠ [])
    (frac : Option Digits) (exp : Option (Bool × Digits)) :
    textNumber (sign neg ++ d ++ fraction frac ++ exponent exp) =
      decimal neg (Nat.ofDigitChars 10 (d ++ (fraction frac).drop 1) 0)
        (exponentValue exp - (fractionDigits frac).length) := by
  obtain ⟨hsign, hdigits, hfrac⟩ := read_parts neg hd hne frac exp
  have hneg : decide (sign neg = ['-']) = neg := by
    rcases neg with - | -
    · rfl
    · rfl
  have hlen : ((fraction frac).drop 1).length = (fractionDigits frac).length := by
    rw [drop_fraction, List.length_map]
  rw [List.append_assoc, List.append_assoc]
  unfold textNumber
  simp only [hsign, hdigits, hfrac, readExponent_exponent, textExponent_exponent, hneg, hlen]

theorem decimal_int (z : ℤ) : decimal (z < 0) z.natAbs 0 = z := by
  unfold decimal
  rw [zpow_zero, mul_one]
  by_cases hz : z < 0
  · have habs : (z.natAbs : ℤ) = -z := by omega
    rw [if_pos (by simpa using hz), ← Int.cast_natCast, habs, Int.cast_neg, neg_neg]
  · have habs : (z.natAbs : ℤ) = z := by omega
    rw [if_neg (by simpa using hz), ← Int.cast_natCast, habs]

/-- **The text of a number denotes the number.** -/
theorem textNumber_text {n : Number} (hn : n ≠ .nonFinite) :
    Value.number (textNumber n.text) = numberValue n := by
  rcases n with z | ⟨neg, int, frac, exp⟩ | -
  · have hd : ∀ c ∈ Nat.toDigits 10 z.natAbs, c.isDigit = true := fun c hc =>
      Nat.isDigit_of_mem_toDigits (by omega) (by omega) hc
    have h := textNumber_parts (z < 0) hd Nat.toDigits_ne_nil none none
    simp only [fraction, exponent, List.append_nil, List.drop_nil, Nat.ofDigitChars_ten_toDigits] at h
    exact congrArg Value.number (h.trans (decimal_int z))
  · rw [Number.text, textNumber_parts neg (isDigit_text int) (by simp [Digits.text]) frac exp,
      drop_fraction, Digits.text, ← List.map_append, ofDigitChars_map]
    rfl
  · exact absurd rfl hn

/-! ### Clauses -/

/-- The constant that `value_to_sql_str` writes for a scalar. -/
def constOf : Json → Const
  | .boolean b => .boolean b
  | .number n => if n = .nonFinite then .null else .number n.text
  | .string s => .string s
  | _ => .null

/-- A scalar is written as one constant. -/
theorem readConst_value {v : Json} (hv : Scalar v) (hq : ∀ s, v = .string s → '\'' ∉ s) :
    readConst (valueToSqlStr v) = some (constOf v, []) := by
  obtain rfl | ⟨b, rfl⟩ | ⟨n, rfl⟩ | ⟨s, rfl⟩ := hv.cases
  · decide
  · rcases b with - | -
    · decide
    · decide
  · by_cases hn : n = .nonFinite
    · subst hn
      decide
    · rw [constOf, if_neg hn]
      exact readConst_text hn
  · have hs := hq s rfl
    exact readConst_string.mpr ⟨paired_of_notMem hs, by rw [collapse_of_notMem hs, constOf]⟩

theorem stops_equals {r : Text} : Stops nameChar ('=' :: r) := stops_cons (by decide)

/-- The text of a condition. -/
def condText (kv : Text × Json) : Text := equation (kv.1, valueToSqlStr kv.2)

/-- A condition that is read as it is meant. -/
structure Readable (kv : Text × Json) : Prop where
  column : IsName kv.1
  const : readConst (valueToSqlStr kv.2) = some (constOf kv.2, [])

theorem readCond_of_name {s k r : Text} (h : readName s = some (k, '=' :: r)) :
    readCond s = (readConst r).map fun x => ((k, x.1), x.2) := by
  unfold readCond
  rw [h]
  rfl

theorem readCond_end {kv : Text × Json} (h : Readable kv) :
    readCond (condText kv) = some ((kv.1, constOf kv.2), []) := by
  rw [condText, equation, readCond_of_name (readName_stops h.column stops_equals), h.const]
  rfl

theorem readCond_blank {kv : Text × Json} (h : Readable kv) (r : Text) :
    readCond (condText kv ++ ' ' :: r) = some ((kv.1, constOf kv.2), ' ' :: r) := by
  rw [condText, equation, List.append_assoc, List.cons_append,
    readCond_of_name (readName_stops h.column stops_equals), readConst_blank h.const]
  rfl

/-- **The conditions are read back**, in their order. -/
theorem readConds_separated {l : List (Text × Json)} (hl : l ≠ []) (h : ∀ kv ∈ l, Readable kv) {n : ℕ}
    (hn : l.length ≤ n) :
    readConds n (separated (lit " and ") (l.map condText)) =
      some (l.map fun kv => (kv.1, constOf kv.2)) := by
  have hand : lit " and " = [' ', 'a', 'n', 'd', ' '] := by unfold lit; decide
  induction l generalizing n with
  | nil => exact absurd rfl hl
  | cons kv l ih =>
    have hkv := h kv List.mem_cons_self
    rcases n with - | n
    · simp at hn
    rcases l with - | ⟨kv', l⟩
    · simp only [List.map_cons, List.map_nil, separated, readConds, readCond_end hkv]
    · have hrest := ih (by simp) (fun x hx => h x (List.mem_cons_of_mem _ hx)) (by simpa using hn)
      simp only [List.map_cons] at hrest ⊢
      rw [separated, hand, List.append_assoc, readConds]
      simp only [List.cons_append, List.nil_append, readCond_blank hkv]
      rw [← hand, hrest]
      rfl

theorem length_le_separated (l : List (Text × Json)) :
    l.length ≤ (separated (lit " and ") (l.map condText)).length := by
  have hpos : ∀ kv : Text × Json, 1 ≤ (condText kv).length := by
    intro kv
    unfold condText equation
    rw [List.length_append, List.length_cons]
    omega
  induction l with
  | nil => simp
  | cons kv l ih =>
    have hkv := hpos kv
    rcases l with - | ⟨kv', l⟩
    · simpa [separated] using hkv
    · simp only [List.map_cons, separated, List.length_append, List.length_cons] at ih ⊢
      omega

theorem readClause_separated {l : List (Text × Json)} (hl : l ≠ []) (h : ∀ kv ∈ l, Readable kv) :
    readClause (separated (lit " and ") (l.map condText)) = some (l.map fun kv => (kv.1, constOf kv.2)) :=
  readConds_separated hl h (length_le_separated l)

/-- A clause compares columns. -/
theorem isName_of_readConds {n : ℕ} {s : Text} {cs : List (Text × Const)}
    (h : readConds n s = some cs) : ∀ x ∈ cs, IsName x.1 := by
  have hcond : ∀ {s : Text} {x : Text × Const} {r : Text}, readCond s = some (x, r) → IsName x.1 := by
    intro s x r hx
    unfold readCond at hx
    split at hx
    · next name t hname =>
      obtain ⟨y, -, hy⟩ := Option.map_eq_some_iff.mp hx
      obtain ⟨rfl, -⟩ := Prod.mk.inj hy
      exact isName_of_readName hname
    · exact absurd hx (by simp)
  induction n generalizing s cs with
  | zero => exact absurd h (by simp [readConds])
  | succ n ih =>
    unfold readConds at h
    split at h
    · next x hx =>
      obtain rfl := Option.some.inj h
      intro y hy
      rw [List.mem_singleton.mp hy]
      exact hcond hx
    · next x r hx =>
      obtain ⟨cs', hcs, rfl⟩ := Option.map_eq_some_iff.mp h
      intro y hy
      rcases List.mem_cons.mp hy with rfl | hy
      · exact hcond hx
      · exact ih hcs y hy
    · exact absurd h (by simp)

/-- The clause behind `where` is the conditions. -/
theorem whereClause_eq {obj wheres : Members Json} (hobj : obj.list ≠ []) (hw : wheres.list ≠ [])
    (tbl : Text) :
    whereClause obj wheres tbl = some (separated (lit " and ") (wheres.list.map condText)) := by
  have hbuild := build_of_fits (b := .updateJson wheres tbl) hobj hw
  have hconds : wheres.sql.map equation = wheres.list.map condText := by
    unfold Members.sql
    rw [List.map_map]
    rfl
  simp only [Builder.build, Builder.statement, Statement.text, hconds] at hbuild
  unfold whereClause
  rw [updateHead_eq hobj, hbuild]
  simp only [Option.bind_eq_bind, Option.bind_some, List.drop_left]

/-! ### Truth -/

theorem sqlAnd_eq_true {a b : Option Bool} : sqlAnd a b = some true ↔ a = some true ∧ b = some true := by
  rcases a with - | - | - <;> rcases b with - | - | - <;> simp [sqlAnd]

/-- A comparison is true if the values are equal and not null. -/
theorem sqlEq_eq_true {a b : Value} : sqlEq a b = some true ↔ a = b ∧ b ≠ .null := by
  unfold sqlEq
  split_ifs with h
  · constructor
    · intro h'
      exact absurd h' (by simp)
    · rintro ⟨rfl, hb⟩
      exact absurd (h.elim id id) hb
  · rw [not_or] at h
    simp [h.2]

theorem evalConds_eq_true {T : Table} {row : Row T} {vs : List (Text × Value)} :
    evalConds row vs = some true ↔ ∀ x ∈ vs, row.value x.1 = x.2 ∧ x.2 ≠ .null := by
  induction vs with
  | nil => simp [evalConds]
  | cons x vs ih => rw [evalConds, sqlAnd_eq_true, ih, sqlEq_eq_true, List.forall_mem_cons]

/-- The operands are the columns and the constants of the clause. -/
theorem mem_operands {T : Table} {cs : List (Text × Const)} {vs : List (Text × Value)}
    (h : T.operands cs = some vs) :
    ∀ x ∈ vs, ∃ c, (x.1, c) ∈ cs ∧ T.operand (T.types x.1) c = some x.2 := by
  induction cs generalizing vs with
  | nil =>
    obtain rfl := Option.some.inj h
    simp
  | cons y cs ih =>
    simp only [Table.operands, Option.bind_eq_bind, Option.bind_eq_some_iff] at h
    obtain ⟨v, hv, vs', hvs, he⟩ := h
    obtain rfl := Option.some.inj he
    intro x hx
    rcases List.mem_cons.mp hx with rfl | hx
    · exact ⟨y.2, List.mem_cons_self, hv⟩
    · obtain ⟨c, hc, hcx⟩ := ih hvs x hx
      exact ⟨c, List.mem_cons_of_mem _ hc, hcx⟩

/-- Both sides of a comparison have the type of the column. -/
theorem hasType_operand {T : Table} {ty : SqlType} {c : Const} {v : Value}
    (h : T.operand ty c = some v) : v.HasType ty := by
  unfold Table.operand at h
  split at h
  · obtain rfl := Option.some.inj h
    trivial
  · split_ifs at h with hty
    obtain rfl := Option.some.inj h
    rw [hty]
    trivial
  · split_ifs at h with hty
    obtain rfl := Option.some.inj h
    rw [hty]
    trivial
  · exact T.input_typed ty _ v h

/-- The value is written as `null`. -/
def WrittenNull (v : Json) : Prop := v = .null ∨ v = .number .nonFinite

/-- The value of the constant that is written for a scalar. -/
def written : Json → Value
  | .boolean b => .boolean b
  | .number n => if n = .nonFinite then .null else numberValue n
  | .string s => .string s
  | _ => .null

theorem numberValue_finite {n : Number} (hn : n ≠ .nonFinite) : ∃ q, numberValue n = .number q :=
  ⟨_, (textNumber_text hn).symm⟩

theorem hasType_boolean {b : Bool} {ty : SqlType} (h : (Value.boolean b).HasType ty) : ty = .boolean := by
  rcases ty with - | - | -
  · rfl
  · exact absurd h id
  · exact absurd h id

theorem hasType_number {q : ℚ} {ty : SqlType} (h : (Value.number q).HasType ty) : ty = .numeric := by
  rcases ty with - | - | -
  · exact absurd h id
  · rfl
  · exact absurd h id

theorem hasType_string {s : Text} {ty : SqlType} (h : (Value.string s).HasType ty) :
    ty = .text ∧ '\x00' ∉ s := by
  rcases ty with - | - | -
  · exact absurd h id
  · exact absurd h id
  · exact ⟨rfl, h⟩

/-- A constant that is written for a value of the type of the column is read as it is meant. -/
theorem operand_constOf {T : Table} {ty : SqlType} {v : Json} (hv : Scalar v)
    (hty : ∀ x ∈ scalarValue v, x.HasType ty) : T.operand ty (constOf v) = some (written v) := by
  obtain rfl | ⟨b, rfl⟩ | ⟨n, rfl⟩ | ⟨s, rfl⟩ := hv.cases
  · rfl
  · obtain rfl := hasType_boolean (hty _ rfl)
    rfl
  · by_cases hn : n = .nonFinite
    · subst hn
      rfl
    · obtain ⟨q, hq⟩ := numberValue_finite hn
      have hnum := hty _ rfl
      rw [hq] at hnum
      obtain rfl := hasType_number hnum
      rw [constOf, written, if_neg hn, if_neg hn, ← textNumber_text hn]
      rfl
  · obtain ⟨rfl, hs⟩ := hasType_string (hty _ rfl)
    exact T.input_text s hs

theorem operands_constOf {T : Table} {l : List (Text × Json)} (hv : ∀ kv ∈ l, Scalar kv.2)
    (hty : ∀ kv ∈ l, ∀ x ∈ scalarValue kv.2, x.HasType (T.types kv.1)) :
    T.operands (l.map fun kv => (kv.1, constOf kv.2)) = some (l.map fun kv => (kv.1, written kv.2)) := by
  induction l with
  | nil => rfl
  | cons kv l ih =>
    have hkv := operand_constOf (T := T) (hv kv List.mem_cons_self) (hty kv List.mem_cons_self)
    have hl := ih (fun x hx => hv x (List.mem_cons_of_mem _ hx))
      fun x hx => hty x (List.mem_cons_of_mem _ hx)
    simp only [List.map_cons, Table.operands, hkv, hl]
    rfl

/-- A value that is not written as `null` is written as it is. -/
theorem scalarValue_written {v : Json} (hv : Scalar v) (hnull : ¬WrittenNull v) :
    scalarValue v = some (written v) ∧ written v ≠ .null := by
  obtain rfl | ⟨b, rfl⟩ | ⟨n, rfl⟩ | ⟨s, rfl⟩ := hv.cases
  · exact absurd (Or.inl rfl) hnull
  · exact ⟨rfl, by simp [written]⟩
  · have hn : n ≠ .nonFinite := fun hn => hnull (Or.inr (by rw [hn]))
    obtain ⟨q, hq⟩ := numberValue_finite hn
    rw [written, if_neg hn, hq, scalarValue, hq]
    exact ⟨rfl, by simp⟩
  · exact ⟨rfl, by simp [written]⟩

theorem written_of_writtenNull {v : Json} (h : WrittenNull v) : written v = .null := by
  rcases h with rfl | rfl
  · rfl
  · rfl

/-! ### Rows -/

/-- The row with another value in a column. -/
def Row.set {T : Table} (row : Row T) (k : Text) (v : Value) (hv : v.HasType (T.types k)) : Row T where
  value := Function.update row.value k v
  typed k' := by
    by_cases hk : k' = k
    · subst hk
      rwa [Function.update_self]
    · rw [Function.update_of_ne hk]
      exact row.typed k'

/-- A column can hold something else. -/
theorem exists_other (v : Value) (ty : SqlType) : ∃ w : Value, w ≠ v ∧ w.HasType ty := by
  by_cases hv : v = .null
  · subst hv
    rcases ty with - | - | -
    · exact ⟨.boolean true, by simp, trivial⟩
    · exact ⟨.number 0, by simp, trivial⟩
    · exact ⟨.string [], by simp, by simp [Value.HasType]⟩
  · exact ⟨.null, Ne.symm hv, trivial⟩

/-- The value that the conditions give for a column; null if they give none. -/
def givenValue (wheres : Members Json) (k : Text) : Value :=
  ((wheres.list.find? fun kv => kv.1 == k).bind fun kv => scalarValue kv.2).getD .null

/-- A row that has the given values, and null in the other columns. -/
def rowOf {T : Table} {wheres : Members Json} (h : T.Suits wheres) : Row T where
  value := givenValue wheres
  typed k := by
    rcases hf : wheres.list.find? (fun kv => kv.1 == k) with - | kv
    · rw [givenValue, hf]
      trivial
    · have hkey : kv.1 = k := by simpa using List.find?_some hf
      rw [givenValue, hf, Option.bind_some]
      rcases hv : scalarValue kv.2 with - | v
      · trivial
      · have hty := h kv (List.mem_of_find?_eq_some hf) v hv
        rwa [hkey] at hty

theorem exists_scalarValue {v : Json} (h : Scalar v) : ∃ x, scalarValue v = some x := by
  obtain rfl | ⟨b, rfl⟩ | ⟨n, rfl⟩ | ⟨s, rfl⟩ := h.cases
  · exact ⟨_, rfl⟩
  · exact ⟨_, rfl⟩
  · exact ⟨_, rfl⟩
  · exact ⟨_, rfl⟩

theorem matches_rowOf {T : Table} {wheres : Members Json} (hT : T.Suits wheres)
    (h : ∀ kv ∈ wheres.list, Scalar kv.2) : Matches wheres (rowOf hT) := by
  intro kv hkv
  obtain ⟨x, hx⟩ := exists_scalarValue (h kv hkv)
  have hfind : wheres.list.find? (fun kv' => kv'.1 == kv.1) = some kv := by
    rcases hf : wheres.list.find? (fun kv' => kv'.1 == kv.1) with - | kv'
    · have hnone := List.find?_eq_none.mp hf kv hkv
      exact absurd (beq_self_eq_true kv.1) hnone
    · have hkey : kv'.1 = kv.1 := by simpa using List.find?_some hf
      rw [hf, List.inj_on_of_nodup_map wheres.unique (List.mem_of_find?_eq_some hf) hkv hkey]
  simp only [rowOf, givenValue, hfind, Option.bind_some, hx, Option.getD_some]

/-- A clause does not depend on what is in a column that has no name for SQL. -/
theorem selects_set {T : Table} {obj wheres : Members Json} {tbl k : Text} (hk : ¬IsName k)
    {row : Row T} (h : Selects obj wheres tbl row) {v : Value} (hv : v.HasType (T.types k)) :
    Selects obj wheres tbl (row.set k v hv) := by
  obtain ⟨clause, cs, vs, hclause, hread, hvs, heval⟩ := h
  refine ⟨clause, cs, vs, hclause, hread, hvs, ?_⟩
  rw [evalConds_eq_true] at heval ⊢
  intro x hx
  have hne : x.1 ≠ k := by
    rintro rfl
    obtain ⟨c, hc, -⟩ := mem_operands hvs x hx
    exact hk (isName_of_readConds hread (x.1, c) hc)
  have hsame : (row.set k v hv).value x.1 = row.value x.1 := Function.update_of_ne hne _ _
  rw [hsame]
  exact heval x hx

theorem Conditions.readable {wheres : Members Json} (h : Conditions wheres)
    (hcol : ∀ kv ∈ wheres.list, IsName kv.1) : ∀ kv ∈ wheres.list, Readable kv := fun kv hkv =>
  ⟨hcol kv hkv, readConst_value (h.scalar kv hkv) (h.quotes kv hkv)⟩

/-- With names for all columns a clause is true where the columns hold what is written. -/
theorem selects_of_names {T : Table} {obj wheres : Members Json} (hobj : obj.list ≠ [])
    (hw : Conditions wheres) (hT : T.Suits wheres) (hcol : ∀ kv ∈ wheres.list, IsName kv.1) (tbl : Text)
    (row : Row T) :
    Selects obj wheres tbl row ↔
      ∀ kv ∈ wheres.list, row.value kv.1 = written kv.2 ∧ written kv.2 ≠ .null := by
  have hread := readClause_separated hw.ne (hw.readable hcol)
  have hvalues := operands_constOf hw.scalar hT
  have heval : evalConds row (wheres.list.map fun kv => (kv.1, written kv.2)) = some true ↔
      ∀ kv ∈ wheres.list, row.value kv.1 = written kv.2 ∧ written kv.2 ≠ .null := by
    rw [evalConds_eq_true, List.forall_mem_map]
  constructor
  · rintro ⟨clause, cs, vs, hclause, hcs, hvs, htrue⟩
    rw [whereClause_eq hobj hw.ne] at hclause
    rw [← Option.some.inj hclause, hread] at hcs
    rw [← Option.some.inj hcs, hvalues] at hvs
    rw [← Option.some.inj hvs] at htrue
    exact heval.mp htrue
  · intro h
    exact ⟨_, _, _, whereClause_eq hobj hw.ne tbl, hread, hvalues, heval.mpr h⟩

/-- **When the conditions select the rows they describe**, in a table whose columns have the types of the
given values: every key is read as the column of that name, and no value is written as `null`. -/
theorem selects_iff {T : Table} {obj wheres : Members Json} (hobj : obj.list ≠ [])
    (hw : Conditions wheres) (hT : T.Suits wheres) (tbl : Text) :
    (∀ row : Row T, Selects obj wheres tbl row ↔ Matches wheres row) ↔
      ∀ kv ∈ wheres.list, IsName kv.1 ∧ ¬WrittenNull kv.2 := by
  constructor
  · intro h
    have hmatch := matches_rowOf hT hw.scalar
    have hsel := (h (rowOf hT)).mpr hmatch
    have hcol : ∀ kv ∈ wheres.list, IsName kv.1 := by
      intro kv hkv
      by_contra hk
      -- the clause does not see another value in the column
      obtain ⟨v, hne, hv⟩ := exists_other ((rowOf hT).value kv.1) (T.types kv.1)
      have hother := (h _).mp (selects_set hk hsel hv) kv hkv
      rw [hmatch kv hkv, Option.some.injEq] at hother
      have hset : ((rowOf hT).set kv.1 v hv).value kv.1 = v := Function.update_self _ _ _
      exact hne (hset.symm.trans hother.symm)
    have heval := (selects_of_names hobj hw hT hcol tbl _).mp hsel
    intro kv hkv
    refine ⟨hcol kv hkv, fun hnull => ?_⟩
    exact (heval kv hkv).2 (written_of_writtenNull hnull)
  · intro h row
    rw [selects_of_names hobj hw hT (fun kv hkv => (h kv hkv).1) tbl row]
    unfold Matches
    refine forall_congr' fun kv => forall_congr' fun hkv => ?_
    obtain ⟨hvalue, hne⟩ := scalarValue_written (hw.scalar kv hkv) (h kv hkv).2
    rw [hvalue, Option.some.injEq]
    constructor
    · rintro ⟨heq, -⟩
      exact heq.symm
    · intro heq
      exact ⟨heq.symm, hne⟩

/-- A condition on one column. -/
def oneCond (k : Text) (v : Json) : Members Json := ⟨[(k, v)], by simp⟩

theorem forall_oneCond {k : Text} {v : Json} {P : Text × Json → Prop} :
    (∀ kv ∈ (oneCond k v).list, P kv) ↔ P (k, v) := List.forall_mem_singleton

/-- **A string for a column of another type** selects the rows that hold what it is read as, and no row holds
the string. -/
theorem selects_of_input {T : Table} {obj : Members Json} (hobj : obj.list ≠ []) {k s : Text} {v : Value}
    (hk : IsName k) (hs : '\'' ∉ s) (hv : T.input (T.types k) s = some v) (hnull : v ≠ .null)
    (htype : T.types k ≠ .text) (tbl : Text) (row : Row T) :
    (row.value k = v → Selects obj (oneCond k (.string s)) tbl row) ∧
      ¬Matches (oneCond k (.string s)) row := by
  have hread : ∀ kv ∈ (oneCond k (.string s)).list, Readable kv :=
    forall_oneCond.mpr ⟨hk, readConst_value trivial (by simpa using hs)⟩
  have hvs : T.operands [(k, constOf (.string s))] = some [(k, v)] := by
    simp only [Table.operands, constOf, Table.operand, hv]
    rfl
  refine ⟨fun hrow => ?_, fun hmatch => ?_⟩
  · refine ⟨_, _, _, whereClause_eq hobj (by simp [oneCond]) tbl,
      readClause_separated (by simp [oneCond]) hread, hvs, ?_⟩
    simp [evalConds_eq_true, hrow, hnull]
  · have hvalue := Option.some.inj (forall_oneCond.mp hmatch)
    have htyped := row.typed k
    rw [← hvalue] at htyped
    exact htype (hasType_string htyped).1

/-- A number for a column of numbers and a text for a column of texts. -/
def twoConds : Members Json :=
  ⟨[(['a'], .number (.integer 3)), (['b'], .string ['x'])], by simp⟩

/-- A table with a column of numbers. -/
def someTable : Table where
  types k := if k = ['a'] then .numeric else .text
  input
    | .text, s => if '\x00' ∈ s then none else some (.string s)
    | .numeric, s => ((readNumber s).filter fun x => x.2 = []).map fun x => .number (textNumber x.1)
    | .boolean, _ => none
  input_typed ty s v h := by
    rcases ty with - | - | -
    · cases h
    · obtain ⟨x, -, rfl⟩ := Option.map_eq_some_iff.mp h
      trivial
    · dsimp only at h
      split_ifs at h with hs
      obtain rfl := Option.some.inj h
      exact hs
  input_text s hs := if_neg hs

theorem twoConds_conditions : Conditions twoConds := by
  refine ⟨by simp [twoConds], ?_, ?_⟩
  · intro kv hkv
    simp only [twoConds, List.mem_cons, List.not_mem_nil, or_false] at hkv
    rcases hkv with rfl | rfl
    · trivial
    · trivial
  · intro kv hkv s hs
    simp only [twoConds, List.mem_cons, List.not_mem_nil, or_false] at hkv
    rcases hkv with rfl | rfl
    · simp at hs
    · obtain rfl := Json.string.inj hs
      simp

theorem someTable_suits : someTable.Suits twoConds := by
  intro kv hkv v hv
  simp only [twoConds, List.mem_cons, List.not_mem_nil, or_false] at hkv
  rcases hkv with rfl | rfl
  · obtain rfl := Option.some.inj hv
    trivial
  · obtain rfl := Option.some.inj hv
    simp [someTable, Value.HasType]

/-- Conditions on two columns. -/
theorem selects_twoConds : Conditions twoConds ∧ someTable.Suits twoConds ∧
    ∀ row : Row someTable, Selects twoConds twoConds ['t'] row ↔ Matches twoConds row := by
  refine ⟨twoConds_conditions, someTable_suits,
    (selects_iff twoConds_conditions.ne twoConds_conditions someTable_suits ['t']).mpr ?_⟩
  intro kv hkv
  simp only [twoConds, List.mem_cons, List.not_mem_nil, or_false] at hkv
  rcases hkv with rfl | rfl
  · exact ⟨by decide, by simp [WrittenNull]⟩
  · exact ⟨by decide, by simp [WrittenNull]⟩

/-- A null condition does not select the rows whose column is null. -/
theorem nullCond_not_selects :
    ¬∀ (T : Table) (obj wheres : Members Json) (tbl : Text) (row : Row T), obj.list ≠ [] →
      Conditions wheres → (Selects obj wheres tbl row ↔ Matches wheres row) := by
  intro h
  have hobj : twoConds.list ≠ [] := twoConds_conditions.ne
  have hw : Conditions (oneCond ['a'] .null) :=
    ⟨by simp [oneCond], forall_oneCond.mpr trivial, forall_oneCond.mpr (by simp)⟩
  have hT : someTable.Suits (oneCond ['a'] .null) := by
    refine forall_oneCond.mpr fun v hv => ?_
    obtain rfl := Option.some.inj hv
    trivial
  have hcol : ∀ kv ∈ (oneCond ['a'] .null).list, IsName kv.1 := forall_oneCond.mpr (by decide)
  have hsel := (h someTable _ _ ['t'] (rowOf hT) hobj hw).mpr (matches_rowOf hT hw.scalar)
  have heval := (selects_of_names hobj hw hT hcol ['t'] _).mp hsel
  exact (forall_oneCond.mp heval).2 rfl

end Jkit.Db.Where
