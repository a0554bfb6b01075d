import Jkit.Lib.Reader
import Jkit.Db.Where

/-! # What the database reads

`readSql` reads a statement of the kinds that the builders of `json2sql.cpp` write, by PostgreSQL's lexical
rules: names as `readName` reads them, tables that may be qualified, constants as `readConst` reads them and
without a zero character, which no text of the database has. `meaning` is the statement that a call of a
builder is there for, with the JSON values as constants.

`means_iff` says for which arguments the text of a builder is read as its meaning: the object, the
conditions and the conflict target are not empty, every name is read as the name that it is, and there is no
single quote in any string, at any depth, and no zero character in a string that is a value itself. -/

namespace Jkit.Db.Reading

open Jkit.Lib.Scan Jkit.Lib.Reader Jkit.Lib.Quote
open Jkit.Db.JsonText Jkit.Db.SqlConst Jkit.Db.SqlName Jkit.Db.Json2Sql Jkit.Db.Builders Jkit.Db.Where

/-! ### Statements and their reader -/

/-- What is done with a row that is in conflict: nothing, or columns are set to those of `EXCLUDED`. -/
inductive Conflict
  | nothing
  | update (sets : List (Text × Text))
deriving DecidableEq

/-- A statement, as the database has read it. -/
inductive Sql
  | update (tbl : Text) (sets conds : List (Text × Const))
  | insert (tbl : Text) (columns : List Text) (values : List Const)
  | upsert (tbl : Text) (columns : List Text) (values : List Const) (target : List Text)
      (action : Conflict)
deriving DecidableEq

/-- The constant can be in the database. -/
def storable : Const → Bool
  | .string s => '\x00' ∉ s
  | _ => true

/-- A constant of a statement. -/
def readValue : Read Char Const := fun s => (readConst s).filter fun x => storable x.1

/-- A column with the constant that it is set to or compared with. -/
def readAssign : Read Char (Text × Const) := both readName (behind ['='] readValue)

def readExcluded : Read Char (Text × Text) := both readName (behind (lit "=EXCLUDED.") readLabel)

def readAction : Read Char Conflict :=
  mapped (Sum.elim (fun _ => .nothing) .update)
    (either (behind (lit "nothing ") nothing)
      (behind (lit "update ") (blanks ' ' (behind (lit "set ") (sepBy [','] readExcluded)))))

/-- The conflict target and the action; there may be none. -/
def readOnConflict : Read Char ((List Text × Conflict) ⊕ Unit) :=
  either
    (behind (lit " on conflict(") (both (sepBy [','] readName) (behind (lit ") do ") readAction)))
    nothing

def ofInsert : Text × List Text × List Const × ((List Text × Conflict) ⊕ Unit) → Sql
  | (tbl, columns, values, .inl (target, action)) => .upsert tbl columns values target action
  | (tbl, columns, values, .inr _) => .insert tbl columns values

def readInsert : Read Char Sql :=
  mapped ofInsert (behind (lit "insert into ") (both readTable (behind ['('] (both
    (sepBy [','] readName) (behind (lit ") values(") (both (sepBy [','] readValue)
      (behind [')'] readOnConflict)))))))

def ofUpdate (x : Text × List (Text × Const) × List (Text × Const)) : Sql := .update x.1 x.2.1 x.2.2

def readUpdate : Read Char Sql :=
  mapped ofUpdate (behind (lit "update ") (both readTable (behind (lit " set ") (both
    (sepBy [','] readAssign) (behind (lit " where ") (sepBy (lit " and ") readAssign))))))

/-- A whole statement. -/
def readSql (s : Text) : Option Sql := (whole readUpdate s).or (whole readInsert s)

/-! ### What a builder is there for -/

/-- The constant that a value stands for: an array by its array literal, an object by its JSON text. -/
def literal : Json → Const
  | .array vs => .string ('{' :: dumpElems vs ++ ['}'])
  | .object kvs => .string (dump (.object kvs))
  | v => constOf v

/-- The columns of an object with the constants of their values. -/
def given (m : Members Json) : List (Text × Const) := m.list.map fun kv => (kv.1, literal kv.2)

/-- The assignments of an upsert. -/
def excludedOf (obj : Members Json) (exceptKey : Text) : List (Text × Text) :=
  (obj.erase exceptKey).keys.map fun k => (k, k)

/-- The statement that a call of a builder is there for. -/
def meaning (obj : Members Json) : Builder → Sql
  | .update k v t => .update t (given obj) [(k, .string v)]
  | .updateMap w t => .update t (given obj) (w.list.map fun kv => (kv.1, .string kv.2))
  | .updateJson w t => .update t (given obj) (given w)
  | .insert t => .insert t obj.keys ((given obj).map Prod.snd)
  | .upsertUpdate2 k1 k2 e t =>
    .upsert t obj.keys ((given obj).map Prod.snd) [k1, k2] (.update (excludedOf obj e))
  | .upsertUpdate3 k1 k2 k3 e t =>
    .upsert t obj.keys ((given obj).map Prod.snd) [k1, k2, k3] (.update (excludedOf obj e))
  | .upsertUpdate ks e t =>
    .upsert t obj.keys ((given obj).map Prod.snd) ks (.update (excludedOf obj e))
  | .upsertNothing ks t => .upsert t obj.keys ((given obj).map Prod.snd) ks .nothing

/-- The table. -/
def table : Builder → Text
  | .update _ _ t => t
  | .updateMap _ t => t
  | .updateJson _ t => t
  | .insert t => t
  | .upsertUpdate2 _ _ _ t => t
  | .upsertUpdate3 _ _ _ _ t => t
  | .upsertUpdate _ _ t => t
  | .upsertNothing _ t => t

/-- The columns of the conditions and of the conflict target. -/
def columns : Builder → List Text
  | .update k _ _ => [k]
  | .updateMap w _ => w.keys
  | .updateJson w _ => w.keys
  | .insert _ => []
  | .upsertUpdate2 k1 k2 _ _ => [k1, k2]
  | .upsertUpdate3 k1 k2 k3 _ _ => [k1, k2, k3]
  | .upsertUpdate ks _ _ => ks
  | .upsertNothing ks _ => ks

/-- The values of the conditions. -/
def condValues : Builder → List Json
  | .update _ v _ => [.string v]
  | .updateMap w _ => w.list.map fun kv => .string kv.2
  | .updateJson w _ => w.list.map Prod.snd
  | _ => []

/-- No single quote at any depth, and no zero character in a string; inside of arrays and objects it is
escaped. -/
def Clean (v : Json) : Prop := (∀ s ∈ strings v, '\'' ∉ s) ∧ ∀ s, v = .string s → '\x00' ∉ s

/-- The names are read as they are, and the values can be written. -/
structure Safe (obj : Members Json) (b : Builder) : Prop where
  table : IsTable (table b)
  keys : ∀ k ∈ obj.keys, IsName k
  columns : ∀ k ∈ columns b, IsName k
  values : ∀ kv ∈ obj.list, Clean kv.2
  conds : ∀ v ∈ condValues b, Clean v

/-- The builder returns a text, and the database reads it as the statement that was meant. -/
def Means (obj : Members Json) (b : Builder) : Prop :=
  (b.build obj).bind readSql = some (meaning obj b)

/-! ### Names and tables -/

/-- **A name is read as it is** exactly if it is a name. -/
theorem exact_readName (k : Text) : Exact readName (Stops nameChar) k k (IsName k) :=
  Exact.of_imp (fun hk _ hr => readName_stops hk hr) fun _ _ _ h => isName_of_readName h

theorem exact_readLabel (k : Text) : Exact readLabel (Stops nameChar) k k (IsLabel k) :=
  Exact.of_imp (fun hk _ hr => hk.readLabel_append hr) fun _ _ _ h => isLabel_of_readLabel h

theorem exact_readTable (t : Text) : Exact readTable (Stops tableChar) t t (IsTable t) :=
  Exact.of_imp (fun ht _ hr => readTable_stops ht hr) fun _ _ _ h => isTable_of_readTable h

/-! ### Constants -/

theorem ends_comma : Ends ',' := ⟨by decide, by decide, by decide, by decide, by decide, by decide⟩

theorem ends_paren : Ends ')' := ⟨by decide, by decide, by decide, by decide, by decide, by decide⟩

/-- What stands behind a constant ends it. -/
def ConstEnd (r : Text) : Prop := ∀ c ∈ r.head?, Ends c

theorem constEnd_nil : ConstEnd [] := by simp [ConstEnd]

theorem constEnd_cons {c : Char} (hc : Ends c) (r : Text) : ConstEnd (c :: r) := by
  simpa [ConstEnd] using hc

theorem readConst_constEnd {t r : Text} {c : Const} (h : readConst t = some (c, [])) (hr : ConstEnd r) :
    readConst (t ++ r) = some (c, r) := by
  rcases r with - | ⟨b, r⟩
  · rwa [List.append_nil]
  · exact readConst_stop (hr b rfl) h r

/-- A value of a statement is a constant that can be stored. -/
theorem exact_storable {t : Text} {c : Const} {P : Prop} (h : Exact readConst ConstEnd t c P) :
    Exact readValue ConstEnd t c (P ∧ storable c = true) := by
  intro r hr s
  rw [readValue, Option.filter_eq_some_iff, h r hr s]
  tauto

/-- A constant in quotes is read as it is exactly if it has no quotes. -/
theorem exact_const (t : Text) : Exact readConst ConstEnd (quotedValue t) (.string t) ('\'' ∉ t) := by
  have hquoted : quotedValue t = '\'' :: t ++ ['\''] := rfl
  refine Exact.of_imp ?_ ?_
  · intro ht r hr
    refine readConst_constEnd ?_ hr
    rw [hquoted]
    exact readConst_string.mpr ⟨paired_of_notMem ht, by rw [collapse_of_notMem ht]⟩
  · intro r hr s h
    have hq : r.head? ≠ some '\'' := fun hq => (hr _ hq).quote rfl
    have hread : readConst (quotedValue t ++ r) =
        (read '\'' (t ++ '\'' :: r)).map fun x => (.string x.1, x.2) := by
      rw [hquoted, List.append_assoc, List.singleton_append]
      rfl
    rw [hread] at h
    obtain ⟨⟨t', s'⟩, ht', he⟩ := Option.map_eq_some_iff.mp h
    simp only [Prod.mk.injEq, Const.string.injEq] at he
    obtain ⟨rfl, rfl⟩ := he
    exact notMem_of_read_self hq ht'

/-- **A text in quotes is read as it is** exactly if it is clean. -/
theorem exact_quoted (t : Text) :
    Exact readValue ConstEnd (quotedValue t) (.string t) (Clean (.string t)) :=
  (exact_storable (exact_const t)).congr (by simp [Clean, strings, storable])

/-- The text of an array or an object has no zero character of its own. -/
theorem exact_document {t : Text} (ht : '\x00' ∉ t) :
    Exact readValue ConstEnd (quotedValue t) (.string t) ('\'' ∉ t) :=
  (exact_storable (exact_const t)).congr (by simp [storable, ht])

/-- **A value is read as its constant** exactly if it is clean. -/
theorem exact_value (v : Json) : Exact readValue ConstEnd (valueToSqlStr v) (literal v) (Clean v) := by
  -- a constant without quotes is read as it is, whatever its value
  have hplain : ∀ {t c}, readConst t = some (c, []) → storable c = true →
      Exact readValue ConstEnd t c True := by
    intro t c h hc
    have hread : Exact readConst ConstEnd t c True :=
      Exact.of_imp (fun _ r hr => readConst_constEnd h hr) fun _ _ _ _ => trivial
    exact (exact_storable hread).congr (by simp [hc])
  rcases v with - | b | n | t | vs | kvs
  · exact (hplain (readConst_value (v := .null) trivial (by simp)) rfl).congr (by simp [Clean, strings])
  · exact (hplain (readConst_value (v := .boolean b) trivial (by simp)) rfl).congr
      (by simp [Clean, strings])
  · have hn : storable (constOf (.number n)) = true := by
      by_cases hn : n = .nonFinite
      · simp [constOf, hn, storable]
      · simp [constOf, hn, storable]
    exact (hplain (readConst_value (v := .number n) trivial (by simp)) hn).congr
      (by simp [Clean, strings])
  · exact exact_quoted t
  · rw [valueToSqlStr_array]
    have hzero : '\x00' ∉ '{' :: dumpElems vs ++ ['}'] := by simp [zero_notMem_dumpElems]
    refine (exact_document hzero).congr ?_
    have hbody : '\'' ∉ '{' :: dumpElems vs ++ ['}'] ↔ '\'' ∉ dumpElems vs := by simp
    rw [hbody, dumpElems_local local_notMem]
    simp [Clean, strings]
  · refine (exact_document (zero_notMem_dump _)).congr ?_
    rw [dump_local local_notMem]
    simp [Clean]

/-! ### Lists -/

theorem separated_eq (sep : Text) (l : List Text) : separated sep l = sep.intercalate l := by
  induction l with
  | nil => rfl
  | cons x l ih =>
    rcases l with - | ⟨y, l⟩
    · simp [separated]
    · rw [separated, List.intercalate_cons_cons, ih]

theorem afterWord_head {c : Char} {w r : Text} (h : r.head? ≠ some c) : afterWord (c :: w) r = none := by
  rcases r with - | ⟨d, r⟩
  · rfl
  · have hcd : c ≠ d := fun hcd => h (by simp [hcd])
    rw [afterWord, if_neg hcd]

/-- A text that begins with the character. -/
def Begins (c : Char) (r : Text) : Prop := r.head? = some c

theorem Begins.stops {c : Char} {r : Text} (h : Begins c r) {p : Char → Bool} (hc : p c = false) :
    Stops p r := by
  intro d hd
  rw [Option.mem_def, h, Option.some.injEq] at hd
  rwa [← hd]

theorem Begins.constEnd {c : Char} {r : Text} (h : Begins c r) (hc : Ends c) : ConstEnd r := by
  intro d hd
  rw [Option.mem_def, h, Option.some.injEq] at hd
  rwa [← hd]

theorem Begins.ne {c d : Char} {r : Text} (h : Begins c r) (hcd : c ≠ d) : r.head? ≠ some d := by
  rw [h]
  simpa using hcd

theorem exact_assign {t : Text} {c : Const} {P : Prop} (h : Exact readValue ConstEnd t c P) (k : Text) :
    Exact readAssign ConstEnd (equation (k, t)) (k, c) (IsName k ∧ P) := by
  rw [readAssign]
  exact (exact_readName k).both (h.behind ['=']) fun r _ => stops_cons (by decide)

/-- Names with commas between them, up to a parenthesis. -/
theorem exact_names {l : List Text} (hl : l ≠ []) :
    Exact (sepBy [','] readName) (Begins ')') (separated [','] l) l (∀ k ∈ l, IsName k) := by
  have h : Exact (sepBy [','] readName) (Begins ')') ([','].intercalate (l.map id)) (l.map id)
      (∀ k ∈ l, IsName k) :=
    Exact.sepBy (by simp) (fun r => stops_cons (by decide))
      (fun r hr => ⟨hr.stops (by decide), afterWord_head (hr.ne (by decide))⟩) hl
      fun k _ => exact_readName k
  rwa [List.map_id, ← separated_eq] at h

section Items

variable {ι : Type} {l : List ι} {text : ι → Text} {const : ι → Const} {P : ι → Prop}

/-- Constants with commas between them, up to a parenthesis. -/
theorem exact_consts (hl : l ≠ []) (h : ∀ i ∈ l, Exact readValue ConstEnd (text i) (const i) (P i)) :
    Exact (sepBy [','] readValue) (Begins ')') (separated [','] (l.map text)) (l.map const)
      (∀ i ∈ l, P i) := by
  rw [separated_eq]
  exact Exact.sepBy (by simp) (fun r => constEnd_cons ends_comma r)
    (fun r hr => ⟨hr.constEnd ends_paren, afterWord_head (hr.ne (by decide))⟩) hl h

/-- Assignments or comparisons with a separator between them. -/
theorem exact_assigns (hl : l ≠ []) (h : ∀ i ∈ l, Exact readValue ConstEnd (text i) (const i) (P i))
    (name : ι → Text) {b : Char} (hb : Ends b) (w : Text) {G : Text → Prop}
    (hG : ∀ r, G r → ConstEnd r ∧ r.head? ≠ some b) :
    Exact (sepBy (b :: w) readAssign) G
      (separated (b :: w) ((l.map fun i => (name i, text i)).map equation))
      (l.map fun i => (name i, const i)) (∀ i ∈ l, IsName (name i) ∧ P i) := by
  rw [separated_eq, List.map_map]
  exact Exact.sepBy (by simp) (fun r => constEnd_cons hb _)
    (fun r hr => ⟨(hG r hr).1, afterWord_head (hG r hr).2⟩) hl fun i hi => exact_assign (h i hi) (name i)

end Items

theorem forall_keys {V : Type} {m : Members V} {Q : Text → Prop} :
    (∀ k ∈ m.keys, Q k) ↔ ∀ kv ∈ m.list, Q kv.1 := by
  simp [Members.keys]

theorem forall_map_iff {w : Members Text} : (∀ kv ∈ w.list, IsName kv.1 ∧ Clean (.string kv.2)) ↔
    (∀ k ∈ w.keys, IsName k) ∧ ∀ v ∈ w.list.map fun kv => Json.string kv.2, Clean v := by
  rw [forall_keys, List.forall_mem_map, ← forall_and]
  simp only [← imp_and]

/-- The columns and the values of an object are read as they are. -/
def SafeObject (m : Members Json) : Prop :=
  (∀ k ∈ m.keys, IsName k) ∧ ∀ kv ∈ m.list, Clean kv.2

theorem safeObject_iff {m : Members Json} :
    SafeObject m ↔ ∀ kv ∈ m.list, IsName kv.1 ∧ Clean kv.2 := by
  rw [SafeObject, forall_keys, ← forall_and]
  simp only [← imp_and]

/-- The assignments or comparisons that an object gives. -/
theorem exact_given {m : Members Json} (hm : m.list ≠ []) {b : Char} (hb : Ends b) (w : Text)
    {G : Text → Prop} (hG : ∀ r, G r → ConstEnd r ∧ r.head? ≠ some b) :
    Exact (sepBy (b :: w) readAssign) G (separated (b :: w) (m.sql.map equation)) (given m)
      (SafeObject m) := by
  rw [safeObject_iff]
  exact exact_assigns hm (fun kv _ => exact_value kv.2) Prod.fst hb w hG

/-! ### Fixed words -/

theorem begins_lit {s : String} {c : Char} (h : s.toList.head? = some c) (r : Text) :
    Begins c (lit s ++ r) := by
  unfold Begins lit
  rw [List.head?_append, h]
  rfl

theorem Begins.append {c : Char} {t : Text} (h : Begins c t) (r : Text) : Begins c (t ++ r) := by
  unfold Begins at h ⊢
  rw [List.head?_append, h]
  rfl

/-- A reader that waits for another word reads nothing. -/
theorem behind_lit_none {α : Type} {s : String} {c d : Char} (hs : s.toList.head? = some c) {r : Text}
    (hr : Begins d r) (hcd : d ≠ c) (p : Read Char α) : behind (lit s) p r = none := by
  obtain ⟨w, hw⟩ : ∃ w, lit s = c :: w := by
    unfold lit
    exact ⟨_, List.eq_cons_of_mem_head? hs⟩
  rw [behind, hw, afterWord_head (hr.ne hcd)]
  rfl

/-! ### Updates -/

theorem ofUpdate_injective : ofUpdate.Injective := by
  rintro ⟨t, a, b⟩ ⟨t', a', b'⟩ h
  simpa [ofUpdate] using h

theorem exact_readUpdate {obj : Members Json} (hobj : obj.list ≠ []) (tbl : Text) {conds : Text}
    {cs : List (Text × Const)} {P : Prop}
    (h : Exact (sepBy (lit " and ") readAssign) (· = []) conds cs P) :
    Exact readUpdate (· = []) (lit "update " ++ (tbl ++ (lit " set " ++
        (separated [','] (obj.sql.map equation) ++ (lit " where " ++ conds)))))
      (.update tbl (given obj) cs) (IsTable tbl ∧ SafeObject obj ∧ P) := by
  have hsets := exact_given hobj (G := Begins ' ') ends_comma []
    fun r hr => ⟨hr.constEnd ends_blank, hr.ne (by decide)⟩
  have hrest := hsets.both (h.behind (lit " where ")) fun r _ =>
    (begins_lit (by decide) conds).append r
  have htbl := (exact_readTable tbl).both (hrest.behind (lit " set ")) fun r _ =>
    ((begins_lit (c := ' ') (by decide) _).append r).stops (by decide)
  exact (htbl.behind (lit "update ")).mapped ofUpdate_injective

/-- What is read as an insert is no update. -/
theorem whole_readInsert_ne (s tbl : Text) (sets conds : List (Text × Const)) :
    whole readInsert s ≠ some (.update tbl sets conds) := by
  rw [whole]
  rcases h : readInsert s with - | ⟨x, - | ⟨c, r⟩⟩
  · simp
  · obtain ⟨⟨⟨t, cols, vals, ⟨target, action⟩ | u⟩, r⟩, -, he⟩ := Option.map_eq_some_iff.mp h
    · obtain ⟨rfl, -⟩ := Prod.mk.inj he
      simp [ofInsert]
    · obtain ⟨rfl, -⟩ := Prod.mk.inj he
      simp [ofInsert]
  · simp

theorem readSql_update {s tbl : Text} {sets conds : List (Text × Const)} :
    readSql s = some (.update tbl sets conds) ↔ whole readUpdate s = some (.update tbl sets conds) := by
  rw [readSql]
  rcases whole readUpdate s with - | x
  · simp [whole_readInsert_ne]
  · simp

/-- When an update is read as it is meant, with the condition for its clause. -/
theorem readSql_update_iff {obj : Members Json} (hobj : obj.list ≠ []) (tbl : Text)
    {conds : List (Text × Text)} {cs : List (Text × Const)} {P : Prop}
    (h : Exact (sepBy (lit " and ") readAssign) (· = []) (separated (lit " and ") (conds.map equation)) cs P) :
    readSql (Statement.update tbl obj.sql conds).text = some (.update tbl (given obj) cs) ↔
      IsTable tbl ∧ SafeObject obj ∧ P := by
  rw [readSql_update, ← (exact_readUpdate hobj tbl h).whole rfl]
  simp [Statement.text]

/-! ### Inserts -/

theorem ofInsert_injective : ofInsert.Injective := by
  rintro ⟨t, a, b, ⟨g, c⟩ | u⟩ ⟨t', a', b', ⟨g', c'⟩ | u'⟩ h
  · simpa [ofInsert] using h
  · simp [ofInsert] at h
  · simp [ofInsert] at h
  · simpa [ofInsert] using h

theorem exact_values {obj : Members Json} (hobj : obj.list ≠ []) :
    Exact (sepBy [','] readValue) (Begins ')') (separated [','] (obj.sql.map Prod.snd))
      ((given obj).map Prod.snd) (∀ kv ∈ obj.list, Clean kv.2) := by
  have h := exact_consts hobj fun kv _ => exact_value kv.2
  simpa [Members.sql, given, Function.comp_def] using h

theorem exact_readInsert {obj : Members Json} (hobj : obj.list ≠ []) (tbl : Text) {tail : Text}
    {x : (List Text × Conflict) ⊕ Unit} {P : Prop} (h : Exact readOnConflict (· = []) tail x P) :
    Exact readInsert (· = []) (lit "insert into " ++ (tbl ++ (['('] ++ (separated [','] obj.keys ++
        (lit ") values(" ++ (separated [','] (obj.sql.map Prod.snd) ++ ([')'] ++ tail)))))))
      (ofInsert (tbl, obj.keys, (given obj).map Prod.snd, x)) (IsTable tbl ∧ SafeObject obj ∧ P) := by
  have hkeys : obj.keys ≠ [] := by simpa [Members.keys] using hobj
  have hvals := (exact_values hobj).both (h.behind [')']) fun r _ => rfl
  have hcols := (exact_names hkeys).both (hvals.behind (lit ") values(")) fun r _ =>
    (begins_lit (by decide) _).append r
  have htbl := (exact_readTable tbl).both (hcols.behind ['(']) fun r _ => stops_cons (by decide)
  refine ((htbl.behind (lit "insert into ")).mapped ofInsert_injective).congr ?_
  rw [SafeObject, and_assoc]

theorem readSql_insert {s : Text} (hs : Begins 'i' s) : readSql s = whole readInsert s := by
  have hnone : readUpdate s = none := by
    rw [readUpdate, mapped, behind_lit_none (c := 'u') (by decide) hs (by decide)]
    rfl
  rw [readSql, whole, hnone]
  rfl

/-- Without a conflict clause. -/
theorem exact_noConflict : Exact readOnConflict (· = []) [] (.inr ()) True := by
  refine (exact_nothing _).right ?_
  rintro r rfl
  rw [behind, lit]
  rfl

/-! ### Conflicts -/

theorem exact_excluded (k : Text) :
    Exact readExcluded (Stops nameChar) (equation (k, excluded k)) (k, k) (IsName k) := by
  have htext : equation (k, excluded k) = k ++ (lit "=EXCLUDED." ++ k) := by
    have hword : lit "=EXCLUDED." = '=' :: lit "EXCLUDED." := by unfold lit; decide
    rw [hword]
    rfl
  rw [htext, readExcluded]
  refine ((exact_readName k).both ((exact_readLabel k).behind (lit "=EXCLUDED.")) fun r _ =>
    ((begins_lit (c := '=') (by decide) _).append r).stops (by decide)).congr ?_
  exact and_iff_left_of_imp fun hk => (isName_iff.mp hk).1

theorem exact_excludedSets {obj : Members Json} {e : Text} (h : ∃ k ∈ obj.keys, k ≠ e) :
    Exact (sepBy [','] readExcluded) (· = []) (separated [','] ((obj.excludedSets e).map equation))
      (excludedOf obj e) (∀ k ∈ (obj.erase e).keys, IsName k) := by
  have hne : (obj.erase e).keys ≠ [] := by
    obtain ⟨k, hk⟩ := h
    exact List.ne_nil_of_mem (mem_keys_erase.mpr hk)
  rw [separated_eq, Members.excludedSets, List.map_map]
  refine Exact.sepBy (by simp) (fun r => stops_cons (by decide)) ?_ hne fun k _ => exact_excluded k
  rintro r rfl
  exact ⟨stops_nil, rfl⟩

theorem elim_injective : (Sum.elim (fun _ => Conflict.nothing) Conflict.update :
    Unit ⊕ List (Text × Text) → Conflict).Injective := by
  rintro (u | a) (v | b) h
  · rfl
  · simp at h
  · simp at h
  · simpa using h

theorem exact_doNothing : Exact readAction (· = []) Action.nothing.text .nothing True := by
  have h := ((exact_nothing (σ := Char) (· = [])).behind (lit "nothing ")).left
    (behind (lit "update ") (blanks ' ' (behind (lit "set ") (sepBy [','] readExcluded))))
  rw [List.append_nil] at h
  exact h.mapped elim_injective

theorem exact_doUpdate {obj : Members Json} {e : Text} (h : ∃ k ∈ obj.keys, k ≠ e) (n : ℕ) :
    Exact readAction (· = []) (Action.update (n + 1) (obj.excludedSets e)).text
      (.update (excludedOf obj e)) (∀ k ∈ (obj.erase e).keys, IsName k) := by
  have hsets := (exact_excludedSets h).behind (lit "set ")
  have hblanks := (exact_blanks hsets ' ' n fun r _ =>
    ((begins_lit (c := 's') (by decide) _).append r).ne (by decide)).behind (lit "update ")
  have htext : (Action.update (n + 1) (obj.excludedSets e)).text = lit "update " ++
      (List.replicate n ' ' ++ (lit "set " ++ separated [','] ((obj.excludedSets e).map equation))) := by
    have hword : lit "update " = lit "update" ++ [' '] := by unfold lit; decide
    simp [Action.text, hword, List.replicate_succ]
  rw [htext]
  exact (hblanks.right fun r _ => behind_lit_none (c := 'n') (by decide)
    ((begins_lit (c := 'u') (by decide) _).append r) (by decide) _).mapped elim_injective

/-- The conflict clause, with the condition for its action. -/
theorem exact_onConflict {target : List Text} (ht : target ≠ []) {action : Text} {x : Conflict}
    {P : Prop} (h : Exact readAction (· = []) action x P) :
    Exact readOnConflict (· = []) (lit " on conflict(" ++ (separated [','] target ++
      (lit ") do " ++ action))) (.inl (target, x)) ((∀ k ∈ target, IsName k) ∧ P) := by
  have htarget := (exact_names ht).both (h.behind (lit ") do ")) fun r _ =>
    (begins_lit (by decide) _).append r
  exact (htarget.behind (lit " on conflict(")).left _

theorem readSql_insert_iff {obj : Members Json} (hobj : obj.list ≠ []) (tbl : Text) :
    readSql (Statement.insert tbl obj.keys (obj.sql.map Prod.snd)).text =
      some (.insert tbl obj.keys ((given obj).map Prod.snd)) ↔ IsTable tbl ∧ SafeObject obj := by
  have hexact := (exact_readInsert hobj tbl exact_noConflict).whole rfl
  rw [and_true] at hexact
  have htext : (Statement.insert tbl obj.keys (obj.sql.map Prod.snd)).text = lit "insert into " ++
      (tbl ++ (['('] ++ (separated [','] obj.keys ++ (lit ") values(" ++
        (separated [','] (obj.sql.map Prod.snd) ++ ([')'] ++ [])))))) := by
    simp [Statement.text]
  rw [htext, readSql_insert (begins_lit (by decide) _), ← hexact]
  rfl

/-- When an upsert is read as it is meant, with the condition for its action. -/
theorem readSql_upsert_iff {obj : Members Json} (hobj : obj.list ≠ []) (tbl : Text)
    (target : List Text) (ht : target ≠ []) {action : Action} {x : Conflict} {P : Prop}
    (h : Exact readAction (· = []) action.text x P) :
    readSql (Statement.upsert tbl obj.keys (obj.sql.map Prod.snd) target action).text =
        some (.upsert tbl obj.keys ((given obj).map Prod.snd) target x) ↔
      IsTable tbl ∧ SafeObject obj ∧ (∀ k ∈ target, IsName k) ∧ P := by
  have hexact := (exact_readInsert hobj tbl (exact_onConflict ht h)).whole rfl
  have htext : (Statement.upsert tbl obj.keys (obj.sql.map Prod.snd) target action).text =
      lit "insert into " ++ (tbl ++ (['('] ++ (separated [','] obj.keys ++ (lit ") values(" ++
        (separated [','] (obj.sql.map Prod.snd) ++ ([')'] ++ (lit " on conflict(" ++
          (separated [','] target ++ (lit ") do " ++ action.text))))))))) := by
    have hword : lit ") on conflict(" = ')' :: lit " on conflict(" := by unfold lit; decide
    simp [Statement.text, hword]
  rw [htext, readSql_insert (begins_lit (by decide) _), ← hexact]
  rfl

/-! ### All builders -/

theorem safe_iff {obj : Members Json} {b : Builder} : Safe obj b ↔ IsTable (table b) ∧ SafeObject obj ∧
    (∀ k ∈ columns b, IsName k) ∧ ∀ v ∈ condValues b, Clean v := by
  constructor
  · intro h
    exact ⟨h.table, ⟨h.keys, h.values⟩, h.columns, h.conds⟩
  · rintro ⟨htable, ⟨hkeys, hvalues⟩, hcolumns, hconds⟩
    exact ⟨htable, hkeys, hcolumns, hvalues, hconds⟩

/-- The keys that are left without `except_key` are keys. -/
theorem isName_erase {obj : Members Json} (h : SafeObject obj) (e : Text) :
    ∀ k ∈ (obj.erase e).keys, IsName k := fun k hk => h.1 k (mem_keys_erase.mp hk).1

theorem conds_end (r : Text) (hr : r = []) : ConstEnd r ∧ r.head? ≠ some ' ' := by
  subst hr
  exact ⟨constEnd_nil, by simp⟩

theorem lit_and : lit " and " = ' ' :: ['a', 'n', 'd', ' '] := by unfold lit; decide

/-- Conditions with the values as quoted strings. -/
theorem exact_quotedConds {l : List (Text × Text)} (hl : l ≠ []) :
    Exact (sepBy (lit " and ") readAssign) (· = [])
      (separated (lit " and ") ((l.map fun kv => (kv.1, quotedValue kv.2)).map equation))
      (l.map fun kv => (kv.1, .string kv.2)) (∀ kv ∈ l, IsName kv.1 ∧ Clean (.string kv.2)) := by
  rw [lit_and]
  exact exact_assigns hl (fun kv _ => exact_quoted kv.2) Prod.fst ends_blank _ conds_end

/-- Conditions with the values of a JSON object. -/
theorem exact_jsonConds {w : Members Json} (hw : w.list ≠ []) :
    Exact (sepBy (lit " and ") readAssign) (· = []) (separated (lit " and ") (w.sql.map equation))
      (given w) (SafeObject w) := by
  rw [lit_and]
  exact exact_given hw ends_blank _ conds_end

/-- The conditions for the action add nothing to those for the object. -/
theorem and_erase_iff {obj : Members Json} {e : Text} {T C : Prop} :
    T ∧ SafeObject obj ∧ C ∧ (∀ k ∈ (obj.erase e).keys, IsName k) ↔ T ∧ SafeObject obj ∧ C := by
  constructor
  · rintro ⟨ht, hobj, hc, -⟩
    exact ⟨ht, hobj, hc⟩
  · rintro ⟨ht, hobj, hc⟩
    exact ⟨ht, hobj, hc, isName_erase hobj e⟩

/-- **When the statement of a builder is read as it is meant.** -/
theorem readSql_statement_iff {obj : Members Json} {b : Builder} (hobj : obj.list ≠ []) (hfit : b.Fits obj) :
    readSql (b.statement obj).text = some (meaning obj b) ↔ Safe obj b := by
  rw [safe_iff]
  rcases b with ⟨k, v, t⟩ | ⟨w, t⟩ | ⟨w, t⟩ | t | ⟨k1, k2, e, t⟩ | ⟨k1, k2, k3, e, t⟩ | ⟨ks, e, t⟩ | ⟨ks, t⟩
  · have h := readSql_update_iff hobj t (exact_quotedConds (l := [(k, v)]) (by simp))
    simpa [Builder.statement, meaning, table, columns, condValues] using h
  · have h := readSql_update_iff hobj t (exact_quotedConds (l := w.list) hfit)
    rw [forall_map_iff] at h
    exact h
  · have h := readSql_update_iff hobj t (exact_jsonConds hfit)
    have hconds : (∀ v ∈ w.list.map Prod.snd, Clean v) ↔ ∀ kv ∈ w.list, Clean kv.2 := List.forall_mem_map
    simp only [Builder.statement, meaning, table, columns, condValues]
    rw [hconds]
    exact h
  · have h := readSql_insert_iff hobj t
    simpa [Builder.statement, meaning, table, columns, condValues] using h
  · have h := readSql_upsert_iff hobj t [k1, k2] (by simp) (exact_doUpdate hfit 1)
    rw [and_erase_iff] at h
    simpa [Builder.statement, meaning, table, columns, condValues] using h
  · have h := readSql_upsert_iff hobj t [k1, k2, k3] (by simp) (exact_doUpdate hfit 1)
    rw [and_erase_iff] at h
    simpa [Builder.statement, meaning, table, columns, condValues] using h
  · have h := readSql_upsert_iff hobj t ks hfit.1 (exact_doUpdate hfit.2 0)
    rw [and_erase_iff] at h
    simpa [Builder.statement, meaning, table, columns, condValues] using h
  · have h := readSql_upsert_iff hobj t ks hfit exact_doNothing
    simpa [Builder.statement, meaning, table, columns, condValues] using h

/-- The condition with what is safe in other words. -/
theorem means_iff_of_safe_iff {obj : Members Json} {b : Builder} {P : Prop} (h : Safe obj b ↔ P) :
    Means obj b ↔ obj.list ≠ [] ∧ b.Fits obj ∧ P := by
  unfold Means
  by_cases hobj : obj.list = []
  · -- the guard that all of them have, and the database reads no empty statement
    have hempty : b.build obj = some [] := by
      cases b <;> exact if_pos hobj
    have hnone : readSql [] = none := by
      unfold readSql readUpdate readInsert lit
      rfl
    simp [hempty, hobj, hnone]
  · by_cases hfit : b.Fits obj
    · rw [build_of_fits hobj hfit, Option.bind_some, readSql_statement_iff hobj hfit, h]
      simp [hobj, hfit]
    · simp [build_of_not_fits hobj hfit, hfit]

/-- **Which calls of a builder are read by the database as they are meant.** -/
theorem means_iff (obj : Members Json) (b : Builder) :
    Means obj b ↔ obj.list ≠ [] ∧ b.Fits obj ∧ Safe obj b := means_iff_of_safe_iff Iff.rfl

end Jkit.Db.Reading
