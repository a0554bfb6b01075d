import Jkit.Db.Json2Sql
import Mathlib.Data.List.Nodup

/-! # `json2sql.cpp`: the statement builders

A builder writes its lists with one kind of loop: `last` is the end of the container decremented
once, and a separator follows every element but the one at `last`. The decrement is only defined for
a container that is not empty; `none` is the decrement of the end of an empty one.

An object is a `std::map`: its keys are different from each other. `Builder.statement` is the
statement that a builder is there to write, as a value with its lists. `yields_iff` says when the text is
that statement with no list empty: the conditions and the conflict target must not be empty, and
some key must be left for the assignments when `except_key` is erased. -/

namespace Jkit.Db.Builders

open Jkit.Db.JsonText Jkit.Db.Json2Sql

/-- A `std::string`. -/
abbrev Text := List Char

/-- A string literal. -/
@[irreducible] def lit (s : String) : Text := s.toList

/-! ### Containers and the loop over them -/

/-- A `std::map` with strings as keys, in the order of its iterators. -/
structure Members (V : Type) where
  list : List (Text × V)
  unique : (list.map Prod.fst).Nodup

/-- The keys, in order. -/
def Members.keys {V : Type} (m : Members V) : List Text := m.list.map Prod.fst

/-- `erase`. -/
def Members.erase {V : Type} (m : Members V) (key : Text) : Members V where
  list := m.list.filter fun kv => kv.1 != key
  unique := m.unique.sublist ((List.filter_sublist (l := m.list)).map Prod.fst)

/-- `auto last = c.end(); --last;`, as a position. -/
def prevEnd {α : Type} (c : List α) : Option ℕ := if c = [] then none else some (c.length - 1)

/-- The loop: every element, and `sep` behind those that are not at `last`. -/
def writeList {α : Type} (sep : Text) (text : α → Text) (last : ℕ) (c : List α) : Text :=
  c.zipIdx.flatMap fun x => text x.1 ++ if x.2 ≠ last then sep else []

/-! ### The builders -/

section Builders

/-- `sql_text << "update " << tbl_name << " set "` and the assignments. -/
def updateHead (obj : Members Json) (tbl : Text) : Option Text := do
  let last ← prevEnd obj.list
  some (lit "update " ++ tbl ++ lit " set " ++
    writeList [','] (fun kv => kv.1 ++ '=' :: valueToSqlStr kv.2) last obj.list ++ lit " where ")

/-- A condition with the value as a quoted string. -/
def quotedCond (key value : Text) : Text := key ++ lit "='" ++ value ++ ['\'']

/-- `obj_to_update_sql_str` with one condition. -/
def objToUpdateSqlStr (obj : Members Json) (keyWhere valueWhere tbl : Text) : Option Text :=
  if obj.list = [] then some []
  else do
    let head ← updateHead obj tbl
    some (head ++ quotedCond keyWhere valueWhere)

/-- `obj_to_update_sql_str` with a `map` of conditions. -/
def objToUpdateSqlStrMap (obj : Members Json) (wheres : Members Text) (tbl : Text) : Option Text :=
  if obj.list = [] then some []
  else do
    let head ← updateHead obj tbl
    let last ← prevEnd wheres.list
    some (head ++ writeList (lit " and ") (fun kv => quotedCond kv.1 kv.2) last wheres.list)

/-- `obj_to_update_sql_str` with a `json` of conditions. -/
def objToUpdateSqlStrJson (obj wheres : Members Json) (tbl : Text) : Option Text :=
  if obj.list = [] then some []
  else do
    let head ← updateHead obj tbl
    let last ← prevEnd wheres.list
    some (head ++
      writeList (lit " and ") (fun kv => kv.1 ++ '=' :: valueToSqlStr kv.2) last wheres.list)

/-- `sql_text << "insert into " << tbl_name << "("`, the columns and the values. -/
def insertHead (obj : Members Json) (tbl : Text) : Option Text := do
  let last ← prevEnd obj.list
  some (lit "insert into " ++ tbl ++ '(' :: writeList [','] (fun kv => kv.1) last obj.list ++
    lit ") values(" ++ writeList [','] (fun kv => valueToSqlStr kv.2) last obj.list)

/-- `obj_to_insert_sql_str`. -/
def objToInsertSqlStr (obj : Members Json) (tbl : Text) : Option Text :=
  if obj.list = [] then some []
  else do
    let head ← insertHead obj tbl
    some (head ++ [')'])

/-- The assignments of `obj_cp` behind the text `conflict`. -/
def updateSet (conflict : Text) (objCp : Members Json) (last : ℕ) : Text :=
  conflict ++ writeList [','] (fun kv => kv.1 ++ lit "=EXCLUDED." ++ kv.1) last objCp.list

/-- `obj_to_upsert_update_sql_str` with two keys. -/
def objToUpsertUpdateSqlStr2 (obj : Members Json) (key1 key2 exceptKey tbl : Text) : Option Text :=
  if obj.list = [] then some []
  else do
    let head ← insertHead obj tbl
    let objCp := obj.erase exceptKey
    let lastCp ← prevEnd objCp.list
    some (head ++ updateSet (lit ") on conflict(" ++ key1 ++ ',' :: key2 ++
      lit ") do update  set ") objCp lastCp)

/-- `obj_to_upsert_update_sql_str` with three keys. -/
def objToUpsertUpdateSqlStr3 (obj : Members Json) (key1 key2 key3 exceptKey tbl : Text) :
    Option Text :=
  if obj.list = [] then some []
  else do
    let head ← insertHead obj tbl
    let objCp := obj.erase exceptKey
    let lastCp ← prevEnd objCp.list
    some (head ++ updateSet (lit ") on conflict(" ++ key1 ++ ',' :: key2 ++ ',' :: key3 ++
      lit ") do update  set ") objCp lastCp)

/-- `obj_to_upsert_update_sql_str` with a `vector` of keys. -/
def objToUpsertUpdateSqlStr (obj : Members Json) (keyWheres : List Text) (exceptKey tbl : Text) :
    Option Text :=
  if obj.list = [] then some []
  else do
    let head ← insertHead obj tbl
    let objCp := obj.erase exceptKey
    let lastCp ← prevEnd objCp.list
    let lastKey ← prevEnd keyWheres
    let keyArr := writeList [','] id lastKey keyWheres
    some (head ++ updateSet (lit ") on conflict(" ++ keyArr ++ lit ") do update set ") objCp
      lastCp)

/-- `obj_to_upsert_nothing_sql_str`. -/
def objToUpsertNothingSqlStr (obj : Members Json) (keyWheres : List Text) (tbl : Text) :
    Option Text :=
  if obj.list = [] then some []
  else do
    let head ← insertHead obj tbl
    let lastKey ← prevEnd keyWheres
    let keyArr := writeList [','] id lastKey keyWheres
    some (head ++ (lit ") on conflict(" ++ keyArr ++ lit ") do nothing "))

end Builders

/-- The builders with their arguments other than the object. -/
inductive Builder
  | update (keyWhere valueWhere tbl : Text)
  | updateMap (wheres : Members Text) (tbl : Text)
  | updateJson (wheres : Members Json) (tbl : Text)
  | insert (tbl : Text)
  | upsertUpdate2 (key1 key2 exceptKey tbl : Text)
  | upsertUpdate3 (key1 key2 key3 exceptKey tbl : Text)
  | upsertUpdate (keyWheres : List Text) (exceptKey tbl : Text)
  | upsertNothing (keyWheres : List Text) (tbl : Text)

/-- The text that a builder returns. -/
def Builder.build (obj : Members Json) : Builder → Option Text
  | .update k v t => objToUpdateSqlStr obj k v t
  | .updateMap w t => objToUpdateSqlStrMap obj w t
  | .updateJson w t => objToUpdateSqlStrJson obj w t
  | .insert t => objToInsertSqlStr obj t
  | .upsertUpdate2 k1 k2 e t => objToUpsertUpdateSqlStr2 obj k1 k2 e t
  | .upsertUpdate3 k1 k2 k3 e t => objToUpsertUpdateSqlStr3 obj k1 k2 k3 e t
  | .upsertUpdate ks e t => objToUpsertUpdateSqlStr obj ks e t
  | .upsertNothing ks t => objToUpsertNothingSqlStr obj ks t

/-! ### Statements -/

/-- What to do on a conflict. -/
inductive Action
  | nothing
  | update (blanks : ℕ) (sets : List (Text × Text))

/-- A statement with its lists. -/
inductive Statement
  | update (tbl : Text) (sets conds : List (Text × Text))
  | insert (tbl : Text) (columns values : List Text)
  | upsert (tbl : Text) (columns values target : List Text) (action : Action)

/-- A column with what it is set to or compared with. -/
def equation (x : Text × Text) : Text := x.1 ++ '=' :: x.2

/-- Elements with a separator exactly between neighbours. -/
def separated (sep : Text) : List Text → Text
  | [] => []
  | [x] => x
  | x :: y :: xs => x ++ sep ++ separated sep (y :: xs)

def Action.text : Action → Text
  | .nothing => lit "nothing "
  | .update blanks sets =>
    lit "update" ++ List.replicate blanks ' ' ++ lit "set " ++ separated [','] (sets.map equation)

def Statement.text : Statement → Text
  | .update tbl sets conds =>
    lit "update " ++ tbl ++ lit " set " ++ separated [','] (sets.map equation) ++
      lit " where " ++ separated (lit " and ") (conds.map equation)
  | .insert tbl columns values =>
    lit "insert into " ++ tbl ++ '(' :: separated [','] columns ++ lit ") values(" ++
      separated [','] values ++ [')']
  | .upsert tbl columns values target action =>
    lit "insert into " ++ tbl ++ '(' :: separated [','] columns ++ lit ") values(" ++
      separated [','] values ++ lit ") on conflict(" ++ separated [','] target ++
      lit ") do " ++ action.text

/-- No list of the statement is empty. -/
def Statement.Complete : Statement → Prop
  | .update _ sets conds => sets ≠ [] ∧ conds ≠ []
  | .insert _ columns values => columns ≠ [] ∧ values ≠ []
  | .upsert _ columns values target .nothing => columns ≠ [] ∧ values ≠ [] ∧ target ≠ []
  | .upsert _ columns values target (.update _ sets) =>
    columns ≠ [] ∧ values ≠ [] ∧ target ≠ [] ∧ sets ≠ []

/-- The columns with their values as SQL text. -/
def Members.sql (m : Members Json) : List (Text × Text) :=
  m.list.map fun kv => (kv.1, valueToSqlStr kv.2)

/-- `EXCLUDED.col`. -/
def excluded (col : Text) : Text := lit "EXCLUDED." ++ col

/-- The assignments of an upsert. -/
def Members.excludedSets (m : Members Json) (exceptKey : Text) : List (Text × Text) :=
  (m.erase exceptKey).keys.map fun k => (k, excluded k)

/-- A value in quotes. -/
def quotedValue (value : Text) : Text := '\'' :: value ++ ['\'']

/-- The statement that a builder is there to write. -/
def Builder.statement (obj : Members Json) : Builder → Statement
  | .update k v t => .update t obj.sql [(k, quotedValue v)]
  | .updateMap w t => .update t obj.sql (w.list.map fun kv => (kv.1, quotedValue kv.2))
  | .updateJson w t => .update t obj.sql w.sql
  | .insert t => .insert t obj.keys (obj.sql.map Prod.snd)
  | .upsertUpdate2 k1 k2 e t =>
    .upsert t obj.keys (obj.sql.map Prod.snd) [k1, k2] (.update 2 (obj.excludedSets e))
  | .upsertUpdate3 k1 k2 k3 e t =>
    .upsert t obj.keys (obj.sql.map Prod.snd) [k1, k2, k3] (.update 2 (obj.excludedSets e))
  | .upsertUpdate ks e t =>
    .upsert t obj.keys (obj.sql.map Prod.snd) ks (.update 1 (obj.excludedSets e))
  | .upsertNothing ks t => .upsert t obj.keys (obj.sql.map Prod.snd) ks .nothing

/-! ### The loop writes a separated list -/

theorem prevEnd_of_ne_nil {α : Type} {c : List α} (h : c ≠ []) : prevEnd c = some (c.length - 1) := by
  unfold prevEnd
  rw [if_neg h]

theorem prevEnd_nil {α : Type} : prevEnd ([] : List α) = none := rfl

/-- The loop from the position `i` on, when `last` is the position of the last element. -/
theorem flatMap_zipIdx {α : Type} (sep : Text) (text : α → Text) (c : List α) (i : ℕ) (hc : c ≠ []) :
    ((c.zipIdx i).flatMap fun x => text x.1 ++ if x.2 ≠ i + (c.length - 1) then sep else []) =
      separated sep (c.map text) := by
  induction c generalizing i with
  | nil => exact absurd rfl hc
  | cons a c ih =>
    cases c with
    | nil => simp [separated]
    | cons b c =>
      have hne : i ≠ i + (c.length + 1) := by omega
      have ih' := ih (i + 1) (by simp)
      simp only [List.length_cons, Nat.add_sub_cancel, List.map_cons] at ih' ⊢
      rw [List.zipIdx_cons, List.flatMap_cons]
      have hshift : i + 1 + c.length = i + (c.length + 1) := by omega
      rw [hshift] at ih'
      rw [ih', separated, if_pos hne]

theorem writeList_eq {α : Type} (sep : Text) (text : α → Text) {c : List α} (hc : c ≠ []) :
    writeList sep text (c.length - 1) c = separated sep (c.map text) := by
  have h := flatMap_zipIdx sep text c 0 hc
  rw [Nat.zero_add] at h
  exact h

theorem updateHead_eq {obj : Members Json} (h : obj.list ≠ []) (tbl : Text) :
    updateHead obj tbl = some (lit "update " ++ tbl ++ lit " set " ++
      separated [','] (obj.sql.map equation) ++ lit " where ") := by
  simp [updateHead, prevEnd_of_ne_nil h, writeList_eq _ _ h, Members.sql, equation, Function.comp_def]

theorem insertHead_eq {obj : Members Json} (h : obj.list ≠ []) (tbl : Text) :
    insertHead obj tbl = some (lit "insert into " ++ tbl ++ '(' :: separated [','] obj.keys ++
      lit ") values(" ++ separated [','] (obj.sql.map Prod.snd)) := by
  simp [insertHead, prevEnd_of_ne_nil h, writeList_eq _ _ h, Members.sql, Members.keys,
    Function.comp_def]

theorem quotedCond_eq (key value : Text) : quotedCond key value = equation (key, quotedValue value) := by
  have h : lit "='" = ['=', '\''] := by unfold lit; decide
  unfold quotedCond equation quotedValue
  rw [h]
  simp

theorem append_equation {k f e : Text} (h : f = '=' :: e) : k ++ f ++ k = equation (k, e ++ k) := by
  subst h
  simp [equation]

theorem updateSet_eq {objCp : Members Json} (h : objCp.list ≠ []) (conflict : Text) :
    updateSet conflict objCp (objCp.list.length - 1) =
      conflict ++ separated [','] ((objCp.keys.map fun k => (k, excluded k)).map equation) := by
  have hex : lit "=EXCLUDED." = '=' :: lit "EXCLUDED." := by unfold lit; decide
  have hitem : ∀ kv : Text × Json,
      kv.1 ++ lit "=EXCLUDED." ++ kv.1 = equation (kv.1, excluded kv.1) := by
    intro kv
    exact append_equation hex
  unfold updateSet
  rw [writeList_eq _ _ h]
  simp only [hitem, Members.keys, List.map_map, Function.comp_def]

theorem mem_keys_erase {obj : Members Json} {e k : Text} :
    k ∈ (obj.erase e).keys ↔ k ∈ obj.keys ∧ k ≠ e := by
  simp only [Members.erase, Members.keys, List.mem_map, List.mem_filter, bne_iff_ne]
  constructor
  · rintro ⟨kv, ⟨hkv, hne⟩, rfl⟩
    exact ⟨⟨kv, hkv, rfl⟩, hne⟩
  · rintro ⟨⟨kv, hkv, rfl⟩, hne⟩
    exact ⟨kv, ⟨hkv, hne⟩, rfl⟩

/-- Something is left to assign if some key is not the erased one. -/
theorem erase_ne_nil {obj : Members Json} {e : Text} :
    (obj.erase e).list ≠ [] ↔ ∃ k ∈ obj.keys, k ≠ e := by
  have hkeys : (obj.erase e).list ≠ [] ↔ (obj.erase e).keys ≠ [] := by simp [Members.keys]
  rw [hkeys]
  constructor
  · intro h
    obtain ⟨k, hk⟩ := List.exists_mem_of_ne_nil _ h
    exact ⟨k, mem_keys_erase.mp hk⟩
  · rintro ⟨k, hk⟩
    exact List.ne_nil_of_mem (mem_keys_erase.mpr hk)

/-! ### Complete statements -/

/-- The columns of the assignments are the keys other than `exceptKey`, each once. -/
def SetsOnce (obj : Members Json) (exceptKey : Text) : Statement → Prop
  | .upsert _ _ _ _ (.update _ sets) =>
    sets.Nodup ∧ ∀ x, x ∈ sets ↔ ∃ k ∈ obj.keys, k ≠ exceptKey ∧ x = (k, excluded k)
  | _ => False

/-- `except_key` of the upserts that update. -/
def Builder.exceptKey : Builder → Option Text
  | .upsertUpdate2 _ _ e _ => some e
  | .upsertUpdate3 _ _ _ e _ => some e
  | .upsertUpdate _ e _ => some e
  | _ => none

/-- The builder returns the empty string, or a complete statement. -/
def Yields (obj : Members Json) (b : Builder) : Prop :=
  b.build obj = some [] ∨
    b.build obj = some (b.statement obj).text ∧ (b.statement obj).Complete ∧
      ∀ e, b.exceptKey = some e → SetsOnce obj e (b.statement obj)

/-- The conditions and the conflict target have an element, and so has what is left of the object
without `except_key`. -/
def Builder.Fits (obj : Members Json) : Builder → Prop
  | .update _ _ _ => True
  | .updateMap w _ => w.list ≠ []
  | .updateJson w _ => w.list ≠ []
  | .insert _ => True
  | .upsertUpdate2 _ _ e _ => ∃ k ∈ obj.keys, k ≠ e
  | .upsertUpdate3 _ _ _ e _ => ∃ k ∈ obj.keys, k ≠ e
  | .upsertUpdate ks e _ => ks ≠ [] ∧ ∃ k ∈ obj.keys, k ≠ e
  | .upsertNothing ks _ => ks ≠ []

theorem excludedSets_setsOnce (obj : Members Json) (e : Text) : (obj.excludedSets e).Nodup ∧
    ∀ x, x ∈ obj.excludedSets e ↔ ∃ k ∈ obj.keys, k ≠ e ∧ x = (k, excluded k) := by
  constructor
  · -- the column alone tells the assignments apart
    apply List.Nodup.map
    · intro k k' hk
      exact (Prod.mk.inj hk).1
    · exact (obj.erase e).unique
  · intro x
    simp only [Members.excludedSets, List.mem_map, mem_keys_erase]
    constructor
    · rintro ⟨k, ⟨hk, hne⟩, rfl⟩
      exact ⟨k, hk, hne, rfl⟩
    · rintro ⟨k, hk, hne, rfl⟩
      exact ⟨k, ⟨hk, hne⟩, rfl⟩

/-- With a fitting object the text is the statement. -/
theorem build_of_fits {obj : Members Json} {b : Builder} (hobj : obj.list ≠ []) (h : b.Fits obj) :
    b.build obj = some (b.statement obj).text := by
  have htwo : lit ") do update  set " =
      lit ") do " ++ (lit "update" ++ List.replicate 2 ' ' ++ lit "set ") := by
    unfold lit; decide
  have hone : lit ") do update set " =
      lit ") do " ++ (lit "update" ++ List.replicate 1 ' ' ++ lit "set ") := by
    unfold lit; decide
  have hnothing : lit ") do nothing " = lit ") do " ++ lit "nothing " := by unfold lit; decide
  cases b with
  | update k v t =>
    simp [Builder.build, objToUpdateSqlStr, hobj, updateHead_eq hobj, quotedCond_eq,
      Builder.statement, Statement.text, separated]
  | updateMap w t =>
    simp only [Builder.Fits] at h
    simp [Builder.build, objToUpdateSqlStrMap, hobj, updateHead_eq hobj, prevEnd_of_ne_nil h,
      writeList_eq _ _ h, quotedCond_eq, Builder.statement, Statement.text, Function.comp_def]
  | updateJson w t =>
    simp only [Builder.Fits] at h
    simp [Builder.build, objToUpdateSqlStrJson, hobj, updateHead_eq hobj, prevEnd_of_ne_nil h,
      writeList_eq _ _ h, Builder.statement, Statement.text, Members.sql, equation,
      Function.comp_def]
  | insert t =>
    simp [Builder.build, objToInsertSqlStr, hobj, insertHead_eq hobj, Builder.statement,
      Statement.text]
  | upsertUpdate2 k1 k2 e t =>
    have hcp := erase_ne_nil.mpr h
    simp [Builder.build, objToUpsertUpdateSqlStr2, hobj, insertHead_eq hobj, prevEnd_of_ne_nil hcp,
      updateSet_eq hcp, Builder.statement, Statement.text, Action.text, Members.excludedSets,
      separated, htwo]
  | upsertUpdate3 k1 k2 k3 e t =>
    have hcp := erase_ne_nil.mpr h
    simp [Builder.build, objToUpsertUpdateSqlStr3, hobj, insertHead_eq hobj, prevEnd_of_ne_nil hcp,
      updateSet_eq hcp, Builder.statement, Statement.text, Action.text, Members.excludedSets,
      separated, htwo]
  | upsertUpdate ks e t =>
    have hcp := erase_ne_nil.mpr h.2
    simp [Builder.build, objToUpsertUpdateSqlStr, hobj, insertHead_eq hobj, prevEnd_of_ne_nil hcp,
      prevEnd_of_ne_nil h.1, writeList_eq _ _ h.1, updateSet_eq hcp, Builder.statement,
      Statement.text, Action.text, Members.excludedSets, hone]
  | upsertNothing ks t =>
    simp only [Builder.Fits] at h
    simp [Builder.build, objToUpsertNothingSqlStr, hobj, insertHead_eq hobj, prevEnd_of_ne_nil h,
      writeList_eq _ _ h, Builder.statement, Statement.text, Action.text, hnothing]

/-- Otherwise the end of an empty container is decremented. -/
theorem build_of_not_fits {obj : Members Json} {b : Builder} (hobj : obj.list ≠ [])
    (h : ¬b.Fits obj) : b.build obj = none := by
  cases b with
  | update k v t => exact absurd trivial h
  | updateMap w t =>
    have hw : w.list = [] := not_not.mp h
    simp [Builder.build, objToUpdateSqlStrMap, hobj, updateHead_eq hobj, hw, prevEnd_nil]
  | updateJson w t =>
    have hw : w.list = [] := not_not.mp h
    simp [Builder.build, objToUpdateSqlStrJson, hobj, updateHead_eq hobj, hw, prevEnd_nil]
  | insert t => exact absurd trivial h
  | upsertUpdate2 k1 k2 e t =>
    have hcp : (obj.erase e).list = [] := not_not.mp fun hne => h (erase_ne_nil.mp hne)
    simp [Builder.build, objToUpsertUpdateSqlStr2, hobj, hcp, prevEnd_nil]
  | upsertUpdate3 k1 k2 k3 e t =>
    have hcp : (obj.erase e).list = [] := not_not.mp fun hne => h (erase_ne_nil.mp hne)
    simp [Builder.build, objToUpsertUpdateSqlStr3, hobj, hcp, prevEnd_nil]
  | upsertUpdate ks e t =>
    by_cases hks : ks = []
    · simp [Builder.build, objToUpsertUpdateSqlStr, hobj, hks, prevEnd_nil]
    · have hcp : (obj.erase e).list = [] := not_not.mp fun hne => h ⟨hks, erase_ne_nil.mp hne⟩
      simp [Builder.build, objToUpsertUpdateSqlStr, hobj, hcp, prevEnd_nil]
  | upsertNothing ks t =>
    have hks : ks = [] := not_not.mp h
    simp [Builder.build, objToUpsertNothingSqlStr, hobj, hks, prevEnd_nil]

theorem statement_complete {obj : Members Json} {b : Builder} (hobj : obj.list ≠ [])
    (h : b.Fits obj) : (b.statement obj).Complete := by
  have hkeys : obj.keys ≠ [] := by simpa [Members.keys] using hobj
  have hsql : obj.sql ≠ [] := by simpa [Members.sql] using hobj
  have hvals : obj.sql.map Prod.snd ≠ [] := by simpa using hsql
  have hsets : ∀ e, (∃ k ∈ obj.keys, k ≠ e) → obj.excludedSets e ≠ [] := by
    intro e he
    have hcp := erase_ne_nil.mpr he
    simpa [Members.excludedSets, Members.keys] using hcp
  cases b with
  | update k v t => exact ⟨hsql, by simp⟩
  | updateMap w t => exact ⟨hsql, by simpa [Builder.Fits] using h⟩
  | updateJson w t => exact ⟨hsql, by simpa [Builder.Fits, Members.sql] using h⟩
  | insert t => exact ⟨hkeys, hvals⟩
  | upsertUpdate2 k1 k2 e t => exact ⟨hkeys, hvals, by simp, hsets e h⟩
  | upsertUpdate3 k1 k2 k3 e t => exact ⟨hkeys, hvals, by simp, hsets e h⟩
  | upsertUpdate ks e t => exact ⟨hkeys, hvals, h.1, hsets e h.2⟩
  | upsertNothing ks t => exact ⟨hkeys, hvals, h⟩

theorem statement_setsOnce (obj : Members Json) (b : Builder) {e : Text} (h : b.exceptKey = some e) :
    SetsOnce obj e (b.statement obj) := by
  cases b with
  | upsertUpdate2 k1 k2 e' t =>
    obtain rfl := Option.some.inj h
    exact excludedSets_setsOnce obj e'
  | upsertUpdate3 k1 k2 k3 e' t =>
    obtain rfl := Option.some.inj h
    exact excludedSets_setsOnce obj e'
  | upsertUpdate ks e' t =>
    obtain rfl := Option.some.inj h
    exact excludedSets_setsOnce obj e'
  | _ => simp [Builder.exceptKey] at h

/-- **When a builder yields a complete statement.** -/
theorem yields_iff (obj : Members Json) (b : Builder) :
    Yields obj b ↔ obj.list = [] ∨ b.Fits obj := by
  by_cases hobj : obj.list = []
  · -- the guard that all of them have
    have hempty : b.build obj = some [] := by
      cases b <;> exact if_pos hobj
    simp [Yields, hempty, hobj]
  · by_cases hfit : b.Fits obj
    · have hyields : Yields obj b :=
        Or.inr ⟨build_of_fits hobj hfit, statement_complete hobj hfit,
          fun e he => statement_setsOnce obj b he⟩
      simp [hyields, hfit]
    · have hnone := build_of_not_fits hobj hfit
      simp [Yields, hnone, hobj, hfit]

/-- An upsert of the one column that is not to be updated. -/
theorem upsertUpdate_not_yields :
    ¬∀ (obj : Members Json) (b : Builder), obj.list ≠ [] → Yields obj b := by
  intro h
  have hid := h ⟨[(['i', 'd'], .boolean true)], by decide⟩
    (.upsertUpdate [['i', 'd']] ['i', 'd'] ['t']) (by simp)
  rw [Yields, build_of_not_fits (by simp) (by simp [Builder.Fits, Members.keys])] at hid
  simp at hid

end Jkit.Db.Builders
