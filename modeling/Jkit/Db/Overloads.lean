import Jkit.Db.Builders
import Mathlib.Data.List.Lex
import Mathlib.Data.List.Sort

/-! # The overloads of a builder

The builders of `json2sql.cpp` are copies of each other with their own loops. As every one of them writes
its statement (`build_of_fits`), their texts are compared by comparing statements.

* `updateOverloads_agree`: a map of conditions, the object with the same entries as strings, and a single
  condition give the same text. Two containers in ascending order with the same entries are the same
  list.
* `insertsAgree_iff`: the text of an upsert is the text of the insert with a conflict clause, and the
  overloads of it differ in one blank, exactly if some key is not `except_key`. -/

namespace Jkit.Db.Overloads

open Jkit.Db.JsonText Jkit.Db.Json2Sql Jkit.Db.Builders

/-! ### Containers with the same entries -/

/-- `operator<` of `std::string`. -/
def less (a b : Text) : Prop := List.Lex (fun c d : Char => c.toNat < d.toNat) a b

instance : Std.Asymm less :=
  have : Std.Asymm fun c d : Char => c.toNat < d.toNat := ⟨fun _ _ h => Nat.lt_asymm h⟩
  inferInstanceAs (Std.Asymm (List.Lex fun c d : Char => c.toNat < d.toNat))

instance : DecidableRel less := fun a b =>
  inferInstanceAs (Decidable (List.Lex (fun c d : Char => c.toNat < d.toNat) a b))

/-- The iterators go through the keys in ascending order. -/
def Ascending {V : Type} (m : Members V) : Prop := m.list.Pairwise fun a b => less a.1 b.1

/-- The object has the keys of the map, with the values as strings. -/
def SameEntries (m : Members Text) (j : Members Json) : Prop :=
  ∀ k v, (k, v) ∈ j.list ↔ ∃ s, (k, s) ∈ m.list ∧ v = .string s

/-- A container in ascending order is determined by its entries. -/
theorem list_eq_of_ascending {V : Type} {l l' : List (Text × V)}
    (h : l.Pairwise fun a b => less a.1 b.1) (h' : l'.Pairwise fun a b => less a.1 b.1)
    (hmem : ∀ x, x ∈ l ↔ x ∈ l') : l = l' := by
  have hanti : Std.Antisymm fun a b : Text × V => less a.1 b.1 :=
    ⟨fun _ _ hab hba => absurd hba (Std.Asymm.asymm _ _ hab)⟩
  have hirr : Std.Irrefl fun a b : Text × V => less a.1 b.1 :=
    ⟨fun _ haa => Std.Asymm.asymm _ _ haa haa⟩
  exact List.Pairwise.eq_of_mem_iff h h' hmem

theorem list_eq_of_sameEntries {m : Members Text} {j : Members Json} (hm : Ascending m)
    (hj : Ascending j) (h : SameEntries m j) : j.list = m.list.map fun kv => (kv.1, .string kv.2) := by
  refine list_eq_of_ascending hj ?_ ?_
  · rw [List.pairwise_map]
    exact hm
  · rintro ⟨k, v⟩
    rw [h k v, List.mem_map]
    constructor
    · rintro ⟨s, hs, rfl⟩
      exact ⟨(k, s), hs, rfl⟩
    · rintro ⟨⟨k', s⟩, hs, he⟩
      obtain ⟨rfl, rfl⟩ := Prod.mk.inj he
      exact ⟨s, hs, rfl⟩

/-! ### `obj_to_update_sql_str` -/

/-- The map and the object are the same conditions. -/
theorem statement_updateJson {m : Members Text} {j : Members Json} (hm : Ascending m)
    (hj : Ascending j) (h : SameEntries m j) (obj : Members Json) (tbl : Text) :
    (Builder.updateJson j tbl).statement obj = (Builder.updateMap m tbl).statement obj := by
  have hconds : j.sql = m.list.map fun kv => (kv.1, quotedValue kv.2) := by
    unfold Members.sql
    rw [list_eq_of_sameEntries hm hj h, List.map_map]
    rfl
  simp only [Builder.statement, hconds]

/-- **The overloads of `obj_to_update_sql_str` agree.** -/
theorem updateOverloads_agree (obj : Members Json) (tbl : Text) {m : Members Text} {j : Members Json}
    (hne : m.list ≠ []) (hm : Ascending m) (hj : Ascending j) (h : SameEntries m j) :
    ∃ text, objToUpdateSqlStrMap obj m tbl = some text ∧ objToUpdateSqlStrJson obj j tbl = some text ∧
      ∀ k v, m.list = [(k, v)] → objToUpdateSqlStr obj k v tbl = some text := by
  by_cases hobj : obj.list = []
  · exact ⟨[], if_pos hobj, if_pos hobj, fun k v _ => if_pos hobj⟩
  · have hjne : j.list ≠ [] := by
      rw [list_eq_of_sameEntries hm hj h]
      simpa using hne
    have hmap := build_of_fits (b := .updateMap m tbl) hobj hne
    have hjson := build_of_fits (b := .updateJson j tbl) hobj hjne
    refine ⟨_, hmap, ?_, ?_⟩
    · rw [← statement_updateJson hm hj h obj tbl]
      exact hjson
    · intro k v hkv
      have hone := build_of_fits (b := .update k v tbl) hobj trivial
      have hst : (Builder.update k v tbl).statement obj = (Builder.updateMap m tbl).statement obj := by
        simp only [Builder.statement, hkv, List.map_cons, List.map_nil]
      rw [← hst]
      exact hone

/-- Two conditions as a map. -/
def twoConds : Members Text := ⟨[(['a'], ['1']), (['b'], ['2'])], by decide⟩

/-- The same conditions as an object. -/
def twoCondsJson : Members Json := ⟨[(['a'], .string ['1']), (['b'], .string ['2'])], by decide⟩

theorem twoConds_sameEntries : SameEntries twoConds twoCondsJson := by
  intro k v
  simp only [twoConds, twoCondsJson, List.mem_cons, List.not_mem_nil, or_false, Prod.mk.injEq]
  constructor
  · rintro (⟨rfl, rfl⟩ | ⟨rfl, rfl⟩)
    · exact ⟨['1'], Or.inl ⟨rfl, rfl⟩, rfl⟩
    · exact ⟨['2'], Or.inr ⟨rfl, rfl⟩, rfl⟩
  · rintro ⟨s, ⟨rfl, rfl⟩ | ⟨rfl, rfl⟩, rfl⟩
    · exact Or.inl ⟨rfl, rfl⟩
    · exact Or.inr ⟨rfl, rfl⟩

theorem updateOverloads_twoConds :
    twoConds.list ≠ [] ∧ Ascending twoConds ∧ Ascending twoCondsJson ∧
      SameEntries twoConds twoCondsJson ∧
      ∃ text, objToUpdateSqlStrMap twoCondsJson twoConds ['t'] = some text ∧
        objToUpdateSqlStrJson twoCondsJson twoCondsJson ['t'] = some text ∧
        ∀ k v, twoConds.list = [(k, v)] → objToUpdateSqlStr twoCondsJson k v ['t'] = some text := by
  have hne : twoConds.list ≠ [] := by simp [twoConds]
  have hm : Ascending twoConds := by unfold Ascending twoConds less; decide
  have hj : Ascending twoCondsJson := by unfold Ascending twoCondsJson less; simp
  exact ⟨hne, hm, hj, twoConds_sameEntries,
    updateOverloads_agree twoCondsJson ['t'] hne hm hj twoConds_sameEntries⟩

/-! ### Inserts and upserts -/

/-- The text of an insert of the object. -/
def insertText (obj : Members Json) (tbl : Text) : Text :=
  lit "insert into " ++ tbl ++ '(' :: separated [','] obj.keys ++ lit ") values(" ++
    separated [','] (obj.list.map fun kv => valueToSqlStr kv.2) ++ [')']

/-- The text of an upsert up to its action. -/
def conflictText (obj : Members Json) (tbl : Text) (target : List Text) : Text :=
  insertText obj tbl ++ lit " on conflict(" ++ separated [','] target ++ lit ") do "

/-- The table and the conflict keys of an upsert. -/
def upsertOf : Builder → Option (Text × List Text)
  | .upsertUpdate2 k1 k2 _ t => some (t, [k1, k2])
  | .upsertUpdate3 k1 k2 k3 _ t => some (t, [k1, k2, k3])
  | .upsertUpdate ks _ t => some (t, ks)
  | .upsertNothing ks t => some (t, ks)
  | _ => none

/-- The two texts differ in one blank between `update` and `set`. -/
def OneBlank (head : Text) (a b : Option Text) : Prop :=
  ∃ sets, a = some (head ++ lit "update  set " ++ sets) ∧ b = some (head ++ lit "update set " ++ sets)

/-- What the builders for inserts and upserts should have in common, for the object, the table `t` and
the `except_key` `e`. -/
structure InsertsAgree (obj : Members Json) (t e : Text) : Prop where
  insert : objToInsertSqlStr obj t = some (insertText obj t)
  upsert : ∀ b ks, upsertOf b = some (t, ks) → b.exceptKey.getD e = e → ks ≠ [] →
    ∃ action, b.build obj = some (conflictText obj t ks ++ action)
  two : (∃ k ∈ obj.keys, k ≠ e) → ∀ k1 k2, OneBlank (conflictText obj t [k1, k2])
    (objToUpsertUpdateSqlStr2 obj k1 k2 e t) (objToUpsertUpdateSqlStr obj [k1, k2] e t)
  three : (∃ k ∈ obj.keys, k ≠ e) → ∀ k1 k2 k3, OneBlank (conflictText obj t [k1, k2, k3])
    (objToUpsertUpdateSqlStr3 obj k1 k2 k3 e t) (objToUpsertUpdateSqlStr obj [k1, k2, k3] e t)

theorem text_insert (obj : Members Json) (t : Text) :
    (Statement.insert t obj.keys (obj.sql.map Prod.snd)).text = insertText obj t := by
  have hvalues : obj.sql.map Prod.snd = obj.list.map fun kv => valueToSqlStr kv.2 := by
    unfold Members.sql
    rw [List.map_map]
    rfl
  unfold Statement.text insertText
  rw [hvalues]

/-- An upsert is an insert with a conflict clause. -/
theorem text_upsert (obj : Members Json) (t : Text) (ks : List Text) (action : Action) :
    (Statement.upsert t obj.keys (obj.sql.map Prod.snd) ks action).text =
      conflictText obj t ks ++ action.text := by
  have hlit : lit ") on conflict(" = ')' :: lit " on conflict(" := by unfold lit; decide
  unfold conflictText
  rw [← text_insert]
  simp only [Statement.text, hlit, List.append_assoc, List.cons_append, List.nil_append]

theorem statement_upsert {b : Builder} {t : Text} {ks : List Text} (hb : upsertOf b = some (t, ks))
    (obj : Members Json) :
    ∃ action, b.statement obj = .upsert t obj.keys (obj.sql.map Prod.snd) ks action := by
  cases b with
  | upsertUpdate2 | upsertUpdate3 | upsertUpdate | upsertNothing =>
    obtain ⟨rfl, rfl⟩ := Prod.mk.inj (Option.some.inj hb)
    exact ⟨_, rfl⟩
  | _ => exact absurd hb (by simp [upsertOf])

theorem build_upsert {obj : Members Json} (hobj : obj.list ≠ []) {b : Builder} (h : b.Fits obj) {t : Text}
    {ks : List Text} (hb : upsertOf b = some (t, ks)) :
    ∃ action, b.build obj = some (conflictText obj t ks ++ action) := by
  obtain ⟨action, hst⟩ := statement_upsert hb obj
  refine ⟨action.text, ?_⟩
  rw [build_of_fits hobj h, hst, text_upsert]

/-- An upsert with a conflict key fits if a key is left to be updated. -/
theorem fits_of_upsert {obj : Members Json} {e : Text} (h : ∃ k ∈ obj.keys, k ≠ e) {b : Builder} {t : Text}
    {ks : List Text} (hb : upsertOf b = some (t, ks)) (he : b.exceptKey.getD e = e) (hks : ks ≠ []) :
    b.Fits obj := by
  cases b with
  | upsertUpdate2 k1 k2 e' t' =>
    obtain rfl : e' = e := he
    exact h
  | upsertUpdate3 k1 k2 k3 e' t' =>
    obtain rfl : e' = e := he
    exact h
  | upsertUpdate ks' e' t' =>
    obtain rfl : e' = e := he
    obtain ⟨rfl, rfl⟩ := Prod.mk.inj (Option.some.inj hb)
    exact ⟨hks, h⟩
  | upsertNothing ks' t' =>
    obtain ⟨rfl, rfl⟩ := Prod.mk.inj (Option.some.inj hb)
    exact hks
  | _ => exact absurd hb (by simp [upsertOf])

/-- The blanks of an action. -/
theorem text_action (sets : List (Text × Text)) :
    (Action.update 2 sets).text = lit "update  set " ++ separated [','] (sets.map equation) ∧
      (Action.update 1 sets).text = lit "update set " ++ separated [','] (sets.map equation) := by
  have htwo : lit "update  set " = lit "update" ++ List.replicate 2 ' ' ++ lit "set " := by
    unfold lit; decide
  have hone : lit "update set " = lit "update" ++ List.replicate 1 ' ' ++ lit "set " := by
    unfold lit; decide
  rw [htwo, hone]
  exact ⟨rfl, rfl⟩

/-- Two upserts that differ in their blanks only. -/
theorem oneBlank_of_build {obj : Members Json} (hobj : obj.list ≠ []) {a b : Builder} (ha : a.Fits obj)
    (hb : b.Fits obj) {t : Text} {ks : List Text} {sets : List (Text × Text)}
    (hsa : a.statement obj = .upsert t obj.keys (obj.sql.map Prod.snd) ks (.update 2 sets))
    (hsb : b.statement obj = .upsert t obj.keys (obj.sql.map Prod.snd) ks (.update 1 sets)) :
    OneBlank (conflictText obj t ks) (a.build obj) (b.build obj) := by
  obtain ⟨htwo, hone⟩ := text_action sets
  refine ⟨separated [','] (sets.map equation), ?_, ?_⟩
  · rw [build_of_fits hobj ha, hsa, text_upsert, htwo, List.append_assoc]
  · rw [build_of_fits hobj hb, hsb, text_upsert, hone, List.append_assoc]

/-- **When inserts and upserts agree**: when a key is left to be updated. -/
theorem insertsAgree_iff {obj : Members Json} (hobj : obj.list ≠ []) (t e : Text) :
    InsertsAgree obj t e ↔ ∃ k ∈ obj.keys, k ≠ e := by
  constructor
  · intro h
    by_contra hno
    obtain ⟨action, haction⟩ := h.upsert (.upsertUpdate2 [] [] e t) [[], []] rfl rfl (by simp)
    rw [build_of_not_fits (b := .upsertUpdate2 [] [] e t) hobj hno] at haction
    exact absurd haction (by simp)
  · intro hk
    refine ⟨?_, ?_, ?_, ?_⟩
    · rw [← text_insert]
      exact build_of_fits (b := .insert t) hobj trivial
    · intro b ks hb he hks
      exact build_upsert hobj (fits_of_upsert hk hb he hks) hb
    · intro _ k1 k2
      exact oneBlank_of_build (a := .upsertUpdate2 k1 k2 e t) (b := .upsertUpdate [k1, k2] e t) hobj hk
        ⟨by simp, hk⟩ rfl rfl
    · intro _ k1 k2 k3
      exact oneBlank_of_build (a := .upsertUpdate3 k1 k2 k3 e t) (b := .upsertUpdate [k1, k2, k3] e t) hobj
        hk ⟨by simp, hk⟩ rfl rfl

/-- An object with a column that is updated. -/
theorem insertsAgree_twoConds : twoCondsJson.list ≠ [] ∧
    (InsertsAgree twoCondsJson ['t'] ['a'] ↔ ∃ k ∈ twoCondsJson.keys, k ≠ ['a']) := by
  have hne : twoCondsJson.list ≠ [] := by simp [twoCondsJson]
  exact ⟨hne, insertsAgree_iff hne ['t'] ['a']⟩

/-- The one column is not to be updated: the upsert has no text. -/
theorem inserts_not_agree :
    ¬∀ (obj : Members Json) (t e : Text), obj.list ≠ [] → InsertsAgree obj t e := by
  intro h
  have hagree := h ⟨[(['i', 'd'], .boolean true)], by decide⟩ ['t'] ['i', 'd'] (by simp)
  obtain ⟨action, haction⟩ := hagree.upsert (.upsertUpdate [['i', 'd']] ['i', 'd'] ['t']) [['i', 'd']] rfl
    rfl (by simp)
  rw [build_of_not_fits (by simp) (by simp [Builder.Fits, Members.keys])] at haction
  exact absurd haction (by simp)

end Jkit.Db.Overloads
