import Jkit.Lib.OrdMap
import Jkit.Db.Reading

/-! # `json2sql`: what is done with documents before a statement is built

`assign_json_value` copies the members of an object whose keys are in a list into another object. It is
what stands between the body of a request and a statement: the builders write every key of their object
as the name of a column, so the keys of a body must not reach them. `assigned_means` says what a statement
that is built from the result writes: for every key the value that the body has for it if the key is in the
list, and otherwise the value that was there before, whatever other members the body has. Those other
members have no influence on whether the database reads the statement as it is meant either.

`select_not_in_array` is the difference of two arrays by the values of a key (`selectNotInArray_eq`). -/

namespace Jkit.Db.Documents

open Jkit.Lib Jkit.Lib.OrdMap
open Jkit.Db.JsonText Jkit.Db.SqlConst Jkit.Db.SqlName Jkit.Db.Builders Jkit.Db.Where Jkit.Db.Reading

/-! ### Documents -/

/-- `std::less<std::string>`. -/
def less (a b : Text) : Bool := decide (a < b)

theorem less_order : Less less where
  irrefl a := by simp [less]
  trans hab hbc := by
    simp only [less, decide_eq_true_eq] at hab hbc ⊢
    exact lt_trans hab hbc
  total hab hba := by
    simp only [less, decide_eq_false_iff_not, not_lt] at hab hba
    exact le_antisymm hba hab

/-- `json::object_t`, a `std::map`. -/
structure Object where
  list : List (Text × Json)
  ordered : Ordered less list

/-- The kinds of `json` that have no members. -/
inductive Kind
  | boolean
  | number
  | string
  | array
deriving DecidableEq

/-- A `json`, by what `assign_json_value` sees of it. -/
inductive Doc
  | null
  | object (m : Object)
  | other (kind : Kind)

/-- `json::type_name`. -/
def Kind.typeName : Kind → String
  | .boolean => "boolean"
  | .number => "number"
  | .string => "string"
  | .array => "array"

/-- `json::find` with `value()` of the iterator; only an object has members. -/
def Doc.find (key : Text) : Doc → Option Json
  | .object m => OrdMap.find less key m.list
  | _ => none

def Object.set (m : Object) (key : Text) (v : Json) : Object where
  list := modify less key (fun _ => v) m.list
  ordered := ordered_modify less_order m.ordered key _

/-- `doc[key] = v`: null becomes an object, and the other kinds throw `type_error.305`. -/
def Doc.set (key : Text) (v : Json) : Doc → Except String Doc
  | .null => .ok (.object ⟨[(key, v)], List.pairwise_singleton _ _⟩)
  | .object m => .ok (.object (m.set key v))
  | .other kind => .error ("[json.exception.type_error.305] cannot use operator[] with a string " ++
      "argument with " ++ kind.typeName)

/-- `assign_json_value`. -/
def assignJsonValue (assginJson obj : Doc) : List Text → Except String Doc
  | [] => .ok assginJson
  | key :: keys =>
    match obj.find key with
    | some v => do
      let assginJson ← assginJson.set key v
      assignJsonValue assginJson obj keys
    | none => assignJsonValue assginJson obj keys

/-- The value that a key is meant to get. -/
def chosen (own body : Doc) (keys : List Text) (k : Text) : Option Json :=
  (if k ∈ keys then body.find k else none).or (own.find k)

/-! ### What is assigned -/

theorem Doc.find_set {d d' : Doc} {key : Text} {v : Json} (h : d.set key v = .ok d') (k : Text) :
    d'.find k = if k = key then some v else d.find k := by
  rcases d with - | m | kind
  · obtain rfl := Except.ok.inj h
    split_ifs with hk
    · rw [hk]
      exact find_cons_self less_order key v []
    · exact find_cons_ne less_order (Ne.symm hk) v []
  · obtain rfl := Except.ok.inj h
    split_ifs with hk
    · rw [hk]
      exact find_modify_self less_order m.ordered key _
    · exact find_modify_ne less_order (Ne.symm hk) _ m.list
  · exact absurd h (by simp [Doc.set])

/-- A key that the body does not have may as well not be in the list. -/
theorem chosen_cons_none {own body : Doc} {key : Text} (h : body.find key = none) (keys : List Text)
    (k : Text) : chosen own body (key :: keys) k = chosen own body keys k := by
  unfold chosen
  by_cases hk : k = key
  · subst hk
    simp [h]
  · simp [hk]

/-- A key that the body has is assigned first; a later assignment of the key gives the same. -/
theorem chosen_cons_some {own own' body : Doc} {key : Text} {v : Json} (h : body.find key = some v)
    (hset : own.set key v = .ok own') (keys : List Text) (k : Text) :
    chosen own body (key :: keys) k = chosen own' body keys k := by
  unfold chosen
  rw [Doc.find_set hset]
  by_cases hk : k = key
  · subst hk
    by_cases hmem : k ∈ keys
    · simp [h, hmem]
    · simp [h, hmem]
  · simp [hk]

theorem assignJsonValue_none {own body : Doc} {key : Text} (h : body.find key = none)
    (keys : List Text) : assignJsonValue own body (key :: keys) = assignJsonValue own body keys := by
  rw [assignJsonValue, h]

theorem assignJsonValue_some {own body : Doc} {key : Text} {v : Json} (h : body.find key = some v)
    (keys : List Text) : assignJsonValue own body (key :: keys) =
      (own.set key v).bind fun d => assignJsonValue d body keys := by
  rw [assignJsonValue, h]
  rfl

/-- **What `assign_json_value` leaves**: the chosen value for every key. -/
theorem find_assignJsonValue {own body d : Doc} {keys : List Text}
    (h : assignJsonValue own body keys = .ok d) (k : Text) : d.find k = chosen own body keys k := by
  induction keys generalizing own with
  | nil =>
    obtain rfl := Except.ok.inj h
    rfl
  | cons key keys ih =>
    rcases hkey : body.find key with - | v
    · rw [assignJsonValue_none hkey] at h
      rw [chosen_cons_none hkey, ih h]
    · rw [assignJsonValue_some hkey] at h
      rcases hset : own.set key v with e | own'
      · rw [hset] at h
        exact absurd h (by simp [Except.bind])
      · rw [hset] at h
        rw [chosen_cons_some hkey hset, ih h]

/-- It fails if something is to be assigned to what is neither null nor an object. -/
theorem assignJsonValue_isOk {own body : Doc} {keys : List Text} :
    (∃ d, assignJsonValue own body keys = .ok d) ↔
      ∀ kind, own = .other kind → ∀ k ∈ keys, body.find k = none := by
  induction keys generalizing own with
  | nil => simp [assignJsonValue]
  | cons key keys ih =>
    rcases hkey : body.find key with - | v
    · rw [assignJsonValue_none hkey, ih]
      simp [hkey]
    · rw [assignJsonValue_some hkey]
      rcases own with - | m | kind
      · exact ⟨fun _ => by simp, fun _ => ih.mpr (by simp)⟩
      · exact ⟨fun _ => by simp, fun _ => ih.mpr (by simp)⟩
      · constructor
        · rintro ⟨d, hd⟩
          exact absurd hd (by simp [Doc.set, Except.bind])
        · intro h
          have hnone := h kind rfl key List.mem_cons_self
          rw [hkey] at hnone
          exact absurd hnone (by simp)

/-! ### Statements from the result -/

theorem Object.unique (m : Object) : (m.list.map Prod.fst).Nodup := by
  rw [List.nodup_iff_pairwise_ne, List.pairwise_map]
  refine m.ordered.imp ?_
  rintro x y hxy heq
  rw [heq, less_order.irrefl] at hxy
  exact Bool.noConfusion hxy

/-- The object as the builders take it. -/
def Object.members (m : Object) : Members Json := ⟨m.list, m.unique⟩

/-- The columns that a statement writes, with what it writes to them. -/
def writes : Sql → List (Text × Const)
  | .update _ sets _ => sets
  | .insert _ columns values => columns.zip values
  | .upsert _ columns values _ _ => columns.zip values

theorem zip_given (m : Members Json) : m.keys.zip ((given m).map Prod.snd) = given m := by
  unfold Members.keys given
  rw [List.map_map, List.zip_map']
  rfl

/-- Every builder writes the columns of its object. -/
theorem writes_meaning (m : Members Json) (b : Builder) : writes (meaning m b) = given m := by
  rcases b with - | - | - | - | - | - | - | -
  · rfl
  · rfl
  · rfl
  all_goals exact zip_given m

section Assigned

variable {own body : Doc} {keys : List Text} {m : Object}
  (h : assignJsonValue own body keys = .ok (.object m))

include h

theorem mem_assigned {k : Text} {v : Json} : (k, v) ∈ m.list ↔ chosen own body keys k = some v := by
  rw [← find_assignJsonValue h, Doc.find, find_eq_some less_order m.ordered]

theorem assigned_ne_nil : m.list ≠ [] ↔ ∃ k v, chosen own body keys k = some v := by
  constructor
  · intro hne
    obtain ⟨⟨k, v⟩, hkv⟩ := List.exists_mem_of_ne_nil _ hne
    exact ⟨k, v, (mem_assigned h).mp hkv⟩
  · rintro ⟨k, v, hkv⟩
    exact List.ne_nil_of_mem ((mem_assigned h).mpr hkv)

theorem assigned_safeObject :
    SafeObject m.members ↔ ∀ k v, chosen own body keys k = some v → IsName k ∧ Clean v := by
  rw [safeObject_iff]
  constructor
  · intro hall k v hkv
    exact hall (k, v) ((mem_assigned h).mpr hkv)
  · intro hall kv hkv
    exact hall kv.1 kv.2 ((mem_assigned h).mp hkv)

/-- **A statement from a whitelisted body.** Only the members of the body that are in the list decide whether
it is read as it is meant, and it writes the chosen values and nothing else. -/
theorem assigned_means (b : Builder) :
    (Means m.members b ↔ (∃ k v, chosen own body keys k = some v) ∧ b.Fits m.members ∧
        IsTable (table b) ∧ (∀ k v, chosen own body keys k = some v → IsName k ∧ Clean v) ∧
        (∀ k ∈ columns b, IsName k) ∧ ∀ v ∈ condValues b, Clean v) ∧
      ∀ k c, (k, c) ∈ writes (meaning m.members b) ↔
        ∃ v, chosen own body keys k = some v ∧ c = literal v := by
  refine ⟨?_, ?_⟩
  · rw [means_iff_of_safe_iff safe_iff, ← assigned_safeObject h, ← assigned_ne_nil h]
    rfl
  · intro k c
    rw [writes_meaning, given, List.mem_map]
    constructor
    · rintro ⟨⟨k', v⟩, hkv, he⟩
      obtain ⟨rfl, rfl⟩ := Prod.mk.inj he
      exact ⟨v, (mem_assigned h).mp hkv, rfl⟩
    · rintro ⟨v, hkv, rfl⟩
      exact ⟨(k, v), (mem_assigned h).mpr hkv, rfl⟩

end Assigned

/-- A body with a member that is not in the list, and whose key would end the statement. -/
def request : Doc := .object
  ⟨[("admin)--".toList, .boolean true), ("name".toList, .string "eve".toList)],
    List.pairwise_pair.mpr (by decide)⟩

theorem chosen_request {k : Text} {v : Json} : chosen .null request ["name".toList] k = some v ↔
    k = "name".toList ∧ v = .string "eve".toList := by
  have hfind : request.find "name".toList = some (.string "eve".toList) := rfl
  unfold chosen
  by_cases hk : k = "name".toList
  · rw [if_pos (by simp [hk]), hk, hfind]
    simp [eq_comm]
  · rw [if_neg (by simpa using hk)]
    exact ⟨fun h => absurd h (by simp [Doc.find]), fun h => absurd h.1 hk⟩

/-- Only the name reaches the statement. -/
theorem assigned_means_request :
    ∃ m : Object, assignJsonValue .null request ["name".toList] = .ok (.object m) ∧
      Means m.members (.insert "users".toList) ∧
      ∀ k c, (k, c) ∈ writes (meaning m.members (.insert "users".toList)) ↔
        k = "name".toList ∧ c = .string "eve".toList := by
  have h : assignJsonValue .null request ["name".toList] = .ok (.object
      ⟨[("name".toList, .string "eve".toList)], List.pairwise_singleton _ _⟩) := rfl
  have hspec := assigned_means h (.insert "users".toList)
  simp only [chosen_request] at hspec
  refine ⟨_, h, hspec.1.mpr ⟨⟨_, _, rfl, rfl⟩, trivial, by decide, ?_, by simp [columns],
    by simp [condValues]⟩, ?_⟩
  · rintro k v ⟨rfl, rfl⟩
    exact ⟨by decide, by simp [Clean, strings]⟩
  · intro k c
    rw [hspec.2]
    constructor
    · rintro ⟨v, ⟨hk, rfl⟩, rfl⟩
      exact ⟨hk, rfl⟩
    · rintro ⟨hk, rfl⟩
      exact ⟨_, ⟨hk, rfl⟩, rfl⟩

/-! ### Differences of arrays -/

/-- `json::type_name`. -/
def typeName : Json → String
  | .null => "null"
  | .boolean _ => Kind.boolean.typeName
  | .number _ => Kind.number.typeName
  | .string _ => Kind.string.typeName
  | .array _ => Kind.array.typeName
  | .object _ => "object"

/-- What the iterators of a `json` go through. -/
def elements : Json → List Json
  | .null => []
  | .array vs => vs
  | .object kvs => kvs.map Prod.snd
  | v => [v]

/-- `json::at`. -/
def atKey (key : Text) : Json → Except String Json
  | .object kvs =>
    match OrdMap.find less key kvs with
    | some v => .ok v
    | none => .error ("[json.exception.out_of_range.403] key '" ++ String.ofList key ++ "' not found")
  | v => .error ("[json.exception.type_error.304] cannot use at() with " ++ typeName v)

section Select

variable {T : Type} [DecidableEq T] (get : Json → Except String T) (toJson : T → Json) (key : Text)

/-- `const T& v = value.at(key)`. -/
def valueOf (e : Json) : Except String T := (atKey key e).bind get

/-- The inner loop: is the value among those of the elements? It stops at the first one that is equal. -/
def isIn (v : T) : List Json → Except String Bool
  | [] => .ok false
  | e :: es => (valueOf get key e).bind fun w => if v = w then .ok true else isIn v es

/-- The outer loop. -/
def selectLoop (ins : List Json) : List Json → Except String (List Json)
  | [] => .ok []
  | e :: es =>
    (valueOf get key e).bind fun v => (isIn get key v ins).bind fun found =>
      (selectLoop ins es).map fun res => if found then res else toJson v :: res

/-- `select_not_in_array`. -/
def selectNotInArray (fromArr inArr : Json) : Except String Json :=
  (selectLoop get toJson key (elements inArr) (elements fromArr)).map .array

/-- The values of the key of all elements, if they all have one. -/
def Values : List Json → List T → Prop := List.Forall₂ fun e v => valueOf get key e = .ok v

variable {get toJson key}

theorem isIn_values {ins : List Json} {ws : List T} (h : Values get key ins ws) (v : T) :
    isIn get key v ins = .ok (decide (v ∈ ws)) := by
  induction h with
  | nil => rfl
  | @cons e w ins ws he _ ih =>
    rw [isIn, he, Except.bind]
    by_cases hv : v = w
    · simp [hv]
    · simp [hv, ih]

theorem selectLoop_values {ins es : List Json} {vs ws : List T} (hin : Values get key ins ws)
    (h : Values get key es vs) :
    selectLoop get toJson key ins es = .ok ((vs.filter fun v => v ∉ ws).map toJson) := by
  induction h with
  | nil => rfl
  | @cons e v es vs he _ ih =>
    rw [selectLoop, he, Except.bind, isIn_values hin, Except.bind, ih]
    by_cases hv : v ∈ ws
    · simp [hv, Except.map]
    · simp [hv, Except.map]

/-- **The difference of two arrays**: in order, and as often as they stand in the first one. -/
theorem selectNotInArray_eq {fromArr inArr : Json} {vs ws : List T}
    (hfrom : Values get key (elements fromArr) vs) (hin : Values get key (elements inArr) ws) :
    selectNotInArray get toJson key fromArr inArr =
      .ok (.array ((vs.filter fun v => v ∉ ws).map toJson)) := by
  rw [selectNotInArray, selectLoop_values hin hfrom]
  rfl

end Select

end Jkit.Db.Documents
