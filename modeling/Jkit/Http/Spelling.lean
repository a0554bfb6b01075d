import Jkit.Http.Head

/-! # The fields of a header under the operations of `basic_fields`

`gather` inserts fields one by one, as the parser does. It keeps the values of every name
(`values_gather`) and brings fields of one name together. The operations of the client and the server
replace the fields of a name by at most one at the end (`Replaced`). So they keep a list that is gathered
already (`Replaced.gather`), and the new list is clean exactly if the fields of other names were
(`Replaced.clean_iff`). -/

namespace Jkit.Http.Spelling

open Jkit.Http.Message Jkit.Http.Tokens Jkit.Http.Head

/-! ### Inserted fields -/

theorem iequals_symm {a b : Str} (h : iequals a b = false) : iequals b a = false := by
  rw [Bool.eq_false_iff] at h ⊢
  exact fun hb => h (iequals_iff.mpr (iequals_iff.mp hb).symm)

theorem values_cons (e : Str × Str) (f : Fields) (name : Str) :
    values (e :: f) name = if iequals e.1 name then e.2 :: values f name else values f name := by
  unfold values
  rw [List.filter_cons]
  split_ifs <;> rfl

/-- What `insert` looks for: the last field of the name, with none behind it. -/
theorem splitLast_cases (name : Str) : ∀ f : Fields,
    (Fields.splitLast name f = none ∧ values f name = []) ∨
      ∃ before behind, Fields.splitLast name f = some (before, behind) ∧ f = before ++ behind ∧
        values behind name = []
  | [] => .inl ⟨rfl, rfl⟩
  | e :: f => by
    rcases splitLast_cases name f with ⟨hsplit, hnone⟩ | ⟨before, behind, hsplit, rfl, hnone⟩
    · rw [Fields.splitLast, hsplit, values_cons]
      dsimp only
      split_ifs with he
      · exact .inr ⟨[e], f, rfl, rfl, hnone⟩
      · exact .inl ⟨rfl, hnone⟩
    · rw [Fields.splitLast, hsplit]
      exact .inr ⟨e :: before, behind, rfl, rfl, hnone⟩

theorem splitLast_of_values {name : Str} : ∀ {f : Fields}, values f name = [] →
    Fields.splitLast name f = none
  | [], _ => rfl
  | e :: f, h => by
    rw [values_cons] at h
    split_ifs at h with he
    rw [Fields.splitLast, splitLast_of_values h, if_neg he]

theorem values_insert (f : Fields) (name value other : Str) :
    values (f.insert name value) other =
      if iequals name other then values f other ++ [trim value] else values f other := by
  unfold Fields.insert
  rcases splitLast_cases name f with ⟨hsplit, -⟩ | ⟨before, behind, hsplit, rfl, hnone⟩
  · rw [hsplit]
    dsimp only
    rw [values_append, values_cons]
    split_ifs with h
    · rfl
    · rw [show values [] other = [] from rfl, List.append_nil]
  · rw [hsplit]
    dsimp only
    rw [values_append, values_append, values_cons]
    split_ifs with h
    · have hbehind : values behind other = [] := by
        rw [← hnone]
        unfold values
        congr 1
        refine List.filter_congr fun e _ => ?_
        rw [Bool.eq_iff_iff, iequals_iff, iequals_iff, iequals_iff.mp h]
      rw [hbehind, List.append_nil]
    · rfl

theorem insertAll_cons (f : Fields) (e : Str × Str) (l : List (Str × Str)) :
    f.insertAll (e :: l) = (f.insert e.1 e.2).insertAll l := rfl

theorem values_insertAll (other : Str) : ∀ (l : List (Str × Str)) (f : Fields),
    values (f.insertAll l) other = values f other ++ (values l other).map trim
  | [], f => by simp [values, Fields.insertAll]
  | e :: l, f => by
    rw [insertAll_cons, values_insertAll other l, values_insert, values_cons]
    split_ifs
    · simp
    · rfl

/-- Read field by field, a header has the values that were written, in their order. -/
theorem values_gather (l : List (Str × Str)) (name : Str) :
    values (Fields.gather l) name = (values l name).map trim :=
  values_insertAll name l []

/-! ### Erased fields -/

theorem erase_cons (e : Str × Str) (f : Fields) (name : Str) :
    Fields.erase (e :: f) name = if iequals e.1 name then f.erase name else e :: f.erase name := by
  unfold Fields.erase
  rw [List.filter_cons]
  cases iequals e.1 name <;> rfl

theorem splitLast_erase {name other : Str} (h : iequals name other = false) : ∀ f : Fields,
    Fields.splitLast name (f.erase other) =
      (Fields.splitLast name f).map fun x => (Fields.erase x.1 other, Fields.erase x.2 other)
  | [] => rfl
  | e :: f => by
    have ih := splitLast_erase h f
    rw [erase_cons]
    by_cases he : iequals e.1 other = true
    · have hne : iequals e.1 name = false := iequals_ne he (iequals_symm h)
      rw [if_pos he, ih, Fields.splitLast, hne]
      rcases Fields.splitLast name f with - | ⟨before, behind⟩
      · rfl
      · simp [erase_cons, he]
    · rw [if_neg he, Fields.splitLast, Fields.splitLast, ih]
      rcases Fields.splitLast name f with - | ⟨before, behind⟩
      · by_cases hn : iequals e.1 name = true
        · simp [hn, he, Fields.erase]
        · simp [hn]
      · simp [erase_cons, he]

theorem erase_append (f g : Fields) (name : Str) :
    Fields.erase (f ++ g) name = f.erase name ++ g.erase name :=
  List.filter_append f g

theorem erase_insert (f : Fields) (name value other : Str) :
    (f.insert name value).erase other =
      if iequals name other then f.erase other else (f.erase other).insert name value := by
  split_ifs with h
  · unfold Fields.insert
    rcases splitLast_cases name f with ⟨hsplit, -⟩ | ⟨before, behind, hsplit, rfl, -⟩
    · rw [hsplit]
      dsimp only
      rw [erase_append, erase_cons, if_pos h]
      exact List.append_nil _
    · rw [hsplit]
      dsimp only
      rw [erase_append, erase_append, erase_cons, if_pos h]
  · unfold Fields.insert
    rw [splitLast_erase (by simpa using h)]
    rcases Fields.splitLast name f with - | ⟨before, behind⟩
    · dsimp only [Option.map_none]
      rw [erase_append, erase_cons, if_neg h]
      rfl
    · dsimp only [Option.map_some]
      rw [erase_append, erase_cons, if_neg h]

theorem erase_insertAll (name : Str) : ∀ (l : List (Str × Str)) (f : Fields),
    (f.insertAll l).erase name = (f.erase name).insertAll (Fields.erase l name)
  | [], _ => rfl
  | e :: l, f => by
    rw [insertAll_cons, erase_insertAll name l, erase_insert, erase_cons]
    split_ifs <;> rfl

theorem gather_erase (l : List (Str × Str)) (name : Str) :
    Fields.gather (Fields.erase l name) = (Fields.gather l).erase name :=
  (erase_insertAll name l []).symm

/-! ### Replaced fields -/

/-- The fields of the name are replaced by at most one at the end, without blanks around its value. -/
def Replaced (name : Str) (f g : Fields) : Prop :=
  ∃ l, g = f.erase name ++ l ∧ (l = [] ∨ ∃ v, l = [(name, v)] ∧ trim v = v ∧ CleanField (name, v))

theorem Replaced.gather {name : Str} {f g : Fields} (h : Replaced name f g)
    (hf : Fields.gather f = f) : Fields.gather g = g := by
  obtain ⟨l, rfl, hl⟩ := h
  have herase : Fields.gather (f.erase name) = f.erase name := by rw [gather_erase, hf]
  rcases hl with rfl | ⟨v, rfl, hv, -⟩
  · rw [List.append_nil, herase]
  · have hnone := splitLast_of_values (values_erase_self f name)
    unfold Fields.gather Fields.insertAll at herase ⊢
    rw [List.foldl_append, herase, List.foldl_cons, List.foldl_nil, Fields.insert, hnone, hv]

/-- The fields whose names are not in the list are clean. -/
def CleanBut (names : List Str) (f : Fields) : Prop :=
  ∀ e ∈ f, names.any (iequals e.1) = false → CleanField e

theorem cleanBut_nil {f : Fields} : CleanBut [] f ↔ ∀ e ∈ f, CleanField e := by
  simp [CleanBut]

/-- Whether fields are clean can be seen. -/
theorem forall_clean {f : Fields} (h : ∀ e ∈ f, e.1 ≠ [] ∧ e.1.all isTokenChar = true ∧
    e.2.all isText = true) : ∀ e ∈ f, CleanField e := by
  intro e he
  obtain ⟨hne, hname, hvalue⟩ := h e he
  exact ⟨hne, List.all_eq_true.mp hname, List.all_eq_true.mp hvalue⟩

theorem Replaced.clean_iff {name : Str} {f g : Fields} (h : Replaced name f g) (names : List Str) :
    CleanBut names g ↔ CleanBut (name :: names) f := by
  obtain ⟨l, rfl, hl⟩ := h
  have hclean : ∀ e ∈ l, CleanField e := by
    rcases hl with rfl | ⟨v, rfl, -, hv⟩
    · simp
    · simpa using hv
  constructor
  · intro h e he hn
    rw [List.any_cons, Bool.or_eq_false_iff] at hn
    refine h e (List.mem_append_left _ (List.mem_filter.mpr ⟨he, ?_⟩)) hn.2
    rw [hn.1]
    rfl
  · intro h e he hn
    rcases List.mem_append.mp he with he | he
    · obtain ⟨he, hne⟩ := List.mem_filter.mp he
      refine h e he ?_
      rw [List.any_cons, hn, Bool.or_false]
      simpa using hne
    · exact hclean e he

theorem replaced_set {name value : Str} (h : CleanField (name, trim value)) (f : Fields) :
    Replaced name f (f.set name value) :=
  ⟨_, rfl, .inr ⟨_, rfl, trim_trim value, h⟩⟩

/-! ### What the server writes -/

theorem isText_of_range {c lo hi : UInt8} (hc : lo ≤ c) (hc' : c ≤ hi) (hlo : 32 ≤ lo) (hhi : hi < 127) :
    isText c = true := by
  have hne : c ≠ 127 := by
    rintro rfl
    rw [UInt8.le_iff_toNat_le] at hc'
    rw [UInt8.lt_iff_toNat_lt] at hhi
    omega
  have hge : (32 : UInt8) ≤ c := UInt8.le_trans hlo hc
  simp [isText, hge, hne]

theorem isText_of_isTokenChar {c : UInt8} (h : isTokenChar c = true) : isText c = true := by
  have hmark : ∀ c ∈ str "!#$%&'*+-.^_`|~", isText c = true := List.all_eq_true.mp (by decide)
  simp only [isTokenChar, Bool.or_eq_true, Bool.and_eq_true, decide_eq_true_eq] at h
  rcases h with ((⟨hlo, hhi⟩ | ⟨hlo, hhi⟩) | ⟨hlo, hhi⟩) | hmem
  · exact isText_of_range hlo hhi (by decide) (by decide)
  · exact isText_of_range hlo hhi (by decide) (by decide)
  · exact isText_of_range hlo hhi (by decide) (by decide)
  · exact hmark c hmem

theorem text_of_joinTokens : ∀ {l : List Str}, (∀ t ∈ l, IsToken t) →
    ∀ c ∈ joinTokens l, isText c = true
  | [], _ => by simp [joinTokens]
  | [t], h => by
    rw [joinTokens_singleton]
    exact fun c hc => isText_of_isTokenChar ((h t (by simp)).2 c hc)
  | t :: u :: l, h => by
    have hsep : ∀ c ∈ str ", ", isText c = true := List.all_eq_true.mp (by decide)
    have ht : ∀ c ∈ t, isText c = true := fun c hc => isText_of_isTokenChar ((h t (by simp)).2 c hc)
    have hl := text_of_joinTokens fun t' ht' => h t' (List.mem_cons_of_mem t ht')
    rw [joinTokens_cons_cons]
    exact List.forall_mem_append.mpr ⟨List.forall_mem_append.mpr ⟨ht, hsep⟩, hl⟩

/-- A value that the server writes under a name of its own. -/
theorem cleanField_of_text {name : String} {value : Str}
    (hname : str name ≠ [] ∧ (str name).all isTokenChar = true)
    (hvalue : ∀ c ∈ value, isText c = true) : CleanField (str name, trim value) :=
  ⟨hname.1, List.all_eq_true.mp hname.2, fun c hc => hvalue c ((trim_sublist value).subset hc)⟩

theorem replaced_setKeepAlive (f : Fields) (version : ℕ) (keepAlive : Bool) :
    Replaced (str "Connection") f (f.setKeepAlive version keepAlive) := by
  obtain ⟨l, htok, hv, -⟩ := keepAliveValue_eq (f.get (str "Connection")) version keepAlive
  unfold Fields.setKeepAlive
  dsimp only
  split_ifs
  · exact ⟨[], (List.append_nil _).symm, .inl rfl⟩
  · refine replaced_set (cleanField_of_text (by decide) ?_) f
    rw [hv]
    exact text_of_joinTokens htok

theorem replaced_unsetChunked (f : Fields) : Replaced (str "Transfer-Encoding") f f.unsetChunked := by
  have htok := isToken_codingsLeft f
  refine ⟨_, unsetChunked_eq f, ?_⟩
  split_ifs
  · exact .inl rfl
  · have hclean : CleanField (str "Transfer-Encoding", trim (joinTokens (codingsLeft f))) :=
      cleanField_of_text (by decide) (text_of_joinTokens htok)
    rw [trim_joinTokens htok] at hclean
    exact .inr ⟨_, rfl, trim_joinTokens htok, hclean⟩

theorem text_of_toString (n : ℕ) : ∀ c ∈ str (toString n), isText c = true := by
  intro c hc
  rw [str_toString] at hc
  obtain ⟨d, hd, rfl⟩ := List.mem_map.mp hc
  have hdigit := isDigit_toDigits d hd
  have hlo := (Char.isDigit_iff_toNat.mp hdigit).1
  have hhi := (Char.isDigit_iff_toNat.mp hdigit).2
  have hn := toNat_toUInt8 hdigit
  have hlow : 48 ≤ d.toUInt8 := by
    rw [UInt8.le_iff_toNat_le, hn]
    exact hlo
  have hhigh : d.toUInt8 ≤ 57 := by
    rw [UInt8.le_iff_toNat_le, hn]
    exact hhi
  exact isText_of_range hlow hhigh (by decide) (by decide)

/-- `content_length` replaces two fields. -/
theorem replaced_contentLength (f : Fields) (n : ℕ) : ∃ g,
    Replaced (str "Content-Length") f g ∧ Replaced (str "Transfer-Encoding") g (f.contentLength n) :=
  ⟨_, replaced_set (cleanField_of_text (by decide) (text_of_toString n)) f, replaced_unsetChunked _⟩

end Jkit.Http.Spelling
