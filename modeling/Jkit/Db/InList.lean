import Jkit.Db.Json2Sql
import Mathlib.Algebra.Order.BigOperators.Group.List
import Mathlib.Algebra.Order.Group.Nat
import Mathlib.Algebra.Ring.Nat

/-! # Lists for `in`

`arr_to_sql_in_arr` writes the elements of an array by their JSON text, with every double quote
replaced; `comma_arr_to_sql_in_arr` writes the tokens of a text. Both are compared with the list they
are meant to be, item by item. Where they go wrong they write more characters than they should: an
escape is longer than the character it stands for, and an empty token adds a comma. So a comparison of
the lengths shows that the conditions are exact (`arrToSqlInArr_iff`, `commaArrToSqlInArr_iff`). -/

namespace Jkit.Db.InList

open Jkit.Db.JsonText Jkit.Db.Json2Sql

/-! ### Joined texts -/

/-- `boost::join(l, ",")`. -/
def join (l : List (List Char)) : List Char := [','].intercalate l

theorem join_cons_cons (a b : List Char) (l : List (List Char)) :
    join (a :: b :: l) = a ++ ',' :: join (b :: l) := by
  simp [join, List.intercalate_cons_cons]

theorem length_join {l : List (List Char)} (h : l ≠ []) :
    (join l).length + 1 = (l.map fun t => t.length + 1).sum := by
  induction l with
  | nil => exact absurd rfl h
  | cons a l ih =>
    rcases l with - | ⟨b, l⟩
    · simp [join]
    · have hrest := ih (by simp)
      rw [join_cons_cons, List.map_cons, List.sum_cons, ← hrest]
      simp only [List.length_append, List.length_cons]
      omega

/-- If no item is shorter than its counterpart and the joined texts are equally long, the items are. -/
theorem length_eq_of_join {α : Type} {f g : α → List Char} {l : List α}
    (hle : ∀ v ∈ l, (g v).length ≤ (f v).length)
    (h : (join (l.map f)).length = (join (l.map g)).length) : ∀ v ∈ l, (g v).length = (f v).length := by
  intro v hv
  by_contra hne
  have hl : l ≠ [] := List.ne_nil_of_mem hv
  have hf := length_join (l := l.map f) (by simpa using hl)
  have hg := length_join (l := l.map g) (by simpa using hl)
  have hlt := hle v hv
  rw [List.map_map] at hf hg
  have hsum : (l.map ((fun t : List Char => t.length + 1) ∘ g)).sum <
      (l.map ((fun t : List Char => t.length + 1) ∘ f)).sum := by
    refine List.sum_lt_sum _ _ ?_ ⟨v, hv, ?_⟩
    · intro w hw
      have := hle w hw
      simp only [Function.comp]
      omega
    · simp only [Function.comp]
      omega
  omega

/-! ### `arr_to_sql_in_arr` -/

/-- What `replace_all` makes of a character. -/
def swapQuote (c : Char) : Char := if c = '"' then '\'' else c

/-- `arr_to_sql_in_arr`. -/
def arrToSqlInArr (array : Json) : List Char :=
  let str := (dump array).set 0 '('
  let str := str.set (str.length - 1) ')'
  str.map swapQuote

/-- The items as `value_to_sql_str` writes them. -/
def inList (vs : List Json) : List Char := '(' :: join (vs.map valueToSqlStr) ++ [')']

/-- The characters that JSON writes as they are. -/
def Unescaped (s : List Char) : Prop := ∀ c ∈ s, c ≠ '"' ∧ c ≠ '\\' ∧ 0x1f < c.toNat

theorem dumpElems_eq (vs : List Json) : dumpElems vs = join (vs.map dump) := by
  induction vs with
  | nil => simp [dumpElems, join]
  | cons v vs ih =>
    rcases vs with - | ⟨w, vs⟩
    · simp [dumpElems, join]
    · rw [dumpElems, ih]
      simp only [List.map_cons, join_cons_cons]

theorem map_swapQuote_join : ∀ l : List (List Char),
    (join l).map swapQuote = join (l.map (List.map swapQuote))
  | [] => by simp [join]
  | [a] => by simp [join]
  | a :: b :: l => by
    have hcomma : swapQuote ',' = ',' := by decide
    rw [join_cons_cons, List.map_append, List.map_cons, map_swapQuote_join (b :: l), hcomma]
    simp only [List.map_cons, join_cons_cons]

theorem arrToSqlInArr_eq (vs : List Json) :
    arrToSqlInArr (.array vs) = '(' :: join (vs.map fun v => (dump v).map swapQuote) ++ [')'] := by
  have hopen : swapQuote '(' = '(' := by decide
  have hclose : swapQuote ')' = ')' := by decide
  have hjoin : (dumpElems vs).map swapQuote = join (vs.map fun v => (dump v).map swapQuote) := by
    rw [dumpElems_eq, map_swapQuote_join, List.map_map]
    rfl
  simp only [arrToSqlInArr, dump, set_ends, List.map_append, List.map_cons, List.map_nil, hjoin, hopen,
    hclose]

theorem flatMap_escapeChar {s : List Char} (h : Unescaped s) : s.flatMap escapeChar = s := by
  induction s with
  | nil => rfl
  | cons c s ih =>
    have hs := ih fun d hd => h d (List.mem_cons_of_mem _ hd)
    have hc := h c List.mem_cons_self
    rcases escapeChar_cases c with ⟨he, -⟩ | ⟨-, h1 | h1 | h1⟩
    · rw [List.flatMap_cons, he, hs]
      rfl
    · exact absurd h1 hc.1
    · exact absurd h1 hc.2.1
    · omega

/-- The escaped text is at least as long, and longer if there is something to escape. -/
theorem length_flatMap_escapeChar (s : List Char) : s.length ≤ (s.flatMap escapeChar).length ∧
    (s.length = (s.flatMap escapeChar).length → Unescaped s) := by
  induction s with
  | nil => exact ⟨by simp, fun _ c hc => by simp at hc⟩
  | cons c s ih =>
    obtain ⟨hle, hs⟩ := ih
    rw [List.flatMap_cons, List.length_append, List.length_cons]
    rcases escapeChar_cases c with ⟨he, hc⟩ | ⟨he, -⟩
    · rw [he, List.length_singleton]
      refine ⟨by omega, ?_⟩
      intro hlen d hd
      rcases List.mem_cons.mp hd with rfl | hd
      · exact hc
      · exact hs (by omega) d hd
    · exact ⟨by omega, fun hlen => by omega⟩

theorem map_swapQuote_of_notMem {s : List Char} (h : '"' ∉ s) : s.map swapQuote = s := by
  refine (List.map_congr_left ?_).trans (List.map_id s)
  intro c hc
  unfold swapQuote
  rw [if_neg]
  · rfl
  · rintro rfl
    exact h hc

/-- The string is written the same way in both lists. -/
def PlainItem : Json → Prop
  | .string s => Unescaped s
  | _ => True

theorem item_eq {v : Json} (hv : Scalar v) (h : PlainItem v) :
    (dump v).map swapQuote = valueToSqlStr v := by
  obtain rfl | ⟨b, rfl⟩ | ⟨n, rfl⟩ | ⟨s, rfl⟩ := hv.cases
  · decide
  · rcases b with - | -
    · decide
    · decide
  · exact map_swapQuote_of_notMem (notMem_text (by decide) (by decide) n)
  · have hs : '"' ∉ s := fun hmem => (h _ hmem).1 rfl
    have hq : swapQuote '"' = '\'' := by decide
    show (quoted s).map swapQuote = '\'' :: s ++ ['\'']
    unfold quoted
    rw [flatMap_escapeChar h, List.map_append, List.map_cons, map_swapQuote_of_notMem hs, hq]
    simp only [List.map_cons, List.map_nil, hq]

theorem length_item {v : Json} (hv : Scalar v) :
    (valueToSqlStr v).length ≤ ((dump v).map swapQuote).length ∧
      ((valueToSqlStr v).length = ((dump v).map swapQuote).length → PlainItem v) := by
  by_cases hp : PlainItem v
  · rw [item_eq hv hp]
    exact ⟨le_rfl, fun _ => hp⟩
  · obtain rfl | ⟨b, rfl⟩ | ⟨n, rfl⟩ | ⟨s, rfl⟩ := hv.cases
    · exact absurd trivial hp
    · exact absurd trivial hp
    · exact absurd trivial hp
    · obtain ⟨hle, heq⟩ := length_flatMap_escapeChar s
      have h1 : (valueToSqlStr (.string s)).length = s.length + 2 := by simp [valueToSqlStr]
      have h2 : ((dump (.string s)).map swapQuote).length = (s.flatMap escapeChar).length + 2 := by
        rw [List.length_map, dump, quoted, List.length_append, List.length_cons]
        rfl
      rw [h1, h2]
      exact ⟨by omega, fun h => heq (by omega)⟩

/-- `arr_to_sql_in_arr` writes the items as `value_to_sql_str` does exactly if JSON has nothing to
escape in its strings. -/
theorem arrToSqlInArr_iff (vs : List Json) (hvs : ∀ v ∈ vs, Scalar v) :
    arrToSqlInArr (.array vs) = inList vs ↔ ∀ v ∈ vs, PlainItem v := by
  rw [arrToSqlInArr_eq, inList]
  constructor
  · intro h
    have hlen := congrArg List.length h
    simp only [List.length_append, List.length_cons, Nat.add_right_cancel_iff] at hlen
    have hitems := length_eq_of_join (fun v hv => (length_item (hvs v hv)).1) hlen
    intro v hv
    exact (length_item (hvs v hv)).2 (hitems v hv)
  · intro h
    have hmap : vs.map (fun v => (dump v).map swapQuote) = vs.map valueToSqlStr :=
      List.map_congr_left fun v hv => item_eq (hvs v hv) (h v hv)
    rw [hmap]

/-- A number and a plain string. -/
theorem arrToSqlInArr_plain :
    (∀ v ∈ [Json.number (.integer 3), .string ['a']], Scalar v) ∧
      (arrToSqlInArr (.array [.number (.integer 3), .string ['a']]) =
          inList [.number (.integer 3), .string ['a']] ↔
        ∀ v ∈ [Json.number (.integer 3), .string ['a']], PlainItem v) := by
  have h : ∀ v ∈ [Json.number (.integer 3), .string ['a']], Scalar v := by simp [Scalar]
  exact ⟨h, arrToSqlInArr_iff _ h⟩

/-- A string with a double quote in it. -/
theorem arrToSqlInArr_quote : ¬∀ vs : List Json, vs ≠ [] → (∀ v ∈ vs, Scalar v) →
    arrToSqlInArr (.array vs) = inList vs := by
  intro h
  have heq := h [.string ['a', '"']] (by simp) (by simp [Scalar])
  exact absurd (congrArg List.length heq) (by decide)

/-! ### `comma_arr_to_sql_in_arr` -/

/-- `boost::is_any_of(" ,")`. -/
def isSep (c : Char) : Bool := c == ' ' || c == ','

/-- `boost::split` with `token_compress_on`, from a position on; the flag says that a separator stands
before it. -/
def splitFrom : Bool → List Char → List (List Char)
  | _, [] => [[]]
  | after, c :: s =>
    if isSep c then if after then splitFrom true s else [] :: splitFrom true s
    else (splitFrom false s).modifyHead (c :: ·)

/-- `boost::split(arr, str, boost::is_any_of(" ,"), boost::token_compress_on)`. -/
def split (str : List Char) : List (List Char) := splitFrom false str

/-- An item, in single quotes if it is a text. -/
def item (isText : Bool) (s : List Char) : List Char := if isText then '\'' :: s ++ ['\''] else s

/-- `comma_arr_to_sql_in_arr`. -/
def commaArrToSqlInArr (str : List Char) (isText : Bool) : List Char :=
  '(' :: join ((split str).map (item isText)) ++ [')']

/-- The maximal non-empty runs of characters that are no separators. -/
def runs (str : List Char) : List (List Char) := (str.splitOnP isSep).filter fun t => !t.isEmpty

/-- The list with these items. -/
def runsInList (str : List Char) (isText : Bool) : List Char :=
  '(' :: join ((runs str).map (item isText)) ++ [')']

/-- The text ends with a separator. -/
def EndsSep (s : List Char) : Prop := ∃ c, s.getLast? = some c ∧ isSep c = true

theorem endsSep_cons (c : Char) (s : List Char) :
    EndsSep (c :: s) ↔ s = [] ∧ isSep c = true ∨ EndsSep s := by
  unfold EndsSep
  rcases s with - | ⟨d, s⟩
  · simp
  · rw [List.getLast?_cons_cons]
    simp

theorem splitFrom_ne_nil (b : Bool) (s : List Char) : splitFrom b s ≠ [] := by
  induction s generalizing b with
  | nil => simp [splitFrom]
  | cons c s ih =>
    unfold splitFrom
    split_ifs
    · exact ih true
    · simp
    · obtain ⟨h, t, ht⟩ := List.exists_cons_of_ne_nil (ih false)
      rw [ht]
      simp

/-- Of several separators the first one ends a token. -/
theorem splitFrom_sep {c : Char} (hc : isSep c = true) (s : List Char) :
    splitFrom false (c :: s) = [] :: splitFrom true s ∧
      splitFrom true (c :: s) = splitFrom true s := by
  simp [splitFrom, hc]

/-- The first token goes to the first separator. -/
theorem splitFrom_char (c : Char) (s : List Char) (hc : isSep c = false) (b : Bool) :
    ∃ h t, splitFrom false s = h :: t ∧ splitFrom b (c :: s) = (c :: h) :: t := by
  obtain ⟨h, t, ht⟩ := List.exists_cons_of_ne_nil (splitFrom_ne_nil false s)
  refine ⟨h, t, ht, ?_⟩
  rw [splitFrom, if_neg (by simp [hc]), ht]
  rfl

/-- Where an empty token stands: behind a separator at the end. -/
theorem nil_mem_splitFrom (s : List Char) : ([] ∈ (splitFrom false s).tail ↔ EndsSep s) ∧
    ([] ∈ splitFrom true s ↔ s = [] ∨ EndsSep s) := by
  induction s with
  | nil => simp [splitFrom, EndsSep]
  | cons c s ih =>
    obtain ⟨ih1, ih2⟩ := ih
    rw [endsSep_cons]
    by_cases hc : isSep c = true
    · rw [(splitFrom_sep hc s).1, (splitFrom_sep hc s).2, List.tail_cons, ih2]
      simp [hc]
    · rw [Bool.not_eq_true] at hc
      obtain ⟨h, t, ht, ht1⟩ := splitFrom_char c s hc false
      obtain ⟨h', t', ht', ht2⟩ := splitFrom_char c s hc true
      rw [ht] at ih1 ht'
      obtain ⟨rfl, rfl⟩ := List.cons.inj ht'
      rw [ht1, ht2, hc]
      simp only [List.tail_cons] at ih1 ⊢
      simp [ih1]

theorem nil_mem_split (c : Char) (s : List Char) :
    [] ∈ split (c :: s) ↔ isSep c = true ∨ EndsSep (c :: s) := by
  unfold split
  by_cases hc : isSep c = true
  · rw [(splitFrom_sep hc s).1]
    simp [hc]
  · have htail := (nil_mem_splitFrom (c :: s)).1
    rw [Bool.not_eq_true] at hc
    obtain ⟨h, t, -, ht⟩ := splitFrom_char c s hc false
    rw [ht] at htail ⊢
    rw [← htail, hc]
    simp

/-- With an empty token there is another one. -/
theorem two_le_length_split {c : Char} {s : List Char} (h : [] ∈ split (c :: s)) :
    2 ≤ (split (c :: s)).length := by
  unfold split at h ⊢
  by_cases hc : isSep c = true
  · have hpos := List.length_pos_iff.mpr (splitFrom_ne_nil true s)
    rw [(splitFrom_sep hc s).1, List.length_cons]
    omega
  · rw [Bool.not_eq_true] at hc
    obtain ⟨x, t, -, ht⟩ := splitFrom_char c s hc false
    rw [ht] at h ⊢
    have hmem : [] ∈ t := by simpa using h
    have hpos := List.length_pos_of_mem hmem
    rw [List.length_cons]
    omega

/-- The tokens are the runs, and empty ones. -/
theorem filter_splitFrom (s : List Char) :
    (∃ h t t', splitFrom false s = h :: t ∧ s.splitOnP isSep = h :: t' ∧
      (t.filter fun x => !x.isEmpty) = t'.filter fun x => !x.isEmpty) ∧
    ((splitFrom true s).filter fun x => !x.isEmpty) = runs s := by
  unfold runs
  induction s with
  | nil => exact ⟨⟨[], [], [], rfl, rfl, rfl⟩, rfl⟩
  | cons c s ih =>
    obtain ⟨⟨h, t, t', h1, h2, h3⟩, ih2⟩ := ih
    rw [List.splitOnP_cons_eq_if_modifyHead]
    by_cases hc : isSep c = true
    · rw [(splitFrom_sep hc s).1, (splitFrom_sep hc s).2, if_pos hc]
      exact ⟨⟨[], _, _, rfl, rfl, ih2⟩, ih2⟩
    · rw [if_neg hc, h2]
      rw [Bool.not_eq_true] at hc
      obtain ⟨x, u, hx, hx1⟩ := splitFrom_char c s hc false
      obtain ⟨y, w, hy, hy1⟩ := splitFrom_char c s hc true
      rw [h1] at hx hy
      obtain ⟨rfl, rfl⟩ := List.cons.inj hx
      obtain ⟨rfl, rfl⟩ := List.cons.inj hy
      refine ⟨⟨c :: h, t, t', hx1, rfl, h3⟩, ?_⟩
      rw [hy1, List.modifyHead_cons, List.filter_cons, List.filter_cons, h3]

theorem runs_eq (s : List Char) : runs s = (split s).filter fun t => !t.isEmpty := by
  obtain ⟨⟨h, t, t', h1, h2, h3⟩, -⟩ := filter_splitFrom s
  unfold runs split
  rw [h1, h2, List.filter_cons, List.filter_cons, h3]

/-- An empty item costs at least its comma. -/
theorem sum_filter_lt (f : List Char → ℕ) {l : List (List Char)} (h : [] ∈ l) :
    ((l.filter fun t => !t.isEmpty).map fun t => f t + 1).sum < (l.map fun t => f t + 1).sum := by
  have hle : ∀ l : List (List Char),
      ((l.filter fun t => !t.isEmpty).map fun t => f t + 1).sum ≤ (l.map fun t => f t + 1).sum := by
    intro l
    exact (List.filter_sublist.map _).sum_le_sum (by simp)
  obtain ⟨a, b, rfl⟩ := List.append_of_mem h
  have ha := hle a
  have hb := hle b
  rw [List.filter_append, List.filter_cons_of_neg (by simp)]
  simp only [List.map_append, List.sum_append, List.map_cons, List.sum_cons]
  omega

/-- The joined text is longer for the empty items. -/
theorem length_join_filter (isText : Bool) {l : List (List Char)} (h : [] ∈ l) (h2 : 2 ≤ l.length) :
    (join ((l.filter fun t => !t.isEmpty).map (item isText))).length <
      (join (l.map (item isText))).length := by
  have hl : l.map (item isText) ≠ [] := by simpa using List.ne_nil_of_mem h
  have hlen := length_join hl
  rw [List.map_map] at hlen
  have hlt := sum_filter_lt (fun t => (item isText t).length) h
  by_cases hnil : (l.filter fun t => !t.isEmpty) = []
  · -- only commas are left, and there is at least one
    have hsum : l.length ≤ (l.map ((fun t : List Char => t.length + 1) ∘ item isText)).sum := by
      have := List.length_le_sum_of_one_le (l.map ((fun t : List Char => t.length + 1) ∘ item isText))
        (by simp)
      simpa using this
    rw [hnil]
    simp only [List.map_nil, join, List.intercalate_nil, List.length_nil]
    unfold join at hlen
    omega
  · have hfilter := length_join (l := (l.filter fun t => !t.isEmpty).map (item isText))
      (by simpa using hnil)
    rw [List.map_map] at hfilter
    simp only [Function.comp_def] at hlen hfilter
    omega

/-- `comma_arr_to_sql_in_arr` writes the runs of its text exactly if the text is not empty and
neither begins nor ends with a separator; for an empty text it does so without the quotes. -/
theorem commaArrToSqlInArr_iff (str : List Char) (isText : Bool) :
    commaArrToSqlInArr str isText = runsInList str isText ↔
      str = [] ∧ isText = false ∨
        str ≠ [] ∧ (∀ c, str.head? = some c → isSep c = false) ∧
          ∀ c, str.getLast? = some c → isSep c = false := by
  unfold commaArrToSqlInArr runsInList
  rcases str with - | ⟨c, s⟩
  · rcases isText with - | -
    · exact iff_of_true rfl (Or.inl ⟨rfl, rfl⟩)
    · exact iff_of_false (by decide) (by simp)
  · have hends : ([] ∉ split (c :: s)) ↔ (∀ d, (c :: s).head? = some d → isSep d = false) ∧
        ∀ d, (c :: s).getLast? = some d → isSep d = false := by
      rw [nil_mem_split, EndsSep]
      simp
    rw [runs_eq]
    by_cases hnil : [] ∈ split (c :: s)
    · refine iff_of_false ?_ ?_
      · intro h
        have hlt := length_join_filter isText hnil (two_le_length_split hnil)
        have hlen := congrArg List.length h
        simp only [List.length_append, List.length_cons, Nat.add_right_cancel_iff] at hlen
        omega
      · rintro (⟨h, -⟩ | ⟨-, h⟩)
        · cases h
        · exact hends.mpr h hnil
    · refine iff_of_true ?_ (Or.inr ⟨by simp, hends.mp hnil⟩)
      have hself : ((split (c :: s)).filter fun t => !t.isEmpty) = split (c :: s) := by
        rw [List.filter_eq_self]
        intro t ht
        rcases t with - | ⟨d, t⟩
        · exact absurd ht hnil
        · rfl
      rw [hself]

/-- A comma before the first number. -/
theorem commaArrToSqlInArr_comma :
    ¬∀ str isText, commaArrToSqlInArr str isText = runsInList str isText := by
  intro h
  exact absurd (h [',', '1'] false) (by decide)

end Jkit.Db.InList
