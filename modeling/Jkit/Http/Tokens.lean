import Jkit.Http.Message
import Mathlib.Tactic.SplitIfs

/-! # Token lists and the fields that hold them

The filters of Beast write the tokens that are left back with `, ` between neighbours. Read again they
are the same tokens (`tokenList_joinTokens`), so a response that was told to keep the connection alive, or
to close it, says so (`keepAlive_setKeepAlive`), and what `content_length` leaves of a `Transfer-Encoding`
is the list of codings without a last `chunked` (`values_contentLength`). -/

namespace Jkit.Http.Tokens

open Jkit.Http.Message

/-! ### Tokens -/

/-- A token: not empty, and of token characters only. -/
def IsToken (t : Str) : Prop := t ≠ [] ∧ ∀ c ∈ t, isTokenChar c = true

theorem isToken_of_mem_tokensFrom : ∀ {s : Str} {p : TokPos} {t : Str},
    (∀ acc, p = .tok acc → IsToken acc) → t ∈ tokensFrom p s → IsToken t
  | [], .sep nc, t, _, h => by simp [tokensFrom] at h
  | [], .tok acc, t, hp, h => by
    simp only [tokensFrom, List.mem_singleton] at h
    rw [h]
    exact hp acc rfl
  | c :: cs, .sep nc, t, hp, h => by
    unfold tokensFrom at h
    split_ifs at h with h1 h2 h3 h4
    · exact isToken_of_mem_tokensFrom (by simp) h
    · simp at h
    · refine isToken_of_mem_tokensFrom ?_ h
      intro acc hacc
      obtain rfl := TokPos.tok.inj hacc
      exact ⟨by simp, by simpa using h2⟩
    · exact isToken_of_mem_tokensFrom (by simp) h
    · simp at h
  | c :: cs, .tok acc, t, hp, h => by
    obtain ⟨hne, hall⟩ := hp acc rfl
    unfold tokensFrom at h
    split_ifs at h with h1 h2 h3
    · refine isToken_of_mem_tokensFrom ?_ h
      intro acc' hacc
      obtain rfl := TokPos.tok.inj hacc
      refine ⟨by simp, ?_⟩
      intro x hx
      rcases List.mem_append.mp hx with hx | hx
      · exact hall x hx
      · rw [List.mem_singleton.mp hx]
        exact h1
    · rcases List.mem_cons.mp h with rfl | h
      · exact ⟨hne, hall⟩
      · exact isToken_of_mem_tokensFrom (by simp) h
    · rcases List.mem_cons.mp h with rfl | h
      · exact ⟨hne, hall⟩
      · exact isToken_of_mem_tokensFrom (by simp) h
    · rcases List.mem_cons.mp h with rfl | h
      · exact ⟨hne, hall⟩
      · simp at h

theorem isToken_of_mem {value t : Str} (h : t ∈ tokenList value) : IsToken t :=
  isToken_of_mem_tokensFrom (by simp) h

/-- The iterator runs through the characters of a token. -/
theorem tokensFrom_tok {t : Str} (ht : ∀ c ∈ t, isTokenChar c = true) (acc rest : Str) :
    tokensFrom (.tok acc) (t ++ rest) = tokensFrom (.tok (acc ++ t)) rest := by
  induction t generalizing acc with
  | nil => simp
  | cons c t ih =>
    have hc := ht c (by simp)
    rw [List.cons_append, tokensFrom, if_pos hc, ih (fun x hx => ht x (by simp [hx]))]
    simp

theorem joinTokens_cons_cons (t u : Str) (l : List Str) :
    joinTokens (t :: u :: l) = t ++ str ", " ++ joinTokens (u :: l) := by
  simp [joinTokens, List.intercalate, List.intersperse]

theorem joinTokens_singleton (t : Str) : joinTokens [t] = t := by
  simp [joinTokens, List.intercalate, List.intersperse]

theorem isOws_of_isTokenChar {c : UInt8} (h : isTokenChar c = true) : isOws c = false := by
  unfold isOws
  have h32 : c ≠ 32 := by rintro rfl; exact absurd h (by decide)
  have h9 : c ≠ 9 := by rintro rfl; exact absurd h (by decide)
  simp [h32, h9]

theorem tokensFrom_sep {t : Str} (ht : IsToken t) (rest : Str) :
    tokensFrom (.sep false) (t ++ rest) = tokensFrom (.tok t) rest := by
  obtain ⟨hne, hall⟩ := ht
  obtain ⟨c, t, rfl⟩ := List.exists_cons_of_ne_nil hne
  have hc := hall c (by simp)
  rw [List.cons_append, tokensFrom, if_neg (by simp [isOws_of_isTokenChar hc]), if_pos hc, if_neg (by simp),
    tokensFrom_tok (fun x hx => hall x (by simp [hx]))]
  rfl

/-- Behind a token a comma and a blank lead to the next one. -/
theorem tokensFrom_comma (t rest : Str) :
    tokensFrom (.tok t) (str ", " ++ rest) = t :: tokensFrom (.sep false) rest := by
  have hs : str ", " = [44, 32] := by decide
  have h44 : isTokenChar 44 = false := by decide
  have h44' : isOws 44 = false := by decide
  have h32 : isOws 32 = true := by decide
  rw [hs, List.cons_append, tokensFrom, if_neg (by simp [h44]), if_neg (by simp [h44']), if_pos rfl,
    List.cons_append, tokensFrom, if_pos h32]
  rfl

/-- Tokens that are written with commas are read again. -/
theorem tokenList_joinTokens : ∀ {l : List Str}, (∀ t ∈ l, IsToken t) → tokenList (joinTokens l) = l
  | [], _ => rfl
  | [t], h => by
    have hr := tokensFrom_sep (h t (by simp)) []
    rw [List.append_nil] at hr
    rw [joinTokens_singleton, tokenList, hr]
    rfl
  | t :: u :: l, h => by
    have ih := tokenList_joinTokens (l := u :: l) fun x hx => h x (by simp [hx])
    rw [joinTokens_cons_cons, tokenList, List.append_assoc, tokensFrom_sep (h t (by simp)), tokensFrom_comma]
    rw [tokenList] at ih
    rw [ih]

/-! ### Blanks at the ends -/

theorem dropWhile_isOws {s : Str} (h : ∀ c, s.head? = some c → isTokenChar c = true) :
    s.dropWhile isOws = s := by
  cases s with
  | nil => rfl
  | cons c s => simp [isOws_of_isTokenChar (h c rfl)]

theorem trim_of_ends {s : Str} (h1 : ∀ c, s.head? = some c → isTokenChar c = true)
    (h2 : ∀ c, s.getLast? = some c → isTokenChar c = true) : trim s = s := by
  unfold trim
  rw [dropWhile_isOws h1, dropWhile_isOws (by simpa using h2), List.reverse_reverse]

theorem head_joinTokens : ∀ {l : List Str}, (∀ t ∈ l, IsToken t) →
    ∀ c, (joinTokens l).head? = some c → isTokenChar c = true
  | [], _, c, hc => by simp [joinTokens] at hc
  | [t], h, c, hc => by
    rw [joinTokens_singleton] at hc
    exact (h t (by simp)).2 c (List.mem_of_mem_head? hc)
  | t :: u :: l, h, c, hc => by
    obtain ⟨hne, hall⟩ := h t (by simp)
    rw [joinTokens_cons_cons, List.append_assoc, List.head?_append_of_ne_nil _ hne] at hc
    exact hall c (List.mem_of_mem_head? hc)

theorem joinTokens_ne_nil {t : Str} {l : List Str} (h : IsToken t) : joinTokens (t :: l) ≠ [] := by
  cases l with
  | nil => rw [joinTokens_singleton]; exact h.1
  | cons u l => rw [joinTokens_cons_cons]; simp [h.1]

theorem getLast_joinTokens : ∀ {l : List Str}, (∀ t ∈ l, IsToken t) →
    ∀ c, (joinTokens l).getLast? = some c → isTokenChar c = true
  | [], _, c, hc => by simp [joinTokens] at hc
  | [t], h, c, hc => by
    rw [joinTokens_singleton] at hc
    exact (h t (by simp)).2 c (List.mem_of_getLast? hc)
  | t :: u :: l, h, c, hc => by
    have hne : joinTokens (u :: l) ≠ [] := joinTokens_ne_nil (h u (by simp))
    rw [joinTokens_cons_cons, List.getLast?_append_of_ne_nil _ hne] at hc
    exact getLast_joinTokens (fun x hx => h x (by simp [hx])) c hc

theorem trim_joinTokens {l : List Str} (h : ∀ t ∈ l, IsToken t) : trim (joinTokens l) = joinTokens l :=
  trim_of_ends (head_joinTokens h) (getLast_joinTokens h)

theorem joinTokens_eq_nil {l : List Str} (h : ∀ t ∈ l, IsToken t) : joinTokens l = [] ↔ l = [] := by
  cases l with
  | nil => simp [joinTokens]
  | cons t l => simp [joinTokens_ne_nil (h t (by simp))]

theorem joinTokens_snoc : ∀ {l : List Str}, l ≠ [] → ∀ t, joinTokens (l ++ [t]) =
    joinTokens l ++ str ", " ++ t
  | [u], _, t => by
    rw [List.singleton_append, joinTokens_cons_cons, joinTokens_singleton, joinTokens_singleton]
  | u :: w :: l, _, t => by
    have ih := joinTokens_snoc (l := w :: l) (by simp) t
    rw [List.cons_append] at ih
    rw [List.cons_append, List.cons_append, joinTokens_cons_cons, ih, joinTokens_cons_cons]
    simp

/-! ### Values of a field -/

/-- The values of all fields of a name. -/
def values (f : Fields) (name : Str) : List Str := (f.filter fun e => iequals e.1 name).map Prod.snd

theorem iequals_iff {a b : Str} : iequals a b = true ↔ a.map tolower = b.map tolower := by
  simp [iequals]

theorem iequals_self (a : Str) : iequals a a = true := iequals_iff.mpr rfl

/-- A name is equal to at most one of two different names. -/
theorem iequals_ne {a b c : Str} (h : iequals a b = true) (hbc : iequals b c = false) :
    iequals a c = false := by
  rw [Bool.eq_false_iff] at hbc ⊢
  intro hac
  rw [Ne, iequals_iff] at hbc
  exact hbc ((iequals_iff.mp h).symm.trans (iequals_iff.mp hac))

theorem find_eq_head (f : Fields) (name : Str) : f.find name = (values f name).head? := by
  unfold Fields.find values
  rw [List.head?_map, List.head?_filter]

theorem values_append (f g : Fields) (name : Str) : values (f ++ g) name = values f name ++ values g name := by
  simp [values]

theorem values_erase_self (f : Fields) (name : Str) : values (f.erase name) name = [] := by
  simp only [values, Fields.erase, List.filter_filter, List.map_eq_nil_iff, List.filter_eq_nil_iff]
  intro e _
  simp

theorem values_erase_ne (f : Fields) {name other : Str} (h : iequals name other = false) :
    values (f.erase other) name = values f name := by
  unfold values Fields.erase
  rw [List.filter_filter]
  congr 1
  apply List.filter_congr
  intro e _
  cases he : iequals e.1 name with
  | false => simp
  | true => simp [iequals_ne he h]

theorem values_set_self (f : Fields) (name value : Str) : values (f.set name value) name = [trim value] := by
  rw [Fields.set, values_append, values_erase_self]
  simp [values, iequals_self]

theorem values_set_ne (f : Fields) {name other : Str} (value : Str) (h : iequals name other = false) :
    values (f.set other value) name = values f name := by
  have h' : iequals other name = false := by
    rw [Bool.eq_false_iff] at h ⊢
    intro ho
    exact h (iequals_iff.mpr (iequals_iff.mp ho).symm)
  rw [Fields.set, values_append, values_erase_ne f h]
  simp [values, h']

theorem values_setKeepAlive_ne (f : Fields) {name : Str} (version : ℕ) (b : Bool)
    (h : iequals name (str "Connection") = false) : values (f.setKeepAlive version b) name = values f name := by
  unfold Fields.setKeepAlive
  dsimp only
  split_ifs
  · exact values_erase_ne f h
  · exact values_set_ne f _ h

/-! ### `keep_alive` -/

theorem any_filter_eq_false {l drop : List Str} {x : Str} (h : x ∈ drop) :
    (l.filter fun t => !drop.any (iequals t)).any (iequals x) = false := by
  rw [List.any_eq_false]
  intro t ht hx
  have hd := (List.mem_filter.mp ht).2
  simp only [Bool.not_eq_true', List.any_eq_false] at hd
  exact hd x h (iequals_iff.mpr (iequals_iff.mp hx).symm)

theorem isToken_filter {value : Str} {p : Str → Bool} : ∀ t ∈ (tokenList value).filter p, IsToken t :=
  fun _ ht => isToken_of_mem (List.mem_of_mem_filter ht)

/-- A token is put in place of another one, or kept where it is there. -/
theorem kept_eq (value drop : Str) {add : Str} (hadd : IsToken add) (hne : iequals add drop = false) :
    ∃ l, (∀ t ∈ l, IsToken t) ∧ l.any (iequals add) = true ∧
      (if filterTokenList value [drop] = [] then add
        else if tokenExists value add then filterTokenList value [drop]
        else filterTokenList value [drop] ++ str ", " ++ add) = joinTokens l := by
  unfold filterTokenList
  generalize hL : (tokenList value).filter (fun t => !([drop] : List Str).any (iequals t)) = L
  have htok : ∀ t ∈ L, IsToken t := hL ▸ isToken_filter
  split_ifs with h1 h2
  · refine ⟨[add], by simpa using hadd, by simp [iequals_self], (joinTokens_singleton add).symm⟩
  · refine ⟨L, htok, ?_, rfl⟩
    obtain ⟨t, ht, hx⟩ := List.any_eq_true.mp h2
    have hdrop : iequals t drop = false := iequals_ne (iequals_iff.mpr (iequals_iff.mp hx).symm) hne
    rw [List.any_eq_true]
    exact ⟨t, hL ▸ List.mem_filter.mpr ⟨ht, by simp [hdrop]⟩, hx⟩
  · have hLne : L ≠ [] := fun h0 => h1 ((joinTokens_eq_nil htok).mpr h0)
    refine ⟨L ++ [add], ?_, by simp [iequals_self], (joinTokens_snoc hLne add).symm⟩
    intro t ht
    rcases List.mem_append.mp ht with ht | ht
    · exact htok t ht
    · rw [List.mem_singleton.mp ht]
      exact hadd

/-- What `keep_alive` writes is a list of tokens that says what it was told. -/
theorem keepAliveValue_eq (value : Str) (version : ℕ) (b : Bool) : ∃ l, (∀ t ∈ l, IsToken t) ∧
    keepAliveValue value version b = joinTokens l ∧
      (if version < 11 then l.any (iequals (str "keep-alive")) = b
        else l.any (iequals (str "close")) = !b) := by
  have hka : IsToken (str "keep-alive") := ⟨by decide, List.all_eq_true.mp (by decide)⟩
  have hcl : IsToken (str "close") := ⟨by decide, List.all_eq_true.mp (by decide)⟩
  unfold keepAliveValue
  dsimp only
  by_cases hv : version < 11
  · cases b with
    | true =>
      obtain ⟨l, htok, hany, heq⟩ := kept_eq value (str "close") hka (by decide)
      exact ⟨l, htok, by simpa [hv] using heq, by simpa [hv] using hany⟩
    | false =>
      refine ⟨_, isToken_filter, by simp only [hv]; rfl, ?_⟩
      rw [if_pos hv]
      exact any_filter_eq_false (by simp)
  · cases b with
    | true =>
      refine ⟨_, isToken_filter, by simp only [hv]; rfl, ?_⟩
      rw [if_neg hv]
      exact any_filter_eq_false (by simp)
    | false =>
      obtain ⟨l, htok, hany, heq⟩ := kept_eq value (str "keep-alive") hcl (by decide)
      exact ⟨l, htok, by simpa [hv] using heq, by simpa [hv] using hany⟩

/-- **`keep_alive()` returns what `keep_alive(b)` was told.** -/
theorem keepAlive_setKeepAlive (f : Fields) (version : ℕ) (b : Bool) :
    (f.setKeepAlive version b).keepAlive version = b := by
  obtain ⟨l, htok, hv, hspells⟩ := keepAliveValue_eq (f.get (str "Connection")) version b
  unfold Fields.setKeepAlive Fields.keepAlive
  dsimp only
  rw [hv, find_eq_head]
  by_cases hl : joinTokens l = []
  · obtain rfl := (joinTokens_eq_nil htok).mp hl
    rw [if_pos hl, values_erase_self]
    by_cases h11 : version < 11
    · simpa [h11] using hspells
    · simpa [h11] using hspells
  · rw [if_neg hl, values_set_self, trim_joinTokens htok]
    simp only [List.head?_cons, tokenExists, tokenList_joinTokens htok]
    by_cases h11 : version < 11
    · simpa [h11] using hspells
    · rw [if_neg h11] at hspells ⊢
      rw [hspells, Bool.not_not]

/-! ### `content_length` -/

/-- The codings that `chunked(false)` leaves. -/
def codingsLeft (f : Fields) : List Str :=
  let l := tokenList (f.get (str "Transfer-Encoding"))
  l.dropLast ++ l.getLast?.toList.filter fun t => !([str "chunked"] : List Str).any (iequals t)

theorem isToken_codingsLeft (f : Fields) : ∀ t ∈ codingsLeft f, IsToken t := by
  intro t ht
  suffices hmem : t ∈ tokenList (f.get (str "Transfer-Encoding")) from isToken_of_mem hmem
  rcases List.mem_append.mp ht with ht | ht
  · exact (List.dropLast_sublist _).subset ht
  · have hmem := List.mem_of_mem_filter ht
    exact List.mem_of_getLast? (Option.mem_toList.mp hmem)

theorem erase_of_values {f : Fields} {name : Str} (h : values f name = []) : f.erase name = f := by
  unfold values at h
  rw [List.map_eq_nil_iff, List.filter_eq_nil_iff] at h
  unfold Fields.erase
  rw [List.filter_eq_self]
  intro e he
  simpa using h e he

/-- `set_chunked_impl(false)` replaces the fields by one with the codings that are left. -/
theorem unsetChunked_eq (f : Fields) : f.unsetChunked = f.erase (str "Transfer-Encoding") ++
    if codingsLeft f = [] then [] else [(str "Transfer-Encoding", joinTokens (codingsLeft f))] := by
  have htok := isToken_codingsLeft f
  unfold Fields.unsetChunked
  split
  · next hnone =>
    have hl : codingsLeft f = [] := by simp [codingsLeft, Fields.get, hnone, tokenList, tokensFrom]
    rw [find_eq_head, List.head?_eq_none_iff] at hnone
    rw [if_pos hl, List.append_nil, erase_of_values hnone]
  · next v hv =>
    have hleft : filterTokenListLast v [str "chunked"] = joinTokens (codingsLeft f) := by
      simp [filterTokenListLast, codingsLeft, Fields.get, hv]
    dsimp only
    rw [hleft]
    by_cases hl : codingsLeft f = []
    · rw [if_pos hl, if_pos ((joinTokens_eq_nil htok).mpr hl), List.append_nil]
    · rw [if_neg hl, if_neg (fun h0 => hl ((joinTokens_eq_nil htok).mp h0)), Fields.set,
        trim_joinTokens htok]

theorem values_unsetChunked (f : Fields) : values f.unsetChunked (str "Transfer-Encoding") =
    if codingsLeft f = [] then [] else [joinTokens (codingsLeft f)] := by
  rw [unsetChunked_eq, values_append, values_erase_self, List.nil_append]
  split_ifs
  · rfl
  · simp [values, iequals_self]

theorem codingsLeft_congr {f g : Fields}
    (h : values f (str "Transfer-Encoding") = values g (str "Transfer-Encoding")) :
    codingsLeft f = codingsLeft g := by
  unfold codingsLeft Fields.get
  rw [find_eq_head, find_eq_head, h]

/-- **What `content_length` leaves of `Transfer-Encoding`**: one field with the codings but for a last
`chunked`, or none. -/
theorem values_contentLength (f : Fields) (n : ℕ) :
    values (f.contentLength n) (str "Transfer-Encoding") =
      if codingsLeft f = [] then [] else [joinTokens (codingsLeft f)] := by
  have hne : iequals (str "Transfer-Encoding") (str "Content-Length") = false := by decide
  rw [Fields.contentLength, values_unsetChunked, codingsLeft_congr (values_set_ne f _ hne)]

end Jkit.Http.Tokens
