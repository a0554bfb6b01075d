import Mathlib.Data.List.Basic
import Mathlib.Tactic.SplitIfs

/-! # Ordered maps

A map with the keys in the order of a comparison `lt`, as the list of its entries in that order. Keys
of which neither is less than the other are one key. `find_modify_self` and `find_modify_ne` say what
an update does to the map as a function, `findSome?_eq_some` and `findSome?_eq_none` what a search
through the entries in their order finds. -/

namespace Jkit.Lib.OrdMap

variable {κ ν β : Type}

/-- The comparison orders the keys. -/
structure Less (lt : κ → κ → Bool) : Prop where
  irrefl : ∀ a, lt a a = false
  trans : ∀ {a b c}, lt a b = true → lt b c = true → lt a c = true
  total : ∀ {a b}, lt a b = false → lt b a = false → a = b

variable (lt : κ → κ → Bool)

/-- The value of a key. -/
def find (k : κ) : List (κ × ν) → Option ν
  | [] => none
  | (a, v) :: m => if lt a k || lt k a then find k m else some v

/-- The map with the value of the key replaced by `f` of it, inserted if need be. -/
def modify (k : κ) (f : Option ν → ν) : List (κ × ν) → List (κ × ν)
  | [] => [(k, f none)]
  | (a, v) :: m =>
    if lt k a then (k, f none) :: (a, v) :: m
    else if lt a k then (a, v) :: modify k f m
    else (a, f (some v)) :: m

/-- The keys are in order, each once. -/
def Ordered (m : List (κ × ν)) : Prop := m.Pairwise fun x y => lt x.1 y.1 = true

variable {lt}

section

variable (hlt : Less lt)
include hlt

theorem Less.asymm {a b : κ} (h : lt a b = true) : lt b a = false := by
  rw [Bool.eq_false_iff]
  intro hba
  have := hlt.trans h hba
  rw [hlt.irrefl] at this
  cases this

theorem find_cons_self (k : κ) (v : ν) (m : List (κ × ν)) : find lt k ((k, v) :: m) = some v := by
  simp [find, hlt.irrefl]

theorem find_cons_ne {a k : κ} (h : a ≠ k) (v : ν) (m : List (κ × ν)) :
    find lt k ((a, v) :: m) = find lt k m := by
  have hor : (lt a k || lt k a) = true := by
    by_contra hn
    simp only [Bool.not_eq_true, Bool.or_eq_false_iff] at hn
    exact h (hlt.total hn.1 hn.2)
  rw [find, if_pos hor]

/-- The entries of an ordered map are its values. -/
theorem find_eq_some {m : List (κ × ν)} (hm : Ordered lt m) {k : κ} {v : ν} :
    find lt k m = some v ↔ (k, v) ∈ m := by
  induction m with
  | nil => simp [find]
  | cons e m ih =>
    obtain ⟨a, w⟩ := e
    obtain ⟨hhead, htail⟩ := List.pairwise_cons.mp hm
    by_cases ha : a = k
    · subst ha
      rw [find_cons_self hlt]
      constructor
      · intro h
        rw [Option.some.inj h]
        exact List.mem_cons_self
      · intro h
        rcases List.mem_cons.mp h with h | h
        · rw [(Prod.mk.inj h).2]
        · have := hhead _ h
          rw [hlt.irrefl] at this
          cases this
    · rw [find_cons_ne hlt ha, ih htail, List.mem_cons, or_iff_right]
      rintro h
      exact ha (Prod.mk.inj h).1.symm

omit hlt in
theorem modify_keys {k : κ} {f : Option ν → ν} {m : List (κ × ν)} :
    ∀ e ∈ modify lt k f m, e.1 = k ∨ ∃ e' ∈ m, e.1 = e'.1 := by
  induction m with
  | nil =>
    intro e he
    rw [List.mem_singleton.mp he]
    left; rfl
  | cons x m ih =>
    obtain ⟨a, v⟩ := x
    intro e he
    unfold modify at he
    split_ifs at he with h1 h2
    · rcases List.mem_cons.mp he with rfl | he
      · left; rfl
      · right; exact ⟨e, he, rfl⟩
    · rcases List.mem_cons.mp he with rfl | he
      · right; exact ⟨_, List.mem_cons_self, rfl⟩
      · rcases ih e he with h | ⟨e', he', h⟩
        · left; exact h
        · right; exact ⟨e', List.mem_cons_of_mem _ he', h⟩
    · rcases List.mem_cons.mp he with rfl | he
      · right; exact ⟨_, List.mem_cons_self, rfl⟩
      · right; exact ⟨e, List.mem_cons_of_mem _ he, rfl⟩

/-- A key below the first one is below all of them. -/
theorem lt_of_lt_head {k : κ} {x : κ × ν} {m : List (κ × ν)} (hm : Ordered lt (x :: m))
    (h : lt k x.1 = true) : ∀ e ∈ x :: m, lt k e.1 = true := by
  intro e he
  rcases List.mem_cons.mp he with rfl | he
  · exact h
  · exact hlt.trans h ((List.pairwise_cons.mp hm).1 e he)

theorem ordered_modify {m : List (κ × ν)} (hm : Ordered lt m) (k : κ) (f : Option ν → ν) :
    Ordered lt (modify lt k f m) := by
  induction m with
  | nil => exact List.pairwise_singleton _ _
  | cons x m ih =>
    obtain ⟨a, v⟩ := x
    obtain ⟨hhead, htail⟩ := List.pairwise_cons.mp hm
    unfold modify
    split_ifs with h1 h2
    · exact List.pairwise_cons.mpr ⟨lt_of_lt_head hlt hm h1, hm⟩
    · refine List.pairwise_cons.mpr ⟨?_, ih htail⟩
      intro e he
      rcases modify_keys e he with h | ⟨e', he', h⟩
      · rw [h]; exact h2
      · rw [h]; exact hhead e' he'
    · exact List.pairwise_cons.mpr ⟨hhead, htail⟩

/-- A key below all keys of a map has no value. -/
theorem find_of_lt {m : List (κ × ν)} (hm : Ordered lt m) {k : κ}
    (h : ∀ e ∈ m, lt k e.1 = true) : find lt k m = none := by
  rw [Option.eq_none_iff_forall_ne_some]
  intro v hv
  have := h _ ((find_eq_some hlt hm).mp hv)
  rw [hlt.irrefl] at this
  cases this

theorem find_modify_self {m : List (κ × ν)} (hm : Ordered lt m) (k : κ) (f : Option ν → ν) :
    find lt k (modify lt k f m) = some (f (find lt k m)) := by
  induction m with
  | nil => exact find_cons_self hlt k _ []
  | cons x m ih =>
    obtain ⟨a, v⟩ := x
    obtain ⟨hhead, htail⟩ := List.pairwise_cons.mp hm
    unfold modify
    split_ifs with h1 h2
    · have hnone : find lt k ((a, v) :: m) = none := find_of_lt hlt hm (lt_of_lt_head hlt hm h1)
      rw [find_cons_self hlt, hnone]
    · have hne : a ≠ k := by
        rintro rfl
        rw [hlt.irrefl] at h2
        cases h2
      rw [find_cons_ne hlt hne, find_cons_ne hlt hne, ih htail]
    · have ha : a = k := hlt.total (Bool.eq_false_iff.mpr h2) (Bool.eq_false_iff.mpr h1)
      subst ha
      rw [find_cons_self hlt, find_cons_self hlt]

theorem find_modify_ne {k k' : κ} (hne : k ≠ k') (f : Option ν → ν) (m : List (κ × ν)) :
    find lt k' (modify lt k f m) = find lt k' m := by
  induction m with
  | nil => exact find_cons_ne hlt hne _ []
  | cons x m ih =>
    obtain ⟨a, v⟩ := x
    unfold modify
    split_ifs with h1 h2
    · exact find_cons_ne hlt hne _ _
    · by_cases ha : a = k'
      · subst ha
        rw [find_cons_self hlt, find_cons_self hlt]
      · rw [find_cons_ne hlt ha, find_cons_ne hlt ha, ih]
    · have ha : a = k := hlt.total (Bool.eq_false_iff.mpr h2) (Bool.eq_false_iff.mpr h1)
      subst ha
      rw [find_cons_ne hlt hne, find_cons_ne hlt hne]

/-- A search through the entries finds the entry with the smallest key that has a result. -/
theorem findSome?_eq_some {m : List (κ × ν)} (hm : Ordered lt m) {g : κ → ν → Option β} {b : β} :
    m.findSome? (fun e => g e.1 e.2) = some b ↔ ∃ k v, find lt k m = some v ∧ g k v = some b ∧
      ∀ k' v', find lt k' m = some v' → (g k' v').isSome = true → lt k' k = false := by
  simp only [find_eq_some hlt hm]
  induction m with
  | nil => simp
  | cons x m ih =>
    obtain ⟨a, w⟩ := x
    obtain ⟨hhead, htail⟩ := List.pairwise_cons.mp hm
    rw [List.findSome?_cons]
    dsimp only
    cases hg : g a w with
    | none =>
      -- the first entry is on no side
      dsimp only
      rw [ih htail]
      constructor
      · rintro ⟨k, v, hkv, hb, hmin⟩
        refine ⟨k, v, List.mem_cons_of_mem _ hkv, hb, ?_⟩
        intro k' v' hkv' hs
        rcases List.mem_cons.mp hkv' with he | hkv'
        · obtain ⟨rfl, rfl⟩ := Prod.mk.inj he
          rw [hg] at hs
          cases hs
        · exact hmin k' v' hkv' hs
      · rintro ⟨k, v, hkv, hb, hmin⟩
        rcases List.mem_cons.mp hkv with he | hkv
        · obtain ⟨rfl, rfl⟩ := Prod.mk.inj he
          rw [hg] at hb
          cases hb
        · exact ⟨k, v, hkv, hb, fun k' v' h => hmin k' v' (List.mem_cons_of_mem _ h)⟩
    | some c =>
      dsimp only
      constructor
      · intro hc
        refine ⟨a, w, List.mem_cons_self, hg.trans hc, ?_⟩
        intro k' v' hkv' _
        rcases List.mem_cons.mp hkv' with he | hkv'
        · rw [(Prod.mk.inj he).1, hlt.irrefl]
        · exact hlt.asymm (hhead _ hkv')
      · rintro ⟨k, v, hkv, hb, hmin⟩
        rcases List.mem_cons.mp hkv with he | hkv
        · obtain ⟨rfl, rfl⟩ := Prod.mk.inj he
          rw [← hg, hb]
        · have hfirst := hmin a w List.mem_cons_self (by rw [hg]; rfl)
          rw [hhead _ hkv] at hfirst
          cases hfirst

theorem findSome?_eq_none {m : List (κ × ν)} (hm : Ordered lt m) {g : κ → ν → Option β} :
    m.findSome? (fun e => g e.1 e.2) = none ↔ ∀ k v, find lt k m = some v → g k v = none := by
  simp only [find_eq_some hlt hm, List.findSome?_eq_none_iff, Prod.forall]

end

end Jkit.Lib.OrdMap
