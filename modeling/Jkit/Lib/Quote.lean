import Mathlib.Data.List.Basic

/-! # Quoted text with doubled quotes

A quoted text ends at the first quote `q` that is not doubled, and a doubled quote stands for one.
`read` takes the text after the opening quote. `read_snoc` says when a body followed by the closing
quote is read completely: its quotes come in adjacent pairs (`paired`), and what is read is the body
with every pair replaced by one quote (`collapse`). Both are computed piece by piece where the pieces
of a text are separated by other characters. -/

namespace Jkit.Lib.Quote

variable {α : Type*} [DecidableEq α] (q : α)

/-- The text read up to the closing quote, and what follows it. -/
def read : List α → Option (List α × List α)
  | [] => none
  | [c] => if c = q then some ([], []) else none
  | c :: d :: r =>
    if c = q then
      if d = q then (read r).map fun x => (q :: x.1, x.2) else some ([], d :: r)
    else (read (d :: r)).map fun x => (c :: x.1, x.2)

/-- The quotes come in adjacent pairs. -/
def paired : List α → Bool
  | [] => true
  | [c] => c ≠ q
  | c :: d :: r => if c = q then d = q && paired r else paired (d :: r)

/-- Every pair of quotes replaced by one. -/
def collapse : List α → List α
  | [] => []
  | [c] => [c]
  | c :: d :: r => if c = q then q :: collapse r else c :: collapse (d :: r)

variable {q}

/-! ### Reading -/

theorem read_of_paired {s : List α} (h : paired q s = true) :
    read q (s ++ [q]) = some (collapse q s, []) := by
  induction s using paired.induct q with
  | case1 => simp [read, collapse]
  | case2 c =>
    have hc : c ≠ q := by simpa [paired] using h
    simp [read, collapse, hc]
  | case3 d r ih =>
    simp only [paired, if_pos, Bool.and_eq_true, decide_eq_true_eq] at h
    obtain ⟨rfl, hr⟩ := h
    simp [read, collapse, ih hr]
  | case4 c d r hc ih =>
    simp only [paired, if_neg hc] at h
    have := ih h
    simp only [List.cons_append] at this ⊢
    simp [read, collapse, hc, this]

theorem paired_of_read {s t : List α} (h : read q (s ++ [q]) = some (t, [])) : paired q s = true := by
  induction s using paired.induct q generalizing t with
  | case1 => rfl
  | case2 c =>
    by_cases hc : c = q
    · simp [read, hc] at h
    · simp [paired, hc]
  | case3 d r ih =>
    by_cases hd : d = q
    · subst hd
      simp only [List.cons_append, read, if_pos, Option.map_eq_some_iff, Prod.mk.injEq] at h
      obtain ⟨⟨t', r'⟩, hr, -, rfl⟩ := h
      simp [paired, ih hr]
    · simp [read, hd] at h
  | case4 c d r hc ih =>
    simp only [List.cons_append, read, if_neg hc, Option.map_eq_some_iff, Prod.mk.injEq] at h
    obtain ⟨⟨t', r'⟩, hr, -, rfl⟩ := h
    simp only [paired, if_neg hc]
    exact ih hr

/-- **When a quoted body is read completely**, and as what. -/
theorem read_snoc {s t : List α} :
    read q (s ++ [q]) = some (t, []) ↔ paired q s = true ∧ collapse q s = t := by
  constructor
  · intro h
    have hp := paired_of_read h
    rw [read_of_paired hp] at h
    simp only [Option.some.injEq, Prod.mk.injEq, and_true] at h
    exact ⟨hp, h⟩
  · rintro ⟨hp, rfl⟩
    exact read_of_paired hp

/-- What follows a quoted text does not change it, unless it goes on with a quote. -/
theorem read_append {s t u r : List α} (h : read q s = some (t, u)) (hr : r.head? ≠ some q) :
    read q (s ++ r) = some (t, u ++ r) := by
  induction s using paired.induct q generalizing t with
  | case1 => exact absurd h (by simp [read])
  | case2 c =>
    by_cases hc : c = q
    · simp only [read, if_pos hc, Option.some.injEq, Prod.mk.injEq] at h
      obtain ⟨rfl, rfl⟩ := h
      rcases r with - | ⟨d, r⟩
      · simp [read, hc]
      · have hd : d ≠ q := fun hd => hr (by simp [hd])
        simp [read, hc, hd]
    · simp [read, hc] at h
  | case3 d v ih =>
    by_cases hd : d = q
    · subst hd
      simp only [read, if_pos, Option.map_eq_some_iff, Prod.mk.injEq] at h
      obtain ⟨⟨t', u'⟩, hv, rfl, rfl⟩ := h
      simp [read, ih hv]
    · simp only [read, if_pos, if_neg hd, Option.some.injEq, Prod.mk.injEq] at h
      obtain ⟨rfl, rfl⟩ := h
      simp [read, hd]
  | case4 c d v hc ih =>
    simp only [read, if_neg hc, Option.map_eq_some_iff, Prod.mk.injEq] at h
    obtain ⟨⟨t', u'⟩, hv, rfl, rfl⟩ := h
    have hrest := ih hv
    simp only [List.cons_append] at hrest ⊢
    simp [read, hc, hrest]

/-! ### Bodies that stand for themselves -/

theorem paired_of_notMem {s : List α} (h : q ∉ s) : paired q s = true := by
  induction s using paired.induct q with
  | case1 => rfl
  | case2 c =>
    have hc : c ≠ q := fun hc => h (by simp [hc])
    simp [paired, hc]
  | case3 d r ih => simp at h
  | case4 c d r hc ih =>
    simp only [paired, if_neg hc]
    exact ih (List.not_mem_of_not_mem_cons h)

theorem collapse_of_notMem {s : List α} (h : q ∉ s) : collapse q s = s := by
  induction s using paired.induct q with
  | case1 => rfl
  | case2 c => rfl
  | case3 d r ih => simp at h
  | case4 c d r hc ih =>
    simp only [collapse, if_neg hc, List.cons.injEq, true_and]
    exact ih (List.not_mem_of_not_mem_cons h)

theorem length_collapse_le (s : List α) : (collapse q s).length ≤ s.length := by
  induction s using paired.induct q with
  | case1 => simp [collapse]
  | case2 c => simp [collapse]
  | case3 d r ih =>
    simp only [collapse, if_pos, List.length_cons]
    omega
  | case4 c d r hc ih =>
    simp only [collapse, if_neg hc, List.length_cons] at ih ⊢
    omega

theorem length_collapse_lt {s : List α} (hp : paired q s = true) (h : q ∈ s) :
    (collapse q s).length < s.length := by
  induction s using paired.induct q with
  | case1 => simp at h
  | case2 c => simp_all [paired]
  | case3 d r ih =>
    have := length_collapse_le (q := q) r
    simp only [collapse, if_pos, List.length_cons]
    omega
  | case4 c d r hc ih =>
    simp only [paired, if_neg hc] at hp
    have hmem : q ∈ d :: r := (List.mem_cons.mp h).resolve_left (Ne.symm hc)
    have := ih hp hmem
    simp only [collapse, if_neg hc, List.length_cons] at this ⊢
    omega

theorem collapse_subset (s : List α) : collapse q s ⊆ s := by
  induction s using paired.induct q with
  | case1 => simp [collapse]
  | case2 c => simp [collapse]
  | case3 d r ih =>
    simp only [collapse, if_pos]
    exact List.cons_subset_cons q (List.subset_cons_of_subset d ih)
  | case4 c d r hc ih =>
    simp only [collapse, if_neg hc]
    exact List.cons_subset_cons c ih

/-- **When a quoted body is read as itself.** -/
theorem read_snoc_self {s : List α} : read q (s ++ [q]) = some (s, []) ↔ q ∉ s := by
  rw [read_snoc]
  constructor
  · rintro ⟨hp, hc⟩ hmem
    have := length_collapse_lt hp hmem
    rw [hc] at this
    omega
  · intro h
    exact ⟨paired_of_notMem h, collapse_of_notMem h⟩

/-- Only a text that begins with a quote is read as nothing, or as something that begins with one. -/
theorem head_of_read {s t u : List α} (h : read q s = some (t, u)) (ht : ∀ c ∈ t.head?, c = q) :
    s.head? = some q := by
  rcases s with - | ⟨c, - | ⟨d, r⟩⟩
  · simp [read] at h
  · by_cases hc : c = q
    · simp [hc]
    · simp [read, hc] at h
  · by_cases hc : c = q
    · simp [hc]
    · simp only [read, if_neg hc, Option.map_eq_some_iff, Prod.mk.injEq] at h
      obtain ⟨x, -, rfl, -⟩ := h
      exact absurd (ht c rfl) hc

theorem read_close {r : List α} (hr : r.head? ≠ some q) : read q (q :: r) = some ([], r) := by
  rcases r with - | ⟨d, r⟩
  · simp [read]
  · have hd : d ≠ q := fun hd => hr (by simp [hd])
    simp [read, hd]

/-- A body is not read with more quotes in front than it has. -/
theorem read_ne_replicate {s r u : List α} (hr : r.head? ≠ some q) (n : ℕ) :
    read q (s ++ q :: r) ≠ some (List.replicate (n + 1) q ++ s, u) := by
  induction s using paired.induct q generalizing n with
  | case1 =>
    rw [List.nil_append, read_close hr]
    simp [List.replicate_succ]
  | case2 c =>
    rw [List.replicate_succ]
    intro h
    by_cases hc : c = q
    · subst hc
      simp only [List.cons_append, List.nil_append, read, if_pos, Option.map_eq_some_iff,
        Prod.mk.injEq, List.cons.injEq, true_and] at h
      obtain ⟨x, hx, hx1, -⟩ := h
      refine hr (head_of_read (t := x.1) (u := x.2) hx ?_)
      intro d hd
      rw [hx1] at hd
      have hmem := List.mem_of_mem_head? hd
      simp only [List.mem_append, List.mem_replicate, List.mem_singleton] at hmem
      rcases hmem with ⟨-, rfl⟩ | rfl
      · rfl
      · rfl
    · simp only [List.cons_append, List.nil_append, read, if_neg hc, Option.map_eq_some_iff,
        Prod.mk.injEq, List.cons.injEq] at h
      obtain ⟨x, -, ⟨hcq, -⟩, -⟩ := h
      exact hc hcq
  | case3 d v ih =>
    intro h
    by_cases hd : d = q
    · subst hd
      simp only [List.cons_append, read, if_pos, List.replicate_succ, Option.map_eq_some_iff,
        Prod.mk.injEq, List.cons.injEq, true_and] at h
      obtain ⟨⟨t, u'⟩, hx, rfl, rfl⟩ := h
      refine ih (n + 1) (hx.trans ?_)
      simp [List.replicate_succ', List.append_assoc]
    · simp [read, hd, List.replicate_succ] at h
  | case4 c d v hc ih =>
    intro h
    simp only [List.cons_append, read, if_neg hc, List.replicate_succ, Option.map_eq_some_iff,
      Prod.mk.injEq, List.cons.injEq] at h
    obtain ⟨x, -, ⟨hcq, -⟩, -⟩ := h
    exact hc hcq

/-- **A body that is read as it is has no quotes**, whatever follows the closing one. -/
theorem notMem_of_read_self {s r u : List α} (hr : r.head? ≠ some q)
    (h : read q (s ++ q :: r) = some (s, u)) : q ∉ s := by
  induction s with
  | nil => simp
  | cons c s ih =>
    by_cases hc : c = q
    · subst hc
      rcases s with - | ⟨d, s⟩
      · simp only [List.cons_append, List.nil_append, read, if_pos, Option.map_eq_some_iff,
          Prod.mk.injEq, List.cons.injEq, true_and] at h
        obtain ⟨x, hx, hx1, -⟩ := h
        exact absurd (head_of_read (t := x.1) (u := x.2) hx (by simp [hx1])) hr
      · by_cases hd : d = c
        · subst hd
          simp only [List.cons_append, read, if_pos, Option.map_eq_some_iff, Prod.mk.injEq,
            List.cons.injEq, true_and] at h
          obtain ⟨⟨t, u'⟩, hx, rfl, rfl⟩ := h
          exact absurd hx (read_ne_replicate hr 0)
        · simp [read, hd] at h
    · obtain ⟨d, v, hv⟩ : ∃ d v, s ++ q :: r = d :: v :=
        List.exists_cons_of_ne_nil (by simp)
      rw [List.cons_append, hv, read, if_neg hc, ← hv] at h
      obtain ⟨⟨t, u'⟩, hx, he⟩ := Option.map_eq_some_iff.mp h
      simp only [Prod.mk.injEq, List.cons.injEq, true_and] at he
      obtain ⟨rfl, rfl⟩ := he
      have hs := ih hx
      simp [Ne.symm hc, hs]

/-! ### Pairs in composed texts -/

theorem paired_cons {c : α} (hc : c ≠ q) (s : List α) : paired q (c :: s) = paired q s := by
  cases s with
  | nil => simp [paired, hc]
  | cons d r => simp [paired, hc]

theorem paired_append_of_notMem {s : List α} (hs : q ∉ s) (t : List α) :
    paired q (s ++ t) = paired q t := by
  induction s with
  | nil => rfl
  | cons c s ih =>
    obtain ⟨hc, hs⟩ := List.ne_and_not_mem_of_not_mem_cons hs
    rw [List.cons_append, paired_cons hc.symm, ih hs]

/-- A character other than the quote separates the pairs before it from those after it. -/
theorem paired_append_cons {c : α} (hc : c ≠ q) (s t : List α) :
    paired q (s ++ c :: t) = (paired q s && paired q t) := by
  induction s using paired.induct q with
  | case1 => simp [paired_cons hc, paired]
  | case2 d =>
    by_cases hd : d = q
    · simp [paired, hd, hc]
    · simp [paired_cons, hc, hd, paired]
  | case3 d r ih =>
    simp only [List.cons_append, paired, if_pos, ih, Bool.and_assoc]
  | case4 d e r hd ih =>
    simp only [List.cons_append, paired, if_neg hd] at ih ⊢
    exact ih

/-- An encoding that leaves the quote alone, and writes no quote for another character, keeps the
pairs. -/
theorem paired_flatMap {f : α → List α} (hq : f q = [q]) (hf : ∀ c ≠ q, f c ≠ [] ∧ q ∉ f c)
    (s : List α) : paired q (s.flatMap f) = paired q s := by
  induction s using paired.induct q with
  | case1 => rfl
  | case2 c =>
    by_cases hc : c = q
    · simp [hc, hq]
    · simp [paired, hc, paired_of_notMem (hf c hc).2]
  | case3 d r ih =>
    by_cases hd : d = q
    · subst hd
      simp [List.flatMap_cons, hq, paired, ih]
    · obtain ⟨hne, hnq⟩ := hf d hd
      obtain ⟨e, l, hl⟩ := List.exists_cons_of_ne_nil hne
      have he : e ≠ q := by
        rintro rfl
        exact hnq (by simp [hl])
      simp [List.flatMap_cons, hq, hl, paired, hd, he]
  | case4 c d r hc ih =>
    rw [List.flatMap_cons, paired_append_of_notMem (hf c hc).2, ih]
    simp only [paired, if_neg hc]

/-! ### Collapsing composed texts -/

theorem collapse_cons {c : α} (hc : c ≠ q) (s : List α) : collapse q (c :: s) = c :: collapse q s := by
  rcases s with - | ⟨d, r⟩
  · rfl
  · simp [collapse, hc]

theorem collapse_append_of_notMem {s : List α} (hs : q ∉ s) (t : List α) :
    collapse q (s ++ t) = s ++ collapse q t := by
  induction s with
  | nil => rfl
  | cons c s ih =>
    obtain ⟨hc, hs⟩ := List.ne_and_not_mem_of_not_mem_cons hs
    rw [List.cons_append, collapse_cons hc.symm, ih hs, List.cons_append]

/-- The pairs before a character other than the quote collapse on their own. -/
theorem collapse_append_cons {c : α} (hc : c ≠ q) {s : List α} (hs : paired q s = true) (t : List α) :
    collapse q (s ++ c :: t) = collapse q s ++ c :: collapse q t := by
  induction s using paired.induct q with
  | case1 => exact collapse_cons hc t
  | case2 d =>
    have hd : d ≠ q := by simpa [paired] using hs
    rw [List.singleton_append, collapse_cons hd, collapse_cons hc]
    rfl
  | case3 d r ih =>
    simp only [paired, if_pos, Bool.and_eq_true, decide_eq_true_eq] at hs
    simp only [List.cons_append, collapse, if_pos, ih hs.2]
  | case4 d e r hd ih =>
    simp only [paired, if_neg hd] at hs
    have hrest := ih hs
    simp only [List.cons_append] at hrest ⊢
    rw [collapse_cons hd, hrest, collapse_cons hd, List.cons_append]

/-- An encoding that leaves the quote alone, and writes no quote for another character, commutes with
the collapsing of pairs. -/
theorem collapse_flatMap {f : α → List α} (hq : f q = [q]) (hf : ∀ c ≠ q, q ∉ f c) {s : List α}
    (hs : paired q s = true) : collapse q (s.flatMap f) = (collapse q s).flatMap f := by
  induction s using paired.induct q with
  | case1 => rfl
  | case2 c =>
    have hc : c ≠ q := by simpa [paired] using hs
    simp only [List.flatMap_cons, List.flatMap_nil, List.append_nil, collapse,
      collapse_of_notMem (hf c hc)]
  | case3 d r ih =>
    simp only [paired, if_pos, Bool.and_eq_true, decide_eq_true_eq] at hs
    obtain ⟨rfl, hr⟩ := hs
    simp only [List.flatMap_cons, hq, List.singleton_append, collapse, if_pos, ih hr]
  | case4 c d r hc ih =>
    simp only [paired, if_neg hc] at hs
    rw [List.flatMap_cons, collapse_append_of_notMem (hf c hc), ih hs, collapse_cons hc,
      List.flatMap_cons]

end Jkit.Lib.Quote
