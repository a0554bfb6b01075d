import Jkit.Lib.Scan

/-! # Readers and the texts they read

A reader takes something off the front of a text and returns what is left over. `Exact p F t x P` is about a
text `t` that was written for `x`: in front of whatever may follow it (`F`), the reader `p` gets `x` exactly
if `P` holds, and then it leaves over what follows. So `P` is the precise condition under which the
writing of `x` as `t` is safe. The rules below compute it for readers that are put together: it is the
conjunction over the parts (`Exact.both`, `Exact.behind`, `Exact.sepBy`, `Exact.whole`). -/

namespace Jkit.Lib.Reader

open Jkit.Lib.Scan

variable {σ α β ι : Type*}

/-- What is read off the front of a text, and what is left over. -/
abbrev Read (σ α : Type*) := List σ → Option (α × List σ)

/-! ### Combinators -/

/-- The result under a function. -/
def mapped (f : α → β) (p : Read σ α) : Read σ β := fun s => (p s).map fun x => (f x.1, x.2)

/-- One after the other. -/
def both (p : Read σ α) (q : Read σ β) : Read σ (α × β) := fun s =>
  (p s).bind fun x => (q x.2).map fun y => ((x.1, y.1), y.2)

/-- The first one if it reads something, otherwise the second one. -/
def either (p : Read σ α) (q : Read σ β) : Read σ (α ⊕ β) := fun s =>
  match p s with
  | some x => some (.inl x.1, x.2)
  | none => (q s).map fun y => (.inr y.1, y.2)

/-- Nothing. -/
def nothing : Read σ Unit := fun s => some ((), s)

/-- All of the text. -/
def whole (p : Read σ α) (s : List σ) : Option α :=
  match p s with
  | some (x, []) => some x
  | _ => none

section Words

variable [DecidableEq σ]

/-- What is left over behind a fixed word. -/
def afterWord : List σ → List σ → Option (List σ)
  | [], s => some s
  | _ :: _, [] => none
  | c :: w, d :: s => if c = d then afterWord w s else none

/-- What stands behind a fixed word. -/
def behind (w : List σ) (p : Read σ α) : Read σ α := fun s => (afterWord w s).bind p

/-- Items with a separator between them, at least one and at most as many as the bound says. -/
def items (sep : List σ) (p : Read σ α) : ℕ → Read σ (List α)
  | 0, _ => none
  | n + 1, s => (p s).bind fun x =>
    match afterWord sep x.2 with
    | some r => (items sep p n r).map fun y => (x.1 :: y.1, y.2)
    | none => some ([x.1], x.2)

/-- Items with a separator between them. -/
def sepBy (sep : List σ) (p : Read σ α) : Read σ (List α) := fun s => items sep p (s.length + 1) s

/-- What stands behind any number of blanks. -/
def blanks (b : σ) (p : Read σ α) : Read σ α := fun s => p (s.dropWhile (· = b))

end Words

/-! ### Exact reading -/

/-- In front of what may follow it, the text `t` is read as `x` exactly if `P` holds. -/
def Exact (p : Read σ α) (F : List σ → Prop) (t : List σ) (x : α) (P : Prop) : Prop :=
  ∀ r, F r → ∀ s, p (t ++ r) = some (x, s) ↔ P ∧ s = r

theorem Exact.of_imp {p : Read σ α} {F : List σ → Prop} {t : List σ} {x : α} {P : Prop}
    (hread : P → ∀ r, F r → p (t ++ r) = some (x, r))
    (hsafe : ∀ r, F r → ∀ s, p (t ++ r) = some (x, s) → P) : Exact p F t x P := by
  intro r hr s
  constructor
  · intro h
    have hP := hsafe r hr s h
    have hs := (hread hP r hr).symm.trans h
    exact ⟨hP, (Prod.mk.inj (Option.some.inj hs)).2.symm⟩
  · rintro ⟨hP, rfl⟩
    exact hread hP s hr

theorem Exact.congr {p : Read σ α} {F : List σ → Prop} {t : List σ} {x : α} {P Q : Prop}
    (h : Exact p F t x P) (hPQ : P ↔ Q) : Exact p F t x Q := by
  rwa [← propext hPQ]

theorem Exact.mapped {p : Read σ α} {F : List σ → Prop} {t : List σ} {x : α} {P : Prop}
    {f : α → β} (hf : f.Injective) (h : Exact p F t x P) : Exact (mapped f p) F t (f x) P := by
  intro r hr s
  rw [← h r hr s, Reader.mapped, Option.map_eq_some_iff]
  constructor
  · rintro ⟨y, hy, he⟩
    obtain ⟨hfx, hs⟩ := Prod.mk.inj he
    rw [hy, ← hf hfx, ← hs]
  · intro hp
    exact ⟨_, hp, rfl⟩

theorem Exact.both {p : Read σ α} {q : Read σ β} {F G : List σ → Prop} {t u : List σ} {x : α}
    {y : β} {P Q : Prop} (hp : Exact p F t x P) (hq : Exact q G u y Q) (hF : ∀ r, G r → F (u ++ r)) :
    Exact (both p q) G (t ++ u) (x, y) (P ∧ Q) := by
  intro r hr s
  have hp' := hp (u ++ r) (hF r hr)
  rw [List.append_assoc, Reader.both, Option.bind_eq_some_iff]
  constructor
  · rintro ⟨⟨x', m⟩, hx, hy⟩
    obtain ⟨⟨y', s'⟩, hy', he⟩ := Option.map_eq_some_iff.mp hy
    simp only [Prod.mk.injEq] at he
    obtain ⟨⟨rfl, rfl⟩, rfl⟩ := he
    obtain ⟨hP, rfl⟩ := (hp' m).mp hx
    obtain ⟨hQ, rfl⟩ := (hq r hr s').mp hy'
    exact ⟨⟨hP, hQ⟩, rfl⟩
  · rintro ⟨⟨hP, hQ⟩, rfl⟩
    refine ⟨(x, u ++ s), (hp' _).mpr ⟨hP, rfl⟩, ?_⟩
    rw [(hq s hr s).mpr ⟨hQ, rfl⟩]
    rfl

theorem Exact.left {p : Read σ α} {F : List σ → Prop} {t : List σ} {x : α} {P : Prop}
    (h : Exact p F t x P) (q : Read σ β) : Exact (either p q) F t (.inl x) P := by
  intro r hr s
  rw [← h r hr s, either]
  rcases hp : p (t ++ r) with - | ⟨x', s'⟩
  · simp
  · simp

theorem Exact.right {q : Read σ β} {F : List σ → Prop} {t : List σ} {y : β} {Q : Prop}
    (h : Exact q F t y Q) {p : Read σ α} (hp : ∀ r, F r → p (t ++ r) = none) :
    Exact (either p q) F t (.inr y) Q := by
  intro r hr s
  rw [← h r hr s, either, hp r hr]
  rcases q (t ++ r) with - | ⟨y', s'⟩
  · simp
  · simp

theorem exact_nothing (F : List σ → Prop) : Exact nothing F [] () True := by
  intro r hr s
  simp [nothing, eq_comm]

/-- **A text is read completely** exactly under the condition. -/
theorem Exact.whole {p : Read σ α} {F : List σ → Prop} {t : List σ} {x : α} {P : Prop}
    (h : Exact p F t x P) (hF : F []) : whole p t = some x ↔ P := by
  have ht := h [] hF []
  rw [List.append_nil] at ht
  rw [← and_iff_left (a := P) (b := ([] : List σ) = []) rfl, ← ht, Reader.whole]
  rcases p t with - | ⟨x', - | ⟨c, s⟩⟩
  · simp
  · simp
  · simp

/-! ### Words and lists -/

theorem length_le_intercalate {sep : List σ} (hsep : sep ≠ []) (l : List (List σ)) :
    l.length ≤ (sep.intercalate l).length + 1 := by
  have hpos : 1 ≤ sep.length := List.length_pos_iff.mpr hsep
  induction l with
  | nil => simp
  | cons t l ih =>
    rcases l with - | ⟨u, l⟩
    · simp
    · rw [List.intercalate_cons_cons]
      simp only [List.length_append, List.length_cons] at ih ⊢
      omega

section Words

variable [DecidableEq σ]

theorem afterWord_eq_some {w s r : List σ} : afterWord w s = some r ↔ s = w ++ r := by
  induction w generalizing s with
  | nil => simp [afterWord]
  | cons c w ih =>
    rcases s with - | ⟨d, s⟩
    · simp [afterWord]
    · by_cases hc : c = d
      · rw [afterWord, if_pos hc, ih, hc]
        simp
      · rw [afterWord, if_neg hc]
        simp [Ne.symm hc]

theorem afterWord_append (w r : List σ) : afterWord w (w ++ r) = some r := afterWord_eq_some.mpr rfl

theorem Exact.behind {p : Read σ α} {F : List σ → Prop} {t : List σ} {x : α} {P : Prop}
    (h : Exact p F t x P) (w : List σ) : Exact (behind w p) F (w ++ t) x P := by
  intro r hr s
  rw [← h r hr s, Reader.behind, List.append_assoc, afterWord_append, Option.bind_some]

theorem exact_blanks {p : Read σ α} {F : List σ → Prop} {t : List σ} {x : α} {P : Prop}
    (h : Exact p F t x P) (b : σ) (n : ℕ) (ht : ∀ r, F r → (t ++ r).head? ≠ some b) :
    Exact (blanks b p) F (List.replicate n b ++ t) x P := by
  intro r hr s
  have hb : ∀ c ∈ List.replicate n b, decide (c = b) = true := by
    intro c hc
    rw [List.eq_of_mem_replicate hc, decide_eq_true rfl]
  have hstop : Stops (fun c => decide (c = b)) (t ++ r) := by
    intro c hc
    refine decide_eq_false fun hcb => ht r hr ?_
    rwa [← hcb]
  rw [← h r hr s, blanks, List.append_assoc, (scan_append hb hstop).2]

theorem items_ne_nil {sep : List σ} {p : Read σ α} {n : ℕ} {s r : List σ} :
    items sep p n s ≠ some ([], r) := by
  rcases n with - | n
  · simp [items]
  · rw [items]
    intro h
    obtain ⟨x, -, hx⟩ := Option.bind_eq_some_iff.mp h
    split at hx
    · obtain ⟨y, -, hy⟩ := Option.map_eq_some_iff.mp hx
      simp at hy
    · simp at hx

section Lists

variable {sep : List σ} {p : Read σ α} {F G : List σ → Prop} {text : ι → List σ} {val : ι → α}
  {P : ι → Prop}

/-- What the reader of a list has read if it has read the first item as it is meant. -/
theorem items_succ {n : ℕ} {s r : List σ} {x : α} {xs : List α} :
    items sep p (n + 1) s = some (x :: xs, r) ↔ ∃ m, p s = some (x, m) ∧
      ((∃ l, afterWord sep m = some l ∧ items sep p n l = some (xs, r)) ∨
        afterWord sep m = none ∧ xs = [] ∧ m = r) := by
  rw [items, Option.bind_eq_some_iff]
  constructor
  · rintro ⟨⟨y, m⟩, hy, h⟩
    dsimp only at h
    split at h
    · next l hl =>
      obtain ⟨⟨ys, r'⟩, hys, he⟩ := Option.map_eq_some_iff.mp h
      simp only [Prod.mk.injEq, List.cons.injEq] at he
      obtain ⟨⟨rfl, rfl⟩, rfl⟩ := he
      exact ⟨m, hy, Or.inl ⟨l, hl, hys⟩⟩
    · next hl =>
      simp only [Option.some.injEq, Prod.mk.injEq, List.cons.injEq] at h
      obtain ⟨⟨rfl, rfl⟩, rfl⟩ := h
      exact ⟨m, hy, Or.inr ⟨hl, rfl, rfl⟩⟩
  · rintro ⟨m, hm, ⟨l, hl, hxs⟩ | ⟨hl, rfl, rfl⟩⟩
    · refine ⟨(x, m), hm, ?_⟩
      simp only [hl, hxs]
      rfl
    · refine ⟨(x, m), hm, ?_⟩
      simp only [hl]

theorem exact_items (hF : ∀ r, F (sep ++ r)) (hG : ∀ r, G r → F r ∧ afterWord sep r = none)
    {l : List ι} (hl : l ≠ []) (h : ∀ i ∈ l, Exact p F (text i) (val i) (P i)) {n : ℕ}
    (hn : l.length ≤ n) :
    Exact (items sep p n) G (sep.intercalate (l.map text)) (l.map val) (∀ i ∈ l, P i) := by
  induction l generalizing n with
  | nil => exact absurd rfl hl
  | cons i l ih =>
    have hi := h i List.mem_cons_self
    rcases n with - | n
    · simp at hn
    intro r hr s
    rcases l with - | ⟨j, l⟩
    · -- the last item: no separator follows
      obtain ⟨hFr, hsep⟩ := hG r hr
      simp only [List.map_cons, List.map_nil, List.intercalate_singleton, items_succ, List.mem_singleton,
        forall_eq]
      constructor
      · rintro ⟨m, hm, ⟨k, -, hk⟩ | ⟨-, -, rfl⟩⟩
        · exact absurd hk items_ne_nil
        · exact (hi r hFr m).mp hm
      · rintro ⟨hP, rfl⟩
        exact ⟨s, (hi s hFr s).mpr ⟨hP, rfl⟩, Or.inr ⟨hsep, by simp⟩⟩
    · have hrest := ih (by simp) (fun k hk => h k (List.mem_cons_of_mem _ hk)) (n := n) (by simpa using hn)
        r hr s
      simp only [List.map_cons] at hrest ⊢
      rw [List.intercalate_cons_cons, List.append_assoc, List.append_assoc, items_succ,
        List.forall_mem_cons, and_assoc, ← hrest]
      constructor
      · rintro ⟨m, hm, ⟨k, hk, hks⟩ | ⟨-, hnil, -⟩⟩
        · obtain ⟨hP, rfl⟩ := (hi _ (hF _) m).mp hm
          rw [afterWord_append, Option.some.injEq] at hk
          rw [hk]
          exact ⟨hP, hks⟩
        · exact absurd hnil (by simp)
      · rintro ⟨hP, hks⟩
        exact ⟨_, (hi _ (hF _) _).mpr ⟨hP, rfl⟩, Or.inl ⟨_, afterWord_append _ _, hks⟩⟩

/-- **A separated list is read** exactly if every item of it is. -/
theorem Exact.sepBy (hsep : sep ≠ []) (hF : ∀ r, F (sep ++ r))
    (hG : ∀ r, G r → F r ∧ afterWord sep r = none) {l : List ι} (hl : l ≠ [])
    (h : ∀ i ∈ l, Exact p F (text i) (val i) (P i)) :
    Exact (sepBy sep p) G (sep.intercalate (l.map text)) (l.map val) (∀ i ∈ l, P i) := by
  intro r hr s
  have hlen := length_le_intercalate hsep (l.map text)
  rw [List.length_map] at hlen
  refine exact_items hF hG hl h ?_ r hr s
  rw [List.length_append]
  omega

end Lists

end Words

end Jkit.Lib.Reader
