import Mathlib.Computability.Language

/-! # Grammars of texts with delimiters

The rules of an ABNF grammar denote languages: `/` is `+`, a sequence is `*`, and the rules here are its
other constructs. A word of a language in which a character `b` does not occur ends at the first `b`
that follows it, so a text is cut in one way only (`append_cons_mem_mul`). `Over` and `Long` bound the
characters and the length of the words of a language, rule by rule. -/

namespace Jkit.Lib.Abnf

variable {α : Type*}

/-! ### Rules -/

/-- A literal text. -/
def text (w : List α) : Language α := {w}

/-- `lo*hi` characters with the property `p`. -/
def rep (lo hi : ℕ) (p : α → Prop) : Language α := {w | lo ≤ w.length ∧ w.length ≤ hi ∧ ∀ c ∈ w, p c}

/-- Any number of characters with the property `p`. -/
def many (p : α → Prop) : Language α := {w | ∀ c ∈ w, p c}

/-- An optional part. -/
def opt (L : Language α) : Language α := 1 + L

/-- The words of a rule that meet a condition. -/
def filter (L : Language α) (q : List α → Prop) : Language α := {w | w ∈ L ∧ q w}

theorem mem_text {w v : List α} : v ∈ text w ↔ v = w := Iff.rfl

theorem mem_add_left {L : Language α} {w : List α} (h : w ∈ L) (M : Language α) : w ∈ L + M :=
  (Language.mem_add _ _ _).mpr (Or.inl h)

theorem mem_add_right (L : Language α) {M : Language α} {w : List α} (h : w ∈ M) : w ∈ L + M :=
  (Language.mem_add _ _ _).mpr (Or.inr h)

theorem mem_opt_of_mem {L : Language α} {w : List α} (h : w ∈ L) : w ∈ opt L := mem_add_right 1 h

theorem nil_mem_opt (L : Language α) : [] ∈ opt L := mem_add_left rfl L

/-! ### The characters of a language -/

/-- The words have only characters with the property `p`. -/
def Over (p : α → Prop) (L : Language α) : Prop := ∀ w ∈ L, ∀ c ∈ w, p c

variable {p : α → Prop} {L M : Language α}

theorem Over.text {w : List α} (h : ∀ c ∈ w, p c) : Over p (text w) := by
  intro v hv
  rw [mem_text.mp hv]
  exact h

theorem Over.rep {q : α → Prop} (h : ∀ c, q c → p c) (lo hi : ℕ) : Over p (rep lo hi q) :=
  fun _ hw c hc => h c (hw.2.2 c hc)

theorem Over.filter (h : Over p L) (q : List α → Prop) : Over p (filter L q) := fun w hw => h w hw.1

theorem Over.one : Over p (1 : Language α) := by
  intro w hw
  rw [(Language.mem_one w).mp hw]
  simp

theorem Over.add (hL : Over p L) (hM : Over p M) : Over p (L + M) := by
  intro w hw
  rcases (Language.mem_add _ _ _).mp hw with hw | hw
  · exact hL w hw
  · exact hM w hw

theorem Over.mul (hL : Over p L) (hM : Over p M) : Over p (L * M) := by
  intro w hw
  obtain ⟨a, ha, b, hb, rfl⟩ := Language.mem_mul.mp hw
  intro c hc
  rcases List.mem_append.mp hc with hc | hc
  · exact hL a ha c hc
  · exact hM b hb c hc

theorem Over.opt (h : Over p L) : Over p (opt L) := Over.one.add h

/-! ### The length of the words -/

/-- The words have at least `n` characters. -/
def Long (n : ℕ) (L : Language α) : Prop := ∀ w ∈ L, n ≤ w.length

theorem Long.text (w : List α) : Long w.length (text w) := by
  intro v hv
  rw [mem_text.mp hv]

theorem Long.rep (lo hi : ℕ) (p : α → Prop) : Long lo (rep lo hi p) := fun _ hw => hw.1

theorem Long.filter {n : ℕ} (h : Long n L) (q : List α → Prop) : Long n (filter L q) :=
  fun w hw => h w hw.1

theorem Long.add {n : ℕ} (hL : Long n L) (hM : Long n M) : Long n (L + M) := by
  intro w hw
  rcases (Language.mem_add _ _ _).mp hw with hw | hw
  · exact hL w hw
  · exact hM w hw

theorem Long.mul {m n : ℕ} (hL : Long m L) (hM : Long n M) : Long (m + n) (L * M) := by
  intro w hw
  obtain ⟨a, ha, b, hb, rfl⟩ := Language.mem_mul.mp hw
  rw [List.length_append]
  exact Nat.add_le_add (hL a ha) (hM b hb)

theorem Long.opt (L : Language α) : Long 0 (opt L) := fun _ _ => Nat.zero_le _

theorem Long.mono {m n : ℕ} (h : Long n L) (hmn : m ≤ n) : Long m L := fun w hw => hmn.trans (h w hw)

/-! ### Delimiters -/

theorem cons_mem_text_mul {b : α} {r : List α} : b :: r ∈ text [b] * M ↔ r ∈ M := by
  rw [Language.mem_mul]
  constructor
  · rintro ⟨a, ha, s, hs, h⟩
    rw [mem_text.mp ha] at h
    rw [← (List.cons.inj h).2]
    exact hs
  · intro h
    exact ⟨[b], rfl, r, h, rfl⟩

theorem append_cons_mem {b : α} {a r : List α} (ha : a ∈ L) (hr : r ∈ M) :
    a ++ b :: r ∈ L * (text [b] * M) := Language.append_mem_mul ha (cons_mem_text_mul.mpr hr)

/-- The text before the first character without the property. -/
theorem eq_of_append_cons {b : α} {a u r s : List α} (hb : ¬p b) (ha : ∀ c ∈ a, p c)
    (hu : ∀ c ∈ u, p c) (h : u ++ b :: s = a ++ b :: r) : u = a ∧ s = r := by
  rcases List.append_eq_append_iff.mp h with ⟨t, rfl, ht⟩ | ⟨t, rfl, ht⟩
  · rcases t with - | ⟨c, t⟩
    · exact ⟨by simp, (List.cons.inj ht).2⟩
    · exact absurd (ha c (by simp)) (by rw [← (List.cons.inj ht).1]; exact hb)
  · rcases t with - | ⟨c, t⟩
    · exact ⟨by simp, (List.cons.inj ht).2.symm⟩
    · exact absurd (hu c (by simp)) (by rw [← (List.cons.inj ht).1]; exact hb)

/-- A text is cut at the first character that is not in the words of the language before it. -/
theorem append_cons_mem_mul {b : α} {a r : List α} (hL : Over p L) (hb : ¬p b) (ha : ∀ c ∈ a, p c) :
    a ++ b :: r ∈ L * (text [b] * M) ↔ a ∈ L ∧ r ∈ M := by
  constructor
  · intro h
    obtain ⟨u, hu, v, hv, huv⟩ := Language.mem_mul.mp h
    obtain ⟨b', hb', s, hs, rfl⟩ := Language.mem_mul.mp hv
    obtain rfl := mem_text.mp hb'
    obtain ⟨rfl, rfl⟩ := eq_of_append_cons hb ha (hL u hu) huv
    exact ⟨hu, hs⟩
  · rintro ⟨haL, hr⟩
    exact append_cons_mem haL hr

end Jkit.Lib.Abnf
