import Jkit.Common.WebUtility
import Mathlib.Tactic.SplitIfs

/-! # The round trip of `Percent`

`encode` does not escape `%` itself, so a `%` of the text meets `decode` as it is. Such a `%` is read
back as `%` only if fewer than two characters follow it in the encoded text: it is the last
character of the text, or the last but one with a character that `encode` does not escape behind it
(`Plain`). In every other place `decode` reads a number from the two characters that follow, and
that number is never the code of `%`, since `encode` leaves no decimal digit outside its own
escapes (`toChar_strtol16_ne`).

The main result is `decode_encode_iff`. -/

namespace Jkit.Common.Percent

open Jkit.Http.Message Jkit.Common.WebUtility

/-! ### Characters -/

/-- A character that is not a decimal digit. -/
def NoDigit (c : UInt8) : Prop := ¬(48 ≤ c ∧ c ≤ 57)

/-- The two digits of an escape denote the escaped character. -/
theorem toChar_escape : ∀ c : UInt8, escapes c →
    toChar (strtol16 [hexChar (c >>> 4), hexChar (c &&& 15)]) = c := by
  intro c h
  have key : ∀ n : Fin 94, escapes (UInt8.ofNat n) →
      toChar (strtol16 [hexChar (UInt8.ofNat n >>> 4), hexChar (UInt8.ofNat n &&& 15)]) =
        UInt8.ofNat n := by decide
  have hlt : c.toNat < 94 := by
    simp only [escapes, Bool.or_eq_true, Bool.and_eq_true, beq_iff_eq, decide_eq_true_eq,
      ← UInt8.toNat_inj, UInt8.le_iff_toNat_le] at h
    simp at h
    omega
  have hc : UInt8.ofNat c.toNat = c := by simp
  have := key ⟨c.toNat, hlt⟩
  simp only [hc] at this
  exact this h

theorem hexValue_noDigit {c : UInt8} (h : NoDigit c) {n : ℕ} (hn : hexValue c = some n) :
    10 ≤ n ∧ n ≤ 15 := by
  unfold NoDigit at h
  unfold hexValue at hn
  simp only [UInt8.le_iff_toNat_le] at h hn
  simp at h hn
  split_ifs at hn with h1 h2 h3
  · omega
  · simp at hn; omega
  · simp at hn; omega

/-- The values that at most one hexadecimal letter can denote. -/
theorem hexDigits_one {c : UInt8} (h : NoDigit c) : hexDigits [c] = 0 ∨
    10 ≤ hexDigits [c] ∧ hexDigits [c] ≤ 15 := by
  unfold hexDigits
  cases hc : hexValue c with
  | none => left; simp [hc]
  | some n =>
    have := hexValue_noDigit h hc
    right; simp [hc]; omega

theorem hexDigits_two {a b : UInt8} (ha : NoDigit a) (hb : NoDigit b) :
    hexDigits [a, b] = 0 ∨ 10 ≤ hexDigits [a, b] ∧ hexDigits [a, b] ≤ 15 ∨
      170 ≤ hexDigits [a, b] ∧ hexDigits [a, b] ≤ 255 := by
  unfold hexDigits
  cases hva : hexValue a with
  | none => left; simp [hva]
  | some n =>
    have hn := hexValue_noDigit ha hva
    cases hvb : hexValue b with
    | none => right; left; simp [hva, hvb]; omega
    | some m =>
      have hm := hexValue_noDigit hb hvb
      right; right; simp [hva, hvb]; omega

theorem toChar_ne {z : ℤ} (h : z = 0 ∨ 10 ≤ z ∧ z ≤ 15 ∨ 170 ≤ z ∧ z ≤ 255 ∨ -15 ≤ z ∧ z ≤ -10) :
    toChar z ≠ 37 := by
  intro he
  have hn : (z % 256).toNat = 37 := by
    have hlt : (z % 256).toNat < 256 := by omega
    have h1 := congrArg UInt8.toNat he
    unfold toChar at h1
    simpa [Nat.mod_eq_of_lt hlt] using h1
  omega

/-- A sign is followed by at most one letter, so a signed number is small. -/
theorem strtol16_cases (a b : UInt8) : strtol16 [a, b] = 0 ∨ strtol16 [a, b] = hexDigits [b] ∨
    strtol16 [a, b] = -hexDigits [b] ∨ strtol16 [a, b] = hexDigits [a, b] := by
  have h0 : hexDigits [] = 0 := rfl
  unfold strtol16
  by_cases ha : isSpace a
  · by_cases hb : isSpace b
    · left; simp [ha, hb, h0]
    · by_cases h45 : b = 45
      · subst h45; left; simp [ha, hb, h0]
      · by_cases h43 : b = 43
        · subst h43; left; simp [ha, hb, h0]
        · right; left; simp [ha, hb, h45, h43]
  · by_cases h45 : a = 45
    · subst h45; right; right; left; simp [ha]
    · by_cases h43 : a = 43
      · subst h43; right; left; simp [ha]
      · right; right; right; simp [ha, h45, h43]

/-- Two characters without a decimal digit never decode to `%`. -/
theorem toChar_strtol16_ne {a b : UInt8} (ha : NoDigit a) (hb : NoDigit b) :
    toChar (strtol16 [a, b]) ≠ 37 := by
  have h1 := hexDigits_one hb
  have h2 := hexDigits_two ha hb
  apply toChar_ne
  rcases strtol16_cases a b with h | h | h | h
  · left; exact h
  · rw [h]; omega
  · rw [h]; omega
  · rw [h]; omega

/-! ### The encoded text -/

theorem noDigit_of_not_escapes {c : UInt8} (h : ¬escapes c) : NoDigit c := by
  rintro ⟨h1, h2⟩
  apply h
  simp only [escapes, Bool.or_eq_true, Bool.and_eq_true, decide_eq_true_eq]
  simp only [UInt8.le_iff_toNat_le] at h1 h2 ⊢
  simp at h1 h2 ⊢
  omega

/-- The first character of an encoded text is no digit. -/
theorem encode_head {s r : Str} {a : UInt8} (h : encode s = a :: r) : NoDigit a := by
  cases s with
  | nil => simp [encode] at h
  | cons c s =>
    unfold encode at h
    split_ifs at h with h1 h2
    · obtain ⟨rfl, -⟩ := List.cons.inj h; unfold NoDigit; decide
    · obtain ⟨rfl, -⟩ := List.cons.inj h; unfold NoDigit; decide
    · obtain ⟨rfl, -⟩ := List.cons.inj h; exact noDigit_of_not_escapes h2

/-- Neither is the second, unless it belongs to an escape. -/
theorem encode_second {s r : Str} {a b : UInt8} (h : encode s = a :: b :: r) :
    a = 37 ∨ NoDigit b := by
  cases s with
  | nil => simp [encode] at h
  | cons c s =>
    unfold encode at h
    split_ifs at h with h1 h2
    · right; exact encode_head (List.cons.inj h).2
    · left; exact (List.cons.inj h).1.symm
    · right; exact encode_head (List.cons.inj h).2

theorem toChar_encode_ne {s r : Str} {a b : UInt8} (h : encode s = a :: b :: r) :
    toChar (strtol16 [a, b]) ≠ 37 := by
  rcases encode_second h with rfl | hb
  · -- `strtol` stops at the `%` of the next escape
    have h0 : strtol16 [37, b] = 0 := by simp [strtol16, isSpace, hexDigits, hexValue]
    rw [h0]; decide
  · exact toChar_strtol16_ne (encode_head h) hb

/-! ### The round trip -/

/-- Every `%` of the text is its last character, or its last but one before a character that
`encode` does not escape. -/
def Plain (s : Str) : Prop :=
  ∀ u v, s = u ++ 37 :: v → v = [] ∨ ∃ c, v = [c] ∧ escapes c = false

theorem plain_tail {c : UInt8} {s : Str} (h : Plain (c :: s)) : Plain s := by
  intro u v hs
  exact h (c :: u) v (by rw [hs]; rfl)

theorem plain_cons {c : UInt8} {s : Str} (hc : c ≠ 37) : Plain (c :: s) ↔ Plain s := by
  constructor
  · exact plain_tail
  · intro h u v hs
    cases u with
    | nil => exact absurd (List.cons.inj hs).1 hc
    | cons x u => exact h u v (List.cons.inj hs).2

theorem plain_percent {s : Str} : Plain (37 :: s) ↔ s = [] ∨ ∃ c, s = [c] ∧ escapes c = false := by
  constructor
  · intro h
    exact h [] s rfl
  · intro h u v hs
    cases u with
    | nil =>
      obtain rfl : s = v := (List.cons.inj hs).2
      exact h
    | cons x u =>
      -- a second `%` can only be the character behind the first
      have hs' : s = u ++ 37 :: v := (List.cons.inj hs).2
      rcases h with rfl | ⟨c, rfl, -⟩
      · simp at hs'
      · cases u with
        | nil => left; simp at hs'; exact hs'.2
        | cons y u => simp at hs'

theorem decode_cons {c : UInt8} {r : Str} (h1 : c ≠ 37) (h2 : c ≠ 43) :
    decode (c :: r) = c :: decode r := by
  rw [decode]
  · intro a b r' h; exact absurd h h1
  · exact h2

/-- One character other than `%` comes back, whatever follows it. -/
theorem decode_encode_cons {c : UInt8} {s : Str} (hc : c ≠ 37) :
    decode (encode (c :: s)) = c :: decode (encode s) := by
  rw [encode]
  split_ifs with h1 h2
  · rw [h1, decode]
  · rw [decode, toChar_escape c h2]
  · refine decode_cons hc ?_
    rintro rfl
    exact h2 (by decide)

theorem encode_length_lt (s : Str) :
    (encode s).length < 2 ↔ s = [] ∨ ∃ c, s = [c] ∧ escapes c = false := by
  have hpos : ∀ (x : UInt8) (t : Str), 0 < (encode (x :: t)).length := by
    intro x t
    unfold encode
    split_ifs <;> simp
  rcases s with - | ⟨c, - | ⟨d, s⟩⟩
  · simp [encode]
  · unfold encode
    split_ifs with h1 h2
    · subst h1; simp [encode, escapes]
    · simp [h2]
    · simp [encode, h2]
  · have hlen := hpos d s
    have hne : ¬(c :: d :: s = [] ∨ ∃ x, c :: d :: s = [x] ∧ escapes x = false) := by simp
    rw [iff_false_right hne, encode]
    split_ifs
    all_goals
      simp only [List.length_cons]
      omega

theorem decode_percent_short {r : Str} (h : r.length < 2) : decode (37 :: r) = 37 :: decode r := by
  rcases r with - | ⟨x, - | ⟨y, r⟩⟩
  · rfl
  · rfl
  · simp only [List.length_cons] at h
    omega

/-- `Percent::decode` undoes `Percent::encode` on exactly the texts in which no `%` is followed by
two characters of the encoded text. -/
theorem decode_encode_iff (s : Str) : decode (encode s) = s ↔ Plain s := by
  induction s with
  | nil =>
    refine ⟨fun _ u v h => ?_, fun _ => rfl⟩
    simp at h
  | cons c s ih =>
    by_cases hc : c = 37
    · subst hc
      have he : encode (37 :: s) = 37 :: encode s := by rw [encode]; simp [escapes]
      rw [he, plain_percent, ← encode_length_lt]
      by_cases hl : (encode s).length < 2
      · rw [decode_percent_short hl]
        have hs : Plain s := plain_tail (plain_percent.mpr ((encode_length_lt s).mp hl))
        rw [ih.mpr hs]
        simp [hl]
      · -- `decode` reads a character that is not `%`
        obtain ⟨a, b, r, hr⟩ : ∃ a b r, encode s = a :: b :: r := by
          rcases h : encode s with - | ⟨a, - | ⟨b, r⟩⟩
          · simp [h] at hl
          · simp [h] at hl
          · exact ⟨a, b, r, rfl⟩
        refine ⟨fun h => ?_, fun h => absurd h hl⟩
        rw [hr, decode] at h
        exact absurd (List.cons.inj h).1 (toChar_encode_ne hr)
    · rw [decode_encode_cons hc, plain_cons hc, ← ih]
      simp

/-- A percentage of a query: the two characters behind `%` are taken for digits. -/
theorem percent_not_plain : ¬∀ s : Str, decode (encode s) = s := by
  intro h
  exact absurd (h (str "5%ab")) (by decide)

end Jkit.Common.Percent
