import Jkit.Common.Percent

/-! # Malformed escapes

`Percent::decode` hands the two characters behind a `%` to `strtol` without looking at them. The
reference decoder `decodeReference` copies a `%` that two hexadecimal digits do not follow. Where
they do follow, `strtol` reads the byte they denote (`toChar_hex`). Where they do not, it reads a
number of at most one digit, which is never the code of `%` (`toChar_ne_percent`). So the two
decoders agree exactly on the texts without malformed escapes: `decode_eq_reference_iff`. -/

namespace Jkit.Common.Decode

open Jkit.Http.Message Jkit.Common.WebUtility Jkit.Common.Percent

/-- Percent decoding that copies what is not an escape. -/
def decodeReference : Str → Str
  | [] => []
  | 37 :: a :: b :: r =>
    match hexValue a, hexValue b with
    | some x, some y => UInt8.ofNat (16 * x + y) :: decodeReference r
    | _, _ => 37 :: decodeReference (a :: b :: r)
  | 43 :: r => 32 :: decodeReference r
  | c :: r => c :: decodeReference r

/-- Every `%` that two characters follow is followed by two hexadecimal digits. -/
def WellEscaped (v : Str) : Prop :=
  ∀ u a b r, v = u ++ 37 :: a :: b :: r → (hexValue a).isSome ∧ (hexValue b).isSome

/-! ### The two characters behind `%` -/

theorem hexValue_bounds {c : UInt8} {n : ℕ} (h : hexValue c = some n) : n ≤ 15 ∧ 48 ≤ c.toNat := by
  unfold hexValue at h
  simp only [UInt8.le_iff_toNat_le] at h
  simp at h
  split_ifs at h with h1 h2 h3
  · have := Option.some.inj h; omega
  · have := Option.some.inj h; omega
  · have := Option.some.inj h; omega

theorem hexDigits_single (b : UInt8) : hexDigits [b] ≤ 15 := by
  unfold hexDigits
  cases hb : hexValue b with
  | none => simp [hb]
  | some n =>
    have := (hexValue_bounds hb).1
    simp [hb]
    omega

/-- A hexadecimal digit is no blank, no sign and no `%`. -/
theorem hexValue_special {c : UInt8} {n : ℕ} (h : hexValue c = some n) :
    isSpace c = false ∧ c ≠ 45 ∧ c ≠ 43 ∧ c ≠ 37 := by
  have hc := (hexValue_bounds h).2
  have hsp : isSpace c = false := by
    simp only [isSpace, Bool.or_eq_false_iff, beq_eq_false_iff_ne, Bool.and_eq_false_iff,
      decide_eq_false_iff_not, UInt8.le_iff_toNat_le]
    refine ⟨?_, Or.inr ?_⟩
    · rintro rfl; revert hc; decide
    · simp; omega
  refine ⟨hsp, ?_, ?_, ?_⟩
  · rintro rfl; revert hc; decide
  · rintro rfl; revert hc; decide
  · rintro rfl; revert hc; decide

/-- Two hexadecimal digits are read as the byte they denote. -/
theorem toChar_hex {a b : UInt8} {x y : ℕ} (ha : hexValue a = some x) (hb : hexValue b = some y) :
    toChar (strtol16 [a, b]) = UInt8.ofNat (16 * x + y) := by
  obtain ⟨h1, h2, h3, -⟩ := hexValue_special ha
  have hd : hexDigits [a, b] = 16 * x + y := by simp [hexDigits, ha, hb]
  have hs : strtol16 [a, b] = hexDigits [a, b] := by simp [strtol16, h1, h2, h3]
  have hx := (hexValue_bounds ha).1
  have hy := (hexValue_bounds hb).1
  rw [hs, hd]
  unfold toChar
  rw [show ((16 * x + y : ℕ) : ℤ) % 256 = (16 * x + y : ℕ) by omega]
  rfl

/-- Anything else is read as a number of at most one digit. -/
theorem toChar_ne_percent {a b : UInt8} (h : hexValue a = none ∨ hexValue b = none) :
    toChar (strtol16 [a, b]) ≠ 37 := by
  have h1 := hexDigits_single b
  have h2 : hexDigits [a, b] ≤ 15 := by
    cases ha : hexValue a with
    | none => simp [hexDigits, ha]
    | some n =>
      have hb : hexValue b = none := by
        rcases h with h | h
        · rw [ha] at h; cases h
        · exact h
      have := (hexValue_bounds ha).1
      simp [hexDigits, ha, hb]
      omega
  have hz : -15 ≤ strtol16 [a, b] ∧ strtol16 [a, b] ≤ 15 := by
    rcases strtol16_cases a b with h | h | h | h
    · rw [h]; omega
    · rw [h]; omega
    · rw [h]; omega
    · rw [h]; omega
  intro he
  have hn := congrArg UInt8.toNat he
  unfold toChar at hn
  have hlt : (strtol16 [a, b] % 256).toNat < 256 := by omega
  simp only [Nat.toUInt8, UInt8.toNat_ofNat_of_lt' hlt] at hn
  have : (37 : UInt8).toNat = 37 := rfl
  omega

/-! ### The decoders -/

theorem wellEscaped_cons {c : UInt8} {r : Str} (h : c ≠ 37 ∨ r.length < 2) :
    WellEscaped (c :: r) ↔ WellEscaped r := by
  constructor
  · intro hw u a b t ht
    exact hw (c :: u) a b t (by rw [ht]; rfl)
  · intro hw u a b t ht
    rcases u with - | ⟨x, u⟩
    · obtain ⟨rfl, hr⟩ := List.cons.inj ht
      subst hr
      rcases h with h | h
      · exact absurd rfl h
      · simp only [List.length_cons] at h
        omega
    · exact hw u a b t (List.cons.inj ht).2

theorem wellEscaped_hex {a b : UInt8} {r : Str} (ha : (hexValue a).isSome)
    (hb : (hexValue b).isSome) : WellEscaped (37 :: a :: b :: r) ↔ WellEscaped r := by
  obtain ⟨x, hx⟩ := Option.isSome_iff_exists.mp ha
  obtain ⟨y, hy⟩ := Option.isSome_iff_exists.mp hb
  -- the digits themselves are no `%`
  have hr : WellEscaped (a :: b :: r) ↔ WellEscaped r := by
    rw [wellEscaped_cons (Or.inl (hexValue_special hx).2.2.2),
      wellEscaped_cons (Or.inl (hexValue_special hy).2.2.2)]
  rw [← hr]
  constructor
  · intro hw u c d t ht
    exact hw (37 :: u) c d t (by rw [ht]; rfl)
  · intro hw u c d t ht
    rcases u with - | ⟨x, u⟩
    · simp only [List.nil_append, List.cons.injEq, true_and] at ht
      obtain ⟨rfl, rfl, -⟩ := ht
      exact ⟨ha, hb⟩
    · exact hw u c d t (List.cons.inj ht).2

/-- The decoders agree exactly on the texts in which every `%` with two characters behind it begins
an escape. -/
theorem decode_eq_reference_iff (v : Str) : decode v = decodeReference v ↔ WellEscaped v := by
  fun_induction decodeReference v with
  | case1 =>
    refine ⟨fun _ u a b r h => ?_, fun _ => rfl⟩
    simp at h
  | case2 a b r x y hy hx ih =>
    rw [decode, toChar_hex hx hy, wellEscaped_hex (by rw [hx]; rfl) (by rw [hy]; rfl), ← ih]
    simp
  | case3 a b r hn ih =>
    -- the two characters are not both digits, and the decoders differ in the first character
    have hnone : hexValue a = none ∨ hexValue b = none := by
      rcases ha : hexValue a with - | x
      · exact Or.inl rfl
      · rcases hb : hexValue b with - | y
        · exact Or.inr rfl
        · exact absurd hb (hn x y ha)
    constructor
    · intro h
      rw [decode] at h
      exact absurd (List.cons.inj h).1 (toChar_ne_percent hnone)
    · intro hw
      have := hw [] a b r rfl
      rcases hnone with h | h
      · rw [h] at this; exact absurd this.1 (by decide)
      · rw [h] at this; exact absurd this.2 (by decide)
  | case4 r ih =>
    rw [decode, wellEscaped_cons (Or.inl (by decide)), ← ih]
    simp
  | case5 c r h1 h2 ih =>
    by_cases hc : c = 37
    · subst hc
      have hlen : r.length < 2 := by
        rcases r with - | ⟨a, - | ⟨b, r⟩⟩
        · simp
        · simp
        · exact absurd rfl (h1 a b r rfl)
      rw [decode_percent_short hlen, wellEscaped_cons (Or.inr hlen), ← ih]
      simp
    · rw [decode_cons hc h2, wellEscaped_cons (Or.inl hc), ← ih]
      simp

/-- `%zz` is decoded to a zero byte. -/
theorem decode_malformed : ¬∀ v : Str, decode v = decodeReference v := by
  intro h
  exact absurd (h (str "%zz")) (by decide)

end Jkit.Common.Decode
