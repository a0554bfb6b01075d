import Jkit.Db.JsonText
import Jkit.Db.PosixTime

/-! # `soci_pgsql.hpp`: the type conversions

`to_base` writes a value into a base value and an indicator, `from_base` reads the two into a
variable that holds the value of the row before. Both take what they assign to by reference, so
each takes the old content here and returns the new one; `none` is an exception.

The base type of `ptime` is `std::tm`, which has no fraction of a second. On the null route `bool`
and `uuid` are reset, `ptime` and `json` keep the old content.

The main result is `roundTrip_restores`. -/

namespace Jkit.Db.SociPgsql

open Jkit.Db.JsonText Jkit.Db.PosixTime

/-! ### The text of a `uuid` -/

/-- `boost::uuids::uuid`. -/
structure Uuid where
  data : List UInt8
  size : data.length = 16
deriving DecidableEq

/-- `nil_uuid`. -/
def nilUuid : Uuid := ⟨List.replicate 16 0, rfl⟩

/-- The bytes that a dash follows. -/
def dashed (i : ℕ) : Bool := i == 3 || i == 5 || i == 7 || i == 9

/-- `operator<<`, from the byte at the position `i` on. -/
def writeBytes (i : ℕ) : List UInt8 → List Char
  | [] => []
  | b :: bs =>
    Nat.digitChar (b.toNat / 16) :: Nat.digitChar (b.toNat % 16) ::
      (if dashed i then '-' :: writeBytes (i + 1) bs else writeBytes (i + 1) bs)

/-- The position of a character in `xdigits`, after `toupper`. -/
def xdigit (c : Char) : Option ℕ :=
  ['0', '1', '2', '3', '4', '5', '6', '7', '8', '9', 'A', 'B', 'C', 'D', 'E', 'F'].idxOf? c.toUpper

/-- `operator>>`, for the `n` bytes from the position `i` on; also the rest of the text. -/
def readBytes : ℕ → ℕ → List Char → Option (List UInt8 × List Char)
  | 0, _, s => some ([], s)
  | n + 1, i, hi :: lo :: s => do
    let h ← xdigit hi
    let l ← xdigit lo
    let s ← if dashed i then
        match s with
        | '-' :: s => some s
        | _ => none
      else some s
    let (bs, s) ← readBytes n (i + 1) s
    some (UInt8.ofNat (16 * h + l) :: bs, s)
  | _ + 1, _, _ => none

/-- `boost::lexical_cast<string>`. -/
def uuidToString (u : Uuid) : List Char := writeBytes 0 u.data

/-- `boost::lexical_cast<uuid>`. -/
def uuidFromString (s : List Char) : Option Uuid :=
  match readBytes 16 0 s with
  | some (bs, []) => if h : bs.length = 16 then some ⟨bs, h⟩ else none
  | _ => none

theorem xdigit_digitChar {n : ℕ} (h : n < 16) : xdigit (Nat.digitChar n) = some n := by
  have key : ∀ m : Fin 16, xdigit (Nat.digitChar m) = some m.val := by decide
  exact key ⟨n, h⟩

theorem readBytes_writeBytes (bs : List UInt8) (i : ℕ) :
    readBytes bs.length i (writeBytes i bs) = some (bs, []) := by
  induction bs generalizing i with
  | nil => rfl
  | cons b bs ih =>
    have hb := b.toNat_lt
    have hbyte : UInt8.ofNat (16 * (b.toNat / 16) + b.toNat % 16) = b := by
      rw [Nat.div_add_mod]; simp
    simp only [List.length_cons, writeBytes, readBytes, Option.bind_eq_bind,
      xdigit_digitChar (show b.toNat / 16 < 16 by omega),
      xdigit_digitChar (show b.toNat % 16 < 16 by omega), Option.bind_some]
    by_cases hd : dashed i = true
    · simp [hd, ih, hbyte]
    · simp [hd, ih, hbyte]

/-- A `uuid` comes back from its text. -/
theorem uuidFromString_uuidToString (u : Uuid) : uuidFromString (uuidToString u) = some u := by
  have h := readBytes_writeBytes u.data 0
  rw [u.size] at h
  simp [uuidFromString, uuidToString, h, u.size]

/-! ### The conversions -/

/-- `soci::indicator`. -/
inductive Indicator
  | ok
  | null
  | truncated
deriving DecidableEq

/-- `soci::type_conversion` of the type `T` with the base type `B`. -/
structure TypeConversion (T B : Type) where
  fromBase : B → Indicator → T → Option T
  toBase : T → B → Indicator → Option (B × Indicator)

/-- `type_conversion<bool>`. -/
def boolConversion : TypeConversion Bool ℤ where
  fromBase i ind _ := if ind = .null then some false else some (i != 0)
  toBase mi _ _ := some (if mi then 1 else 0, .ok)

/-- `type_conversion<ptime>`. -/
def ptimeConversion : TypeConversion Ptime Tm where
  fromBase i ind mi := if ind = .null then some mi else ptimeFromTm i
  toBase mi i _ := if mi = .notADateTime then some (i, .null) else (toTm mi).map fun i => (i, .ok)

/-- `is_null`. -/
def isNull : Json → Bool
  | .null => true
  | _ => false

/-- `type_conversion<json>`, with the parser of the library. -/
def jsonConversion (parse : List Char → Option Json) : TypeConversion Json (List Char) where
  fromBase i ind mi := if ind = .null then some mi else parse i
  toBase mi i _ := if isNull mi then some (i, .null) else some (dump mi, .ok)

/-- `type_conversion<uuid>`. -/
def uuidConversion : TypeConversion Uuid (List Char) where
  fromBase i ind _ := if ind = .null then some nilUuid else uuidFromString i
  toBase mi _ _ := some (uuidToString mi, .ok)

/-- `to_base` of `v` and then `from_base` into a variable that holds `t`; the base value and the
indicator hold `i` and `ind` before. -/
def roundTrip {T B : Type} (c : TypeConversion T B) (v : T) (i : B) (ind : Indicator) (t : T) :
    Option T := do
  let (b, d) ← c.toBase v i ind
  c.fromBase b d t

/-- Whenever `to_base` of `v` succeeds, reading the result leaves `w` in the variable, whatever the
variable held. -/
def Leaves {T B : Type} (c : TypeConversion T B) (v w : T) : Prop :=
  ∀ i ind t, (c.toBase v i ind).isSome → roundTrip c v i ind t = some w

/-! ### The round trip -/

theorem boolConversion_leaves (v : Bool) : Leaves boolConversion v v := by
  intro i ind t _
  cases v with
  | false => rfl
  | true => rfl

theorem uuidConversion_leaves (v : Uuid) : Leaves uuidConversion v v := by
  intro i ind t _
  exact uuidFromString_uuidToString v

theorem jsonConversion_leaves {parse : List Char → Option Json} {v : Json} (hv : v ≠ .null)
    (hparse : parse (dump v) = some v) : Leaves (jsonConversion parse) v v := by
  intro i ind t _
  have hnull : isNull v = false := by
    cases v with
    | null => exact absurd rfl hv
    | _ => rfl
  simp [roundTrip, jsonConversion, hnull, hparse]

theorem ptimeConversion_leaves {v : Ptime} (hv : v ≠ .notADateTime) (hr : v.InRange) :
    Leaves ptimeConversion v v.wholeSeconds := by
  intro i ind t hok
  simp only [ptimeConversion, if_neg hv, Option.isSome_map] at hok
  obtain ⟨tm, htm⟩ := Option.isSome_iff_exists.mp hok
  simp [roundTrip, ptimeConversion, hv, htm, ptimeFromTm_toTm hr htm]

/-- Outside of the null routes of `json` and `ptime` every value comes back, a point in time of the
years 1400 to 9999 up to its fraction of a second. -/
theorem roundTrip_restores (parse : List Char → Option Json) :
    (∀ v, Leaves boolConversion v v) ∧ (∀ v, Leaves uuidConversion v v) ∧
      (∀ v, v ≠ .null → parse (dump v) = some v → Leaves (jsonConversion parse) v v) ∧
      ∀ v, v ≠ .notADateTime → v.InRange → Leaves ptimeConversion v v.wholeSeconds := by
  refine ⟨boolConversion_leaves, uuidConversion_leaves, ?_, ?_⟩
  · intro v hv hparse
    exact jsonConversion_leaves hv hparse
  · intro v hv hr
    exact ptimeConversion_leaves hv hr

/-- A flag of a row as `json`, and a quarter of a second after the start of the year 2000. -/
theorem roundTrip_restores_row :
    let parse : List Char → Option Json := fun s =>
      if s = ['t', 'r', 'u', 'e'] then some (.boolean true)
      else if s = ['f', 'a', 'l', 's', 'e'] then some (.boolean false) else none
    Leaves (jsonConversion parse) (.boolean true) (.boolean true) ∧
      roundTrip ptimeConversion (.ticks 211813488000250000) ⟨0, 0, 0, 0, 0, 0, 0, 0, 0⟩ .ok .posInfin =
        some (.ticks 211813488000000000) := by
  intro parse
  have h := roundTrip_restores parse
  refine ⟨h.2.2.1 (.boolean true) (by simp) rfl, ?_⟩
  have hrange : (Ptime.ticks 211813488000250000).InRange := by
    unfold Ptime.InRange minDate maxDate
    decide
  exact h.2.2.2 (.ticks 211813488000250000) (by simp) hrange _ _ _ (by decide)

/-- The fraction is lost, and so is a missing point in time if the row before had one. -/
theorem fraction_not_restored :
    ¬((∀ v, Leaves boolConversion v v) ∧ (∀ v, Leaves uuidConversion v v) ∧
      (∀ parse v, (v ≠ .null → parse (dump v) = some v) → Leaves (jsonConversion parse) v v) ∧
      ∀ v, Leaves ptimeConversion v v) ∧
    ¬Leaves ptimeConversion (.ticks 211813488000250000) (.ticks 211813488000250000) ∧
    ¬Leaves ptimeConversion .notADateTime .notADateTime := by
  have hfrac : ¬Leaves ptimeConversion (.ticks 211813488000250000) (.ticks 211813488000250000) := by
    intro h
    exact absurd (h ⟨0, 0, 0, 0, 0, 0, 0, 0, 0⟩ .ok .posInfin (by decide)) (by decide)
  refine ⟨fun h => hfrac (h.2.2.2 _), hfrac, ?_⟩
  intro h
  exact absurd (h ⟨0, 0, 0, 0, 0, 0, 0, 0, 0⟩ .ok .posInfin (by decide)) (by decide)

end Jkit.Db.SociPgsql
