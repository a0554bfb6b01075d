import Jkit.Lib.Scan
import Jkit.Db.JsonText

/-! # Constants of PostgreSQL

`readConst` reads one constant off the front of a text, by PostgreSQL's lexical rules with
`standard_conforming_strings` on, and returns what is left over: a quoted string, a number (which may
carry a sign), or one of the key words `null`, `true` and `false`. -/

namespace Jkit.Db.SqlConst

open Jkit.Lib.Quote Jkit.Lib.Scan Jkit.Db.JsonText

inductive Const
  | null
  | boolean (b : Bool)
  | number (text : List Char)
  | string (s : List Char)
deriving DecidableEq

/-! ### The reader -/

def readDigits (cs : List Char) : List Char × List Char :=
  (cs.takeWhile Char.isDigit, cs.dropWhile Char.isDigit)

def readSign : List Char → List Char × List Char
  | '+' :: r => (['+'], r)
  | '-' :: r => (['-'], r)
  | r => ([], r)

def readFraction : List Char → List Char × List Char
  | '.' :: r => ('.' :: (readDigits r).1, (readDigits r).2)
  | r => ([], r)

/-- An exponent needs a digit; without one the text ends before the `e`. -/
def readExponent : List Char → List Char × List Char
  | [] => ([], [])
  | c :: r =>
    let s := readSign r
    let d := readDigits s.2
    if (c = 'e' ∨ c = 'E') ∧ d.1 ≠ [] then (c :: s.1 ++ d.1, d.2) else ([], c :: r)

/-- A number: a sign, digits with or without a decimal point, an exponent. -/
def readNumber (cs : List Char) : Option (List Char × List Char) :=
  let s := readSign cs
  let i := readDigits s.2
  let f := readFraction i.2
  let e := readExponent f.2
  if i.1 = [] ∧ f.1.length ≤ 1 then none else some (s.1 ++ i.1 ++ f.1 ++ e.1, e.2)

/-- A key word, in any case. -/
def readKeyWord (cs : List Char) : Option (Const × List Char) :=
  let w := (cs.takeWhile Char.isAlpha).map Char.toLower
  let r := cs.dropWhile Char.isAlpha
  if w = ['n', 'u', 'l', 'l'] then some (.null, r)
  else if w = ['t', 'r', 'u', 'e'] then some (.boolean true, r)
  else if w = ['f', 'a', 'l', 's', 'e'] then some (.boolean false, r)
  else none

/-- One constant, and what is left over. -/
def readConst : List Char → Option (Const × List Char)
  | [] => none
  | c :: r =>
    if c = '\'' then (read '\'' r).map fun x => (.string x.1, x.2)
    else if c.isDigit ∨ c = '+' ∨ c = '-' ∨ c = '.' then
      (readNumber (c :: r)).map fun x => (.number x.1, x.2)
    else readKeyWord (c :: r)

/-! ### Strings -/

/-- **Which string constant is complete**, and what it denotes. -/
theorem readConst_string {s : List Char} {c : Const} :
    readConst ('\'' :: s ++ ['\'']) = some (c, []) ↔
      paired '\'' s = true ∧ c = .string (collapse '\'' s) := by
  have h : readConst ('\'' :: s ++ ['\'']) =
      (read '\'' (s ++ ['\''])).map fun x => (.string x.1, x.2) := rfl
  rw [h, Option.map_eq_some_iff]
  constructor
  · rintro ⟨⟨t, r⟩, ht, he⟩
    obtain ⟨rfl, rfl⟩ := Prod.mk.inj he
    obtain ⟨hp, rfl⟩ := read_snoc.mp ht
    exact ⟨hp, rfl⟩
  · rintro ⟨hp, rfl⟩
    exact ⟨_, read_of_paired hp, rfl⟩

/-! ### Numbers -/

theorem readDigits_append {d r : List Char} (hd : ∀ c ∈ d, c.isDigit = true)
    (hr : ∀ c, r.head? = some c → c.isDigit = false) : readDigits (d ++ r) = (d, r) := by
  have hr' : r.takeWhile Char.isDigit = [] ∧ r.dropWhile Char.isDigit = r := by
    cases r with
    | nil => simp
    | cons c r => simp [hr c rfl]
  unfold readDigits
  rw [List.takeWhile_append_of_pos hd, List.dropWhile_append_of_pos hd, hr'.1, hr'.2]
  simp

theorem isDigit_text (d : Digits) : ∀ c ∈ d.text, c.isDigit = true := by
  intro c hc
  obtain ⟨i, -, rfl⟩ := List.mem_map.mp hc
  simp [Nat.isDigit_digitChar]

theorem readSign_sign (neg : Bool) {d : List Char} (hd : ∀ c ∈ d, c.isDigit = true) (r : List Char)
    (hne : d ≠ []) : readSign (sign neg ++ (d ++ r)) = (sign neg, d ++ r) := by
  obtain ⟨c, l, rfl⟩ := List.exists_cons_of_ne_nil hne
  have hc := hd c (by simp)
  cases neg with
  | true => rfl
  | false =>
    unfold readSign
    split
    · next h => simp_all [sign]
    · next h => simp_all [sign]
    · rfl

theorem readFraction_fraction (frac : Option Digits) {r : List Char}
    (hr : ∀ c, r.head? = some c → c = 'e') : readFraction (fraction frac ++ r) = (fraction frac, r) := by
  have hdig : ∀ c, r.head? = some c → c.isDigit = false := fun c hc => by rw [hr c hc]; rfl
  cases frac with
  | none =>
    cases r with
    | nil => rfl
    | cons c r =>
      obtain rfl := hr c rfl
      rfl
  | some d =>
    show ('.' :: (readDigits (d.text ++ r)).1, (readDigits (d.text ++ r)).2) = _
    rw [readDigits_append (isDigit_text d) hdig]
    rfl

theorem readExponent_exponent (exp : Option (Bool × Digits)) :
    readExponent (exponent exp) = (exponent exp, []) := by
  rcases exp with _ | ⟨neg, d⟩
  · rfl
  · have hd : readDigits d.text = (d.text, []) := by
      simpa using readDigits_append (r := []) (isDigit_text d) (by simp)
    have hne : d.text ≠ [] := by simp [Digits.text]
    cases neg <;> simp [exponent, readExponent, readSign, hd, hne]

/-- The parts of the text of a number, whatever its digits `d` are. -/
theorem read_parts (neg : Bool) {d : List Char} (hd : ∀ c ∈ d, c.isDigit = true) (hne : d ≠ [])
    (frac : Option Digits) (exp : Option (Bool × Digits)) :
    readSign (sign neg ++ (d ++ (fraction frac ++ exponent exp))) =
        (sign neg, d ++ (fraction frac ++ exponent exp)) ∧
      readDigits (d ++ (fraction frac ++ exponent exp)) = (d, fraction frac ++ exponent exp) ∧
      readFraction (fraction frac ++ exponent exp) = (fraction frac, exponent exp) := by
  have hexp : ∀ c, (exponent exp).head? = some c → c = 'e' := by
    rcases exp with _ | ⟨n, e⟩ <;> simp [exponent]
  have hrest : ∀ c, (fraction frac ++ exponent exp).head? = some c → c.isDigit = false := by
    cases frac with
    | none => exact fun c hc => by rw [hexp c hc]; rfl
    | some d => simp [fraction]
  exact ⟨readSign_sign neg hd _ hne, readDigits_append hd hrest, readFraction_fraction frac hexp⟩

/-- The text of a number is read completely. -/
theorem readNumber_parts (neg : Bool) {d : List Char} (hd : ∀ c ∈ d, c.isDigit = true) (hne : d ≠ [])
    (frac : Option Digits) (exp : Option (Bool × Digits)) :
    readNumber (sign neg ++ (d ++ (fraction frac ++ exponent exp))) =
      some (sign neg ++ d ++ fraction frac ++ exponent exp, []) := by
  obtain ⟨hsign, hdigits, hfrac⟩ := read_parts neg hd hne frac exp
  unfold readNumber
  simp only [hsign, hdigits, hfrac, readExponent_exponent, hne, false_and, if_false]

theorem readConst_number_parts (neg : Bool) {d : List Char} (hd : ∀ c ∈ d, c.isDigit = true)
    (hne : d ≠ []) (frac : Option Digits) (exp : Option (Bool × Digits)) :
    readConst (sign neg ++ d ++ fraction frac ++ exponent exp) =
      some (.number (sign neg ++ d ++ fraction frac ++ exponent exp), []) := by
  obtain ⟨c, r, hcr, hq, hnum⟩ : ∃ c r, sign neg ++ d ++ fraction frac ++ exponent exp = c :: r ∧
      c ≠ '\'' ∧ (c.isDigit = true ∨ c = '+' ∨ c = '-' ∨ c = '.') := by
    obtain ⟨c, l, rfl⟩ := List.exists_cons_of_ne_nil hne
    have hc := hd c (by simp)
    cases neg with
    | true => exact ⟨'-', _, rfl, by decide, by decide⟩
    | false => exact ⟨c, _, rfl, by rintro rfl; exact absurd hc (by decide), .inl hc⟩
  have hread := readNumber_parts neg hd hne frac exp
  simp only [← List.append_assoc] at hread
  rw [hcr] at hread ⊢
  rw [readConst, if_neg hq, if_pos hnum, hread]
  rfl

theorem readConst_text {n : Number} (hn : n ≠ .nonFinite) :
    readConst n.text = some (.number n.text, []) := by
  rcases n with z | ⟨neg, int, frac, exp⟩ | -
  · have hd : ∀ c ∈ Nat.toDigits 10 z.natAbs, c.isDigit = true := fun c hc =>
      Nat.isDigit_of_mem_toDigits (by omega) (by omega) hc
    have := readConst_number_parts (z < 0) hd Nat.toDigits_ne_nil none none
    simp only [fraction, exponent, List.append_nil] at this
    exact this
  · exact readConst_number_parts neg (isDigit_text int) (by simp [Digits.text]) frac exp
  · exact absurd rfl hn

/-- **The text of a number is one constant**; a number that is not finite is `null`. -/
theorem readConst_number (n : Number) : ∃ c, readConst n.text = some (c, []) := by
  by_cases hn : n = .nonFinite
  · subst hn
    exact ⟨.null, by decide⟩
  · exact ⟨_, readConst_text hn⟩

/-! ### What stands behind a constant -/

/-- A character that is part of no constant, so that it ends the one before it. -/
structure Ends (b : Char) : Prop where
  digit : b.isDigit = false
  alpha : b.isAlpha = false
  plus : b ≠ '+'
  minus : b ≠ '-'
  point : b ≠ '.'
  quote : b ≠ '\''

theorem ends_blank : Ends ' ' := ⟨by decide, by decide, by decide, by decide, by decide, by decide⟩

section Stop

variable {b : Char} (hb : Ends b)

include hb

theorem readDigits_stop (t r : List Char) :
    readDigits (t ++ b :: r) = ((readDigits t).1, (readDigits t).2 ++ b :: r) := by
  obtain ⟨h1, h2⟩ := scan_stops (stops_cons (r := r) hb.digit) t
  unfold readDigits
  rw [h1, h2]

theorem readSign_stop (t r : List Char) :
    readSign (t ++ b :: r) = ((readSign t).1, (readSign t).2 ++ b :: r) := by
  rcases t with - | ⟨c, t⟩
  · simp [readSign, hb.plus, hb.minus]
  · by_cases hp : c = '+'
    · subst hp; rfl
    · by_cases hm : c = '-'
      · subst hm; rfl
      · simp [readSign, hp, hm]

theorem readFraction_stop (t r : List Char) :
    readFraction (t ++ b :: r) = ((readFraction t).1, (readFraction t).2 ++ b :: r) := by
  rcases t with - | ⟨c, t⟩
  · simp [readFraction, hb.point]
  · by_cases hc : c = '.'
    · subst hc
      simp [readFraction, readDigits_stop hb]
    · simp [readFraction, hc]

theorem readExponent_stop (t r : List Char) :
    readExponent (t ++ b :: r) = ((readExponent t).1, (readExponent t).2 ++ b :: r) := by
  rcases t with - | ⟨c, t⟩
  · have he : b ≠ 'e' ∧ b ≠ 'E' := by
      constructor
      · rintro rfl
        exact absurd hb.alpha (by decide)
      · rintro rfl
        exact absurd hb.alpha (by decide)
    simp [readExponent, he]
  · simp only [List.cons_append, readExponent, readSign_stop hb, readDigits_stop hb]
    split_ifs with h
    · simp
    · simp

theorem readNumber_stop {t x u : List Char} (h : readNumber t = some (x, u)) (r : List Char) :
    readNumber (t ++ b :: r) = some (x, u ++ b :: r) := by
  unfold readNumber at h ⊢
  simp only [readSign_stop hb, readDigits_stop hb, readFraction_stop hb, readExponent_stop hb] at h ⊢
  split_ifs at h ⊢ with hd
  obtain ⟨hx, hu⟩ := Prod.mk.inj (Option.some.inj h)
  rw [hx, hu]

theorem readKeyWord_stop {t u : List Char} {c : Const} (h : readKeyWord t = some (c, u)) (r : List Char) :
    readKeyWord (t ++ b :: r) = some (c, u ++ b :: r) := by
  obtain ⟨h1, h2⟩ := scan_stops (stops_cons (r := r) hb.alpha) t
  unfold readKeyWord at h ⊢
  rw [h1, h2]
  simp only at h ⊢
  split_ifs at h ⊢
  all_goals
    obtain ⟨hc, hu⟩ := Prod.mk.inj (Option.some.inj h)
    rw [hc, hu]

/-- **What ends a constant does not change it.** -/
theorem readConst_stop {t u : List Char} {c : Const} (h : readConst t = some (c, u)) (r : List Char) :
    readConst (t ++ b :: r) = some (c, u ++ b :: r) := by
  rcases t with - | ⟨a, t⟩
  · exact absurd h (by simp [readConst])
  · rw [List.cons_append]
    simp only [readConst] at h ⊢
    split_ifs at h ⊢ with hq hn
    · obtain ⟨⟨x, v⟩, hx, he⟩ := Option.map_eq_some_iff.mp h
      obtain ⟨rfl, rfl⟩ := Prod.mk.inj he
      rw [read_append hx (by simp [hb.quote])]
      rfl
    · obtain ⟨⟨x, v⟩, hx, he⟩ := Option.map_eq_some_iff.mp h
      obtain ⟨rfl, rfl⟩ := Prod.mk.inj he
      have hnum := readNumber_stop hb hx r
      rw [List.cons_append] at hnum
      rw [hnum]
      rfl
    · exact readKeyWord_stop hb h r

end Stop

/-- A blank behind a constant does not change it. -/
theorem readConst_blank {t u : List Char} {c : Const} (h : readConst t = some (c, u)) (r : List Char) :
    readConst (t ++ ' ' :: r) = some (c, u ++ ' ' :: r) := readConst_stop ends_blank h r

end Jkit.Db.SqlConst
