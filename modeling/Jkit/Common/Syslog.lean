import Jkit.Http.Message
import Jkit.Db.PosixTime
import Jkit.Lib.Abnf
import Mathlib.Data.Nat.Digits.Defs
import Mathlib.Data.List.TakeWhile

/-! # The syslog packets of `logger.cpp`

`syslog_udp5424_backend::send` writes a packet with one `snprintf` into a buffer of 2048 bytes. Above the
call stands the grammar of the packet, which is written here as languages, rule by rule. The rule for the
offset of the local time is a parameter of the rules that use it.

* `send_malformed`: no packet is a message of the grammar, because the time has no offset.
* `send_withoutOffset`: apart from that the packets are well formed, for years of four digits and seconds
  below 60, and a long message is cut inside of the message. -/

namespace Jkit.Common.Syslog

open Jkit.Http.Message Jkit.Lib.Abnf Jkit.Db.PosixTime

/-! ### The grammar -/

/-- `DIGIT`. -/
def digit (c : UInt8) : Prop := 48 ≤ c ∧ c ≤ 57

/-- `NONZERO-DIGIT`. -/
def nonzeroDigit (c : UInt8) : Prop := 49 ≤ c ∧ c ≤ 57

/-- `PRINTUSASCII`. -/
def printUsAscii (c : UInt8) : Prop := 33 ≤ c ∧ c ≤ 126

instance : DecidablePred digit := fun c => inferInstanceAs (Decidable (48 ≤ c ∧ c ≤ 57))

instance : DecidablePred printUsAscii := fun c => inferInstanceAs (Decidable (33 ≤ c ∧ c ≤ 126))

/-- `OCTET`. -/
def octet (_ : UInt8) : Prop := True

/-- The number that digits denote. -/
def value (w : Str) : ℕ := w.foldl (fun n c => 10 * n + (c.toNat - 48)) 0

/-- `2DIGIT ; lo-hi`. -/
def twoDigits (lo hi : ℕ) : Language UInt8 := filter (rep 2 2 digit) fun w => lo ≤ value w ∧ value w ≤ hi

def sp : Language UInt8 := text [32]

def nilvalue : Language UInt8 := text [45]

/-- `NILVALUE / 1*nPRINTUSASCII`. -/
def field (n : ℕ) : Language UInt8 := nilvalue + rep 1 n printUsAscii

/-- `PRIVAL = 1*3DIGIT ; range 0 .. 191`. -/
def prival : Language UInt8 := filter (rep 1 3 digit) fun w => value w ≤ 191

def pri : Language UInt8 := text [60] * prival * text [62]

def version : Language UInt8 := rep 1 1 nonzeroDigit * rep 0 2 digit

def hostname : Language UInt8 := field 255

def appName : Language UInt8 := field 48

def procid : Language UInt8 := field 128

def msgid : Language UInt8 := field 32

def dateFullyear : Language UInt8 := rep 4 4 digit

def dateMonth : Language UInt8 := twoDigits 1 12

/-- `DATE-MDAY`, which depends on the month and the year. -/
def dateMday (year month : ℕ) : Language UInt8 :=
  filter (rep 2 2 digit) fun w => 1 ≤ value w ∧ (value w : ℤ) ≤ endOfMonthDay year month

def fullDate : Language UInt8 :=
  {w | ∃ y ∈ dateFullyear, ∃ m ∈ dateMonth, ∃ d ∈ dateMday (value y) (value m), w = y ++ 45 :: (m ++ 45 :: d)}

def timeHour : Language UInt8 := twoDigits 0 23

def timeMinute : Language UInt8 := twoDigits 0 59

def timeSecond : Language UInt8 := twoDigits 0 59

def timeSecfrac : Language UInt8 := text [46] * rep 1 6 digit

def timeNumoffset : Language UInt8 := (text [43] + text [45]) * timeHour * text [58] * timeMinute

/-- `TIME-OFFSET = "Z" / TIME-NUMOFFSET`. -/
def timeOffset : Language UInt8 := text [90] + timeNumoffset

def partialTime : Language UInt8 :=
  timeHour * text [58] * timeMinute * text [58] * timeSecond * opt timeSecfrac

def fullTime (offset : Language UInt8) : Language UInt8 := partialTime * offset

def timestamp (offset : Language UInt8) : Language UInt8 :=
  nilvalue + fullDate * text [84] * fullTime offset

def header (offset : Language UInt8) : Language UInt8 :=
  pri * version * sp * timestamp offset * sp * hostname * sp * appName * sp * procid * sp * msgid

/-- `SD-NAME`: no `=`, blank, `]` or `"`. -/
def sdName : Language UInt8 := rep 1 32 fun c => printUsAscii c ∧ c ≠ 61 ∧ c ≠ 93 ∧ c ≠ 34

/-- `PARAM-VALUE`: `"`, `\` and `]` are escaped. -/
def paramValue : Language UInt8 :=
  KStar.kstar (rep 1 1 (fun c => c ≠ 34 ∧ c ≠ 92 ∧ c ≠ 93) +
    text [92] * rep 1 1 fun c => c = 34 ∨ c = 92 ∨ c = 93)

def sdParam : Language UInt8 := sdName * text [61] * text [34] * paramValue * text [34]

def sdElement : Language UInt8 := text [91] * sdName * KStar.kstar (sp * sdParam) * text [93]

/-- `STRUCTURED-DATA = NILVALUE / 1*SD-ELEMENT`. -/
def structuredData : Language UInt8 := nilvalue + sdElement * KStar.kstar sdElement

/-- `BOM`. -/
def bom : Str := [0xef, 0xbb, 0xbf]

/-- `MSG-ANY`: not starting with `BOM`. -/
def msgAny : Language UInt8 := filter (many octet) fun w => ¬bom <+: w

def msgUtf8 : Language UInt8 := text bom * many octet

def msg : Language UInt8 := msgAny + msgUtf8

/-- `SYSLOG-MSG`. -/
def syslogMsg (offset : Language UInt8) : Language UInt8 :=
  header offset * sp * structuredData * opt (sp * msg)

/-! ### The backend -/

/-- `syslog::level`. -/
inductive Level
  | emergency
  | alert
  | critical
  | error
  | warning
  | notice
  | info
  | debug
deriving DecidableEq

def Level.code : Level → ℕ
  | .emergency => 0
  | .alert => 1
  | .critical => 2
  | .error => 3
  | .warning => 4
  | .notice => 5
  | .info => 6
  | .debug => 7

/-- The members of `syslog_udp5424_backend` that `send` reads. -/
structure Backend where
  localHostname : Str
  processName : Str
  processId : Str
  msgId : Str := str "-"
  facility : ℕ := 8

/-- `set_target_address`, with what the system says about the host and the process. -/
def setTargetAddress (hostName processName : Str) (processId : UInt64) : Backend where
  localHostname := if hostName = [] then str "-" else hostName
  processName := if processName = [] then str "-" else processName
  processId := str (toString processId.toNat)

/-- What `localtime` may leave in a `std::tm`; a second more than 59 is a leap second. -/
structure LocalTime where
  tm : Tm
  year : -2147483648 ≤ tm.year + 1900 ∧ tm.year + 1900 ≤ 2147483647
  mon : 0 ≤ tm.mon ∧ tm.mon ≤ 11
  mday : 1 ≤ tm.mday ∧ tm.mday ≤ endOfMonthDay (tm.year + 1900) (tm.mon + 1)
  hour : 0 ≤ tm.hour ∧ tm.hour ≤ 23
  min : 0 ≤ tm.min ∧ tm.min ≤ 59
  sec : 0 ≤ tm.sec ∧ tm.sec ≤ 60

/-- `%d`. -/
def fmtInt (n : ℤ) : Str := (if n < 0 then [45] else []) ++ str (toString n.natAbs)

/-- `%4d`. -/
def fmtBlank4 (n : ℤ) : Str := List.replicate (4 - (fmtInt n).length) 32 ++ fmtInt n

/-- `%02d`. -/
def fmtZero2 (n : ℤ) : Str :=
  (if n < 0 then [45] else []) ++ List.replicate (2 - (fmtInt n).length) 48 ++ str (toString n.natAbs)

/-- `%s`, which ends at the first zero. -/
def fmtStr (s : Str) : Str := s.takeWhile (· != 0)

def dateText (tm : Tm) : Str :=
  fmtBlank4 (tm.year + 1900) ++ 45 :: (fmtZero2 (tm.mon + 1) ++ 45 :: fmtZero2 tm.mday)

def timeText (tm : Tm) : Str :=
  fmtZero2 tm.hour ++ 58 :: (fmtZero2 tm.min ++ 58 :: fmtZero2 tm.sec)

/-- The text of `"<%d>1 %4d-%02d-%02dT%02d:%02d:%02d %s %s %s %s - %s"` before the message. -/
def headText (b : Backend) (lev : Level) (tm : Tm) : Str :=
  60 :: (fmtInt ((b.facility ||| lev.code : ℕ) : ℤ) ++ 62 :: 49 :: 32 :: (dateText tm ++ 84 :: (timeText tm ++
    32 :: (fmtStr b.localHostname ++ 32 :: (fmtStr b.processName ++ 32 :: (fmtStr b.processId ++
      32 :: (fmtStr b.msgId ++ [32, 45, 32])))))))

/-- `snprintf` of a text into a buffer of `size` bytes: the return value, which is negative if the length
is no `int`, and the bytes before the terminating zero. -/
def snprintf (size : ℕ) (s : Str) : ℤ × Str :=
  (if s.length ≤ 2147483647 then s.length else -1, s.take (size - 1))

/-- `send`: the bytes that are sent, if any. -/
def send (b : Backend) (lev : Level) (now : LocalTime) (formattedMessage : Str) : Option Str :=
  let r := snprintf 2048 (headText b lev now.tm ++ fmtStr formattedMessage)
  if 0 < r.1 then
    let packetSize := if 2048 ≤ r.1 then 2047 else r.1.toNat
    some (r.2.take packetSize)
  else none

/-! ### What a packet should be -/

/-- The packet is the head and a part of the message, the whole message unless the buffer is full. -/
def CutInside (head message packet : Str) : Prop :=
  ∃ n, packet = head ++ message.take n ∧ (n < message.length → packet.length = 2047)

/-- A packet is sent, it is a message of the grammar, and it is cut inside of the message only. -/
def WellFormed (offset : Language UInt8) (b : Backend) (lev : Level) (now : LocalTime)
    (message : Str) : Prop :=
  ∃ packet, send b lev now message = some packet ∧ packet ∈ syslogMsg offset ∧
    CutInside (headText b lev now.tm) message packet

/-! ### Numbers -/

theorem digit_ne {c d : UInt8} (h : digit c) (hd : ¬digit d) : c ≠ d := by
  rintro rfl
  exact hd h

theorem digit_toString (n : ℕ) : ∀ c ∈ str (toString n), digit c := by
  intro c hc
  rw [str_toString] at hc
  obtain ⟨d, hd, rfl⟩ := List.mem_map.mp hc
  have hdig := isDigit_toDigits d hd
  obtain ⟨hlo, hhi⟩ := Char.isDigit_iff_toNat.mp hdig
  have h0 : '0'.toNat = 48 := rfl
  have h9 : '9'.toNat = 57 := rfl
  constructor
  · rw [UInt8.le_iff_toNat_le, toNat_toUInt8 hdig]
    exact hlo
  · rw [UInt8.le_iff_toNat_le, toNat_toUInt8 hdig]
    exact hhi

theorem foldl_digits {l : List Char} (h : ∀ c ∈ l, c.isDigit = true) (n : ℕ) :
    (l.map Char.toUInt8).foldl (fun n c => 10 * n + (c.toNat - 48)) n = Nat.ofDigitChars 10 l n := by
  induction l generalizing n with
  | nil => rfl
  | cons c l ih =>
    have hc := toNat_toUInt8 (h c List.mem_cons_self)
    rw [List.map_cons, List.foldl_cons, hc, ih fun d hd => h d (List.mem_cons_of_mem _ hd),
      Nat.ofDigitChars_cons]
    rfl

theorem value_toString (n : ℕ) : value (str (toString n)) = n := by
  rw [value, str_toString, foldl_digits isDigit_toDigits, Nat.ofDigitChars_ten_toDigits]

theorem length_toString_pos (n : ℕ) : 1 ≤ (str (toString n)).length := by
  rw [str_toString, List.length_map]
  exact List.length_pos_iff.mpr Nat.toDigits_ne_nil

theorem length_toString_le {n e : ℕ} (he : 0 < e) (h : n < 10 ^ e) : (str (toString n)).length ≤ e := by
  rw [str_toString, List.length_map]
  exact Nat.toDigits_length 10 n e he h

/-- A number with few digits is small. -/
theorem value_lt {w : Str} (h : ∀ c ∈ w, digit c) : value w < 10 ^ w.length := by
  have hfold : ∀ n, w.foldl (fun n c => 10 * n + (c.toNat - 48)) n < (n + 1) * 10 ^ w.length := by
    induction w with
    | nil => simp
    | cons c w ih =>
      intro n
      have hc := UInt8.le_iff_toNat_le.mp (h c List.mem_cons_self).2
      have h57 : (57 : UInt8).toNat = 57 := rfl
      have hrest := ih (fun d hd => h d (List.mem_cons_of_mem _ hd)) (10 * n + (c.toNat - 48))
      rw [List.foldl_cons, List.length_cons, Nat.pow_succ]
      refine lt_of_lt_of_le hrest ?_
      calc (10 * n + (c.toNat - 48) + 1) * 10 ^ w.length
          ≤ (10 * (n + 1)) * 10 ^ w.length := Nat.mul_le_mul_right _ (by omega)
        _ = (n + 1) * (10 ^ w.length * 10) := by ring
  have h0 := hfold 0
  rwa [Nat.zero_add, Nat.one_mul] at h0

theorem fmtInt_of_nonneg {n : ℤ} (h : 0 ≤ n) : fmtInt n = str (toString n.natAbs) := by
  rw [fmtInt, if_neg (by omega), List.nil_append]

/-- A number below 100 has two digits. -/
theorem fmtZero2_spec {n : ℤ} (h0 : 0 ≤ n) (h : n ≤ 99) :
    fmtZero2 n ∈ rep 2 2 digit ∧ (value (fmtZero2 n) : ℤ) = n := by
  have hlen : (str (toString n.natAbs)).length ≤ 2 := length_toString_le (by omega) (by omega)
  have hpos := length_toString_pos n.natAbs
  have heq : fmtZero2 n =
      List.replicate (2 - (str (toString n.natAbs)).length) 48 ++ str (toString n.natAbs) := by
    rw [fmtZero2, if_neg (by omega), List.nil_append, fmtInt_of_nonneg h0]
  have hlength : (fmtZero2 n).length = 2 := by
    rw [heq, List.length_append, List.length_replicate]
    omega
  have hdigits : ∀ c ∈ fmtZero2 n, digit c := by
    intro c hc
    rw [heq] at hc
    rcases List.mem_append.mp hc with hc | hc
    · rw [List.eq_of_mem_replicate hc]
      decide
    · exact digit_toString _ c hc
  have hzeros : ∀ k, (List.replicate k (48 : UInt8)).foldl (fun n c => 10 * n + (c.toNat - 48)) 0 = 0 := by
    intro k
    induction k with
    | zero => rfl
    | succ k ih => rw [List.replicate_succ, List.foldl_cons]; exact ih
  have hvalue : value (fmtZero2 n) = n.natAbs := by
    rw [heq, value, List.foldl_append, hzeros]
    exact value_toString _
  refine ⟨⟨hlength.ge, hlength.le, hdigits⟩, ?_⟩
  rw [hvalue]
  omega

/-- The digits of a number of an `int`, with its sign. -/
theorem length_fmtInt_le {n : ℤ} (h : -2147483648 ≤ n ∧ n ≤ 2147483647) : (fmtInt n).length ≤ 11 := by
  have hlen : (str (toString n.natAbs)).length ≤ 10 := length_toString_le (by omega) (by omega)
  rw [fmtInt, List.length_append]
  split
  · rw [List.length_singleton]
    omega
  · rw [List.length_nil]
    omega

theorem length_fmtBlank4_le {n : ℤ} (h : -2147483648 ≤ n ∧ n ≤ 2147483647) :
    (fmtBlank4 n).length ≤ 11 := by
  have hlen := length_fmtInt_le h
  rw [fmtBlank4, List.length_append, List.length_replicate]
  omega

theorem mem_fmtInt {n : ℤ} {c : UInt8} (h : c ∈ fmtInt n) : c = 45 ∨ digit c := by
  rw [fmtInt] at h
  rcases List.mem_append.mp h with h | h
  · split at h
    · exact Or.inl (List.mem_singleton.mp h)
    · exact absurd h List.not_mem_nil
  · exact Or.inr (digit_toString _ c h)

theorem mem_fmtBlank4 {n : ℤ} {c : UInt8} (h : c ∈ fmtBlank4 n) : c = 32 ∨ c = 45 ∨ digit c := by
  rcases List.mem_append.mp h with h | h
  · exact Or.inl (List.eq_of_mem_replicate h)
  · exact Or.inr (mem_fmtInt h)

theorem mem_fmtZero2 {n : ℤ} {c : UInt8} (h : c ∈ fmtZero2 n) : c = 45 ∨ digit c := by
  simp only [fmtZero2, List.append_assoc, List.mem_append] at h
  rcases h with h | h | h
  · split at h
    · exact Or.inl (List.mem_singleton.mp h)
    · exact absurd h List.not_mem_nil
  · rw [List.eq_of_mem_replicate h]
    exact Or.inr (by decide)
  · exact Or.inr (digit_toString _ c h)

theorem length_fmtZero2 {n : ℤ} (h0 : 0 ≤ n) (h : n ≤ 99) : (fmtZero2 n).length = 2 :=
  le_antisymm (fmtZero2_spec h0 h).1.2.1 (fmtZero2_spec h0 h).1.1

/-- `%4d` has a blank at its first character or none at its second. -/
theorem fmtBlank4_start (n : ℤ) : ∃ a b r, fmtBlank4 n = a :: b :: r ∧ (a = 32 ∨ b ≠ 32) := by
  have hlen : 4 ≤ (fmtBlank4 n).length := by
    rw [fmtBlank4, List.length_append, List.length_replicate]
    omega
  obtain ⟨a, b, r, heq⟩ : ∃ a b r, fmtBlank4 n = a :: b :: r := by
    rcases h : fmtBlank4 n with - | ⟨a, - | ⟨b, r⟩⟩
    · rw [h] at hlen
      exact absurd hlen (by decide)
    · rw [h] at hlen
      exact absurd hlen (by simp)
    · exact ⟨a, b, r, rfl⟩
  refine ⟨a, b, r, heq, ?_⟩
  rw [fmtBlank4] at heq
  rcases hk : 4 - (fmtInt n).length with - | k
  · right
    have hb : b ∈ fmtInt n := by
      rw [hk, List.replicate_zero, List.nil_append] at heq
      simp [heq]
    rcases mem_fmtInt hb with rfl | hdig
    · decide
    · exact digit_ne hdig (by decide)
  · rw [hk] at heq
    exact Or.inl (List.cons.inj heq).1.symm

/-! ### The text of the time -/

theorem mem_timeText {tm : Tm} {c : UInt8} (h : c ∈ timeText tm) : c = 45 ∨ c = 58 ∨ digit c := by
  simp only [timeText, List.mem_append, List.mem_cons] at h
  rcases h with h | rfl | h | rfl | h
  · exact (mem_fmtZero2 h).imp_right Or.inr
  · exact Or.inr (Or.inl rfl)
  · exact (mem_fmtZero2 h).imp_right Or.inr
  · exact Or.inr (Or.inl rfl)
  · exact (mem_fmtZero2 h).imp_right Or.inr

theorem mem_dateText {tm : Tm} {c : UInt8} (h : c ∈ dateText tm) : c = 32 ∨ c = 45 ∨ digit c := by
  simp only [dateText, List.mem_append, List.mem_cons] at h
  rcases h with h | rfl | h | rfl | h
  · exact mem_fmtBlank4 h
  · exact Or.inr (Or.inl rfl)
  · exact Or.inr (mem_fmtZero2 h)
  · exact Or.inr (Or.inl rfl)
  · exact Or.inr (mem_fmtZero2 h)

theorem length_timeText (now : LocalTime) : (timeText now.tm).length = 8 := by
  obtain ⟨tm, -, -, -, hhour, hmin, hsec⟩ := now
  have hh := length_fmtZero2 (n := tm.hour) (by omega) (by omega)
  have hm := length_fmtZero2 (n := tm.min) (by omega) (by omega)
  have hs := length_fmtZero2 (n := tm.sec) (by omega) (by omega)
  simp only [timeText, List.length_append, List.length_cons, hh, hm, hs]

theorem length_dateText_le (now : LocalTime) : (dateText now.tm).length ≤ 17 := by
  obtain ⟨tm, hyear, hmon, hmday, -, -, -⟩ := now
  have hend := endOfMonthDay_le (tm.year + 1900) (tm.mon + 1)
  have hy := length_fmtBlank4_le hyear
  have hm := length_fmtZero2 (n := tm.mon + 1) (by omega) (by omega)
  have hd := length_fmtZero2 (n := tm.mday) (by omega) (by omega)
  simp only [dateText, List.length_append, List.length_cons, hm, hd]
  omega

/-! ### The words of the grammar -/

theorem twoDigits_over {p : UInt8 → Prop} (h : ∀ c, digit c → p c) (lo hi : ℕ) :
    Over p (twoDigits lo hi) := (Over.rep h 2 2).filter _

theorem twoDigits_long (lo hi : ℕ) : Long 2 (twoDigits lo hi) := (Long.rep 2 2 digit).filter _

theorem prival_over : Over digit prival := (Over.rep (fun _ h => h) 1 3).filter _

theorem version_over : Over digit version :=
  (Over.rep (fun _ h => ⟨UInt8.le_trans (show (48 : UInt8) ≤ 49 by decide) h.1, h.2⟩) 1 1).mul
    (Over.rep (fun _ h => h) 0 2)

/-- A full date ends before a `T`. -/
theorem fullDate_over : Over (· ≠ 84) fullDate := by
  have hdig : ∀ c, digit c → c ≠ 84 := fun c h => digit_ne h (by decide)
  rintro w ⟨y, hy, m, hm, d, hd, rfl⟩ c hc
  simp only [List.mem_append, List.mem_cons] at hc
  rcases hc with hc | rfl | hc | rfl | hc
  · exact hdig c (hy.2.2 c hc)
  · decide
  · exact hdig c (hm.1.2.2 c hc)
  · decide
  · exact hdig c (hd.1.2.2 c hc)

/-- A full time ends before a blank. -/
theorem fullTime_over : Over (· ≠ 32) (fullTime timeOffset) := by
  have hdig : ∀ c, digit c → c ≠ 32 := fun c h => digit_ne h (by decide)
  have htwo := fun lo hi => twoDigits_over hdig lo hi
  have hchar : ∀ b : UInt8, b ≠ 32 → Over (· ≠ 32) (text [b]) := fun b hb =>
    Over.text fun c hc => List.mem_singleton.mp hc ▸ hb
  have hcolon := hchar 58 (by decide)
  have hpartial : Over (· ≠ 32) partialTime :=
    ((((htwo 0 23).mul hcolon).mul (htwo 0 59)).mul hcolon).mul (htwo 0 59) |>.mul
      ((hchar 46 (by decide)).mul (Over.rep hdig 1 6)).opt
  have hnum : Over (· ≠ 32) timeNumoffset :=
    ((((hchar 43 (by decide)).add (hchar 45 (by decide))).mul (htwo 0 23)).mul hcolon).mul (htwo 0 59)
  exact hpartial.mul ((hchar 90 (by decide)).add hnum)

/-- The offset is at least a `Z`. -/
theorem timeOffset_long : Long 1 timeOffset := by
  have hsign : Long 1 (text [(43 : UInt8)] + text [45]) := (Long.text [43]).add (Long.text [45])
  have hnum := ((hsign.mul (twoDigits_long 0 23)).mul (Long.text [58])).mul (twoDigits_long 0 59)
  exact (Long.text [90]).add (hnum.mono (by decide))

theorem fullTime_long : Long 9 (fullTime timeOffset) :=
  ((((((twoDigits_long 0 23).mul (Long.text [58])).mul (twoDigits_long 0 59)).mul (Long.text [58])).mul
    (twoDigits_long 0 59)).mul (Long.opt timeSecfrac)).mul timeOffset_long

/-- The time of a packet is no timestamp: without an offset it is too short. -/
theorem time_notMem (now : LocalTime) (r : Str) (M : Language UInt8) :
    dateText now.tm ++ 84 :: (timeText now.tm ++ 32 :: r) ∉ timestamp timeOffset * (text [32] * M) := by
  intro h
  obtain ⟨u, hu, v, hv, huv⟩ := Language.mem_mul.mp h
  obtain ⟨b, hb, s, -, rfl⟩ := Language.mem_mul.mp hv
  obtain rfl := mem_text.mp hb
  rcases (Language.mem_add _ _ _).mp hu with hu | hu
  · -- `NILVALUE`: the year is no `-` before a blank
    obtain rfl := mem_text.mp hu
    obtain ⟨a, b, q, hyear, hstart⟩ := fmtBlank4_start (now.tm.year + 1900)
    rw [dateText, hyear] at huv
    obtain ⟨rfl, htail⟩ := List.cons.inj huv
    obtain ⟨rfl, -⟩ := List.cons.inj htail
    exact absurd hstart (by decide)
  · obtain ⟨d', hd', t, ht, rfl⟩ := Language.mem_mul.mp hu
    obtain ⟨d, hd, c, hc, rfl⟩ := Language.mem_mul.mp hd'
    obtain rfl := mem_text.mp hc
    have hdate : ∀ c ∈ dateText now.tm, c ≠ 84 := by
      intro c hc
      rcases mem_dateText hc with rfl | rfl | hdig
      · decide
      · decide
      · exact digit_ne hdig (by decide)
    have htime : ∀ c ∈ timeText now.tm, c ≠ 32 := by
      intro c hc
      rcases mem_timeText hc with rfl | rfl | hdig
      · decide
      · decide
      · exact digit_ne hdig (by decide)
    rw [List.append_assoc, List.append_assoc] at huv
    have hcut := (eq_of_append_cons (fun h84 => h84 rfl) hdate (fullDate_over d hd) huv).2
    have heq := (eq_of_append_cons (fun h32 => h32 rfl) htime (fullTime_over t ht) hcut).1
    have hlong := fullTime_long t ht
    rw [heq, length_timeText] at hlong
    omega

/-! ### The packet -/

theorem send_eq (b : Backend) (lev : Level) (now : LocalTime) (message : Str) :
    send b lev now message =
      if (headText b lev now.tm ++ fmtStr message).length ≤ 2147483647 then
        some ((headText b lev now.tm ++ fmtStr message).take 2047)
      else none := by
  have hpos : 0 < (headText b lev now.tm ++ fmtStr message).length := by simp [headText]
  rw [send]
  generalize headText b lev now.tm ++ fmtStr message = s at hpos
  by_cases hs : s.length ≤ 2147483647
  · have hsn : snprintf 2048 s = ((s.length : ℤ), s.take 2047) := by rw [snprintf, if_pos hs]
    rw [hsn, if_pos hs, if_pos (Int.natCast_pos.mpr hpos)]
    by_cases hfull : (2048 : ℤ) ≤ s.length
    · rw [if_pos hfull]
      show some ((s.take 2047).take 2047) = _
      rw [List.take_take, Nat.min_self]
    · rw [if_neg hfull, Int.toNat_natCast]
      show some ((s.take 2047).take s.length) = _
      rw [List.take_take, List.take_of_length_le (by omega), List.take_of_length_le (by omega)]
  · have hsn : snprintf 2048 s = (-1, s.take 2047) := by rw [snprintf, if_neg hs]
    rw [hsn, if_neg hs]
    rfl

/-- The parts of the head. -/
theorem headText_eq (b : Backend) (lev : Level) (tm : Tm) :
    headText b lev tm = 60 :: (str (toString (b.facility ||| lev.code)) ++ 62 :: ([49] ++ 32 ::
      ((dateText tm ++ 84 :: timeText tm) ++ 32 :: (fmtStr b.localHostname ++ 32 :: (fmtStr b.processName ++
        32 :: (fmtStr b.processId ++ 32 :: (fmtStr b.msgId ++ [32, 45, 32]))))))) := by
  rw [headText, fmtInt_of_nonneg (Int.natCast_nonneg _), Int.natAbs_natCast]
  simp only [List.cons_append, List.append_assoc, List.nil_append]

theorem syslogMsg_eq (offset : Language UInt8) :
    syslogMsg offset = text [60] * (prival * (text [62] * (version * (text [32] * (timestamp offset *
      (text [32] * (hostname * (text [32] * (appName * (text [32] * (procid * (text [32] * (msgid *
        (text [32] * (structuredData * opt (text [32] * msg)))))))))))))))) := by
  simp only [syslogMsg, header, pri, sp, mul_assoc]

/-! ### The missing offset -/

section

variable {hostName processName : Str} {processId : UInt64} {lev : Level} {now : LocalTime} {message : Str}

theorem pri_le (lev : Level) : 8 ||| lev.code ≤ 15 := by
  rcases lev <;> decide

/-- The buffer holds the time of the packet. -/
theorem send_start {packet : Str}
    (h : send (setTargetAddress hostName processName processId) lev now message = some packet) :
    ∃ r, packet = 60 :: (str (toString (8 ||| lev.code)) ++ 62 :: ([49] ++ 32 :: (dateText now.tm ++
      84 :: (timeText now.tm ++ 32 :: r)))) := by
  rw [send_eq] at h
  split at h
  · obtain rfl := Option.some.inj h
    obtain ⟨r, hhead⟩ : ∃ r, headText (setTargetAddress hostName processName processId) lev now.tm =
        60 :: (str (toString (8 ||| lev.code)) ++ 62 :: ([49] ++ 32 :: (dateText now.tm ++
          84 :: (timeText now.tm ++ [32])))) ++ r := by
      rw [headText_eq]
      simp only [List.cons_append, List.append_assoc, List.nil_append]
      exact ⟨_, rfl⟩
    have hpri : (str (toString (8 ||| lev.code))).length ≤ 2 :=
      length_toString_le (by omega) (lt_of_le_of_lt (pri_le lev) (by omega))
    have hdate := length_dateText_le now
    have htime := length_timeText now
    rw [hhead, List.append_assoc, List.take_append, List.take_of_length_le]
    · simp only [List.cons_append, List.append_assoc, List.nil_append]
      exact ⟨_, rfl⟩
    · simp only [List.length_cons, List.length_append, List.length_nil]
      omega
  · exact absurd h (by simp)

theorem send_notMem {packet : Str}
    (h : send (setTargetAddress hostName processName processId) lev now message = some packet) :
    packet ∉ syslogMsg timeOffset := by
  obtain ⟨r, rfl⟩ := send_start h
  rw [syslogMsg_eq, cons_mem_text_mul,
    append_cons_mem_mul prival_over (by decide) (digit_toString _)]
  rintro ⟨-, hversion⟩
  have hone : ∀ c ∈ [(49 : UInt8)], digit c := by
    intro c hc
    rw [List.mem_singleton.mp hc]
    decide
  have htime := ((append_cons_mem_mul version_over (by decide) hone).mp hversion).2
  exact time_notMem now r _ htime

end

/-- No packet is a message of the grammar. -/
theorem send_malformed (hostName processName : Str) (processId : UInt64) (lev : Level) (now : LocalTime)
    (message : Str) :
    ¬WellFormed timeOffset (setTargetAddress hostName processName processId) lev now message := by
  rintro ⟨packet, hsend, hmem, -⟩
  exact send_notMem hsend hmem

/-- 2024-01-02 03:04:05, a Tuesday. -/
def secondOfJanuary : LocalTime where
  tm := ⟨5, 4, 3, 2, 0, 124, 2, 1, 0⟩
  year := by decide
  mon := by decide
  mday := by decide
  hour := by decide
  min := by decide
  sec := by decide

theorem send_hi_notWellFormed :
    send (setTargetAddress (str "h") (str "p") 1) .info secondOfJanuary (str "hi") =
        some (str "<14>1 2024-01-02T03:04:05 h p 1 - - hi") ∧
      ¬WellFormed timeOffset (setTargetAddress (str "h") (str "p") 1) .info secondOfJanuary (str "hi") := by
  refine ⟨by decide +kernel, ?_⟩
  rintro ⟨packet, hsend, hmem, -⟩
  exact send_notMem hsend hmem

/-! ### Everything but the offset -/

theorem fmtStr_of_forall {s : Str} (h : ∀ c ∈ s, c ≠ 0) : fmtStr s = s :=
  List.takeWhile_eq_self_iff.mpr fun c hc => bne_iff_ne.mpr (h c hc)

theorem fmtStr_printUsAscii {n : ℕ} {s : Str} (h : s ∈ rep 1 n printUsAscii) : fmtStr s ∈ field n := by
  have hs : fmtStr s = s := by
    refine fmtStr_of_forall fun c hc => ?_
    rintro rfl
    exact absurd (h.2.2 0 hc) (by decide)
  rw [hs]
  exact mem_add_right _ h

theorem fmtStr_nilvalue (n : ℕ) : fmtStr (str "-") ∈ field n :=
  mem_add_left (by decide : fmtStr (str "-") = [45]) _

/-- A name, or the `-` in the place of an empty one. -/
theorem fmtStr_name {n : ℕ} {s : Str} (h : s ∈ rep 0 n printUsAscii) :
    fmtStr (if s = [] then str "-" else s) ∈ field n := by
  split
  · exact fmtStr_nilvalue n
  · rename_i hs
    exact fmtStr_printUsAscii ⟨List.length_pos_iff.mpr hs, h.2⟩

theorem field_length {n : ℕ} {w : Str} (hn : 1 ≤ n) (h : w ∈ field n) : w.length ≤ n := by
  rcases (Language.mem_add _ _ _).mp h with h | h
  · rw [mem_text.mp h]
    exact hn
  · exact h.2.1

theorem fmtStr_processId (id : UInt64) : fmtStr (str (toString id.toNat)) ∈ procid := by
  refine fmtStr_printUsAscii ⟨length_toString_pos _, ?_, fun c hc => ?_⟩
  · refine length_toString_le (by omega) (lt_of_lt_of_le id.toNat_lt ?_)
    norm_num
  · obtain ⟨hlo, hhi⟩ := digit_toString _ c hc
    exact ⟨UInt8.le_trans (show (33 : UInt8) ≤ 48 by decide) hlo,
      UInt8.le_trans hhi (show (57 : UInt8) ≤ 126 by decide)⟩

theorem fmtZero2_mem {n : ℤ} {lo hi : ℕ} (h : (lo : ℤ) ≤ n ∧ n ≤ hi) (hhi : hi ≤ 99) :
    fmtZero2 n ∈ twoDigits lo hi := by
  obtain ⟨hrep, hvalue⟩ := fmtZero2_spec (n := n) (by omega) (by omega)
  exact ⟨hrep, by omega, by omega⟩

/-- A year of four digits. -/
theorem fmtBlank4_spec {n : ℤ} (h : 1000 ≤ n ∧ n ≤ 9999) :
    fmtBlank4 n ∈ dateFullyear ∧ (value (fmtBlank4 n) : ℤ) = n := by
  have hdigits := digit_toString n.natAbs
  have hvalue := value_toString n.natAbs
  have hle : (str (toString n.natAbs)).length ≤ 4 := length_toString_le (by omega) (by omega)
  have hge : 4 ≤ (str (toString n.natAbs)).length := by
    by_contra hlt
    have hsmall := value_lt hdigits
    have hpow := Nat.pow_le_pow_right (show 0 < 10 by omega)
      (show (str (toString n.natAbs)).length ≤ 3 by omega)
    omega
  have heq : fmtBlank4 n = str (toString n.natAbs) := by
    rw [fmtBlank4, fmtInt_of_nonneg (by omega), Nat.sub_eq_zero_of_le hge]
    rfl
  rw [heq]
  exact ⟨⟨hge, hle, hdigits⟩, by omega⟩

theorem dateText_mem (now : LocalTime) (hyear : 1000 ≤ now.tm.year + 1900 ∧ now.tm.year + 1900 ≤ 9999) :
    dateText now.tm ∈ fullDate := by
  obtain ⟨hy, hyv⟩ := fmtBlank4_spec hyear
  have hmon := now.mon
  have hmday := now.mday
  have hend := endOfMonthDay_le (now.tm.year + 1900) (now.tm.mon + 1)
  obtain ⟨-, hmv⟩ := fmtZero2_spec (n := now.tm.mon + 1) (by omega) (by omega)
  obtain ⟨hd, hdv⟩ := fmtZero2_spec (n := now.tm.mday) (by omega) (by omega)
  refine ⟨_, hy, _, fmtZero2_mem (by omega) (by omega), _, ⟨hd, ?_, ?_⟩, rfl⟩
  · omega
  · rw [hyv, hmv, hdv]
    exact hmday.2

theorem timeText_mem (now : LocalTime) (hsec : now.tm.sec ≤ 59) : timeText now.tm ∈ partialTime := by
  have hh : fmtZero2 now.tm.hour ∈ timeHour := fmtZero2_mem now.hour (by omega)
  have hm : fmtZero2 now.tm.min ∈ timeMinute := fmtZero2_mem now.min (by omega)
  have hs : fmtZero2 now.tm.sec ∈ timeSecond := fmtZero2_mem ⟨now.sec.1, hsec⟩ (by omega)
  have htime := append_cons_mem (b := 58) hh (append_cons_mem (b := 58) hm
    (Language.append_mem_mul hs (nil_mem_opt timeSecfrac)))
  simpa only [partialTime, timeText, mul_assoc, List.append_nil] using htime

theorem mem_msg (w : Str) : w ∈ msg := by
  by_cases h : bom <+: w
  · obtain ⟨t, rfl⟩ := h
    exact mem_add_right _ (Language.append_mem_mul rfl fun _ _ => trivial)
  · have hany : w ∈ msgAny := ⟨fun _ _ => trivial, h⟩
    exact mem_add_left hany _

theorem pri_mem (lev : Level) : str (toString (8 ||| lev.code)) ∈ prival := by
  have hle := pri_le lev
  have hlen : (str (toString (8 ||| lev.code))).length ≤ 3 := length_toString_le (by omega) (by omega)
  refine ⟨⟨length_toString_pos _, hlen, digit_toString _⟩, ?_⟩
  show value _ ≤ 191
  rw [value_toString]
  omega

section Head

variable {b : Backend} (lev : Level) (now : LocalTime) (hfac : b.facility = 8)
  (hhost : fmtStr b.localHostname ∈ hostname) (hname : fmtStr b.processName ∈ appName)
  (hid : fmtStr b.processId ∈ procid) (hmsgid : fmtStr b.msgId ∈ msgid)

include hfac hhost hname hid hmsgid

/-- The head of a packet and any text are a message. -/
theorem headText_mem (hyear : 1000 ≤ now.tm.year + 1900 ∧ now.tm.year + 1900 ≤ 9999)
    (hsec : now.tm.sec ≤ 59) (cut : Str) :
    headText b lev now.tm ++ cut ∈ syslogMsg 1 := by
  have heq : headText b lev now.tm ++ cut = 60 :: (str (toString (8 ||| lev.code)) ++ 62 :: ([49] ++ 32 ::
      ((dateText now.tm ++ 84 :: timeText now.tm) ++ 32 :: (fmtStr b.localHostname ++ 32 ::
        (fmtStr b.processName ++ 32 :: (fmtStr b.processId ++ 32 :: (fmtStr b.msgId ++ 32 ::
          ([45] ++ 32 :: cut)))))))) := by
    rw [headText_eq, hfac]
    simp only [List.cons_append, List.append_assoc, List.nil_append]
  have hversion : [49] ∈ version := Language.append_mem_mul (a := [49]) (b := [])
    ⟨le_rfl, le_rfl, by simp [nonzeroDigit]⟩ ⟨le_rfl, by decide, by simp⟩
  have htime : dateText now.tm ++ 84 :: timeText now.tm ∈ timestamp 1 := by
    refine mem_add_right _ ?_
    rw [fullTime, mul_one, mul_assoc]
    exact append_cons_mem (dateText_mem now hyear) (timeText_mem now hsec)
  have hend : [45] ++ 32 :: cut ∈ structuredData * opt (text [32] * msg) :=
    Language.append_mem_mul (mem_add_left rfl _)
      (mem_opt_of_mem (cons_mem_text_mul.mpr (mem_msg cut)))
  rw [heq, syslogMsg_eq]
  exact cons_mem_text_mul.mpr (append_cons_mem (pri_mem lev) (append_cons_mem hversion
    (append_cons_mem htime (append_cons_mem hhost (append_cons_mem hname (append_cons_mem hid
      (append_cons_mem hmsgid hend)))))))

/-- The head fits into the buffer. -/
theorem length_headText_le : (headText b lev now.tm).length ≤ 2047 := by
  have hpri := (pri_mem lev).1.2.1
  have hdate := length_dateText_le now
  have htime := length_timeText now
  have hh := field_length (by omega) hhost
  have hn := field_length (by omega) hname
  have hi := field_length (by omega) hid
  have hm := field_length (by omega) hmsgid
  rw [headText_eq, hfac]
  simp only [List.length_cons, List.length_append, List.length_nil]
  omega

end Head

/-- Apart from the offset the packets are well formed, and a long message is cut inside of the message. -/
theorem send_withoutOffset {hostName processName : Str} (processId : UInt64) (lev : Level) {now : LocalTime}
    {message : Str} (hhost : hostName ∈ rep 0 255 printUsAscii) (hname : processName ∈ rep 0 48 printUsAscii)
    (hyear : 1000 ≤ now.tm.year + 1900 ∧ now.tm.year + 1900 ≤ 9999) (hsec : now.tm.sec ≤ 59)
    (hmessage : ∀ c ∈ message, c ≠ 0) (hint : message.length + 2047 ≤ 2147483647) :
    WellFormed 1 (setTargetAddress hostName processName processId) lev now message := by
  have hh : fmtStr (setTargetAddress hostName processName processId).localHostname ∈ hostname :=
    fmtStr_name hhost
  have hn : fmtStr (setTargetAddress hostName processName processId).processName ∈ appName :=
    fmtStr_name hname
  have hi : fmtStr (setTargetAddress hostName processName processId).processId ∈ procid :=
    fmtStr_processId processId
  have hm : fmtStr (setTargetAddress hostName processName processId).msgId ∈ msgid := fmtStr_nilvalue 32
  have hlen := length_headText_le lev now rfl hh hn hi hm
  have hmem := headText_mem lev now rfl hh hn hi hm hyear hsec
  generalize setTargetAddress hostName processName processId = b at *
  refine ⟨headText b lev now.tm ++ message.take (2047 - (headText b lev now.tm).length), ?_, hmem _, _, rfl, ?_⟩
  · rw [send_eq, fmtStr_of_forall hmessage, if_pos, List.take_append, List.take_of_length_le hlen]
    rw [List.length_append]
    omega
  · intro hcut
    rw [List.length_append, List.length_take]
    omega

end Jkit.Common.Syslog
