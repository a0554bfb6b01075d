import Mathlib.Data.List.TakeWhile
import Mathlib.Tactic.SplitIfs

/-! # Scanning a text

A scanner reads characters while a test holds and stops at the first one that fails it. A part that is
introduced by a delimiter may be missing (`optText`), and `readOpt` reads it back (`readOpt_optText`). -/

namespace Jkit.Lib.Scan

variable {α : Type*} {p : α → Bool}

/-- The test stops before the first character of the text. -/
def Stops (p : α → Bool) (r : List α) : Prop := ∀ c ∈ r.head?, p c = false

theorem stops_nil : Stops p [] := by
  intro c hc
  simp at hc

theorem stops_cons {c : α} {r : List α} (h : p c = false) : Stops p (c :: r) := by
  intro d hd
  rw [List.head?_cons, Option.mem_some_iff] at hd
  rw [← hd]
  exact h

theorem stops_dropWhile (l : List α) : Stops p (l.dropWhile p) := by
  induction l with
  | nil => exact stops_nil
  | cons c l ih =>
    rw [List.dropWhile_cons]
    split_ifs with hc
    · exact ih
    · exact stops_cons (by simpa using hc)

/-- A scan ends where the test stops. -/
theorem scan_append {w r : List α} (hw : ∀ c ∈ w, p c = true) (hr : Stops p r) :
    (w ++ r).takeWhile p = w ∧ (w ++ r).dropWhile p = r := by
  induction w with
  | nil =>
    rcases r with - | ⟨c, r⟩
    · exact ⟨rfl, rfl⟩
    · have hc := hr c rfl
      simp [hc]
  | cons c w ih =>
    have hc := hw c List.mem_cons_self
    obtain ⟨htake, hdrop⟩ := ih fun d hd => hw d (List.mem_cons_of_mem _ hd)
    simp [hc, htake, hdrop]

/-- What stands behind a text does not change its scan if the test stops there. -/
theorem scan_stops {r : List α} (hr : Stops p r) (t : List α) :
    (t ++ r).takeWhile p = t.takeWhile p ∧ (t ++ r).dropWhile p = t.dropWhile p ++ r := by
  induction t with
  | nil => exact scan_append (w := []) (by simp) hr
  | cons c t ih =>
    by_cases hc : p c = true
    · simp [hc, ih.1, ih.2]
    · simp [hc]

/-- Every text is scanned up to some place. -/
theorem exists_scan (p : α → Bool) (l : List α) :
    ∃ w r, l = w ++ r ∧ (∀ c ∈ w, p c = true) ∧ Stops p r :=
  ⟨l.takeWhile p, l.dropWhile p, List.takeWhile_append_dropWhile.symm,
    fun _ hc => List.mem_takeWhile_imp hc, stops_dropWhile l⟩

variable [DecidableEq α]

/-- The text behind a character that is expected. -/
def skip (b : α) : List α → Option (List α)
  | [] => none
  | c :: r => if c = b then some r else none

theorem skip_eq_some {b : α} {l r : List α} : skip b l = some r ↔ l = b :: r := by
  rcases l with - | ⟨c, l⟩
  · simp [skip]
  · rw [skip]
    split_ifs with hc
    · simp [hc]
    · simp [hc]

theorem skip_eq_none {b : α} {l : List α} : skip b l = none ↔ l.head? ≠ some b := by
  rcases l with - | ⟨c, l⟩
  · simp [skip]
  · rw [skip]
    split_ifs with hc
    · simp [hc]
    · simp [hc]

theorem skip_cons (b : α) (r : List α) : skip b (b :: r) = some r := skip_eq_some.mpr rfl

/-- A part that is introduced by a delimiter. -/
def optText (b : α) : Option (List α) → List α
  | none => []
  | some w => b :: w

/-- Reads such a part; a missing one is read as the empty text. -/
def readOpt (b : α) (p : α → Bool) (l : List α) : List α × List α :=
  match skip b l with
  | some r => (r.takeWhile p, r.dropWhile p)
  | none => ([], l)

theorem readOpt_optText {b : α} {o : Option (List α)} {r : List α} (ho : ∀ w ∈ o, ∀ c ∈ w, p c = true)
    (hr : o ≠ none → Stops p r) (hb : o = none → r.head? ≠ some b) :
    readOpt b p (optText b o ++ r) = (o.getD [], r) := by
  rcases o with - | w
  · rw [readOpt, optText, List.nil_append, skip_eq_none.mpr (hb rfl)]
    rfl
  · obtain ⟨htake, hdrop⟩ := scan_append (ho w rfl) (hr (by simp))
    rw [readOpt, optText, List.cons_append, skip_cons]
    simp only [htake, hdrop, Option.getD_some]

/-- A text that is empty or begins with the delimiter is such a part. -/
theorem exists_optText {b : α} {r : List α} (h : Stops (· != b) r) : ∃ o, r = optText b o := by
  rcases r with - | ⟨c, r⟩
  · exact ⟨none, rfl⟩
  · have hc : c = b := by simpa using h c rfl
    exact ⟨some r, by rw [hc, optText]⟩

end Jkit.Lib.Scan
