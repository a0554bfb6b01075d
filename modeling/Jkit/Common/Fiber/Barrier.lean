import Jkit.Lib.Run
import Jkit.Lib.Monitor
import Mathlib.Algebra.BigOperators.Option

/-! # `wait_all_simple_c`

The caller launches one fiber for each function and then waits at a barrier for `count + 1`; a fiber runs its
function and waits at the barrier too. The last one to arrive lets all the others go, as Boost.Fiber
documents it. `none` is the caller, `some i` the fiber of the function `i`; `returned` is the history of
the functions that have returned.

The main result is `allSimple_complete`: the call returns when all functions have returned and not
before, and nobody is left at the barrier. -/

namespace Jkit.Common.Fiber.Barrier

open Jkit.Lib Jkit.Lib.Run

/-! ### The model -/

inductive Stage
  | idle
  | run
  | arrive
  | wait
  | out
deriving DecidableEq

structure St where
  waiting : List (Option ℕ)
  launched : ℕ
  stage : Option ℕ → Stage
  returned : List ℕ

/-- The documented behaviour of `boost::fibers::barrier::wait()` for a barrier for `initial`: the last
one to arrive does not wait. Its body is not in the repository. -/
def barrierWait (initial : ℕ) (s : St) (a : Option ℕ) : St :=
  if s.waiting.length + 1 = initial then
    { s with waiting := [], stage := Function.update s.stage a .out }
  else { s with waiting := s.waiting ++ [a], stage := Function.update s.stage a .wait }

/-- The call for `n` functions. -/
def sys (n : ℕ) : Sys St (Option ℕ) where
  init :=
    { waiting := [], launched := 0, returned := []
      stage := fun
        | none => .run
        | some _ => .idle }
  step s a :=
    match s.stage a, a with
    | .run, none =>
      if s.launched < n then
        some { s with
          launched := s.launched + 1, stage := Function.update s.stage (some s.launched) .run }
      else some { s with stage := Function.update s.stage none .arrive }
    | .run, some i =>
      some { s with
        returned := s.returned ++ [i], stage := Function.update s.stage (some i) .arrive }
    | .arrive, a => some (barrierWait (n + 1) s a)
    | .wait, a =>
      if a ∈ s.waiting then none else some { s with stage := Function.update s.stage a .out }
    | _, _ => none

variable {n : ℕ} {s s' : St} {a : Option ℕ}

/-! ### What a step can do -/

inductive Move (n : ℕ) (s : St) : Option ℕ → St → Prop
  | launch (hc : s.stage none = .run) (h : s.launched < n) :
    Move n s none
      { s with launched := s.launched + 1, stage := Function.update s.stage (some s.launched) .run }
  | launched (hc : s.stage none = .run) (h : n ≤ s.launched) :
    Move n s none { s with stage := Function.update s.stage none .arrive }
  | returned (i : ℕ) (hc : s.stage (some i) = .run) :
    Move n s (some i)
      { s with returned := s.returned ++ [i], stage := Function.update s.stage (some i) .arrive }
  | last (a : Option ℕ) (hc : s.stage a = .arrive) (h : s.waiting.length = n) :
    Move n s a { s with waiting := [], stage := Function.update s.stage a .out }
  | arrive (a : Option ℕ) (hc : s.stage a = .arrive) (h : s.waiting.length ≠ n) :
    Move n s a { s with waiting := s.waiting ++ [a], stage := Function.update s.stage a .wait }
  | leave (a : Option ℕ) (hc : s.stage a = .wait) (h : a ∉ s.waiting) :
    Move n s a { s with stage := Function.update s.stage a .out }

theorem step_move (h : (sys n).step s a = some s') : Move n s a s' := by
  simp only [sys] at h
  split at h
  · rename_i hc
    split_ifs at h with hl
    · obtain rfl := Option.some.inj h
      exact .launch hc hl
    · obtain rfl := Option.some.inj h
      exact .launched hc (by omega)
  · rename_i i hc
    obtain rfl := Option.some.inj h
    exact .returned i hc
  · rename_i hc
    obtain rfl := Option.some.inj h
    unfold barrierWait
    split_ifs with hl
    · exact .last _ hc (by omega)
    · exact .arrive _ hc (by omega)
  · rename_i hc
    split_ifs at h with hw
    obtain rfl := Option.some.inj h
    exact .leave _ hc hw
  · simp at h

/-! ### The invariant -/

/-- The caller and the fibers of the functions. -/
def All (n : ℕ) : Finset (Option ℕ) := (Finset.range n).insertNone

structure Inv (n : ℕ) (s : St) : Prop where
  le : s.launched ≤ n
  idle : ∀ a, s.stage a = .idle ↔ ∃ i, a = some i ∧ s.launched ≤ i
  past : s.stage none ≠ .run → s.launched = n
  returned : ∀ i, i ∈ s.returned ↔ s.stage (some i) = .arrive ∨ s.stage (some i) = .wait ∨
    s.stage (some i) = .out
  nodup : s.waiting.Nodup
  waiting : ∀ a ∈ s.waiting, s.stage a = .wait
  full : s.waiting.length ≤ n
  -- the barrier lets nobody go until all have arrived
  gone : ∀ a, s.stage a = .out ∨ s.stage a = .wait ∧ a ∉ s.waiting →
    ∀ b ∈ All n, s.stage b = .wait ∧ b ∉ s.waiting ∨ s.stage b = .out

theorem inv_init : Inv n (sys n).init where
  le := Nat.zero_le _
  idle a := by cases a <;> simp [sys]
  past h := absurd rfl h
  returned i := by simp [sys]
  nodup := List.nodup_nil
  waiting a h := by simp [sys] at h
  full := Nat.zero_le _
  gone a h := by cases a <;> simp [sys] at h

theorem Inv.mem (hi : Inv n s) (h : s.stage a ≠ .idle) : a ∈ All n := by
  rcases a with _ | i
  · simp [All]
  · have hnot : ¬s.launched ≤ i := fun hle => h ((hi.idle _).mpr ⟨i, rfl, hle⟩)
    have := hi.le
    simp [All]
    omega

/-- Where `n` wait and another one arrives, nobody is missing. -/
theorem Inv.all_waiting (hi : Inv n s) (hc : s.stage a = .arrive) (h : s.waiting.length = n) {b : Option ℕ}
    (hb : b ∈ All n) (hne : b ≠ a) : b ∈ s.waiting := by
  by_contra hno
  have hnew : a ∉ s.waiting := fun hmem => by simp [hi.waiting a hmem] at hc
  have hsub : (b :: a :: s.waiting).toFinset ⊆ All n := by
    intro c hmem
    simp only [List.toFinset_cons, Finset.mem_insert, List.mem_toFinset] at hmem
    rcases hmem with rfl | rfl | hmem
    · exact hb
    · exact hi.mem (by simp [hc])
    · exact hi.mem (by simp [hi.waiting c hmem])
  have hcard := Finset.card_le_card hsub
  rw [List.toFinset_card_of_nodup (by simp [hne, hno, hnew, hi.nodup])] at hcard
  simp [All] at hcard
  omega

/-- An agent that has not come to the barrier yet moves: nobody has been let go. -/
theorem Inv.early (hi : Inv n s) (hc : s.stage a ≠ .wait ∧ s.stage a ≠ .out) (ha : a ∈ All n) :
    ∀ b, ¬(s.stage b = .out ∨ s.stage b = .wait ∧ b ∉ s.waiting) := by
  intro b hb
  rcases hi.gone b hb a ha with h | h
  · exact hc.1 h.1
  · exact hc.2 h

theorem Inv.step (hi : Inv n s) (h : Move n s a s') : Inv n s' := by
  have ⟨hle, hidle, hpast, hret, hnd, hwait, hfull, hgone⟩ := hi
  cases h with
  | launch hc hl =>
    have hnone := hi.early (a := none) (by simp [hc]) (hi.mem (by simp [hc]))
    refine ⟨hl, ?_, ?_, ?_, hnd, ?_, hfull, ?_⟩
    · intro b
      have := hidle b
      rcases b with _ | i
      · grind [Function.update_apply]
      · grind [Function.update_apply]
    · grind [Function.update_apply]
    · intro i
      have := hret i
      grind [Function.update_apply]
    · intro b hb
      have := hwait b hb
      grind [Function.update_apply]
    · intro b hb
      exact absurd (by grind [Function.update_apply]) (hnone b)
  | launched hc hl =>
    have hnone := hi.early (a := none) (by simp [hc]) (hi.mem (by simp [hc]))
    refine ⟨hle, ?_, fun _ => le_antisymm hle hl, ?_, hnd, ?_, hfull, ?_⟩
    · intro b
      have := hidle b
      grind [Function.update_apply]
    · intro i
      have := hret i
      grind [Function.update_apply]
    · intro b hb
      have := hwait b hb
      grind [Function.update_apply]
    · intro b hb
      exact absurd (by grind [Function.update_apply]) (hnone b)
  | returned i hc =>
    have hnone := hi.early (a := some i) (by simp [hc]) (hi.mem (by simp [hc]))
    refine ⟨hle, ?_, ?_, ?_, hnd, ?_, hfull, ?_⟩
    · intro b
      have := hidle b
      grind [Function.update_apply]
    · grind [Function.update_apply]
    · intro j
      have := hret j
      grind [Function.update_apply]
    · intro b hb
      have := hwait b hb
      grind [Function.update_apply]
    · intro b hb
      exact absurd (by grind [Function.update_apply]) (hnone b)
  | last _ hc hl =>
    refine ⟨hle, ?_, ?_, ?_, List.nodup_nil, by simp, by simp, ?_⟩
    · intro b
      have := hidle b
      grind [Function.update_apply]
    · grind [Function.update_apply]
    · intro j
      have := hret j
      grind [Function.update_apply]
    · intro _ _ b hb
      by_cases hne : b = a
      · subst hne
        exact Or.inr (Function.update_self ..)
      · have := hwait b (hi.all_waiting hc hl hb hne)
        exact Or.inl ⟨by simpa [hne] using this, by simp⟩
  | arrive _ hc hl =>
    have hnone := hi.early (a := a) (by simp [hc]) (hi.mem (by simp [hc]))
    have hnew : a ∉ s.waiting := fun hmem => by simp [hwait a hmem] at hc
    refine ⟨hle, ?_, ?_, ?_, ?_, ?_, ?_, ?_⟩
    · intro b
      have := hidle b
      grind [Function.update_apply]
    · grind [Function.update_apply]
    · intro j
      have := hret j
      grind [Function.update_apply]
    · grind
    · intro b hb
      have := hwait b
      grind [Function.update_apply]
    · simp only [List.length_append, List.length_singleton]
      omega
    · intro b hb
      exact absurd (by grind [Function.update_apply]) (hnone b)
  | leave _ hc hl =>
    have hall := hgone a (Or.inr ⟨hc, hl⟩)
    refine ⟨hle, ?_, ?_, ?_, hnd, ?_, hfull, ?_⟩
    · intro b
      have := hidle b
      grind [Function.update_apply]
    · grind [Function.update_apply]
    · intro j
      have := hret j
      grind [Function.update_apply]
    · intro b hb
      have := hwait b hb
      grind [Function.update_apply]
    · intro _ _ b hb
      have := hall b hb
      grind [Function.update_apply]

theorem reach_barrierInv (h : (sys n).Reach s) : Inv n s :=
  Sys.reach_inv inv_init (fun _ _ _ hi hstep => hi.step (step_move hstep)) h

/-! ### Every run comes to a stop -/

def rank : Stage → ℕ
  | .idle => 4
  | .run => 3
  | .arrive => 2
  | .wait => 1
  | .out => 0

/-- The steps that are left. -/
def measure (n : ℕ) (s : St) : ℕ := ∑ a ∈ All n, rank (s.stage a)

theorem measure_lt (hi : Inv n s) (h : Move n s a s') : measure n s' < measure n s := by
  cases h with
  | launch hc hl =>
    have hst : s.stage (some s.launched) = .idle := (hi.idle _).mpr ⟨_, rfl, le_rfl⟩
    refine Monitor.sum_rank_lt (by simpa [All] using hl) ?_ fun _ => le_rfl
    simp [hst, rank]
  | launched hc hl =>
    exact Monitor.sum_rank_lt (hi.mem (by simp [hc])) (by simp [hc, rank]) fun _ => le_rfl
  | returned i hc =>
    exact Monitor.sum_rank_lt (hi.mem (by simp [hc])) (by simp [hc, rank]) fun _ => le_rfl
  | last _ hc hl =>
    exact Monitor.sum_rank_lt (hi.mem (by simp [hc])) (by simp [hc, rank]) fun _ => le_rfl
  | arrive _ hc hl =>
    exact Monitor.sum_rank_lt (hi.mem (by simp [hc])) (by simp [hc, rank]) fun _ => le_rfl
  | leave _ hc hl =>
    exact Monitor.sum_rank_lt (hi.mem (by simp [hc])) (by simp [hc, rank]) fun _ => le_rfl

theorem measure_init : measure n (sys n).init = 4 * n + 3 := by
  unfold measure All
  rw [Finset.sum_insertNone]
  have hfiber : ∀ i ∈ Finset.range n, rank ((sys n).init.stage (some i)) = 4 := fun _ _ => rfl
  rw [Finset.sum_congr rfl hfiber]
  simp [sys, rank]
  omega

/-! ### The result -/

/-- Who can not move is not launched, waits or has left. -/
theorem stage_of_stuck (h : (sys n).Stuck s) (a : Option ℕ) :
    s.stage a = .idle ∨ s.stage a = .wait ∧ a ∈ s.waiting ∨ s.stage a = .out := by
  have ha := h a
  cases hst : s.stage a with
  | idle => exact Or.inl rfl
  | run =>
    rcases a with _ | i
    · simp only [sys, hst] at ha
      split_ifs at ha
    · simp [sys, hst] at ha
  | arrive => simp [sys, hst] at ha
  | wait =>
    by_cases hw : a ∈ s.waiting
    · exact Or.inr (Or.inl ⟨rfl, hw⟩)
    · simp [sys, hst, hw] at ha
  | out => exact Or.inr (Or.inr rfl)

/-- Where nothing can move, everybody has left the barrier. -/
theorem out_of_stuck (hi : Inv n s) (h : (sys n).Stuck s) : ∀ b ∈ All n, s.stage b = .out := by
  have hlaunched : s.launched = n := by
    apply hi.past
    rcases stage_of_stuck h none with hst | ⟨hst, -⟩ | hst <;> simp [hst]
  have hcase : ∀ b ∈ All n, b ∈ s.waiting ∨ s.stage b = .out := by
    intro b hb
    rcases stage_of_stuck h b with hst | ⟨-, hw⟩ | hst
    · obtain ⟨i, rfl, hle⟩ := (hi.idle b).mp hst
      simp [All] at hb
      omega
    · exact Or.inl hw
    · exact Or.inr hst
  by_cases hout : ∃ a, s.stage a = .out
  · obtain ⟨a, ha⟩ := hout
    intro b hb
    rcases hi.gone a (Or.inl ha) b hb with ⟨-, hno⟩ | hst
    · exact (hcase b hb).resolve_left hno
    · exact hst
  · -- all `n + 1` would wait
    have hsub : All n ⊆ s.waiting.toFinset := by
      intro b hb
      exact List.mem_toFinset.mpr ((hcase b hb).resolve_right fun hst => hout ⟨b, hst⟩)
    have hcard := (Finset.card_le_card hsub).trans (List.toFinset_card_le s.waiting)
    have hfull := hi.full
    simp [All] at hcard
    omega

/-- **`wait_all_simple_c`**, in any order of the steps and for any number of functions: no run goes on for
ever; when somebody has left the barrier, the caller or a fiber, every function has returned; and
where nothing can move the call has returned and every fiber has finished. -/
theorem allSimple_complete (n : ℕ) :
    (∀ es s, (sys n).exec es = some s → es.length ≤ 4 * n + 3) ∧
      (∀ s, (sys n).Reach s → ∀ a, s.stage a = .out → ∀ i < n, i ∈ s.returned) ∧
      ∀ s, (sys n).Reach s → (sys n).Stuck s →
        s.stage none = .out ∧ ∀ i < n, s.stage (some i) = .out := by
  have hdown : ∀ s a s', Inv n s → (sys n).step s a = some s' → Inv n s' ∧ measure n s' < measure n s :=
    fun _ _ _ hi hstep => ⟨hi.step (step_move hstep), measure_lt hi (step_move hstep)⟩
  refine ⟨?_, ?_, ?_⟩
  · intro es s hr
    rw [← measure_init]
    exact Sys.length_le_measure hdown hr inv_init
  · intro s hr a ha i hlt
    have hi := reach_barrierInv hr
    rw [hi.returned]
    rcases hi.gone a (Or.inl ha) (some i) (by simpa [All] using hlt) with ⟨hst, -⟩ | hst
    · exact Or.inr (Or.inl hst)
    · exact Or.inr (Or.inr hst)
  · intro s hr hstuck
    have hout := out_of_stuck (reach_barrierInv hr) hstuck
    exact ⟨hout none (by simp [All]), fun i hlt => hout (some i) (by simpa [All] using hlt)⟩

end Jkit.Common.Fiber.Barrier
