import Jkit.Lib.Monitor
import Jkit.Common.Fiber.Results

/-! # `wait_all_members`

Each function runs in a fiber of its own through `async`, and the results are fetched from the futures in
the order of the arguments: the first `get()` that throws ends the call. The calls of `async` are arguments
of one call, so their order is not fixed either.

The main result is `members_complete`: what the call ends with does not depend on the order of the steps
at all. -/

namespace Jkit.Common.Fiber.Members

open Jkit.Lib Jkit.Lib.Run Jkit.Common.Fiber.WaitStuff Jkit.Common.Fiber.WaitAll
open Jkit.Common.Fiber.Results

variable {V E : Type}

/-! ### The model -/

/-- `ready` is a fiber that has finished, with its outcome in the future. -/
inductive Stage
  | idle
  | run
  | ready
deriving DecidableEq

/-- The caller evaluates the arguments, fetches the result `i` behind the values before it, or is done. -/
inductive Caller (V E : Type)
  | launch
  | get (i : ℕ) (vs : List V)
  | done (r : Result V E)

structure St (V E : Type) where
  fiber : ℕ → Stage
  caller : Caller V E

/-- A call of `async`, a step of `wait_all_members_get`, or a fiber that finishes. -/
inductive Ev
  | async (i : ℕ)
  | caller
  | fiber (i : ℕ)
deriving DecidableEq

/-- `Result{ futures.get() ... }`. -/
def getStep (functions : List (Outcome V E)) (s : St V E) (i : ℕ) (vs : List V) : Option (St V E) :=
  match functions[i]? with
  | none => some { s with caller := .done (.values vs) }
  | some x =>
    if s.fiber i = .ready then
      match x with
      | .value v => some { s with caller := .get (i + 1) (vs ++ [v]) }
      | .error e => some { s with caller := .done (.error e) }
    else none

def sys (functions : List (Outcome V E)) : Sys (St V E) Ev where
  init := { fiber := fun _ => .idle, caller := .launch }
  step s
    | .async i =>
      match s.caller with
      | .launch =>
        if i < functions.length ∧ s.fiber i = .idle then
          some { s with fiber := Function.update s.fiber i .run }
        else none
      | _ => none
    | .caller =>
      match s.caller with
      | .launch =>
        if ∀ i < functions.length, s.fiber i ≠ .idle then some { s with caller := .get 0 [] } else none
      | .get i vs => getStep functions s i vs
      | .done _ => none
    | .fiber i =>
      if s.fiber i = .run then some { s with fiber := Function.update s.fiber i .ready } else none

variable {functions : List (Outcome V E)} {s s' : St V E} {e : Ev}

/-! ### What a step can do -/

inductive Move (functions : List (Outcome V E)) (s : St V E) : Ev → St V E → Prop
  | async (i : ℕ) (hc : s.caller = .launch) (hi : i < functions.length) (hf : s.fiber i = .idle) :
    Move functions s (.async i) { s with fiber := Function.update s.fiber i .run }
  | launched (hc : s.caller = .launch) (h : ∀ i < functions.length, s.fiber i ≠ .idle) :
    Move functions s .caller { s with caller := .get 0 [] }
  | value (i : ℕ) (vs : List V) (v : V) (hc : s.caller = .get i vs) (hx : functions[i]? = some (.value v))
    (hf : s.fiber i = .ready) : Move functions s .caller { s with caller := .get (i + 1) (vs ++ [v]) }
  | throws (i : ℕ) (vs : List V) (x : E) (hc : s.caller = .get i vs) (hx : functions[i]? = some (.error x))
    (hf : s.fiber i = .ready) : Move functions s .caller { s with caller := .done (.error x) }
  | leave (i : ℕ) (vs : List V) (hc : s.caller = .get i vs) (hx : functions[i]? = none) :
    Move functions s .caller { s with caller := .done (.values vs) }
  | finish (i : ℕ) (hf : s.fiber i = .run) :
    Move functions s (.fiber i) { s with fiber := Function.update s.fiber i .ready }

theorem step_move (h : (sys functions).step s e = some s') : Move functions s e s' := by
  rcases e with i | _ | i
  · simp only [sys] at h
    split at h
    · rename_i hc
      split_ifs at h with hl
      obtain rfl := Option.some.inj h
      exact .async i hc hl.1 hl.2
    · simp at h
  · simp only [sys] at h
    split at h
    · rename_i hc
      split_ifs at h with hl
      obtain rfl := Option.some.inj h
      exact .launched hc hl
    · rename_i i vs hc
      unfold getStep at h
      split at h
      · rename_i hx
        obtain rfl := Option.some.inj h
        exact .leave i vs hc hx
      · rename_i x hx
        split_ifs at h with hf
        rcases x with v | e
        · obtain rfl := Option.some.inj h
          exact .value i vs v hc hx hf
        · obtain rfl := Option.some.inj h
          exact .throws i vs e hc hx hf
    · simp at h
  · simp only [sys] at h
    split_ifs at h with hf
    obtain rfl := Option.some.inj h
    exact .finish i hf

/-! ### The invariant -/

/-- The first `i` functions have returned these values. -/
def Fetched (functions : List (Outcome V E)) (s : St V E) (i : ℕ) (vs : List V) : Prop :=
  i ≤ functions.length ∧ functions.take i = vs.map .value ∧ ∀ j < i, s.fiber j = .ready

/-- What the call ends with: all values, or the exception behind the values that have been fetched. -/
def Ended (functions : List (Outcome V E)) (s : St V E) (r : Result V E) : Prop :=
  (∃ vs, r = .values vs ∧ Fetched functions s functions.length vs) ∨
    ∃ i vs x, r = .error x ∧ functions[i]? = some (.error x) ∧ Fetched functions s i vs ∧
      s.fiber i = .ready

structure Inv (functions : List (Outcome V E)) (s : St V E) : Prop where
  lt : ∀ i, s.fiber i ≠ .idle → i < functions.length
  past : s.caller ≠ .launch → ∀ i < functions.length, s.fiber i ≠ .idle
  got : ∀ i vs, s.caller = .get i vs → Fetched functions s i vs
  done : ∀ r, s.caller = .done r → Ended functions s r

theorem inv_init : Inv functions (sys functions).init where
  lt i h := absurd rfl h
  past h := absurd rfl h
  got i vs h := by simp [sys] at h
  done r h := by simp [sys] at h

/-- A fiber that goes on keeps what has been fetched. -/
theorem Fetched.update {i k : ℕ} {vs : List V} {st : Stage} {c : Caller V E}
    (h : Fetched functions s i vs) (hk : s.fiber k ≠ .ready) :
    Fetched functions { fiber := Function.update s.fiber k st, caller := c } i vs := by
  obtain ⟨hle, htake, hready⟩ := h
  refine ⟨hle, htake, ?_⟩
  intro j hj
  have hne : j ≠ k := by
    rintro rfl
    exact hk (hready j hj)
  simpa [hne] using hready j hj

theorem Ended.update {k : ℕ} {r : Result V E} {st : Stage} {c : Caller V E}
    (h : Ended functions s r) (hk : s.fiber k ≠ .ready) :
    Ended functions { fiber := Function.update s.fiber k st, caller := c } r := by
  rcases h with ⟨vs, hr, hf⟩ | ⟨i, vs, x, hr, hx, hf, hready⟩
  · exact Or.inl ⟨vs, hr, hf.update hk⟩
  · refine Or.inr ⟨i, vs, x, hr, hx, hf.update hk, ?_⟩
    have hne : i ≠ k := by
      rintro rfl
      exact hk hready
    simpa [hne] using hready

theorem Inv.step (hi : Inv functions s) (h : Move functions s e s') : Inv functions s' := by
  obtain ⟨hlt, hpast, hgot, hdone⟩ := hi
  cases h with
  | async i hc hl hf =>
    refine ⟨?_, ?_, ?_, ?_⟩
    · intro j hj
      by_cases hne : j = i
      · rw [hne]
        exact hl
      · exact hlt j (by simpa [hne] using hj)
    · simp [hc]
    · simp [hc]
    · simp [hc]
  | launched hc hl =>
    refine ⟨hlt, fun _ => hl, ?_, by simp⟩
    intro i vs hg
    obtain ⟨rfl, rfl⟩ := Caller.get.inj hg
    exact ⟨Nat.zero_le _, rfl, by simp⟩
  | value i vs v hc hx hf =>
    obtain ⟨hle, htake, hready⟩ := hgot i vs hc
    refine ⟨hlt, fun _ => hpast (by simp [hc]), ?_, by simp⟩
    intro i' vs' hg
    obtain ⟨rfl, rfl⟩ := Caller.get.inj hg
    refine ⟨(List.getElem?_eq_some_iff.mp hx).1, ?_, ?_⟩
    · rw [List.take_add_one, hx, htake]
      simp
    · intro j hj
      rcases Nat.lt_succ_iff_lt_or_eq.mp hj with hlt' | rfl
      · exact hready j hlt'
      · exact hf
  | throws i vs x hc hx hf =>
    refine ⟨hlt, fun _ => hpast (by simp [hc]), by simp, ?_⟩
    intro r hr
    obtain rfl := Caller.done.inj hr
    exact Or.inr ⟨i, vs, x, rfl, hx, hgot i vs hc, hf⟩
  | leave i vs hc hx =>
    refine ⟨hlt, fun _ => hpast (by simp [hc]), by simp, ?_⟩
    intro r hr
    obtain rfl := Caller.done.inj hr
    have hget := hgot i vs hc
    have hlen : i = functions.length := le_antisymm hget.1 (List.getElem?_eq_none_iff.mp hx)
    exact Or.inl ⟨vs, rfl, hlen ▸ hget⟩
  | finish i hf =>
    have hne : s.fiber i ≠ .ready := by simp [hf]
    refine ⟨?_, ?_, ?_, ?_⟩
    · intro j hj
      by_cases hji : j = i
      · rw [hji]
        exact hlt i (by simp [hf])
      · exact hlt j (by simpa [hji] using hj)
    · intro hc j hj
      by_cases hji : j = i
      · simp [hji]
      · simpa [hji] using hpast hc j hj
    · intro j vs hc
      exact (hgot j vs hc).update hne
    · intro r hc
      exact (hdone r hc).update hne

theorem reach_membersInv (h : (sys functions).Reach s) : Inv functions s :=
  Sys.reach_inv inv_init (fun _ _ _ hi hstep => hi.step (step_move hstep)) h

/-! ### Every run comes to a stop -/

def rank : Stage → ℕ
  | .idle => 2
  | .run => 1
  | .ready => 0

/-- The calls of `get()` that are left, and two steps around them. -/
def callerRank (n : ℕ) : Caller V E → ℕ
  | .launch => n + 2
  | .get i _ => n + 1 - i
  | .done _ => 0

/-- The steps that are left. -/
def measure (functions : List (Outcome V E)) (s : St V E) : ℕ :=
  (∑ i ∈ Finset.range functions.length, rank (s.fiber i)) + callerRank functions.length s.caller

theorem measure_lt (hi : Inv functions s) (h : Move functions s e s') :
    measure functions s' < measure functions s := by
  unfold measure
  cases h with
  | async i hc hl hf =>
    have hsum : ∑ j ∈ Finset.range functions.length, rank (Function.update s.fiber i .run j) <
        ∑ j ∈ Finset.range functions.length, rank (s.fiber j) :=
      Monitor.sum_rank_lt (Finset.mem_range.mpr hl) (by simp [hf, rank]) fun _ => le_rfl
    exact Nat.add_lt_add_right hsum _
  | launched hc hl => simp [hc, callerRank]
  | value i vs v hc hx hf =>
    have hlt := (List.getElem?_eq_some_iff.mp hx).1
    simp only [hc, callerRank]
    omega
  | throws i vs x hc hx hf =>
    have hlt := (List.getElem?_eq_some_iff.mp hx).1
    simp only [hc, callerRank]
    omega
  | leave i vs hc hx =>
    have hle := (hi.got i vs hc).1
    simp only [hc, callerRank]
    omega
  | finish i hf =>
    have hlt := hi.lt i (by simp [hf])
    have hsum : ∑ j ∈ Finset.range functions.length, rank (Function.update s.fiber i .ready j) <
        ∑ j ∈ Finset.range functions.length, rank (s.fiber j) :=
      Monitor.sum_rank_lt (Finset.mem_range.mpr hlt) (by simp [hf, rank]) fun _ => le_rfl
    exact Nat.add_lt_add_right hsum _

/-- Where nothing can move, the call has ended. -/
theorem done_of_stuck (hi : Inv functions s) (h : (sys functions).Stuck s) : ∃ r, s.caller = .done r := by
  have hc := h .caller
  have hready : ∀ i, s.fiber i ≠ .idle → s.fiber i = .ready := by
    intro i hne
    have hf := h (.fiber i)
    cases hst : s.fiber i with
    | idle => exact absurd hst hne
    | run => simp [sys, hst] at hf
    | ready => rfl
  cases hcaller : s.caller with
  | launch =>
    simp only [sys, hcaller] at hc
    split_ifs at hc with hall
    obtain ⟨i, hi⟩ := not_forall.mp hall
    have hasync := h (.async i)
    simp_all [sys]
  | get i vs =>
    simp only [sys, hcaller, getStep] at hc
    split at hc
    · simp at hc
    · rename_i x hx
      have hlt := (List.getElem?_eq_some_iff.mp hx).1
      have hnot := hready i (hi.past (by simp [hcaller]) i hlt)
      cases x <;> simp [hnot] at hc
  | done r => exact ⟨r, rfl⟩

/-! ### The result -/

theorem undecided_values (vs : List V) :
    Undecided .allUntilError (vs.map (Outcome.value : V → Outcome V E)) := by
  intro x hx
  obtain ⟨v, -, rfl⟩ := List.mem_map.mp hx
  rfl

theorem filterMap_value_values (vs : List V) :
    (vs.map (Outcome.value : V → Outcome V E)).filterMap Outcome.value? = vs := by
  rw [List.filterMap_map]
  exact List.filterMap_some

/-- A call that has ended agrees with the loop over the arguments in their order. -/
theorem Ended.sequential {r : Result V E} (h : Ended functions s r) :
    Results.sequential .allUntilError functions = some r := by
  rcases h with ⟨vs, rfl, -, htake, -⟩ | ⟨i, vs, x, rfl, hx, ⟨-, htake, -⟩, -⟩
  · rw [List.take_length] at htake
    rw [htake]
    have hno := (undecided_values (E := E) vs).no_error (Or.inr rfl)
    simp only [Results.sequential, hno, filterMap_value_values]
  · have hsplit : functions = vs.map .value ++ .error x :: functions.drop (i + 1) := by
      obtain ⟨hlt, hget⟩ := List.getElem?_eq_some_iff.mp hx
      rw [← htake, ← hget, List.getElem_cons_drop, List.take_append_drop]
    rw [hsplit]
    exact sequential_decisive (undecided_values vs) rfl

/-- **`wait_all_members`**, in any order of the steps: no run goes on for ever, and where nothing can move the
call has ended; with the values of all functions in the order of the arguments, or with the exception of the
leftmost function that throws, whichever function has finished first; and if it returns values, every function has
finished. -/
theorem members_complete (functions : List (Outcome V E)) :
    (∀ es s, (sys functions).exec es = some s → es.length ≤ 3 * functions.length + 2) ∧
      (∀ s, (sys functions).Reach s → (sys functions).Stuck s → ∃ r, s.caller = .done r) ∧
      ∀ s, (sys functions).Reach s → ∀ r, s.caller = .done r →
        Results.sequential .allUntilError functions = some r ∧
          ((∃ vs, r = .values vs) → ∀ i < functions.length, s.fiber i = .ready) := by
  refine ⟨?_, ?_, ?_⟩
  · intro es s hr
    have hinit : measure functions (sys functions).init = 3 * functions.length + 2 := by
      simp [measure, sys, rank, callerRank]
      omega
    rw [← hinit]
    exact Sys.length_le_measure
      (fun _ _ _ hi hstep => ⟨Inv.step hi (step_move hstep), measure_lt hi (step_move hstep)⟩) hr inv_init
  · intro s hr hstuck
    exact done_of_stuck (reach_membersInv hr) hstuck
  · intro s hr r hc
    have hended := (reach_membersInv hr).done r hc
    refine ⟨hended.sequential, ?_⟩
    rintro ⟨vs, rfl⟩
    rcases hended with ⟨vs', -, -, -, hready⟩ | ⟨i, vs', x, hr, -⟩
    · exact hready
    · cases hr

end Jkit.Common.Fiber.Members
