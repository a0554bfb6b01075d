import Jkit.Lib.Run
import Jkit.Lib.Monitor
import Mathlib.Algebra.BigOperators.Option

/-! # `wait_first_simple_c`

The caller launches one fiber for each function and waits on a `Done`, a flag with a mutex and a
condition variable; a fiber runs its function and notifies. `none` is the caller, `some i` the fiber of
the function `i`; `returned` is the history of the functions that have returned.

The main result is `firstSimple_complete`: the call returns behind the first function at the earliest, no
wake-up is lost, and it never returns exactly if there is no function. -/

namespace Jkit.Common.Fiber.Done

open Jkit.Lib Jkit.Lib.Run
open Jkit.Lib.Monitor (Call Pos Mem Stage)

/-! ### The model -/

/-- Before the `Done`: a fiber that is not launched yet, the loop of the launches or a function. -/
inductive Own
  | idle
  | run
deriving DecidableEq

structure St where
  mem : Mem (Option ℕ)
  launched : ℕ
  stage : Option ℕ → Stage Own
  returned : List ℕ

/-- `done->wait()` of the caller, `done->notify()` of the fibers. -/
def kind : Option ℕ → Call
  | none => .wait
  | some _ => .notify

/-- The call for `n` functions. `notify` uses `notify_one`. -/
def sys (n : ℕ) : Sys St (Option ℕ) where
  init :=
    { mem := {}, launched := 0, returned := []
      stage := fun
        | none => .own .run
        | some _ => .own .idle }
  step s a :=
    match s.stage a, a with
    | .own .idle, _ => none
    | .own .run, none =>
      if s.launched < n then
        some { s with
          launched := s.launched + 1
          stage := Function.update s.stage (some s.launched) (.own .run) }
      else some { s with stage := Function.update s.stage none (.call .lock) }
    | .own .run, some i =>
      some { s with
        returned := s.returned ++ [i], stage := Function.update s.stage (some i) (.call .lock) }
    | .call p, a =>
      (Monitor.step false (kind a) a s.mem p).map fun r =>
        { s with mem := r.1, stage := Function.update s.stage a (.call r.2) }

variable {n : ℕ} {s s' : St} {a : Option ℕ}

/-! ### What a step can do -/

inductive Move (n : ℕ) (s : St) : Option ℕ → St → Prop
  | launch (hc : s.stage none = .own .run) (h : s.launched < n) :
    Move n s none
      { s with
        launched := s.launched + 1, stage := Function.update s.stage (some s.launched) (.own .run) }
  | wait (hc : s.stage none = .own .run) (h : n ≤ s.launched) :
    Move n s none { s with stage := Function.update s.stage none (.call .lock) }
  | notify (i : ℕ) (hc : s.stage (some i) = .own .run) :
    Move n s (some i)
      { s with returned := s.returned ++ [i], stage := Function.update s.stage (some i) (.call .lock) }
  | call (a : Option ℕ) (p p' : Pos) (m : Mem (Option ℕ)) (hc : s.stage a = .call p)
    (h : Monitor.Move false (kind a) a s.mem p m p') :
    Move n s a { s with mem := m, stage := Function.update s.stage a (.call p') }

theorem step_move (h : (sys n).step s a = some s') : Move n s a s' := by
  simp only [sys] at h
  split at h
  · simp at h
  · rename_i hc
    split_ifs at h with hl
    · obtain rfl := Option.some.inj h
      exact .launch hc hl
    · obtain rfl := Option.some.inj h
      exact .wait hc (by omega)
  · rename_i i hc
    obtain rfl := Option.some.inj h
    exact .notify i hc
  · rename_i p hc
    obtain ⟨⟨m, p'⟩, hstep, rfl⟩ := Option.map_eq_some_iff.mp h
    exact .call _ p p' m hc (Monitor.step_move hstep)

/-! ### The invariant -/

/-- Only the caller waits, so `notify_one` reaches everybody. -/
theorem reaches : Monitor.Reaches false kind := by
  refine Or.inr ⟨none, ?_⟩
  rintro (_ | i) h
  · rfl
  · cases h

structure Inv (n : ℕ) (s : St) : Prop where
  calls : Monitor.Calls kind s.mem s.stage
  le : s.launched ≤ n
  idle : ∀ a, s.stage a = .own .idle ↔ ∃ i, a = some i ∧ s.launched ≤ i
  past : s.stage none ≠ .own .run → s.launched = n
  returned : ∀ i, i ∈ s.returned ↔ ∃ p, s.stage (some i) = .call p

theorem inv_init : Inv n (sys n).init where
  calls := by
    have h : (fun a => ((sys n).init.stage a).pos) = fun _ => .out := by
      funext a
      cases a <;> rfl
    refine ⟨h ▸ Monitor.inv_init kind, ?_, ?_⟩
    · refine ⟨fun hf => by simp [sys] at hf, ?_⟩
      rintro ⟨_ | i, hk, ha⟩
      · cases hk
      · simp [sys] at ha
    · rintro (_ | i) hk ha
      · simp [sys] at ha
      · cases hk
  le := Nat.zero_le _
  idle a := by cases a <;> simp [sys]
  past h := absurd rfl h
  returned i := by simp [sys]

theorem Inv.step (hi : Inv n s) (h : Move n s a s') : Inv n s' := by
  obtain ⟨hcalls, hle, hidle, hpast, hret⟩ := hi
  cases h with
  | launch hc hl =>
    have hst : s.stage (some s.launched) = .own .idle := (hidle _).mpr ⟨_, rfl, le_rfl⟩
    refine ⟨?_, hl, ?_, ?_, ?_⟩
    · exact hcalls.own (by simp [hst, Stage.pos]) (fun _ => ⟨_, hst⟩) _
    · intro b
      have := hidle b
      rcases b with _ | i
      · grind [Function.update_apply]
      · grind [Function.update_apply]
    · grind [Function.update_apply]
    · grind [Function.update_apply]
  | wait hc hl =>
    refine ⟨hcalls.enter hc, hle, ?_, fun _ => le_antisymm hle hl, ?_⟩
    · intro b
      have := hidle b
      grind [Function.update_apply]
    · grind [Function.update_apply]
  | notify i hc =>
    refine ⟨hcalls.enter hc, hle, ?_, ?_, ?_⟩
    · intro b
      have := hidle b
      grind [Function.update_apply]
    · grind [Function.update_apply]
    · intro j
      by_cases hj : j = i
      · subst hj
        simp
      · simp [hj, hret j]
  | call _ p p' m hc hm =>
    refine ⟨hcalls.step reaches hc hm, hle, ?_, ?_, ?_⟩
    · intro b
      have := hidle b
      grind [Function.update_apply]
    · intro hrun
      apply hpast
      grind [Function.update_apply]
    · intro j
      have := hret j
      grind [Function.update_apply]

theorem reach_doneInv (h : (sys n).Reach s) : Inv n s :=
  Sys.reach_inv inv_init (fun _ _ _ hi hstep => hi.step (step_move hstep)) h

/-! ### Every run comes to a stop -/

def rank (flag : Bool) : Stage Own → ℕ
  | .own .idle => 8
  | .own .run => 7
  | .call p => Monitor.rank flag p

/-- The steps that are left. -/
def measure (n : ℕ) (s : St) : ℕ :=
  ∑ a ∈ (Finset.range n).insertNone, rank s.mem.flag (s.stage a)

theorem rank_lock (flag : Bool) : rank flag (.call .lock) < 7 := by
  cases flag <;> simp [rank, Monitor.rank]

theorem rank_mono {b b' : Bool} (h : b = true → b' = true) (st : Stage Own) :
    rank b' st ≤ rank b st := by
  rcases st with (_ | _) | p
  · exact le_rfl
  · exact le_rfl
  · exact Monitor.rank_mono h p

theorem Inv.mem (hi : Inv n s) {b : Option ℕ} (h : s.stage b ≠ .own .idle) :
    b ∈ (Finset.range n).insertNone := by
  rcases b with _ | i
  · simp
  · have hnot : ¬s.launched ≤ i := fun hle => h ((hi.idle _).mpr ⟨i, rfl, hle⟩)
    have := hi.le
    simp
    omega

theorem measure_lt (hi : Inv n s) (h : Move n s a s') : measure n s' < measure n s := by
  cases h with
  | launch hc hl =>
    have hst : s.stage (some s.launched) = .own .idle := (hi.idle _).mpr ⟨_, rfl, le_rfl⟩
    refine Monitor.sum_rank_lt (by simpa using hl) ?_ fun _ => le_rfl
    rw [hst]
    simp [rank]
  | wait hc hl =>
    refine Monitor.sum_rank_lt (hi.mem (by simp [hc])) ?_ fun _ => le_rfl
    rw [hc]
    exact rank_lock _
  | notify i hc =>
    refine Monitor.sum_rank_lt (hi.mem (by simp [hc])) ?_ fun _ => le_rfl
    rw [hc]
    exact rank_lock _
  | call _ p p' m hc hm =>
    have hpos : (s.stage a).pos = p := by simp [hc, Stage.pos]
    rw [← hpos] at hm
    obtain ⟨hlt, hflag⟩ := Monitor.rank_step hi.calls.monitor hm
    refine Monitor.sum_rank_lt (hi.mem (by simp [hc])) ?_ (rank_mono hflag)
    rw [hc, ← hpos]
    exact hlt

theorem measure_init : measure n (sys n).init = 8 * n + 7 := by
  unfold measure
  rw [Finset.sum_insertNone]
  have hfiber : ∀ i ∈ Finset.range n,
      rank (sys n).init.mem.flag ((sys n).init.stage (some i)) = 8 := fun _ _ => rfl
  rw [Finset.sum_congr rfl hfiber]
  simp [sys, rank]
  omega

/-! ### The result -/

/-- `wait_first_simple_c` has returned. -/
def Returned (s : St) : Prop := s.stage none = .call .out

/-- Where nothing can move, nobody can move in the calls of the `Done`. -/
theorem monitor_still (h : (sys n).Stuck s) (a : Option ℕ) :
    Monitor.step false (kind a) a s.mem (s.stage a).pos = none := by
  have ha := h a
  cases hst : s.stage a with
  | own b => rfl
  | call p =>
    simp only [sys, hst] at ha
    simpa [Stage.pos] using ha

theorem not_run (h : (sys n).Stuck s) : s.stage a ≠ .own .run := by
  intro hst
  have ha := h a
  rcases a with _ | i
  · simp only [sys, hst] at ha
    split_ifs at ha
  · simp [sys, hst] at ha

/-- Where nothing can move, who has been launched is in its call. -/
theorem exists_call (hi : Inv n s) (h : (sys n).Stuck s) {b : Option ℕ}
    (hb : b ∈ (Finset.range n).insertNone) : ∃ p, s.stage b = .call p := by
  have hcaller : s.launched = n := hi.past (not_run h)
  rcases hst : s.stage b with (_ | _) | p
  · obtain ⟨i, rfl, hle⟩ := (hi.idle _).mp hst
    simp at hb
    omega
  · exact absurd hst (not_run h)
  · exact ⟨p, rfl⟩

/-- Where nothing can move, the fibers have finished. -/
theorem fiber_out (hi : Inv n s) (h : (sys n).Stuck s) {i : ℕ} (hlt : i < n) :
    s.stage (some i) = .call .out := by
  obtain ⟨p, hp⟩ := exists_call hi h (b := some i) (by simpa using hlt)
  have hout := hi.calls.monitor.notifier_out (monitor_still h) (i := some i) rfl
  simp only [hp, Stage.pos] at hout
  rw [hp, hout]

/-- **`wait_first_simple_c`**, in any order of the steps: no run goes on for ever; when the call returns,
one of the functions has returned; where nothing can move all fibers have finished; and the call is left
waiting exactly if there is no function. -/
theorem firstSimple_complete (n : ℕ) :
    (∀ es s, (sys n).exec es = some s → es.length ≤ 8 * n + 7) ∧
      (∀ s, (sys n).Reach s → Returned s → ∃ i < n, i ∈ s.returned) ∧
      (∀ s, (sys n).Reach s → (sys n).Stuck s → ∀ i < n, s.stage (some i) = .call .out) ∧
      ((∃ s, (sys n).Reach s ∧ (sys n).Stuck s ∧ ¬Returned s) ↔ n = 0) := by
  have hdown : ∀ s a s', Inv n s → (sys n).step s a = some s' → Inv n s' ∧ measure n s' < measure n s :=
    fun _ _ _ hi hstep => ⟨hi.step (step_move hstep), measure_lt hi (step_move hstep)⟩
  have hret : ∀ s, (sys n).Reach s → Returned s → ∃ i < n, i ∈ s.returned := by
    intro s hr hret
    have hi := reach_doneInv hr
    obtain ⟨b, hk, hst⟩ := hi.calls.flag.mp (hi.calls.left none rfl hret)
    obtain ⟨i, rfl⟩ : ∃ i, b = some i := by
      rcases b with _ | i
      · cases hk
      · exact ⟨i, rfl⟩
    have hcall : ∃ p, s.stage (some i) = .call p := by
      rcases hst with hst | hst
      · exact ⟨_, hst⟩
      · exact ⟨_, hst⟩
    have hmem := hi.mem (b := some i) (by obtain ⟨p, hp⟩ := hcall; simp [hp])
    exact ⟨i, by simpa using hmem, (hi.returned i).mpr hcall⟩
  refine ⟨?_, hret, ?_, ?_, ?_⟩
  · intro es s hr
    rw [← measure_init]
    exact Sys.length_le_measure hdown hr inv_init
  · intro s hr hstuck i hlt
    exact fiber_out (reach_doneInv hr) hstuck hlt
  · rintro ⟨s, hr, hstuck, hno⟩
    by_contra hn
    have hi := reach_doneInv hr
    have hzero := fiber_out hi hstuck (Nat.pos_of_ne_zero hn)
    have hflag := hi.calls.flag.mpr ⟨some 0, rfl, Or.inr hzero⟩
    have hout := hi.calls.monitor.all_out hflag (monitor_still hstuck) none
    obtain ⟨p, hp⟩ := exists_call hi hstuck (b := none) (by simp)
    simp only [hp, Stage.pos] at hout
    exact hno (by rw [Returned, hp, hout])
  · rintro rfl
    obtain ⟨es, t, hrun, hstuck⟩ := Sys.exists_stuck hdown (sys 0).init inv_init
    refine ⟨t, ⟨es, hrun⟩, hstuck, ?_⟩
    intro h
    obtain ⟨i, hlt, -⟩ := hret t ⟨es, hrun⟩ h
    omega

end Jkit.Common.Fiber.Done
