import Jkit.Common.Fiber.WaitInv
import Mathlib.Algebra.BigOperators.Group.Finset.Piecewise

/-! # Fibers that are left behind

When the caller has left and nothing can move any more, a fiber that is not done stands in `push` on a
full channel that is open. Every combinator but one closes the channel before it leaves, or leaves only after
it has taken everything. `wait_all_until_error_c` leaves with the first exception and does not close: with
more functions than the channel holds beside the one that was taken, some fibers never finish.

The main result is `noStranded_iff`. -/

namespace Jkit.Common.Fiber.Stranded

open Jkit.Lib.Run Jkit.Lib.Channel Jkit.Common.Fiber.WaitStuff Jkit.Common.Fiber.WaitInv

variable {V E : Type} {call : Call V E} {s s' : St V E} {e : Ev}

/-- Whenever the caller has returned or thrown and no step is enabled, every launched fiber is done. -/
def NoStranded (call : Call V E) : Prop :=
  ∀ s, (sys call).Reach s → ∀ r, s.caller = .done r → (sys call).Stuck s →
    ∀ i, s.fiber i ≠ .idle → s.fiber i = .done

/-! ### Calls that strand nobody -/

theorem pushed_lt (hs : Sent call s) {i : ℕ} (hf : s.fiber i = .push) :
    s.pushed.length < call.count := by
  have hnew : i ∉ s.pushed := hs.not_mem (by simp [hf])
  have hlt : i < call.count := hs.lt (by simp [hf])
  have hsub : i :: s.pushed ⊆ List.range call.count :=
    List.cons_subset.mpr ⟨List.mem_range.mpr hlt, hs.subset_range⟩
  have hle := (List.Nodup.subperm (List.nodup_cons.mpr ⟨hnew, hs.nodup⟩) hsub).length_le
  simp at hle
  omega

theorem noStranded_of (h : call.combinator ≠ .allUntilError ∨ call.count ≤ 64 ∨
    ∀ x, Outcome.error x ∉ call.functions) : NoStranded call := by
  intro s hr r hdone hstuck i hi
  obtain ⟨hs, hn, he⟩ := reach_waitInv hr
  rcases fiberStep_eq_none (hs.lt hi) (hstuck (.fiber i)) with hf | hf | ⟨hf, h0, hfull⟩
  · exact absurd hf hi
  · exact hf
  · exfalso
    have hlt := pushed_lt hs hf
    have hlen := hs.length_eq
    unfold capacity at hfull
    rcases he.ended r hdone with hcl | ⟨hcomb, hpop⟩ | ⟨hcomb, x, hx⟩
    · omega
    · omega
    · have hpos : 0 < s.popped.length := List.length_pos_of_mem hx
      rcases h with hne | h64 | hno
      · exact hne hcomb
      · omega
      · exact hno x (hs.mem_functions (List.mem_append_left _ hx))

/-! ### Every run comes to a stop -/

def rank : Stage → ℕ
  | .idle => 5
  | .run => 4
  | .push => 3
  | .count => 2
  | .close => 1
  | .done => 0

def callerRank : Caller V E → ℕ
  | .launch => 3
  | .wait => 2
  | .close _ => 1
  | .done _ => 0

/-- What is left to do; a push is worth two, one of which goes over to the item. -/
def measure (call : Call V E) (s : St V E) : ℕ :=
  2 * (∑ i ∈ Finset.range call.count, rank (s.fiber i)) + s.chan.queue.length + callerRank s.caller

theorem sum_update {n i : ℕ} (hi : i < n) (f : ℕ → Stage) (st : Stage) :
    (∑ j ∈ Finset.range n, rank (Function.update f i st j)) + rank (f i) =
      (∑ j ∈ Finset.range n, rank (f j)) + rank st := by
  have hmem : i ∈ Finset.range n := Finset.mem_range.mpr hi
  have hcomp : ∀ j, rank (Function.update f i st j) =
      Function.update (fun j => rank (f j)) i (rank st) j := by
    intro j
    by_cases h : j = i
    · subst h; simp
    · simp [h]
  simp only [hcomp]
  rw [Finset.sum_update_of_mem hmem, ← Finset.sum_sdiff (Finset.singleton_subset_iff.mpr hmem)]
  simp
  omega

/-- A fiber that moves from the stage `a` to the stage `b` takes the difference off the sum. -/
theorem sum_move (hs : Sent call s) {i : ℕ} {a : Stage} (hf : s.fiber i = a) (ha : a ≠ .idle)
    (b : Stage) :
    (∑ j ∈ Finset.range call.count, rank (Function.update s.fiber i b j)) + rank a =
      (∑ j ∈ Finset.range call.count, rank (s.fiber j)) + rank b := by
  have hlt : i < call.count := hs.lt (by rw [hf]; exact ha)
  have h := sum_update hlt s.fiber b
  rw [hf] at h
  exact h

theorem measure_lt (hs : Sent call s) (h : Move call s e s') : measure call s' < measure call s := by
  unfold measure
  cases h with
  | launch hc hl =>
    have hsum := sum_update hl s.fiber .run
    rw [(hs.idle _).mpr le_rfl] at hsum
    simp only [rank] at hsum ⊢
    omega
  | launched hc hl => simp [hc, callerRank]
  | exhausted hc hx => simp [hc, callerRank]
  | pop c x hc hx hq hcl =>
    obtain ⟨c', r, es, ht, hcases⟩ := take_eq call { s with chan := c, popped := s.popped ++ [x] } x
    have hrank : callerRank c' ≤ callerRank s.caller := by
      rcases hcases with rfl | ⟨r, rfl⟩ | ⟨r, rfl⟩ <;> simp [hc, callerRank]
    rw [ht, hq]
    simp only [List.length_cons]
    omega
  | drained hc hx hq hcl => simp [hc, callerRank]
  | close r hc => simp [hc, callerRank]
  | run i hf =>
    have hsum := sum_move hs hf (by simp) .push
    simp only [rank] at hsum ⊢
    omega
  | refused i hf hcl =>
    have hsum := sum_move hs hf (by simp) .done
    simp only [rank] at hsum ⊢
    omega
  | pushed i x hf hx hcl hq =>
    have hsum := sum_move hs hf (by simp) (if call.combinator.counts then .count else .done)
    have hrank : rank (if call.combinator.counts then .count else .done) ≤ 2 := by
      split_ifs <;> simp [rank]
    have h3 : rank .push = 3 := rfl
    simp only [List.length_append, List.length_singleton]
    omega
  | counted i hf =>
    have hsum := sum_move hs hf (by simp) (if decrement s.limit = 0 then .close else .done)
    have hrank : rank (if decrement s.limit = 0 then .close else .done) ≤ 1 := by
      split_ifs <;> simp [rank]
    have h2 : rank .count = 2 := rfl
    simp only
    omega
  | closed i hf =>
    have hsum := sum_move hs hf (by simp) .done
    simp only [rank, Chan.close_queue] at hsum ⊢
    omega

/-- A run can be continued until nothing is enabled. -/
theorem exists_run_stuck (hi : Inv call s) :
    ∃ es t, (sys call).run s es = some t ∧ (sys call).Stuck t :=
  Sys.exists_stuck (P := Inv call)
    (fun _ _ _ hi hstep => ⟨inv_step hi hstep, measure_lt hi.sent (step_move hstep)⟩) s hi

/-! ### A call that leaves fibers behind -/

/-- A caller that has ended takes nothing more. -/
theorem done_step {r : Result V E} {l : List (Outcome V E)} (hd : s.caller = .done r ∧ s.popped = l)
    (h : (sys call).step s e = some s') : s'.caller = .done r ∧ s'.popped = l := by
  have hm := step_move h
  cases hm with
  | run i hf => exact hd
  | refused i hf hcl => exact hd
  | pushed i x hf hx hcl hq => exact hd
  | counted i hf => exact hd
  | closed i hf => exact hd
  | _ => simp_all

/-- The state after the first `k` launches. -/
def launchedSt (call : Call V E) (k : ℕ) : St V E :=
  { (sys call).init with launched := k, fiber := fun i => if i < k then .run else .idle }

theorem step_launch {k : ℕ} (hk : k < call.count) :
    (sys call).step (launchedSt call k) .caller = some (launchedSt call (k + 1)) := by
  have hf : Function.update (launchedSt call k).fiber k .run = (launchedSt call (k + 1)).fiber := by
    funext i
    by_cases h : i = k
    · subst h; simp [launchedSt]
    · have hlt : i < k + 1 ↔ i < k := by omega
      rw [Function.update_of_ne h]
      simp only [launchedSt, hlt]
  calc (sys call).step (launchedSt call k) .caller
      = some { launchedSt call k with
          launched := k + 1, fiber := Function.update (launchedSt call k).fiber k .run } := if_pos hk
    _ = some (launchedSt call (k + 1)) := by rw [hf]; rfl

theorem run_launch (k : ℕ) (hk : k ≤ call.count) :
    (sys call).exec (List.replicate k .caller) = some (launchedSt call k) := by
  induction k with
  | zero => rfl
  | succ k ih =>
    rw [List.replicate_succ', Sys.exec, Sys.run_append]
    exact ⟨launchedSt call k, ih (by omega), Sys.run_of_step (step_launch hk) rfl⟩

/-- The function `j` throws before the others have run, and the caller leaves with its exception. -/
theorem exists_throw (hcomb : call.combinator = .allUntilError) {j : ℕ} {x : E}
    (hj : call.functions[j]? = some (.error x)) :
    ∃ s, (sys call).Reach s ∧ s.caller = .done (.error x) ∧ s.popped = [.error x] := by
  have hlt : j < call.count := (List.getElem?_eq_some_iff.mp hj).1
  have hchan : initChan call = {} := by
    unfold initChan
    rw [if_neg]
    omega
  obtain ⟨s, hs, hc, hp⟩ : ∃ s, (sys call).run (launchedSt call call.count)
      [.caller, .fiber j, .fiber j, .caller] = some s ∧ s.caller = .done (.error x) ∧
        s.popped = [.error x] := by
    simp [Sys.run, sys, callerStep, fiberStep, launchedSt, hchan, hj, hlt, Chan.push, Chan.pop,
      capacity, Exhausted, hcomb, take]
  exact ⟨s, ⟨_, Sys.run_append.mpr ⟨_, run_launch _ le_rfl, hs⟩⟩, hc, hp⟩

/-- The channel holds 63 items beside the one that was taken, so from 65 functions on some fiber is left. -/
theorem not_noStranded (hcomb : call.combinator = .allUntilError) (hn : 64 < call.count) {x : E}
    (hx : .error x ∈ call.functions) : ¬NoStranded call := by
  intro h
  obtain ⟨j, hj⟩ := List.mem_iff_getElem?.mp hx
  obtain ⟨s, hreach, hdone, hpop⟩ := exists_throw hcomb hj
  obtain ⟨es, t, hrun, hstuck⟩ := exists_run_stuck (reach_waitInv hreach)
  obtain ⟨es', hes'⟩ := hreach
  have ht : (sys call).Reach t := ⟨es' ++ es, Sys.run_append.mpr ⟨s, hes', hrun⟩⟩
  obtain ⟨hd, hp⟩ := Sys.run_inv (P := fun u => u.caller = .done (.error x) ∧ u.popped = [.error x])
    (fun _ _ _ hu hstep => done_step hu hstep) hrun ⟨hdone, hpop⟩
  obtain ⟨hs, hc, -⟩ := reach_waitInv ht
  have hlen := hs.length_eq
  have hcap := hs.cap
  unfold capacity at hcap
  rw [hp] at hlen
  simp only [List.length_singleton] at hlen
  -- fewer pushes than functions, so the channel is open and every fiber that is done has pushed
  have hopen : t.chan.closes = 0 := by
    by_contra hne
    have := (hc.closed hs (by simp [hcomb, Combinator.counts])).2 (Nat.pos_of_ne_zero hne)
    omega
  have hlaunched : t.launched = call.count := hs.past (by simp [hd])
  have hall : List.range call.count ⊆ t.pushed := by
    intro i hi
    have hi' : t.fiber i ≠ .idle := by
      intro h0
      have := (hs.idle i).mp h0
      have := List.mem_range.mp hi
      omega
    exact hs.done hopen i (h t ht _ hd hstuck i hi')
  have hle := (List.Nodup.subperm List.nodup_range hall).length_le
  simp at hle
  omega

/-- **When no fiber is left behind.** -/
theorem noStranded_iff (call : Call V E) :
    NoStranded call ↔ call.combinator ≠ .allUntilError ∨ call.count ≤ 64 ∨
      ∀ x, Outcome.error x ∉ call.functions := by
  refine ⟨fun h => ?_, noStranded_of⟩
  by_contra hno
  simp only [not_or, not_not, not_forall, not_le] at hno
  obtain ⟨hcomb, hn, x, hx⟩ := hno
  exact not_noStranded hcomb hn hx h

/-- Sixty-five functions of which the first one throws. -/
theorem untilError_stranded :
    ¬NoStranded (⟨.allUntilError, .error () :: List.replicate 64 (.value ()),
      by simp [Combinator.captures]⟩ : Call Unit Unit) :=
  not_noStranded rfl (by decide) (x := ()) (by simp)

end Jkit.Common.Fiber.Stranded
