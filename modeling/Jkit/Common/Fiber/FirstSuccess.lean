import Jkit.Common.Fiber.WaitAll
import Jkit.Common.Fiber.Stranded

/-! # The first success

`wait_first_success_c` takes outcomes from the channel until one is a value, and closes the channel
then; it gives up after as many outcomes as there are functions. `Phase` says what it has taken at
each of its positions, and that the channel is open until it closes it. The channel delivers in the
order of the pushes, so its value is the first one in that order, and when there is none it has taken
all outcomes.

The fibers never wait for a caller that does not take: while the caller waits on an empty channel some
fiber can move (`done_of_stuck`). So every run that goes on as long as it can ends with a result. -/

namespace Jkit.Common.Fiber.FirstSuccess

open Jkit.Lib.Run Jkit.Lib.Channel Jkit.Common.Fiber.WaitStuff Jkit.Common.Fiber.WaitInv
open Jkit.Common.Fiber.WaitAll Jkit.Common.Fiber.Stranded

variable {V E : Type} {call : Call V E} {s s' : St V E} {e : Ev}

/-- The caller has taken errors and then this value. -/
def TookValue (s : St V E) (r : Result V E) : Prop :=
  ∃ (v : V) (xs : List E), r = .value v ∧ s.popped = xs.map .error ++ [.value v]

/-- The caller has taken the errors it has collected. -/
def TookErrors (s : St V E) : Prop := s.popped = s.exceptions.map .error

/-- What the caller has taken, by its position. -/
def Phase (call : Call V E) (s : St V E) : Prop :=
  match s.caller with
  | .launch => s.chan.closes = 0 ∧ TookErrors s
  | .wait => s.chan.closes = 0 ∧ TookErrors s
  | .close r => s.chan.closes = 0 ∧ TookValue s r
  | .done r => TookValue s r ∨ r = .errors s.exceptions ∧ TookErrors s ∧ call.count ≤ s.popped.length

theorem phase_init (hcomb : call.combinator = .firstSuccess) : Phase call (sys call).init := by
  have hchan : initChan call = {} := by simp [initChan, hcomb, Combinator.counts]
  refine ⟨?_, rfl⟩
  show (initChan call).closes = 0
  rw [hchan]

/-- Only a fiber that has counted closes the channel, and these do not count. -/
theorem Phase.fiber (hcomb : call.combinator = .firstSuccess) (hn : Counted call s)
    (hi : Phase call s) {i : ℕ} (h : Move call s (.fiber i) s') : Phase call s' := by
  have hno : ∀ i, s.fiber i ≠ .close := by
    intro i hf
    have := hn.only i (Or.inr hf)
    simp [hcomb, Combinator.counts] at this
  cases h with
  | run _ hf => exact hi
  | refused _ hf hcl => exact hi
  | pushed _ x hf hx hcl hq => exact hi
  | counted _ hf => exact hi
  | closed _ hf => exact absurd hf (hno i)

theorem Phase.caller (hcomb : call.combinator = .firstSuccess) (hi : Phase call s)
    (h : Move call s .caller s') : Phase call s' := by
  unfold Phase at hi
  cases h with
  | launch hc hl =>
    rw [hc] at hi
    unfold Phase
    simp only [hc]
    exact hi
  | launched hc hl =>
    rw [hc] at hi
    exact hi
  | exhausted hc hx =>
    rw [hc] at hi
    obtain ⟨-, htook⟩ := hi
    refine Or.inr ⟨rfl, htook, ?_⟩
    have hlen := congrArg List.length htook
    simp only [List.length_map] at hlen
    show call.count ≤ s.popped.length
    rw [hlen]
    exact hx.2
  | pop c x hc hx hq hcl =>
    rw [hc] at hi
    obtain ⟨h0, htook⟩ := hi
    cases x with
    | value v =>
      unfold Phase take
      simp only [hcomb]
      exact ⟨by rw [hcl, h0], v, s.exceptions, rfl, by rw [htook]⟩
    | error x =>
      unfold Phase take
      simp only [hcomb, hc]
      refine ⟨by rw [hcl, h0], ?_⟩
      show s.popped ++ [.error x] = (s.exceptions ++ [x]).map .error
      rw [htook, List.map_append]
      rfl
  | drained hc hx hq hcl =>
    -- the channel is open as long as the caller waits
    rw [hc] at hi
    exact absurd hi.1 (by omega)
  | close r hc =>
    rw [hc] at hi
    exact Or.inl hi.2

theorem reach_phase (hcomb : call.combinator = .firstSuccess) (h : (sys call).Reach s) :
    Phase call s := by
  have hboth : Inv call s ∧ Phase call s := by
    refine Sys.reach_inv (P := fun s => Inv call s ∧ Phase call s)
      ⟨reach_waitInv ⟨[], rfl⟩, phase_init hcomb⟩ ?_ h
    rintro s e s' ⟨hinv, hi⟩ hstep
    refine ⟨inv_step hinv hstep, ?_⟩
    cases e with
    | caller => exact hi.caller hcomb (step_move hstep)
    | fiber i => exact hi.fiber hcomb hinv.counted (step_move hstep)
  exact hboth.2

/-- While the channel is open and empty, a fiber that cannot move has pushed. -/
theorem all_pushed (hs : Sent call s) (hc : s.caller = .wait) (h0 : s.chan.closes = 0)
    (hq : s.chan.queue = []) (hstuck : (sys call).Stuck s) : s.pushed.length = call.count := by
  have hall : List.range call.count ⊆ s.pushed := by
    intro i hi
    have hlt := List.mem_range.mp hi
    rcases fiberStep_eq_none hlt (hstuck (.fiber i)) with hf | hf | ⟨-, -, hfull⟩
    · have hle := (hs.idle i).mp hf
      have hpast := hs.past (by simp [hc])
      omega
    · exact hs.done h0 i hf
    · simp [hq, capacity] at hfull
  have hge := (List.Nodup.subperm List.nodup_range hall).length_le
  have hle := hs.length_le
  simp at hge
  omega

/-- Where nothing can move, the caller has ended. -/
theorem done_of_stuck (hcomb : call.combinator = .firstSuccess) (hr : (sys call).Reach s)
    (hstuck : (sys call).Stuck s) : ∃ r, s.caller = .done r := by
  obtain ⟨hs, -, -⟩ := reach_waitInv hr
  have hphase := reach_phase hcomb hr
  have hcaller : callerStep call s = none := hstuck .caller
  unfold callerStep at hcaller
  unfold Phase at hphase
  cases hc : s.caller with
  | launch =>
    rw [hc] at hcaller
    dsimp only at hcaller
    split_ifs at hcaller
  | close r => simp [hc] at hcaller
  | done r => exact ⟨r, rfl⟩
  | wait =>
    rw [hc] at hcaller hphase
    obtain ⟨h0, htook⟩ := hphase
    dsimp only at hcaller
    split_ifs at hcaller with hx
    split at hcaller
    · simp at hcaller
    · simp at hcaller
    · rename_i hpop
      obtain ⟨hq, -⟩ := Chan.pop_eq_none.mp hpop
      -- then all outcomes have been taken, and the loop is at its end
      have hfull := all_pushed hs hc h0 hq hstuck
      have hlen := hs.length_eq
      have htaken := congrArg List.length htook
      simp only [List.length_map] at htaken
      rw [hq] at hlen
      simp only [List.length_nil] at hlen
      exact absurd ⟨hcomb, by omega⟩ hx

/-! ### The result -/

theorem filterMap_value_errors (xs : List E) :
    (xs.map (Outcome.error : E → Outcome V E)).filterMap Outcome.value? = [] := by
  rw [List.filterMap_eq_nil_iff]
  intro f hf
  obtain ⟨x, -, rfl⟩ := List.mem_map.mp hf
  rfl

/-- The value that was taken is the first in the order of the pushes. -/
theorem TookValue.first (hs : Sent call s) {r : Result V E} (h : TookValue s r) :
    ∃ v, r = .value v ∧ ((pushOrder call s).filterMap Outcome.value?).head? = some v ∧
      .value v ∈ call.functions := by
  obtain ⟨v, xs, hr, hpop⟩ := h
  refine ⟨v, hr, ?_, ?_⟩
  · rw [pushOrder_eq hs, hpop, List.filterMap_append, List.filterMap_append, filterMap_value_errors]
    rfl
  · refine hs.mem_functions ?_
    rw [hpop]
    simp

/-- A caller that has given up has taken all outcomes, and each was an error. -/
theorem TookErrors.all (hs : Sent call s) (h : TookErrors s) (hn : call.count ≤ s.popped.length) :
    pushOrder call s = s.exceptions.map .error ∧ s.pushed.Perm (List.range call.count) ∧
      ∀ f ∈ call.functions, ∃ x, f = .error x := by
  have hlen := hs.length_eq
  have hle := hs.length_le
  have hq : s.chan.queue = [] := List.length_eq_zero_iff.mp (by omega)
  have horder : pushOrder call s = s.exceptions.map .error := by
    rw [pushOrder_eq hs, hq, List.append_nil]
    exact h
  have hperm := pushOrder_perm hs (by omega)
  refine ⟨horder, hs.perm (by omega), ?_⟩
  intro f hf
  rw [← hperm.mem_iff, horder] at hf
  obtain ⟨x, -, rfl⟩ := List.mem_map.mp hf
  exact ⟨x, rfl⟩

/-- **The first success**, in any order of the steps and for any number of functions: the call takes
at most as many outcomes as there are functions and never from a channel that is closed, no run goes
on for ever, and where a run can not go on the call has ended; with the first value in the order of
the pushes if there is one, else with all exceptions in that order. -/
theorem firstSuccess_complete (call : Call V E) (hcomb : call.combinator = .firstSuccess)
    (es : List Ev) (s : St V E) (hr : (sys call).exec es = some s) :
    s.popped.length ≤ call.count ∧ (s.caller = .wait → s.chan.closes = 0) ∧
      es.length ≤ measure call (sys call).init ∧
      ((sys call).Stuck s → ∃ r, s.caller = .done r) ∧
      ∀ r, s.caller = .done r →
        ((∃ v, .value v ∈ call.functions) →
          ∃ v, r = .value v ∧ ((pushOrder call s).filterMap Outcome.value?).head? = some v) ∧
        ((∀ f ∈ call.functions, ∃ x, f = .error x) →
          ∃ xs, r = .errors xs ∧ xs.map .error = pushOrder call s ∧
            s.pushed.Perm (List.range call.count)) := by
  obtain ⟨hs, -, -⟩ := reach_waitInv ⟨es, hr⟩
  have hphase := reach_phase hcomb ⟨es, hr⟩
  refine ⟨?_, ?_, ?_, done_of_stuck hcomb ⟨es, hr⟩, ?_⟩
  · have hlen := hs.length_eq
    have hle := hs.length_le
    omega
  · intro hc
    unfold Phase at hphase
    rw [hc] at hphase
    exact hphase.1
  · exact Sys.length_le_measure (P := Inv call)
      (fun _ _ _ hi hstep => ⟨inv_step hi hstep, measure_lt hi.sent (step_move hstep)⟩) hr
      (reach_waitInv ⟨[], rfl⟩)
  · intro r hc
    unfold Phase at hphase
    rw [hc] at hphase
    rcases hphase with htook | ⟨rfl, htook, hn⟩
    · obtain ⟨v, hv, hfirst, hmem⟩ := htook.first hs
      refine ⟨fun _ => ⟨v, hv, hfirst⟩, ?_⟩
      intro herr
      obtain ⟨x, hx⟩ := herr _ hmem
      cases hx
    · obtain ⟨horder, hperm, herr⟩ := htook.all hs hn
      refine ⟨?_, fun _ => ⟨_, rfl, horder.symm, hperm⟩⟩
      rintro ⟨v, hv⟩
      obtain ⟨x, hx⟩ := herr _ hv
      cases hx

/-- Two functions, of which the second one throws and pushes first. -/
def lateCall : Call ℕ Unit := ⟨.firstSuccess, [.value 5, .error ()], fun h => absurd h (by decide)⟩

def lateRun : List Ev :=
  [.caller, .caller, .caller, .fiber 1, .fiber 1, .caller, .fiber 0, .fiber 0, .caller, .caller]

theorem firstSuccess_lateRun : ∃ s, (sys lateCall).exec lateRun = some s ∧
    s.caller = .done (.value 5) ∧ s.popped.length ≤ 2 ∧
      ((pushOrder lateCall s).filterMap Outcome.value?).head? = some 5 := by
  obtain ⟨s, hs, hd⟩ : ∃ s, (sys lateCall).exec lateRun = some s ∧ s.caller = .done (.value 5) :=
    ⟨_, rfl, rfl⟩
  obtain ⟨hpop, -, -, -, h⟩ := firstSuccess_complete lateCall rfl lateRun s hs
  obtain ⟨v, hv, hfirst⟩ := (h _ hd).1 ⟨5, by decide⟩
  obtain rfl : 5 = v := by simpa using hv
  exact ⟨s, hs, hd, hpop, hfirst⟩

end Jkit.Common.Fiber.FirstSuccess
