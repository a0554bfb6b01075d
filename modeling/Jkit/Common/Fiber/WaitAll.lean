import Jkit.Common.Fiber.WaitInv

/-! # The combinators that wait for all functions

`wait_all_values_c` and `wait_all_collect_errors_c` read until the channel reports that it is closed. The
channel is closed by the fiber that counts the last push, so nothing is lost; it delivers in the order
of the pushes, so nothing is doubled (`waitAll_complete`). -/

namespace Jkit.Common.Fiber.WaitAll

open Jkit.Lib.Run Jkit.Lib.Channel Jkit.Common.Fiber.WaitStuff Jkit.Common.Fiber.WaitInv

variable {V E : Type} {call : Call V E} {s : St V E}

/-- The outcomes in the order of the pushes. -/
def pushOrder (call : Call V E) (s : St V E) : List (Outcome V E) :=
  s.pushed.filterMap fun i => call.functions[i]?

theorem filterMap_of_map_some {α β : Type*} {l : List α} {l' : List β} {f : α → Option β}
    (h : l.map f = l'.map some) : l.filterMap f = l' := by
  calc l.filterMap f = (l.map f).filterMap id := by rw [List.filterMap_map]; rfl
    _ = (l'.map some).filterMap id := by rw [h]
    _ = l' := by rw [List.filterMap_map]; exact List.filterMap_some

theorem filterMap_range {α : Type*} (l : List α) :
    (List.range l.length).filterMap (fun i => l[i]?) = l := by
  apply filterMap_of_map_some
  refine List.ext_getElem (by simp) fun i h1 h2 => ?_
  simp only [List.length_map, List.length_range] at h1
  simp [h1]

/-- The caller takes the outcomes in the order of the pushes. -/
theorem pushOrder_eq (hi : Sent call s) : pushOrder call s = s.popped ++ s.chan.queue :=
  filterMap_of_map_some hi.fifo

theorem pushOrder_perm (hi : Sent call s) (h : s.pushed.length = call.count) :
    (pushOrder call s).Perm call.functions := by
  have hp := (hi.perm h).filterMap fun i => call.functions[i]?
  rw [Call.count, filterMap_range] at hp
  exact hp

theorem filterMap_error_eq_nil {l : List (Outcome V E)} :
    l.filterMap Outcome.error? = [] ↔ ∀ f ∈ l, ∃ v, f = .value v := by
  simp only [List.filterMap_eq_nil_iff]
  constructor
  · intro h f hf
    cases f with
    | value v => exact ⟨v, rfl⟩
    | error e => exact absurd (h _ hf) (by simp [Outcome.error?])
  · intro h f hf
    obtain ⟨v, rfl⟩ := h f hf
    rfl

theorem map_filterMap_value {l : List (Outcome V E)} (h : ∀ f ∈ l, ∃ v, f = .value v) :
    (l.filterMap Outcome.value?).map .value = l := by
  induction l with
  | nil => rfl
  | cons f l ih =>
    obtain ⟨v, rfl⟩ := h f (by simp)
    have ih' := ih fun g hg => h g (by simp [hg])
    simp [Outcome.value?, ih']

/-- What the call ends with is decided by what the caller has taken. -/
theorem finished_eq (hcomb : call.combinator = .allValues ∨ call.combinator = .allCollectErrors)
    (hs : Sent call s) (he : Ended call s) :
    finished call s =
      if s.popped.filterMap Outcome.error? = [] then .values (s.popped.filterMap Outcome.value?)
      else .errors (s.popped.filterMap Outcome.error?) := by
  obtain ⟨hr, hx⟩ := he.locals hcomb
  rw [← hr, ← hx]
  rcases hcomb with hcomb | hcomb
  · -- the functions of `wait_all_values_c` do not throw
    have hnil : s.exceptions = [] := by
      rw [hx, filterMap_error_eq_nil]
      intro f hf
      exact call.captured (by simp [hcomb, Combinator.captures]) f
        (hs.mem_functions (List.mem_append_left _ hf))
    simp [finished, hcomb, hnil]
  · simp [finished, hcomb]

/-- **Nothing is lost and nothing is doubled**, in any order of the steps and for any number of
functions. -/
theorem waitAll_complete (call : Call V E)
    (hcomb : call.combinator = .allValues ∨ call.combinator = .allCollectErrors) (s : St V E)
    (hr : (sys call).Reach s) :
    s.chan.closes ≤ 1 ∧ (0 < s.chan.closes → s.pushed.length = call.count) ∧
      ∀ r, s.caller = .done r → s.chan.closes = 1 ∧ s.pushed.Perm (List.range call.count) ∧
        (pushOrder call s).Perm call.functions ∧
        ((∀ f ∈ call.functions, ∃ v, f = .value v) →
          ∃ vs, r = .values vs ∧ vs.map .value = pushOrder call s) ∧
        ((∃ x, .error x ∈ call.functions) →
          r = .errors ((pushOrder call s).filterMap Outcome.error?) ∧
            ((pushOrder call s).filterMap Outcome.error?).Perm
              (call.functions.filterMap Outcome.error?)) := by
  obtain ⟨hs, hn, he⟩ := reach_waitInv hr
  have hcounts : call.combinator.counts = true := by
    rcases hcomb with hcomb | hcomb <;> simp [hcomb, Combinator.counts]
  obtain ⟨hle, hlen⟩ := hn.closed hs hcounts
  refine ⟨hle, hlen, ?_⟩
  intro r hdone
  obtain ⟨hcl, hq, rfl⟩ := he.whole hcomb r hdone
  have hfull := hlen hcl
  have horder : pushOrder call s = s.popped := by rw [pushOrder_eq hs, hq, List.append_nil]
  have hperm := pushOrder_perm hs hfull
  refine ⟨by omega, hs.perm hfull, hperm, ?_, ?_⟩
  · intro hvals
    have hpop : ∀ f ∈ s.popped, ∃ v, f = .value v := fun f hf =>
      hvals f (hperm.mem_iff.mp (horder ▸ hf))
    refine ⟨s.popped.filterMap Outcome.value?, ?_, ?_⟩
    · rw [finished_eq hcomb hs he, if_pos (filterMap_error_eq_nil.mpr hpop)]
    · rw [horder, map_filterMap_value hpop]
  · rintro ⟨x, hx⟩
    have hne : s.popped.filterMap Outcome.error? ≠ [] := by
      intro hnil
      obtain ⟨v, hv⟩ := filterMap_error_eq_nil.mp hnil _ (horder ▸ hperm.mem_iff.mpr hx)
      cases hv
    refine ⟨?_, hperm.filterMap _⟩
    rw [finished_eq hcomb hs he, if_neg hne, horder]

/-- Two functions, of which the second one pushes first. -/
def twoCall : Call ℕ Unit := ⟨.allCollectErrors, [.value 5, .error ()], by simp [Combinator.captures]⟩

def twoRun : List Ev :=
  [.caller, .caller, .caller, .fiber 1, .fiber 1, .fiber 0, .fiber 0, .caller, .fiber 0, .fiber 1,
    .fiber 1, .caller, .caller]

theorem waitAll_complete_twoRun : ∃ s, (sys twoCall).exec twoRun = some s ∧ s.chan.closes = 1 ∧
    s.caller = .done (.errors [()]) ∧ s.pushed.Perm [0, 1] := by
  obtain ⟨s, hs, hd⟩ : ∃ s, (sys twoCall).exec twoRun = some s ∧ s.caller = .done (.errors [()]) :=
    ⟨_, rfl, rfl⟩
  obtain ⟨-, -, h⟩ := waitAll_complete twoCall (Or.inr rfl) s ⟨twoRun, hs⟩
  exact ⟨s, hs, (h _ hd).1, hd, (h _ hd).2.1⟩

end Jkit.Common.Fiber.WaitAll
