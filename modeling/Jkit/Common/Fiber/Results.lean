import Jkit.Common.Fiber.FirstSuccess

/-! # The results of a call

A call of any of the combinators is a loop over the outcomes in some order of arrival: `sequential` is
that loop, without fibers and without a channel. An outcome is decisive if the loop ends with it.

* `results_iff`: what a call can end with when its pushes come in a given order is what the loop gives
  for that order, and every order is possible.
* `hangs_iff`: no run goes on for ever, and a call that comes to a stop has ended, unless it waits for the
  first of no functions. -/

namespace Jkit.Common.Fiber.Results

open Jkit.Lib.Run Jkit.Lib.Channel Jkit.Common.Fiber.WaitStuff Jkit.Common.Fiber.WaitInv
open Jkit.Common.Fiber.WaitAll Jkit.Common.Fiber.Stranded

variable {V E : Type} {call : Call V E} {s s' : St V E} {e : Ev}

/-! ### The loop -/

/-- What a call is for, over the outcomes in the order in which they arrive; `none` if it needs one more. -/
def sequential : Combinator → List (Outcome V E) → Option (Result V E)
  | .firstValue, l => l.head?.map Outcome.result
  | .firstOutcome, l => l.head?.map Outcome.result
  | .firstSuccess, l =>
    match l.filterMap Outcome.value? with
    | v :: _ => some (.value v)
    | [] => some (.errors (l.filterMap Outcome.error?))
  | .allValues, l =>
    match l.filterMap Outcome.error? with
    | e :: _ => some (.error e)
    | [] => some (.values (l.filterMap Outcome.value?))
  | .allUntilError, l =>
    match l.filterMap Outcome.error? with
    | e :: _ => some (.error e)
    | [] => some (.values (l.filterMap Outcome.value?))
  | .allCollectErrors, l =>
    match l.filterMap Outcome.error? with
    | [] => some (.values (l.filterMap Outcome.value?))
    | es => some (.errors es)

/-- The caller leaves its loop with this outcome. -/
def decisive : Combinator → Outcome V E → Bool
  | .firstValue, _ => true
  | .firstOutcome, _ => true
  | .firstSuccess, .value _ => true
  | .allValues, .error _ => true
  | .allUntilError, .error _ => true
  | _, _ => false

/-- None of the outcomes ends the loop. -/
def Undecided (c : Combinator) (l : List (Outcome V E)) : Prop := ∀ x ∈ l, decisive c x = false

theorem Undecided.nil_of_first {c : Combinator} (hc : c = .firstValue ∨ c = .firstOutcome)
    {l : List (Outcome V E)} (h : Undecided c l) : l = [] := by
  rw [List.eq_nil_iff_forall_not_mem]
  intro x hx
  have := h x hx
  rcases hc with rfl | rfl <;> simp [decisive] at this

theorem Undecided.no_value {l : List (Outcome V E)} (h : Undecided .firstSuccess l) :
    l.filterMap Outcome.value? = [] := by
  rw [List.filterMap_eq_nil_iff]
  intro x hx
  rcases x with v | e
  · have := h _ hx
    simp [decisive] at this
  · rfl

theorem Undecided.no_error {c : Combinator} (hc : c = .allValues ∨ c = .allUntilError)
    {l : List (Outcome V E)} (h : Undecided c l) : l.filterMap Outcome.error? = [] := by
  rw [List.filterMap_eq_nil_iff]
  intro x hx
  rcases x with v | e
  · rfl
  · have := h _ hx
    rcases hc with rfl | rfl <;> simp [decisive] at this

/-- The first decisive outcome is the result, whatever comes behind it. -/
theorem sequential_decisive {c : Combinator} {l l' : List (Outcome V E)} {x : Outcome V E}
    (h : Undecided c l) (hx : decisive c x = true) :
    sequential c (l ++ x :: l') = some x.result := by
  cases c with
  | firstValue =>
    obtain rfl := h.nil_of_first (Or.inl rfl)
    rfl
  | firstOutcome =>
    obtain rfl := h.nil_of_first (Or.inr rfl)
    rfl
  | firstSuccess =>
    rcases x with v | e
    · simp [sequential, h.no_value, Outcome.value?, Outcome.result]
    · simp [decisive] at hx
  | allValues =>
    rcases x with v | e
    · simp [decisive] at hx
    · simp [sequential, h.no_error (Or.inl rfl), Outcome.error?, Outcome.result]
  | allUntilError =>
    rcases x with v | e
    · simp [decisive] at hx
    · simp [sequential, h.no_error (Or.inr rfl), Outcome.error?, Outcome.result]
  | allCollectErrors => simp [decisive] at hx

/-! ### The caller -/

/-- The caller is in its loop: it has collected what it has taken. -/
structure InLoop (call : Call V E) (s : St V E) : Prop where
  undecided : Undecided call.combinator s.popped
  results : s.results = s.popped.filterMap Outcome.value?
  exceptions : s.exceptions = s.popped.filterMap Outcome.error?
  unclosed : call.combinator.counts = false → s.chan.closes = 0

/-- The caller has left its loop with the last outcome it has taken. -/
def Decided (call : Call V E) (s : St V E) (r : Result V E) : Prop :=
  ∃ l x, s.popped = l ++ [x] ∧ Undecided call.combinator l ∧ decisive call.combinator x = true ∧
    r = x.result

/-- The caller has come to the end of its loop. -/
def Finished (call : Call V E) (s : St V E) (r : Result V E) : Prop :=
  s.popped.length = call.count ∧ sequential call.combinator s.popped = some r

/-- What the caller has taken, by its position. -/
def Taken (call : Call V E) (s : St V E) : Prop :=
  match s.caller with
  | .launch => InLoop call s
  | .wait => InLoop call s
  | .close r => Decided call s r
  | .done r => Decided call s r ∨ Finished call s r

theorem taken_init : Taken call (sys call).init where
  undecided x hx := by simp [sys] at hx
  results := rfl
  exceptions := rfl
  unclosed h := by simp [sys, initChan, h]

/-- The position of the caller and what it has taken decide, beside whether the channel is open. -/
theorem Taken.frame (hi : Taken call s) (hc : s'.caller = s.caller) (hr : s'.results = s.results)
    (he : s'.exceptions = s.exceptions) (hp : s'.popped = s.popped)
    (hcl : call.combinator.counts = false → s.chan.closes = 0 → s'.chan.closes = 0) :
    Taken call s' := by
  have hloop : InLoop call s → InLoop call s' := fun h =>
    ⟨hp ▸ h.undecided, by rw [hr, hp, h.results], by rw [he, hp, h.exceptions],
      fun hno => hcl hno (h.unclosed hno)⟩
  unfold Taken at hi ⊢
  rw [hc]
  split at hi
  · exact hloop hi
  · exact hloop hi
  · unfold Decided at hi ⊢
    rw [hp]
    exact hi
  · unfold Decided Finished at hi ⊢
    rw [hp]
    exact hi

theorem Taken.fiber (hn : Counted call s) (hi : Taken call s) {i : ℕ}
    (h : Move call s (.fiber i) s') : Taken call s' := by
  cases h with
  | run _ hf => exact hi.frame rfl rfl rfl rfl fun _ h0 => h0
  | refused _ hf hcl => exact hi.frame rfl rfl rfl rfl fun _ h0 => h0
  | pushed _ x hf hx hcl hq => exact hi.frame rfl rfl rfl rfl fun _ h0 => h0
  | counted _ hf => exact hi.frame rfl rfl rfl rfl fun _ h0 => h0
  | closed _ hf =>
    -- only a fiber behind an `nchannel` closes the channel
    have hyes := hn.only i (Or.inr hf)
    exact hi.frame rfl rfl rfl rfl fun hno => by simp [hyes] at hno

theorem take_decisive {x : Outcome V E} (hx : decisive call.combinator x = true) :
    take call s x = { s with caller := .close x.result } ∨
      take call s x = { s with caller := .done x.result } := by
  unfold take
  split
  all_goals simp_all [decisive, Outcome.result]

theorem take_undecided {x : Outcome V E} (hx : decisive call.combinator x = false) :
    take call s x = { s with
      results := s.results ++ x.value?.toList
      exceptions := s.exceptions ++ x.error?.toList } := by
  unfold take
  split
  all_goals simp_all [decisive, Outcome.value?, Outcome.error?]

theorem filterMap_concat {α β : Type*} (f : α → Option β) (l : List α) (x : α) :
    (l ++ [x]).filterMap f = l.filterMap f ++ (f x).toList := by
  rw [List.filterMap_append]
  cases h : f x <;> simp [h]

/-- One round of the loop. -/
theorem InLoop.take (hi : InLoop call s) (hc : s.caller = .wait) {c : Chan (Outcome V E)}
    (hcl : c.closes = s.chan.closes) (x : Outcome V E) :
    Taken call (take call { s with chan := c, popped := s.popped ++ [x] } x) := by
  obtain ⟨hund, hres, hexc, hopen⟩ := hi
  by_cases hx : decisive call.combinator x = true
  · have hdec : ∃ l y, s.popped ++ [x] = l ++ [y] ∧ Undecided call.combinator l ∧
        decisive call.combinator y = true ∧ x.result = y.result := ⟨s.popped, x, rfl, hund, hx, rfl⟩
    rcases take_decisive (s := { s with chan := c, popped := s.popped ++ [x] }) hx with ht | ht
    · rw [ht]
      exact hdec
    · rw [ht]
      exact Or.inl hdec
  · have hno : decisive call.combinator x = false := by simpa using hx
    have hloop : InLoop call (WaitStuff.take call { s with chan := c, popped := s.popped ++ [x] } x) := by
      rw [take_undecided hno]
      refine ⟨?_, ?_, ?_, ?_⟩
      · intro y hy
        rcases List.mem_append.mp hy with hy | hy
        · exact hund y hy
        · rw [List.mem_singleton.mp hy, hno]
      · rw [filterMap_concat, hres]
      · rw [filterMap_concat, hexc]
      · intro hcounts
        exact hcl.trans (hopen hcounts)
    have hwait : (WaitStuff.take call { s with chan := c, popped := s.popped ++ [x] } x).caller = .wait := by
      rw [take_undecided hno]
      exact hc
    unfold Taken
    rw [hwait]
    exact hloop

/-- Where the loop ends with the channel, its locals are the result. -/
theorem InLoop.finished (hi : InLoop call s) (hcounts : call.combinator.counts = true) :
    sequential call.combinator s.popped = some (finished call s) := by
  obtain ⟨hund, hres, hexc, -⟩ := hi
  cases hcomb : call.combinator with
  | firstValue => simp [hcomb, Combinator.counts] at hcounts
  | firstOutcome => simp [hcomb, Combinator.counts] at hcounts
  | firstSuccess => simp [hcomb, Combinator.counts] at hcounts
  | allValues =>
    have hno := hund.no_error (Or.inl hcomb)
    simp [sequential, WaitStuff.finished, hcomb, hno, hres]
  | allUntilError =>
    have hno := hund.no_error (Or.inr hcomb)
    simp [sequential, WaitStuff.finished, hcomb, hno, hres]
  | allCollectErrors =>
    simp only [sequential, WaitStuff.finished, hcomb, hres, hexc]
    split
    · rename_i hnil
      simp [hnil]
    · rename_i hne
      rw [if_neg hne]

theorem Taken.caller (hinv : Inv call s) (hi : Taken call s) (h : Move call s .caller s') :
    Taken call s' := by
  obtain ⟨hs, hn, he⟩ := hinv
  unfold Taken at hi
  cases h with
  | launch hc hl =>
    rw [hc] at hi
    unfold Taken
    simp only [hc]
    exact ⟨hi.undecided, hi.results, hi.exceptions, hi.unclosed⟩
  | launched hc hl =>
    rw [hc] at hi
    exact ⟨hi.undecided, hi.results, hi.exceptions, hi.unclosed⟩
  | exhausted hc hx =>
    rw [hc] at hi
    obtain ⟨hcomb, hle⟩ := hx
    have hund := hi.undecided
    rw [hcomb] at hund
    have hlen := he.failed hcomb (by simp [hc])
    have hpop := hs.length_eq
    have hmax := hs.length_le
    refine Or.inr ⟨?_, ?_⟩
    · show s.popped.length = call.count
      omega
    · show sequential call.combinator s.popped = _
      simp [sequential, hcomb, hund.no_value, hi.exceptions]
  | pop c x hc hx hq hcl =>
    rw [hc] at hi
    exact hi.take hc hcl x
  | drained hc hx hq hcl =>
    rw [hc] at hi
    have hcounts : call.combinator.counts = true := by
      by_contra hno
      have := hi.unclosed (by simpa using hno)
      omega
    have hfull := (hn.closed hs hcounts).2 hcl
    have hlen := hs.length_eq
    rw [hq] at hlen
    refine Or.inr ⟨?_, hi.finished hcounts⟩
    show s.popped.length = call.count
    simp only [List.length_nil] at hlen
    omega
  | close r hc =>
    rw [hc] at hi
    exact Or.inl hi

theorem reach_taken (h : (sys call).Reach s) : Taken call s := by
  have hboth : Inv call s ∧ Taken call s := by
    refine Sys.reach_inv (P := fun s => Inv call s ∧ Taken call s)
      ⟨reach_waitInv ⟨[], rfl⟩, taken_init⟩ ?_ h
    rintro s e s' ⟨hinv, hi⟩ hstep
    refine ⟨inv_step hinv hstep, ?_⟩
    cases e with
    | caller => exact hi.caller hinv (step_move hstep)
    | fiber i => exact hi.fiber hinv.counted (step_move hstep)
  exact hboth.2

/-! ### Orders of arrival -/

/-- The outcomes of the fibers, in a given order of the fibers. -/
def outcomes (call : Call V E) (σ : List ℕ) : List (Outcome V E) :=
  σ.filterMap fun i => call.functions[i]?

theorem outcomes_perm {σ : List ℕ} (h : σ.Perm (List.range call.count)) :
    (outcomes call σ).Perm call.functions := by
  have hp := h.filterMap fun i => call.functions[i]?
  rw [Call.count, filterMap_range] at hp
  exact hp

/-- Every order of the outcomes is one of the fibers. -/
theorem exists_outcomes {order : List (Outcome V E)} (h : order.Perm call.functions) :
    ∃ σ, σ.Perm (List.range call.count) ∧ outcomes call σ = order := by
  have hall : List.Forall₂ (fun x i => call.functions[i]? = some x) call.functions
      (List.range call.count) := by
    rw [List.forall₂_iff_get]
    refine ⟨by simp [Call.count], ?_⟩
    intro i h1 h2
    simp
  obtain ⟨σ, hrel, hσ⟩ := List.perm_comp_forall₂ h hall
  refine ⟨σ, hσ, filterMap_of_map_some ?_⟩
  clear hall hσ h
  induction hrel with
  | nil => rfl
  | cons hx _ ih => simp [hx, ih]

/-- The order of the pushes so far can be completed. -/
theorem exists_order (hs : Sent call s) : ∃ σ, s.pushed <+: σ ∧ σ.Perm (List.range call.count) := by
  obtain ⟨l, hl, hsub⟩ := List.Nodup.subperm hs.nodup hs.subset_range
  obtain ⟨rest, hrest⟩ := hsub.exists_perm_append
  exact ⟨s.pushed ++ rest, ⟨rest, rfl⟩, (hl.symm.append_right rest).trans hrest.symm⟩

/-- What has been taken is the beginning of every order that the pushes are the beginning of. -/
theorem popped_eq (hs : Sent call s) {order : List (Outcome V E)} (h : pushOrder call s <+: order) :
    s.popped <+: order := by
  rw [pushOrder_eq hs] at h
  exact (List.prefix_append _ _).trans h

/-- **A call that has ended agrees with the loop.** -/
theorem sequential_of_done (hr : (sys call).Reach s) {r : Result V E} (hd : s.caller = .done r)
    {order : List (Outcome V E)} (hp : order.Perm call.functions) (h : pushOrder call s <+: order) :
    sequential call.combinator order = some r := by
  obtain ⟨rest, hrest⟩ := popped_eq (reach_waitInv hr).sent h
  have htaken := reach_taken hr
  unfold Taken at htaken
  rw [hd] at htaken
  rcases htaken with ⟨l, x, hl, hund, hx, rfl⟩ | ⟨hlen, hseq⟩
  · rw [← hrest, hl, List.append_assoc]
    exact sequential_decisive hund hx
  · -- everything has been taken
    have hnil : rest = [] := by
      have hcount := hp.length_eq
      rw [← hrest, List.length_append] at hcount
      unfold Call.count at hlen
      exact List.length_eq_zero_iff.mp (by omega)
    rw [← hrest, hnil, List.append_nil]
    exact hseq

/-! ### Progress -/

/-- The caller waits for the first of no functions. -/
def Hangs (call : Call V E) : Prop :=
  call.functions = [] ∧ (call.combinator = .firstValue ∨ call.combinator = .firstOutcome)

theorem caller_pushed (h : Move call s .caller s') : s'.pushed = s.pushed := by
  cases h with
  | pop c x hc hx hq hcl =>
    obtain ⟨c', r, es, ht, -⟩ := take_eq call { s with chan := c, popped := s.popped ++ [x] } x
    rw [ht]
  | _ => rfl

/-- A caller that can not move waits on an open channel that is empty. -/
theorem callerStep_eq_none (h : callerStep call s = none) (hd : ∀ r, s.caller ≠ .done r) :
    s.caller = .wait ∧ ¬Exhausted call s ∧ s.chan.queue = [] ∧ s.chan.closes = 0 := by
  unfold callerStep at h
  split at h
  · split_ifs at h
  · rename_i hc
    split_ifs at h with hx
    split at h
    · simp at h
    · simp at h
    · rename_i hpop
      obtain ⟨hq, hcl⟩ := Chan.pop_eq_none.mp hpop
      exact ⟨hc, hx, hq, hcl⟩
  · simp at h
  · rename_i r hc
    exact absurd hc (hd r)

/-- A fiber has a step to make that is not a push. -/
def Moves (s : St V E) (i : ℕ) : Prop := s.fiber i = .run ∨ s.fiber i = .count ∨ s.fiber i = .close

theorem Moves.step {i : ℕ} (h : Moves s i) (call : Call V E) :
    ∃ s', fiberStep call s i = some s' ∧ s'.pushed = s.pushed := by
  unfold fiberStep
  rcases h with hf | hf | hf
  · simp [hf]
  · simp [hf]
  · simp [hf]

/-- Behind an `nchannel` whose fibers stand still the channel is closed when all have pushed. -/
theorem closed_of_counted (hs : Sent call s) (hn : Counted call s)
    (hcounts : call.combinator.counts = true) (hmove : ∀ i, ¬Moves s i)
    (hfull : s.pushed.length = call.count) : s.chan.closes = 1 := by
  have hsub : s.pushed ⊆ s.counted := by
    intro i hi
    by_contra hnew
    exact hmove i (Or.inr (Or.inl ((hn.count hcounts i).mpr ⟨hi, hnew⟩)))
  have hle := (List.Nodup.subperm hs.nodup hsub).length_le
  have hlimit := hn.limit hcounts
  rw [hn.closes hcounts, if_pos]
  refine ⟨by omega, ?_⟩
  intro i hi
  rcases hs.stage i (hn.sub i (List.mem_of_getLast? hi)) with hf | hf | hf
  · exact absurd (Or.inr (Or.inl hf)) (hmove i)
  · exact absurd (Or.inr (Or.inr hf)) (hmove i)
  · exact hf

/-- While the caller waits and the fibers stand still, some fiber is about to push. -/
theorem pushed_lt_count (hinv : Inv call s) (hloop : InLoop call s) (hno : ¬Hangs call)
    (hc : s.caller = .wait) (hx : ¬Exhausted call s) (hq : s.chan.queue = [])
    (hcl : s.chan.closes = 0) (hmove : ∀ i, ¬Moves s i) : s.pushed.length < call.count := by
  obtain ⟨hs, hn, he⟩ := hinv
  by_contra hge
  have hmax := hs.length_le
  have hlen := hs.length_eq
  rw [hq, List.length_nil] at hlen
  by_cases hcounts : call.combinator.counts = true
  · have := closed_of_counted hs hn hcounts hmove (by omega)
    omega
  · have hcomb : (call.combinator = .firstValue ∨ call.combinator = .firstOutcome) ∨
        call.combinator = .firstSuccess := by
      cases hcomb : call.combinator <;> simp [hcomb, Combinator.counts] at hcounts ⊢
    rcases hcomb with hfirst | hsucc
    · have hnil := hloop.undecided.nil_of_first hfirst
      rw [hnil, List.length_nil] at hlen
      unfold Call.count at hge
      exact hno ⟨List.length_eq_zero_iff.mp (by omega), hfirst⟩
    · have hfailed := he.failed hsucc (by simp [hc])
      exact hx ⟨hsucc, by omega⟩

/-- The next fiber of the order pushes. -/
theorem push_next (hs : Sent call s) (hc : s.caller = .wait) (hq : s.chan.queue = [])
    (hcl : s.chan.closes = 0) (hmove : ∀ i, ¬Moves s i) {i : ℕ} (hi : i < call.count)
    (hnew : i ∉ s.pushed) : ∃ s', fiberStep call s i = some s' ∧ s'.pushed = s.pushed ++ [i] := by
  have hpast := hs.past (by simp [hc])
  have hf : s.fiber i = .push := by
    cases hf : s.fiber i with
    | idle =>
      have := (hs.idle i).mp hf
      omega
    | run => exact absurd (Or.inl hf) (hmove i)
    | push => rfl
    | count => exact absurd (Or.inr (Or.inl hf)) (hmove i)
    | close => exact absurd (Or.inr (Or.inr hf)) (hmove i)
    | done => exact absurd (hs.done hcl i hf) hnew
  have hx : call.functions[i]? = some (call.functions.get ⟨i, hi⟩) := List.getElem?_eq_getElem hi
  simp [fiberStep, hf, hx, Chan.push, hcl, hq, capacity]

/-- A call that has not ended can go on, and its pushes can keep to any order. -/
theorem exists_step (hr : (sys call).Reach s) (hno : ¬Hangs call) (hd : ∀ r, s.caller ≠ .done r)
    {σ : List ℕ} (hσ : σ.Perm (List.range call.count)) (hp : s.pushed <+: σ) :
    ∃ e s', (sys call).step s e = some s' ∧ s'.pushed <+: σ := by
  have hinv := reach_waitInv hr
  have htaken := reach_taken hr
  by_cases hcaller : callerStep call s = none
  · obtain ⟨hc, hx, hq, hcl⟩ := callerStep_eq_none hcaller hd
    by_cases hmove : ∃ i, Moves s i
    · obtain ⟨i, hi⟩ := hmove
      obtain ⟨s', hstep, hsame⟩ := hi.step call
      exact ⟨.fiber i, s', hstep, by rw [hsame]; exact hp⟩
    · have hstill : ∀ i, ¬Moves s i := not_exists.mp hmove
      unfold Taken at htaken
      rw [hc] at htaken
      have hlt := pushed_lt_count hinv htaken hno hc hx hq hcl hstill
      obtain ⟨rest, rfl⟩ := hp
      have hlen := hσ.length_eq
      rw [List.length_append, List.length_range] at hlen
      obtain ⟨i, rest, rfl⟩ := List.exists_cons_of_length_pos (l := rest) (by omega)
      have hnd := hσ.nodup_iff.mpr List.nodup_range
      have hmem := hσ.subset (List.mem_append_right s.pushed List.mem_cons_self)
      have hnew : i ∉ s.pushed := fun h => (List.disjoint_of_nodup_append hnd) h List.mem_cons_self
      obtain ⟨s', hstep, hpush⟩ := push_next hinv.sent hc hq hcl hstill (List.mem_range.mp hmem) hnew
      exact ⟨.fiber i, s', hstep, rest, by rw [hpush]; simp⟩
  · obtain ⟨s', hstep⟩ := Option.ne_none_iff_exists'.mp hcaller
    exact ⟨.caller, s', hstep, by rw [caller_pushed (callerStep_move hstep)]; exact hp⟩

/-- Every order of the fibers is the order of the pushes of a run that ends. -/
theorem exists_done (hno : ¬Hangs call) {σ : List ℕ} (hσ : σ.Perm (List.range call.count))
    (s : St V E) (hr : (sys call).Reach s) (hp : s.pushed <+: σ) :
    ∃ t r, (sys call).Reach t ∧ t.caller = .done r ∧ t.pushed <+: σ := by
  by_cases hd : ∃ r, s.caller = .done r
  · obtain ⟨r, hd⟩ := hd
    exact ⟨s, r, hr, hd, hp⟩
  · obtain ⟨e, s', hstep, hp'⟩ := exists_step hr hno (not_exists.mp hd) hσ hp
    have hlt := measure_lt (reach_waitInv hr).sent (step_move hstep)
    exact exists_done hno hσ s' (hr.step hstep) hp'
termination_by measure call s

/-! ### Main results -/

/-- **What a call ends with**, for each of the combinators and any number of functions. The pushes of a
run are the beginning of an order of all outcomes; and for every such order, a run whose pushes keep to it
ends with the result of the loop over that order, if it has one, and with no other. -/
theorem results_iff (call : Call V E) :
    (∀ s, (sys call).Reach s → ∃ order, order.Perm call.functions ∧ pushOrder call s <+: order) ∧
      ∀ order, order.Perm call.functions → ∀ r,
        ((∃ s, (sys call).Reach s ∧ s.caller = .done r ∧ pushOrder call s <+: order) ↔
          sequential call.combinator order = some r) := by
  have hmono : ∀ {l σ : List ℕ}, l <+: σ → outcomes call l <+: outcomes call σ := fun h =>
    h.filterMap _
  constructor
  · intro s hr
    obtain ⟨σ, hp, hσ⟩ := exists_order (reach_waitInv hr).sent
    exact ⟨outcomes call σ, outcomes_perm hσ, hmono hp⟩
  · intro order hperm r
    constructor
    · rintro ⟨s, hr, hd, hp⟩
      exact sequential_of_done hr hd hperm hp
    · intro hseq
      have hno : ¬Hangs call := by
        rintro ⟨hnil, hfirst⟩
        rw [hnil] at hperm
        rw [hperm.eq_nil] at hseq
        rcases hfirst with hfirst | hfirst <;> simp [hfirst, sequential] at hseq
      obtain ⟨σ, hσ, rfl⟩ := exists_outcomes hperm
      obtain ⟨t, r', hr, hd, hp⟩ := exists_done hno hσ (sys call).init ⟨[], rfl⟩ List.nil_prefix
      have hsame := sequential_of_done hr hd hperm (hmono hp)
      rw [hseq] at hsame
      obtain rfl := Option.some.inj hsame
      exact ⟨t, hr, hd, hmono hp⟩

/-- **When a call never ends.** No run goes on for ever; it comes to a stop before the call has ended exactly
if the call waits for the first value or outcome of no functions. -/
theorem hangs_iff (call : Call V E) :
    (∀ es s, (sys call).exec es = some s → es.length ≤ measure call (sys call).init) ∧
      ((∃ s, (sys call).Reach s ∧ (sys call).Stuck s ∧ ∀ r, s.caller ≠ .done r) ↔ Hangs call) := by
  refine ⟨?_, ?_, ?_⟩
  · intro es s hr
    exact Sys.length_le_measure (P := Inv call)
      (fun _ _ _ hi hstep => ⟨inv_step hi hstep, measure_lt hi.sent (step_move hstep)⟩) hr
      (reach_waitInv ⟨[], rfl⟩)
  · rintro ⟨s, hr, hstuck, hd⟩
    by_contra hno
    obtain ⟨σ, hp, hσ⟩ := exists_order (reach_waitInv hr).sent
    obtain ⟨e, s', hstep, -⟩ := exists_step hr hno hd hσ hp
    have := hstuck e
    simp [hstep] at this
  · rintro ⟨hnil, hfirst⟩
    have hcount : call.count = 0 := by simp [Call.count, hnil]
    have hchan : initChan call = {} := by
      rcases hfirst with hfirst | hfirst <;> simp [initChan, hfirst, Combinator.counts]
    have hx : ∀ s, ¬Exhausted call s := by
      intro s h
      have := h.1
      rcases hfirst with hfirst | hfirst <;> simp [hfirst] at this
    refine ⟨{ (sys call).init with caller := .wait }, ⟨[.caller], ?_⟩, ?_, by simp⟩
    · simp [Sys.exec, Sys.run, sys, callerStep, hcount]
    · intro e
      cases e with
      | caller => simp [sys, callerStep, hx, hchan, Chan.pop]
      | fiber i => simp [sys, fiberStep]

end Jkit.Common.Fiber.Results
