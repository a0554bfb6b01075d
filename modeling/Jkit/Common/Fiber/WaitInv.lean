import Jkit.Common.Fiber.WaitStuff
import Mathlib.Data.List.Nodup
import Mathlib.Data.List.Perm.Subperm
import Mathlib.Data.List.Range

/-! # Invariants of the combinators

* `Sent`: what has been pushed, in order, is what the caller has taken followed by what the channel
  holds; a fiber pushes once.
* `Counted`: `limit_` is the number of pushes that have not been counted, so only the fiber that counts the
  last push comes to close the channel.
* `Ended`: why a caller has ended. -/

namespace Jkit.Common.Fiber.WaitInv

open Jkit.Lib.Run Jkit.Lib.Channel Jkit.Common.Fiber.WaitStuff

variable {V E : Type} {call : Call V E} {s s' : St V E} {e : Ev}

/-- Taking an item changes the locals of the caller only. -/
theorem take_eq (call : Call V E) (s : St V E) (x : Outcome V E) : ∃ c r es,
    take call s x = { s with caller := c, results := r, exceptions := es } ∧
      (c = s.caller ∨ (∃ r, c = .close r) ∨ ∃ r, c = .done r) := by
  unfold take
  split
  · exact ⟨_, _, _, rfl, Or.inr (Or.inl ⟨_, rfl⟩)⟩
  · exact ⟨_, _, _, rfl, Or.inr (Or.inl ⟨_, rfl⟩)⟩
  · exact ⟨_, _, _, rfl, Or.inr (Or.inl ⟨_, rfl⟩)⟩
  · exact ⟨_, _, _, rfl, Or.inl rfl⟩
  · exact ⟨_, _, _, rfl, Or.inl rfl⟩
  · exact ⟨_, _, _, rfl, Or.inl rfl⟩
  · exact ⟨_, _, _, rfl, Or.inr (Or.inr ⟨_, rfl⟩)⟩
  · exact ⟨_, _, _, rfl, Or.inr (Or.inr ⟨_, rfl⟩)⟩
  · exact ⟨_, _, _, rfl, Or.inl rfl⟩
  · exact ⟨_, _, _, rfl, Or.inl rfl⟩

/-! ### Pushes -/

structure Sent (call : Call V E) (s : St V E) : Prop where
  le : s.launched ≤ call.count
  idle : ∀ i, s.fiber i = .idle ↔ s.launched ≤ i
  past : s.caller ≠ .launch → s.launched = call.count
  nodup : s.pushed.Nodup
  stage : ∀ i ∈ s.pushed, s.fiber i = .count ∨ s.fiber i = .close ∨ s.fiber i = .done
  late : ∀ i, s.fiber i = .count ∨ s.fiber i = .close → i ∈ s.pushed
  done : s.chan.closes = 0 → ∀ i, s.fiber i = .done → i ∈ s.pushed
  fifo : s.pushed.map (fun i => call.functions[i]?) = (s.popped ++ s.chan.queue).map some
  cap : s.chan.queue.length ≤ capacity

theorem initChan_queue : (initChan call).queue = [] := by
  unfold initChan
  split_ifs
  · rfl
  · rfl

theorem sent_init : Sent call (sys call).init where
  le := Nat.zero_le _
  idle i := by simp [sys]
  past h := absurd rfl h
  nodup := List.nodup_nil
  stage i h := by simp [sys] at h
  late i h := by simp [sys] at h
  done _ i h := by simp [sys] at h
  fifo := by simp [sys, initChan_queue]
  cap := by simp [sys, initChan_queue]

theorem Sent.step (hi : Sent call s) (h : Move call s e s') : Sent call s' := by
  obtain ⟨hle, hidle, hpast, hnd, hstage, hlate, hdone, hfifo, hcap⟩ := hi
  cases h with
  | launch hc hl =>
    refine ⟨?_, ?_, ?_, hnd, ?_, ?_, ?_, hfifo, hcap⟩
    · show s.launched + 1 ≤ call.count
      omega
    · intro i
      grind [Function.update_apply]
    · grind
    · grind [Function.update_apply]
    · grind [Function.update_apply]
    · grind [Function.update_apply]
  | launched hc hl =>
    exact ⟨hle, hidle, fun _ => le_antisymm hle hl, hnd, hstage, hlate, hdone, hfifo, hcap⟩
  | exhausted hc hx =>
    exact ⟨hle, hidle, fun _ => hpast (by simp [hc]), hnd, hstage, hlate, hdone, hfifo, hcap⟩
  | pop c x hc hx hq hcl =>
    obtain ⟨c', r, es, ht, hcases⟩ :=
      take_eq call { s with chan := c, popped := s.popped ++ [x] } x
    rw [ht]
    refine ⟨hle, hidle, fun _ => hpast (by simp [hc]), hnd, hstage, hlate, ?_, ?_, ?_⟩
    · intro h0
      exact hdone (by rw [← hcl]; exact h0)
    · simp only [hfifo, hq, List.append_assoc, List.singleton_append]
    · show c.queue.length ≤ capacity
      rw [hq] at hcap
      simp at hcap
      omega
  | drained hc hx hq hcl =>
    exact ⟨hle, hidle, fun _ => hpast (by simp [hc]), hnd, hstage, hlate, hdone, hfifo, hcap⟩
  | close r hc =>
    refine ⟨hle, hidle, fun _ => hpast (by simp [hc]), hnd, hstage, hlate, ?_, hfifo, hcap⟩
    intro h0
    simp at h0
  | run i hf =>
    refine ⟨hle, ?_, hpast, hnd, ?_, ?_, ?_, hfifo, hcap⟩
    all_goals grind [Function.update_apply]
  | refused i hf hcl =>
    refine ⟨hle, ?_, hpast, hnd, ?_, ?_, ?_, hfifo, hcap⟩
    all_goals grind [Function.update_apply]
  | pushed i x hf hx hcl hq =>
    have hnew : i ∉ s.pushed := by
      intro hmem
      have := hstage i hmem
      simp [hf] at this
    refine ⟨hle, ?_, hpast, ?_, ?_, ?_, ?_, ?_, ?_⟩
    · grind [Function.update_apply]
    · grind
    · grind [Function.update_apply]
    · grind [Function.update_apply]
    · grind [Function.update_apply]
    · simp only [List.map_append, hfifo, List.map_cons, List.map_nil, hx, List.append_assoc]
    · simp
      omega
  | counted i hf =>
    refine ⟨hle, ?_, hpast, hnd, ?_, ?_, ?_, hfifo, hcap⟩
    all_goals grind [Function.update_apply]
  | closed i hf =>
    refine ⟨hle, ?_, hpast, hnd, ?_, ?_, ?_, hfifo, hcap⟩
    all_goals grind [Function.update_apply, Chan.close_closes]

theorem Sent.lt (hi : Sent call s) {i : ℕ} (h : s.fiber i ≠ .idle) : i < call.count := by
  have h1 : ¬s.launched ≤ i := fun hle => h ((hi.idle i).mpr hle)
  have h2 := hi.le
  omega

theorem Sent.lt_of_mem (hi : Sent call s) {i : ℕ} (h : i ∈ s.pushed) : i < call.count := by
  apply hi.lt
  intro h0
  have := hi.stage i h
  simp [h0] at this

theorem Sent.not_mem (hi : Sent call s) {i : ℕ}
    (h : s.fiber i = .idle ∨ s.fiber i = .run ∨ s.fiber i = .push) : i ∉ s.pushed := by
  intro hmem
  rcases hi.stage i hmem with h' | h' | h' <;> simp [h'] at h

theorem Sent.subset_range (hi : Sent call s) : s.pushed ⊆ List.range call.count := by
  intro i h
  exact List.mem_range.mpr (hi.lt_of_mem h)

theorem Sent.length_le (hi : Sent call s) : s.pushed.length ≤ call.count := by
  have h := (List.Nodup.subperm hi.nodup hi.subset_range).length_le
  simpa using h

/-- When every fiber has pushed, the order of the pushes is an order of all the fibers. -/
theorem Sent.perm (hi : Sent call s) (h : s.pushed.length = call.count) :
    s.pushed.Perm (List.range call.count) :=
  (List.Nodup.subperm hi.nodup hi.subset_range).perm_of_length_le (by simp [h])

theorem Sent.length_eq (hi : Sent call s) :
    s.pushed.length = s.popped.length + s.chan.queue.length := by
  have h := congrArg List.length hi.fifo
  simpa using h

/-- An item of the channel is the outcome of one of the functions. -/
theorem Sent.mem_functions (hi : Sent call s) {x : Outcome V E} (h : x ∈ s.popped ++ s.chan.queue) :
    x ∈ call.functions := by
  have hmem : some x ∈ s.pushed.map fun i => call.functions[i]? := by
    rw [hi.fifo]
    exact List.mem_map_of_mem h
  obtain ⟨i, -, hx⟩ := List.mem_map.mp hmem
  exact List.mem_of_getElem? hx

/-! ### The `nchannel` -/

structure Counted (call : Call V E) (s : St V E) : Prop where
  only : ∀ i, s.fiber i = .count ∨ s.fiber i = .close → call.combinator.counts = true
  caller : ∀ r, s.caller = .close r → call.combinator.counts = false
  nodup : s.counted.Nodup
  sub : ∀ i ∈ s.counted, i ∈ s.pushed
  count : call.combinator.counts = true → ∀ i, s.fiber i = .count ↔ i ∈ s.pushed ∧ i ∉ s.counted
  limit : call.combinator.counts = true → s.limit + s.counted.length = call.count
  close : ∀ i, s.fiber i = .close → s.limit = 0 ∧ s.counted.getLast? = some i
  closes : call.combinator.counts = true → s.chan.closes =
    if s.limit = 0 ∧ ∀ i, s.counted.getLast? = some i → s.fiber i = .done then 1 else 0

theorem counted_init : Counted call (sys call).init where
  only i h := by simp [sys] at h
  caller r h := by simp [sys] at h
  nodup := List.nodup_nil
  sub i h := by simp [sys] at h
  count _ i := by simp [sys]
  limit _ := rfl
  close i h := by simp [sys] at h
  closes hc := by
    simp only [sys, initChan, hc, List.getLast?_nil, true_and]
    split_ifs
    · rfl
    · simp_all
    · simp_all
    · rfl

/-- Behind an `nchannel` the caller does not close the channel. -/
theorem take_caller (hc : call.combinator.counts = true) {x : Outcome V E} {r : Result V E}
    (h : (take call s x).caller = .close r) : s.caller = .close r := by
  unfold take at h
  split at h
  · simp_all [Combinator.counts]
  · simp_all [Combinator.counts]
  · simp_all [Combinator.counts]
  · exact h
  · exact h
  · exact h
  · simp at h
  · simp at h
  · exact h
  · exact h

theorem last_update {f : ℕ → Stage} {l : List ℕ} {i : ℕ} {st : Stage} (h : i ∉ l) :
    (∀ j, l.getLast? = some j → Function.update f i st j = .done) ↔
      ∀ j, l.getLast? = some j → f j = .done := by
  have hne : ∀ j, l.getLast? = some j → j ≠ i := by
    rintro j hj rfl
    exact h (List.mem_of_getLast? hj)
  constructor
  · intro hd j hj
    simpa [hne j hj] using hd j hj
  · intro hd j hj
    simpa [hne j hj] using hd j hj

/-- A fiber that has not pushed moves without pushing. -/
theorem Counted.early (hi : Counted call s) {i n : ℕ} {st : Stage} (hnew : i ∉ s.pushed)
    (hst : st ≠ .count ∧ st ≠ .close) :
    Counted call { s with fiber := Function.update s.fiber i st, launched := n } := by
  have hnew' : i ∉ s.counted := fun hmem => hnew (hi.sub i hmem)
  obtain ⟨honly, hcaller, hnd, hsub, hcount, hlimit, hclose, hcloses⟩ := hi
  refine ⟨?_, hcaller, hnd, hsub, ?_, hlimit, ?_, ?_⟩
  · grind [Function.update_apply]
  · grind [Function.update_apply]
  · grind [Function.update_apply]
  · intro hc
    simp only [last_update hnew']
    exact hcloses hc

/-- Taking an item: behind an `nchannel` the caller does not come to close the channel. -/
theorem Counted.pop (hi : Counted call s) {c : Chan (Outcome V E)} {x : Outcome V E}
    (hc : s.caller = .wait) (hcl : c.closes = s.chan.closes) :
    Counted call (take call { s with chan := c, popped := s.popped ++ [x] } x) := by
  have hclose : ∀ r, (take call { s with chan := c, popped := s.popped ++ [x] } x).caller = .close r →
      call.combinator.counts = false := by
    intro r hr
    by_contra hyes
    have := take_caller (by simpa using hyes) hr
    simp [hc] at this
  obtain ⟨c', r, es, ht, -⟩ :=
    take_eq call { s with chan := c, popped := s.popped ++ [x] } x
  rw [ht] at hclose ⊢
  refine { hi with caller := hclose, closes := ?_ }
  intro hyes
  exact hcl.trans (hi.closes hyes)

theorem Counted.push (hi : Counted call s) {i : ℕ} {c : Chan (Outcome V E)} (hnew : i ∉ s.pushed)
    (hcl : c.closes = s.chan.closes) :
    Counted call
      { s with
        chan := c
        pushed := s.pushed ++ [i]
        fiber := Function.update s.fiber i (if call.combinator.counts then .count else .done) } := by
  have hnew' : i ∉ s.counted := fun hmem => hnew (hi.sub i hmem)
  obtain ⟨honly, hcaller, hnd, hsub, hcount, hlimit, hclose, hcloses⟩ := hi
  refine ⟨?_, hcaller, hnd, ?_, ?_, hlimit, ?_, ?_⟩
  · grind [Function.update_apply]
  · grind
  · intro hc j
    have := hcount hc j
    simp only [hc, if_true]
    grind [Function.update_apply]
  · grind [Function.update_apply]
  · intro hc
    simp only [last_update hnew']
    exact hcl.trans (hcloses hc)

/-- A fiber that is about to count its push leaves the limit above zero until then. -/
theorem Counted.pos (hs : Sent call s) (hi : Counted call s) {i : ℕ} (hf : s.fiber i = .count) :
    0 < s.limit := by
  have hc := hi.only i (Or.inl hf)
  obtain ⟨hmem, hnew⟩ := (hi.count hc i).mp hf
  have hsub : i :: s.counted ⊆ s.pushed := List.cons_subset.mpr ⟨hmem, hi.sub⟩
  have hle := (List.Nodup.subperm (List.nodup_cons.mpr ⟨hnew, hi.nodup⟩) hsub).length_le
  have hlen := hs.length_le
  have hl := hi.limit hc
  rw [List.length_cons] at hle
  omega

/-- Counting a push: the fiber that comes to zero is the only one at `close`. -/
theorem Counted.decrement (hs : Sent call s) (hi : Counted call s) {i : ℕ}
    (hf : s.fiber i = .count) :
    Counted call
      { s with
        limit := WaitStuff.decrement s.limit
        counted := s.counted ++ [i]
        fiber := Function.update s.fiber i
          (if WaitStuff.decrement s.limit = 0 then .close else .done) } := by
  have hpos := hi.pos hs hf
  obtain ⟨honly, hcaller, hnd, hsub, hcount, hlimit, hclose, hcloses⟩ := hi
  have hc := honly i (Or.inl hf)
  obtain ⟨hmem, hnew⟩ := (hcount hc i).mp hf
  have hl := hlimit hc
  have hdec : WaitStuff.decrement s.limit = s.limit - 1 := by
    unfold WaitStuff.decrement
    rw [if_neg (by omega)]
  have h0 : s.chan.closes = 0 := by
    rw [hcloses hc, if_neg]
    omega
  refine ⟨?_, hcaller, ?_, ?_, ?_, ?_, ?_, ?_⟩
  · intro j _
    exact hc
  · grind
  · grind
  · grind [Function.update_apply]
  · intro _
    simp only [hdec, List.length_append, List.length_singleton]
    omega
  · -- nobody else is at `close`, since the limit was not zero
    intro j hj
    have hji : j = i := by
      by_contra hne
      simp only [Function.update_of_ne hne] at hj
      have := (hclose j hj).1
      omega
    subst hji
    simp only [Function.update_self] at hj
    split_ifs at hj with hz
    simp [hz]
  · intro _
    refine h0.trans (if_neg ?_).symm
    rintro ⟨hz, hlast⟩
    have := hlast i (by simp)
    simp only [Function.update_self, if_pos hz] at this
    cases this

theorem Counted.shut (hi : Counted call s) {i : ℕ} (hf : s.fiber i = .close) :
    Counted call { s with chan := s.chan.close, fiber := Function.update s.fiber i .done } := by
  obtain ⟨honly, hcaller, hnd, hsub, hcount, hlimit, hclose, hcloses⟩ := hi
  have hc := honly i (Or.inr hf)
  obtain ⟨h0, hlast⟩ := hclose i hf
  have hz : s.chan.closes = 0 := by
    rw [hcloses hc, if_neg]
    rintro ⟨-, hd⟩
    have := hd i hlast
    simp [hf] at this
  refine ⟨?_, hcaller, hnd, hsub, ?_, hlimit, ?_, ?_⟩
  · intro j _
    exact hc
  · grind [Function.update_apply]
  · grind [Function.update_apply]
  · intro _
    rw [if_pos]
    · simp [hz]
    · refine ⟨h0, ?_⟩
      intro j hj
      obtain rfl : i = j := by simpa [hlast] using hj
      simp

theorem Counted.step (hs : Sent call s) (hi : Counted call s) (h : Move call s e s') :
    Counted call s' := by
  cases h with
  | launch hc hl =>
    exact hi.early (hs.not_mem (Or.inl ((hs.idle _).mpr le_rfl))) ⟨by simp, by simp⟩
  | launched hc hl =>
    exact { hi with caller := by simp }
  | exhausted hc hx =>
    exact { hi with caller := by simp }
  | pop c x hc hx hq hcl =>
    exact hi.pop hc hcl
  | drained hc hx hq hcl =>
    exact { hi with caller := by simp }
  | close r hc =>
    have hno := hi.caller r hc
    refine { hi with caller := by simp, closes := ?_ }
    intro hyes
    simp [hno] at hyes
  | run i hf =>
    exact hi.early (hs.not_mem (by simp [hf])) ⟨by simp, by simp⟩
  | refused i hf hcl =>
    exact hi.early (hs.not_mem (by simp [hf])) ⟨by simp, by simp⟩
  | pushed i x hf hx hcl hq =>
    exact hi.push (hs.not_mem (by simp [hf])) rfl
  | counted i hf =>
    exact hi.decrement hs hf
  | closed i hf =>
    exact hi.shut hf

/-- **The channel of an `nchannel` is closed at most once, and only after the last push.** -/
theorem Counted.closed (hs : Sent call s) (hi : Counted call s)
    (hc : call.combinator.counts = true) : s.chan.closes ≤ 1 ∧
      (0 < s.chan.closes → s.pushed.length = call.count) := by
  have hcl := hi.closes hc
  constructor
  · rw [hcl]
    split_ifs
    · exact le_rfl
    · exact Nat.zero_le _
  · intro h0
    have hz : s.limit = 0 := by
      by_contra hne
      rw [if_neg (by simp [hne])] at hcl
      omega
    have hle := (List.Nodup.subperm hi.nodup hi.sub).length_le
    have hl := hi.limit hc
    have := hs.length_le
    omega

/-! ### The caller -/

structure Ended (call : Call V E) (s : St V E) : Prop where
  failed : call.combinator = .firstSuccess → (∀ r, s.caller ≠ .close r ∧ s.caller ≠ .done r) →
    s.exceptions.length = s.popped.length
  locals : call.combinator = .allValues ∨ call.combinator = .allCollectErrors →
    s.results = s.popped.filterMap Outcome.value? ∧ s.exceptions = s.popped.filterMap Outcome.error?
  ended : ∀ r, s.caller = .done r → 0 < s.chan.closes ∨
    call.combinator = .firstSuccess ∧ call.count ≤ s.popped.length ∨
    call.combinator = .allUntilError ∧ ∃ e, .error e ∈ s.popped
  whole : call.combinator = .allValues ∨ call.combinator = .allCollectErrors → ∀ r, s.caller = .done r →
    0 < s.chan.closes ∧ s.chan.queue = [] ∧ r = finished call s

theorem ended_init : Ended call (sys call).init where
  failed _ _ := rfl
  locals _ := ⟨rfl, rfl⟩
  ended r h := by simp [sys] at h
  whole _ r h := by simp [sys] at h

/-- A step of a fiber leaves the locals of the caller, and never opens the channel. -/
theorem Ended.fiber (hi : Ended call s) {i : ℕ} (h : Move call s (.fiber i) s') : Ended call s' := by
  obtain ⟨hfailed, hlocals, hended, hwhole⟩ := hi
  cases h with
  | run _ hf => exact ⟨hfailed, hlocals, hended, hwhole⟩
  | refused _ hf hcl => exact ⟨hfailed, hlocals, hended, hwhole⟩
  | pushed _ x hf hx hcl hq =>
    refine ⟨hfailed, hlocals, hended, ?_⟩
    intro hc r hr
    have := (hwhole hc r hr).1
    omega
  | counted _ hf => exact ⟨hfailed, hlocals, hended, hwhole⟩
  | closed _ hf =>
    refine ⟨hfailed, hlocals, ?_, ?_⟩
    · intro r hr
      left
      simp
    · intro hc r hr
      exact ⟨by simp, (hwhole hc r hr).2⟩

theorem Ended.pop (hs : Sent call s) (hi : Ended call s) {c : Chan (Outcome V E)} {x : Outcome V E}
    (hc : s.caller = .wait) (hq : s.chan.queue = x :: c.queue) :
    Ended call (take call { s with chan := c, popped := s.popped ++ [x] } x) := by
  obtain ⟨hfailed, hlocals, -, -⟩ := hi
  have hx : x ∈ call.functions := hs.mem_functions (by simp [hq])
  cases hcomb : call.combinator with
  | firstValue =>
    simp only [take, hcomb]
    exact ⟨by simp [hcomb], by simp [hcomb], by simp, by simp [hcomb]⟩
  | firstOutcome =>
    simp only [take, hcomb]
    exact ⟨by simp [hcomb], by simp [hcomb], by simp, by simp [hcomb]⟩
  | firstSuccess =>
    have hlen := hfailed hcomb (by simp [hc])
    cases x with
    | value v =>
      simp only [take, hcomb]
      refine ⟨?_, by simp [hcomb], by simp, by simp [hcomb]⟩
      intro _ hno
      exact absurd rfl (hno (.value v)).1
    | error e =>
      simp only [take, hcomb]
      refine ⟨?_, by simp [hcomb], by simp [hc], by simp [hcomb]⟩
      intro _ _
      simp [hlen]
  | allValues =>
    obtain ⟨hr, he⟩ := hlocals (Or.inl hcomb)
    obtain ⟨v, rfl⟩ := call.captured (by simp [hcomb, Combinator.captures]) x hx
    simp only [take, hcomb]
    refine ⟨by simp [hcomb], ?_, by simp [hc], by simp [hc]⟩
    intro _
    simp [hr, he, Outcome.value?, Outcome.error?]
  | allUntilError =>
    cases x with
    | value v =>
      simp only [take, hcomb]
      exact ⟨by simp [hcomb], by simp [hcomb], by simp [hc], by simp [hcomb]⟩
    | error e =>
      simp only [take, hcomb]
      refine ⟨by simp [hcomb], by simp [hcomb], ?_, by simp [hcomb]⟩
      intro r _
      right; right
      exact ⟨hcomb, e, by simp⟩
  | allCollectErrors =>
    obtain ⟨hr, he⟩ := hlocals (Or.inr hcomb)
    cases x with
    | value v =>
      simp only [take, hcomb]
      refine ⟨by simp [hcomb], ?_, by simp [hc], by simp [hc]⟩
      intro _
      simp [hr, he, Outcome.value?, Outcome.error?]
    | error e =>
      simp only [take, hcomb]
      refine ⟨by simp [hcomb], ?_, by simp [hc], by simp [hc]⟩
      intro _
      simp [hr, he, Outcome.value?, Outcome.error?]

theorem Ended.step (hs : Sent call s) (hn : Counted call s) (hi : Ended call s)
    (h : Move call s e s') : Ended call s' := by
  cases e with
  | fiber i => exact hi.fiber h
  | caller =>
    obtain ⟨hfailed, hlocals, hended, hwhole⟩ := hi
    cases h with
    | launch hc hl => exact ⟨hfailed, hlocals, hended, hwhole⟩
    | launched hc hl =>
      refine ⟨?_, hlocals, by simp, by simp⟩
      intro hcomb _
      exact hfailed hcomb (by simp [hc])
    | exhausted hc hx =>
      have hlen := hfailed hx.1 (by simp [hc])
      refine ⟨?_, hlocals, ?_, by simp [hx.1]⟩
      · intro _ hno
        exact absurd rfl (hno (.errors s.exceptions)).2
      · intro r _
        right; left
        exact ⟨hx.1, hlen ▸ hx.2⟩
    | pop c x hc hx hq hcl =>
      exact Ended.pop hs ⟨hfailed, hlocals, hended, hwhole⟩ hc hq
    | drained hc hx hq hcl =>
      refine ⟨?_, hlocals, fun r _ => Or.inl hcl, ?_⟩
      · intro _ hno
        exact absurd rfl (hno (finished call s)).2
      · intro _ r hr
        exact ⟨hcl, hq, (Caller.done.inj hr).symm⟩
    | close r hc =>
      refine ⟨?_, hlocals, fun _ _ => Or.inl (by simp), ?_⟩
      · intro _ hno
        exact absurd rfl (hno r).2
      · -- only the combinators without an `nchannel` close the channel themselves
        intro hcomb
        have hno := hn.caller r hc
        rcases hcomb with hcomb | hcomb <;> simp [hcomb, Combinator.counts] at hno

/-! ### Reachable states -/

structure Inv (call : Call V E) (s : St V E) : Prop where
  sent : Sent call s
  counted : Counted call s
  ended : Ended call s

theorem inv_step (hi : Inv call s) (h : (sys call).step s e = some s') : Inv call s' :=
  ⟨hi.sent.step (step_move h), hi.counted.step hi.sent (step_move h),
    hi.ended.step hi.sent hi.counted (step_move h)⟩

theorem reach_waitInv (h : (sys call).Reach s) : Inv call s :=
  Sys.reach_inv ⟨sent_init, counted_init, ended_init⟩ (fun _ _ _ hi hstep => inv_step hi hstep) h

end Jkit.Common.Fiber.WaitInv
