import Jkit.Lib.Hold
import Mathlib.Data.List.Perm.Subperm
import Mathlib.Algebra.Order.BigOperators.Group.Finset

/-! # A flag with a mutex and a condition variable

Agents make one call each: `wait` returns when the flag is set, `notify` sets it under the mutex and
signals the condition variable after it has released the mutex. `Mem` is the shared memory, `Pos` where
an agent stands in its call, `step` what it does next. A waiter that finds the flag down joins the queue
and releases the mutex in one step; a signal takes the first of the queue or all of it, and who is no
longer in the queue locks the mutex again and looks at the flag again.

* `Inv.step`, `Inv.enter`: no wake-up is lost, provided that a signal reaches every agent of the queue;
* `Inv.all_out`: once the flag is set, agents stand still only outside of their calls;
* `Calls`: programs that make such calls among other things;
* `rank_step`, `sum_rank_lt`: an agent makes a bounded number of steps. -/

namespace Jkit.Lib.Monitor

open Jkit.Lib.Hold

inductive Call
  | wait
  | notify
deriving DecidableEq

/-- Where an agent stands: outside of its call, before the mutex, inside it, in the queue of the condition
variable (or just taken out of it), behind the mutex and before the signal. -/
inductive Pos
  | out
  | lock
  | inside
  | blocked
  | signal
deriving DecidableEq

structure Mem (ι : Type*) where
  owner : Option ι := none
  flag : Bool := false
  queue : List ι := []

variable {ι : Type*} [DecidableEq ι]

/-- One step of the agent `i` in its call; `all` says whether a signal takes the whole queue. -/
def step (all : Bool) (call : Call) (i : ι) (m : Mem ι) : Pos → Option (Mem ι × Pos)
  | .out => none
  | .lock => if m.owner = none then some ({ m with owner := some i }, .inside) else none
  | .inside =>
    match call with
    | .wait =>
      if m.flag then some ({ m with owner := none }, .out)
      else some ({ m with owner := none, queue := m.queue ++ [i] }, .blocked)
    | .notify => some ({ m with owner := none, flag := true }, .signal)
  | .blocked => if i ∈ m.queue then none else some (m, .lock)
  | .signal => some ({ m with queue := if all then [] else m.queue.drop 1 }, .out)

/-! ### What a step can do -/

inductive Move (all : Bool) (call : Call) (i : ι) (m : Mem ι) : Pos → Mem ι → Pos → Prop
  | lock (h : m.owner = none) : Move all call i m .lock { m with owner := some i } .inside
  | leave (hc : call = .wait) (h : m.flag = true) :
    Move all call i m .inside { m with owner := none } .out
  | block (hc : call = .wait) (h : m.flag = false) :
    Move all call i m .inside { m with owner := none, queue := m.queue ++ [i] } .blocked
  | set (hc : call = .notify) : Move all call i m .inside { m with owner := none, flag := true } .signal
  | wake (h : i ∉ m.queue) : Move all call i m .blocked m .lock
  | signal : Move all call i m .signal { m with queue := if all then [] else m.queue.drop 1 } .out

variable {all : Bool} {call : Call} {i : ι} {m m' : Mem ι} {p p' : Pos}

theorem step_move (h : step all call i m p = some (m', p')) : Move all call i m p m' p' := by
  cases p with
  | out => simp [step] at h
  | lock =>
    simp only [step, Option.ite_none_right_eq_some, Option.some.injEq, Prod.mk.injEq] at h
    obtain ⟨hfree, rfl, rfl⟩ := h
    exact .lock hfree
  | inside =>
    cases call with
    | wait =>
      simp only [step] at h
      split_ifs at h with hflag
      · obtain ⟨rfl, rfl⟩ := Prod.mk.inj (Option.some.inj h)
        exact .leave rfl hflag
      · obtain ⟨rfl, rfl⟩ := Prod.mk.inj (Option.some.inj h)
        exact .block rfl (by simpa using hflag)
    | notify =>
      obtain ⟨rfl, rfl⟩ := Prod.mk.inj (Option.some.inj h)
      exact .set rfl
  | blocked =>
    simp only [step, Option.ite_none_left_eq_some, Option.some.injEq, Prod.mk.injEq] at h
    obtain ⟨hq, rfl, rfl⟩ := h
    exact .wake hq
  | signal =>
    obtain ⟨rfl, rfl⟩ := Prod.mk.inj (Option.some.inj h)
    exact .signal

omit [DecidableEq ι] in
/-- Only a notifier sets the flag, and it signals next; a waiter leaves only with the flag set. -/
theorem Move.flag (h : Move all call i m p m' p') :
    call = .notify ∧ p = .inside ∧ p' = .signal ∧ m'.flag = true ∨
      m'.flag = m.flag ∧ p ≠ .out ∧ p' ≠ .signal ∧
        (p' = .out ↔ p = .signal ∨ call = .wait ∧ p = .inside ∧ m.flag = true) := by
  cases h with
  | lock h => exact Or.inr ⟨rfl, by simp, by simp, by simp⟩
  | leave hc h => exact Or.inr ⟨rfl, by simp, by simp, by simp [hc, h]⟩
  | block hc h => exact Or.inr ⟨rfl, by simp, by simp, by simp [h]⟩
  | set hc => exact Or.inl ⟨hc, rfl, rfl, rfl⟩
  | wake h => exact Or.inr ⟨rfl, by simp, by simp, by simp⟩
  | signal => exact Or.inr ⟨rfl, by simp, by simp, by simp⟩

/-- An agent that can not move is outside of its call, waits for the mutex or is in the queue. -/
theorem step_eq_none (h : step all call i m p = none) :
    p = .out ∨ p = .lock ∧ m.owner ≠ none ∨ p = .blocked ∧ i ∈ m.queue := by
  cases p with
  | out => exact Or.inl rfl
  | lock =>
    refine Or.inr (Or.inl ⟨rfl, ?_⟩)
    intro hfree
    simp [step, hfree] at h
  | inside =>
    cases call with
    | wait =>
      simp only [step] at h
      split_ifs at h
    | notify => simp [step] at h
  | blocked =>
    refine Or.inr (Or.inr ⟨rfl, ?_⟩)
    by_contra hq
    simp [step, hq] at h
  | signal => simp [step] at h

/-! ### The invariant -/

/-- A signal reaches every agent of the queue: it takes all of it, or only `w` ever waits. -/
def Reaches (all : Bool) (kind : ι → Call) : Prop := all = true ∨ ∃ w, ∀ i, kind i = .wait → i = w

structure Inv (kind : ι → Call) (m : Mem ι) (P : ι → Pos) : Prop where
  owner : ∀ i, m.owner = some i ↔ P i = .inside
  nodup : m.queue.Nodup
  queue : ∀ i ∈ m.queue, P i = .blocked
  waiter : ∀ i, P i = .blocked → kind i = .wait
  notifier : ∀ i, P i = .signal → kind i = .notify ∧ m.flag = true
  woken : ∀ i, P i = .blocked → i ∉ m.queue → m.flag = true
  unlost : m.flag = true → m.queue ≠ [] → ∃ i, P i = .signal

variable {kind : ι → Call} {P : ι → Pos}

omit [DecidableEq ι] in
theorem inv_init (kind : ι → Call) : Inv kind ({} : Mem ι) fun _ => .out := by
  refine ⟨?_, List.nodup_nil, ?_, ?_, ?_, ?_, ?_⟩ <;> simp

/-- An agent begins its call. -/
theorem Inv.enter (hi : Inv kind m P) (h : P i = .out) : Inv kind m (Function.update P i .lock) := by
  obtain ⟨howner, hnd, hqueue, hwaiter, hnotifier, hwoken, hunlost⟩ := hi
  refine ⟨?_, hnd, ?_, ?_, ?_, ?_, ?_⟩
  · grind [Function.update_apply]
  · grind [Function.update_apply]
  · grind [Function.update_apply]
  · grind [Function.update_apply]
  · grind [Function.update_apply]
  · intro hflag hne
    obtain ⟨j, hj⟩ := hunlost hflag hne
    exact ⟨j, by grind [Function.update_apply]⟩

omit [DecidableEq ι] in
/-- After a signal the queue is empty. -/
theorem Inv.drained (hr : Reaches all kind) (hi : Inv kind m P) :
    (if all then [] else m.queue.drop 1) = [] := by
  rcases hr with rfl | ⟨w, hw⟩
  · rfl
  · have hle : m.queue.length ≤ 1 := by
      have hsub : m.queue ⊆ [w] := by
        intro j hj
        exact List.mem_singleton.mpr (hw j (hi.waiter j (hi.queue j hj)))
      exact (List.Nodup.subperm hi.nodup hsub).length_le
    split_ifs
    · rfl
    · exact List.drop_eq_nil_of_le hle

/-- **No wake-up is lost.** -/
theorem Inv.step (hr : Reaches all kind) (hi : Inv kind m P) (h : Move all (kind i) i m (P i) m' p') :
    Inv kind m' (Function.update P i p') := by
  have hdrained := hi.drained hr
  obtain ⟨howner, hnd, hqueue, hwaiter, hnotifier, hwoken, hunlost⟩ := hi
  have hother : ∀ q, P i ≠ .signal → m.flag = true → m.queue ≠ [] →
      ∃ j, Function.update P i q j = .signal := by
    intro q hq hflag hne
    obtain ⟨j, hj⟩ := hunlost hflag hne
    exact ⟨j, by grind [Function.update_apply]⟩
  generalize hp : P i = p at h
  cases h with
  | lock hfree =>
    refine ⟨?_, hnd, ?_, ?_, ?_, ?_, hother _ (by simp [hp])⟩
    all_goals grind [Function.update_apply]
  | leave hc hflag =>
    refine ⟨?_, hnd, ?_, ?_, ?_, ?_, hother _ (by simp [hp])⟩
    all_goals grind [Function.update_apply]
  | block hc hflag =>
    have hnew : i ∉ m.queue := by
      intro hmem
      simp [hqueue i hmem] at hp
    refine ⟨?_, ?_, ?_, ?_, ?_, ?_, ?_⟩
    · grind [Function.update_apply]
    · grind
    · grind [Function.update_apply]
    · grind [Function.update_apply]
    · grind [Function.update_apply]
    · grind [Function.update_apply]
    · intro h
      simp [hflag] at h
  | set hc =>
    refine ⟨?_, hnd, ?_, ?_, ?_, ?_, ?_⟩
    · grind [Function.update_apply]
    · grind [Function.update_apply]
    · grind [Function.update_apply]
    · grind [Function.update_apply]
    · exact fun _ _ _ => rfl
    · exact fun _ _ => ⟨i, Function.update_self ..⟩
  | wake hq =>
    refine ⟨?_, hnd, ?_, ?_, ?_, ?_, hother _ (by simp [hp])⟩
    all_goals grind [Function.update_apply]
  | signal =>
    rw [hdrained]
    refine ⟨?_, List.nodup_nil, by simp, ?_, ?_, ?_, by simp⟩
    · grind [Function.update_apply]
    · grind [Function.update_apply]
    · grind [Function.update_apply]
    · intro j _ _
      exact (hnotifier i hp).2

/-- The owner of the mutex can always move. -/
theorem Inv.free (hi : Inv kind m P) (hstill : ∀ i, Monitor.step all (kind i) i m (P i) = none) :
    m.owner = none := by
  by_contra hne
  obtain ⟨j, hj⟩ := Option.ne_none_iff_exists'.mp hne
  have hinside := (hi.owner j).mp hj
  rcases step_eq_none (hstill j) with h | ⟨h, -⟩ | ⟨h, -⟩ <;> simp [hinside] at h

/-- **Once the flag is set, agents that stand still are outside of their calls.** -/
theorem Inv.all_out (hi : Inv kind m P) (hflag : m.flag = true)
    (hstill : ∀ i, Monitor.step all (kind i) i m (P i) = none) (i : ι) : P i = .out := by
  rcases step_eq_none (hstill i) with h | ⟨-, h⟩ | ⟨-, h⟩
  · exact h
  · exact absurd (hi.free hstill) h
  · obtain ⟨j, hj⟩ := hi.unlost hflag (List.ne_nil_of_mem h)
    rcases step_eq_none (hstill j) with h | ⟨h, -⟩ | ⟨h, -⟩ <;> simp [hj] at h

/-- Notifiers never stand still inside of their calls. -/
theorem Inv.notifier_out (hi : Inv kind m P)
    (hstill : ∀ i, Monitor.step all (kind i) i m (P i) = none) (hk : kind i = .notify) :
    P i = .out := by
  rcases step_eq_none (hstill i) with h | ⟨-, h⟩ | ⟨h, -⟩
  · exact h
  · exact absurd (hi.free hstill) h
  · have := hi.waiter i h
    simp [hk] at this

/-! ### Programs that make such calls -/

/-- Where a program stands: in its call, or somewhere of its own before and after it. -/
inductive Stage (β : Type*)
  | own (b : β)
  | call (p : Pos)
deriving DecidableEq

def Stage.pos {β : Type*} : Stage β → Pos
  | .own _ => .out
  | .call p => p

/-- The invariant for programs: the flag is up exactly if a notifier has set it, and a waiter that has
returned has seen it. -/
structure Calls {β : Type*} (kind : ι → Call) (m : Mem ι) (st : ι → Stage β) : Prop where
  monitor : Inv kind m fun i => (st i).pos
  flag : m.flag = true ↔ ∃ i, kind i = .notify ∧ (st i = .call .signal ∨ st i = .call .out)
  left : ∀ i, kind i = .wait → st i = .call .out → m.flag = true

variable {β : Type*} {st : ι → Stage β}

theorem pos_update (st : ι → Stage β) (i : ι) (x : Stage β) :
    (fun j => (Function.update st i x j).pos) = Function.update (fun j => (st j).pos) i x.pos := by
  funext j
  by_cases h : j = i
  · subst h
    simp
  · simp [h]

/-- A program that is not behind the setting of the flag moves to such a place. -/
theorem Calls.early (hi : Calls kind m st) {x : Stage β}
    (hinv : Inv kind m (Function.update (fun j => (st j).pos) i x.pos))
    (hst : kind i = .notify → st i ≠ .call .signal ∧ st i ≠ .call .out)
    (hx : x ≠ .call .signal ∧ x ≠ .call .out) : Calls kind m (Function.update st i x) := by
  obtain ⟨-, hflag, hleft⟩ := hi
  refine ⟨by rw [pos_update]; exact hinv, ?_, ?_⟩
  · rw [hflag]
    refine exists_congr fun j => ?_
    by_cases h : j = i
    · subst h
      rw [Function.update_self]
      exact and_congr_right fun hk => by simp [hst hk, hx]
    · rw [Function.update_of_ne h]
  · intro j hk hj
    by_cases h : j = i
    · subst h
      rw [Function.update_self] at hj
      exact absurd hj hx.2
    · rw [Function.update_of_ne h] at hj
      exact hleft j hk hj

/-- A program begins its call. -/
theorem Calls.enter (hi : Calls kind m st) {b : β} (h : st i = .own b) :
    Calls kind m (Function.update st i (.call .lock)) :=
  hi.early (hi.monitor.enter (by simp [h, Stage.pos])) (by simp [h]) (by simp)

/-- A program that is outside of its call, and not a notifier that is behind it, goes on by itself. -/
theorem Calls.own (hi : Calls kind m st) (h : (st i).pos = .out)
    (hk : kind i = .notify → ∃ b, st i = .own b) (b : β) :
    Calls kind m (Function.update st i (.own b)) := by
  refine hi.early ?_ ?_ (by simp)
  · have hsame : Function.update (fun j => (st j).pos) i (Stage.own b).pos = fun j => (st j).pos := by
      rw [Function.update_eq_self_iff, h]
      rfl
    rw [hsame]
    exact hi.monitor
  · intro hn
    obtain ⟨b', hb'⟩ := hk hn
    simp [hb']

/-- A step of a call. -/
theorem Calls.step (hr : Reaches all kind) (hi : Calls kind m st) (hp : st i = .call p)
    (h : Move all (kind i) i m p m' p') : Calls kind m' (Function.update st i (.call p')) := by
  have hpos : (st i).pos = p := by simp [hp, Stage.pos]
  obtain ⟨hinv, hflag, hleft⟩ := hi
  have hinv' : Inv kind m' fun j => (Function.update st i (.call p') j).pos := by
    rw [pos_update]
    exact hinv.step hr (by rw [hpos]; exact h)
  rcases h.flag with ⟨hk, -, rfl, hm'⟩ | ⟨hm', hne, hne', hout⟩
  · exact ⟨hinv', ⟨fun _ => ⟨i, hk, Or.inl (Function.update_self ..)⟩, fun _ => hm'⟩, fun _ _ _ => hm'⟩
  · refine ⟨hinv', ?_, ?_⟩
    · rw [hm', hflag]
      refine exists_congr fun j => ?_
      by_cases h : j = i
      · subst h
        rw [Function.update_self]
        refine and_congr_right fun hk => ?_
        simp [hp, hne, hne', hout, hk]
      · rw [Function.update_of_ne h]
    · intro j hk hj
      rw [hm']
      by_cases h : j = i
      · subst h
        rw [Function.update_self] at hj
        rcases hout.mp (Stage.call.inj hj) with hsig | ⟨-, -, htrue⟩
        · exact (hinv.notifier j (by rw [hpos, hsig])).2
        · exact htrue
      · rw [Function.update_of_ne h] at hj
        exact hleft j hk hj

/-! ### Bounded calls -/

/-- The steps an agent has left; it is in the queue at most once. -/
def rank (flag : Bool) : Pos → ℕ
  | .out => 0
  | .lock => if flag then 3 else 6
  | .inside => if flag then 2 else 5
  | .blocked => 4
  | .signal => 1

/-- Setting the flag takes steps off everybody. -/
theorem rank_mono {b b' : Bool} (h : b = true → b' = true) (p : Pos) : rank b' p ≤ rank b p := by
  rcases b with _ | _
  · cases b' <;> cases p <;> simp [rank]
  · exact Nat.le_of_eq (by rw [h rfl])

omit [DecidableEq ι] in
theorem rank_step (hi : Inv kind m P) (h : Move all (kind i) i m (P i) m' p') :
    rank m'.flag p' < rank m.flag (P i) ∧ (m.flag = true → m'.flag = true) := by
  have hwoken := hi.woken i
  generalize hp : P i = p at h hwoken
  cases h with
  | lock hfree =>
    refine ⟨?_, id⟩
    cases m.flag <;> simp [rank]
  | leave hc hflag => simp [rank, hflag]
  | block hc hflag => simp [rank, hflag]
  | set hc =>
    refine ⟨?_, fun _ => rfl⟩
    cases m.flag <;> simp [rank]
  | wake hq =>
    have hflag := hwoken rfl hq
    simp [rank, hflag]
  | signal => simp [rank]

/-- One agent goes on and the others have no more steps left than before. -/
theorem sum_rank_lt {α : Type*} {T : Finset ι} {r r' : α → ℕ} {f : ι → α} {i : ι} {x : α} (hi : i ∈ T)
    (hlt : r' x < r (f i)) (hle : ∀ y, r' y ≤ r y) :
    ∑ j ∈ T, r' (Function.update f i x j) < ∑ j ∈ T, r (f j) := by
  refine Finset.sum_lt_sum ?_ ⟨i, hi, ?_⟩
  · intro j _
    by_cases h : j = i
    · subst h
      rw [Function.update_self]
      exact hlt.le
    · rw [Function.update_of_ne h]
      exact hle _
  · rw [Function.update_self]
    exact hlt

end Jkit.Lib.Monitor
