import Jkit.Lib.Run
import Jkit.Lib.Channel

/-! # `wait_stuff.hpp`: the combinators over a vector of functions

A call launches one fiber for each function and then waits on a channel. The fiber runs its function,
pushes the outcome and, behind an `nchannel`, decrements `limit_` and closes the channel when it has
come to zero; these are separate steps. Steps of the caller and of the fibers are interleaved in any
order, the caller may still be launching while the first fibers run.

`pushed`, `counted` and `popped` are the history of the channel: which fibers have pushed and which have
decremented, in order, and what the caller has taken. `Move` lists what a step can do. -/

namespace Jkit.Common.Fiber.WaitStuff

open Jkit.Lib.Run Jkit.Lib.Channel

variable {V E : Type}

/-! ### Calls -/

/-- What a function does: it returns or throws. -/
inductive Outcome (V E : Type)
  | value (v : V)
  | error (e : E)
deriving DecidableEq

def Outcome.value? : Outcome V E → Option V
  | .value v => some v
  | .error _ => none

def Outcome.error? : Outcome V E → Option E
  | .value _ => none
  | .error e => some e

/-- The combinators that take a vector. -/
inductive Combinator
  | firstValue
  | firstOutcome
  | firstSuccess
  | allValues
  | allUntilError
  | allCollectErrors
deriving DecidableEq

/-- The fibers run their function in a `packaged_task`, which captures an exception. -/
def Combinator.captures : Combinator → Bool
  | .firstValue => false
  | .allValues => false
  | _ => true

/-- The fibers push through an `nchannel`. -/
def Combinator.counts : Combinator → Bool
  | .allValues => true
  | .allUntilError => true
  | .allCollectErrors => true
  | _ => false

/-- A call with the outcomes of its functions; a function throws only where that is captured. -/
structure Call (V E : Type) where
  combinator : Combinator
  functions : List (Outcome V E)
  captured : combinator.captures = false → ∀ f ∈ functions, ∃ v, f = .value v

/-- `functions.size()`. -/
def Call.count (call : Call V E) : ℕ := call.functions.length

/-! ### State -/

/-- The positions of a fiber. -/
inductive Stage
  | idle
  | run
  | push
  | count
  | close
  | done
deriving DecidableEq

/-- How a call ends. `closed` is the exception of `value_pop` on a closed channel. -/
inductive Result (V E : Type)
  | value (v : V)
  | error (e : E)
  | values (vs : List V)
  | errors (es : List E)
  | closed
deriving DecidableEq

/-- `future.get()`. -/
def Outcome.result : Outcome V E → Result V E
  | .value v => .value v
  | .error e => .error e

/-- The positions of the caller. -/
inductive Caller (V E : Type)
  | launch
  | wait
  | close (r : Result V E)
  | done (r : Result V E)
deriving DecidableEq

structure St (V E : Type) where
  chan : Chan (Outcome V E)
  limit : ℕ
  fiber : ℕ → Stage
  launched : ℕ
  caller : Caller V E
  results : List V
  exceptions : List E
  pushed : List ℕ
  counted : List ℕ
  popped : List (Outcome V E)

inductive Ev
  | caller
  | fiber (i : ℕ)
deriving DecidableEq

/-- `buffered_channel(64)` holds one item less. -/
def capacity : ℕ := 63

/-- `--limit_`. -/
def decrement (n : ℕ) : ℕ := if n = 0 then 18446744073709551615 else n - 1

/-! ### Steps -/

/-- What the caller does with an item. -/
def take (call : Call V E) (s : St V E) (x : Outcome V E) : St V E :=
  match call.combinator, x with
  | .firstValue, x => { s with caller := .close x.result }
  | .firstOutcome, x => { s with caller := .close x.result }
  | .firstSuccess, .value v => { s with caller := .close (.value v) }
  | .firstSuccess, .error e => { s with exceptions := s.exceptions ++ [e] }
  | .allValues, .value v => { s with results := s.results ++ [v] }
  | .allUntilError, .value v => { s with results := s.results ++ [v] }
  | .allValues, .error e => { s with caller := .done (.error e) }
  | .allUntilError, .error e => { s with caller := .done (.error e) }
  | .allCollectErrors, .value v => { s with results := s.results ++ [v] }
  | .allCollectErrors, .error e => { s with exceptions := s.exceptions ++ [e] }

/-- The end of the call when the channel reports that it is closed. -/
def finished (call : Call V E) (s : St V E) : Result V E :=
  match call.combinator with
  | .firstValue => .closed
  | .firstOutcome => .closed
  | .firstSuccess => .closed
  | .allValues => .values s.results
  | .allUntilError => .values s.results
  | .allCollectErrors => if s.exceptions = [] then .values s.results else .errors s.exceptions

/-- `wait_first_success_c` has taken as many items as there are functions. -/
def Exhausted (call : Call V E) (s : St V E) : Prop :=
  call.combinator = .firstSuccess ∧ call.count ≤ s.exceptions.length

instance (call : Call V E) (s : St V E) : Decidable (Exhausted call s) :=
  inferInstanceAs (Decidable (_ ∧ _))

/-- A step of the caller. -/
def callerStep (call : Call V E) (s : St V E) : Option (St V E) :=
  match s.caller with
  | .launch =>
    if s.launched < call.count then
      some { s with launched := s.launched + 1, fiber := Function.update s.fiber s.launched .run }
    else some { s with caller := .wait }
  | .wait =>
    if Exhausted call s then some { s with caller := .done (.errors s.exceptions) }
    else
      match s.chan.pop with
      | some (c, some x) => some (take call { s with chan := c, popped := s.popped ++ [x] } x)
      | some (_, none) => some { s with caller := .done (finished call s) }
      | none => none
  | .close r => some { s with chan := s.chan.close, caller := .done r }
  | .done _ => none

/-- A step of the fiber `i`. -/
def fiberStep (call : Call V E) (s : St V E) (i : ℕ) : Option (St V E) :=
  match s.fiber i with
  | .run => some { s with fiber := Function.update s.fiber i .push }
  | .push =>
    match call.functions[i]? with
    | none => none
    | some x =>
      match s.chan.push capacity x with
      | none => none
      | some (_, false) => some { s with fiber := Function.update s.fiber i .done }
      | some (c, true) =>
        some { s with
          chan := c
          pushed := s.pushed ++ [i]
          fiber := Function.update s.fiber i (if call.combinator.counts then .count else .done) }
  | .count =>
    some { s with
      limit := decrement s.limit
      counted := s.counted ++ [i]
      fiber := Function.update s.fiber i (if decrement s.limit = 0 then .close else .done) }
  | .close => some { s with chan := s.chan.close, fiber := Function.update s.fiber i .done }
  | _ => none

/-- The channel as the call makes it: the constructor of `nchannel` closes it if the limit is zero. -/
def initChan (call : Call V E) : Chan (Outcome V E) :=
  if call.combinator.counts = true ∧ call.count = 0 then ({} : Chan (Outcome V E)).close else {}

def sys (call : Call V E) : Sys (St V E) Ev where
  init :=
    { chan := initChan call, limit := call.count, fiber := fun _ => .idle, launched := 0,
      caller := .launch, results := [], exceptions := [], pushed := [], counted := [], popped := [] }
  step s
    | .caller => callerStep call s
    | .fiber i => fiberStep call s i

/-! ### What a step can do -/

inductive Move (call : Call V E) (s : St V E) : Ev → St V E → Prop
  | launch (hc : s.caller = .launch) (h : s.launched < call.count) :
    Move call s .caller
      { s with launched := s.launched + 1, fiber := Function.update s.fiber s.launched .run }
  | launched (hc : s.caller = .launch) (h : call.count ≤ s.launched) :
    Move call s .caller { s with caller := .wait }
  | exhausted (hc : s.caller = .wait) (h : Exhausted call s) :
    Move call s .caller { s with caller := .done (.errors s.exceptions) }
  | pop (c : Chan (Outcome V E)) (x : Outcome V E) (hc : s.caller = .wait) (h : ¬Exhausted call s)
    (hq : s.chan.queue = x :: c.queue) (hcl : c.closes = s.chan.closes) :
    Move call s .caller (take call { s with chan := c, popped := s.popped ++ [x] } x)
  | drained (hc : s.caller = .wait) (h : ¬Exhausted call s) (hq : s.chan.queue = [])
    (hcl : 0 < s.chan.closes) : Move call s .caller { s with caller := .done (finished call s) }
  | close (r : Result V E) (hc : s.caller = .close r) :
    Move call s .caller { s with chan := s.chan.close, caller := .done r }
  | run (i : ℕ) (hf : s.fiber i = .run) :
    Move call s (.fiber i) { s with fiber := Function.update s.fiber i .push }
  | refused (i : ℕ) (hf : s.fiber i = .push) (hcl : 0 < s.chan.closes) :
    Move call s (.fiber i) { s with fiber := Function.update s.fiber i .done }
  | pushed (i : ℕ) (x : Outcome V E) (hf : s.fiber i = .push) (hx : call.functions[i]? = some x)
    (hcl : s.chan.closes = 0) (hq : s.chan.queue.length < capacity) :
    Move call s (.fiber i)
      { s with
        chan := { s.chan with queue := s.chan.queue ++ [x] }
        pushed := s.pushed ++ [i]
        fiber := Function.update s.fiber i (if call.combinator.counts then .count else .done) }
  | counted (i : ℕ) (hf : s.fiber i = .count) :
    Move call s (.fiber i)
      { s with
        limit := decrement s.limit
        counted := s.counted ++ [i]
        fiber := Function.update s.fiber i (if decrement s.limit = 0 then .close else .done) }
  | closed (i : ℕ) (hf : s.fiber i = .close) :
    Move call s (.fiber i)
      { s with chan := s.chan.close, fiber := Function.update s.fiber i .done }

theorem callerStep_move {call : Call V E} {s s' : St V E} (h : callerStep call s = some s') :
    Move call s .caller s' := by
  unfold callerStep at h
  split at h
  · rename_i hc
    split_ifs at h with hl
    · obtain rfl := Option.some.inj h
      exact .launch hc hl
    · obtain rfl := Option.some.inj h
      exact .launched hc (by omega)
  · rename_i hc
    split_ifs at h with he
    · obtain rfl := Option.some.inj h
      exact .exhausted hc he
    · split at h
      · rename_i c x hpop
        obtain rfl := Option.some.inj h
        obtain ⟨hq, hcl⟩ := Chan.pop_some hpop
        exact .pop c x hc he hq hcl
      · rename_i c hpop
        obtain rfl := Option.some.inj h
        obtain ⟨hq, hcl, -⟩ := Chan.pop_none hpop
        exact .drained hc he hq hcl
      · simp at h
  · rename_i r hc
    obtain rfl := Option.some.inj h
    exact .close r hc
  · simp at h

theorem fiberStep_move {call : Call V E} {s s' : St V E} {i : ℕ} (h : fiberStep call s i = some s') :
    Move call s (.fiber i) s' := by
  unfold fiberStep at h
  split at h
  · rename_i hf
    obtain rfl := Option.some.inj h
    exact .run i hf
  · rename_i hf
    split at h
    · simp at h
    · rename_i x hx
      split at h
      · simp at h
      · rename_i c hpush
        obtain rfl := Option.some.inj h
        exact .refused i hf (Chan.push_false hpush).1
      · rename_i c hpush
        obtain rfl := Option.some.inj h
        obtain ⟨hcl, hq, rfl⟩ := Chan.push_true hpush
        exact .pushed i x hf hx hcl hq
  · rename_i hf
    obtain rfl := Option.some.inj h
    exact .counted i hf
  · rename_i hf
    obtain rfl := Option.some.inj h
    exact .closed i hf
  · simp at h

theorem step_move {call : Call V E} {s s' : St V E} {e : Ev} (h : (sys call).step s e = some s') :
    Move call s e s' := by
  cases e with
  | caller => exact callerStep_move h
  | fiber i => exact fiberStep_move h

/-- A fiber that has been launched and is not done can move, unless it pushes on a full channel. -/
theorem fiberStep_eq_none {call : Call V E} {s : St V E} {i : ℕ} (hi : i < call.count)
    (h : fiberStep call s i = none) : s.fiber i = .idle ∨ s.fiber i = .done ∨
      s.fiber i = .push ∧ s.chan.closes = 0 ∧ capacity ≤ s.chan.queue.length := by
  obtain ⟨x, hx⟩ : ∃ x, call.functions[i]? = some x := ⟨_, List.getElem?_eq_getElem hi⟩
  unfold fiberStep at h
  cases hf : s.fiber i with
  | idle => exact Or.inl rfl
  | run => simp [hf] at h
  | push =>
    simp only [hf, hx] at h
    split at h
    · rename_i hpush
      exact Or.inr (Or.inr ⟨rfl, Chan.push_eq_none.mp hpush⟩)
    · simp at h
    · simp at h
  | count => simp [hf] at h
  | close => simp [hf] at h
  | done => exact Or.inr (Or.inl rfl)

end Jkit.Common.Fiber.WaitStuff
