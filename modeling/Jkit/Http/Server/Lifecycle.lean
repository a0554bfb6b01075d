import Jkit.Lib.Hold
import Jkit.Lib.Run
import Mathlib.Data.Nat.Count
import Mathlib.Tactic.SplitIfs

/-! # `HttpApiServer::start`, `stop`, the accept fiber and the session fibers

The caller of `start` and `stop`, the accept fiber and any number of session fibers run interleaved
over `m_running`, `m_acceptor`, `m_session_mutex` and `m_session_number`. The caller may go through any
number of rounds of `start` and `stop`. What the environment decides stands in the labels: whether an
operation on the acceptor succeeds, and how a pending `async_accept` completes. An exception that
leaves the accept fiber ends the process: after it no step is enabled.

`stop_graceful` is what `stop` relies on: it passes its wait only when every session has executed its
decrement, and its wakeup is never lost. -/

namespace Jkit.Http.Server.Lifecycle

open Jkit.Lib.Run Jkit.Lib.Hold

/-! ### The model -/

/-- Who holds `m_session_mutex`. -/
inductive Holder
  | main
  | accept
  | session (i : ℕ)
deriving DecidableEq

/-- The position of the caller: in `start` from `startLock` to `launch`, in `stop` from `close` to
`finish`. -/
inductive Main
  | idle
  | startLock
  | reset
  | startUnlock
  | launch
  | started
  | close
  | join
  | lock
  | test
  | blocked
  | notified
  | passed
  | finish
deriving DecidableEq

/-- How an `async_accept` completes, as far as the code tells the cases apart. -/
inductive AcceptResult
  | ok
  | noDescriptors
  | aborted
  | other
deriving DecidableEq

/-- The position of the accept fiber. `pending` is an `async_accept` that has not completed; `resumed`
one that has. -/
inductive Accept
  | none
  | opening
  | setOption
  | bind
  | listen
  | issue
  | pending
  | resumed (r : AcceptResult)
  | lock
  | inc
  | unlock
  | broke
  | joined
  | threw
deriving DecidableEq

/-- The position of a session fiber. -/
inductive Session
  | unborn
  | serving
  | ended
  | locked
  | decremented
  | tested
  | done
deriving DecidableEq

/-- The state. `accepts` counts the connections accepted so far and `spawned` the session fibers; the
code does not read them. -/
structure State where
  running : Bool := false
  isOpen : Bool := false
  mutex : Option Holder := none
  number : ℤ := 0
  main : Main := .idle
  accept : Accept := .none
  sessions : ℕ → Session := fun _ => .unborn
  spawned : ℕ := 0
  accepts : ℕ := 0

/-- The label of a step. -/
inductive Label
  | start
  | main
  | spurious
  | accept (ok : Bool)
  | complete (r : AcceptResult)
  | session (i : ℕ)
deriving DecidableEq

/-- A step of the caller, inside `start` or from the call of `stop` to its end. -/
def mainStep (s : State) : Option State :=
  match s.main with
  | .startLock => if s.mutex = none then some { s with mutex := some .main, main := .reset } else none
  | .reset => some { s with number := 0, main := .startUnlock }
  | .startUnlock => some { s with mutex := none, main := .launch }
  | .launch => some { s with accept := .opening, main := .started }
  | .started => some { s with running := false, main := .close }
  | .close =>
    some { s with
      isOpen := false
      accept := if s.accept = .pending then .resumed .aborted else s.accept
      main := .join }
  | .join => if s.accept = .broke then some { s with accept := .joined, main := .lock } else none
  | .lock | .notified =>
    if s.mutex = none then some { s with mutex := some .main, main := .test } else none
  | .test =>
    if s.number = 0 then some { s with main := .passed }
    else some { s with mutex := none, main := .blocked }
  | .passed => some { s with mutex := none, main := .finish }
  | .finish => some { s with main := .idle }
  | .idle | .blocked => none

/-- A step of the accept fiber. An operation on a closed acceptor fails with `bad_descriptor`. -/
def acceptStep (s : State) (ok : Bool) : Option State :=
  match s.accept with
  | .opening =>
    some (if ok ∧ ¬ s.isOpen then { s with isOpen := true, accept := .setOption }
      else { s with accept := .threw })
  | .setOption => some { s with accept := if ok ∧ s.isOpen then .bind else .threw }
  | .bind => some { s with accept := if ok ∧ s.isOpen then .listen else .threw }
  | .listen => some { s with accept := if ok ∧ s.isOpen then .issue else .threw }
  | .issue => some { s with accept := if s.isOpen then .pending else .resumed .other }
  | .resumed .ok =>
    some { s with
      sessions := Function.update s.sessions s.spawned .serving
      spawned := s.spawned + 1
      accept := .lock }
  | .resumed .noDescriptors => some { s with accept := .issue }
  | .resumed .aborted => some { s with accept := .broke }
  | .resumed .other => some { s with accept := .threw }
  | .lock => if s.mutex = none then some { s with mutex := some .accept, accept := .inc } else none
  | .inc => some { s with number := s.number + 1, accept := .unlock }
  | .unlock => some { s with mutex := none, accept := .issue }
  | .none | .pending | .broke | .joined | .threw => none

/-- A step of session fiber `i`. -/
def sessionStep (s : State) (i : ℕ) : Option State :=
  match s.sessions i with
  | .serving => some { s with sessions := Function.update s.sessions i .ended }
  | .ended =>
    if s.mutex = none then
      some { s with mutex := some (.session i), sessions := Function.update s.sessions i .locked }
    else none
  | .locked =>
    some { s with
      number := s.number - 1
      sessions := Function.update s.sessions i .decremented }
  | .decremented =>
    some { s with
      main := if s.running = false ∧ s.number = 0 ∧ s.main = .blocked then .notified else s.main
      sessions := Function.update s.sessions i .tested }
  | .tested => some { s with mutex := none, sessions := Function.update s.sessions i .done }
  | .unborn | .done => none

/-- A step; none after the process has ended. -/
def step (s : State) (l : Label) : Option State :=
  if s.accept = .threw then none
  else
    match l with
    | .start => if s.main = .idle then some { s with running := true, main := .startLock } else none
    | .main => mainStep s
    | .spurious => if s.main = .blocked then some { s with main := .notified } else none
    | .accept ok => acceptStep s ok
    | .complete r =>
      if s.accept = .pending ∧ r ≠ .aborted then
        some { s with
          accept := .resumed r
          accepts := if r = .ok then s.accepts + 1 else s.accepts }
      else none
    | .session i => sessionStep s i

/-- The server, in any interleaving. -/
def sys : Sys State Label where
  init := {}
  step := step

/-! ### The invariant -/

/-- The caller holds the mutex. -/
def Main.locks : Main → Bool
  | .reset | .startUnlock | .test | .passed => true
  | _ => false

/-- The accept fiber may run. -/
def Main.accepting : Main → Bool
  | .started | .close | .join => true
  | _ => false

/-- `m_running` is set. -/
def Main.runs : Main → Bool
  | .startLock | .reset | .startUnlock | .launch | .started => true
  | _ => false

/-- The wait of the last `stop` is over. -/
def Main.waited : Main → Bool
  | .passed | .finish | .idle | .startLock | .reset | .startUnlock | .launch => true
  | _ => false

/-- The accept fiber holds the mutex. -/
def Accept.locks : Accept → Bool
  | .inc | .unlock => true
  | _ => false

/-- The accept fiber has spawned a session and not yet counted it. -/
def Accept.owes : Accept → ℤ
  | .lock | .inc => 1
  | _ => 0

/-- The session fiber holds the mutex. -/
def Session.locks : Session → Bool
  | .locked | .decremented | .tested => true
  | _ => false

/-- The session fiber has executed its decrement. -/
def Session.left : Session → Bool
  | .decremented | .tested | .done => true
  | _ => false

/-- Who stands inside a critical section of the mutex. -/
def State.locks (s : State) : Holder → Bool
  | .main => s.main.locks
  | .accept => s.accept.locks
  | .session i => (s.sessions i).locks

/-- The number of decrements so far. -/
def State.decrements (s : State) : ℕ := Nat.count (fun i => (s.sessions i).left = true) s.spawned

/-- `m_session_number` counts the sessions that have been counted in and not out, and a `stop` that is
blocked while it is zero is about to be notified. -/
structure Inv (s : State) : Prop where
  number : s.number = s.spawned - s.accept.owes - s.decrements
  unborn : ∀ i, s.sessions i = .unborn ↔ s.spawned ≤ i
  mutex : Guards s.mutex s.locks
  quiet : s.main.accepting = false → s.accept = .none ∨ s.accept = .joined
  stopped : s.main.runs = false → s.running = false
  waited : s.main.waited = true → s.decrements = s.spawned
  wake : s.main = .blocked → s.number = 0 → ∃ i, s.sessions i = .decremented

/-! ### Counting -/

theorem count_congr {g g' : ℕ → Bool} : ∀ {n : ℕ}, (∀ j < n, g j = g' j) →
    Nat.count (fun j => g j = true) n = Nat.count (fun j => g' j = true) n
  | 0, _ => rfl
  | n + 1, h => by
    rw [Nat.count_succ, Nat.count_succ, count_congr fun j hj => h j (by omega), h n (by omega)]

theorem count_update {g : ℕ → Bool} {i : ℕ} (hg : g i = false) : ∀ {n : ℕ}, i < n →
    Nat.count (fun j => Function.update g i true j = true) n = Nat.count (fun j => g j = true) n + 1
  | 0, h => by omega
  | n + 1, h => by
    rw [Nat.count_succ, Nat.count_succ]
    rcases Nat.lt_succ_iff_lt_or_eq.mp h with hlt | rfl
    · rw [count_update hg hlt, Function.update_of_ne (by omega)]
      omega
    · have hsame : ∀ j < i, Function.update g i true j = g j := fun j hj =>
        Function.update_of_ne (by omega) _ _
      rw [count_congr hsame, Function.update_self, hg]
      simp

theorem left_update (f : ℕ → Session) (i : ℕ) (x : Session) :
    (fun j => (Function.update f i x j).left) = Function.update (fun j => (f j).left) i x.left :=
  funext fun j => Function.apply_update (fun _ => Session.left) f i x j

theorem inv_init : Inv sys.init := by
  have hcount : State.decrements {} = 0 := Nat.count_zero _
  refine ⟨?_, ?_, ?_, ?_, ?_, ?_, ?_⟩
  · simp [sys, hcount, Accept.owes]
  · simp [sys]
  · intro k
    cases k <;> simp [sys, State.locks, Main.locks, Accept.locks, Session.locks]
  · simp [sys]
  · simp [sys]
  · simp [sys, hcount]
  · simp [sys]

section Steps

variable {s s' : State}

/-! ### The caller -/

theorem locks_main (ha : s'.accept.locks = s.accept.locks) (hs : s'.sessions = s.sessions) :
    s'.locks = Function.update s.locks .main s'.main.locks := by
  funext k
  cases k <;> simp [State.locks, ha, hs]

/-- A step of the caller that leaves the number and the sessions alone. -/
theorem Inv.ofMain (hI : Inv s) (hnum : s'.number = s.number) (hses : s'.sessions = s.sessions)
    (hsp : s'.spawned = s.spawned) (hacc : s'.accept.owes = s.accept.owes)
    (hmutex : Guards s'.mutex (Function.update s.locks .main s'.main.locks))
    (hlock : s'.accept.locks = s.accept.locks)
    (hquiet : s'.main.accepting = false → s'.accept = .none ∨ s'.accept = .joined)
    (hstop : s'.main.runs = false → s'.running = false)
    (hwaited : s'.main.waited = true → s.decrements = s.spawned)
    (hwake : s'.main = .blocked → s.number ≠ 0) : Inv s' := by
  have hdec : s'.decrements = s.decrements := by simp only [State.decrements, hses, hsp]
  refine ⟨?_, ?_, ?_, hquiet, hstop, ?_, ?_⟩
  · rw [hnum, hsp, hacc, hdec]; exact hI.number
  · rw [hses, hsp]; exact hI.unborn
  · rw [locks_main hlock hses]; exact hmutex
  · rw [hdec, hsp]; exact hwaited
  · intro hb h0
    exact absurd (hnum ▸ h0) (hwake hb)

/-- An accept fiber that does not run owes no increment. -/
theorem Inv.owes_eq_zero (hI : Inv s) (h : s.main.accepting = false) : s.accept.owes = 0 := by
  rcases hI.quiet h with ha | ha
  · rw [ha]; rfl
  · rw [ha]; rfl

theorem inv_main (hI : Inv s) (h : mainStep s = some s') : Inv s' := by
  have hkeep : ∀ {b}, s.main.locks = b → Guards s.mutex (Function.update s.locks .main b) :=
    fun hb => hI.mutex.keep (i := Holder.main) hb
  have htake : s.mutex = none → Guards (some .main) (Function.update s.locks .main true) :=
    fun hm => (hm ▸ hI.mutex : Guards none s.locks).take
  have hdrop : s.main.locks = true → Guards none (Function.update s.locks .main false) :=
    fun hm => hI.mutex.drop (i := Holder.main) hm
  have hquiet := hI.quiet
  have hstop := hI.stopped
  have hwaited := hI.waited
  unfold mainStep at h
  split at h
  case h_1 hm =>
    split_ifs at h with hfree
    cases h
    rw [hm] at hquiet hwaited
    exact hI.ofMain rfl rfl rfl rfl (htake hfree) rfl hquiet (by simp [Main.runs]) hwaited (by simp)
  case h_2 hm =>
    cases h
    rw [hm] at hquiet hwaited
    have hdone := hwaited rfl
    have howes : s.accept.owes = 0 := hI.owes_eq_zero (by rw [hm]; rfl)
    refine ⟨?_, hI.unborn, ?_, hquiet, by simp [Main.runs], hwaited, by simp⟩
    · show (0 : ℤ) = s.spawned - s.accept.owes - s.decrements
      rw [howes, hdone]; omega
    · have hl : State.locks { s with number := 0, main := .startUnlock } =
          Function.update s.locks .main true := locks_main rfl rfl
      rw [hl]
      exact hkeep (by rw [hm]; rfl)
  case h_3 hm =>
    cases h
    rw [hm] at hquiet hwaited
    exact hI.ofMain rfl rfl rfl rfl (hdrop (by rw [hm]; rfl)) rfl hquiet (by simp [Main.runs]) hwaited
      (by simp)
  case h_4 hm =>
    cases h
    rw [hm] at hquiet
    have hnone := hquiet rfl
    refine hI.ofMain rfl rfl rfl ?_ (hkeep (by rw [hm]; rfl)) ?_ (by simp [Main.accepting])
      (by simp [Main.runs]) (by simp [Main.waited]) (by simp)
    · rcases hnone with ha | ha <;> rw [ha] <;> rfl
    · rcases hnone with ha | ha <;> rw [ha] <;> rfl
  case h_5 hm =>
    cases h
    exact hI.ofMain rfl rfl rfl rfl (hkeep (by rw [hm]; rfl)) rfl (by simp [Main.accepting])
      (fun _ => rfl) (by simp [Main.waited]) (by simp)
  case h_6 hm =>
    cases h
    rw [hm] at hstop
    refine hI.ofMain rfl rfl rfl ?_ (hkeep (by rw [hm]; rfl)) ?_ (by simp [Main.accepting]) hstop
      (by simp [Main.waited]) (by simp)
    · by_cases hp : s.accept = .pending <;> simp [hp, Accept.owes]
    · by_cases hp : s.accept = .pending <;> simp [hp, Accept.locks]
  case h_7 hm =>
    split_ifs at h with hb
    cases h
    rw [hm] at hstop
    exact hI.ofMain rfl rfl rfl (by rw [hb]; rfl) (hkeep (by rw [hm]; rfl)) (by rw [hb]; rfl)
      (fun _ => .inr rfl) hstop (by simp [Main.waited]) (by simp)
  case h_8 hm | h_9 hm =>
    split_ifs at h with hfree
    cases h
    rw [hm] at hquiet hstop
    exact hI.ofMain rfl rfl rfl rfl (htake hfree) rfl hquiet hstop (by simp [Main.waited]) (by simp)
  case h_10 hm =>
    rw [hm] at hquiet hstop
    split_ifs at h with hzero
    · cases h
      refine hI.ofMain rfl rfl rfl rfl (hkeep (by rw [hm]; rfl)) rfl hquiet hstop (fun _ => ?_) (by simp)
      -- the number is zero and no increment is due, so as many sessions have left as were spawned
      have hnum := hI.number
      have howes : s.accept.owes = 0 := hI.owes_eq_zero (by rw [hm]; rfl)
      omega
    · cases h
      exact hI.ofMain rfl rfl rfl rfl (hdrop (by rw [hm]; rfl)) rfl hquiet hstop (by simp [Main.waited])
        (fun _ => hzero)
  case h_11 hm =>
    cases h
    rw [hm] at hquiet hstop hwaited
    exact hI.ofMain rfl rfl rfl rfl (hdrop (by rw [hm]; rfl)) rfl hquiet hstop hwaited (by simp)
  case h_12 hm =>
    cases h
    rw [hm] at hquiet hstop hwaited
    exact hI.ofMain rfl rfl rfl rfl (hkeep (by rw [hm]; rfl)) rfl hquiet hstop hwaited (by simp)
  all_goals cases h

/-! ### The accept fiber -/

theorem locks_accept (hm : s'.main = s.main)
    (hs : ∀ i, (s'.sessions i).locks = (s.sessions i).locks) :
    s'.locks = Function.update s.locks .accept s'.accept.locks := by
  funext k
  cases k <;> simp [State.locks, hm, hs]

theorem accepting_of_accept (hI : Inv s) (h0 : s.accept ≠ .none) (h1 : s.accept ≠ .joined) :
    s.main.accepting = true := by
  by_contra hq
  rcases hI.quiet (by simpa using hq) with h | h
  · exact h0 h
  · exact h1 h

/-- A step of the accept fiber that spawns no session. -/
theorem Inv.ofAccept (hI : Inv s) (h0 : s.accept ≠ .none) (h1 : s.accept ≠ .joined)
    (hmain : s'.main = s.main) (hrun : s'.running = s.running) (hses : s'.sessions = s.sessions)
    (hsp : s'.spawned = s.spawned)
    (hnum : s'.number + s'.accept.owes = s.number + s.accept.owes)
    (hmutex : Guards s'.mutex (Function.update s.locks .accept s'.accept.locks)) : Inv s' := by
  have hacc := accepting_of_accept hI h0 h1
  have hdec : s'.decrements = s.decrements := by simp only [State.decrements, hses, hsp]
  have hnumber := hI.number
  refine ⟨?_, ?_, ?_, ?_, ?_, ?_, ?_⟩
  · rw [hsp, hdec]; omega
  · rw [hses, hsp]; exact hI.unborn
  · rw [locks_accept hmain fun i => by rw [hses]]; exact hmutex
  · rw [hmain, hacc]; simp
  · rw [hmain, hrun]; exact hI.stopped
  · rw [hmain, hdec, hsp]; exact hI.waited
  · rw [hmain]
    intro hb
    rw [hb] at hacc
    cases hacc

/-- A new session fiber, before it is counted. -/
theorem Inv.spawn (hI : Inv s) (ha : s.accept = .resumed .ok) :
    Inv { s with
      sessions := Function.update s.sessions s.spawned .serving
      spawned := s.spawned + 1
      accept := .lock } := by
  have hacc := accepting_of_accept hI (by simp [ha]) (by simp [ha])
  have hunborn : s.sessions s.spawned = .unborn := (hI.unborn _).mpr (Nat.le_refl _)
  have hdec : Nat.count (fun j => (Function.update s.sessions s.spawned .serving j).left = true)
      (s.spawned + 1) = s.decrements := by
    have hsame : ∀ j < s.spawned,
        (Function.update s.sessions s.spawned .serving j).left = (s.sessions j).left := fun j hj => by
      rw [Function.update_of_ne (by omega)]
    rw [Nat.count_succ, count_congr hsame, Function.update_self]
    rfl
  refine ⟨?_, fun i => ?_, ?_, ?_, hI.stopped, ?_, ?_⟩
  · have hnum : s.number = s.spawned - 0 - s.decrements := by
      have := hI.number
      rwa [ha] at this
    show s.number = (s.spawned + 1 : ℕ) - 1 - (Nat.count
      (fun j => (Function.update s.sessions s.spawned .serving j).left = true) (s.spawned + 1) : ℕ)
    rw [hdec]
    omega
  · rcases eq_or_ne i s.spawned with rfl | hi
    · simp
    · simp only [Function.update_of_ne hi, hI.unborn]
      omega
  · have hl : State.locks { s with
        sessions := Function.update s.sessions s.spawned .serving
        spawned := s.spawned + 1
        accept := .lock } = Function.update s.locks .accept false := by
      refine locks_accept rfl fun i => ?_
      rcases eq_or_ne i s.spawned with rfl | hi
      · simp [hunborn, Session.locks]
      · simp [hi]
    rw [hl]
    exact hI.mutex.keep (i := Holder.accept) (by simp [State.locks, ha, Accept.locks])
  · intro hq
    exact absurd hacc (by rw [hq]; simp)
  · intro ho
    revert hacc ho
    simp only
    cases s.main <;> simp [Main.accepting, Main.waited]
  · intro hb
    simp only at hb
    rw [hb] at hacc
    cases hacc

theorem inv_accept {ok : Bool} (hI : Inv s) (h : acceptStep s ok = some s') : Inv s' := by
  have hkeep : ∀ {b}, s.accept.locks = b → Guards s.mutex (Function.update s.locks .accept b) :=
    fun hb => hI.mutex.keep (i := Holder.accept) hb
  have htake : s.mutex = none → Guards (some .accept) (Function.update s.locks .accept true) :=
    fun hm => (hm ▸ hI.mutex : Guards none s.locks).take
  have hdrop : s.accept.locks = true → Guards none (Function.update s.locks .accept false) :=
    fun hm => hI.mutex.drop (i := Holder.accept) hm
  unfold acceptStep at h
  split at h
  case h_6 ha =>
    cases h
    exact hI.spawn ha
  case h_10 ha =>
    split_ifs at h with hfree
    cases h
    exact hI.ofAccept (by simp [ha]) (by simp [ha]) rfl rfl rfl rfl (by simp [ha, Accept.owes])
      (htake hfree)
  case h_11 ha =>
    cases h
    exact hI.ofAccept (by simp [ha]) (by simp [ha]) rfl rfl rfl rfl (by simp [ha, Accept.owes])
      (hkeep (by rw [ha]; rfl))
  case h_12 ha =>
    cases h
    exact hI.ofAccept (by simp [ha]) (by simp [ha]) rfl rfl rfl rfl (by simp [ha, Accept.owes])
      (hdrop (by rw [ha]; rfl))
  case h_1 ha =>
    cases h
    split_ifs
    · exact hI.ofAccept (by simp [ha]) (by simp [ha]) rfl rfl rfl rfl (by simp [ha, Accept.owes])
        (hkeep (by rw [ha]; rfl))
    · exact hI.ofAccept (by simp [ha]) (by simp [ha]) rfl rfl rfl rfl (by simp [ha, Accept.owes])
        (hkeep (by rw [ha]; rfl))
  case h_2 ha | h_3 ha | h_4 ha | h_5 ha =>
    cases h
    refine hI.ofAccept (by simp [ha]) (by simp [ha]) rfl rfl rfl rfl ?_ (hkeep ?_)
    · split_ifs <;> simp [ha, Accept.owes]
    · split_ifs <;> rw [ha] <;> rfl
  case h_7 ha | h_8 ha | h_9 ha =>
    cases h
    exact hI.ofAccept (by simp [ha]) (by simp [ha]) rfl rfl rfl rfl (by simp [ha, Accept.owes])
      (hkeep (by rw [ha]; rfl))
  all_goals cases h

theorem inv_complete {r : AcceptResult} {k : ℕ} (hI : Inv s) (ha : s.accept = .pending) :
    Inv { s with accept := .resumed r, accepts := k } := by
  refine hI.ofAccept (by simp [ha]) (by simp [ha]) rfl rfl rfl rfl (by simp [ha, Accept.owes]) ?_
  exact hI.mutex.keep (i := Holder.accept) (by simp [State.locks, ha, Accept.locks])

/-! ### The session fibers -/

theorem locks_session {i : ℕ} {x : Session} (hm : s'.main.locks = s.main.locks)
    (ha : s'.accept = s.accept) (hs : s'.sessions = Function.update s.sessions i x) :
    s'.locks = Function.update s.locks (.session i) x.locks := by
  funext k
  cases k with
  | main => simp [State.locks, hm]
  | accept => simp [State.locks, ha]
  | session j =>
    rcases eq_or_ne j i with rfl | hj
    · simp [State.locks, hs]
    · simp [State.locks, hs, hj]

/-- A step of a session fiber, with what it does to the number, the mutex and a blocked `stop`. -/
theorem Inv.ofSession {i : ℕ} {x : Session} (hI : Inv s) (hx : s.sessions i ≠ .unborn)
    (hx' : x ≠ .unborn) (hses : s'.sessions = Function.update s.sessions i x)
    (hsp : s'.spawned = s.spawned) (hacc : s'.accept = s.accept) (hrun : s'.running = s.running)
    (hmain : s'.main = s.main ∨ s.main = .blocked ∧ s'.main = .notified)
    (hmutex : Guards s'.mutex (Function.update s.locks (.session i) x.locks))
    (hnum : (s'.number = s.number ∧ x.left = (s.sessions i).left) ∨
      (s'.number = s.number - 1 ∧ x.left = true ∧ (s.sessions i).left = false))
    (hwake : s'.main = .blocked → s'.number = 0 → ∃ j, s'.sessions j = .decremented) : Inv s' := by
  have hlt : i < s.spawned := by
    by_contra hge
    exact hx ((hI.unborn i).mpr (by omega))
  have hcount := hI.number
  have hdec : s'.number + s'.decrements = s.number + s.decrements ∧
      s.decrements ≤ s'.decrements := by
    have hcong : s'.decrements = Nat.count
        (fun j => Function.update (fun j => (s.sessions j).left) i x.left j = true) s.spawned := by
      rw [← left_update]
      simp only [State.decrements, hses, hsp]
    rcases hnum with ⟨hn, hl⟩ | ⟨hn, hl, hl'⟩
    · rw [hl, Function.update_eq_self] at hcong
      have : s'.decrements = s.decrements := hcong
      omega
    · rw [hl, count_update hl' hlt] at hcong
      have : s'.decrements = s.decrements + 1 := hcong
      omega
  have hle : s'.decrements ≤ s.spawned := by
    rw [← hsp]
    exact Nat.count_le _
  have hlocks : s'.main.locks = s.main.locks ∧ s'.main.accepting = s.main.accepting ∧
      s'.main.runs = s.main.runs ∧ (s'.main.waited = s.main.waited) := by
    rcases hmain with hm | ⟨hm, hm'⟩
    · rw [hm]; simp
    · rw [hm, hm']; decide
  refine ⟨?_, fun j => ?_, ?_, ?_, ?_, ?_, hwake⟩
  · rw [hsp, hacc]; omega
  · rw [hses, hsp, Function.update_apply]
    split_ifs with hj
    · subst hj
      exact ⟨fun he => absurd he hx', fun he => absurd he (by omega)⟩
    · exact hI.unborn j
  · rw [locks_session hlocks.1 hacc hses]; exact hmutex
  · rw [hlocks.2.1, hacc]; exact hI.quiet
  · rw [hlocks.2.2.1, hrun]; exact hI.stopped
  · rw [hlocks.2.2.2, hsp]
    intro ho
    have := hI.waited ho
    omega

/-- Another session keeps a blocked `stop` from sleeping on. -/
theorem Inv.wake_other {i : ℕ} {x : Session} (hI : Inv s) (hi : s.sessions i ≠ .decremented)
    (hm : s.main = .blocked) (h0 : s.number = 0) :
    ∃ j, Function.update s.sessions i x j = .decremented := by
  obtain ⟨j, hj⟩ := hI.wake hm h0
  have hji : j ≠ i := by rintro rfl; exact hi hj
  exact ⟨j, by rw [Function.update_of_ne hji]; exact hj⟩

theorem inv_session {i : ℕ} (hI : Inv s) (h : sessionStep s i = some s') : Inv s' := by
  have hkeep : ∀ {b}, (s.sessions i).locks = b →
      Guards s.mutex (Function.update s.locks (.session i) b) :=
    fun hb => hI.mutex.keep (i := Holder.session i) hb
  unfold sessionStep at h
  split at h
  case h_1 hs =>
    cases h
    exact hI.ofSession (x := .ended) (by simp [hs]) (by simp) rfl rfl rfl rfl (.inl rfl)
      (hkeep (by rw [hs]; rfl)) (.inl ⟨rfl, by rw [hs]; rfl⟩)
      (hI.wake_other (by simp [hs]))
  case h_2 hs =>
    split_ifs at h with hfree
    cases h
    have htake : Guards (some (.session i)) (Function.update s.locks (.session i) true) :=
      (hfree ▸ hI.mutex : Guards none s.locks).take
    exact hI.ofSession (x := .locked) (by simp [hs]) (by simp) rfl rfl rfl rfl (.inl rfl) htake
      (.inl ⟨rfl, by rw [hs]; rfl⟩) (hI.wake_other (by simp [hs]))
  case h_3 hs =>
    cases h
    refine hI.ofSession (x := .decremented) (by simp [hs]) (by simp) rfl rfl rfl rfl (.inl rfl)
      (hkeep (by rw [hs]; rfl)) (.inr ⟨rfl, rfl, by rw [hs]; rfl⟩) fun _ _ => ⟨i, ?_⟩
    exact Function.update_self ..
  case h_4 hs =>
    cases h
    refine hI.ofSession (x := .tested) (by simp [hs]) (by simp) rfl rfl rfl rfl ?_
      (hkeep (by rw [hs]; rfl)) (.inl ⟨rfl, by rw [hs]; rfl⟩) ?_
    · dsimp only
      split_ifs with hn
      · exact .inr ⟨hn.2.2, rfl⟩
      · exact .inl rfl
    · -- a `stop` that is blocked while the number is zero has just been notified
      intro hm h0
      dsimp only at hm h0
      split_ifs at hm with hn
      exact absurd ⟨hI.stopped (by rw [hm]; rfl), h0, hm⟩ hn
  case h_5 hs =>
    cases h
    have hdrop := hI.mutex.drop (i := Holder.session i) (by simp [State.locks, hs, Session.locks])
    exact hI.ofSession (x := .done) (by simp [hs]) (by simp) rfl rfl rfl rfl (.inl rfl) hdrop
      (.inl ⟨rfl, by rw [hs]; rfl⟩) (hI.wake_other (by simp [hs]))
  all_goals cases h

end Steps

/-! ### Every reachable state -/

/-- **What a step can do.** -/
theorem step_cases {s s' : State} {l : Label} (h : step s l = some s') : s.accept ≠ .threw ∧
    ((l = .start ∧ s.main = .idle ∧ s' = { s with running := true, main := .startLock }) ∨
      (l = .main ∧ mainStep s = some s') ∨
      (l = .spurious ∧ s.main = .blocked ∧ s' = { s with main := .notified }) ∨
      (∃ ok, l = .accept ok ∧ acceptStep s ok = some s') ∨
      (∃ r, l = .complete r ∧ s.accept = .pending ∧ r ≠ .aborted ∧ s' = { s with
        accept := .resumed r
        accepts := if r = .ok then s.accepts + 1 else s.accepts }) ∨
      ∃ i, l = .session i ∧ sessionStep s i = some s') := by
  unfold step at h
  by_cases ht : s.accept = .threw
  · rw [if_pos ht] at h
    cases h
  rw [if_neg ht] at h
  refine ⟨ht, ?_⟩
  cases l with
  | start =>
    simp only [Option.ite_none_right_eq_some, Option.some.injEq] at h
    exact .inl ⟨rfl, h.1, h.2.symm⟩
  | main => exact .inr (.inl ⟨rfl, h⟩)
  | spurious =>
    simp only [Option.ite_none_right_eq_some, Option.some.injEq] at h
    exact .inr (.inr (.inl ⟨rfl, h.1, h.2.symm⟩))
  | accept ok => exact .inr (.inr (.inr (.inl ⟨ok, rfl, h⟩)))
  | complete r =>
    simp only [Option.ite_none_right_eq_some, Option.some.injEq] at h
    exact .inr (.inr (.inr (.inr (.inl ⟨r, rfl, h.1.1, h.1.2, h.2.symm⟩))))
  | session i => exact .inr (.inr (.inr (.inr (.inr ⟨i, rfl, h⟩))))

theorem inv_step (s : State) (l : Label) (s' : State) (hI : Inv s) (h : sys.step s l = some s') :
    Inv s' := by
  have hquiet := hI.quiet
  have hstop := hI.stopped
  have hwaited := hI.waited
  obtain ⟨-, ⟨-, hm, rfl⟩ | ⟨-, h⟩ | ⟨-, hm, rfl⟩ | ⟨ok, -, h⟩ | ⟨r, -, hp, -, rfl⟩ | ⟨i, -, h⟩⟩ :=
    step_cases h
  · rw [hm] at hquiet hwaited
    exact hI.ofMain rfl rfl rfl rfl
      (hI.mutex.keep (i := Holder.main) (by simp [State.locks, hm, Main.locks])) rfl hquiet
      (by simp [Main.runs]) hwaited (by simp)
  · exact inv_main hI h
  · rw [hm] at hquiet hstop
    exact hI.ofMain rfl rfl rfl rfl
      (hI.mutex.keep (i := Holder.main) (by simp [State.locks, hm, Main.locks])) rfl hquiet hstop
      (by simp [Main.waited]) (by simp)
  · exact inv_accept hI h
  · exact inv_complete hI hp
  · exact inv_session hI h

theorem reach_inv {s : State} (h : sys.Reach s) : Inv s := Sys.reach_inv inv_init inv_step h

/-! ### Graceful stop -/

/-- A connection has been accepted whose session fiber has not been spawned. -/
def Accept.got : Accept → ℕ
  | .resumed .ok => 1
  | _ => 0

theorem got_main {s s' : State} (hI : Inv s) (h : mainStep s = some s') :
    s'.accept.got = s.accept.got ∧ s'.spawned = s.spawned ∧ s'.accepts = s.accepts := by
  unfold mainStep at h
  split at h
  case h_4 hm =>
    cases h
    rcases hI.quiet (by rw [hm]; rfl) with ha | ha <;> rw [ha] <;> exact ⟨rfl, rfl, rfl⟩
  case h_6 hm =>
    cases h
    refine ⟨?_, rfl, rfl⟩
    by_cases hp : s.accept = .pending <;> simp [hp, Accept.got]
  case h_7 hm =>
    split_ifs at h with hb
    cases h
    rw [hb]
    exact ⟨rfl, rfl, rfl⟩
  all_goals
    first
    | cases h; done
    | cases h; exact ⟨rfl, rfl, rfl⟩
    | split_ifs at h <;> cases h <;> exact ⟨rfl, rfl, rfl⟩

/-- Every accepted connection gets its session fiber. -/
theorem accepts_step (s : State) (l : Label) (s' : State)
    (hs : Inv s ∧ s.accepts = s.spawned + s.accept.got) (h : sys.step s l = some s') :
    Inv s' ∧ s'.accepts = s'.spawned + s'.accept.got := by
  obtain ⟨hI, hs⟩ := hs
  refine ⟨inv_step s l s' hI h, ?_⟩
  obtain ⟨-, ⟨-, hm, rfl⟩ | ⟨-, h⟩ | ⟨-, hm, rfl⟩ | ⟨ok, -, h⟩ | ⟨r, -, hp, -, rfl⟩ | ⟨i, -, h⟩⟩ :=
    step_cases h
  · exact hs
  · obtain ⟨h1, h2, h3⟩ := got_main hI h
    rw [h1, h2, h3, hs]
  · exact hs
  · unfold acceptStep at h
    split at h
    all_goals
      next ha =>
        rw [ha] at hs
        first
        | cases h; done
        | cases h; first | exact hs | (split_ifs <;> exact hs)
        | split_ifs at h; cases h; exact hs
  · rw [hp] at hs
    cases r <;> simp [hs, Accept.got]
  · unfold sessionStep at h
    split at h
    all_goals
      first
      | cases h; done
      | cases h; exact hs
      | split_ifs at h; cases h; exact hs

/-- **Graceful stop**: `stop` passes its wait only when every connection accepted so far has its
session fiber and every session fiber has executed its decrement, and it is never blocked with the
number zero, the mutex free and no notification on its way. -/
theorem stop_graceful (ls : List Label) (s : State) (h : sys.exec ls = some s) :
    (s.main = .passed → s.accepts = s.spawned ∧ ∀ i < s.spawned, (s.sessions i).left = true) ∧
      ¬ (s.main = .blocked ∧ s.number = 0 ∧ s.mutex = none) := by
  obtain ⟨hI, hacc⟩ := Sys.reach_inv (P := fun s => Inv s ∧ s.accepts = s.spawned + s.accept.got)
    ⟨inv_init, rfl⟩ accepts_step ⟨ls, h⟩
  constructor
  · intro hm
    refine ⟨?_, Nat.count_iff_forall.mp (hI.waited (by rw [hm]; rfl))⟩
    rcases hI.quiet (by rw [hm]; rfl) with ha | ha <;> rw [ha] at hacc <;> exact hacc
  · rintro ⟨hm, h0, hfree⟩
    obtain ⟨i, hi⟩ := hI.wake hm h0
    have hlock := (hI.mutex (.session i)).mpr (by simp [State.locks, hi, Session.locks])
    rw [hfree] at hlock
    cases hlock

/-- `start`, and the accept fiber up to its first `async_accept`. -/
def startRun : List Label :=
  [.start, .main, .main, .main, .main, .accept true, .accept true, .accept true, .accept true,
    .accept true]

/-- A session that decrements before it has been counted, and a `stop` that passes. -/
def earlySessionRun : List Label :=
  startRun ++ [.complete .ok, .accept true, .session 0, .session 0, .session 0, .session 0, .session 0,
    .accept true, .accept true, .accept true, .accept true, .main, .main, .accept true, .main, .main,
    .main]

theorem stop_graceful_earlySessionRun :
    ∃ s, sys.exec earlySessionRun = some s ∧ s.main = .passed ∧ s.spawned = 1 ∧
      ((s.main = .passed → s.accepts = s.spawned ∧ ∀ i < s.spawned, (s.sessions i).left = true) ∧
        ¬ (s.main = .blocked ∧ s.number = 0 ∧ s.mutex = none)) :=
  ⟨_, rfl, rfl, rfl, stop_graceful earlySessionRun _ rfl⟩

end Jkit.Http.Server.Lifecycle
