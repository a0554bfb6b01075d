import Jkit.Lib.Run
import Jkit.Lib.Monitor
import Mathlib.Data.Finset.Image

/-! # `FiberFrameContext`

`init()` starts `run_thread_count - 1` threads that wait for the end of the process, `wait()` waits for
it in the main thread and then joins the threads in order, `notify_stop()` lets all of them go. The flag
is `!m_running`, and `notify_stop` uses `notify_all`. The calls of `notify_stop` come from anywhere and at
any time, also before `init()` is through.

The main result is `wait_complete`: `wait()` returns only behind a `notify_stop()` and with all threads
joined, and if `notify_stop()` is called at all it does return. -/

namespace Jkit.Common.Fiber.FrameContext

open Jkit.Lib Jkit.Lib.Run
open Jkit.Lib.Monitor (Call Pos Mem Stage)

/-! ### The model -/

/-- The main thread, the threads of `m_threads` and the calls of `notify_stop`. -/
inductive Agent
  | main
  | worker (i : ℕ)
  | stop (j : ℕ)
deriving DecidableEq

/-- Outside of the waiting: not started yet, `init()` or the beginning of a thread or of a call, and the
loop of `wait()` that joins the threads. -/
inductive Own
  | idle
  | run
  | join (i : ℕ)
  | done
deriving DecidableEq

/-- The threads that `init()` starts. -/
def workers (runThreadCount : ℤ) : ℕ :=
  if runThreadCount < 2 then 0 else (runThreadCount - 1).toNat

structure St where
  mem : Mem Agent
  started : ℕ
  stage : Agent → Stage Own

def kind : Agent → Call
  | .main => .wait
  | .worker _ => .wait
  | .stop _ => .notify

/-- The process with `w` threads and `k` calls of `notify_stop`. -/
def sys (w k : ℕ) : Sys St Agent where
  init :=
    { mem := {}, started := 0
      stage := fun
        | .main => .own .run
        | .worker _ => .own .idle
        | .stop j => if j < k then .own .run else .own .idle }
  step s a :=
    match s.stage a, a with
    | .own .run, .main =>
      if s.started < w then
        some { s with
          started := s.started + 1, stage := Function.update s.stage (.worker s.started) (.own .run) }
      else some { s with stage := Function.update s.stage .main (.call .lock) }
    | .own .run, a => some { s with stage := Function.update s.stage a (.call .lock) }
    | .call .out, .main => some { s with stage := Function.update s.stage .main (.own (.join 0)) }
    | .call p, a =>
      (Monitor.step true (kind a) a s.mem p).map fun r =>
        { s with mem := r.1, stage := Function.update s.stage a (.call r.2) }
    | .own (.join i), .main =>
      if i < w then
        -- a thread has ended when its `wait` has returned
        if s.stage (.worker i) = .call .out then
          some { s with stage := Function.update s.stage .main (.own (.join (i + 1))) }
        else none
      else some { s with stage := Function.update s.stage .main (.own .done) }
    | _, _ => none

variable {w k : ℕ} {s s' : St} {a : Agent}

/-! ### What a step can do -/

inductive Move (w : ℕ) (s : St) : Agent → St → Prop
  | start (hc : s.stage .main = .own .run) (h : s.started < w) :
    Move w s .main
      { s with started := s.started + 1, stage := Function.update s.stage (.worker s.started) (.own .run) }
  | enter (a : Agent) (hc : s.stage a = .own .run) (h : a = .main → w ≤ s.started) :
    Move w s a { s with stage := Function.update s.stage a (.call .lock) }
  | call (a : Agent) (p p' : Pos) (m : Mem Agent) (hc : s.stage a = .call p)
    (h : Monitor.Move true (kind a) a s.mem p m p') :
    Move w s a { s with mem := m, stage := Function.update s.stage a (.call p') }
  | leave (hc : s.stage .main = .call .out) :
    Move w s .main { s with stage := Function.update s.stage .main (.own (.join 0)) }
  | join (i : ℕ) (hc : s.stage .main = .own (.join i)) (h : i < w) (hw : s.stage (.worker i) = .call .out) :
    Move w s .main { s with stage := Function.update s.stage .main (.own (.join (i + 1))) }
  | finish (i : ℕ) (hc : s.stage .main = .own (.join i)) (h : w ≤ i) :
    Move w s .main { s with stage := Function.update s.stage .main (.own .done) }

theorem step_move (h : (sys w k).step s a = some s') : Move w s a s' := by
  simp only [sys] at h
  split at h
  · rename_i hc
    split_ifs at h with hl
    · obtain rfl := Option.some.inj h
      exact .start hc hl
    · obtain rfl := Option.some.inj h
      exact .enter _ hc fun _ => by omega
  · rename_i hne hc
    obtain rfl := Option.some.inj h
    exact .enter _ hc fun ha => absurd ha hne
  · rename_i hc
    obtain rfl := Option.some.inj h
    exact .leave hc
  · rename_i p _ hc
    obtain ⟨⟨m, p'⟩, hstep, rfl⟩ := Option.map_eq_some_iff.mp h
    exact .call _ p p' m hc (Monitor.step_move hstep)
  · rename_i i hc
    split_ifs at h with hl hw
    · obtain rfl := Option.some.inj h
      exact .join i hc hl hw
    · obtain rfl := Option.some.inj h
      exact .finish i hc (by omega)
  · simp at h

/-! ### The invariant -/

/-- The flag is up and the first `i` threads have ended. -/
def Ended (s : St) (i : ℕ) : Prop :=
  s.mem.flag = true ∧ ∀ j < i, s.stage (.worker j) = .call .out

structure Inv (w k : ℕ) (s : St) : Prop where
  calls : Monitor.Calls kind s.mem s.stage
  le : s.started ≤ w
  main : s.stage .main ≠ .own .idle
  past : s.stage .main ≠ .own .run → s.started = w
  worker : ∀ i, s.stage (.worker i) = .own .idle ↔ s.started ≤ i
  stop : ∀ j, s.stage (.stop j) = .own .idle ↔ k ≤ j
  own : ∀ a, a ≠ .main → s.stage a = .own .idle ∨ s.stage a = .own .run ∨ ∃ p, s.stage a = .call p
  joined : ∀ i, s.stage .main = .own (.join i) → i ≤ w ∧ Ended s i
  done : s.stage .main = .own .done → Ended s w

theorem inv_init : Inv w k (sys w k).init where
  calls := by
    have hown : ∀ a, ∃ b, (sys w k).init.stage a = .own b := by
      rintro (_ | i | j)
      · exact ⟨_, rfl⟩
      · exact ⟨_, rfl⟩
      · by_cases h : j < k
        · exact ⟨.run, by simp [sys, h]⟩
        · exact ⟨.idle, by simp [sys, h]⟩
    have hpos : (fun a => ((sys w k).init.stage a).pos) = fun _ => .out := by
      funext a
      obtain ⟨b, hb⟩ := hown a
      simp [hb, Stage.pos]
    refine ⟨hpos ▸ Monitor.inv_init kind, ?_, ?_⟩
    · refine ⟨fun hf => by simp [sys] at hf, ?_⟩
      rintro ⟨a, -, ha⟩
      obtain ⟨b, hb⟩ := hown a
      simp [hb] at ha
    · intro a _ ha
      obtain ⟨b, hb⟩ := hown a
      simp [hb] at ha
  le := Nat.zero_le _
  main := by simp [sys]
  past h := absurd rfl h
  worker i := by simp [sys]
  stop j := by simp [sys]
  own a ha := by
    rcases a with _ | i | j
    · exact absurd rfl ha
    · exact Or.inl rfl
    · by_cases h : j < k <;> simp [sys, h]
  joined i h := by simp [sys] at h
  done h := by simp [sys] at h

/-- A step of the main thread on its own, behind `init()`. -/
theorem Inv.own_main (hi : Inv w k s) (hout : (s.stage .main).pos = .out)
    (hrun : s.stage .main ≠ .own .run) {b : Own} (hb : b ≠ .idle)
    (hjoin : ∀ i, b = .join i → i ≤ w ∧ Ended s i) (hdone : b = .done → Ended s w) :
    Inv w k { s with stage := Function.update s.stage .main (.own b) } := by
  have hended : ∀ i, Ended s i →
      Ended { s with stage := Function.update s.stage .main (.own b) } i := by
    rintro i ⟨hup, hall⟩
    refine ⟨hup, ?_⟩
    intro j hj
    simpa using hall j hj
  refine ⟨hi.calls.own hout (fun h => by cases h) b, hi.le, by simpa using hb, fun _ => hi.past hrun, ?_, ?_,
    ?_, ?_, ?_⟩
  · simpa using hi.worker
  · simpa using hi.stop
  · intro c hc
    simpa [hc] using hi.own c hc
  · intro i hm
    obtain ⟨hle, he⟩ := hjoin i (by simpa using hm)
    exact ⟨hle, hended i he⟩
  · intro hm
    exact hended w (hdone (by simpa using hm))

theorem Inv.step (hi : Inv w k s) (h : Move w s a s') : Inv w k s' := by
  obtain ⟨hcalls, hle, hmain, hpast, hworker, hstop, hown, hjoined, hdone⟩ := hi
  cases h with
  | start hc hl =>
    have hst : s.stage (.worker s.started) = .own .idle := (hworker _).mpr le_rfl
    refine ⟨hcalls.own (by simp [hst, Stage.pos]) (fun _ => ⟨_, hst⟩) _, hl, ?_, ?_, ?_, ?_, ?_, ?_, ?_⟩
    · simpa using hmain
    · simp [hc]
    · intro i
      have := hworker i
      grind [Function.update_apply]
    · intro j
      simpa using hstop j
    · intro b hb
      have := hown b hb
      grind [Function.update_apply]
    · simp [hc]
    · simp [hc]
  | enter _ hc hl =>
    refine ⟨hcalls.enter hc, hle, ?_, ?_, ?_, ?_, ?_, ?_, ?_⟩
    · grind [Function.update_apply]
    · grind [Function.update_apply]
    · intro i
      have := hworker i
      grind [Function.update_apply]
    · intro j
      have := hstop j
      grind [Function.update_apply]
    · intro b hb
      have := hown b hb
      grind [Function.update_apply]
    · intro i hm
      have := hjoined i
      unfold Ended at this ⊢
      grind [Function.update_apply]
    · unfold Ended at hdone ⊢
      grind [Function.update_apply]
  | call _ p p' m hc hm =>
    have hout : p ≠ .out := by
      rintro rfl
      cases hm
    have hflag : s.mem.flag = true → m.flag = true := by
      rcases hm.flag with ⟨-, -, -, h⟩ | ⟨h, -⟩
      · exact fun _ => h
      · exact fun h' => h.trans h'
    have hended : ∀ i, Ended s i →
        Ended { s with mem := m, stage := Function.update s.stage a (.call p') } i := by
      rintro i ⟨hup, hw⟩
      refine ⟨hflag hup, ?_⟩
      intro j hj
      have := hw j hj
      grind [Function.update_apply]
    refine ⟨hcalls.step (Or.inl rfl) hc hm, hle, ?_, ?_, ?_, ?_, ?_, ?_, ?_⟩
    · grind [Function.update_apply]
    · grind [Function.update_apply]
    · intro i
      have := hworker i
      grind [Function.update_apply]
    · intro j
      have := hstop j
      grind [Function.update_apply]
    · intro b hb
      have := hown b hb
      grind [Function.update_apply]
    · intro i hm
      have hmain : s.stage .main = .own (.join i) := by grind [Function.update_apply]
      exact ⟨(hjoined i hmain).1, hended i (hjoined i hmain).2⟩
    · intro hm
      have hmain : s.stage .main = .own .done := by grind [Function.update_apply]
      exact hended w (hdone hmain)
  | leave hc =>
    refine Inv.own_main ⟨hcalls, hle, hmain, hpast, hworker, hstop, hown, hjoined, hdone⟩
      (by simp [hc, Stage.pos]) (by simp [hc]) (by simp) ?_ (by simp)
    intro i hm
    obtain rfl := Own.join.inj hm
    exact ⟨Nat.zero_le _, hcalls.left _ rfl hc, by simp⟩
  | join i hc hl hw =>
    obtain ⟨-, hup, hall⟩ := hjoined i hc
    refine Inv.own_main ⟨hcalls, hle, hmain, hpast, hworker, hstop, hown, hjoined, hdone⟩
      (by simp [hc, Stage.pos]) (by simp [hc]) (by simp) ?_ (by simp)
    intro i' hm
    obtain rfl := Own.join.inj hm
    refine ⟨hl, hup, ?_⟩
    intro j hj
    rcases Nat.lt_succ_iff_lt_or_eq.mp hj with hlt | rfl
    · exact hall j hlt
    · exact hw
  | finish i hc hl =>
    obtain ⟨-, hup, hall⟩ := hjoined i hc
    refine Inv.own_main ⟨hcalls, hle, hmain, hpast, hworker, hstop, hown, hjoined, hdone⟩
      (by simp [hc, Stage.pos]) (by simp [hc]) (by simp) (by simp) ?_
    intro _
    exact ⟨hup, fun j hj => hall j (by omega)⟩

theorem reach_frameInv (h : (sys w k).Reach s) : Inv w k s :=
  Sys.reach_inv inv_init (fun _ _ _ hi hstep => hi.step (step_move hstep)) h

/-! ### Every run comes to a stop -/

def rank (w : ℕ) (flag : Bool) : Stage Own → ℕ
  | .own .idle => w + 10
  | .own .run => w + 9
  | .call p => w + 2 + Monitor.rank flag p
  | .own (.join i) => w + 1 - i
  | .own .done => 0

/-- The agents that take part. -/
def agents (w k : ℕ) : Finset Agent :=
  insert .main ((Finset.range w).image .worker ∪ (Finset.range k).image .stop)

/-- The steps that are left. -/
def measure (w k : ℕ) (s : St) : ℕ := ∑ a ∈ agents w k, rank w s.mem.flag (s.stage a)

theorem rank_mono {b b' : Bool} (h : b = true → b' = true) (st : Stage Own) :
    rank w b' st ≤ rank w b st := by
  rcases st with (_ | _ | i | _) | p
  · exact le_rfl
  · exact le_rfl
  · exact le_rfl
  · exact le_rfl
  · exact Nat.add_le_add_left (Monitor.rank_mono h p) _

theorem rank_lock (flag : Bool) : rank w flag (.call .lock) < rank w flag (.own .run) := by
  cases flag <;> simp [rank, Monitor.rank]

theorem Inv.mem (hi : Inv w k s) {b : Agent} (h : s.stage b ≠ .own .idle) : b ∈ agents w k := by
  rcases b with _ | i | j
  · simp [agents]
  · have hnot : ¬s.started ≤ i := fun hle => h ((hi.worker i).mpr hle)
    have := hi.le
    simp [agents]
    omega
  · have hnot : ¬k ≤ j := fun hle => h ((hi.stop j).mpr hle)
    simp [agents]
    omega

theorem measure_lt (hi : Inv w k s) (h : Move w s a s') : measure w k s' < measure w k s := by
  cases h with
  | start hc hl =>
    have hst : s.stage (.worker s.started) = .own .idle := (hi.worker _).mpr le_rfl
    refine Monitor.sum_rank_lt (by simpa [agents] using hl) ?_ fun _ => le_rfl
    rw [hst]
    simp [rank]
  | enter _ hc hl =>
    refine Monitor.sum_rank_lt (hi.mem (by simp [hc])) ?_ fun _ => le_rfl
    rw [hc]
    exact rank_lock _
  | call _ p p' m hc hm =>
    have hpos : (s.stage a).pos = p := by simp [hc, Stage.pos]
    rw [← hpos] at hm
    obtain ⟨hlt, hflag⟩ := Monitor.rank_step hi.calls.monitor hm
    refine Monitor.sum_rank_lt (hi.mem (by simp [hc])) ?_ (rank_mono hflag)
    rw [hc, ← hpos]
    exact Nat.add_lt_add_left hlt _
  | leave hc =>
    refine Monitor.sum_rank_lt (hi.mem (by simp [hc])) ?_ fun _ => le_rfl
    rw [hc]
    simp [rank]
    omega
  | join i hc hl hw =>
    refine Monitor.sum_rank_lt (hi.mem (by simp [hc])) ?_ fun _ => le_rfl
    rw [hc]
    simp only [rank]
    omega
  | finish i hc hl =>
    have := (hi.joined i hc).1
    refine Monitor.sum_rank_lt (hi.mem (by simp [hc])) ?_ fun _ => le_rfl
    rw [hc]
    simp only [rank]
    omega

/-! ### The result -/

theorem monitor_still (h : (sys w k).Stuck s) (a : Agent) :
    Monitor.step true (kind a) a s.mem (s.stage a).pos = none := by
  have ha := h a
  rcases hst : s.stage a with b | p
  · rfl
  · by_cases hp : p = .out
    · subst hp
      rfl
    · simp only [sys, hst] at ha
      rcases a with _ | i | j <;> cases p <;> simp_all [Stage.pos]

theorem not_run (h : (sys w k).Stuck s) (a : Agent) : s.stage a ≠ .own .run := by
  intro hst
  have ha := h a
  rcases a with _ | i | j
  · simp only [sys, hst] at ha
    split_ifs at ha
  · simp [sys, hst] at ha
  · simp [sys, hst] at ha

/-- Where nothing can move, a thread or a call of `notify_stop` that has begun is in its call. -/
theorem exists_call (hi : Inv w k s) (h : (sys w k).Stuck s) (hne : a ≠ .main)
    (hst : s.stage a ≠ .own .idle) : ∃ p, s.stage a = .call p := by
  rcases hi.own a hne with hidle | hrun | hcall
  · exact absurd hidle hst
  · exact absurd hrun (not_run h a)
  · exact hcall

/-- The flag is up only behind a `notify_stop()`. -/
theorem Inv.stopped (hi : Inv w k s) (h : s.mem.flag = true) :
    ∃ j < k, s.stage (.stop j) = .call .signal ∨ s.stage (.stop j) = .call .out := by
  obtain ⟨b, hk, hst⟩ := hi.calls.flag.mp h
  rcases b with _ | i | j
  · cases hk
  · cases hk
  · refine ⟨j, ?_, hst⟩
    have hmem := hi.mem (b := .stop j) (by rcases hst with hst | hst <;> simp [hst])
    simpa [agents] using hmem

/-- Where nothing can move behind a `notify_stop()`, `wait()` has returned. -/
theorem done_of_stuck (hi : Inv w k s) (h : (sys w k).Stuck s) (hk : 0 < k) :
    s.stage .main = .own .done := by
  have hstill := monitor_still h
  have hflag : s.mem.flag = true := by
    have hst : s.stage (.stop 0) ≠ .own .idle := fun hidle => by
      have := (hi.stop 0).mp hidle
      omega
    obtain ⟨p, hp⟩ := exists_call hi h (by simp) hst
    have hout := hi.calls.monitor.notifier_out hstill (i := .stop 0) rfl
    simp only [hp, Stage.pos] at hout
    exact hi.calls.flag.mpr ⟨.stop 0, rfl, Or.inr (by rw [hp, hout])⟩
  have hout := hi.calls.monitor.all_out hflag hstill
  have hm := h .main
  rcases hst : s.stage .main with (_ | _ | i | _) | p
  · exact absurd hst hi.main
  · exact absurd hst (not_run h _)
  · -- the next thread to join has ended as well
    have hstarted := hi.past (by simp [hst])
    by_cases hlt : i < w
    · have hidle : s.stage (.worker i) ≠ .own .idle := fun hidle => by
        have := (hi.worker i).mp hidle
        omega
      obtain ⟨p, hp⟩ := exists_call hi h (by simp) hidle
      have hend := hout (.worker i)
      simp only [hp, Stage.pos] at hend
      simp [sys, hst, hlt, hp, hend] at hm
    · simp [sys, hst, hlt] at hm
  · rfl
  · have hend := hout .main
    simp only [hst, Stage.pos] at hend
    subst hend
    simp [sys, hst] at hm

/-- **`wait()`**, in any order of the steps, for any number of threads and of calls of `notify_stop()`: no run
goes on for ever; when `wait()` has returned, `notify_stop()` has been called and all threads have ended;
and it is left waiting exactly if `notify_stop()` is never called. -/
theorem wait_complete (runThreadCount : ℤ) (k : ℕ) :
    (∃ bound, ∀ es s, (sys (workers runThreadCount) k).exec es = some s → es.length ≤ bound) ∧
      (∀ s, (sys (workers runThreadCount) k).Reach s → s.stage .main = .own .done →
        (∃ j < k, s.stage (.stop j) = .call .signal ∨ s.stage (.stop j) = .call .out) ∧
          ∀ i < workers runThreadCount, s.stage (.worker i) = .call .out) ∧
      ((∃ s, (sys (workers runThreadCount) k).Reach s ∧ (sys (workers runThreadCount) k).Stuck s ∧
        s.stage .main ≠ .own .done) ↔ k = 0) := by
  generalize workers runThreadCount = w
  have hdown : ∀ s a s', Inv w k s → (sys w k).step s a = some s' →
      Inv w k s' ∧ measure w k s' < measure w k s :=
    fun _ _ _ hi hstep => ⟨hi.step (step_move hstep), measure_lt hi (step_move hstep)⟩
  have hdone : ∀ s, (sys w k).Reach s → s.stage .main = .own .done →
      (∃ j < k, s.stage (.stop j) = .call .signal ∨ s.stage (.stop j) = .call .out) ∧
        ∀ i < w, s.stage (.worker i) = .call .out := by
    intro s hr hst
    have hi := reach_frameInv hr
    obtain ⟨hup, hall⟩ := hi.done hst
    exact ⟨hi.stopped hup, hall⟩
  refine ⟨⟨measure w k (sys w k).init, ?_⟩, hdone, ?_, ?_⟩
  · intro es s hr
    exact Sys.length_le_measure hdown hr inv_init
  · rintro ⟨s, hr, hstuck, hno⟩
    by_contra hk
    exact hno (done_of_stuck (reach_frameInv hr) hstuck (Nat.pos_of_ne_zero hk))
  · rintro rfl
    obtain ⟨es, t, hrun, hstuck⟩ := Sys.exists_stuck hdown (sys w 0).init inv_init
    refine ⟨t, ⟨es, hrun⟩, hstuck, ?_⟩
    intro hst
    obtain ⟨⟨j, hj, -⟩, -⟩ := hdone t ⟨es, hrun⟩ hst
    omega

end Jkit.Common.Fiber.FrameContext
