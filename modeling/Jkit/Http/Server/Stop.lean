import Jkit.Http.Server.Lifecycle

/-! # `stop` against the accept fiber

`stop` closes the acceptor while the accept fiber stands anywhere in its loop. `cleanStop_iff`: the
close ends the fiber through its break, with the acceptor closed for good and no connection accepted
later, exactly if it finds the fiber suspended in an `async_accept` that has not completed. Before that
the fiber still opens the acceptor, or fails in an operation on the closed one; between a completed
`async_accept` and the next one it issues the next one on the closed acceptor. In each of these cases
an exception leaves the fiber, or the acceptor is open again. -/

namespace Jkit.Http.Server.Stop

open Jkit.Lib.Run Jkit.Http.Server.Lifecycle

/-- From `s` on, until the next `start`: the acceptor stays closed, no connection is accepted, nothing
is thrown out of the accept fiber, and the fiber can still come to its break. -/
def CleanStop (s : State) : Prop :=
  ∀ ls t, Label.start ∉ ls → sys.run s ls = some t →
    t.isOpen = false ∧ t.accepts = s.accepts ∧ t.accept ≠ .threw ∧
      ∃ ls' u, Label.start ∉ ls' ∧ sys.run t ls' = some u ∧ (u.accept = .broke ∨ u.accept = .joined)

/-! ### The accept fiber before `stop` -/

/-- The accept fiber is in its loop, or before it. -/
def Accept.live : Accept → Bool
  | .none | .broke | .joined | .resumed .aborted => false
  | _ => true

/-- While the server runs, the accept fiber has not come to its break. -/
def Alive (s : State) : Prop := s.main = .started ∨ s.main = .close → Accept.live s.accept = true

theorem live_accept {s s' : State} {ok : Bool} (h : acceptStep s ok = some s')
    (hl : Accept.live s.accept = true) : Accept.live s'.accept = true ∧ s'.main = s.main := by
  unfold acceptStep at h
  split at h
  case h_8 ha => rw [ha] at hl; cases hl
  case h_1 => cases h; split_ifs <;> exact ⟨rfl, rfl⟩
  case h_2 | h_3 | h_4 | h_5 =>
    cases h
    refine ⟨?_, rfl⟩
    dsimp only
    split_ifs <;> rfl
  case h_10 => split_ifs at h; cases h; exact ⟨rfl, rfl⟩
  all_goals first
    | cases h; done
    | cases h; exact ⟨rfl, rfl⟩

theorem frame_session {s s' : State} {i : ℕ} (h : sessionStep s i = some s') :
    s'.accept = s.accept ∧ s'.isOpen = s.isOpen ∧ s'.accepts = s.accepts ∧
      (s'.main = s.main ∨ s.main = .blocked ∧ s'.main = .notified) := by
  unfold sessionStep at h
  split at h
  case h_2 => split_ifs at h; cases h; exact ⟨rfl, rfl, rfl, .inl rfl⟩
  case h_4 =>
    cases h
    refine ⟨rfl, rfl, rfl, ?_⟩
    dsimp only
    split_ifs with hn
    · exact .inr ⟨hn.2.2, rfl⟩
    · exact .inl rfl
  all_goals first
    | cases h; done
    | cases h; exact ⟨rfl, rfl, rfl, .inl rfl⟩

theorem alive_step (s : State) (l : Label) (s' : State) (hs : Alive s)
    (h : sys.step s l = some s') : Alive s' := by
  obtain ⟨-, ⟨-, hm, rfl⟩ | ⟨-, h⟩ | ⟨-, hm, rfl⟩ | ⟨ok, -, h⟩ | ⟨r, -, hp, hr, rfl⟩ | ⟨i, -, h⟩⟩ :=
    step_cases h
  · rintro (h | h) <;> cases h
  · unfold mainStep at h
    split at h
    case h_4 => cases h; exact fun _ => rfl
    case h_5 hm => cases h; exact fun _ => hs (.inl hm)
    all_goals first
      | cases h; done
      | cases h; rintro (h | h) <;> cases h
      | split_ifs at h <;> cases h <;> rintro (h | h) <;> cases h
  · rintro (h | h) <;> cases h
  · intro hm
    by_cases hl : Accept.live s.accept = true
    · exact (live_accept h hl).1
    · have hmain : s'.main = s.main := by
        unfold acceptStep at h
        split at h
        case h_1 => cases h; split_ifs <;> rfl
        case h_10 => split_ifs at h; cases h; rfl
        all_goals first
          | cases h; done
          | cases h; rfl
      exact absurd (hs (hmain ▸ hm)) hl
  · intro _
    cases r <;> first | rfl | exact absurd rfl hr
  · obtain ⟨ha, -, -, hmain⟩ := frame_session h
    intro hm
    rw [ha]
    rcases hmain with hmain | ⟨-, hmain⟩
    · exact hs (hmain ▸ hm)
    · rw [hmain] at hm
      rcases hm with hm | hm <;> cases hm

theorem reach_alive {s : State} (h : sys.Reach s) : Alive s :=
  Sys.reach_inv (by rintro (h | h) <;> cases h) alive_step h

/-! ### A close that finds the fiber suspended -/

/-- The caller is past the close of its `stop`. -/
def closed : Main → Bool
  | .join | .lock | .test | .blocked | .notified | .passed | .finish | .idle => true
  | _ => false

/-- After the close of a suspended `async_accept`; `k` connections had been accepted. -/
structure Ending (k : ℕ) (s : State) : Prop where
  main : closed s.main = true
  isOpen : s.isOpen = false
  accepts : s.accepts = k
  accept : s.accept = .resumed .aborted ∨ s.accept = .broke ∨ s.accept = .joined

theorem ending_step {k : ℕ} (s : State) (l : Label) (s' : State) (hs : Ending k s)
    (hl : l ≠ .start) (h : sys.step s l = some s') : Ending k s' := by
  obtain ⟨hmain, hopen, hacc, ha⟩ := hs
  obtain ⟨-, ⟨rfl, -, -⟩ | ⟨-, h⟩ | ⟨-, hm, rfl⟩ | ⟨ok, -, h⟩ | ⟨r, -, hp, -, rfl⟩ | ⟨i, -, h⟩⟩ :=
    step_cases h
  · exact absurd rfl hl
  · unfold mainStep at h
    split at h
    case h_1 hm | h_2 hm | h_3 hm | h_4 hm | h_5 hm | h_6 hm => rw [hm] at hmain; cases hmain
    case h_7 => split_ifs at h; cases h; exact ⟨rfl, hopen, hacc, .inr (.inr rfl)⟩
    all_goals first
      | cases h; done
      | cases h; exact ⟨rfl, hopen, hacc, ha⟩
      | split_ifs at h <;> cases h <;> exact ⟨rfl, hopen, hacc, ha⟩
  · exact ⟨rfl, hopen, hacc, ha⟩
  · rcases ha with ha | ha | ha <;> simp only [acceptStep, ha] at h <;> cases h
    exact ⟨hmain, hopen, hacc, .inr (.inl rfl)⟩
  · rcases ha with ha | ha | ha <;> rw [hp] at ha <;> cases ha
  · obtain ⟨h1, h2, h3, hm⟩ := frame_session h
    refine ⟨?_, by rw [h2, hopen], by rw [h3, hacc], by rw [h1]; exact ha⟩
    rcases hm with hm | ⟨-, hm⟩
    · rw [hm]; exact hmain
    · rw [hm]; rfl

theorem Ending.cleanStop {s : State} (h : Ending s.accepts s) : CleanStop s := by
  intro ls t hls ht
  have halong : sys.Along (fun _ l => l ≠ Label.start) s ls :=
    Sys.along_of_mem fun l hl _ he => hls (he ▸ hl)
  obtain ⟨-, hopen, hacc, ha⟩ := Sys.run_inv_along ending_step halong ht h
  refine ⟨hopen, hacc, ?_, ?_⟩
  · rcases ha with ha | ha | ha <;> rw [ha] <;> simp
  · rcases ha with ha | ha | ha
    · refine ⟨[.accept true], { t with accept := .broke }, by simp, ?_, .inl rfl⟩
      simp [Sys.run, sys, step, acceptStep, ha]
    · exact ⟨[], t, by simp, rfl, .inl ha⟩
    · exact ⟨[], t, by simp, rfl, .inr ha⟩

/-! ### A close that does not -/

/-- Some continuation ends with an exception out of the accept fiber. -/
def Doomed (s : State) : Prop :=
  ∃ ls t, Label.start ∉ ls ∧ sys.run s ls = some t ∧ t.accept = .threw

theorem Doomed.step {s t : State} {l : Label} (h : sys.step s l = some t) (hl : l ≠ .start)
    (hd : Doomed t) : Doomed s := by
  obtain ⟨ls, u, hls, hu, ha⟩ := hd
  exact ⟨l :: ls, u, by simp [hls, hl.symm], Sys.run_of_step h hu, ha⟩

theorem Doomed.not_cleanStop {s : State} (h : Doomed s) : ¬ CleanStop s := by
  obtain ⟨ls, t, hls, ht, ha⟩ := h
  intro hc
  exact (hc ls t hls ht).2.2.1 ha

section Doomed

variable {s : State}

theorem doomed_other (ha : s.accept = .resumed .other) : Doomed s := by
  refine ⟨[.accept true], { s with accept := .threw }, by simp, ?_, rfl⟩
  simp [Sys.run, sys, Lifecycle.step, acceptStep, ha]

theorem doomed_issue (ha : s.accept = .issue) (ho : s.isOpen = false) : Doomed s := by
  refine .step (l := .accept true) (t := { s with accept := .resumed .other }) ?_ (by simp)
    (doomed_other rfl)
  simp [sys, Lifecycle.step, acceptStep, ha, ho]

theorem doomed_unlock (ha : s.accept = .unlock) (ho : s.isOpen = false) : Doomed s := by
  refine .step (l := .accept true) (t := { s with mutex := none, accept := .issue }) ?_ (by simp)
    (doomed_issue rfl ho)
  simp [sys, Lifecycle.step, acceptStep, ha]

theorem doomed_inc (ha : s.accept = .inc) (ho : s.isOpen = false) : Doomed s := by
  refine .step (l := .accept true) (t := { s with number := s.number + 1, accept := .unlock }) ?_
    (by simp) (doomed_unlock rfl ho)
  simp [sys, Lifecycle.step, acceptStep, ha]

theorem doomed_free (ha : s.accept = .lock) (ho : s.isOpen = false) (hm : s.mutex = none) :
    Doomed s := by
  refine .step (l := .accept true) (t := { s with mutex := some .accept, accept := .inc }) ?_ (by simp)
    (doomed_inc rfl ho)
  simp [sys, Lifecycle.step, acceptStep, ha, hm]

/-! A session fiber that holds the mutex can leave its critical section first. -/

theorem doomed_tested {i : ℕ} (ha : s.accept = .lock) (ho : s.isOpen = false)
    (hs : s.sessions i = .tested) : Doomed s := by
  refine .step (l := .session i)
    (t := { s with mutex := none, sessions := Function.update s.sessions i .done }) ?_ (by simp)
    (doomed_free ha ho rfl)
  simp [sys, Lifecycle.step, sessionStep, ha, hs]

theorem doomed_decremented {i : ℕ} (ha : s.accept = .lock) (ho : s.isOpen = false)
    (hs : s.sessions i = .decremented) : Doomed s := by
  refine .step (l := .session i) (t := { s with
      main := if s.running = false ∧ s.number = 0 ∧ s.main = .blocked then .notified else s.main
      sessions := Function.update s.sessions i .tested }) ?_ (by simp)
    (doomed_tested (i := i) ha ho (by simp))
  simp [sys, Lifecycle.step, sessionStep, ha, hs]

theorem doomed_locked {i : ℕ} (ha : s.accept = .lock) (ho : s.isOpen = false)
    (hs : s.sessions i = .locked) : Doomed s := by
  refine .step (l := .session i) (t := { s with
      number := s.number - 1
      sessions := Function.update s.sessions i .decremented }) ?_ (by simp)
    (doomed_decremented (i := i) ha ho (by simp))
  simp [sys, Lifecycle.step, sessionStep, ha, hs]

theorem doomed_lock (hI : Inv s) (ha : s.accept = .lock) (ho : s.isOpen = false) : Doomed s := by
  rcases hm : s.mutex with _ | k
  · exact doomed_free ha ho hm
  have hk := (hI.mutex k).mp hm
  cases k with
  | main =>
    have hacc := accepting_of_accept hI (by simp [ha]) (by simp [ha])
    simp only [State.locks] at hk
    revert hk hacc
    cases s.main <;> simp [Main.locks, Main.accepting]
  | accept => simp [State.locks, ha, Accept.locks] at hk
  | session i =>
    simp only [State.locks] at hk
    cases hs : s.sessions i with
    | locked => exact doomed_locked ha ho hs
    | decremented => exact doomed_decremented ha ho hs
    | tested => exact doomed_tested ha ho hs
    | unborn | serving | ended | done =>
      rw [hs] at hk
      cases hk

theorem doomed_ok (hI : Inv s) (ha : s.accept = .resumed .ok) (ho : s.isOpen = false) : Doomed s := by
  refine .step (l := .accept true) (t := { s with
      sessions := Function.update s.sessions s.spawned .serving
      spawned := s.spawned + 1
      accept := .lock }) ?_ (by simp) (doomed_lock (hI.spawn ha) rfl ho)
  simp [sys, Lifecycle.step, acceptStep, ha]

theorem doomed_noDescriptors (ha : s.accept = .resumed .noDescriptors) (ho : s.isOpen = false) :
    Doomed s := by
  refine .step (l := .accept true) (t := { s with accept := .issue }) ?_ (by simp)
    (doomed_issue rfl ho)
  simp [sys, Lifecycle.step, acceptStep, ha]

/-- The operations between `open` and the loop fail on a closed acceptor. -/
theorem doomed_setup (ha : s.accept = .setOption ∨ s.accept = .bind ∨ s.accept = .listen)
    (ho : s.isOpen = false) : Doomed s := by
  refine ⟨[.accept true], { s with accept := .threw }, by simp, ?_, rfl⟩
  rcases ha with ha | ha | ha <;> simp [Sys.run, sys, Lifecycle.step, acceptStep, ha, ho]

/-- Before its `open` the accept fiber opens the acceptor after the close. -/
theorem not_cleanStop_opening (ha : s.accept = .opening) (ho : s.isOpen = false) : ¬ CleanStop s := by
  intro hc
  have hrun : sys.run s [.accept true] = some { s with isOpen := true, accept := .setOption } := by
    simp [Sys.run, sys, Lifecycle.step, acceptStep, ha, ho]
  have := (hc _ _ (by simp) hrun).1
  cases this

/-- On a closed acceptor, every position of the loop but a suspended `async_accept` leads astray. -/
theorem not_cleanStop (hI : Inv s) (ho : s.isOpen = false) (hlive : Accept.live s.accept = true)
    (hp : s.accept ≠ .pending) (ht : s.accept ≠ .threw) : ¬ CleanStop s := by
  cases ha : s.accept with
  | none | broke | joined => rw [ha] at hlive; cases hlive
  | threw => exact absurd ha ht
  | pending => exact absurd ha hp
  | opening => exact not_cleanStop_opening ha ho
  | setOption => exact (doomed_setup (.inl ha) ho).not_cleanStop
  | bind => exact (doomed_setup (.inr (.inl ha)) ho).not_cleanStop
  | listen => exact (doomed_setup (.inr (.inr ha)) ho).not_cleanStop
  | issue => exact (doomed_issue ha ho).not_cleanStop
  | lock => exact (doomed_lock hI ha ho).not_cleanStop
  | inc => exact (doomed_inc ha ho).not_cleanStop
  | unlock => exact (doomed_unlock ha ho).not_cleanStop
  | resumed r =>
    cases r with
    | ok => exact (doomed_ok hI ha ho).not_cleanStop
    | noDescriptors => exact (doomed_noDescriptors ha ho).not_cleanStop
    | aborted => rw [ha] at hlive; cases hlive
    | other => exact (doomed_other ha).not_cleanStop

end Doomed

/-! ### The close -/

theorem step_close {s s' : State} (hm : s.main = .close) (h : sys.step s .main = some s') :
    s.accept ≠ .threw ∧ s' = { s with
      isOpen := false
      accept := if s.accept = .pending then .resumed .aborted else s.accept
      main := .join } := by
  have h' : Lifecycle.step s .main = some s' := h
  obtain ⟨ht, -⟩ := step_cases h'
  rw [Lifecycle.step, if_neg ht] at h'
  simp only [mainStep, hm, Option.some.injEq] at h'
  exact ⟨ht, h'.symm⟩

/-- **When a close is clean**: exactly if it finds the accept fiber suspended in an `async_accept` that
has not completed. -/
theorem cleanStop_iff (ls : List Label) (s s' : State) (h : sys.exec ls = some s)
    (hm : s.main = .close) (hs : sys.step s .main = some s') :
    CleanStop s' ↔ s.accept = .pending := by
  have hI := inv_step s _ s' (reach_inv ⟨ls, h⟩) hs
  have hlive := reach_alive ⟨ls, h⟩ (.inr hm)
  obtain ⟨ht, hs'⟩ := step_close hm hs
  constructor
  · intro hc
    by_contra hp
    have ha : s'.accept = s.accept := by rw [hs']; exact if_neg hp
    refine not_cleanStop hI ?_ ?_ ?_ ?_ hc
    · rw [hs']
    · rw [ha]; exact hlive
    · rw [ha]; exact hp
    · rw [ha]; exact ht
  · intro hp
    rw [hs']
    refine Ending.cleanStop ⟨rfl, rfl, rfl, .inl ?_⟩
    exact if_pos hp

/-- `stop` finds the fiber suspended. -/
theorem cleanStop_iff_startRun :
    ∃ s s', sys.exec (startRun ++ [.main]) = some s ∧ s.main = .close ∧
      sys.step s .main = some s' ∧ s.accept = .pending ∧
      (CleanStop s' ↔ s.accept = .pending) :=
  ⟨_, _, rfl, rfl, rfl, rfl, cleanStop_iff (startRun ++ [.main]) _ _ rfl rfl rfl⟩

/-- `stop` closes the acceptor before the accept fiber has opened it. -/
def reopenRun : List Label := [.start, .main, .main, .main, .main, .main, .main]

/-- `stop` closes the acceptor after a connection has been accepted and before the next
`async_accept`. -/
def betweenRun : List Label := startRun ++ [.complete .ok, .main, .main]

theorem close_not_clean :
    (∃ s t, sys.exec reopenRun = some s ∧ s.main = .join ∧ s.isOpen = false ∧
        sys.run s [.accept true] = some t ∧ t.isOpen = true ∧ ¬ CleanStop s) ∧
      ∃ s t, sys.exec betweenRun = some s ∧ s.main = .join ∧ s.isOpen = false ∧
        sys.run s (List.replicate 6 (.accept true)) = some t ∧ t.accept = .threw ∧ ¬ CleanStop s := by
  refine ⟨⟨_, _, rfl, rfl, rfl, rfl, rfl, fun h => ?_⟩, _, _, rfl, rfl, rfl, rfl, rfl, fun h => ?_⟩
  · have h1 := (h [.accept true] _ (by simp) rfl).1
    cases h1
  · exact (h (List.replicate 6 (.accept true)) _ (by simp) rfl).2.2.1 rfl

end Jkit.Http.Server.Stop
