import Mathlib.Data.List.Induction
import Mathlib.Logic.Function.Basic

/-! # Runs of labelled systems

A system is a partial step function: the label of a step carries every choice the environment makes
(the thread that moves, the outcome of an I/O operation, the time on the clock), so a list of labels
determines the run. Invariants are proved for one step and carried to runs by `run_inv`, by
`run_inv_along` if every step of the run meets a condition on the state it starts from, and by `exec_inv`
if the invariant speaks about the labels so far.

* `run_simulates`: a system that is simulated by another, a step by a run;
* `exists_stuck`: a system whose steps lower a measure comes to a stop;
* `threads`: any number of copies of one program over a shared memory, interleaved in any order;
* `prod`: two systems side by side; a run of the product is a run of each (`prod_run`). -/

namespace Jkit.Lib.Run

/-- A labelled system. -/
structure Sys (σ ε : Type*) where
  init : σ
  step : σ → ε → Option σ

namespace Sys

variable {σ ε τ δ : Type*} (S : Sys σ ε)

/-- The state after a list of labels, `none` if one of them is not enabled. -/
def run : σ → List ε → Option σ
  | s, [] => some s
  | s, e :: es => (S.step s e).bind fun s' => run s' es

/-- A run from the initial state. -/
def exec (es : List ε) : Option σ := S.run S.init es

/-- The states of the runs from the initial state. -/
def Reach (s : σ) : Prop := ∃ es, S.exec es = some s

/-- Every step of the run meets the condition `C` on the state before it and the label. -/
def Along (C : σ → ε → Prop) : σ → List ε → Prop
  | _, [] => True
  | s, e :: es => C s e ∧ ∀ s', S.step s e = some s' → Along C s' es

/-- Every state of the run, the first and the last included, meets `P`. -/
def Throughout (P : σ → Prop) : σ → List ε → Prop
  | s, [] => P s
  | s, e :: es => P s ∧ ∀ s', S.step s e = some s' → Throughout P s' es

variable {S}

@[simp] theorem run_nil (s : σ) : S.run s [] = some s := rfl

theorem run_cons {s t : σ} {e : ε} {es : List ε} :
    S.run s (e :: es) = some t ↔ ∃ s', S.step s e = some s' ∧ S.run s' es = some t := by
  simp [run, Option.bind_eq_some_iff]

theorem run_of_step {s s' t : σ} {e : ε} {es : List ε} (h : S.step s e = some s')
    (hr : S.run s' es = some t) : S.run s (e :: es) = some t :=
  run_cons.mpr ⟨s', h, hr⟩

theorem run_append {es es' : List ε} : ∀ {s t : σ},
    S.run s (es ++ es') = some t ↔ ∃ s', S.run s es = some s' ∧ S.run s' es' = some t := by
  induction es with
  | nil => simp
  | cons e es ih =>
    intro s t
    simp only [List.cons_append, run_cons, ih]
    constructor
    · rintro ⟨u, hu, v, hv, ht⟩; exact ⟨v, ⟨u, hu, hv⟩, ht⟩
    · rintro ⟨v, ⟨u, hu, hv⟩, ht⟩; exact ⟨u, hu, v, hv, ht⟩

theorem Reach.step {s s' : σ} {e : ε} (h : S.Reach s) (hstep : S.step s e = some s') : S.Reach s' := by
  obtain ⟨es, hes⟩ := h
  exact ⟨es ++ [e], run_append.mpr ⟨s, hes, run_of_step hstep rfl⟩⟩

/-! ### Invariants -/

/-- **The invariant rule.** -/
theorem run_inv {P : σ → Prop} (hstep : ∀ s e s', P s → S.step s e = some s' → P s') :
    ∀ {es : List ε} {s t : σ}, S.run s es = some t → P s → P t
  | [], s, t, h, hs => by simp only [run_nil, Option.some.injEq] at h; exact h ▸ hs
  | e :: es, s, t, h, hs => by
    obtain ⟨s', he, hr⟩ := run_cons.mp h
    exact run_inv hstep hr (hstep s e s' hs he)

theorem reach_inv {P : σ → Prop} (hinit : P S.init)
    (hstep : ∀ s e s', P s → S.step s e = some s' → P s') {s : σ} (h : S.Reach s) : P s := by
  obtain ⟨es, hes⟩ := h
  exact run_inv hstep hes hinit

/-- **The simulation rule**: if every step is a run of another system, from related states to related
states, then every run is. -/
theorem run_simulates {T : Sys τ δ} {R : σ → τ → Prop}
    (hstep : ∀ s e s' t, R s t → S.step s e = some s' → ∃ ds t', T.run t ds = some t' ∧ R s' t') :
    ∀ {es : List ε} {s s' : σ} {t : τ}, R s t → S.run s es = some s' →
      ∃ ds t', T.run t ds = some t' ∧ R s' t'
  | [], s, s', t, hR, h => by
    simp only [run_nil, Option.some.injEq] at h
    exact ⟨[], t, rfl, h ▸ hR⟩
  | e :: es, s, s', t, hR, h => by
    obtain ⟨u, he, hr⟩ := run_cons.mp h
    obtain ⟨ds, v, hds, hv⟩ := hstep s e u t hR he
    obtain ⟨ds', t', hds', ht'⟩ := run_simulates hstep hv hr
    exact ⟨ds ++ ds', t', run_append.mpr ⟨v, hds, hds'⟩, ht'⟩

/-- The invariant rule for runs whose steps all meet a condition. -/
theorem run_inv_along {P : σ → Prop} {C : σ → ε → Prop}
    (hstep : ∀ s e s', P s → C s e → S.step s e = some s' → P s') :
    ∀ {es : List ε} {s t : σ}, S.Along C s es → S.run s es = some t → P s → P t
  | [], s, t, _, h, hs => by simp only [run_nil, Option.some.injEq] at h; exact h ▸ hs
  | e :: es, s, t, hc, h, hs => by
    obtain ⟨s', he, hr⟩ := run_cons.mp h
    exact run_inv_along hstep (hc.2 s' he) hr (hstep s e s' hs hc.1 he)

/-- The invariant rule for runs whose states all meet a condition. -/
theorem run_inv_throughout {P Q : σ → Prop} (hstep : ∀ s e s', P s → Q s → S.step s e = some s' → P s') :
    ∀ {es : List ε} {s t : σ}, S.Throughout Q s es → S.run s es = some t → P s → P t
  | [], s, t, _, h, hs => by simp only [run_nil, Option.some.injEq] at h; exact h ▸ hs
  | e :: es, s, t, hq, h, hs => by
    obtain ⟨s', he, hr⟩ := run_cons.mp h
    exact run_inv_throughout hstep (hq.2 s' he) hr (hstep s e s' hs hq.1 he)

/-- The states of a run meet an invariant of its labels. -/
theorem throughout_of_inv {P Q : σ → Prop} {C : ε → Prop} (hQ : ∀ s, P s → Q s)
    (hstep : ∀ s e s', P s → C e → S.step s e = some s' → P s') :
    ∀ {es : List ε} {s : σ}, (∀ e ∈ es, C e) → P s → S.Throughout Q s es
  | [], s, _, hs => hQ s hs
  | e :: _, s, h, hs => ⟨hQ s hs, fun s' he => throughout_of_inv hQ hstep
      (fun e' he' => h e' (List.mem_cons_of_mem _ he')) (hstep s e s' hs (h e List.mem_cons_self) he)⟩

theorem along_of_mem {C : σ → ε → Prop} : ∀ {es : List ε} {s : σ}, (∀ e ∈ es, ∀ s, C s e) →
    S.Along C s es
  | [], _, _ => trivial
  | e :: es, s, h => ⟨h e (by simp) s, fun _ _ => along_of_mem fun e' he' => h e' (by simp [he'])⟩

/-- **When a condition on the steps is exact**: `Inv` is preserved under the condition and gives
`P`, and a step that ends in a state with `P` has met the condition. -/
theorem throughout_iff_along {Inv P : σ → Prop} {C : σ → ε → Prop} (hP : ∀ s, Inv s → P s)
    (hstep : ∀ s e s', Inv s → C s e → S.step s e = some s' → Inv s')
    (hback : ∀ s e s', Inv s → S.step s e = some s' → P s' → C s e) :
    ∀ {es : List ε} {s t : σ}, S.run s es = some t → Inv s →
      (S.Throughout P s es ↔ S.Along C s es)
  | [], s, _, _, hs => by simp [Throughout, Along, hP s hs]
  | e :: es, s, t, h, hs => by
    obtain ⟨s', he, hr⟩ := run_cons.mp h
    have hP' : S.Throughout P s' es → P s' := by
      cases es with
      | nil => exact id
      | cons _ _ => exact And.left
    simp only [Throughout, Along, he, Option.some.injEq, forall_eq']
    constructor
    · rintro ⟨-, ht⟩
      have hc := hback s e s' hs he (hP' ht)
      exact ⟨hc, (throughout_iff_along hP hstep hback hr (hstep s e s' hs hc he)).mp ht⟩
    · rintro ⟨hc, ha⟩
      exact ⟨hP s hs, (throughout_iff_along hP hstep hback hr (hstep s e s' hs hc he)).mpr ha⟩

/-- The invariant rule for statements about the state and the labels that have led to it. -/
theorem exec_inv {P : σ → List ε → Prop} (hinit : P S.init [])
    (hstep : ∀ s es e s', S.exec es = some s → P s es → S.step s e = some s' → P s' (es ++ [e]))
    {es : List ε} : ∀ {s : σ}, S.exec es = some s → P s es := by
  induction es using List.reverseRecOn with
  | nil =>
    intro s h
    obtain rfl := Option.some.inj h
    exact hinit
  | append_singleton es e ih =>
    intro s h
    obtain ⟨t, ht, hs⟩ := run_append.mp h
    obtain ⟨s', hs', heq⟩ := run_cons.mp hs
    obtain rfl := Option.some.inj heq
    exact hstep t es e _ ht (ih ht) hs'

theorem along_concat {C : σ → ε → Prop} {e : ε} : ∀ {es : List ε} {s t : σ}, S.run s es = some t →
    (S.Along C s (es ++ [e]) ↔ S.Along C s es ∧ C t e)
  | [], s, t, h => by
    obtain rfl := Option.some.inj h
    simp [Along]
  | e' :: es, s, t, h => by
    obtain ⟨s', hs', hr⟩ := run_cons.mp h
    simp [Along, hs', along_concat hr, and_assoc]

/-- No label is enabled. -/
def Stuck (S : Sys σ ε) (s : σ) : Prop := ∀ e, S.step s e = none

/-- If every step lowers a measure, a run is no longer than the measure of its first state. -/
theorem length_le_measure {P : σ → Prop} {μ : σ → ℕ}
    (hstep : ∀ s e s', P s → S.step s e = some s' → P s' ∧ μ s' < μ s) :
    ∀ {es : List ε} {s t : σ}, S.run s es = some t → P s → es.length ≤ μ s
  | [], _, _, _, _ => Nat.zero_le _
  | e :: es, s, t, h, hs => by
    obtain ⟨s', he, hr⟩ := run_cons.mp h
    obtain ⟨hP, hlt⟩ := hstep s e s' hs he
    have hle := length_le_measure hstep hr hP
    simp only [List.length_cons]
    omega

/-- If every step lowers a measure, every run can be continued until nothing is enabled. -/
theorem exists_stuck {P : σ → Prop} {μ : σ → ℕ}
    (hstep : ∀ s e s', P s → S.step s e = some s' → P s' ∧ μ s' < μ s) (s : σ) (hs : P s) :
    ∃ es t, S.run s es = some t ∧ S.Stuck t := by
  by_cases h : S.Stuck s
  · exact ⟨[], s, rfl, h⟩
  · obtain ⟨e, he⟩ := not_forall.mp h
    obtain ⟨s', hs'⟩ := Option.ne_none_iff_exists'.mp he
    obtain ⟨hP, hlt⟩ := hstep s e s' hs hs'
    obtain ⟨es, t, hr, ht⟩ := exists_stuck hstep s' hP
    exact ⟨e :: es, t, run_of_step hs' hr, ht⟩
termination_by μ s

/-! ### Two systems side by side -/

/-- The product: each label moves one of the two. -/
def prod (S : Sys σ ε) (T : Sys τ δ) : Sys (σ × τ) (ε ⊕ δ) where
  init := (S.init, T.init)
  step s
    | .inl e => (S.step s.1 e).map fun s' => (s', s.2)
    | .inr d => (T.step s.2 d).map fun t' => (s.1, t')

/-- **A run of the product is a run of each component.** -/
theorem prod_run {T : Sys τ δ} : ∀ {ls : List (ε ⊕ δ)} {s t : σ × τ},
    (S.prod T).run s ls = some t →
      S.run s.1 (ls.filterMap Sum.getLeft?) = some t.1 ∧
        T.run s.2 (ls.filterMap Sum.getRight?) = some t.2
  | [], s, t, h => by simp only [run_nil, Option.some.injEq] at h; subst h; simp
  | .inl e :: ls, s, t, h => by
    obtain ⟨s', he, hr⟩ := run_cons.mp h
    simp only [prod, Option.map_eq_some_iff] at he
    obtain ⟨u, hu, rfl⟩ := he
    obtain ⟨h1, h2⟩ := prod_run hr
    exact ⟨run_of_step hu h1, h2⟩
  | .inr d :: ls, s, t, h => by
    obtain ⟨s', he, hr⟩ := run_cons.mp h
    simp only [prod, Option.map_eq_some_iff] at he
    obtain ⟨u, hu, rfl⟩ := he
    obtain ⟨h1, h2⟩ := prod_run hr
    exact ⟨h1, run_of_step hu h2⟩

theorem reach_prod {T : Sys τ δ} {s : σ × τ} (h : (S.prod T).Reach s) :
    S.Reach s.1 ∧ T.Reach s.2 := by
  obtain ⟨ls, hls⟩ := h
  exact ⟨⟨_, (prod_run hls).1⟩, ⟨_, (prod_run hls).2⟩⟩

theorem prod_run_left (T : Sys τ δ) (v : τ) : ∀ {es : List ε} {s t : σ}, S.run s es = some t →
    (S.prod T).run (s, v) (es.map Sum.inl) = some (t, v)
  | [], s, t, h => by simp only [run_nil, Option.some.injEq] at h; subst h; rfl
  | e :: es, s, t, h => by
    obtain ⟨s', he, hr⟩ := run_cons.mp h
    have h1 : (S.prod T).step (s, v) (.inl e) = some (s', v) := by simp [prod, he]
    exact run_of_step h1 (prod_run_left T v hr)

theorem prod_run_right (T : Sys τ δ) (u : σ) : ∀ {ds : List δ} {s t : τ}, T.run s ds = some t →
    (S.prod T).run (u, s) (ds.map Sum.inr) = some (u, t)
  | [], s, t, h => by simp only [run_nil, Option.some.injEq] at h; subst h; rfl
  | d :: ds, s, t, h => by
    obtain ⟨s', he, hr⟩ := run_cons.mp h
    have h1 : (S.prod T).step (u, s) (.inr d) = some (u, s') := by simp [prod, he]
    exact run_of_step h1 (prod_run_right T u hr)

/-! ### Interleaved threads -/

section Threads

variable {ι μ : Type*} [DecidableEq ι]

/-- Copies of one program, one for each `i`, over a shared memory: `f i` is the step of thread `i`,
from the memory and its own position. -/
def threads (mem : μ) (pc : τ) (f : ι → μ → τ → ε → Option (μ × τ)) :
    Sys (μ × (ι → τ)) (ι × ε) where
  init := (mem, fun _ => pc)
  step s l := (f l.1 s.1 (s.2 l.1) l.2).map fun r => (r.1, Function.update s.2 l.1 r.2)

theorem threads_step {mem : μ} {pc : τ} {f : ι → μ → τ → ε → Option (μ × τ)}
    {s s' : μ × (ι → τ)} {l : ι × ε} :
    (threads mem pc f).step s l = some s' ↔
      ∃ m t, f l.1 s.1 (s.2 l.1) l.2 = some (m, t) ∧ s' = (m, Function.update s.2 l.1 t) := by
  simp only [threads, Option.map_eq_some_iff, Prod.exists, eq_comm (a := s')]

/-- One copy of the program, alone with the memory. -/
def alone (mem : μ) (pc : τ) (f : μ → τ → ε → Option (μ × τ)) : Sys (μ × τ) ε where
  init := (mem, pc)
  step s e := f s.1 s.2 e

/-- A thread that runs alone, while the others stand still. -/
theorem threads_run_alone {mem : μ} {pc : τ} {f : ι → μ → τ → ε → Option (μ × τ)} {i : ι} :
    ∀ {es : List ε} {s : μ × (ι → τ)} {t : μ × τ}, (alone mem pc (f i)).run (s.1, s.2 i) es = some t →
      (threads mem pc f).run s (es.map (Prod.mk i)) = some (t.1, Function.update s.2 i t.2)
  | [], s, t, h => by simp only [run_nil, Option.some.injEq] at h; subst h; simp
  | e :: es, s, t, h => by
    obtain ⟨u, he, hr⟩ := run_cons.mp h
    have h1 : (threads mem pc f).step s (i, e) = some (u.1, Function.update s.2 i u.2) :=
      threads_step.mpr ⟨u.1, u.2, he, rfl⟩
    have hr' : (alone mem pc (f i)).run (u.1, Function.update s.2 i u.2 i) es = some t := by
      simpa using hr
    have h2 := threads_run_alone (s := (u.1, Function.update s.2 i u.2)) hr'
    simp only [Function.update_idem] at h2
    exact run_of_step h1 h2

end Threads

end Sys

end Jkit.Lib.Run
