import Jkit.Http.Client.H1

/-! # `HttpCache::resolve` in `get_http_connect` and `get_https_connect`

One call that has missed the pool and opens a connection. The list `rr` of endpoints belongs to the frame
of `get_*_connect`; `resolve` starts the lookup with a handler that assigns `rr`, and waits for it with a
timeout. A resolver that is destroyed while the lookup is pending cancels it, and the handler runs later
with `operation_aborted` and an empty result.

`noLateHandler_iff`: the handler does not run after `get_*_connect` has returned exactly in the runs in which a
call that gives up the lookup returns after the handler has run. `step_h1` relates the call to the model of
`H1`, where `resolve` is one step. -/

namespace Jkit.Http.Client.Resolve

open Jkit.Http.Client.H1 Jkit.Lib.Run

variable {R : Type}

/-! ### The model -/

/-- The error codes the handler may get. -/
inductive Ec
  | operationAborted
  | other
deriving DecidableEq

/-- The lookup: not started, pending, cancelled with its handler still to run, or its handler has run. -/
inductive Op
  | none
  | pending
  | cancelled
  | ended
deriving DecidableEq

/-- The position of `get_*_connect`: `waiting` is the wait in `resolve`, which leaves it with `dns timeout`,
with an error, or with a result; `opening` are the operations that follow. -/
inductive Pc
  | resolve
  | waiting
  | dnsTimeout
  | dnsError
  | opening (todo : List OpenStep)
  | returned (ok : Bool)

structure St (R : Type) where
  pc : Pc := .resolve
  op : Op := .none
  rr : List R := []
  /-- The value of the future, if there is one. -/
  future : Option (Option Ec) := none

/-- The labels: `handler` is the io thread. -/
inductive Ev (R : Type)
  | asyncResolve
  | wake (timeout : Bool)
  | ret
  | io (ok : Bool)
  | push
  | handler (ec : Option Ec) (results : List R)

/-- The results the handler may be called with. -/
def Op.gives (op : Op) (ec : Option Ec) (results : List R) : Bool :=
  match op with
  | .pending => true
  | .cancelled => ec = some .operationAborted && results.isEmpty
  | _ => false

/-- One step; `todo` are the operations behind `resolve`. -/
def step (todo : List OpenStep) (s : St R) : Ev R → Option (St R)
  | .asyncResolve =>
    match s.pc with
    | .resolve => some { s with pc := .waiting, op := .pending }
    | _ => none
  | .wake timeout =>
    match s.pc, s.future with
    -- the resolver is destroyed on the way out
    | .waiting, none =>
      if timeout then
        some { s with pc := .dnsTimeout, op := if s.op = .pending then .cancelled else s.op }
      else none
    | .waiting, some ec =>
      if timeout then none
      else some { s with pc := if ec = none then .opening todo else .dnsError }
    | _, _ => none
  | .ret =>
    match s.pc with
    | .dnsTimeout => some { s with pc := .returned false }
    | .dnsError => some { s with pc := .returned false }
    | _ => none
  | .io ok =>
    match s.pc with
    | .opening (_ :: rest) => some { s with pc := if ok then .opening rest else .returned false }
    | _ => none
  | .push =>
    match s.pc with
    | .opening [] => some { s with pc := .returned true }
    | _ => none
  | .handler ec results =>
    if s.op.gives ec results then some { s with op := .ended, rr := results, future := some ec } else none

/-- A call of `get_*_connect` that opens a connection, and the io thread. -/
def sys (R : Type) (todo : List OpenStep) : Sys (St R) (Ev R) where
  init := {}
  step := step todo

/-! ### What a step can do -/

inductive Move (todo : List OpenStep) (s : St R) : Ev R → St R → Prop
  | start (hpc : s.pc = .resolve) : Move todo s .asyncResolve { s with pc := .waiting, op := .pending }
  | timeout (hpc : s.pc = .waiting) (hf : s.future = none) :
    Move todo s (.wake true)
      { s with pc := .dnsTimeout, op := if s.op = .pending then .cancelled else s.op }
  | resolved (hpc : s.pc = .waiting) (hf : s.future = some none) :
    Move todo s (.wake false) { s with pc := .opening todo }
  | failed (ec : Ec) (hpc : s.pc = .waiting) (hf : s.future = some (some ec)) :
    Move todo s (.wake false) { s with pc := .dnsError }
  | retTimeout (hpc : s.pc = .dnsTimeout) : Move todo s .ret { s with pc := .returned false }
  | retError (hpc : s.pc = .dnsError) : Move todo s .ret { s with pc := .returned false }
  | io (x : OpenStep) (rest : List OpenStep) (hpc : s.pc = .opening (x :: rest)) :
    Move todo s (.io true) { s with pc := .opening rest }
  | ioFailed (x : OpenStep) (rest : List OpenStep) (hpc : s.pc = .opening (x :: rest)) :
    Move todo s (.io false) { s with pc := .returned false }
  | push (hpc : s.pc = .opening []) : Move todo s .push { s with pc := .returned true }
  | handler (ec : Option Ec) (results : List R) (h : s.op.gives ec results = true) :
    Move todo s (.handler ec results) { s with op := .ended, rr := results, future := some ec }

theorem step_move {todo : List OpenStep} {s s' : St R} {e : Ev R} (h : step todo s e = some s') :
    Move todo s e s' := by
  unfold step at h
  cases e with
  | asyncResolve =>
    dsimp only at h
    split at h
    · next hpc =>
      obtain rfl := Option.some.inj h
      exact .start hpc
    · cases h
  | wake timeout =>
    dsimp only at h
    split at h
    · next hpc hf =>
      cases timeout with
      | true =>
        obtain rfl := Option.some.inj h
        exact .timeout hpc hf
      | false => cases h
    · next ec hpc hf =>
      cases timeout with
      | true => cases h
      | false =>
        obtain rfl := Option.some.inj h
        cases ec with
        | none => exact .resolved hpc hf
        | some ec => exact .failed ec hpc hf
    · cases h
  | ret =>
    dsimp only at h
    split at h
    · next hpc =>
      obtain rfl := Option.some.inj h
      exact .retTimeout hpc
    · next hpc =>
      obtain rfl := Option.some.inj h
      exact .retError hpc
    · cases h
  | io ok =>
    dsimp only at h
    split at h
    · next x rest hpc =>
      obtain rfl := Option.some.inj h
      cases ok with
      | true => exact .io x rest hpc
      | false => exact .ioFailed x rest hpc
    · cases h
  | push =>
    dsimp only at h
    split at h
    · next hpc =>
      obtain rfl := Option.some.inj h
      exact .push hpc
    · cases h
  | handler ec results =>
    dsimp only at h
    split_ifs at h with hg
    obtain rfl := Option.some.inj h
    exact .handler ec results hg

/-! ### `H1` takes `resolve` as one step -/

/-- The position of the call in `H1`; `p` is its connection. -/
def toH1 (todo : List OpenStep) (p : ℕ) : Pc → H1.Pc
  | .resolve | .waiting | .dnsTimeout | .dnsError => .opening p (.resolve :: todo)
  | .opening [] => .push p
  | .opening (x :: rest) => .opening p (x :: rest)
  | .returned false => .done .noConnection
  | .returned true => .write p

theorem toH1_opening (todo : List OpenStep) (p : ℕ) (rest : List OpenStep) :
    toH1 todo p (.opening rest) = if rest = [] then .push p else .opening p rest := by
  cases rest with
  | nil => rfl
  | cons x rest => rfl

/-- **The calls are calls of `H1`**: a step keeps the position there, or it is a step there. -/
theorem step_h1 {A S : Type} (K : H1Kind A S) (args : ℕ → A) (i p : ℕ) (P : Pool A S)
    {todo : List OpenStep} {s s' : St R} {e : Ev R} (h : step todo s e = some s') :
    toH1 todo p s'.pc = toH1 todo p s.pc ∨
      ∃ e' P', H1.step K args i P (toH1 todo p s.pc) e' = some (P', toH1 todo p s'.pc) := by
  cases step_move h with
  | start hpc => left; rw [hpc]; rfl
  | timeout hpc hf => left; rw [hpc]; rfl
  | failed ec hpc hf => left; rw [hpc]; rfl
  | handler ec results hg => exact .inl rfl
  | resolved hpc hf =>
    refine .inr ⟨.io true, P, ?_⟩
    rw [hpc, toH1_opening]
    rfl
  | retTimeout hpc => exact .inr ⟨.io false, P, by rw [hpc]; rfl⟩
  | retError hpc => exact .inr ⟨.io false, P, by rw [hpc]; rfl⟩
  | io x rest hpc =>
    refine .inr ⟨.io true, P, ?_⟩
    rw [hpc]
    exact congrArg (fun pc => some (P, pc)) (toH1_opening todo p rest).symm
  | ioFailed x rest hpc => exact .inr ⟨.io false, P, by rw [hpc]; rfl⟩
  | push hpc => exact .inr ⟨.push 0, P.push i 0 p, by rw [hpc]; rfl⟩

/-! ### The handler and the return -/

/-- After `get_*_connect` has returned, the handler does not run any more. -/
def NoLateHandler (todo : List OpenStep) (s : St R) : Prop :=
  ∀ ok, s.pc = .returned ok → ∀ ec results, (sys R todo).step s (.handler ec results) = none

/-- When a call that has given up the lookup returns, the handler has run. -/
def HandlerDone (s : St R) : Ev R → Prop
  | .ret => s.pc = .dnsTimeout → s.op = .ended
  | _ => True

/-- How far the lookup has come at a position. -/
def Stage (op : Op) : Pc → Prop
  | .resolve => op = .none
  | .waiting => op = .pending ∨ op = .ended
  | .dnsTimeout => op = .cancelled ∨ op = .ended
  | .dnsError => op = .ended
  | .opening _ => op = .ended
  | .returned _ => op = .ended

structure Inv (s : St R) : Prop where
  future : s.future ≠ none → s.op = .ended
  stage : Stage s.op s.pc

theorem Inv.noLateHandler {todo : List OpenStep} {s : St R} (h : Inv s) : NoLateHandler todo s := by
  intro ok hpc ec results
  have hop : Stage s.op (.returned ok) := hpc ▸ h.stage
  simp [sys, step, show s.op = .ended from hop, Op.gives]

theorem inv_init (todo : List OpenStep) : Inv (sys R todo).init :=
  ⟨fun h => absurd rfl h, rfl⟩

theorem stage_ended {pc : Pc} (h : pc ≠ .resolve) : Stage .ended pc := by
  cases pc with
  | resolve => exact absurd rfl h
  | waiting | dnsTimeout => exact .inr rfl
  | dnsError | opening | returned => rfl

theorem inv_step {todo : List OpenStep} (s : St R) (e : Ev R) (s' : St R) (hI : Inv s)
    (hc : HandlerDone s e) (h : (sys R todo).step s e = some s') : Inv s' := by
  have hstage := hI.stage
  -- a step behind the handler
  have ended : ∀ pc, s.op = .ended → pc ≠ .resolve → Inv { s with pc := pc } := fun pc hop hpc =>
    ⟨hI.future, by rw [hop]; exact stage_ended hpc⟩
  cases step_move h with
  | start hpc =>
    have hop : s.op = .none := by rw [hpc] at hstage; exact hstage
    refine ⟨fun hf => ?_, .inl rfl⟩
    rw [hI.future hf] at hop
    cases hop
  | timeout hpc hf =>
    rw [hpc] at hstage
    refine ⟨fun hne => absurd hf hne, ?_⟩
    rcases hstage with hop | hop
    · exact .inl (if_pos hop)
    · exact .inr ((if_neg (by simp [hop])).trans hop)
  | resolved hpc hf => exact ended _ (hI.future (by simp [hf])) (by simp)
  | failed ec hpc hf => exact ended _ (hI.future (by simp [hf])) (by simp)
  | retTimeout hpc => exact ended _ (hc hpc) (by simp)
  | retError hpc =>
    rw [hpc] at hstage
    exact ended _ hstage (by simp)
  | io x rest hpc =>
    rw [hpc] at hstage
    exact ended _ hstage (by simp)
  | ioFailed x rest hpc =>
    rw [hpc] at hstage
    exact ended _ hstage (by simp)
  | push hpc =>
    rw [hpc] at hstage
    exact ended _ hstage (by simp)
  | handler ec results hg =>
    refine ⟨fun _ => rfl, stage_ended fun hpc => ?_⟩
    have hop : s.op = .none := by rw [hpc] at hstage; exact hstage
    rw [hop] at hg
    cases hg

/-- A call that returns while the lookup is cancelled leaves the handler behind. -/
theorem handlerDone_of_noLateHandler {todo : List OpenStep} (s : St R) (e : Ev R) (s' : St R)
    (hI : Inv s) (h : (sys R todo).step s e = some s') (hN : NoLateHandler todo s') :
    HandlerDone s e := by
  cases e with
  | ret =>
    intro hpc
    have hstage := hI.stage
    rw [hpc] at hstage
    rcases hstage with hop | hop
    · have hs' : s' = { s with pc := .returned false } := by
        simpa [sys, step, hpc] using h.symm
      have hnone := hN false (by rw [hs']) (some .operationAborted) []
      simp [hs', sys, step, hop, Op.gives] at hnone
    · exact hop
  | _ => trivial

theorem noLateHandler_iff {todo : List OpenStep} {es : List (Ev R)} {s : St R}
    (h : (sys R todo).exec es = some s) :
    (sys R todo).Throughout (NoLateHandler todo) (sys R todo).init es ↔
      (sys R todo).Along HandlerDone (sys R todo).init es :=
  Sys.throughout_iff_along (fun _ => Inv.noLateHandler) inv_step handlerDone_of_noLateHandler h
    (inv_init todo)

end Jkit.Http.Client.Resolve
