import Jkit.Http.Client.H2Completion
import Jkit.Http.Client.Resolve

/-! # Callbacks of a call that has returned

The handler of `resolve` assigns `rr` of `get_*_connect`, and `on_response` and `on_data` write `res` and
`tmp_body` of `h2_req`. nghttp2 calls the callbacks of a stream until the stream is closed: with the end of
its response, or because it is reset. `delete_invalid_http2s_connect` does not close it.

`noLateWrite_iff`: no callback writes into the frame of a call that has returned exactly if no call gives up
its wait and returns while the operation it has waited for can still complete. In `lateResolveRun` and
`lateStreamRun` it can. -/

namespace Jkit.Http.Client.LateWrite

open Jkit.Http.Message Jkit.Http.Client.Conns Jkit.Http.Client.H2 Jkit.Http.Client.H2Completion
open Jkit.Http.Client.H2Pool (opens waits label)
open Jkit.Lib.Run
open Jkit.Http.Client.H1 (OpenStep Result)

variable {certOk : Str → Bool} {args : ℕ → HttpsReqArgument} {o : Conn HttpsReqArgument Session}

/-! ### Streams that are closed -/

/-- The calls of `h2_req` and the io thread, and which streams are closed. -/
abbrev St := (Mem × (ℕ → Pc)) × (ℕ → Bool)

/-- The labels of `H2.sys`, or a stream that is reset. -/
abbrev Label := ((ℕ × Ev) ⊕ IoEv) ⊕ ℕ

/-- The stream of an event. -/
def streamOf : (ℕ × Ev) ⊕ IoEv → Option ℕ
  | .inr (.response i _ _) => some i
  | .inr (.data i _) => some i
  | .inr (.dataEnd i) => some i
  | _ => none

/-- The stream whose response ends with an event. -/
def ends : (ℕ × Ev) ⊕ IoEv → Option ℕ
  | .inr (.dataEnd i) => some i
  | _ => none

/-- Marks a stream as closed. -/
def close (closed : ℕ → Bool) : Option ℕ → ℕ → Bool
  | none => closed
  | some i => Function.update closed i true

/-- `H2.sys` with the streams: nothing arrives on a closed one. -/
def sys (certOk : Str → Bool) (args : ℕ → HttpsReqArgument) (o : Conn HttpsReqArgument Session) :
    Sys St Label where
  init := ((H2.sys certOk args o).init, fun _ => false)
  step s
    | .inl l =>
      if (streamOf l).any s.2 then none
      else ((H2.sys certOk args o).step s.1 l).map fun t => (t, close s.2 (ends l))
    | .inr i => some (s.1, close s.2 (some i))

/-! ### Writes into a frame -/

/-- The call whose `res` or `tmp_body` an event writes: its callback is registered. -/
def writes (m : Mem) : IoEv → Option ℕ
  | .response i _ _ => if (m.frames i).onResponse then some i else none
  | .data i _ => if (m.frames i).onData then some i else none
  | _ => none

/-- The other calls keep theirs. -/
theorem ioStep_unwritten {m m' : Mem} {e : IoEv} {i : ℕ} (h : ioStep m e = some m')
    (hw : writes m e ≠ some i) :
    (m'.frames i).res = (m.frames i).res ∧ (m'.frames i).tmpBody = (m.frames i).tmpBody := by
  rw [ioStep_frame h i]
  cases e with
  | connect | error => exact ⟨rfl, rfl⟩
  | response j status header =>
    by_cases hji : j = i
    · subst hji
      have hr : (m.frames j).onResponse = false := by simpa [writes] using hw
      simp [arrival, arrive, Arrival.isHead, hr]
    · simp [arrival, hji]
  | data j chunk =>
    by_cases hji : j = i
    · subst hji
      have hd : (m.frames j).onData = false := by simpa [writes] using hw
      simp [arrival, arrive, Arrival.isHead, absorb, hd]
    · simp [arrival, hji]
  | dataEnd j =>
    by_cases hji : j = i
    · subst hji
      by_cases hd : (m.frames j).onData = true
      · simp [arrival, arrive, Arrival.isHead, absorb, hd]
      · simp [arrival, arrive, Arrival.isHead, absorb, hd]
    · simp [arrival, hji]

/-- No event writes into the frame of a call that has returned. -/
def NoLateWrite (certOk : Str → Bool) (args : ℕ → HttpsReqArgument)
    (o : Conn HttpsReqArgument Session) (s : St) : Prop :=
  ∀ i r e, s.1.2 i = .done r → writes s.1.1 e = some i →
    (sys certOk args o).step s (.inl (.inr e)) = none

/-- When a call returns because its wait for the response has timed out, its stream is closed. -/
def StreamClosed (s : St) : Label → Prop
  | .inl (.inl (i, .erase)) => ∀ p, s.1.2 i = .erase p (.ioError .timeout) → s.2 i = true
  | _ => True

/-! ### The invariant -/

/-- The request is submitted in these positions. -/
def submitted : Pc → Bool
  | .onResponse _ | .await _ | .waiting _ _ | .erase _ (.ioError .timeout) => true
  | _ => false

/-- `on_response` is registered in these positions. -/
def registered : Pc → Bool
  | .await _ | .waiting _ _ | .erase _ (.ioError .timeout) => true
  | _ => false

/-- The call has returned. -/
def isDone : Pc → Bool
  | .done _ => true
  | _ => false

/-- The callbacks of a call, by its position. -/
structure CallInv (pc : Pc) (f : Frame) (closed : Bool) : Prop where
  data : f.onData = true → f.onResponse = true
  ready : f.ready = true → closed = true
  sub : submitted pc = true → f.submitted = true
  during : registered pc = true → f.onResponse = true
  before : registered pc = false → isDone pc = false → f.onResponse = false
  after : isDone pc = true → f.onResponse = true → closed = true

theorem CallInv.stay {pc pc' : Pc} {f : Frame} {closed : Bool} (h : CallInv pc f closed)
    (hs : submitted pc' = true → submitted pc = true) (hr : registered pc' = registered pc)
    (hd : isDone pc = false) (hd' : isDone pc' = false) : CallInv pc' f closed :=
  ⟨h.data, h.ready, fun hp => h.sub (hs hp), fun hp => h.during (hr ▸ hp),
    fun hp _ => h.before (hr ▸ hp) hd, fun hp => by rw [hd'] at hp; cases hp⟩

theorem CallInv.finish {pc : Pc} {r : Result} {f : Frame} {closed : Bool} (h : CallInv pc f closed)
    (hc : f.onResponse = true → closed = true) : CallInv (.done r) f closed :=
  ⟨h.data, h.ready, by simp [submitted], by simp [registered], by simp [isDone], fun _ => hc⟩

/-- A call that returns before it has registered `on_response`. -/
theorem CallInv.abort {pc : Pc} {r : Result} {f : Frame} {closed : Bool} (h : CallInv pc f closed)
    (hr : registered pc = false) (hd : isDone pc = false) : CallInv (.done r) f closed :=
  h.finish fun ho => by rw [h.before hr hd] at ho; cases ho

/-- **A step of a call.** -/
theorem step_callInv {i : ℕ} {m m' : Mem} {pc pc' : Pc} {e : Ev} {closed : Bool}
    (h : step certOk args i m pc e = some (m', pc')) (hI : CallInv pc (m.frames i) closed)
    (hc : e = .erase → ∀ p, pc = .erase p (.ioError .timeout) → closed = true) :
    CallInv pc' (m'.frames i) closed := by
  cases step_trans h with
  | call | sweep | reuse | miss | create | onConnect | onError | connected | push =>
    exact hI.stay id rfl rfl rfl
  | notSubmitted | await | timedOut => exact hI.stay id rfl rfl rfl
  | notCreated | notConnected => exact hI.abort rfl rfl
  | submit p =>
    simp only [Mem.frame, Function.update_self]
    exact ⟨hI.data, hI.ready, fun _ => rfl, by simp [registered], fun _ _ => hI.before rfl rfl,
      by simp [isDone]⟩
  | onResponse p =>
    simp only [Mem.frame, Function.update_self]
    exact ⟨fun _ => rfl, hI.ready, fun _ => hI.sub rfl, fun _ => rfl, by simp [registered],
      by simp [isDone]⟩
  | answered p d res hready => exact hI.finish fun _ => hI.ready hready
  | erase p r =>
    by_cases hr : registered (.erase p r) = true
    · -- only a wait that has timed out comes here with `on_response` registered
      have htimeout : r = .ioError .timeout := by
        cases r with
        | noConnection | response => cases hr
        | ioError e =>
          cases e with
          | timeout => rfl
          | other => cases hr
      exact hI.finish fun _ => hc rfl p (by rw [htimeout])
    · exact hI.abort (by simpa using hr) rfl

/-- It leaves the frames of the other calls alone. -/
theorem step_other {i j : ℕ} {m m' : Mem} {pc pc' : Pc} {e : Ev} (hji : j ≠ i)
    (h : step certOk args i m pc e = some (m', pc')) : m'.frames j = m.frames j := by
  cases step_trans h with
  | submit p => exact Function.update_of_ne hji _ _
  | onResponse p => exact Function.update_of_ne hji _ _
  | _ => rfl

theorem CallInv.event {pc : Pc} {f f' : Frame} {c c' : Bool} (h : CallInv pc f c)
    (hs : f'.submitted = f.submitted) (ho : f'.onResponse = f.onResponse)
    (hd : f'.onData = true → f.onResponse = true) (hr : f'.ready = true → c' = true)
    (hc : c = true → c' = true) : CallInv pc f' c' := by
  refine ⟨fun hp => ?_, hr, fun hp => ?_, fun hp => ?_, fun hp hp' => ?_, fun hp hp' => ?_⟩
  · rw [ho]; exact hd hp
  · rw [hs]; exact h.sub hp
  · rw [ho]; exact h.during hp
  · rw [ho]; exact h.before hp hp'
  · rw [ho] at hp'
    exact hc (h.after hp hp')

theorem CallInv.arrive {pc : Pc} {f : Frame} {c c' : Bool} (h : CallInv pc f c) {a : Arrival}
    (hc : c = true → c' = true) (hfin : a = .fin → c' = true) : CallInv pc (arrive f a) c' := by
  have same : CallInv pc f c' := h.event rfl rfl h.data (fun hr => hc (h.ready hr)) hc
  unfold H2Completion.arrive
  split_ifs with hdrop
  · exact same
  · cases a with
    | head status header =>
      have ho : f.onResponse = true := by simpa [Arrival.isHead] using hdrop
      exact same.event rfl rfl (fun _ => ho) same.ready id
    | chunk data =>
      unfold absorb
      split_ifs with hd
      · exact same.event rfl rfl (fun _ => h.data hd) same.ready id
      · exact same
    | fin =>
      unfold absorb
      split_ifs with hd
      · exact same.event rfl rfl (fun _ => h.data hd) (fun _ => hfin rfl) id
      · exact same

theorem close_of_closed {closed : ℕ → Bool} {i : ℕ} (h : closed i = true) (x : Option ℕ) :
    close closed x i = true := by
  cases x with
  | none => exact h
  | some j =>
    show Function.update closed j true i = true
    rw [Function.update_apply]
    split_ifs
    · rfl
    · exact h

theorem close_of_fin {closed : ℕ → Bool} {e : IoEv} {i : ℕ} (h : arrival i (.inr e) = some .fin) :
    close closed (ends (.inr e)) i = true := by
  cases e with
  | dataEnd j =>
    have hji : j = i := by simpa [arrival] using h
    rw [hji]
    exact Function.update_self _ _ _
  | connect | error => cases h
  | response | data => simp [arrival] at h

/-- **An event of the io thread.** -/
theorem ioStep_callInv {m m' : Mem} {e : IoEv} {i : ℕ} {pc : Pc} {closed : ℕ → Bool}
    (h : ioStep m e = some m') (hI : CallInv pc (m.frames i) (closed i)) :
    CallInv pc (m'.frames i) (close closed (ends (.inr e)) i) := by
  have hc : closed i = true → close closed (ends (.inr e)) i = true := fun ht => close_of_closed ht _
  rw [ioStep_frame h i]
  cases ha : arrival i (.inr e) with
  | none => exact hI.event rfl rfl hI.data (fun hr => hc (hI.ready hr)) hc
  | some a => exact hI.arrive hc fun hfin => close_of_fin (by rw [ha, hfin])

/-! ### The exact condition -/

def Inv (s : St) : Prop := ∀ i, CallInv (s.1.2 i) (s.1.1.frames i) (s.2 i)

theorem inv_init : Inv (sys certOk args o).init := by
  intro i
  refine ⟨?_, ?_, ?_, ?_, ?_, ?_⟩ <;> simp [sys, H2.sys, submitted, registered, isDone]

theorem writes_some {m : Mem} {e : IoEv} {i : ℕ} (h : writes m e = some i) :
    streamOf (.inr e) = some i ∧ ((m.frames i).onResponse = true ∨ (m.frames i).onData = true) := by
  unfold writes at h
  split at h
  · split_ifs at h with ho
    obtain rfl := Option.some.inj h
    exact ⟨rfl, .inl ho⟩
  · split_ifs at h with hd
    obtain rfl := Option.some.inj h
    exact ⟨rfl, .inr hd⟩
  · cases h

theorem Inv.noLateWrite {s : St} (h : Inv s) : NoLateWrite certOk args o s := by
  intro i r e hpc hw
  have hI := h i
  rw [hpc] at hI
  obtain ⟨hstream, hcallback⟩ := writes_some hw
  have hclosed : s.2 i = true := hI.after rfl (hcallback.elim id hI.data)
  simp [sys, hstream, hclosed]

/-- A label of `H2.sys` that is enabled. -/
theorem sys_inl {s s' : St} {l : (ℕ × Ev) ⊕ IoEv} (h : (sys certOk args o).step s (.inl l) = some s') :
    ∃ t, (H2.sys certOk args o).step s.1 l = some t ∧ s' = (t, close s.2 (ends l)) := by
  simp only [sys] at h
  split_ifs at h
  obtain ⟨t, ht, rfl⟩ := Option.map_eq_some_iff.mp h
  exact ⟨t, ht, rfl⟩

theorem inv_step (s : St) (l : Label) (s' : St) (hI : Inv s) (hc : StreamClosed s l)
    (h : (sys certOk args o).step s l = some s') : Inv s' := by
  intro j
  rcases l with l | i
  · obtain ⟨t, ht, rfl⟩ := sys_inl h
    rcases sys_step ht with ⟨i, e, m, pc, rfl, hst, rfl⟩ | ⟨e, m, rfl, hio, rfl⟩
    · show CallInv (Function.update s.1.2 i pc j) (m.frames j) (s.2 j)
      rcases eq_or_ne j i with rfl | hji
      · rw [Function.update_self]
        refine step_callInv hst (hI j) ?_
        rintro rfl
        exact hc
      · rw [Function.update_of_ne hji, step_other hji hst]
        exact hI j
    · exact ioStep_callInv hio (hI j)
  · obtain rfl := Option.some.inj h
    have hclose : s.2 j = true → close s.2 (some i) j = true := fun ht => close_of_closed ht _
    exact (hI j).event rfl rfl (hI j).data (fun hr => hclose ((hI j).ready hr)) hclose

/-- A call that returns while its stream is open leaves `on_response` behind. -/
theorem streamClosed_of_noLateWrite (s : St) (l : Label) (s' : St) (hI : Inv s)
    (h : (sys certOk args o).step s l = some s') (hN : NoLateWrite certOk args o s') :
    StreamClosed s l := by
  unfold StreamClosed
  split
  · next i =>
    intro p hpc
    by_contra hopen
    simp only [Bool.not_eq_true] at hopen
    obtain ⟨hsub, ho⟩ : (s.1.1.frames i).submitted = true ∧ (s.1.1.frames i).onResponse = true := by
      have hIi := hI i
      rw [hpc] at hIi
      exact ⟨hIi.sub rfl, hIi.during rfl⟩
    obtain ⟨t, ht, rfl⟩ := sys_inl h
    have ht' : t = (s.1.1.deleteInvalid p, Function.update s.1.2 i (.done (.ioError .timeout))) := by
      simpa [H2.sys, step, hpc] using ht.symm
    have hnone := hN i (.ioError .timeout) (.response i 0 []) (by simp [ht'])
      (by simp [ht', writes, Mem.deleteInvalid, ho])
    simp [sys, H2.sys, ioStep, ht', streamOf, close, ends, hopen, Mem.deleteInvalid, hsub, ho] at hnone
  · trivial

/-- **No write after return.** In every run, a handler of `resolve` can run after `get_*_connect` has
returned in no state if and only if every call that gives up the lookup returns after its handler has run;
and no event can write into the frame of a call of `h2_req` that has returned if and only if every call that
returns because its wait has timed out finds its stream closed. -/
theorem noLateWrite_iff (certOk : Str → Bool) (args : ℕ → HttpsReqArgument)
    (o : Conn HttpsReqArgument Session) (R : Type) (todo : List OpenStep) :
    (∀ es s, (Resolve.sys R todo).exec es = some s →
      ((Resolve.sys R todo).Throughout (Resolve.NoLateHandler todo) (Resolve.sys R todo).init es ↔
        (Resolve.sys R todo).Along Resolve.HandlerDone (Resolve.sys R todo).init es)) ∧
    ∀ ls s, (sys certOk args o).exec ls = some s →
      ((sys certOk args o).Throughout (NoLateWrite certOk args o) (sys certOk args o).init ls ↔
        (sys certOk args o).Along StreamClosed (sys certOk args o).init ls) :=
  ⟨fun _ _ h => Resolve.noLateHandler_iff h,
    fun _ _ h => Sys.throughout_iff_along (fun _ => Inv.noLateWrite) inv_step streamClosed_of_noLateWrite h
      inv_init⟩

/-- The lookup takes longer than `dns_timeout`. -/
def lateResolveRun : List (Resolve.Ev ℕ) := [.asyncResolve, .wake true, .ret]

/-- The response takes longer than `req_timeout`. -/
def lateStreamRun : List Label :=
  ((opens ++ waits).map (label 0)).map .inl ++ [.inl (.inl (0, .wake true)), .inl (.inl (0, .erase))]

theorem lateRuns_write :
    let a : HttpsReqArgument := { host := str "h", port := str "443" }
    let S := sys (fun _ => true) (fun _ => a) { args := a, stream := { ssl := {} } }
    (∃ s s', (Resolve.sys ℕ [.connect]).exec lateResolveRun = some s ∧ s.pc = .returned false ∧
      (Resolve.sys ℕ [.connect]).step s (.handler (some .operationAborted) []) = some s') ∧
    ∃ s s', S.exec lateStreamRun = some s ∧ s.1.2 0 = .done (.ioError .timeout) ∧
      S.step s (.inl (.inr (.response 0 404 []))) = some s' ∧
      (s.1.1.frames 0).res.result = 200 ∧ (s'.1.1.frames 0).res.result = 404 := by
  intro a S
  exact ⟨⟨_, _, rfl, rfl, rfl⟩, ⟨_, _, rfl, rfl, rfl, rfl, rfl⟩⟩

theorem noLateWrite_iff_lateRuns :
    let a : HttpsReqArgument := { host := str "h", port := str "443" }
    let S := sys (fun _ => true) (fun _ => a) { args := a, stream := { ssl := {} } }
    let T := Resolve.sys ℕ [.connect]
    (∃ s, T.exec lateResolveRun = some s ∧
      (T.Throughout (Resolve.NoLateHandler [.connect]) T.init lateResolveRun ↔
        T.Along Resolve.HandlerDone T.init lateResolveRun)) ∧
    ∃ s, S.exec lateStreamRun = some s ∧
      (S.Throughout (NoLateWrite (fun _ => true) (fun _ => a) { args := a, stream := { ssl := {} } })
        S.init lateStreamRun ↔ S.Along StreamClosed S.init lateStreamRun) := by
  intro a S T
  have h := noLateWrite_iff (fun _ => true) (fun _ => a) { args := a, stream := { ssl := {} } } ℕ
    [.connect]
  exact ⟨⟨_, rfl, h.1 lateResolveRun _ rfl⟩, ⟨_, rfl, h.2 lateStreamRun _ rfl⟩⟩

end Jkit.Http.Client.LateWrite
