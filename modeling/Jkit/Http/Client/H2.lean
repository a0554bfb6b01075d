import Jkit.Http.Client.H1
import Mathlib.Tactic.SplitIfs

/-! # `MultiClientHttp::h2_req` over the HTTP/2 pool

The calls of `h2_req` share the sessions in `m_h2s_conns`; the io thread runs the callbacks. A
session starts to connect when it is constructed, `on_connect` and `on_error` are registered after
that, and an event whose callback is not registered is dropped. `on_error` erases the connection
from the list. The object of a connection is shared: the reuse branch writes the arguments of the
new caller into it, and every caller reads `conn.req_timeout` back when it starts to wait for its
response.

The function is `noexcept`: where `prepare_payload` throws, for a body under a status without one, the
process ends, and the call has no next step.

`established` and `erred` record what the io thread has done; the code does not read them. -/

namespace Jkit.Http.Client.H2

open Jkit.Http.Message Jkit.Http.Client.Conns Jkit.Http.Client.H1 Jkit.Lib.Run

/-- A client session of nghttp2 and the promise `get_http2s_connect` waits on. -/
structure Session where
  ssl : SslContext
  onConnect : Bool := false
  onError : Bool := false
  established : Bool := false
  ready : Bool := false
  erred : Bool := false

/-- The list operations on `m_h2s_conns`: neither the search nor the sweep looks at `in_use`. -/
def http2s : Kind HttpsReqArgument Session where
  host a := a.host
  port a := a.port
  idle _ := true
  reuse a now o :=
    { o with
      args := { o.args with
        dnsTimeout := a.dnsTimeout, connTimeout := a.connTimeout, reqTimeout := a.reqTimeout
        handshakeTimeout := a.handshakeTimeout, sslCert := a.sslCert }
      lastUse := now }

/-- The frame of a call of `h2_req` with its stream: the callbacks that are registered, the locals
`res` and `tmp_body` they write, and the promise. -/
structure Frame where
  submitted : Bool := false
  onResponse : Bool := false
  onData : Bool := false
  res : StrResponse := {}
  tmpBody : Str := []
  ready : Bool := false

/-- The position of a call; `p` is its connection. -/
inductive Pc
  | idle
  | sweep
  | search
  | create
  | onConnect (p : ℕ)
  | onError (p : ℕ)
  | connecting (p : ℕ)
  | push (p : ℕ)
  | submit (p : ℕ)
  | onResponse (p : ℕ)
  | await (p : ℕ)
  | waiting (p : ℕ) (timeout : ℤ)
  | erase (p : ℕ) (r : Result)
  | done (r : Result)

/-- The label of a step of a call. -/
inductive Ev
  | call
  | sweep (now : ℤ)
  | search (now : ℤ)
  | create (ok : Bool)
  | register
  | wake (timeout : Bool)
  | push (now : ℤ)
  | submit (ok : Bool)
  | await
  | erase

/-- An event of the io thread: on the connection `p`, or on the stream of call `i`. -/
inductive IoEv
  | connect (p : ℕ)
  | error (p : ℕ)
  | response (i status : ℕ) (header : Fields)
  | data (i : ℕ) (chunk : Str)
  | dataEnd (i : ℕ)

/-- The shared state. -/
structure Mem where
  cache : Cache HttpsReqArgument Session
  frames : ℕ → Frame := fun _ => {}

namespace Mem

variable (m : Mem)

/-- Changes the session of the connection `p`. -/
def session (p : ℕ) (f : Session → Session) : Mem :=
  { m with cache := { m.cache with
      mem := Function.update m.cache.mem p
        { m.cache.mem p with stream := f (m.cache.mem p).stream } } }

/-- Changes the frame of call `i`. -/
def frame (i : ℕ) (f : Frame → Frame) : Mem :=
  { m with frames := Function.update m.frames i (f (m.frames i)) }

/-- `delete_invalid_http2s_connect`. -/
def deleteInvalid (p : ℕ) : Mem := { m with cache := m.cache.deleteInvalid p }

end Mem

/-- The response `h2_req` returns when the promise is fulfilled; `none` if it throws. -/
def Frame.response (f : Frame) : Option StrResponse :=
  if f.tmpBody ≠ [] then { f.res with body := f.tmpBody }.preparePayload else some f.res

/-- One step of call `i` of `h2_req`. -/
def step (certOk : Str → Bool) (args : ℕ → HttpsReqArgument) (i : ℕ) (m : Mem) :
    Pc → Ev → Option (Mem × Pc)
  | .idle, .call => some (m, .sweep)
  | .sweep, .sweep now => some ({ m with cache := m.cache.deleteTimeout http2s now }, .search)
  | .search, .search now =>
    match m.cache.search http2s (args i) with
    | some p => some ({ m with cache := m.cache.reuse http2s (args i) now p }, .submit p)
    | none => some (m, .create)
  | .create, .create ok =>
    match setSsl certOk {} (args i).sslCert with
    | some ctx =>
      if ok then
        some ({ m with cache := m.cache.alloc { args := args i, stream := { ssl := ctx } } },
          .onConnect m.cache.next)
      else some (m, .done .noConnection)
    | none => some (m, .done .noConnection)
  | .onConnect p, .register => some (m.session p fun s => { s with onConnect := true }, .onError p)
  | .onError p, .register => some (m.session p fun s => { s with onError := true }, .connecting p)
  | .connecting p, .wake timeout =>
    if (m.cache.mem p).stream.ready = timeout then none
    else some (m, if timeout then .done .noConnection else .push p)
  | .push p, .push now => some ({ m with cache := m.cache.push now p }, .submit p)
  | .submit p, .submit ok =>
    if ok then some (m.frame i fun f => { f with submitted := true }, .onResponse p)
    else some (m, .erase p (.ioError .other))
  | .onResponse p, .register => some (m.frame i fun f => { f with onResponse := true }, .await p)
  | .await p, .await => some (m, .waiting p (m.cache.mem p).args.reqTimeout)
  | .waiting p _, .wake timeout =>
    if (m.frames i).ready = timeout then none
    else if timeout then some (m, .erase p (.ioError .timeout))
    else (m.frames i).response.map fun res => (m, .done (.response res))
  | .erase p r, .erase => some (m.deleteInvalid p, .done r)
  | _, _ => none

/-- One event of the io thread. -/
def ioStep (m : Mem) : IoEv → Option Mem
  | .connect p =>
    if p < m.cache.next ∧ (m.cache.mem p).stream.established = false then
      some (m.session p fun s => { s with established := true, ready := s.ready || s.onConnect })
    else none
  | .error p =>
    if p < m.cache.next then
      if (m.cache.mem p).stream.onError then
        some ((m.session p fun s => { s with erred := true }).deleteInvalid p)
      else some m
    else none
  | .response i status header =>
    if (m.frames i).submitted then
      if (m.frames i).onResponse then
        some (m.frame i fun f => { f with
          res := { f.res with result := status, fields := f.res.fields.insertAll header }
          onData := true })
      else some m
    else none
  | .data i chunk =>
    if (m.frames i).submitted then
      if (m.frames i).onData then some (m.frame i fun f => { f with tmpBody := f.tmpBody ++ chunk })
      else some m
    else none
  | .dataEnd i =>
    if (m.frames i).submitted then
      if (m.frames i).onData then some (m.frame i fun f => { f with ready := true }) else some m
    else none

/-- The calls of `h2_req` and the io thread, in any interleaving. -/
def sys (certOk : Str → Bool) (args : ℕ → HttpsReqArgument) (o : Conn HttpsReqArgument Session) :
    Sys (Mem × (ℕ → Pc)) ((ℕ × Ev) ⊕ IoEv) where
  init := ({ cache := { mem := fun _ => o } }, fun _ => .idle)
  step s
    | .inl (i, e) => (step certOk args i s.1 (s.2 i) e).map fun r =>
        (r.1, Function.update s.2 i r.2)
    | .inr e => (ioStep s.1 e).map fun m => (m, s.2)

/-! ### The moves -/

/-- The connection a call has created and not yet pushed. -/
def creating : Pc → Option ℕ
  | .onConnect p | .onError p | .connecting p | .push p => some p
  | _ => none

/-- The connection a call has got from `get_http2s_connect`. -/
def leased : Pc → Option ℕ
  | .submit p | .onResponse p | .await p | .waiting p _ | .erase p _ => some p
  | _ => none

/-- The pool changes only in the callbacks and promises of its sessions. -/
structure Quiet (c c' : Cache HttpsReqArgument Session) : Prop where
  next : c'.next = c.next
  conns : c'.conns = c.conns
  args : ∀ p, (c'.mem p).args = (c.mem p).args
  ssl : ∀ p, (c'.mem p).stream.ssl = (c.mem p).stream.ssl
  erred : ∀ p, (c'.mem p).stream.erred = (c.mem p).stream.erred

theorem Quiet.refl (c : Cache HttpsReqArgument Session) : Quiet c c :=
  ⟨rfl, rfl, fun _ => rfl, fun _ => rfl, fun _ => rfl⟩

theorem quiet_session (m : Mem) (p : ℕ) {f : Session → Session} (hs : ∀ s, (f s).ssl = s.ssl)
    (he : ∀ s, (f s).erred = s.erred) : Quiet m.cache (m.session p f).cache := by
  refine ⟨rfl, rfl, fun q => ?_, fun q => ?_, fun q => ?_⟩ <;>
    · simp only [Mem.session, Function.update_apply]
      split_ifs with hqp
      · subst hqp; simp [hs, he]
      · rfl

/-- The transitions of call `i`. -/
inductive Trans (certOk : Str → Bool) (args : ℕ → HttpsReqArgument) (i : ℕ) (m : Mem) :
    Pc → Ev → Mem → Pc → Prop
  | call : Trans certOk args i m .idle .call m .sweep
  | sweep (now : ℤ) : Trans certOk args i m .sweep (.sweep now)
      { m with cache := m.cache.deleteTimeout http2s now } .search
  | reuse (now : ℤ) (p : ℕ) (h : m.cache.search http2s (args i) = some p) :
      Trans certOk args i m .search (.search now)
        { m with cache := m.cache.reuse http2s (args i) now p } (.submit p)
  | miss (now : ℤ) (h : m.cache.search http2s (args i) = none) :
      Trans certOk args i m .search (.search now) m .create
  | create (ctx : SslContext) (h : setSsl certOk {} (args i).sslCert = some ctx) :
      Trans certOk args i m .create (.create true)
        { m with cache := m.cache.alloc { args := args i, stream := { ssl := ctx } } }
        (.onConnect m.cache.next)
  | notCreated (ok : Bool) (h : ok = false ∨ setSsl certOk {} (args i).sslCert = none) :
      Trans certOk args i m .create (.create ok) m (.done .noConnection)
  | onConnect (p : ℕ) : Trans certOk args i m (.onConnect p) .register
      (m.session p fun s => { s with onConnect := true }) (.onError p)
  | onError (p : ℕ) : Trans certOk args i m (.onError p) .register
      (m.session p fun s => { s with onError := true }) (.connecting p)
  | connected (p : ℕ) (h : (m.cache.mem p).stream.ready = true) :
      Trans certOk args i m (.connecting p) (.wake false) m (.push p)
  | notConnected (p : ℕ) (h : (m.cache.mem p).stream.ready = false) :
      Trans certOk args i m (.connecting p) (.wake true) m (.done .noConnection)
  | push (now : ℤ) (p : ℕ) : Trans certOk args i m (.push p) (.push now)
      { m with cache := m.cache.push now p } (.submit p)
  | submit (p : ℕ) : Trans certOk args i m (.submit p) (.submit true)
      (m.frame i fun f => { f with submitted := true }) (.onResponse p)
  | notSubmitted (p : ℕ) :
      Trans certOk args i m (.submit p) (.submit false) m (.erase p (.ioError .other))
  | onResponse (p : ℕ) : Trans certOk args i m (.onResponse p) .register
      (m.frame i fun f => { f with onResponse := true }) (.await p)
  | await (p : ℕ) :
      Trans certOk args i m (.await p) .await m (.waiting p (m.cache.mem p).args.reqTimeout)
  | answered (p : ℕ) (d : ℤ) (res : StrResponse) (h : (m.frames i).ready = true)
      (hres : (m.frames i).response = some res) :
      Trans certOk args i m (.waiting p d) (.wake false) m (.done (.response res))
  | timedOut (p : ℕ) (d : ℤ) (h : (m.frames i).ready = false) :
      Trans certOk args i m (.waiting p d) (.wake true) m (.erase p (.ioError .timeout))
  | erase (p : ℕ) (r : Result) :
      Trans certOk args i m (.erase p r) .erase (m.deleteInvalid p) (.done r)

theorem step_trans {certOk : Str → Bool} {args : ℕ → HttpsReqArgument} {i : ℕ} {m m' : Mem}
    {pc pc' : Pc} {e : Ev} (h : step certOk args i m pc e = some (m', pc')) :
    Trans certOk args i m pc e m' pc' := by
  unfold step at h
  split at h
  · cases h; exact .call
  · cases h; exact .sweep _
  · split at h
    · next p hp => cases h; exact .reuse _ p hp
    · next hnone => cases h; exact .miss _ hnone
  · split at h
    · next ctx hctx =>
      split_ifs at h with hok
      · cases h; subst hok; exact .create ctx hctx
      · cases h; exact .notCreated _ (.inl (by simpa using hok))
    · next hnone => cases h; exact .notCreated _ (.inr hnone)
  · cases h; exact .onConnect _
  · cases h; exact .onError _
  · next p timeout =>
    split_ifs at h with hready ht
    · cases h; subst ht; exact .notConnected p (by simpa using hready)
    · cases h
      obtain rfl : timeout = false := by simpa using ht
      exact .connected p (by simpa using hready)
  · cases h; exact .push _ _
  · split_ifs at h with hok
    · cases h; subst hok; exact .submit _
    · cases h
      simp only [Bool.not_eq_true] at hok
      subst hok
      exact .notSubmitted _
  · cases h; exact .onResponse _
  · cases h; exact .await _
  · next p d timeout =>
    split_ifs at h with hready ht
    · cases h; subst ht; exact .timedOut p d (by simpa using hready)
    · obtain ⟨res, hres, heq⟩ := Option.map_eq_some_iff.mp h
      cases heq
      obtain rfl : timeout = false := by simpa using ht
      exact .answered p d res (by simpa using hready) hres
  · cases h; exact .erase _ _
  · cases h

/-- At the push a call can only push. -/
theorem step_at_push {certOk : Str → Bool} {args : ℕ → HttpsReqArgument} {i p : ℕ} {m m' : Mem}
    {pc' : Pc} {e : Ev} (h : step certOk args i m (.push p) e = some (m', pc')) :
    ∃ now, e = .push now := by
  cases step_trans h with
  | push now p => exact ⟨now, rfl⟩

/-- What a step of call `i` can do to the pool. -/
inductive Move (certOk : Str → Bool) (args : ℕ → HttpsReqArgument) (i : ℕ) (m : Mem) :
    Pc → Mem → Pc → Prop
  | inner {pc pc' : Pc} {m' : Mem} (hq : Quiet m.cache m'.cache)
      (hc : creating pc' = creating pc ∨ creating pc' = none)
      (hu : leased pc' = leased pc ∨ leased pc' = none) (hw : ∀ p d, pc' ≠ .waiting p d) :
      Move certOk args i m pc m' pc'
  | sweep (now : ℤ) : Move certOk args i m .sweep
      { m with cache := m.cache.deleteTimeout http2s now } .search
  | reuse (now : ℤ) (p : ℕ) (h : m.cache.search http2s (args i) = some p) :
      Move certOk args i m .search
        { m with cache := m.cache.reuse http2s (args i) now p } (.submit p)
  | create (ctx : SslContext) (h : setSsl certOk {} (args i).sslCert = some ctx) :
      Move certOk args i m .create
        { m with cache := m.cache.alloc { args := args i, stream := { ssl := ctx } } }
        (.onConnect m.cache.next)
  | push (now : ℤ) (p : ℕ) :
      Move certOk args i m (.push p) { m with cache := m.cache.push now p } (.submit p)
  | await (p : ℕ) :
      Move certOk args i m (.await p) m (.waiting p (m.cache.mem p).args.reqTimeout)
  | erase (p : ℕ) (r : Result) : Move certOk args i m (.erase p r) (m.deleteInvalid p) (.done r)

theorem step_move {certOk : Str → Bool} {args : ℕ → HttpsReqArgument} {i : ℕ} {m m' : Mem}
    {pc pc' : Pc} {e : Ev} (h : step certOk args i m pc e = some (m', pc')) :
    Move certOk args i m pc m' pc' := by
  cases step_trans h with
  | sweep now => exact .sweep now
  | reuse now p hp => exact .reuse now p hp
  | create ctx hctx => exact .create ctx hctx
  | push now p => exact .push now p
  | await p => exact .await p
  | erase p r => exact .erase p r
  | onConnect p | onError p =>
    exact .inner (quiet_session _ _ (fun _ => rfl) fun _ => rfl) (.inl rfl) (.inl rfl) (by simp)
  | notConnected p hready => exact .inner (.refl _) (.inr rfl) (.inl rfl) (by simp)
  | answered p d res hready => exact .inner (.refl _) (.inl rfl) (.inr rfl) (by simp)
  | call | miss | notCreated | connected | submit | notSubmitted | onResponse | timedOut =>
    exact .inner (.refl _) (.inl rfl) (.inl rfl) (by simp)

/-- An event of the io thread is quiet, or it is an `on_error` callback. -/
theorem ioStep_cases {m m' : Mem} {e : IoEv} (h : ioStep m e = some m') :
    Quiet m.cache m'.cache ∨
      ∃ p, p < m.cache.next ∧
        m' = (m.session p fun s => { s with erred := true }).deleteInvalid p := by
  unfold ioStep at h
  split at h
  · split_ifs at h
    cases h
    exact .inl (quiet_session _ _ (fun _ => rfl) fun _ => rfl)
  · split_ifs at h with hp
    · cases h; exact .inr ⟨_, hp, rfl⟩
    · cases h; exact .inl (.refl _)
  all_goals
    split_ifs at h <;> cases h
    · exact .inl (.refl _)
    · exact .inl (.refl _)

/-- **The steps of the system**: a move of one call, or an event of the io thread. -/
theorem sys_step {certOk : Str → Bool} {args : ℕ → HttpsReqArgument}
    {o : Conn HttpsReqArgument Session} {s s' : Mem × (ℕ → Pc)} {l : (ℕ × Ev) ⊕ IoEv}
    (h : (sys certOk args o).step s l = some s') :
    (∃ i e m pc, l = .inl (i, e) ∧ step certOk args i s.1 (s.2 i) e = some (m, pc) ∧
        s' = (m, Function.update s.2 i pc)) ∨
      ∃ e m, l = .inr e ∧ ioStep s.1 e = some m ∧ s' = (m, s.2) := by
  rcases l with ⟨i, e⟩ | e
  · simp only [sys, Option.map_eq_some_iff] at h
    obtain ⟨⟨m, pc⟩, hst, rfl⟩ := h
    exact .inl ⟨i, e, m, pc, rfl, hst, rfl⟩
  · simp only [sys, Option.map_eq_some_iff] at h
    obtain ⟨m, hst, rfl⟩ := h
    exact .inr ⟨e, m, rfl, hst, rfl⟩

end Jkit.Http.Client.H2
