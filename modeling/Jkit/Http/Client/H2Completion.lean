import Jkit.Http.Client.H2Pool

/-! # Completions of the HTTP/2 session and its streams

A session connects as soon as it is constructed, a stream receives its response as soon as it is submitted,
and the callbacks are registered after that; an event that finds no callback is dropped.

`completion_iff`: a call that waits for a connection that is established gets it exactly if the connection
was established after `on_connect` was registered, and a call that waits for a response that has been
received completely returns it exactly if its header came after `on_response` was registered and
`prepare_payload` lets its status have the body. In `earlyConnectRun` and `earlyResponseRun` the events come
before. -/

namespace Jkit.Http.Client.H2Completion

open Jkit.Http.Message Jkit.Http.Client.Conns Jkit.Http.Client.H2 Jkit.Http.Client.H2Pool Jkit.Lib.Run

variable {certOk : Str → Bool} {args : ℕ → HttpsReqArgument} {o : Conn HttpsReqArgument Session}

/-! ### Connections -/

/-- The event that establishes the connection `p` finds `on_connect` registered. -/
def ConnectHeard (p : ℕ) (s : Mem × (ℕ → Pc)) : (ℕ × Ev) ⊕ IoEv → Prop
  | .inr (.connect q) => q = p → (s.1.cache.mem p).stream.onConnect = true
  | _ => True

/-- Whether the connection `p` is established, and the promise `get_http2s_connect` waits on. -/
def promise (m : Mem) (p : ℕ) : Bool × Bool :=
  ((m.cache.mem p).stream.established, (m.cache.mem p).stream.ready)

theorem promise_session {m : Mem} {p q : ℕ} {f : Session → Session}
    (hf : ∀ s, (f s).established = s.established ∧ (f s).ready = s.ready) :
    promise (m.session q f) p = promise m p := by
  unfold promise Mem.session
  by_cases hpq : p = q
  · subst hpq
    simp [hf]
  · simp [Function.update_of_ne hpq]

/-- The promise of `p` does not change, unless `p` is new: then it is not fulfilled. -/
structure Keeps (m m' : Mem) (p : ℕ) : Prop where
  next : m.cache.next ≤ m'.cache.next
  old : p < m.cache.next → promise m' p = promise m p
  new : p < m'.cache.next → m.cache.next ≤ p → promise m' p = (false, false)

theorem Keeps.of_eq {m m' : Mem} {p : ℕ} (hn : m'.cache.next = m.cache.next)
    (h : promise m' p = promise m p) : Keeps m m' p :=
  ⟨Nat.le_of_eq hn.symm, fun _ => h, fun hp hle => by omega⟩

theorem step_keeps {i : ℕ} {m m' : Mem} {pc pc' : Pc} {e : Ev}
    (h : step certOk args i m pc e = some (m', pc')) (p : ℕ) : Keeps m m' p := by
  have same : ∀ {c : Cache HttpsReqArgument Session} {q : ℕ} {x : Conn HttpsReqArgument Session},
      c.mem = Function.update m.cache.mem q x → x.stream = (m.cache.mem q).stream →
      c.next = m.cache.next → Keeps m { m with cache := c } p := by
    intro c q x hmem hx hn
    refine .of_eq hn ?_
    unfold promise
    rw [hmem, Function.update_apply]
    split_ifs with hpq
    · rw [hx, hpq]
    · rfl
  cases step_trans h with
  | reuse now q hq => exact same rfl rfl rfl
  | push now q => exact same rfl rfl rfl
  | create ctx hctx =>
    refine ⟨Nat.le_succ _, fun hp => ?_, fun hp hle => ?_⟩
    · simp only [promise, Cache.alloc, Function.update_of_ne (show p ≠ m.cache.next by omega)]
    · obtain rfl : p = m.cache.next := by simp only [Cache.alloc] at hp; omega
      simp [promise, Cache.alloc]
  | onConnect q | onError q => exact .of_eq rfl (promise_session fun _ => ⟨rfl, rfl⟩)
  | _ => exact .of_eq rfl rfl

theorem ioStep_keeps {m m' : Mem} {e : IoEv} {p : ℕ} (h : ioStep m e = some m')
    (he : e ≠ .connect p) : Keeps m m' p := by
  unfold ioStep at h
  split at h
  · next q =>
    split_ifs at h
    cases h
    have hpq : p ≠ q := fun heq => he (by rw [heq])
    exact .of_eq rfl (by simp only [promise, Mem.session, Function.update_of_ne hpq])
  · next q =>
    split_ifs at h
    · cases h
      have hs : promise (m.session q fun s => { s with erred := true }) p = promise m p :=
        promise_session fun _ => ⟨rfl, rfl⟩
      exact .of_eq rfl hs
    · cases h; exact .of_eq rfl rfl
  all_goals
    split_ifs at h <;> cases h <;> exact .of_eq rfl rfl

/-- A connection that is established has its promise fulfilled exactly if the event was heard; before
that there was no such event. -/
structure ConnInv (m : Mem) (p : ℕ) (heard : Prop) : Prop where
  unborn : m.cache.next ≤ p → heard
  pending : p < m.cache.next → (promise m p).1 = false → (promise m p).2 = false ∧ heard
  established : p < m.cache.next → (promise m p).1 = true → ((promise m p).2 = true ↔ heard)

theorem ConnInv.keeps {m m' : Mem} {p : ℕ} {heard : Prop} (hI : ConnInv m p heard) (hk : Keeps m m' p) :
    ConnInv m' p heard := by
  refine ⟨fun hp => hI.unborn (Nat.le_trans hk.next hp), fun hp he => ?_, fun hp he => ?_⟩
  · by_cases hold : p < m.cache.next
    · rw [hk.old hold] at he ⊢
      exact hI.pending hold he
    · rw [hk.new hp (by omega)]
      exact ⟨rfl, hI.unborn (by omega)⟩
  · by_cases hold : p < m.cache.next
    · rw [hk.old hold] at he ⊢
      exact hI.established hold he
    · rw [hk.new hp (by omega)] at he
      cases he

theorem ConnInv.connect {m m' : Mem} {p : ℕ} {heard : Prop} (hI : ConnInv m p heard)
    (h : ioStep m (.connect p) = some m') :
    ConnInv m' p (heard ∧ (m.cache.mem p).stream.onConnect = true) := by
  simp only [ioStep] at h
  split_ifs at h with hpre
  obtain ⟨hp, hest⟩ := hpre
  cases h
  obtain ⟨hready, hheard⟩ := hI.pending hp hest
  have hpromise : promise (m.session p fun s =>
      { s with established := true, ready := s.ready || s.onConnect }) p =
      (true, (m.cache.mem p).stream.onConnect) := by
    have hr : (m.cache.mem p).stream.ready = false := hready
    simp [promise, Mem.session, hr]
  refine ⟨fun hle => absurd hp (Nat.not_lt.mpr hle), fun _ he => ?_, fun _ _ => ?_⟩
  · rw [hpromise] at he
    cases he
  · rw [hpromise]
    exact ⟨fun ho => ⟨hheard, ho⟩, fun ho => ho.2⟩

theorem connInv_step (p : ℕ) (s : Mem × (ℕ → Pc)) (ls : List ((ℕ × Ev) ⊕ IoEv))
    (l : (ℕ × Ev) ⊕ IoEv) (s' : Mem × (ℕ → Pc)) (hrun : (sys certOk args o).exec ls = some s)
    (hI : ConnInv s.1 p ((sys certOk args o).Along (ConnectHeard p) (sys certOk args o).init ls))
    (h : (sys certOk args o).step s l = some s') :
    ConnInv s'.1 p
      ((sys certOk args o).Along (ConnectHeard p) (sys certOk args o).init (ls ++ [l])) := by
  rw [Sys.along_concat hrun]
  rcases sys_step h with ⟨i, e, m, pc, rfl, hst, rfl⟩ | ⟨e, m, rfl, hio, rfl⟩
  · have hC : ConnectHeard p s (.inl (i, e)) := trivial
    rw [and_iff_left hC]
    exact hI.keeps (step_keeps hst p)
  · by_cases he : e = .connect p
    · subst he
      have hC : ConnectHeard p s (.inr (.connect p)) ↔ (s.1.cache.mem p).stream.onConnect = true := by
        simp [ConnectHeard]
      rw [hC]
      exact hI.connect hio
    · have hC : ConnectHeard p s (.inr e) := by
        unfold ConnectHeard
        split
        · next q hq => exact fun hqp => absurd (by rw [Sum.inr.inj hq, hqp]) he
        · trivial
      rw [and_iff_left hC]
      exact hI.keeps (ioStep_keeps hio he)

theorem connInv_exec {ls : List ((ℕ × Ev) ⊕ IoEv)} {s : Mem × (ℕ → Pc)}
    (h : (sys certOk args o).exec ls = some s) (p : ℕ) :
    ConnInv s.1 p ((sys certOk args o).Along (ConnectHeard p) (sys certOk args o).init ls) :=
  Sys.exec_inv (P := fun s ls =>
      ConnInv s.1 p ((sys certOk args o).Along (ConnectHeard p) (sys certOk args o).init ls))
    ⟨fun _ => trivial, fun hp => absurd hp (Nat.not_lt_zero p), fun hp => absurd hp (Nat.not_lt_zero p)⟩
    (connInv_step p) h

/-! ### Streams -/

/-- What arrives on a stream. A call of `on_data` with length 0 is `fin`. -/
inductive Arrival
  | head (status : ℕ) (header : Fields)
  | chunk (data : Str)
  | fin

def Arrival.isHead : Arrival → Bool
  | .head _ _ => true
  | _ => false

/-- What arrives on the stream of call `i` with a label. -/
def arrival (i : ℕ) : (ℕ × Ev) ⊕ IoEv → Option Arrival
  | .inr (.response j status header) => if j = i then some (.head status header) else none
  | .inr (.data j chunk) => if j = i then some (.chunk chunk) else none
  | .inr (.dataEnd j) => if j = i then some .fin else none
  | _ => none

/-- What has arrived on the stream of call `i` in a run. -/
def arrivals (i : ℕ) (ls : List ((ℕ × Ev) ⊕ IoEv)) : List Arrival := ls.filterMap (arrival i)

/-- A complete response. -/
def complete (status : ℕ) (header : Fields) (chunks : List Str) : List Arrival :=
  .head status header :: (chunks.map .chunk ++ [.fin])

theorem countP_complete (status : ℕ) (header : Fields) (chunks : List Str) :
    (complete status header chunks).countP Arrival.isHead = 1 := by
  have hchunks : (chunks.map Arrival.chunk).countP Arrival.isHead = 0 := by
    rw [List.countP_eq_zero]
    intro a ha
    obtain ⟨c, -, rfl⟩ := List.mem_map.mp ha
    simp [Arrival.isHead]
  unfold complete
  rw [List.countP_cons, List.countP_append, hchunks]
  rfl

/-- The `StrResponse` with the status, the header and the body of a response; `none` if its status has no
body. -/
def strResponse (status : ℕ) (header : Fields) (body : Str) : Option StrResponse :=
  let res : StrResponse := { result := status, fields := Fields.gather header }
  if body ≠ [] then { res with body := body }.preparePayload else some res

/-- The status lets the response have this body. -/
def Admits (status : ℕ) (body : Str) : Prop := status = 204 ∨ status = 304 → body = []

theorem strResponse_admits {status : ℕ} {header : Fields} {body : Str} :
    (∃ res, strResponse status header body = some res) ↔ Admits status body := by
  unfold strResponse Admits
  dsimp only
  split_ifs with hbody
  · rw [← Option.isSome_iff_exists, ← Option.not_isNone, Bool.not_eq_true', ← Bool.not_eq_true,
      Option.isNone_iff_eq_none, preparePayload_eq_none_iff]
    simp [hbody]
  · exact iff_of_true ⟨_, rfl⟩ fun _ => not_not.mp hbody

/-- The header of the response of call `i` finds `on_response` registered. -/
def ResponseHeard (i : ℕ) (s : Mem × (ℕ → Pc)) : (ℕ × Ev) ⊕ IoEv → Prop
  | .inr (.response j _ _) => j = i → (s.1.frames i).onResponse = true
  | _ => True

/-- What the callbacks do with an arrival, if `on_response` is registered. -/
def absorb (f : Frame) : Arrival → Frame
  | .head status header =>
    { f with
      res := { f.res with result := status, fields := f.res.fields.insertAll header }, onData := true }
  | .chunk data => if f.onData then { f with tmpBody := f.tmpBody ++ data } else f
  | .fin => if f.onData then { f with ready := true } else f

/-- Without a header the frame stays as it is. -/
theorem absorb_of_noData {f : Frame} {a : Arrival} (hf : f.onData = false) (ha : a.isHead = false) :
    absorb f a = f := by
  cases a with
  | head => cases ha
  | chunk | fin => simp [absorb, hf]

theorem foldl_absorb_noHead {as : List Arrival} (h : ∀ a ∈ as, a.isHead = false) :
    as.foldl absorb {} = {} := by
  induction as with
  | nil => rfl
  | cons a as ih =>
    rw [List.foldl_cons, absorb_of_noData rfl (h a (by simp))]
    exact ih fun b hb => h b (by simp [hb])

theorem foldl_absorb_chunks {f : Frame} (hf : f.onData = true) : ∀ chunks : List Str,
    (chunks.map Arrival.chunk).foldl absorb f = { f with tmpBody := f.tmpBody ++ chunks.flatten }
  | [] => by simp
  | c :: chunks => by
    have hc : absorb f (.chunk c) = { f with tmpBody := f.tmpBody ++ c } := by simp [absorb, hf]
    rw [List.map_cons, List.foldl_cons, hc, foldl_absorb_chunks (by exact hf) chunks]
    simp

theorem foldl_absorb_complete (status : ℕ) (header : Fields) (chunks : List Str) :
    (complete status header chunks).foldl absorb {} =
      { res := { result := status, fields := Fields.gather header }, onData := true
        tmpBody := chunks.flatten, ready := true } := by
  have hhead : absorb {} (.head status header) =
      { res := { result := status, fields := Fields.gather header }, onData := true } := rfl
  unfold complete
  rw [List.foldl_cons, hhead, List.foldl_append, foldl_absorb_chunks rfl]
  simp [absorb]

/-- The frame `f` with the marks `submitted` and `onResponse` of `g`. -/
def marked (f g : Frame) : Frame := { f with submitted := g.submitted, onResponse := g.onResponse }

theorem absorb_marked (f g : Frame) (a : Arrival) : absorb (marked f g) a = marked (absorb f a) g := by
  cases a with
  | head => rfl
  | chunk | fin => by_cases hf : f.onData = true <;> simp [absorb, marked, hf]

theorem marked_absorb (f g : Frame) (a : Arrival) : marked g (absorb f a) = marked g f := by
  cases a with
  | head => rfl
  | chunk | fin => by_cases hf : f.onData = true <;> simp [absorb, marked, hf]

/-- A step of a call changes the two marks of a frame at most. -/
theorem step_frame {k : ℕ} {m m' : Mem} {pc pc' : Pc} {e : Ev}
    (h : step certOk args k m pc e = some (m', pc')) (i : ℕ) :
    ∃ g, m'.frames i = marked (m.frames i) g := by
  have mark : ∀ f : Frame → Frame, (∀ x, f x = marked x (f x)) →
      ∃ g, (m.frame k f).frames i = marked (m.frames i) g := by
    intro f hf
    simp only [Mem.frame, Function.update_apply]
    split_ifs with hik
    · exact ⟨f (m.frames k), by rw [hik]; exact hf _⟩
    · exact ⟨m.frames i, rfl⟩
  cases step_trans h with
  | submit p => exact mark _ fun _ => rfl
  | onResponse p => exact mark _ fun _ => rfl
  | _ => exact ⟨m.frames i, rfl⟩

/-- The frame after an arrival: a header that finds no `on_response` is dropped. -/
def arrive (f : Frame) (a : Arrival) : Frame :=
  if a.isHead = true ∧ f.onResponse = false then f else absorb f a

/-- What an event of the stream `j` does to a frame, where `onEvent` says whether a callback is set. -/
theorem frames_of_stream {m m' : Mem} {j : ℕ} {onEvent : Bool} {f : Frame → Frame} {a : Arrival}
    (h : (if (m.frames j).submitted then if onEvent then some (m.frame j f) else some m else none) =
      some m')
    (hf : (if onEvent then f (m.frames j) else m.frames j) = arrive (m.frames j) a) (i : ℕ) :
    m'.frames i =
      (((if j = i then some a else none) : Option Arrival).map (arrive (m.frames i))).getD
        (m.frames i) := by
  split_ifs at h with hs hr
  · obtain rfl := Option.some.inj h
    rw [if_pos hr] at hf
    by_cases hji : j = i
    · subst hji
      rw [if_pos rfl, Option.map_some, Option.getD_some, ← hf]
      exact Function.update_self j (f (m.frames j)) m.frames
    · rw [if_neg hji]
      exact Function.update_of_ne (Ne.symm hji) (f (m.frames j)) m.frames
  · obtain rfl := Option.some.inj h
    rw [if_neg hr] at hf
    by_cases hji : j = i
    · subst hji
      rw [if_pos rfl, Option.map_some, Option.getD_some, ← hf]
    · rw [if_neg hji]
      rfl

theorem ioStep_frame {m m' : Mem} {e : IoEv} (h : ioStep m e = some m') (i : ℕ) :
    m'.frames i = ((arrival i (.inr e)).map (arrive (m.frames i))).getD (m.frames i) := by
  rcases e with p | p | ⟨j, status, header⟩ | ⟨j, chunk⟩ | j
  · simp only [ioStep] at h
    split_ifs at h
    obtain rfl := Option.some.inj h
    rfl
  · simp only [ioStep] at h
    split_ifs at h
    · obtain rfl := Option.some.inj h
      rfl
    · obtain rfl := Option.some.inj h
      rfl
  · refine frames_of_stream h ?_ i
    by_cases hr : (m.frames j).onResponse = true
    · simp [arrive, Arrival.isHead, hr, absorb]
    · simp [arrive, Arrival.isHead, hr]
  · exact frames_of_stream h (by simp [arrive, Arrival.isHead, absorb]) i
  · exact frames_of_stream h (by simp [arrive, Arrival.isHead, absorb]) i

/-- If every header was heard, the frame holds everything that has arrived; if the only one was not, it
holds nothing. -/
structure StreamInv (f : Frame) (as : List Arrival) (heard : Prop) : Prop where
  noHead : (∀ a ∈ as, a.isHead = false) → heard
  holds : heard → f = marked (as.foldl absorb {}) f
  missed : ¬ heard → as.countP Arrival.isHead ≤ 1 → f.onData = false ∧ f.ready = false

theorem StreamInv.mark {f g : Frame} {as : List Arrival} {heard : Prop} (hI : StreamInv f as heard) :
    StreamInv (marked f g) as heard := by
  refine ⟨hI.noHead, fun hh => ?_, hI.missed⟩
  have hf := hI.holds hh
  calc marked f g = marked (marked (as.foldl absorb {}) f) g := by rw [← hf]
    _ = marked (as.foldl absorb {}) (marked f g) := rfl

/-- A header has come, if one was missed. -/
theorem StreamInv.one_le {f : Frame} {as : List Arrival} {heard : Prop} (hI : StreamInv f as heard)
    (hh : ¬ heard) : 1 ≤ as.countP Arrival.isHead := by
  by_contra h0
  refine hh (hI.noHead fun a ha => ?_)
  have hz : as.countP Arrival.isHead = 0 := by omega
  simpa using List.countP_eq_zero.mp hz a ha

theorem StreamInv.arrive {f : Frame} {a : Arrival} {as : List Arrival} {heard : Prop}
    (hI : StreamInv f as heard) :
    StreamInv (arrive f a) (as ++ [a]) (heard ∧ (a.isHead = true → f.onResponse = true)) := by
  have hcount : (as ++ [a]).countP Arrival.isHead =
      as.countP Arrival.isHead + if a.isHead = true then 1 else 0 := by
    simp [List.countP_append, List.countP_singleton]
  unfold H2Completion.arrive
  split_ifs with hdrop
  · -- the header is dropped
    obtain ⟨ha, hr⟩ := hdrop
    refine ⟨fun hno => ?_, fun hh => ?_, fun _ hle => ?_⟩
    · rw [hno a (by simp)] at ha
      cases ha
    · rw [hh.2 ha] at hr
      cases hr
    · rw [hcount, if_pos ha] at hle
      have hno : ∀ b ∈ as, b.isHead = false := by
        intro b hb
        have hz : as.countP Arrival.isHead = 0 := by omega
        simpa using List.countP_eq_zero.mp hz b hb
      have hf := hI.holds (hI.noHead hno)
      rw [foldl_absorb_noHead hno] at hf
      rw [hf]
      exact ⟨rfl, rfl⟩
  · have hC : a.isHead = true → f.onResponse = true := by
      intro ha
      simpa [ha] using hdrop
    rw [and_iff_left hC]
    refine ⟨fun hno => hI.noHead fun b hb => hno b (by simp [hb]), fun hh => ?_, fun hh hle => ?_⟩
    · rw [List.foldl_append, marked_absorb]
      calc absorb f a = absorb (marked (as.foldl absorb {}) f) a := by rw [← hI.holds hh]
        _ = marked (absorb (as.foldl absorb {}) a) f := absorb_marked _ _ _
    · have hone := hI.one_le hh
      rw [hcount] at hle
      have ha : a.isHead = false := by
        by_contra ht
        rw [if_pos (by simpa using ht)] at hle
        omega
      have hold := hI.missed hh (by omega)
      rw [absorb_of_noData hold.1 ha]
      exact hold

theorem responseHeard_iff {i : ℕ} {s : Mem × (ℕ → Pc)} {e : IoEv} :
    ResponseHeard i s (.inr e) ↔
      ∀ a, arrival i (.inr e) = some a → a.isHead = true → (s.1.frames i).onResponse = true := by
  cases e with
  | connect | error => simp [ResponseHeard, arrival]
  | response j | data j | dataEnd j =>
    by_cases hj : j = i <;> simp [ResponseHeard, arrival, Arrival.isHead, hj]

theorem streamInv_step (i : ℕ) (s : Mem × (ℕ → Pc)) (ls : List ((ℕ × Ev) ⊕ IoEv))
    (l : (ℕ × Ev) ⊕ IoEv) (s' : Mem × (ℕ → Pc)) (hrun : (sys certOk args o).exec ls = some s)
    (hI : StreamInv (s.1.frames i) (arrivals i ls)
      ((sys certOk args o).Along (ResponseHeard i) (sys certOk args o).init ls))
    (h : (sys certOk args o).step s l = some s') :
    StreamInv (s'.1.frames i) (arrivals i (ls ++ [l]))
      ((sys certOk args o).Along (ResponseHeard i) (sys certOk args o).init (ls ++ [l])) := by
  rw [Sys.along_concat hrun]
  have hone : arrivals i (ls ++ [l]) = arrivals i ls ++ (arrival i l).toList := by
    unfold arrivals
    rw [List.filterMap_append]
    cases ha : arrival i l <;> simp [ha]
  rw [hone]
  rcases sys_step h with ⟨k, e, m, pc, rfl, hst, rfl⟩ | ⟨e, m, rfl, hio, rfl⟩
  · have hC : ResponseHeard i s (.inl (k, e)) := trivial
    obtain ⟨g, hg⟩ := step_frame hst i
    rw [and_iff_left hC, hg]
    simpa [arrival] using hI.mark
  · rw [responseHeard_iff, ioStep_frame hio i]
    cases ha : arrival i (.inr e) with
    | none => simpa using hI
    | some a => simpa using hI.arrive

theorem streamInv_exec {ls : List ((ℕ × Ev) ⊕ IoEv)} {s : Mem × (ℕ → Pc)}
    (h : (sys certOk args o).exec ls = some s) (i : ℕ) :
    StreamInv (s.1.frames i) (arrivals i ls)
      ((sys certOk args o).Along (ResponseHeard i) (sys certOk args o).init ls) :=
  Sys.exec_inv (P := fun s ls => StreamInv (s.1.frames i) (arrivals i ls)
      ((sys certOk args o).Along (ResponseHeard i) (sys certOk args o).init ls))
    ⟨fun _ => trivial, fun _ => rfl, fun hh => absurd trivial hh⟩ (streamInv_step i) h

/-! ### Calls that wait -/

/-- The wait of call `i` cannot time out, and it leads to the position `pc`. -/
def Answered (certOk : Str → Bool) (args : ℕ → HttpsReqArgument) (s : Mem × (ℕ → Pc)) (i : ℕ)
    (pc : Pc) : Prop :=
  step certOk args i s.1 (s.2 i) (.wake true) = none ∧
    step certOk args i s.1 (s.2 i) (.wake false) = some (s.1, pc)

theorem answered_connecting {s : Mem × (ℕ → Pc)} {i p : ℕ} (h : s.2 i = .connecting p) :
    Answered certOk args s i (.push p) ↔ (s.1.cache.mem p).stream.ready = true := by
  unfold Answered
  rw [h]
  cases hr : (s.1.cache.mem p).stream.ready <;> simp [step, hr]

theorem answered_waiting {s : Mem × (ℕ → Pc)} {i p : ℕ} {d : ℤ} {res : StrResponse}
    (h : s.2 i = .waiting p d) :
    Answered certOk args s i (.done (.response res)) ↔
      (s.1.frames i).ready = true ∧ (s.1.frames i).response = some res := by
  unfold Answered
  rw [h]
  cases hr : (s.1.frames i).ready <;> simp [step, hr]

/-- **No completion is lost** exactly if it was heard. A call that waits for an established connection
gets it, instead of running into its timeout, if and only if `on_connect` was registered when the
connection was established; a call that waits for a response that has arrived completely returns its
status, header and body if and only if `on_response` was registered when the header arrived and the
status lets the response have its body. -/
theorem completion_iff (certOk : Str → Bool) (args : ℕ → HttpsReqArgument)
    (o : Conn HttpsReqArgument Session) (ls : List ((ℕ × Ev) ⊕ IoEv)) (s : Mem × (ℕ → Pc))
    (h : (sys certOk args o).exec ls = some s) :
    (∀ i p, s.2 i = .connecting p → (s.1.cache.mem p).stream.established = true →
      (Answered certOk args s i (.push p) ↔
        (sys certOk args o).Along (ConnectHeard p) (sys certOk args o).init ls)) ∧
    ∀ i p d status header chunks, s.2 i = .waiting p d →
      arrivals i ls = complete status header chunks →
      ((∃ res, strResponse status header chunks.flatten = some res ∧
          Answered certOk args s i (.done (.response res))) ↔
        (sys certOk args o).Along (ResponseHeard i) (sys certOk args o).init ls ∧
          Admits status chunks.flatten) := by
  refine ⟨fun i p hpc hest => ?_, fun i p d status header chunks hpc hall => ?_⟩
  · obtain ⟨hp, -⟩ := (reach_shared ⟨ls, h⟩).uses i p (by simp [hpc, Uses, creating])
    rw [answered_connecting hpc]
    exact (connInv_exec h p).established hp hest
  · have hI := streamInv_exec h i
    rw [hall] at hI
    rw [← @strResponse_admits status header]
    constructor
    · rintro ⟨res, hres, hanswered⟩
      obtain ⟨hready, -⟩ := (answered_waiting hpc).mp hanswered
      refine ⟨?_, res, hres⟩
      by_contra hh
      rw [(hI.missed hh (Nat.le_of_eq (countP_complete status header chunks))).2] at hready
      cases hready
    · rintro ⟨hh, res, hres⟩
      refine ⟨res, hres, (answered_waiting hpc).mpr ?_⟩
      have hf := hI.holds hh
      rw [foldl_absorb_complete] at hf
      rw [hf]
      exact ⟨rfl, hres⟩

/-- The connection is established before the call registers `on_connect`. -/
def earlyConnectRun : List ((ℕ × Ev) ⊕ IoEv) :=
  [.inl (0, .call), .inl (0, .sweep 0), .inl (0, .search 0), .inl (0, .create true), .inr (.connect 0),
    .inl (0, .register), .inl (0, .register)]

/-- The response arrives before the call registers `on_response`. -/
def earlyResponseRun : List ((ℕ × Ev) ⊕ IoEv) :=
  opens.map (label 0) ++
    [.inl (0, .submit true), .inr (.response 0 200 []), .inr (.data 0 (str "hi")), .inr (.dataEnd 0),
      .inl (0, .register), .inl (0, .await)]

theorem earlyRuns_lost :
    let a : HttpsReqArgument := { host := str "h", port := str "443" }
    let S := sys (fun _ => true) (fun _ => a) { args := a, stream := { ssl := {} } }
    (∃ s, S.exec earlyConnectRun = some s ∧ s.2 0 = .connecting 0 ∧
      (s.1.cache.mem 0).stream.established = true ∧
      ¬ Answered (fun _ => true) (fun _ => a) s 0 (.push 0)) ∧
    ∃ s, S.exec earlyResponseRun = some s ∧ s.2 0 = .waiting 0 6 ∧
      arrivals 0 earlyResponseRun = complete 200 [] [str "hi"] ∧
      ∀ res, ¬ Answered (fun _ => true) (fun _ => a) s 0 (.done (.response res)) := by
  intro a S
  refine ⟨⟨_, rfl, rfl, rfl, ?_⟩, ⟨_, rfl, rfl, rfl, fun res => ?_⟩⟩
  · rintro ⟨h, -⟩
    cases h
  · rintro ⟨h, -⟩
    cases h

/-- The response arrives in time, with blanks around a value. -/
def answeredRun : List ((ℕ × Ev) ⊕ IoEv) :=
  opens.map (label 0) ++ waits.map (label 0) ++
    [.inr (.response 0 200 [(str "a", str " 1 ")]), .inr (.data 0 (str "h")), .inr (.data 0 (str "i")),
      .inr (.dataEnd 0)]

theorem completion_iff_answeredRun :
    let a : HttpsReqArgument := { host := str "h", port := str "443" }
    let S := sys (fun _ => true) (fun _ => a) { args := a, stream := { ssl := {} } }
    ∃ s, S.exec answeredRun = some s ∧ s.2 0 = .waiting 0 6 ∧
      arrivals 0 answeredRun = complete 200 [(str "a", str " 1 ")] [str "h", str "i"] ∧
      ((∃ res, strResponse 200 [(str "a", str " 1 ")] (str "hi") = some res ∧
          Answered (fun _ => true) (fun _ => a) s 0 (.done (.response res))) ↔
        S.Along (ResponseHeard 0) S.init answeredRun ∧ Admits 200 (str "hi")) := by
  intro a S
  refine ⟨_, rfl, rfl, rfl, ?_⟩
  exact (completion_iff (fun _ => true) (fun _ => a) { args := a, stream := { ssl := {} } } answeredRun
    _ rfl).2 0 0 6 200 [(str "a", str " 1 ")] [str "h", str "i"] rfl rfl

end Jkit.Http.Client.H2Completion
