import Jkit.Http.Client.Lease
import Jkit.Http.Client.H2Pool

/-! # The TLS policy of pooled connections

The `ssl::context` of a connection is set up once, for the call that opens it, and no later step
changes it; the search that hands the connection to another call compares host and port only.
`tlsSafe_iff` says when this is enough: every request with a certificate goes over a connection
that verifies its peer against that certificate, in every run of `h1_req` (HTTPS) and `h2_req`,
exactly if no call of the same pool and peer can open a connection under another policy.
`plainRun` is a run in which a connection opened without verification is handed to a request with
a certificate. -/

namespace Jkit.Http.Client.Tls

open Jkit.Http.Message Jkit.Http.Client.Conns Jkit.Lib.Run
open Jkit.Http.Client.H2Pool (peer)

/-! ### Policies -/

/-- What a request asks for: verification of the peer with its certificate as the authority. -/
def policy (cert : Str) : SslContext := { verifyMode := .verifyPeer, authorities := [cert] }

theorem setSsl_cert {certOk : Str → Bool} {cert : Str} {ctx : SslContext} (hc : cert ≠ [])
    (h : setSsl certOk {} cert = some ctx) : ctx = policy cert := by
  simp only [setSsl, if_pos hc] at h
  split at h
  · cases h; rfl
  · cases h

/-- A context that satisfies the request with certificate `cert` was set up for that certificate. -/
theorem eq_of_setSsl_policy {certOk : Str → Bool} {cert cert' : Str}
    (h : setSsl certOk {} cert' = some (policy cert)) : cert' = cert := by
  rcases eq_or_ne cert' [] with rfl | hc
  · simp [setSsl, policy] at h
  · simpa [policy, eq_comm] using setSsl_cert hc h

/-- The calls that have a peer in common and can open a connection have the certificate of every one
of these calls that has a certificate. -/
def Uniform (certOk : Str → Bool) (args : ℕ → HttpsReqArgument) : Prop :=
  ∀ k i, peer (args i) = peer (args k) → setSsl certOk {} (args k).sslCert ≠ none →
    (args i).sslCert ≠ [] → (args k).sslCert = (args i).sslCert

theorem Uniform.policy {certOk : Str → Bool} {args : ℕ → HttpsReqArgument}
    (hu : Uniform certOk args) {k i : ℕ} {ctx : SslContext} (hp : peer (args i) = peer (args k))
    (hk : setSsl certOk {} (args k).sslCert = some ctx) (hi : (args i).sslCert ≠ []) :
    ctx = Tls.policy (args i).sslCert := by
  have he := hu k i hp (by rw [hk]; simp) hi
  rw [he] at hk
  exact setSsl_cert hi hk

/-! ### The HTTPS pool -/

section H1

open Jkit.Http.Client.H1 Jkit.Http.Client.Lease

variable {A S : Type} {K : H1Kind A S} {args : ℕ → A}

/-- The connection `p` was opened for some call with its peer. -/
def Opened (K : H1Kind A S) (args : ℕ → A) (c : Cache A S) (p : ℕ) : Prop :=
  ∃ k, K.newStream (args k) = some (c.mem p).stream ∧ Peer K args c k p

theorem Opened.congr {c c' : Cache A S} {p : ℕ} (h : Opened K args c p)
    (hs : (c'.mem p).stream = (c.mem p).stream)
    (hh : K.host (c'.mem p).args = K.host (c.mem p).args)
    (hp : K.port (c'.mem p).args = K.port (c.mem p).args) : Opened K args c' p := by
  obtain ⟨k, hk, hpeer⟩ := h
  exact ⟨k, by rw [hs, hk], by rw [hh]; exact hpeer.1, by rw [hp]; exact hpeer.2⟩

theorem Opened.update {c : Cache A S} {p q : ℕ} {x : Conn A S} {l : List ℕ} (h : Opened K args c p)
    (hs : x.stream = (c.mem q).stream) (hh : K.host x.args = K.host (c.mem q).args)
    (hp : K.port x.args = K.port (c.mem q).args) :
    Opened K args { c with mem := Function.update c.mem q x, conns := l } p := by
  rcases eq_or_ne p q with rfl | hpq
  · exact h.congr (by simpa using hs) (by simpa using hh) (by simpa using hp)
  · exact h.congr (by simp [hpq]) (by simp [hpq]) (by simp [hpq])

theorem opened_move (hK : Lawful K) (hst : ∀ a now o, (K.reuse a now o).stream = o.stream) {i : ℕ}
    {P P' : Pool A S} {pc pc' : Pc} (h : Move K args i P pc P' pc')
    (hI : ∀ p < P.cache.next, Opened K args P.cache p) :
    ∀ p < P'.cache.next, Opened K args P'.cache p := by
  intro p hp
  cases h with
  | inner => exact hI p hp
  | sweep now => exact (hI p hp).congr rfl rfl rfl
  | erase q r => exact (hI p hp).congr rfl rfl rfl
  | reuse now q hq =>
    exact (hI p hp).update (hst _ _ _) (hK.host _ _ _) (hK.port _ _ _)
  | push now q => exact (hI p hp).update rfl rfl rfl
  | release now q res =>
    by_cases hq : q ∈ P.cache.conns
    · simp only [Pool.release, Cache.release, if_pos hq] at hp ⊢
      exact (hI p hp).update rfl rfl rfl
    · simp only [Pool.release, Cache.release, if_neg hq] at hp ⊢
      exact hI p hp
  | create st h =>
    rcases eq_or_ne p P.cache.next with rfl | hne
    · exact ⟨i, by simpa [Cache.alloc] using h, by simp [Peer, Cache.alloc]⟩
    · have hlt : p < P.cache.next := by
        have : p < P.cache.next + 1 := hp
        omega
      exact (hI p hlt).congr (by simp [Cache.alloc, hne]) (by simp [Cache.alloc, hne])
        (by simp [Cache.alloc, hne])

/-- **Every connection of a reachable state was opened for a call with its peer.** -/
theorem reach_opened (hK : Lawful K) (hst : ∀ a now o, (K.reuse a now o).stream = o.stream)
    {o : Conn A S} {s : Pool A S × (ℕ → Pc)} (h : (H1.sys K args o).Reach s) :
    ∀ p < s.1.cache.next, Opened K args s.1.cache p := by
  refine Sys.reach_inv (P := fun s => ∀ p < s.1.cache.next, Opened K args s.1.cache p) ?_ ?_ h
  · intro p hp
    exact absurd hp (by simp [H1.sys, Sys.threads])
  · intro s l s' hs hstep
    obtain ⟨P', pc', hst', rfl⟩ := Sys.threads_step.mp hstep
    exact opened_move hK hst (Lease.step_move hst') hs

end H1

/-- Every call of the HTTPS pool with a certificate has a connection with its policy. -/
def SafeH1 (args : ℕ → HttpsReqArgument)
    (s : H1.Pool HttpsReqArgument SslContext × (ℕ → H1.Pc)) : Prop :=
  ∀ i p, Lease.held (s.2 i) = some p → (args i).sslCert ≠ [] →
    (s.1.cache.mem p).stream = policy (args i).sslCert

section Runs

open Jkit.Http.Client.H1

variable (certOk : Str → Bool) (args : ℕ → HttpsReqArgument)
  (o : Conn HttpsReqArgument SslContext)

/-- A call opens a connection, has its exchange and releases the connection. -/
def visit : List Ev :=
  [.call, .sweep 0, .search 0, .create, .io true, .io true, .io true, .io true, .push 0, .write none,
    .read (.ok Lease.keepRes), .release 0]

/-- A call finds a connection in the list. -/
def find : List Ev := [.call, .sweep 0, .search 0]

/-- The pool after the first `new`, for a call with the arguments `a`. -/
def opened (a : HttpsReqArgument) (ctx : SslContext) : Pool HttpsReqArgument SslContext where
  cache := Cache.alloc { mem := fun _ => o } { args := a, stream := ctx }

theorem run_visit {k : ℕ} {ctx : SslContext} (hctx : setSsl certOk {} (args k).sslCert = some ctx) :
    ∃ P, (H1.sys (https certOk) args o).exec (visit.map (Prod.mk k)) =
        some (P, Function.update (fun _ => Pc.idle) k (.done (.response Lease.keepRes))) ∧
      P.cache.conns = [0] ∧ P.cache.mem 0 = { args := args k, stream := ctx } := by
  let P₀ : Pool HttpsReqArgument SslContext := { cache := { mem := fun _ => o } }
  let S := Sys.alone P₀ Pc.idle (step (https certOk) args k)
  have h1 : S.run (P₀, .idle) (visit.take 4) =
      some (opened o (args k) ctx, .opening 0 (https certOk).opening) := by
    have hnew : (https certOk).newStream (args k) = some ctx := hctx
    show (step (https certOk) args k (P₀.sweep (https certOk) 0) .create .create).bind some = _
    simp only [step, hnew]
    rfl
  have h2 : ∃ P, S.run (opened o (args k) ctx, .opening 0 (https certOk).opening) (visit.drop 4) =
      some (P, .done (.response Lease.keepRes)) ∧
      P.cache.conns = [0] ∧ P.cache.mem 0 = { args := args k, stream := ctx } := ⟨_, rfl, rfl, rfl⟩
  obtain ⟨P, h2, hc, hm⟩ := h2
  have hrun : S.run (P₀, .idle) visit = some (P, .done (.response Lease.keepRes)) :=
    Sys.run_append.mpr ⟨_, h1, h2⟩
  exact ⟨P, Sys.threads_run_alone (s := (P₀, fun _ => Pc.idle)) hrun, hc, hm⟩

theorem run_find {P : Pool HttpsReqArgument SslContext} {pcs : ℕ → Pc} {i k : ℕ} {ctx : SslContext}
    (hc : P.cache.conns = [0]) (hm : P.cache.mem 0 = { args := args k, stream := ctx })
    (hp : peer (args i) = peer (args k)) (hi : pcs i = .idle) :
    ∃ P', (H1.sys (https certOk) args o).run (P, pcs) (find.map (Prod.mk i)) =
        some (P', Function.update pcs i (.write 0)) ∧ (P'.cache.mem 0).stream = ctx := by
  obtain ⟨hhost, hport⟩ := Prod.ext_iff.mp hp
  simp only [peer] at hhost hport
  simp [find, Sys.run, H1.sys, Sys.threads, step, hi, hc, hm, hhost, hport, https, Pool.sweep,
    Cache.deleteTimeout, Cache.expired, unuseTimeout, Cache.search, Cache.samePeer, Pool.reuse,
    Cache.reuse]

end Runs

theorem safeH1_iff (certOk : Str → Bool) (args : ℕ → HttpsReqArgument)
    (o : Conn HttpsReqArgument SslContext) :
    (∀ s, (H1.sys (H1.https certOk) args o).Reach s → SafeH1 args s) ↔ Uniform certOk args := by
  constructor
  · intro h k i hp hk hi
    rcases eq_or_ne i k with rfl | hik
    · rfl
    obtain ⟨ctx, hctx⟩ := Option.ne_none_iff_exists'.mp hk
    obtain ⟨P, hs, hc, hm⟩ := run_visit certOk args o hctx
    have hidle : Function.update (fun _ => H1.Pc.idle) k (.done (.response Lease.keepRes)) i = .idle :=
      Function.update_of_ne hik _ _
    obtain ⟨P', hs', hst⟩ := run_find certOk args o hc hm hp hidle
    have hsafe := h _ ⟨_, Sys.run_append.mpr ⟨_, hs, hs'⟩⟩ i 0 (by simp [Lease.held]) hi
    rw [hst] at hsafe
    exact eq_of_setSsl_policy (hsafe ▸ hctx)
  · intro hu s hs i p hp hi
    have hgood := Sys.reach_inv (Lease.good_init _ args o)
      (Lease.good_step (Lease.https_lawful certOk)) hs
    obtain ⟨hin, -, hpeer⟩ := hgood.inv.held i p hp
    obtain ⟨k, hk, hpeer'⟩ := reach_opened (Lease.https_lawful certOk) (fun _ _ _ => rfl) hs p
      (hgood.inv.bound p hin)
    have hik : peer (args i) = peer (args k) :=
      Prod.ext (hpeer.1.symm.trans hpeer'.1) (hpeer.2.symm.trans hpeer'.2)
    exact hu.policy hik hk hi

/-! ### The HTTP/2 pool -/

/-- Every call of the HTTP/2 pool with a certificate has a connection with its policy. -/
def SafeH2 (args : ℕ → HttpsReqArgument) (s : H2.Mem × (ℕ → H2.Pc)) : Prop :=
  ∀ i p, H2.leased (s.2 i) = some p → (args i).sslCert ≠ [] →
    (s.1.cache.mem p).stream.ssl = policy (args i).sslCert

theorem safeH2_iff (certOk : Str → Bool) (args : ℕ → HttpsReqArgument)
    (o : Conn HttpsReqArgument H2.Session) :
    (∀ s, (H2.sys certOk args o).Reach s → SafeH2 args s) ↔ Uniform certOk args := by
  constructor
  · intro h k i hp hk hi
    rcases eq_or_ne i k with rfl | hik
    · rfl
    obtain ⟨ctx, hctx⟩ := Option.ne_none_iff_exists'.mp hk
    obtain ⟨m, hs, hc, ha, hssl, ht⟩ := H2Pool.run_opens certOk args o hctx
    have hidle : Function.update (fun _ => H2.Pc.idle) k (.submit 0) i = .idle :=
      Function.update_of_ne hik _ _
    obtain ⟨m', hs', -, hst⟩ := H2Pool.run_joins certOk args o hc ha ht hp hidle
    have hsafe := h _ ⟨_, Sys.run_append.mpr ⟨_, hs, hs'⟩⟩ i 0 (by simp [H2.leased]) hi
    rw [hst, hssl] at hsafe
    exact eq_of_setSsl_policy (hsafe ▸ hctx)
  · intro hu s hs i p hp hi
    have hS := H2Pool.reach_shared hs
    obtain ⟨hlt, hpeer⟩ := hS.uses i p (.inr hp)
    obtain ⟨k, hk, hpeer'⟩ := (hS.origin p hlt).opener
    exact hu.policy (by rw [hpeer', hpeer]) hk hi

/-! ### Both pools -/

/-- The calls of `h1_req` (HTTPS) and of `h2_req`, in any interleaving. -/
def tls (certOk : Str → Bool) (args args2 : ℕ → HttpsReqArgument)
    (o : Conn HttpsReqArgument SslContext) (o2 : Conn HttpsReqArgument H2.Session) :=
  (H1.sys (H1.https certOk) args o).prod (H2.sys certOk args2 o2)

/-- **Every request with a certificate goes over a connection that verifies its peer against it**, in
every run, if and only if in each pool the calls with a common peer that can open a connection have
one policy. -/
theorem tlsSafe_iff (certOk : Str → Bool) (args args2 : ℕ → HttpsReqArgument)
    (o : Conn HttpsReqArgument SslContext) (o2 : Conn HttpsReqArgument H2.Session) :
    (∀ ls s, (tls certOk args args2 o o2).exec ls = some s →
        SafeH1 args s.1 ∧ SafeH2 args2 s.2) ↔
      Uniform certOk args ∧ Uniform certOk args2 := by
  rw [← safeH1_iff certOk args o, ← safeH2_iff certOk args2 o2]
  constructor
  · intro h
    constructor
    · rintro s ⟨es, hs⟩
      exact (h _ _ (Sys.prod_run_left (H2.sys certOk args2 o2) _ hs)).1
    · rintro s ⟨ds, hs⟩
      exact (h _ _ (Sys.prod_run_right (S := H1.sys (H1.https certOk) args o) _ _ hs)).2
  · rintro ⟨h1, h2⟩ ls s hs
    obtain ⟨hr1, hr2⟩ := Sys.reach_prod ⟨ls, hs⟩
    exact ⟨h1 _ hr1, h2 _ hr2⟩

/-- Call 0 asks for no verification, the others for verification with the authority `CA`. -/
def plainFirst (i : ℕ) : HttpsReqArgument :=
  { host := str "h", port := str "443", sslCert := if i = 0 then [] else str "CA" }

/-- A connection opened without verification is released, and a call with a certificate gets it; in
the other pool, it is still in use by the call that opened it. -/
def plainRun : List ((ℕ × H1.Ev) ⊕ ((ℕ × H2.Ev) ⊕ H2.IoEv)) :=
  (visit.map (Prod.mk 0) ++ find.map (Prod.mk 1)).map .inl ++
    (H2Pool.opens.map (H2Pool.label 0) ++ H2Pool.joins.map (H2Pool.label 1)).map .inr

theorem plainRun_unsafe :
    ∃ s, (tls (fun _ => true) plainFirst plainFirst { args := plainFirst 0, stream := {} }
        { args := plainFirst 0, stream := { ssl := {} } }).exec plainRun = some s ∧
      s.1.2 1 = .write 0 ∧ s.2.2 1 = .submit 0 ∧ (plainFirst 1).sslCert = str "CA" ∧
      (s.1.1.cache.mem 0).stream.verifyMode = .verifyNone ∧
      (s.2.1.cache.mem 0).stream.ssl.verifyMode = .verifyNone ∧
      ¬ SafeH1 plainFirst s.1 ∧ ¬ SafeH2 plainFirst s.2 := by
  refine ⟨_, rfl, rfl, rfl, rfl, rfl, rfl, fun h => ?_, fun h => ?_⟩
  · exact absurd (congrArg SslContext.verifyMode (h 1 0 rfl (by decide))) (by decide)
  · exact absurd (congrArg SslContext.verifyMode (h 1 0 rfl (by decide))) (by decide)

end Jkit.Http.Client.Tls
