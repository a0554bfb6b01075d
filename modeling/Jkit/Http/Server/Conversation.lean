import Jkit.Http.Server.Protocol

/-! # The answers of a session do not depend on its history

The context of a connection keeps fields of earlier requests: `path`, `path_params` and `query_params`,
and up to `handle_request` also the response `res` to the request before. `conversation` says when that
cannot be seen from outside: if no callback looks at such a field, then in every run of `session` each final
response is the one its request would get as the only request of a connection. `forgetful_constructed`
says that the resources of the constructor look at none.

A registered resource may look at everything. The sub-matches in `path_params` lie in `path`, so one that
assigns `path` is taken not to read them after that.

The proof compares the session with a fresh context for each request. A callback respects a relation
between contexts, and `respects_handleRequest` is what becomes of the relations in `handle_request`. -/

namespace Jkit.Http.Server.Conversation

open Jkit.Lib.Run Jkit.Http.Message Jkit.Common.WebUtility Jkit.Http.Server.Context
open Jkit.Http.Server.Protocol HttpApiServer

variable {E : Type}

/-! ### What a callback may look at -/

/-- The same peer and the same request. -/
structure Asked (c c' : HttpContext E) : Prop where
  endpoint : c.remoteEndpoint = c'.remoteEndpoint
  req : c.req = c'.req

/-- The same response too. -/
structure Answered (c c' : HttpContext E) : Prop extends Asked c c' where
  res : c.res = c'.res

/-- Everything is the same but the match of an earlier request. -/
def Parsed (c c' : HttpContext E) : Prop := ∃ l, c' = { c with pathParams := l }

/-- On contexts related by `R` the callback throws the same and leaves contexts related by `R'`. -/
def Respects (R R' : HttpContext E → HttpContext E → Prop) (f : Call E) : Prop :=
  ∀ c c', R c c' → R' (f c).1 (f c').1 ∧ (f c).2 = (f c').2

/-- The callback leaves `remote_endpoint` alone. -/
def Keeps (f : Call E) : Prop := ∀ c, (f c).1.remoteEndpoint = c.remoteEndpoint

/-- The other resources of the server do not look at what `handle_request` has not set for the request at
hand. The registered ones may: they are called with nothing else. -/
structure Forgetful (S : HttpApiServer E) : Prop where
  keeps : ∀ e ∈ S.resource, ∀ p ∈ e.2, Keeps p.2
  default : Respects Parsed Answered S.defaultResource
  defaultKeeps : Keeps S.defaultResource
  bad : ∀ why, Respects Answered Answered (S.badResource why)
  badKeeps : ∀ why, Keeps (S.badResource why)

theorem badResource_respects (why : Str) : Respects Answered Answered (@Context.badResource E why) := by
  intro c c' h
  rw [badResource_eq, badResource_eq]
  refine ⟨⟨⟨h.endpoint, h.req⟩, ?_⟩, rfl⟩
  simp only [pageRes, h.req, h.res]

/-- **The resources of the constructor are forgetful.** -/
theorem forgetful_constructed {S : HttpApiServer E} (hd : S.defaultResource = Context.defaultResource)
    (hb : S.badResource = Context.badResource) (h : ∀ e ∈ S.resource, ∀ p ∈ e.2, Keeps p.2) :
    Forgetful S where
  keeps := h
  default := by
    rw [hd]
    rintro c _ ⟨l, rfl⟩
    rw [Context.defaultResource, Context.defaultResource, errorPage_eq (.inr rfl), errorPage_eq (.inr rfl)]
    exact ⟨⟨⟨rfl, rfl⟩, rfl⟩, rfl⟩
  defaultKeeps := by
    rw [hd]
    intro c
    rw [Context.defaultResource, errorPage_eq (.inr rfl)]
  bad := by
    rw [hb]
    exact badResource_respects
  badKeeps := by
    rw [hb]
    intro why c
    rw [badResource_eq]

/-! ### `handle_request` -/

section Handle

variable {S : HttpApiServer E}

/-- What the `try` block makes of a callback: `done` if nothing is thrown, the handler otherwise. -/
def settle (S : HttpApiServer E) (done : HttpContext E → HttpContext E) :
    HttpContext E × Option Thrown → HttpContext E × Option Thrown
  | (cxt, none) => (done cxt, none)
  | (cxt, some (.exception what)) => S.badResource what cxt
  | (cxt, some .other) => (cxt, some .other)

theorem dispatch_default {c : HttpContext E} (h : S.route c.path c.req.method S.resource = none) :
    S.dispatch c = settle S id (S.defaultResource c) := by
  simp only [dispatch, callResource_eq, h]
  obtain ⟨d, t⟩ := S.defaultResource c
  rcases t with _ | (_ | _) <;> rfl

theorem dispatch_route {c : HttpContext E} {fn : Call E} {sm : List SubMatch}
    (h : S.route c.path c.req.method S.resource = some (fn, sm)) :
    S.dispatch c = settle S finish (fn { c with pathParams := sm }) := by
  simp only [dispatch, callResource_eq, h]
  obtain ⟨d, t⟩ := fn { c with pathParams := sm }
  rcases t with _ | (_ | _) <;> rfl

theorem respects_settle (hS : Forgetful S) {x x' : HttpContext E × Option Thrown}
    (h : Answered x.1 x'.1) (ht : x.2 = x'.2) :
    Answered (settle S id x).1 (settle S id x').1 ∧ (settle S id x).2 = (settle S id x').2 := by
  obtain ⟨d, t⟩ := x
  obtain ⟨d', t'⟩ := x'
  obtain rfl : t = t' := ht
  rcases t with _ | (what | _)
  · exact ⟨h, rfl⟩
  · exact hS.bad what d d' h
  · exact ⟨h, rfl⟩

theorem keeps_settle (hS : Forgetful S) (done : HttpContext E → HttpContext E)
    (hdone : ∀ c, (done c).remoteEndpoint = c.remoteEndpoint) (x : HttpContext E × Option Thrown) :
    (settle S done x).1.remoteEndpoint = x.1.remoteEndpoint := by
  obtain ⟨d, t⟩ := x
  rcases t with _ | (what | _)
  · exact hdone d
  · exact hS.badKeeps what d
  · rfl

theorem respects_dispatch (hS : Forgetful S) : Respects Parsed Answered S.dispatch := by
  rintro c _ ⟨l, rfl⟩
  cases hr : S.route c.path c.req.method S.resource with
  | some x =>
    -- the resource gets a match of its own
    rw [dispatch_route hr, dispatch_route (c := { c with pathParams := l }) hr]
    exact ⟨⟨⟨rfl, rfl⟩, rfl⟩, rfl⟩
  | none =>
    obtain ⟨hcxt, hthrown⟩ := hS.default c { c with pathParams := l } ⟨l, rfl⟩
    rw [dispatch_default hr, dispatch_default (c := { c with pathParams := l }) hr]
    exact respects_settle hS hcxt hthrown

theorem keeps_dispatch (hS : Forgetful S) : Keeps S.dispatch := by
  intro c
  cases hr : S.route c.path c.req.method S.resource with
  | some x =>
    obtain ⟨fn, sm⟩ := x
    obtain ⟨e, he, hfn, -⟩ := route_some hr
    rw [dispatch_route hr]
    exact (keeps_settle hS finish (fun _ => rfl) _).trans (hS.keeps e he (_, fn) hfn _)
  | none =>
    rw [dispatch_default hr]
    exact (keeps_settle hS id (fun _ => rfl) _).trans (hS.defaultKeeps c)

/-- **`handle_request` forgets**: it starts a new response, and of the fields that an earlier request has
left behind it sets those it passes on. -/
theorem respects_handleRequest (hS : Forgetful S) : Respects Asked Answered S.handleRequest := by
  intro c c' h
  obtain ⟨hep, hreq⟩ := h
  simp only [handleRequest, hep, hreq]
  split
  · exact hS.bad _ _ _ ⟨⟨rfl, rfl⟩, rfl⟩
  · split
    · exact hS.bad _ _ _ ⟨⟨rfl, rfl⟩, rfl⟩
    · exact respects_dispatch hS _ _ ⟨c'.pathParams, rfl⟩

theorem keeps_handleRequest (hS : Forgetful S) : Keeps S.handleRequest := by
  intro c
  simp only [handleRequest]
  split
  · exact hS.badKeeps _ _
  · split
    · exact hS.badKeeps _ _
    · exact keeps_dispatch hS _

end Handle

/-! ### One request alone -/

/-- The context a callback leaves if it does not throw. -/
def left : HttpContext E × Option Thrown → Option (HttpContext E)
  | (c, none) => some c
  | (_, some _) => none

/-- A request with its callbacks and its response. -/
structure Turn (E : Type) where
  req : StrRequest
  first : Call E
  server : HttpApiServer E
  last : Call E
  res : StrResponse

/-- The context of the first request of a connection. -/
def fresh (ep : E) (r : StrRequest) : HttpContext E := { remoteEndpoint := ep, req := r }

/-- The final response to the first request of a connection; `none` if a callback throws. -/
def alone (ep : E) (r : StrRequest) (f : Call E) (S : HttpApiServer E) (g : Call E) : Option StrResponse :=
  (left (f (fresh ep r))).bind fun c =>
    (left (S.handleRequest c)).bind fun c => (left (g c)).map HttpContext.res

/-- The response is the one to this request as the first of its connection. -/
def Turn.Alone (ep : E) (x : Turn E) : Prop := alone ep x.req x.first x.server x.last = some x.res

/-- The label of a step on a connection from `ep` whose callbacks do not look at what earlier requests
have left in the context. -/
def Plain (ep : E) : Ev E → Prop
  | .endpoint (some ep') => ep' = ep
  | .first f => Respects Asked Asked f ∧ Keeps f
  | .handle S => Forgetful S
  | .last g => Respects Answered Answered g ∧ Keeps g
  | _ => True

/-! ### The account of a run -/

/-- What a run has read, called and written, each in its order. -/
@[ext]
structure Account (E : Type) where
  reqs : List StrRequest := []
  firsts : List (Call E) := []
  servers : List (HttpApiServer E) := []
  lasts : List (Call E) := []
  finals : List StrResponse := []

instance : Append (Account E) where
  append A B := ⟨A.reqs ++ B.reqs, A.firsts ++ B.firsts, A.servers ++ B.servers, A.lasts ++ B.lasts,
    A.finals ++ B.finals⟩

theorem account_append (A B : Account E) :
    A ++ B = ⟨A.reqs ++ B.reqs, A.firsts ++ B.firsts, A.servers ++ B.servers, A.lasts ++ B.lasts,
      A.finals ++ B.finals⟩ := rfl

theorem account_append_assoc (A B C : Account E) : A ++ B ++ C = A ++ (B ++ C) := by
  simp [account_append]

theorem account_append_empty (A : Account E) : A ++ {} = A := by
  simp [account_append]

def firstOf : Ev E → Option (Call E)
  | .first f => some f
  | _ => none

def serverOf : Ev E → Option (HttpApiServer E)
  | .handle S => some S
  | _ => none

def lastOf : Ev E → Option (Call E)
  | .last g => some g
  | _ => none

/-- The account of some entries of the record and some labels. -/
def account (acts : List Act) (es : List (Ev E)) : Account E where
  reqs := acts.filterMap Act.request
  firsts := es.filterMap firstOf
  servers := es.filterMap serverOf
  lasts := es.filterMap lastOf
  finals := acts.filterMap Act.final

theorem account_of_append (acts acts' : List Act) (es es' : List (Ev E)) :
    account (acts ++ acts') (es ++ es') = account acts es ++ account acts' es' := by
  simp [account, account_append]

/-- The account of complete turns. -/
def settled (xs : List (Turn E)) : Account E :=
  ⟨xs.map Turn.req, xs.map Turn.first, xs.map Turn.server, xs.map Turn.last, xs.map Turn.res⟩

theorem settled_concat (xs : List (Turn E)) (x : Turn E) :
    settled (xs ++ [x]) = settled xs ++ settled [x] := by
  simp [settled, account_append]

/-! ### A step -/

/-- How far a turn has come at a position: what is on the account, and how the context is related to the
one of the same request on a connection of its own. -/
def Stage (ep : E) (c : HttpContext E) (A : Account E) : Pc → Prop
  | .start => A = {}
  | .test => c.remoteEndpoint = ep ∧ A = {}
  | .header => c.remoteEndpoint = ep ∧ A = {}
  | .interim _ => c.remoteEndpoint = ep ∧ A = {}
  | .body _ => c.remoteEndpoint = ep ∧ A = {}
  | .first => c.remoteEndpoint = ep ∧ A = { reqs := [c.req] }
  | .handle => c.remoteEndpoint = ep ∧ ∃ r f c₁, A = { reqs := [r], firsts := [f] } ∧
      left (f (fresh ep r)) = some c₁ ∧ Asked c c₁
  | .last => c.remoteEndpoint = ep ∧ ∃ r f S c₁ c₂,
      A = { reqs := [r], firsts := [f], servers := [S] } ∧
      left (f (fresh ep r)) = some c₁ ∧ left (S.handleRequest c₁) = some c₂ ∧ Answered c c₂
  | .write => c.remoteEndpoint = ep ∧ ∃ r f S g,
      A = { reqs := [r], firsts := [f], servers := [S], lasts := [g] } ∧
      alone ep r f S g = some c.res
  | .ended => A.finals = [] ∧ A.reqs.length ≤ 1

theorem left_eq {x : HttpContext E × Option Thrown} (h : x.2 = none) : left x = some x.1 := by
  obtain ⟨c, t⟩ := x
  obtain rfl : t = none := h
  rfl

/-- A callback that does not throw in the session does not throw on the related context either. -/
theorem left_of_respects {R R' : HttpContext E → HttpContext E → Prop} {f : Call E}
    (hf : Respects R R' f) {c c' d : HttpContext E} (hc : R c c') (h : f c = (d, none)) :
    ∃ d', left (f c') = some d' ∧ R' d d' := by
  obtain ⟨hR, ht⟩ := hf c c' hc
  rw [h] at hR ht
  exact ⟨(f c').1, left_eq ht.symm, hR⟩

theorem keeps_left {f : Call E} (hf : Keeps f) {c d : HttpContext E} (h : f c = (d, none)) :
    d.remoteEndpoint = c.remoteEndpoint := by
  have := hf c
  rwa [h] at this

section Step

variable {ep : E} {c d : HttpContext E} {A : Account E}

theorem stage_first {f : Call E} (hst : Stage ep c A .first) (hf : Respects Asked Asked f ∧ Keeps f)
    (h : f c = (d, none)) : Stage ep d (A ++ { firsts := [f] }) .handle := by
  obtain ⟨hep, rfl⟩ := hst
  have hfresh : Asked c (fresh ep c.req) := ⟨hep, rfl⟩
  obtain ⟨c₁, h₁, hd⟩ := left_of_respects hf.1 hfresh h
  exact ⟨(keeps_left hf.2 h).trans hep, c.req, f, c₁, rfl, h₁, hd⟩

theorem stage_handle {S : HttpApiServer E} (hst : Stage ep c A .handle) (hS : Forgetful S)
    (h : S.handleRequest c = (d, none)) : Stage ep d (A ++ { servers := [S] }) .last := by
  obtain ⟨hep, r, f, c₁, rfl, h₁, hc⟩ := hst
  obtain ⟨c₂, h₂, hd⟩ := left_of_respects (respects_handleRequest hS) hc h
  exact ⟨(keeps_left (keeps_handleRequest hS) h).trans hep, r, f, S, c₁, c₂, rfl, h₁, h₂, hd⟩

theorem stage_last {g : Call E} (hst : Stage ep c A .last)
    (hg : Respects Answered Answered g ∧ Keeps g) (h : g c = (d, none)) :
    Stage ep d (A ++ { lasts := [g] }) .write := by
  obtain ⟨hep, r, f, S, c₁, c₂, rfl, h₁, h₂, hc⟩ := hst
  obtain ⟨c₃, h₃, hd⟩ := left_of_respects hg.1 hc h
  refine ⟨(keeps_left hg.2 h).trans hep, r, f, S, g, rfl, ?_⟩
  simp only [alone, h₁, h₂, h₃, Option.bind_some, Option.map_some, hd.res]

/-- The response completes the turn. -/
theorem stage_write (hst : Stage ep c A .write) :
    ∃ x : Turn E, A ++ { finals := [c.res] } = settled [x] ∧ x.Alone ep := by
  obtain ⟨-, r, f, S, g, rfl, h⟩ := hst
  exact ⟨⟨r, f, S, g, c.res⟩, rfl, h⟩

end Step

/-- **A step goes on in the turn, or completes it.** -/
theorem stage_step {ep : E} {s s' : St E} {e : Ev E} {A : Account E} (hst : Stage ep s.cxt A s.pc)
    (hok : Plain ep e) (h : step s e = some s') :
    ∃ acts, s'.log = s.log ++ acts ∧
      (Stage ep s'.cxt (A ++ account acts [e]) s'.pc ∨
        ∃ x : Turn E, A ++ account acts [e] = settled [x] ∧ x.Alone ep ∧ Stage ep s'.cxt {} s'.pc) := by
  unfold step at h
  split at h
  · next ep' hpc =>
    obtain rfl := Option.some.inj h
    rw [hpc] at hst
    obtain rfl : A = {} := hst
    obtain rfl : ep' = ep := hok
    exact ⟨[], by simp, .inl ⟨rfl, rfl⟩⟩
  · next hpc =>
    obtain rfl := Option.some.inj h
    rw [hpc] at hst
    obtain rfl : A = {} := hst
    exact ⟨[], by simp, .inl ⟨rfl, Nat.zero_le _⟩⟩
  · next b hpc =>
    obtain rfl := Option.some.inj h
    rw [hpc] at hst
    obtain ⟨hep, rfl⟩ := hst
    cases b with
    | true => exact ⟨[], by simp, .inl ⟨hep, rfl⟩⟩
    | false => exact ⟨[], by simp, .inl ⟨rfl, Nat.zero_le _⟩⟩
  · next r hpc =>
    obtain rfl := Option.some.inj h
    rw [hpc] at hst
    obtain ⟨hep, rfl⟩ := hst
    refine ⟨_, rfl, .inl ?_⟩
    simp only
    split <;> exact ⟨hep, rfl⟩
  · next hpc =>
    obtain rfl := Option.some.inj h
    rw [hpc] at hst
    obtain ⟨-, rfl⟩ := hst
    exact ⟨_, rfl, .inl ⟨rfl, Nat.zero_le _⟩⟩
  · next r hpc =>
    obtain rfl := Option.some.inj h
    rw [hpc] at hst
    obtain ⟨hep, rfl⟩ := hst
    exact ⟨_, rfl, .inl ⟨hep, rfl⟩⟩
  · next r hpc =>
    obtain rfl := Option.some.inj h
    rw [hpc] at hst
    obtain ⟨-, rfl⟩ := hst
    exact ⟨_, rfl, .inl ⟨rfl, Nat.zero_le _⟩⟩
  · next r b t hpc =>
    obtain rfl := Option.some.inj h
    rw [hpc] at hst
    obtain ⟨hep, rfl⟩ := hst
    exact ⟨_, rfl, .inl ⟨hep, rfl⟩⟩
  · next r hpc =>
    obtain rfl := Option.some.inj h
    rw [hpc] at hst
    obtain ⟨-, rfl⟩ := hst
    exact ⟨_, rfl, .inl ⟨rfl, Nat.zero_le _⟩⟩
  · next f hpc =>
    rw [hpc] at hst
    split at h
    · next d hd =>
      obtain rfl := Option.some.inj h
      exact ⟨_, rfl, .inl (stage_first hst hok hd)⟩
    · cases h
  · next S hpc =>
    rw [hpc] at hst
    split at h
    · next d hd =>
      obtain rfl := Option.some.inj h
      exact ⟨_, rfl, .inl (stage_handle hst hok hd)⟩
    · cases h
  · next g hpc =>
    rw [hpc] at hst
    split at h
    · next d hd =>
      obtain rfl := Option.some.inj h
      exact ⟨_, rfl, .inl (stage_last hst hok hd)⟩
    · cases h
  · next hpc =>
    obtain rfl := Option.some.inj h
    rw [hpc] at hst
    obtain ⟨x, hx, hal⟩ := stage_write hst
    refine ⟨_, rfl, .inr ⟨x, hx, hal, ?_⟩⟩
    simp only
    split
    · exact ⟨rfl, Nat.zero_le _⟩
    · exact ⟨hst.1, rfl⟩
  · next hpc =>
    obtain rfl := Option.some.inj h
    rw [hpc] at hst
    obtain ⟨x, hx, hal⟩ := stage_write hst
    exact ⟨_, rfl, .inr ⟨x, hx, hal, rfl, Nat.zero_le _⟩⟩
  · cases h

/-! ### The conversation -/

/-- The account of the run so far: complete turns, each answered as if alone, and one under way. -/
def Inv (ep : E) (s : St E) (es : List (Ev E)) : Prop :=
  ∃ (xs : List (Turn E)) (A : Account E), account s.log es = settled xs ++ A ∧
    Stage ep s.cxt A s.pc ∧ ∀ x ∈ xs, x.Alone ep

theorem inv_init (ep₀ ep : E) : Inv ep (sys ep₀).init [] := ⟨[], {}, rfl, rfl, by simp⟩

theorem inv_step {ep : E} {s s' : St E} {es : List (Ev E)} {e : Ev E} (hI : Inv ep s es)
    (hok : Plain ep e) (h : step s e = some s') : Inv ep s' (es ++ [e]) := by
  obtain ⟨xs, A, hA, hst, hxs⟩ := hI
  obtain ⟨acts, hlog, hnext⟩ := stage_step hst hok h
  have hacc : account s'.log (es ++ [e]) = settled xs ++ (A ++ account acts [e]) := by
    rw [hlog, account_of_append, hA, account_append_assoc]
  rcases hnext with hst' | ⟨x, hx, hal, hst'⟩
  · exact ⟨xs, _, hacc, hst', hxs⟩
  · refine ⟨xs ++ [x], {}, ?_, hst', ?_⟩
    · rw [hacc, hx, ← settled_concat, account_append_empty]
    · intro y hy
      rcases List.mem_append.mp hy with hy | hy
      · exact hxs y hy
      · rw [List.mem_singleton.mp hy]
        exact hal

theorem inv_exec {ep₀ ep : E} {es : List (Ev E)} {s : St E} (h : (sys ep₀).exec es = some s) :
    (∀ e ∈ es, Plain ep e) → Inv ep s es := by
  refine Sys.exec_inv (P := fun s es => (∀ e ∈ es, Plain ep e) → Inv ep s es) ?_ ?_ h
  · exact fun _ => inv_init ep₀ ep
  · intro s es e s' _ ih hstep hok
    have hold : ∀ e' ∈ es, Plain ep e' := fun e' he' => hok e' (List.mem_append_left _ he')
    exact inv_step (ih hold) (hok e (by simp)) hstep

/-- At every position at most one request is without its response. -/
theorem Stage.bound {ep : E} {c : HttpContext E} {A : Account E} {pc : Pc} (h : Stage ep c A pc) :
    A.finals = [] ∧ A.reqs.length ≤ 1 := by
  cases pc with
  | start => obtain rfl : A = {} := h; simp
  | test | header | interim | body | first => obtain ⟨-, rfl⟩ := h; simp
  | handle => obtain ⟨-, r, f, c₁, rfl, -⟩ := h; simp
  | last => obtain ⟨-, r, f, S, c₁, c₂, rfl, -⟩ := h; simp
  | write => obtain ⟨-, r, f, S, g, rfl, -⟩ := h; simp
  | ended => exact h

/-- **A session answers each request as if it were the only one.** In every run on a connection from `ep`
whose callbacks do not look at what earlier requests have left in the context, the final responses belong
to turns `xs`: their requests are those read, in order and all but at most one; their callbacks are those
called, in order; and each response is the one that these callbacks give to this request on a connection of
its own. -/
theorem conversation (ep₀ ep : E) (es : List (Ev E)) (s : St E) (hes : ∀ e ∈ es, Plain ep e)
    (h : (sys ep₀).exec es = some s) :
    ∃ xs : List (Turn E), s.log.filterMap Act.final = xs.map Turn.res ∧
      (s.log.filterMap Act.request = xs.map Turn.req ∨
        ∃ r, s.log.filterMap Act.request = xs.map Turn.req ++ [r]) ∧
      xs.map Turn.first <+: es.filterMap firstOf ∧
      xs.map Turn.server <+: es.filterMap serverOf ∧
      xs.map Turn.last <+: es.filterMap lastOf ∧
      ∀ x ∈ xs, alone ep x.req x.first x.server x.last = some x.res := by
  obtain ⟨xs, A, hA, hst, hxs⟩ := inv_exec h hes
  obtain ⟨hfinals, hreqs⟩ := hst.bound
  have hreq : s.log.filterMap Act.request = xs.map Turn.req ++ A.reqs := congrArg Account.reqs hA
  have hfin : s.log.filterMap Act.final = xs.map Turn.res ++ A.finals := congrArg Account.finals hA
  refine ⟨xs, by rw [hfin, hfinals, List.append_nil], ?_, ?_, ?_, ?_, hxs⟩
  · rcases Nat.le_one_iff_eq_zero_or_eq_one.mp hreqs with h0 | h1
    · exact .inl (by rw [hreq, List.eq_nil_of_length_eq_zero h0, List.append_nil])
    · obtain ⟨r, hr⟩ := List.length_eq_one_iff.mp h1
      exact .inr ⟨r, by rw [hreq, hr]⟩
  · exact ⟨A.firsts, (congrArg Account.firsts hA).symm⟩
  · exact ⟨A.servers, (congrArg Account.servers hA).symm⟩
  · exact ⟨A.lasts, (congrArg Account.lasts hA).symm⟩

/-- A request to `testApi`, with hooks as they are in the source. -/
def ask (target : String) : List (Ev Unit) :=
  [.running true, .header (some { target := str target }), .body (some ([], [])),
    .first fun c => (c, none), .handle testApi, .last fun c => (c, none), .written true]

/-- The second request is rejected, with the path and the match of the first one in the context. -/
def twoRun : List (Ev Unit) := .endpoint (some ()) :: ask "/test_api" ++ ask "/.."

theorem plain_twoRun : ∀ e ∈ twoRun, Plain () e := by
  have hcall : Forgetful testApi := by
    refine forgetful_constructed rfl rfl ?_
    simp [testApi, Keeps]
  have hfirst : Respects Asked Asked (fun c : HttpContext Unit => (c, none)) := fun _ _ h => ⟨h, rfl⟩
  have hlast : Respects Answered Answered (fun c : HttpContext Unit => (c, none)) := fun _ _ h => ⟨h, rfl⟩
  have hkeep : Keeps (fun c : HttpContext Unit => (c, none)) := fun _ => rfl
  simp [twoRun, ask, Plain, hcall, hfirst, hlast, hkeep]

theorem conversation_twoRun :
    ∃ s, (sys ()).exec twoRun = some s ∧ s.cxt.path = str "/test_api" ∧
      (s.log.filterMap Act.final).map StrResponse.result = [200, 400] ∧
      ∃ xs : List (Turn Unit), s.log.filterMap Act.final = xs.map Turn.res ∧
        (s.log.filterMap Act.request = xs.map Turn.req ∨
          ∃ r, s.log.filterMap Act.request = xs.map Turn.req ++ [r]) ∧
        xs.map Turn.first <+: twoRun.filterMap firstOf ∧
        xs.map Turn.server <+: twoRun.filterMap serverOf ∧
        xs.map Turn.last <+: twoRun.filterMap lastOf ∧
        ∀ x ∈ xs, alone () x.req x.first x.server x.last = some x.res :=
  ⟨_, rfl, rfl, rfl, conversation () () twoRun _ plain_twoRun rfl⟩

end Jkit.Http.Server.Conversation
