import Jkit.Common.WebUtility

/-! # `HttpApiServer::handle_request` and the context of a connection

One `HttpContext` lives as long as its connection. A callback of the server (a resource, the default
and the bad resource, a hook) gets the context, may change any field of it, and may throw. `serve` is
the part of the loop of `session` between the read and the write of one request, `history` the context
after a number of requests on one connection.

`isolated_iff` says which requests are answered independently of the earlier requests on their
connection, if no callback assigns the `path` that the sub-matches lie in: those with an accepted target for
which a resource is registered. Every other exit of `handle_request` leaves fields of an earlier request in
the context. -/

namespace Jkit.Http.Server.Context

open Jkit.Http.Message Jkit.Common.WebUtility

/-! ### The model -/

/-- A `boost::ssub_match` of the path: its two iterators as positions. -/
structure SubMatch where
  first : ℕ
  second : ℕ
  matched : Bool := true
deriving DecidableEq

/-- `struct HttpContext`. The sub-matches of a `boost::smatch` are the list `pathParams`. -/
structure HttpContext (E : Type) where
  remoteEndpoint : E
  path : Str := []
  pathParams : List SubMatch := []
  queryParams : List (Str × Str) := []
  req : StrRequest := {}
  res : StrResponse := {}

/-- What a callback throws: a `std::exception` with its `what()`, or something else. -/
inductive Thrown
  | exception (what : Str)
  | other
deriving DecidableEq

/-- A callback: the context it leaves, and what it throws, if anything. -/
abbrev Call (E : Type) := HttpContext E → HttpContext E × Option Thrown

section

variable {E : Type}

/-- What the constructor's `m_default_resource` and `m_bad_resource` make of the response. -/
def pageRes (status : ℕ) (body : Str) (cxt : HttpContext E) : StrResponse :=
  let res := { cxt.res with result := status, version := cxt.req.version }
  let res := (res.set "Server" beastVersion).set "Content-Type" (str "text/html")
  { res.setKeepAlive false with body := body }

/-- The end of the two, with the exception of `prepare_payload`. -/
def errorPage (status : ℕ) (body : Str) : Call E := fun cxt =>
  let res := pageRes status body cxt
  match res.preparePayload with
  | some res => ({ cxt with res := res }, none)
  | none => ({ cxt with res := res }, some (.exception (str "invalid response body")))

/-- `m_default_resource`, as the constructor sets it. -/
def defaultResource : Call E := fun cxt =>
  errorPage 404 (str "The '" ++ cxt.req.methodString ++ str "' resource '" ++ cxt.path ++
    str "' was not found.") cxt

/-- `m_bad_resource`, as the constructor sets it. -/
def badResource (why : Str) : Call E := errorPage 400 why

/-- The status of a page admits a body: `prepare_payload` does not throw. -/
theorem errorPage_eq {status : ℕ} (h : status = 400 ∨ status = 404) (body : Str) (cxt : HttpContext E) :
    errorPage status body cxt =
      ({ cxt with res := (pageRes status body cxt).contentLength body.length }, none) := by
  have hs : intToStatus status ≠ 1 ∧ intToStatus status ≠ 204 ∧ intToStatus status ≠ 304 := by
    rcases h with rfl | rfl <;> decide
  have hprep : (pageRes status body cxt).preparePayload =
      some ((pageRes status body cxt).contentLength body.length) :=
    StrResponse.preparePayload_eq hs.1 hs.2.1 hs.2.2
  simp only [errorPage, hprep]

theorem badResource_eq (why : Str) (cxt : HttpContext E) : badResource why cxt =
    ({ cxt with res := (pageRes 400 why cxt).contentLength why.length }, none) :=
  errorPage_eq (.inl rfl) why cxt

end

/-- `class HttpApiServer`: `m_resource` in the order of its maps, the two other resources and the
hooks. `regexMatch path regex` is the result of `boost::regex_match`. -/
structure HttpApiServer (E : Type) where
  regexMatch : Str → Str → Option (List SubMatch)
  resource : List (Str × List (Verb × Call E))
  defaultResource : Call E := Context.defaultResource
  badResource : Str → Call E := Context.badResource
  firstProcess : Call E := fun cxt => (cxt, none)
  lastProcess : Call E := fun cxt => (cxt, none)

variable {E : Type}

namespace HttpApiServer

variable (S : HttpApiServer E)

/-- `call_resource`, from an entry of `m_resource` on; the flag is its return value. -/
def callResource : List (Str × List (Verb × Call E)) → HttpContext E →
    HttpContext E × Bool × Option Thrown
  | [], cxt => (cxt, false, none)
  | (regex, byVerb) :: rest, cxt =>
    match byVerb.lookup cxt.req.method with
    | none => callResource rest cxt
    | some fn =>
      match S.regexMatch cxt.path regex with
      | none => callResource rest cxt
      | some sm =>
        let r := fn { cxt with pathParams := sm }
        (r.1, true, r.2)

/-- The test at the start of `handle_request`. -/
def rejected (target : Str) : Bool :=
  target == [] || target.head? != some 47 || contains target (str "..")

/-- What the end of `handle_request` makes of the response of a resource. -/
def finishRes (req : StrRequest) (res : StrResponse) : StrResponse :=
  let res := { res with version := req.version }
  let res := (res.set "Server" beastVersion).contentLength res.body.length
  res.setKeepAlive req.keepAlive

/-- The end of `handle_request`. -/
def finish (cxt : HttpContext E) : HttpContext E := { cxt with res := finishRes cxt.req cxt.res }

/-- The `try` block of `handle_request` and what follows it. -/
def dispatch : Call E := fun cxt =>
  let answer :=
    match S.callResource S.resource cxt with
    | (cxt, false, none) => let d := S.defaultResource cxt; (d.1, false, d.2)
    | r => r
  match answer with
  | (cxt, true, none) => (finish cxt, none)
  | (cxt, false, none) => (cxt, none)
  | (cxt, _, some (.exception what)) => S.badResource what cxt
  | (cxt, _, some .other) => (cxt, some .other)

/-- `handle_request`. -/
def handleRequest : Call E := fun cxt =>
  let cxt := { cxt with res := {} }
  if rejected cxt.req.target then
    S.badResource (str "path must be absolute and not contain \"..\"") cxt
  else
    match parseTarget cxt.req.target with
    | none => S.badResource (str "parse target failed") cxt
    | some (path, query) =>
      S.dispatch { cxt with path := path, queryParams := parseQueryString query }

/-- The context `last_process` sees for the request `r`; `none` if something is thrown before. -/
def seen (cxt : HttpContext E) (r : StrRequest) : Option (HttpContext E) :=
  match S.firstProcess { cxt with req := r } with
  | (cxt, none) =>
    match S.handleRequest cxt with
    | (cxt, none) => some cxt
    | _ => none
  | _ => none

/-- The context after the request `r`; `none` if the session ends with it. -/
def serve (cxt : HttpContext E) (r : StrRequest) : Option (HttpContext E) :=
  (S.seen cxt r).bind fun cxt =>
    match S.lastProcess cxt with
    | (cxt, none) => if cxt.res.needEof then none else some cxt
    | _ => none

/-- The context of a connection after some requests. -/
def history (ep : E) (rs : List StrRequest) : Option (HttpContext E) :=
  rs.foldlM S.serve { remoteEndpoint := ep }

/-- The regular expressions of `m_resource`, each with its methods. -/
def routes : List (Str × List Verb) := S.resource.map fun e => (e.1, e.2.map Prod.fst)

end HttpApiServer

open HttpApiServer

/-! ### Isolation -/

/-- The fields of the context that isolation is about. -/
def HttpContext.view (cxt : HttpContext E) : Str × List SubMatch × List (Str × Str) × StrResponse :=
  (cxt.path, cxt.pathParams, cxt.queryParams, cxt.res)

/-- `first_process` leaves the request and the endpoint alone; in the source it is empty. -/
def HttpApiServer.FirstKeeps (S : HttpApiServer E) : Prop :=
  ∀ cxt, (S.firstProcess cxt).2 = none ∧ (S.firstProcess cxt).1.req = cxt.req ∧
    (S.firstProcess cxt).1.remoteEndpoint = cxt.remoteEndpoint

/-- The callback does not assign `path`. -/
def PathKept (f : Call E) : Prop := ∀ cxt, (f cxt).1.path = cxt.path

/-- The resources of the server do not assign `path`, into which `path_params` points. -/
structure HttpApiServer.PathsKept (S : HttpApiServer E) : Prop where
  resource : ∀ e ∈ S.resource, ∀ p ∈ e.2, PathKept p.2
  default : PathKept S.defaultResource
  bad : ∀ why, PathKept (S.badResource why)

/-- On every server with these routes, whatever else its callbacks do, the context `last_process` sees
for `r` does not depend on the earlier requests of the connection. -/
def Isolated (regexMatch : Str → Str → Option (List SubMatch)) (routes : List (Str × List Verb)) (ep : E)
    (r : StrRequest) : Prop :=
  ∀ S : HttpApiServer E, S.regexMatch = regexMatch → S.routes = routes → S.FirstKeeps → S.PathsKept →
    ∀ rs rs' c c', S.history ep rs = some c → S.history ep rs' = some c' →
      c.remoteEndpoint = c'.remoteEndpoint →
      (S.seen c r).map HttpContext.view = (S.seen c' r).map HttpContext.view

/-- Some registered regular expression and method fit the request. -/
def Matched (regexMatch : Str → Str → Option (List SubMatch)) (routes : List (Str × List Verb))
    (r : StrRequest) : Prop :=
  ∃ path query, parseTarget r.target = some (path, query) ∧
    ∃ e ∈ routes, r.method ∈ e.2 ∧ (regexMatch path e.1).isSome = true

/-! ### Matched requests -/

/-- The resource `call_resource` calls for a path and a method, with the match of the path. -/
def HttpApiServer.route (S : HttpApiServer E) (path : Str) (v : Verb) :
    List (Str × List (Verb × Call E)) → Option (Call E × List SubMatch)
  | [] => none
  | (regex, byVerb) :: rest =>
    match byVerb.lookup v, S.regexMatch path regex with
    | some fn, some sm => some (fn, sm)
    | _, _ => S.route path v rest

theorem callResource_eq (S : HttpApiServer E) (cxt : HttpContext E) :
    ∀ l, S.callResource l cxt =
      match S.route cxt.path cxt.req.method l with
      | none => (cxt, false, none)
      | some (fn, sm) =>
        ((fn { cxt with pathParams := sm }).1, true, (fn { cxt with pathParams := sm }).2)
  | [] => rfl
  | (regex, byVerb) :: rest => by
    have ih := callResource_eq S cxt rest
    unfold callResource HttpApiServer.route
    cases byVerb.lookup cxt.req.method with
    | none => exact ih
    | some fn =>
      cases S.regexMatch cxt.path regex with
      | none => exact ih
      | some sm => rfl

theorem route_some {S : HttpApiServer E} {path : Str} {v : Verb} {fn : Call E} {sm : List SubMatch} :
    ∀ {l}, S.route path v l = some (fn, sm) →
      ∃ e ∈ l, (v, fn) ∈ e.2 ∧ S.regexMatch path e.1 = some sm
  | [], h => by cases h
  | (regex, byVerb) :: rest, h => by
    unfold HttpApiServer.route at h
    split at h
    · next hl hm =>
      obtain ⟨rfl, rfl⟩ := Prod.mk.inj (Option.some.inj h)
      obtain ⟨l₁, l₂, hsplit, -⟩ := List.lookup_eq_some_iff.mp hl
      exact ⟨(regex, byVerb), by simp, by simp [hsplit], hm⟩
    · obtain ⟨e, he, hr⟩ := route_some h
      exact ⟨e, List.mem_cons_of_mem _ he, hr⟩

theorem route_none {S : HttpApiServer E} {path : Str} {v : Verb} :
    ∀ {l}, S.route path v l = none →
      ∀ e ∈ l, v ∈ e.2.map Prod.fst → S.regexMatch path e.1 = none
  | [], _, e, he, _ => by simp at he
  | (regex, byVerb) :: rest, h, e, he, hv => by
    unfold HttpApiServer.route at h
    split at h
    · cases h
    · next hno =>
      rcases List.mem_cons.mp he with rfl | he
      · by_contra hm
        obtain ⟨sm, hm⟩ := Option.ne_none_iff_exists'.mp hm
        cases hl : byVerb.lookup v with
        | some fn => exact hno fn sm hl hm
        | none =>
          obtain ⟨p, hp, rfl⟩ := List.mem_map.mp hv
          have hne := List.lookup_eq_none_iff.mp hl p hp
          simp at hne
      · exact route_none h e he hv

/-- The answer to a matched request does not depend on the `path_params` of an earlier one. -/
theorem dispatch_matched (S : HttpApiServer E) {cxt : HttpContext E} (l : List SubMatch)
    (h : ∃ e ∈ S.resource, cxt.req.method ∈ e.2.map Prod.fst ∧
      (S.regexMatch cxt.path e.1).isSome = true) :
    S.dispatch { cxt with pathParams := l } = S.dispatch cxt := by
  cases hr : S.route cxt.path cxt.req.method S.resource with
  | none =>
    obtain ⟨e, he, hv, hm⟩ := h
    rw [route_none hr e he hv] at hm
    cases hm
  | some x => simp only [dispatch, callResource_eq, hr]

theorem exists_resource {S : HttpApiServer E} {v : Verb} {path : Str}
    (h : ∃ e ∈ S.routes, v ∈ e.2 ∧ (S.regexMatch path e.1).isSome = true) :
    ∃ e ∈ S.resource, v ∈ e.2.map Prod.fst ∧ (S.regexMatch path e.1).isSome = true := by
  obtain ⟨e, he, hv, hm⟩ := h
  obtain ⟨e', he', rfl⟩ := List.mem_map.mp he
  exact ⟨e', he', hv, hm⟩

/-- **Isolation of matched requests**: the whole context is the same. -/
theorem seen_eq_of_matched {S : HttpApiServer E} (hS : S.FirstKeeps) {r : StrRequest}
    (hr : rejected r.target = false) (hm : Matched S.regexMatch S.routes r) {c c' : HttpContext E}
    (hc : c.remoteEndpoint = c'.remoteEndpoint) : S.seen c r = S.seen c' r := by
  obtain ⟨path, query, hpath, hroute⟩ := hm
  have key : ∀ c : HttpContext E, S.seen c r =
      match S.dispatch ⟨c.remoteEndpoint, path, [], parseQueryString query, r, {}⟩ with
      | (cxt, none) => some cxt
      | _ => none := by
    intro c
    obtain ⟨hnone, hreq, hep⟩ := hS { c with req := r }
    obtain ⟨cxt, e⟩ : ∃ cxt, S.firstProcess { c with req := r } = (cxt, none) :=
      ⟨_, Prod.ext rfl hnone⟩
    rw [e] at hreq hep
    simp only at hreq hep
    let c₀ : HttpContext E := ⟨c.remoteEndpoint, path, [], parseQueryString query, r, {}⟩
    have hd := dispatch_matched S (cxt.pathParams) (exists_resource hroute : ∃ e ∈ S.resource,
      c₀.req.method ∈ e.2.map Prod.fst ∧ (S.regexMatch c₀.path e.1).isSome = true)
    simp only [seen, e, handleRequest, hreq, hr, hpath]
    simp only [hep] at hd ⊢
    rw [← hd]
    rfl
  rw [key c, key c', hc]

/-! ### The other requests -/

section Probe

variable (regexMatch : Str → Str → Option (List SubMatch)) (routes : List (Str × List Verb))

/-- Adds a group without a match to the `path_params`. -/
def grow (cxt : HttpContext E) : HttpContext E :=
  { cxt with pathParams := cxt.pathParams ++ [{ first := 0, second := 0, matched := false }] }

/-- A server with the given routes whose callbacks record in `path_params` that they have run. -/
def probe : HttpApiServer E where
  regexMatch := regexMatch
  resource := routes.map fun e => (e.1, e.2.map fun v => (v, fun cxt => (grow cxt, none)))
  defaultResource cxt := (finish (grow cxt), none)

theorem probe_routes : (probe regexMatch routes : HttpApiServer E).routes = routes := by
  simp [probe, HttpApiServer.routes, Function.comp_def]

theorem probe_firstKeeps : (probe regexMatch routes : HttpApiServer E).FirstKeeps :=
  fun _ => ⟨rfl, rfl, rfl⟩

theorem probe_pathsKept : (probe regexMatch routes : HttpApiServer E).PathsKept where
  resource := by
    intro e he p hp cxt
    obtain ⟨e', -, rfl⟩ := List.mem_map.mp he
    obtain ⟨v, -, rfl⟩ := List.mem_map.mp hp
    rfl
  default _ := rfl
  bad _ _ := by rw [show (probe regexMatch routes).badResource = badResource from rfl, badResource_eq]

/-- Both ways through the server end alike; without a match the old `path_params` are kept. -/
theorem probe_dispatch (cxt : HttpContext E) :
    ∃ sm, (probe regexMatch routes).dispatch cxt =
        (finish (grow { cxt with pathParams := sm }), none) ∧
      ((∀ e ∈ routes, cxt.req.method ∈ e.2 → (regexMatch cxt.path e.1).isSome = false) →
        sm = cxt.pathParams) := by
  cases hr : (probe regexMatch routes).route cxt.path cxt.req.method
      (probe regexMatch routes : HttpApiServer E).resource with
  | none => exact ⟨cxt.pathParams, by simp only [dispatch, callResource_eq, hr]; rfl, fun _ => rfl⟩
  | some x =>
    obtain ⟨fn, sm⟩ := x
    obtain ⟨e, he, hv, hm⟩ := route_some hr
    obtain ⟨e', he', rfl⟩ := List.mem_map.mp he
    obtain ⟨v, hmem, hvfn⟩ := List.mem_map.mp hv
    obtain ⟨rfl, rfl⟩ := Prod.mk.inj hvfn
    refine ⟨sm, by simp only [dispatch, callResource_eq, hr], fun hno => ?_⟩
    have hm' : regexMatch cxt.path e'.1 = some sm := hm
    have := hno e' he' hmem
    rw [hm'] at this
    cases this

/-- A request every server accepts, on a connection that stays open. -/
def rootRequest : StrRequest := { target := str "/" }

theorem probe_seen_accepted {c : HttpContext E} {r : StrRequest} {path query : Str}
    (hr : rejected r.target = false) (hpt : parseTarget r.target = some (path, query)) :
    ∃ sm, (probe regexMatch routes).seen c r = some (finish (grow
        ⟨c.remoteEndpoint, path, sm, parseQueryString query, r, {}⟩)) ∧
      ((∀ e ∈ routes, r.method ∈ e.2 → (regexMatch path e.1).isSome = false) →
        sm = c.pathParams) := by
  obtain ⟨sm, hd, hno⟩ := probe_dispatch regexMatch routes
    (⟨c.remoteEndpoint, path, c.pathParams, parseQueryString query, r, {}⟩ : HttpContext E)
  have hh : (probe regexMatch routes).handleRequest { c with req := r } =
      (finish (grow ⟨c.remoteEndpoint, path, sm, parseQueryString query, r, {}⟩), none) := by
    simp only [handleRequest, hr, hpt]
    exact hd
  refine ⟨sm, ?_, hno⟩
  show (match (probe regexMatch routes).handleRequest { c with req := r } with
    | (cxt, none) => some cxt
    | _ => none) = _
  rw [hh]

/-- A rejected target leaves the path of an earlier request in the context. -/
theorem probe_seen_rejected (c : HttpContext E) {r : StrRequest} (hr : rejected r.target = true) :
    ((probe regexMatch routes).seen c r).map HttpContext.path = some c.path := by
  simp [seen, probe, handleRequest, hr, badResource_eq]

theorem probe_history (ep : E) :
    ∃ c, (probe regexMatch routes).history ep [rootRequest] = some c ∧ c.remoteEndpoint = ep ∧
      c.path = str "/" ∧ c.pathParams ≠ [] := by
  have hrej : rejected rootRequest.target = false := by decide
  have hpt : parseTarget rootRequest.target = some (str "/", []) := by decide
  obtain ⟨sm, hseen, -⟩ := probe_seen_accepted regexMatch routes
    (c := { remoteEndpoint := ep }) hrej hpt
  have heof : (finishRes rootRequest {}).needEof = false := by decide
  refine ⟨finish (grow ⟨ep, str "/", sm, parseQueryString [], rootRequest, {}⟩), ?_, rfl, rfl, ?_⟩
  · simp only [history, List.foldlM_cons, List.foldlM_nil, serve, hseen, Option.bind_eq_bind,
      Option.bind_some]
    show (if (finishRes rootRequest {}).needEof then none else some _) >>= _ = _
    rw [heof]
    rfl
  · simp [finish, grow]

end Probe

/-- **Which requests are isolated** from the earlier requests of their connection: those with an
accepted target for which a resource is registered. -/
theorem isolated_iff (regexMatch : Str → Str → Option (List SubMatch)) (routes : List (Str × List Verb))
    (ep : E) (r : StrRequest) :
    Isolated regexMatch routes ep r ↔ rejected r.target = false ∧ Matched regexMatch routes r := by
  constructor
  · intro h
    obtain ⟨c, hist, hep, hpath, hparams⟩ :=
      probe_history regexMatch routes ep
    have heq := h (probe regexMatch routes) rfl (probe_routes _ _) (probe_firstKeeps _ _)
      (probe_pathsKept _ _) [] [rootRequest] { remoteEndpoint := ep } c rfl hist hep.symm
    have hr : rejected r.target = false := by
      by_contra hr
      simp only [Bool.not_eq_false] at hr
      have heq' := congrArg (Option.map Prod.fst) heq
      simp only [Option.map_map, Function.comp_def, HttpContext.view] at heq'
      rw [probe_seen_rejected regexMatch routes _ hr, probe_seen_rejected regexMatch routes _ hr, hpath] at heq'
      exact absurd (Option.some.inj heq') (by decide : ([] : Str) ≠ str "/")
    refine ⟨hr, ?_⟩
    by_contra hm
    obtain ⟨path, query, hpt⟩ := parseTarget_isSome r.target
    have hno : ∀ e ∈ routes, r.method ∈ e.2 → (regexMatch path e.1).isSome = false := by
      intro e he hv
      by_contra hs
      exact hm ⟨path, query, hpt, e, he, hv, (Bool.not_eq_false _).mp hs⟩
    obtain ⟨sm, hs, hsm⟩ := probe_seen_accepted regexMatch routes
      (c := { remoteEndpoint := ep }) hr hpt
    obtain ⟨sm', hs', hsm'⟩ := probe_seen_accepted regexMatch routes
      (c := c) hr hpt
    rw [hs, hs', hsm hno, hsm' hno] at heq
    simp only [Option.map_some, HttpContext.view, finish, grow, Option.some.injEq, Prod.mk.injEq,
      List.append_left_inj] at heq
    exact hparams heq.2.1.symm
  · rintro ⟨hr, hm⟩ S rfl rfl hS - rs rs' c c' - - hc
    rw [seen_eq_of_matched hS hr hm hc]

/-- A server with one resource, at `/test_api`. -/
def testApi : HttpApiServer Unit where
  regexMatch path regex :=
    if regex = str "^/test_api$" ∧ path = str "/test_api" then some [{ first := 0, second := 9 }] else none
  resource := [(str "^/test_api$", [(some "GET", fun cxt => ({ cxt with res.body := str "0" }, none))])]

theorem testApi_pathsKept : testApi.PathsKept where
  resource := by simp [testApi, PathKept]
  default cxt := by
    rw [show testApi.defaultResource = Context.defaultResource from rfl, Context.defaultResource,
      errorPage_eq (.inr rfl)]
  bad _ _ := by rw [show testApi.badResource = Context.badResource from rfl, badResource_eq]

/-- After a request that was served, a rejected target shows its path and its match, and a target
without a resource its match, which points into another path by then. -/
theorem testApi_not_isolated :
    ∃ c, testApi.history () [{ target := str "/test_api" }] = some c ∧
      (testApi.seen { remoteEndpoint := () } { target := str "/.." }).map HttpContext.path =
        some [] ∧
      (testApi.seen c { target := str "/.." }).map HttpContext.path = some (str "/test_api") ∧
      (testApi.seen { remoteEndpoint := () } { target := str "/x" }).map HttpContext.pathParams =
        some [] ∧
      (testApi.seen c { target := str "/x" }).map HttpContext.pathParams =
        some [{ first := 0, second := 9 }] ∧
      ¬ Isolated testApi.regexMatch testApi.routes () { target := str "/.." } ∧
      ¬ Isolated testApi.regexMatch testApi.routes () { target := str "/x" } := by
  refine ⟨_, rfl, rfl, rfl, rfl, rfl, fun h => ?_, fun h => ?_⟩
  · have := h testApi rfl rfl (fun _ => ⟨rfl, rfl, rfl⟩) testApi_pathsKept []
      [{ target := str "/test_api" }] _ _ rfl rfl rfl
    have hpath : some [] = some (str "/test_api") := congrArg (Option.map Prod.fst) this
    exact absurd hpath (by decide)
  · have := h testApi rfl rfl (fun _ => ⟨rfl, rfl, rfl⟩) testApi_pathsKept []
      [{ target := str "/test_api" }] _ _ rfl rfl rfl
    have hparams : some [] = some [{ first := 0, second := 9 : SubMatch }] :=
      congrArg (Option.map fun x : Str × List SubMatch × List (Str × Str) × StrResponse => x.2.1) this
    exact absurd hparams (by decide)

end Jkit.Http.Server.Context
