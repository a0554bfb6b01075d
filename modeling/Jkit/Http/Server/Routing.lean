import Jkit.Http.Server.Context
import Jkit.Lib.OrdMap
import Mathlib.Data.List.Induction

/-! # Registration and routing

A server registers its resources by `m_resource[regex][verb] = f`. `resources` is the map after a
sequence of registrations, with its entries in the order of the texts of the regular expressions,
which is the order `call_resource` goes through them.

As a function, the map gives for a regular expression and a method the last registration of the two
(`handler_resources`). `call_resource` therefore calls the last registration of the smallest text
that matches the path and has the method, whatever the order of the registrations was:
`callResource_registered`. -/

namespace Jkit.Http.Server.Routing

open Jkit.Http.Message Jkit.Lib Jkit.Lib.OrdMap Jkit.Http.Server.Context
open Jkit.Http.Server.Context.HttpApiServer

variable {E : Type}

/-! ### The map of the resources -/

/-- `RegexOrderable::operator<`, which compares the texts as `std::string` does. -/
def less : Str → Str → Bool
  | _, [] => false
  | [], _ :: _ => true
  | a :: s, b :: t => decide (a < b) || (a == b && less s t)

/-- `m_resource[regex][verb] = fn`. -/
structure Registration (E : Type) where
  regex : Str
  verb : Verb
  fn : Call E

/-- `m[verb] = fn` for the map of one regular expression; the order of that map is never seen. -/
def setVerb (verb : Verb) (fn : Call E) (m : List (Verb × Call E)) : List (Verb × Call E) :=
  (verb, fn) :: m.filter fun e => e.1 != verb

/-- `m_resource` after one more registration. -/
def register (m : List (Str × List (Verb × Call E))) (r : Registration E) :
    List (Str × List (Verb × Call E)) :=
  OrdMap.modify less r.regex (fun byVerb => setVerb r.verb r.fn (byVerb.getD [])) m

/-- `m_resource` after a sequence of registrations. -/
def resources (rs : List (Registration E)) : List (Str × List (Verb × Call E)) :=
  rs.foldl register []

/-- The registration is for this regular expression and this method. -/
def Registration.isFor (r : Registration E) (regex : Str) (verb : Verb) : Bool :=
  r.regex == regex && r.verb == verb

/-- The function `m_resource` holds for a regular expression and a method. -/
def handler (m : List (Str × List (Verb × Call E))) (regex : Str) (verb : Verb) : Option (Call E) :=
  (OrdMap.find less regex m).bind fun byVerb => byVerb.lookup verb

theorem less_irrefl (s : Str) : less s s = false := by
  induction s with
  | nil => rfl
  | cons a s ih => simp [less, ih]

theorem less_trans {s t u : Str} (h1 : less s t = true) (h2 : less t u = true) :
    less s u = true := by
  induction s generalizing t u with
  | nil =>
    rcases u with - | ⟨c, u⟩
    · simp [less] at h2
    · rfl
  | cons a s ih =>
    rcases t with - | ⟨b, t⟩
    · simp [less] at h1
    · rcases u with - | ⟨c, u⟩
      · simp [less] at h2
      · simp only [less, Bool.or_eq_true, decide_eq_true_eq, Bool.and_eq_true, beq_iff_eq,
          UInt8.lt_iff_toNat_lt] at h1 h2 ⊢
        rcases h1 with h1 | ⟨rfl, h1⟩
        · rcases h2 with h2 | ⟨rfl, h2⟩
          · left; omega
          · left; exact h1
        · rcases h2 with h2 | ⟨rfl, h2⟩
          · left; exact h2
          · right; exact ⟨rfl, ih h1 h2⟩

theorem less_total {s t : Str} (h1 : less s t = false) (h2 : less t s = false) : s = t := by
  induction s generalizing t with
  | nil =>
    rcases t with - | ⟨b, t⟩
    · rfl
    · simp [less] at h1
  | cons a s ih =>
    rcases t with - | ⟨b, t⟩
    · simp [less] at h2
    · simp only [less, Bool.or_eq_false_iff, decide_eq_false_iff_not, Bool.and_eq_false_iff,
        beq_eq_false_iff_ne, UInt8.lt_iff_toNat_lt] at h1 h2
      have hab : a = b := by
        rw [← UInt8.toNat_inj]
        omega
      subst hab
      rw [ih (h1.2.resolve_left (fun h => h rfl)) (h2.2.resolve_left (fun h => h rfl))]

/-- The texts are ordered. -/
theorem less_order : Less less := ⟨less_irrefl, less_trans, less_total⟩

theorem lookup_setVerb_self (verb : Verb) (fn : Call E) (m : List (Verb × Call E)) :
    (setVerb verb fn m).lookup verb = some fn := by
  simp [setVerb]

theorem lookup_setVerb_ne {verb v : Verb} (h : v ≠ verb) (fn : Call E) (m : List (Verb × Call E)) :
    (setVerb verb fn m).lookup v = m.lookup v := by
  have hb : (v == verb) = false := beq_eq_false_iff_ne.mpr h
  unfold setVerb
  rw [List.lookup_cons, hb]
  induction m with
  | nil => rfl
  | cons e m ih =>
    obtain ⟨w, g⟩ := e
    by_cases hw : w = verb
    · subst hw
      rw [List.filter_cons_of_neg (by simp), ih, List.lookup_cons, hb]
    · rw [List.filter_cons_of_pos (by simpa using hw), List.lookup_cons, List.lookup_cons]
      cases v == w with
      | false => exact ih
      | true => rfl

theorem ordered_resources (rs : List (Registration E)) : Ordered less (resources rs) := by
  induction rs using List.reverseRecOn with
  | nil => exact List.Pairwise.nil
  | append_singleton rs r ih =>
    unfold resources at ih ⊢
    rw [List.foldl_append]
    exact ordered_modify less_order ih _ _

/-- What a registration does to the map as a function. -/
theorem handler_register {m : List (Str × List (Verb × Call E))} (hm : Ordered less m)
    (r : Registration E) (regex : Str) (verb : Verb) :
    handler (register m r) regex verb =
      if r.isFor regex verb then some r.fn else handler m regex verb := by
  unfold handler register
  by_cases hregex : r.regex = regex
  · subst hregex
    rw [find_modify_self less_order hm, Option.bind_some]
    by_cases hverb : r.verb = verb
    · subst hverb
      rw [lookup_setVerb_self, if_pos (by simp [Registration.isFor])]
    · rw [lookup_setVerb_ne (Ne.symm hverb), if_neg (by simpa [Registration.isFor] using hverb)]
      cases OrdMap.find less r.regex m with
      | none => rfl
      | some byVerb => rfl
  · rw [find_modify_ne less_order hregex, if_neg]
    simp [Registration.isFor, hregex]

/-- The map holds the last registration of each regular expression and method. -/
theorem handler_resources (rs : List (Registration E)) (regex : Str) (verb : Verb) :
    handler (resources rs) regex verb =
      ((rs.filter fun r => r.isFor regex verb).getLast?).map Registration.fn := by
  induction rs using List.reverseRecOn with
  | nil => rfl
  | append_singleton rs r ih =>
    have hstep : resources (rs ++ [r]) = register (resources rs) r := by
      unfold resources
      rw [List.foldl_append]
      rfl
    rw [hstep, handler_register (ordered_resources rs), ih, List.filter_append]
    split_ifs with hr
    · simp [hr]
    · simp [hr]

/-! ### The search of `call_resource` -/

/-- What one entry of `m_resource` is for a request. -/
def hit (S : HttpApiServer E) (path : Str) (verb : Verb) (regex : Str)
    (byVerb : List (Verb × Call E)) : Option (Call E × List SubMatch) :=
  (byVerb.lookup verb).bind fun fn => (S.regexMatch path regex).map fun sm => (fn, sm)

theorem route_eq_findSome? (S : HttpApiServer E) (path : Str) (verb : Verb)
    (l : List (Str × List (Verb × Call E))) :
    S.route path verb l = l.findSome? fun e => hit S path verb e.1 e.2 := by
  induction l with
  | nil => rfl
  | cons e l ih =>
    obtain ⟨regex, byVerb⟩ := e
    rw [List.findSome?_cons]
    unfold HttpApiServer.route hit
    cases byVerb.lookup verb with
    | none => exact ih
    | some fn =>
      cases S.regexMatch path regex with
      | none => exact ih
      | some sm => rfl

/-- The request has the method of the registration, and its path matches. -/
def Fits (S : HttpApiServer E) (cxt : HttpContext E) (r : Registration E) : Prop :=
  r.verb = cxt.req.method ∧ (S.regexMatch cxt.path r.regex).isSome = true

/-- The last registration of the smallest text that fits the request, and its match. -/
structure Chosen (S : HttpApiServer E) (rs : List (Registration E)) (cxt : HttpContext E)
    (r : Registration E) (sm : List SubMatch) : Prop where
  verb : r.verb = cxt.req.method
  matched : S.regexMatch cxt.path r.regex = some sm
  smallest : ∀ r' ∈ rs, Fits S cxt r' → less r'.regex r.regex = false
  last : (rs.filter fun r' => r'.isFor r.regex r.verb).getLast? = some r

theorem isFor_iff {r : Registration E} {regex : Str} {verb : Verb} :
    r.isFor regex verb = true ↔ r.regex = regex ∧ r.verb = verb := by
  simp [Registration.isFor]

/-- What is registered is in the map. -/
theorem handler_isSome {rs : List (Registration E)} {r : Registration E} (h : r ∈ rs) :
    (handler (resources rs) r.regex r.verb).isSome = true := by
  have hmem : r ∈ rs.filter fun r' => r'.isFor r.regex r.verb :=
    List.mem_filter.mpr ⟨h, isFor_iff.mpr ⟨rfl, rfl⟩⟩
  rw [handler_resources, Option.isSome_map, List.getLast?_isSome]
  exact List.ne_nil_of_mem hmem

/-- What is in the map is registered. -/
theorem exists_registration {rs : List (Registration E)} {regex : Str} {verb : Verb} {fn : Call E}
    (h : handler (resources rs) regex verb = some fn) :
    ∃ r ∈ rs, r.regex = regex ∧ r.verb = verb ∧ r.fn = fn ∧
      (rs.filter fun r' => r'.isFor regex verb).getLast? = some r := by
  rw [handler_resources] at h
  obtain ⟨r, hlast, hfn⟩ := Option.map_eq_some_iff.mp h
  obtain ⟨hmem, hfor⟩ := List.mem_filter.mp (List.mem_of_getLast? hlast)
  obtain ⟨h1, h2⟩ := isFor_iff.mp hfor
  exact ⟨r, hmem, h1, h2, hfn, hlast⟩

theorem hit_eq_some {S : HttpApiServer E} {path regex : Str} {verb : Verb}
    {byVerb : List (Verb × Call E)} {fn : Call E} {sm : List SubMatch} :
    hit S path verb regex byVerb = some (fn, sm) ↔
      byVerb.lookup verb = some fn ∧ S.regexMatch path regex = some sm := by
  unfold hit
  cases byVerb.lookup verb with
  | none => simp
  | some g =>
    cases S.regexMatch path regex with
    | none => simp
    | some sm' => simp

/-- The search in terms of the map as a function. -/
theorem route_iff {S : HttpApiServer E} {path : Str} {verb : Verb} {rs : List (Registration E)}
    {fn : Call E} {sm : List SubMatch} :
    S.route path verb (resources rs) = some (fn, sm) ↔
      ∃ regex, handler (resources rs) regex verb = some fn ∧ S.regexMatch path regex = some sm ∧
        ∀ regex', (handler (resources rs) regex' verb).isSome = true →
          (S.regexMatch path regex').isSome = true → less regex' regex = false := by
  rw [route_eq_findSome?, findSome?_eq_some less_order (ordered_resources rs)]
  constructor
  · rintro ⟨regex, byVerb, hfind, hhit, hmin⟩
    obtain ⟨hl, hm⟩ := hit_eq_some.mp hhit
    refine ⟨regex, by rw [handler, hfind]; exact hl, hm, ?_⟩
    intro regex' hs hs'
    obtain ⟨fn', hfn'⟩ := Option.isSome_iff_exists.mp hs
    obtain ⟨sm', hsm'⟩ := Option.isSome_iff_exists.mp hs'
    obtain ⟨byVerb', hfind', hl'⟩ := Option.bind_eq_some_iff.mp hfn'
    refine hmin regex' byVerb' hfind' ?_
    rw [hit_eq_some.mpr ⟨hl', hsm'⟩]
    rfl
  · rintro ⟨regex, hfn, hm, hmin⟩
    obtain ⟨byVerb, hfind, hl⟩ := Option.bind_eq_some_iff.mp hfn
    refine ⟨regex, byVerb, hfind, hit_eq_some.mpr ⟨hl, hm⟩, ?_⟩
    intro regex' byVerb' hfind' hs
    obtain ⟨⟨fn', sm'⟩, hhit'⟩ := Option.isSome_iff_exists.mp hs
    obtain ⟨hl', hm'⟩ := hit_eq_some.mp hhit'
    refine hmin regex' ?_ ?_
    · rw [handler, hfind', Option.bind_some, hl']; rfl
    · rw [hm']; rfl

theorem not_fits_of_route {S : HttpApiServer E} {cxt : HttpContext E} {rs : List (Registration E)}
    (h : S.route cxt.path cxt.req.method (resources rs) = none) : ∀ r ∈ rs, ¬Fits S cxt r := by
  rintro r hr ⟨hverb, hmatch⟩
  obtain ⟨fn, hfn⟩ := Option.isSome_iff_exists.mp (handler_isSome hr)
  obtain ⟨sm, hsm⟩ := Option.isSome_iff_exists.mp hmatch
  obtain ⟨byVerb, hfind, hl⟩ := Option.bind_eq_some_iff.mp hfn
  rw [route_eq_findSome?, findSome?_eq_none less_order (ordered_resources rs)] at h
  have hnone := h r.regex byVerb hfind
  rw [hverb] at hl
  rw [hit_eq_some.mpr ⟨hl, hsm⟩] at hnone
  cases hnone

theorem chosen_of_route {S : HttpApiServer E} {cxt : HttpContext E} {rs : List (Registration E)}
    {fn : Call E} {sm : List SubMatch}
    (h : S.route cxt.path cxt.req.method (resources rs) = some (fn, sm)) :
    ∃ r, Chosen S rs cxt r sm ∧ r.fn = fn := by
  obtain ⟨regex, hfn, hm, hmin⟩ := route_iff.mp h
  obtain ⟨r, -, rfl, hverb, hrfn, hlast⟩ := exists_registration hfn
  refine ⟨r, ⟨hverb, hm, ?_, by rw [hverb]; exact hlast⟩, hrfn⟩
  rintro r' hr' ⟨hverb', hmatch'⟩
  refine hmin r'.regex ?_ hmatch'
  rw [← hverb']
  exact handler_isSome hr'

theorem Chosen.mem {S : HttpApiServer E} {rs : List (Registration E)} {cxt : HttpContext E}
    {r : Registration E} {sm : List SubMatch} (h : Chosen S rs cxt r sm) : r ∈ rs :=
  List.mem_of_mem_filter (List.mem_of_getLast? h.last)

/-- Two sequences of registrations differ at most in the order of different pairs of a regular
expression and a method. -/
def SamePairs (rs rs' : List (Registration E)) : Prop :=
  ∀ regex verb, (rs'.filter fun r => r.isFor regex verb) = rs.filter fun r => r.isFor regex verb

theorem route_congr {S : HttpApiServer E} {path : Str} {verb : Verb} {rs rs' : List (Registration E)}
    (h : SamePairs rs rs') : S.route path verb (resources rs') = S.route path verb (resources rs) := by
  refine Option.ext fun x => ?_
  obtain ⟨fn, sm⟩ := x
  simp only [route_iff, handler_resources, h _ _]

/-- Routing: `call_resource` calls a function exactly if one is registered for the method and the
path; that is the last registration of the smallest text that fits, with the match of that text in
`path_params`. Else it leaves the context as it is. The order in which different pairs were
registered does not matter. -/
theorem callResource_registered (S : HttpApiServer E) (rs : List (Registration E))
    (cxt : HttpContext E) :
    ((S.callResource (resources rs) cxt).2.1 = true ↔ ∃ r ∈ rs, Fits S cxt r) ∧
    ((∃ r sm, Chosen S rs cxt r sm ∧
        S.callResource (resources rs) cxt = ((r.fn { cxt with pathParams := sm }).1, true,
          (r.fn { cxt with pathParams := sm }).2)) ∨
      (∀ r ∈ rs, ¬Fits S cxt r) ∧ S.callResource (resources rs) cxt = (cxt, false, none)) ∧
    ∀ rs', SamePairs rs rs' →
      S.callResource (resources rs') cxt = S.callResource (resources rs) cxt := by
  rw [callResource_eq]
  refine ⟨?_, ?_, ?_⟩
  · cases hr : S.route cxt.path cxt.req.method (resources rs) with
    | none =>
      refine iff_of_false (by simp) ?_
      rintro ⟨r, hmem, hfits⟩
      exact not_fits_of_route hr r hmem hfits
    | some x =>
      obtain ⟨r, hchosen, -⟩ := chosen_of_route hr
      exact iff_of_true rfl ⟨r, hchosen.mem, hchosen.verb, by rw [hchosen.matched]; rfl⟩
  · cases hr : S.route cxt.path cxt.req.method (resources rs) with
    | none => right; exact ⟨not_fits_of_route hr, rfl⟩
    | some x =>
      obtain ⟨r, hchosen, hfn⟩ := chosen_of_route hr
      left
      refine ⟨r, x.2, hchosen, ?_⟩
      rw [hfn]
  · intro rs' h
    rw [callResource_eq, route_congr h]

end Jkit.Http.Server.Routing
