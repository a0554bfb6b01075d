import Jkit.Lib.HashTable
import Jkit.Common.QueryString
import Jkit.Http.Server.BadRequest

/-! # The parameters a resource sees

`query_params` is a `CaseInsensitiveMultimap`, a hash table with `CaseInsensitiveHash` and
`CaseInsensitiveEqual`. The two agree (`hash_respects`), so a lookup finds every parameter whose name differs
from the name it asks for in case only.

`params_found` follows the parameters from the client to the resource: through the target, the test of
`handle_request`, `parse_target`, `parse_query_string` and the table. -/

namespace Jkit.Http.Server.Params

open Jkit.Http.Message Jkit.Common.WebUtility Jkit.Common.QueryString Jkit.Lib.HashTable
open Jkit.Http.Server.Context Jkit.Http.Server.Context.HttpApiServer Jkit.Http.Server.BadRequest

/-! ### The table -/

/-- `case_insensitive_equal`. -/
def caseInsensitiveEqual (a b : Str) : Bool :=
  a.length == b.length && (a.zip b).all fun x => tolower x.1 == tolower x.2

/-- `std::hash<int>` of a `char`, which is signed: the number itself, modulo `2 ^ 64`. -/
def hashInt (c : UInt8) : UInt64 := if c < 128 then c.toUInt64 else c.toUInt64 - 256

/-- One round of the loop of `CaseInsensitiveHash`. -/
def mix (h : UInt64) (c : UInt8) : UInt64 :=
  h ^^^ (hashInt (tolower c) + (0x9e3779b9 : UInt64) + (h <<< (6 : UInt64)) + (h >>> (2 : UInt64)))

/-- `CaseInsensitiveHash`. -/
def caseInsensitiveHash (s : Str) : ℕ := (s.foldl mix 0).toNat

/-- Equal names have the same hash, from any round on. -/
theorem foldl_mix {a b : Str} (h : caseInsensitiveEqual a b = true) (x : UInt64) :
    a.foldl mix x = b.foldl mix x := by
  induction a generalizing b x with
  | nil =>
    rcases b with _ | ⟨d, b⟩
    · rfl
    · simp [caseInsensitiveEqual] at h
  | cons c a ih =>
    rcases b with _ | ⟨d, b⟩
    · simp [caseInsensitiveEqual] at h
    · simp only [caseInsensitiveEqual, List.length_cons, List.zip_cons_cons, List.all_cons, Bool.and_eq_true,
        beq_iff_eq, Nat.add_right_cancel_iff] at h
      obtain ⟨hlen, hc, hrest⟩ := h
      have hmix : mix x c = mix x d := by
        unfold mix
        rw [hc]
      rw [List.foldl_cons, List.foldl_cons, hmix]
      exact ih (by simp [caseInsensitiveEqual, hlen, hrest]) _

theorem hash_respects : Respects caseInsensitiveHash caseInsensitiveEqual := by
  intro a b h
  unfold caseInsensitiveHash
  rw [foldl_mix h]

/-! ### The target -/

variable {E : Type}

/-- The target with these parameters. -/
def target (path : Str) (ps : List (Str × Str)) : Str := path ++ 63 :: queryString ps

theorem parts_target {path : Str} (h : 63 ∉ path) (ps : List (Str × Str)) :
    pathPart (target path ps) = path ∧ queryPart (target path ps) = queryString ps := by
  have hall : ∀ c ∈ path, (c != 63) = true := by
    intro c hc
    have : c ≠ 63 := by
      rintro rfl
      exact h hc
    simpa using this
  unfold target pathPart queryPart
  constructor
  · rw [List.takeWhile_append_of_pos hall]
    simp
  · rw [List.dropWhile_append_of_pos hall]
    simp

/-- The pieces of a query string are read back in their order, each with its own value. -/
theorem parseQueryString_target {ps : List (Str × Str)}
    (h : ∀ x ∈ ps, x.1 ≠ [] ∧ 38 ∉ x.1 ∧ 61 ∉ x.1) :
    parseQueryString (queryString ps) = ps.map fun x => (x.1, decode (encode x.2)) := by
  rw [parseQueryString_eq]
  rcases ps with _ | ⟨x, ps⟩
  · rfl
  · have hpieces : ∀ l ∈ (x :: ps).map (fun x => x.1 ++ 61 :: encode x.2), 38 ∉ l := by
      intro l hl
      obtain ⟨y, hy, rfl⟩ := List.mem_map.mp hl
      have hname := (h y hy).2.1
      have hvalue := (encode_notMem y.2).1
      simp [hname, hvalue]
    rw [queryString, List.splitOn_intercalate 38 hpieces (by simp), List.filterMap_map,
      ← List.filterMap_eq_map]
    refine List.filterMap_congr fun y hy => ?_
    simp only [Function.comp, cutLast_append (encode_notMem y.2).2, keep, if_neg (h y hy).1]

/-- A target whose path is absolute and that has no `..` passes the test. -/
theorem rejected_target {path : Str} (hpath : path.head? = some 47) (ps : List (Str × Str))
    (hdots : contains (target path ps) (str "..") = false) : rejected (target path ps) = false := by
  have hhead : (target path ps).head? = some 47 := by
    rw [target, List.head?_append, hpath]
    rfl
  have hne : target path ps ≠ [] := by
    intro h
    rw [h] at hhead
    cases hhead
  simp [rejected, hdots, hhead, hne]

/-- **A resource finds the parameters of the request.** For every server and every request whose target has
an absolute path, no `..`, and parameters with names that can be written as they are: the resources are asked
with this path, and however the table of the parameters has grown, a lookup of a name finds what `decode`
makes of the encoded values of the parameters with this name, in any case of its letters, and no others. -/
theorem params_found (S : HttpApiServer E) (cxt : HttpContext E) (path : Str) (ps : List (Str × Str))
    (hpath : path.head? = some 47) (hmark : 63 ∉ path)
    (hdots : contains (target path ps) (str "..") = false)
    (hps : ∀ x ∈ ps, x.1 ≠ [] ∧ 38 ∉ x.1 ∧ 61 ∉ x.1) :
    ∃ c, S.handleRequest { cxt with req := { cxt.req with target := target path ps } } = S.dispatch c ∧
      c.path = path ∧ c.req.target = target path ps ∧
      ∀ (n : ℕ) (hn : 0 < n) (ops : List (Op Str Str)), ops.filterMap Op.entry? = c.queryParams →
        ∀ name,
          (((build caseInsensitiveHash n hn ops).equalRange caseInsensitiveEqual name).map Prod.snd).Perm
            ((ps.filter fun x => caseInsensitiveEqual name x.1).map fun x => decode (encode x.2)) := by
  obtain ⟨h1, h2⟩ := parts_target hmark ps
  refine ⟨{ cxt with
    req := { cxt.req with target := target path ps }, res := {}, path := path
    queryParams := parseQueryString (queryString ps) }, ?_, rfl, rfl, ?_⟩
  · have hrej := rejected_target hpath ps hdots
    have hparse := parseTarget_eq (target path ps)
    rw [h1, h2] at hparse
    simp [handleRequest, hrej, hparse]
  · intro n hn ops hops name
    have hfound := (build_perm hash_respects hn ops name).map Prod.snd
    rw [hops, parseQueryString_target hps, List.filter_map, List.map_map] at hfound
    exact hfound

/-- A parameter that is asked for in another case, next to one of another name. -/
theorem params_found_upper :
    let ps := [(str "id", str "7"), (str "Id", str "a b"), (str "x", str "1")]
    let S : HttpApiServer Unit := { regexMatch := fun _ _ => none, resource := [] }
    ∃ c, S.handleRequest { remoteEndpoint := (), req := { target := target (str "/p") ps } } =
        S.dispatch c ∧ c.path = str "/p" ∧
      (((build caseInsensitiveHash 3 (by decide) (c.queryParams.map fun x => .emplace x.1 x.2)).equalRange
        caseInsensitiveEqual (str "ID")).map Prod.snd).Perm [str "7", str "a b"] := by
  intro ps S
  obtain ⟨c, h1, h2, -, h3⟩ := params_found S { remoteEndpoint := () } (str "/p") ps (by decide)
    (by decide) (by decide) (by decide)
  refine ⟨c, h1, h2, ?_⟩
  refine (h3 3 (by decide) _ ?_ (str "ID")).trans (List.Perm.of_eq (by decide))
  rw [List.filterMap_map]
  exact List.filterMap_some

end Jkit.Http.Server.Params
