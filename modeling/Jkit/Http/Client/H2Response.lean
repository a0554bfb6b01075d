import Jkit.Http.Client.H2Completion

/-! # What `h2_req` returns

Many calls share a session, and the io thread delivers the pieces of all their responses in any order. A
call that returns a response returns all of its own one and nothing else: the status, the header as
`basic_fields` keeps it and the chunks of its stream in their order, whatever happens to the other streams,
to the pool and to the connection in between (`response_whole`). What the peer sends on a stream is assumed
to be a response, or the beginning of one. -/

namespace Jkit.Http.Client.H2Response

open Jkit.Http.Message Jkit.Http.Client.Conns Jkit.Http.Client.H2 Jkit.Http.Client.H2Pool
open Jkit.Http.Client.H2Completion Jkit.Lib.Run

variable {certOk : Str → Bool} {args : ℕ → HttpsReqArgument} {o : Conn HttpsReqArgument Session}
variable {i : ℕ} {status : ℕ} {header : Fields} {chunks : List Str} {as : List Arrival}

/-! ### Beginnings of a response -/

theorem countP_le_one (h : as <+: complete status header chunks) : as.countP Arrival.isHead ≤ 1 := by
  have hle := h.sublist.countP_le (p := Arrival.isHead)
  rw [countP_complete] at hle
  exact hle

/-- Before its end no response sets the promise. -/
theorem foldl_absorb_unready {f : Frame} (hf : f.ready = false) (h : ∀ a ∈ as, a ≠ .fin) :
    (as.foldl absorb f).ready = false := by
  induction as generalizing f with
  | nil => exact hf
  | cons a as ih =>
    refine ih ?_ fun b hb => h b (by simp [hb])
    rcases a with _ | _ | _
    · exact hf
    · unfold absorb
      split_ifs
      · exact hf
      · exact hf
    · exact absurd rfl (h _ (by simp))

/-- A beginning that sets the promise is all of it. -/
theorem eq_complete (h : as <+: complete status header chunks)
    (hr : (as.foldl absorb {}).ready = true) : as = complete status header chunks := by
  obtain ⟨rest, hrest⟩ := h
  rcases List.eq_nil_or_concat rest with rfl | ⟨rest', a, rfl⟩
  · rw [List.append_nil] at hrest
    exact hrest
  · -- without its last piece there is no end in it
    exfalso
    have hinit : as ++ rest' = .head status header :: chunks.map .chunk := by
      have hsplit : (as ++ rest') ++ [a] = (.head status header :: chunks.map .chunk) ++ [.fin] := by
        simpa [complete] using hrest
      exact (List.append_inj' hsplit rfl).1
    have hno : ∀ b ∈ as, b ≠ .fin := by
      rintro b hb rfl
      have hmem : Arrival.fin ∈ Arrival.head status header :: chunks.map .chunk := by
        rw [← hinit]
        exact List.mem_append_left _ hb
      simp at hmem
    rw [foldl_absorb_unready rfl hno] at hr
    cases hr

/-! ### Calls that have returned -/

/-- The promise of a stream is set only by all of a response. -/
theorem complete_of_ready {ls : List ((ℕ × Ev) ⊕ IoEv)} {s : Mem × (ℕ → Pc)}
    (h : (sys certOk args o).exec ls = some s)
    (hp : arrivals i ls <+: complete status header chunks) (hr : (s.1.frames i).ready = true) :
    arrivals i ls = complete status header chunks ∧
      (s.1.frames i).response = strResponse status header chunks.flatten := by
  have hI := streamInv_exec h i
  have hheard : (sys certOk args o).Along (ResponseHeard i) (sys certOk args o).init ls := by
    by_contra hno
    rw [(hI.missed hno (countP_le_one hp)).2] at hr
    cases hr
  have hf := hI.holds hheard
  have hall : arrivals i ls = complete status header chunks := by
    refine eq_complete hp ?_
    rw [hf] at hr
    exact hr
  refine ⟨hall, ?_⟩
  rw [hf, hall, foldl_absorb_complete]
  rfl

/-- A call that has returned a response has read it from its frame, and the frame is still the same. -/
structure Read (i : ℕ) (s : Mem × (ℕ → Pc)) : Prop where
  erase : ∀ p res, s.2 i ≠ .erase p (.response res)
  done : ∀ res, s.2 i = .done (.response res) →
    (s.1.frames i).ready = true ∧ (s.1.frames i).response = some res

theorem Read.call {s : Mem × (ℕ → Pc)} (hi : Read i s) {k : ℕ} {e : Ev} {m : Mem} {pc : Pc}
    (h : step certOk args k s.1 (s.2 k) e = some (m, pc)) : Read i (m, Function.update s.2 k pc) := by
  obtain ⟨g, hg⟩ := step_frame h i
  by_cases hik : i = k
  · subst hik
    have herase := hi.erase
    have ht := step_trans h
    generalize s.2 i = pc₀ at ht herase
    refine ⟨?_, ?_⟩
    · intro p res hpc
      simp only [Function.update_self] at hpc
      subst hpc
      cases ht
    · intro res hpc
      simp only [Function.update_self] at hpc
      subst hpc
      cases ht with
      | answered p d res hready hres => exact ⟨hready, hres⟩
      | erase p => exact absurd rfl (herase p res)
  · refine ⟨?_, ?_⟩
    · intro p res
      simpa [hik] using hi.erase p res
    · intro res hres
      simp only [Function.update_of_ne hik] at hres
      simp only [hg]
      exact hi.done res hres

/-- Behind a complete response nothing arrives any more. -/
theorem Read.io {ls : List ((ℕ × Ev) ⊕ IoEv)} {s : Mem × (ℕ → Pc)} (hi : Read i s)
    (h : (sys certOk args o).exec ls = some s) {e : IoEv} {m : Mem} (hio : ioStep s.1 e = some m)
    (hp : arrivals i (ls ++ [.inr e]) <+: complete status header chunks) : Read i (m, s.2) := by
  refine ⟨hi.erase, ?_⟩
  intro res hres
  obtain ⟨hready, hsame⟩ := hi.done res hres
  have hsplit : arrivals i (ls ++ [.inr e]) = arrivals i ls ++ (arrival i (.inr e)).toList := by
    unfold arrivals
    rw [List.filterMap_append]
    cases ha : arrival i (.inr e) <;> simp [ha]
  rw [hsplit] at hp
  obtain ⟨hall, -⟩ := complete_of_ready h ((List.prefix_append _ _).trans hp) hready
  have hnone : arrival i (.inr e) = none := by
    have hlen := hp.length_le
    rw [hall, List.length_append] at hlen
    cases ha : arrival i (.inr e) with
    | none => rfl
    | some a =>
      simp only [ha, Option.toList_some, List.length_singleton] at hlen
      omega
  have hframe := ioStep_frame hio i
  rw [hnone] at hframe
  simp only [Option.map_none, Option.getD_none] at hframe
  rw [hframe]
  exact ⟨hready, hsame⟩

theorem read_exec {ls : List ((ℕ × Ev) ⊕ IoEv)} {s : Mem × (ℕ → Pc)}
    (h : (sys certOk args o).exec ls = some s)
    (hp : arrivals i ls <+: complete status header chunks) : Read i s := by
  refine Sys.exec_inv (S := sys certOk args o)
    (P := fun s ls => arrivals i ls <+: complete status header chunks → Read i s) ?_ ?_ h hp
  · intro _
    exact ⟨by simp [sys], by simp [sys]⟩
  · intro s ls l s' hrun hi hstep hp'
    have hbefore : arrivals i ls <+: complete status header chunks := by
      refine List.IsPrefix.trans ?_ hp'
      unfold arrivals
      rw [List.filterMap_append]
      exact List.prefix_append _ _
    rcases sys_step hstep with ⟨k, e, m, pc, rfl, hst, rfl⟩ | ⟨e, m, rfl, hio, rfl⟩
    · exact (hi hbefore).call hst
    · exact (hi hbefore).io hrun hio hp'

/-- **A response is whole and its own.** In every run of any number of calls, connections and streams: if a
call has returned a response, then all of it has arrived on the stream of this call, and what the call
returned is its status, its header and its body. -/
theorem response_whole (certOk : Str → Bool) (args : ℕ → HttpsReqArgument)
    (o : Conn HttpsReqArgument Session) (ls : List ((ℕ × Ev) ⊕ IoEv)) (s : Mem × (ℕ → Pc)) (i : ℕ)
    (status : ℕ) (header : Fields) (chunks : List Str) (res : StrResponse)
    (h : (sys certOk args o).exec ls = some s) (hp : arrivals i ls <+: complete status header chunks)
    (hres : s.2 i = .done (.response res)) :
    arrivals i ls = complete status header chunks ∧
      strResponse status header chunks.flatten = some res := by
  obtain ⟨hready, hresponse⟩ := (read_exec h hp).done res hres
  obtain ⟨hall, hwhole⟩ := complete_of_ready h hp hready
  exact ⟨hall, hwhole.symm.trans hresponse⟩

/-- Two calls on one session; the pieces of their responses come in turns. -/
def sharedRun : List ((ℕ × Ev) ⊕ IoEv) :=
  opens.map (label 0) ++ [.inl (1, .call), .inl (1, .sweep 0), .inl (1, .search 0)] ++
    waits.map (label 1) ++ waits.map (label 0) ++
    [.inr (.response 1 404 []), .inr (.response 0 200 []), .inr (.data 0 (str "h")),
      .inr (.data 1 (str "no")), .inr (.data 0 (str "i")), .inr (.dataEnd 0), .inl (0, .wake false),
      .inr (.dataEnd 1)]

theorem response_whole_sharedRun :
    let a : HttpsReqArgument := { host := str "h", port := str "443" }
    let S := sys (fun _ => true) (fun _ => a) { args := a, stream := { ssl := {} } }
    ∃ s, S.exec sharedRun = some s ∧ s.2 1 = .waiting 0 6 ∧
      ∃ res, s.2 0 = .done (.response res) ∧ strResponse 200 [] (str "hi") = some res := by
  intro a S
  obtain ⟨s, hs, h1, res, h0⟩ : ∃ s, S.exec sharedRun = some s ∧ s.2 1 = .waiting 0 6 ∧
      ∃ res, s.2 0 = .done (.response res) := ⟨_, rfl, rfl, _, rfl⟩
  have hp : arrivals 0 sharedRun <+: complete 200 [] [str "h", str "i"] := ⟨[], rfl⟩
  obtain ⟨-, hres⟩ := response_whole (fun _ => true) (fun _ => a) { args := a, stream := { ssl := {} } }
    sharedRun s 0 200 [] [str "h", str "i"] res hs hp h0
  exact ⟨s, hs, h1, res, h0, hres⟩

end Jkit.Http.Client.H2Response
