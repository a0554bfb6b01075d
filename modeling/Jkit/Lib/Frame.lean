import Mathlib.Data.List.Basic
import Mathlib.Data.List.Infix

/-! # Framed messages on a stream

A message is a header and a body, and the header decides where the reader lets the body end: after a
number of bytes, after the last chunk, or at the end of the stream. A stream is a list of pieces: whole
headers, single bytes of bodies that are written as they are, and whole chunk-coded bodies. What the
reader makes of a header as it is written is up to it (`Seen`). What the bytes of a body would spell if
they were read as a header is not modelled: there the reader says `clash`, and so it does where it takes
a header for something else than one header.

The reader finds the message that was written if its header is seen for what it is and fits its body
(`Whole`): `readBody_whole` and `read_whole` say that a reader who stands before a message, or before as
much of it as has arrived, waits or reads that message to its end and nothing else. -/

namespace Jkit.Lib.Frame

variable {H : Type*}

/-! ### The stream -/

/-- Where the reader lets the body end; `bad` is a header it refuses. -/
inductive Len
  | bad
  | fixed (n : ℕ)
  | chunked
  | eof
deriving DecidableEq

/-- A piece of a stream. -/
inductive Piece (H : Type*)
  | head (h : H)
  | byte (c : UInt8)
  | chunks (body : List UInt8)

/-- The pieces of a body; `coded` says whether it is written chunk-coded. -/
def bodyPieces (coded : Bool) (body : List UInt8) : List (Piece H) :=
  if coded then [.chunks body] else body.map .byte

/-- The pieces of a message. -/
def write (coded : H → Bool) (h : H) (body : List UInt8) : List (Piece H) :=
  .head h :: bodyPieces (coded h) body

/-- What a reader makes of a stream: it has to wait (or there is an error), what stands there is not
what it looks for, or it has read something. -/
inductive Read (H : Type*) (α : Type*)
  | wait
  | clash
  | ok (a : α) (rest : List (Piece H))

/-- A reader that goes on from the value of another. -/
def Read.map {α β : Type*} (f : α → β) : Read H α → Read H β
  | .wait => .wait
  | .clash => .clash
  | .ok a rest => .ok (f a) rest

/-- Reads `n` bytes. -/
def readFixed : ℕ → List (Piece H) → Read H (List UInt8)
  | 0, w => .ok [] w
  | _ + 1, [] => .wait
  | n + 1, .byte c :: w => (readFixed n w).map (c :: ·)
  | _ + 1, _ :: _ => .clash

/-- Reads all bytes. -/
def readAll : List (Piece H) → Read H (List UInt8)
  | [] => .ok [] []
  | .byte c :: w => (readAll w).map (c :: ·)
  | _ :: _ => .clash

/-- Reads a body; `eof` says that nothing will be added to the stream any more. -/
def readBody (eof : Bool) : Len → List (Piece H) → Read H (List UInt8)
  | .bad, _ => .wait
  | .fixed n, w => readFixed n w
  | .chunked, [] => .wait
  | .chunked, .chunks body :: w => .ok body w
  | .chunked, _ :: _ => .clash
  | .eof, w => if eof then readAll w else .wait

/-- What a reader makes of a header: it refuses it, it reads one header, or it reads something else. -/
inductive Seen (H : Type*)
  | refused
  | header (h : H)
  | other

/-- Reads a header. -/
def readHead (see : H → Seen H) : List (Piece H) → Read H H
  | [] => .wait
  | .head h :: w =>
    match see h with
    | .refused => .wait
    | .header h' => .ok h' w
    | .other => .clash
  | _ :: _ => .clash

/-- Reads a message. -/
def read (see : H → Seen H) (len : H → Len) (eof : Bool) (w : List (Piece H)) :
    Read H (H × List UInt8) :=
  match readHead see w with
  | .wait => .wait
  | .clash => .clash
  | .ok h w => (readBody eof (len h) w).map (Prod.mk h)

/-! ### Messages that are read whole -/

/-- The reader takes all of the body: it is not longer than announced, and chunk-coded if and only if
the reader expects that. -/
def Whole (len : Len) (coded : Bool) (body : List UInt8) : Prop :=
  match len with
  | .bad => True
  | .fixed n => coded = false ∧ body.length ≤ n
  | .chunked => coded = true
  | .eof => coded = false

instance : (len : Len) → (coded : Bool) → (body : List UInt8) → Decidable (Whole len coded body)
  | .bad, _, _ => inferInstanceAs (Decidable True)
  | .fixed _, _, _ => inferInstanceAs (Decidable (_ ∧ _))
  | .chunked, _, _ => inferInstanceAs (Decidable (_ = _))
  | .eof, _, _ => inferInstanceAs (Decidable (_ = _))

theorem readFixed_bytes : ∀ (n : ℕ) (bs : List UInt8), readFixed n (bs.map (Piece.byte (H := H))) =
    if n ≤ bs.length then .ok (bs.take n) ((bs.drop n).map .byte) else .wait
  | 0, bs => by simp [readFixed]
  | n + 1, [] => by simp [readFixed]
  | n + 1, c :: bs => by
    simp only [List.map_cons, readFixed, readFixed_bytes n bs, List.length_cons,
      Nat.add_le_add_iff_right]
    split_ifs with h
    · simp [Read.map]
    · rfl

theorem readAll_bytes : ∀ bs : List UInt8, readAll (bs.map (Piece.byte (H := H))) = .ok bs []
  | [] => rfl
  | c :: bs => by
    rw [List.map_cons, readAll, readAll_bytes bs]
    rfl

/-- **A whole body** is waited for or read to its end, also if only a part of it has arrived. One that
ends with the stream has to be there in full. -/
theorem readBody_whole {len : Len} {coded : Bool} {body : List UInt8} (h : Whole len coded body)
    {w : List (Piece H)} (hw : w <+: bodyPieces coded body)
    (he : len = .eof → w = bodyPieces coded body) (eof : Bool) :
    readBody eof len w = .wait ∨ readBody eof len w = .ok body [] := by
  cases len with
  | bad => exact .inl rfl
  | fixed n =>
    obtain ⟨rfl, hn⟩ := h
    obtain ⟨bs, hbs, rfl⟩ := List.prefix_map_iff.mp hw
    have hlen := hbs.length_le
    rw [readBody, readFixed_bytes]
    split_ifs with hle
    · have hbody : bs = body := hbs.eq_of_length (by omega)
      have hall : body.length ≤ n := hn
      right
      rw [hbody, List.take_of_length_le hall, List.drop_of_length_le hall]
      rfl
    · exact .inl rfl
  | chunked =>
    have hc : coded = true := h
    rw [hc] at hw
    rcases List.prefix_cons_iff.mp hw with rfl | ⟨t, rfl, ht⟩
    · exact .inl rfl
    · rw [List.prefix_nil.mp ht]
      exact .inr rfl
  | eof =>
    have hc : coded = false := h
    rw [he rfl, hc]
    cases eof with
    | false => exact .inl rfl
    | true => exact .inr (readAll_bytes body)

/-- The reader refuses the header `h`, or sees `h'` in it. -/
def Seen.Only (see : H → Seen H) (h h' : H) : Prop := see h = .refused ∨ see h = .header h'

theorem readHead_only {see : H → Seen H} {h h' : H} (hs : Seen.Only see h h') (w : List (Piece H)) :
    readHead see (.head h :: w) = .wait ∨ readHead see (.head h :: w) = .ok h' w := by
  rcases hs with hs | hs
  · exact .inl (by rw [readHead, hs])
  · exact .inr (by rw [readHead, hs])

/-- As much of a message as may have arrived, read with the length `len`: any part of it, but if it ends
with the stream, all of it or nothing. -/
def Arrived (len : Len) (coded : H → Bool) (h : H) (body : List UInt8) (w : List (Piece H)) : Prop :=
  w <+: write coded h body ∧ (len = .eof → w = [] ∨ w = write coded h body)

/-- **A whole message** is waited for or read to its end. -/
theorem read_whole {see : H → Seen H} {len : H → Len} {coded : H → Bool} {h h' : H}
    {body : List UInt8} {w : List (Piece H)} (hs : Seen.Only see h h')
    (hw : Arrived (len h') coded h body w) (hm : Whole (len h') (coded h) body) (eof : Bool) :
    read see len eof w = .wait ∨ read see len eof w = .ok (h', body) [] := by
  obtain ⟨hp, he⟩ := hw
  rcases List.prefix_cons_iff.mp hp with rfl | ⟨t, rfl, ht⟩
  · exact .inl rfl
  · have he' : len h' = .eof → t = bodyPieces (coded h) body := fun hl =>
      (he hl).elim (fun hn => by cases hn) fun hf => (List.cons.inj hf).2
    unfold read
    rcases readHead_only hs t with hh | hh
    · exact .inl (by rw [hh])
    · rw [hh]
      rcases readBody_whole hm ht he' eof with hb | hb
      · exact .inl (by dsimp only; rw [hb]; rfl)
      · exact .inr (by dsimp only; rw [hb]; rfl)

theorem arrived_write (len : Len) (coded : H → Bool) (h : H) (body : List UInt8) :
    Arrived len coded h body (write coded h body) :=
  ⟨List.prefix_rfl, fun _ => .inr rfl⟩

end Jkit.Lib.Frame
