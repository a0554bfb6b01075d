import Jkit.Http.Message
import Mathlib.Data.List.Nodup
import Mathlib.Data.Int.Notation
import Mathlib.Logic.Function.Basic

/-! # The connection lists of `HttpCache`

`m_h1_conns`, `m_h1s_conns` and `m_h2s_conns` are lists of shared pointers to connection objects.
A pointer is a number, the objects live in a memory `mem`, and `next` is the next fresh address.
The list operations are the bodies of the locked sections of `multi_client_http.cpp`; the three
pools share them and differ in the values of a `Kind`: which entries the search and the sweep may
touch, and what the reuse branch writes into the object. -/

namespace Jkit.Http.Client.Conns

open Jkit.Http.Message

/-! ### Arguments and connection objects -/

/-- `struct HttpReqArgument`. -/
structure HttpReqArgument where
  host : Str
  port : Str
  dnsTimeout : ℤ := 5
  connTimeout : ℤ := 3
  reqTimeout : ℤ := 6
deriving DecidableEq

/-- `struct HttpsReqArgument`; an empty `ssl_cert` asks for no verification. -/
structure HttpsReqArgument extends HttpReqArgument where
  handshakeTimeout : ℤ := 3
  sslCert : Str := []
deriving DecidableEq

/-- `ssl::verify_mode`. -/
inductive VerifyMode
  | verifyNone
  | verifyPeer
deriving DecidableEq

/-- What a `ssl::context` says about the peer: the verify mode and the certificate authorities. -/
structure SslContext where
  verifyMode : VerifyMode := .verifyNone
  authorities : List Str := []
deriving DecidableEq

/-- `HttpCache::set_ssl`. `certOk` says which certificates `add_certificate_authority` takes;
`none` is the return value `false`. -/
def setSsl (certOk : Str → Bool) (ctx : SslContext) (cert : Str) : Option SslContext :=
  if cert ≠ [] then
    let ctx' := { ctx with verifyMode := .verifyPeer }
    if certOk cert then some { ctx' with authorities := ctx'.authorities ++ [cert] } else none
  else some { ctx with verifyMode := .verifyNone }

/-- A connection object: the argument structure it derives from, `struct Connection`, and its
stream. Times are seconds of the clock. -/
structure Conn (A S : Type) where
  args : A
  inUse : Bool := false
  lastUse : ℤ := 0
  stream : S

/-- How one of the three pools uses the shared list operations. -/
structure Kind (A S : Type) where
  host : A → Str
  port : A → Str
  /-- The test on `in_use` in the search and in the sweep. -/
  idle : Conn A S → Bool
  /-- What the reuse branch writes into the object it found. -/
  reuse : A → ℤ → Conn A S → Conn A S

/-- `m_unuse_timeout`. -/
def unuseTimeout : ℤ := 55

/-! ### The list operations -/

/-- The objects, the next fresh address, and the list of pointers. -/
structure Cache (A S : Type) where
  mem : ℕ → Conn A S
  next : ℕ := 0
  conns : List ℕ := []

namespace Cache

variable {A S : Type} (K : Kind A S) (c : Cache A S)

/-- The entry is not in use and has not been for more than `m_unuse_timeout` seconds. -/
def expired (now : ℤ) (p : ℕ) : Bool :=
  K.idle (c.mem p) && decide (unuseTimeout < now - (c.mem p).lastUse)

/-- `delete_timeout_*_connect`. -/
def deleteTimeout (now : ℤ) : Cache A S :=
  { c with conns := c.conns.filter fun p => !c.expired K now p }

/-- The entry fits the host and the port of the request. -/
def samePeer (a : A) (p : ℕ) : Bool :=
  K.host (c.mem p).args == K.host a && K.port (c.mem p).args == K.port a

/-- The search loop of `get_*_connect`: the first entry the branch takes. -/
def search (a : A) : Option ℕ := c.conns.find? fun p => K.idle (c.mem p) && c.samePeer K a p

/-- The reuse branch of `get_*_connect`. -/
def reuse (a : A) (now : ℤ) (p : ℕ) : Cache A S :=
  { c with mem := Function.update c.mem p (K.reuse a now (c.mem p)) }

/-- `new` of a connection object; its pointer is the old `next`. -/
def alloc (o : Conn A S) : Cache A S :=
  { c with mem := Function.update c.mem c.next o, next := c.next + 1 }

/-- The end of `get_*_connect`: the new object is marked and pushed. -/
def push (now : ℤ) (p : ℕ) : Cache A S :=
  { c with
    mem := Function.update c.mem p { c.mem p with inUse := true, lastUse := now }
    conns := c.conns ++ [p] }

/-- `release_*_connect`: the loop stops at the entry with this pointer, if there is one. -/
def release (now : ℤ) (p : ℕ) : Cache A S :=
  if p ∈ c.conns then
    { c with mem := Function.update c.mem p { c.mem p with inUse := false, lastUse := now } }
  else c

/-- `delete_invalid_*_connect`: erases the first entry with this pointer. -/
def deleteInvalid (p : ℕ) : Cache A S := { c with conns := c.conns.erase p }

variable {K c}

theorem mem_deleteTimeout {now : ℤ} {p : ℕ} :
    p ∈ (c.deleteTimeout K now).conns ↔ p ∈ c.conns ∧ c.expired K now p = false := by
  simp [deleteTimeout]

/-- **What the search finds**: an entry of the list that is idle and has the requested peer. -/
theorem search_some {a : A} {p : ℕ} (h : c.search K a = some p) :
    p ∈ c.conns ∧ K.idle (c.mem p) = true ∧ K.host (c.mem p).args = K.host a ∧
      K.port (c.mem p).args = K.port a := by
  have hm := List.mem_of_find?_eq_some h
  have hp := List.find?_some h
  simp only [samePeer, Bool.and_eq_true, beq_iff_eq] at hp
  exact ⟨hm, hp.1, hp.2.1, hp.2.2⟩

end Cache

end Jkit.Http.Client.Conns
