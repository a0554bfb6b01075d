import Jkit.Http.Client.Conns
import Jkit.Lib.Run

/-! # `MultiClientHttp::h1_req` over the HTTP and HTTPS pools

Any number of `h1_req` calls run concurrently; call `i` has the arguments `args i`. A call goes
through the positions `Pc`: the sweep and the search of `get_*_connect` under the lock, the set-up
of a new connection outside it, the push under the lock, the write and the read of the exchange,
and one of the exits. A label of a call carries what the environment decides there: the time on
the clock, the outcome of an I/O operation, the response that was read.

The log is a history of the leases, newest first: who got a connection, who gave it back or erased
it, and what the sweep removed. The code does not read it. -/

namespace Jkit.Http.Client.H1

open Jkit.Http.Message Jkit.Http.Client.Conns Jkit.Lib.Run

/-! ### The model -/

/-- The operations on a new connection outside the lock; each may fail. -/
inductive OpenStep
  | resolve
  | setTlsextHostName
  | connect
  | handshake
deriving DecidableEq

/-- A pool of `h1_req`: the stream of a new connection (`none` if `set_ssl` fails) and the
operations that open it. -/
structure H1Kind (A S : Type) extends Kind A S where
  newStream : A → Option S
  opening : List OpenStep

/-- `get_http_connect` on `m_h1_conns`. -/
def http : H1Kind HttpReqArgument Unit where
  host := HttpReqArgument.host
  port := HttpReqArgument.port
  idle o := !o.inUse
  reuse a now o :=
    { o with
      args := { o.args with
        dnsTimeout := a.dnsTimeout, connTimeout := a.connTimeout, reqTimeout := a.reqTimeout }
      inUse := true
      lastUse := now }
  newStream _ := some ()
  opening := [.resolve, .connect]

/-- `get_https_connect` on `m_h1s_conns`. -/
def https (certOk : Str → Bool) : H1Kind HttpsReqArgument SslContext where
  host a := a.host
  port a := a.port
  idle o := !o.inUse
  reuse a now o :=
    { o with
      args := { o.args with
        dnsTimeout := a.dnsTimeout, connTimeout := a.connTimeout, reqTimeout := a.reqTimeout
        handshakeTimeout := a.handshakeTimeout, sslCert := a.sslCert }
      inUse := true
      lastUse := now }
  newStream a := setSsl certOk {} a.sslCert
  opening := [.resolve, .setTlsextHostName, .connect, .handshake]

/-- The error codes the code tells apart. -/
inductive IoError
  | timeout
  | other
deriving DecidableEq

/-- What `h1_req` returns. -/
inductive Result
  | noConnection
  | ioError (e : IoError)
  | response (res : StrResponse)
deriving DecidableEq

/-- The status of the returned `StrResponse`. -/
def Result.status : Result → ℕ
  | .noConnection => 599
  | .ioError .timeout => 408
  | .ioError .other => 444
  | .response res => res.result

/-- The position of a call; `p` is its connection. -/
inductive Pc
  | idle
  | sweep
  | search
  | create
  | opening (p : ℕ) (todo : List OpenStep)
  | push (p : ℕ)
  | write (p : ℕ)
  | read (p : ℕ)
  | close (p : ℕ) (res : StrResponse)
  | erase (p : ℕ) (r : Result)
  | release (p : ℕ) (res : StrResponse)
  | done (r : Result)

/-- The label of a step of a call. -/
inductive Ev
  | call
  | sweep (now : ℤ)
  | search (now : ℤ)
  | create
  | io (ok : Bool)
  | push (now : ℤ)
  | write (ec : Option IoError)
  | read (r : Except IoError StrResponse)
  | close
  | erase
  | release (now : ℤ)

/-- An entry of the history. -/
inductive Lease
  | leased (i p : ℕ)
  | released (i p : ℕ)
  | erased (i p : ℕ)
  | swept (p : ℕ)
deriving DecidableEq

/-- The shared state: the pool and the history of its leases. -/
structure Pool (A S : Type) where
  cache : Cache A S
  log : List Lease := []

variable {A S : Type}

namespace Pool

variable (K : H1Kind A S) (i : ℕ) (P : Pool A S)

/-- The sweep, with the entries it removes in the history. -/
def sweep (now : ℤ) : Pool A S where
  cache := P.cache.deleteTimeout K.toKind now
  log := ((P.cache.conns.filter fun p => P.cache.expired K.toKind now p).map .swept).reverse ++ P.log

/-- The reuse branch: call `i` gets the entry `p`. -/
def reuse (a : A) (now : ℤ) (p : ℕ) : Pool A S :=
  ⟨P.cache.reuse K.toKind a now p, .leased i p :: P.log⟩

/-- The push at the end of `get_*_connect`: call `i` gets the new entry `p`. -/
def push (now : ℤ) (p : ℕ) : Pool A S := ⟨P.cache.push now p, .leased i p :: P.log⟩

/-- `release_*_connect`; it ends a lease if it finds the entry. -/
def release (now : ℤ) (p : ℕ) : Pool A S :=
  ⟨P.cache.release now p, if p ∈ P.cache.conns then .released i p :: P.log else P.log⟩

/-- `delete_invalid_*_connect`; it ends a lease if it finds the entry. -/
def deleteInvalid (p : ℕ) : Pool A S :=
  ⟨P.cache.deleteInvalid p, if p ∈ P.cache.conns then .erased i p :: P.log else P.log⟩

end Pool

/-- One step of call `i` of `h1_req`. -/
def step (K : H1Kind A S) (args : ℕ → A) (i : ℕ) (P : Pool A S) : Pc → Ev → Option (Pool A S × Pc)
  | .idle, .call => some (P, .sweep)
  | .sweep, .sweep now => some (P.sweep K now, .search)
  | .search, .search now =>
    match P.cache.search K.toKind (args i) with
    | some p => some (P.reuse K i (args i) now p, .write p)
    | none => some (P, .create)
  | .create, .create =>
    match K.newStream (args i) with
    | some st => some (⟨P.cache.alloc { args := args i, stream := st }, P.log⟩,
        .opening P.cache.next K.opening)
    | none => some (P, .done .noConnection)
  | .opening p (_ :: todo), .io true => some (P, if todo = [] then .push p else .opening p todo)
  | .opening _ (_ :: _), .io false => some (P, .done .noConnection)
  | .push p, .push now => some (P.push i now p, .write p)
  | .write p, .write none => some (P, .read p)
  | .write p, .write (some e) => some (P, .erase p (.ioError e))
  | .read p, .read (.error e) => some (P, .erase p (.ioError e))
  | .read p, .read (.ok res) => some (P, if res.needEof then .close p res else .release p res)
  | .close p res, .close => some (P, .erase p (.response res))
  | .erase p r, .erase => some (P.deleteInvalid i p, .done r)
  | .release p res, .release now => some (P.release i now p, .done (.response res))
  | _, _ => none

/-- The calls of `h1_req` on one pool, in any interleaving; `o` fills the memory before the first
`new`. -/
def sys (K : H1Kind A S) (args : ℕ → A) (o : Conn A S) : Sys (Pool A S × (ℕ → Pc)) (ℕ × Ev) :=
  Sys.threads { cache := { mem := fun _ => o } } .idle (step K args)

end Jkit.Http.Client.H1
