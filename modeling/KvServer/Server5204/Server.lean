import Mathlib.Tactic.Simps.Basic
import KvServer.Base.Machine
import KvServer.Server5204.Fdevents
import KvServer.Server5204.Link
import KvServer.Store.Process

/-!
# The server of server-5204

`main_loop` waits for ready descriptors and takes them up one after the other.
The listening socket is accepted from, a readable link is handed to `req_recv` and
a writable one to `rsp_send`.  `req_recv` reads a buffer, hands every 50 bytes of
it to the packet processor and queues one response buffer.  `rsp_send` writes the
first response buffer of the queue and deletes it.

Links are kept in a list and a pointer to a link is its index, 0 being
`client_conn`.  Links are never deleted.  The server is a machine whose events are
what the environment decides: what `epoll_wait` reports, and for a descriptor taken
up the answers of the calls made on it, the memory malloc returns, and whether
`epoll_ctl` succeeds.  Answers to calls that are not made are ignored, and a call
uses up the answers given for it.
-/

namespace KvServer.Server5204

open Transfer

/-- The `Buffer` objects: the next to be made, those that exist, and every delete
in order. -/
structure Heap where
  next : Nat
  live : Finset Nat
  deleted : List Nat

/-- `new Buffer`. -/
def Heap.new (heap : Heap) : Nat × Heap :=
  (heap.next, { heap with next := heap.next + 1, live := insert heap.next heap.live })

/-- `delete` of a buffer. -/
def Heap.delete (heap : Heap) (id : Nat) : Heap :=
  { heap with live := heap.live.erase id, deleted := heap.deleted ++ [id] }

/-- The answer to an `accept`. -/
inductive AcceptAnswer where
  | socket (fd : Nat)
  | fail (errno : Errno)

/-- What the environment decides when a descriptor is taken up. -/
structure Io where
  accepts : List AcceptAnswer
  reads : List (ReadAnswer Byte)
  writes : List WriteAnswer
  /-- `epoll_ctl` succeeds. -/
  ctl : Bool
  /-- What malloc returns for the input buffer. -/
  buf : Memory Byte
  /-- What malloc returns for `resp_msgs`. -/
  resp : Memory Byte

inductive Event where
  /-- `epoll_wait` returns, with nothing when it was interrupted. -/
  | wait (ready : List EpollReady)
  /-- `epoll_wait` fails. -/
  | waitFailed
  /-- The next ready descriptor is taken up. -/
  | handle (io : Io)

inductive Status where
  | running
  /-- `exit(1)` in the packet processor. -/
  | exited
  /-- `main_loop` returned. -/
  | returned
deriving DecidableEq, Repr

/-- `class NetworkServer`, the store, and what the two act on.  `ready` is the rest of
the ready events. -/
structure NetworkServer (σ : Type) where
  fdes : Fdevents
  links : List Link
  conn_count : Int
  store : σ
  heap : Heap
  openFds : Finset Nat
  ready : List Nat
  status : Status

/-! ## `req_recv` -/

/-- What the loop over the messages of a buffer did. -/
structure Processed (σ : Type) where
  windows : List SendMessage
  store : σ
  exited : Bool

section

variable {σ : Type} [CuckoohashMap σ Key Value]

/-- `kvstore_process_packet` on `num_msgs` messages from `p` on, each in place. -/
def processMsgs (store : σ) (mem : Memory Byte) (p : Int) : Nat → Processed σ
  | 0 => ⟨[], store, false⟩
  | n + 1 =>
      let send := SendMessage.ofBytes (mem.slice p KVSTORE_CONTENT_LEN)
      match kvstoreProcessPacket store send with
      | none => ⟨[send], store, true⟩
      | some (_, buf, store) =>
          let r := processMsgs store (mem.blit p buf.bytes) (p + KVSTORE_CONTENT_LEN) n
          { r with windows := send :: r.windows }

/-- `uint16_t num_msgs` -/
def numMsgs (msg : Buffer) : Nat := msg.size.toNat / KVSTORE_CONTENT_LEN % 65536

/-- The loop of `req_recv` over its buffer. -/
def processBuffer (store : σ) (msg : Buffer) : Processed σ :=
  processMsgs store msg.buf msg.data (numMsgs msg)

/-- The response buffer of `req_recv`: the memory malloc returned for `resp_msgs`. -/
def responseBuffer (id : Nat) (resp : Memory Byte) (msg : Buffer) : Buffer :=
  Buffer.ofPtr id resp (KVSTORE_CONTENT_LEN * numMsgs msg)

/-- `mark_error` after a `msg_read` that returned NULL. -/
@[simps] def Link.readNull (conn : Link) (reads : List (ReadAnswer Byte)) : Link :=
  { conn with
    error_ := true
    log := { conn.log with reads := conn.log.reads ++ [reads] } }

/-- A `msg_read` that returned a buffer with the messages `windows`. -/
@[simps] def Link.readMsgs (conn : Link) (reads : List (ReadAnswer Byte))
    (windows : List SendMessage) : Link :=
  { conn with log := { conn.log with
      reads := conn.log.reads ++ [reads]
      windows := conn.log.windows ++ windows } }

/-- `omsg_q.push_back(rsp)` -/
@[simps] def Link.push (conn : Link) (rsp : Buffer) : Link :=
  { conn with
    omsg_q := conn.omsg_q ++ [rsp]
    log := { conn.log with queued := conn.log.queued ++ rsp.content } }

/-- `req_recv` from the buffer on: every message is processed, and one response
buffer is queued. -/
def answerMsgs (s : NetworkServer σ) (i : Nat) (conn : Link) (io : Io) (msg : Buffer) :
    NetworkServer σ :=
  let p := processBuffer s.store msg
  let conn := conn.readMsgs io.reads p.windows
  if p.exited then
    { s with
      links := s.links.set i conn
      store := p.store
      status := .exited }
  else
    let (id, heap) := s.heap.new
    { s with
      links := s.links.set i (conn.push (responseBuffer id io.resp msg))
      store := p.store
      heap := heap
      fdes := (s.fdes.set io.ctl conn.sock .OUT 1 (some i)).2 }

/-- `req_recv` on the link `conn` at index `i`. -/
def reqRecv (s : NetworkServer σ) (i : Nat) (conn : Link) (io : Io) :
    Option (NetworkServer σ) :=
  let (id, heap) := s.heap.new
  let r := msgRead conn.noblock_ id io.buf io.reads
  let s := { s with heap := heap }
  match r.ending, r.rest with
  | .null, [] =>
      some { s with
        links := s.links.set i (conn.readNull io.reads)
        fdes := (s.fdes.del io.ctl conn.sock).2 }
  | .returned, [] => some (answerMsgs s i conn io r.msg)
  | _, _ => none

/-! ## `rsp_send` -/

/-- The front of the queue written with the value `len`, popped and deleted. -/
@[simps] def Link.sent (conn : Link) (omsg_q : List Buffer) (writes : List WriteAnswer) (len : Int)
    (wire : List Byte) : Link :=
  { conn with
    omsg_q := omsg_q
    error_ := conn.error_ || len ≤ 0
    log := { conn.log with
      writes := conn.log.writes ++ [writes]
      wire := conn.log.wire ++ wire } }

/-- `rsp_send` on the link `conn` at index `i`. -/
def rspSend (s : NetworkServer σ) (i : Nat) (conn : Link) (io : Io) :
    Option (NetworkServer σ) :=
  match conn.omsg_q with
  | [] => some { s with fdes := (s.fdes.clr io.ctl conn.sock .OUT).2 }
  | smsg :: omsg_q =>
      let w := msgWrite conn.noblock_ smsg io.writes
      match w.len, w.rest with
      | some len, [] =>
          some { s with
            links := s.links.set i (conn.sent omsg_q io.writes len w.wire)
            heap := s.heap.delete smsg.id }
      | _, _ => none

/-! ## The main loop -/

/-- `Link::accept` up to the socket: `none` inside is a NULL link, and the outer
`none` says that the call has not returned. -/
def acceptLoop : List AcceptAnswer → Option (Option Nat)
  | [] => none
  | .socket fd :: _ => some (some fd)
  | .fail e :: rest => if e = EINTR then acceptLoop rest else some none

/-- A new link on `fd`, with its two buffers, after `noblock()`. -/
@[simps] def Link.ofSocket (fd input output : Nat) (noblock_ : Bool) : Link where
  sock := fd
  noblock_ := noblock_
  error_ := false
  input := input
  output := output
  omsg_q := []
  log := ⟨[], [], [], [], []⟩

/-- The branch of `main_loop` for `client_conn`.  The kernel does not hand out a
descriptor that is open. -/
def acceptConn (s : NetworkServer σ) (io : Io) : Option (NetworkServer σ) :=
  match acceptLoop io.accepts with
  | none => none
  | some none => some s
  | some (some fd) =>
      if fd ∈ s.openFds then none
      else
        let (input, heap) := s.heap.new
        let (output, heap) := heap.new
        some { s with
          links := s.links ++ [Link.ofSocket fd input output true]
          heap := heap
          openFds := insert fd s.openFds
          conn_count := s.conn_count + 1
          fdes := (s.fdes.set io.ctl fd .IN 1 (some s.links.length)).2 }

/-- The link of a ready descriptor, when it is not in error. -/
def working (s : NetworkServer σ) (fde : Fdevent) : Option (Nat × Link) :=
  fde.ptr.bind fun i => (s.links[i]?).bind fun conn =>
    if conn.error_ then none else some (i, conn)

/-- `NetworkServer::recv` -/
def recv (s : NetworkServer σ) (fde : Fdevent) (io : Io) : Option (NetworkServer σ) :=
  match working s fde with
  | none => some s
  | some (i, conn) => reqRecv s i conn io

/-- `NetworkServer::send` -/
def send (s : NetworkServer σ) (fde : Fdevent) (io : Io) : Option (NetworkServer σ) :=
  match working s fde with
  | none => some s
  | some (i, conn) => rspSend s i conn io

/-- The body of the loop over the ready events. -/
def handle (s : NetworkServer σ) (fd : Nat) (io : Io) : Option (NetworkServer σ) :=
  let fde := s.fdes.entry fd
  if fde.ptr = some 0 then acceptConn s io
  else if .IN ∈ fde.events then recv s fde io
  else if .OUT ∈ fde.events then send s fde io
  else some s

/-- `epoll_wait` reports registered descriptors, and what they are registered for. -/
def reported (epoll : Nat → Option (Finset Flag)) (r : EpollReady) : Bool :=
  match epoll r.fd with
  | none => false
  | some flags => (r.epollin → .IN ∈ flags) ∧ (r.epollout → .OUT ∈ flags) ∧ r.epollpri = false

/-- One step of the server. -/
def NetworkServer.step (s : NetworkServer σ) : Event → Option (NetworkServer σ)
  | .wait ready =>
      if s.status = .running ∧ s.ready = [] ∧ (ready.map EpollReady.fd).Nodup ∧
          ready.all (reported s.fdes.epoll) then
        some { s with fdes := s.fdes.wait ready, ready := ready.map EpollReady.fd }
      else none
  | .waitFailed =>
      if s.status = .running ∧ s.ready = [] then some { s with status := .returned } else none
  | .handle io =>
      if s.status = .running then
        match s.ready with
        | [] => none
        | fd :: ready => handle { s with ready := ready } fd io
      else none

end

/-- The server. -/
def networkServer (σ : Type) [CuckoohashMap σ Key Value] :
    Machine (NetworkServer σ) Event where
  step := NetworkServer.step

/-- The server at the start of the loop: the listening socket is subscribed. -/
def NetworkServer.start {σ : Type} (listener : Nat) (store : σ) : NetworkServer σ where
  fdes := (Fdevents.set ⟨[], fun _ => none⟩ true listener .IN 0 (some 0)).2
  links := [Link.ofSocket listener 0 1 false]
  conn_count := 0
  store := store
  heap := ⟨2, {0, 1}, []⟩
  openFds := {listener}
  ready := []
  status := .running

/-! ## A run with one connection -/

/-- The calls on a descriptor, when `epoll_ctl` succeeds and malloc returns zeros. -/
def Io.ofCalls (accepts : List AcceptAnswer) (reads : List (ReadAnswer Byte))
    (writes : List WriteAnswer) : Io where
  accepts := accepts
  reads := reads
  writes := writes
  ctl := true
  buf := fun _ => 0
  resp := fun _ => 0

/-- Listener 3 accepts socket 7. -/
def connect : List Event :=
  [.wait [⟨3, true, false, false, false, false⟩], .handle (.ofCalls [.socket 7] [] [])]

/-- Socket 7 is readable. -/
def readable (reads : List (ReadAnswer Byte)) : List Event :=
  [.wait [⟨7, true, false, false, false, false⟩], .handle (.ofCalls [] reads [])]

/-- Socket 7 is writable. -/
def writable (writes : List WriteAnswer) : List Event :=
  [.wait [⟨7, false, false, true, false, false⟩], .handle (.ofCalls [] [] writes)]

end KvServer.Server5204
