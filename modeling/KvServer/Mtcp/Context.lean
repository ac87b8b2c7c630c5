import Mathlib.Data.Finset.Basic
import KvServer.Base.Transfer
import KvServer.Store.Process

/-!
# The context of an mTCP server thread

A thread acts on three things: the sockets registered in its epoll set, the store
it shares with the other threads, and the clients.  `ThreadContext` holds the
first two and a log of what happened on the third.

`Extends` says that a piece of code did exactly the actions it logged.  The epoll
set and the store after it are those before it with the actions replayed, so
what holds of every run can be read off the log alone.
-/

namespace KvServer.Mtcp

open Transfer

/-- What a thread does, as far as clients and the store can see it. -/
inductive Action where
  /-- An event of a socket is taken up. -/
  | event (sockid : Nat)
  /-- `mtcp_accept` returned the socket. -/
  | accept (sockid : Nat)
  /-- A request of the socket is handed to `kvstore_process_packet`. -/
  | packet (sockid : Nat) (send : SendMessage)
  /-- The socket took these bytes. -/
  | write (sockid : Nat) (bytes : List Byte)
  /-- `mtcp_close` is called on the socket. -/
  | close (sockid : Nat)
deriving DecidableEq, Repr

/-- `struct thread_context` with what the calls through it act on. -/
structure ThreadContext (σ : Type) where
  epoll : Finset Nat
  errno : Errno
  store : σ
  log : List Action

variable {σ : Type}

/-- The context after `CreateListeningSocket`: only the listener is registered. -/
def ThreadContext.start (listener : Nat) (store : σ) : ThreadContext σ where
  epoll := {listener}
  errno := 0
  store := store
  log := []

/-- The context after one more action. -/
def ThreadContext.did (ctx : ThreadContext σ) (a : Action) : ThreadContext σ :=
  { ctx with log := ctx.log ++ [a] }

/-- `CloseConnection`. -/
def closeConnection (ctx : ThreadContext σ) (sockid : Nat) : ThreadContext σ :=
  { ctx.did (.close sockid) with epoll := ctx.epoll.erase sockid }

/-- `MAX_FLOW_NUM`. -/
def MAX_FLOW_NUM : Nat := 10000

/-- `AcceptConnection` after `mtcp_accept` returned `c ≥ 0`.  A socket number from
`MAX_FLOW_NUM` on is given up without being closed.  The flag says whether the
loop around it goes on. -/
def acceptConnection (ctx : ThreadContext σ) (c : Nat) : Bool × ThreadContext σ :=
  let ctx := ctx.did (.accept c)
  if MAX_FLOW_NUM ≤ c then (false, ctx)
  else (true, { ctx with epoll := insert c ctx.epoll })

/-! ## Reading the log -/

/-- The requests handed to the packet processor. -/
def packets (log : List Action) : List SendMessage :=
  log.filterMap fun
    | .packet _ send => some send
    | _ => none

/-- The requests the packet processor completed: the others end the process. -/
def completed (log : List Action) : List SendMessage :=
  (packets log).filter fun send => send.Valid

/-- The requests of one socket among them. -/
def packetsOf (sockid : Nat) (log : List Action) : List SendMessage :=
  log.filterMap fun
    | .packet c send => if c = sockid then some send else none
    | _ => none

/-- The bytes written, to whatever socket. -/
def written (log : List Action) : List Byte :=
  log.flatMap fun
    | .write _ bytes => bytes
    | _ => []

/-- The bytes written to one socket. -/
def writtenTo (sockid : Nat) (log : List Action) : List Byte :=
  log.flatMap fun
    | .write c bytes => if c = sockid then bytes else []
    | _ => []

/-- The sockets closed, in order. -/
def closes (log : List Action) : List Nat :=
  log.filterMap fun
    | .close sockid => some sockid
    | _ => none

/-- What an action does to the registered sockets. -/
def Action.register (epoll : Finset Nat) : Action → Finset Nat
  | .accept c => if MAX_FLOW_NUM ≤ c then epoll else insert c epoll
  | .close sockid => epoll.erase sockid
  | _ => epoll

/-- The registered sockets after a list of actions. -/
def registered (epoll : Finset Nat) (log : List Action) : Finset Nat :=
  log.foldl Action.register epoll

@[simp] theorem packets_append (a b : List Action) : packets (a ++ b) = packets a ++ packets b :=
  List.filterMap_append

@[simp] theorem completed_append (a b : List Action) :
    completed (a ++ b) = completed a ++ completed b := by
  simp [completed]

@[simp] theorem packetsOf_append (sockid : Nat) (a b : List Action) :
    packetsOf sockid (a ++ b) = packetsOf sockid a ++ packetsOf sockid b :=
  List.filterMap_append

@[simp] theorem written_append (a b : List Action) : written (a ++ b) = written a ++ written b :=
  List.flatMap_append

@[simp] theorem writtenTo_append (sockid : Nat) (a b : List Action) :
    writtenTo sockid (a ++ b) = writtenTo sockid a ++ writtenTo sockid b :=
  List.flatMap_append

@[simp] theorem closes_append (a b : List Action) : closes (a ++ b) = closes a ++ closes b :=
  List.filterMap_append

@[simp] theorem registered_append (epoll : Finset Nat) (a b : List Action) :
    registered epoll (a ++ b) = registered (registered epoll a) b :=
  List.foldl_append

/-! ## Writing piece by piece -/

/-- The log of the calls of `mtcp_write` that took the pieces. -/
def writeEach (sockid : Nat) (pieces : List (List Byte)) : List Action :=
  pieces.map (.write sockid)

section Writes

variable (sockid : Nat) (pieces : List (List Byte))

theorem writeEach_cons (piece : List Byte) :
    writeEach sockid (piece :: pieces) = .write sockid piece :: writeEach sockid pieces := rfl

@[simp] theorem packets_writeEach : packets (writeEach sockid pieces) = [] := by
  induction pieces with
  | nil => rfl
  | cons piece pieces ih => exact ih

@[simp] theorem packetsOf_writeEach (c : Nat) : packetsOf c (writeEach sockid pieces) = [] := by
  induction pieces with
  | nil => rfl
  | cons piece pieces ih => exact ih

@[simp] theorem completed_writeEach : completed (writeEach sockid pieces) = [] := by
  rw [completed, packets_writeEach, List.filter_nil]

@[simp] theorem closes_writeEach : closes (writeEach sockid pieces) = [] := by
  induction pieces with
  | nil => rfl
  | cons piece pieces ih => exact ih

@[simp] theorem registered_writeEach (epoll : Finset Nat) :
    registered epoll (writeEach sockid pieces) = epoll := by
  induction pieces with
  | nil => rfl
  | cons piece pieces ih => exact ih

@[simp] theorem written_writeEach : written (writeEach sockid pieces) = pieces.flatten := by
  induction pieces with
  | nil => rfl
  | cons piece pieces ih => exact congrArg (piece ++ ·) ih

@[simp] theorem writtenTo_writeEach :
    writtenTo sockid (writeEach sockid pieces) = pieces.flatten := by
  induction pieces with
  | nil => rfl
  | cons piece pieces ih =>
      rw [List.flatten_cons, ← ih, writeEach_cons]
      simp [writtenTo]

end Writes

/-- Between the two contexts the socket took the pieces.  But for `errno` nothing else
changed. -/
structure Wrote (sockid : Nat) (ctx ctx' : ThreadContext σ) (pieces : List (List Byte)) :
    Prop where
  log : ctx'.log = ctx.log ++ writeEach sockid pieces
  epoll : ctx'.epoll = ctx.epoll
  store : ctx'.store = ctx.store

theorem Wrote.nil (sockid : Nat) (ctx : ThreadContext σ) (e : Errno) :
    Wrote sockid ctx { ctx with errno := e } [] :=
  ⟨(List.append_nil _).symm, rfl, rfl⟩

/-- A piece more in front. -/
theorem Wrote.cons {sockid : Nat} {ctx ctx' : ThreadContext σ} {piece : List Byte}
    {pieces : List (List Byte)} (h : Wrote sockid (ctx.did (.write sockid piece)) ctx' pieces) :
    Wrote sockid ctx ctx' (piece :: pieces) := by
  refine ⟨?_, h.epoll, h.store⟩
  rw [h.log, ThreadContext.did, List.append_assoc]
  rfl

/-- Another `errno` before makes no difference. -/
theorem Wrote.of_errno {sockid : Nat} {ctx ctx' : ThreadContext σ} {e : Errno}
    {pieces : List (List Byte)} (h : Wrote sockid { ctx with errno := e } ctx' pieces) :
    Wrote sockid ctx ctx' pieces :=
  ⟨h.log, h.epoll, h.store⟩

/-! ## Doing what the log says -/

variable [CuckoohashMap σ Key Value]

/-- `ctx'` is `ctx` after the actions `added`. -/
structure Extends (ctx ctx' : ThreadContext σ) (added : List Action) : Prop where
  log : ctx'.log = ctx.log ++ added
  epoll : ctx'.epoll = registered ctx.epoll added
  store : ∃ replies, processPackets ctx.store (completed added) = some (replies, ctx'.store)

namespace Extends

variable {ctx ctx' ctx'' : ThreadContext σ} {added added' : List Action}

theorem trans (h : Extends ctx ctx' added) (h' : Extends ctx' ctx'' added') :
    Extends ctx ctx'' (added ++ added') := by
  obtain ⟨replies, hs⟩ := h.store
  obtain ⟨replies', hs'⟩ := h'.store
  refine ⟨?_, ?_, replies ++ replies', ?_⟩
  · rw [h'.log, h.log, List.append_assoc]
  · rw [h'.epoll, h.epoll, registered_append]
  · rw [completed_append]
    exact (storeMachine σ).serve_append hs hs'

/-- Only `errno` changed. -/
theorem errno (ctx : ThreadContext σ) (e : Errno) : Extends ctx { ctx with errno := e } [] :=
  ⟨(List.append_nil _).symm, rfl, [], rfl⟩

theorem event (ctx : ThreadContext σ) (sockid : Nat) :
    Extends ctx (ctx.did (.event sockid)) [.event sockid] :=
  ⟨rfl, rfl, [], rfl⟩

theorem wrote {sockid : Nat} {pieces : List (List Byte)} (h : Wrote sockid ctx ctx' pieces) :
    Extends ctx ctx' (writeEach sockid pieces) := by
  refine ⟨h.log, ?_, [], ?_⟩
  · rw [registered_writeEach, h.epoll]
  · rw [completed_writeEach, h.store]
    rfl

theorem close (ctx : ThreadContext σ) (sockid : Nat) :
    Extends ctx (closeConnection ctx sockid) [.close sockid] :=
  ⟨rfl, rfl, [], rfl⟩

theorem accept (ctx : ThreadContext σ) (c : Nat) :
    Extends ctx (acceptConnection ctx c).2 [.accept c] := by
  by_cases hc : MAX_FLOW_NUM ≤ c
  · simp only [acceptConnection, if_pos hc]
    refine ⟨rfl, ?_, [], rfl⟩
    simp only [registered, List.foldl_cons, List.foldl_nil, Action.register, if_pos hc]
    rfl
  · simp only [acceptConnection, if_neg hc]
    refine ⟨rfl, ?_, [], rfl⟩
    simp only [registered, List.foldl_cons, List.foldl_nil, Action.register, if_neg hc]
    rfl

/-- A request the processor takes. -/
theorem packet {sockid : Nat} {send buf : SendMessage} {result : Bool} {store : σ}
    (hp : kvstoreProcessPacket ctx.store send = some (result, buf, store)) :
    Extends ctx { ctx.did (.packet sockid send) with store := store } [.packet sockid send] := by
  have hvalid : send.Valid := by
    obtain ⟨op, hop, -⟩ := Option.map_eq_some_iff.mp hp
    rw [SendMessage.Valid, hop]
    rfl
  refine ⟨rfl, rfl, [buf.toResponse], ?_⟩
  have hstep : (storeMachine σ).step ctx.store send = some (buf.toResponse, store) := by
    show processStep ctx.store send = _
    rw [processStep, hp]
    rfl
  have hcompleted : completed [.packet sockid send] = [send] := by
    simp [completed, packets, hvalid]
  rw [hcompleted]
  exact (storeMachine σ).serve_cons hstep rfl

/-- A request the processor does not take changes nothing. -/
theorem badPacket {sockid : Nat} {send : SendMessage}
    (hp : kvstoreProcessPacket ctx.store send = none) :
    Extends ctx (ctx.did (.packet sockid send)) [.packet sockid send] := by
  have hvalid : ¬ send.Valid := by
    rw [SendMessage.Valid, Option.map_eq_none_iff.mp hp]
    exact Bool.false_ne_true
  refine ⟨rfl, rfl, [], ?_⟩
  have hcompleted : completed [.packet sockid send] = [] := by
    simp [completed, packets, hvalid]
  rw [hcompleted]
  rfl

end Extends

end KvServer.Mtcp
