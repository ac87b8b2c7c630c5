import KvServer.Base.CellMachine
import KvServer.Store.Cuckoo

/-!
# The packet processor

`kvstoreProcessPacket` is `kvstore_process_packet`: a `switch` on the operation
byte that calls one method of the store and then writes the status over the
operation byte, in place.  A byte that names no operation prints a message and
ends the process with `exit(1)`, which is `none` here.

Over it stands the abstract view of the store.  Keys do not know of each other:
a request is an action on the cell of its key (`actOn`), where a cell holds a
value or nothing.  `storeMachine` says that the processor over any map with
libcuckoo's semantics is a machine of such cells, so what is proved about cell
machines holds of the server's store.
-/

namespace KvServer

variable {σ : Type} [CuckoohashMap σ Key Value]

/-- `result ? OK : ERROR`, the byte written over the operation. -/
def statusOf (result : Bool) : Byte :=
  if result then StatusCode.OK.code else StatusCode.ERROR.code

/-- The cases of the `switch` in `kvstore_process_packet`: the result, the value
bytes of the buffer and the store after the call. -/
def switchOperation (store : σ) (send : SendMessage) : Operation → Bool × Value × σ
  | .GET =>
      let (result, value) := CuckooKVStore.find store send.key send.value
      (result, value, store)
  | .PUT =>
      let (result, store) := CuckooKVStore.insert store send.key send.value
      (result, send.value, store)
  | .DELETE =>
      let (result, store) := CuckooKVStore.erase store send.key
      (result, send.value, store)
  | .UPDATE =>
      let (result, store) := CuckooKVStore.update store send.key send.value
      (result, send.value, store)

/-- `kvstore_process_packet`.  The buffer is a request when the call starts and
the reply when it returns.  `none` is `exit(1)`. -/
def kvstoreProcessPacket (store : σ) (send : SendMessage) : Option (Bool × SendMessage × σ) :=
  (Operation.ofByte? send.operation).map fun op =>
    let (result, value, store) := switchOperation store send op
    (result, { send with operation := statusOf result, value := value }, store)

/-- A request with one of the four operation codes. -/
def SendMessage.Valid (send : SendMessage) : Prop :=
  (Operation.ofByte? send.operation).isSome

instance (send : SendMessage) : Decidable send.Valid :=
  inferInstanceAs (Decidable (_ = true))

/-- A valid request. -/
abbrev Request := { send : SendMessage // send.Valid }

/-! ## One cell -/

/-- The reply to a request: its own bytes with the status in front and `value`
behind. -/
def SendMessage.reply (send : SendMessage) (result : Bool) (value : Value) : ResponseMessage where
  status_code := statusOf result
  keepalive := send.keepalive
  key := send.key
  value := value

/-- What an operation does to the cell of its key: the result, the value sent back
and the new content.  `value` is the value in the request. -/
def Operation.onCell (value : Value) : Operation → Option Value → Bool × Value × Option Value
  | .GET, some v => (true, v, some v)
  | .GET, none => (false, value, none)
  | .PUT, some v => (false, value, some v)
  | .PUT, none => (true, value, some value)
  | .DELETE, some _ => (true, value, none)
  | .DELETE, none => (false, value, none)
  | .UPDATE, some _ => (true, value, some value)
  | .UPDATE, none => (false, value, none)

/-- What a request does to the cell of its key. -/
def actOn (send : SendMessage) (c : Option Value) : Option (ResponseMessage × Option Value) :=
  (Operation.ofByte? send.operation).map fun op =>
    let (result, value, c') := op.onCell send.value c
    (send.reply result value, c')

/-- What a request that a cell takes did to it. -/
theorem actOn_eq_some {send : SendMessage} {c c' : Option Value} {reply : ResponseMessage}
    (h : actOn send c = some (reply, c')) :
    ∃ op result value, Operation.ofByte? send.operation = some op ∧
      op.onCell send.value c = (result, value, c') ∧ reply = send.reply result value := by
  obtain ⟨op, hop, heq⟩ := Option.map_eq_some_iff.mp h
  rcases hc : op.onCell send.value c with ⟨result, value, d⟩
  rw [hc] at heq
  cases heq
  exact ⟨op, result, value, hop, hc, rfl⟩

/-- The processor as a step: the reply read from the rewritten buffer. -/
def processStep (store : σ) (send : SendMessage) : Option (ResponseMessage × σ) :=
  (kvstoreProcessPacket store send).map fun (_, buf, store) => (buf.toResponse, store)

theorem processStep_eq (store : σ) (send : SendMessage) :
    processStep store send = (Operation.ofByte? send.operation).map fun op =>
      let (result, value, store) := switchOperation store send op
      (send.reply result value, store) := by
  rw [processStep, kvstoreProcessPacket, Option.map_map]
  rfl

/-! ## The store is a machine of cells -/

/-- An operation does to the store what it does to the cell of the key. -/
theorem switchOperation_onCell (store : σ) (send : SendMessage) (op : Operation)
    {result : Bool} {value : Value} {c : Option Value}
    (hc : op.onCell send.value (CuckoohashMap.find store send.key) = (result, value, c)) :
    ∃ store', switchOperation store send op = (result, value, store') ∧
      CuckoohashMap.find store' send.key = c ∧
      ∀ k, k ≠ send.key → CuckoohashMap.find store' k = CuckoohashMap.find store k := by
  cases op with
  | GET =>
      refine ⟨store, ?_, ?_, fun _ _ => rfl⟩
      · cases hf : CuckoohashMap.find store send.key with
        | none => rw [hf] at hc; cases hc; simp [switchOperation, CuckooKVStore.find, hf]
        | some v => rw [hf] at hc; cases hc; simp [switchOperation, CuckooKVStore.find, hf]
      · cases hf : CuckoohashMap.find store send.key with
        | none => rw [hf] at hc; cases hc; rfl
        | some v => rw [hf] at hc; cases hc; rfl
  | PUT =>
      refine ⟨(CuckoohashMap.insert store send.key send.value).2, ?_⟩
      cases hf : CuckoohashMap.find store send.key with
      | none =>
          rw [hf] at hc
          cases hc
          obtain ⟨hres, hkey, hframe⟩ := CuckoohashMap.insert_absent send.value hf
          exact ⟨by simp [switchOperation, CuckooKVStore.insert, hres], hkey, hframe⟩
      | some v =>
          rw [hf] at hc
          cases hc
          obtain ⟨hres, hframe⟩ := CuckoohashMap.insert_present send.value hf
          exact ⟨by simp [switchOperation, CuckooKVStore.insert, hres], (hframe _).trans hf,
            fun k _ => hframe k⟩
  | DELETE =>
      refine ⟨(CuckoohashMap.erase store send.key).2, ?_⟩
      cases hf : CuckoohashMap.find store send.key with
      | none =>
          rw [hf] at hc
          cases hc
          obtain ⟨hres, hframe⟩ := CuckoohashMap.erase_absent hf
          exact ⟨by simp [switchOperation, CuckooKVStore.erase, hres], (hframe _).trans hf,
            fun k _ => hframe k⟩
      | some v =>
          rw [hf] at hc
          cases hc
          obtain ⟨hres, hkey, hframe⟩ := CuckoohashMap.erase_present hf
          exact ⟨by simp [switchOperation, CuckooKVStore.erase, hres], hkey, hframe⟩
  | UPDATE =>
      refine ⟨(CuckoohashMap.update store send.key send.value).2, ?_⟩
      cases hf : CuckoohashMap.find store send.key with
      | none =>
          rw [hf] at hc
          cases hc
          obtain ⟨hres, hframe⟩ := CuckoohashMap.update_absent send.value hf
          exact ⟨by simp [switchOperation, CuckooKVStore.update, hres], (hframe _).trans hf,
            fun k _ => hframe k⟩
      | some v =>
          rw [hf] at hc
          cases hc
          obtain ⟨hres, hkey, hframe⟩ := CuckoohashMap.update_present send.value hf
          exact ⟨by simp [switchOperation, CuckooKVStore.update, hres], hkey, hframe⟩

/-- The packet processor over a map with libcuckoo's semantics. -/
def storeMachine (σ : Type) [CuckoohashMap σ Key Value] :
    CellMachine σ SendMessage ResponseMessage Key (Option Value) where
  step := processStep
  key := SendMessage.key
  cell := CuckoohashMap.find
  act := actOn
  step_none := by
    intro store send h
    have hop : Operation.ofByte? send.operation = none := Option.map_eq_none_iff.mp h
    rw [processStep_eq, hop, Option.map_none]
  step_some := by
    intro store send reply c h
    obtain ⟨op, result, value, hop, hc, rfl⟩ := actOn_eq_some h
    obtain ⟨store', hswitch, hcell, hframe⟩ := switchOperation_onCell store send op hc
    refine ⟨store', ?_, hcell, hframe⟩
    rw [processStep_eq, hop, Option.map_some, hswitch]

@[simp] theorem storeMachine_key (send : SendMessage) : (storeMachine σ).key send = send.key := rfl

@[simp] theorem storeMachine_cell (store : σ) (k : Key) :
    (storeMachine σ).cell store k = CuckoohashMap.find store k := rfl

@[simp] theorem storeMachine_act (send : SendMessage) (c : Option Value) :
    (storeMachine σ).act send c = actOn send c := rfl

/-- Process a list of packets in order: the replies and the store.  `none` is
`exit(1)` on the way. -/
def processPackets (store : σ) (sends : List SendMessage) : Option (List ResponseMessage × σ) :=
  (storeMachine σ).serve store sends

/-- Every cell takes every valid request. -/
theorem Request.total (r : Request) : (storeMachine σ).Total r.1 := by
  intro c
  show ((Operation.ofByte? r.1.operation).map _).isSome
  rw [Option.isSome_map]
  exact r.2

end KvServer
