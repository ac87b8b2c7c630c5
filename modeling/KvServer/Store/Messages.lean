import Mathlib.Data.List.GetD
import Mathlib.Tactic.Common

/-!
# Messages

A request and its reply are 50 bytes each.  The two C structures
`send_message` and `response_message` hold only `char` fields, so they have no
padding and lie in memory in field order: one byte for the operation or the
status, one for the keepalive flag, 16 for the key and 32 for the value.  The
server casts the request buffer to a `send_message`, rewrites it in place and
sends the same 50 bytes back.

`SendMessage.ofBytes` is that cast and `SendMessage.bytes` the memory it came
from.  They are inverse to each other on 50 bytes, so a 50-byte buffer and a
structure are the same data and the store is modelled on structures.
-/

namespace KvServer

/-- A `char` as the server sees it: eight bits. -/
abbrev Byte := UInt8

/-- A property of each byte, checked one by one. -/
theorem forall_byte {P : Byte → Prop} [DecidablePred P]
    (h : (List.range 256).all (fun n => P (UInt8.ofNat n)) = true) (c : Byte) : P c := by
  have hc := List.all_eq_true.mp h c.toNat (List.mem_range.mpr c.toNat_lt)
  rw [UInt8.ofNat_toNat] at hc
  exact of_decide_eq_true hc

/-- The value of a `char` after integer promotion.  `char` is signed on the
target. -/
def Byte.toInt (c : Byte) : Int := c.toBitVec.toInt

theorem Byte.toInt_eq_zero {c : Byte} : Byte.toInt c = 0 ↔ c = 0 := by
  constructor
  · intro h
    rw [← UInt8.toBitVec_inj]
    exact BitVec.toInt_inj.mp (h.trans BitVec.toInt_zero.symm)
  · rintro rfl
    rfl

/-- Half of the bytes are negative. -/
theorem Byte.toInt_neg_iff {c : Byte} : Byte.toInt c < 0 ↔ 128 ≤ c := by
  rw [Byte.toInt, BitVec.toInt_neg_iff, UInt8.le_iff_toNat_le]
  show 256 ≤ 2 * c.toNat ↔ 128 ≤ c.toNat
  omega

/-- `KVStore::Key`. -/
abbrev Key := Vector Byte 16

/-- `KVStore::Value`. -/
abbrev Value := Vector Byte 32

/-! ## Operation and status codes -/

/-- The enumeration `Operation`. -/
inductive Operation where
  | GET
  | PUT
  | DELETE
  | UPDATE
deriving DecidableEq, Repr

/-- The value of the enumerator. -/
def Operation.code : Operation → Byte
  | .GET => 0
  | .PUT => 1
  | .DELETE => 2
  | .UPDATE => 3

/-- The enumerator a byte names, if any.  The `switch` of the packet processor
reaches its `default` on every other byte. -/
def Operation.ofByte? (b : Byte) : Option Operation :=
  if b = 0 then some .GET
  else if b = 1 then some .PUT
  else if b = 2 then some .DELETE
  else if b = 3 then some .UPDATE
  else none

@[simp] theorem Operation.ofByte?_code (op : Operation) :
    Operation.ofByte? op.code = some op := by
  cases op <;> rfl

theorem Operation.ofByte?_eq_some {b : Byte} {op : Operation}
    (h : Operation.ofByte? b = some op) : b = op.code := by
  unfold Operation.ofByte? at h
  split at h
  · cases h; assumption
  · split at h
    · cases h; assumption
    · split at h
      · cases h; assumption
      · split at h
        · cases h; assumption
        · cases h

/-- The enumerators of `StatusCode` the server answers with. -/
inductive StatusCode where
  | OK
  | ERROR
deriving DecidableEq, Repr

/-- The value of the enumerator. -/
def StatusCode.code : StatusCode → Byte
  | .OK => 0
  | .ERROR => 1

theorem StatusCode.code_injective {s t : StatusCode} (h : s.code = t.code) : s = t := by
  cases s <;> cases t <;> first | rfl | exact absurd h (by decide)

/-! ## The two structures -/

/-- `struct send_message`. -/
structure SendMessage where
  operation : Byte
  keepalive : Byte
  key : Key
  value : Value
deriving DecidableEq, Repr

/-- A request with an all-zero key and value. -/
def SendMessage.blank (op : Operation) (keepalive : Byte) : SendMessage where
  operation := op.code
  keepalive := keepalive
  key := Vector.replicate 16 0
  value := Vector.replicate 32 0

/-- `struct response_message`. -/
structure ResponseMessage where
  status_code : Byte
  keepalive : Byte
  key : Key
  value : Value
deriving DecidableEq, Repr

/-- `KVSTORE_CONTENT_LEN`, the size of both structures. -/
def KVSTORE_CONTENT_LEN : Nat := 50

/-- The 50 bytes of a request in memory order. -/
def SendMessage.bytes (m : SendMessage) : List Byte :=
  m.operation :: m.keepalive :: (m.key.toList ++ m.value.toList)

/-- The 50 bytes of a reply in memory order. -/
def ResponseMessage.bytes (m : ResponseMessage) : List Byte :=
  m.status_code :: m.keepalive :: (m.key.toList ++ m.value.toList)

/-- The request buffer read as a `response_message`. -/
def SendMessage.toResponse (m : SendMessage) : ResponseMessage where
  status_code := m.operation
  keepalive := m.keepalive
  key := m.key
  value := m.value

/-- The request in a 50-byte buffer: the cast `(struct send_message *)`. -/
def SendMessage.ofBytes (buf : List Byte) : SendMessage where
  operation := buf.getD 0 0
  keepalive := buf.getD 1 0
  key := Vector.ofFn fun i => buf.getD (2 + i) 0
  value := Vector.ofFn fun i => buf.getD (18 + i) 0

/-! ## Structures and buffers are the same data -/

@[simp] theorem SendMessage.length_bytes (m : SendMessage) :
    m.bytes.length = KVSTORE_CONTENT_LEN := by
  simp [SendMessage.bytes, KVSTORE_CONTENT_LEN]

@[simp] theorem SendMessage.bytes_toResponse (m : SendMessage) :
    m.toResponse.bytes = m.bytes := rfl

theorem SendMessage.getD_bytes_key (m : SendMessage) (i : Fin 16) :
    m.bytes.getD (2 + i) 0 = m.key[i] := by
  rw [Nat.add_comm]
  simp [SendMessage.bytes, List.getElem?_append]

theorem SendMessage.getD_bytes_value (m : SendMessage) (i : Fin 32) :
    m.bytes.getD (18 + i) 0 = m.value[i] := by
  rw [show 18 + (i : Nat) = (16 + i) + 2 by omega]
  simp [SendMessage.bytes, List.getElem?_append, show ¬ 16 + (i : Nat) < 16 by omega]

@[simp] theorem SendMessage.ofBytes_bytes (m : SendMessage) :
    SendMessage.ofBytes m.bytes = m := by
  have hkey := m.getD_bytes_key
  have hvalue := m.getD_bytes_value
  obtain ⟨operation, keepalive, key, value⟩ := m
  simp only [SendMessage.ofBytes, SendMessage.mk.injEq]
  refine ⟨rfl, rfl, ?_, ?_⟩
  · apply Vector.ext
    intro i hi
    rw [Vector.getElem_ofFn]
    exact hkey ⟨i, hi⟩
  · apply Vector.ext
    intro i hi
    rw [Vector.getElem_ofFn]
    exact hvalue ⟨i, hi⟩

/-- The cast forgets nothing: a 50-byte buffer is the memory of its structure. -/
theorem SendMessage.bytes_ofBytes {buf : List Byte} (h : buf.length = KVSTORE_CONTENT_LEN) :
    (SendMessage.ofBytes buf).bytes = buf := by
  have hlen : buf.length = 50 := h
  apply List.ext_getElem
  · rw [SendMessage.length_bytes, h]
  · intro i hi hi'
    match i with
    | 0 => simp [SendMessage.bytes, SendMessage.ofBytes, hlen]
    | 1 => simp [SendMessage.bytes, SendMessage.ofBytes, hlen]
    | j + 2 =>
        simp only [SendMessage.bytes, SendMessage.ofBytes,
          List.getElem_cons_succ, List.getElem_append, Vector.getElem_toList,
          Vector.getElem_ofFn, Vector.length_toList]
        split
        · rw [List.getD_eq_getElem _ _ (by omega)]
          congr 1
          omega
        · rw [List.getD_eq_getElem _ _ (by omega)]
          congr 1
          omega

end KvServer
