import KvServer.Base.Memory
import KvServer.Client.Benchmark

/-!
# Printing messages

With `-v` the clients print what they send or receive.  The bytes of the key and of the value
are written as hexadecimal digits into arrays with room for two digits each and a `'\0'`,
and the arrays are printed.

`"%02X"` prints two digits *at least*.  Its argument is a `char`, which is promoted to `int`,
so a byte from 128 on is negative and has eight digits.  An array is big enough exactly if
no byte is (`sprintfs_holds_iff`).
-/

namespace KvServer

/-! ## Digits -/

def hexDigit (n : Nat) : Byte := UInt8.ofNat (if n < 10 then 48 + n else 55 + n)

/-- A `char` that is passed to `printf` for an `unsigned int`. -/
def promoted (c : Byte) : Nat := (Byte.toInt c % 4294967296).toNat

/-- `"%X"`, filled up with zeros to `width` digits. -/
def hexText (width n : Nat) : List Byte :=
  let digits := (List.range 8).reverse.map fun i => hexDigit (n >>> (4 * i) % 16)
  (digits.take (8 - width)).dropWhile (· = 48) ++ digits.drop (8 - width)

/-- The two digits of a byte. -/
def hexPair (c : Byte) : List Byte := [hexDigit (c.toNat / 16), hexDigit (c.toNat % 16)]

theorem hexText_eq_hexPair : ∀ c : Byte, c < 128 → hexText 2 (promoted c) = hexPair c :=
  forall_byte (by decide +kernel)

theorem length_hexText : ∀ c : Byte,
    (hexText 2 (promoted c)).length = if c < 128 then 2 else 8 :=
  forall_byte (by decide +kernel)

/-! ## Arrays of digits -/

/-- A `char` array that is being filled. -/
structure CharArray where
  mem : Memory Byte
  /-- `key_ptr` -/
  ptr : Int
  /-- One behind the last byte that has been written. -/
  high : Int

namespace CharArray

/-- `char key[16 * 2 + 1]; char *key_ptr = key;` -/
def start (mem : Memory Byte) : CharArray := ⟨mem, 0, 0⟩

/-- `key[32] = '\0'` -/
def clear (b : CharArray) (i : Nat) : CharArray :=
  { b with mem := b.mem.blit i [0], high := max b.high (i + 1) }

/-- `key_ptr += sprintf(key_ptr, "%02X", c)` -/
def sprintf (b : CharArray) (c : Byte) : CharArray :=
  let text := hexText 2 (promoted c)
  { mem := b.mem.blit b.ptr (text ++ [0])
    ptr := b.ptr + text.length
    high := max b.high (b.ptr + text.length + 1) }

/-- The loop over the bytes. -/
def sprintfs (b : CharArray) (bytes : List Byte) : CharArray := bytes.foldl sprintf b

/-- `"%s"` -/
def string (b : CharArray) : List Byte := (b.mem.slice 0 b.high.toNat).takeWhile (· ≠ 0)

/-- The array has room for what has been written: two digits for each byte, and the `'\0'`. -/
structure Holds (b : CharArray) (bytes : List Byte) : Prop where
  high : b.high ≤ 2 * bytes.length + 1
  digits : b.mem.slice 0 (2 * bytes.length) = bytes.flatMap hexPair
  terminated : b.mem (2 * bytes.length) = 0

end CharArray

/-! ## The functions -/

/-- What a function leaves behind: its arrays, and what it prints. -/
structure Printed where
  key : CharArray
  value : Option CharArray
  text : List Byte

/-- A line of the output. -/
def printfLine (name : String) (text : List Byte) : List Byte := name.toUTF8.toList ++ text ++ [10]

namespace Client

/-- `print_response_message` -/
def printResponseMessage (key value : Memory Byte) (resp : ResponseMessage) : Printed :=
  let key := (CharArray.start key).sprintfs resp.key.toList
  let value := (CharArray.start value).sprintfs resp.value.toList
  { key := key
    value := some value
    text := printfLine "status_code: 0x" (hexText 1 (promoted resp.status_code)) ++
      printfLine "key: " key.string ++ printfLine "value: " value.string }

/-- `print_send_message` -/
def printSendMessage (key value : Memory Byte) (send : SendMessage) : Printed :=
  let key := (CharArray.start key).sprintfs send.key.toList
  let value := (CharArray.start value).sprintfs send.value.toList
  { key := key
    value := some value
    text := printfLine "operation: 0x" (hexText 1 (promoted send.operation)) ++
      printfLine "key: " key.string ++ printfLine "value: " value.string }

end Client

namespace Testclient

/-- `print_response_message` -/
def printResponseMessage (key value : Memory Byte) (resp : ResponseMessage) : Printed :=
  let key := ((CharArray.start key).clear 32).sprintfs resp.key.toList
  let value := ((CharArray.start value).clear 64).sprintfs resp.value.toList
  { key := key
    value := some value
    text := printfLine "status_code: 0x" (hexText 1 (promoted resp.status_code)) ++
      printfLine "key: " key.string ++ printfLine "value: " value.string }

/-- `print_send_message`, which does not print the value. -/
def printSendMessage (key : Memory Byte) (send : SendMessage) : Printed :=
  let key := ((CharArray.start key).clear 32).sprintfs send.key.toList
  { key := key
    value := none
    text := printfLine "operation: 0x" (hexText 1 (promoted send.operation)) ++
      printfLine "key: " key.string }

end Testclient

/-! ## What the loop writes -/

namespace CharArray

/-- The digits of all bytes. -/
def text (bytes : List Byte) : List Byte := bytes.flatMap fun c => hexText 2 (promoted c)

/-- The loop writes the digits of all bytes and one `'\0'` behind them. -/
theorem sprintfs_eq (b : CharArray) {bytes : List Byte} (hne : bytes ≠ []) :
    b.sprintfs bytes =
      { mem := b.mem.blit b.ptr (text bytes ++ [0])
        ptr := b.ptr + (text bytes).length
        high := max b.high (b.ptr + (text bytes).length + 1) } := by
  induction bytes generalizing b with
  | nil => exact absurd rfl hne
  | cons c bytes ih =>
      cases bytes with
      | nil => simp [sprintfs, sprintf, text]
      | cons c' bytes =>
          have hrest := ih (b.sprintf c) (List.cons_ne_nil c' bytes)
          have htext : text (c :: c' :: bytes) = hexText 2 (promoted c) ++ text (c' :: bytes) := rfl
          have hfold : b.sprintfs (c :: c' :: bytes) = (b.sprintf c).sprintfs (c' :: bytes) := rfl
          rw [hfold, hrest, htext, List.length_append, List.append_assoc]
          simp only [sprintf, mk.injEq]
          refine ⟨Memory.blit_blit_append _ _ _ _ (by simp), by omega, by omega⟩

/-- All bytes have two digits. -/
def Ascii (bytes : List Byte) : Prop := ∀ c ∈ bytes, c < 128

theorem text_of_ascii {bytes : List Byte} (h : Ascii bytes) :
    text bytes = bytes.flatMap hexPair := by
  induction bytes with
  | nil => rfl
  | cons c bytes ih =>
      obtain ⟨hc, hrest⟩ := List.forall_mem_cons.mp h
      rw [text, List.flatMap_cons, hexText_eq_hexPair c hc, List.flatMap_cons]
      exact congrArg (hexPair c ++ ·) (ih hrest)

/-- A byte that is not ASCII has six digits too many. -/
theorem length_text (bytes : List Byte) :
    (text bytes).length = 2 * bytes.length + 6 * bytes.countP fun c => ¬ c < 128 := by
  induction bytes with
  | nil => rfl
  | cons c bytes ih =>
      rw [text] at ih ⊢
      rw [List.flatMap_cons, List.length_append, ih, length_hexText, List.countP_cons,
        List.length_cons]
      by_cases hc : c < 128
      · simp [hc]
        omega
      · simp [hc]
        omega

theorem length_text_le_iff (bytes : List Byte) :
    (text bytes).length ≤ 2 * bytes.length ↔ Ascii bytes := by
  have hcount : bytes.countP (fun c => ¬ c < 128) = 0 ↔ Ascii bytes := by
    rw [List.countP_eq_zero]
    simp [Ascii]
  rw [length_text, ← hcount]
  omega

theorem length_text_of_ascii {bytes : List Byte} (h : Ascii bytes) :
    (text bytes).length = 2 * bytes.length := by
  have hle := (length_text_le_iff bytes).mpr h
  have heq := length_text bytes
  omega

/-- The array is big enough exactly if all bytes have two digits. -/
theorem sprintfs_holds_iff {b : CharArray} {bytes : List Byte} (hne : bytes ≠ []) (hptr : b.ptr = 0)
    (hhigh : b.high ≤ 2 * bytes.length + 1) : (b.sprintfs bytes).Holds bytes ↔ Ascii bytes := by
  rw [sprintfs_eq b hne, hptr]
  constructor
  · intro h
    have hle := h.high
    rw [← length_text_le_iff]
    simp only at hle
    omega
  · intro hascii
    have hlen := length_text_of_ascii hascii
    have hslice := b.mem.slice_blit_self 0 (text bytes ++ [0])
    rw [List.length_append, List.length_singleton, hlen] at hslice
    constructor
    · simp only
      omega
    · rw [← Memory.take_slice _ 0 (Nat.le_succ (2 * bytes.length)), hslice, List.take_left' hlen,
        text_of_ascii hascii]
    · have hend : (2 * (bytes.length : Int)) = 0 + ((text bytes).length : Int) := by omega
      have hlast : (text bytes).length < (text bytes ++ [0]).length := by simp
      have hread := @Memory.blit_add _ b.mem 0 (text bytes ++ [0]) (text bytes).length hlast
      rw [hend]
      exact hread.trans (List.getElem_concat_length rfl _)

end CharArray

/-! ## All bytes of a message -/

open CharArray (Ascii)

/-- What is written is two digits for each byte of the key and of the value, and it stays in the
arrays. -/
def Printed.Inside (p : Printed) (key : Key) (value : Value) : Prop :=
  p.key.Holds key.toList ∧ ∀ b ∈ p.value, b.Holds value.toList

/-- The array of a key or a value, from its start. -/
theorem start_holds_iff {n : Nat} (hn : 0 < n) (mem : Memory Byte) (bytes : Vector Byte n) :
    ((CharArray.start mem).sprintfs bytes.toList).Holds bytes.toList ↔ Ascii bytes.toList := by
  have hlen : bytes.toList.length = n := Vector.length_toList
  refine CharArray.sprintfs_holds_iff (List.ne_nil_of_length_pos (by omega)) rfl ?_
  change (0 : Int) ≤ _
  omega

/-- The same, if the last byte of the array has been cleared before. -/
theorem clear_holds_iff {n : Nat} (hn : 0 < n) (mem : Memory Byte) (bytes : Vector Byte n) :
    (((CharArray.start mem).clear (2 * n)).sprintfs bytes.toList).Holds bytes.toList ↔
      Ascii bytes.toList := by
  have hlen : bytes.toList.length = n := Vector.length_toList
  refine CharArray.sprintfs_holds_iff (List.ne_nil_of_length_pos (by omega)) rfl ?_
  simp only [CharArray.clear, CharArray.start]
  omega

/-- The functions of both clients stay in their arrays exactly on messages in which the bytes
that are printed are ASCII. -/
theorem printing_inside_iff (key value : Memory Byte) (resp : ResponseMessage)
    (send : SendMessage) :
    ((Client.printResponseMessage key value resp).Inside resp.key resp.value ↔
        Ascii resp.key.toList ∧ Ascii resp.value.toList) ∧
      ((Client.printSendMessage key value send).Inside send.key send.value ↔
        Ascii send.key.toList ∧ Ascii send.value.toList) ∧
      ((Testclient.printResponseMessage key value resp).Inside resp.key resp.value ↔
        Ascii resp.key.toList ∧ Ascii resp.value.toList) ∧
      ((Testclient.printSendMessage key send).Inside send.key send.value ↔
        Ascii send.key.toList) := by
  have hsome : ∀ {b : CharArray} {P : CharArray → Prop}, (∀ a ∈ some b, P a) ↔ P b := by simp
  refine ⟨?_, ?_, ?_, ?_⟩
  · exact and_congr (start_holds_iff (by decide) key resp.key)
      (hsome.trans (start_holds_iff (by decide) value resp.value))
  · exact and_congr (start_holds_iff (by decide) key send.key)
      (hsome.trans (start_holds_iff (by decide) value send.value))
  · exact and_congr (clear_holds_iff (by decide) key resp.key)
      (hsome.trans (clear_holds_iff (by decide) value resp.value))
  · refine (and_iff_left ?_).trans (clear_holds_iff (by decide) key send.key)
    rintro b ⟨⟩

/-- The message of the benchmark client, whose value bytes are `0xFF`. -/
theorem message_not_inside :
    ∃ key value : Memory Byte, ¬ (Client.printSendMessage key value Client.message).Inside
      Client.message.key Client.message.value := by
  refine ⟨fun _ => 0, fun _ => 0, ?_⟩
  rintro ⟨-, hvalue⟩
  have hascii := (start_holds_iff (by decide) (fun _ => 0) Client.message.value).mp (hvalue _ rfl)
  exact absurd (hascii 255 (by decide)) (by decide)

end KvServer
