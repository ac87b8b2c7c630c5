import KvServer.Base.Memory
import KvServer.Store.Messages

/-!
# Buffers

A `Buffer` is a block of memory with a window of data in it.  Reading from a
socket writes behind the window and makes it longer, writing to a socket takes
bytes off its front.  `nice` moves the window back to the start of the block when
it has gone past the middle, and `grow` makes the block larger.

The pointers are offsets into the block.  They are integers, as the sizes are, and
`Fits` says that the window lies in the block.
-/

namespace KvServer.Server5204

/-- `INIT_BUFFER_SIZE` -/
def INIT_BUFFER_SIZE : Int := 1024

/-- `class Buffer`.  `id` tells the objects apart. -/
structure Buffer where
  id : Nat
  buf : Memory Byte
  /-- `data_ - buf` -/
  data : Int
  size : Int
  total : Int

namespace Buffer

/-- `Buffer::Buffer(int total)`.  `buf` is what malloc returned. -/
def ofTotal (id : Nat) (buf : Memory Byte) (total : Int) : Buffer where
  id := id
  buf := buf
  data := 0
  size := 0
  total := total

/-- `Buffer::Buffer(char *ptr, int sz)`. -/
def ofPtr (id : Nat) (ptr : Memory Byte) (sz : Int) : Buffer where
  id := id
  buf := ptr
  data := 0
  size := sz
  total := sz

/-- `slot()`, as an offset. -/
def slot (b : Buffer) : Int := b.data + b.size

def space (b : Buffer) : Int := b.total - b.data - b.size

def incr (b : Buffer) (num : Int) : Buffer := { b with size := b.size + num }

def decr (b : Buffer) (num : Int) : Buffer :=
  { b with size := b.size - num, data := b.data + num }

/-- The call `memcpy(buf, data_, size_)` of `nice()`, if there is one.  The division is that of
`int`. -/
def niceCopy (b : Buffer) : Option Memory.Copy :=
  if b.data > b.total.tdiv 2 then some ⟨0, b.data, b.size⟩ else none

/-- `nice()` -/
def nice (b : Buffer) : Buffer :=
  match b.niceCopy with
  | some copy => { b with buf := b.buf.memcpy copy, data := 0 }
  | none => b

theorem nice_eq (b : Buffer) : b.nice =
    if b.data > b.total.tdiv 2 then { b with buf := b.buf.memcpy ⟨0, b.data, b.size⟩, data := 0 }
    else b := by
  by_cases h : b.data > b.total.tdiv 2
  · simp only [nice, niceCopy, if_pos h]
  · simp only [nice, niceCopy, if_neg h]

/-- `grow()`, when `realloc` finds the memory.  The bytes behind the old block are
what they happen to be. -/
def grow (b : Buffer) : Buffer :=
  { b with total :=
      if b.total < 8 * 1024 then 8 * 1024
      else if b.total < 512 * 1024 then 8 * b.total
      else 2 * b.total }

/-- The bytes in the window. -/
def content (b : Buffer) : List Byte := b.buf.slice b.data b.size.toNat

/-- Bytes that arrive at `slot()`, and `incr` by their number. -/
def recv (b : Buffer) (bytes : List Byte) : Buffer :=
  { b with buf := b.buf.blit b.slot bytes }.incr bytes.length

/-- The window lies in the block. -/
structure Fits (b : Buffer) : Prop where
  data : 0 ≤ b.data
  size : 0 ≤ b.size
  total : b.data + b.size ≤ b.total

/-! ## What the operations do to the content -/

@[simp] theorem content_ofPtr (id : Nat) (ptr : Memory Byte) (sz : Int) :
    (ofPtr id ptr sz).content = ptr.slice 0 sz.toNat := rfl

theorem length_content (b : Buffer) : b.content.length = b.size.toNat :=
  Memory.length_slice _ _ _

theorem content_recv {b : Buffer} (h : b.Fits) (bytes : List Byte) :
    (b.recv bytes).content = b.content ++ bytes := by
  have hsize : (b.recv bytes).size.toNat = b.size.toNat + bytes.length := by
    have hs := h.size
    show (b.size + bytes.length).toNat = _
    omega
  have hslot : b.slot = b.data + (b.size.toNat : Int) := by
    have hs := h.size
    show b.data + b.size = _
    omega
  rw [content, hsize]
  show (b.buf.blit b.slot bytes).slice b.data _ = _
  rw [hslot, Memory.slice_blit_append]
  rfl

theorem content_decr {b : Buffer} {n : Nat} (hn : (n : Int) ≤ b.size) :
    (b.decr n).content = b.content.drop n := by
  have hle : n ≤ b.size.toNat := by omega
  have hsize : (b.size - n).toNat = b.size.toNat - n := by omega
  show b.buf.slice (b.data + n) (b.size - n).toNat = (b.buf.slice b.data b.size.toNat).drop n
  rw [Memory.drop_slice _ _ hle, hsize]

theorem content_nice (b : Buffer) : b.nice.content = b.content := by
  rw [nice_eq]
  split
  · show (b.buf.blit 0 b.content).slice 0 b.size.toNat = b.content
    rw [← b.length_content, Memory.slice_blit_self]
  · rfl

/-! ## The window stays in the block -/

theorem Fits.recv {b : Buffer} (h : b.Fits) {bytes : List Byte}
    (hb : (bytes.length : Int) ≤ b.space) : (b.recv bytes).Fits := by
  obtain ⟨hd, hs, ht⟩ := h
  refine ⟨hd, ?_, ?_⟩
  · show 0 ≤ b.size + bytes.length
    omega
  · show b.data + (b.size + bytes.length) ≤ b.total
    have hspace : b.space = b.total - b.data - b.size := rfl
    omega

theorem Fits.decr {b : Buffer} (h : b.Fits) {n : Nat} (hn : (n : Int) ≤ b.size) :
    (b.decr n).Fits := by
  obtain ⟨hd, hs, ht⟩ := h
  refine ⟨?_, ?_, ?_⟩
  · show 0 ≤ b.data + n
    omega
  · show 0 ≤ b.size - n
    omega
  · show b.data + n + (b.size - n) ≤ b.total
    omega

@[simp] theorem size_recv (b : Buffer) (bytes : List Byte) :
    (b.recv bytes).size = b.size + bytes.length := rfl

@[simp] theorem space_recv (b : Buffer) (bytes : List Byte) :
    (b.recv bytes).space = b.space - bytes.length := by
  show b.total - b.data - (b.size + bytes.length) = b.total - b.data - b.size - bytes.length
  omega

@[simp] theorem size_decr (b : Buffer) (n : Int) : (b.decr n).size = b.size - n := rfl

@[simp] theorem size_grow (b : Buffer) : b.grow.size = b.size := rfl

end Buffer

end KvServer.Server5204
