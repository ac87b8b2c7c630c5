import Mathlib.Data.List.Basic
import Mathlib.Tactic.Common

/-!
# Pipes

A pipe that single bytes are written to and read from.  How much it holds is up to the kernel: it
may depend on everything that was done before whether a write goes through, and not only on the
number of bytes in the pipe.  So a `Pipe` is what the kernel keeps of it, with this one question
left open, and `TakesBelow` is an answer to it as far as it goes.

*Pipes by count* (`Pipe.ofCapacity`) take a byte as long as there are fewer than a number of them.

*Pipes by page* (`Pipe.ofPages`) keep the bytes in pages.  A page is given back when all that was
written to it has been read.  A full pipe of this kind takes no byte after one has been read, so
the number of bytes that it takes for sure is that of all pages but one, and one more.
-/

/-- What a kernel keeps of a pipe. -/
structure Pipe where
  State : Type
  empty : State
  /-- How many bytes there are to be read. -/
  bytes : State → Nat
  /-- A write of one byte goes through. -/
  takes : State → Bool
  write : State → State
  read : State → State
  bytes_empty : bytes empty = 0
  bytes_write : ∀ s, bytes (write s) = bytes s + 1
  bytes_read : ∀ s, 0 < bytes s → bytes (read s) + 1 = bytes s

namespace Pipe

/-- A write goes through as long as fewer than `c` bytes are in the pipe. -/
def TakesBelow (P : Pipe) (c : Nat) : Prop := ∀ s, P.bytes s < c → P.takes s = true

/-- A pipe that holds `c` bytes. -/
def ofCapacity (c : Nat) : Pipe where
  State := Nat
  empty := 0
  bytes := id
  takes b := Nat.blt b c
  write := Nat.succ
  read := Nat.pred
  bytes_empty := rfl
  bytes_write _ := rfl
  bytes_read _ h := Nat.sub_add_cancel h

theorem takesBelow_ofCapacity (c : Nat) : (ofCapacity c).TakesBelow c :=
  fun s h => (Nat.blt_eq (x := s) (y := c)).mpr h

/-! ## By page -/

/-- The bytes to be read, and how many have been read from the first page. -/
structure Pages (size : Nat) where
  unread : Nat
  gone : Nat
  gone_lt : gone < size

/-- A pipe of `pages` pages with `size` bytes each. -/
def ofPages (pages size : Nat) (hsize : 0 < size) : Pipe where
  State := Pages size
  empty := ⟨0, 0, hsize⟩
  bytes s := s.unread
  takes s := decide (s.gone + s.unread < pages * size)
  write s := { s with unread := s.unread + 1 }
  read s :=
    if h : s.unread = 1 ∨ s.gone + 1 = size then ⟨s.unread - 1, 0, hsize⟩
    else ⟨s.unread - 1, s.gone + 1, by have := s.gone_lt; omega⟩
  bytes_empty := rfl
  bytes_write _ := rfl
  bytes_read s h := by
    split <;> exact Nat.sub_add_cancel h

/-- At most one page is held by bytes that have been read. -/
theorem takesBelow_ofPages (pages : Nat) {size : Nat} (hsize : 0 < size) :
    (ofPages (pages + 1) size hsize).TakesBelow (pages * size + 1) := by
  intro s h
  have hgone := s.gone_lt
  have hunread : s.unread < pages * size + 1 := h
  refine decide_eq_true ?_
  rw [Nat.succ_mul]
  omega

end Pipe
