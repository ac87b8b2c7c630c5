import Mathlib.Data.List.Basic
import Mathlib.Tactic.Common

/-!
# Memory

A block of memory is a function from addresses to bytes.  `slice` reads a range
as a list and `blit` writes a list to a range.  What malloc returns is an
arbitrary function, and addresses are integers, so that a pointer that has left
its block can be spoken of.

A slice after a blit is what was written when the ranges are equal, and what was
there before when they are disjoint.

`Copy` holds the arguments of a call of `memcpy` inside one block.  The call is defined only if
its two regions are `Apart`.
-/

/-- A block of memory. -/
abbrev Memory (α : Type) := Int → α

namespace Memory

variable {α : Type}

/-- The `n` bytes at `p`. -/
def slice (mem : Memory α) (p : Int) (n : Nat) : List α :=
  (List.range n).map fun i : Nat => mem (p + i)

/-- Write a list at `p`. -/
def blit (mem : Memory α) (p : Int) (bytes : List α) : Memory α := fun a =>
  if p ≤ a then (bytes[(a - p).toNat]?).getD (mem a) else mem a

@[simp] theorem length_slice (mem : Memory α) (p : Int) (n : Nat) :
    (mem.slice p n).length = n := by
  simp [slice]

@[simp] theorem slice_zero (mem : Memory α) (p : Int) : mem.slice p 0 = [] := rfl

@[simp] theorem getElem_slice (mem : Memory α) (p : Int) (n i : Nat)
    (h : i < (mem.slice p n).length) : (mem.slice p n)[i] = mem (p + i) := by
  simp [slice]

/-- Two memories that agree on a range have the same slice there. -/
theorem slice_congr {mem mem' : Memory α} {p : Int} {n : Nat}
    (h : ∀ i : Nat, i < n → mem (p + i) = mem' (p + i)) : mem.slice p n = mem'.slice p n := by
  refine List.map_congr_left fun i hi => h i (List.mem_range.mp hi)

theorem slice_add (mem : Memory α) (p : Int) (m n : Nat) :
    mem.slice p (m + n) = mem.slice p m ++ mem.slice (p + m) n := by
  simp only [slice, List.range_add, List.map_append, List.map_map]
  congr 1
  refine List.map_congr_left fun i _ => ?_
  show mem (p + ((m + i : Nat) : Int)) = mem (p + m + i)
  congr 1
  omega

theorem take_slice (mem : Memory α) (p : Int) {m n : Nat} (h : m ≤ n) :
    (mem.slice p n).take m = mem.slice p m := by
  obtain ⟨k, rfl⟩ := Nat.exists_eq_add_of_le h
  rw [slice_add, List.take_left' (length_slice mem p m)]

theorem drop_slice (mem : Memory α) (p : Int) {m n : Nat} (h : m ≤ n) :
    (mem.slice p n).drop m = mem.slice (p + m) (n - m) := by
  obtain ⟨k, rfl⟩ := Nat.exists_eq_add_of_le h
  rw [slice_add, List.drop_left' (length_slice mem p m), Nat.add_sub_cancel_left]

/-! ## After a write -/

theorem blit_of_lt {mem : Memory α} {p a : Int} {bytes : List α} (h : a < p) :
    mem.blit p bytes a = mem a := by
  rw [blit, if_neg (by omega)]

theorem blit_of_ge {mem : Memory α} {p a : Int} {bytes : List α} (h : p + bytes.length ≤ a) :
    mem.blit p bytes a = mem a := by
  rw [blit, if_pos (by omega), List.getElem?_eq_none (by omega), Option.getD_none]

theorem blit_add {mem : Memory α} {p : Int} {bytes : List α} {i : Nat} (h : i < bytes.length) :
    mem.blit p bytes (p + i) = bytes[i] := by
  have hi : (p + i - p).toNat = i := by omega
  rw [blit, if_pos (by omega), hi, List.getElem?_eq_getElem h, Option.getD_some]

/-- What was written is read back. -/
@[simp] theorem slice_blit_self (mem : Memory α) (p : Int) (bytes : List α) :
    (mem.blit p bytes).slice p bytes.length = bytes := by
  apply List.ext_getElem
  · rw [length_slice]
  · intro i hi hi'
    rw [getElem_slice, blit_add hi']

/-- A range before the write. -/
theorem slice_blit_of_le {mem : Memory α} {p q : Int} {bytes : List α} {n : Nat}
    (h : q + n ≤ p) : (mem.blit p bytes).slice q n = mem.slice q n :=
  slice_congr fun i hi => blit_of_lt (by omega)

/-- A range behind the write. -/
theorem slice_blit_of_ge {mem : Memory α} {p q : Int} {bytes : List α} {n : Nat}
    (h : p + bytes.length ≤ q) : (mem.blit p bytes).slice q n = mem.slice q n :=
  slice_congr fun i _ => blit_of_ge (by omega)

/-- A write at the end of a range makes it longer. -/
theorem slice_blit_append (mem : Memory α) (p : Int) (n : Nat) (bytes : List α) :
    (mem.blit (p + n) bytes).slice p (n + bytes.length) = mem.slice p n ++ bytes := by
  rw [slice_add, slice_blit_self, slice_blit_of_le (Int.le_refl _)]

/-- A write over the last element of the one before it. -/
theorem blit_blit_append (mem : Memory α) (p : Int) (xs : List α) (x : α) {ys : List α}
    (hys : ys ≠ []) :
    (mem.blit p (xs ++ [x])).blit (p + xs.length) ys = mem.blit p (xs ++ ys) := by
  have hpos := List.length_pos_iff.mpr hys
  funext a
  by_cases hlow : a < p + xs.length
  · rw [blit_of_lt hlow]
    by_cases hbefore : a < p
    · rw [blit_of_lt hbefore, blit_of_lt hbefore]
    · obtain ⟨i, rfl⟩ : ∃ i : Nat, a = p + i := ⟨(a - p).toNat, by omega⟩
      have hi : i < xs.length := by omega
      rw [blit_add (by simp; omega), blit_add (by simp; omega), List.getElem_append_left hi,
        List.getElem_append_left hi]
  · by_cases hhigh : p + xs.length + ys.length ≤ a
    · rw [blit_of_ge hhigh, blit_of_ge (by simp; omega), blit_of_ge (by simp; omega)]
    · obtain ⟨i, rfl⟩ : ∃ i : Nat, a = p + xs.length + i := ⟨(a - p - xs.length).toNat, by omega⟩
      have hi : i < ys.length := by omega
      have haddr : p + xs.length + i = p + ((xs.length + i : Nat) : Int) := by omega
      have hlen : xs.length + i < (xs ++ ys).length := by simp [hi]
      rw [blit_add hi, haddr, blit_add hlen, List.getElem_append_right (Nat.le_add_right _ _)]
      simp only [Nat.add_sub_cancel_left]

/-! ## Copies -/

/-- The arguments of `memcpy(dst, src, size)`, as offsets into one block. -/
structure Copy where
  dst : Int
  src : Int
  size : Int
deriving DecidableEq, Repr

/-- No address is in both regions.  Otherwise the call is undefined. -/
def Copy.Apart (c : Copy) : Prop :=
  ∀ a : Int, ¬ ((c.dst ≤ a ∧ a < c.dst + c.size) ∧ (c.src ≤ a ∧ a < c.src + c.size))

theorem Copy.apart_iff {c : Copy} :
    c.Apart ↔ c.size ≤ 0 ∨ c.dst + c.size ≤ c.src ∨ c.src + c.size ≤ c.dst := by
  constructor
  · intro h
    by_contra hnot
    -- the later of the two starts is in both
    exact h (max c.dst c.src) ⟨by omega, by omega⟩
  · rintro h a ⟨⟨hdst, hdst'⟩, hsrc, hsrc'⟩
    omega

instance (c : Copy) : Decidable c.Apart := decidable_of_iff _ Copy.apart_iff.symm

/-- The block after the call, if it is defined. -/
def memcpy (mem : Memory α) (c : Copy) : Memory α := mem.blit c.dst (mem.slice c.src c.size.toNat)

end Memory
