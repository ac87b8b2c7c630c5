import Mathlib.Data.List.Basic
import Mathlib.Tactic.Common

/-!
# What a socket answers

A read call is answered with some bytes or with an error number, and a read of
no bytes is the end of the stream.  A write call is answered with the number of
bytes taken or with an error number.  What the two calls do is decided by the
other side, so a run is given the *answers* as lists and uses them up from the
front.

A burst of bytes may be longer than the room a call has.  The call then takes
what fits and the rest is pushed back: it is the answer to the next call.  So a
list of bursts describes how the bytes arrive, and the calls cut it up further.
-/

namespace Transfer

/-- The value of `errno`. -/
abbrev Errno := Int

def EINTR : Errno := 4

def EAGAIN : Errno := 11

/-- The two names are one number. -/
def EWOULDBLOCK : Errno := EAGAIN

/-- The answer to a read.  `data []` is a read of no bytes. -/
inductive ReadAnswer (α : Type) where
  | data (bytes : List α)
  | fail (errno : Errno)
deriving DecidableEq, Repr

/-- The answer to a write: how many bytes it took. -/
inductive WriteAnswer where
  | count (n : Nat)
  | fail (errno : Errno)
deriving DecidableEq, Repr

variable {α : Type}

/-- All bytes in a list of answers. -/
def received : List (ReadAnswer α) → List α
  | [] => []
  | .data bytes :: rest => bytes ++ received rest
  | .fail _ :: rest => received rest

/-- How many bytes a list of answers takes. -/
def accepted : List WriteAnswer → Nat
  | [] => 0
  | .count n :: rest => n + accepted rest
  | .fail _ :: rest => accepted rest

/-- Give back the bytes of a burst that did not fit. -/
def pushBack : List α → List (ReadAnswer α) → List (ReadAnswer α)
  | [], rest => rest
  | b :: bytes, rest => .data (b :: bytes) :: rest

/-- Give back the part of an answer that a write did not need. -/
def pushBackCount : Nat → List WriteAnswer → List WriteAnswer
  | 0, rest => rest
  | n + 1, rest => .count (n + 1) :: rest

/-- `errno` after each read that brought no byte.  A read of no bytes leaves it as
it was. -/
def failErrnos : Errno → List (ReadAnswer α) → List Errno
  | _, [] => []
  | errno, .data [] :: rest => errno :: failErrnos errno rest
  | errno, .data (_ :: _) :: rest => failErrnos errno rest
  | _, .fail e :: rest => e :: failErrnos e rest

/-- Every read brings bytes or fails with `EAGAIN`. -/
def ReadsFlow (reads : List (ReadAnswer α)) : Prop :=
  ∀ a ∈ reads, (∃ b bytes, a = .data (b :: bytes)) ∨ a = .fail EAGAIN

/-- Every write takes bytes, possibly none, or fails with `EAGAIN`. -/
def WritesFlow (writes : List WriteAnswer) : Prop :=
  ∀ a ∈ writes, (∃ n, a = .count n) ∨ a = .fail EAGAIN

/-! ## Reads -/

@[simp] theorem received_nil : received ([] : List (ReadAnswer α)) = [] := rfl

@[simp] theorem received_data (bytes : List α) (rest : List (ReadAnswer α)) :
    received (.data bytes :: rest) = bytes ++ received rest := rfl

@[simp] theorem received_fail (e : Errno) (rest : List (ReadAnswer α)) :
    received (.fail e :: rest) = received rest := rfl

@[simp] theorem received_pushBack (bytes : List α) (rest : List (ReadAnswer α)) :
    received (pushBack bytes rest) = bytes ++ received rest := by
  cases bytes with
  | nil => rfl
  | cons b bytes => rfl

theorem pushBack_eq_nil {bytes : List α} {rest : List (ReadAnswer α)}
    (h : pushBack bytes rest = []) : bytes = [] ∧ rest = [] := by
  cases bytes with
  | nil => exact ⟨rfl, h⟩
  | cons b bytes => cases h

theorem ReadsFlow.tail {a : ReadAnswer α} {rest : List (ReadAnswer α)}
    (h : ReadsFlow (a :: rest)) : ReadsFlow rest :=
  fun x hx => h x (List.mem_cons_of_mem _ hx)

theorem ReadsFlow.pushBack {rest : List (ReadAnswer α)} (h : ReadsFlow rest) (bytes : List α) :
    ReadsFlow (pushBack bytes rest) := by
  cases bytes with
  | nil => exact h
  | cons b bytes =>
      intro a ha
      rcases List.mem_cons.mp ha with rfl | ha
      · exact Or.inl ⟨b, bytes, rfl⟩
      · exact h a ha

/-- Reads that flow leave no other `errno` than `EAGAIN`. -/
theorem ReadsFlow.failErrnos {reads : List (ReadAnswer α)} (h : ReadsFlow reads) :
    ∀ {errno e : Errno}, e ∈ failErrnos errno reads → e = EAGAIN := by
  induction reads with
  | nil => intro errno e he; cases he
  | cons a rest ih =>
      intro errno e he
      rcases h a List.mem_cons_self with ⟨b, bytes, rfl⟩ | rfl
      · exact ih h.tail he
      · rcases List.mem_cons.mp he with rfl | he
        · rfl
        · exact ih h.tail he

/-! ## Writes -/

@[simp] theorem accepted_nil : accepted [] = 0 := rfl

@[simp] theorem accepted_count (n : Nat) (rest : List WriteAnswer) :
    accepted (.count n :: rest) = n + accepted rest := rfl

@[simp] theorem accepted_fail (e : Errno) (rest : List WriteAnswer) :
    accepted (.fail e :: rest) = accepted rest := rfl

@[simp] theorem accepted_pushBackCount (n : Nat) (rest : List WriteAnswer) :
    accepted (pushBackCount n rest) = n + accepted rest := by
  cases n with
  | zero => exact (Nat.zero_add _).symm
  | succ n => rfl

theorem pushBackCount_eq_nil {n : Nat} {rest : List WriteAnswer}
    (h : pushBackCount n rest = []) : rest = [] := by
  cases n with
  | zero => exact h
  | succ n => cases h

theorem WritesFlow.tail {a : WriteAnswer} {rest : List WriteAnswer}
    (h : WritesFlow (a :: rest)) : WritesFlow rest :=
  fun x hx => h x (List.mem_cons_of_mem _ hx)

theorem WritesFlow.pushBackCount {rest : List WriteAnswer} (h : WritesFlow rest) (n : Nat) :
    WritesFlow (pushBackCount n rest) := by
  cases n with
  | zero => exact h
  | succ n =>
      intro a ha
      rcases List.mem_cons.mp ha with rfl | ha
      · exact Or.inl ⟨n + 1, rfl⟩
      · exact h a ha

theorem WritesFlow.eagain {writes : List WriteAnswer} (h : WritesFlow writes) {e : Errno}
    (he : .fail e ∈ writes) : e = EAGAIN := by
  rcases h _ he with ⟨n, hn⟩ | heq
  · cases hn
  · cases heq
    rfl

end Transfer
