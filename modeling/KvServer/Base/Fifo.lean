import KvServer.Base.Machine

/-!
# Queues

What is put into a queue goes to its end, and what is taken out comes from its front.
`fifo` is the machine of these two operations.  It also keeps what has been put in and what
has been taken out so far, and in every run the one followed by what is still in the queue is
the other behind what was in it at first (`fifo_conserves`).
-/

/-- A queue, what has come in and what has gone out. -/
structure Fifo (α : Type) where
  queue : List α
  came : List α
  went : List α

namespace Fifo

variable {α : Type}

/-- What can be done with a queue. -/
inductive Op (α : Type) where
  | push (xs : List α)
  | pop (n : Nat)

/-- A queue with nothing done yet. -/
def ofList (xs : List α) : Fifo α := ⟨xs, [], []⟩

def step (q : Fifo α) : Op α → Option (Fifo α)
  | .push xs => some { q with queue := q.queue ++ xs, came := q.came ++ xs }
  | .pop n =>
      if n ≤ q.queue.length then
        some { q with queue := q.queue.drop n, went := q.went ++ q.queue.take n }
      else none

/-- Nothing is lost, doubled or out of order. -/
def Conserves (q : Fifo α) (xs : List α) : Prop := q.went ++ q.queue = xs ++ q.came

theorem Conserves.step {xs : List α} {q q' : Fifo α} {op : Op α} (h : q.Conserves xs)
    (hstep : q.step op = some q') : q'.Conserves xs := by
  unfold Conserves at h ⊢
  cases op with
  | push ys =>
      cases hstep
      rw [← List.append_assoc, h, List.append_assoc]
  | pop n =>
      simp only [Fifo.step, Option.ite_none_right_eq_some, Option.some.injEq] at hstep
      obtain ⟨-, rfl⟩ := hstep
      rw [List.append_assoc, List.take_append_drop, h]

end Fifo

/-- The machine of a queue. -/
def fifo (α : Type) : Machine (Fifo α) (Fifo.Op α) where
  step := Fifo.step

theorem fifo_conserves {α : Type} {xs : List α} {ops : List (Fifo.Op α)} {q : Fifo α}
    (hrun : (fifo α).exec (Fifo.ofList xs) ops = some q) : q.Conserves xs := by
  have hstart : (Fifo.ofList xs).Conserves xs := (List.append_nil xs).symm
  have hstep : ∀ (q q' : Fifo α) op, q.Conserves xs → (fifo α).step q op = some q' →
      q'.Conserves xs := fun q q' op h hstep => h.step hstep
  exact Machine.Reachable.invariant (fun q op q' => hstep q q' op) ⟨ops, hrun⟩ hstart
