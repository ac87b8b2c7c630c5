import KvServer.Base.Machine
import Mathlib.Algebra.BigOperators.Group.Finset.Piecewise
import Mathlib.Algebra.Order.BigOperators.Group.Finset
import Mathlib.Data.Fintype.Basic

/-!
# Threads

Several threads run the same code.  The state of the system has the place of each of them, and a
step moves one.

*Totals.*  What a thread has at its place is added up over all threads.  `total_move` says how
a total changes when one thread moves, and it serves for every total: how many threads hold a
lock, what they have in their hands, how far they are from the end.

*Bounded runs.*  If every step of a kind takes something off a rank, a run of such steps is no
longer than the rank (`Machine.length_le_rank`).  A rank may have three parts (`lexRank`).  When
the first goes down, the second may be anything up to its bound, and when the first or the second
goes down, the third may go up a little.
-/

namespace Threads

variable {ι σ M : Type} [Fintype ι] [AddCommMonoid M]

/-- What all threads have together, when `g i pc` is what the thread `i` has at the place `pc`. -/
def total (g : ι → σ → M) (pcs : ι → σ) : M := ∑ i, g i (pcs i)

/-- Two sums that differ in one place. -/
theorem sum_move [DecidableEq ι] {f g : ι → M} (i : ι) (h : ∀ j, j ≠ i → f j = g j) :
    ∑ j, f j + g i = ∑ j, g j + f i := by
  have hi : {i} ⊆ (Finset.univ : Finset ι) := Finset.subset_univ _
  have hrest : ∑ j ∈ Finset.univ \ {i}, f j = ∑ j ∈ Finset.univ \ {i}, g j :=
    Finset.sum_congr rfl fun j hj => h j (by simpa using hj)
  rw [← Finset.sum_sdiff hi, ← Finset.sum_sdiff hi, hrest, Finset.sum_singleton,
    Finset.sum_singleton, add_assoc, add_assoc, add_comm (f i)]

/-- One thread moves. -/
theorem total_move [DecidableEq ι] (g : ι → σ → M) (pcs : ι → σ) (i : ι) (pc : σ) :
    total g (Function.update pcs i pc) + g i (pcs i) = total g pcs + g i pc := by
  have hmove := sum_move (f := fun j => g j (Function.update pcs i pc j))
    (g := fun j => g j (pcs j)) i fun j hj => by rw [Function.update_of_ne hj]
  rw [Function.update_self] at hmove
  exact hmove

/-- A thread has no more than all threads have together. -/
theorem le_total (g : ι → σ → Nat) (pcs : ι → σ) (i : ι) : g i (pcs i) ≤ total g pcs :=
  Finset.single_le_sum (f := fun j => g j (pcs j)) (fun _ _ => Nat.zero_le _) (Finset.mem_univ i)

theorem total_eq_zero {g : ι → σ → M} {pcs : ι → σ} (h : ∀ i, g i (pcs i) = 0) :
    total g pcs = 0 := Finset.sum_eq_zero fun i _ => h i

/-- All threads have the same. -/
theorem total_const {g : ι → σ → Nat} {pcs : ι → σ} {n : Nat} (h : ∀ i, g i (pcs i) = n) :
    total g pcs = Fintype.card ι * n := by
  rw [total, Finset.sum_const_nat fun i _ => h i, Finset.card_univ]

/-! ## Ranks with three parts -/

/-- A rank with three parts, where `B` bounds the second and `C` what the third may go up by. -/
def lexRank (B C a b c : Nat) : Nat := a * ((B + 1) * C) + b * C + c

variable {B C a a' b b' c c' : Nat}

theorem lexRank_lt_first (ha : a' < a) (hb : b' ≤ B) (hc : c' < c + C) :
    lexRank B C a' b' c' < lexRank B C a b c := by
  have hfirst : a' * ((B + 1) * C) + (B + 1) * C ≤ a * ((B + 1) * C) := by
    rw [← Nat.succ_mul]
    exact Nat.mul_le_mul_right _ ha
  have hsecond : b' * C ≤ B * C := Nat.mul_le_mul_right C hb
  have hsplit : (B + 1) * C = B * C + C := Nat.succ_mul B C
  rw [lexRank, lexRank]
  omega

theorem lexRank_lt_second (ha : a' ≤ a) (hb : b' < b) (hc : c' < c + C) :
    lexRank B C a' b' c' < lexRank B C a b c := by
  have hfirst : a' * ((B + 1) * C) ≤ a * ((B + 1) * C) := Nat.mul_le_mul_right _ ha
  have hsecond : b' * C + C ≤ b * C := by
    rw [← Nat.succ_mul]
    exact Nat.mul_le_mul_right C hb
  rw [lexRank, lexRank]
  omega

theorem lexRank_lt_third (ha : a' ≤ a) (hb : b' ≤ b) (hc : c' < c) :
    lexRank B C a' b' c' < lexRank B C a b c := by
  have hfirst : a' * ((B + 1) * C) ≤ a * ((B + 1) * C) := Nat.mul_le_mul_right _ ha
  have hsecond : b' * C ≤ b * C := Nat.mul_le_mul_right C hb
  rw [lexRank, lexRank]
  omega

end Threads

/-- A run of steps that take something off a rank, where an invariant holds. -/
theorem Machine.length_le_rank_of {σ ε : Type} {M : Machine σ ε} {rank : σ → Nat} {I : σ → Prop}
    {C : ε → Prop} (hinv : ∀ s e t, I s → M.step s e = some t → I t)
    (hstep : ∀ s e t, I s → C e → M.step s e = some t → rank t < rank s) :
    ∀ {es : List ε} {s t : σ}, I s → (∀ e ∈ es, C e) → M.exec s es = some t →
      es.length + rank t ≤ rank s
  | [], s, t, _, _, h => by
      cases h
      simp
  | e :: es, s, t, hI, hC, h => by
      obtain ⟨u, hu, hrest⟩ := M.exec_cons_eq_some h
      have hlt := hstep s e u hI (hC e List.mem_cons_self) hu
      have hle := Machine.length_le_rank_of hinv hstep (hinv s e u hI hu)
        (fun e' he' => hC e' (List.mem_cons_of_mem e he')) hrest
      rw [List.length_cons]
      omega

/-- A run of steps that take something off a rank. -/
theorem Machine.length_le_rank {σ ε : Type} {M : Machine σ ε} {rank : σ → Nat} {C : ε → Prop}
    (hstep : ∀ s e t, C e → M.step s e = some t → rank t < rank s) {es : List ε} {s t : σ}
    (hC : ∀ e ∈ es, C e) (h : M.exec s es = some t) : es.length + rank t ≤ rank s :=
  Machine.length_le_rank_of (I := fun _ => True) (fun _ _ _ _ _ => trivial)
    (fun s e t _ => hstep s e t) trivial hC h
