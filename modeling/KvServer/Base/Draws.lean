import Mathlib.Data.List.Basic
import Mathlib.Data.Stream.Init

/-!
# Programs that draw numbers

A program draws numbers from a list, one after the other, and fails when there is
none left or when it gives up.  `Ensures m Q` says that whatever numbers are drawn,
a result of `m` satisfies `Q`.  There is one rule for each way to build a program,
so a program is verified along its text, and the numbers never appear.

Whether there is a result at all is asked of endless sequences of numbers.  `Completes m Q`
says that on each of them `m` stops with a result that satisfies `Q`, and `Sticks m ns` that
`m` has no result on any sequence that starts with `ns`.
-/

/-- A program that draws numbers from a list. -/
abbrev Draws (α : Type) := StateT (List Nat) Option α

namespace Draws

variable {α β : Type}

/-- The next number. -/
def draw : Draws Nat
  | [] => none
  | n :: ns => some (n, ns)

/-- The next number modulo `n`, with the `%` of `int`.  Division by zero fails. -/
def drawMod (n : Int) : Draws Int :=
  if n = 0 then failure else draw >>= fun r => pure ((r : Int).tmod n)

/-- A loop that starts afresh in each of `n` rounds.  `i` counts the rounds. -/
def repeated (round : Nat → Draws α) : Nat → Nat → Draws (List α)
  | 0, _ => pure []
  | n + 1, i => round i >>= fun a => repeated round n (i + 1) >>= fun as => pure (a :: as)

/-- A loop over a state: what each round returned and the state after it. -/
def trace {σ : Type} (round : Nat → σ → Draws (α × σ)) : Nat → Nat → σ → Draws (List (α × σ))
  | 0, _, _ => pure []
  | n + 1, i, s => round i s >>= fun x => trace round n (i + 1) x.2 >>= fun xs => pure (x :: xs)

/-- Each round of a loop is related to the state before and after it. -/
def Linked {σ : Type} (R : σ → α → σ → Prop) : σ → List (α × σ) → Prop
  | _, [] => True
  | s, (a, t) :: rest => R s a t ∧ Linked R t rest

theorem Linked.take {σ : Type} {R : σ → α → σ → Prop} {s : σ} {xs : List (α × σ)}
    (h : Linked R s xs) (n : Nat) : Linked R s (xs.take n) := by
  induction xs generalizing s n with
  | nil =>
      rw [List.take_nil]
      exact trivial
  | cons x xs ih =>
      cases n with
      | zero => exact trivial
      | succ n => exact ⟨h.1, ih h.2 n⟩

theorem Linked.forall {σ : Type} {R : σ → α → σ → Prop} {s : σ} {xs : List (α × σ)}
    (h : Linked R s xs) : ∀ x ∈ xs, ∃ s', R s' x.1 x.2 := by
  induction xs generalizing s with
  | nil =>
      intro x hx
      cases hx
  | cons y xs ih =>
      intro x hx
      rcases List.mem_cons.mp hx with rfl | hx
      · exact ⟨s, h.1⟩
      · exact ih h.2 x hx

/-- Every result of `m` satisfies `Q`. -/
def Ensures (m : Draws α) (Q : α → Prop) : Prop :=
  ∀ ns a ns', m ns = some (a, ns') → Q a

theorem ensures_pure {a : α} {Q : α → Prop} (h : Q a) : Ensures (pure a) Q := by
  intro ns b ns' hm
  cases hm
  exact h

theorem ensures_failure {Q : α → Prop} : Ensures failure Q := by
  intro ns a ns' hm
  cases hm

/-- A bind that returns has two parts that do. -/
theorem bind_eq_some {m : Draws α} {f : α → Draws β} {ns ns' : List Nat} {b : β}
    (h : (m >>= f) ns = some (b, ns')) :
    ∃ a ns₁, m ns = some (a, ns₁) ∧ f a ns₁ = some (b, ns') := by
  obtain ⟨⟨a, ns₁⟩, hm, hf⟩ := Option.bind_eq_some_iff.mp h
  exact ⟨a, ns₁, hm, hf⟩

theorem Ensures.bind {m : Draws α} {f : α → Draws β} {P : α → Prop} {Q : β → Prop}
    (hm : Ensures m P) (hf : ∀ a, P a → Ensures (f a) Q) : Ensures (m >>= f) Q := by
  intro ns b ns' h
  obtain ⟨a, ns₁, ha, hb⟩ := bind_eq_some h
  exact hf a (hm ns a ns₁ ha) ns₁ b ns' hb

/-- A program whose result does not matter in front. -/
theorem ensures_bind {m : Draws α} {f : α → Draws β} {Q : β → Prop}
    (hf : ∀ a, Ensures (f a) Q) : Ensures (m >>= f) Q :=
  Ensures.bind (P := fun _ => True) (fun _ _ _ _ => trivial) fun a _ => hf a

theorem ensures_ite {c : Prop} [Decidable c] {m m' : Draws α} {Q : α → Prop}
    (h : c → Ensures m Q) (h' : ¬ c → Ensures m' Q) : Ensures (if c then m else m') Q := by
  split
  · next hc => exact h hc
  · next hc => exact h' hc

/-- A remainder modulo a positive number. -/
theorem ensures_drawMod {n : Int} :
    Ensures (drawMod n) fun r => n ≠ 0 ∧ 0 ≤ r ∧ (0 < n → r < n) := by
  refine ensures_ite (fun _ => ensures_failure) fun hn => ensures_bind fun r => ensures_pure ?_
  refine ⟨hn, Int.tmod_nonneg n (Int.natCast_nonneg r), fun hpos => ?_⟩
  exact Int.tmod_lt_of_pos _ hpos

/-- What every round ensures holds along the loop. -/
theorem ensures_trace {σ : Type} {round : Nat → σ → Draws (α × σ)} {R : σ → α → σ → Prop}
    (h : ∀ i s, Ensures (round i s) fun x => R s x.1 x.2) (n i : Nat) (s : σ) :
    Ensures (trace round n i s) (Linked R s) := by
  induction n generalizing i s with
  | zero => exact ensures_pure trivial
  | succ n ih =>
      refine (h i s).bind fun x hx => (ih (i + 1) x.2).bind fun xs hxs => ensures_pure ?_
      exact ⟨hx, hxs⟩

theorem ensures_repeated {round : Nat → Draws α} {Q : α → Prop} (h : ∀ i, Ensures (round i) Q)
    (n i : Nat) : Ensures (repeated round n i) fun as => ∀ a ∈ as, Q a := by
  induction n generalizing i with
  | zero => exact ensures_pure fun a ha => by cases ha
  | succ n ih =>
      refine (h i).bind fun a ha => (ih (i + 1)).bind fun as has => ensures_pure fun b hb => ?_
      rcases List.mem_cons.mp hb with rfl | hb
      · exact ha
      · exact has b hb

theorem Ensures.and {m : Draws α} {P Q : α → Prop} (hP : Ensures m P) (hQ : Ensures m Q) :
    Ensures m fun a => P a ∧ Q a :=
  fun ns a ns' h => ⟨hP ns a ns' h, hQ ns a ns' h⟩

theorem ensures_length_repeated (round : Nat → Draws α) (n i : Nat) :
    Ensures (repeated round n i) fun as => as.length = n := by
  induction n generalizing i with
  | zero => exact ensures_pure rfl
  | succ n ih =>
      exact ensures_bind fun a => (ih (i + 1)).bind fun as h =>
        ensures_pure (congrArg Nat.succ h)

theorem ensures_length_trace {σ : Type} (round : Nat → σ → Draws (α × σ)) (n i : Nat) (s : σ) :
    Ensures (trace round n i s) fun xs => xs.length = n := by
  induction n generalizing i s with
  | zero => exact ensures_pure rfl
  | succ n ih =>
      exact ensures_bind fun x => (ih (i + 1) x.2).bind fun xs h =>
        ensures_pure (congrArg Nat.succ h)

/-! ## Programs that stop -/

/-- `m` draws the numbers `ns` and returns `a`. -/
structure Gets (m : Draws α) (ns : List Nat) (a : α) : Prop where
  returns : ∀ more, m (ns ++ more) = some (a, more)
  /-- Fewer numbers are not enough. -/
  waits : ∀ l, l <+: ns → l ≠ ns → m l = none

/-- On every sequence of numbers `m` returns a result that satisfies `Q`. -/
def Completes (m : Draws α) (Q : α → Prop) : Prop :=
  ∀ draws : Stream' Nat, ∃ n a, Gets m (draws.take n) a ∧ Q a

/-- `m` has no result on `ns`, whatever comes behind. -/
def Sticks (m : Draws α) (ns : List Nat) : Prop := ∀ l, l <+: ns ∨ ns <+: l → m l = none

theorem gets_pure (a : α) : Gets (pure a) [] a :=
  ⟨fun _ => rfl, fun _ hl hne => absurd (List.prefix_nil.mp hl) hne⟩

theorem gets_draw (n : Nat) : Gets draw [n] n := by
  refine ⟨fun more => rfl, fun l hl hne => ?_⟩
  rcases List.prefix_cons_iff.mp hl with rfl | ⟨t, rfl, ht⟩
  · rfl
  · rw [List.prefix_nil.mp ht] at hne
    exact absurd rfl hne

theorem bind_of_some {m : Draws α} {f : α → Draws β} {ns ns' : List Nat} {a : α}
    (h : m ns = some (a, ns')) : (m >>= f) ns = f a ns' := by
  change Option.bind (m ns) _ = _
  rw [h]
  rfl

theorem bind_of_none {m : Draws α} {f : α → Draws β} {ns : List Nat} (h : m ns = none) :
    (m >>= f) ns = none := by
  change Option.bind (m ns) _ = _
  rw [h]
  rfl

/-- On the way through its numbers `m` waits for more, and behind them it has returned. -/
theorem Gets.cases {m : Draws α} {ns l : List Nat} {a : α} (h : Gets m ns a)
    (hl : l <+: ns ∨ ns <+: l) : m l = none ∨ ∃ l', l = ns ++ l' ∧ m l = some (a, l') := by
  by_cases hns : ns <+: l
  · obtain ⟨l', rfl⟩ := hns
    exact .inr ⟨l', rfl, h.returns l'⟩
  · have hne : l ≠ ns := fun heq => hns (heq ▸ List.prefix_refl l)
    exact .inl (h.waits l (hl.resolve_right hns) hne)

theorem Gets.bind {m : Draws α} {f : α → Draws β} {ns ms : List Nat} {a : α} {b : β}
    (hm : Gets m ns a) (hf : Gets (f a) ms b) : Gets (m >>= f) (ns ++ ms) b := by
  constructor
  · intro more
    rw [List.append_assoc, bind_of_some (hm.returns (ms ++ more)), hf.returns]
  · intro l hl hne
    rcases hm.cases (List.prefix_or_prefix_of_prefix hl (List.prefix_append ns ms)) with
      hnone | ⟨l', rfl, hsome⟩
    · exact bind_of_none hnone
    · rw [bind_of_some hsome]
      exact hf.waits l' ((List.prefix_append_right_inj ns).mp hl) fun heq => hne (heq ▸ rfl)

/-! ## Programs that stick -/

theorem sticks_failure (ns : List Nat) : Sticks (failure : Draws α) ns := fun _ _ => rfl

theorem Sticks.bind {m : Draws α} {f : α → Draws β} {ns : List Nat} (h : Sticks m ns) :
    Sticks (m >>= f) ns := fun l hl => bind_of_none (h l hl)

theorem Gets.sticks {m : Draws α} {f : α → Draws β} {ns ms : List Nat} {a : α}
    (hm : Gets m ns a) (hf : Sticks (f a) ms) : Sticks (m >>= f) (ns ++ ms) := by
  intro l hl
  have hns : l <+: ns ∨ ns <+: l := by
    rcases hl with hl | hl
    · exact List.prefix_or_prefix_of_prefix hl (List.prefix_append ns ms)
    · exact .inr ((List.prefix_append ns ms).trans hl)
  rcases hm.cases hns with hnone | ⟨l', rfl, hsome⟩
  · exact bind_of_none hnone
  · rw [bind_of_some hsome]
    exact hf l' (hl.imp (List.prefix_append_right_inj ns).mp (List.prefix_append_right_inj ns).mp)

/-- On an endless sequence that starts with `ns` a program that sticks has no result. -/
theorem Sticks.take {m : Draws α} {ns : List Nat} (h : Sticks m ns) (draws : Stream' Nat)
    (n : Nat) : m ((ns ++ₛ draws).take n) = none := by
  apply h
  rcases Nat.le_total n ns.length with hle | hge
  · left
    rw [Stream'.take_append_of_le_length _ _ _ hle]
    exact List.take_prefix n ns
  · right
    obtain ⟨k, rfl⟩ := Nat.exists_eq_add_of_le hge
    rw [← Stream'.append_take]
    exact List.prefix_append ns _

/-! ## Rules for stopping -/

theorem completes_pure {a : α} {Q : α → Prop} (h : Q a) : Completes (pure a) Q :=
  fun _ => ⟨0, a, gets_pure a, h⟩

theorem Completes.bind {m : Draws α} {f : α → Draws β} {P : α → Prop} {Q : β → Prop}
    (hm : Completes m P) (hf : ∀ a, P a → Completes (f a) Q) : Completes (m >>= f) Q := by
  intro draws
  obtain ⟨n, a, hget, ha⟩ := hm draws
  obtain ⟨k, b, hget', hb⟩ := hf a ha (draws.drop n)
  refine ⟨n + k, b, ?_, hb⟩
  rw [Stream'.take_add]
  exact hget.bind hget'

theorem completes_ite {c : Prop} [Decidable c] {m m' : Draws α} {Q : α → Prop}
    (h : c → Completes m Q) (h' : ¬ c → Completes m' Q) : Completes (if c then m else m') Q := by
  split
  · next hc => exact h hc
  · next hc => exact h' hc

theorem gets_drawMod {n : Int} (hn : n ≠ 0) (k : Nat) :
    Gets (drawMod n) [k] ((k : Int).tmod n) := by
  rw [drawMod, if_neg hn]
  exact (gets_draw k).bind (gets_pure _)

theorem sticks_drawMod (ns : List Nat) : Sticks (drawMod 0) ns := sticks_failure ns

theorem completes_drawMod {n : Int} (hn : 0 < n) :
    Completes (drawMod n) fun r => 0 ≤ r ∧ r < n := by
  intro draws
  refine ⟨1, _, gets_drawMod (Int.ne_of_gt hn) draws.head, ?_⟩
  exact ⟨Int.tmod_nonneg n (Int.natCast_nonneg _), Int.tmod_lt_of_pos _ hn⟩

theorem completes_repeated {round : Nat → Draws α} (h : ∀ i, Completes (round i) fun _ => True)
    (n i : Nat) : Completes (repeated round n i) fun _ => True := by
  induction n generalizing i with
  | zero => exact completes_pure trivial
  | succ n ih => exact (h i).bind fun a _ => (ih (i + 1)).bind fun as _ => completes_pure trivial

theorem completes_trace {σ : Type} {round : Nat → σ → Draws (α × σ)}
    (h : ∀ i s, Completes (round i s) fun _ => True) (n i : Nat) (s : σ) :
    Completes (trace round n i s) fun _ => True := by
  induction n generalizing i s with
  | zero => exact completes_pure trivial
  | succ n ih =>
      exact (h i s).bind fun x _ => (ih (i + 1) x.2).bind fun xs _ => completes_pure trivial

end Draws
