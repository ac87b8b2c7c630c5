import KvServer.Mtcp.MainThread

/-!
# Stopping the mTCP server

A SIGINT reaches one thread.  `SignalHandler` hands it on, and so do the handlers that it starts,
until every server thread has its flag set and leaves.  The handlers run side by side, a pending
signal swallows the next one, and a flag may be set between the test and the `pthread_kill`.

*The signal.*  A server thread is reached if its flag is set or it has left, or if the signal is
pending for it or a handler in it has not yet come to its own index.  A handler leaves behind only
threads that are reached, and a thread that is reached stays so (`Spread`).  So when the handlers
have come to their end, every server thread has its flag set or has left (`sigint_reaches_all`).

*The end.*  The handlers come to their end: without a signal from outside, a new batch or a new
packet every step takes something off `rank`.  When no thread can take a step any more, `main` has
returned, as long as the batches come to their end and every wait returns in whose thread the
handler has run (`shutdown_completes`).

*Threads that are gone.*  All this is as long as no `pthread_kill` gets a thread that does not
exist.  With one server thread that cannot happen, once the threads are there and as long as no
wait fails, and with two or more it can (`kill_defined_iff`).
-/

namespace KvServer.Mtcp

/-- The handler has dealt with the index. -/
def Handler.Past {n : Nat} (j : Fin n) : Handler n → Prop
  | .none => False
  | .check i => j < i
  | .kill i => j < i

/-- The handler runs and has not come to the index. -/
def Handler.Ahead {n : Nat} (j : Fin n) : Handler n → Prop
  | .none => False
  | .check i => i ≤ j
  | .kill i => i < j

namespace Process

variable {n : Nat} {s t : Process n}

/-- The signal has come to the server thread, or is on its way into it. -/
def Reached (s : Process n) (j : Fin n) : Prop :=
  s.servers j = .exited ∨ s.done j = true ∨ s.pending (.server j) = true ∨
    (s.handlers (.server j)).Ahead j

/-- How far the signal has spread. -/
structure Spread (s : Process n) : Prop where
  passed : ∀ w j, (s.handlers w).Past j → s.Reached j
  all : s.called = true → (∃ w, s.handlers w ≠ .none) ∨ ∀ j, s.Reached j

theorem Spread.start : (start : Process n).Spread where
  passed _ _ h := h.elim
  all h := by cases h

/-! ## A thread that is reached stays so -/

theorem Reached.of_same {j : Fin n} (h : s.Reached j) (hservers : t.servers j = s.servers j)
    (hdone : t.done j = s.done j) (hpending : t.pending (.server j) = s.pending (.server j))
    (hhandlers : t.handlers (.server j) = s.handlers (.server j)) : t.Reached j := by
  rw [Reached, hservers, hdone, hpending, hhandlers]
  exact h

theorem Reached.setHandler {j : Fin n} {w : Tid n} {pc : Handler n} (h : s.Reached j)
    (hpc : w = .server j → (s.handlers w).Ahead j → pc.Ahead j) :
    (s.setHandler w pc).Reached j := by
  rcases h with hexited | hdone | hpending | hahead
  · exact Or.inl hexited
  · exact Or.inr (Or.inl hdone)
  · exact Or.inr (Or.inr (Or.inl hpending))
  · refine Or.inr (Or.inr (Or.inr ?_))
    rw [setHandler_handlers]
    by_cases hw : w = .server j
    · subst hw
      rw [Function.update_self]
      exact hpc rfl hahead
    · rwa [Function.update_of_ne (Ne.symm hw)]

theorem Reached.setPending {j : Fin n} (w : Tid n) (h : s.Reached j) :
    (s.setPending w true).Reached j := by
  rcases h with hexited | hdone | hpending | hahead
  · exact Or.inl hexited
  · exact Or.inr (Or.inl hdone)
  · refine Or.inr (Or.inr (Or.inl ?_))
    rw [setPending_pending, Function.update_apply, hpending, ite_self]
  · exact Or.inr (Or.inr (Or.inr hahead))

theorem Reached.pthreadKill {j : Fin n} (i : Fin n) (h : s.Reached j) :
    (s.pthreadKill i).Reached j := by
  unfold Process.pthreadKill
  split
  · exact h.setPending _
  · split
    · exact h.of_same rfl rfl rfl rfl
    · exact h

/-- A thread that has not been created is not reached. -/
theorem Sound.not_reached (h : s.Sound) {j : Fin n} (hj : s.servers j = .absent) :
    ¬ s.Reached j := by
  obtain ⟨hdone, hpending⟩ := h.asleep j hj
  rintro (hexited | hset | hset | hahead)
  · rw [hj] at hexited
    cases hexited
  · rw [hdone] at hset
    cases hset
  · rw [hpending] at hset
    cases hset
  · refine (h.handler (.server j) fun hnone => ?_).1 hj
    rw [hnone] at hahead
    exact hahead

/-- The index behind one that is not its own. -/
theorem Handler.Ahead.next {i j : Fin n} (h : (Handler.check i).Ahead j)
    (hne : Tid.server j ≠ Tid.server i) : (Handler.check (i + 1)).Ahead j ∧ (Handler.kill i).Ahead j
    := by
  have hij : (i : Nat) ≠ j := fun heq => hne (by rw [Fin.ext heq])
  have hle : (i : Nat) ≤ j := h
  constructor
  · show (i : Nat) + 1 ≤ j
    omega
  · show i < j
    exact Fin.lt_def.mpr (by omega)

theorem Reached.step {e : ProcessEvent n} {j : Fin n} (hsound : s.Sound) (h : s.Reached j)
    (hstep : s.Step e t) : t.Reached j := by
  cases hstep with
  | sigint _ => exact h.setPending _
  | @enter w _ _ hpc =>
      by_cases hw : w = .server j
      · subst hw
        refine Or.inr (Or.inr (Or.inr ?_))
        show Handler.Ahead j (Function.update s.handlers (.server j) (.check 0) (.server j))
        rw [Function.update_self]
        exact Nat.zero_le _
      · refine h.of_same rfl rfl ?_ ?_
        · exact Function.update_of_ne (Ne.symm hw) _ _
        · exact Function.update_of_ne (Ne.symm hw) _ _
  | @own i hpc =>
      by_cases hij : i = j
      · subst hij
        exact Or.inr (Or.inl (Function.update_self _ _ _))
      · have hne : Tid.server j ≠ Tid.server i := fun heq => hij (Tid.server.inj heq).symm
        exact h.of_same rfl (Function.update_of_ne (Ne.symm hij) _ _) rfl
          (Function.update_of_ne hne _ _)
  | pass hpc hw _ =>
      refine h.setHandler fun heq hahead => ?_
      rw [hpc] at hahead
      subst heq
      exact (Handler.Ahead.next hahead hw).1
  | decide hpc hw _ =>
      refine h.setHandler fun heq hahead => ?_
      rw [hpc] at hahead
      subst heq
      exact (Handler.Ahead.next hahead hw).2
  | @kill w i hpc =>
      refine (h.pthreadKill i).setHandler fun _ hahead => ?_
      rw [pthreadKill_handlers, hpc] at hahead
      exact hahead
  | @leave w i hpc hle =>
      refine h.setHandler fun _ hahead => ?_
      rw [hpc] at hahead
      have hlt := j.isLt
      have hij : i ≤ (j : Nat) := hahead
      omega
  | create _ _ => exact h.of_same rfl rfl rfl rfl
  | @startServer i hnone hmain =>
      by_cases hij : i = j
      · subst hij
        have habsent : s.servers i = .absent := (hsound.absent i).mpr (by simp [started, hmain])
        exact absurd h (hsound.not_reached habsent)
      · exact h.of_same (Function.update_of_ne (Ne.symm hij) _ _)
          (Function.update_of_ne (Ne.symm hij) _ _) rfl rfl
  | allStarted _ _ _ => exact h.of_same rfl rfl rfl rfl
  | join _ _ _ => exact h.of_same rfl rfl rfl rfl
  | allJoined _ _ _ => exact h.of_same rfl rfl rfl rfl
  | destroy _ _ => exact h.of_same rfl rfl rfl rfl
  | @move i _ pc hnone hmove =>
      rcases h with hexited | hrest
      · by_cases hij : i = j
        · subst hij
          exact absurd hexited hmove.alive.2
        · refine Or.inl ?_
          rw [setServer_servers, Function.update_of_ne (Ne.symm hij)]
          exact hexited
      · exact Or.inr hrest
  | packet _ _ => exact h.of_same rfl rfl rfl rfl

/-! ## What a handler leaves behind -/

/-- A `pthread_kill` of a thread that exists. -/
theorem reached_of_kill {i : Fin n} (h : (s.pthreadKill i).undefined = false) :
    (s.pthreadKill i).Reached i := by
  by_cases hi : s.Alive (.server i)
  · refine Or.inr (Or.inr (Or.inl ?_))
    rw [pthreadKill_pending, if_pos hi, Function.update_self]
  · have hdefined : ¬ (s.pthreadKill i).undefined = true := by simp [h]
    rw [pthreadKill_undefined] at hdefined
    refine Or.inl ?_
    rw [pthreadKill_servers]
    by_contra hexited
    exact hdefined (Or.inr ⟨hi, Or.inl (by_contra fun habsent => hi ⟨habsent, hexited⟩)⟩)

/-- What has gone wrong stays so. -/
theorem undefined_of_step {e : ProcessEvent n} (hstep : s.Step e t) (h : t.undefined = false) :
    s.undefined = false := by
  cases hstep with
  | @kill w i hpc =>
      have hkill : ¬ (s.pthreadKill i).undefined = true := by
        rw [show (s.pthreadKill i).undefined = false from h]
        simp
      rw [pthreadKill_undefined] at hkill
      simpa using fun heq => hkill (Or.inl heq)
  | _ => exact h

/-- A handler goes on, and what it has behind it is reached. -/
theorem Spread.moveHandler (h : s.Spread) {w : Tid n} {p : Handler n}
    (hreached : ∀ j, s.Reached j → t.Reached j)
    (hhandlers : t.handlers = Function.update s.handlers w p)
    (hpast : ∀ j, p.Past j → t.Reached j)
    (hall : t.called = true → p ≠ .none ∨ ∀ j, t.Reached j) : t.Spread where
  passed v j hv := by
    rw [hhandlers] at hv
    by_cases hvw : v = w
    · subst hvw
      rw [Function.update_self] at hv
      exact hpast j hv
    · rw [Function.update_of_ne hvw] at hv
      exact hreached j (h.passed v j hv)
  all hcalled := by
    rcases hall hcalled with hpc | hall
    · refine Or.inl ⟨w, ?_⟩
      rw [hhandlers, Function.update_self]
      exact hpc
    · exact Or.inr hall

/-- A step that leaves the handlers alone. -/
theorem Spread.keep (h : s.Spread) (hreached : ∀ j, s.Reached j → t.Reached j)
    (hhandlers : t.handlers = s.handlers) (hcalled : t.called = s.called) : t.Spread where
  passed w j hw := hreached j (h.passed w j (by rwa [hhandlers] at hw))
  all hc := by
    rw [hhandlers]
    exact (h.all (by rwa [hcalled] at hc)).imp_right fun hall j => hreached j (hall j)

theorem Spread.step {e : ProcessEvent n} (hsound : s.Sound) (h : s.Spread)
    (hstep : s.Step e t) (hdefined : t.undefined = false) : t.Spread := by
  have hreached : ∀ j, s.Reached j → t.Reached j := fun j hj => hj.step hsound hstep
  cases hstep with
  | enter _ _ _ =>
      exact h.moveHandler hreached rfl (fun j hj => absurd hj (Nat.not_lt_zero j))
        fun _ => Or.inl (by simp)
  | @own i hpc =>
      refine h.moveHandler hreached rfl (fun j hj => ?_) fun _ => Or.inl (by simp)
      have hle : (j : Nat) < i + 1 := hj
      by_cases hij : j = i
      · subst hij
        exact Or.inr (Or.inl (Function.update_self _ _ _))
      · refine hreached j (h.passed (.server i) j ?_)
        have hne : (j : Nat) ≠ i := fun heq => hij (Fin.ext heq)
        rw [hpc]
        show (j : Nat) < i
        omega
  | @pass w i hpc _ hdone =>
      refine h.moveHandler hreached rfl (fun j hj => ?_) fun _ => Or.inl (by simp)
      have hle : (j : Nat) < i + 1 := hj
      by_cases hij : j = i
      · subst hij
        exact Or.inr (Or.inl hdone)
      · refine hreached j (h.passed w j ?_)
        have hne : (j : Nat) ≠ i := fun heq => hij (Fin.ext heq)
        rw [hpc]
        show (j : Nat) < i
        omega
  | @decide w i hpc _ _ =>
      refine h.moveHandler hreached rfl (fun j hj => hreached j (h.passed w j ?_))
        fun _ => Or.inl (by simp)
      rw [hpc]
      exact hj
  | @kill w i hpc =>
      refine h.moveHandler (w := w) (p := .check (i + 1)) hreached ?_ (fun j hj => ?_)
        fun _ => Or.inl (by simp)
      · rw [setHandler_handlers, pthreadKill_handlers]
      · have hle : (j : Nat) < i + 1 := hj
        by_cases hij : j = i
        · subst hij
          -- the handler of the thread itself is not involved in the kill
          refine (reached_of_kill hdefined).setHandler fun _ hahead => ?_
          rw [pthreadKill_handlers, hpc] at hahead
          exact hahead
        · refine hreached j (h.passed w j ?_)
          have hne : (j : Nat) ≠ i := fun heq => hij (Fin.ext heq)
          rw [hpc]
          show j < i
          exact Fin.lt_def.mpr (by omega)
  | @leave w i hpc hle =>
      refine h.moveHandler hreached rfl (fun j hj => hj.elim) fun _ => Or.inr fun j => ?_
      refine hreached j (h.passed w j ?_)
      have hlt := j.isLt
      rw [hpc]
      show (j : Nat) < i
      omega
  | sigint _ => exact h.keep hreached rfl rfl
  | create _ _ => exact h.keep hreached rfl rfl
  | startServer _ _ => exact h.keep hreached rfl rfl
  | allStarted _ _ _ => exact h.keep hreached rfl rfl
  | join _ _ _ => exact h.keep hreached rfl rfl
  | allJoined _ _ _ => exact h.keep hreached rfl rfl
  | destroy _ _ => exact h.keep hreached rfl rfl
  | move _ _ => exact h.keep hreached rfl rfl
  | packet _ _ => exact h.keep hreached rfl rfl

theorem Spread.run {es : List (ProcessEvent n)} (h : (process n).exec .start es = some s)
    (hdefined : s.undefined = false) : s.Spread := by
  have hinv : s.Sound ∧ (s.undefined = false → s.Spread) := by
    refine Machine.Reachable.invariant (M := process n)
      (I := fun s => s.Sound ∧ (s.undefined = false → s.Spread)) ?_ ⟨es, h⟩
      ⟨.start, fun _ => .start⟩
    rintro s e t ⟨hsound, hspread⟩ hstep
    refine ⟨hsound.step hstep, fun ht => ?_⟩
    have hinv := step_inv hstep
    exact (hspread (undefined_of_step hinv ht)).step hsound hinv ht
  exact hinv.2 hdefined

/-- No handler runs, and none will run without a signal from outside. -/
structure Quiet (s : Process n) : Prop where
  handlers : ∀ w, s.handlers w = .none
  pending : ∀ w, s.Alive w → s.pending w = false

/-- Where all handlers have come to their end the signal has come to every server thread. -/
theorem Spread.reaches (h : s.Spread) (hsound : s.Sound) (hcalled : s.called = true)
    (hquiet : s.Quiet) (i : Fin n) : s.done i = true ∨ s.servers i = .exited := by
  rcases h.all hcalled with ⟨w, hw⟩ | hall
  · exact absurd (hquiet.handlers w) hw
  · rcases hall i with hexited | hdone | hpending | hahead
    · exact Or.inr hexited
    · exact Or.inl hdone
    · -- a signal is pending, so the thread is not alive any more
      by_contra hno
      have halive : s.Alive (.server i) := by
        refine ⟨fun habsent => ?_, fun hexited => hno (Or.inr hexited)⟩
        rw [(hsound.asleep i habsent).2] at hpending
        cases hpending
      rw [hquiet.pending _ halive] at hpending
      cases hpending
    · rw [hquiet.handlers] at hahead
      exact hahead.elim

/-- When `SignalHandler` has been called and all handlers have come to their end, every server
thread has its flag set or has left. -/
theorem sigint_reaches_all {es : List (ProcessEvent n)}
    (h : (process n).exec .start es = some s) (hcalled : s.called = true)
    (hdefined : s.undefined = false) (hquiet : s.Quiet) (i : Fin n) :
    s.done i = true ∨ s.servers i = .exited :=
  (Spread.run h hdefined).reaches (Sound.run h) hcalled hquiet i

theorem sigint_reaches_all_one : ∃ s, (process 1).exec .start signalled = some s ∧
    (s.done only = true ∨ s.servers only = .exited) := by
  obtain ⟨s, hexec, hcalled, hdefined, hhandlers, hpending⟩ :
      ∃ s, (process 1).exec .start signalled = some s ∧ s.called = true ∧ s.undefined = false ∧
        (∀ w, s.handlers w = .none) ∧ ∀ w, s.pending w = false := by
    refine ⟨_, rfl, rfl, rfl, ?_, ?_⟩
    · decide
    · decide
  exact ⟨s, hexec,
    sigint_reaches_all hexec hcalled hdefined ⟨hhandlers, fun w _ => hpending w⟩ only⟩

end Process

/-! ## How far it goes -/

/-- Nothing comes from outside: no signal, no batch and no packet. -/
def ProcessEvent.Calm {n : Nat} : ProcessEvent n → Prop
  | .sigint _ => False
  | .events _ => False
  | .packet _ _ => False
  | _ => True

/-- A SIGINT from outside. -/
def ProcessEvent.isSigint {n : Nat} : ProcessEvent n → Bool
  | .sigint _ => true
  | _ => false

/-- What a thread does by itself. -/
def ProcessEvent.Own {n : Nat} : ProcessEvent n → Prop
  | .enter _ => True
  | .handler _ => True
  | .main => True
  | .server _ => True
  | _ => False

def ServerPc.rank : ServerPc → Nat
  | .absent => 6
  | .starting => 5
  | .batch => 4
  | .loop => 3
  | .wait => 2
  | .leaving => 1
  | .exited => 0

def MainPc.rank (n : Nat) : MainPc → Nat
  | .create => 2 * n + 5
  | .starting i => n - i + n + 4
  | .joining i => n - i + 2
  | .destroy => 1
  | .returned => 0

def Handler.rank {n : Nat} : Handler n → Nat
  | .none => 0
  | .check i => 2 * (n - i) + 1
  | .kill i => 2 * (n - i)

instance {n : Nat} (j : Fin n) : ∀ pc : Handler n, Decidable (pc.Ahead j)
  | .none => inferInstanceAs (Decidable False)
  | .check i => inferInstanceAs (Decidable (i ≤ (j : Nat)))
  | .kill i => inferInstanceAs (Decidable (i < j))

namespace Process

variable {n : Nat} {s t : Process n}

open Threads

/-- Whether `SignalHandler` may still be called in the thread, with the flags as they are. -/
def mayCall (s : Process n) : Tid n → Nat
  | .main => (s.pending .main).toNat
  | .server j =>
      if s.done j then (s.pending (.server j)).toNat
      else if (s.handlers (.server j)).Ahead j then 0 else 1

/-- A `pthread_kill` is on its way to a thread whose flag has been set. -/
def late (s : Process n) : Handler n → Nat
  | .kill i => (s.done i).toNat
  | _ => 0

/-- The calls of `SignalHandler` that may come without another flag being set. -/
def loose (s : Process n) : Nat := ∑ w, (s.mayCall w + s.late (s.handlers w))

/-- How many flags are not set. -/
def notDone (s : Process n) : Nat := ∑ i, (!s.done i).toNat

/-- How many steps the threads have in front of them, where they are. -/
def threadRank (s : Process n) : Nat :=
  ∑ w, (s.handlers w).rank + ∑ i, (s.servers i).rank + s.main.rank n

/-- A flag is set, or a handler is called, or a thread goes on. -/
def rank (s : Process n) : Nat :=
  lexRank (2 * Fintype.card (Tid n)) (2 * n + 3) s.notDone s.loose s.threadRank

theorem mayCall_le (s : Process n) (w : Tid n) : s.mayCall w ≤ 1 := by
  cases w with
  | main => exact Bool.toNat_le _
  | server j =>
      rw [mayCall]
      split
      · exact Bool.toNat_le _
      · split <;> simp

theorem late_le (s : Process n) (pc : Handler n) : s.late pc ≤ 1 := by
  cases pc with
  | kill i => exact Bool.toNat_le _
  | none => exact Nat.zero_le 1
  | check i => exact Nat.zero_le 1

theorem loose_le (s : Process n) : s.loose ≤ 2 * Fintype.card (Tid n) := by
  have hsum := Finset.sum_le_card_nsmul (Finset.univ : Finset (Tid n))
    (fun w => s.mayCall w + s.late (s.handlers w)) 2 fun w _ =>
      Nat.add_le_add (s.mayCall_le w) (s.late_le _)
  rw [loose, Fintype.card, Nat.mul_comm]
  exact hsum

/-- A handler goes on. -/
theorem loose_setHandler {w : Tid n} {p : Handler n}
    (hahead : ∀ j, w = .server j → s.done j = false → (s.handlers w).Ahead j → p.Ahead j) :
    (s.setHandler w p).loose + s.late (s.handlers w) ≤ s.loose + s.late p := by
  have hcall : (s.setHandler w p).mayCall w ≤ s.mayCall w := by
    cases w with
    | main => exact le_rfl
    | server j =>
        simp only [mayCall, setHandler_handlers, Function.update_self]
        show (if s.done j then (s.pending (.server j)).toNat else _) ≤ _
        cases hdone : s.done j with
        | true => exact le_rfl
        | false =>
            by_cases hold : (s.handlers (.server j)).Ahead j
            · simp [hold, hahead j rfl hdone hold]
            · simp only [hold, if_false, Bool.false_eq_true]
              split <;> simp
  have hmove := sum_move (f := fun v => (s.setHandler w p).mayCall v +
      (s.setHandler w p).late ((s.setHandler w p).handlers v))
    (g := fun v => s.mayCall v + s.late (s.handlers v)) w fun v hv => by
      have hsame : (s.setHandler w p).handlers v = s.handlers v := by
        rw [setHandler_handlers, Function.update_of_ne hv]
      have hcalls : (s.setHandler w p).mayCall v = s.mayCall v := by
        cases v with
        | main => rfl
        | server j =>
            rw [mayCall, mayCall, hsame]
            rfl
      rw [hcalls, hsame]
      rfl
  have hlate : (s.setHandler w p).late ((s.setHandler w p).handlers w) = s.late p := by
    rw [setHandler_handlers, Function.update_self]
    rfl
  simp only [hlate] at hmove
  rw [loose, loose]
  omega

/-- A signal to a server thread counts only if the flag of that is set. -/
theorem loose_pthreadKill (s : Process n) (i : Fin n) :
    (s.pthreadKill i).loose ≤ s.loose + (s.done i).toNat := by
  have hlate : ∀ pc, (s.pthreadKill i).late pc = s.late pc := by
    intro pc
    cases pc with
    | kill j => rw [late, late, pthreadKill_done]
    | none => rfl
    | check j => rfl
  have hmove := sum_move (f := fun v => (s.pthreadKill i).mayCall v +
      (s.pthreadKill i).late ((s.pthreadKill i).handlers v))
    (g := fun v => s.mayCall v + s.late (s.handlers v)) (.server i) fun v hv => by
      have hsame : (s.pthreadKill i).pending v = s.pending v := by
        rw [pthreadKill_pending]
        split
        · rw [Function.update_of_ne hv]
        · rfl
      have hcalls : (s.pthreadKill i).mayCall v = s.mayCall v := by
        cases v with
        | main => rw [mayCall, mayCall, hsame]
        | server j => rw [mayCall, mayCall, hsame, pthreadKill_done, pthreadKill_handlers]
      rw [hcalls, hlate, pthreadKill_handlers]
  have hcall : (s.pthreadKill i).mayCall (.server i) ≤
      s.mayCall (.server i) + (s.done i).toNat := by
    rw [mayCall, mayCall, pthreadKill_done, pthreadKill_handlers]
    cases hdone : s.done i with
    | true =>
        have hle := Bool.toNat_le ((s.pthreadKill i).pending (.server i))
        simp only [if_true, Bool.toNat_true]
        omega
    | false => simp
  simp only [hlate, pthreadKill_handlers] at hmove
  simp only [loose, hlate, pthreadKill_handlers]
  omega

theorem threadRank_setHandler (s : Process n) (w : Tid n) (pc : Handler n) :
    (s.setHandler w pc).threadRank + (s.handlers w).rank = s.threadRank + pc.rank := by
  have hmove := sum_move (f := fun v => ((s.setHandler w pc).handlers v).rank)
    (g := fun v => (s.handlers v).rank) w fun v hv => by
      rw [setHandler_handlers, Function.update_of_ne hv]
  simp only [setHandler_handlers, Function.update_self] at hmove
  show ∑ v, (Function.update s.handlers w pc v).rank + ∑ i, (s.servers i).rank + s.main.rank n +
    (s.handlers w).rank = _
  rw [threadRank]
  omega

theorem threadRank_setServer (s : Process n) (i : Fin n) (pc : ServerPc) :
    (s.setServer i pc).threadRank + (s.servers i).rank = s.threadRank + pc.rank := by
  have hmove := sum_move (f := fun j => ((s.setServer i pc).servers j).rank)
    (g := fun j => (s.servers j).rank) i fun j hj => by
      rw [setServer_servers, Function.update_of_ne hj]
  simp only [setServer_servers, Function.update_self] at hmove
  show ∑ v, (s.handlers v).rank + ∑ j, (Function.update s.servers i pc j).rank + s.main.rank n +
    (s.servers i).rank = _
  rw [threadRank]
  omega

@[simp] theorem threadRank_pthreadKill (s : Process n) (i : Fin n) :
    (s.pthreadKill i).threadRank = s.threadRank := by
  simp [threadRank]

@[simp] theorem notDone_pthreadKill (s : Process n) (i : Fin n) :
    (s.pthreadKill i).notDone = s.notDone := by
  simp [notDone]

theorem notDone_update (s : Process n) (i : Fin n) (hdone : s.done i = false) :
    ∑ j, (!Function.update s.done i true j).toNat + 1 = s.notDone := by
  have hmove := sum_move (f := fun j => (!Function.update s.done i true j).toNat)
    (g := fun j => (!s.done j).toNat) i fun j hj => by rw [Function.update_of_ne hj]
  simpa [hdone, notDone] using hmove

/-- A handler goes on, and no flag is set. -/
theorem rank_setHandler {w : Tid n} {pc : Handler n}
    (hahead : ∀ j, w = .server j → s.done j = false → (s.handlers w).Ahead j → pc.Ahead j)
    (hlate : s.late pc ≤ s.late (s.handlers w)) (hpc : pc.rank < (s.handlers w).rank) :
    (s.setHandler w pc).rank < s.rank := by
  have hloose := loose_setHandler hahead
  have hthreads := s.threadRank_setHandler w pc
  refine lexRank_lt_third (le_refl s.notDone) ?_ ?_ <;> omega

theorem rank_own {i : Fin n} (hpc : s.handlers (.server i) = .check i) :
    ({ s.setHandler (.server i) (.check (i + 1)) with
      done := Function.update s.done i true } : Process n).rank < s.rank := by
  have hlt := i.isLt
  have hdown : (Handler.check (n := n) (i + 1)).rank < (s.handlers (.server i)).rank := by
    rw [hpc]
    simp only [Handler.rank]
    omega
  cases hdone : s.done i with
  | true =>
      have hsame : Function.update s.done i true = s.done := by
        rw [← hdone, Function.update_eq_self]
      rw [hsame]
      refine rank_setHandler (fun j hj hnot _ => ?_) ?_ hdown
      · cases hj
        rw [hdone] at hnot
        cases hnot
      · rw [hpc]
        exact le_rfl
  | false =>
      have hflags := s.notDone_update i hdone
      have hthreads := s.threadRank_setHandler (.server i) (.check (i + 1))
      refine lexRank_lt_first ?_ (loose_le _) ?_
      · show ∑ j, (!Function.update s.done i true j).toNat < s.notDone
        omega
      · show (s.setHandler (.server i) (.check (i + 1))).threadRank < _
        omega

theorem rank_enter {w : Tid n} (hpending : s.pending w = true) (hpc : s.handlers w = .none) :
    ({ (s.setPending w false).setHandler w (.check 0) with called := true } : Process n).rank <
      s.rank := by
  have hthreads := (s.setPending w false).threadRank_setHandler w (.check 0)
  have hrank : ((s.setPending w false).handlers w).rank = 0 := by
    show (s.handlers w).rank = 0
    rw [hpc]
    rfl
  have hmove := sum_move
    (f := fun v => ((s.setPending w false).setHandler w (.check 0)).mayCall v +
      s.late (Function.update s.handlers w (.check 0) v))
    (g := fun v => s.mayCall v + s.late (s.handlers v)) w fun v hv => by
      have hcalls : ((s.setPending w false).setHandler w (.check 0)).mayCall v = s.mayCall v := by
        cases v with
        | main =>
            show (Function.update s.pending w false .main).toNat = _
            rw [Function.update_of_ne hv, mayCall]
        | server j =>
            show (if s.done j then (Function.update s.pending w false (.server j)).toNat
              else if (Function.update s.handlers w (.check 0) (.server j)).Ahead j then 0
              else 1) = _
            rw [Function.update_of_ne hv, Function.update_of_ne hv, mayCall]
      rw [hcalls, Function.update_of_ne hv]
  have hbefore : s.mayCall w = 1 := by
    cases w with
    | main => rw [mayCall, hpending, Bool.toNat_true]
    | server j =>
        rw [mayCall, hpending, hpc, if_neg (fun h : (Handler.none).Ahead j => h.elim)]
        simp
  have hafter : ((s.setPending w false).setHandler w (.check 0)).mayCall w = 0 := by
    cases w with
    | main =>
        show (Function.update s.pending .main false .main).toNat = 0
        rw [Function.update_self, Bool.toNat_false]
    | server j =>
        show (if s.done j then (Function.update s.pending (.server j) false (.server j)).toNat
          else if (Function.update s.handlers (.server j) (.check 0) (.server j)).Ahead j then 0
          else 1) = 0
        rw [Function.update_self, Function.update_self,
          if_pos (show (Handler.check 0).Ahead j from Nat.zero_le _)]
        simp
  have hnone : s.late .none = 0 := rfl
  have hcheck : s.late (.check 0) = 0 := rfl
  simp only [hbefore, hafter, hpc, Function.update_self, hnone, hcheck] at hmove
  have hloose : ∑ v, (((s.setPending w false).setHandler w (.check 0)).mayCall v +
      s.late (Function.update s.handlers w (.check 0) v)) < s.loose := by
    rw [loose]
    omega
  refine lexRank_lt_second (le_refl s.notDone) hloose ?_
  show ((s.setPending w false).setHandler w (.check 0)).threadRank < _
  have hstart : (Handler.check (n := n) 0).rank = 2 * n + 1 := by simp [Handler.rank]
  have hsame : (s.setPending w false).threadRank = s.threadRank := rfl
  omega

theorem rank_kill {w : Tid n} {i : Fin n} (hpc : s.handlers w = .kill i) :
    ((s.pthreadKill i).setHandler w (.check (i + 1))).rank < s.rank := by
  have hlt := i.isLt
  have hsame : (s.pthreadKill i).handlers w = .kill i := by rw [pthreadKill_handlers, hpc]
  have hlate : (s.pthreadKill i).late (.kill i) = (s.done i).toNat := by
    rw [late, pthreadKill_done]
  have hkill := s.loose_pthreadKill i
  have hloose : ((s.pthreadKill i).setHandler w (.check (i + 1))).loose + (s.done i).toNat ≤
      (s.pthreadKill i).loose := by
    have hgoes := loose_setHandler (s := s.pthreadKill i) (w := w) (p := .check (i + 1))
      fun j hj _ hahead => by
        rw [hsame] at hahead
        exact hahead
    rwa [hsame, hlate] at hgoes
  have hthreads := (s.pthreadKill i).threadRank_setHandler w (.check (i + 1))
  rw [hsame, threadRank_pthreadKill] at hthreads
  simp only [Handler.rank] at hthreads
  refine lexRank_lt_third (le_of_eq (s.notDone_pthreadKill i)) ?_ ?_
  · omega
  · omega

/-- A server thread or `main` goes on. -/
theorem rank_of_threadRank (hdone : t.done = s.done) (hpending : t.pending = s.pending)
    (hhandlers : t.handlers = s.handlers) (hlt : t.threadRank < s.threadRank) :
    t.rank < s.rank := by
  have hcalls : ∀ w, t.mayCall w = s.mayCall w := by
    intro w
    cases w with
    | main => rw [mayCall, mayCall, hpending]
    | server j => rw [mayCall, mayCall, hpending, hdone, hhandlers]
  have hlate : ∀ pc, t.late pc = s.late pc := by
    intro pc
    cases pc with
    | kill j => rw [late, late, hdone]
    | none => rfl
    | check j => rfl
  refine lexRank_lt_third ?_ ?_ hlt
  · rw [notDone, notDone, hdone]
  · simp only [loose, hcalls, hlate, hhandlers, le_refl]

theorem rank_setMain {pc : MainPc} {calls : List LibCall} (hlt : pc.rank n < s.main.rank n) :
    ({ s with main := pc, calls := calls } : Process n).rank < s.rank := by
  refine rank_of_threadRank rfl rfl rfl ?_
  show ∑ w, (s.handlers w).rank + ∑ i, (s.servers i).rank + pc.rank n < _
  rw [threadRank]
  omega

theorem rank_startServer {i : Fin n} (hsound : s.Sound) (hmain : s.main = .starting i) :
    ({ s.setServer i .starting with
      main := .starting (i + 1), done := Function.update s.done i false } : Process n).rank <
      s.rank := by
  have hlt := i.isLt
  have habsent : s.servers i = .absent := (hsound.absent i).mpr (by simp [started, hmain])
  have hsame : Function.update s.done i false = s.done := by
    rw [← (hsound.asleep i habsent).1, Function.update_eq_self]
  have hmove : (s.setServer i .starting).threadRank + 6 = s.threadRank + 5 := by
    have hthreads := s.threadRank_setServer i .starting
    rwa [habsent] at hthreads
  refine rank_of_threadRank hsame rfl rfl ?_
  have hmains : ({ s.setServer i .starting with
      main := .starting (i + 1), done := Function.update s.done i false } : Process n).threadRank +
        s.main.rank n =
      (s.setServer i .starting).threadRank + (MainPc.starting (i + 1)).rank n :=
    Nat.add_right_comm _ _ _
  have hdown : (MainPc.starting (i + 1)).rank n < s.main.rank n := by
    rw [hmain]
    simp only [MainPc.rank]
    omega
  omega

/-- Without anything from outside every step takes something off the rank. -/
theorem rank_step {e : ProcessEvent n} (hsound : s.Sound) (he : e.Calm)
    (hstep : (process n).step s e = some t) : t.rank < s.rank := by
  cases step_inv hstep with
  | sigint _ => exact he.elim
  | packet _ _ => exact he.elim
  | enter _ hpending hpc => exact rank_enter hpending hpc
  | own hpc => exact rank_own hpc
  | @pass w i hpc hw _ =>
      have hlt := i.isLt
      refine rank_setHandler (fun j hj _ hahead => ?_) (Nat.zero_le _) ?_
      · rw [hpc] at hahead
        subst hj
        exact (Handler.Ahead.next hahead hw).1
      · rw [hpc]
        simp only [Handler.rank]
        omega
  | @decide w i hpc hw hdone =>
      have hlt := i.isLt
      refine rank_setHandler (fun j hj _ hahead => ?_) ?_ ?_
      · rw [hpc] at hahead
        subst hj
        exact (Handler.Ahead.next hahead hw).2
      · rw [late, hdone, Bool.toNat_false]
        exact Nat.zero_le _
      · rw [hpc]
        simp only [Handler.rank]
        omega
  | kill hpc => exact rank_kill hpc
  | @leave w i hpc hle =>
      refine rank_setHandler (fun j _ _ hahead => ?_) (Nat.zero_le _) ?_
      · rw [hpc] at hahead
        have hlt := j.isLt
        have hij : i ≤ (j : Nat) := hahead
        omega
      · rw [hpc]
        exact Nat.succ_pos _
  | create _ hmain =>
      refine rank_setMain ?_
      rw [hmain]
      simp only [MainPc.rank]
      omega
  | startServer _ hmain => exact rank_startServer hsound hmain
  | allStarted _ hmain hle =>
      refine rank_setMain ?_
      rw [hmain]
      simp only [MainPc.rank]
      omega
  | @join i _ hmain _ =>
      have hlt := i.isLt
      refine rank_setMain ?_
      rw [hmain]
      simp only [MainPc.rank]
      omega
  | allJoined _ hmain hle =>
      refine rank_setMain ?_
      rw [hmain]
      simp only [MainPc.rank]
      omega
  | destroy _ hmain =>
      refine rank_setMain ?_
      rw [hmain]
      exact Nat.zero_lt_one
  | @move i _ pc _ hmove =>
      refine rank_of_threadRank rfl rfl rfl ?_
      have hthreads := s.threadRank_setServer i pc
      have hdown : pc.rank < (s.servers i).rank := by
        cases hmove with
        | events _ => exact he.elim
        | _ => simp [*, ServerPc.rank]
      omega

/-! ## Where it stops -/

/-- No thread can go on by itself. -/
def Stuck (s : Process n) : Prop :=
  ∀ e : ProcessEvent n, e.Own → (process n).step s e = none

/-- No batch is being worked on, and no wait goes on in a thread in which the handler has run. -/
structure Released (s : Process n) : Prop where
  batches : ∀ i, s.servers i ≠ .batch
  waits : ∀ i, s.servers i = .wait → s.done i = false

section Stuck

variable (h : s.Stuck) (hlive : s.exited = false)

include h hlive

theorem Stuck.step {e : ProcessEvent n} (he : e.Own) : s.step e = none :=
  (process_step hlive e).symm.trans (h e he)

/-- A handler can always go on. -/
theorem Stuck.handlers (w : Tid n) : s.handlers w = .none := by
  have hstep : s.handlerStep w = none := h.step (e := .handler w) hlive trivial
  unfold handlerStep at hstep
  cases hpc : s.handlers w with
  | none => rfl
  | kill i =>
      rw [hpc] at hstep
      cases hstep
  | check i =>
      rw [hpc] at hstep
      simp only at hstep
      split at hstep
      · split at hstep
        · cases hstep
        · split at hstep <;> cases hstep
      · cases hstep

theorem Stuck.quiet : s.Quiet where
  handlers := h.handlers hlive
  pending w halive := by
    have hstep := h.step (e := .enter w) hlive trivial
    by_contra hpending
    have hcan : s.Alive w ∧ s.pending w = true ∧ s.handlers w = .none :=
      ⟨halive, by simpa using hpending, h.handlers hlive w⟩
    simp [Process.step, hcan] at hstep

/-- A server thread that cannot go on and has its flag set is not there. -/
theorem Stuck.server (hreleased : s.Released) {i : Fin n}
    (hi : s.done i = true ∨ s.servers i = .exited) :
    s.servers i = .absent ∨ s.servers i = .exited := by
  rcases hi with hdone | hexited
  · have hstep := h.step (e := .server i) hlive trivial
    simp only [Process.step, h.handlers hlive, if_true] at hstep
    unfold serverStep at hstep
    cases hpc : s.servers i with
    | absent => exact Or.inl rfl
    | exited => exact Or.inr rfl
    | batch => exact absurd hpc (hreleased.batches i)
    | wait =>
        rw [hreleased.waits i hpc] at hdone
        cases hdone
    | starting | loop | leaving => simp [hpc] at hstep
  · exact Or.inr hexited

theorem Stuck.main (hsound : s.Sound)
    (hservers : ∀ i, s.servers i = .absent ∨ s.servers i = .exited) : s.main = .returned := by
  have hstep := h.step (e := .main) hlive trivial
  simp only [Process.step, h.handlers hlive, if_true] at hstep
  unfold mainStep at hstep
  cases hmain : s.main with
  | returned => rfl
  | create => simp [hmain] at hstep
  | destroy => simp [hmain] at hstep
  | starting i =>
      simp only [hmain] at hstep
      split at hstep <;> cases hstep
  | joining i =>
      simp only [hmain] at hstep
      split at hstep
      · next hi =>
          split at hstep
          · cases hstep
          · next hexited =>
              have habsent := (hservers ⟨i, hi⟩).resolve_right hexited
              have hle := (hsound.absent ⟨i, hi⟩).mp habsent
              simp only [started, hmain] at hle
              omega
      · cases hstep

end Stuck

/-- At the end no thread can go on. -/
theorem stuck_of_ended (hmain : s.main = .returned) (hservers : ∀ i, s.servers i = .exited)
    (hhandlers : ∀ w, s.handlers w = .none) : s.Stuck := by
  intro e he
  cases e with
  | enter w =>
      have hgone : ¬ s.Alive w := by
        cases w with
        | main => simp [Alive, hmain]
        | server i => simp [Alive, hservers]
      simp [process, Process.step, hgone]
  | handler w => simp [process, Process.step, handlerStep, hhandlers]
  | main => simp [process, Process.step, mainStep, hhandlers, hmain]
  | server i => simp [process, Process.step, serverStep, hhandlers, hservers]
  | sigint _ | initFailed _ | events _ | interrupted _ | waitFailed _ | endBatch _ | packet _ _ =>
      exact he.elim

/-- Without anything new from outside every run comes to an end.  Where no thread can go on by
itself, no batch is under way and no wait whose thread has had its handler, all server threads have
left, `main` has returned and the store has been destroyed, if `SignalHandler` has been called and
no unknown opcode has ended the process. -/
theorem shutdown_completes {es es' : List (ProcessEvent n)}
    (h : (process n).exec .start es = some s) (hcalm : ∀ e ∈ es', e.Calm)
    (h' : (process n).exec s es' = some t) :
    es'.length ≤ s.rank ∧
      (t.called = true → t.undefined = false → t.exited = false → t.Stuck → t.Released →
        t.main = .returned ∧ (∀ i, t.servers i = .exited) ∧
          ∃ served, Served served false ∧ t.calls = served ++ [.destroy]) := by
  have hsound := Sound.run h
  have hall : (process n).exec .start (es ++ es') = some t := (Machine.exec_append es' h).trans h'
  constructor
  · have hle := Machine.length_le_rank_of (I := Sound) (fun _ _ _ hs hstep => hs.step hstep)
      (fun _ _ _ hs he hstep => rank_step hs he hstep) hsound hcalm h'
    omega
  · intro hcalled hdefined hlive hstuck hreleased
    have hsound' := Sound.run hall
    have hspread := Spread.run hall hdefined
    have hservers : ∀ i, t.servers i = .absent ∨ t.servers i = .exited := fun i =>
      hstuck.server hlive hreleased (hspread.reaches hsound' hcalled (hstuck.quiet hlive) i)
    have hmain := hstuck.main hlive hsound' hservers
    have hcalls := hsound'.calls
    rw [hmain] at hcalls
    exact ⟨hmain, fun i => hsound'.joined i (by simp [joined, hmain]), hcalls.2⟩

theorem shutdown_completes_one : ∃ s t, (process 1).exec .start signalled = some s ∧
    (process 1).exec s leaving = some t ∧ t.Stuck ∧ leaving.length ≤ s.rank ∧
      t.main = .returned := by
  obtain ⟨s, hexec⟩ : ∃ s, (process 1).exec .start signalled = some s := ⟨_, rfl⟩
  obtain ⟨t, hexec', hcalled, hdefined, hlive, hstuck, hexited⟩ : ∃ t,
      (process 1).exec s leaving = some t ∧ t.called = true ∧ t.undefined = false ∧
        t.exited = false ∧ t.Stuck ∧ ∀ i, t.servers i = .exited := by
    cases hexec
    refine ⟨_, rfl, rfl, rfl, rfl, stuck_of_ended rfl ?_ ?_, ?_⟩
    · decide
    · decide
    · decide
  have hreleased : t.Released :=
    ⟨fun i => by rw [hexited]; simp, fun i hwait => by rw [hexited] at hwait; cases hwait⟩
  obtain ⟨hrank, hend⟩ := shutdown_completes hexec (by simp [leaving, ProcessEvent.Calm]) hexec'
  exact ⟨s, t, hexec, hexec', hstuck, hrank, (hend hcalled hdefined hlive hstuck hreleased).1⟩

/-! ## Threads that are gone -/

/-- No signal before all server threads are there, and no failure that ends a thread. -/
def Orderly (s : Process n) : ProcessEvent n → Prop
  | .sigint _ => ∀ i, s.servers i ≠ .absent
  | .initFailed _ => False
  | .waitFailed _ => False
  | _ => True

theorem orderly_of_own {e : ProcessEvent n} (h : e.Own) : s.Orderly e := by
  cases e with
  | enter _ | handler _ | main | server _ => trivial
  | sigint _ | initFailed _ | events _ | interrupted _ | waitFailed _ | endBatch _ | packet _ _ =>
      exact h.elim

/-- What holds in orderly runs. -/
structure Kept (s : Process n) : Prop where
  left : ∀ i, s.servers i = .leaving ∨ s.servers i = .exited → s.done i = true
  present : ∀ w, s.pending w = true ∨ s.handlers w ≠ .none → ∀ i, s.servers i ≠ .absent
  main : ∀ i : Fin n, s.handlers .main = .kill i → s.joined ≤ i
  own : ∀ i, s.handlers (.server i) ≠ .kill i
  defined : n ≤ 1 → s.undefined = false

theorem Kept.start : (start : Process n).Kept where
  left i h := by rcases h with h | h <;> cases h
  present w h := by
    rcases h with h | h
    · cases h
    · exact absurd rfl h
  main i h := by cases h
  own i h := by cases h
  defined _ := rfl

/-- A handler goes on. -/
theorem Kept.setHandler (h : s.Kept) {w : Tid n} {p : Handler n} (hw : s.handlers w ≠ .none)
    (hmain : ∀ i : Fin n, w = .main → p = .kill i → s.joined ≤ i)
    (hown : ∀ i, w = .server i → p ≠ .kill i) : (s.setHandler w p).Kept where
  left := h.left
  present v hv := by
    rcases hv with hv | hv
    · exact h.present v (Or.inl hv)
    · exact h.present w (Or.inr hw)
  main i hi := by
    rw [setHandler_handlers] at hi
    by_cases hwm : w = .main
    · subst hwm
      rw [Function.update_self] at hi
      exact hmain i rfl hi
    · rw [Function.update_of_ne (Ne.symm hwm)] at hi
      exact h.main i hi
  own i hi := by
    rw [setHandler_handlers] at hi
    by_cases hwi : w = .server i
    · subst hwi
      rw [Function.update_self] at hi
      exact hown i rfl hi
    · rw [Function.update_of_ne (Ne.symm hwi)] at hi
      exact h.own i hi
  defined := h.defined

/-- `pthread_kill` where no thread is missing. -/
theorem Kept.pthreadKill (h : s.Kept) {w : Tid n} {i : Fin n} (hw : s.handlers w = .kill i) :
    (s.pthreadKill i).Kept where
  left j hj := by
    rw [pthreadKill_servers] at hj
    rw [pthreadKill_done]
    exact h.left j hj
  present v hv j := by
    rw [pthreadKill_servers]
    exact h.present w (Or.inr (by rw [hw]; simp)) j
  main j hj := by
    rw [pthreadKill_handlers] at hj
    rw [joined, pthreadKill_main]
    exact h.main j hj
  own j := by
    rw [pthreadKill_handlers]
    exact h.own j
  defined hn := by
    by_contra hundefined
    have hthere := h.present w (Or.inr (by rw [hw]; simp)) i
    rcases (pthreadKill_undefined s i).mp (by simpa using hundefined) with hold | ⟨-, hgone⟩
    · rw [h.defined hn] at hold
      cases hold
    · have hjoined : (i : Nat) < s.joined := hgone.resolve_left hthere
      cases w with
      | main =>
          have hle := h.main i hw
          omega
      | server j =>
          -- there is only one server thread
          have hij : j = i := Fin.ext (by omega)
          subst hij
          exact h.own j hw

/-- A step that leaves the handlers alone. -/
theorem Kept.frame (h : s.Kept) (hhandlers : t.handlers = s.handlers)
    (hleft : ∀ i, t.servers i = .leaving ∨ t.servers i = .exited → t.done i = true)
    (hpending : ∀ w, t.pending w = true → s.pending w = true ∨ ∀ i, s.servers i ≠ .absent)
    (habsent : ∀ i, t.servers i = .absent → s.servers i = .absent)
    (hjoined : s.handlers .main ≠ .none → t.joined = s.joined)
    (hdefined : t.undefined = s.undefined) : t.Kept where
  left := hleft
  present w hw i hi := by
    rw [hhandlers] at hw
    rcases hw with hw | hw
    · rcases hpending w hw with hp | hp
      · exact h.present w (Or.inl hp) i (habsent i hi)
      · exact hp i (habsent i hi)
    · exact h.present w (Or.inr hw) i (habsent i hi)
  main i hi := by
    rw [hhandlers] at hi
    rw [hjoined (by rw [hi]; simp)]
    exact h.main i hi
  own i := by
    rw [hhandlers]
    exact h.own i
  defined hn := by
    rw [hdefined]
    exact h.defined hn

/-- Who leaves in an orderly run has its flag set. -/
theorem Moves.flag {i : Fin n} {e : ProcessEvent n} {pc : ServerPc} (h : s.Moves i e pc)
    (hleft : ∀ i, s.servers i = .leaving ∨ s.servers i = .exited → s.done i = true)
    (he : s.Orderly e) (hpc : pc = .leaving ∨ pc = .exited) : s.done i = true := by
  cases h with
  | stop _ hdone => exact hdone
  | interrupted _ hdone => exact hdone
  | exit hleaving => exact hleft i (Or.inl hleaving)
  | initFailed _ => exact he.elim
  | waitFailed _ => exact he.elim
  | started _ | wait _ _ | endBatch _ | events _ => rcases hpc with hpc | hpc <;> cases hpc

theorem Kept.step {e : ProcessEvent n} (hsound : s.Sound) (h : s.Kept) (he : s.Orderly e)
    (hstep : s.Step e t) : t.Kept := by
  cases hstep with
  | @sigint w halive =>
      refine h.frame rfl h.left (fun _ _ => Or.inr he) (fun _ hi => hi) (fun _ => rfl) rfl
  | @enter w halive hpending hpc =>
      have hthere := h.present w (Or.inl hpending)
      have hset : ((s.setPending w false).setHandler w (.check 0)).Kept := by
        refine ⟨h.left, fun _ _ => hthere, fun i hi => ?_, fun i hi => ?_, h.defined⟩
        · rw [setHandler_handlers, Function.update_apply] at hi
          split at hi
          · cases hi
          · exact h.main i hi
        · rw [setHandler_handlers, Function.update_apply] at hi
          split at hi
          · cases hi
          · exact h.own i hi
      exact ⟨hset.left, hset.present, hset.main, hset.own, hset.defined⟩
  | @own i hpc =>
      have hset := h.setHandler (w := .server i) (p := .check (i + 1)) (by rw [hpc]; simp)
        (fun _ _ hk => by cases hk) (fun _ _ hk => by cases hk)
      refine hset.frame rfl (fun j hj => ?_) (fun _ hp => Or.inl hp) (fun _ hi => hi)
        (fun _ => rfl) rfl
      show Function.update s.done i true j = true
      rw [Function.update_apply]
      split
      · rfl
      · exact h.left j hj
  | pass hpc _ _ =>
      exact h.setHandler (by rw [hpc]; simp) (fun _ _ hk => by cases hk) (fun _ _ hk => by cases hk)
  | @decide w i hpc hw hdone =>
      refine h.setHandler (by rw [hpc]; simp) (fun j _ hk => ?_) (fun j hj hk => ?_)
      · cases hk
        by_contra hlt
        have hexited := hsound.joined i (by omega)
        rw [h.left i (Or.inr hexited)] at hdone
        cases hdone
      · cases hk
        exact hw hj
  | @kill w i hpc =>
      refine (h.pthreadKill hpc).setHandler ?_ (fun _ _ hk => by cases hk)
        (fun _ _ hk => by cases hk)
      rw [pthreadKill_handlers, hpc]
      simp
  | leave hpc _ =>
      exact h.setHandler (by rw [hpc]; simp) (fun _ _ hk => by cases hk) (fun _ _ hk => by cases hk)
  | create hnone _ =>
      exact h.frame rfl h.left (fun _ hp => Or.inl hp) (fun _ hi => hi)
        (fun hne => absurd hnone hne) rfl
  | @startServer i hnone hmain =>
      refine h.frame rfl (fun j hj => ?_) (fun _ hp => Or.inl hp) (fun j hj => ?_)
        (fun hne => absurd hnone hne) rfl
      · by_cases hji : j = i
        · subst hji
          simp [Process.setServer] at hj
        · simp only [Process.setServer, Function.update_of_ne hji] at hj ⊢
          exact h.left j hj
      · by_cases hji : j = i
        · subst hji
          simp [Process.setServer] at hj
        · simpa only [Process.setServer, Function.update_of_ne hji] using hj
  | allStarted hnone _ _ =>
      exact h.frame rfl h.left (fun _ hp => Or.inl hp) (fun _ hi => hi)
        (fun hne => absurd hnone hne) rfl
  | join hnone _ _ =>
      exact h.frame rfl h.left (fun _ hp => Or.inl hp) (fun _ hi => hi)
        (fun hne => absurd hnone hne) rfl
  | allJoined hnone _ _ =>
      exact h.frame rfl h.left (fun _ hp => Or.inl hp) (fun _ hi => hi)
        (fun hne => absurd hnone hne) rfl
  | destroy hnone _ =>
      exact h.frame rfl h.left (fun _ hp => Or.inl hp) (fun _ hi => hi)
        (fun hne => absurd hnone hne) rfl
  | @move i e pc hnone hmove =>
      refine h.frame rfl (fun j hj => ?_) (fun _ hp => Or.inl hp) (fun j hj => ?_)
        (fun _ => rfl) rfl
      · rw [setServer_servers] at hj
        by_cases hji : j = i
        · subst hji
          rw [Function.update_self] at hj
          exact hmove.flag h.left he hj
        · rw [Function.update_of_ne hji] at hj
          exact h.left j hj
      · rw [setServer_servers] at hj
        by_cases hji : j = i
        · subst hji
          rw [Function.update_self] at hj
          exact absurd hj hmove.not_absent
        · rwa [Function.update_of_ne hji] at hj
  | packet _ _ =>
      exact h.frame rfl h.left (fun _ hp => Or.inl hp) (fun _ hi => hi) (fun _ => rfl) rfl

theorem Kept.run {es : List (ProcessEvent n)} (h : (process n).exec .start es = some s)
    (horderly : (process n).Meets Orderly .start es) : s.Kept := by
  have hinv : s.Sound ∧ s.Kept :=
    Machine.exec_invariant_of (M := process n) (I := fun s => s.Sound ∧ s.Kept)
      (fun s e t hs he hstep => ⟨hs.1.step hstep, hs.2.step hs.1 he (step_inv hstep)⟩) h horderly
      ⟨.start, .start⟩
  exact hinv.2

/-! ### A run with two server threads -/

/-- All server threads have been created, and nothing has happened yet. -/
def allStarting (n : Nat) : Process n :=
  { (start : Process n) with main := .joining 0, servers := fun _ => .starting, calls := [.create] }

theorem exec_startAll : ∀ {m : Nat}, m ≤ n → (process n).exec start (List.replicate (m + 1) .main) =
    some { (start : Process n) with
      main := .starting m, servers := fun i => if i < m then .starting else .absent,
      calls := [.create] }
  | 0, _ => by
      simp [Machine.exec_cons, process, Process.step, mainStep, start]
  | m + 1, hm => by
      have ih := exec_startAll (m := m) (by omega)
      have hservers : (Function.update (fun i : Fin n => if (i : Nat) < m then ServerPc.starting
          else .absent) ⟨m, by omega⟩ .starting) =
          fun i : Fin n => if (i : Nat) < m + 1 then .starting else .absent := by
        funext i
        rw [Function.update_apply]
        by_cases hi : i = ⟨m, by omega⟩
        · simp [hi]
        · have hne : (i : Nat) ≠ m := fun heq => hi (Fin.ext heq)
          have hiff : (i : Nat) < m + 1 ↔ (i : Nat) < m := by omega
          simp [hi, hiff]
      rw [List.replicate_succ', Machine.exec_append _ ih, Machine.exec_cons]
      simp only [process, Process.step, mainStep, start, if_true]
      rw [dif_pos (show m < n by omega)]
      simp only [setServer, hservers, Machine.exec_nil]
      simp

theorem exec_allStarting : (process n).exec start (List.replicate (n + 2) .main) =
    some (allStarting n) := by
  rw [List.replicate_succ', Machine.exec_append _ (exec_startAll le_rfl), Machine.exec_cons]
  simp [process, Process.step, mainStep, start, allStarting]

theorem Step.exec {e : ProcessEvent n} {u : Process n} {es : List (ProcessEvent n)}
    (h : s.Step e u) (hlive : s.exited = false) (hrest : (process n).exec u es = some t) :
    (process n).exec s (e :: es) = some t := by
  rw [Machine.exec_cons, process_step hlive, h.step]
  exact hrest

/-- What the handler in the thread `w` has done from the index `m` on, while all server threads
were there. -/
structure Handled (w : Tid n) (m : Nat) (s t : Process n) : Prop where
  main : t.main = s.main
  servers : t.servers = s.servers
  handlers : t.handlers = Function.update s.handlers w .none
  undefined : t.undefined = s.undefined
  exited : t.exited = s.exited
  done : ∀ i, t.done i = true ↔ s.done i = true ∨ w = .server i ∧ m ≤ i
  kept : ∀ v, s.pending v = true → t.pending v = true
  sent : ∀ i : Fin n, m ≤ i → s.done i = false → w ≠ .server i → t.pending (.server i) = true

/-- The handler has dealt with the index `i`, and goes on from the next one. -/
theorem Handled.cons {w : Tid n} {i : Fin n} {u : Process n} {p : Handler n}
    (h : Handled w (i + 1) u t) (hmain : u.main = s.main) (hservers : u.servers = s.servers)
    (hhandlers : u.handlers = Function.update s.handlers w p)
    (hundefined : u.undefined = s.undefined) (hexited : u.exited = s.exited)
    (hdone : ∀ j, u.done j = true ↔ s.done j = true ∨ w = .server j ∧ j = i)
    (hkept : ∀ v, s.pending v = true → u.pending v = true)
    (hsent : s.done i = false → w ≠ .server i → u.pending (.server i) = true) :
    Handled w i s t where
  main := h.main.trans hmain
  servers := h.servers.trans hservers
  handlers := by rw [h.handlers, hhandlers, Function.update_idem]
  undefined := h.undefined.trans hundefined
  exited := h.exited.trans hexited
  done j := by
    rw [h.done, hdone, or_assoc, ← and_or_left]
    have hsplit : (j = i ∨ (i : Nat) + 1 ≤ j) ↔ (i : Nat) ≤ j := by
      rw [Fin.ext_iff]
      omega
    rw [hsplit]
  kept v hv := h.kept v (hkept v hv)
  sent j hj hnot hw := by
    by_cases hji : j = i
    · subst hji
      exact h.kept _ (hsent hnot hw)
    · have hne : (j : Nat) ≠ i := fun heq => hji (Fin.ext heq)
      refine h.sent j (by omega) ?_ hw
      rw [← Bool.not_eq_true, hdone]
      rintro (hdone | ⟨heq, -⟩)
      · rw [hnot] at hdone
        cases hdone
      · exact hw heq

/-- The handler comes to its end. -/
theorem handler_returns {w : Tid n} : ∀ {d m : Nat} {s : Process n}, n - m = d → m ≤ n →
    s.handlers w = .check m → s.exited = false → (∀ i, s.Alive (.server i)) →
    ∃ k t, (process n).exec s (List.replicate k (.handler w)) = some t ∧ Handled w m s t
  | 0, m, s, hd, hm, hpc, hlive, _ => by
      refine ⟨1, _, Step.exec (.leave hpc (by omega)) hlive rfl, ⟨rfl, rfl, rfl, rfl, rfl,
        fun i => ?_, fun _ hv => hv, fun i hi _ _ => ?_⟩⟩
      · have hlt := i.isLt
        show s.done i = true ↔ _
        constructor
        · exact Or.inl
        · rintro (hdone | ⟨-, hle⟩)
          · exact hdone
          · omega
      · have hlt := i.isLt
        omega
  | d + 1, m, s, hd, hm, hpc, hlive, halive => by
      obtain ⟨i, rfl⟩ : ∃ i : Fin n, m = i := ⟨⟨m, by omega⟩, rfl⟩
      have hnext : n - (i + 1) = d := by omega
      by_cases hw : w = .server i
      · subst hw
        obtain ⟨k, t, hexec, hhandled⟩ := handler_returns (w := .server i)
          (s := { s.setHandler (.server i) (.check (i + 1)) with
            done := Function.update s.done i true }) hnext (by omega) (by simp) hlive halive
        refine ⟨k + 1, t, Step.exec (.own hpc) hlive hexec, hhandled.cons rfl rfl rfl rfl rfl
          (fun j => ?_) (fun _ hv => hv) fun _ hne => absurd rfl hne⟩
        show Function.update s.done i true j = true ↔ _
        rw [Function.update_apply]
        by_cases hji : j = i
        · simp [hji]
        · simp [hji]
      · cases hdone : s.done i with
        | true =>
            obtain ⟨k, t, hexec, hhandled⟩ := handler_returns (w := w)
              (s := s.setHandler w (.check (i + 1))) hnext (by omega) (by simp) hlive halive
            refine ⟨k + 1, t, Step.exec (.pass hpc hw hdone) hlive hexec,
              hhandled.cons rfl rfl rfl rfl rfl (fun j => ?_) (fun _ hv => hv) fun hnot => ?_⟩
            · show s.done j = true ↔ _
              constructor
              · exact Or.inl
              · rintro (hj | ⟨heq, rfl⟩)
                · exact hj
                · exact hdone
            · rw [hdone] at hnot
              cases hnot
        | false =>
            have hkill : (s.setHandler w (.kill i)).pthreadKill i =
                (s.setHandler w (.kill i)).setPending (.server i) true := if_pos (halive i)
            obtain ⟨k, t, hexec, hhandled⟩ := handler_returns (w := w)
              (s := ((s.setHandler w (.kill i)).pthreadKill i).setHandler w (.check (i + 1)))
              hnext (by omega) (by simp) (by rw [hkill]; exact hlive) (by rw [hkill]; exact halive)
            rw [hkill] at hexec hhandled
            have hkilled := Step.kill (s := s.setHandler w (.kill i)) (w := w) (i := i) (by simp)
            refine ⟨k + 2, t, Step.exec (.decide hpc hw hdone) hlive
              (hkilled.exec hlive (by rw [hkill]; exact hexec)),
              hhandled.cons (p := .check (i + 1)) rfl rfl ?_ rfl rfl (fun j => ?_) (fun v hv => ?_)
              fun _ _ => ?_⟩
            · show Function.update (Function.update s.handlers w (.kill i)) w _ = _
              rw [Function.update_idem]
            · show s.done j = true ↔ _
              constructor
              · exact Or.inl
              · rintro (hj | ⟨heq, rfl⟩)
                · exact hj
                · exact absurd heq hw
            · show Function.update s.pending (.server i) true v = true
              rw [Function.update_apply, hv, ite_self]
            · show Function.update s.pending (.server i) true (.server i) = true
              rw [Function.update_self]

/-- Where the signal is pending for all server threads, the last kill comes too late. -/
theorem exec_lateKill {a b : Fin n} (ha : (a : Nat) = 0) (hab : a ≠ b)
    (hlive : s.exited = false) (hmain : s.main = .joining 0) (hloop : s.servers a = .loop)
    (halive : ∀ i, s.Alive (.server i)) (hhandlers : ∀ w, s.handlers w = .none)
    (hdone : ∀ i, s.done i = false) (hpending : ∀ i, s.pending (.server i) = true) :
    ∃ es t, (∀ e ∈ es, ProcessEvent.Own e) ∧ (process n).exec s es = some t ∧
      t.undefined = true := by
  have hba : Tid.server b ≠ Tid.server a := fun heq => hab (Tid.server.inj heq).symm
  -- the handler in `b` has seen that the flag of `a` is not set
  let s₁ : Process n :=
    { (s.setPending (.server b) false).setHandler (.server b) (.check 0) with called := true }
  let s₂ : Process n := s₁.setHandler (.server b) (.kill a)
  let s₃ : Process n :=
    { (s₂.setPending (.server a) false).setHandler (.server a) (.check 0) with called := true }
  have hsecond : s₂.handlers = Function.update s.handlers (.server b) (.kill a) := by
    show Function.update (Function.update s.handlers (.server b) (.check 0)) (.server b) _ = _
    rw [Function.update_idem]
  have hthird : s₃.handlers = Function.update s₂.handlers (.server a) (.check 0) := rfl
  have h₁ : s.Step (.enter (.server b)) s₁ := .enter (halive b) (hpending b) (hhandlers _)
  have h₂ : s₁.Step (.handler (.server b)) s₂ := by
    refine .decide ?_ hba (hdone a)
    simp [s₁, ha]
  have h₃ : s₂.Step (.enter (.server a)) s₃ := by
    refine .enter (halive a) ?_ ?_
    · show Function.update s.pending (.server b) false (.server a) = true
      rw [Function.update_of_ne (Ne.symm hba)]
      exact hpending a
    · rw [hsecond, Function.update_of_ne (Ne.symm hba)]
      exact hhandlers _
  -- the handler in `a` runs to its end, and `a` leaves
  obtain ⟨k, s₄, hexec, hhandled⟩ := handler_returns (w := .server a) (m := 0) (s := s₃) rfl
    (Nat.zero_le n) (by simp [s₃]) hlive halive
  have hlive₄ : s₄.exited = false := hhandled.exited.trans hlive
  have hmain₄ : s₄.main = .joining 0 := hhandled.main.trans hmain
  have hfree : ∀ w, w ≠ .server b → s₄.handlers w = .none := by
    intro w hw
    rw [hhandled.handlers, Function.update_apply]
    split
    · rfl
    · next hwa =>
        rw [hthird, Function.update_of_ne hwa, hsecond, Function.update_of_ne hw]
        exact hhandlers w
  have hkill : s₄.handlers (.server b) = .kill a := by
    rw [hhandled.handlers, Function.update_of_ne hba, hthird, Function.update_of_ne hba, hsecond,
      Function.update_self]
  have hflag : s₄.done a = true := (hhandled.done a).mpr (Or.inr ⟨rfl, Nat.zero_le _⟩)
  let s₅ : Process n := s₄.setServer a .leaving
  let s₆ : Process n := s₅.setServer a .exited
  let s₇ : Process n := { s₆ with main := .joining (a + 1) }
  have h₅ : s₄.Step (.server a) s₅ := by
    refine .move (hfree _ (Ne.symm hba)) (.stop ?_ hflag)
    rw [hhandled.servers]
    exact hloop
  have h₆ : s₅.Step (.server a) s₆ :=
    .move (hfree _ (Ne.symm hba)) (.exit (by simp [s₅]))
  have h₇ : s₆.Step .main s₇ := by
    refine .join (hfree .main (by simp)) ?_ (by simp [s₆])
    show s₄.main = _
    rw [hmain₄, ha]
  have h₈ : s₇.Step (.handler (.server b)) _ := .kill hkill
  refine ⟨.enter (.server b) :: .handler (.server b) :: .enter (.server a) ::
    (List.replicate k (.handler (.server a)) ++
      [.server a, .server a, .main, .handler (.server b)]),
    _, ?_, h₁.exec hlive (h₂.exec hlive (h₃.exec hlive ((Machine.exec_append _ hexec).trans
      (h₅.exec hlive₄ (h₆.exec hlive₄ (h₇.exec hlive₄ (h₈.exec hlive₄ rfl))))))), ?_⟩
  · intro e he
    simp only [List.mem_cons, List.mem_append, List.mem_replicate, List.not_mem_nil, or_false] at he
    rcases he with rfl | rfl | rfl | ⟨-, rfl⟩ | rfl | rfl | rfl | rfl <;> trivial
  · show (s₇.pthreadKill a).undefined = true
    refine (pthreadKill_undefined s₇ a).mpr (Or.inr ⟨fun hal => hal.2 ?_, Or.inr ?_⟩)
    · simp [s₆, s₇]
    · show (a : Nat) < a + 1
      exact Nat.lt_succ_self _

theorem countP_of_own {es : List (ProcessEvent n)} (h : ∀ e ∈ es, e.Own) :
    es.countP ProcessEvent.isSigint = 0 := by
  refine List.countP_eq_zero.mpr fun e he hsigint => ?_
  cases e with
  | sigint w => exact h _ he
  | _ => cases hsigint

/-- With two server threads or more one SIGINT is enough. -/
theorem exec_undefined (hn : 2 ≤ n) : ∃ es t, (process n).Meets Orderly start es ∧
    es.countP ProcessEvent.isSigint = 1 ∧ (process n).exec start es = some t ∧
      t.undefined = true := by
  let a : Fin n := ⟨0, by omega⟩
  let b : Fin n := ⟨1, by omega⟩
  let s₁ : Process n := (allStarting n).setServer a .loop
  let s₂ : Process n := s₁.setPending .main true
  let s₃ : Process n :=
    { (s₂.setPending .main false).setHandler .main (.check 0) with called := true }
  have h₁ : (allStarting n).Step (.server a) s₁ := .move rfl (.started rfl)
  have h₂ : s₁.Step (.sigint .main) s₂ := .sigint (by simp [s₁, Alive, allStarting, setServer])
  have h₃ : s₂.Step (.enter .main) s₃ :=
    .enter (by simp [s₁, s₂, Alive, allStarting, setServer, setPending]) (by simp [s₂]) rfl
  have halive : ∀ i, s₃.Alive (.server i) := by
    intro i
    show Function.update (fun _ => ServerPc.starting) a .loop i ≠ .absent ∧
      Function.update (fun _ => ServerPc.starting) a .loop i ≠ .exited
    rw [Function.update_apply]
    split <;> simp
  obtain ⟨k, s₄, hexec, hhandled⟩ := handler_returns (w := .main) (m := 0) (s := s₃) rfl
    (Nat.zero_le n) (by simp [s₃]) rfl halive
  have hloop : s₄.servers a = .loop := by
    rw [hhandled.servers]
    show Function.update (fun _ => ServerPc.starting) a .loop a = .loop
    rw [Function.update_self]
  have halive₄ : ∀ i, s₄.Alive (.server i) := by
    intro i
    rw [Alive, hhandled.servers]
    exact halive i
  have hfree : ∀ w, s₄.handlers w = .none := by
    intro w
    rw [hhandled.handlers, Function.update_apply]
    split
    · rfl
    · next hw =>
        show Function.update (fun _ => Handler.none) .main (.check 0) w = .none
        rw [Function.update_of_ne hw]
  have hdone : ∀ i, s₄.done i = false := by
    intro i
    rw [← Bool.not_eq_true, hhandled.done]
    rintro (hdone | ⟨hmain, -⟩)
    · cases hdone
    · cases hmain
  have hpending : ∀ i, s₄.pending (.server i) = true :=
    fun i => hhandled.sent i (Nat.zero_le _) rfl (by simp)
  obtain ⟨es, t, hown, hlate, hundefined⟩ := exec_lateKill (s := s₄) (a := a) (b := b) rfl
    (by simp [a, b]) hhandled.exited hhandled.main hloop halive₄ hfree hdone hpending
  refine ⟨List.replicate (n + 2) .main ++ (.server a :: .sigint .main :: .enter .main ::
    (List.replicate k (.handler .main) ++ es)), t, ?_, ?_, ?_, hundefined⟩
  · refine (Machine.Meets.of_events fun e he u => ?_).append exec_allStarting
      (Machine.meets_cons.mpr ⟨trivial, fun u hu => Machine.meets_cons.mpr ⟨fun i => ?_,
        fun u' _ => Machine.Meets.of_events fun e he u'' => ?_⟩⟩)
    · rw [List.eq_of_mem_replicate he]
      trivial
    · cases h₁.step.symm.trans hu
      exact (halive i).1
    · refine orderly_of_own ?_
      rcases List.mem_cons.mp he with rfl | he
      · trivial
      · rcases List.mem_append.mp he with he | he
        · rw [List.eq_of_mem_replicate he]
          trivial
        · exact hown e he
  · have hmains : ∀ k, (List.replicate k ProcessEvent.main).countP
        (ProcessEvent.isSigint (n := n)) = 0 := fun k =>
      countP_of_own fun e he => by rw [List.eq_of_mem_replicate he]; trivial
    have hhandlers : (List.replicate k (ProcessEvent.handler Tid.main)).countP
        (ProcessEvent.isSigint (n := n)) = 0 :=
      countP_of_own fun e he => by rw [List.eq_of_mem_replicate he]; trivial
    simp [hmains, hhandlers, countP_of_own hown, List.countP_cons, ProcessEvent.isSigint]
  · exact (Machine.exec_append _ exec_allStarting).trans
      (h₁.exec rfl (h₂.exec rfl (h₃.exec rfl ((Machine.exec_append _ hexec).trans hlate))))

/-- Once the server threads are there, and as long as no wait fails, no `pthread_kill` gets a
thread that does not exist, exactly if there is at most one server thread.  With two or more there
is such a run with a single SIGINT in which one does. -/
theorem kill_defined_iff (n : Nat) :
    ((∀ es s, (process n).exec start es = some s → (process n).Meets Orderly start es →
      s.undefined = false) ↔ n ≤ 1) ∧
      (2 ≤ n → ∃ es s, (process n).exec start es = some s ∧ (process n).Meets Orderly start es ∧
        es.countP ProcessEvent.isSigint = 1 ∧ s.undefined = true) := by
  refine ⟨⟨fun h => ?_, fun hn es s hexec horderly => (Kept.run hexec horderly).defined hn⟩,
    fun hn => ?_⟩
  · by_contra hn
    obtain ⟨es, t, horderly, -, hexec, hundefined⟩ := exec_undefined (n := n) (by omega)
    rw [h es t hexec horderly] at hundefined
    cases hundefined
  · obtain ⟨es, t, horderly, hone, hexec, hundefined⟩ := exec_undefined hn
    exact ⟨es, t, hexec, horderly, hone, hundefined⟩

/-- The run with two server threads. -/
theorem kill_defined_iff_two : ∃ es s, (process 2).exec start es = some s ∧
    es.countP ProcessEvent.isSigint = 1 ∧ s.undefined = true := by
  obtain ⟨es, s, hexec, -, hone, hundefined⟩ := (kill_defined_iff 2).2 le_rfl
  exact ⟨es, s, hexec, hone, hundefined⟩

end Process

end KvServer.Mtcp
