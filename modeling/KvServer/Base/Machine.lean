import Mathlib.Data.List.Basic

/-!
# Machines

A machine is a partial step function: an event is either possible in a state
and leads to one next state, or it is not possible.  What the environment
decides is the event.  `exec` runs a list of events, `Reachable` forgets the
list, and `Meets` says that every step of a run was taken under a condition on
the state before the step and the event.

The rules at the end package the induction over a run once.  A fact that
every step keeps holds at the end of every run, and a fact that only the steps
under a condition keep holds at the end of every run that meets it, or throughout
exactly these runs if the other steps break it (`throughout_iff_meets`).  If every
step is seen by another machine as some of its own, every run is a run of the
other machine (`exec_refines`), and if the steps of two machines keep a relation between their
states, the runs keep it (`exec_related`).
-/

/-- A partial step function.  `none` says that the event cannot happen. -/
structure Machine (σ ε : Type) where
  /-- One step. -/
  step : σ → ε → Option σ

namespace Machine

variable {σ ε : Type} (M : Machine σ ε)

/-- Run a list of events. -/
def exec : σ → List ε → Option σ
  | s, [] => some s
  | s, e :: es => (M.step s e).bind fun t => exec t es

/-- Some run leads from `s` to `t`. -/
def Reachable (s t : σ) : Prop := ∃ es, M.exec s es = some t

/-- Every step of the run `es` from `s` is taken under the condition `C`. -/
def Meets (C : σ → ε → Prop) (s : σ) (es : List ε) : Prop :=
  ∀ pre e post t, es = pre ++ e :: post → M.exec s pre = some t → C t e

@[simp] theorem exec_nil (s : σ) : M.exec s [] = some s := rfl

theorem exec_cons (s : σ) (e : ε) (es : List ε) :
    M.exec s (e :: es) = (M.step s e).bind fun t => M.exec t es := rfl

/-- The first step of a run. -/
theorem exec_cons_eq_some {s u : σ} {e : ε} {es : List ε} (h : M.exec s (e :: es) = some u) :
    ∃ t, M.step s e = some t ∧ M.exec t es = some u := by
  rw [exec_cons] at h
  exact Option.bind_eq_some_iff.mp h

/-- A run goes through the state after its first part. -/
theorem exec_append_eq_some {s u : σ} {es es' : List ε} (h : M.exec s (es ++ es') = some u) :
    ∃ t, M.exec s es = some t ∧ M.exec t es' = some u := by
  induction es generalizing s with
  | nil => exact ⟨s, rfl, h⟩
  | cons e es ih =>
      obtain ⟨t, ht, hrest⟩ := M.exec_cons_eq_some h
      obtain ⟨v, hv, hu⟩ := ih hrest
      exact ⟨v, by rw [exec_cons, ht]; exact hv, hu⟩

variable {M}

/-- Two runs behind each other. -/
theorem exec_append {s t : σ} {es : List ε} (es' : List ε) (h : M.exec s es = some t) :
    M.exec s (es ++ es') = M.exec t es' := by
  induction es generalizing s with
  | nil =>
      cases h
      rfl
  | cons e es ih =>
      obtain ⟨u, hu, hrest⟩ := M.exec_cons_eq_some h
      rw [List.cons_append, exec_cons, hu]
      exact ih hrest

/-- A condition met by a run is met by its first step. -/
theorem Meets.head {C : σ → ε → Prop} {s : σ} {e : ε} {es : List ε}
    (h : M.Meets C s (e :: es)) : C s e :=
  h [] e es s rfl rfl

/-- A condition met by a run is met by the rest of it. -/
theorem Meets.tail {C : σ → ε → Prop} {s t : σ} {e : ε} {es : List ε}
    (h : M.Meets C s (e :: es)) (ht : M.step s e = some t) : M.Meets C t es := by
  intro pre e' post u hes hpre
  refine h (e :: pre) e' post u (by rw [hes]; rfl) ?_
  rw [exec_cons, ht]
  exact hpre

/-- A condition on the events alone is met by every run of such events. -/
theorem Meets.of_events {C : σ → ε → Prop} {s : σ} {es : List ε}
    (h : ∀ e ∈ es, ∀ t, C t e) : M.Meets C s es := by
  intro pre e post t hes _
  exact h e (by rw [hes]; exact List.mem_append_right _ List.mem_cons_self) t

theorem meets_nil (C : σ → ε → Prop) (s : σ) : M.Meets C s [] := by
  intro pre e post t hes _
  cases pre <;> cases hes

theorem meets_cons {C : σ → ε → Prop} {s : σ} {e : ε} {es : List ε} :
    M.Meets C s (e :: es) ↔ C s e ∧ ∀ t, M.step s e = some t → M.Meets C t es := by
  constructor
  · exact fun h => ⟨h.head, fun t ht => h.tail ht⟩
  · rintro ⟨hhead, htail⟩ pre e' post u hes hpre
    cases pre with
    | nil =>
        cases hes
        cases hpre
        exact hhead
    | cons first pre =>
        cases hes
        obtain ⟨t, ht, hrest⟩ := M.exec_cons_eq_some hpre
        exact htail t ht pre e' post u rfl hrest

/-- A run behind another one. -/
theorem Meets.append {C : σ → ε → Prop} {s t : σ} {es es' : List ε} (h : M.Meets C s es)
    (hexec : M.exec s es = some t) (h' : M.Meets C t es') : M.Meets C s (es ++ es') := by
  induction es generalizing s with
  | nil =>
      cases hexec
      exact h'
  | cons e es ih =>
      obtain ⟨u, hu, hrest⟩ := M.exec_cons_eq_some hexec
      refine meets_cons.mpr ⟨h.head, fun u' hu' => ?_⟩
      cases hu.symm.trans hu'
      exact ih (h.tail hu) hrest

instance decidableMeets {C : σ → ε → Prop} [∀ s e, Decidable (C s e)] :
    ∀ (es : List ε) (s : σ), Decidable (M.Meets C s es)
  | [], s => isTrue (meets_nil C s)
  | e :: es, s =>
      match ht : M.step s e with
      | none =>
          decidable_of_iff (C s e) (by simp [meets_cons, ht])
      | some t =>
          have : Decidable (M.Meets C t es) := decidableMeets es t
          decidable_of_iff (C s e ∧ M.Meets C t es) (by simp [meets_cons, ht])

/-- A fact that every step under `C` keeps holds at the end of every run that
meets `C`. -/
theorem exec_invariant_of {I : σ → Prop} {C : σ → ε → Prop}
    (hstep : ∀ s e t, I s → C s e → M.step s e = some t → I t) :
    ∀ {es : List ε} {s t : σ}, M.exec s es = some t → M.Meets C s es → I s → I t
  | [], s, t, h, _, hs => by
      cases h
      exact hs
  | e :: es, s, t, h, hC, hs => by
      obtain ⟨u, hu, hrest⟩ := M.exec_cons_eq_some h
      exact exec_invariant_of hstep hrest (hC.tail hu) (hstep s e u hs hC.head hu)

/-- A fact that a step keeps exactly when the step meets `C`, and that never comes back,
holds at the end of exactly the runs that meet `C`. -/
theorem exec_iff_meets {I G : σ → Prop} {C : σ → ε → Prop}
    (hstep : ∀ s e t, I s → M.step s e = some t → I t ∧ (G t ↔ G s ∧ C s e)) :
    ∀ {es : List ε} {s t : σ}, M.exec s es = some t → I s → (G t ↔ G s ∧ M.Meets C s es)
  | [], s, t, h, _ => by
      cases h
      simp [meets_nil]
  | e :: es, s, t, h, hs => by
      obtain ⟨u, hu, hrest⟩ := M.exec_cons_eq_some h
      obtain ⟨hI, hG⟩ := hstep s e u hs hu
      rw [exec_iff_meets hstep hrest hI, hG, meets_cons]
      constructor
      · rintro ⟨⟨hGs, hC⟩, hmeets⟩
        refine ⟨hGs, hC, fun u' hu' => ?_⟩
        cases hu.symm.trans hu'
        exact hmeets
      · rintro ⟨hGs, hC, hmeets⟩
        exact ⟨⟨hGs, hC⟩, hmeets u hu⟩

/-- `G` holds in every state that the run goes through. -/
def Throughout (M : Machine σ ε) (G : σ → Prop) (s : σ) (es : List ε) : Prop :=
  ∀ pre post t, es = pre ++ post → M.exec s pre = some t → G t

/-- A fact that exactly the steps under `C` keep holds throughout exactly the runs that meet
`C`. -/
theorem throughout_iff_meets {G : σ → Prop} {C : σ → ε → Prop}
    (hstep : ∀ s e t, G s → M.step s e = some t → (G t ↔ C s e)) {es : List ε} {s t : σ}
    (h : M.exec s es = some t) (hs : G s) : M.Throughout G s es ↔ M.Meets C s es := by
  constructor
  · rintro hG pre e post u rfl hpre
    obtain ⟨u', hu', hrest⟩ := M.exec_append_eq_some h
    cases hpre.symm.trans hu'
    obtain ⟨v, hv, -⟩ := M.exec_cons_eq_some hrest
    have hlast : M.exec s (pre ++ [e]) = some v := by
      rw [exec_append [e] hpre, exec_cons, hv]
      rfl
    refine (hstep u e v (hG pre (e :: post) u rfl hpre) hv).mp ?_
    exact hG (pre ++ [e]) post v (by rw [List.append_assoc]; rfl) hlast
  · rintro hC pre post u rfl hpre
    have hC' : M.Meets C s pre := by
      rintro first e last v rfl hv
      exact hC first e (last ++ post) v (by rw [List.append_assoc]; rfl) hv
    exact exec_invariant_of (fun s e t hG hCe hst => (hstep s e t hG hst).mpr hCe) hpre hC' hs

/-- A fact that every step keeps holds in every reachable state. -/
theorem Reachable.invariant {I : σ → Prop} (hstep : ∀ s e t, I s → M.step s e = some t → I t)
    {s t : σ} (h : M.Reachable s t) (hs : I s) : I t := by
  obtain ⟨es, hes⟩ := h
  exact exec_invariant_of (C := fun _ _ => True) (fun s e t hI _ => hstep s e t hI) hes
    (fun _ _ _ _ _ _ => trivial) hs

/-- A step that is seen by `N` as some of its own steps makes every run a run of `N`. -/
theorem exec_refines {σ' ε' : Type} {N : Machine σ' ε'} {f : σ → σ'} {I : σ → Prop}
    (hstep : ∀ s e t, I s → M.step s e = some t →
      I t ∧ ∃ es', N.exec (f s) es' = some (f t)) :
    ∀ {es : List ε} {s t : σ}, M.exec s es = some t → I s →
      I t ∧ ∃ es', N.exec (f s) es' = some (f t)
  | [], s, t, h, hs => by
      cases h
      exact ⟨hs, [], rfl⟩
  | e :: es, s, t, h, hs => by
      obtain ⟨u, hu, hrest⟩ := M.exec_cons_eq_some h
      obtain ⟨hI, first, hfirst⟩ := hstep s e u hs hu
      obtain ⟨hI', rest, hrest'⟩ := exec_refines hstep hrest hI
      exact ⟨hI', first ++ rest, (exec_append rest hfirst).trans hrest'⟩

/-- Two machines with the same events stay related. -/
theorem exec_related {σ' : Type} {N : Machine σ' ε} {R : σ → σ' → Prop}
    (hstep : ∀ s s' e t, R s s' → M.step s e = some t → ∃ t', N.step s' e = some t' ∧ R t t') :
    ∀ {es : List ε} {s t : σ} {s' : σ'}, M.exec s es = some t → R s s' →
      ∃ t', N.exec s' es = some t' ∧ R t t'
  | [], s, t, s', h, hs => by
      cases h
      exact ⟨s', rfl, hs⟩
  | e :: es, s, t, s', h, hs => by
      obtain ⟨u, hu, hrest⟩ := M.exec_cons_eq_some h
      obtain ⟨u', hu', hs'⟩ := hstep s s' e u hs hu
      obtain ⟨t', ht', hR⟩ := exec_related hstep hrest hs'
      exact ⟨t', by rw [exec_cons, hu']; exact ht', hR⟩

end Machine
