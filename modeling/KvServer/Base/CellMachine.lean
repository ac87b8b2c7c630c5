import Mathlib.Data.List.Basic
import Mathlib.Tactic.Common

/-!
# Machines made of independent cells

A store answers requests, and each request names one key.  A *cell machine* is
a store in which a request only reads and writes the cell of its key: `act` says
what a request does to one cell, and the two laws say that the store does
exactly that to the cell of the key and leaves every other cell alone.

The main result is about *schedules*: lists of requests tagged with the client
that sent them.  When no key is used by two clients, a client gets the same
answers in every schedule of the same requests as it gets alone
(`CellMachine.serveAll_client`), and all schedules leave the same cells behind
(`CellMachine.serveAll_cell`).  The proof keeps the shared store and the store
of the client running alone equal on the keys the client still uses.
-/

/-- A store in which every request acts on the one cell its key names.
`none` says that the store cannot go on after the request. -/
structure CellMachine (σ ρ ω κ γ : Type) where
  /-- One request: the answer and the next store. -/
  step : σ → ρ → Option (ω × σ)
  /-- The key of a request. -/
  key : ρ → κ
  /-- The content of a cell. -/
  cell : σ → κ → γ
  /-- What a request does to the cell of its key. -/
  act : ρ → γ → Option (ω × γ)
  /-- A request the cell cannot take stops the store. -/
  step_none : ∀ {s r}, act r (cell s (key r)) = none → step s r = none
  /-- A request the cell takes is answered from that cell and changes that cell only. -/
  step_some : ∀ {s r w c}, act r (cell s (key r)) = some (w, c) →
    ∃ t, step s r = some (w, t) ∧ cell t (key r) = c ∧ ∀ k, k ≠ key r → cell t k = cell s k

namespace CellMachine

variable {σ ρ ω κ γ ι : Type} (M : CellMachine σ ρ ω κ γ)

/-- Answer a list of requests in order. -/
def serve : σ → List ρ → Option (List ω × σ)
  | s, [] => some ([], s)
  | s, r :: rs =>
      (M.step s r).bind fun (w, t) => (serve t rs).map fun (ws, u) => (w :: ws, u)

/-- Answer a list of requests of several clients in order. -/
def serveAll : σ → List (ι × ρ) → Option (List (ι × ω) × σ)
  | s, [] => some ([], s)
  | s, (c, r) :: rs =>
      (M.step s r).bind fun (w, t) => (serveAll t rs).map fun (ws, u) => ((c, w) :: ws, u)

/-- What client `c` sent, or what it was answered. -/
def ofClient {α : Type} [DecidableEq ι] (c : ι) (l : List (ι × α)) : List α :=
  (l.filter fun x => x.1 = c).map Prod.snd

/-- A request that every cell takes. -/
def Total (r : ρ) : Prop := ∀ c, (M.act r c).isSome

/-- Every element of a list with its key in front. -/
def tagged {α : Type} (f : α → κ) (l : List α) : List (κ × α) := l.map fun a => (f a, a)

/-- No key is used by two clients. -/
def Disjoint (reqs : List (ι × ρ)) : Prop :=
  ∀ x ∈ reqs, ∀ y ∈ reqs, M.key x.2 = M.key y.2 → x.1 = y.1

section OfClient

variable {α : Type} [DecidableEq ι]

@[simp] theorem ofClient_nil (c : ι) : ofClient c ([] : List (ι × α)) = [] := rfl

@[simp] theorem ofClient_cons_self (c : ι) (a : α) (l : List (ι × α)) :
    ofClient c ((c, a) :: l) = a :: ofClient c l := by
  simp [ofClient]

theorem ofClient_cons_of_ne {c d : ι} (h : d ≠ c) (a : α) (l : List (ι × α)) :
    ofClient c ((d, a) :: l) = ofClient c l := by
  simp [ofClient, h]

theorem mem_ofClient {c : ι} {a : α} {l : List (ι × α)} : a ∈ ofClient c l ↔ (c, a) ∈ l := by
  simp [ofClient]

/-- Filtering on a key is picking a client when the keys are the clients. -/
theorem ofClient_tagged (f : α → ι) (k : ι) (l : List α) :
    ofClient k (tagged f l) = l.filter fun a => f a = k := by
  simp [ofClient, tagged, List.filter_map, Function.comp_def]

end OfClient

@[simp] theorem serve_nil (s : σ) : M.serve s [] = some ([], s) := rfl

@[simp] theorem serveAll_nil (s : σ) : M.serveAll s ([] : List (ι × ρ)) = some ([], s) := rfl

/-- The first request of a list. -/
theorem serve_cons_eq_some {s u : σ} {r : ρ} {rs : List ρ} {ws : List ω}
    (h : M.serve s (r :: rs) = some (ws, u)) :
    ∃ w ws' t, ws = w :: ws' ∧ M.step s r = some (w, t) ∧ M.serve t rs = some (ws', u) := by
  rw [serve] at h
  obtain ⟨⟨w, t⟩, hstep, hmap⟩ := Option.bind_eq_some_iff.mp h
  obtain ⟨⟨ws', v⟩, hrest, heq⟩ := Option.map_eq_some_iff.mp hmap
  cases heq
  exact ⟨w, ws', t, rfl, hstep, hrest⟩

theorem serve_cons {s t u : σ} {r : ρ} {rs : List ρ} {w : ω} {ws : List ω}
    (hstep : M.step s r = some (w, t)) (hrest : M.serve t rs = some (ws, u)) :
    M.serve s (r :: rs) = some (w :: ws, u) := by
  simp only [serve, hstep, Option.bind_some, hrest, Option.map_some]

theorem serve_append {s t u : σ} {rs rs' : List ρ} {ws ws' : List ω}
    (h : M.serve s rs = some (ws, t)) (h' : M.serve t rs' = some (ws', u)) :
    M.serve s (rs ++ rs') = some (ws ++ ws', u) := by
  induction rs generalizing s ws with
  | nil =>
      cases h
      exact h'
  | cons r rs ih =>
      obtain ⟨w, ws₁, t₁, rfl, hstep, hrest⟩ := M.serve_cons_eq_some h
      exact M.serve_cons hstep (ih hrest)

/-- The first request of a schedule. -/
theorem serveAll_cons_eq_some {s u : σ} {c : ι} {r : ρ} {rs : List (ι × ρ)}
    {ws : List (ι × ω)} (h : M.serveAll s ((c, r) :: rs) = some (ws, u)) :
    ∃ w ws' t, ws = (c, w) :: ws' ∧ M.step s r = some (w, t) ∧
      M.serveAll t rs = some (ws', u) := by
  rw [serveAll] at h
  obtain ⟨⟨w, t⟩, hstep, hmap⟩ := Option.bind_eq_some_iff.mp h
  obtain ⟨⟨ws', v⟩, hrest, heq⟩ := Option.map_eq_some_iff.mp hmap
  cases heq
  exact ⟨w, ws', t, rfl, hstep, hrest⟩

/-! ## One step -/

/-- A step that succeeds does to the cell of its key what `act` says. -/
theorem step_spec {s t : σ} {r : ρ} {w : ω} (h : M.step s r = some (w, t)) :
    M.act r (M.cell s (M.key r)) = some (w, M.cell t (M.key r)) ∧
      ∀ k, k ≠ M.key r → M.cell t k = M.cell s k := by
  cases hact : M.act r (M.cell s (M.key r)) with
  | none => rw [M.step_none hact] at h; cases h
  | some p =>
      obtain ⟨w', c⟩ := p
      obtain ⟨t', hstep, hc, hframe⟩ := M.step_some hact
      rw [hstep] at h
      cases h
      exact ⟨by rw [hc], hframe⟩

/-- Two stores with the same cell at the key give the same answer and the same
new cell. -/
theorem step_congr {s s' t : σ} {r : ρ} {w : ω} (h : M.step s r = some (w, t))
    (hcell : M.cell s' (M.key r) = M.cell s (M.key r)) :
    ∃ t', M.step s' r = some (w, t') ∧ M.cell t' (M.key r) = M.cell t (M.key r) ∧
      ∀ k, k ≠ M.key r → M.cell t' k = M.cell s' k :=
  M.step_some (by rw [hcell]; exact (M.step_spec h).1)

/-- A store answers every list of requests that every cell takes. -/
theorem serve_isSome {reqs : List ρ} (htotal : ∀ r ∈ reqs, M.Total r) (s : σ) :
    ∃ ws t, M.serve s reqs = some (ws, t) := by
  induction reqs generalizing s with
  | nil => exact ⟨[], s, rfl⟩
  | cons r reqs ih =>
      obtain ⟨⟨w, d⟩, hact⟩ :=
        Option.isSome_iff_exists.mp (htotal r List.mem_cons_self (M.cell s (M.key r)))
      obtain ⟨t, hstep, -, -⟩ := M.step_some hact
      obtain ⟨ws, u, hrest⟩ := ih (fun r hr => htotal r (List.mem_cons_of_mem _ hr)) t
      exact ⟨w :: ws, u, M.serve_cons hstep hrest⟩

/-- A store answers every schedule of requests that every cell takes. -/
theorem serveAll_isSome {reqs : List (ι × ρ)} (htotal : ∀ x ∈ reqs, M.Total x.2) (s : σ) :
    ∃ ws t, M.serveAll s reqs = some (ws, t) := by
  induction reqs generalizing s with
  | nil => exact ⟨[], s, rfl⟩
  | cons x reqs ih =>
      obtain ⟨c, r⟩ := x
      obtain ⟨⟨w, d⟩, hact⟩ :=
        Option.isSome_iff_exists.mp (htotal (c, r) List.mem_cons_self (M.cell s (M.key r)))
      obtain ⟨t, hstep, -, -⟩ := M.step_some hact
      obtain ⟨ws, u, hrest⟩ := ih (fun x hx => htotal x (List.mem_cons_of_mem _ hx)) t
      exact ⟨(c, w) :: ws, u, by
        simp only [serveAll, hstep, Option.bind_some, hrest, Option.map_some]⟩

/-- Serving a list is serving it as a schedule in which every key is a client. -/
theorem serveAll_tagged {reqs : List ρ} {s t : σ} {ws : List ω}
    (h : M.serve s reqs = some (ws, t)) :
    M.serveAll s (tagged M.key reqs) = some ((reqs.map M.key).zip ws, t) := by
  induction reqs generalizing s ws with
  | nil => cases h; rfl
  | cons r reqs ih =>
      obtain ⟨w, ws', u, rfl, hstep, hrest⟩ := M.serve_cons_eq_some h
      have htail := ih hrest
      simp only [tagged, List.map_cons, serveAll, hstep, Option.bind_some] at htail ⊢
      rw [htail]
      rfl

/-! ## Schedules -/

/-- A key no request names keeps its cell. -/
theorem serveAll_frame {reqs : List (ι × ρ)} {k : κ} (hk : ∀ x ∈ reqs, M.key x.2 ≠ k) :
    ∀ {s t : σ} {ws : List (ι × ω)}, M.serveAll s reqs = some (ws, t) →
      M.cell t k = M.cell s k := by
  induction reqs with
  | nil =>
      intro s t ws h
      cases h
      rfl
  | cons x reqs ih =>
      obtain ⟨c, r⟩ := x
      intro s t ws h
      obtain ⟨w, ws', u, -, hstep, hrest⟩ := M.serveAll_cons_eq_some h
      rw [ih (fun x hx => hk x (List.mem_cons_of_mem _ hx)) hrest]
      exact (M.step_spec hstep).2 k (hk (c, r) List.mem_cons_self).symm

variable [DecidableEq ι]

/-- The simulation behind `serveAll_client`.  `K` is a set of keys that holds
those of client `c` and none of the others', and `s'` is the store of the client
running alone.  The two stores agree on `K` before and after. -/
theorem serveAll_simulates {c : ι} {K : κ → Prop} :
    ∀ {reqs : List (ι × ρ)} {s s' t : σ} {ws : List (ι × ω)},
      (∀ x ∈ reqs, x.1 = c ↔ K (M.key x.2)) → M.serveAll s reqs = some (ws, t) →
      (∀ k, K k → M.cell s' k = M.cell s k) →
      ∃ t', M.serve s' (ofClient c reqs) = some (ofClient c ws, t') ∧
        ∀ k, K k → M.cell t' k = M.cell t k := by
  intro reqs
  induction reqs with
  | nil =>
      intro s s' t ws _ h hagree
      cases h
      exact ⟨s', rfl, hagree⟩
  | cons x reqs ih =>
      obtain ⟨d, r⟩ := x
      intro s s' t ws hK h hagree
      obtain ⟨w, ws', u, rfl, hstep, hrest⟩ := M.serveAll_cons_eq_some h
      have hK' : ∀ x ∈ reqs, x.1 = c ↔ K (M.key x.2) := fun x hx => hK x (List.mem_cons_of_mem _ hx)
      have hr := hK (d, r) List.mem_cons_self
      by_cases hd : d = c
      · -- the request is the client's own: the same cell gives the same answer
        subst hd
        obtain ⟨u', hstep', hkey, hframe⟩ := M.step_congr hstep (hagree _ (hr.mp rfl))
        have hagree' : ∀ k, K k → M.cell u' k = M.cell u k := by
          intro k hk
          by_cases hkr : k = M.key r
          · rw [hkr, hkey]
          · rw [hframe k hkr, (M.step_spec hstep).2 k hkr]
            exact hagree k hk
        obtain ⟨t', hserve, hcells⟩ := ih hK' hrest hagree'
        refine ⟨t', ?_, hcells⟩
        rw [ofClient_cons_self, ofClient_cons_self]
        exact M.serve_cons hstep' hserve
      · -- the request is another client's: it leaves the cells in `K` alone
        rw [ofClient_cons_of_ne hd, ofClient_cons_of_ne hd]
        refine ih hK' hrest fun k hk => ?_
        have hkr : k ≠ M.key r := by
          rintro rfl
          exact hd (hr.mpr hk)
        rw [(M.step_spec hstep).2 k hkr]
        exact hagree k hk

/-- In a schedule without shared keys every client gets the answers it gets
alone, and its cells end as they do alone. -/
theorem serveAll_client {reqs : List (ι × ρ)} {s t : σ} {ws : List (ι × ω)}
    (hdis : M.Disjoint reqs) (h : M.serveAll s reqs = some (ws, t)) (c : ι) :
    ∃ t', M.serve s (ofClient c reqs) = some (ofClient c ws, t') ∧
      ∀ r ∈ ofClient c reqs, M.cell t' (M.key r) = M.cell t (M.key r) := by
  let K : κ → Prop := fun k => ∃ r ∈ ofClient c reqs, M.key r = k
  have hK : ∀ x ∈ reqs, x.1 = c ↔ K (M.key x.2) := by
    intro x hx
    constructor
    · rintro rfl
      exact ⟨x.2, mem_ofClient.mpr hx, rfl⟩
    · rintro ⟨r, hr, hkey⟩
      exact (hdis (c, r) (mem_ofClient.mp hr) x hx hkey).symm
  obtain ⟨t', hserve, hcells⟩ := M.serveAll_simulates hK h fun k _ => @rfl _ (M.cell s k)
  exact ⟨t', hserve, fun r hr => hcells _ ⟨r, hr, rfl⟩⟩

/-- The answers on one key are those of the requests on that key alone. -/
theorem serve_key [DecidableEq κ] {reqs : List ρ} {s t : σ} {ws : List ω}
    (h : M.serve s reqs = some (ws, t)) (k : κ) :
    ∃ t', M.serve s (reqs.filter fun r => M.key r = k) =
      some (ofClient k ((reqs.map M.key).zip ws), t') := by
  have hdis : M.Disjoint (tagged M.key reqs) := by
    intro x hx y hy hkey
    obtain ⟨a, -, rfl⟩ := List.mem_map.mp hx
    obtain ⟨b, -, rfl⟩ := List.mem_map.mp hy
    exact hkey
  obtain ⟨t', hserve, -⟩ := M.serveAll_client hdis (M.serveAll_tagged h) k
  rw [ofClient_tagged] at hserve
  exact ⟨t', hserve⟩

/-- Two schedules of the same requests without shared keys leave the same cells
behind. -/
theorem serveAll_cell {reqs₁ reqs₂ : List (ι × ρ)} {s t₁ t₂ : σ} {ws₁ ws₂ : List (ι × ω)}
    (hdis : M.Disjoint reqs₁) (hsame : ∀ c, ofClient c reqs₁ = ofClient c reqs₂)
    (h₁ : M.serveAll s reqs₁ = some (ws₁, t₁)) (h₂ : M.serveAll s reqs₂ = some (ws₂, t₂)) (k : κ) :
    M.cell t₁ k = M.cell t₂ k := by
  have hmem : ∀ x, x ∈ reqs₁ ↔ x ∈ reqs₂ := by
    rintro ⟨c, r⟩
    rw [← mem_ofClient, ← mem_ofClient, hsame]
  have hdis₂ : M.Disjoint reqs₂ := fun x hx y hy =>
    hdis x ((hmem x).mpr hx) y ((hmem y).mpr hy)
  by_cases hk : ∃ x ∈ reqs₁, M.key x.2 = k
  · -- some client uses the key: both cells are the one it leaves alone
    obtain ⟨⟨c, r⟩, hx, rfl⟩ := hk
    obtain ⟨u₁, hserve₁, hcells₁⟩ := M.serveAll_client hdis h₁ c
    obtain ⟨u₂, hserve₂, hcells₂⟩ := M.serveAll_client hdis₂ h₂ c
    rw [hsame c, hserve₂, Option.some.injEq, Prod.mk.injEq] at hserve₁
    obtain ⟨-, rfl⟩ := hserve₁
    rw [← hcells₁ r (mem_ofClient.mpr hx),
      ← hcells₂ r (mem_ofClient.mpr ((hmem _).mp hx))]
  · -- nobody uses it: both cells are the initial one
    have hk₁ : ∀ x ∈ reqs₁, M.key x.2 ≠ k := fun x hx hkey => hk ⟨x, hx, hkey⟩
    have hk₂ : ∀ x ∈ reqs₂, M.key x.2 ≠ k := fun x hx => hk₁ x ((hmem x).mpr hx)
    rw [M.serveAll_frame hk₁ h₁, M.serveAll_frame hk₂ h₂]

end CellMachine
