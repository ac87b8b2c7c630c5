import Mathlib.Data.List.Induction
import KvServer.Base.Machine
import KvServer.Store.Process

/-!
# The life of the store

The library keeps its store behind the pointer `ptr_KVStore`.  `kvstore_create` makes
a store if the pointer is NULL, and `kvstore_destroy` deletes what it points at and
leaves it as it is.  So the pointer is never NULL again: a second `kvstore_create`
makes nothing, and whoever comes after it works on the deleted store.

The objects that were made are kept in a list, with nothing in the place of one that
was deleted.  `standing` follows the pointer through a list of calls without them,
and every run agrees with it.
-/

namespace KvServer

/-- A call of the library. -/
inductive LibCall where
  | create
  | destroy
  | process (send : SendMessage)
deriving DecidableEq

/-- `ptr_KVStore` and the objects made so far, each with its content until it is deleted. -/
structure KVStoreLib (σ : Type) where
  ptr_KVStore : Option Nat
  objects : List (Option σ)
  exited : Bool

namespace KVStoreLib

variable {σ : Type}

/-- Before the first call. -/
def start : KVStoreLib σ where
  ptr_KVStore := none
  objects := []
  exited := false

/-- The store the pointer points at, if there is one. -/
def store (s : KVStoreLib σ) : Option σ := s.ptr_KVStore.bind fun i => s.objects[i]?.join

section

variable [CuckoohashMap σ Key Value]

/-- `kvstore_create` -/
def kvstoreCreate (s : KVStoreLib σ) : KVStoreLib σ :=
  if s.ptr_KVStore = none then
    { s with
      ptr_KVStore := some s.objects.length
      objects := s.objects ++ [some CuckoohashMap.empty] }
  else s

/-- `kvstore_destroy`.  Deleting NULL does nothing. -/
def kvstoreDestroy (s : KVStoreLib σ) : KVStoreLib σ :=
  match s.ptr_KVStore with
  | none => s
  | some i => { s with objects := s.objects.set i none }

/-- `kvstore_process_packet` on the store behind the pointer.  Without a store what it does is
not defined, and nothing is changed here. -/
def processPacket (s : KVStoreLib σ) (send : SendMessage) : KVStoreLib σ :=
  if send.Valid then
    match s.ptr_KVStore, s.store with
    | some i, some store =>
        match kvstoreProcessPacket store send with
        | some (_, _, store) => { s with objects := s.objects.set i (some store) }
        | none => { s with exited := true }
    | _, _ => s
  else { s with exited := true }

/-- One call.  There is none after `exit(1)`. -/
def step (s : KVStoreLib σ) (call : LibCall) : Option (KVStoreLib σ) :=
  if s.exited then none
  else
    match call with
    | .create => some s.kvstoreCreate
    | .destroy => some s.kvstoreDestroy
    | .process send => some (s.processPacket send)

end

end KVStoreLib

/-- The library. -/
def kvstoreLib (σ : Type) [CuckoohashMap σ Key Value] : Machine (KVStoreLib σ) LibCall where
  step := KVStoreLib.step

/-! ## Where the pointer stands -/

/-- What the pointer points at. -/
inductive Standing where
  | null
  | live
  | dangling
deriving DecidableEq

/-- What a call does to it. -/
def Standing.after : Standing → LibCall → Standing
  | .null, .create => .live
  | .live, .destroy => .dangling
  | standing, _ => standing

/-- What the pointer points at after a list of calls. -/
def standing (calls : List LibCall) : Standing := calls.foldl Standing.after .null

@[simp] theorem standing_append (calls calls' : List LibCall) :
    standing (calls ++ calls') = calls'.foldl Standing.after (standing calls) :=
  List.foldl_append

@[simp] theorem Standing.dangling_foldl (calls : List LibCall) :
    calls.foldl Standing.after .dangling = .dangling := by
  induction calls with
  | nil => rfl
  | cons call calls ih => cases call <;> exact ih

/-- The pointer is NULL until the first `kvstore_create`. -/
theorem standing_eq_null_iff {calls : List LibCall} :
    standing calls = .null ↔ .create ∉ calls := by
  induction calls using List.reverseRecOn with
  | nil => simp [standing]
  | append_singleton calls call ih =>
      rw [standing_append, List.mem_append, List.mem_singleton, not_or, ← ih]
      cases hs : standing calls <;> cases call <;> simp [Standing.after]

/-- A `kvstore_destroy` after a `kvstore_create` leaves it dangling. -/
theorem standing_destroyed {before after : List LibCall} (h : .create ∈ before) :
    standing (before ++ .destroy :: after) = .dangling := by
  rw [standing_append, List.foldl_cons]
  cases hs : standing before with
  | null => exact absurd h (standing_eq_null_iff.mp hs)
  | live => exact Standing.dangling_foldl after
  | dangling => exact Standing.dangling_foldl after

theorem destroyed_of_dangling {calls : List LibCall} (h : standing calls = .dangling) :
    ∃ before after, calls = before ++ .destroy :: after ∧ .create ∈ before := by
  induction calls using List.reverseRecOn with
  | nil => cases h
  | append_singleton calls call ih =>
      rw [standing_append] at h
      cases hs : standing calls with
      | null => rw [hs] at h; cases call <;> cases h
      | live =>
          rw [hs] at h
          cases call with
          | destroy =>
              refine ⟨calls, [], rfl, ?_⟩
              by_contra hno
              rw [standing_eq_null_iff.mpr hno] at hs
              cases hs
          | create => cases h
          | process send => cases h
      | dangling =>
          obtain ⟨before, after, rfl, hcreate⟩ := ih hs
          exact ⟨before, after ++ [call], by simp, hcreate⟩

/-! ## Runs -/

/-- The object behind the pointer is as the calls say. -/
def Standing.Describes {σ : Type} : Standing → KVStoreLib σ → Prop
  | .null, s => s.ptr_KVStore = none ∧ s.objects = []
  | .live, s => s.ptr_KVStore = some 0 ∧ ∃ store, s.objects = [some store]
  | .dangling, s => s.ptr_KVStore = some 0 ∧ s.objects = [none]

variable {σ : Type}

/-! ## What a call may do -/

/-- A call works on a store that exists, and deletes none that is deleted. -/
def Safe (s : KVStoreLib σ) : LibCall → Prop
  | .create => True
  | .destroy => ∀ i ∈ s.ptr_KVStore, s.objects[i]? ≠ some none
  | .process _ => s.store.isSome

theorem safe_destroy_iff {standing : Standing} {s : KVStoreLib σ} (h : standing.Describes s) :
    Safe s .destroy ↔ standing ≠ .dangling := by
  cases standing with
  | null => simp [Safe, h.1]
  | live =>
      obtain ⟨hptr, store, hobjects⟩ := h
      simp [Safe, hptr, hobjects]
  | dangling => simp [Safe, h.1, h.2]

theorem safe_process_iff {standing : Standing} {s : KVStoreLib σ} (h : standing.Describes s)
    (send : SendMessage) : Safe s (.process send) ↔ standing = .live := by
  cases standing with
  | null => simp [Safe, KVStoreLib.store, h.1]
  | live =>
      obtain ⟨hptr, store, hobjects⟩ := h
      simp [Safe, KVStoreLib.store, hptr, hobjects]
  | dangling => simp [Safe, KVStoreLib.store, h.1, h.2]

/-! ## Steps -/

namespace Standing.Describes

variable {standing : Standing} {s t : KVStoreLib σ}

theorem destroy (h : standing.Describes s) :
    (standing.after .destroy).Describes s.kvstoreDestroy := by
  cases standing with
  | null =>
      obtain ⟨hptr, hobjects⟩ := h
      simp [Describes, after, KVStoreLib.kvstoreDestroy, hptr, hobjects]
  | live =>
      obtain ⟨hptr, store, hobjects⟩ := h
      simp [Describes, after, KVStoreLib.kvstoreDestroy, hptr, hobjects]
  | dangling =>
      obtain ⟨hptr, hobjects⟩ := h
      simp [Describes, after, KVStoreLib.kvstoreDestroy, hptr, hobjects]

variable [CuckoohashMap σ Key Value]

theorem create (h : standing.Describes s) : (standing.after .create).Describes s.kvstoreCreate := by
  cases standing with
  | null =>
      obtain ⟨hptr, hobjects⟩ := h
      simp [Describes, after, KVStoreLib.kvstoreCreate, hptr, hobjects]
  | live =>
      obtain ⟨hptr, hobjects⟩ := h
      simp [Describes, after, KVStoreLib.kvstoreCreate, hptr, hobjects]
  | dangling =>
      obtain ⟨hptr, hobjects⟩ := h
      simp [Describes, after, KVStoreLib.kvstoreCreate, hptr, hobjects]

theorem process (h : standing.Describes s) (send : SendMessage) :
    (standing.after (.process send)).Describes (s.processPacket send) := by
  unfold KVStoreLib.processPacket
  split
  · cases standing with
    | null =>
        obtain ⟨hptr, hobjects⟩ := h
        simp [Describes, after, hptr, hobjects]
    | live =>
        obtain ⟨hptr, store, hobjects⟩ := h
        have hstore : s.store = some store := by simp [KVStoreLib.store, hptr, hobjects]
        simp only [hptr, hstore]
        cases kvstoreProcessPacket store send with
        | none => exact ⟨rfl, store, hobjects⟩
        | some result => exact ⟨rfl, result.2.2, by simp [hobjects]⟩
    | dangling =>
        obtain ⟨hptr, hobjects⟩ := h
        simp [Describes, after, KVStoreLib.store, hptr, hobjects]
  · cases standing <;> exact h

theorem step {call : LibCall} (h : standing.Describes s) (hstep : s.step call = some t) :
    (standing.after call).Describes t := by
  simp only [KVStoreLib.step] at hstep
  split at hstep
  · cases hstep
  · cases call with
    | create => cases hstep; exact h.create
    | destroy => cases hstep; exact h.destroy
    | process send => cases hstep; exact h.process send

/-- Every run agrees with its calls. -/
theorem run {calls : List LibCall} (h : standing.Describes s)
    (hrun : (kvstoreLib σ).exec s calls = some t) :
    (calls.foldl Standing.after standing).Describes t := by
  induction calls generalizing standing s with
  | nil => cases hrun; exact h
  | cons call calls ih =>
      obtain ⟨u, hstep, hrest⟩ := (kvstoreLib σ).exec_cons_eq_some hrun
      exact ih (h.step hstep) hrest

end Standing.Describes

variable [CuckoohashMap σ Key Value]

theorem standing_describes {calls : List LibCall} {s : KVStoreLib σ}
    (hrun : (kvstoreLib σ).exec .start calls = some s) : (standing calls).Describes s := by
  have hstart : Standing.null.Describes (KVStoreLib.start : KVStoreLib σ) := ⟨rfl, rfl⟩
  exact hstart.run hrun

/-! ## Sequences of calls -/

/-- Every process call has a `kvstore_create` after the last `kvstore_destroy` before it. -/
def CreatedBefore (calls : List LibCall) : Prop :=
  ∀ before send after, calls = before ++ .process send :: after →
    ∃ old new, before = old ++ .create :: new ∧ .destroy ∉ new

/-- A process call behind a `kvstore_destroy` and a `kvstore_create` and the first since then
finds a store without keys. -/
def FindsEmpty (σ : Type) [CuckoohashMap σ Key Value] (calls : List LibCall) : Prop :=
  ∀ before creates send after, calls = before ++ .destroy :: (creates ++ .process send :: after) →
    .create ∈ creates → (∀ call ∈ creates, call = .create) →
    ∀ s : KVStoreLib σ, (kvstoreLib σ).exec .start (before ++ .destroy :: creates) = some s →
      ∃ store, s.store = some store ∧ ∀ k, CuckoohashMap.find store k = none

/-- Behind a `kvstore_destroy` that has deleted a store there are no calls but
`kvstore_create`. -/
def SingleUse (calls : List LibCall) : Prop :=
  ∀ before after, calls = before ++ .destroy :: after → .create ∈ before →
    ∀ call ∈ after, call = .create

variable {calls : List LibCall} {t : KVStoreLib σ}

/-- Behind the first store that is deleted every call but `kvstore_create` is unsafe. -/
theorem singleUse_of_safe (hrun : (kvstoreLib σ).exec .start calls = some t)
    (h : (kvstoreLib σ).Meets Safe .start calls) : SingleUse calls := by
  rintro before after rfl hcreate call hcall
  obtain ⟨first, last, rfl⟩ := List.mem_iff_append.mp hcall
  have hsplit : before ++ .destroy :: (first ++ call :: last) =
      (before ++ .destroy :: first) ++ call :: last := by simp
  rw [hsplit] at hrun
  obtain ⟨s, hs, -⟩ := (kvstoreLib σ).exec_append_eq_some hrun
  have hdescribes := standing_describes hs
  rw [standing_destroyed hcreate] at hdescribes
  have hsafe := h _ call last s hsplit hs
  cases call with
  | create => rfl
  | destroy => exact absurd rfl ((safe_destroy_iff hdescribes).mp hsafe)
  | process send => cases (safe_process_iff hdescribes send).mp hsafe

theorem safe_of_singleUse (hcreated : CreatedBefore calls) (h : SingleUse calls) :
    (kvstoreLib σ).Meets Safe .start calls := by
  rintro before call after s rfl hs
  have hdescribes := standing_describes hs
  have hdangling : standing before = .dangling → call = .create := by
    intro hd
    obtain ⟨old, new, rfl, hcreate⟩ := destroyed_of_dangling hd
    exact h old (new ++ call :: after) (by simp) hcreate call (by simp)
  cases call with
  | create => trivial
  | destroy =>
      rw [safe_destroy_iff hdescribes]
      exact fun hd => by cases hdangling hd
  | process send =>
      rw [safe_process_iff hdescribes]
      cases hs : standing before with
      | null =>
          obtain ⟨old, new, rfl, -⟩ := hcreated before send after rfl
          exact absurd (by simp) (standing_eq_null_iff.mp hs)
      | live => rfl
      | dangling => cases hdangling hs

/-- `kvstore_create` makes a store without keys if there was none, and keeps one that is
there. -/
theorem create_empty {s : KVStoreLib σ}
    (h : Standing.null.Describes s ∨
      s.ptr_KVStore = some 0 ∧ s.objects = [some CuckoohashMap.empty]) :
    s.kvstoreCreate.ptr_KVStore = some 0 ∧
      s.kvstoreCreate.objects = [some CuckoohashMap.empty] := by
  rcases h with ⟨hptr, hobjects⟩ | ⟨hptr, hobjects⟩
  · simp [KVStoreLib.kvstoreCreate, hptr, hobjects]
  · simp [KVStoreLib.kvstoreCreate, hptr, hobjects]

theorem creates_empty {creates : List LibCall} (hcreates : ∀ call ∈ creates, call = .create)
    (hne : creates ≠ []) {s t : KVStoreLib σ}
    (h : Standing.null.Describes s ∨
      s.ptr_KVStore = some 0 ∧ s.objects = [some CuckoohashMap.empty])
    (hrun : (kvstoreLib σ).exec s creates = some t) :
    t.ptr_KVStore = some 0 ∧ t.objects = [some CuckoohashMap.empty] := by
  induction creates generalizing s with
  | nil => exact absurd rfl hne
  | cons call creates ih =>
      obtain ⟨rfl, hrest⟩ := List.forall_mem_cons.mp hcreates
      obtain ⟨u, hstep, hexec⟩ := (kvstoreLib σ).exec_cons_eq_some hrun
      have hu : u = s.kvstoreCreate := by
        simp only [kvstoreLib, KVStoreLib.step] at hstep
        split at hstep
        · cases hstep
        · cases hstep
          rfl
      subst hu
      have hempty := create_empty h
      cases creates with
      | nil => cases hexec; exact hempty
      | cons call creates => exact ih hrest (List.cons_ne_nil _ _) (Or.inr hempty) hexec

theorem findsEmpty_of_singleUse (h : SingleUse calls) : FindsEmpty σ calls := by
  rintro before creates send after rfl hcreate hcreates s hs
  have hnone : .create ∉ before := fun hmem => by
    cases h before _ rfl hmem (.process send) (by simp)
  obtain ⟨u, hu, hexec⟩ := (kvstoreLib σ).exec_append_eq_some
    (show (kvstoreLib σ).exec .start ((before ++ [.destroy]) ++ creates) = some s by
      simpa using hs)
  have hnull : standing (before ++ [.destroy]) = .null :=
    standing_eq_null_iff.mpr (by simpa using hnone)
  have hdescribes := standing_describes hu
  rw [hnull] at hdescribes
  obtain ⟨hptr, hobjects⟩ :=
    creates_empty hcreates (List.ne_nil_of_mem hcreate) (Or.inl hdescribes) hexec
  exact ⟨CuckoohashMap.empty, by simp [KVStoreLib.store, hptr, hobjects],
    CuckoohashMap.find_empty⟩

/-- In every sequence of calls in which each process call is behind a `kvstore_create`, the
process calls work on a store that exists, no store is deleted twice, and a store is empty
after `kvstore_destroy` and `kvstore_create`, exactly if the store is used once. -/
theorem lifeCycle_iff_singleUse (hrun : (kvstoreLib σ).exec .start calls = some t)
    (hcreated : CreatedBefore calls) :
    (kvstoreLib σ).Meets Safe .start calls ∧ FindsEmpty σ calls ↔ SingleUse calls :=
  ⟨fun h => singleUse_of_safe hrun h.1,
    fun h => ⟨safe_of_singleUse hcreated h, findsEmpty_of_singleUse h⟩⟩

/-- A store is made, used and deleted. -/
theorem lifeCycle_iff_singleUse_put :
    (kvstoreLib (Key → Option Value)).Meets Safe .start
        [.create, .process (SendMessage.blank .PUT 1), .destroy] ∧
      FindsEmpty (Key → Option Value) [.create, .process (SendMessage.blank .PUT 1), .destroy] := by
  have hrun : ((kvstoreLib (Key → Option Value)).exec .start
      [.create, .process (SendMessage.blank .PUT 1), .destroy]).isSome := by
    decide +kernel
  obtain ⟨t, ht⟩ := Option.isSome_iff_exists.mp hrun
  refine (lifeCycle_iff_singleUse ht ?_).mpr ?_
  · intro before send after h
    rcases before with - | ⟨_, - | ⟨_, - | ⟨_, before⟩⟩⟩
    · cases h
    · cases h
      exact ⟨[], [], rfl, by simp⟩
    · cases h
    · cases before <;> cases h
  · intro before after h _ call hcall
    rcases before with - | ⟨_, - | ⟨_, - | ⟨_, before⟩⟩⟩
    · cases h
    · cases h
    · cases h
      cases hcall
    · cases before <;> cases h

/-- The store of a second `kvstore_create` is the deleted one. -/
theorem second_store_dangling : ¬ ∀ calls (t : KVStoreLib (Key → Option Value)),
    (kvstoreLib _).exec .start calls = some t → CreatedBefore calls →
      (kvstoreLib (Key → Option Value)).Meets Safe .start calls ∧
        FindsEmpty (Key → Option Value) calls := by
  intro h
  have hrun : ((kvstoreLib (Key → Option Value)).exec .start
      [.create, .destroy, .create, .process (SendMessage.blank .GET 1)]).isSome := by
    decide +kernel
  obtain ⟨t, ht⟩ := Option.isSome_iff_exists.mp hrun
  have hcreated :
      CreatedBefore [.create, .destroy, .create, .process (SendMessage.blank .GET 1)] := by
    intro before send after hsplit
    rcases before with - | ⟨_, - | ⟨_, - | ⟨_, - | ⟨_, before⟩⟩⟩⟩
    · cases hsplit
    · cases hsplit
    · cases hsplit
    · cases hsplit
      exact ⟨[.create, .destroy], [], rfl, by simp⟩
    · cases before <;> cases hsplit
  obtain ⟨hsafe, -⟩ := h _ t ht hcreated
  cases singleUse_of_safe ht hsafe [.create] _ rfl List.mem_cons_self
    (.process (SendMessage.blank .GET 1)) (by simp)

end KvServer
