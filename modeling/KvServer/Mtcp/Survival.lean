import KvServer.Mtcp.Closing

/-!
# What ends the process

The handler calls `exit(1)` in three places: at a request without an operation,
and in each loop at an `errno` it does not know.  `Fatal` says in terms of the
answers when a call gets there.  In a run without such a call the process lives,
the store is what the completed requests make of the first store, and a socket is
only ever closed while its own event is taken up.
-/

namespace KvServer.Mtcp

open Transfer

/-- The dispatch does not bring the handler to an `exit(1)`. -/
def Harmless {σ : Type} (t : Thread σ) : Event → Prop
  | .dispatch reads writes => ¬ Fatal t.ctx.errno reads writes
  | _ => True

/-! ## Who is closed -/

/-- The socket whose event was taken up last. -/
def lastEvent (log : List Action) : Option Nat :=
  log.foldl (fun last a => match a with
    | .event sockid => some sockid
    | _ => last) none

/-- A socket is closed only while its own event is handled. -/
def ClosesOwn (log : List Action) : Prop :=
  ∀ pre c post, log = pre ++ .close c :: post → lastEvent pre = some c

theorem lastEvent_event_append {log added : List Action} {sockid : Nat}
    (h : ∀ d, .event d ∉ added) : lastEvent (log ++ .event sockid :: added) = some sockid := by
  rw [lastEvent, List.foldl_append, List.foldl_cons]
  induction added with
  | nil => rfl
  | cons a added ih =>
      rw [List.foldl_cons]
      cases a with
      | event d => exact absurd List.mem_cons_self (h d)
      | _ => exact ih fun d hd => h d (List.mem_cons_of_mem _ hd)

theorem ClosesOwn.append {log added : List Action} (h : ClosesOwn log)
    (hadd : ∀ pre c post, added = pre ++ .close c :: post → lastEvent (log ++ pre) = some c) :
    ClosesOwn (log ++ added) := by
  intro pre c post hsplit
  rcases List.append_eq_append_iff.mp hsplit with ⟨mid, rfl, hmid⟩ | ⟨mid, rfl, hmid⟩
  · exact hadd mid c post hmid
  · cases mid with
    | nil =>
        have hfirst := hadd [] c post hmid.symm
        rw [List.append_nil, List.append_nil] at hfirst
        exact hfirst
    | cons a mid =>
        obtain ⟨rfl, -⟩ := List.cons.inj hmid
        exact h pre c mid rfl

/-- Actions that close nothing. -/
theorem ClosesOwn.append_of_not_mem {log added : List Action} (h : ClosesOwn log)
    (hadd : ∀ c, .close c ∉ added) : ClosesOwn (log ++ added) :=
  h.append fun pre c post hsplit => absurd (by rw [hsplit]; simp) (hadd c)

theorem ClosesOwn.dispatch {log body : List Action} {sockid n : Nat} (h : ClosesOwn log)
    (hserves : ∀ a ∈ body, a.Serves sockid) :
    ClosesOwn (log ++ dispatchActions sockid body n) := by
  refine h.append fun pre c post hsplit => ?_
  cases pre with
  | nil => cases hsplit
  | cons a pre =>
      obtain ⟨rfl, hrest⟩ := List.cons.inj hsplit
      have hc : c ∈ closes (dispatchActions sockid body n) := by
        rw [hsplit, closes_append]
        exact List.mem_append_right _ List.mem_cons_self
      rw [closes_dispatch hserves] at hc
      rw [List.eq_of_mem_replicate hc]
      refine lastEvent_event_append fun d hd => ?_
      have hmem : Action.event d ∈ body ++ List.replicate n (.close sockid) := by
        rw [hrest]
        exact List.mem_append_left _ hd
      rcases List.mem_append.mp hmem with hm | hm
      · exact hserves _ hm
      · cases List.eq_of_mem_replicate hm

/-! ## The invariant -/

variable {σ : Type} [CuckoohashMap σ Key Value]

/-- What the condition keeps, in a run from the store `store`. -/
structure Thread.Alive (store : σ) (t : Thread σ) : Prop where
  phase : t.phase ≠ .exited
  closes : ClosesOwn t.ctx.log
  store : ∃ replies, processPackets store (completed t.ctx.log) = some (replies, t.ctx.store)

theorem Thread.Alive.start (listener : Nat) (store : σ) :
    (Thread.start listener store).Alive store where
  phase := fun h => by cases h
  closes := fun pre c post h => by cases pre <;> cases h
  store := ⟨[], rfl⟩

/-- The store after more actions. -/
theorem Thread.Alive.extend {store : σ} {t : Thread σ} {ctx : ThreadContext σ}
    {added : List Action} (ht : t.Alive store) (h : Extends t.ctx ctx added) :
    ∃ replies, processPackets store (completed ctx.log) = some (replies, ctx.store) := by
  obtain ⟨replies, hold⟩ := ht.store
  obtain ⟨replies', hnew⟩ := h.store
  refine ⟨replies ++ replies', ?_⟩
  rw [h.log, completed_append]
  exact (storeMachine σ).serve_append hold hnew

theorem Thread.Alive.step {store : σ} {t t' : Thread σ} {e : Event} (ht : t.Alive store)
    (he : Harmless t e) (h : t.step e = some t') : t'.Alive store := by
  cases Thread.step_cases h with
  | wait hphase hbatch => exact ⟨nextPhase_ne_exited _ _, ht.closes, ht.store⟩
  | stop hphase => exact ⟨fun h => (by cases h), ht.closes, ht.store⟩
  | @dispatch ev events do_accept do_accept' reads writes d body n hphase hspec =>
      refine ⟨?_, ?_, ht.extend hspec.did⟩
      · rcases hs : d.stops with - | held
        · exact nextPhase_ne_exited _ _
        · rintro rfl
          exact he (hspec.exited hs)
      · show ClosesOwn d.ctx.log
        rw [hspec.did.log]
        exact ht.closes.dispatch hspec.serves
  | @accept c phase hphase hnext =>
      have hdid := Extends.accept t.ctx c
      refine ⟨?_, ?_, ht.extend hdid⟩
      · rcases hnext with rfl | rfl <;> exact fun h => by cases h
      · show ClosesOwn (acceptConnection t.ctx c).2.log
        rw [hdid.log]
        exact ht.closes.append_of_not_mem fun d hd => by cases List.mem_singleton.mp hd
  | acceptFailed hphase => exact ⟨fun h => (by cases h), ht.closes, ht.store⟩
  | errno hphase => exact ⟨hphase, ht.closes, ht.store⟩

/-- In a run without a fatal call the process does not exit, a socket is closed
only while its own event is handled, and the store holds what the completed
requests made of it. -/
theorem alive_of_harmless {listener : Nat} {store : σ} {events : List Event} {t : Thread σ}
    (hrun : (serverThread σ).exec (Thread.start listener store) events = some t)
    (hmeets : (serverThread σ).Meets Harmless (Thread.start listener store) events) :
    t.phase ≠ .exited ∧ ClosesOwn t.ctx.log ∧
      ∃ replies, processPackets store (completed t.ctx.log) = some (replies, t.ctx.store) := by
  obtain ⟨hphase, hcloses, hstore⟩ := Machine.exec_invariant_of
    (fun _ _ _ ht he h => Thread.Alive.step ht he h) hrun hmeets (Thread.Alive.start listener store)
  exact ⟨hphase, hcloses, hstore⟩

/-- One request is answered, and the connection is reset afterwards. -/
theorem alive_of_harmless_reset :
    ∃ t, (serverThread (Key → Option Value)).exec (Thread.start 3 CuckoohashMap.empty)
        (session (SendMessage.blank .PUT 1) [.count KVSTORE_CONTENT_LEN] ++ reset) = some t ∧
      t.phase ≠ .exited ∧ ClosesOwn t.ctx.log ∧
      ∃ replies, processPackets (CuckoohashMap.empty : Key → Option Value)
        (completed t.ctx.log) = some (replies, t.ctx.store) := by
  have hsome : ((serverThread (Key → Option Value)).exec (Thread.start 3 CuckoohashMap.empty)
      (session (SendMessage.blank .PUT 1) [.count KVSTORE_CONTENT_LEN] ++ reset)).isSome := by
    decide +kernel
  obtain ⟨t, hrun⟩ := Option.isSome_iff_exists.mp hsome
  refine ⟨t, hrun, alive_of_harmless hrun (Machine.Meets.of_events fun e he u => ?_)⟩
  refine mem_session_reset (C := Harmless u) (fun e h => ?_) ?_ ?_ e he
  · cases e with
    | dispatch reads writes => exact absurd rfl (h reads writes)
    | _ => trivial
  · rintro (⟨e, h, -⟩ | ⟨e, h, -⟩ | ⟨h, -⟩)
    · cases h
    · cases h
    · exact absurd h (by decide)
  · rintro (⟨e, h, -⟩ | ⟨e, h, -⟩ | ⟨-, h⟩)
    · cases h
    · cases List.mem_singleton.mp h
    · exact h (by decide)

/-- A request with an unknown operation ends the process. -/
theorem exits_on_bad_opcode : ¬ ∀ events (t : Thread (Key → Option Value)),
    (serverThread _).exec (Thread.start 3 CuckoohashMap.empty) events = some t →
      t.phase ≠ .exited := by
  intro h
  have hphase : ((serverThread (Key → Option Value)).exec (Thread.start 3 CuckoohashMap.empty)
      (session { SendMessage.blank .GET 1 with operation := 9 } [])).map (fun t => t.phase) =
      some .exited := by
    decide +kernel
  obtain ⟨t, hrun, ht⟩ := Option.map_eq_some_iff.mp hphase
  exact h _ t hrun ht

end KvServer.Mtcp
