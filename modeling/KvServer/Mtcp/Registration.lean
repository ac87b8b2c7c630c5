import KvServer.Mtcp.Thread

/-!
# Open and registered sockets

A socket is opened by `mtcp_accept` and closed by `mtcp_close`.  `AcceptConnection`
registers the socket it was given, and `CloseConnection` takes the socket it closes
out of the epoll set, so the two sets move together.  The exception is a socket
number from `MAX_FLOW_NUM` on.  `AcceptConnection` calls it invalid and gives it up,
neither registered nor closed.

Which sockets are open and which are registered can both be read off the log, so
the argument is an induction over the log.
-/

namespace KvServer.Mtcp

/-- What an action does to the open sockets. -/
def Action.opens (sockets : Finset Nat) : Action → Finset Nat
  | .accept c => insert c sockets
  | .close sockid => sockets.erase sockid
  | _ => sockets

/-- The sockets that `mtcp_accept` returned and that were not closed since. -/
def openSockets (log : List Action) : Finset Nat := log.foldl Action.opens ∅

/-- Open sockets with a valid number are registered, and registered sockets are open. -/
structure Registers (listener : Nat) (epoll sockets : Finset Nat) : Prop where
  registered_of_open : ∀ c < MAX_FLOW_NUM, c ∈ sockets → c ∈ epoll
  open_of_registered : ∀ c ∈ epoll, c ≠ listener → c ∈ sockets

theorem Registers.act {listener : Nat} {epoll sockets : Finset Nat}
    (h : Registers listener epoll sockets) (a : Action) :
    Registers listener (a.register epoll) (a.opens sockets) := by
  cases a with
  | accept d =>
      simp only [Action.register, Action.opens]
      split
      · -- the number is not valid
        next hmax =>
          refine ⟨fun c hc hmem => ?_,
            fun c hmem hc => Finset.mem_insert_of_mem (h.open_of_registered c hmem hc)⟩
          rcases Finset.mem_insert.mp hmem with rfl | hmem
          · exact absurd hmax (Nat.not_le.mpr hc)
          · exact h.registered_of_open c hc hmem
      · constructor
        · intro c hc hmem
          rcases Finset.mem_insert.mp hmem with rfl | hmem
          · exact Finset.mem_insert_self _ _
          · exact Finset.mem_insert_of_mem (h.registered_of_open c hc hmem)
        · intro c hmem hc
          rcases Finset.mem_insert.mp hmem with rfl | hmem
          · exact Finset.mem_insert_self _ _
          · exact Finset.mem_insert_of_mem (h.open_of_registered c hmem hc)
  | close d =>
      constructor
      · intro c hc hmem
        obtain ⟨hne, hmem⟩ := Finset.mem_erase.mp hmem
        exact Finset.mem_erase.mpr ⟨hne, h.registered_of_open c hc hmem⟩
      · intro c hmem hc
        obtain ⟨hne, hmem⟩ := Finset.mem_erase.mp hmem
        exact Finset.mem_erase.mpr ⟨hne, h.open_of_registered c hmem hc⟩
  | event d => exact h
  | packet d send => exact h
  | write d bytes => exact h

theorem Registers.log {listener : Nat} {epoll sockets : Finset Nat}
    (h : Registers listener epoll sockets) (log : List Action) :
    Registers listener (registered epoll log) (log.foldl Action.opens sockets) := by
  induction log generalizing epoll sockets with
  | nil => exact h
  | cons a log ih => exact ih (h.act a)

variable {σ : Type} [CuckoohashMap σ Key Value]

/-- The epoll set is what the log makes of the listener alone. -/
theorem epoll_eq_registered {listener : Nat} {store : σ} {events : List Event} {t : Thread σ}
    (hrun : (serverThread σ).exec (Thread.start listener store) events = some t) :
    t.ctx.epoll = registered {listener} t.ctx.log := by
  refine Machine.exec_invariant_of (C := fun _ _ => True)
    (I := fun t => t.ctx.epoll = registered {listener} t.ctx.log) (fun t e t' ht _ hstep => ?_) hrun
    (.of_events fun _ _ _ => trivial) rfl
  have hextend : ∀ {ctx added}, Extends t.ctx ctx added →
      ctx.epoll = registered {listener} ctx.log := by
    intro ctx added hdid
    rw [hdid.epoll, hdid.log, ht, registered_append]
  cases Thread.step_cases hstep with
  | wait => exact ht
  | stop => exact ht
  | dispatch hphase hspec => exact hextend hspec.did
  | @accept c => exact hextend (Extends.accept t.ctx c)
  | acceptFailed => exact ht
  | errno => exact ht

/-- In every run, every socket with a valid number that was accepted and not closed since
is registered, and every registered socket but the listener was accepted and not closed
since. -/
theorem open_iff_registered {listener : Nat} {store : σ} {events : List Event} {t : Thread σ}
    (hrun : (serverThread σ).exec (Thread.start listener store) events = some t) :
    (∀ c < MAX_FLOW_NUM, c ∈ openSockets t.ctx.log → c ∈ t.ctx.epoll) ∧
      ∀ c ∈ t.ctx.epoll, c ≠ listener → c ∈ openSockets t.ctx.log := by
  have hstart : Registers listener {listener} ∅ :=
    ⟨fun c _ hmem => absurd hmem (Finset.notMem_empty c),
      fun c hmem hc => absurd (Finset.mem_singleton.mp hmem) hc⟩
  rw [epoll_eq_registered hrun]
  obtain ⟨hregistered, hopen⟩ := hstart.log t.ctx.log
  exact ⟨hregistered, hopen⟩

/-- A socket with a kept-alive request. -/
theorem open_iff_registered_put :
    ∃ t, (serverThread (Key → Option Value)).exec (Thread.start 3 CuckoohashMap.empty)
        (session (SendMessage.blank .PUT 1) [.count KVSTORE_CONTENT_LEN]) = some t ∧
      7 ∈ openSockets t.ctx.log ∧ 7 ∈ t.ctx.epoll := by
  have hlog : ((serverThread (Key → Option Value)).exec (Thread.start 3 CuckoohashMap.empty)
      (session (SendMessage.blank .PUT 1) [.count KVSTORE_CONTENT_LEN])).map
        (fun t => openSockets t.ctx.log) = some {7} := by
    decide +kernel
  obtain ⟨t, hrun, ht⟩ := Option.map_eq_some_iff.mp hlog
  have hopen : 7 ∈ openSockets t.ctx.log := by
    rw [ht]
    exact Finset.mem_singleton_self 7
  exact ⟨t, hrun, hopen, (open_iff_registered hrun).1 7 (by decide) hopen⟩

/-- A socket number that is not valid is not closed. -/
theorem open_not_registered : ¬ ∀ events (t : Thread (Key → Option Value)),
    (serverThread _).exec (Thread.start 3 CuckoohashMap.empty) events = some t →
      t.phase = .waiting →
      (∀ c ∈ openSockets t.ctx.log, c ∈ t.ctx.epoll) ∧
        ∀ c ∈ t.ctx.epoll, c ≠ 3 → c ∈ openSockets t.ctx.log := by
  intro h
  have hrun : ((serverThread (Key → Option Value)).exec (Thread.start 3 CuckoohashMap.empty)
      [.wait [⟨3, false, true⟩], .dispatch [] [], .accept 10000]).map
        (fun t => (t.phase, openSockets t.ctx.log, t.ctx.epoll)) =
      some (.waiting, {10000}, {3}) := by
    decide +kernel
  obtain ⟨t, hrun, ht⟩ := Option.map_eq_some_iff.mp hrun
  obtain ⟨hphase, hsets⟩ := Prod.mk.inj ht
  obtain ⟨hopen, hepoll⟩ := Prod.mk.inj hsets
  have hmem := (h _ t hrun hphase).1 10000
  rw [hopen, hepoll] at hmem
  exact absurd (hmem (Finset.mem_singleton_self _)) (by decide)

end KvServer.Mtcp
