import KvServer.Base.Machine
import KvServer.Mtcp.Handler

/-!
# The loop of an mTCP server thread

`RunServerThread` waits for a batch of events, takes them up one after the other,
and accepts connections at the end of the batch if the listener was in it.  Each
event goes to one of three places: the listener sets a flag, an error closes the
socket, and a readable socket goes to the handler.

The thread is a machine whose events are what the environment decides: the batch,
the answers a handler call gets, the sockets accepted, and changes of `errno` by
calls that are not followed here.  A batch names registered sockets, each once.
An event that takes up a socket carries exactly the answers the handler uses.
-/

namespace KvServer.Mtcp

open Transfer

/-- An entry of the array filled by `mtcp_epoll_wait`. -/
structure EpollEvent where
  sockid : Nat
  /-- `MTCP_EPOLLERR` -/
  err : Bool
  /-- `MTCP_EPOLLIN` -/
  epollin : Bool
deriving DecidableEq, Repr

/-- Where the thread is. -/
inductive Phase where
  /-- At `mtcp_epoll_wait`. -/
  | waiting
  /-- In the batch: the events left and `do_accept`. -/
  | dispatching (events : List EpollEvent) (do_accept : Bool)
  /-- In the accept loop. -/
  | accepting
  /-- In a loop of the handler, waiting for an answer that has not come. -/
  | handling
  | exited
  | stopped
deriving DecidableEq, Repr

/-- `RunServerThread` on one core. -/
structure Thread (σ : Type) where
  listener : Nat
  phase : Phase
  ctx : ThreadContext σ

/-- What the environment decides. -/
inductive Event where
  /-- `mtcp_epoll_wait` returns a batch. -/
  | wait (events : List EpollEvent)
  /-- `mtcp_epoll_wait` fails, or `done[core]` is set. -/
  | stop
  /-- The next event of the batch is taken up and the calls get these answers. -/
  | dispatch (reads : List (ReadAnswer Byte)) (writes : List WriteAnswer)
  /-- `mtcp_accept` returns a socket. -/
  | accept (c : Nat)
  /-- `mtcp_accept` fails. -/
  | acceptFailed (errno : Errno)
  /-- Another call leaves `errno` changed. -/
  | errno (errno : Errno)

variable {σ : Type}

/-- What the loop does with the value the handler returned. -/
def afterHandler (ctx : ThreadContext σ) (sockid : Nat) : Outcome → ThreadContext σ
  | .returned ret =>
      -- connection closed by remote host
      if ret = 0 then closeConnection ctx sockid
      -- if not `EAGAIN`, it is an error
      else if ret < 0 ∧ ctx.errno ≠ EAGAIN then closeConnection ctx sockid
      else ctx
  | _ => ctx

/-- The phase an unfinished handler call leaves the thread in. -/
def Outcome.stops : Outcome → Option Phase
  | .returned _ => none
  | .exited => some .exited
  | .waiting => some .handling

theorem Outcome.stops_exited {outcome : Outcome} (h : outcome.stops = some .exited) :
    outcome = .exited := by
  cases outcome with
  | returned ret => cases h
  | exited => rfl
  | waiting => cases h

theorem Outcome.stops_held {outcome : Outcome} {phase : Phase}
    (h : outcome.stops = some phase) : phase = .exited ∨ phase = .handling := by
  cases outcome with
  | returned ret => cases h
  | exited => cases h; exact Or.inl rfl
  | waiting => cases h; exact Or.inr rfl

/-- An event taken up: where the thread is held, if it is, and the answers left over. -/
structure Dispatched (σ : Type) where
  stops : Option Phase
  ctx : ThreadContext σ
  reads : List (ReadAnswer Byte)
  writes : List WriteAnswer

/-- Where the loop goes after an event of the batch. -/
def nextPhase (events : List EpollEvent) (do_accept : Bool) : Phase :=
  if events = [] then if do_accept then .accepting else .waiting
  else .dispatching events do_accept

section

variable [CuckoohashMap σ Key Value]

/-- The body of the loop over the batch. -/
def dispatch (listener : Nat) (ctx : ThreadContext σ) (ev : EpollEvent)
    (reads : List (ReadAnswer Byte)) (writes : List WriteAnswer) : Dispatched σ :=
  let ctx := ctx.did (.event ev.sockid)
  if ev.sockid = listener then ⟨none, ctx, reads, writes⟩
  else if ev.err then ⟨none, closeConnection ctx ev.sockid, reads, writes⟩
  else if ev.epollin then
    let h := handleReadEvent ctx ev.sockid reads writes
    ⟨h.outcome.stops, afterHandler h.ctx ev.sockid h.outcome, h.reads, h.writes⟩
  else ⟨none, ctx, reads, writes⟩

namespace Thread

/-- A batch `mtcp_epoll_wait` may return: registered sockets, each once. -/
def Batch (t : Thread σ) (events : List EpollEvent) : Prop :=
  (events.map EpollEvent.sockid).Nodup ∧ ∀ ev ∈ events, ev.sockid ∈ t.ctx.epoll

instance (t : Thread σ) (events : List EpollEvent) : Decidable (t.Batch events) :=
  inferInstanceAs (Decidable (_ ∧ _))

/-- One step of the thread. -/
def step (t : Thread σ) : Event → Option (Thread σ)
  | .wait events =>
      if t.phase = .waiting ∧ t.Batch events then some { t with phase := nextPhase events false }
      else none
  | .stop => if t.phase = .waiting then some { t with phase := .stopped } else none
  | .dispatch reads writes =>
      match t.phase with
      | .dispatching (ev :: events) do_accept =>
          let d := dispatch t.listener t.ctx ev reads writes
          if d.reads = [] ∧ d.writes = [] then
            some { t with
              phase := d.stops.getD (nextPhase events (do_accept || ev.sockid = t.listener))
              ctx := d.ctx }
          else none
      | _ => none
  | .accept c =>
      if t.phase = .accepting then
        let (goesOn, ctx) := acceptConnection t.ctx c
        some { t with phase := if goesOn then .accepting else .waiting, ctx := ctx }
      else none
  | .acceptFailed e =>
      if t.phase = .accepting then
        some { t with phase := .waiting, ctx := { t.ctx with errno := e } }
      else none
  | .errno e =>
      if t.phase = .exited ∨ t.phase = .stopped then none
      else some { t with ctx := { t.ctx with errno := e } }

end Thread

/-- The server thread. -/
def serverThread (σ : Type) [CuckoohashMap σ Key Value] : Machine (Thread σ) Event where
  step := Thread.step

/-- The thread before the first `mtcp_epoll_wait`. -/
def Thread.start (listener : Nat) (store : σ) : Thread σ where
  listener := listener
  phase := .waiting
  ctx := ThreadContext.start listener store

/-! ## Taking up one event -/

/-- The handler is called for the event and closes the socket itself. -/
structure HandlerCloses (listener : Nat) (ctx : ThreadContext σ) (ev : EpollEvent)
    (reads : List (ReadAnswer Byte)) (writes : List WriteAnswer) : Prop where
  other : ev.sockid ≠ listener
  err : ev.err = false
  epollin : ev.epollin = true
  outcome : (handleReadEvent (ctx.did (.event ev.sockid)) ev.sockid reads writes).outcome =
    .returned 0

theorem HandlerCloses.ends {listener : Nat} {ctx : ThreadContext σ} {ev : EpollEvent}
    {reads : List (ReadAnswer Byte)} {writes : List WriteAnswer}
    (h : HandlerCloses listener ctx ev reads writes) : Ends ctx.errno reads writes :=
  handleReadEvent_returned_zero (ctx.did (.event ev.sockid)) ev.sockid reads writes h.outcome

/-- What taking up an event does: it serves the socket of the event, closes it twice if
the handler closes it and once at most if not, and closes no other. -/
structure Dispatched.Spec (listener : Nat) (ctx : ThreadContext σ) (ev : EpollEvent)
    (reads : List (ReadAnswer Byte)) (writes : List WriteAnswer) (d : Dispatched σ)
    (body : List Action) (n : Nat) : Prop where
  did : Extends ctx d.ctx (.event ev.sockid :: (body ++ List.replicate n (.close ev.sockid)))
  serves : ∀ a ∈ body, a.Serves ev.sockid
  twice : 1 < n ↔ HandlerCloses listener ctx ev reads writes
  listener : ev.sockid = listener → n = 0
  held : ∀ phase, d.stops = some phase → phase = .exited ∨ phase = .handling
  exited : d.stops = some .exited → Fatal ctx.errno reads writes

theorem afterHandler_spec (ctx : ThreadContext σ) (sockid : Nat) (outcome : Outcome) :
    ∃ n, Extends ctx (afterHandler ctx sockid outcome) (List.replicate n (.close sockid)) ∧
      n ≤ 1 ∧ (outcome = .returned 0 → n = 1) := by
  cases outcome with
  | returned ret =>
      simp only [afterHandler]
      split
      · exact ⟨1, Extends.close ctx sockid, le_rfl, fun _ => rfl⟩
      · next hret =>
          have hne : Outcome.returned ret ≠ .returned 0 := fun h => hret (Outcome.returned.inj h)
          split
          · exact ⟨1, Extends.close ctx sockid, le_rfl, fun _ => rfl⟩
          · exact ⟨0, Extends.errno ctx ctx.errno, Nat.zero_le 1, fun h => absurd h hne⟩
  | exited => exact ⟨0, Extends.errno ctx ctx.errno, Nat.zero_le 1, fun h => by cases h⟩
  | waiting => exact ⟨0, Extends.errno ctx ctx.errno, Nat.zero_le 1, fun h => by cases h⟩

/-- The branch of a readable socket.  When the handler returned 0 it has closed the
socket, and the loop closes it again. -/
theorem dispatch_read_spec (ctx : ThreadContext σ) (sockid : Nat)
    (reads : List (ReadAnswer Byte)) (writes : List WriteAnswer) :
    ∃ body n, Extends ctx
        (afterHandler (handleReadEvent ctx sockid reads writes).ctx sockid
          (handleReadEvent ctx sockid reads writes).outcome)
        (body ++ List.replicate n (.close sockid)) ∧
      (∀ a ∈ body, a.Serves sockid) ∧
      (1 < n ↔ (handleReadEvent ctx sockid reads writes).outcome = .returned 0) := by
  obtain ⟨body, hbody, hserves⟩ := handleReadEvent_spec ctx sockid reads writes
  obtain ⟨n, hafter, hn, hone⟩ := afterHandler_spec
    (handleReadEvent ctx sockid reads writes).ctx sockid
    (handleReadEvent ctx sockid reads writes).outcome
  have hall := hbody.trans hafter
  by_cases hzero : (handleReadEvent ctx sockid reads writes).outcome = .returned 0
  · refine ⟨body, 1 + n, ?_, hserves, iff_of_true ?_ hzero⟩
    · rw [closing, if_pos hzero, List.append_assoc] at hall
      rw [List.replicate_add]
      exact hall
    · rw [hone hzero]
      decide
  · refine ⟨body, n, ?_, hserves, iff_of_false (Nat.not_lt.mpr hn) hzero⟩
    rw [closing, if_neg hzero, List.append_nil] at hall
    exact hall

theorem dispatch_spec (listener : Nat) (ctx : ThreadContext σ) (ev : EpollEvent)
    (reads : List (ReadAnswer Byte)) (writes : List WriteAnswer) :
    ∃ body n, (dispatch listener ctx ev reads writes).Spec listener ctx ev reads writes body n := by
  have hevent := Extends.event ctx ev.sockid
  by_cases hl : ev.sockid = listener
  · simp only [dispatch, if_pos hl]
    exact ⟨[], 0, hevent, by simp, iff_of_false (by decide) fun h => h.other hl, fun _ => rfl,
      fun _ h => (by cases h), fun h => (by cases h)⟩
  · by_cases herr : ev.err = true
    · simp only [dispatch, if_neg hl, if_pos herr]
      exact ⟨[], 1, hevent.trans (Extends.close _ _), by simp,
        iff_of_false (by decide) fun h => (by cases herr.symm.trans h.err),
        fun h => absurd h hl, fun _ h => (by cases h), fun h => (by cases h)⟩
    · by_cases hin : ev.epollin = true
      · simp only [dispatch, if_neg hl, if_neg herr, if_pos hin]
        obtain ⟨body, n, hread, hserves, htwice⟩ :=
          dispatch_read_spec (ctx.did (.event ev.sockid)) ev.sockid reads writes
        refine ⟨body, n, hevent.trans hread, hserves,
          htwice.trans ⟨fun h => ⟨hl, by simpa using herr, hin, h⟩, fun h => h.outcome⟩,
          fun h => absurd h hl, fun _ => Outcome.stops_held, fun h => ?_⟩
        refine handleReadEvent_exited (ctx.did (.event ev.sockid)) ev.sockid reads writes ?_
        exact Outcome.stops_exited h
      · simp only [dispatch, if_neg hl, if_neg herr, if_neg hin]
        exact ⟨[], 0, hevent, by simp, iff_of_false (by decide) fun h => hin h.epollin,
          fun _ => rfl, fun _ h => (by cases h), fun h => (by cases h)⟩

/-! ## Steps -/

/-- The steps of the thread, one constructor for each. -/
inductive Thread.Step (t : Thread σ) : Event → Thread σ → Prop where
  | wait {events : List EpollEvent} :
      t.phase = .waiting → t.Batch events →
      Step t (.wait events) { t with phase := nextPhase events false }
  | stop : t.phase = .waiting → Step t .stop { t with phase := .stopped }
  | dispatch {ev : EpollEvent} {events : List EpollEvent} {do_accept do_accept' : Bool}
      {reads : List (ReadAnswer Byte)} {writes : List WriteAnswer} {d : Dispatched σ}
      {body : List Action} {n : Nat} :
      t.phase = .dispatching (ev :: events) do_accept →
      d.Spec t.listener t.ctx ev reads writes body n →
      Step t (.dispatch reads writes)
        { t with phase := d.stops.getD (nextPhase events do_accept'), ctx := d.ctx }
  | accept {c : Nat} {phase : Phase} :
      t.phase = .accepting → phase = .accepting ∨ phase = .waiting →
      Step t (.accept c) { t with phase := phase, ctx := (acceptConnection t.ctx c).2 }
  | acceptFailed {e : Errno} :
      t.phase = .accepting →
      Step t (.acceptFailed e) { t with phase := .waiting, ctx := { t.ctx with errno := e } }
  | errno {e : Errno} :
      t.phase ≠ .exited → Step t (.errno e) { t with ctx := { t.ctx with errno := e } }

/-- What a step can do. -/
theorem Thread.step_cases {t t' : Thread σ} {e : Event} (h : t.step e = some t') : t.Step e t' := by
  cases e with
  | wait events =>
      simp only [Thread.step] at h
      split at h
      · next hguard => cases h; exact .wait hguard.1 hguard.2
      · cases h
  | stop =>
      simp only [Thread.step] at h
      split at h
      · next hguard => cases h; exact .stop hguard
      · cases h
  | dispatch reads writes =>
      simp only [Thread.step] at h
      split at h
      · next ev events do_accept hphase =>
          obtain ⟨body, n, hspec⟩ := dispatch_spec t.listener t.ctx ev reads writes
          split at h
          · cases h; exact .dispatch hphase hspec
          · cases h
      · cases h
  | accept c =>
      simp only [Thread.step] at h
      split at h
      · next hguard =>
          cases h
          refine .accept hguard ?_
          split
          · exact Or.inl rfl
          · exact Or.inr rfl
      · cases h
  | acceptFailed e =>
      simp only [Thread.step] at h
      split at h
      · next hguard => cases h; exact .acceptFailed hguard
      · cases h
  | errno e =>
      simp only [Thread.step] at h
      split at h
      · cases h
      · next hguard => cases h; exact .errno fun hx => hguard (Or.inl hx)

theorem nextPhase_dispatching {events events' : List EpollEvent} {do_accept do_accept' : Bool}
    (h : nextPhase events do_accept = .dispatching events' do_accept') : events' = events := by
  unfold nextPhase at h
  split at h
  · split at h <;> cases h
  · cases h
    rfl

theorem nextPhase_ne_exited (events : List EpollEvent) (do_accept : Bool) :
    nextPhase events do_accept ≠ .exited := by
  unfold nextPhase
  split
  · split <;> exact fun h => by cases h
  · exact fun h => by cases h

end

/-- A run in which listener 3 accepts socket 7, and 7 sends one request. -/
def session (send : SendMessage) (writes : List WriteAnswer) : List Event :=
  [.wait [⟨3, false, true⟩], .dispatch [] [], .accept 7, .acceptFailed EAGAIN,
    .wait [⟨7, false, true⟩], .dispatch [.data send.bytes] writes]

/-- A reset of socket 7. -/
def reset : List Event := [.wait [⟨7, true, false⟩], .dispatch [] []]

theorem mem_session_reset {send : SendMessage} {writes : List WriteAnswer} {C : Event → Prop}
    (hother : ∀ e, (∀ reads writes, e ≠ .dispatch reads writes) → C e)
    (hempty : C (.dispatch [] [])) (hsend : C (.dispatch [.data send.bytes] writes)) :
    ∀ e ∈ session send writes ++ reset, C e := by
  intro e he
  simp only [session, reset, List.cons_append, List.nil_append, List.mem_cons, List.not_mem_nil,
    or_false] at he
  rcases he with rfl | rfl | rfl | rfl | rfl | rfl | rfl | rfl
  · exact hother _ fun _ _ h => by cases h
  · exact hempty
  · exact hother _ fun _ _ h => by cases h
  · exact hother _ fun _ _ h => by cases h
  · exact hother _ fun _ _ h => by cases h
  · exact hsend
  · exact hother _ fun _ _ h => by cases h
  · exact hempty

end KvServer.Mtcp
