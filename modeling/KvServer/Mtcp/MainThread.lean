import KvServer.Base.Threads
import KvServer.Store.LifeCycle

/-!
# The threads of the mTCP server

`main` makes the store, creates one server thread per core, joins them in order and destroys the
store.  `SignalHandler` is registered for SIGINT and may interrupt any of these threads: it sets
the flag of the server thread it runs in and sends the signal on to the server threads whose flag
is not set.

*The machine.*  `process n` is `main` with `n` server threads in any interleaving.  A thread stands
still while the handler runs in it.  A thread has at most one SIGINT pending, and it stays pending
while the handler runs there.  What the handler does with one index takes two steps if it sends the
signal: the flag is read in the first and `pthread_kill` is called in the second.

*From outside.*  `mtcp_epoll_wait` returns a batch, fails, or is interrupted once the handler has
run in its thread.  The batch comes to its end if its loops do (`HandleReadEvent` may spin for
ever).  When these things happen, and whether they do, is not said: they are events of their own.
A packet with an unknown opcode ends the process, and so does every other call of `exit`, of which
nothing is kept.

*The store.*  `Process.calls` are the calls of the library.  Whatever the threads and the signals
do, they are a `kvstore_create`, the packets, and at the end one `kvstore_destroy`, so every packet
works on a store that exists (`store_used_safely`).
-/

namespace KvServer.Mtcp

/-- A thread of the process. -/
inductive Tid (n : Nat) where
  | main
  | server (i : Fin n)
deriving DecidableEq, Repr

instance (n : Nat) : Fintype (Tid n) where
  elems := insert .main (Finset.univ.map ⟨Tid.server, fun _ _ h => Tid.server.inj h⟩)
  complete w := by
    cases w with
    | main => exact Finset.mem_insert_self _ _
    | server i =>
        exact Finset.mem_insert_of_mem (Finset.mem_map.mpr ⟨i, Finset.mem_univ i, rfl⟩)

/-- Where a server thread is. -/
inductive ServerPc where
  /-- Before `pthread_create`. -/
  | absent
  /-- Before the loop. -/
  | starting
  /-- Before `while (!done[core])`. -/
  | loop
  /-- In `mtcp_epoll_wait`. -/
  | wait
  /-- In the body of the loop, with a batch. -/
  | batch
  /-- Before `mtcp_destroy_context`. -/
  | leaving
  | exited
deriving DecidableEq, Repr

/-- Where `main` is. -/
inductive MainPc where
  /-- Before `kvstore_create`. -/
  | create
  /-- Before `pthread_create` of the thread `i`. -/
  | starting (i : Nat)
  /-- Before `pthread_join` of the thread `i`. -/
  | joining (i : Nat)
  /-- Before `kvstore_destroy`. -/
  | destroy
  | returned
deriving DecidableEq, Repr

/-- Where `SignalHandler` is in a thread. -/
inductive Handler (n : Nat) where
  | none
  /-- Before the test of `app_thread[i]`. -/
  | check (i : Nat)
  /-- Before `pthread_kill` of `app_thread[i]`. -/
  | kill (i : Fin n)
deriving DecidableEq, Repr

/-- The process with `n` server threads.  The last fields record whether `SignalHandler` has been
called, the calls of the library, whether `pthread_kill` has got a thread that does not exist, and
whether an unknown opcode has ended the process. -/
structure Process (n : Nat) where
  main : MainPc
  servers : Fin n → ServerPc
  done : Fin n → Bool
  /-- A SIGINT is pending for the thread. -/
  pending : Tid n → Bool
  handlers : Tid n → Handler n
  called : Bool
  calls : List LibCall
  undefined : Bool
  exited : Bool

/-- What happens next. -/
inductive ProcessEvent (n : Nat) where
  /-- A SIGINT from outside. -/
  | sigint (w : Tid n)
  /-- A thread takes its pending SIGINT and calls `SignalHandler`. -/
  | enter (w : Tid n)
  | handler (w : Tid n)
  | main
  | server (i : Fin n)
  /-- `InitializeServerThread` fails. -/
  | initFailed (i : Fin n)
  /-- `mtcp_epoll_wait` returns a batch. -/
  | events (i : Fin n)
  /-- `mtcp_epoll_wait` returns because the handler has run in its thread. -/
  | interrupted (i : Fin n)
  /-- `mtcp_epoll_wait` fails. -/
  | waitFailed (i : Fin n)
  /-- The loops of the batch come to their end. -/
  | endBatch (i : Fin n)
  /-- A packet of the batch is processed. -/
  | packet (i : Fin n) (send : SendMessage)

namespace Process

variable {n : Nat}

/-- Before `main`. -/
def start : Process n where
  main := .create
  servers _ := .absent
  done _ := false
  pending _ := false
  handlers _ := .none
  called := false
  calls := []
  undefined := false
  exited := false

/-- The thread has been created and has not come to its end. -/
def Alive (s : Process n) : Tid n → Prop
  | .main => s.main ≠ .create ∧ s.main ≠ .returned
  | .server i => s.servers i ≠ .absent ∧ s.servers i ≠ .exited

instance (s : Process n) : ∀ w, Decidable (s.Alive w)
  | .main => inferInstanceAs (Decidable (_ ∧ _))
  | .server _ => inferInstanceAs (Decidable (_ ∧ _))

/-- How many threads have been joined. -/
def joined (s : Process n) : Nat :=
  match s.main with
  | .create => 0
  | .starting _ => 0
  | .joining i => i
  | .destroy => n
  | .returned => n

def setHandler (s : Process n) (w : Tid n) (pc : Handler n) : Process n :=
  { s with handlers := Function.update s.handlers w pc }

@[simp] theorem setHandler_handlers (s : Process n) (w : Tid n) (pc : Handler n) :
    (s.setHandler w pc).handlers = Function.update s.handlers w pc := rfl

def setServer (s : Process n) (i : Fin n) (pc : ServerPc) : Process n :=
  { s with servers := Function.update s.servers i pc }

@[simp] theorem setServer_servers (s : Process n) (i : Fin n) (pc : ServerPc) :
    (s.setServer i pc).servers = Function.update s.servers i pc := rfl

def setPending (s : Process n) (w : Tid n) (b : Bool) : Process n :=
  { s with pending := Function.update s.pending w b }

@[simp] theorem setPending_pending (s : Process n) (w : Tid n) (b : Bool) :
    (s.setPending w b).pending = Function.update s.pending w b := rfl

/-- `pthread_kill` of a server thread.  Nothing happens to a thread that has come to its end, and
a thread that has been joined or not yet created does not exist. -/
def pthreadKill (s : Process n) (i : Fin n) : Process n :=
  if s.Alive (.server i) then s.setPending (.server i) true
  else if s.servers i = .absent ∨ i < s.joined then { s with undefined := true }
  else s

/-- The loop of `SignalHandler`. -/
def handlerStep (s : Process n) (w : Tid n) : Option (Process n) :=
  match s.handlers w with
  | .none => none
  | .check i =>
      if h : i < n then
        if w = .server ⟨i, h⟩ then
          some { s.setHandler w (.check (i + 1)) with done := Function.update s.done ⟨i, h⟩ true }
        else if s.done ⟨i, h⟩ then some (s.setHandler w (.check (i + 1)))
        else some (s.setHandler w (.kill ⟨i, h⟩))
      else some (s.setHandler w .none)
  | .kill i => some ((s.pthreadKill i).setHandler w (.check (i + 1)))

/-- `main` from `kvstore_create` on. -/
def mainStep (s : Process n) : Option (Process n) :=
  match s.main with
  | .create => some { s with main := .starting 0, calls := s.calls ++ [.create] }
  | .starting i =>
      if h : i < n then
        some { s.setServer ⟨i, h⟩ .starting with
          main := .starting (i + 1), done := Function.update s.done ⟨i, h⟩ false }
      else some { s with main := .joining 0 }
  | .joining i =>
      if h : i < n then
        if s.servers ⟨i, h⟩ = .exited then some { s with main := .joining (i + 1) } else none
      else some { s with main := .destroy }
  | .destroy => some { s with main := .returned, calls := s.calls ++ [.destroy] }
  | .returned => none

/-- What `RunServerThread` does next without an answer from outside. -/
def serverStep (s : Process n) (i : Fin n) : Option (Process n) :=
  match s.servers i with
  | .absent => none
  | .starting => some (s.setServer i .loop)
  | .loop => some (s.setServer i (if s.done i then .leaving else .wait))
  | .wait => none
  | .batch => none
  | .leaving => some (s.setServer i .exited)
  | .exited => none

/-- A step of the process, as long as it runs. -/
def step (s : Process n) : ProcessEvent n → Option (Process n)
  | .sigint w => if s.Alive w then some (s.setPending w true) else none
  | .enter w =>
      if s.Alive w ∧ s.pending w = true ∧ s.handlers w = .none then
        some { (s.setPending w false).setHandler w (.check 0) with called := true }
      else none
  | .handler w => s.handlerStep w
  | .main => if s.handlers .main = .none then s.mainStep else none
  | .server i => if s.handlers (.server i) = .none then s.serverStep i else none
  | .initFailed i =>
      if s.servers i = .starting ∧ s.handlers (.server i) = .none then
        some (s.setServer i .exited)
      else none
  | .events i =>
      if s.servers i = .wait ∧ s.handlers (.server i) = .none then some (s.setServer i .batch)
      else none
  | .interrupted i =>
      if s.servers i = .wait ∧ s.done i = true ∧ s.handlers (.server i) = .none then
        some (s.setServer i .leaving)
      else none
  | .waitFailed i =>
      if s.servers i = .wait ∧ s.handlers (.server i) = .none then some (s.setServer i .leaving)
      else none
  | .endBatch i =>
      if s.servers i = .batch ∧ s.handlers (.server i) = .none then some (s.setServer i .loop)
      else none
  | .packet i send =>
      if s.servers i = .batch ∧ s.handlers (.server i) = .none then
        some { s with calls := s.calls ++ [.process send], exited := !decide send.Valid }
      else none

end Process

/-- The machine of the process.  Nothing happens after `exit`. -/
def process (n : Nat) : Machine (Process n) (ProcessEvent n) where
  step s e := if s.exited then none else s.step e

/-! ## Steps -/

/-- The moves of a server thread, with the event of each. -/
inductive Process.Moves {n : Nat} (s : Process n) (i : Fin n) : ProcessEvent n → ServerPc → Prop
    where
  | started : s.servers i = .starting → Moves s i (.server i) .loop
  | wait : s.servers i = .loop → s.done i = false → Moves s i (.server i) .wait
  | stop : s.servers i = .loop → s.done i = true → Moves s i (.server i) .leaving
  | interrupted : s.servers i = .wait → s.done i = true → Moves s i (.interrupted i) .leaving
  | endBatch : s.servers i = .batch → Moves s i (.endBatch i) .loop
  | exit : s.servers i = .leaving → Moves s i (.server i) .exited
  | initFailed : s.servers i = .starting → Moves s i (.initFailed i) .exited
  | events : s.servers i = .wait → Moves s i (.events i) .batch
  | waitFailed : s.servers i = .wait → Moves s i (.waitFailed i) .leaving

/-- The steps, one constructor for each. -/
inductive Process.Step {n : Nat} (s : Process n) : ProcessEvent n → Process n → Prop where
  | sigint {w : Tid n} : s.Alive w → Step s (.sigint w) (s.setPending w true)
  | enter {w : Tid n} :
      s.Alive w → s.pending w = true → s.handlers w = .none →
      Step s (.enter w) { (s.setPending w false).setHandler w (.check 0) with called := true }
  | own {i : Fin n} :
      s.handlers (.server i) = .check i →
      Step s (.handler (.server i)) { s.setHandler (.server i) (.check (i + 1)) with
        done := Function.update s.done i true }
  | pass {w : Tid n} {i : Fin n} :
      s.handlers w = .check i → w ≠ .server i → s.done i = true →
      Step s (.handler w) (s.setHandler w (.check (i + 1)))
  | decide {w : Tid n} {i : Fin n} :
      s.handlers w = .check i → w ≠ .server i → s.done i = false →
      Step s (.handler w) (s.setHandler w (.kill i))
  | kill {w : Tid n} {i : Fin n} :
      s.handlers w = .kill i →
      Step s (.handler w) ((s.pthreadKill i).setHandler w (.check (i + 1)))
  | leave {w : Tid n} {i : Nat} :
      s.handlers w = .check i → n ≤ i → Step s (.handler w) (s.setHandler w .none)
  | create :
      s.handlers .main = .none → s.main = .create →
      Step s .main { s with main := .starting 0, calls := s.calls ++ [.create] }
  | startServer {i : Fin n} :
      s.handlers .main = .none → s.main = .starting i →
      Step s .main { s.setServer i .starting with
        main := .starting (i + 1), done := Function.update s.done i false }
  | allStarted {i : Nat} :
      s.handlers .main = .none → s.main = .starting i → n ≤ i →
      Step s .main { s with main := .joining 0 }
  | join {i : Fin n} :
      s.handlers .main = .none → s.main = .joining i → s.servers i = .exited →
      Step s .main { s with main := .joining (i + 1) }
  | allJoined {i : Nat} :
      s.handlers .main = .none → s.main = .joining i → n ≤ i →
      Step s .main { s with main := .destroy }
  | destroy :
      s.handlers .main = .none → s.main = .destroy →
      Step s .main { s with main := .returned, calls := s.calls ++ [.destroy] }
  | move {i : Fin n} {e : ProcessEvent n} {pc : ServerPc} :
      s.handlers (.server i) = .none → s.Moves i e pc → Step s e (s.setServer i pc)
  | packet {i : Fin n} {send : SendMessage} :
      s.servers i = .batch → s.handlers (.server i) = .none →
      Step s (.packet i send)
        { s with calls := s.calls ++ [.process send], exited := !decide send.Valid }

namespace Process

variable {n : Nat} {s t : Process n}

theorem handlerStep_inv {w : Tid n} (h : s.handlerStep w = some t) : s.Step (.handler w) t := by
  unfold handlerStep at h
  cases hpc : s.handlers w with
  | none =>
      rw [hpc] at h
      cases h
  | kill i =>
      rw [hpc] at h
      cases h
      exact .kill hpc
  | check i =>
      rw [hpc] at h
      simp only at h
      split at h
      · next hi =>
          split at h
          · next hw =>
              cases h
              subst hw
              exact Step.own (i := ⟨i, hi⟩) hpc
          · next hw =>
              split at h
              · next hdone =>
                  cases h
                  exact Step.pass (i := ⟨i, hi⟩) hpc hw hdone
              · next hdone =>
                  cases h
                  exact .decide hpc hw (by simpa using hdone)
      · next hi =>
          cases h
          exact .leave hpc (by omega)

theorem mainStep_inv (hmain : s.handlers .main = .none) (h : s.mainStep = some t) :
    s.Step .main t := by
  unfold mainStep at h
  cases hpc : s.main with
  | create =>
      rw [hpc] at h
      cases h
      exact .create hmain hpc
  | starting i =>
      rw [hpc] at h
      simp only at h
      split at h
      · next hi =>
          cases h
          exact Step.startServer (i := ⟨i, hi⟩) hmain hpc
      · next hi =>
          cases h
          exact .allStarted hmain hpc (by omega)
  | joining i =>
      rw [hpc] at h
      simp only at h
      split at h
      · next hi =>
          split at h
          · next hexited =>
              cases h
              exact Step.join (i := ⟨i, hi⟩) hmain hpc hexited
          · cases h
      · next hi =>
          cases h
          exact .allJoined hmain hpc (by omega)
  | destroy =>
      rw [hpc] at h
      cases h
      exact .destroy hmain hpc
  | returned =>
      rw [hpc] at h
      cases h

theorem serverStep_inv {i : Fin n} (hi : s.handlers (.server i) = .none)
    (h : s.serverStep i = some t) : s.Step (.server i) t := by
  unfold serverStep at h
  cases hpc : s.servers i with
  | absent =>
      rw [hpc] at h
      cases h
  | starting =>
      rw [hpc] at h
      cases h
      exact .move hi (.started hpc)
  | loop =>
      rw [hpc] at h
      cases h
      cases hdone : s.done i with
      | true => exact .move hi (.stop hpc hdone)
      | false => exact .move hi (.wait hpc hdone)
  | wait =>
      rw [hpc] at h
      cases h
  | batch =>
      rw [hpc] at h
      cases h
  | leaving =>
      rw [hpc] at h
      cases h
      exact .move hi (.exit hpc)
  | exited =>
      rw [hpc] at h
      cases h

theorem process_step (hlive : s.exited = false) (e : ProcessEvent n) :
    (process n).step s e = s.step e := by
  show (if s.exited then none else s.step e) = _
  rw [hlive]
  rfl

/-- A process that takes a step has not exited. -/
theorem live_of_step {e : ProcessEvent n} (h : (process n).step s e = some t) :
    s.exited = false := by
  obtain ⟨hlive, -⟩ := Option.ite_none_left_eq_some.mp h
  simpa using hlive

/-- What a step can do. -/
theorem step_inv {e : ProcessEvent n} (h : (process n).step s e = some t) : s.Step e t := by
  rw [process_step (live_of_step h)] at h
  simp only [Process.step] at h
  cases e with
  | sigint w =>
      obtain ⟨halive, hsome⟩ := Option.ite_none_right_eq_some.mp h
      cases hsome
      exact .sigint halive
  | enter w =>
      obtain ⟨⟨halive, hpending, hpc⟩, hsome⟩ := Option.ite_none_right_eq_some.mp h
      cases hsome
      exact .enter halive hpending hpc
  | handler w => exact handlerStep_inv h
  | main =>
      obtain ⟨hmain, hstep⟩ := Option.ite_none_right_eq_some.mp h
      exact mainStep_inv hmain hstep
  | server i =>
      obtain ⟨hi, hstep⟩ := Option.ite_none_right_eq_some.mp h
      exact serverStep_inv hi hstep
  | initFailed i =>
      obtain ⟨⟨hpc, hi⟩, hsome⟩ := Option.ite_none_right_eq_some.mp h
      cases hsome
      exact .move hi (.initFailed hpc)
  | events i =>
      obtain ⟨⟨hpc, hi⟩, hsome⟩ := Option.ite_none_right_eq_some.mp h
      cases hsome
      exact .move hi (.events hpc)
  | interrupted i =>
      obtain ⟨⟨hpc, hdone, hi⟩, hsome⟩ := Option.ite_none_right_eq_some.mp h
      cases hsome
      exact .move hi (.interrupted hpc hdone)
  | waitFailed i =>
      obtain ⟨⟨hpc, hi⟩, hsome⟩ := Option.ite_none_right_eq_some.mp h
      cases hsome
      exact .move hi (.waitFailed hpc)
  | endBatch i =>
      obtain ⟨⟨hpc, hi⟩, hsome⟩ := Option.ite_none_right_eq_some.mp h
      cases hsome
      exact .move hi (.endBatch hpc)
  | packet i send =>
      obtain ⟨⟨hpc, hi⟩, hsome⟩ := Option.ite_none_right_eq_some.mp h
      cases hsome
      exact .packet hpc hi

theorem Moves.step {i : Fin n} {e : ProcessEvent n} {pc : ServerPc}
    (hi : s.handlers (.server i) = .none) (h : s.Moves i e pc) :
    s.step e = some (s.setServer i pc) := by
  cases h <;> simp [Process.step, serverStep, *]

/-- And all that it can do. -/
theorem Step.step {e : ProcessEvent n} (h : s.Step e t) : s.step e = some t := by
  cases h with
  | sigint halive => simp [Process.step, halive]
  | enter halive hpending hpc => simp [Process.step, halive, hpending, hpc]
  | @own i hpc => simp [Process.step, handlerStep, hpc]
  | @pass w i hpc hw hdone => simp [Process.step, handlerStep, hpc, hw, hdone]
  | @decide w i hpc hw hdone => simp [Process.step, handlerStep, hpc, hw, hdone]
  | kill hpc => simp [Process.step, handlerStep, hpc]
  | @leave w i hpc hle => simp [Process.step, handlerStep, hpc, Nat.not_lt.mpr hle]
  | create hnone hmain => simp [Process.step, mainStep, hnone, hmain]
  | startServer hnone hmain => simp [Process.step, mainStep, hnone, hmain]
  | allStarted hnone hmain hle =>
      simp [Process.step, mainStep, hnone, hmain, Nat.not_lt.mpr hle]
  | join hnone hmain hexited => simp [Process.step, mainStep, hnone, hmain, hexited]
  | allJoined hnone hmain hle =>
      simp [Process.step, mainStep, hnone, hmain, Nat.not_lt.mpr hle]
  | destroy hnone hmain => simp [Process.step, mainStep, hnone, hmain]
  | move hi hmove => exact hmove.step hi
  | packet hpc hi => simp [Process.step, hpc, hi]

/-! ## `pthread_kill` -/

section

variable (s) (i : Fin n)

@[simp] theorem pthreadKill_main : (s.pthreadKill i).main = s.main := by
  unfold pthreadKill
  split
  · rfl
  · split <;> rfl

@[simp] theorem pthreadKill_servers : (s.pthreadKill i).servers = s.servers := by
  unfold pthreadKill
  split
  · rfl
  · split <;> rfl

@[simp] theorem pthreadKill_done : (s.pthreadKill i).done = s.done := by
  unfold pthreadKill
  split
  · rfl
  · split <;> rfl

@[simp] theorem pthreadKill_handlers : (s.pthreadKill i).handlers = s.handlers := by
  unfold pthreadKill
  split
  · rfl
  · split <;> rfl

theorem pthreadKill_pending : (s.pthreadKill i).pending =
    if s.Alive (.server i) then Function.update s.pending (.server i) true else s.pending := by
  unfold pthreadKill
  split
  · rfl
  · split <;> rfl

theorem pthreadKill_undefined : (s.pthreadKill i).undefined = true ↔
    s.undefined = true ∨ ¬ s.Alive (.server i) ∧ (s.servers i = .absent ∨ i < s.joined) := by
  by_cases hi : s.Alive (.server i)
  · simp [pthreadKill, hi, setPending]
  · by_cases hgone : s.servers i = .absent ∨ i < s.joined
    · simp [pthreadKill, hi, hgone]
    · simp [pthreadKill, hi, hgone]

end

/-! ## Who is there -/

/-- How many threads have been created. -/
def started (s : Process n) : Nat :=
  match s.main with
  | .create => 0
  | .starting i => i
  | _ => n

/-- All opcodes but the last are known, and if that is unknown it has ended the process. -/
structure Processed (sends : List SendMessage) (exited : Bool) : Prop where
  valid : ∀ send ∈ sends.dropLast, send.Valid
  exited : exited = true ↔ ∃ send ∈ sends, ¬ send.Valid

theorem Processed.nil : Processed [] false where
  valid _ h := by cases h
  exited := by simp

theorem Processed.all {sends : List SendMessage} (h : Processed sends false) :
    ∀ send ∈ sends, send.Valid := by
  intro send hsend
  by_contra hbad
  cases h.exited.mpr ⟨send, hsend, hbad⟩

theorem Processed.last {sends : List SendMessage} (h : Processed sends true) :
    ∃ before send, sends = before ++ [send] ∧ (∀ m ∈ before, m.Valid) ∧ ¬ send.Valid := by
  obtain ⟨bad, hmem, hbad⟩ := h.exited.mp rfl
  rcases List.eq_nil_or_concat sends with rfl | ⟨before, send, rfl⟩
  · cases hmem
  · have hbefore := h.valid
    rw [List.concat_eq_append] at *
    rw [List.dropLast_concat] at hbefore
    refine ⟨before, send, rfl, hbefore, ?_⟩
    rcases List.mem_append.mp hmem with hmem | hmem
    · exact absurd (hbefore bad hmem) hbad
    · rwa [← List.mem_singleton.mp hmem]

theorem Processed.packet {sends : List SendMessage} (h : Processed sends false)
    (send : SendMessage) : Processed (sends ++ [send]) (!decide send.Valid) where
  valid := by
    rw [List.dropLast_concat]
    exact h.all
  exited := by
    rw [Bool.not_eq_true', decide_eq_false_iff_not]
    constructor
    · exact fun hbad => ⟨send, by simp, hbad⟩
    · rintro ⟨m, hm, hbad⟩
      rcases List.mem_append.mp hm with hm | hm
      · exact absurd (h.all m hm) hbad
      · rwa [← List.mem_singleton.mp hm]

/-- The store is made and packets are processed. -/
def Served (calls : List LibCall) (exited : Bool) : Prop :=
  ∃ sends : List SendMessage, Processed sends exited ∧ calls = .create :: sends.map .process

theorem Served.packet {calls : List LibCall} (h : Served calls false) (send : SendMessage) :
    Served (calls ++ [.process send]) (!decide send.Valid) := by
  obtain ⟨sends, hsends, rfl⟩ := h
  exact ⟨sends ++ [send], hsends.packet send, by simp⟩

/-- The calls of the library as far as `main` has come. -/
def CallsAt : MainPc → Bool → List LibCall → Prop
  | .create, exited, calls => exited = false ∧ calls = []
  | .returned, exited, calls =>
      exited = false ∧ ∃ served, Served served false ∧ calls = served ++ [.destroy]
  | _, exited, calls => Served calls exited

/-- The threads and the store, at every moment. -/
structure Sound (s : Process n) : Prop where
  absent : ∀ i : Fin n, s.servers i = .absent ↔ s.started ≤ i
  asleep : ∀ i, s.servers i = .absent → s.done i = false ∧ s.pending (.server i) = false
  handler : ∀ w, s.handlers w ≠ .none → s.Alive w
  joined : ∀ i : Fin n, i < s.joined → s.servers i = .exited
  calls : CallsAt s.main s.exited s.calls

theorem Sound.start : (start : Process n).Sound where
  absent i := by simp [Process.start, started]
  asleep _ _ := ⟨rfl, rfl⟩
  handler _ h := absurd rfl h
  joined i h := by simp [Process.joined, Process.start] at h
  calls := ⟨rfl, rfl⟩

theorem alive_congr {w : Tid n} (hmain : t.main = s.main) (hservers : t.servers = s.servers) :
    t.Alive w ↔ s.Alive w := by
  cases w with
  | main => rw [Alive, Alive, hmain]
  | server i => rw [Alive, Alive, hservers]

/-- A step that leaves `main`, the places of the threads and the store alone. -/
theorem Sound.frame (h : s.Sound) (hmain : t.main = s.main) (hservers : t.servers = s.servers)
    (hcalls : t.calls = s.calls) (hexited : t.exited = s.exited)
    (hasleep : ∀ i, s.servers i = .absent → t.done i = false ∧ t.pending (.server i) = false)
    (hhandler : ∀ w, t.handlers w ≠ .none → s.Alive w) : t.Sound where
  absent i := by
    rw [hservers, started, hmain]
    exact h.absent i
  asleep i hi := hasleep i (by rwa [hservers] at hi)
  handler w hw := (alive_congr hmain hservers).mpr (hhandler w hw)
  joined i hi := by
    rw [Process.joined, hmain] at hi
    rw [hservers]
    exact h.joined i hi
  calls := by
    rw [hmain, hcalls, hexited]
    exact h.calls

/-- The handler goes on where it is. -/
theorem Sound.setHandler (h : s.Sound) {w : Tid n} (hw : s.Alive w) (pc : Handler n) :
    (s.setHandler w pc).Sound := by
  refine h.frame rfl rfl rfl rfl h.asleep fun v hv => ?_
  by_cases hvw : v = w
  · rw [hvw]
    exact hw
  · refine h.handler v ?_
    rwa [setHandler_handlers, Function.update_of_ne hvw] at hv

theorem Sound.setPending (h : s.Sound) {w : Tid n} (hw : s.Alive w) (b : Bool) :
    (s.setPending w b).Sound := by
  refine h.frame rfl rfl rfl rfl (fun i hi => ⟨(h.asleep i hi).1, ?_⟩) h.handler
  have hne : Tid.server i ≠ w := by
    rintro rfl
    exact hw.1 hi
  rw [setPending_pending, Function.update_of_ne hne]
  exact (h.asleep i hi).2

theorem Sound.pthreadKill (h : s.Sound) (i : Fin n) : (s.pthreadKill i).Sound := by
  by_cases hi : s.Alive (.server i)
  · rw [Process.pthreadKill, if_pos hi]
    exact h.setPending hi true
  · rw [Process.pthreadKill, if_neg hi]
    split
    · exact h.frame rfl rfl rfl rfl h.asleep h.handler
    · exact h

theorem Moves.alive {i : Fin n} {e : ProcessEvent n} {pc : ServerPc} (h : s.Moves i e pc) :
    s.servers i ≠ .absent ∧ s.servers i ≠ .exited := by
  cases h <;> simp [*]

theorem Moves.not_absent {i : Fin n} {e : ProcessEvent n} {pc : ServerPc} (h : s.Moves i e pc) :
    pc ≠ .absent := by
  cases h <;> simp

/-- A server thread moves. -/
theorem Sound.setServer (h : s.Sound) {i : Fin n} {pc : ServerPc}
    (halive : s.servers i ≠ .absent ∧ s.servers i ≠ .exited) (hpc : pc ≠ .absent)
    (hnone : s.handlers (.server i) = .none) : (s.setServer i pc).Sound where
  absent j := by
    show Function.update s.servers i pc j = .absent ↔ _
    by_cases hj : j = i
    · subst hj
      rw [Function.update_self]
      exact iff_of_false hpc fun hle => halive.1 ((h.absent j).mpr hle)
    · rw [Function.update_of_ne hj]
      exact h.absent j
  asleep j hj := by
    refine h.asleep j ?_
    by_cases hji : j = i
    · subst hji
      rw [setServer_servers, Function.update_self] at hj
      exact absurd hj hpc
    · rwa [setServer_servers, Function.update_of_ne hji] at hj
  handler w hw := by
    have hold := h.handler w hw
    cases w with
    | main => exact hold
    | server j =>
        have hji : j ≠ i := by
          rintro rfl
          exact hw hnone
        simp only [Alive, setServer_servers, Function.update_of_ne hji]
        exact hold
  joined j hj := by
    have hold := h.joined j hj
    have hji : j ≠ i := by
      rintro rfl
      exact halive.2 hold
    rw [setServer_servers, Function.update_of_ne hji]
    exact hold
  calls := h.calls

/-- `main` goes on without a change of the threads. -/
theorem Sound.setMain (h : s.Sound) {pc : MainPc} {calls : List LibCall}
    (hnone : s.handlers .main = .none)
    (hstarted : ∀ i : Fin n,
      ({ s with main := pc, calls := calls } : Process n).started ≤ i ↔ s.started ≤ i)
    (hjoined : ∀ i : Fin n, i < ({ s with main := pc, calls := calls } : Process n).joined →
      s.servers i = .exited)
    (hcalls : CallsAt pc s.exited calls) :
    ({ s with main := pc, calls := calls } : Process n).Sound where
  absent i := by
    rw [hstarted i]
    exact h.absent i
  asleep := h.asleep
  handler w hw := by
    cases w with
    | main => exact absurd hnone hw
    | server i => exact h.handler (.server i) hw
  joined := hjoined
  calls := hcalls

/-- `main` creates a server thread. -/
theorem Sound.startServer (h : s.Sound) {i : Fin n} (hnone : s.handlers .main = .none)
    (hmain : s.main = .starting i) :
    ({ s.setServer i .starting with
      main := .starting (i + 1), done := Function.update s.done i false } : Process n).Sound where
  absent j := by
    have hold := h.absent j
    simp only [started, hmain] at hold
    show Function.update s.servers i .starting j = .absent ↔ (i : Nat) + 1 ≤ j
    by_cases hj : j = i
    · subst hj
      rw [Function.update_self]
      simp
    · have hne : (i : Nat) ≠ j := fun heq => hj (Fin.ext heq.symm)
      rw [Function.update_of_ne hj, hold]
      omega
  asleep j hj := by
    have hji : j ≠ i := by
      rintro rfl
      simp [Process.setServer] at hj
    simp only [Process.setServer, Function.update_of_ne hji] at hj ⊢
    exact h.asleep j hj
  handler w hw := by
    cases w with
    | main => exact absurd hnone hw
    | server j =>
        have hold := h.handler (.server j) hw
        simp only [Alive, Process.setServer]
        by_cases hj : j = i
        · subst hj
          rw [Function.update_self]
          simp
        · rw [Function.update_of_ne hj]
          exact hold
  joined j hj := by simp [Process.joined] at hj
  calls := by
    have hold := h.calls
    rw [hmain] at hold
    exact hold

/-- While a server thread is alive `main` creates or joins threads. -/
theorem Sound.serving (h : s.Sound) {i : Fin n} (hi : s.Alive (.server i)) :
    (∃ m, s.main = .starting m) ∨ ∃ m, s.main = .joining m := by
  cases hmain : s.main with
  | create => exact absurd ((h.absent i).mpr (by simp [started, hmain])) hi.1
  | starting m => exact Or.inl ⟨m, rfl⟩
  | joining m => exact Or.inr ⟨m, rfl⟩
  | destroy => exact absurd (h.joined i (by simp [Process.joined, hmain])) hi.2
  | returned => exact absurd (h.joined i (by simp [Process.joined, hmain])) hi.2

theorem Sound.step {e : ProcessEvent n} (h : s.Sound) (hstep : (process n).step s e = some t) :
    t.Sound := by
  have hlive := live_of_step hstep
  cases step_inv hstep with
  | sigint halive => exact h.setPending halive true
  | @enter w halive hpending hpc =>
      have hset := (h.setPending halive false).setHandler (w := w) halive (.check 0)
      exact ⟨hset.absent, hset.asleep, hset.handler, hset.joined, hset.calls⟩
  | @own i hpc =>
      have halive : s.Alive (.server i) := h.handler _ (by rw [hpc]; simp)
      refine (h.setHandler halive (.check (i + 1))).frame rfl rfl rfl rfl (fun j hj => ?_)
        (h.setHandler halive (.check (i + 1))).handler
      have hji : j ≠ i := by
        rintro rfl
        exact halive.1 hj
      show Function.update s.done i true j = false ∧ _
      rw [Function.update_of_ne hji]
      exact h.asleep j hj
  | pass hpc _ _ => exact h.setHandler (h.handler _ (by rw [hpc]; simp)) _
  | decide hpc _ _ => exact h.setHandler (h.handler _ (by rw [hpc]; simp)) _
  | kill hpc =>
      refine (h.pthreadKill _).setHandler ?_ _
      rw [alive_congr (pthreadKill_main s _) (pthreadKill_servers s _)]
      exact h.handler _ (by rw [hpc]; simp)
  | leave hpc _ => exact h.setHandler (h.handler _ (by rw [hpc]; simp)) _
  | create hnone hmain =>
      refine h.setMain hnone (by simp [started, hmain]) (fun i hi => ?_) ⟨[], ?_, ?_⟩
      · simp [Process.joined] at hi
      · rw [hlive]
        exact .nil
      · have hold := h.calls
        rw [hmain] at hold
        rw [hold.2]
        rfl
  | startServer hnone hmain => exact h.startServer hnone hmain
  | allStarted hnone hmain hle =>
      refine h.setMain hnone (fun i => ?_) (fun i hi => ?_) ?_
      · have hlt := i.isLt
        simp only [started, hmain]
        omega
      · simp [Process.joined] at hi
      · have hold := h.calls
        rw [hmain] at hold
        exact hold
  | @join i hnone hmain hexited =>
      refine h.setMain hnone (by simp [started, hmain]) (fun j hj => ?_) ?_
      · by_cases hji : j = i
        · rw [hji]
          exact hexited
        · refine h.joined j ?_
          have hne : (i : Nat) ≠ j := fun heq => hji (Fin.ext heq.symm)
          simp only [Process.joined, hmain] at hj ⊢
          omega
      · have hold := h.calls
        rw [hmain] at hold
        exact hold
  | allJoined hnone hmain hle =>
      refine h.setMain hnone (by simp [started, hmain]) (fun j hj => h.joined j ?_) ?_
      · simp only [Process.joined, hmain]
        omega
      · have hold := h.calls
        rw [hmain] at hold
        exact hold
  | destroy hnone hmain =>
      refine h.setMain hnone (by simp [started, hmain]) (fun j hj => h.joined j ?_) ?_
      · simp only [Process.joined, hmain]
        exact hj
      · have hold := h.calls
        rw [hmain] at hold
        rw [hlive] at hold ⊢
        exact ⟨rfl, s.calls, hold, rfl⟩
  | move hnone hmove => exact h.setServer hmove.alive hmove.not_absent hnone
  | @packet i send hpc _ =>
      refine ⟨h.absent, h.asleep, h.handler, h.joined, ?_⟩
      have hold := h.calls
      rw [hlive] at hold
      show CallsAt s.main (!decide send.Valid) (s.calls ++ [.process send])
      rcases h.serving (i := i) (by simp [Alive, hpc]) with ⟨m, hmain⟩ | ⟨m, hmain⟩
      · rw [hmain] at hold ⊢
        exact Served.packet hold send
      · rw [hmain] at hold ⊢
        exact Served.packet hold send

theorem Sound.run {es : List (ProcessEvent n)} (h : (process n).exec .start es = some s) :
    s.Sound :=
  Machine.Reachable.invariant (fun _ _ _ h hstep => h.step hstep) ⟨es, h⟩ .start

/-! ## The store -/

section

variable {σ : Type} [CuckoohashMap σ Key Value]

/-- Valid packets are processed one after the other by the store that is there. -/
theorem exec_packets {sends : List SendMessage} (hvalid : ∀ send ∈ sends, send.Valid)
    (store : σ) : ∃ store' : σ, (kvstoreLib σ).exec ⟨some 0, [some store], false⟩
      (sends.map .process) = some ⟨some 0, [some store'], false⟩ := by
  induction sends generalizing store with
  | nil => exact ⟨store, rfl⟩
  | cons send sends ih =>
      obtain ⟨hsend, hrest⟩ := List.forall_mem_cons.mp hvalid
      obtain ⟨op, hop⟩ := Option.isSome_iff_exists.mp hsend
      obtain ⟨store', hstore'⟩ := ih hrest (switchOperation store send op).2.2
      refine ⟨store', ?_⟩
      have hstep : (kvstoreLib σ).step ⟨some 0, [some store], false⟩ (.process send) =
          some ⟨some 0, [some (switchOperation store send op).2.2], false⟩ := by
        simp [kvstoreLib, KVStoreLib.step, KVStoreLib.processPacket, hsend, KVStoreLib.store,
          kvstoreProcessPacket, hop]
      rw [List.map_cons, Machine.exec_cons, hstep]
      exact hstore'

/-- The library takes the calls, and exits with the process. -/
theorem Served.exec {calls : List LibCall} {b : Bool} (h : Served calls b) : ∃ store : σ,
    (kvstoreLib σ).exec .start calls = some ⟨some 0, [some store], b⟩ := by
  obtain ⟨sends, hsends, rfl⟩ := h
  cases b with
  | false => exact exec_packets hsends.all CuckoohashMap.empty
  | true =>
      obtain ⟨before, send, rfl, hbefore, hbad⟩ := hsends.last
      obtain ⟨store, hexec⟩ := exec_packets hbefore (CuckoohashMap.empty : σ)
      have hstep : (kvstoreLib σ).step ⟨some 0, [some store], false⟩ (.process send) =
          some ⟨some 0, [some store], true⟩ := by
        simp [kvstoreLib, KVStoreLib.step, KVStoreLib.processPacket, hbad]
      refine ⟨store, ?_⟩
      rw [List.map_append, ← List.cons_append]
      refine (Machine.exec_append (M := kvstoreLib σ) _ hexec).trans ?_
      rw [List.map_singleton, Machine.exec_cons, hstep]
      rfl

theorem CallsAt.exec {pc : MainPc} {b : Bool} {calls : List LibCall} (h : CallsAt pc b calls) :
    ∃ lib, (kvstoreLib σ).exec .start calls = some lib ∧ lib.exited = b ∧
      (pc = .returned → lib.objects = [none]) := by
  have hserved : pc ≠ .returned → Served calls b → ∃ lib, (kvstoreLib σ).exec .start calls =
      some lib ∧ lib.exited = b ∧ (pc = .returned → lib.objects = [none]) := by
    intro hpc hs
    obtain ⟨store, hexec⟩ := hs.exec (σ := σ)
    exact ⟨_, hexec, rfl, fun heq => absurd heq hpc⟩
  cases pc with
  | create =>
      obtain ⟨rfl, rfl⟩ := h
      exact ⟨.start, rfl, rfl, fun heq => by cases heq⟩
  | starting i => exact hserved (by simp) h
  | joining i => exact hserved (by simp) h
  | destroy => exact hserved (by simp) h
  | returned =>
      obtain ⟨rfl, served, hs, rfl⟩ := h
      obtain ⟨store, hexec⟩ := hs.exec (σ := σ)
      exact ⟨_, Machine.exec_append [.destroy] hexec, rfl, fun _ => rfl⟩

/-- A `kvstore_create`, the packets, and at most one `kvstore_destroy`. -/
theorem CallsAt.calls {pc : MainPc} {b : Bool} {calls : List LibCall} (h : CallsAt pc b calls) :
    pc = .create ∧ calls = [] ∨ ∃ sends, Processed sends b ∧
      calls = .create :: sends.map .process ++ if pc = .returned then [.destroy] else [] := by
  have hserved : pc ≠ .returned → Served calls b → ∃ sends, Processed sends b ∧
      calls = .create :: sends.map .process ++ if pc = .returned then [.destroy] else [] := by
    rintro hpc ⟨sends, hsends, rfl⟩
    exact ⟨sends, hsends, by rw [if_neg hpc, List.append_nil]⟩
  cases pc with
  | create => exact .inl ⟨rfl, h.2⟩
  | starting i => exact .inr (hserved (by simp) h)
  | joining i => exact .inr (hserved (by simp) h)
  | destroy => exact .inr (hserved (by simp) h)
  | returned =>
      obtain ⟨rfl, served, ⟨sends, hsends, rfl⟩, rfl⟩ := h
      exact .inr ⟨sends, hsends, rfl⟩

end

/-- The only server thread. -/
def only : Fin 1 := ⟨0, Nat.zero_lt_one⟩

/-- The server thread processes a packet, a SIGINT comes to `main`, and the handler of `main` sends
it on. -/
def signalled : List (ProcessEvent 1) :=
  [.main, .main, .main, .server only, .server only, .events only,
    .packet only (SendMessage.blank .PUT 1), .endBatch only, .server only, .sigint .main,
    .enter .main, .handler .main, .handler .main, .handler .main, .enter (.server only),
    .handler (.server only), .handler (.server only)]

/-- The server thread leaves, and `main` comes to its end. -/
def leaving : List (ProcessEvent 1) := [.interrupted only, .server only, .main, .main, .main]

end Process

end KvServer.Mtcp
