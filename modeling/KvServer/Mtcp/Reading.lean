import Mathlib.Data.Stream.Init
import KvServer.Mtcp.Thread

/-!
# When the read loop ends

The read loop goes on until it has 50 bytes, and at `EAGAIN` it goes on as well.  It
takes a read of no bytes for a failed one and looks at an `errno` that the read has
not set.  So a client that is silent after a part of a request keeps the loop
going, and so does a client that closes its side while `errno` is still the
`EAGAIN` of the accept loop.

The answers of a socket are an endless stream here.  The loop ends exactly if some
of the reads bring 50 bytes, or one of them brings none and leaves another `errno`.
If it does not end, the thread is in the handler for good.
-/

namespace KvServer.Mtcp

open Transfer

/-! ## The loop on a list -/

theorem readFailed_eq_none {errno : Errno} : readFailed errno = none ↔ errno = EAGAIN := by
  constructor
  · intro h
    unfold readFailed at h
    split at h
    · next hagain => exact hagain.elim id id
    · split at h <;> cases h
  · rintro rfl
    exact readFailed_eagain

/-- The loop is still going after some reads if they have not filled the buffer and those
that brought nothing left `EAGAIN`. -/
theorem readLoop_waiting_iff {reads : List (ReadAnswer Byte)} :
    ∀ {buf : List Byte} {errno : Errno}, buf.length < KVSTORE_CONTENT_LEN →
      ((readLoop buf errno reads).ending = .waiting ↔
        buf.length + (received reads).length < KVSTORE_CONTENT_LEN ∧
          ∀ e ∈ failErrnos errno reads, e = EAGAIN) := by
  induction reads with
  | nil =>
      intro buf errno hbuf
      exact iff_of_true rfl ⟨hbuf, fun e he => by cases he⟩
  | cons a rest ih =>
      intro buf errno hbuf
      rcases a with bytes | e
      · cases bytes with
        | nil =>
            rw [readLoop_empty, received_data, List.nil_append, failErrnos, List.forall_mem_cons]
            cases hf : readFailed errno with
            | none =>
                have hagain := readFailed_eq_none.mp hf
                simp only [ih hbuf, hagain, true_and]
            | some ending =>
                have hne : errno ≠ EAGAIN := fun h => by
                  rw [readFailed_eq_none.mpr h] at hf
                  cases hf
                refine iff_of_false (fun h => ?_) fun h => hne h.2.1
                rcases readFailed_eq_some hf with ⟨rfl, -⟩ | ⟨rfl, -⟩ <;> cases h
        | cons b bytes =>
            rw [received_data, failErrnos, List.length_append]
            by_cases hlen : buf.length + (b :: bytes).length < KVSTORE_CONTENT_LEN
            · have hbuf' : (buf ++ b :: bytes).length < KVSTORE_CONTENT_LEN := by
                rw [List.length_append]
                exact hlen
              rw [readLoop_short (List.cons_ne_nil _ _) hlen, ih hbuf', List.length_append,
                Nat.add_assoc]
            · rw [readLoop_full (List.cons_ne_nil _ _) hbuf.le (by omega)]
              exact iff_of_false (fun h => by cases h) fun h => by omega
      · rw [readLoop_fail, received_fail, failErrnos, List.forall_mem_cons]
        cases hf : readFailed e with
        | none => simp only [ih hbuf, readFailed_eq_none.mp hf, true_and]
        | some ending =>
            have hne : e ≠ EAGAIN := fun h => by
              rw [readFailed_eq_none.mpr h] at hf
              cases hf
            refine iff_of_false (fun h => ?_) fun h => hne h.2.1
            rcases readFailed_eq_some hf with ⟨rfl, -⟩ | ⟨rfl, -⟩ <;> cases h

/-! ## The loop on a stream -/

/-- The read loop ends after finitely many of the reads. -/
def ReadLoopEnds (errno : Errno) (answers : Stream' (ReadAnswer Byte)) : Prop :=
  ∃ n, (readLoop [] errno (answers.take n)).ending ≠ .waiting

/-- Some of the reads bring 50 bytes, or one of them brings none and leaves another `errno`
than `EAGAIN`. -/
def BringsEnd (errno : Errno) (answers : Stream' (ReadAnswer Byte)) : Prop :=
  ∃ n, Whole (answers.take n) ∨ ∃ e ∈ failErrnos errno (answers.take n), e ≠ EAGAIN

theorem readLoopEnds_iff_bringsEnd {errno : Errno} {answers : Stream' (ReadAnswer Byte)} :
    ReadLoopEnds errno answers ↔ BringsEnd errno answers := by
  refine exists_congr fun n => ?_
  rw [ne_eq, readLoop_waiting_iff (by decide), List.length_nil, Nat.zero_add, not_and_or, not_lt,
    Whole]
  simp only [not_forall, exists_prop]

/-! ## The thread -/

/-- The next event of the batch is that `sockid` is readable. -/
structure Thread.Readable {σ : Type} (t : Thread σ) (sockid : Nat) : Prop where
  phase : ∃ ev events do_accept, t.phase = .dispatching (ev :: events) do_accept ∧
    ev.sockid = sockid ∧ ev.err = false ∧ ev.epollin = true
  socket : sockid ≠ t.listener

variable {σ : Type} [CuckoohashMap σ Key Value]

/-- A thread that waits for an answer waits on, whatever else happens. -/
theorem Thread.handling_step {t t' : Thread σ} {e : Event} (hphase : t.phase = .handling)
    (h : t.step e = some t') : t'.phase = .handling := by
  cases Thread.step_cases h with
  | errno => exact hphase
  | wait hold => cases hphase.symm.trans hold
  | stop hold => cases hphase.symm.trans hold
  | dispatch hold => cases hphase.symm.trans hold
  | accept hold => cases hphase.symm.trans hold
  | acceptFailed hold => cases hphase.symm.trans hold

/-- As long as the read loop goes on the thread is in the handler. -/
theorem Thread.Readable.handling {t : Thread σ} {sockid : Nat} (ht : t.Readable sockid)
    {reads : List (ReadAnswer Byte)}
    (hwaiting : (readLoop [] t.ctx.errno reads).ending = .waiting) :
    ∃ t', t.step (.dispatch reads []) = some t' ∧ t'.phase = .handling := by
  obtain ⟨⟨ev, events, do_accept, hphase, hsock, herr, hin⟩, hlistener⟩ := ht
  have hrest := ((@readLoop_spec reads [] t.ctx.errno (by decide)).waiting hwaiting).1
  have hl : ev.sockid ≠ t.listener := hsock ▸ hlistener
  have hstops : (dispatch t.listener t.ctx ev reads []).stops = some .handling ∧
      (dispatch t.listener t.ctx ev reads []).reads = [] ∧
      (dispatch t.listener t.ctx ev reads []).writes = [] := by
    simp [dispatch, hl, herr, hin, handleReadEvent, ThreadContext.did, hwaiting, leave,
      Outcome.stops, hrest]
  obtain ⟨hheld, hreads, hwrites⟩ := hstops
  refine ⟨{ t with
    phase := (dispatch t.listener t.ctx ev reads []).stops.getD
      (nextPhase events (do_accept || ev.sockid = t.listener))
    ctx := (dispatch t.listener t.ctx ev reads []).ctx }, ?_, ?_⟩
  · simp only [Thread.step, hphase]
    exact if_pos ⟨hreads, hwrites⟩
  · simp only [hheld, Option.getD_some]

/-- The read loop ends exactly if the reads bring it to its end.  Otherwise the thread never
comes back to its loop. -/
theorem readLoop_ends_iff (errno : Errno) (answers : Stream' (ReadAnswer Byte)) :
    (ReadLoopEnds errno answers ↔ BringsEnd errno answers) ∧
      (¬ BringsEnd errno answers → ∀ (t : Thread σ) sockid, t.ctx.errno = errno →
        t.Readable sockid → ∀ n, ∃ t', t.step (.dispatch (answers.take n) []) = some t' ∧
          ∀ u, (serverThread σ).Reachable t' u → u.phase = .handling) := by
  refine ⟨readLoopEnds_iff_bringsEnd, ?_⟩
  rintro hnot t sockid rfl ht n
  have hwaiting : (readLoop [] t.ctx.errno (answers.take n)).ending = .waiting := by
    by_contra hend
    exact hnot (readLoopEnds_iff_bringsEnd.mp ⟨n, hend⟩)
  obtain ⟨t', hstep, hphase⟩ := ht.handling hwaiting
  refine ⟨t', hstep, fun u hu => ?_⟩
  exact hu.invariant (I := fun u => u.phase = .handling)
    (fun _ _ _ h hstep => Thread.handling_step h hstep) hphase

/-- A client that has closed its side: every read returns 0. -/
def closed : Stream' (ReadAnswer Byte) := Stream'.const (.data [])

theorem closed_not_bringsEnd : ¬ BringsEnd EAGAIN closed := by
  have hreads : ∀ n, received (closed.take n) = [] ∧
      ∀ e ∈ failErrnos EAGAIN (closed.take n), e = EAGAIN := by
    intro n
    induction n with
    | zero => exact ⟨rfl, fun e he => by cases he⟩
    | succ n ih => exact ⟨ih.1, List.forall_mem_cons.mpr ⟨rfl, ih.2⟩⟩
  rintro ⟨n, hwhole | ⟨e, he, hne⟩⟩
  · rw [Whole, (hreads n).1] at hwhole
    exact absurd hwhole (by decide)
  · exact hne ((hreads n).2 e he)

/-- Listener 3 accepts socket 7, the next accept fails with `errno`, and 7 is readable. -/
def connected (errno : Errno) : List Event :=
  [.wait [⟨3, false, true⟩], .dispatch [] [], .accept 7, .acceptFailed errno,
    .wait [⟨7, false, true⟩]]

/-- A client connects and closes its side without a request. -/
theorem readLoop_never_ends : ¬ ∀ events (t : Thread (Key → Option Value)) answers,
    (serverThread _).exec (Thread.start 3 CuckoohashMap.empty) events = some t →
      ReadLoopEnds t.ctx.errno answers := by
  intro h
  have herrno : ((serverThread (Key → Option Value)).exec (Thread.start 3 CuckoohashMap.empty)
      (connected EAGAIN)).map (fun t => t.ctx.errno) = some EAGAIN := by
    decide +kernel
  obtain ⟨t, hrun, ht⟩ := Option.map_eq_some_iff.mp herrno
  have hends := h _ t closed hrun
  rw [ht] at hends
  exact closed_not_bringsEnd (readLoopEnds_iff_bringsEnd.mp hends)

end KvServer.Mtcp
