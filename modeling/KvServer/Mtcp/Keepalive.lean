import KvServer.Mtcp.Reading
import KvServer.Mtcp.Stream

/-!
# What the keepalive byte decides

`HandleReadEvent` saves the keepalive byte in a `char`, closes the socket if it is 0,
and returns it as an `int`.  The loop takes the value for a result: 0 means that
the connection was closed, and less than 0 means an error unless `errno` is
`EAGAIN`.  A byte from 128 on is negative as an `int`, so it is taken for an error.

The `errno` looked at is the one the last failed call has left.  In a call that
reads a whole request and writes the whole reply this is `EAGAIN`, and if no call
failed it is the value from before.
-/

namespace KvServer.Mtcp

open Transfer

/-! ## `errno` after the loops -/

/-- After a read loop that used up its answers and found no other `errno` than `EAGAIN`. -/
theorem readLoop_errno {reads : List (ReadAnswer Byte)} :
    ∀ {buf : List Byte} {errno : Errno}, buf.length < KVSTORE_CONTENT_LEN →
      (∀ e ∈ failErrnos errno reads, e = EAGAIN) → (readLoop buf errno reads).rest = [] →
      ((readLoop buf errno reads).errno = EAGAIN ↔ errno = EAGAIN ∨ ∃ e, .fail e ∈ reads) := by
  induction reads with
  | nil =>
      intro buf errno _ _ _
      simp [readLoop]
  | cons a rest ih =>
      intro buf errno hbuf hfail hrest
      rcases a with bytes | e
      · cases bytes with
        | nil =>
            obtain ⟨hagain, hfail⟩ := List.forall_mem_cons.mp hfail
            rw [readLoop_empty, hagain, readFailed_eagain] at hrest ⊢
            rw [hagain] at hfail
            simp only [ih hbuf hfail hrest, true_or]
        | cons b bytes =>
            by_cases hlen : buf.length + (b :: bytes).length < KVSTORE_CONTENT_LEN
            · have hbuf' : (buf ++ b :: bytes).length < KVSTORE_CONTENT_LEN := by
                rw [List.length_append]
                exact hlen
              rw [readLoop_short (List.cons_ne_nil _ _) hlen] at hrest ⊢
              rw [ih hbuf' hfail hrest]
              simp
            · rw [readLoop_full (List.cons_ne_nil _ _) hbuf.le (by omega)] at hrest ⊢
              rw [(pushBack_eq_nil hrest).2]
              simp
      · obtain ⟨rfl, hfail⟩ := List.forall_mem_cons.mp hfail
        rw [readLoop_fail, readFailed_eagain] at hrest ⊢
        simp only [ih hbuf hfail hrest, true_or, true_iff]
        exact Or.inr ⟨_, List.mem_cons_self⟩

variable {σ : Type}

theorem writeLoop_errno {sockid : Nat} {buf : List Byte} {writes : List WriteAnswer} :
    ∀ {sent : Nat} {ctx : ThreadContext σ}, WritesFlow writes →
      (writeLoop sockid buf sent ctx writes).rest = [] →
      ((writeLoop sockid buf sent ctx writes).ctx.errno = EAGAIN ↔
        ctx.errno = EAGAIN ∨ ∃ e, .fail e ∈ writes) := by
  induction writes with
  | nil =>
      intro sent ctx _ _
      simp [writeLoop]
  | cons a rest ih =>
      intro sent ctx hflow hrest
      rcases hflow a List.mem_cons_self with ⟨n, rfl⟩ | rfl
      · by_cases hfull : sent + min n (KVSTORE_CONTENT_LEN - sent) = KVSTORE_CONTENT_LEN
        · simp only [writeLoop, if_pos hfull] at hrest ⊢
          rw [pushBackCount_eq_nil hrest]
          simp [ThreadContext.did]
        · simp only [writeLoop, if_neg hfull] at hrest ⊢
          rw [ih hflow.tail hrest]
          simp [ThreadContext.did]
      · rw [writeLoop, writeFailed_eagain] at hrest ⊢
        simp only [ih hflow.tail hrest, true_or, true_iff]
        exact Or.inr ⟨_, List.mem_cons_self⟩

/-- What the write loop leaves is left by `HandleReadEvent`. -/
theorem sendReply_leaves (ctx : ThreadContext σ) (sockid : Nat) (buf : SendMessage)
    (keepalive : Byte) (reads : List (ReadAnswer Byte)) (writes : List WriteAnswer) :
    (sendReply ctx sockid buf keepalive reads writes).ctx.errno =
        (writeLoop sockid buf.bytes 0 ctx writes).ctx.errno ∧
      (sendReply ctx sockid buf keepalive reads writes).writes =
        (writeLoop sockid buf.bytes 0 ctx writes).rest := by
  simp only [sendReply]
  split
  · split <;> exact ⟨rfl, rfl⟩
  · cases (writeLoop sockid buf.bytes 0 ctx writes).ending <;> exact ⟨rfl, rfl⟩

/-! ## A request that is answered -/

/-- The answers bring a whole request and no error but `EAGAIN`. -/
structure ReadsWhole (errno : Errno) (reads : List (ReadAnswer Byte)) : Prop where
  whole : Whole reads
  errno : ∀ e ∈ failErrnos errno reads, e = EAGAIN

/-- The answers take a whole reply and give no error but `EAGAIN`. -/
structure WritesWhole (writes : List WriteAnswer) : Prop where
  whole : KVSTORE_CONTENT_LEN ≤ accepted writes
  flow : WritesFlow writes

/-- Some call failed, or `errno` was `EAGAIN` before. -/
def LeavesAgain (errno : Errno) (reads : List (ReadAnswer Byte)) (writes : List WriteAnswer) :
    Prop :=
  errno = EAGAIN ∨ (∃ e, .fail e ∈ reads) ∨ ∃ e, .fail e ∈ writes

theorem ReadsWhole.done {errno : Errno} {reads : List (ReadAnswer Byte)}
    (h : ReadsWhole errno reads) : (readLoop [] errno reads).ending = .done := by
  have hspec := @readLoop_spec reads [] errno (by decide)
  by_contra hdone
  by_cases hwaiting : (readLoop [] errno reads).ending = .waiting
  · have hshort := ((readLoop_waiting_iff (by decide)).mp hwaiting).1
    rw [List.length_nil, Nat.zero_add] at hshort
    exact absurd h.whole (Nat.not_le.mpr hshort)
  · obtain ⟨e, he, hf⟩ := hspec.failed hdone hwaiting
    rw [h.errno e he, readFailed_eagain] at hf
    cases hf

/-! ## What the loop makes of it -/

/-- The socket is closed between two states of the thread. -/
def ClosedBetween (t t' : Thread σ) (sockid : Nat) : Prop :=
  sockid ∈ closes (t'.ctx.log.drop t.ctx.log.length)

instance (t t' : Thread σ) (sockid : Nat) : Decidable (ClosedBetween t t' sockid) :=
  inferInstanceAs (Decidable (_ ∈ _))

theorem closedBetween_iff {t t' : Thread σ} {sockid : Nat} {added : List Action}
    (h : t'.ctx.log = t.ctx.log ++ added) :
    ClosedBetween t t' sockid ↔ sockid ∈ closes added := by
  rw [ClosedBetween, h, List.drop_left]

/-- The loop closes the socket of a request that was answered if the handler returned 0, and
if it returned a negative number and `errno` is not `EAGAIN`. -/
theorem closes_afterHandler (ctx : ThreadContext σ) (sockid : Nat) (keepalive : Byte) :
    ∃ added, (afterHandler ctx sockid (.returned keepalive.toInt)).log = ctx.log ++ added ∧
      (sockid ∈ closes added ↔ keepalive = 0 ∨ 128 ≤ keepalive ∧ ctx.errno ≠ EAGAIN) := by
  simp only [afterHandler, Byte.toInt_eq_zero, Byte.toInt_neg_iff]
  split
  · next hzero => exact ⟨[.close sockid], rfl, iff_of_true List.mem_cons_self (Or.inl hzero)⟩
  · next hzero =>
      split
      · next herr => exact ⟨[.close sockid], rfl, iff_of_true List.mem_cons_self (Or.inr herr)⟩
      · next herr =>
          refine ⟨[], (List.append_nil _).symm, iff_of_false List.not_mem_nil ?_⟩
          rintro (h | h)
          · exact hzero h
          · exact herr h

/-! ## The thread -/

variable [CuckoohashMap σ Key Value]

/-- What the handler does with a request that it reads and answers in full. -/
theorem handleReadEvent_whole {ctx : ThreadContext σ} {sockid : Nat}
    {reads : List (ReadAnswer Byte)} {writes : List WriteAnswer}
    (hreads : ReadsWhole ctx.errno reads) (hwrites : WritesWhole writes)
    (hvalid : (requestIn reads).Valid) :
    ∃ ctx' reads' writes' body, handleReadEvent ctx sockid reads writes =
        ⟨.returned (requestIn reads).keepalive.toInt, ctx', reads', writes'⟩ ∧
      ctx'.log = ctx.log ++ (body ++
        if (requestIn reads).keepalive = 0 then [.close sockid] else []) ∧
      closes body = [] ∧
      (reads' = [] → writes' = [] →
        (ctx'.errno = EAGAIN ↔ LeavesAgain ctx.errno reads writes)) := by
  have hdone := hreads.done
  obtain ⟨-, hrequest⟩ := readLoop_done reads hdone
  obtain ⟨op, hop⟩ := Option.isSome_iff_exists.mp hvalid
  obtain ⟨⟨result, buf, store⟩, hp⟩ : ∃ p, kvstoreProcessPacket ctx.store (requestIn reads) =
      some p := ⟨_, by rw [kvstoreProcessPacket, hop, Option.map_some]⟩
  obtain ⟨ctx', writes', pieces, hsend, -, hlog, -, -, -⟩ := sendReply_flow
    { ({ ctx with errno := (readLoop [] ctx.errno reads).errno } : ThreadContext σ).did
      (.packet sockid (requestIn reads)) with store := store }
    sockid buf (requestIn reads).keepalive (readLoop [] ctx.errno reads).rest hwrites.flow
    hwrites.whole
  obtain ⟨herrno, hrest⟩ := sendReply_leaves
    { ({ ctx with errno := (readLoop [] ctx.errno reads).errno } : ThreadContext σ).did
      (.packet sockid (requestIn reads)) with store := store }
    sockid buf (requestIn reads).keepalive (readLoop [] ctx.errno reads).rest writes
  refine ⟨ctx', (readLoop [] ctx.errno reads).rest, writes',
    .packet sockid (requestIn reads) :: writeEach sockid pieces, ?_, ?_, ?_, ?_⟩
  · simp only [handleReadEvent, if_pos hdone, hrequest, answerPacket, hp]
    exact hsend
  · rw [hlog]
    simp [ThreadContext.did]
  · exact closes_writeEach sockid pieces
  · intro hreads' hwrites'
    rw [hsend] at herrno hrest
    rw [herrno, writeLoop_errno hwrites.flow (hrest.symm.trans hwrites'),
      ThreadContext.did, readLoop_errno (by decide) hreads.errno hreads', or_assoc, LeavesAgain]

/-- A step that takes up an event uses up its answers. -/
theorem Thread.step_dispatch {t t' : Thread σ} {ev : EpollEvent} {events : List EpollEvent}
    {do_accept : Bool} {reads : List (ReadAnswer Byte)} {writes : List WriteAnswer}
    (hphase : t.phase = .dispatching (ev :: events) do_accept)
    (hstep : t.step (.dispatch reads writes) = some t') :
    t'.ctx = (dispatch t.listener t.ctx ev reads writes).ctx ∧
      (dispatch t.listener t.ctx ev reads writes).reads = [] ∧
      (dispatch t.listener t.ctx ev reads writes).writes = [] := by
  simp only [Thread.step, hphase] at hstep
  split at hstep
  · next hused =>
      cases hstep
      exact ⟨rfl, hused⟩
  · cases hstep

/-- A request that is read and answered in full: its socket is closed if its keepalive byte
is 0, and if the byte is at least 128 and no call has left `EAGAIN`. -/
theorem closedBetween_whole {t t' : Thread σ} {sockid : Nat} {reads : List (ReadAnswer Byte)}
    {writes : List WriteAnswer} (ht : t.Readable sockid)
    (hreads : ReadsWhole t.ctx.errno reads) (hwrites : WritesWhole writes)
    (hvalid : (requestIn reads).Valid) (hstep : t.step (.dispatch reads writes) = some t') :
    ClosedBetween t t' sockid ↔ (requestIn reads).keepalive = 0 ∨
      128 ≤ (requestIn reads).keepalive ∧ ¬ LeavesAgain t.ctx.errno reads writes := by
  obtain ⟨⟨ev, events, do_accept, hphase, rfl, herr, hin⟩, hlistener⟩ := ht
  obtain ⟨ctx', reads', writes', body, hcall, hlog, hbody, hagain⟩ :=
    @handleReadEvent_whole σ _ (t.ctx.did (.event ev.sockid)) ev.sockid reads writes hreads hwrites
      hvalid
  obtain ⟨added, hafter, hcloses⟩ :=
    closes_afterHandler ctx' ev.sockid (requestIn reads).keepalive
  have hdispatch : dispatch t.listener t.ctx ev reads writes =
      ⟨none, afterHandler ctx' ev.sockid (.returned (requestIn reads).keepalive.toInt), reads',
        writes'⟩ := by
    simp only [dispatch, if_neg hlistener, herr, hin, hcall, if_true]
    rfl
  obtain ⟨hctx, hreads', hwrites'⟩ := Thread.step_dispatch hphase hstep
  rw [hdispatch] at hctx hreads' hwrites'
  have hall : t'.ctx.log = t.ctx.log ++ (.event ev.sockid :: (body ++
      ((if (requestIn reads).keepalive = 0 then [.close ev.sockid] else []) ++ added))) := by
    rw [hctx, hafter, hlog, ThreadContext.did]
    simp
  rw [closedBetween_iff hall, ← List.singleton_append, closes_append, closes_append, closes_append,
    hbody, List.nil_append, List.mem_append, List.mem_append, hcloses, ne_eq,
    hagain hreads' hwrites']
  by_cases hzero : (requestIn reads).keepalive = 0
  · simp [hzero, closes]
  · simp [hzero, closes, ThreadContext.did]

/-- When a request is read and answered in full, the socket is closed if and only if its
keepalive byte is 0, exactly as long as the byte is less than 128 or some call has left
`EAGAIN`. -/
theorem closed_iff_keepalive {t t' : Thread σ} {sockid : Nat} {reads : List (ReadAnswer Byte)}
    {writes : List WriteAnswer} (ht : t.Readable sockid)
    (hreads : ReadsWhole t.ctx.errno reads) (hwrites : WritesWhole writes)
    (hvalid : (requestIn reads).Valid) (hstep : t.step (.dispatch reads writes) = some t') :
    (ClosedBetween t t' sockid ↔ (requestIn reads).keepalive = 0) ↔
      (requestIn reads).keepalive < 128 ∨ LeavesAgain t.ctx.errno reads writes := by
  rw [closedBetween_whole ht hreads hwrites hvalid hstep, ← UInt8.not_le]
  constructor
  · intro h
    by_contra hnot
    obtain ⟨hlarge, hagain⟩ := not_or.mp hnot
    have hzero := h.mp (Or.inr ⟨not_not.mp hlarge, hagain⟩)
    rw [hzero] at hlarge
    exact hlarge (by decide)
  · intro h
    refine or_iff_left fun hclosed => ?_
    rcases h with hsmall | hagain
    · exact hsmall hclosed.1
    · exact hclosed.2 hagain

/-- Socket 7 has sent a request, and its reply is written. -/
theorem connected_answered (errno : Errno) (send : SendMessage) (closed : Bool)
    (h : ((serverThread (Key → Option Value)).exec (Thread.start 3 CuckoohashMap.empty)
      (connected errno)).bind (fun t =>
        (t.step (.dispatch [.data send.bytes] [.count KVSTORE_CONTENT_LEN])).map fun t' =>
          (t.phase, t.listener, t.ctx.errno, (ClosedBetween t t' 7 : Bool))) =
      some (.dispatching [⟨7, false, true⟩] false, 3, errno, closed)) :
    ∃ t t', (serverThread (Key → Option Value)).exec (Thread.start 3 CuckoohashMap.empty)
        (connected errno) = some t ∧ t.Readable 7 ∧ t.ctx.errno = errno ∧
      t.step (.dispatch [.data send.bytes] [.count KVSTORE_CONTENT_LEN]) = some t' ∧
      (ClosedBetween t t' 7 ↔ closed = true) := by
  obtain ⟨t, hrun, hmap⟩ := Option.bind_eq_some_iff.mp h
  obtain ⟨t', hstep, heq⟩ := Option.map_eq_some_iff.mp hmap
  simp only [Prod.mk.injEq] at heq
  obtain ⟨hphase, hlistener, herrno, hclosed⟩ := heq
  refine ⟨t, t', hrun, ⟨⟨_, _, _, hphase, rfl, rfl, rfl⟩, ?_⟩, herrno, hstep, ?_⟩
  · rw [hlistener]
    decide
  · rw [← hclosed, decide_eq_true_eq]

theorem readsWhole_bytes (errno : Errno) (send : SendMessage) :
    ReadsWhole errno [.data send.bytes] where
  whole := by
    rw [Whole, received_data, received_nil, List.append_nil, SendMessage.length_bytes]
  errno := fun e he => by cases he

theorem writesWhole_count : WritesWhole [.count KVSTORE_CONTENT_LEN] where
  whole := Nat.le_refl _
  flow := fun _ ha => Or.inl ⟨_, List.mem_singleton.mp ha⟩

/-- A request with keepalive 1 leaves the connection open. -/
theorem closed_iff_keepalive_put : ∃ t t' : Thread (Key → Option Value),
    (serverThread _).exec (Thread.start 3 CuckoohashMap.empty) (connected 24) = some t ∧
    t.step (.dispatch [.data (SendMessage.blank .PUT 1).bytes] [.count KVSTORE_CONTENT_LEN]) =
      some t' ∧
    ¬ ClosedBetween t t' 7 := by
  obtain ⟨t, t', hrun, ht, herrno, hstep, -⟩ :=
    connected_answered 24 (SendMessage.blank .PUT 1) false (by decide +kernel)
  have hiff := (closed_iff_keepalive ht (readsWhole_bytes _ _) writesWhole_count (by decide)
    hstep).mpr (Or.inl (by decide))
  exact ⟨t, t', hrun, hstep, fun h => absurd (hiff.mp h) (by decide)⟩

/-- A request with keepalive 128 is answered and its connection closed. -/
theorem closed_kept_alive : ¬ ∀ events (t t' : Thread (Key → Option Value)) sockid reads writes,
    (serverThread _).exec (Thread.start 3 CuckoohashMap.empty) events = some t →
      t.Readable sockid → ReadsWhole t.ctx.errno reads → WritesWhole writes →
      (requestIn reads).Valid → t.step (.dispatch reads writes) = some t' →
      (ClosedBetween t t' sockid ↔ (requestIn reads).keepalive = 0) := by
  intro h
  obtain ⟨t, t', hrun, ht, herrno, hstep, hclosed⟩ :=
    connected_answered 24 (SendMessage.blank .PUT 128) true (by decide +kernel)
  have hiff := h _ t t' 7 _ _ hrun ht (readsWhole_bytes _ _) writesWhole_count (by decide) hstep
  exact absurd (hiff.mp (hclosed.mpr rfl)) (by decide)

end KvServer.Mtcp
