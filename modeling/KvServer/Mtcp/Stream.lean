import KvServer.Mtcp.Handler

/-!
# A stream of requests through the mTCP server

A connection is a stream of bytes, and the handler is called once for each
request on it.  However the network cuts the stream into bursts and however much
each write takes, the calls hand the requests to the packet processor one after
the other and write the replies back in order.

Reads that bring bytes or fail with `EAGAIN` are said to flow, and so are writes
that take bytes or fail with `EAGAIN`.  The loops pass the property on to the
answers they leave over, which is what lets the calls be chained.
-/

namespace KvServer.Mtcp

open Transfer

variable {σ : Type}

/-! ## The loops on answers that flow -/

theorem readLoop_flow {reads : List (ReadAnswer Byte)} :
    ∀ {buf : List Byte} {errno : Errno}, buf.length < KVSTORE_CONTENT_LEN → ReadsFlow reads →
      ReadsFlow (readLoop buf errno reads).rest := by
  induction reads with
  | nil =>
      intro buf errno _ h
      exact h
  | cons a rest ih =>
      intro buf errno hbuf h
      rcases h a List.mem_cons_self with ⟨b, bytes, rfl⟩ | rfl
      · by_cases hlen : buf.length + (b :: bytes).length < KVSTORE_CONTENT_LEN
        · rw [readLoop_short (List.cons_ne_nil _ _) hlen]
          exact ih (by rw [List.length_append]; exact hlen) h.tail
        · rw [readLoop_full (List.cons_ne_nil _ _) hbuf.le (by omega)]
          exact h.tail.pushBack _
      · exact ih hbuf h.tail

/-- Enough bytes that flow fill the buffer. -/
theorem readLoop_complete (buf : List Byte) (errno : Errno) {reads : List (ReadAnswer Byte)}
    (hbuf : buf.length < KVSTORE_CONTENT_LEN) (h : ReadsFlow reads)
    (hlen : KVSTORE_CONTENT_LEN ≤ buf.length + (received reads).length) :
    (readLoop buf errno reads).ending = .done := by
  have hspec := @readLoop_spec reads buf errno hbuf
  by_contra hdone
  by_cases hwait : (readLoop buf errno reads).ending = .waiting
  · obtain ⟨hrest, hshort⟩ := hspec.waiting hwait
    have hbytes := congrArg List.length hspec.bytes
    rw [hrest, received_nil, List.append_nil, List.length_append] at hbytes
    omega
  · obtain ⟨e, he, hf⟩ := hspec.failed hdone hwait
    rw [h.failErrnos he, readFailed_eagain] at hf
    cases hf

theorem writeLoop_flow {sockid : Nat} {buf : List Byte} {writes : List WriteAnswer} :
    ∀ {sent : Nat} {ctx : ThreadContext σ}, WritesFlow writes →
      WritesFlow (writeLoop sockid buf sent ctx writes).rest := by
  induction writes with
  | nil =>
      intro sent ctx h
      exact h
  | cons a rest ih =>
      intro sent ctx h
      rcases h a List.mem_cons_self with ⟨n, rfl⟩ | rfl
      · simp only [writeLoop]
        split
        · exact h.tail.pushBackCount _
        · exact ih h.tail
      · exact ih h.tail

/-- Enough room that flows takes the whole reply. -/
theorem writeLoop_complete (sockid : Nat) (buf : List Byte) (sent : Nat) (ctx : ThreadContext σ)
    {writes : List WriteAnswer} (hsent : sent < KVSTORE_CONTENT_LEN) (h : WritesFlow writes)
    (hlen : KVSTORE_CONTENT_LEN ≤ sent + accepted writes) :
    (writeLoop sockid buf sent ctx writes).ending = .done := by
  have hspec := @writeLoop_spec σ sockid buf writes sent ctx hsent
  by_contra hdone
  by_cases hwait : (writeLoop sockid buf sent ctx writes).ending = .waiting
  · obtain ⟨hrest, hshort⟩ := hspec.waiting hwait
    have hbytes := hspec.bytes
    rw [hrest, accepted_nil] at hbytes
    omega
  · obtain ⟨e, he, hf⟩ := hspec.failed hdone hwait
    rw [h.eagain he, writeFailed_eagain] at hf
    cases hf

/-! ## One call -/

/-- The reply is written piece by piece, and only what it needed of the writes is gone. -/
theorem sendReply_flow (ctx : ThreadContext σ) (sockid : Nat) (buf : SendMessage)
    (keepalive : Byte) (reads : List (ReadAnswer Byte)) {writes : List WriteAnswer}
    (h : WritesFlow writes) (hlen : KVSTORE_CONTENT_LEN ≤ accepted writes) :
    ∃ ctx' writes' pieces, sendReply ctx sockid buf keepalive reads writes =
        ⟨.returned keepalive.toInt, ctx', reads, writes'⟩ ∧
      ctx'.store = ctx.store ∧
      ctx'.log = ctx.log ++ (writeEach sockid pieces ++
        if keepalive = 0 then [.close sockid] else []) ∧
      pieces.flatten = buf.bytes ∧
      WritesFlow writes' ∧ accepted writes' + KVSTORE_CONTENT_LEN = accepted writes := by
  have hdone := writeLoop_complete sockid buf.bytes 0 ctx (by decide) h
    (by rw [Nat.zero_add]; exact hlen)
  have hspec := @writeLoop_spec σ sockid buf.bytes writes 0 ctx (by decide)
  obtain ⟨pieces, hwrote, hpieces⟩ := hspec.whole hdone
  simp only [sendReply, if_pos hdone]
  refine ⟨_, _, pieces, rfl, ?_, ?_, hpieces, writeLoop_flow h, ?_⟩
  · split <;> exact hwrote.store
  · split
    · rw [closeConnection, ThreadContext.did, hwrote.log, List.append_assoc]
    · rw [hwrote.log, List.append_nil]
  · have hsent := hspec.done hdone
    have hbytes := hspec.bytes
    omega

variable [CuckoohashMap σ Key Value]

/-- A request that is there in full is answered as the packet processor says. -/
theorem handleReadEvent_flow {ctx : ThreadContext σ} (sockid : Nat) {send : SendMessage}
    {reply : ResponseMessage} {store : σ} {more : List Byte} {reads : List (ReadAnswer Byte)}
    {writes : List WriteAnswer} (hreads : ReadsFlow reads) (hwrites : WritesFlow writes)
    (hbytes : received reads = send.bytes ++ more)
    (hroom : KVSTORE_CONTENT_LEN ≤ accepted writes)
    (hstep : (storeMachine σ).step ctx.store send = some (reply, store)) :
    ∃ ctx' reads' writes' pieces, handleReadEvent ctx sockid reads writes =
        ⟨.returned send.keepalive.toInt, ctx', reads', writes'⟩ ∧
      ctx'.store = store ∧
      ctx'.log = ctx.log ++ (.packet sockid send :: (writeEach sockid pieces ++
        if send.keepalive = 0 then [.close sockid] else [])) ∧
      pieces.flatten = reply.bytes ∧
      ReadsFlow reads' ∧ received reads' = more ∧
      WritesFlow writes' ∧ accepted writes' + KVSTORE_CONTENT_LEN = accepted writes := by
  have hwhole : KVSTORE_CONTENT_LEN ≤ (received reads).length := by
    rw [hbytes, List.length_append, SendMessage.length_bytes]
    omega
  have hdone := readLoop_complete [] ctx.errno (by decide) hreads
    (by rw [List.length_nil, Nat.zero_add]; exact hwhole)
  have hspec := @readLoop_spec reads [] ctx.errno (by decide)
  have hlen := hspec.done hdone
  have hsplit := hspec.bytes
  rw [List.nil_append, hbytes] at hsplit
  obtain ⟨hbuf, hmore⟩ := List.append_inj hsplit (by rw [hlen, SendMessage.length_bytes])
  obtain ⟨⟨result, buf, store'⟩, hp, heq⟩ := Option.map_eq_some_iff.mp hstep
  cases heq
  obtain ⟨ctx', writes', pieces, hsend, hstore, hlog, hpieces, hflow, hacc⟩ := sendReply_flow
    { ({ ctx with errno := (readLoop [] ctx.errno reads).errno } : ThreadContext σ).did
      (.packet sockid send) with store := store }
    sockid buf send.keepalive (readLoop [] ctx.errno reads).rest hwrites hroom
  refine ⟨ctx', (readLoop [] ctx.errno reads).rest, writes', pieces, ?_, hstore, ?_, ?_,
    readLoop_flow (by decide) hreads, hmore, hflow, hacc⟩
  · simp only [handleReadEvent, if_pos hdone, hbuf, SendMessage.ofBytes_bytes, answerPacket, hp]
    exact hsend
  · rw [hlog]
    simp [ThreadContext.did]
  · rw [hpieces, SendMessage.bytes_toResponse]

/-! ## All calls -/

/-- `n` successive calls of the handler on one socket.  `none` says that one of
them did not return. -/
def handleReadEvents (sockid : Nat) : Nat → ThreadContext σ → List (ReadAnswer Byte) →
    List WriteAnswer → Option (ThreadContext σ × List (ReadAnswer Byte) × List WriteAnswer)
  | 0, ctx, reads, writes => some (ctx, reads, writes)
  | n + 1, ctx, reads, writes =>
      let h := handleReadEvent ctx sockid reads writes
      match h.outcome with
      | .returned _ => handleReadEvents sockid n h.ctx h.reads h.writes
      | _ => none

theorem handleReadEvents_succ {sockid n : Nat} {ctx ctx' : ThreadContext σ}
    {reads reads' : List (ReadAnswer Byte)} {writes writes' : List WriteAnswer} {ret : Int}
    (h : handleReadEvent ctx sockid reads writes = ⟨.returned ret, ctx', reads', writes'⟩) :
    handleReadEvents sockid (n + 1) ctx reads writes =
      handleReadEvents sockid n ctx' reads' writes' := by
  simp only [handleReadEvents, h]

/-- What a list of calls logs when it answers the requests `sends` with `replies`
and only the last request may end the connection.  Nothing happens on another socket. -/
structure StreamLog (sockid : Nat) (sends : List SendMessage) (last : SendMessage)
    (replies : List ResponseMessage) (added : List Action) : Prop where
  packets : packetsOf sockid added = sends ++ [last]
  written : writtenTo sockid added = replies.flatMap ResponseMessage.bytes
  closes : closes added = if last.keepalive = 0 then [sockid] else []
  serves : ∀ a ∈ added, a.Serves sockid ∨ a = .close sockid

theorem serves_writeEach {sockid : Nat} {pieces : List (List Byte)} {a : Action}
    (ha : a ∈ writeEach sockid pieces) : a.Serves sockid := by
  obtain ⟨piece, -, rfl⟩ := List.mem_map.mp ha
  rfl

theorem StreamLog.single (sockid : Nat) (last : SendMessage) {reply : ResponseMessage}
    {pieces : List (List Byte)} (h : pieces.flatten = reply.bytes) :
    StreamLog sockid [] last [reply] ([.packet sockid last] ++ (writeEach sockid pieces ++
      if last.keepalive = 0 then [.close sockid] else [])) := by
  constructor
  · rw [packetsOf_append, packetsOf_append, packetsOf_writeEach]
    split <;> simp [packetsOf]
  · rw [writtenTo_append, writtenTo_append, writtenTo_writeEach, h]
    split <;> simp [writtenTo]
  · rw [closes_append, closes_append, closes_writeEach]
    split <;> rfl
  · intro a ha
    rcases List.mem_append.mp ha with ha | ha
    · rw [List.mem_singleton.mp ha]
      exact .inl rfl
    · rcases List.mem_append.mp ha with ha | ha
      · exact .inl (serves_writeEach ha)
      · split at ha
        · exact .inr (List.mem_singleton.mp ha)
        · cases ha

theorem StreamLog.cons {sockid : Nat} {send last : SendMessage} {sends : List SendMessage}
    {reply : ResponseMessage} {replies : List ResponseMessage} {added : List Action}
    {pieces : List (List Byte)} (hpieces : pieces.flatten = reply.bytes)
    (h : StreamLog sockid sends last replies added) :
    StreamLog sockid (send :: sends) last (reply :: replies)
      ([.packet sockid send] ++ (writeEach sockid pieces ++ added)) := by
  obtain ⟨hp, hw, hc, hs⟩ := h
  constructor
  · rw [packetsOf_append, packetsOf_append, packetsOf_writeEach, hp]
    simp [packetsOf]
  · rw [writtenTo_append, writtenTo_append, writtenTo_writeEach, hw, hpieces, List.flatMap_cons]
    rfl
  · rw [closes_append, closes_append, closes_writeEach, hc]
    rfl
  · intro a ha
    rcases List.mem_append.mp ha with ha | ha
    · rw [List.mem_singleton.mp ha]
      exact .inl rfl
    · rcases List.mem_append.mp ha with ha | ha
      · exact .inl (serves_writeEach ha)
      · exact hs a ha

/-- The run of the calls against the run of the packet processor. -/
theorem handleReadEvents_flow (sockid : Nat) (last : SendMessage) {sends : List SendMessage} :
    ∀ {ctx : ThreadContext σ} {reads : List (ReadAnswer Byte)} {writes : List WriteAnswer}
      {replies : List ResponseMessage} {store : σ},
      (∀ m ∈ sends, m.keepalive ≠ 0) → ReadsFlow reads → WritesFlow writes →
      received reads = (sends ++ [last]).flatMap SendMessage.bytes →
      (sends.length + 1) * KVSTORE_CONTENT_LEN ≤ accepted writes →
      processPackets ctx.store (sends ++ [last]) = some (replies, store) →
      ∃ ctx' reads' writes' added,
        handleReadEvents sockid (sends.length + 1) ctx reads writes =
          some (ctx', reads', writes') ∧
        received reads' = [] ∧
        accepted writes' + (sends.length + 1) * KVSTORE_CONTENT_LEN = accepted writes ∧
        ctx'.store = store ∧ ctx'.log = ctx.log ++ added ∧
        StreamLog sockid sends last replies added := by
  induction sends with
  | nil =>
      intro ctx reads writes replies store _ hreads hwrites hstream hroom hrun
      obtain ⟨reply, replies', t, rfl, hstep, hnil⟩ := (storeMachine σ).serve_cons_eq_some hrun
      cases hnil
      obtain ⟨ctx', reads', writes', pieces, hcall, hstore, hlog, hpieces, -, hrecv, -, hacc⟩ :=
        handleReadEvent_flow sockid hreads hwrites hstream (by simpa using hroom) hstep
      refine ⟨ctx', reads', writes', _, ?_, hrecv, ?_, hstore, hlog,
        StreamLog.single sockid last hpieces⟩
      · rw [List.length_nil, handleReadEvents_succ hcall]
        rfl
      · rw [List.length_nil, Nat.zero_add, Nat.one_mul]
        exact hacc
  | cons send sends ih =>
      intro ctx reads writes replies store hkeep hreads hwrites hstream hroom hrun
      obtain ⟨reply, replies', t, rfl, hstep, hrest⟩ := (storeMachine σ).serve_cons_eq_some hrun
      rw [List.length_cons, Nat.succ_mul] at hroom
      obtain ⟨ctx₁, reads₁, writes₁, pieces, hcall, hstore₁, hlog₁, hpieces, hreads₁, hrecv₁,
        hwrites₁, hacc₁⟩ := handleReadEvent_flow sockid hreads hwrites hstream (by omega) hstep
      rw [if_neg (hkeep send List.mem_cons_self), List.append_nil] at hlog₁
      rw [← hstore₁] at hrest
      obtain ⟨ctx', reads', writes', added, hcalls, hrecv, hacc, hstore, hlog, hadded⟩ :=
        ih (fun m hm => hkeep m (List.mem_cons_of_mem _ hm)) hreads₁ hwrites₁ hrecv₁ (by omega)
          hrest
      refine ⟨ctx', reads', writes', _, ?_, hrecv, ?_, hstore, ?_, hadded.cons hpieces⟩
      · rw [List.length_cons, handleReadEvents_succ hcall]
        exact hcalls
      · rw [List.length_cons, Nat.succ_mul, ← Nat.add_assoc, hacc]
        exact hacc₁
      · rw [hlog, hlog₁, List.append_assoc]
        rfl

/-- A stream of valid requests, cut up in any way: the calls hand the requests of the socket
to the packet processor in order, each once, and the pieces the socket takes make up the
replies.  Of the room for writing they use 50 bytes each.  Nothing depends on how the reads
and the writes were cut. -/
theorem stream_refinement (ctx : ThreadContext σ) (sockid : Nat) (sends : List SendMessage)
    (last : SendMessage) (hvalid : ∀ m ∈ sends ++ [last], m.Valid)
    (hkeep : ∀ m ∈ sends, m.keepalive ≠ 0) (reads : List (ReadAnswer Byte))
    (writes : List WriteAnswer) (hreads : ReadsFlow reads) (hwrites : WritesFlow writes)
    (hstream : received reads = (sends ++ [last]).flatMap SendMessage.bytes)
    (hroom : (sends.length + 1) * KVSTORE_CONTENT_LEN ≤ accepted writes) :
    ∃ replies store ctx' reads' writes' added,
      processPackets ctx.store (sends ++ [last]) = some (replies, store) ∧
      handleReadEvents sockid (sends.length + 1) ctx reads writes =
        some (ctx', reads', writes') ∧
      received reads' = [] ∧
      accepted writes' + (sends.length + 1) * KVSTORE_CONTENT_LEN = accepted writes ∧
      ctx'.store = store ∧ ctx'.log = ctx.log ++ added ∧
      StreamLog sockid sends last replies added := by
  have htotal : ∀ m ∈ sends ++ [last], (storeMachine σ).Total m := fun m hm =>
    Request.total ⟨m, hvalid m hm⟩
  obtain ⟨replies, store, hrun⟩ := (storeMachine σ).serve_isSome htotal ctx.store
  obtain ⟨ctx', reads', writes', added, hcalls, hrest⟩ :=
    handleReadEvents_flow sockid last hkeep hreads hwrites hstream hroom hrun
  exact ⟨replies, store, ctx', reads', writes', added, hrun, hcalls, hrest⟩

/-- Two requests cut in the middle of the first, and replies cut in the middle of
the second. -/
theorem stream_refinement_two :
    let ctx := ThreadContext.start 3 (CuckoohashMap.empty : Key → Option Value)
    let sends := [SendMessage.blank .PUT 1]
    let last := SendMessage.blank .GET 0
    let stream := (sends ++ [last]).flatMap SendMessage.bytes
    ∃ replies store ctx' reads' writes' added,
      processPackets ctx.store (sends ++ [last]) = some (replies, store) ∧
      handleReadEvents 7 2 ctx [.data (stream.take 20), .fail EAGAIN, .data (stream.drop 20)]
        [.count 0, .count 60, .fail EAGAIN, .count 40] = some (ctx', reads', writes') ∧
      received reads' = [] ∧ accepted writes' + 2 * KVSTORE_CONTENT_LEN = 100 ∧
      ctx'.store = store ∧ ctx'.log = ctx.log ++ added ∧
      StreamLog 7 sends last replies added := by
  refine stream_refinement _ 7 _ _ (by decide) (by decide) _ _ ?_ ?_ (by decide) (by decide)
  · intro a ha
    rcases List.mem_cons.mp ha with rfl | ha
    · exact Or.inl ⟨_, _, rfl⟩
    · rcases List.mem_cons.mp ha with rfl | ha
      · exact Or.inr rfl
      · obtain rfl := List.mem_singleton.mp ha
        exact Or.inl ⟨_, _, rfl⟩
  · intro a ha
    rcases a with n | e
    · exact Or.inl ⟨n, rfl⟩
    · refine Or.inr ?_
      simpa using ha

end KvServer.Mtcp
