import KvServer.Mtcp.Stream
import KvServer.Server5204.Steps

/-!
# The two front ends

Both servers hand a request to `kvstore_process_packet`, which writes the reply over
it.  `HandleReadEvent` sends this memory back.  `req_recv` passes the address of a
second array along, which the packet processor does not take, and sends that array,
so what it sends is whatever malloc returned.

The stores agree (`stores_alike`), and the responses never do
(`not_answersAlike`): they would have to be the same for every memory malloc can
return.
-/

namespace KvServer

open Transfer
open Mtcp (ThreadContext handleReadEvent handleReadEvent_flow written)
open Server5204 (Buffer processBuffer processBuffer_eq processList_spec responseBuffer numMsgs
  cut cut_flatMap length_flatMap_bytes)

variable {σ : Type} [CuckoohashMap σ Key Value]

/-! ## The handler on a list of requests -/

/-- `HandleReadEvent` on one request after the other, each read and answered in full.
`none` says that a call did not return. -/
def handleRequests (sockid : Nat) (ctx : ThreadContext σ) :
    List SendMessage → Option (ThreadContext σ)
  | [] => some ctx
  | send :: sends =>
      let h := handleReadEvent ctx sockid [.data send.bytes] [.count KVSTORE_CONTENT_LEN]
      match h.outcome with
      | .returned _ => handleRequests sockid h.ctx sends
      | _ => none

/-- The handler writes the replies of the packet processor. -/
theorem handleRequests_spec (sockid : Nat) {sends : List SendMessage} :
    ∀ {ctx : ThreadContext σ} {replies : List ResponseMessage} {store : σ},
      processPackets ctx.store sends = some (replies, store) →
      ∃ ctx', handleRequests sockid ctx sends = some ctx' ∧ ctx'.store = store ∧
        written ctx'.log = written ctx.log ++ replies.flatMap ResponseMessage.bytes := by
  induction sends with
  | nil =>
      intro ctx replies store hrun
      cases hrun
      exact ⟨ctx, rfl, rfl, (List.append_nil _).symm⟩
  | cons send sends ih =>
      intro ctx replies store hrun
      obtain ⟨reply, replies', t, rfl, hstep, hrest⟩ := (storeMachine σ).serve_cons_eq_some hrun
      have hreads : ReadsFlow [ReadAnswer.data send.bytes] := by
        intro a ha
        rw [List.mem_singleton.mp ha]
        exact Or.inl ⟨_, _, rfl⟩
      have hwrites : WritesFlow [.count KVSTORE_CONTENT_LEN] := by
        intro a ha
        rw [List.mem_singleton.mp ha]
        exact Or.inl ⟨_, rfl⟩
      obtain ⟨ctx₁, reads₁, writes₁, pieces, hcall, rfl, hlog, hpieces, -⟩ :=
        handleReadEvent_flow sockid hreads hwrites rfl (Nat.le_refl _) hstep
      obtain ⟨ctx', hcalls, hstore, hwritten⟩ := ih hrest
      refine ⟨ctx', ?_, hstore, ?_⟩
      · simp only [handleRequests, hcall]
        exact hcalls
      · rw [hwritten, hlog, ← List.singleton_append, Mtcp.written_append, Mtcp.written_append,
          Mtcp.written_append, Mtcp.written_writeEach, hpieces, List.flatMap_cons]
        split <;> simp [written]

/-- Valid requests are all answered. -/
theorem processPackets_isSome (store : σ) {sends : List SendMessage}
    (hvalid : ∀ m ∈ sends, m.Valid) :
    ∃ replies store', processPackets store sends = some (replies, store') :=
  (storeMachine σ).serve_isSome (fun m hm => Request.total ⟨m, hvalid m hm⟩) store

/-! ## What agrees -/

/-- `req_recv` leaves the store that the handler leaves. -/
theorem stores_alike (sockid : Nat) (ctx : ThreadContext σ) {sends : List SendMessage}
    {msg : Buffer} (hvalid : ∀ m ∈ sends, m.Valid) (hlen : sends.length < 65536)
    (hmsg : msg.content = sends.flatMap SendMessage.bytes) :
    ∃ ctx', handleRequests sockid ctx sends = some ctx' ∧
      (processBuffer ctx.store msg).windows = sends ∧
      (processBuffer ctx.store msg).store = ctx'.store := by
  have hnum : numMsgs msg = sends.length := by
    rw [numMsgs, ← Buffer.length_content, hmsg, length_flatMap_bytes,
      Nat.mul_div_cancel_left _ (by decide), Nat.mod_eq_of_lt hlen]
  have hcut := cut_flatMap sends []
  rw [List.append_nil] at hcut
  have hspec := processList_spec ctx.store sends
  rw [processBuffer_eq, hnum, hmsg, hcut]
  -- a request that is not valid would have ended the process
  have hexit : (Server5204.processList ctx.store sends).exited = false := by
    refine Bool.eq_false_iff.mpr fun hexit => ?_
    obtain ⟨w, hw, hbad⟩ := hspec.exited hexit
    exact hbad (hvalid w (hspec.windows.subset hw))
  obtain ⟨hwindows, replies, hrun⟩ := hspec.finished hexit
  obtain ⟨ctx', hcalls, hstore, -⟩ := handleRequests_spec sockid hrun
  exact ⟨ctx', hcalls, hwindows, hstore.symm⟩

/-! ## What does not -/

/-- The response `rsp` to the requests in `msg` is what the handler writes for `sends`,
and the stores are the same. -/
def AnswersAlike (sockid : Nat) (ctx : ThreadContext σ) (sends : List SendMessage)
    (msg rsp : Buffer) : Prop :=
  ∃ ctx', handleRequests sockid ctx sends = some ctx' ∧
    written ctx'.log = written ctx.log ++ rsp.content ∧
    (processBuffer ctx.store msg).store = ctx'.store

/-- Responses in two memories are the same only when they are empty. -/
theorem numMsgs_of_content_eq {id : Nat} {msg : Buffer}
    (h : (responseBuffer id (fun _ => 0) msg).content =
      (responseBuffer id (fun _ => 1) msg).content) : numMsgs msg = 0 := by
  refine Nat.eq_zero_of_not_pos fun hpos => ?_
  have hsize : ((KVSTORE_CONTENT_LEN : Int) * numMsgs msg).toNat =
      (KVSTORE_CONTENT_LEN * numMsgs msg - 1) + 1 := by
    have hpos' : 0 < KVSTORE_CONTENT_LEN * numMsgs msg := Nat.mul_pos (by decide) hpos
    omega
  rw [responseBuffer, responseBuffer, Buffer.content_ofPtr, Buffer.content_ofPtr, hsize] at h
  have hhead := congrArg List.head? h
  simp [Memory.slice, List.range_succ_eq_map] at hhead

/-- For no requests at all does `req_recv` answer what the handler answers, whatever
malloc returns. -/
theorem not_answersAlike (sockid id : Nat) (ctx : ThreadContext σ) (sends : List SendMessage)
    (msg : Buffer) (hne : sends ≠ []) (hvalid : ∀ m ∈ sends, m.Valid) :
    ¬ ∀ resp, AnswersAlike sockid ctx sends msg (responseBuffer id resp msg) := by
  intro h
  obtain ⟨replies, store, hrun⟩ := processPackets_isSome ctx.store hvalid
  obtain ⟨ctx', hcalls, -, hwritten⟩ := handleRequests_spec sockid hrun
  have hcontent : ∀ resp, (responseBuffer id resp msg).content =
      replies.flatMap ResponseMessage.bytes := by
    intro resp
    obtain ⟨ctx'', hcalls', hsame, -⟩ := h resp
    cases hcalls.symm.trans hcalls'
    exact List.append_cancel_left (hsame.symm.trans hwritten)
  have hnum := numMsgs_of_content_eq ((hcontent fun _ => 0).trans (hcontent fun _ => 1).symm)
  have hempty := hcontent fun _ => 0
  rw [responseBuffer, hnum] at hempty
  -- but the first request has a reply
  rcases sends with - | ⟨send, sends⟩
  · exact hne rfl
  · obtain ⟨reply, replies', t, rfl, -, -⟩ := (storeMachine σ).serve_cons_eq_some hrun
    cases hempty

/-- One request, in a buffer of its 50 bytes. -/
theorem not_answersAlike_put :
    ¬ ∀ resp, AnswersAlike 7 (ThreadContext.start 3 (CuckoohashMap.empty : Key → Option Value))
      [SendMessage.blank .PUT 1]
      (Buffer.ofPtr 0 (Memory.blit (fun _ => 0) 0 (SendMessage.blank .PUT 1).bytes) 50)
      (responseBuffer 1 resp
        (Buffer.ofPtr 0 (Memory.blit (fun _ => 0) 0 (SendMessage.blank .PUT 1).bytes) 50)) :=
  not_answersAlike 7 1 _ _ _ (by decide) (by decide)

/-- The reply to a PUT keeps its keepalive byte, and malloc returned zeros. -/
theorem answers_differ : ¬ ∀ (ctx : ThreadContext (Key → Option Value)) sends msg resp,
    sends ≠ [] → (∀ m ∈ sends, m.Valid) → msg.content = sends.flatMap SendMessage.bytes →
      AnswersAlike 7 ctx sends msg (responseBuffer 1 resp msg) := by
  intro h
  obtain ⟨ctx', hcalls, hwritten, -⟩ := h (ThreadContext.start 3 CuckoohashMap.empty)
    [SendMessage.blank .PUT 1]
    (Buffer.ofPtr 0 (Memory.blit (fun _ => 0) 0 (SendMessage.blank .PUT 1).bytes) 50)
    (fun _ => 0) (by decide) (by decide) (by decide)
  have hbytes : (handleRequests 7
      (ThreadContext.start 3 (CuckoohashMap.empty : Key → Option Value))
      [SendMessage.blank .PUT 1]).map (fun ctx => written ctx.log) =
      some (SendMessage.blank .GET 1).bytes := by
    decide +kernel
  rw [hcalls, Option.map_some, hwritten] at hbytes
  exact absurd (Option.some.inj hbytes) (by decide)

end KvServer
