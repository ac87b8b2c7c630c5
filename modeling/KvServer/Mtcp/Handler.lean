import KvServer.Mtcp.Context

/-!
# The read handler of the mTCP server

`HandleReadEvent` reads 50 bytes into a buffer, hands the buffer to the packet
processor and writes the same 50 bytes back.  Both loops call again until all
bytes have moved, and look at `errno` when a call moved none.  `EAGAIN` is tried
again, 107 (not connected) closes the socket and returns 0, and everything else
ends the process.

The read loop looks at `errno` also when the read returned 0, where no call has
set it.  So `errno` is part of the thread's state and is whatever an earlier call
left there.

The loops use up lists of answers.  A list that ends before the loop does leaves
it `waiting`: the thread is still inside the call.
-/

namespace KvServer.Mtcp

open Transfer

variable {σ : Type}

/-! ## The two loops -/

/-- How a loop of the handler ends. -/
inductive LoopEnd where
  | done
  | notConn
  | exit
  | waiting
deriving DecidableEq, Repr

/-- The number both loops compare `errno` with. -/
def ENOTCONN : Errno := 107

/-- What the read loop does with `errno` after a read of no bytes: go on, or end. -/
def readFailed (errno : Errno) : Option LoopEnd :=
  if errno = EAGAIN ∨ errno = EWOULDBLOCK then none
  else if errno = ENOTCONN then some .notConn
  else some .exit

/-- What the write loop does with `errno` after a failed write. -/
def writeFailed (errno : Errno) : Option LoopEnd :=
  if errno = EAGAIN then none
  else if errno = ENOTCONN then some .notConn
  else some .exit

/-- Where the read loop stands: `buf` holds the `content_read` bytes so far. -/
structure ReadLoop where
  ending : LoopEnd
  buf : List Byte
  errno : Errno
  rest : List (ReadAnswer Byte)

/-- `while (content_read != KVSTORE_CONTENT_LEN)`, entered with room left. -/
def readLoop (buf : List Byte) (errno : Errno) : List (ReadAnswer Byte) → ReadLoop
  | [] => ⟨.waiting, buf, errno, []⟩
  | .data (b :: bytes) :: rest =>
      let want := KVSTORE_CONTENT_LEN - buf.length
      let buf := buf ++ (b :: bytes).take want
      if buf.length = KVSTORE_CONTENT_LEN then
        ⟨.done, buf, errno, pushBack ((b :: bytes).drop want) rest⟩
      else readLoop buf errno rest
  | .data [] :: rest =>
      -- the read returned 0 and set no `errno`: the one looked at is older
      match readFailed errno with
      | none => readLoop buf errno rest
      | some ending => ⟨ending, buf, errno, rest⟩
  | .fail e :: rest =>
      match readFailed e with
      | none => readLoop buf e rest
      | some ending => ⟨ending, buf, e, rest⟩

/-- Where the write loop stands: `sent` is `content_sent`. -/
structure WriteLoop (σ : Type) where
  ending : LoopEnd
  sent : Nat
  ctx : ThreadContext σ
  rest : List WriteAnswer

/-- `while (content_sent != KVSTORE_CONTENT_LEN)`, entered with bytes left.  Each call of
`mtcp_write` is handed `buf` from `content_sent` on, and takes as many of these bytes as its
answer says. -/
def writeLoop (sockid : Nat) (buf : List Byte) (sent : Nat) (ctx : ThreadContext σ) :
    List WriteAnswer → WriteLoop σ
  | [] => ⟨.waiting, sent, ctx, []⟩
  | .count n :: rest =>
      let want := KVSTORE_CONTENT_LEN - sent
      let ctx := ctx.did (.write sockid ((buf.drop sent).take (min n want)))
      let sent := sent + min n want
      if sent = KVSTORE_CONTENT_LEN then ⟨.done, sent, ctx, pushBackCount (n - want) rest⟩
      else writeLoop sockid buf sent ctx rest
  | .fail e :: rest =>
      let ctx := { ctx with errno := e }
      match writeFailed e with
      | none => writeLoop sockid buf sent ctx rest
      | some ending => ⟨ending, sent, ctx, rest⟩

/-! ## The handler -/

/-- How a call of the handler ends. -/
inductive Outcome where
  | returned (ret : Int)
  | exited
  | waiting
deriving DecidableEq, Repr

/-- A call of the handler: how it ends, the context, and the answers left over. -/
structure Handled (σ : Type) where
  outcome : Outcome
  ctx : ThreadContext σ
  reads : List (ReadAnswer Byte)
  writes : List WriteAnswer

/-- A loop that did not move all bytes ends the call: 107 closes the socket and
returns 0. -/
def leave (ctx : ThreadContext σ) (sockid : Nat) : LoopEnd → Outcome × ThreadContext σ
  | .notConn => (.returned 0, closeConnection ctx sockid)
  | .exit => (.exited, ctx)
  | .done => (.waiting, ctx)
  | .waiting => (.waiting, ctx)

theorem leave_exited {ctx : ThreadContext σ} {sockid : Nat} {ending : LoopEnd}
    (h : (leave ctx sockid ending).1 = .exited) : ending = .exit := by
  cases ending <;> first | rfl | cases h

theorem leave_returned {ctx : ThreadContext σ} {sockid : Nat} {ending : LoopEnd} {ret : Int}
    (h : (leave ctx sockid ending).1 = .returned ret) : ending = .notConn := by
  cases ending <;> first | rfl | cases h

/-- `HandleReadEvent` from the write loop on.  The reply is in `buf`, and
`keepalive` is the byte saved from the request.  `MTCP_EPOLL_CTL_MOD` asks for
the readable event again and registers nothing new. -/
def sendReply (ctx : ThreadContext σ) (sockid : Nat) (buf : SendMessage) (keepalive : Byte)
    (reads : List (ReadAnswer Byte)) (writes : List WriteAnswer) : Handled σ :=
  let w := writeLoop sockid buf.bytes 0 ctx writes
  if w.ending = .done then
    let ctx := if keepalive = 0 then closeConnection w.ctx sockid else w.ctx
    ⟨.returned keepalive.toInt, ctx, reads, w.rest⟩
  else
    let (outcome, ctx) := leave w.ctx sockid w.ending
    ⟨outcome, ctx, reads, w.rest⟩

variable [CuckoohashMap σ Key Value]

/-- `HandleReadEvent` from `kvstore_process_packet` on. -/
def answerPacket (ctx : ThreadContext σ) (sockid : Nat) (send : SendMessage)
    (reads : List (ReadAnswer Byte)) (writes : List WriteAnswer) : Handled σ :=
  match kvstoreProcessPacket ctx.store send with
  | none => ⟨.exited, ctx.did (.packet sockid send), reads, writes⟩
  | some (_, buf, store) =>
      sendReply { ctx.did (.packet sockid send) with store := store } sockid buf send.keepalive
        reads writes

/-- `HandleReadEvent`. -/
def handleReadEvent (ctx : ThreadContext σ) (sockid : Nat) (reads : List (ReadAnswer Byte))
    (writes : List WriteAnswer) : Handled σ :=
  let r := readLoop [] ctx.errno reads
  let ctx := { ctx with errno := r.errno }
  if r.ending = .done then
    answerPacket ctx sockid (SendMessage.ofBytes r.buf) r.rest writes
  else
    let (outcome, ctx) := leave ctx sockid r.ending
    ⟨outcome, ctx, r.rest, writes⟩

/-! ## The read loop -/

@[simp] theorem readFailed_eagain : readFailed EAGAIN = none := rfl

theorem readFailed_eq_some {errno : Errno} {ending : LoopEnd}
    (h : readFailed errno = some ending) :
    ending = .notConn ∧ errno = ENOTCONN ∨
      ending = .exit ∧ errno ≠ EAGAIN ∧ errno ≠ ENOTCONN := by
  unfold readFailed at h
  split at h
  · cases h
  · next hagain =>
      split at h
      · next hconn => cases h; exact Or.inl ⟨rfl, hconn⟩
      · next hconn => cases h; exact Or.inr ⟨rfl, fun he => hagain (Or.inl he), hconn⟩

section ReadLoop

variable {buf bytes : List Byte} {errno e : Errno} {rest reads : List (ReadAnswer Byte)}

/-- A burst that leaves room. -/
theorem readLoop_short (hb : bytes ≠ []) (hlen : buf.length + bytes.length < KVSTORE_CONTENT_LEN) :
    readLoop buf errno (.data bytes :: rest) = readLoop (buf ++ bytes) errno rest := by
  cases bytes with
  | nil => exact absurd rfl hb
  | cons b bytes =>
      have htake : (b :: bytes).take (KVSTORE_CONTENT_LEN - buf.length) = b :: bytes :=
        List.take_of_length_le (by omega)
      simp only [readLoop, htake, List.length_append]
      rw [if_neg (by omega)]

/-- A burst that fills the buffer. -/
theorem readLoop_full (hb : bytes ≠ []) (hbuf : buf.length ≤ KVSTORE_CONTENT_LEN)
    (hlen : KVSTORE_CONTENT_LEN ≤ buf.length + bytes.length) :
    readLoop buf errno (.data bytes :: rest) =
      ⟨.done, buf ++ bytes.take (KVSTORE_CONTENT_LEN - buf.length), errno,
        pushBack (bytes.drop (KVSTORE_CONTENT_LEN - buf.length)) rest⟩ := by
  cases bytes with
  | nil => exact absurd rfl hb
  | cons b bytes =>
      simp only [readLoop, List.length_append, List.length_take]
      rw [if_pos (by omega)]

theorem readLoop_empty : readLoop buf errno (.data [] :: rest) =
    match readFailed errno with
    | none => readLoop buf errno rest
    | some ending => ⟨ending, buf, errno, rest⟩ := rfl

theorem readLoop_fail : readLoop buf errno (.fail e :: rest) =
    match readFailed e with
    | none => readLoop buf e rest
    | some ending => ⟨ending, buf, e, rest⟩ := rfl

end ReadLoop

/-- What the read loop promises of its result: no byte is dropped, `done` means a
whole request, and another end than `waiting` was decided by an `errno` that some
read of no bytes left. -/
structure ReadLoop.Spec (buf : List Byte) (errno : Errno) (reads : List (ReadAnswer Byte))
    (r : ReadLoop) : Prop where
  bytes : r.buf ++ received r.rest = buf ++ received reads
  done : r.ending = .done → r.buf.length = KVSTORE_CONTENT_LEN
  waiting : r.ending = .waiting → r.rest = [] ∧ r.buf.length < KVSTORE_CONTENT_LEN
  failed : r.ending ≠ .done → r.ending ≠ .waiting →
    ∃ e ∈ failErrnos errno reads, readFailed e = some r.ending

theorem readLoop_spec {reads : List (ReadAnswer Byte)} :
    ∀ {buf : List Byte} {errno : Errno}, buf.length < KVSTORE_CONTENT_LEN →
      (readLoop buf errno reads).Spec buf errno reads := by
  induction reads with
  | nil =>
      intro buf errno hbuf
      exact ⟨rfl, fun h => (by cases h), fun _ => ⟨rfl, hbuf⟩, fun _ h => absurd rfl h⟩
  | cons a rest ih =>
      intro buf errno hbuf
      rcases a with bytes | e
      · cases bytes with
        | nil =>
            rw [readLoop_empty]
            cases hf : readFailed errno with
            | none =>
                obtain ⟨hbytes, hdone, hwait, hfail⟩ := @ih buf errno hbuf
                refine ⟨hbytes, hdone, hwait, fun h₁ h₂ => ?_⟩
                obtain ⟨e, he, hr⟩ := hfail h₁ h₂
                exact ⟨e, List.mem_cons_of_mem _ he, hr⟩
            | some ending =>
                refine ⟨rfl, ?_, ?_, fun _ _ => ⟨errno, List.mem_cons_self, hf⟩⟩
                · rintro rfl
                  rcases readFailed_eq_some hf with ⟨h, -⟩ | ⟨h, -⟩ <;> cases h
                · rintro rfl
                  rcases readFailed_eq_some hf with ⟨h, -⟩ | ⟨h, -⟩ <;> cases h
        | cons b bytes =>
            by_cases hlen : buf.length + (b :: bytes).length < KVSTORE_CONTENT_LEN
            · rw [readLoop_short (List.cons_ne_nil _ _) hlen]
              obtain ⟨hbytes, hdone, hwait, hfail⟩ :=
                @ih (buf ++ b :: bytes) errno (by rw [List.length_append]; exact hlen)
              refine ⟨?_, hdone, hwait, hfail⟩
              rw [hbytes, received_data, List.append_assoc]
            · rw [readLoop_full (List.cons_ne_nil _ _) (by omega) (by omega)]
              refine ⟨?_, fun _ => ?_, fun h => (by cases h), fun h => absurd rfl h⟩
              · rw [received_pushBack, List.append_assoc, ← List.append_assoc (List.take _ _),
                  List.take_append_drop, received_data]
              · rw [List.length_append, List.length_take]
                omega
      · rw [readLoop_fail]
        cases hf : readFailed e with
        | none =>
            obtain ⟨hbytes, hdone, hwait, hfail⟩ := @ih buf e hbuf
            refine ⟨hbytes, hdone, hwait, fun h₁ h₂ => ?_⟩
            obtain ⟨e', he, hr⟩ := hfail h₁ h₂
            exact ⟨e', List.mem_cons_of_mem _ he, hr⟩
        | some ending =>
            refine ⟨rfl, ?_, ?_, fun _ _ => ⟨e, List.mem_cons_self, hf⟩⟩
            · rintro rfl
              rcases readFailed_eq_some hf with ⟨h, -⟩ | ⟨h, -⟩ <;> cases h
            · rintro rfl
              rcases readFailed_eq_some hf with ⟨h, -⟩ | ⟨h, -⟩ <;> cases h

/-! ## The write loop -/

@[simp] theorem writeFailed_eagain : writeFailed EAGAIN = none := rfl

theorem writeFailed_eq_some {errno : Errno} {ending : LoopEnd}
    (h : writeFailed errno = some ending) :
    ending = .notConn ∧ errno = ENOTCONN ∨
      ending = .exit ∧ errno ≠ EAGAIN ∧ errno ≠ ENOTCONN := by
  unfold writeFailed at h
  split at h
  · cases h
  · next hagain =>
      split at h
      · next hconn => cases h; exact Or.inl ⟨rfl, hconn⟩
      · next hconn => cases h; exact Or.inr ⟨rfl, hagain, hconn⟩

/-- What the write loop promises of its result: the pieces that the socket took continue the
bytes before `content_sent`, and no answer is dropped. -/
structure WriteLoop.Spec (sockid : Nat) (buf : List Byte) (sent : Nat) (ctx : ThreadContext σ)
    (writes : List WriteAnswer) (w : WriteLoop σ) : Prop where
  wrote : ∃ pieces, Wrote sockid ctx w.ctx pieces ∧
    buf.take sent ++ pieces.flatten = buf.take w.sent
  bytes : w.sent + accepted w.rest = sent + accepted writes
  done : w.ending = .done → w.sent = KVSTORE_CONTENT_LEN
  waiting : w.ending = .waiting → w.rest = [] ∧ w.sent < KVSTORE_CONTENT_LEN
  failed : w.ending ≠ .done → w.ending ≠ .waiting →
    ∃ e, .fail e ∈ writes ∧ writeFailed e = some w.ending

omit [CuckoohashMap σ Key Value] in
theorem writeLoop_spec {sockid : Nat} {buf : List Byte} {writes : List WriteAnswer} :
    ∀ {sent : Nat} {ctx : ThreadContext σ}, sent < KVSTORE_CONTENT_LEN →
      (writeLoop sockid buf sent ctx writes).Spec sockid buf sent ctx writes := by
  induction writes with
  | nil =>
      intro sent ctx hsent
      exact ⟨⟨[], Wrote.nil sockid ctx ctx.errno, List.append_nil _⟩, rfl, fun h => (by cases h),
        fun _ => ⟨rfl, hsent⟩, fun _ h => absurd rfl h⟩
  | cons a rest ih =>
      intro sent ctx hsent
      rcases a with n | e
      · -- the piece goes from `content_sent` to the new `content_sent`
        have hpiece : buf.take sent ++
            (buf.drop sent).take (min n (KVSTORE_CONTENT_LEN - sent)) =
              buf.take (sent + min n (KVSTORE_CONTENT_LEN - sent)) := List.take_add.symm
        by_cases hfull : sent + min n (KVSTORE_CONTENT_LEN - sent) = KVSTORE_CONTENT_LEN
        · simp only [writeLoop, if_pos hfull]
          refine ⟨⟨[_], (Wrote.nil sockid _ ctx.errno).cons, ?_⟩, ?_, fun _ => hfull,
            fun h => (by cases h), fun h => absurd rfl h⟩
          · rw [List.flatten_singleton]
            exact hpiece
          · show sent + min n (KVSTORE_CONTENT_LEN - sent) + accepted (pushBackCount _ rest) = _
            rw [accepted_pushBackCount, accepted_count]
            omega
        · simp only [writeLoop, if_neg hfull]
          obtain ⟨⟨pieces, hwrote, hpieces⟩, hbytes, hdone, hwait, hfail⟩ :=
            @ih (sent + min n (KVSTORE_CONTENT_LEN - sent)) _ (by omega)
          refine ⟨⟨_ :: pieces, hwrote.cons, ?_⟩, ?_, hdone, hwait, fun h₁ h₂ => ?_⟩
          · rw [List.flatten_cons, ← List.append_assoc, hpiece]
            exact hpieces
          · rw [hbytes, accepted_count]
            omega
          · obtain ⟨e, he, hr⟩ := hfail h₁ h₂
            exact ⟨e, List.mem_cons_of_mem _ he, hr⟩
      · rw [writeLoop]
        cases hf : writeFailed e with
        | none =>
            obtain ⟨⟨pieces, hwrote, hpieces⟩, hbytes, hdone, hwait, hfail⟩ :=
              @ih sent { ctx with errno := e } hsent
            refine ⟨⟨pieces, hwrote.of_errno, hpieces⟩, hbytes, hdone, hwait, fun h₁ h₂ => ?_⟩
            obtain ⟨e', he, hr⟩ := hfail h₁ h₂
            exact ⟨e', List.mem_cons_of_mem _ he, hr⟩
        | some ending =>
            refine ⟨⟨[], Wrote.nil sockid ctx e, List.append_nil _⟩, rfl, ?_, ?_,
              fun _ _ => ⟨e, List.mem_cons_self, hf⟩⟩
            · rintro rfl
              rcases writeFailed_eq_some hf with ⟨h, -⟩ | ⟨h, -⟩ <;> cases h
            · rintro rfl
              rcases writeFailed_eq_some hf with ⟨h, -⟩ | ⟨h, -⟩ <;> cases h

omit [CuckoohashMap σ Key Value] in
/-- From the first byte on, and to the last one. -/
theorem WriteLoop.Spec.whole {sockid : Nat} {buf : SendMessage} {ctx : ThreadContext σ}
    {writes : List WriteAnswer} {w : WriteLoop σ} (h : w.Spec sockid buf.bytes 0 ctx writes)
    (hdone : w.ending = .done) :
    ∃ pieces, Wrote sockid ctx w.ctx pieces ∧ pieces.flatten = buf.bytes := by
  obtain ⟨pieces, hwrote, hpieces⟩ := h.wrote
  refine ⟨pieces, hwrote, ?_⟩
  rw [h.done hdone, List.take_zero, List.nil_append] at hpieces
  rw [hpieces, List.take_of_length_le (SendMessage.length_bytes buf).le]

/-! ## What the handler does -/

/-- An action of the handler called for `sockid`, other than closing it. -/
def Action.Serves (sockid : Nat) : Action → Prop
  | .packet c _ => c = sockid
  | .write c _ => c = sockid
  | _ => False

/-- The handler closes the socket itself exactly when it returns 0. -/
def closing (sockid : Nat) (outcome : Outcome) : List Action :=
  if outcome = .returned 0 then [.close sockid] else []

section SendReply

variable (ctx : ThreadContext σ) (sockid : Nat) (buf : SendMessage) (keepalive : Byte)
  (reads : List (ReadAnswer Byte)) (writes : List WriteAnswer)

omit [CuckoohashMap σ Key Value] in
theorem sendReply_returned_zero
    (h : (sendReply ctx sockid buf keepalive reads writes).outcome = .returned 0) :
    .fail ENOTCONN ∈ writes ∨ keepalive = 0 ∧ KVSTORE_CONTENT_LEN ≤ accepted writes := by
  have hspec := @writeLoop_spec σ sockid buf.bytes writes 0 ctx (by decide)
  by_cases hdone : (writeLoop sockid buf.bytes 0 ctx writes).ending = .done
  · simp only [sendReply, if_pos hdone] at h
    refine Or.inr ⟨Byte.toInt_eq_zero.mp (Outcome.returned.inj h), ?_⟩
    have hsent := hspec.done hdone
    have hbytes := hspec.bytes
    omega
  · simp only [sendReply, if_neg hdone] at h
    have hend := leave_returned h
    obtain ⟨e, he, hf⟩ := hspec.failed hdone (by rw [hend]; decide)
    rw [hend] at hf
    rcases writeFailed_eq_some hf with ⟨-, rfl⟩ | ⟨hexit, -⟩
    · exact Or.inl he
    · cases hexit

omit [CuckoohashMap σ Key Value] in
theorem sendReply_exited
    (h : (sendReply ctx sockid buf keepalive reads writes).outcome = .exited) :
    ∃ e, .fail e ∈ writes ∧ e ≠ EAGAIN ∧ e ≠ ENOTCONN := by
  have hspec := @writeLoop_spec σ sockid buf.bytes writes 0 ctx (by decide)
  by_cases hdone : (writeLoop sockid buf.bytes 0 ctx writes).ending = .done
  · simp only [sendReply, if_pos hdone] at h
    cases h
  · simp only [sendReply, if_neg hdone] at h
    have hend := leave_exited h
    obtain ⟨e, he, hf⟩ := hspec.failed hdone (by rw [hend]; decide)
    rw [hend] at hf
    rcases writeFailed_eq_some hf with ⟨hconn, -⟩ | ⟨-, hne⟩
    · cases hconn
    · exact ⟨e, he, hne⟩

end SendReply

theorem leave_spec (ctx : ThreadContext σ) (sockid : Nat) (ending : LoopEnd) :
    Extends ctx (leave ctx sockid ending).2 (closing sockid (leave ctx sockid ending).1) := by
  cases ending with
  | notConn => exact Extends.close ctx sockid
  | exit => exact Extends.errno ctx ctx.errno
  | done => exact Extends.errno ctx ctx.errno
  | waiting => exact Extends.errno ctx ctx.errno

theorem sendReply_spec (ctx : ThreadContext σ) (sockid : Nat) (buf : SendMessage)
    (keepalive : Byte) (reads : List (ReadAnswer Byte)) (writes : List WriteAnswer) :
    ∃ body, Extends ctx (sendReply ctx sockid buf keepalive reads writes).ctx
        (body ++ closing sockid (sendReply ctx sockid buf keepalive reads writes).outcome) ∧
      ∀ a ∈ body, a.Serves sockid := by
  obtain ⟨pieces, hwrote, -⟩ :=
    (@writeLoop_spec σ sockid buf.bytes writes 0 ctx (by decide)).wrote
  refine ⟨writeEach sockid pieces, ?_, fun a ha => ?_⟩
  · by_cases hdone : (writeLoop sockid buf.bytes 0 ctx writes).ending = .done
    · simp only [sendReply, if_pos hdone]
      refine (Extends.wrote hwrote).trans ?_
      by_cases hk : keepalive = 0
      · have hret : Byte.toInt keepalive = 0 := Byte.toInt_eq_zero.mpr hk
        rw [if_pos hk, hret]
        exact Extends.close _ sockid
      · have hret : Outcome.returned (Byte.toInt keepalive) ≠ .returned 0 := fun h =>
          hk (Byte.toInt_eq_zero.mp (Outcome.returned.inj h))
        rw [if_neg hk, closing, if_neg hret]
        exact Extends.errno _ _
    · simp only [sendReply, if_neg hdone]
      exact (Extends.wrote hwrote).trans (leave_spec _ sockid _)
  · obtain ⟨piece, -, rfl⟩ := List.mem_map.mp ha
    rfl

/-- The request in the bytes a client sent. -/
def requestIn (reads : List (ReadAnswer Byte)) : SendMessage :=
  SendMessage.ofBytes ((received reads).take KVSTORE_CONTENT_LEN)

/-- The answers bring a whole request. -/
def Whole (reads : List (ReadAnswer Byte)) : Prop :=
  KVSTORE_CONTENT_LEN ≤ (received reads).length

instance (reads : List (ReadAnswer Byte)) : Decidable (Whole reads) :=
  inferInstanceAs (Decidable (_ ≤ _))

/-- The socket is found unconnected, or a request that asks not to be kept alive
is answered in full. -/
def Ends (errno : Errno) (reads : List (ReadAnswer Byte)) (writes : List WriteAnswer) : Prop :=
  ENOTCONN ∈ failErrnos errno reads ∨ .fail ENOTCONN ∈ writes ∨
    Whole reads ∧ (requestIn reads).keepalive = 0 ∧ KVSTORE_CONTENT_LEN ≤ accepted writes

/-- A call that moved nothing finds another error than the two the loops know, or
a whole request has no operation. -/
def Fatal (errno : Errno) (reads : List (ReadAnswer Byte)) (writes : List WriteAnswer) : Prop :=
  (∃ e ∈ failErrnos errno reads, e ≠ EAGAIN ∧ e ≠ ENOTCONN) ∨
    (∃ e, .fail e ∈ writes ∧ e ≠ EAGAIN ∧ e ≠ ENOTCONN) ∨
      Whole reads ∧ ¬ (requestIn reads).Valid

section HandleReadEvent

variable (ctx : ThreadContext σ) (sockid : Nat) (reads : List (ReadAnswer Byte))
  (writes : List WriteAnswer)

/-- A loop that ends with `done` has the request of the answers in its buffer. -/
theorem readLoop_done {errno : Errno} (h : (readLoop [] errno reads).ending = .done) :
    Whole reads ∧ SendMessage.ofBytes (readLoop [] errno reads).buf = requestIn reads := by
  have hspec := @readLoop_spec reads [] errno (by decide)
  have hlen := hspec.done h
  have hbytes := hspec.bytes
  rw [List.nil_append] at hbytes
  constructor
  · rw [Whole, ← hbytes, List.length_append]
    omega
  · rw [requestIn, ← hbytes, ← hlen, List.take_left]

theorem answerPacket_spec (send : SendMessage) :
    ∃ body, Extends ctx (answerPacket ctx sockid send reads writes).ctx
        (body ++ closing sockid (answerPacket ctx sockid send reads writes).outcome) ∧
      ∀ a ∈ body, a.Serves sockid := by
  rcases hp : kvstoreProcessPacket ctx.store send with - | ⟨result, buf, store⟩
  · -- no operation: the process ends right after the packet
    simp only [answerPacket, hp]
    exact ⟨[.packet sockid send], Extends.badPacket hp, by simp [Action.Serves]⟩
  · -- the reply goes out, and what that does is known
    simp only [answerPacket, hp]
    obtain ⟨body, hbody, hserves⟩ := sendReply_spec
      { ctx.did (.packet sockid send) with store := store } sockid buf send.keepalive reads writes
    refine ⟨.packet sockid send :: body, (Extends.packet hp).trans hbody, ?_⟩
    intro a ha
    rcases List.mem_cons.mp ha with rfl | ha
    · rfl
    · exact hserves a ha

theorem answerPacket_returned_zero {send : SendMessage}
    (h : (answerPacket ctx sockid send reads writes).outcome = .returned 0) :
    .fail ENOTCONN ∈ writes ∨ send.keepalive = 0 ∧ KVSTORE_CONTENT_LEN ≤ accepted writes := by
  rcases hp : kvstoreProcessPacket ctx.store send with - | ⟨result, buf, store⟩
  · simp only [answerPacket, hp] at h
    cases h
  · simp only [answerPacket, hp] at h
    exact sendReply_returned_zero _ _ _ _ _ _ h

theorem answerPacket_exited {send : SendMessage}
    (h : (answerPacket ctx sockid send reads writes).outcome = .exited) :
    (∃ e, .fail e ∈ writes ∧ e ≠ EAGAIN ∧ e ≠ ENOTCONN) ∨ ¬ send.Valid := by
  rcases hp : kvstoreProcessPacket ctx.store send with - | ⟨result, buf, store⟩
  · refine Or.inr ?_
    rw [SendMessage.Valid, Option.map_eq_none_iff.mp hp]
    exact Bool.false_ne_true
  · simp only [answerPacket, hp] at h
    exact Or.inl (sendReply_exited _ _ _ _ _ _ h)

/-- What a call of the handler does: it serves the socket, and it closes the
socket exactly when it returns 0. -/
theorem handleReadEvent_spec :
    ∃ body, Extends ctx (handleReadEvent ctx sockid reads writes).ctx
        (body ++ closing sockid (handleReadEvent ctx sockid reads writes).outcome) ∧
      ∀ a ∈ body, a.Serves sockid := by
  have herrno := Extends.errno ctx (readLoop [] ctx.errno reads).errno
  by_cases hdone : (readLoop [] ctx.errno reads).ending = .done
  · simp only [handleReadEvent, if_pos hdone]
    obtain ⟨body, hbody, hserves⟩ := answerPacket_spec
      { ctx with errno := (readLoop [] ctx.errno reads).errno } sockid
      (readLoop [] ctx.errno reads).rest writes
      (SendMessage.ofBytes (readLoop [] ctx.errno reads).buf)
    exact ⟨body, herrno.trans hbody, hserves⟩
  · simp only [handleReadEvent, if_neg hdone]
    exact ⟨[], herrno.trans (leave_spec _ sockid _), by simp⟩

theorem handleReadEvent_returned_zero
    (h : (handleReadEvent ctx sockid reads writes).outcome = .returned 0) :
    Ends ctx.errno reads writes := by
  by_cases hdone : (readLoop [] ctx.errno reads).ending = .done
  · obtain ⟨hwhole, hreq⟩ := readLoop_done reads hdone
    simp only [handleReadEvent, if_pos hdone, hreq] at h
    rcases answerPacket_returned_zero _ _ _ _ h with hfail | ⟨hkeep, hsent⟩
    · exact Or.inr (Or.inl hfail)
    · exact Or.inr (Or.inr ⟨hwhole, hkeep, hsent⟩)
  · simp only [handleReadEvent, if_neg hdone] at h
    have hend := leave_returned h
    obtain ⟨e, he, hf⟩ := (@readLoop_spec reads [] ctx.errno (by decide)).failed hdone
      (by rw [hend]; decide)
    rw [hend] at hf
    rcases readFailed_eq_some hf with ⟨-, rfl⟩ | ⟨hexit, -⟩
    · exact Or.inl he
    · cases hexit

theorem handleReadEvent_exited
    (h : (handleReadEvent ctx sockid reads writes).outcome = .exited) :
    Fatal ctx.errno reads writes := by
  by_cases hdone : (readLoop [] ctx.errno reads).ending = .done
  · obtain ⟨hwhole, hreq⟩ := readLoop_done reads hdone
    simp only [handleReadEvent, if_pos hdone, hreq] at h
    rcases answerPacket_exited _ _ _ _ h with hfail | hvalid
    · exact Or.inr (Or.inl hfail)
    · exact Or.inr (Or.inr ⟨hwhole, hvalid⟩)
  · simp only [handleReadEvent, if_neg hdone] at h
    have hend := leave_exited h
    obtain ⟨e, he, hf⟩ := (@readLoop_spec reads [] ctx.errno (by decide)).failed hdone
      (by rw [hend]; decide)
    rw [hend] at hf
    rcases readFailed_eq_some hf with ⟨hconn, -⟩ | ⟨-, hne⟩
    · cases hconn
    · exact Or.inl ⟨e, he, hne⟩

end HandleReadEvent

end KvServer.Mtcp
