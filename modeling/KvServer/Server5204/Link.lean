import KvServer.Base.Transfer
import KvServer.Server5204.Buffer

/-!
# Links

A `Link` is a connection: a socket, an error flag, and the queue of responses to
be sent.  `msg_read` reads what the socket has into a fresh buffer, and
`msg_write` writes one buffer to the socket.  Both go on after `EINTR` and stop at
`EWOULDBLOCK`.  `msg_read` gives the buffer up at the end of the stream and at any
other error, also when it has read bytes before, and `msg_write` returns -1 at any
other error.

A link also carries a record of what happened on it, which no code reads.
-/

namespace KvServer.Server5204

open Transfer

/-- What happened on a link: the answers of each call of `msg_read` and `msg_write`,
the requests handed to the packet processor, the bytes queued in response buffers
and the bytes the socket took. -/
structure LinkLog where
  reads : List (List (ReadAnswer Byte))
  windows : List SendMessage
  queued : List Byte
  writes : List (List WriteAnswer)
  wire : List Byte

/-- `class Link`.  `input` and `output` are the two buffers the server does not use. -/
structure Link where
  sock : Nat
  noblock_ : Bool
  error_ : Bool
  input : Nat
  output : Nat
  omsg_q : List Buffer
  log : LinkLog

/-- The socket has failed: end of stream, or an error other than the two that are
tried again. -/
def Genuine (errno : Errno) : Prop := errno ≠ EINTR ∧ errno ≠ EWOULDBLOCK

instance (errno : Errno) : Decidable (Genuine errno) := inferInstanceAs (Decidable (_ ∧ _))

/-- A read found the end of the stream or a genuine error. -/
def ReadFailed (reads : List (ReadAnswer Byte)) : Prop :=
  .data [] ∈ reads ∨ ∃ e, .fail e ∈ reads ∧ Genuine e

/-- A write found a genuine error. -/
def WriteFailed (writes : List WriteAnswer) : Prop := ∃ e, .fail e ∈ writes ∧ Genuine e

theorem not_readFailed_nil : ¬ ReadFailed [] := by
  rintro (h | ⟨e, h, -⟩) <;> cases h

/-- Bytes are no failure. -/
theorem readFailed_data {b : Byte} {bytes : List Byte} {rest : List (ReadAnswer Byte)} :
    ReadFailed (.data (b :: bytes) :: rest) ↔ ReadFailed rest := by
  simp [ReadFailed]

/-- An error that is tried again is no failure. -/
theorem readFailed_again {e : Errno} (he : ¬ Genuine e) {rest : List (ReadAnswer Byte)} :
    ReadFailed (.fail e :: rest) ↔ ReadFailed rest := by
  constructor
  · rintro (h | ⟨e', h, hg⟩)
    · cases h with
      | tail _ h => exact Or.inl h
    · cases h with
      | head => exact absurd hg he
      | tail _ h => exact Or.inr ⟨e', h, hg⟩
  · rintro (h | ⟨e', h, hg⟩)
    · exact Or.inl (List.mem_cons_of_mem _ h)
    · exact Or.inr ⟨e', List.mem_cons_of_mem _ h, hg⟩

instance decidableReadFailed : DecidablePred ReadFailed
  | [] => isFalse not_readFailed_nil
  | .data [] :: _ => isTrue (Or.inl List.mem_cons_self)
  | .data (_ :: _) :: rest =>
      @decidable_of_iff _ _ readFailed_data.symm (decidableReadFailed rest)
  | .fail e :: rest =>
      if h : Genuine e then isTrue (Or.inr ⟨e, List.mem_cons_self, h⟩)
      else @decidable_of_iff _ _ (readFailed_again h).symm (decidableReadFailed rest)

theorem not_writeFailed_nil : ¬ WriteFailed [] := by
  rintro ⟨e, h, -⟩
  cases h

theorem writeFailed_count {n : Nat} {rest : List WriteAnswer} :
    WriteFailed (.count n :: rest) ↔ WriteFailed rest := by
  simp [WriteFailed]

theorem writeFailed_again {e : Errno} (he : ¬ Genuine e) {rest : List WriteAnswer} :
    WriteFailed (.fail e :: rest) ↔ WriteFailed rest := by
  constructor
  · rintro ⟨e', h, hg⟩
    cases h with
    | head => exact absurd hg he
    | tail _ h => exact ⟨e', h, hg⟩
  · rintro ⟨e', h, hg⟩
    exact ⟨e', List.mem_cons_of_mem _ h, hg⟩

instance decidableWriteFailed : DecidablePred WriteFailed
  | [] => isFalse not_writeFailed_nil
  | .count _ :: rest => @decidable_of_iff _ _ writeFailed_count.symm (decidableWriteFailed rest)
  | .fail e :: rest =>
      if h : Genuine e then isTrue ⟨e, List.mem_cons_self, h⟩
      else @decidable_of_iff _ _ (writeFailed_again h).symm (decidableWriteFailed rest)

/-! ## `msg_read` -/

/-- How `msg_read` ends. -/
inductive ReadEnd where
  /-- It returns the buffer. -/
  | returned
  /-- It returns NULL. -/
  | null
  /-- The next answer has not come. -/
  | waiting
deriving DecidableEq, Repr

/-- Where `msg_read` stands: its buffer and the answers left over. -/
structure MsgRead where
  ending : ReadEnd
  msg : Buffer
  rest : List (ReadAnswer Byte)

/-- `while ((want = msg->space()) > 0)`, entered with space left. -/
def msgReadLoop (noblock_ : Bool) (msg : Buffer) : List (ReadAnswer Byte) → MsgRead
  | [] => ⟨.waiting, msg, []⟩
  | .fail e :: rest =>
      if e = EINTR then msgReadLoop noblock_ msg rest
      else if e = EWOULDBLOCK then ⟨.returned, msg, rest⟩
      else ⟨.null, msg, rest⟩
  | .data [] :: rest => ⟨.null, msg, rest⟩
  | .data (b :: bytes) :: rest =>
      let want := msg.space.toNat
      let msg := msg.recv ((b :: bytes).take want)
      if msg.space ≤ 0 ∨ noblock_ = false then
        ⟨.returned, msg, pushBack ((b :: bytes).drop want) rest⟩
      else msgReadLoop noblock_ msg rest

/-- The buffer `msg_read` starts with. -/
def msgReadBuffer (id : Nat) (buf : Memory Byte) : Buffer :=
  let msg := Buffer.ofTotal id buf INIT_BUFFER_SIZE
  let msg := if msg.total = INIT_BUFFER_SIZE then msg.grow else msg
  msg.nice

/-- `Link::msg_read`. -/
def msgRead (noblock_ : Bool) (id : Nat) (buf : Memory Byte) (reads : List (ReadAnswer Byte)) :
    MsgRead :=
  msgReadLoop noblock_ (msgReadBuffer id buf) reads

/-- What `msg_read` promises: it keeps the bytes in order, and gives the buffer up
exactly when the socket has failed. -/
structure MsgRead.Spec (msg : Buffer) (reads : List (ReadAnswer Byte)) (r : MsgRead) : Prop where
  bytes : r.msg.content ++ received r.rest = msg.content ++ received reads
  fits : r.msg.Fits
  total : r.msg.total = msg.total
  null : r.ending = .null → ReadFailed reads
  failed : ReadFailed reads → r.rest = [] → r.ending = .null

/-- What fits of a burst goes into the buffer. -/
theorem recv_take_fits {msg : Buffer} (hfits : msg.Fits) (hspace : 0 < msg.space)
    (bytes : List Byte) : (msg.recv (bytes.take msg.space.toNat)).Fits := by
  refine hfits.recv ?_
  rw [List.length_take]
  omega

theorem msgReadLoop_spec {noblock_ : Bool} {reads : List (ReadAnswer Byte)} :
    ∀ {msg : Buffer}, msg.Fits → 0 < msg.space →
      (msgReadLoop noblock_ msg reads).Spec msg reads := by
  induction reads with
  | nil =>
      intro msg hfits _
      exact ⟨rfl, hfits, rfl, fun h => (by cases h), fun h => absurd h not_readFailed_nil⟩
  | cons a rest ih =>
      intro msg hfits hspace
      rcases a with bytes | e
      · cases bytes with
        | nil => exact ⟨rfl, hfits, rfl, fun _ => Or.inl List.mem_cons_self, fun _ _ => rfl⟩
        | cons b bytes =>
            have hrecv := recv_take_fits hfits hspace (b :: bytes)
            have hcontent := Buffer.content_recv hfits ((b :: bytes).take msg.space.toNat)
            simp only [msgReadLoop]
            split
            · -- the buffer is full, or the loop runs once
              refine ⟨?_, hrecv, rfl, fun h => (by cases h), fun hf hrest => ?_⟩
              · rw [hcontent, received_pushBack, List.append_assoc,
                  ← List.append_assoc (List.take _ _), List.take_append_drop, received_data]
              · have hnil := (pushBack_eq_nil hrest).2
                rw [readFailed_data, hnil] at hf
                exact absurd hf not_readFailed_nil
            · next hmore =>
                -- space is left, so the whole burst went in
                have hspace' : 0 < (msg.recv ((b :: bytes).take msg.space.toNat)).space := by
                  omega
                have htake : (b :: bytes).take msg.space.toNat = b :: bytes := by
                  refine List.take_of_length_le ?_
                  rw [Buffer.space_recv, List.length_take] at hspace'
                  omega
                obtain ⟨hbytes, hfits', htotal, hnull, hfailed⟩ := ih hrecv hspace'
                refine ⟨?_, hfits', htotal, fun h => readFailed_data.mpr (hnull h),
                  fun h => hfailed (readFailed_data.mp h)⟩
                rw [hbytes, hcontent, htake, received_data, List.append_assoc]
      · simp only [msgReadLoop]
        split
        · next hintr =>
            have hagain : ¬ Genuine e := fun hg => hg.1 hintr
            obtain ⟨hbytes, hfits', htotal, hnull, hfailed⟩ := ih hfits hspace
            exact ⟨hbytes, hfits', htotal, fun h => (readFailed_again hagain).mpr (hnull h),
              fun h => hfailed ((readFailed_again hagain).mp h)⟩
        · next hintr =>
            split
            · next hblock =>
                have hagain : ¬ Genuine e := fun hg => hg.2 hblock
                refine ⟨rfl, hfits, rfl, fun h => (by cases h), fun hf hrest => ?_⟩
                have hnil : rest = [] := hrest
                rw [readFailed_again hagain, hnil] at hf
                exact absurd hf not_readFailed_nil
            · next hblock =>
                exact ⟨rfl, hfits, rfl, fun _ => Or.inr ⟨e, List.mem_cons_self, hintr, hblock⟩,
                  fun _ _ => rfl⟩

/-- `msg_read` hands over what was read, at most 8192 bytes, unless the socket has
failed. -/
theorem msgRead_spec (noblock_ : Bool) (id : Nat) (buf : Memory Byte)
    (reads : List (ReadAnswer Byte)) :
    (msgRead noblock_ id buf reads).Spec ⟨id, buf, 0, 0, 8192⟩ reads :=
  msgReadLoop_spec ⟨Int.le_refl 0, Int.le_refl 0, show (0 : Int) + 0 ≤ 8192 by decide⟩
    (show (0 : Int) < 8192 - 0 - 0 by decide)

/-! ## `msg_write` -/

/-- Where `msg_write` stands: the value it returns if it has returned, its buffer,
what the socket took, and the answers left over. -/
structure MsgWrite where
  len : Option Int
  smsg : Buffer
  wire : List Byte
  rest : List WriteAnswer

/-- `while ((want = smsg->size()) > 0)`, entered with bytes left. -/
def msgWriteLoop (noblock_ : Bool) (smsg : Buffer) (ret : Int) (wire : List Byte) :
    List WriteAnswer → MsgWrite
  | [] => ⟨none, smsg, wire, []⟩
  | .fail e :: rest =>
      if e = EINTR then msgWriteLoop noblock_ smsg ret wire rest
      else if e = EWOULDBLOCK then ⟨some ret, smsg.nice, wire, rest⟩
      else ⟨some (-1), smsg, wire, rest⟩
  | .count 0 :: rest => ⟨some ret, smsg.nice, wire, rest⟩
  | .count (n + 1) :: rest =>
      let want := smsg.size.toNat
      let len := min (n + 1) want
      let wire := wire ++ smsg.content.take len
      let ret := ret + len
      let smsg := smsg.decr len
      if smsg.size ≤ 0 ∨ noblock_ = false then
        ⟨some ret, smsg.nice, wire, pushBackCount (n + 1 - want) rest⟩
      else msgWriteLoop noblock_ smsg ret wire rest

/-- `Link::msg_write`. -/
def msgWrite (noblock_ : Bool) (smsg : Buffer) (writes : List WriteAnswer) : MsgWrite :=
  let smsg := if smsg.total = INIT_BUFFER_SIZE then smsg.grow else smsg
  if 0 < smsg.size then msgWriteLoop noblock_ smsg 0 [] writes
  else ⟨some 0, smsg.nice, [], writes⟩

/-- What `msg_write` promises: the socket took `sent` off the front, the value
returned is the number of bytes taken, and -1 says that the socket has failed. -/
structure MsgWrite.Spec (smsg : Buffer) (ret : Int) (wire sent : List Byte)
    (writes : List WriteAnswer) (w : MsgWrite) : Prop where
  wire : w.wire = wire ++ sent
  content : sent ++ w.smsg.content = smsg.content
  taken : sent.length + accepted w.rest = accepted writes
  len : ∀ len, w.len = some len → len = ret + sent.length ∨ len = -1 ∧ WriteFailed writes
  failed : WriteFailed writes → w.rest = [] → w.len = some (-1)

/-- One answer in front that is tried again. -/
theorem MsgWrite.Spec.again {smsg : Buffer} {ret : Int} {wire sent : List Byte}
    {writes : List WriteAnswer} {w : MsgWrite} {e : Errno} (he : ¬ Genuine e)
    (h : w.Spec smsg ret wire sent writes) : w.Spec smsg ret wire sent (.fail e :: writes) where
  wire := h.wire
  content := h.content
  taken := h.taken
  len l hl := by
    rw [writeFailed_again he]
    exact h.len l hl
  failed := by
    rw [writeFailed_again he]
    exact h.failed

/-- The loop ends and the socket took nothing more. -/
theorem MsgWrite.Spec.ended {smsg b : Buffer} {ret : Int} {wire : List Byte}
    {writes rest : List WriteAnswer} (hcontent : b.content = smsg.content)
    (htaken : accepted rest = accepted writes) (hfailed : WriteFailed writes → rest ≠ []) :
    MsgWrite.Spec smsg ret wire [] writes ⟨some ret, b, wire, rest⟩ where
  wire := (List.append_nil _).symm
  content := hcontent
  taken := by
    rw [List.length_nil, Nat.zero_add]
    exact htaken
  len l hl := by
    cases hl
    exact Or.inl (by simp)
  failed hf hrest := absurd hrest (hfailed hf)

section Taken

variable {smsg : Buffer} {ret : Int} {wire : List Byte} {rest : List WriteAnswer} {n : Nat}

/-- What the socket takes of the buffer when it takes `n + 1` bytes or all there are. -/
theorem length_take_content (hsize : 0 < smsg.size) :
    (smsg.content.take (min (n + 1) smsg.size.toNat)).length = min (n + 1) smsg.size.toNat := by
  rw [List.length_take, Buffer.length_content]
  omega

theorem take_append_content_decr (hsize : 0 < smsg.size) :
    smsg.content.take (min (n + 1) smsg.size.toNat) ++
      (smsg.decr (min (n + 1) smsg.size.toNat : Nat)).content = smsg.content := by
  have hle : ((min (n + 1) smsg.size.toNat : Nat) : Int) ≤ smsg.size := by omega
  rw [Buffer.content_decr hle, List.take_append_drop]

/-- The socket takes bytes and the loop ends. -/
theorem MsgWrite.Spec.last (hsize : 0 < smsg.size) :
    MsgWrite.Spec smsg ret wire (smsg.content.take (min (n + 1) smsg.size.toNat))
      (.count (n + 1) :: rest)
      ⟨some (ret + (min (n + 1) smsg.size.toNat : Nat)),
        (smsg.decr (min (n + 1) smsg.size.toNat : Nat)).nice,
        wire ++ smsg.content.take (min (n + 1) smsg.size.toNat),
        pushBackCount (n + 1 - smsg.size.toNat) rest⟩ where
  wire := rfl
  content := by
    rw [Buffer.content_nice]
    exact take_append_content_decr hsize
  taken := by
    rw [length_take_content hsize, accepted_pushBackCount, accepted_count]
    omega
  len l hl := by
    cases hl
    exact Or.inl (by rw [length_take_content hsize])
  failed hf hrest := by
    rw [writeFailed_count, pushBackCount_eq_nil hrest] at hf
    exact absurd hf not_writeFailed_nil

/-- The socket takes bytes and the loop goes on.  Bytes are left, so it took all it was offered. -/
theorem MsgWrite.Spec.took {sent : List Byte} {w : MsgWrite} (hsize : 0 < smsg.size)
    (hmore : 0 < (smsg.decr (min (n + 1) smsg.size.toNat : Nat)).size)
    (h : w.Spec (smsg.decr (min (n + 1) smsg.size.toNat : Nat))
      (ret + (min (n + 1) smsg.size.toNat : Nat))
      (wire ++ smsg.content.take (min (n + 1) smsg.size.toNat)) sent rest) :
    w.Spec smsg ret wire (smsg.content.take (min (n + 1) smsg.size.toNat) ++ sent)
      (.count (n + 1) :: rest) where
  wire := by rw [h.wire, List.append_assoc]
  content := by rw [List.append_assoc, h.content, take_append_content_decr hsize]
  taken := by
    rw [Buffer.size_decr] at hmore
    have htaken := h.taken
    rw [List.length_append, length_take_content hsize, accepted_count]
    omega
  len l hl := by
    rcases h.len l hl with hok | ⟨herr, hf⟩
    · refine Or.inl ?_
      rw [hok, List.length_append, length_take_content hsize]
      omega
    · exact Or.inr ⟨herr, writeFailed_count.mpr hf⟩
  failed hf := h.failed (writeFailed_count.mp hf)

end Taken

theorem msgWriteLoop_spec {noblock_ : Bool} {writes : List WriteAnswer} :
    ∀ {smsg : Buffer} {ret : Int} {wire : List Byte}, 0 < smsg.size →
      ∃ sent, (msgWriteLoop noblock_ smsg ret wire writes).Spec smsg ret wire sent writes := by
  induction writes with
  | nil =>
      intro smsg ret wire _
      exact ⟨[], (List.append_nil _).symm, rfl, rfl, fun _ h => (by cases h),
        fun h => absurd h not_writeFailed_nil⟩
  | cons a rest ih =>
      intro smsg ret wire hsize
      rcases a with n | e
      · cases n with
        | zero =>
            refine ⟨[], MsgWrite.Spec.ended (Buffer.content_nice smsg) (Nat.zero_add _).symm ?_⟩
            rintro hf rfl
            exact not_writeFailed_nil (writeFailed_count.mp hf)
        | succ n =>
            simp only [msgWriteLoop]
            split
            · -- the buffer is empty, or the loop runs once
              exact ⟨_, MsgWrite.Spec.last hsize⟩
            · next hmore =>
                have hsize' : 0 < (smsg.decr (min (n + 1) smsg.size.toNat : Nat)).size := by
                  omega
                obtain ⟨sent, hspec⟩ := ih hsize'
                exact ⟨_, hspec.took hsize hsize'⟩
      · simp only [msgWriteLoop]
        split
        · next hintr =>
            obtain ⟨sent, hspec⟩ := @ih smsg ret wire hsize
            exact ⟨sent, hspec.again fun hg => hg.1 hintr⟩
        · next hintr =>
            split
            · next hblock =>
                have hagain : ¬ Genuine e := fun hg => hg.2 hblock
                refine ⟨[], MsgWrite.Spec.ended (Buffer.content_nice smsg) rfl ?_⟩
                rintro hf rfl
                exact not_writeFailed_nil ((writeFailed_again hagain).mp hf)
            · next hblock =>
                have hf : WriteFailed (.fail e :: rest) :=
                  ⟨e, List.mem_cons_self, hintr, hblock⟩
                exact ⟨[], (List.append_nil _).symm, rfl, Nat.zero_add _,
                  fun _ h => Or.inr ⟨by cases h; rfl, hf⟩, fun _ _ => rfl⟩

theorem msgWrite_spec (noblock_ : Bool) (smsg : Buffer) (writes : List WriteAnswer) :
    ∃ sent, (msgWrite noblock_ smsg writes).Spec smsg 0 [] sent writes := by
  obtain ⟨b, hb, hcontent, hsize⟩ : ∃ b, (if smsg.total = INIT_BUFFER_SIZE then smsg.grow
      else smsg) = b ∧ b.content = smsg.content ∧ b.size = smsg.size := by
    split
    · exact ⟨_, rfl, rfl, rfl⟩
    · exact ⟨_, rfl, rfl, rfl⟩
  simp only [msgWrite, hb]
  split
  · next hpos =>
      obtain ⟨sent, hspec⟩ := @msgWriteLoop_spec noblock_ writes b 0 [] hpos
      exact ⟨sent, hspec.wire, hspec.content.trans hcontent, hspec.taken, hspec.len, hspec.failed⟩
  · -- an empty buffer is not written at all
    refine ⟨[], rfl, ?_, Nat.zero_add _, fun _ h => ?_, fun hf hrest => ?_⟩
    · rw [← hcontent]
      exact Buffer.content_nice b
    · cases h
      exact Or.inl rfl
    · have hnil : writes = [] := hrest
      rw [hnil] at hf
      exact absurd hf not_writeFailed_nil

/-- A call that used up its answers wrote as many bytes as they say. -/
theorem MsgWrite.Spec.length_wire {smsg : Buffer} {writes : List WriteAnswer} {w : MsgWrite}
    (h : w.Spec smsg 0 [] w.wire writes) (hrest : w.rest = []) :
    w.wire.length = accepted writes := by
  have htaken := h.taken
  rw [hrest, accepted_nil, Nat.add_zero] at htaken
  exact htaken

/-- The value returned is positive if the socket took bytes and did not fail. -/
theorem MsgWrite.Spec.len_pos_iff {smsg : Buffer} {writes : List WriteAnswer} {w : MsgWrite}
    {len : Int} (h : w.Spec smsg 0 [] w.wire writes) (hlen : w.len = some len)
    (hrest : w.rest = []) : 0 < len ↔ ¬ WriteFailed writes ∧ 0 < accepted writes := by
  rw [← h.length_wire hrest]
  constructor
  · intro hpos
    have hopen : ¬ WriteFailed writes := by
      intro hf
      cases hlen.symm.trans (h.failed hf hrest)
      omega
    rcases h.len len hlen with heq | ⟨-, hf⟩
    · exact ⟨hopen, by omega⟩
    · exact absurd hf hopen
  · rintro ⟨hopen, hpos⟩
    rcases h.len len hlen with heq | ⟨-, hf⟩
    · omega
    · exact absurd hf hopen

end KvServer.Server5204
