import KvServer.Server5204.Server

/-!
# What a step of the server does

The loop of `req_recv` rewrites the messages of its buffer in place, and none of
them overlap, so it does to the store what the list of messages read beforehand
does (`processMsgs_eq`).  With that every step is described once: which link it
touches and how, and what it does to the subscriptions (`step_cases`).

Most facts about the server are facts about a single link.  `links_invariant`
carries such a fact through a run: it has to hold of a new link and be kept by what
a step does to the link it touches.
-/

namespace KvServer.Server5204

open Transfer

/-! ## Messages in a buffer -/

/-- The first `n` messages in a list of bytes. -/
def cut : Nat → List Byte → List SendMessage
  | 0, _ => []
  | n + 1, bytes =>
      SendMessage.ofBytes (bytes.take KVSTORE_CONTENT_LEN) ::
        cut n (bytes.drop KVSTORE_CONTENT_LEN)

/-- The whole messages in a list of bytes.  What is left over behind them is no
message. -/
def messages (bytes : List Byte) : List SendMessage :=
  cut (bytes.length / KVSTORE_CONTENT_LEN) bytes

@[simp] theorem length_cut (n : Nat) (bytes : List Byte) : (cut n bytes).length = n := by
  induction n generalizing bytes with
  | zero => rfl
  | succ n ih => rw [cut, List.length_cons, ih]

@[simp] theorem length_messages (bytes : List Byte) :
    (messages bytes).length = bytes.length / KVSTORE_CONTENT_LEN :=
  length_cut _ _

theorem cut_bytes_append (m : SendMessage) (n : Nat) (more : List Byte) :
    cut (n + 1) (m.bytes ++ more) = m :: cut n more := by
  rw [cut, ← m.length_bytes, List.take_left, List.drop_left, SendMessage.ofBytes_bytes]

theorem cut_take (n : Nat) (bytes : List Byte) :
    cut n (bytes.take (KVSTORE_CONTENT_LEN * n)) = cut n bytes := by
  induction n generalizing bytes with
  | zero => rfl
  | succ n ih =>
      have hle : KVSTORE_CONTENT_LEN ≤ KVSTORE_CONTENT_LEN * (n + 1) :=
        Nat.le_mul_of_pos_right _ (Nat.succ_pos n)
      rw [cut, cut, List.take_take, Nat.min_eq_left hle, List.drop_take, Nat.mul_succ,
        Nat.add_sub_cancel, ih]

/-- The messages in the bytes of messages are the messages. -/
theorem cut_flatMap (sends : List SendMessage) (more : List Byte) :
    cut sends.length (sends.flatMap SendMessage.bytes ++ more) = sends := by
  induction sends with
  | nil => rfl
  | cons m sends ih =>
      rw [List.length_cons, List.flatMap_cons, List.append_assoc, cut_bytes_append, ih]

theorem length_flatMap_bytes (sends : List SendMessage) :
    (sends.flatMap SendMessage.bytes).length = KVSTORE_CONTENT_LEN * sends.length := by
  induction sends with
  | nil => rfl
  | cons m sends ih =>
      rw [List.flatMap_cons, List.length_append, ih, SendMessage.length_bytes, List.length_cons,
        Nat.mul_succ, Nat.add_comm]

variable {σ : Type}

/-! ## The loop over the messages -/

section Process

variable [CuckoohashMap σ Key Value]

/-- The loop of `req_recv` on a list of messages. -/
def processList (store : σ) : List SendMessage → Processed σ
  | [] => ⟨[], store, false⟩
  | send :: sends =>
      match kvstoreProcessPacket store send with
      | none => ⟨[send], store, true⟩
      | some (_, _, store) =>
          let r := processList store sends
          { r with windows := send :: r.windows }

/-- A message rewritten in place is not among those still to be read. -/
theorem processMsgs_eq (store : σ) (mem : Memory Byte) (p : Int) (n : Nat) :
    processMsgs store mem p n =
      processList store (cut n (mem.slice p (KVSTORE_CONTENT_LEN * n))) := by
  induction n generalizing store mem p with
  | zero => rfl
  | succ n ih =>
      have htake : (mem.slice p (KVSTORE_CONTENT_LEN * (n + 1))).take KVSTORE_CONTENT_LEN =
          mem.slice p KVSTORE_CONTENT_LEN :=
        Memory.take_slice mem p (Nat.le_mul_of_pos_right _ (Nat.succ_pos n))
      have hdrop : (mem.slice p (KVSTORE_CONTENT_LEN * (n + 1))).drop KVSTORE_CONTENT_LEN =
          mem.slice (p + KVSTORE_CONTENT_LEN) (KVSTORE_CONTENT_LEN * n) := by
        rw [Memory.drop_slice mem p (Nat.le_mul_of_pos_right _ (Nat.succ_pos n)), Nat.mul_succ,
          Nat.add_sub_cancel]
      rw [processMsgs, cut, htake, hdrop, processList]
      rcases kvstoreProcessPacket store _ with - | ⟨result, buf, store'⟩
      · rfl
      · simp only
        rw [ih, Memory.slice_blit_of_ge (by rw [SendMessage.length_bytes])]

/-- What the loop over a list of messages did. -/
structure Processed.Spec (store : σ) (sends : List SendMessage) (p : Processed σ) : Prop where
  windows : p.windows <+: sends
  finished : p.exited = false → p.windows = sends ∧
    ∃ replies, processPackets store sends = some (replies, p.store)
  exited : p.exited = true → ∃ w ∈ p.windows, ¬ w.Valid

theorem processList_spec (store : σ) (sends : List SendMessage) :
    (processList store sends).Spec store sends := by
  induction sends generalizing store with
  | nil => exact ⟨List.prefix_refl _, fun _ => ⟨rfl, [], rfl⟩, fun h => by cases h⟩
  | cons send sends ih =>
      rcases hp : kvstoreProcessPacket store send with - | ⟨result, buf, store'⟩
      · simp only [processList, hp]
        refine ⟨⟨sends, rfl⟩, fun h => (by cases h), fun _ => ⟨send, List.mem_cons_self, ?_⟩⟩
        rw [SendMessage.Valid, Option.map_eq_none_iff.mp hp]
        exact Bool.false_ne_true
      · simp only [processList, hp]
        obtain ⟨hpre, hfin, hexit⟩ := ih store'
        refine ⟨List.cons_prefix_cons.mpr ⟨rfl, hpre⟩, fun h => ?_, fun h => ?_⟩
        · obtain ⟨hall, replies, hrun⟩ := hfin h
          refine ⟨by rw [hall], buf.toResponse :: replies, ?_⟩
          refine (storeMachine σ).serve_cons ?_ hrun
          show processStep store send = _
          rw [processStep, hp]
          rfl
        · obtain ⟨w, hw, hbad⟩ := hexit h
          exact ⟨w, List.mem_cons_of_mem _ hw, hbad⟩

/-! ## What `req_recv` reads -/

theorem processBuffer_eq (store : σ) (msg : Buffer) :
    processBuffer store msg = processList store (cut (numMsgs msg) msg.content) := by
  have hle : KVSTORE_CONTENT_LEN * numMsgs msg ≤ msg.size.toNat :=
    (Nat.mul_le_mul_left _ (Nat.mod_le _ _)).trans (Nat.mul_div_le _ _)
  rw [processBuffer, processMsgs_eq, ← Memory.take_slice _ _ hle, cut_take]
  rfl

section MsgRead

variable {noblock_ : Bool} {id : Nat} {buf : Memory Byte} {reads : List (ReadAnswer Byte)}

/-- A call that used up its answers has all their bytes in its buffer. -/
theorem msgRead_content (h : (msgRead noblock_ id buf reads).rest = []) :
    (msgRead noblock_ id buf reads).msg.content = received reads := by
  have hbytes := (msgRead_spec noblock_ id buf reads).bytes
  rw [h, received_nil, List.append_nil] at hbytes
  exact hbytes

/-- 16 bits are enough for the number of messages. -/
theorem msgRead_numMsgs (h : (msgRead noblock_ id buf reads).rest = []) :
    numMsgs (msgRead noblock_ id buf reads).msg =
      (received reads).length / KVSTORE_CONTENT_LEN := by
  have hspec := msgRead_spec noblock_ id buf reads
  have hlen := Buffer.length_content (msgRead noblock_ id buf reads).msg
  rw [msgRead_content h] at hlen
  have htotal : (msgRead noblock_ id buf reads).msg.total = 8192 := hspec.total
  have hsize : (msgRead noblock_ id buf reads).msg.size.toNat ≤ 8192 := by
    have hd := hspec.fits.data
    have ht := hspec.fits.total
    omega
  rw [numMsgs, hlen, Nat.mod_eq_of_lt]
  exact (Nat.div_le_self _ _).trans_lt (by omega)

theorem msgRead_process (store : σ) (h : (msgRead noblock_ id buf reads).rest = []) :
    processBuffer store (msgRead noblock_ id buf reads).msg =
      processList store (messages (received reads)) := by
  rw [processBuffer_eq, msgRead_content h, msgRead_numMsgs h, messages]

end MsgRead

end Process

/-! ## Steps -/

/-- The link that taking up the next ready descriptor reads from. -/
def reading (s : NetworkServer σ) : Option (Nat × Link) :=
  s.ready.head?.bind fun fd =>
    let fde := s.fdes.entry fd
    if fde.ptr = some 0 ∨ .IN ∉ fde.events then none else working s fde

/-- The link and the response buffer that taking up the next ready descriptor
sends. -/
def sending (s : NetworkServer σ) : Option (Nat × Link × Buffer) :=
  s.ready.head?.bind fun fd =>
    let fde := s.fdes.entry fd
    if fde.ptr = some 0 ∨ .IN ∈ fde.events ∨ .OUT ∉ fde.events then none
    else (working s fde).bind fun (i, conn) => conn.omsg_q.head?.map fun smsg => (i, conn, smsg)

/-- The steps of the server, one constructor for each. -/
inductive NetworkServer.Step (s : NetworkServer σ) : Event → NetworkServer σ → Prop where
  | wait {ready : List EpollReady} :
      s.ready = [] → (ready.map EpollReady.fd).Nodup →
      (∀ r ∈ ready, reported s.fdes.epoll r = true) →
      Step s (.wait ready) { s with fdes := s.fdes.wait ready, ready := ready.map EpollReady.fd }
  | waitFailed : Step s .waitFailed { s with status := .returned }
  | idle {io : Io} {fd : Nat} {ready : List Nat} :
      s.ready = fd :: ready → reading s = none → sending s = none →
      Step s (.handle io) { s with ready := ready }
  | accepted {io : Io} {fd new : Nat} {ready : List Nat} :
      s.ready = fd :: ready → new ∉ s.openFds → reading s = none → sending s = none →
      Step s (.handle io) { s with
        ready := ready
        links := s.links ++ [Link.ofSocket new s.heap.new.1 s.heap.new.2.new.1 true]
        heap := s.heap.new.2.new.2
        openFds := insert new s.openFds
        conn_count := s.conn_count + 1
        fdes := (s.fdes.set io.ctl new .IN 1 (some s.links.length)).2 }
  | readNull {io : Io} {fd i : Nat} {conn : Link} {ready : List Nat} :
      s.ready = fd :: ready → reading s = some (i, conn) → i ≠ 0 →
      s.links[i]? = some conn → conn.error_ = false → ReadFailed io.reads →
      Step s (.handle io) { s with
        ready := ready
        links := s.links.set i (conn.readNull io.reads)
        heap := s.heap.new.2
        fdes := (s.fdes.del io.ctl conn.sock).2 }
  | readExit {io : Io} {fd i : Nat} {conn : Link} {ready : List Nat} {store : σ}
      {windows : List SendMessage} :
      s.ready = fd :: ready → reading s = some (i, conn) → i ≠ 0 →
      s.links[i]? = some conn → conn.error_ = false → ¬ ReadFailed io.reads →
      windows <+: messages (received io.reads) → (∃ w ∈ windows, ¬ w.Valid) →
      Step s (.handle io) { s with
        ready := ready
        links := s.links.set i (conn.readMsgs io.reads windows)
        heap := s.heap.new.2
        store := store
        status := .exited }
  | readMsgs {io : Io} {fd i : Nat} {conn : Link} {ready : List Nat} {store : σ}
      {rsp : Buffer} :
      s.ready = fd :: ready → reading s = some (i, conn) → i ≠ 0 →
      s.links[i]? = some conn → conn.error_ = false → ¬ ReadFailed io.reads →
      rsp.id = s.heap.new.2.new.1 →
      rsp.content.length = KVSTORE_CONTENT_LEN * (messages (received io.reads)).length →
      Step s (.handle io) { s with
        ready := ready
        links := s.links.set i
          ((conn.readMsgs io.reads (messages (received io.reads))).push rsp)
        heap := s.heap.new.2.new.2
        store := store
        fdes := (s.fdes.set io.ctl conn.sock .OUT 1 (some i)).2 }
  | sendEmpty {io : Io} {fd i : Nat} {conn : Link} {ready : List Nat} :
      s.ready = fd :: ready → (s.fdes.entry fd).ptr = some i → i ≠ 0 →
      s.links[i]? = some conn → conn.error_ = false → conn.omsg_q = [] →
      reading s = none → sending s = none →
      Step s (.handle io) { s with
        ready := ready
        fdes := (s.fdes.clr io.ctl conn.sock .OUT).2 }
  | sent {io : Io} {fd i : Nat} {conn : Link} {ready : List Nat} {smsg : Buffer}
      {omsg_q : List Buffer} {len : Int} {w : MsgWrite} :
      s.ready = fd :: ready → sending s = some (i, conn, smsg) → i ≠ 0 →
      s.links[i]? = some conn → conn.error_ = false → conn.omsg_q = smsg :: omsg_q →
      w.Spec smsg 0 [] w.wire io.writes → w.len = some len → w.rest = [] →
      Step s (.handle io) { s with
        ready := ready
        links := s.links.set i (conn.sent omsg_q io.writes len w.wire)
        heap := s.heap.delete smsg.id }

/-- What is reported is registered. -/
theorem reported_registered {epoll : Nat → Option (Finset Flag)} {r : EpollReady}
    (h : reported epoll r = true) : epoll r.fd ≠ none := by
  intro hnone
  rw [reported, hnone] at h
  cases h

theorem working_eq_some {s : NetworkServer σ} {fde : Fdevent} {i : Nat} {conn : Link}
    (h : working s fde = some (i, conn)) :
    fde.ptr = some i ∧ s.links[i]? = some conn ∧ conn.error_ = false := by
  unfold working at h
  obtain ⟨j, hptr, hj⟩ := Option.bind_eq_some_iff.mp h
  obtain ⟨c, hlink, hc⟩ := Option.bind_eq_some_iff.mp hj
  split at hc
  · cases hc
  · next herr =>
      cases hc
      exact ⟨hptr, hlink, by simpa using herr⟩

/-- Reading is decided by the head of the ready events. -/
theorem reading_eq_some {s : NetworkServer σ} {fd i : Nat} {ready : List Nat} {conn : Link}
    (hready : s.ready = fd :: ready) (h : reading s = some (i, conn)) :
    (s.fdes.entry fd).ptr = some i := by
  simp only [reading, hready, List.head?_cons, Option.bind_some] at h
  split at h
  · cases h
  · exact (working_eq_some h).1

/-- A step that reads does not send. -/
theorem sending_eq_none {s : NetworkServer σ} {x : Nat × Link} (h : reading s = some x) :
    sending s = none := by
  obtain ⟨fd, hfd, hread⟩ := Option.bind_eq_some_iff.mp h
  rw [sending, hfd, Option.bind_some]
  refine if_pos ?_
  by_contra hno
  simp only [not_or] at hno
  rw [if_pos (Or.inr hno.2.1)] at hread
  cases hread

/-- A step that sends does not read. -/
theorem reading_eq_none {s : NetworkServer σ} {x : Nat × Link × Buffer}
    (h : sending s = some x) : reading s = none := by
  rcases hread : reading s with - | y
  · rfl
  · rw [sending_eq_none hread] at h
    cases h

/-- Sending is decided by the head of the ready events. -/
theorem sending_eq_some {s : NetworkServer σ} {fd i : Nat} {ready : List Nat} {conn : Link}
    {smsg : Buffer} (hready : s.ready = fd :: ready) (h : sending s = some (i, conn, smsg)) :
    (s.fdes.entry fd).ptr = some i := by
  simp only [sending, hready, List.head?_cons, Option.bind_some] at h
  split at h
  · cases h
  · obtain ⟨⟨j, c⟩, hwork, hmap⟩ := Option.bind_eq_some_iff.mp h
    obtain ⟨b, -, heq⟩ := Option.map_eq_some_iff.mp hmap
    cases heq
    exact (working_eq_some hwork).1

theorem rspSend_cases {s t : NetworkServer σ} {fd i : Nat} {ready : List Nat} {conn : Link}
    {io : Io} (hready : s.ready = fd :: ready) (hptr : (s.fdes.entry fd).ptr = some i)
    (hi : i ≠ 0) (hin : .IN ∉ (s.fdes.entry fd).events) (hout : .OUT ∈ (s.fdes.entry fd).events)
    (hwork : working s (s.fdes.entry fd) = some (i, conn))
    (h : rspSend { s with ready := ready } i conn io = some t) : s.Step (.handle io) t := by
  obtain ⟨-, hconn, herr⟩ := working_eq_some hwork
  simp only [rspSend] at h
  split at h
  · next hq =>
      cases h
      refine .sendEmpty hready hptr hi hconn herr hq ?_ ?_
      · simp [reading, hready, hin]
      · simp [sending, hready, hwork, hq]
  · next smsg omsg_q hq =>
      split at h
      · next len hlen hrest =>
          cases h
          obtain ⟨sent, hspec⟩ := msgWrite_spec conn.noblock_ smsg io.writes
          have hwire : (msgWrite conn.noblock_ smsg io.writes).wire = sent := hspec.wire
          rw [← hwire] at hspec
          refine .sent hready ?_ hi hconn herr hq hspec hlen hrest
          have hptr0 : (s.fdes.entry fd).ptr ≠ some 0 := by
            rw [hptr]
            exact fun h0 => hi (Option.some.inj h0)
          simp [sending, hready, hptr0, hin, hout, hwork, hq]
      · cases h

section Cases

variable [CuckoohashMap σ Key Value]

theorem answerMsgs_cases {s : NetworkServer σ} {fd i : Nat} {ready : List Nat}
    {conn : Link} {io : Io} {msg : Buffer} (hready : s.ready = fd :: ready)
    (hread : reading s = some (i, conn)) (hi : i ≠ 0) (hconn : s.links[i]? = some conn)
    (herr : conn.error_ = false) (hopen : ¬ ReadFailed io.reads)
    (hp : (processBuffer s.store msg).Spec s.store (messages (received io.reads)))
    (hnum : numMsgs msg = (messages (received io.reads)).length) :
    s.Step (.handle io)
      (answerMsgs { s with ready := ready, heap := s.heap.new.2 } i conn io msg) := by
  by_cases hexit : (processBuffer s.store msg).exited = true
  · simp only [answerMsgs, if_pos hexit]
    exact .readExit hready hread hi hconn herr hopen hp.windows (hp.exited hexit)
  · obtain ⟨hwindows, -⟩ := hp.finished (by simpa using hexit)
    simp only [answerMsgs, if_neg hexit, hwindows]
    refine .readMsgs hready hread hi hconn herr hopen rfl ?_
    rw [responseBuffer, Buffer.content_ofPtr, Memory.length_slice, hnum]
    omega

theorem reqRecv_cases {s t : NetworkServer σ} {fd i : Nat} {ready : List Nat} {conn : Link}
    {io : Io} (hready : s.ready = fd :: ready) (hread : reading s = some (i, conn))
    (hi : i ≠ 0) (hconn : s.links[i]? = some conn) (herr : conn.error_ = false)
    (h : reqRecv { s with ready := ready } i conn io = some t) : s.Step (.handle io) t := by
  have hspec := msgRead_spec conn.noblock_ s.heap.next io.buf io.reads
  simp only [reqRecv] at h
  split at h
  · -- `msg_read` returned NULL
    next hend hrest =>
      cases h
      exact .readNull hready hread hi hconn herr (hspec.null hend)
  · next hend hrest =>
      cases h
      have hopen : ¬ ReadFailed io.reads := by
        intro hf
        cases hend.symm.trans (hspec.failed hf hrest)
      refine answerMsgs_cases hready hread hi hconn herr hopen ?_ ?_
      · rw [show processBuffer s.store _ = _ from msgRead_process s.store hrest]
        exact processList_spec _ _
      · rw [length_messages]
        exact msgRead_numMsgs hrest
  · cases h

theorem handle_cases {s t : NetworkServer σ} {fd : Nat} {ready : List Nat} {io : Io}
    (hready : s.ready = fd :: ready) (h : handle { s with ready := ready } fd io = some t) :
    s.Step (.handle io) t := by
  simp only [handle] at h
  split at h
  · -- `client_conn`
    next hptr0 =>
      have hread : reading s = none := by simp [reading, hready, hptr0]
      have hsend : sending s = none := by simp [sending, hready, hptr0]
      simp only [acceptConn] at h
      split at h
      · cases h
      · cases h
        exact .idle hready hread hsend
      · split at h
        · cases h
        · next hnew =>
            cases h
            exact .accepted hready hnew hread hsend
  · next hptr0 =>
      have hi : ∀ {i conn}, working s (s.fdes.entry fd) = some (i, conn) → i ≠ 0 := by
        rintro i conn hwork rfl
        exact hptr0 (working_eq_some hwork).1
      split at h
      · -- readable
        next hin =>
          simp only [recv] at h
          split at h
          · next hwork =>
              cases h
              have hwork' : working s (s.fdes.entry fd) = none := hwork
              refine .idle hready ?_ ?_
              · simp [reading, hready, hwork']
              · simp [sending, hready, hin]
          · next i conn hwork =>
              obtain ⟨hptr, hconn, herr⟩ := working_eq_some hwork
              have hwork' : working s (s.fdes.entry fd) = some (i, conn) := hwork
              have hread : reading s = some (i, conn) := by
                simp [reading, hready, hptr0, hin, hwork']
              exact reqRecv_cases hready hread (hi hwork) hconn herr h
      · next hin =>
          split at h
          · -- writable
            next hout =>
              simp only [send] at h
              split at h
              · next hwork =>
                  cases h
                  have hwork' : working s (s.fdes.entry fd) = none := hwork
                  refine .idle hready ?_ ?_
                  · simp [reading, hready, hin]
                  · simp [sending, hready, hwork']
              · next i conn hwork =>
                  exact rspSend_cases hready (working_eq_some hwork).1 (hi hwork) hin hout hwork h
          · next hout =>
              cases h
              refine .idle hready ?_ ?_
              · simp [reading, hready, hin]
              · simp [sending, hready, hout]

/-- What a step can do. -/
theorem NetworkServer.step_cases {s t : NetworkServer σ} {e : Event} (h : s.step e = some t) :
    s.Step e t := by
  cases e with
  | wait ready =>
      simp only [NetworkServer.step] at h
      split at h
      · next hguard =>
          cases h
          exact .wait hguard.2.1 hguard.2.2.1 (List.all_eq_true.mp hguard.2.2.2)
      · cases h
  | waitFailed =>
      simp only [NetworkServer.step] at h
      split at h
      · cases h; exact .waitFailed
      · cases h
  | handle io =>
      simp only [NetworkServer.step] at h
      split at h
      · split at h
        · cases h
        · next fd ready hready => exact handle_cases hready h
      · cases h

end Cases

/-! ## Facts about single links -/

/-- What a step may do to the link it touches.  `front` is the response buffer that is
being sent, if one is. -/
inductive Link.Step (io : Io) (front : Option Buffer) (conn : Link) : Link → Prop where
  | readNull : ReadFailed io.reads → Step io front conn (conn.readNull io.reads)
  | readExit {windows : List SendMessage} :
      ¬ ReadFailed io.reads → windows <+: messages (received io.reads) →
      (∃ w ∈ windows, ¬ w.Valid) → Step io front conn (conn.readMsgs io.reads windows)
  | readMsgs {rsp : Buffer} :
      ¬ ReadFailed io.reads →
      rsp.content.length = KVSTORE_CONTENT_LEN * (messages (received io.reads)).length →
      Step io front conn ((conn.readMsgs io.reads (messages (received io.reads))).push rsp)
  | sent {smsg : Buffer} {omsg_q : List Buffer} {len : Int} {w : MsgWrite} :
      front = some smsg → conn.omsg_q = smsg :: omsg_q →
      w.Spec smsg 0 [] w.wire io.writes → w.len = some len → w.rest = [] →
      Step io front conn (conn.sent omsg_q io.writes len w.wire)

/-- The response buffer that is being sent. -/
def front (s : NetworkServer σ) : Option Buffer := (sending s).map fun x => x.2.2

/-- A link that is changed keeps its socket. -/
theorem map_sock_set {links : List Link} {i : Nat} {conn conn' : Link}
    (hconn : links[i]? = some conn) (hsock : conn'.sock = conn.sock) :
    (links.set i conn').map Link.sock = links.map Link.sock := by
  have hget : (links.map Link.sock)[i]? = some conn.sock := by
    rw [List.getElem?_map, hconn, Option.map_some]
  obtain ⟨hlen, hval⟩ := List.getElem?_eq_some_iff.mp hget
  rw [List.map_set, hsock, ← hval, List.set_getElem_self]

theorem links_set_self {links : List Link} {i : Nat} {conn : Link} (hconn : links[i]? = some conn) :
    links.set i conn = links := by
  obtain ⟨hlen, rfl⟩ := List.getElem?_eq_some_iff.mp hconn
  exact List.set_getElem_self hlen

/-- Links at different indices have different sockets. -/
theorem sock_ne_of_index_ne {links : List Link} (hnodup : (links.map Link.sock).Nodup)
    {i j : Nat} {conn other : Link} (hconn : links[i]? = some conn)
    (hother : links[j]? = some other) (hij : i ≠ j) : other.sock ≠ conn.sock := by
  intro heq
  have hlen : j < (links.map Link.sock).length := by
    rw [List.length_map]
    exact (List.getElem?_eq_some_iff.mp hother).1
  refine hij ((List.getElem?_inj hlen hnodup).mp ?_).symm
  rw [List.getElem?_map, List.getElem?_map, hother, hconn, Option.map_some, Option.map_some, heq]

theorem map_sock_ofSocket (links : List Link) (new input output : Nat) (noblock_ : Bool) :
    (links ++ [Link.ofSocket new input output noblock_]).map Link.sock =
      links.map Link.sock ++ [new] := by
  rw [List.map_append]
  rfl

/-- The sockets stay different when a link on an unused socket is added. -/
theorem nodup_sock_ofSocket {links : List Link} (hnodup : (links.map Link.sock).Nodup) {new : Nat}
    (hnew : new ∉ links.map Link.sock) (input output : Nat) (noblock_ : Bool) :
    ((links ++ [Link.ofSocket new input output noblock_]).map Link.sock).Nodup := by
  rw [map_sock_ofSocket]
  exact hnodup.append (List.nodup_singleton _) (List.disjoint_singleton.mpr hnew)

/-- What a step is asked for: `R` if it calls `msg_read`, and `W` if it calls
`msg_write`. -/
def OnCalls (R W : Io → Prop) (s : NetworkServer σ) : Event → Prop
  | .handle io => (∀ _conn ∈ reading s, R io) ∧ ∀ _smsg ∈ front s, W io
  | _ => True

instance {R W : Io → Prop} [DecidablePred R] [DecidablePred W] (s : NetworkServer σ) :
    ∀ e, Decidable (OnCalls R W s e)
  | .handle io =>
      inferInstanceAs (Decidable ((∀ _conn ∈ reading s, R io) ∧ ∀ _smsg ∈ front s, W io))
  | .wait _ => inferInstanceAs (Decidable True)
  | .waitFailed => inferInstanceAs (Decidable True)

section OnCalls

variable {R W : Io → Prop} {s : NetworkServer σ} {io : Io}

theorem onCalls_idle (hread : reading s = none) (hsend : sending s = none) :
    OnCalls R W s (.handle io) := by
  simp [OnCalls, front, hread, hsend]

theorem onCalls_reading {x : Nat × Link} (hread : reading s = some x) :
    OnCalls R W s (.handle io) ↔ R io := by
  simp [OnCalls, front, hread, sending_eq_none hread]

theorem onCalls_sending {x : Nat × Link × Buffer} (hsend : sending s = some x) :
    OnCalls R W s (.handle io) ↔ W io := by
  simp [OnCalls, front, hsend, reading_eq_none hsend]

end OnCalls

theorem mem_links_set {links : List Link} {i : Nat} {old new conn : Link}
    (hold : links[i]? = some old) (h : conn ∈ links.set i new) :
    conn ∈ links ∨ old ∈ links ∧ conn = new := by
  rcases List.mem_or_eq_of_mem_set h with hmem | heq
  · exact Or.inl hmem
  · exact Or.inr ⟨List.mem_of_getElem? hold, heq⟩

/-- The links after a step: the old ones, a new one, and the one that was touched. -/
theorem NetworkServer.Step.links {s t : NetworkServer σ} {e : Event} (h : s.Step e t)
    {conn' : Link} (hmem : conn' ∈ t.links) :
    conn' ∈ s.links ∨ (∃ fd input output, conn' = Link.ofSocket fd input output true) ∨
      ∃ io conn, e = .handle io ∧ conn ∈ s.links ∧ conn.error_ = false ∧
        conn.Step io (front s) conn' := by
  have hset : ∀ {io : Io} {i : Nat} {conn new : Link}, s.links[i]? = some conn →
      conn.error_ = false → conn.Step io (front s) new → conn' ∈ s.links.set i new →
      conn' ∈ s.links ∨ (∃ fd input output, conn' = Link.ofSocket fd input output true) ∨
        ∃ io' conn, Event.handle io = .handle io' ∧ conn ∈ s.links ∧ conn.error_ = false ∧
          conn.Step io' (front s) conn' := by
    intro io i conn new hconn herr hstep hset
    rcases mem_links_set hconn hset with hmem | ⟨hmem, rfl⟩
    · exact Or.inl hmem
    · exact Or.inr (Or.inr ⟨io, conn, rfl, hmem, herr, hstep⟩)
  cases h with
  | wait => exact Or.inl hmem
  | waitFailed => exact Or.inl hmem
  | idle => exact Or.inl hmem
  | sendEmpty => exact Or.inl hmem
  | accepted =>
      rcases List.mem_append.mp hmem with hmem | hmem
      · exact Or.inl hmem
      · exact Or.inr (Or.inl ⟨_, _, _, List.mem_singleton.mp hmem⟩)
  | readNull hready hread hi hconn herr hfailed =>
      exact hset hconn herr (.readNull hfailed) hmem
  | readExit hready hread hi hconn herr hopen hpre hbad =>
      exact hset hconn herr (.readExit hopen hpre hbad) hmem
  | readMsgs hready hread hi hconn herr hopen hid hlen =>
      exact hset hconn herr (.readMsgs hopen hlen) hmem
  | @sent io fd i conn ready smsg omsg_q len w hready hsend hi hconn herr hq hspec hlen hrest =>
      have hfront : front s = some smsg := by
        rw [front, hsend]
        rfl
      exact hset hconn herr (.sent hfront hq hspec hlen hrest) hmem

/-- The link whose response buffer is sent, before the step and after it. -/
theorem NetworkServer.Step.sends {s t : NetworkServer σ} {io : Io} (h : s.Step (.handle io) t)
    {smsg : Buffer} (hfront : front s = some smsg) :
    ∃ (conn : Link) (omsg_q : List Buffer) (len : Int) (w : MsgWrite), conn ∈ s.links ∧
      conn.error_ = false ∧ conn.omsg_q = smsg :: omsg_q ∧ w.Spec smsg 0 [] w.wire io.writes ∧
      w.len = some len ∧ w.rest = [] ∧ conn.sent omsg_q io.writes len w.wire ∈ t.links := by
  obtain ⟨⟨i, conn, smsg'⟩, hsome, rfl⟩ := Option.map_eq_some_iff.mp hfront
  cases h with
  | idle _ _ hsend => cases hsend.symm.trans hsome
  | accepted _ _ _ hsend => cases hsend.symm.trans hsome
  | sendEmpty _ _ _ _ _ _ _ hsend => cases hsend.symm.trans hsome
  | readNull _ hread => cases (sending_eq_none hread).symm.trans hsome
  | readExit _ hread => cases (sending_eq_none hread).symm.trans hsome
  | readMsgs _ hread => cases (sending_eq_none hread).symm.trans hsome
  | sent hready hsend hi hconn herr hq hspec hlen hrest =>
      cases hsend.symm.trans hsome
      exact ⟨conn, _, _, _, List.mem_of_getElem? hconn, herr, hq, hspec, hlen, hrest,
        List.mem_set (List.getElem?_eq_some_iff.mp hconn).1 _⟩

variable [CuckoohashMap σ Key Value]

/-- A fact about single links that holds of new links, and that a step under `C` keeps
of the link it touches, holds of every link in every run that meets `C`. -/
theorem links_invariant {P : Link → Prop} {C : NetworkServer σ → Event → Prop}
    (hnew : ∀ fd input output noblock_, P (Link.ofSocket fd input output noblock_))
    (hstep : ∀ s io conn conn', C s (.handle io) → P conn → conn.error_ = false →
      conn.Step io (front s) conn' → P conn')
    {listener : Nat} {store : σ} {events : List Event} {t : NetworkServer σ}
    (hrun : (networkServer σ).exec (NetworkServer.start listener store) events = some t)
    (hC : (networkServer σ).Meets C (NetworkServer.start listener store) events) :
    ∀ conn ∈ t.links, P conn := by
  refine Machine.exec_invariant_of (I := fun s => ∀ conn ∈ s.links, P conn) ?_ hrun hC ?_
  · intro s e t hI hCe h conn' hmem
    rcases (NetworkServer.step_cases h).links hmem with hmem | ⟨fd, input, output, rfl⟩ |
      ⟨io, conn, rfl, hmem, herr, hlink⟩
    · exact hI conn' hmem
    · exact hnew fd input output true
    · exact hstep s io conn conn' hCe (hI conn hmem) herr hlink
  · intro conn hmem
    rw [List.mem_singleton.mp hmem]
    exact hnew listener 0 1 false

/-- A fact about single links that holds of new links, that a step keeps of the link it touches if
the buffer it sends meets `W`, and that is broken otherwise, holds of every link throughout exactly
the runs in which every buffer that is sent meets `W`. -/
theorem links_throughout_iff {P : Link → Prop} {C : NetworkServer σ → Event → Prop}
    {W : Io → Buffer → Prop} (hC : ∀ s io, C s (.handle io) ↔ ∀ smsg ∈ front s, W io smsg)
    (hother : ∀ s e, (∀ io, e ≠ .handle io) → C s e)
    (hnew : ∀ fd input output noblock_, P (Link.ofSocket fd input output noblock_))
    (hstep : ∀ io front conn conn', (∀ smsg ∈ front, W io smsg) → P conn → conn.error_ = false →
      conn.Step io front conn' → P conn')
    (hsent : ∀ io smsg omsg_q len (w : MsgWrite) (conn : Link), P conn → conn.error_ = false →
      conn.omsg_q = smsg :: omsg_q → w.Spec smsg 0 [] w.wire io.writes → w.len = some len →
      w.rest = [] → P (conn.sent omsg_q io.writes len w.wire) → W io smsg)
    {listener : Nat} {store : σ} {events : List Event} {t : NetworkServer σ}
    (hrun : (networkServer σ).exec (NetworkServer.start listener store) events = some t) :
    (networkServer σ).Throughout (fun s => ∀ conn ∈ s.links, P conn)
        (NetworkServer.start listener store) events ↔
      (networkServer σ).Meets C (NetworkServer.start listener store) events := by
  refine Machine.throughout_iff_meets (fun s e u hP h => ⟨fun hP' => ?_, fun hCe => ?_⟩) hrun ?_
  · cases e with
    | handle io =>
        refine (hC s io).mpr fun smsg hsmsg => ?_
        have hcases : s.Step (.handle io) u := NetworkServer.step_cases h
        obtain ⟨conn, omsg_q, len, w, hmem, herr, hq, hspec, hlen, hrest, hmem'⟩ :=
          hcases.sends (Option.mem_def.mp hsmsg)
        exact hsent io smsg omsg_q len w conn (hP conn hmem) herr hq hspec hlen hrest
          (hP' _ hmem')
    | wait ready => exact hother s _ fun io h => by cases h
    | waitFailed => exact hother s _ fun io h => by cases h
  · intro conn' hmem
    rcases (NetworkServer.step_cases h).links hmem with hmem | ⟨fd, input, output, rfl⟩ |
      ⟨io, conn, rfl, hmem, herr, hlink⟩
    · exact hP conn' hmem
    · exact hnew fd input output true
    · exact hstep io _ conn conn' ((hC s io).mp hCe) (hP conn hmem) herr hlink
  · intro conn hmem
    rw [List.mem_singleton.mp hmem]
    exact hnew listener 0 1 false

/-- A link of a run that was evaluated. -/
theorem exists_link_of_map {α : Type} {s : NetworkServer σ} {events : List Event} {i : Nat}
    {f : Link → α} {a : α}
    (h : ((networkServer σ).exec s events).map (fun t => t.links[i]?.map f) = some (some a)) :
    ∃ t conn, (networkServer σ).exec s events = some t ∧ t.links[i]? = some conn ∧
      f conn = a := by
  obtain ⟨t, hrun, hlink⟩ := Option.map_eq_some_iff.mp h
  obtain ⟨conn, hconn, hf⟩ := Option.map_eq_some_iff.mp hlink
  exact ⟨t, conn, hrun, hconn, hf⟩

end KvServer.Server5204
