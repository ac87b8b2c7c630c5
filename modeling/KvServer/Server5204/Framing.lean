import KvServer.Server5204.Steps

/-!
# Requests in a stream

`req_recv` looks at each buffer on its own: it takes the whole messages from the
front and forgets the bytes behind them.  A stream of requests is therefore
processed as it was sent only if every call of `msg_read` ends where a request
ends, and no call gives up bytes because it found the socket closed in the same
go.  `HandleReadEvent` of the other server goes on reading until it has 50 bytes,
and so has no such condition.

The calls of a connection are compared by length.  No call processes more bytes
than it read, so if the stream was processed completely then every single call
processed all it read.
-/

namespace KvServer.Server5204

open Transfer

/-! ## Cutting a stream piece by piece -/

theorem cut_add (m n : Nat) (bytes : List Byte) :
    cut (m + n) bytes = cut m bytes ++ cut n (bytes.drop (KVSTORE_CONTENT_LEN * m)) := by
  induction m generalizing bytes with
  | zero => rw [Nat.zero_add, Nat.mul_zero, List.drop_zero]; rfl
  | succ m ih =>
      rw [Nat.add_right_comm, cut, cut, ih, List.drop_drop, List.cons_append, Nat.mul_succ,
        Nat.add_comm (KVSTORE_CONTENT_LEN * m)]

/-- Bytes behind whole messages do not change how these are cut. -/
theorem messages_append {bytes more : List Byte} (h : KVSTORE_CONTENT_LEN ∣ bytes.length) :
    messages (bytes ++ more) = messages bytes ++ messages more := by
  obtain ⟨m, hm⟩ := h
  have hpos : 0 < KVSTORE_CONTENT_LEN := by decide
  have hfront : cut m (bytes ++ more) = cut m bytes := by
    rw [← cut_take, ← hm, List.take_left]
  rw [messages, messages, messages, List.length_append, hm, Nat.mul_add_div hpos,
    Nat.mul_div_cancel_left m hpos, cut_add, hfront, ← hm, List.drop_left]

theorem messages_flatMap (sends : List SendMessage) :
    messages (sends.flatMap SendMessage.bytes) = sends := by
  have h := cut_flatMap sends []
  rw [List.append_nil] at h
  rw [messages, length_flatMap_bytes, Nat.mul_div_cancel_left _ (by decide), h]

/-! ## Calls of `msg_read` -/

/-- The bytes `msg_read` hands over: none when the socket has failed. -/
def handedOver (reads : List (ReadAnswer Byte)) : List Byte :=
  if ReadFailed reads then [] else received reads

/-- The call reads whole requests, and if it finds the socket closed it reads
nothing. -/
def Whole (reads : List (ReadAnswer Byte)) : Prop :=
  KVSTORE_CONTENT_LEN ∣ (received reads).length ∧ (ReadFailed reads → received reads = [])

theorem handedOver_of_whole {reads : List (ReadAnswer Byte)} (h : Whole reads) :
    handedOver reads = received reads := by
  rw [handedOver]
  split
  · next hf => rw [h.2 hf]
  · rfl

theorem length_handedOver_le (reads : List (ReadAnswer Byte)) :
    (handedOver reads).length ≤ (received reads).length := by
  rw [handedOver]
  split
  · exact Nat.zero_le _
  · exact Nat.le_refl _

/-- A call processes no more bytes than it read. -/
theorem length_processed_le (reads : List (ReadAnswer Byte)) :
    KVSTORE_CONTENT_LEN * (messages (handedOver reads)).length ≤ (received reads).length := by
  rw [length_messages]
  exact (Nat.mul_div_le _ _).trans (length_handedOver_le reads)

/-- A call that processed all it read has read whole requests. -/
theorem whole_iff {reads : List (ReadAnswer Byte)} :
    Whole reads ↔
      KVSTORE_CONTENT_LEN * (messages (handedOver reads)).length = (received reads).length := by
  rw [length_messages]
  constructor
  · intro h
    rw [handedOver_of_whole h, Nat.mul_div_cancel' h.1]
  · intro h
    have hle := length_handedOver_le reads
    have hdiv := Nat.mul_div_le (handedOver reads).length KVSTORE_CONTENT_LEN
    refine ⟨⟨_, h.symm⟩, fun hf => ?_⟩
    rw [handedOver, if_pos hf, List.length_nil] at hle hdiv h
    exact List.eq_nil_of_length_eq_zero (by omega)

/-- The messages of a list of calls, each cut on its own. -/
def processed (calls : List (List (ReadAnswer Byte))) : List SendMessage :=
  calls.flatMap fun reads => messages (handedOver reads)

theorem length_processed_calls_le (calls : List (List (ReadAnswer Byte))) :
    KVSTORE_CONTENT_LEN * (processed calls).length ≤ (calls.flatMap received).length := by
  induction calls with
  | nil => exact Nat.le_refl _
  | cons reads calls ih =>
      rw [processed, List.flatMap_cons, List.flatMap_cons, List.length_append,
        List.length_append, Nat.mul_add]
      exact Nat.add_le_add (length_processed_le reads) ih

/-- If nothing is lost over all calls, nothing is lost in any. -/
theorem whole_of_length_processed {calls : List (List (ReadAnswer Byte))}
    (h : KVSTORE_CONTENT_LEN * (processed calls).length = (calls.flatMap received).length) :
    ∀ reads ∈ calls, Whole reads := by
  induction calls with
  | nil => intro reads hmem; cases hmem
  | cons first calls ih =>
      rw [processed, List.flatMap_cons, List.flatMap_cons, List.length_append,
        List.length_append, Nat.mul_add] at h
      have hfirst := length_processed_le first
      have hrest := length_processed_calls_le calls
      rw [processed] at hrest
      intro reads hmem
      rcases List.mem_cons.mp hmem with rfl | hmem
      · exact whole_iff.mpr (by omega)
      · exact ih (by rw [processed]; omega) reads hmem

theorem processed_of_whole {calls : List (List (ReadAnswer Byte))}
    (h : ∀ reads ∈ calls, Whole reads) : processed calls = messages (calls.flatMap received) := by
  induction calls with
  | nil => rfl
  | cons first calls ih =>
      have hfirst := h first List.mem_cons_self
      rw [processed, List.flatMap_cons, List.flatMap_cons, messages_append hfirst.1,
        handedOver_of_whole hfirst, ← ih fun reads hmem => h reads (List.mem_cons_of_mem _ hmem)]
      rfl

/-! ## The requests of a link -/

/-- What the packet processor was given on a link: the messages of its calls, up to the
request that ended the process. -/
structure Framed (conn : Link) : Prop where
  mem : ∀ w ∈ conn.log.windows, w ∈ processed conn.log.reads
  all : (∀ w ∈ conn.log.windows, w.Valid) → conn.log.windows = processed conn.log.reads

theorem processed_append (calls : List (List (ReadAnswer Byte))) (reads : List (ReadAnswer Byte)) :
    processed (calls ++ [reads]) = processed calls ++ messages (handedOver reads) := by
  rw [processed, List.flatMap_append, List.flatMap_singleton]
  rfl

theorem processed_append_failed (calls : List (List (ReadAnswer Byte)))
    {reads : List (ReadAnswer Byte)} (h : ReadFailed reads) :
    processed (calls ++ [reads]) = processed calls := by
  rw [processed_append, handedOver, if_pos h]
  exact List.append_nil _

theorem processed_append_open (calls : List (List (ReadAnswer Byte)))
    {reads : List (ReadAnswer Byte)} (h : ¬ ReadFailed reads) :
    processed (calls ++ [reads]) = processed calls ++ messages (received reads) := by
  rw [processed_append, handedOver, if_neg h]

/-- A call of `msg_read` adds its own messages to those processed so far. -/
theorem mem_processed_append {calls : List (List (ReadAnswer Byte))}
    {reads : List (ReadAnswer Byte)} {seen new : List SendMessage} (h : ¬ ReadFailed reads)
    (hseen : ∀ w ∈ seen, w ∈ processed calls) (hnew : ∀ w ∈ new, w ∈ messages (received reads)) :
    ∀ w ∈ seen ++ new, w ∈ processed (calls ++ [reads]) := by
  intro w hw
  rw [processed_append_open _ h]
  rcases List.mem_append.mp hw with hw | hw
  · exact List.mem_append_left _ (hseen w hw)
  · exact List.mem_append_right _ (hnew w hw)

theorem Framed.ofSocket (fd input output : Nat) (noblock_ : Bool) :
    Framed (Link.ofSocket fd input output noblock_) :=
  ⟨fun _ h => h, fun _ => rfl⟩

theorem Framed.step {io : Io} {front : Option Buffer} {conn conn' : Link} (h : Framed conn)
    (hstep : conn.Step io front conn') : Framed conn' := by
  obtain ⟨hmem, hall⟩ := h
  cases hstep with
  | readNull hf =>
      constructor
      · show ∀ w ∈ conn.log.windows, w ∈ processed (conn.log.reads ++ [io.reads])
        rw [processed_append_failed _ hf]
        exact hmem
      · show _ → conn.log.windows = processed (conn.log.reads ++ [io.reads])
        rw [processed_append_failed _ hf]
        exact hall
  | @readExit windows hopen hpre hbad =>
      constructor
      · exact mem_processed_append hopen hmem fun w hw => hpre.subset hw
      · -- one of the messages was not valid
        intro hvalid
        obtain ⟨w, hw, hinvalid⟩ := hbad
        exact absurd (hvalid w (List.mem_append_right _ hw)) hinvalid
  | readMsgs hopen hlen =>
      constructor
      · exact mem_processed_append hopen hmem fun w hw => hw
      · intro hvalid
        show conn.log.windows ++ messages (received io.reads) =
          processed (conn.log.reads ++ [io.reads])
        rw [processed_append_open _ hopen, hall fun w hw => hvalid w (List.mem_append_left _ hw)]
  | sent => exact ⟨hmem, hall⟩

variable {σ : Type} [CuckoohashMap σ Key Value]

/-- A stream of valid requests that has arrived on a connection was processed request
by request exactly if every call of `msg_read` was given whole requests. -/
theorem windows_eq_iff_whole {listener : Nat} {store : σ} {events : List Event}
    {t : NetworkServer σ} {conn : Link} {sends : List SendMessage}
    (hrun : (networkServer σ).exec (NetworkServer.start listener store) events = some t)
    (hconn : conn ∈ t.links) (hvalid : ∀ m ∈ sends, m.Valid)
    (hstream : conn.log.reads.flatMap received = sends.flatMap SendMessage.bytes) :
    conn.log.windows = sends ↔ ∀ reads ∈ conn.log.reads, Whole reads := by
  have hframed : Framed conn :=
    links_invariant (C := fun _ _ => True) Framed.ofSocket
      (fun _ _ _ _ _ h _ hstep => h.step hstep) hrun (Machine.Meets.of_events fun _ _ _ => trivial)
      conn hconn
  constructor
  · intro heq
    have hall := hframed.all (by rw [heq]; exact hvalid)
    apply whole_of_length_processed
    rw [← hall, heq, hstream, length_flatMap_bytes]
  · intro hwhole
    have hproc : processed conn.log.reads = sends := by
      rw [processed_of_whole hwhole, hstream, messages_flatMap]
    have hall := hframed.all fun w hw => hvalid w (by rw [← hproc]; exact hframed.mem w hw)
    rw [hall, hproc]

/-- Two requests that arrive together. -/
theorem windows_eq_iff_whole_two :
    ∃ (t : NetworkServer (Key → Option Value)) (conn : Link),
      (networkServer _).exec (NetworkServer.start 3 CuckoohashMap.empty)
        (connect ++ readable [.data ((SendMessage.blank .PUT 1).bytes ++
          (SendMessage.blank .GET 1).bytes), .fail EWOULDBLOCK]) = some t ∧
      conn ∈ t.links ∧ conn.log.windows = [SendMessage.blank .PUT 1, SendMessage.blank .GET 1] := by
  have hlogs : ((networkServer (Key → Option Value)).exec
      (NetworkServer.start 3 CuckoohashMap.empty)
      (connect ++ readable [.data ((SendMessage.blank .PUT 1).bytes ++
        (SendMessage.blank .GET 1).bytes), .fail EWOULDBLOCK])).map
          (fun t => t.links[1]?.map fun conn => conn.log.reads) =
      some (some [[.data ((SendMessage.blank .PUT 1).bytes ++
        (SendMessage.blank .GET 1).bytes), .fail EWOULDBLOCK]]) := by
    decide +kernel
  obtain ⟨t, conn, hrun, hlink, hreads⟩ := exists_link_of_map hlogs
  have hconn := List.mem_of_getElem? hlink
  refine ⟨t, conn, hrun, hconn, (windows_eq_iff_whole hrun hconn ?_ ?_).mpr ?_⟩
  · decide
  · rw [hreads]
    decide
  · rw [hreads]
    intro reads hmem
    rw [List.mem_singleton.mp hmem]
    exact ⟨by decide, fun hf => absurd hf (by decide)⟩

/-- A request that arrives in two pieces is never processed. -/
theorem not_windows_eq : ¬ ∀ events (t : NetworkServer (Key → Option Value)) conn sends,
    (networkServer _).exec (NetworkServer.start 3 CuckoohashMap.empty) events = some t →
      conn ∈ t.links → (∀ reads ∈ conn.log.reads, ¬ ReadFailed reads) →
      (∀ m ∈ sends, m.Valid) →
      conn.log.reads.flatMap received = sends.flatMap SendMessage.bytes →
      conn.log.windows = sends := by
  intro h
  have hlogs : ((networkServer (Key → Option Value)).exec
      (NetworkServer.start 3 CuckoohashMap.empty)
      (connect ++ readable [.data ((SendMessage.blank .PUT 1).bytes.take 20), .fail EWOULDBLOCK] ++
        readable [.data ((SendMessage.blank .PUT 1).bytes.drop 20), .fail EWOULDBLOCK])).map
          (fun t => t.links[1]?.map fun conn => (conn.log.reads, conn.log.windows)) =
      some (some
        ([[.data ((SendMessage.blank .PUT 1).bytes.take 20), .fail EWOULDBLOCK],
          [.data ((SendMessage.blank .PUT 1).bytes.drop 20), .fail EWOULDBLOCK]], [])) := by
    decide +kernel
  obtain ⟨t, conn, hrun, hlink, hlog⟩ := exists_link_of_map hlogs
  obtain ⟨hreads, hwindows⟩ := Prod.mk.inj hlog
  have heq := h _ t conn [SendMessage.blank .PUT 1] hrun (List.mem_of_getElem? hlink)
    (by rw [hreads]; decide) (by decide) (by rw [hreads]; decide)
  rw [hwindows] at heq
  cases heq

end KvServer.Server5204
