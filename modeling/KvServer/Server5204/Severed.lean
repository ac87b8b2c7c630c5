import KvServer.Server5204.Steps

/-!
# What `msg_read` drops

After it has read some bytes `msg_read` goes on until the buffer is full or the
socket would block.  If it then finds the end of the stream or a genuine error, it
returns NULL and the bytes are gone, although an `EWOULDBLOCK` in the same place
would have handed them over.

`Severed` says in terms of the answers when that is.  All other calls hand over every
byte they took from the socket, and `req_recv` processes the whole requests among
them.
-/

namespace KvServer.Server5204

open Transfer

/-! ## The bytes of a call -/

/-- What the caller of `msg_read` gets. -/
def MsgRead.handedOver (r : MsgRead) : List Byte :=
  match r.ending with
  | .null => []
  | _ => r.msg.content

/-- Every byte taken from the socket is handed over, and these are at most 8192. -/
def MsgRead.HandsOver (r : MsgRead) (reads : List (ReadAnswer Byte)) : Prop :=
  r.handedOver ++ received r.rest = received reads ∧ r.handedOver.length ≤ 8192

/-- The loop goes on after the answer while there is room: it has read bytes, or was
interrupted. -/
def GoesOn (a : ReadAnswer Byte) : Prop := (∃ b bytes, a = .data (b :: bytes)) ∨ a = .fail EINTR

/-- The call reads some bytes, but not as many as fit, and then finds the end of the stream
or a genuine error. -/
def Severed (reads : List (ReadAnswer Byte)) : Prop :=
  ∃ before a after, reads = before ++ a :: after ∧ (∀ x ∈ before, GoesOn x) ∧ ReadFailed [a] ∧
    0 < (received before).length ∧ (received before).length < 8192

/-! ## The loop -/

section Loop

variable {noblock_ : Bool} {msg : Buffer} {before after reads : List (ReadAnswer Byte)}
  {a : ReadAnswer Byte}

/-- A failure after bytes that left room. -/
theorem msgReadLoop_null (hfits : msg.Fits) (hgoes : ∀ x ∈ before, GoesOn x)
    (hfailed : ReadFailed [a]) (hroom : (received before).length < msg.space)
    (hblock : noblock_ = false → received before = []) :
    (msgReadLoop noblock_ msg (before ++ a :: after)).ending = .null ∧
      (msgReadLoop noblock_ msg (before ++ a :: after)).msg.content =
        msg.content ++ received before := by
  induction before generalizing msg with
  | nil =>
      rcases a with bytes | e
      · cases bytes with
        | nil => simp [msgReadLoop]
        | cons b bytes => exact absurd (readFailed_data.mp hfailed) not_readFailed_nil
      · obtain ⟨hintr, hwould⟩ : Genuine e := by simpa [ReadFailed] using hfailed
        simp [msgReadLoop, hintr, hwould]
  | cons x before ih =>
      have hrest : ∀ x ∈ before, GoesOn x := fun x hx => hgoes x (List.mem_cons_of_mem _ hx)
      rcases hgoes x List.mem_cons_self with ⟨b, bytes, rfl⟩ | rfl
      · rw [received_data, List.length_append] at hroom
        have htake : (b :: bytes).take msg.space.toNat = b :: bytes :=
          List.take_of_length_le (by omega)
        have hspace : (msg.recv (b :: bytes)).space = msg.space - (b :: bytes).length :=
          Buffer.space_recv msg _
        have hnoblock : noblock_ = true := by
          by_contra hno
          simpa using hblock (by simpa using hno)
        have hmore : ¬ ((msg.recv (b :: bytes)).space ≤ 0 ∨ noblock_ = false) := by
          rw [hspace, hnoblock]
          rintro (hfull | hfalse)
          · omega
          · cases hfalse
        obtain ⟨hend, hcontent⟩ := @ih (msg.recv (b :: bytes))
          (hfits.recv (by omega)) hrest (by rw [hspace]; omega)
          (fun h => by rw [hnoblock] at h; cases h)
        rw [List.cons_append, msgReadLoop, htake, if_neg hmore]
        refine ⟨hend, ?_⟩
        rw [hcontent, Buffer.content_recv hfits, received_data, List.append_assoc]
      · rw [received_fail] at hroom hblock
        simpa [msgReadLoop] using ih hfits hrest hroom hblock

/-- NULL is returned after a failure, and what was read before is in the buffer. -/
theorem msgReadLoop_null_inv (hfits : msg.Fits) (hspace : 0 < msg.space)
    (hnull : (msgReadLoop noblock_ msg reads).ending = .null) :
    ∃ before a after, reads = before ++ a :: after ∧ (∀ x ∈ before, GoesOn x) ∧
      ReadFailed [a] ∧ (received before).length < msg.space ∧
      (noblock_ = false → received before = []) := by
  induction reads generalizing msg with
  | nil => cases hnull
  | cons x rest ih =>
      rcases x with bytes | e
      · cases bytes with
        | nil => exact ⟨[], .data [], rest, rfl, by simp, Or.inl (by simp), hspace, fun _ => rfl⟩
        | cons b bytes =>
            simp only [msgReadLoop] at hnull
            split at hnull
            · cases hnull
            · next hmore =>
                obtain ⟨hroom, hnoblock⟩ := not_or.mp hmore
                have hroom' := Int.not_le.mp hroom
                have htake : (b :: bytes).take msg.space.toNat = b :: bytes := by
                  refine List.take_of_length_le ?_
                  rw [Buffer.space_recv, List.length_take] at hroom'
                  omega
                rw [htake] at hnull hroom'
                obtain ⟨before, a, after, rfl, hgoes, hfailed, hlen, -⟩ :=
                  ih (hfits.recv (by rw [Buffer.space_recv] at hroom'; omega)) hroom' hnull
                refine ⟨.data (b :: bytes) :: before, a, after, rfl, ?_, hfailed, ?_,
                  fun h => absurd h hnoblock⟩
                · exact List.forall_mem_cons.mpr ⟨Or.inl ⟨b, bytes, rfl⟩, hgoes⟩
                · rw [Buffer.space_recv] at hlen
                  rw [received_data, List.length_append]
                  omega
      · by_cases hintr : e = EINTR
        · subst hintr
          rw [msgReadLoop, if_pos rfl] at hnull
          obtain ⟨before, a, after, rfl, hgoes, hfailed, hlen, hblock⟩ := ih hfits hspace hnull
          exact ⟨.fail EINTR :: before, a, after, rfl,
            List.forall_mem_cons.mpr ⟨Or.inr rfl, hgoes⟩, hfailed, hlen, hblock⟩
        · rw [msgReadLoop, if_neg hintr] at hnull
          split at hnull
          · cases hnull
          · next hwould =>
              exact ⟨[], .fail e, rest, rfl, by simp, Or.inr ⟨e, by simp, hintr, hwould⟩, hspace,
                fun _ => rfl⟩

end Loop

/-! ## A call -/

section Call

variable {noblock_ : Bool} {id : Nat} {buf : Memory Byte} {reads : List (ReadAnswer Byte)}

/-- The buffer `msg_read` starts with is empty and has 8192 bytes. -/
theorem msgReadBuffer_fits (id : Nat) (buf : Memory Byte) :
    (msgReadBuffer id buf).Fits ∧ (msgReadBuffer id buf).space = 8192 ∧
      (msgReadBuffer id buf).content = [] :=
  ⟨⟨Int.le_refl 0, Int.le_refl 0, show (0 : Int) + 0 ≤ 8192 by decide⟩, rfl, rfl⟩

/-- A call gives up bytes if they are severed and the socket does not block. -/
theorem msgRead_drops_iff :
    (msgRead noblock_ id buf reads).ending = .null ∧
        (msgRead noblock_ id buf reads).msg.content ≠ [] ↔
      noblock_ = true ∧ Severed reads := by
  obtain ⟨hfits, hspace, hempty⟩ := msgReadBuffer_fits id buf
  rw [msgRead]
  constructor
  · rintro ⟨hnull, hcontent⟩
    obtain ⟨before, a, after, rfl, hgoes, hfailed, hroom, hblock⟩ :=
      msgReadLoop_null_inv hfits (by rw [hspace]; decide) hnull
    have hbytes := (@msgReadLoop_null noblock_ _ _ after _ hfits hgoes hfailed hroom hblock).2
    rw [hempty, List.nil_append] at hbytes
    rw [hbytes] at hcontent
    refine ⟨?_, before, a, after, rfl, hgoes, hfailed, List.length_pos_iff.mpr hcontent, by omega⟩
    by_contra hno
    exact hcontent (hblock (by simpa using hno))
  · rintro ⟨rfl, before, a, after, rfl, hgoes, hfailed, hpos, hlen⟩
    obtain ⟨hnull, hbytes⟩ := @msgReadLoop_null true _ _ after _ hfits hgoes hfailed
      (by omega) (fun h => by cases h)
    rw [hempty, List.nil_append] at hbytes
    exact ⟨hnull, by rw [hbytes]; exact List.length_pos_iff.mp hpos⟩

theorem length_msgRead_content (noblock_ : Bool) (id : Nat) (buf : Memory Byte)
    (reads : List (ReadAnswer Byte)) :
    (msgRead noblock_ id buf reads).msg.content.length ≤ 8192 := by
  obtain ⟨-, hfits, htotal, -, -⟩ := msgRead_spec noblock_ id buf reads
  have hdata := hfits.data
  have hle := hfits.total
  rw [Buffer.length_content]
  rw [show (msgRead noblock_ id buf reads).msg.total = 8192 from htotal] at hle
  omega

/-- A call hands over what it takes from the socket unless it is severed. -/
theorem handsOver_iff :
    (msgRead noblock_ id buf reads).HandsOver reads ↔ noblock_ = false ∨ ¬ Severed reads := by
  have hbytes : (msgRead noblock_ id buf reads).msg.content ++
      received (msgRead noblock_ id buf reads).rest = received reads :=
    (msgRead_spec noblock_ id buf reads).bytes
  have hlen := length_msgRead_content noblock_ id buf reads
  have hnot : (noblock_ = false ∨ ¬ Severed reads) ↔
      ¬ ((msgRead noblock_ id buf reads).ending = .null ∧
        (msgRead noblock_ id buf reads).msg.content ≠ []) := by
    rw [msgRead_drops_iff, not_and_or, Bool.not_eq_true]
  rw [hnot, MsgRead.HandsOver, MsgRead.handedOver]
  cases hend : (msgRead noblock_ id buf reads).ending with
  | null =>
      rw [← hbytes]
      simp
  | returned => simp [hbytes, hlen]
  | waiting => simp [hbytes, hlen]

end Call

/-! ## `req_recv` -/

variable {σ : Type} [CuckoohashMap σ Key Value]

/-- The packet processor got the whole requests among the bytes read, at least up to one that
ended the process. -/
def ProcessesAll (t : NetworkServer σ) (i : Nat) (conn : Link) (reads : List (ReadAnswer Byte)) :
    Prop :=
  ∃ conn' windows, t.links[i]? = some conn' ∧
    conn'.log.windows = conn.log.windows ++ windows ∧
    windows <+: messages (received reads) ∧
    ((∀ w ∈ windows, w.Valid) → windows = messages (received reads))

/-- A call that hands over what it read and returns NULL has read nothing. -/
theorem MsgRead.HandsOver.received_eq_nil {r : MsgRead} {reads : List (ReadAnswer Byte)}
    (h : r.HandsOver reads) (hnull : r.ending = .null) (hrest : r.rest = []) :
    received reads = [] := by
  have hbytes := h.1
  rw [MsgRead.handedOver, hnull, hrest] at hbytes
  exact hbytes.symm

/-- Every message is processed if all that were processed are valid. -/
theorem processBuffer_all {noblock_ : Bool} {id : Nat} {buf : Memory Byte}
    {reads : List (ReadAnswer Byte)} (store : σ)
    (hrest : (msgRead noblock_ id buf reads).rest = []) :
    let p := processBuffer store (msgRead noblock_ id buf reads).msg
    p.windows <+: messages (received reads) ∧
      ((∀ w ∈ p.windows, w.Valid) → p.windows = messages (received reads)) := by
  intro p
  have hspec : p.Spec store (messages (received reads)) := by
    rw [show p = _ from msgRead_process store hrest]
    exact processList_spec store _
  refine ⟨hspec.windows, fun hvalid => (hspec.finished ?_).1⟩
  by_contra hexit
  obtain ⟨w, hw, hbad⟩ := hspec.exited (by simpa using hexit)
  exact hbad (hvalid w hw)

theorem reqRecv_processesAll {s t : NetworkServer σ} {i : Nat} {conn : Link} {io : Io}
    (hconn : s.links[i]? = some conn) (hkept : conn.noblock_ = false ∨ ¬ Severed io.reads)
    (h : reqRecv s i conn io = some t) : ProcessesAll t i conn io.reads := by
  have hlt : i < s.links.length := (List.getElem?_eq_some_iff.mp hconn).1
  simp only [reqRecv] at h
  split at h
  · next hend hrest =>
      cases h
      have hempty := (handsOver_iff.mpr hkept).received_eq_nil hend hrest
      refine ⟨conn.readNull io.reads, [], by simp [hlt], by simp, List.nil_prefix, fun _ => ?_⟩
      rw [hempty]
      rfl
  · next hend hrest =>
      cases h
      obtain ⟨hpre, hall⟩ := processBuffer_all s.store hrest
      simp only [answerMsgs]
      split
      · exact ⟨_, _, List.getElem?_set_self hlt, rfl, hpre, hall⟩
      · exact ⟨_, _, List.getElem?_set_self hlt, rfl, hpre, hall⟩
  · cases h

/-- `msg_read` hands over the bytes it takes from the socket exactly if the call is not
severed, or the socket blocks.  Then `req_recv` processes every whole request among them. -/
theorem msgRead_handsOver_iff (noblock_ : Bool) (id : Nat) (buf : Memory Byte)
    (reads : List (ReadAnswer Byte)) :
    ((msgRead noblock_ id buf reads).HandsOver reads ↔ noblock_ = false ∨ ¬ Severed reads) ∧
      (noblock_ = false ∨ ¬ Severed reads →
        ∀ (s t : NetworkServer σ) i conn io, s.links[i]? = some conn → conn.noblock_ = noblock_ →
          io.reads = reads → reqRecv s i conn io = some t → ProcessesAll t i conn reads) := by
  refine ⟨handsOver_iff, ?_⟩
  rintro hkept s t i conn io hconn rfl rfl h
  exact reqRecv_processesAll hconn hkept h

/-- A request and the end of the stream in one call. -/
theorem msgRead_drops : ¬ ∀ (id : Nat) (buf : Memory Byte) (reads : List (ReadAnswer Byte)),
    (msgRead true id buf reads).HandsOver reads := by
  intro h
  have hsevered : Severed [.data (SendMessage.blank .PUT 1).bytes, .data []] :=
    ⟨[.data (SendMessage.blank .PUT 1).bytes], .data [], [], rfl,
      List.forall_mem_singleton.mpr (Or.inl ⟨_, _, rfl⟩), Or.inl List.mem_cons_self, by decide,
      by decide⟩
  rcases handsOver_iff.mp (h 0 (fun _ => 0) _) with hblock | hnot
  · cases hblock
  · exact hnot hsevered

end KvServer.Server5204
