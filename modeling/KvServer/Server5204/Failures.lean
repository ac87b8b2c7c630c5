import KvServer.Server5204.Steps

/-!
# What puts a link in error

`req_recv` marks a link when `msg_read` gave its buffer up, which it does at the
end of the stream and at a genuine error.  `rsp_send` marks it when `msg_write`
returned no positive number.  That is -1 after a genuine error, but it is also 0
when the socket took nothing, and 0 when the buffer is empty.  `req_recv` queues an
empty buffer whenever it has read less than one request.

So a failure is behind every error exactly as long as every write that does not
fail takes a byte (`blamed_iff_sendsSome`).
-/

namespace KvServer.Server5204

open Transfer

/-- Some read or write on the link has failed. -/
def Failed (conn : Link) : Prop :=
  (∃ reads ∈ conn.log.reads, ReadFailed reads) ∨ ∃ writes ∈ conn.log.writes, WriteFailed writes

instance (conn : Link) : Decidable (Failed conn) := inferInstanceAs (Decidable (_ ∨ _))

/-- The socket takes a byte, or it fails. -/
def TakenOrFailed (writes : List WriteAnswer) : Prop := 0 < accepted writes ∨ WriteFailed writes

instance (writes : List WriteAnswer) : Decidable (TakenOrFailed writes) :=
  inferInstanceAs (Decidable (_ ∨ _))

/-- A link is in error exactly after a failure. -/
def Blamed (conn : Link) : Prop := conn.error_ = true ↔ Failed conn

theorem Blamed.ofSocket (fd input output : Nat) (noblock_ : Bool) :
    Blamed (Link.ofSocket fd input output noblock_) := by
  constructor
  · intro herr
    cases herr
  · rintro (⟨_, h, -⟩ | ⟨_, h, -⟩) <;> cases h

theorem Failed.readMsgs_iff {conn : Link} {reads : List (ReadAnswer Byte)}
    (windows : List SendMessage) (hopen : ¬ ReadFailed reads) :
    Failed (conn.readMsgs reads windows) ↔ Failed conn := by
  simp [Failed, or_and_right, exists_or, hopen]

theorem Failed.sent_iff {conn : Link} {omsg_q : List Buffer} {writes : List WriteAnswer}
    {len : Int} {wire : List Byte} :
    Failed (conn.sent omsg_q writes len wire) ↔ Failed conn ∨ WriteFailed writes := by
  simp [Failed, or_and_right, exists_or, or_assoc]

/-- Exactly the writes that take nothing and do not fail put a link in error without a
failure. -/
theorem Blamed.sent_iff {conn : Link} {smsg : Buffer} {omsg_q : List Buffer}
    {writes : List WriteAnswer} {w : MsgWrite} {len : Int} (h : Blamed conn)
    (herr : conn.error_ = false) (hspec : w.Spec smsg 0 [] w.wire writes)
    (hlen : w.len = some len) (hrest : w.rest = []) :
    Blamed (conn.sent omsg_q writes len w.wire) ↔ TakenOrFailed writes := by
  have hnone : ¬ Failed conn := fun hf => by rw [h.mpr hf] at herr; cases herr
  have hpos := hspec.len_pos_iff hlen hrest
  rw [Blamed, Failed.sent_iff, TakenOrFailed]
  simp only [Link.sent_error_, herr, Bool.false_or, decide_eq_true_eq, hnone, false_or]
  constructor
  · intro hiff
    rcases Nat.eq_zero_or_pos (accepted writes) with hzero | hacc
    · -- nothing was taken, so the value is not positive
      refine Or.inr (hiff.mp (Int.not_lt.mp fun hlt => ?_))
      exact absurd (hpos.mp hlt).2 (by omega)
    · exact Or.inl hacc
  · intro htaken
    constructor
    · intro hle
      rcases htaken with hacc | hf
      · exact by_contra fun hopen => absurd (hpos.mpr ⟨hopen, hacc⟩) (Int.not_lt.mpr hle)
      · exact hf
    · intro hf
      exact Int.not_lt.mp fun hlt => (hpos.mp hlt).1 hf

theorem Blamed.step {io : Io} {front : Option Buffer} {conn conn' : Link} (h : Blamed conn)
    (herr : conn.error_ = false) (htaken : ∀ smsg ∈ front, TakenOrFailed io.writes)
    (hstep : conn.Step io front conn') : Blamed conn' := by
  cases hstep with
  | readNull hf =>
      have hfailed : Failed (conn.readNull io.reads) := Or.inl ⟨io.reads, by simp, hf⟩
      exact ⟨fun _ => hfailed, fun _ => rfl⟩
  | @readExit windows hopen => exact h.trans (Failed.readMsgs_iff windows hopen).symm
  | readMsgs hopen =>
      exact h.trans (Failed.readMsgs_iff (messages (received io.reads)) hopen).symm
  | sent hfront hq hspec hlen hrest =>
      exact (h.sent_iff herr hspec hlen hrest).mpr (htaken _ hfront)

variable {σ : Type} [CuckoohashMap σ Key Value]

/-- If the step sends a response buffer, a byte of it is taken, or the socket fails. -/
def SendsSome (s : NetworkServer σ) : Event → Prop
  | .handle io => ∀ _smsg ∈ front s, TakenOrFailed io.writes
  | _ => True

instance (s : NetworkServer σ) : ∀ e, Decidable (SendsSome s e)
  | .handle io => inferInstanceAs (Decidable (∀ _smsg ∈ front s, TakenOrFailed io.writes))
  | .wait _ => inferInstanceAs (Decidable True)
  | .waitFailed => inferInstanceAs (Decidable True)

/-- In a run in which every write that does not fail takes a byte, a link in error has
seen a failure. -/
theorem failed_of_error {listener : Nat} {store : σ} {events : List Event}
    {t : NetworkServer σ}
    (hrun : (networkServer σ).exec (NetworkServer.start listener store) events = some t)
    (hmeets : (networkServer σ).Meets SendsSome (NetworkServer.start listener store) events)
    {conn : Link} (hconn : conn ∈ t.links) (herr : conn.error_ = true) :
    (∃ reads ∈ conn.log.reads, ReadFailed reads) ∨
      ∃ writes ∈ conn.log.writes, WriteFailed writes := by
  have hblamed : Blamed conn :=
    links_invariant Blamed.ofSocket (fun _ _ _ _ hC h herr hstep => h.step herr hC hstep) hrun
      hmeets conn hconn
  exact hblamed.mp herr

/-- Every link is in error exactly after a failure, throughout exactly the runs in which every
write that does not fail takes a byte. -/
theorem blamed_iff_sendsSome {listener : Nat} {store : σ} {events : List Event}
    {t : NetworkServer σ}
    (hrun : (networkServer σ).exec (NetworkServer.start listener store) events = some t) :
    (networkServer σ).Throughout (fun s => ∀ conn ∈ s.links, Blamed conn)
        (NetworkServer.start listener store) events ↔
      (networkServer σ).Meets SendsSome (NetworkServer.start listener store) events := by
  refine links_throughout_iff (W := fun io _ => TakenOrFailed io.writes)
    (fun _ _ => Iff.rfl) (fun s e he => ?_) Blamed.ofSocket
    (fun _ _ _ _ htaken h herr hstep => h.step herr htaken hstep)
    (fun _ _ _ _ _ _ h herr _ hspec hlen hrest hblamed =>
      (h.sent_iff herr hspec hlen hrest).mp hblamed) hrun
  cases e with
  | handle io => exact absurd rfl (he io)
  | wait ready => trivial
  | waitFailed => trivial

/-- A request, a short write and a reset. -/
theorem failed_of_error_reset : ∃ (t : NetworkServer (Key → Option Value)) (conn : Link),
    (networkServer _).exec (NetworkServer.start 3 CuckoohashMap.empty)
      (connect ++ readable [.data (SendMessage.blank .PUT 1).bytes, .fail EWOULDBLOCK] ++
        writable [.count 20, .fail EWOULDBLOCK] ++ readable [.fail 104]) = some t ∧
      t.links[1]? = some conn ∧ conn.error_ = true ∧
      ((∃ reads ∈ conn.log.reads, ReadFailed reads) ∨
        ∃ writes ∈ conn.log.writes, WriteFailed writes) := by
  have hlinks : ((networkServer (Key → Option Value)).exec
      (NetworkServer.start 3 CuckoohashMap.empty)
      (connect ++ readable [.data (SendMessage.blank .PUT 1).bytes, .fail EWOULDBLOCK] ++
        writable [.count 20, .fail EWOULDBLOCK] ++ readable [.fail 104])).map
          (fun t => t.links[1]?.map fun conn => conn.error_) = some (some true) := by
    decide +kernel
  obtain ⟨t, conn, hrun, hconn, herr⟩ := exists_link_of_map hlinks
  exact ⟨t, conn, hrun, hconn, herr,
    failed_of_error hrun (by decide +kernel) (List.mem_of_getElem? hconn) herr⟩

/-- The client sends 20 bytes of a request, and its connection is given up. -/
theorem error_without_failure : ¬ ∀ events (t : NetworkServer (Key → Option Value)),
    (networkServer _).exec (NetworkServer.start 3 CuckoohashMap.empty) events = some t →
      ∀ conn ∈ t.links, conn.error_ = true →
        (∃ reads ∈ conn.log.reads, ReadFailed reads) ∨
          ∃ writes ∈ conn.log.writes, WriteFailed writes := by
  intro h
  have hlinks : ((networkServer (Key → Option Value)).exec
      (NetworkServer.start 3 CuckoohashMap.empty)
      (connect ++ readable [.data ((SendMessage.blank .PUT 1).bytes.take 20), .fail EWOULDBLOCK] ++
        writable [])).map
          (fun t => t.links[1]?.map fun conn => (conn.error_, decide (Failed conn))) =
      some (some (true, false)) := by
    decide +kernel
  obtain ⟨t, conn, hrun, hconn, hlog⟩ := exists_link_of_map hlinks
  obtain ⟨herr, hfailed⟩ := Prod.mk.inj hlog
  exact of_decide_eq_false hfailed (h _ t hrun conn (List.mem_of_getElem? hconn) herr)

end KvServer.Server5204
