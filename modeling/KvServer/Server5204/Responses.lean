import KvServer.Server5204.Steps

/-!
# Responses on the wire

`rsp_send` takes one buffer from the queue, writes what the socket takes, and
deletes the buffer.  What the socket did not take is gone, and the next buffer
follows the gap.  `Link::write` of the same class keeps its buffer until it is
written, but the server does not use it.

So the bytes on the wire and the bytes still queued make up all that was queued
exactly as long as no write takes a part of its buffer (`kept_iff_sendsWhole`).
-/

namespace KvServer.Server5204

open Transfer

/-- The socket takes the whole buffer or none of it, or it fails. -/
def TakenWhole (smsg : Buffer) (writes : List WriteAnswer) : Prop :=
  WriteFailed writes ∨ accepted writes = 0 ∨ smsg.size ≤ accepted writes

instance (smsg : Buffer) (writes : List WriteAnswer) : Decidable (TakenWhole smsg writes) :=
  inferInstanceAs (Decidable (_ ∨ _ ∨ _))

/-- What the socket took is the front of what was queued, and the rest is in the
queue. -/
structure Kept (conn : Link) : Prop where
  wire : conn.log.wire <+: conn.log.queued
  held : conn.error_ = false →
    conn.log.queued = conn.log.wire ++ conn.omsg_q.flatMap Buffer.content

theorem Kept.ofSocket (fd input output : Nat) (noblock_ : Bool) :
    Kept (Link.ofSocket fd input output noblock_) :=
  ⟨List.prefix_refl [], fun _ => rfl⟩

section Sent

variable {conn : Link} {smsg : Buffer} {omsg_q : List Buffer} {writes : List WriteAnswer}
  {w : MsgWrite} {len : Int}

/-- Exactly the writes that take a part of their buffer lose bytes. -/
theorem Kept.sent_iff (h : Kept conn) (herr : conn.error_ = false)
    (hq : conn.omsg_q = smsg :: omsg_q) (hspec : w.Spec smsg 0 [] w.wire writes)
    (hlen : w.len = some len) (hrest : w.rest = []) :
    Kept (conn.sent omsg_q writes len w.wire) ↔ TakenWhole smsg writes := by
  have hqueued : conn.log.queued =
      conn.log.wire ++ (w.wire ++ w.smsg.content) ++ omsg_q.flatMap Buffer.content := by
    rw [hspec.content, h.held herr, hq, List.flatMap_cons, List.append_assoc]
  have hsize : smsg.size.toNat = w.wire.length + w.smsg.content.length := by
    rw [← Buffer.length_content, ← hspec.content, List.length_append]
  rw [hspec.length_wire hrest] at hsize
  constructor
  · intro hkept
    rcases Nat.eq_zero_or_pos (accepted writes) with hzero | hpos
    · exact Or.inr (Or.inl hzero)
    · refine or_iff_not_imp_left.mpr fun hopen => Or.inr ?_
      -- the link is not in error, so all of the buffer has to be on the wire
      have hpos' : ¬ len ≤ 0 := Int.not_le.mpr ((hspec.len_pos_iff hlen hrest).mpr ⟨hopen, hpos⟩)
      have hheld := hkept.held (by simp [herr, hpos'])
      have hlength := congrArg List.length (hqueued.symm.trans hheld)
      simp only [Link.sent_log_wire, Link.sent_omsg_q, List.length_append] at hlength
      omega
  · intro htaken
    refine ⟨?_, fun herr' => ?_⟩
    · simp only [Link.sent_log_wire, Link.sent_log_queued]
      rw [hqueued, List.append_assoc, List.append_assoc, ← List.append_assoc]
      exact List.prefix_append _ _
    · have hpos : 0 < len := by
        simpa [herr] using herr'
      obtain ⟨hopen, hacc⟩ := (hspec.len_pos_iff hlen hrest).mp hpos
      rcases htaken with hf | hzero | hle
      · exact absurd hf hopen
      · omega
      · have hnil : w.smsg.content = [] := List.eq_nil_of_length_eq_zero (by omega)
        rw [hnil, List.append_nil] at hqueued
        exact hqueued

end Sent

/-- The other steps keep every byte. -/
theorem Kept.step {io : Io} {front : Option Buffer} {conn conn' : Link} (h : Kept conn)
    (herr : conn.error_ = false) (htaken : ∀ smsg, front = some smsg → TakenWhole smsg io.writes)
    (hstep : conn.Step io front conn') : Kept conn' := by
  cases hstep with
  | readNull hf => exact ⟨h.wire, fun herr' => by cases herr'⟩
  | readExit => exact ⟨h.wire, h.held⟩
  | @readMsgs rsp =>
      have hheld := h.held herr
      refine ⟨h.wire.trans (List.prefix_append _ _), fun herr' => ?_⟩
      simp [hheld]
  | @sent smsg omsg_q len w hfront hq hspec hlen hrest =>
      exact (h.sent_iff herr hq hspec hlen hrest).mpr (htaken smsg hfront)

variable {σ : Type} [CuckoohashMap σ Key Value]

/-- If the step sends a response buffer, the buffer is taken whole. -/
def SendsWhole (s : NetworkServer σ) : Event → Prop
  | .handle io => ∀ smsg ∈ front s, TakenWhole smsg io.writes
  | _ => True

instance (s : NetworkServer σ) : ∀ e, Decidable (SendsWhole s e)
  | .handle io => inferInstanceAs (Decidable (∀ smsg ∈ front s, TakenWhole smsg io.writes))
  | .wait _ => inferInstanceAs (Decidable True)
  | .waitFailed => inferInstanceAs (Decidable True)

/-- In a run in which every response buffer is taken whole, no response byte is lost or
out of order on any connection. -/
theorem kept_of_sendsWhole {listener : Nat} {store : σ} {events : List Event}
    {t : NetworkServer σ}
    (hrun : (networkServer σ).exec (NetworkServer.start listener store) events = some t)
    (hmeets : (networkServer σ).Meets SendsWhole (NetworkServer.start listener store) events)
    {conn : Link} (hconn : conn ∈ t.links) : conn.log.wire <+: conn.log.queued ∧
      (conn.error_ = false →
        conn.log.queued = conn.log.wire ++ conn.omsg_q.flatMap Buffer.content) := by
  have hkept : Kept conn :=
    links_invariant Kept.ofSocket
      (fun _ _ _ _ hC h herr hstep => h.step herr hC hstep)
      hrun hmeets conn hconn
  exact ⟨hkept.wire, hkept.held⟩

/-- The bytes of every connection are kept throughout exactly the runs in which every response
buffer is taken whole. -/
theorem kept_iff_sendsWhole {listener : Nat} {store : σ} {events : List Event}
    {t : NetworkServer σ}
    (hrun : (networkServer σ).exec (NetworkServer.start listener store) events = some t) :
    (networkServer σ).Throughout (fun s => ∀ conn ∈ s.links, Kept conn)
        (NetworkServer.start listener store) events ↔
      (networkServer σ).Meets SendsWhole (NetworkServer.start listener store) events := by
  refine links_throughout_iff (W := fun io smsg => TakenWhole smsg io.writes)
    (fun _ _ => Iff.rfl) (fun s e he => ?_) Kept.ofSocket
    (fun _ _ _ _ htaken h herr hstep => h.step herr htaken hstep)
    (fun _ _ _ _ _ _ h herr hq hspec hlen hrest hkept =>
      (h.sent_iff herr hq hspec hlen hrest).mp hkept) hrun
  cases e with
  | handle io => exact absurd rfl (he io)
  | wait ready => trivial
  | waitFailed => trivial

/-- One request, answered by one write. -/
theorem kept_of_sendsWhole_put : ∃ (t : NetworkServer (Key → Option Value)) (conn : Link),
    (networkServer _).exec (NetworkServer.start 3 CuckoohashMap.empty)
      (connect ++ readable [.data (SendMessage.blank .PUT 1).bytes, .fail EWOULDBLOCK] ++
        writable [.count 50]) = some t ∧
      t.links[1]? = some conn ∧ conn.log.wire.length = 50 ∧
      conn.log.wire <+: conn.log.queued := by
  have hlinks : ((networkServer (Key → Option Value)).exec
      (NetworkServer.start 3 CuckoohashMap.empty)
      (connect ++ readable [.data (SendMessage.blank .PUT 1).bytes, .fail EWOULDBLOCK] ++
        writable [.count 50])).map
          (fun t => t.links[1]?.map fun conn => conn.log.wire.length) = some (some 50) := by
    decide +kernel
  obtain ⟨t, conn, hrun, hconn, hwire⟩ := exists_link_of_map hlinks
  exact ⟨t, conn, hrun, hconn, hwire,
    (kept_of_sendsWhole hrun (by decide +kernel) (List.mem_of_getElem? hconn)).1⟩

/-- The socket takes 20 of 50 bytes, and the other 30 are lost. -/
theorem not_kept : ¬ ∀ events (t : NetworkServer (Key → Option Value)),
    (networkServer _).exec (NetworkServer.start 3 CuckoohashMap.empty) events = some t →
      ∀ conn ∈ t.links, conn.log.wire <+: conn.log.queued ∧
        (conn.error_ = false →
          conn.log.queued = conn.log.wire ++ conn.omsg_q.flatMap Buffer.content) := by
  intro h
  have hlinks : ((networkServer (Key → Option Value)).exec
      (NetworkServer.start 3 CuckoohashMap.empty)
      (connect ++ readable [.data (SendMessage.blank .PUT 1).bytes, .fail EWOULDBLOCK] ++
        writable [.count 20, .fail EWOULDBLOCK])).map
          (fun t => t.links[1]?.map fun conn => (conn.error_, conn.log.queued.length,
            (conn.log.wire ++ conn.omsg_q.flatMap Buffer.content).length)) =
      some (some (false, 50, 20)) := by
    decide +kernel
  obtain ⟨t, conn, hrun, hconn, hlog⟩ := exists_link_of_map hlinks
  obtain ⟨herr, hlog⟩ := Prod.mk.inj hlog
  obtain ⟨hqueued, hheld⟩ := Prod.mk.inj hlog
  rw [← (h _ t hrun conn (List.mem_of_getElem? hconn)).2 herr, hqueued] at hheld
  exact absurd hheld (by decide)

end KvServer.Server5204
