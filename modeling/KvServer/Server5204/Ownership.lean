import KvServer.Server5204.Steps

/-!
# Who deletes the buffers

A link owns its two buffers and the response buffers in its queue.  `rsp_send`
deletes the response buffer it has taken from the queue.  The buffer of `msg_read`
is deleted by nobody: `msg_read` forgets it when it returns NULL, and `req_recv`
forgets it when it has processed the messages in it.

`Heap.Holds` says that what is owned exists and that nothing is deleted twice, and
it holds in every run.  That everything that exists is owned (`Heap.Tight`) is lost
at the first call of `msg_read` and does not come back.
-/

namespace KvServer.Server5204

open Transfer

/-! ## Buffers and their owners -/

/-- The buffers `ids` exist, and every other buffer made so far is deleted once or still
exists. -/
structure Heap.Holds (heap : Heap) (ids : List Nat) : Prop where
  nodup : ids.Nodup
  live : ∀ id ∈ ids, id ∈ heap.live
  fresh : ∀ id, heap.next ≤ id → id ∉ heap.live ∧ id ∉ heap.deleted
  deleted : ∀ id < heap.next, heap.deleted.count id = if id ∈ heap.live then 0 else 1

/-- No other buffer exists. -/
def Heap.Tight (heap : Heap) (ids : List Nat) : Prop := ∀ id ∈ heap.live, id ∈ ids

namespace Heap

variable {heap : Heap} {ids ids' : List Nat}

theorem Holds.perm (h : heap.Holds ids) (hperm : ids'.Perm ids) : heap.Holds ids' where
  nodup := hperm.nodup_iff.mpr h.nodup
  live id hid := h.live id (hperm.mem_iff.mp hid)
  fresh := h.fresh
  deleted := h.deleted

theorem tight_perm (hperm : ids'.Perm ids) : heap.Tight ids' ↔ heap.Tight ids :=
  forall₂_congr fun _ _ => hperm.mem_iff

theorem Holds.next_not_mem (h : heap.Holds ids) : heap.next ∉ ids :=
  fun hid => (h.fresh heap.next (Nat.le_refl _)).1 (h.live _ hid)

/-- A buffer that is made and that nobody owns. -/
theorem Holds.leak (h : heap.Holds ids) : heap.new.2.Holds ids := by
  obtain ⟨hlive, hdeleted⟩ := h.fresh heap.next (Nat.le_refl _)
  refine ⟨h.nodup, fun id hid => Finset.mem_insert_of_mem (h.live id hid), fun id hid => ?_,
    fun id hid => ?_⟩
  · have hlt : heap.next < id := hid
    obtain ⟨hlive', hdeleted'⟩ := h.fresh id hlt.le
    exact ⟨fun hmem => (Finset.mem_insert.mp hmem).elim hlt.ne' hlive', hdeleted'⟩
  · show heap.deleted.count id = if id ∈ insert heap.next heap.live then 0 else 1
    rcases Nat.lt_succ_iff_lt_or_eq.mp hid with hlt | rfl
    · rw [h.deleted id hlt]
      simp only [Finset.mem_insert, hlt.ne, false_or]
    · rw [if_pos (Finset.mem_insert_self _ _)]
      exact List.count_eq_zero.mpr hdeleted

theorem not_tight_leak (h : heap.Holds ids) : ¬ heap.new.2.Tight ids :=
  fun htight => h.next_not_mem (htight heap.next (Finset.mem_insert_self _ _))

/-- A buffer that is made and owned. -/
theorem Holds.new (h : heap.Holds ids) : heap.new.2.Holds (heap.new.1 :: ids) where
  nodup := List.nodup_cons.mpr ⟨h.next_not_mem, h.nodup⟩
  live id hid := by
    rcases List.mem_cons.mp hid with rfl | hold
    · exact Finset.mem_insert_self _ _
    · exact h.leak.live id hold
  fresh := h.leak.fresh
  deleted := h.leak.deleted

theorem tight_new (h : heap.Holds ids) :
    heap.new.2.Tight (heap.new.1 :: ids) ↔ heap.Tight ids := by
  constructor
  · intro htight id hid
    rcases List.mem_cons.mp (htight id (Finset.mem_insert_of_mem hid)) with rfl | hold
    · exact absurd hid (h.fresh _ (Nat.le_refl _)).1
    · exact hold
  · intro htight id hid
    rcases Finset.mem_insert.mp hid with rfl | hold
    · exact List.mem_cons_self
    · exact List.mem_cons_of_mem _ (htight id hold)

/-- The owner deletes a buffer. -/
theorem Holds.delete {id : Nat} (h : heap.Holds (id :: ids)) : (heap.delete id).Holds ids := by
  obtain ⟨hnotin, hnodup⟩ := List.nodup_cons.mp h.nodup
  have hlive := h.live id List.mem_cons_self
  have hlt : id < heap.next := Nat.lt_of_not_le fun hle => (h.fresh id hle).1 hlive
  refine ⟨hnodup, fun id' hid' => ?_, fun id' hid' => ?_, fun id' hid' => ?_⟩
  · have hne : id' ≠ id := fun heq => hnotin (heq ▸ hid')
    exact Finset.mem_erase.mpr ⟨hne, h.live id' (List.mem_cons_of_mem _ hid')⟩
  · obtain ⟨hlive', hdeleted'⟩ := h.fresh id' hid'
    refine ⟨fun hmem => hlive' (Finset.mem_of_mem_erase hmem), fun hmem => ?_⟩
    rcases List.mem_append.mp hmem with hmem | hmem
    · exact hdeleted' hmem
    · rw [List.mem_singleton.mp hmem] at hid'
      exact absurd hid' (Nat.not_le.mpr hlt)
  · show (heap.deleted ++ [id]).count id' = if id' ∈ heap.live.erase id then 0 else 1
    rw [List.count_append, h.deleted id' hid']
    by_cases heq : id' = id
    · subst heq
      simp [hlive]
    · simp [Finset.mem_erase, heq, Ne.symm heq]

theorem tight_delete {id : Nat} (h : heap.Holds (id :: ids)) :
    (heap.delete id).Tight ids ↔ heap.Tight (id :: ids) := by
  have hnotin := (List.nodup_cons.mp h.nodup).1
  constructor
  · intro htight id' hid'
    by_cases heq : id' = id
    · rw [heq]
      exact List.mem_cons_self
    · exact List.mem_cons_of_mem _ (htight id' (Finset.mem_erase.mpr ⟨heq, hid'⟩))
  · intro htight id' hid'
    obtain ⟨hne, hlive⟩ := Finset.mem_erase.mp hid'
    exact (List.mem_cons.mp (htight id' hlive)).resolve_left hne

end Heap

/-! ## The buffers of the links -/

/-- The buffers that belong to a link. -/
def Link.buffers (conn : Link) : List Nat :=
  conn.input :: conn.output :: conn.omsg_q.map Buffer.id

/-- The buffers that belong to some link. -/
def owned (links : List Link) : List Nat := links.flatMap Link.buffers

theorem owned_ofSocket (links : List Link) (fd input output : Nat) (noblock_ : Bool) :
    (owned (links ++ [Link.ofSocket fd input output noblock_])).Perm
      (output :: input :: owned links) := by
  rw [owned, List.flatMap_append]
  refine List.perm_append_comm.trans ?_
  exact List.Perm.swap output input (owned links)

/-- When a link is changed, the buffers of the others are not affected. -/
theorem owned_set {links : List Link} {i : Nat} {conn : Link} (hconn : links[i]? = some conn) :
    ∃ rest, ∀ conn', (owned (links.set i conn')).Perm (conn'.buffers ++ rest) := by
  induction links generalizing i with
  | nil => cases hconn
  | cons first links ih =>
      cases i with
      | zero => exact ⟨owned links, fun conn' => .refl _⟩
      | succ i =>
          obtain ⟨rest, hrest⟩ := ih hconn
          refine ⟨first.buffers ++ rest, fun conn' => ?_⟩
          rw [List.set_cons_succ, owned, List.flatMap_cons]
          refine ((hrest conn').append_left first.buffers).trans ?_
          rw [← List.append_assoc, ← List.append_assoc]
          exact List.perm_append_comm.append_right rest

/-- A link that keeps its buffers. -/
theorem owned_set_of_eq {links : List Link} {i : Nat} {conn conn' : Link}
    (hconn : links[i]? = some conn) (hbuffers : conn'.buffers = conn.buffers) :
    (owned (links.set i conn')).Perm (owned links) := by
  obtain ⟨rest, hrest⟩ := owned_set hconn
  have hself := hrest conn
  rw [links_set_self hconn] at hself
  have hset := hrest conn'
  rw [hbuffers] at hset
  exact hset.trans hself.symm

/-- A link that gets one more buffer. -/
theorem owned_set_of_perm_cons {links : List Link} {i id : Nat} {conn conn' : Link}
    (hconn : links[i]? = some conn) (hbuffers : conn'.buffers.Perm (id :: conn.buffers)) :
    (owned (links.set i conn')).Perm (id :: owned links) := by
  obtain ⟨rest, hrest⟩ := owned_set hconn
  have hself := hrest conn
  rw [links_set_self hconn] at hself
  exact (hrest conn').trans ((hbuffers.append_right rest).trans (hself.symm.cons id))

/-- A link that gives a buffer up. -/
theorem owned_perm_cons {links : List Link} {i id : Nat} {conn conn' : Link}
    (hconn : links[i]? = some conn) (hbuffers : conn.buffers.Perm (id :: conn'.buffers)) :
    (owned links).Perm (id :: owned (links.set i conn')) := by
  obtain ⟨rest, hrest⟩ := owned_set hconn
  have hself := hrest conn
  rw [links_set_self hconn] at hself
  exact hself.trans ((hbuffers.append_right rest).trans ((hrest conn').symm.cons id))

theorem buffers_push (conn : Link) (rsp : Buffer) :
    (conn.push rsp).buffers.Perm (rsp.id :: conn.buffers) := by
  rw [Link.buffers, Link.push_omsg_q, List.map_append, ← List.cons_append, ← List.cons_append]
  exact List.perm_append_comm

theorem buffers_sent {conn : Link} {smsg : Buffer} {omsg_q : List Buffer}
    (hq : conn.omsg_q = smsg :: omsg_q) (writes : List WriteAnswer) (len : Int) (wire : List Byte) :
    conn.buffers.Perm (smsg.id :: (conn.sent omsg_q writes len wire).buffers) := by
  rw [Link.buffers, hq, List.map_cons]
  exact ((List.Perm.swap _ _ _).cons _).trans (List.Perm.swap _ _ _)

variable {σ : Type}

def NetworkServer.Holds (s : NetworkServer σ) : Prop := s.heap.Holds (owned s.links)

def NetworkServer.Tight (s : NetworkServer σ) : Prop := s.heap.Tight (owned s.links)

theorem Heap.Holds.start : Heap.Holds ⟨2, {0, 1}, []⟩ [0, 1] where
  nodup := by decide
  live := by decide
  fresh id hid := by
    refine ⟨fun hmem => ?_, List.not_mem_nil⟩
    rcases Finset.mem_insert.mp hmem with rfl | hmem
    · exact absurd hid (by decide)
    · rw [Finset.mem_singleton.mp hmem] at hid
      exact absurd hid (by decide)
  deleted := by decide

theorem NetworkServer.Holds.start (listener : Nat) (store : σ) :
    (NetworkServer.start listener store).Holds :=
  Heap.Holds.start

theorem NetworkServer.Tight.start (listener : Nat) (store : σ) :
    (NetworkServer.start listener store).Tight :=
  show Heap.Tight ⟨2, {0, 1}, []⟩ [0, 1] from fun id hid => by simpa using hid

/-- The step does not call `msg_read`. -/
def ReadsNothing : NetworkServer σ → Event → Prop := OnCalls (fun _ => False) fun _ => True

instance (s : NetworkServer σ) (e : Event) : Decidable (ReadsNothing s e) :=
  inferInstanceAs (Decidable (OnCalls _ _ s e))

variable [CuckoohashMap σ Key Value]

/-- Exactly the steps that do not read leave no buffer without an owner. -/
theorem NetworkServer.Holds.step {s t : NetworkServer σ} {e : Event} (h : s.Holds)
    (hstep : s.step e = some t) : t.Holds ∧ (t.Tight ↔ s.Tight ∧ ReadsNothing s e) := by
  cases NetworkServer.step_cases hstep with
  | wait => exact ⟨h, (and_iff_left trivial).symm⟩
  | waitFailed => exact ⟨h, (and_iff_left trivial).symm⟩
  | idle hready hread hsend => exact ⟨h, (and_iff_left (onCalls_idle hread hsend)).symm⟩
  | sendEmpty hready hptr hi hconn herr hq hread hsend =>
      exact ⟨h, (and_iff_left (onCalls_idle hread hsend)).symm⟩
  | @accepted io fd new ready hready hnew hread hsend =>
      have hperm := owned_ofSocket s.links new s.heap.new.1 s.heap.new.2.new.1 true
      refine ⟨(Heap.Holds.new (Heap.Holds.new h)).perm hperm, ?_⟩
      refine (Heap.tight_perm hperm).trans ?_
      rw [Heap.tight_new (Heap.Holds.new h), Heap.tight_new h]
      exact (and_iff_left (onCalls_idle hread hsend)).symm
  | @readNull io fd i conn ready hready hread hi hconn herr hfailed =>
      have hperm : (owned (s.links.set i (conn.readNull io.reads))).Perm (owned s.links) :=
        owned_set_of_eq hconn rfl
      refine ⟨(Heap.Holds.leak h).perm hperm, (Heap.tight_perm hperm).trans ?_⟩
      rw [ReadsNothing, onCalls_reading hread, and_false, iff_false]
      exact Heap.not_tight_leak h
  | @readExit io fd i conn ready store windows hready hread hi hconn herr hopen hpre hbad =>
      have hperm : (owned (s.links.set i (conn.readMsgs io.reads windows))).Perm (owned s.links) :=
        owned_set_of_eq hconn rfl
      refine ⟨(Heap.Holds.leak h).perm hperm, (Heap.tight_perm hperm).trans ?_⟩
      rw [ReadsNothing, onCalls_reading hread, and_false, iff_false]
      exact Heap.not_tight_leak h
  | @readMsgs io fd i conn ready store rsp hready hread hi hconn herr hopen hid hlen =>
      have hperm := owned_set_of_perm_cons hconn
        (buffers_push (conn.readMsgs io.reads (messages (received io.reads))) rsp)
      rw [hid] at hperm
      refine ⟨(Heap.Holds.leak h).new.perm hperm, (Heap.tight_perm hperm).trans ?_⟩
      rw [ReadsNothing, onCalls_reading hread, and_false, iff_false,
        Heap.tight_new (Heap.Holds.leak h)]
      exact Heap.not_tight_leak h
  | @sent io fd i conn ready smsg omsg_q len w hready hsend hi hconn herr hq hspec hlen hrest =>
      have hperm := owned_perm_cons hconn (buffers_sent hq io.writes len w.wire)
      have hholds := Heap.Holds.perm h hperm.symm
      refine ⟨hholds.delete, (Heap.tight_delete hholds).trans ?_⟩
      rw [ReadsNothing, onCalls_sending hsend, and_true]
      exact Heap.tight_perm hperm.symm

/-- The buffers of the links are the ones that exist, and every other buffer was deleted
once, at the end of exactly the runs in which `msg_read` is never called. -/
theorem live_eq_owned_iff {listener : Nat} {store : σ} {events : List Event}
    {t : NetworkServer σ}
    (hrun : (networkServer σ).exec (NetworkServer.start listener store) events = some t) :
    ((∀ id, id ∈ t.heap.live ↔ id ∈ owned t.links) ∧
        ∀ id < t.heap.next, t.heap.deleted.count id = if id ∈ owned t.links then 0 else 1) ↔
      (networkServer σ).Meets ReadsNothing (NetworkServer.start listener store) events := by
  have hstart := NetworkServer.Holds.start listener store
  have htight := NetworkServer.Tight.start listener store
  have hholds : t.Holds :=
    Machine.exec_invariant_of (I := NetworkServer.Holds) (C := fun _ _ => True)
      (fun _ _ _ h _ hstep => (h.step hstep).1) hrun (.of_events fun _ _ _ => trivial) hstart
  have hiff := Machine.exec_iff_meets (I := NetworkServer.Holds) (G := NetworkServer.Tight)
    (fun _ _ _ h hstep => h.step hstep) hrun hstart
  rw [and_iff_right htight] at hiff
  rw [← hiff]
  constructor
  · exact fun h id hid => (h.1 id).mp hid
  · intro htight
    have hlive : ∀ id, id ∈ t.heap.live ↔ id ∈ owned t.links :=
      fun id => ⟨fun hid => htight id hid, fun hid => hholds.live id hid⟩
    refine ⟨hlive, fun id hid => ?_⟩
    rw [hholds.deleted id hid]
    simp only [hlive]

/-- A connection that is accepted and silent. -/
theorem live_eq_owned_iff_connect : ∃ t : NetworkServer (Key → Option Value),
    (networkServer _).exec (NetworkServer.start 3 CuckoohashMap.empty) connect = some t ∧
      (∀ id, id ∈ t.heap.live ↔ id ∈ owned t.links) ∧
      ∀ id < t.heap.next, t.heap.deleted.count id = if id ∈ owned t.links then 0 else 1 := by
  have hsome : ((networkServer (Key → Option Value)).exec
      (NetworkServer.start 3 CuckoohashMap.empty) connect).isSome := by
    decide +kernel
  obtain ⟨t, hrun⟩ := Option.isSome_iff_exists.mp hsome
  exact ⟨t, hrun, (live_eq_owned_iff hrun).mpr (by decide +kernel)⟩

/-- One request is read and answered in full.  The buffer it was read into is still
there. -/
theorem read_buffer_leak : ¬ ∀ events (t : NetworkServer (Key → Option Value)),
    (networkServer _).exec (NetworkServer.start 3 CuckoohashMap.empty) events = some t →
      (∀ id, id ∈ t.heap.live ↔ id ∈ owned t.links) ∧
      ∀ id < t.heap.next, t.heap.deleted.count id = if id ∈ owned t.links then 0 else 1 := by
  intro h
  have hrun : ((networkServer (Key → Option Value)).exec
      (NetworkServer.start 3 CuckoohashMap.empty)
      (connect ++ readable [.data (SendMessage.blank .PUT 1).bytes, .fail EWOULDBLOCK] ++
        writable [.count KVSTORE_CONTENT_LEN])).map
          (fun t => (t.heap.live, owned t.links)) = some ({0, 1, 2, 3, 4}, [0, 1, 2, 3]) := by
    decide +kernel
  obtain ⟨t, hrun, ht⟩ := Option.map_eq_some_iff.mp hrun
  obtain ⟨hlive, howned⟩ := Prod.mk.inj ht
  have hiff := (h _ t hrun).1 4
  rw [hlive, howned] at hiff
  exact absurd hiff (by decide)

end KvServer.Server5204
