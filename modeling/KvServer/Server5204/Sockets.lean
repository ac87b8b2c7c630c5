import Mathlib.Data.Finset.Card
import KvServer.Server5204.Steps

/-!
# Open sockets

The server calls no `close` and deletes no link, although `req_recv` and `rsp_send`
say "delete link" where they mark one, and `conn_count` is never decremented.  So the
open sockets are those of all links that were ever accepted, and `conn_count` is
their number (`Opened`).

The open sockets are therefore those of the links that are not in error exactly as
long as no link is marked.
-/

namespace KvServer.Server5204

open Transfer

/-- The open descriptors: the listening socket, which the first link has, and one for
each link behind it. -/
structure Opened (listener : Nat) (links : List Link) (openFds : Finset Nat) (conn_count : Int) :
    Prop where
  socks : links.map Link.sock = listener :: links.tail.map Link.sock
  openFds : openFds = (links.map Link.sock).toFinset
  nodup : (links.map Link.sock).Nodup
  conn_count : conn_count = links.tail.length

/-- No accepted link is in error. -/
def Working (links : List Link) : Prop := ∀ conn ∈ links.tail, conn.error_ = false

section

variable {listener : Nat} {links : List Link} {openFds : Finset Nat} {conn_count : Int}

theorem Opened.nodup_cons (h : Opened listener links openFds conn_count) :
    listener ∉ links.tail.map Link.sock ∧ (links.tail.map Link.sock).Nodup := by
  have hnodup := h.nodup
  rw [h.socks] at hnodup
  exact List.nodup_cons.mp hnodup

/-- The accepted sockets are all open. -/
theorem Opened.erase_eq (h : Opened listener links openFds conn_count) :
    openFds.erase listener = (links.tail.map Link.sock).toFinset := by
  rw [h.openFds, h.socks, List.toFinset_cons, Finset.erase_insert]
  rw [List.mem_toFinset]
  exact h.nodup_cons.1

theorem Opened.card_eq (h : Opened listener links openFds conn_count) :
    conn_count = (openFds.erase listener).card := by
  rw [h.erase_eq, List.toFinset_card_of_nodup h.nodup_cons.2, List.length_map]
  exact h.conn_count

/-- A link that is marked keeps its socket open. -/
theorem Opened.erase_eq_iff (h : Opened listener links openFds conn_count) :
    openFds.erase listener =
        ((links.tail.filter fun conn => !conn.error_).map Link.sock).toFinset ↔
      Working links := by
  rw [h.erase_eq]
  constructor
  · intro heq conn hmem
    have hsock : conn.sock ∈ (links.tail.map Link.sock).toFinset :=
      List.mem_toFinset.mpr (List.mem_map_of_mem hmem)
    rw [heq, List.mem_toFinset, List.mem_map] at hsock
    obtain ⟨other, hother, hsame⟩ := hsock
    obtain ⟨hmem', hworks⟩ := List.mem_filter.mp hother
    rw [List.inj_on_of_nodup_map h.nodup_cons.2 hmem' hmem hsame] at hworks
    simpa using hworks
  · intro hall
    rw [List.filter_eq_self.mpr fun conn hmem => by rw [hall conn hmem]; rfl]

/-- A new link on a descriptor that was not open. -/
theorem Opened.accepted {new : Nat} (h : Opened listener links openFds conn_count)
    (hnew : new ∉ openFds) (input output : Nat) (noblock_ : Bool) :
    Opened listener (links ++ [Link.ofSocket new input output noblock_]) (insert new openFds)
        (conn_count + 1) ∧
      (Working (links ++ [Link.ofSocket new input output noblock_]) ↔ Working links) := by
  have hsocks := map_sock_ofSocket links new input output noblock_
  have hne : links ≠ [] := by
    rintro rfl
    cases h.socks
  have htail : (links ++ [Link.ofSocket new input output noblock_]).tail =
      links.tail ++ [Link.ofSocket new input output noblock_] :=
    List.tail_append_of_ne_nil hne
  have hunused : new ∉ links.map Link.sock := by
    rw [← List.mem_toFinset, ← h.openFds]
    exact hnew
  refine ⟨⟨?_, ?_, nodup_sock_ofSocket h.nodup hunused _ _ _, ?_⟩, ?_⟩
  · rw [hsocks, htail, map_sock_ofSocket, h.socks]
    rfl
  · rw [hsocks, h.openFds, List.toFinset_append]
    simp [Finset.union_comm]
  · rw [htail, List.length_append, h.conn_count]
    rfl
  · rw [Working, Working, htail]
    simp [or_imp, forall_and]

/-- A link that works is changed, and works afterwards exactly if `P`. -/
theorem Opened.touched {P : Prop} {i : Nat} {conn conn' : Link}
    (h : Opened listener links openFds conn_count) (hi : i ≠ 0) (hconn : links[i]? = some conn)
    (herr : conn.error_ = false) (hsock : conn'.sock = conn.sock)
    (hP : conn'.error_ = false ↔ P) :
    Opened listener (links.set i conn') openFds conn_count ∧
      (Working (links.set i conn') ↔ Working links ∧ P) := by
  obtain ⟨j, rfl⟩ := Nat.exists_eq_succ_of_ne_zero hi
  have htail : (links.set (j + 1) conn').tail = links.tail.set j conn' := by
    cases links <;> rfl
  have hconn' : links.tail[j]? = some conn := by
    rw [List.getElem?_tail]
    exact hconn
  have hlen := (List.getElem?_eq_some_iff.mp hconn').1
  have hsocks := map_sock_set hconn hsock
  refine ⟨⟨?_, ?_, ?_, ?_⟩, ?_⟩
  · rw [htail, hsocks, map_sock_set hconn' hsock, h.socks]
  · rw [hsocks, h.openFds]
  · rw [hsocks]
    exact h.nodup
  · rw [htail, List.length_set, h.conn_count]
  · rw [Working, Working, htail, ← hP]
    constructor
    · intro hall
      refine ⟨fun other hmem => ?_, hall conn' (List.mem_set hlen conn')⟩
      obtain ⟨k, hk⟩ := List.mem_iff_getElem?.mp hmem
      by_cases hjk : j = k
      · subst hjk
        cases hconn'.symm.trans hk
        exact herr
      · exact hall other (List.mem_of_getElem? ((List.getElem?_set_ne hjk).trans hk))
    · rintro ⟨hall, hself⟩ other hmem
      rcases List.mem_or_eq_of_mem_set hmem with hmem | rfl
      · exact hall other hmem
      · exact hself

end

variable {σ : Type}

/-- The sockets that were accepted and are not closed. -/
def NetworkServer.openSockets (listener : Nat) (s : NetworkServer σ) : Finset Nat :=
  s.openFds.erase listener

/-- The sockets of the links that were accepted and are not in error. -/
def NetworkServer.workingSockets (s : NetworkServer σ) : Finset Nat :=
  ((s.links.tail.filter fun conn => !conn.error_).map Link.sock).toFinset

def NetworkServer.Opened (listener : Nat) (s : NetworkServer σ) : Prop :=
  Server5204.Opened listener s.links s.openFds s.conn_count

/-- The step marks no link: a read does not fail, and a write takes a byte and does not
fail. -/
def MarksNone : NetworkServer σ → Event → Prop :=
  OnCalls (fun io => ¬ ReadFailed io.reads)
    fun io => ¬ WriteFailed io.writes ∧ 0 < accepted io.writes

instance (s : NetworkServer σ) (e : Event) : Decidable (MarksNone s e) :=
  inferInstanceAs (Decidable (OnCalls _ _ s e))

variable [CuckoohashMap σ Key Value]

/-- Exactly the steps that mark no link keep all links working. -/
theorem NetworkServer.Opened.step {listener : Nat} {s t : NetworkServer σ} {e : Event}
    (h : s.Opened listener) (hstep : s.step e = some t) :
    t.Opened listener ∧ (Working t.links ↔ Working s.links ∧ MarksNone s e) := by
  cases NetworkServer.step_cases hstep with
  | wait => exact ⟨h, (and_iff_left trivial).symm⟩
  | waitFailed => exact ⟨h, (and_iff_left trivial).symm⟩
  | idle hready hread hsend => exact ⟨h, (and_iff_left (onCalls_idle hread hsend)).symm⟩
  | sendEmpty hready hptr hi hconn herr hq hread hsend =>
      exact ⟨h, (and_iff_left (onCalls_idle hread hsend)).symm⟩
  | accepted hready hnew hread hsend =>
      refine (Server5204.Opened.accepted h hnew _ _ true).imp_right fun hworking => ?_
      exact hworking.trans (and_iff_left (onCalls_idle hread hsend)).symm
  | readNull hready hread hi hconn herr hfailed =>
      refine Server5204.Opened.touched h hi hconn herr rfl ?_
      rw [MarksNone, onCalls_reading hread]
      simp [hfailed]
  | readExit hready hread hi hconn herr hopen hpre hbad =>
      refine Server5204.Opened.touched h hi hconn herr rfl ?_
      rw [MarksNone, onCalls_reading hread]
      simp [hopen, herr]
  | readMsgs hready hread hi hconn herr hopen hid hlen =>
      refine Server5204.Opened.touched h hi hconn herr rfl ?_
      rw [MarksNone, onCalls_reading hread]
      simp [hopen, herr]
  | sent hready hsend hi hconn herr hq hspec hlen hrest =>
      refine Server5204.Opened.touched h hi hconn herr rfl ?_
      rw [MarksNone, onCalls_sending hsend, ← hspec.len_pos_iff hlen hrest]
      simp [herr]

/-- The open sockets are those of the links that are not in error, and `conn_count` is
their number, at the end of exactly the runs that mark no link. -/
theorem openSockets_eq_iff {listener : Nat} {store : σ} {events : List Event}
    {t : NetworkServer σ}
    (hrun : (networkServer σ).exec (NetworkServer.start listener store) events = some t) :
    (t.openSockets listener = t.workingSockets ∧ t.conn_count = (t.openSockets listener).card) ↔
      (networkServer σ).Meets MarksNone (NetworkServer.start listener store) events := by
  have hstart : (NetworkServer.start listener store).Opened listener :=
    ⟨rfl, rfl, List.nodup_singleton _, rfl⟩
  have hworking : Working (NetworkServer.start listener store).links := by
    intro conn hmem
    cases hmem
  have hopened : t.Opened listener :=
    Machine.exec_invariant_of (I := NetworkServer.Opened listener) (C := fun _ _ => True)
      (fun _ _ _ h _ hstep => (h.step hstep).1) hrun (.of_events fun _ _ _ => trivial) hstart
  have hiff := Machine.exec_iff_meets (I := NetworkServer.Opened listener)
    (G := fun s => Working s.links) (fun _ _ _ h hstep => NetworkServer.Opened.step h hstep)
    hrun hstart
  rw [and_iff_right hworking] at hiff
  rw [← hiff]
  exact (and_iff_left hopened.card_eq).trans hopened.erase_eq_iff

/-- A request of a client that stays. -/
theorem openSockets_eq_iff_put : ∃ t : NetworkServer (Key → Option Value),
    (networkServer _).exec (NetworkServer.start 3 CuckoohashMap.empty)
      (connect ++ readable [.data (SendMessage.blank .PUT 1).bytes, .fail EWOULDBLOCK] ++
        writable [.count KVSTORE_CONTENT_LEN]) = some t ∧
      t.openSockets 3 = t.workingSockets ∧ t.conn_count = (t.openSockets 3).card := by
  have hsome : ((networkServer (Key → Option Value)).exec
      (NetworkServer.start 3 CuckoohashMap.empty)
      (connect ++ readable [.data (SendMessage.blank .PUT 1).bytes, .fail EWOULDBLOCK] ++
        writable [.count KVSTORE_CONTENT_LEN])).isSome := by
    decide +kernel
  obtain ⟨t, hrun⟩ := Option.isSome_iff_exists.mp hsome
  exact ⟨t, hrun, (openSockets_eq_iff hrun).mpr (by decide +kernel)⟩

/-- The client closes its connection, and the server keeps the socket open. -/
theorem openSockets_leak : ¬ ∀ events (t : NetworkServer (Key → Option Value)),
    (networkServer _).exec (NetworkServer.start 3 CuckoohashMap.empty) events = some t →
      t.openSockets 3 = t.workingSockets ∧ t.conn_count = (t.openSockets 3).card := by
  intro h
  have hrun : ((networkServer (Key → Option Value)).exec
      (NetworkServer.start 3 CuckoohashMap.empty) (connect ++ readable [.data []])).map
        (fun t => (t.openSockets 3, t.workingSockets)) = some ({7}, ∅) := by
    decide +kernel
  obtain ⟨t, hrun, ht⟩ := Option.map_eq_some_iff.mp hrun
  obtain ⟨hopen, hworking⟩ := Prod.mk.inj ht
  have heq := (h _ t hrun).1
  rw [hopen, hworking] at heq
  exact absurd heq (by decide)

end KvServer.Server5204
