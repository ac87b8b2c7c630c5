import KvServer.Server5204.Steps

/-!
# Subscriptions of links

Subscriptions change in four places.  `main_loop` subscribes a new link to reads,
`req_recv` subscribes a link to writes when it has queued a response and drops all
subscriptions when it gives the link up, and `rsp_send` ends the subscription to
writes when it finds the queue empty.  `set` leaves the pointer alone when the flag
is there already, so the pointer has to be right from the start.

`Subscribed` says that every link that is not in error is subscribed to reads, that
its entry points back to it, and that it is subscribed to writes while responses
are queued.  The links have different sockets, all of them open, so a step that
touches one link leaves the entries of the others alone.
-/

namespace KvServer.Server5204

open Fdevents Transfer

/-- The entry of a link, which is at index `i`. -/
structure Watched (fdes : Fdevents) (i : Nat) (conn : Link) : Prop where
  readable : .IN ∈ (fdes.entry conn.sock).s_flags
  ptr : (fdes.entry conn.sock).ptr = some i
  writable : conn.omsg_q ≠ [] → .OUT ∈ (fdes.entry conn.sock).s_flags

/-- The invariant of the subscriptions. -/
structure Subscribed (listener : Nat) (fdes : Fdevents) (links : List Link)
    (openFds : Finset Nat) : Prop where
  synced : fdes.Synced
  nodup : (links.map Link.sock).Nodup
  open_ : ∀ fd ∈ links.map Link.sock, fd ∈ openFds
  fresh : ∀ fd ∉ openFds, (fdes.entry fd).s_flags = ∅
  listener : ∃ client_conn, links[0]? = some client_conn ∧ client_conn.sock = listener ∧
    client_conn.error_ = false
  watched : ∀ i conn, links[i]? = some conn → conn.error_ = false → Watched fdes i conn

/-- An entry with the same subscriptions and the same pointer. -/
theorem Watched.congr {fdes fdes' : Fdevents} {i : Nat} {conn : Link} (h : Watched fdes i conn)
    (hflags : (fdes'.entry conn.sock).s_flags = (fdes.entry conn.sock).s_flags)
    (hptr : (fdes'.entry conn.sock).ptr = (fdes.entry conn.sock).ptr) : Watched fdes' i conn where
  readable := by rw [hflags]; exact h.readable
  ptr := by rw [hptr]; exact h.ptr
  writable hq := by rw [hflags]; exact h.writable hq

/-- Once a response is queued, the link is subscribed to writes. -/
theorem Watched.push {fdes : Fdevents} {i : Nat} {conn : Link} (h : Watched fdes i conn)
    (ok : Bool) (conn' : Link) (hsock : conn'.sock = conn.sock) :
    Watched (fdes.set ok conn.sock .OUT 1 (some i)).2 i conn' := by
  rcases Decidable.em (.OUT ∈ (fdes.entry conn.sock).s_flags) with hout | hout
  · have hentry := @entry_set_of_mem fdes conn.sock .OUT 1 (some i) ok hout conn.sock
    constructor
    · rw [hsock, hentry]
      exact h.readable
    · rw [hsock, hentry]
      exact h.ptr
    · intro _
      rw [hsock, hentry]
      exact hout
  · have hentry := @entry_set_of_not_mem fdes conn.sock .OUT 1 (some i) ok hout conn.sock
    rw [if_pos rfl] at hentry
    constructor
    · rw [hsock, hentry]
      exact Finset.mem_insert_of_mem h.readable
    · rw [hsock, hentry]
    · intro _
      rw [hsock, hentry]
      exact Finset.mem_insert_self _ _

/-- The subscription to writes may end when the queue is empty. -/
theorem Watched.clr {fdes : Fdevents} {i : Nat} {conn : Link} (h : Watched fdes i conn)
    (hq : conn.omsg_q = []) (ok : Bool) :
    Watched (fdes.clr ok conn.sock .OUT).2 i conn := by
  have hentry := @entry_clr fdes conn.sock .OUT ok conn.sock
  rw [if_pos rfl] at hentry
  constructor
  · rw [hentry]
    exact Finset.mem_erase.mpr ⟨fun h => (by cases h), h.readable⟩
  · rw [hentry]
    exact h.ptr
  · exact fun hne => absurd hq hne

section Subscribed

variable {listener : Nat} {fdes fdes' : Fdevents} {links : List Link} {openFds : Finset Nat}

/-- A link that is changed keeps its socket, and only its own entry changes. -/
theorem Subscribed.touch {i : Nat} {conn conn' : Link}
    (h : Subscribed listener fdes links openFds) (hi : i ≠ 0) (hconn : links[i]? = some conn)
    (hsock : conn'.sock = conn.sock) (hsynced : fdes'.Synced)
    (hother : ∀ fd, fd ≠ conn.sock → fdes'.entry fd = fdes.entry fd)
    (hself : conn'.error_ = false → Watched fdes' i conn') :
    Subscribed listener fdes' (links.set i conn') openFds := by
  have hlen := (List.getElem?_eq_some_iff.mp hconn).1
  have hsocks := map_sock_set hconn hsock
  refine ⟨hsynced, ?_, ?_, fun fd hfd => ?_, ?_, fun j other hj herr => ?_⟩
  · rw [hsocks]
    exact h.nodup
  · rw [hsocks]
    exact h.open_
  · -- a descriptor that is not open is not that of the link
    have hne : fd ≠ conn.sock := by
      rintro rfl
      exact hfd (h.open_ _ (List.mem_map_of_mem (List.mem_of_getElem? hconn)))
    rw [hother fd hne]
    exact h.fresh fd hfd
  · rw [List.getElem?_set_ne hi]
    exact h.listener
  · by_cases hij : i = j
    · subst hij
      rw [List.getElem?_set_self hlen] at hj
      cases hj
      exact hself herr
    · rw [List.getElem?_set_ne hij] at hj
      have hne := sock_ne_of_index_ne h.nodup hconn hj hij
      have hentry := hother other.sock hne
      exact (h.watched j other hj herr).congr (by rw [hentry]) (by rw [hentry])

/-- A table with the same subscriptions and pointers. -/
theorem Subscribed.congr (h : Subscribed listener fdes links openFds) (hsynced : fdes'.Synced)
    (hflags : ∀ fd, (fdes'.entry fd).s_flags = (fdes.entry fd).s_flags)
    (hptr : ∀ fd, (fdes'.entry fd).ptr = (fdes.entry fd).ptr) :
    Subscribed listener fdes' links openFds where
  synced := hsynced
  nodup := h.nodup
  open_ := h.open_
  fresh fd hfd := by rw [hflags]; exact h.fresh fd hfd
  listener := h.listener
  watched i conn hconn herr := (h.watched i conn hconn herr).congr (hflags _) (hptr _)

/-- A new link on a descriptor that was not open. -/
theorem Subscribed.accepted {new input output : Nat} {noblock_ : Bool}
    (h : Subscribed listener fdes links openFds) (hnew : new ∉ openFds) :
    Subscribed listener (fdes.set true new .IN 1 (some links.length)).2
      (links ++ [Link.ofSocket new input output noblock_]) (insert new openFds) := by
  have hempty := h.fresh new hnew
  have hin : .IN ∉ (fdes.entry new).s_flags := by
    rw [hempty]
    exact Finset.notMem_empty _
  have hentry := @entry_set_of_not_mem fdes new .IN 1 (some links.length) true hin
  have hsocks := map_sock_ofSocket links new input output noblock_
  have hunused : new ∉ links.map Link.sock := fun hmem => hnew (h.open_ new hmem)
  refine ⟨h.synced.set.2, nodup_sock_ofSocket h.nodup hunused _ _ _, fun fd hfd => ?_,
    fun fd hfd => ?_, ?_, fun i conn hconn herr => ?_⟩
  · rw [hsocks] at hfd
    rcases List.mem_append.mp hfd with hfd | hfd
    · exact Finset.mem_insert_of_mem (h.open_ fd hfd)
    · rw [List.mem_singleton.mp hfd]
      exact Finset.mem_insert_self _ _
  · rw [Finset.mem_insert, not_or] at hfd
    rw [hentry, if_neg hfd.1]
    exact h.fresh fd hfd.2
  · obtain ⟨client_conn, hzero, hrest⟩ := h.listener
    exact ⟨client_conn, List.getElem?_append_left (List.getElem?_eq_some_iff.mp hzero).1 ▸ hzero,
      hrest⟩
  · rcases Nat.lt_trichotomy i links.length with hlt | heq | hgt
    · rw [List.getElem?_append_left hlt] at hconn
      have hne : conn.sock ≠ new := fun heq =>
        hunused (heq ▸ List.mem_map_of_mem (List.mem_of_getElem? hconn))
      have hsame := (hentry conn.sock).trans (if_neg hne)
      exact (h.watched i conn hconn herr).congr (by rw [hsame]) (by rw [hsame])
    · rw [heq, List.getElem?_concat_length] at hconn
      cases hconn
      have hself := (hentry new).trans (if_pos rfl)
      refine ⟨?_, ?_, fun hq => absurd rfl hq⟩
      · show .IN ∈ (entry _ new).s_flags
        rw [hself]
        exact Finset.mem_insert_self _ _
      · show (entry _ new).ptr = _
        rw [hself, heq]
    · rw [List.getElem?_eq_none (by rw [List.length_append]; exact hgt)] at hconn
      cases hconn

end Subscribed

variable {σ : Type}

/-- `epoll_ctl` succeeds in the step. -/
def Event.CtlSucceeds : Event → Prop
  | .handle io => io.ctl = true
  | _ => True

instance : DecidablePred Event.CtlSucceeds
  | .handle io => inferInstanceAs (Decidable (io.ctl = true))
  | .wait _ => inferInstanceAs (Decidable True)
  | .waitFailed => inferInstanceAs (Decidable True)

/-- The invariant of the subscriptions in a state of the server. -/
def NetworkServer.Subscribed (listener : Nat) (s : NetworkServer σ) : Prop :=
  Server5204.Subscribed listener s.fdes s.links s.openFds

theorem NetworkServer.Subscribed.start (listener : Nat) (store : σ) :
    (NetworkServer.start listener store).Subscribed listener := by
  have hsynced : Synced ⟨[], fun _ => none⟩ := fun fd => rfl
  have hentry := @entry_set_of_not_mem ⟨[], fun _ => none⟩ listener .IN 0 (some 0) true
    (Finset.notMem_empty _)
  refine ⟨hsynced.set.2, List.nodup_singleton _, fun fd hfd => ?_, fun fd hfd => ?_, ?_,
    fun i conn hconn _ => ?_⟩
  · exact Finset.mem_singleton.mpr (List.mem_singleton.mp hfd)
  · have hne : fd ≠ listener := fun heq => hfd (Finset.mem_singleton.mpr heq)
    exact congrArg Fdevent.s_flags ((hentry fd).trans (if_neg hne))
  · exact ⟨_, rfl, rfl, rfl⟩
  · cases i with
    | zero =>
        cases hconn
        have hself := (hentry listener).trans (if_pos rfl)
        refine ⟨?_, ?_, fun hq => absurd rfl hq⟩
        · show .IN ∈ (entry _ listener).s_flags
          rw [show (NetworkServer.start listener store).fdes.entry listener = _ from hself]
          exact Finset.mem_insert_self _ _
        · show (entry _ listener).ptr = _
          rw [show (NetworkServer.start listener store).fdes.entry listener = _ from hself]
    | succ i => cases hconn

variable [CuckoohashMap σ Key Value]

theorem NetworkServer.Subscribed.step {listener : Nat} {s t : NetworkServer σ} {e : Event}
    (h : s.Subscribed listener) (he : e.CtlSucceeds) (hstep : s.step e = some t) :
    t.Subscribed listener := by
  cases NetworkServer.step_cases hstep with
  | wait hready hnodup hreported =>
      exact Server5204.Subscribed.congr h (h.synced.wait _)
        (fun fd => (entry_wait _ s.fdes fd).1) fun fd => (entry_wait _ s.fdes fd).2.1
  | waitFailed => exact h
  | idle hready hread hsend => exact h
  | accepted hready hnew hread hsend =>
      rw [show _ = true from he]
      exact Server5204.Subscribed.accepted h hnew
  | readNull hready hread hi hconn herr hfailed =>
      rw [show _ = true from he]
      obtain ⟨hsynced, hentry⟩ := @Synced.del s.fdes _ h.synced
      exact Server5204.Subscribed.touch h hi hconn rfl hsynced
        (fun fd hfd => (hentry fd).trans (if_neg hfd)) fun herr' => by cases herr'
  | readExit hready hread hi hconn herr hopen hpre hbad =>
      have hwatched := h.watched _ _ hconn herr
      exact Server5204.Subscribed.touch h hi hconn rfl h.synced (fun _ _ => rfl)
        fun _ => ⟨hwatched.readable, hwatched.ptr, hwatched.writable⟩
  | @readMsgs io fd i conn ready store rsp hready hread hi hconn herr hopen hid hlen =>
      rw [show _ = true from he]
      have hwatched := h.watched _ _ hconn herr
      exact Server5204.Subscribed.touch h hi hconn rfl h.synced.set.2
        (fun fd hfd => entry_set_of_ne true hfd) fun _ => hwatched.push true _ rfl
  | @sendEmpty io fd i conn ready hready hptr hi hconn herr hq hread hsend =>
      rw [show io.ctl = true from he]
      have hwatched := h.watched _ _ hconn herr
      have htouch := Server5204.Subscribed.touch h hi hconn rfl
        (@Synced.clr s.fdes conn.sock .OUT h.synced)
        (fun fd' hfd => (entry_clr true fd').trans (if_neg hfd)) fun _ => hwatched.clr hq true
      rw [links_set_self hconn] at htouch
      exact htouch
  | sent hready hsend hi hconn herr hq hspec hlen hrest =>
      have hwatched := h.watched _ _ hconn herr
      exact Server5204.Subscribed.touch h hi hconn rfl h.synced (fun _ _ => rfl)
        fun _ => ⟨hwatched.readable, hwatched.ptr, fun _ => hwatched.writable (by rw [hq]; simp)⟩

/-- As long as `epoll_ctl` succeeds: every accepted link that is not in error is subscribed
to reads and its entry points to it, a link with queued responses is subscribed to
writes and will be woken up by the kernel, and the listening socket stays subscribed to
reads. -/
theorem links_subscribed {listener : Nat} {store : σ} {events : List Event}
    {t : NetworkServer σ}
    (hrun : (networkServer σ).exec (NetworkServer.start listener store) events = some t)
    (hctl : ∀ e ∈ events, e.CtlSucceeds) :
    (∀ i conn, i ≠ 0 → t.links[i]? = some conn → conn.error_ = false →
      .IN ∈ (t.fdes.entry conn.sock).s_flags ∧ (t.fdes.entry conn.sock).ptr = some i ∧
      (conn.omsg_q ≠ [] → .OUT ∈ (t.fdes.entry conn.sock).s_flags ∧
        ∃ flags, t.fdes.epoll conn.sock = some flags ∧ .OUT ∈ flags)) ∧
    .IN ∈ (t.fdes.entry listener).s_flags ∧ (t.fdes.entry listener).ptr = some 0 := by
  have h : t.Subscribed listener :=
    Machine.exec_invariant_of (I := NetworkServer.Subscribed listener)
      (C := fun _ e => e.CtlSucceeds) (fun _ _ _ hs he hstep => hs.step he hstep) hrun
      (fun pre e post _ hes _ => hctl e (by rw [hes]; simp)) (.start listener store)
  constructor
  · intro i conn _ hconn herr
    obtain ⟨hread, hptr, hwrite⟩ := h.watched i conn hconn herr
    refine ⟨hread, hptr, fun hq => ⟨hwrite hq, interest (t.fdes.entry conn.sock).s_flags, ?_, ?_⟩⟩
    · rw [h.synced, if_neg]
      intro hempty
      rw [hempty] at hread
      exact Finset.notMem_empty _ hread
    · exact Finset.mem_filter.mpr ⟨hwrite hq, Or.inr rfl⟩
  · obtain ⟨client_conn, hzero, hsock, herr⟩ := h.listener
    obtain ⟨hread, hptr, -⟩ := h.watched 0 client_conn hzero herr
    rw [hsock] at hread hptr
    exact ⟨hread, hptr⟩

/-- A connection with a response in its queue. -/
theorem links_subscribed_put : ∃ (t : NetworkServer (Key → Option Value)) (conn : Link),
    (networkServer _).exec (NetworkServer.start 3 CuckoohashMap.empty)
      (connect ++ readable [.data (SendMessage.blank .PUT 1).bytes, .fail EWOULDBLOCK]) = some t ∧
      t.links[1]? = some conn ∧ conn.omsg_q ≠ [] ∧
      .OUT ∈ (t.fdes.entry conn.sock).s_flags := by
  have hlinks : ((networkServer (Key → Option Value)).exec
      (NetworkServer.start 3 CuckoohashMap.empty)
      (connect ++ readable [.data (SendMessage.blank .PUT 1).bytes, .fail EWOULDBLOCK])).map
          (fun t => t.links[1]?.map fun conn => (conn.error_, conn.omsg_q.length)) =
      some (some (false, 1)) := by
    decide +kernel
  obtain ⟨t, conn, hrun, hconn, hlog⟩ := exists_link_of_map hlinks
  obtain ⟨herr, hlen⟩ := Prod.mk.inj hlog
  have hq : conn.omsg_q ≠ [] := by
    intro hnil
    rw [hnil] at hlen
    cases hlen
  have hsub := links_subscribed hrun (by decide)
  exact ⟨t, conn, hrun, hconn, hq,
    ((hsub.1 1 conn Nat.one_ne_zero hconn herr).2.2 hq).1⟩

end KvServer.Server5204
