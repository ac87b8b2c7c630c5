import KvServer.Server5204.Steps

/-!
# Links in error and their subscriptions

`req_recv` takes its link out of the table with `del` when it marks it.  `rsp_send`
marks its link and leaves the subscriptions alone, so the kernel goes on reporting
a link that nobody reads from or writes to.

`Dropped` says that no link in error is subscribed to anything.  It is lost at the
first step that marks a link without a successful `del`, and once lost it does not
come back: a link in error is not worked on, and its entry is touched by no other
link.  `Wired` holds in every run and says why: the links have different sockets,
and an entry points to the link of its own descriptor.
-/

namespace KvServer.Server5204

open Fdevents Transfer

/-- Nothing is subscribed for the socket of a link, here and in the kernel. -/
structure Unsubscribed (fdes : Fdevents) (conn : Link) : Prop where
  s_flags : (fdes.entry conn.sock).s_flags = ∅
  epoll : fdes.epoll conn.sock = none

/-- Every link in error is unsubscribed. -/
def Dropped (fdes : Fdevents) (links : List Link) : Prop :=
  ∀ conn ∈ links, conn.error_ = true → Unsubscribed fdes conn

/-- How links, sockets and entries belong together.  `ready` is the rest of the ready
events. -/
structure Wired (fdes : Fdevents) (links : List Link) (openFds : Finset Nat)
    (ready : List Nat) : Prop where
  nodup : (links.map Link.sock).Nodup
  open_ : ∀ fd ∈ links.map Link.sock, fd ∈ openFds
  ptr : ∀ fd i, (fdes.entry fd).ptr = some i → ∃ conn, links[i]? = some conn ∧ conn.sock = fd
  distinct : ready.Nodup
  registered : ∀ fd ∈ ready, fdes.epoll fd ≠ none

section

variable {fdes fdes' : Fdevents} {links : List Link} {openFds : Finset Nat} {ready : List Nat}
  {fd i : Nat} {conn conn' : Link}

theorem Unsubscribed.congr
    (hs_flags : (fdes'.entry conn.sock).s_flags = (fdes.entry conn.sock).s_flags)
    (hepoll : fdes'.epoll conn.sock = fdes.epoll conn.sock) :
    Unsubscribed fdes' conn ↔ Unsubscribed fdes conn := by
  constructor
  · exact fun h => ⟨hs_flags ▸ h.s_flags, hepoll ▸ h.epoll⟩
  · exact fun h => ⟨hs_flags ▸ h.s_flags, hepoll ▸ h.epoll⟩

/-- The link an entry points to has the descriptor of the entry. -/
theorem Wired.sock_eq (h : Wired fdes links openFds ready) (hptr : (fdes.entry fd).ptr = some i)
    (hconn : links[i]? = some conn) : conn.sock = fd := by
  obtain ⟨conn', hconn', hsock⟩ := h.ptr fd i hptr
  cases hconn.symm.trans hconn'
  exact hsock

/-- A step that does not touch the entries. -/
theorem Wired.tail (h : Wired fdes links openFds (fd :: ready)) :
    Wired fdes links openFds ready where
  nodup := h.nodup
  open_ := h.open_
  ptr := h.ptr
  distinct := (List.nodup_cons.mp h.distinct).2
  registered fd' hfd' := h.registered fd' (List.mem_cons_of_mem _ hfd')

/-- A step on the link of the first ready descriptor, which changes only its entry. -/
theorem Wired.touch (h : Wired fdes links openFds (fd :: ready))
    (hptr : (fdes.entry fd).ptr = some i) (hconn : links[i]? = some conn)
    (hsock : conn'.sock = conn.sock)
    (hother : SameBut fd fdes fdes')
    (hself : (fdes'.entry fd).ptr = some i) : Wired fdes' (links.set i conn') openFds ready := by
  have hnotin : fd ∉ ready := (List.nodup_cons.mp h.distinct).1
  have hsocks := map_sock_set hconn hsock
  refine ⟨?_, ?_, fun fd' j hj => ?_, h.tail.distinct, fun fd' hfd' => ?_⟩
  · rw [hsocks]
    exact h.nodup
  · rw [hsocks]
    exact h.open_
  · -- the pointers are the old ones
    have hold : (fdes.entry fd').ptr = some j := by
      by_cases hfd : fd' = fd
      · rw [hfd] at hj ⊢
        rw [hptr, ← hself, hj]
      · rw [← (hother fd' hfd).1, hj]
    obtain ⟨old, hlink, hfd'⟩ := h.ptr fd' j hold
    by_cases hij : i = j
    · subst hij
      cases hconn.symm.trans hlink
      exact ⟨conn', List.getElem?_set_self (List.getElem?_eq_some_iff.mp hconn).1,
        hsock.trans hfd'⟩
    · exact ⟨old, (List.getElem?_set_ne hij).trans hlink, hfd'⟩
  · have hne : fd' ≠ fd := fun heq => hnotin (heq ▸ hfd')
    rw [(hother fd' hne).2]
    exact h.tail.registered fd' hfd'

/-- Only the link that is touched can be the first that stays subscribed in error. -/
theorem Dropped.touch_iff (h : Wired fdes links openFds (fd :: ready))
    (hptr : (fdes.entry fd).ptr = some i) (hconn : links[i]? = some conn)
    (herr : conn.error_ = false)
    (hother : SameBut fd fdes fdes') :
    Dropped fdes' (links.set i conn') ↔
      Dropped fdes links ∧ (conn'.error_ = true → Unsubscribed fdes' conn') := by
  have hlen := (List.getElem?_eq_some_iff.mp hconn).1
  have hfd := h.sock_eq hptr hconn
  have hsame : ∀ {j other}, links[j]? = some other → i ≠ j →
      (Unsubscribed fdes' other ↔ Unsubscribed fdes other) := by
    intro j other hj hij
    have hne : other.sock ≠ fd := hfd ▸ sock_ne_of_index_ne h.nodup hconn hj hij
    obtain ⟨hentry, hepoll⟩ := hother other.sock hne
    exact Unsubscribed.congr (congrArg Fdevent.s_flags hentry) hepoll
  constructor
  · intro hall
    refine ⟨fun other hmem herr' => ?_, hall conn' (List.mem_set hlen conn')⟩
    obtain ⟨j, hj⟩ := List.mem_iff_getElem?.mp hmem
    have hij : i ≠ j := by
      rintro rfl
      cases hconn.symm.trans hj
      rw [herr] at herr'
      cases herr'
    have hmem' : other ∈ links.set i conn' :=
      List.mem_of_getElem? ((List.getElem?_set_ne hij).trans hj)
    exact (hsame hj hij).mp (hall other hmem' herr')
  · rintro ⟨hall, hself⟩ other hmem herr'
    obtain ⟨j, hj⟩ := List.mem_iff_getElem?.mp hmem
    by_cases hij : i = j
    · subst hij
      rw [List.getElem?_set_self hlen] at hj
      cases hj
      exact hself herr'
    · rw [List.getElem?_set_ne hij] at hj
      exact (hsame hj hij).mpr (hall other (List.mem_of_getElem? hj) herr')

/-- A step on the link of the first ready descriptor keeps links in error unsubscribed
exactly if it does so for that link. -/
theorem Wired.touched {P : Prop} (h : Wired fdes links openFds (fd :: ready))
    (hptr : (fdes.entry fd).ptr = some i) (hconn : links[i]? = some conn)
    (herr : conn.error_ = false) (hsock : conn'.sock = conn.sock)
    (hother : SameBut conn.sock fdes fdes')
    (hself : (fdes'.entry conn.sock).ptr = (fdes.entry conn.sock).ptr ∨
      (fdes'.entry conn.sock).ptr = some i)
    (hP : fdes.epoll conn.sock ≠ none →
      ((conn'.error_ = true → Unsubscribed fdes' conn') ↔ P)) :
    Wired fdes' (links.set i conn') openFds ready ∧
      (Dropped fdes' (links.set i conn') ↔ Dropped fdes links ∧ P) := by
  obtain rfl := h.sock_eq hptr hconn
  constructor
  · refine h.touch hptr hconn hsock hother ?_
    rcases hself with hold | hnew
    · exact hold.trans hptr
    · exact hnew
  · refine (Dropped.touch_iff h hptr hconn herr hother).trans (and_congr_right fun _ => ?_)
    exact hP (h.registered conn.sock List.mem_cons_self)

/-- A new link on a descriptor that was not open. -/
theorem Wired.accepted {new : Nat} (h : Wired fdes links openFds (fd :: ready))
    (hnew : new ∉ openFds) (ok : Bool) (input output : Nat) (noblock_ : Bool) :
    Wired (fdes.set ok new .IN 1 (some links.length)).2
      (links ++ [Link.ofSocket new input output noblock_]) (insert new openFds) ready := by
  have hunused : new ∉ links.map Link.sock := fun hmem => hnew (h.open_ new hmem)
  refine ⟨nodup_sock_ofSocket h.nodup hunused _ _ _, fun fd' hfd' => ?_, fun fd' j hj => ?_,
    h.tail.distinct, fun fd' hfd' => ?_⟩
  · rw [map_sock_ofSocket, List.mem_append] at hfd'
    rcases hfd' with hfd' | hfd'
    · exact Finset.mem_insert_of_mem (h.open_ fd' hfd')
    · rw [List.mem_singleton.mp hfd']
      exact Finset.mem_insert_self _ _
  · rcases @ptr_set fdes new .IN 1 (some links.length) ok fd' with hptr | ⟨rfl, hptr⟩
    · obtain ⟨old, hold, hfd⟩ := h.ptr fd' j (hptr ▸ hj)
      refine ⟨old, ?_, hfd⟩
      rw [List.getElem?_append_left (List.getElem?_eq_some_iff.mp hold).1]
      exact hold
    · rw [hptr] at hj
      cases hj
      exact ⟨_, List.getElem?_concat_length, rfl⟩
  · exact epoll_set_ne_none ok (h.tail.registered fd' hfd')

/-- The links that were there are in the same state. -/
theorem Dropped.accepted_iff {new : Nat} (h : Wired fdes links openFds ready)
    (hnew : new ∉ openFds) (ok : Bool) (input output : Nat) (noblock_ : Bool) :
    Dropped (fdes.set ok new .IN 1 (some links.length)).2
        (links ++ [Link.ofSocket new input output noblock_]) ↔ Dropped fdes links := by
  have hsame : ∀ other ∈ links,
      (Unsubscribed (fdes.set ok new .IN 1 (some links.length)).2 other ↔
        Unsubscribed fdes other) := by
    intro other hmem
    have hne : other.sock ≠ new := by
      rintro rfl
      exact hnew (h.open_ _ (List.mem_map_of_mem hmem))
    exact Unsubscribed.congr (congrArg Fdevent.s_flags (entry_set_of_ne ok hne))
      (epoll_set_of_ne ok hne)
  constructor
  · intro hall other hmem herr
    exact (hsame other hmem).mp (hall other (List.mem_append_left _ hmem) herr)
  · intro hall other hmem herr
    rcases List.mem_append.mp hmem with hmem | hmem
    · exact (hsame other hmem).mpr (hall other hmem herr)
    · -- the new link is not in error
      rw [List.mem_singleton.mp hmem] at herr
      cases herr

end

variable {σ : Type}

def NetworkServer.Wired (s : NetworkServer σ) : Prop :=
  Server5204.Wired s.fdes s.links s.openFds s.ready

def NetworkServer.Dropped (s : NetworkServer σ) : Prop := Server5204.Dropped s.fdes s.links

theorem NetworkServer.Wired.start (listener : Nat) (store : σ) :
    (NetworkServer.start listener store).Wired := by
  refine ⟨List.nodup_singleton _, fun fd hfd => ?_, fun fd i hi => ?_, List.nodup_nil,
    fun fd hfd => by cases hfd⟩
  · exact Finset.mem_singleton.mpr (List.mem_singleton.mp hfd)
  · rcases @ptr_set ⟨[], fun _ => none⟩ listener .IN 0 (some 0) true fd with hptr | ⟨rfl, hptr⟩
    · cases hptr.symm.trans hi
    · cases hptr.symm.trans hi
      exact ⟨_, rfl, rfl⟩

/-- The step marks no link without taking it out of the table: a read that fails finds
`epoll_ctl` working, and a write takes a byte and does not fail. -/
def CleansUp : NetworkServer σ → Event → Prop :=
  OnCalls (fun io => ReadFailed io.reads → io.ctl = true)
    fun io => ¬ WriteFailed io.writes ∧ 0 < accepted io.writes

instance (s : NetworkServer σ) (e : Event) : Decidable (CleansUp s e) :=
  inferInstanceAs (Decidable (OnCalls _ _ s e))

variable [CuckoohashMap σ Key Value]

/-- A link that is not in error asks for nothing. -/
theorem clean_of_working {fdes : Fdevents} {conn : Link} {io : Io} (herr : conn.error_ = false)
    (hopen : ¬ ReadFailed io.reads) :
    (conn.error_ = true → Unsubscribed fdes conn) ↔ (ReadFailed io.reads → io.ctl = true) :=
  iff_of_true (fun herr' => absurd (herr.symm.trans herr') Bool.false_ne_true)
    fun hfailed => absurd hfailed hopen

/-- `del` takes a registered link out of the table exactly if `epoll_ctl` succeeds. -/
theorem unsubscribed_del_iff {fdes : Fdevents} {conn : Link} {io : Io}
    (hreg : fdes.epoll conn.sock ≠ none) (hfailed : ReadFailed io.reads) :
    Unsubscribed (fdes.del io.ctl conn.sock).2 (conn.readNull io.reads) ↔
      (ReadFailed io.reads → io.ctl = true) := by
  constructor
  · intro hclean _
    cases hctl : io.ctl with
    | false =>
        have hnone := hclean.epoll
        rw [hctl] at hnone
        exact absurd hnone hreg
    | true => rfl
  · intro hctl
    obtain ⟨hepoll, hs_flags⟩ := del_self hreg
    rw [← hctl hfailed] at hepoll hs_flags
    exact ⟨hs_flags, hepoll⟩

/-- Exactly the steps that clean up keep links in error unsubscribed. -/
theorem NetworkServer.Wired.step {s t : NetworkServer σ} {e : Event} (h : s.Wired)
    (hstep : s.step e = some t) : t.Wired ∧ (t.Dropped ↔ s.Dropped ∧ CleansUp s e) := by
  have hhead : ∀ {fd ready}, s.ready = fd :: ready →
      Server5204.Wired s.fdes s.links s.openFds (fd :: ready) := fun hready => hready ▸ h
  cases NetworkServer.step_cases hstep with
  | @wait ready hready hnodup hreported =>
      have hentry := entry_wait ready s.fdes
      refine ⟨⟨h.nodup, h.open_, fun fd i hi => ?_, hnodup, fun fd hfd => ?_⟩, ?_⟩
      · exact h.ptr fd i ((hentry fd).2.1 ▸ hi)
      · obtain ⟨r, hr, rfl⟩ := List.mem_map.mp hfd
        rw [(hentry r.fd).2.2]
        exact reported_registered (hreported r hr)
      · refine Iff.trans ?_ (and_iff_left trivial).symm
        refine forall₂_congr fun conn _ => imp_congr_right fun _ => ?_
        obtain ⟨hs_flags, -, hepoll⟩ := hentry conn.sock
        exact Unsubscribed.congr hs_flags (congrFun hepoll _)
  | waitFailed => exact ⟨h, (and_iff_left trivial).symm⟩
  | idle hready hread hsend =>
      exact ⟨(hhead hready).tail, (and_iff_left (onCalls_idle hread hsend)).symm⟩
  | @accepted io fd new ready hready hnew hread hsend =>
      refine ⟨(hhead hready).accepted hnew io.ctl _ _ true, ?_⟩
      exact (Dropped.accepted_iff h hnew io.ctl _ _ true).trans
        (and_iff_left (onCalls_idle hread hsend)).symm
  | @readNull io fd i conn ready hready hread hi hconn herr hfailed =>
      refine (hhead hready).touched (reading_eq_some hready hread) hconn herr rfl
        (sameBut_del io.ctl) (Or.inl (ptr_del io.ctl _)) fun hreg => ?_
      rw [CleansUp, onCalls_reading hread, ← unsubscribed_del_iff hreg hfailed]
      exact forall_prop_of_true rfl
  | readExit hready hread hi hconn herr hopen hpre hbad =>
      refine (hhead hready).touched (reading_eq_some hready hread) hconn herr rfl
        (SameBut.refl _ _) (Or.inl rfl) fun _ => ?_
      rw [CleansUp, onCalls_reading hread]
      exact clean_of_working herr hopen
  | @readMsgs io fd i conn ready store rsp hready hread hi hconn herr hopen hid hlen =>
      refine (hhead hready).touched (reading_eq_some hready hread) hconn herr rfl
        (sameBut_set io.ctl) ?_ fun _ => ?_
      · rcases @ptr_set s.fdes conn.sock .OUT 1 (some i) io.ctl conn.sock with hold | ⟨-, hnew⟩
        · exact Or.inl hold
        · exact Or.inr hnew
      · rw [CleansUp, onCalls_reading hread]
        exact clean_of_working herr hopen
  | @sendEmpty io fd i conn ready hready hptr hi hconn herr hq hread hsend =>
      have hother : SameBut conn.sock s.fdes (s.fdes.clr io.ctl conn.sock .OUT).2 :=
        sameBut_clr io.ctl
      have htouched := (hhead hready).touched (P := CleansUp s (.handle io)) hptr hconn herr rfl
        hother (Or.inl (ptr_clr io.ctl _)) fun _ =>
          iff_of_true (fun herr' => absurd (herr.symm.trans herr') Bool.false_ne_true)
            (onCalls_idle hread hsend)
      rw [links_set_self hconn] at htouched
      exact htouched
  | @sent io fd i conn ready smsg omsg_q len w hready hsend hi hconn herr hq hspec hlen hrest =>
      refine (hhead hready).touched (sending_eq_some hready hsend) hconn herr rfl
        (SameBut.refl _ _) (Or.inl rfl) fun hreg => ?_
      rw [CleansUp, onCalls_sending hsend, ← hspec.len_pos_iff hlen hrest]
      constructor
      · -- a link that is marked is still registered
        intro hclean
        refine Int.not_le.mp fun hle => hreg ?_
        exact (hclean (by simp [hle])).epoll
      · intro hpos herr'
        simp [herr, Int.not_le.mpr hpos] at herr'

/-- The links in error are unsubscribed at the end of exactly the runs in which every
failed read finds `epoll_ctl` working and every write takes a byte and does not fail. -/
theorem error_unsubscribed_iff {listener : Nat} {store : σ} {events : List Event}
    {t : NetworkServer σ}
    (hrun : (networkServer σ).exec (NetworkServer.start listener store) events = some t) :
    (∀ conn ∈ t.links, conn.error_ = true →
        (t.fdes.entry conn.sock).s_flags = ∅ ∧ t.fdes.epoll conn.sock = none) ↔
      (networkServer σ).Meets CleansUp (NetworkServer.start listener store) events := by
  have hstart : (NetworkServer.start listener store).Dropped := by
    intro conn hmem herr
    rw [List.mem_singleton.mp hmem] at herr
    cases herr
  have hiff := Machine.exec_iff_meets (I := NetworkServer.Wired) (G := NetworkServer.Dropped)
    (fun _ _ _ h hstep => h.step hstep) hrun (NetworkServer.Wired.start listener store)
  rw [and_iff_right hstart] at hiff
  rw [← hiff]
  exact forall₂_congr fun conn _ => imp_congr_right fun _ =>
    ⟨fun h => ⟨h.1, h.2⟩, fun h => ⟨h.s_flags, h.epoll⟩⟩

/-- The client closes its connection. -/
theorem error_unsubscribed_iff_closed : ∃ (t : NetworkServer (Key → Option Value)) (conn : Link),
    (networkServer _).exec (NetworkServer.start 3 CuckoohashMap.empty)
      (connect ++ readable [.data []]) = some t ∧
      t.links[1]? = some conn ∧ conn.error_ = true ∧
      (t.fdes.entry conn.sock).s_flags = ∅ ∧ t.fdes.epoll conn.sock = none := by
  have hlinks : ((networkServer (Key → Option Value)).exec
      (NetworkServer.start 3 CuckoohashMap.empty) (connect ++ readable [.data []])).map
        (fun t => t.links[1]?.map fun conn => conn.error_) = some (some true) := by
    decide +kernel
  obtain ⟨t, conn, hrun, hconn, herr⟩ := exists_link_of_map hlinks
  exact ⟨t, conn, hrun, hconn, herr, (error_unsubscribed_iff hrun).mpr (by decide +kernel) conn
    (List.mem_of_getElem? hconn) herr⟩

/-- The client sends 20 bytes of a request.  The empty response is written in vain, the
link is marked, and the kernel has its socket registered all the same. -/
theorem error_subscribed : ¬ ∀ events (t : NetworkServer (Key → Option Value)),
    (networkServer _).exec (NetworkServer.start 3 CuckoohashMap.empty) events = some t →
      ∀ conn ∈ t.links, conn.error_ = true →
        (t.fdes.entry conn.sock).s_flags = ∅ ∧ t.fdes.epoll conn.sock = none := by
  intro h
  have hrun : ((networkServer (Key → Option Value)).exec
      (NetworkServer.start 3 CuckoohashMap.empty)
      (connect ++ readable [.data ((SendMessage.blank .PUT 1).bytes.take 20), .fail EWOULDBLOCK] ++
        writable [])).map
          (fun t => (t.links[1]?.map fun conn => (conn.sock, conn.error_), t.fdes.epoll 7)) =
      some (some (7, true), some {.IN, .OUT}) := by
    decide +kernel
  obtain ⟨t, hrun, ht⟩ := Option.map_eq_some_iff.mp hrun
  obtain ⟨hlink, hepoll⟩ := Prod.mk.inj ht
  obtain ⟨conn, hconn, hvalues⟩ := Option.map_eq_some_iff.mp hlink
  obtain ⟨hsock, herr⟩ := Prod.mk.inj hvalues
  have hnone := (h _ t hrun conn (List.mem_of_getElem? hconn) herr).2
  rw [hsock, hepoll] at hnone
  cases hnone

end KvServer.Server5204
