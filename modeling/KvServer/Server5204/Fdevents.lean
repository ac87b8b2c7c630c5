import Mathlib.Data.Finset.Basic
import Mathlib.Data.Finset.Filter

/-!
# Subscriptions

`Fdevents` keeps a table of what each descriptor is subscribed to, and tells the
kernel about every change with `epoll_ctl`.  A descriptor without subscriptions is
not registered with the kernel at all.

The table is a vector that grows when it is asked for a descriptor behind its
end.  `entry` reads it as a total function, and `set`, `del` and `clr` are
characterised by what they do to that function.  `Synced` says that the kernel has
what the table says, and it is kept as long as `epoll_ctl` succeeds.
-/

namespace KvServer.Server5204

/-- The events of a descriptor.  `FDEVENT_PRI` and `FDEVENT_HUP` are used by
nothing. -/
inductive Flag where
  | IN
  | OUT
  | ERR
deriving DecidableEq, Repr

/-- `struct Fdevent`.  `ptr` is the index of a link. -/
structure Fdevent where
  fd : Nat
  /-- subscribed events -/
  s_flags : Finset Flag
  /-- ready events -/
  events : Finset Flag
  num : Int
  ptr : Option Nat

/-- What `get_fde` appends to the table. -/
def Fdevent.new (fd : Nat) : Fdevent where
  fd := fd
  s_flags := ∅
  events := ∅
  num := 0
  ptr := none

/-- `class Fdevents`.  `epoll` is what the kernel has registered at `ep_fd`. -/
structure Fdevents where
  events : List Fdevent
  epoll : Nat → Option (Finset Flag)

/-- The second argument of `epoll_ctl`. -/
inductive CtlOp where
  | ADD
  | MOD
  | DEL
deriving DecidableEq, Repr

/-- `epoll_ctl`: an unknown descriptor can only be added, a known one only changed
or removed.  `ok` is false when the kernel refuses for another reason. -/
def epollCtl (ok : Bool) (op : CtlOp) (fd : Nat) (events : Finset Flag)
    (epoll : Nat → Option (Finset Flag)) : Bool × (Nat → Option (Finset Flag)) :=
  match ok, op, epoll fd with
  | true, .ADD, none => (true, Function.update epoll fd (some events))
  | true, .MOD, some _ => (true, Function.update epoll fd (some events))
  | true, .DEL, some _ => (true, Function.update epoll fd none)
  | _, _, _ => (false, epoll)

/-- What `epoll_wait` reports for one descriptor. -/
structure EpollReady where
  fd : Nat
  epollin : Bool
  epollpri : Bool
  epollout : Bool
  epollhup : Bool
  epollerr : Bool
deriving DecidableEq, Repr

namespace Fdevents

/-- The entry of a descriptor: a fresh one if the table does not reach so far. -/
def entry (fdes : Fdevents) (fd : Nat) : Fdevent := fdes.events.getD fd (Fdevent.new fd)

/-- `get_fde`: append fresh entries until the table has one for `fd`. -/
def getFde (fdes : Fdevents) (fd : Nat) : Fdevents :=
  { fdes with events := fdes.events ++
      (List.range' fdes.events.length (fd + 1 - fdes.events.length)).map Fdevent.new }

/-- Change the entry of a descriptor. -/
def update (fdes : Fdevents) (fd : Nat) (f : Fdevent → Fdevent) : Fdevents :=
  { fdes with events := fdes.events.modify fd f }

/-- The events passed to `epoll_ctl`. -/
def interest (s_flags : Finset Flag) : Finset Flag :=
  s_flags.filter fun f => f = .IN ∨ f = .OUT

/-- `Fdevents::set` with one flag. -/
def set (fdes : Fdevents) (ok : Bool) (fd : Nat) (flag : Flag) (num : Int) (ptr : Option Nat) :
    Int × Fdevents :=
  let fdes := fdes.getFde fd
  let s_flags := (fdes.entry fd).s_flags
  if flag ∈ s_flags then (0, fdes)
  else
    let op := if s_flags = ∅ then CtlOp.ADD else CtlOp.MOD
    let fdes := fdes.update fd fun fde =>
      { fde with s_flags := insert flag s_flags, num := num, ptr := ptr }
    let (done, epoll) := epollCtl ok op fd (interest (insert flag s_flags)) fdes.epoll
    (if done then 0 else -1, { fdes with epoll := epoll })

/-- `Fdevents::del`. -/
def del (fdes : Fdevents) (ok : Bool) (fd : Nat) : Int × Fdevents :=
  let (done, epoll) := epollCtl ok .DEL fd ∅ fdes.epoll
  let fdes := { fdes with epoll := epoll }
  if done then
    let fdes := fdes.getFde fd
    (0, fdes.update fd fun fde => { fde with s_flags := ∅ })
  else (-1, fdes)

/-- `Fdevents::clr` with one flag. -/
def clr (fdes : Fdevents) (ok : Bool) (fd : Nat) (flag : Flag) : Int × Fdevents :=
  let fdes := fdes.getFde fd
  let s_flags := (fdes.entry fd).s_flags
  if flag ∉ s_flags then (0, fdes)
  else
    let fdes := fdes.update fd fun fde => { fde with s_flags := s_flags.erase flag }
    let op := if s_flags.erase flag = ∅ then CtlOp.DEL else CtlOp.MOD
    let (done, epoll) := epollCtl ok op fd (interest (s_flags.erase flag)) fdes.epoll
    (if done then 0 else -1, { fdes with epoll := epoll })

/-- The ready events of an entry. -/
def readyEvents (r : EpollReady) : Finset Flag :=
  (if r.epollin ∨ r.epollpri then {.IN} else ∅) ∪ (if r.epollout then {.OUT} else ∅) ∪
    (if r.epollhup ∨ r.epollerr then {.ERR} else ∅)

/-- The loop of `Fdevents::wait` over what `epoll_wait` returned. -/
def wait (fdes : Fdevents) : List EpollReady → Fdevents
  | [] => fdes
  | r :: rs => wait (fdes.update r.fd fun fde => { fde with events := readyEvents r }) rs

/-! ## Entries -/

@[simp] theorem entry_getFde (fdes : Fdevents) (fd fd' : Nat) :
    (fdes.getFde fd).entry fd' = fdes.entry fd' := by
  simp only [entry, getFde, List.getD_eq_getElem?_getD, List.getElem?_append, List.getElem?_map]
  split
  · rfl
  · next hlen =>
      -- what is appended is what `entry` makes up
      rw [List.getElem?_eq_none (Nat.le_of_not_lt hlen), Option.getD_none]
      by_cases hfd : fd' - fdes.events.length < fd + 1 - fdes.events.length
      · have hidx : fdes.events.length + (fd' - fdes.events.length) = fd' := by omega
        rw [List.getElem?_range' hfd, Nat.one_mul, hidx]
        rfl
      · rw [List.getElem?_eq_none (by rw [List.length_range']; omega)]
        rfl

theorem length_getFde (fdes : Fdevents) (fd : Nat) : fd < (fdes.getFde fd).events.length := by
  simp only [getFde, List.length_append, List.length_map, List.length_range']
  omega

theorem entry_update_self {fdes : Fdevents} {fd : Nat} (f : Fdevent → Fdevent)
    (h : fd < fdes.events.length) : (fdes.update fd f).entry fd = f (fdes.entry fd) := by
  simp only [entry, update, List.getD_eq_getElem?_getD, List.getElem?_modify_eq,
    List.getElem?_eq_getElem h]
  rfl

theorem entry_update_of_ne {fdes : Fdevents} {fd fd' : Nat} (f : Fdevent → Fdevent)
    (h : fd' ≠ fd) : (fdes.update fd f).entry fd' = fdes.entry fd' := by
  simp only [entry, update, List.getD_eq_getElem?_getD,
    List.getElem?_modify_ne f fdes.events (Ne.symm h)]

/-- A change of the entry that `get_fde` has just returned. -/
theorem entry_update_getFde (fdes : Fdevents) (fd : Nat) (f : Fdevent → Fdevent) (fd' : Nat) :
    ((fdes.getFde fd).update fd f).entry fd' =
      if fd' = fd then f (fdes.entry fd) else fdes.entry fd' := by
  split
  · next h => rw [h, entry_update_self f (length_getFde fdes fd), entry_getFde]
  · next h => rw [entry_update_of_ne f h, entry_getFde]

/-! ## The kernel -/

/-- The kernel has registered what the table says. -/
def Synced (fdes : Fdevents) : Prop :=
  ∀ fd, fdes.epoll fd =
    if (fdes.entry fd).s_flags = ∅ then none else some (interest (fdes.entry fd).s_flags)

variable {fdes : Fdevents} {fd : Nat} {flag : Flag} {num : Int} {ptr : Option Nat}

/-- `set` does nothing when the flag is there, the pointer included. -/
theorem entry_set_of_mem (ok : Bool) (h : flag ∈ (fdes.entry fd).s_flags) (fd' : Nat) :
    (fdes.set ok fd flag num ptr).2.entry fd' = fdes.entry fd' := by
  simp only [set, entry_getFde, if_pos h]

theorem entry_set_of_not_mem (ok : Bool) (h : flag ∉ (fdes.entry fd).s_flags) (fd' : Nat) :
    (fdes.set ok fd flag num ptr).2.entry fd' =
      if fd' = fd then { fdes.entry fd with
        s_flags := insert flag (fdes.entry fd).s_flags, num := num, ptr := ptr }
      else fdes.entry fd' := by
  simp only [set, entry_getFde, if_neg h]
  exact entry_update_getFde fdes fd _ fd'

/-- `set` changes no other entry. -/
theorem entry_set_of_ne (ok : Bool) {fd' : Nat} (hfd : fd' ≠ fd) :
    (fdes.set ok fd flag num ptr).2.entry fd' = fdes.entry fd' := by
  rcases Decidable.em (flag ∈ (fdes.entry fd).s_flags) with hmem | hmem
  · exact entry_set_of_mem ok hmem fd'
  · exact (entry_set_of_not_mem ok hmem fd').trans (if_neg hfd)

theorem entry_clr (ok : Bool) (fd' : Nat) :
    (fdes.clr ok fd flag).2.entry fd' =
      if fd' = fd then { fdes.entry fd with s_flags := (fdes.entry fd).s_flags.erase flag }
      else fdes.entry fd' := by
  by_cases h : flag ∉ (fdes.entry fd).s_flags
  · simp only [clr, entry_getFde, if_pos h]
    split
    · next hfd => rw [hfd, Finset.erase_eq_of_notMem h]
    · rfl
  · simp only [clr, entry_getFde, if_neg h]
    exact entry_update_getFde fdes fd _ fd'

theorem epollCtl_change {epoll : Nat → Option (Finset Flag)} {s_flags events : Finset Flag}
    (h : epoll fd = if s_flags = ∅ then none else some (interest s_flags)) :
    epollCtl true (if s_flags = ∅ then .ADD else .MOD) fd events epoll =
      (true, Function.update epoll fd (some events)) := by
  by_cases hs : s_flags = ∅
  · rw [if_pos hs] at h
    simp only [if_pos hs, epollCtl, h]
  · rw [if_neg hs] at h
    simp only [if_neg hs, epollCtl, h]

/-- A table and a kernel that change at one descriptor, in step. -/
theorem Synced.change {fdes fdes' : Fdevents} (h : fdes.Synced) (fd : Nat)
    (hentry : ∀ fd', fd' ≠ fd → fdes'.entry fd' = fdes.entry fd')
    (hepoll : fdes'.epoll = Function.update fdes.epoll fd
      (if (fdes'.entry fd).s_flags = ∅ then none
        else some (interest (fdes'.entry fd).s_flags))) : fdes'.Synced := by
  intro fd'
  by_cases hfd : fd' = fd
  · rw [hepoll, hfd, Function.update_self]
  · rw [hepoll, Function.update_of_ne hfd, hentry fd' hfd]
    exact h fd'

theorem Synced.set (h : fdes.Synced) :
    (fdes.set true fd flag num ptr).1 = 0 ∧ (fdes.set true fd flag num ptr).2.Synced := by
  by_cases hmem : flag ∈ (fdes.entry fd).s_flags
  · simp only [Fdevents.set, entry_getFde, if_pos hmem, true_and]
    exact fun fd' => by rw [entry_getFde]; exact h fd'
  · have hself := @entry_set_of_not_mem fdes fd flag num ptr true hmem fd
    rw [if_pos rfl] at hself
    refine ⟨?_, h.change fd (fun fd' hfd => ?_) ?_⟩
    · simp only [Fdevents.set, entry_getFde, if_neg hmem]
      rw [show ((fdes.getFde fd).update fd _).epoll = fdes.epoll from rfl,
        epollCtl_change (h fd)]
      rfl
    · exact entry_set_of_ne true hfd
    · rw [hself]
      simp only [Fdevents.set, entry_getFde, if_neg hmem]
      rw [show ((fdes.getFde fd).update fd _).epoll = fdes.epoll from rfl,
        epollCtl_change (h fd), if_neg (Finset.insert_ne_empty _ _)]

theorem Synced.clr (h : fdes.Synced) : (fdes.clr true fd flag).2.Synced := by
  by_cases hmem : flag ∉ (fdes.entry fd).s_flags
  · simp only [Fdevents.clr, entry_getFde, if_pos hmem]
    exact fun fd' => by rw [entry_getFde]; exact h fd'
  · have hself := @entry_clr fdes fd flag true fd
    rw [if_pos rfl] at hself
    refine h.change fd (fun fd' hfd => (entry_clr true fd').trans (if_neg hfd)) ?_
    rw [hself]
    have hne : (fdes.entry fd).s_flags ≠ ∅ := by
      intro he
      rw [he] at hmem
      exact hmem (Finset.notMem_empty flag)
    have hsome : fdes.epoll fd = some (interest (fdes.entry fd).s_flags) := by
      rw [h fd, if_neg hne]
    simp only [Fdevents.clr, entry_getFde, if_neg hmem]
    rw [show ((fdes.getFde fd).update fd _).epoll = fdes.epoll from rfl]
    by_cases hs : (fdes.entry fd).s_flags.erase flag = ∅
    · simp only [if_pos hs, epollCtl, hsome]
    · simp only [if_neg hs, epollCtl, hsome]

/-- `del` unsubscribes from everything. -/
theorem Synced.del (h : fdes.Synced) :
    (fdes.del true fd).2.Synced ∧ ∀ fd', (fdes.del true fd).2.entry fd' =
      if fd' = fd then { fdes.entry fd with s_flags := ∅ } else fdes.entry fd' := by
  by_cases hs : (fdes.entry fd).s_flags = ∅
  · -- not registered: `epoll_ctl` refuses and nothing changes
    have hnone : fdes.epoll fd = none := by rw [h fd, if_pos hs]
    have hdel : fdes.del true fd = (-1, fdes) := by
      simp [Fdevents.del, epollCtl, hnone]
    rw [hdel]
    refine ⟨h, fun fd' => ?_⟩
    split
    · next hfd => rw [hfd, ← hs]
    · rfl
  · have hsome : fdes.epoll fd = some (interest (fdes.entry fd).s_flags) := by
      rw [h fd, if_neg hs]
    have hentry : ∀ fd', (fdes.del true fd).2.entry fd' =
        if fd' = fd then { fdes.entry fd with s_flags := ∅ } else fdes.entry fd' := by
      intro fd'
      simp only [Fdevents.del, epollCtl, hsome, if_true]
      exact entry_update_getFde { fdes with epoll := _ } fd _ fd'
    refine ⟨h.change fd (fun fd' hfd => (hentry fd').trans (if_neg hfd)) ?_, hentry⟩
    rw [hentry fd, if_pos rfl, if_pos rfl]
    simp only [Fdevents.del, epollCtl, hsome, if_true]
    rfl

/-- `wait` changes neither subscriptions nor pointers. -/
theorem entry_wait (rs : List EpollReady) : ∀ (fdes : Fdevents) (fd : Nat),
    ((fdes.wait rs).entry fd).s_flags = (fdes.entry fd).s_flags ∧
      ((fdes.wait rs).entry fd).ptr = (fdes.entry fd).ptr ∧
      (fdes.wait rs).epoll = fdes.epoll := by
  induction rs with
  | nil => exact fun _ _ => ⟨rfl, rfl, rfl⟩
  | cons r rs ih =>
      intro fdes fd
      obtain ⟨hs, hp, he⟩ :=
        ih (fdes.update r.fd fun fde => { fde with events := readyEvents r }) fd
      have hhead : ((fdes.update r.fd fun fde => { fde with events := readyEvents r }).entry
          fd).s_flags = (fdes.entry fd).s_flags ∧
          ((fdes.update r.fd fun fde => { fde with events := readyEvents r }).entry fd).ptr =
            (fdes.entry fd).ptr := by
        by_cases hfd : fd = r.fd
        · by_cases hlen : r.fd < fdes.events.length
          · rw [hfd, entry_update_self _ hlen]
            exact ⟨rfl, rfl⟩
          · have hsame : (fdes.update r.fd fun fde => { fde with events := readyEvents r }) =
                fdes := by
              simp only [update]
              rw [List.modify_eq_self (Nat.le_of_not_lt hlen)]
            rw [hsame]
            exact ⟨rfl, rfl⟩
        · rw [entry_update_of_ne _ hfd]
          exact ⟨rfl, rfl⟩
      exact ⟨hs.trans hhead.1, hp.trans hhead.2, he⟩

theorem Synced.wait (h : fdes.Synced) (rs : List EpollReady) : (fdes.wait rs).Synced := by
  intro fd
  obtain ⟨hs, -, he⟩ := entry_wait rs fdes fd
  rw [hs, he]
  exact h fd

/-! ## One descriptor at a time

These hold whatever the kernel has registered, and whether or not `epoll_ctl`
succeeds. -/

theorem epollCtl_of_ne {epoll : Nat → Option (Finset Flag)} {ok : Bool} {op : CtlOp}
    {events : Finset Flag} {fd' : Nat} (h : fd' ≠ fd) :
    (epollCtl ok op fd events epoll).2 fd' = epoll fd' := by
  unfold epollCtl
  split
  · exact Function.update_of_ne h _ _
  · exact Function.update_of_ne h _ _
  · exact Function.update_of_ne h _ _
  · rfl

theorem epoll_set_of_ne (ok : Bool) {fd' : Nat} (h : fd' ≠ fd) :
    (fdes.set ok fd flag num ptr).2.epoll fd' = fdes.epoll fd' := by
  simp only [Fdevents.set, entry_getFde]
  split
  · rfl
  · exact epollCtl_of_ne h

/-- `set` unregisters nothing. -/
theorem epoll_set_ne_none (ok : Bool) {fd' : Nat} (h : fdes.epoll fd' ≠ none) :
    (fdes.set ok fd flag num ptr).2.epoll fd' ≠ none := by
  by_cases hfd : fd' = fd
  · subst hfd
    simp only [Fdevents.set, entry_getFde]
    split
    · exact h
    · show (epollCtl _ _ _ _ fdes.epoll).2 fd' ≠ none
      unfold epollCtl
      split
      · simp
      · simp
      · next hop _ => split at hop <;> cases hop
      · exact h
  · rw [epoll_set_of_ne ok hfd]
    exact h

/-- Nothing but one descriptor has changed. -/
def SameBut (fd : Nat) (fdes fdes' : Fdevents) : Prop :=
  ∀ fd', fd' ≠ fd → fdes'.entry fd' = fdes.entry fd' ∧ fdes'.epoll fd' = fdes.epoll fd'

theorem SameBut.refl (fd : Nat) (fdes : Fdevents) : SameBut fd fdes fdes :=
  fun _ _ => ⟨rfl, rfl⟩

theorem sameBut_set (ok : Bool) : SameBut fd fdes (fdes.set ok fd flag num ptr).2 :=
  fun _ h => ⟨entry_set_of_ne ok h, epoll_set_of_ne ok h⟩

theorem sameBut_clr (ok : Bool) : SameBut fd fdes (fdes.clr ok fd flag).2 := by
  intro fd' h
  refine ⟨(entry_clr ok fd').trans (if_neg h), ?_⟩
  simp only [Fdevents.clr, entry_getFde]
  split
  · rfl
  · exact epollCtl_of_ne h

theorem sameBut_del (ok : Bool) : SameBut fd fdes (fdes.del ok fd).2 := by
  intro fd' h
  simp only [Fdevents.del]
  split
  · refine ⟨?_, epollCtl_of_ne h⟩
    exact (entry_update_getFde { fdes with epoll := _ } fd _ fd').trans (if_neg h)
  · exact ⟨rfl, epollCtl_of_ne h⟩

/-- `del` of a registered descriptor. -/
theorem del_self (h : fdes.epoll fd ≠ none) :
    (fdes.del true fd).2.epoll fd = none ∧ ((fdes.del true fd).2.entry fd).s_flags = ∅ := by
  obtain ⟨flags, hflags⟩ := Option.ne_none_iff_exists'.mp h
  simp only [Fdevents.del, epollCtl, hflags, if_true]
  refine ⟨Function.update_self .., ?_⟩
  rw [entry_update_getFde { fdes with epoll := _ } fd _ fd, if_pos rfl]

/-- `set` takes a pointer over or leaves the one that is there. -/
theorem ptr_set (ok : Bool) (fd' : Nat) :
    ((fdes.set ok fd flag num ptr).2.entry fd').ptr = (fdes.entry fd').ptr ∨
      fd' = fd ∧ ((fdes.set ok fd flag num ptr).2.entry fd').ptr = ptr := by
  rcases Decidable.em (flag ∈ (fdes.entry fd).s_flags) with hmem | hmem
  · exact Or.inl (congrArg Fdevent.ptr (entry_set_of_mem ok hmem fd'))
  · by_cases hfd : fd' = fd
    · refine Or.inr ⟨hfd, ?_⟩
      rw [entry_set_of_not_mem ok hmem fd', if_pos hfd]
    · exact Or.inl (congrArg Fdevent.ptr (entry_set_of_ne ok hfd))

theorem ptr_clr (ok : Bool) (fd' : Nat) :
    ((fdes.clr ok fd flag).2.entry fd').ptr = (fdes.entry fd').ptr := by
  rw [entry_clr]
  split
  · next hfd => rw [hfd]
  · rfl

theorem ptr_del (ok : Bool) (fd' : Nat) :
    ((fdes.del ok fd).2.entry fd').ptr = (fdes.entry fd').ptr := by
  simp only [Fdevents.del]
  split
  · rw [entry_update_getFde { fdes with epoll := _ } fd _ fd']
    split
    · next hfd => rw [hfd]; rfl
    · rfl
  · rfl

end Fdevents

end KvServer.Server5204
