import KvServer.Base.Machine
import KvServer.Base.Transfer
import KvServer.Server5204.Fdevents
import Mathlib.Data.Finset.Card

/-!
# The other backend

Where there is no epoll, `Fdevents` is built on `select`.  It has the same table of
subscriptions, and instead of telling the kernel about a change it keeps two descriptor sets and
the highest descriptor with a subscription.

*One purpose.*  `Subscriptions` is what both backends are for: what each descriptor is subscribed
to, and nothing else.  Both refine it (`Select.Fdevents.Refines`, `Fdevents.Refines`), so over
every run of calls in which the kernel takes the changes the two agree (`backends_agree`).

*The difference.*  `clr` looks for the new highest descriptor without stopping at the lowest one.
It reads in front of the table when it clears the last subscription there is, and only then
(`select_defined_iff`).

*Waiting.*  What `select` returns counts the bits of both sets, and the loop of `wait` goes on
until it has found that many descriptors.  It finds them all, and it finds what the loop behind
`epoll_wait` finds, unless that reports urgent data, a hang-up or an error (`wait_agrees`).
-/

namespace KvServer.Server5204

open Transfer

/-! ## What it is for -/

/-- What a descriptor is subscribed to, and what the subscriber left with it. -/
structure Subscription where
  s_flags : Finset Flag
  num : Int
  ptr : Option Nat

/-- The subscriptions of all descriptors. -/
abbrev Subscriptions : Type := Nat → Subscription

/-- A call of `Fdevents`, with one flag where it takes flags. -/
inductive FdeCall where
  | set (fd : Nat) (flag : Flag) (num : Int) (ptr : Option Nat)
  | del (fd : Nat)
  | clr (fd : Nat) (flag : Flag)
deriving DecidableEq, Repr

/-- The descriptor of a call. -/
def FdeCall.fd : FdeCall → Nat
  | .set fd _ _ _ => fd
  | .del fd => fd
  | .clr fd _ => fd

namespace Subscriptions

/-- No descriptor is subscribed to anything. -/
def none : Subscriptions := fun _ => ⟨∅, 0, Option.none⟩

/-- What a call is for.  A second subscription to a flag changes nothing. -/
def call (t : Subscriptions) : FdeCall → Subscriptions
  | .set fd flag num ptr =>
      if flag ∈ (t fd).s_flags then t
      else Function.update t fd ⟨insert flag (t fd).s_flags, num, ptr⟩
  | .del fd => Function.update t fd { t fd with s_flags := ∅ }
  | .clr fd flag => Function.update t fd { t fd with s_flags := (t fd).s_flags.erase flag }

/-- Some descriptor is subscribed to something. -/
def Some (t : Subscriptions) : Prop := ∃ fd, (t fd).s_flags ≠ ∅

section Call

variable {t : Subscriptions} {fd : Nat} {flag : Flag} {num : Int} {ptr : Option Nat}

theorem call_set_of_mem (h : flag ∈ (t fd).s_flags) : t.call (.set fd flag num ptr) = t := if_pos h

theorem call_set_of_not_mem (h : flag ∉ (t fd).s_flags) (fd' : Nat) :
    t.call (.set fd flag num ptr) fd' =
      if fd' = fd then ⟨insert flag (t fd).s_flags, num, ptr⟩ else t fd' := by
  rw [call, if_neg h, Function.update_apply]

theorem call_del (fd' : Nat) :
    t.call (.del fd) fd' = if fd' = fd then { t fd with s_flags := ∅ } else t fd' :=
  Function.update_apply t fd _ fd'

theorem call_clr (fd' : Nat) :
    t.call (.clr fd flag) fd' =
      if fd' = fd then { t fd with s_flags := (t fd).s_flags.erase flag } else t fd' :=
  Function.update_apply t fd _ fd'

end Call

end Subscriptions

/-- The machine of the subscriptions. -/
def subscriptions : Machine Subscriptions FdeCall where
  step t c := some (t.call c)

/-- What an entry says of its descriptor. -/
def Fdevent.subscription (fde : Fdevent) : Subscription := ⟨fde.s_flags, fde.num, fde.ptr⟩

/-! ## epoll -/

namespace Fdevents

/-- Nothing is subscribed or registered. -/
def start : Fdevents := ⟨[], fun _ => none⟩

/-- A call.  If `ok` is false the kernel refuses the change. -/
def call (fdes : Fdevents) (ok : Bool) : FdeCall → Fdevents
  | .set fd flag num ptr => (fdes.set ok fd flag num ptr).2
  | .del fd => (fdes.del ok fd).2
  | .clr fd flag => (fdes.clr ok fd flag).2

/-- The table and the kernel have the subscriptions `t`. -/
structure Refines (fdes : Fdevents) (t : Subscriptions) : Prop where
  table : ∀ fd, (fdes.entry fd).subscription = t fd
  synced : fdes.Synced

theorem Refines.start : Fdevents.start.Refines .none := ⟨fun _ => rfl, fun _ => rfl⟩

theorem Refines.s_flags {fdes : Fdevents} {t : Subscriptions} (h : fdes.Refines t) (fd : Nat) :
    (fdes.entry fd).s_flags = (t fd).s_flags := congrArg Subscription.s_flags (h.table fd)

theorem Refines.call {fdes : Fdevents} {t : Subscriptions} (h : fdes.Refines t) (c : FdeCall) :
    (fdes.call true c).Refines (t.call c) := by
  cases c with
  | set fd flag num ptr =>
      refine ⟨fun fd' => ?_, h.synced.set.2⟩
      show ((fdes.set true fd flag num ptr).2.entry fd').subscription = _
      rcases Decidable.em (flag ∈ (t fd).s_flags) with hmem | hmem
      · rw [Subscriptions.call_set_of_mem hmem]
        rw [← h.s_flags fd] at hmem
        rw [entry_set_of_mem true hmem, h.table]
      · rw [Subscriptions.call_set_of_not_mem hmem, ← h.s_flags fd]
        rw [← h.s_flags fd] at hmem
        rw [entry_set_of_not_mem true hmem]
        split
        · rfl
        · exact h.table fd'
  | del fd =>
      obtain ⟨hsynced, hentry⟩ := @Fdevents.Synced.del _ fd h.synced
      refine ⟨fun fd' => ?_, hsynced⟩
      show ((fdes.del true fd).2.entry fd').subscription = _
      rw [hentry, Subscriptions.call_del, ← h.table fd]
      split
      · rfl
      · exact h.table fd'
  | clr fd flag =>
      refine ⟨fun fd' => ?_, h.synced.clr⟩
      show ((fdes.clr true fd flag).2.entry fd').subscription = _
      rw [entry_clr, Subscriptions.call_clr, ← h.table fd]
      split
      · rfl
      · exact h.table fd'

section Kernel

variable {fdes : Fdevents} {t : Subscriptions}

/-- What the kernel has registered for a descriptor. -/
theorem Refines.epoll (h : fdes.Refines t) (fd : Nat) :
    fdes.epoll fd =
      if (t fd).s_flags = ∅ then Option.none else some (interest (t fd).s_flags) := by
  rw [← h.s_flags fd]
  exact h.synced fd

theorem Refines.epoll_ne_none (h : fdes.Refines t) (fd : Nat) :
    fdes.epoll fd ≠ Option.none ↔ (t fd).s_flags ≠ ∅ := by
  rw [h.epoll]
  split
  · next hempty => simp [hempty]
  · next hne => simp [hne]

theorem Refines.mem_epoll (h : fdes.Refines t) (fd : Nat) {flag : Flag}
    (hflag : flag = .IN ∨ flag = .OUT) :
    (∃ events, fdes.epoll fd = some events ∧ flag ∈ events) ↔ flag ∈ (t fd).s_flags := by
  rw [h.epoll]
  split
  · next hempty => simp [hempty]
  · simp [interest, hflag]

end Kernel

end Fdevents

/-- The machine of the backend with epoll: calls, and whether the kernel takes the change. -/
def epollBackend : Machine Fdevents (Bool × FdeCall) where
  step fdes c := some (fdes.call c.1 c.2)

/-! ## select -/

namespace Select

def FD_SETSIZE : Nat := 1024

/-- `class Fdevents` without epoll. -/
structure Fdevents where
  events : List Fdevent
  readset : Finset Nat
  writeset : Finset Nat
  /-- `maxfd + 1` -/
  nfds : Nat

namespace Fdevents

/-- `Fdevents::Fdevents` -/
def start : Fdevents := ⟨[], ∅, ∅, 0⟩

/-- The table, for the functions that both backends share. -/
def table (fdes : Fdevents) : Server5204.Fdevents := ⟨fdes.events, fun _ => none⟩

/-- `events[fd]`, and a fresh entry behind the end of the table. -/
def entry (fdes : Fdevents) (fd : Nat) : Fdevent := fdes.table.entry fd

/-- `get_fde`, and a change of the entry it returns. -/
def change (fdes : Fdevents) (fd : Nat) (f : Fdevent → Fdevent) : Fdevents :=
  { fdes with events := ((fdes.table.getFde fd).update fd f).events }

/-- `Fdevents::set` with one flag. -/
def set (fdes : Fdevents) (fd : Nat) (flag : Flag) (num : Int) (ptr : Option Nat) :
    Int × Fdevents :=
  if FD_SETSIZE - 1 < fd then (-1, fdes)
  else
    let s_flags := (fdes.entry fd).s_flags
    if flag ∈ s_flags then (0, fdes.change fd id)
    else
      let fdes := fdes.change fd fun fde =>
        { fde with s_flags := insert flag s_flags, num := num, ptr := ptr }
      (0, { fdes with
        readset := if flag = Flag.IN then insert fd fdes.readset else fdes.readset
        writeset := if flag = Flag.OUT then insert fd fdes.writeset else fdes.writeset
        nfds := if fdes.nfds < fd + 1 then fd + 1 else fdes.nfds })

/-- The loop of `del`: `while(maxfd >= 0 && events[maxfd]->s_flags == 0)`. -/
def lower (fdes : Fdevents) : Nat → Nat
  | 0 => 0
  | maxfd + 1 => if (fdes.entry maxfd).s_flags = ∅ then fdes.lower maxfd else maxfd + 1

/-- The loop of `clr`: `while(events[maxfd]->s_flags == 0)`.  It may get to `events[-1]`. -/
def lowerUnchecked (fdes : Fdevents) : Nat → Option Nat
  | 0 => none
  | maxfd + 1 =>
      if (fdes.entry maxfd).s_flags = ∅ then fdes.lowerUnchecked maxfd else some (maxfd + 1)

/-- `Fdevents::del`.  `FD_CLR` is for descriptors below `FD_SETSIZE`. -/
def del (fdes : Fdevents) (fd : Nat) : Option (Int × Fdevents) :=
  if FD_SETSIZE ≤ fd then none
  else
    let fdes := fdes.change fd fun fde => { fde with s_flags := ∅ }
    let fdes := { fdes with
      readset := fdes.readset.erase fd
      writeset := fdes.writeset.erase fd }
    some (0, { fdes with nfds := fdes.lower fdes.nfds })

/-- `Fdevents::clr` with one flag. -/
def clr (fdes : Fdevents) (fd : Nat) (flag : Flag) : Option (Int × Fdevents) :=
  let s_flags := (fdes.entry fd).s_flags
  if flag ∉ s_flags then some (0, fdes.change fd id)
  else
    let fdes := fdes.change fd fun fde => { fde with s_flags := s_flags.erase flag }
    let fdes := { fdes with
      readset := if flag = Flag.IN then fdes.readset.erase fd else fdes.readset
      writeset := if flag = Flag.OUT then fdes.writeset.erase fd else fdes.writeset }
    (fdes.lowerUnchecked fdes.nfds).map fun nfds => (0, { fdes with nfds := nfds })

/-- A call.  `none` says that it is undefined. -/
def call (fdes : Fdevents) : FdeCall → Option Fdevents
  | .set fd flag num ptr => some (fdes.set fd flag num ptr).2
  | .del fd => (fdes.del fd).map Prod.snd
  | .clr fd flag => (fdes.clr fd flag).map Prod.snd

/-- The table and the two sets have the subscriptions `t`. -/
structure Holds (fdes : Fdevents) (t : Subscriptions) : Prop where
  table : ∀ fd, (fdes.entry fd).subscription = t fd
  read : ∀ fd, fd ∈ fdes.readset ↔ Flag.IN ∈ (t fd).s_flags
  write : ∀ fd, fd ∈ fdes.writeset ↔ Flag.OUT ∈ (t fd).s_flags

/-- And `nfds` is behind the highest descriptor that is subscribed. -/
structure Refines (fdes : Fdevents) (t : Subscriptions) : Prop extends fdes.Holds t where
  below : ∀ fd, (t fd).s_flags ≠ ∅ → fd < fdes.nfds
  top : ∀ maxfd, fdes.nfds = maxfd + 1 → (t maxfd).s_flags ≠ ∅
  inside : fdes.nfds ≤ fdes.events.length

section Lower

variable {fdes : Fdevents}

/-- The loop of `del` stops behind the highest descriptor that is subscribed. -/
theorem lower_spec {n : Nat} (h : ∀ fd, n ≤ fd → (fdes.entry fd).s_flags = ∅) :
    (∀ fd, (fdes.entry fd).s_flags ≠ ∅ → fd < fdes.lower n) ∧
      (∀ maxfd, fdes.lower n = maxfd + 1 → (fdes.entry maxfd).s_flags ≠ ∅) ∧ fdes.lower n ≤ n := by
  induction n with
  | zero =>
      exact ⟨fun fd hfd => absurd (h fd (Nat.zero_le fd)) hfd, (fun _ h => by cases h),
        Nat.le_refl 0⟩
  | succ n ih =>
      rw [lower]
      split
      · next hempty =>
          obtain ⟨hbelow, htop, hle⟩ := ih fun fd hfd => by
            rcases Nat.eq_or_lt_of_le hfd with rfl | hlt
            · exact hempty
            · exact h fd hlt
          exact ⟨hbelow, htop, Nat.le_succ_of_le hle⟩
      · next hne =>
          refine ⟨fun fd hfd => ?_, fun maxfd hmax => ?_, Nat.le_refl _⟩
          · exact Nat.lt_of_not_le fun hle => hfd (h fd hle)
          · cases hmax
            exact hne

/-- The loop of `clr` does what the loop of `del` does, unless there is nothing to stop at. -/
theorem lowerUnchecked_eq (n : Nat) :
    fdes.lowerUnchecked n = if fdes.lower n = 0 then none else some (fdes.lower n) := by
  induction n with
  | zero => rfl
  | succ n ih =>
      rw [lowerUnchecked, lower]
      split
      · exact ih
      · rfl

end Lower

theorem entry_change (fdes : Fdevents) (fd : Nat) (f : Fdevent → Fdevent) (fd' : Nat) :
    (fdes.change fd f).entry fd' = if fd' = fd then f (fdes.entry fd) else fdes.entry fd' :=
  Server5204.Fdevents.entry_update_getFde fdes.table fd f fd'

theorem length_change (fdes : Fdevents) (fd : Nat) (f : Fdevent → Fdevent) :
    fdes.events.length ≤ (fdes.change fd f).events.length ∧
      fd + 1 ≤ (fdes.change fd f).events.length := by
  have hlen := Server5204.Fdevents.length_getFde fdes.table fd
  have hle : fdes.events.length ≤ (fdes.table.getFde fd).events.length := by
    rw [Server5204.Fdevents.getFde, List.length_append]
    exact Nat.le_add_right _ _
  have heq : (fdes.change fd f).events.length = (fdes.table.getFde fd).events.length :=
    List.length_modify ..
  rw [heq]
  exact ⟨hle, hlen⟩

theorem Refines.start : Fdevents.start.Refines .none where
  table _ := rfl
  read _ := by simp [Fdevents.start, Subscriptions.none]
  write _ := by simp [Fdevents.start, Subscriptions.none]
  below _ h := absurd rfl h
  top _ h := by cases h
  inside := Nat.le_refl 0

section Step

variable {fdes : Fdevents} {t t' : Subscriptions} {fd : Nat} {f : Fdevent → Fdevent}
  {r w : Finset Nat}

theorem Holds.s_flags (h : fdes.Holds t) (fd : Nat) :
    (fdes.entry fd).s_flags = (t fd).s_flags := congrArg Subscription.s_flags (h.table fd)

/-- A set changes at one descriptor at most, and has it if it is subscribed. -/
structure SetAt (fd : Nat) (flag : Flag) (t' : Subscriptions) (old new : Finset Nat) : Prop where
  self : fd ∈ new ↔ flag ∈ (t' fd).s_flags
  others : ∀ fd', fd' ≠ fd → (fd' ∈ new ↔ fd' ∈ old)

/-- One entry changes, and its bits in the two sets. -/
theorem Holds.change (h : fdes.Holds t) (ht : ∀ fd', fd' ≠ fd → t' fd' = t fd')
    (hf : (f (fdes.entry fd)).subscription = t' fd) (hr : SetAt fd .IN t' fdes.readset r)
    (hw : SetAt fd .OUT t' fdes.writeset w) (nfds : Nat) :
    ({ fdes.change fd f with readset := r, writeset := w, nfds := nfds } : Fdevents).Holds t' where
  table fd' := by
    show ((fdes.change fd f).entry fd').subscription = t' fd'
    rw [entry_change]
    split
    · next hfd => rw [hfd, hf]
    · next hfd => rw [ht fd' hfd, h.table]
  read fd' := by
    rcases Decidable.em (fd' = fd) with rfl | hfd
    · exact hr.self
    · rw [ht fd' hfd, ← h.read]
      exact hr.others fd' hfd
  write fd' := by
    rcases Decidable.em (fd' = fd) with rfl | hfd
    · exact hw.self
    · rw [ht fd' hfd, ← h.write]
      exact hw.others fd' hfd

/-- `get_fde` alone changes nothing. -/
theorem Refines.change_id (h : fdes.Refines t) (fd : Nat) : (fdes.change fd id).Refines t where
  toHolds := h.toHolds.change (fun _ _ => rfl) (h.table fd) ⟨h.read fd, fun _ _ => Iff.rfl⟩
    ⟨h.write fd, fun _ _ => Iff.rfl⟩ fdes.nfds
  below := h.below
  top := h.top
  inside := Nat.le_trans h.inside (length_change fdes fd id).1

/-- `FD_SET`, for the flag that the set is for. -/
theorem SetAt.insert {flag flag' : Flag} {s : Finset Nat}
    (hs : fd ∈ s ↔ flag' ∈ (t fd).s_flags)
    (ht : (t' fd).s_flags = Insert.insert flag (t fd).s_flags) :
    SetAt fd flag' t' s (if flag = flag' then Insert.insert fd s else s) where
  self := by
    rw [ht, Finset.mem_insert, ← hs]
    split
    · next heq => simp [heq]
    · next hne => simp [Ne.symm hne]
  others fd' hfd := by
    split
    · simp [hfd]
    · exact Iff.rfl

/-- `FD_CLR`, for the flag that the set is for. -/
theorem SetAt.erase {flag flag' : Flag} {s : Finset Nat}
    (hs : fd ∈ s ↔ flag' ∈ (t fd).s_flags) (ht : (t' fd).s_flags = (t fd).s_flags.erase flag) :
    SetAt fd flag' t' s (if flag = flag' then s.erase fd else s) where
  self := by
    rw [ht, Finset.mem_erase, ← hs]
    split
    · next heq => simp [heq]
    · next hne => simp [Ne.symm hne]
  others fd' hfd := by
    split
    · simp [hfd]
    · exact Iff.rfl

theorem Refines.set (h : fdes.Refines t) (hfd : fd < FD_SETSIZE) (flag : Flag) (num : Int)
    (ptr : Option Nat) :
    (fdes.set fd flag num ptr).1 = 0 ∧
      (fdes.set fd flag num ptr).2.Refines (t.call (.set fd flag num ptr)) := by
  have hsize : ¬ FD_SETSIZE - 1 < fd := by omega
  unfold Fdevents.set
  rw [if_neg hsize]
  dsimp only
  split
  · next hmem =>
      rw [h.s_flags] at hmem
      rw [Subscriptions.call_set_of_mem hmem]
      exact ⟨rfl, h.change_id fd⟩
  · next hmem =>
      rw [h.s_flags] at hmem ⊢
      have hcall := @Subscriptions.call_set_of_not_mem t fd flag num ptr hmem
      have hself := (hcall fd).trans (if_pos rfl)
      have hflags := congrArg Subscription.s_flags hself
      have hlen := length_change fdes fd fun fde =>
        { fde with s_flags := insert flag (t fd).s_flags, num := num, ptr := ptr }
      have hinside := h.inside
      refine ⟨rfl, h.toHolds.change (fun fd' hne => (hcall fd').trans (if_neg hne)) ?_
        (SetAt.insert (h.read fd) hflags) (SetAt.insert (h.write fd) hflags) _,
        fun fd' hne => ?_, fun maxfd hmax => ?_, ?_⟩
      · exact hself.symm
      · show fd' < if fdes.nfds < fd + 1 then fd + 1 else fdes.nfds
        rcases Decidable.em (fd' = fd) with rfl | hne'
        · split <;> omega
        · rw [hcall, if_neg hne'] at hne
          have hlt := h.below fd' hne
          split <;> omega
      · have hmax' : (if fdes.nfds < fd + 1 then fd + 1 else fdes.nfds) = maxfd + 1 := hmax
        rcases Decidable.em (maxfd = fd) with rfl | hne'
        · rw [hflags]
          exact Finset.insert_ne_empty _ _
        · rw [hcall, if_neg hne']
          refine h.top maxfd ?_
          split at hmax' <;> omega
      · show (if fdes.nfds < fd + 1 then fd + 1 else fdes.nfds) ≤
          (fdes.change fd _).events.length
        split <;> omega

/-- What is left when the highest descriptor has been looked for. -/
theorem Holds.lowered (h : fdes.Holds t) (hbelow : ∀ fd, (t fd).s_flags ≠ ∅ → fd < fdes.nfds)
    (hinside : fdes.nfds ≤ fdes.events.length) :
    ({ fdes with nfds := fdes.lower fdes.nfds } : Fdevents).Refines t ∧
      (fdes.lower fdes.nfds = 0 ↔ ¬ t.Some) := by
  have hempty : ∀ fd, fdes.nfds ≤ fd → (fdes.entry fd).s_flags = ∅ := by
    intro fd hle
    rw [h.s_flags]
    exact Decidable.not_not.mp fun hne => absurd (hbelow fd hne) (Nat.not_lt.mpr hle)
  obtain ⟨hbelow', htop, hle⟩ := lower_spec hempty
  simp only [h.s_flags] at hbelow' htop
  refine ⟨⟨⟨h.table, h.read, h.write⟩, hbelow', htop, Nat.le_trans hle hinside⟩, ?_, ?_⟩
  · rintro hzero ⟨fd, hfd⟩
    have hlt := hbelow' fd hfd
    omega
  · intro hnone
    cases hlower : fdes.lower fdes.nfds with
    | zero => rfl
    | succ maxfd => exact absurd ⟨maxfd, htop maxfd hlower⟩ hnone

/-- The loop of `clr` gets to an end if something is subscribed. -/
theorem Holds.loweredUnchecked (h : fdes.Holds t)
    (hbelow : ∀ fd, (t fd).s_flags ≠ ∅ → fd < fdes.nfds)
    (hinside : fdes.nfds ≤ fdes.events.length) :
    ((fdes.lowerUnchecked fdes.nfds).isSome ↔ t.Some) ∧
      ∀ nfds, fdes.lowerUnchecked fdes.nfds = some nfds →
        ({ fdes with nfds := nfds } : Fdevents).Refines t := by
  obtain ⟨hrefines, hzero⟩ := h.lowered hbelow hinside
  rw [lowerUnchecked_eq]
  split
  · next hnone =>
      refine ⟨?_, fun nfds hnfds => by cases hnfds⟩
      simp only [Option.isSome_none, Bool.false_eq_true, false_iff]
      exact hzero.mp hnone
  · next hsome =>
      refine ⟨?_, fun nfds hnfds => by cases hnfds; exact hrefines⟩
      simp only [Option.isSome_some, true_iff]
      exact Classical.not_not.mp fun hnot => hsome (hzero.mpr hnot)

theorem Refines.del (h : fdes.Refines t) (hfd : fd < FD_SETSIZE) :
    ∃ fdes', fdes.del fd = some (0, fdes') ∧ fdes'.Refines (t.call (.del fd)) := by
  have hcall := @Subscriptions.call_del t fd
  have hself := (hcall fd).trans (if_pos rfl)
  have hflags := congrArg Subscription.s_flags hself
  have hclr : ∀ {flag : Flag} {s : Finset Nat},
      SetAt fd flag (t.call (.del fd)) s (s.erase fd) := by
    intro flag s
    refine ⟨?_, fun fd' hne => by simp [hne]⟩
    rw [hflags]
    simp
  have hsub : Fdevent.subscription { fdes.entry fd with s_flags := ∅ } = t.call (.del fd) fd := by
    rw [hself, ← h.table fd]
    rfl
  have hholds := h.toHolds.change (f := fun fde => { fde with s_flags := ∅ })
    (fun fd' hne => (hcall fd').trans (if_neg hne)) hsub hclr hclr fdes.nfds
  have hbelow : ∀ fd', (t.call (.del fd) fd').s_flags ≠ ∅ → fd' < fdes.nfds := by
    intro fd' hne
    rw [hcall] at hne
    split at hne
    · exact absurd rfl hne
    · exact h.below fd' hne
  refine ⟨_, if_neg (Nat.not_le.mpr hfd), (hholds.lowered hbelow ?_).1⟩
  exact Nat.le_trans h.inside (length_change fdes fd _).1

/-- `clr` is defined exactly if a subscription is left. -/
theorem Refines.clr (h : fdes.Refines t) (fd : Nat) (flag : Flag) :
    ((fdes.clr fd flag).isSome ↔ (flag ∈ (t fd).s_flags → (t.call (.clr fd flag)).Some)) ∧
      ∀ r, fdes.clr fd flag = some r → r.1 = 0 ∧ r.2.Refines (t.call (.clr fd flag)) := by
  have hcall := @Subscriptions.call_clr t fd flag
  unfold Fdevents.clr
  rw [h.s_flags]
  dsimp only
  split
  · next hmem =>
      have hsame : t.call (.clr fd flag) = t := by
        funext fd'
        rw [hcall]
        split
        · next heq => rw [heq, Finset.erase_eq_of_notMem hmem]
        · rfl
      rw [hsame]
      refine ⟨by simp [hmem], ?_⟩
      rintro r hr
      cases hr
      exact ⟨rfl, h.change_id fd⟩
  · next hmem =>
      have hself := (hcall fd).trans (if_pos rfl)
      have hflags := congrArg Subscription.s_flags hself
      have hsub : Fdevent.subscription { fdes.entry fd with s_flags := (t fd).s_flags.erase flag } =
          t.call (.clr fd flag) fd := by
        rw [hself, ← h.table fd]
        rfl
      have hholds := h.toHolds.change (f := fun fde =>
          { fde with s_flags := (t fd).s_flags.erase flag })
        (fun fd' hne => (hcall fd').trans (if_neg hne)) hsub (SetAt.erase (h.read fd) hflags)
        (SetAt.erase (h.write fd) hflags) fdes.nfds
      have hbelow : ∀ fd', (t.call (.clr fd flag) fd').s_flags ≠ ∅ → fd' < fdes.nfds := by
        intro fd' hne
        refine h.below fd' fun hempty => ?_
        rw [hcall] at hne
        split at hne
        · next heq =>
            rw [heq] at hempty
            exact hmem (by rw [hempty]; exact Finset.notMem_empty flag)
        · exact hne hempty
      obtain ⟨hsome, hrefines⟩ := hholds.loweredUnchecked hbelow
        (Nat.le_trans h.inside (length_change fdes fd _).1)
      rw [Option.isSome_map]
      have hflag : flag ∈ (t fd).s_flags := Decidable.not_not.mp hmem
      refine ⟨hsome.trans ⟨fun hleft _ => hleft, fun hleft => hleft hflag⟩, ?_⟩
      intro r hr
      obtain ⟨nfds, hnfds, rfl⟩ := Option.map_eq_some_iff.mp hr
      exact ⟨rfl, hrefines nfds hnfds⟩

end Step

end Fdevents

end Select

/-- The machine of the backend with select. -/
def selectBackend : Machine Select.Fdevents FdeCall where
  step fdes c := fdes.call c

/-! ## Runs -/

/-- A `clr` that takes a subscription away leaves another one. -/
def KeepsOne (t : Subscriptions) : FdeCall → Prop
  | .set _ _ _ _ => True
  | .del _ => True
  | .clr fd flag => flag ∈ (t fd).s_flags → (t.call (.clr fd flag)).Some

/-- A call on a table with the subscriptions `t`. -/
theorem Select.Fdevents.Refines.call {fdes : Select.Fdevents} {t : Subscriptions}
    (h : fdes.Refines t) {c : FdeCall} (hc : c.fd < Select.FD_SETSIZE) :
    ((fdes.call c).isSome ↔ KeepsOne t c) ∧
      ∀ fdes', fdes.call c = some fdes' → fdes'.Refines (t.call c) := by
  cases c with
  | set fd flag num ptr =>
      refine ⟨by simp [Select.Fdevents.call, KeepsOne], fun fdes' hset => ?_⟩
      cases hset
      exact (h.set hc flag num ptr).2
  | del fd =>
      obtain ⟨fdes'', hdel, hrefines⟩ := h.del (show fd < FD_SETSIZE from hc)
      have hcall : fdes.call (.del fd) = some fdes'' := by
        rw [Select.Fdevents.call, hdel]
        rfl
      rw [hcall]
      exact ⟨by simp [KeepsOne], fun fdes' heq => by cases heq; exact hrefines⟩
  | clr fd flag =>
      obtain ⟨hsome, hrefines⟩ := h.clr fd flag
      refine ⟨?_, fun fdes' hclr => ?_⟩
      · rw [Select.Fdevents.call, Option.isSome_map]
        exact hsome
      · obtain ⟨r, hr, rfl⟩ := Option.map_eq_some_iff.mp hclr
        exact (hrefines r hr).2

theorem select_run {calls : List FdeCall} :
    ∀ {fdes : Select.Fdevents} {t : Subscriptions}, (∀ c ∈ calls, c.fd < Select.FD_SETSIZE) →
      fdes.Refines t →
        ((selectBackend.exec fdes calls).isSome ↔ subscriptions.Meets KeepsOne t calls) ∧
        ∀ fdes', selectBackend.exec fdes calls = some fdes' →
          ∃ t', subscriptions.exec t calls = some t' ∧ fdes'.Refines t' := by
  induction calls with
  | nil =>
      intro fdes t _ h
      refine ⟨by simp [Machine.meets_nil], fun fdes' hrun => ?_⟩
      cases hrun
      exact ⟨t, rfl, h⟩
  | cons c calls ih =>
      intro fdes t hfds h
      obtain ⟨hsome, hrefines⟩ := h.call (hfds c List.mem_cons_self)
      have hmeets : subscriptions.Meets KeepsOne t (c :: calls) ↔
          KeepsOne t c ∧ subscriptions.Meets KeepsOne (t.call c) calls := by
        rw [Machine.meets_cons]
        exact and_congr_right fun _ => ⟨fun hall => hall _ rfl, fun hmeets u hu => by
          cases hu
          exact hmeets⟩
      rw [hmeets, Machine.exec_cons, ← hsome]
      cases hcall : fdes.call c with
      | none =>
          have hstep : selectBackend.step fdes c = none := hcall
          rw [hstep]
          exact ⟨by simp, fun fdes' hrun => by cases hrun⟩
      | some fdes₁ =>
          have hstep : selectBackend.step fdes c = some fdes₁ := hcall
          rw [hstep]
          obtain ⟨hsome', hrun'⟩ := ih (fun c' hc' => hfds c' (List.mem_cons_of_mem c hc'))
            (hrefines fdes₁ hcall)
          refine ⟨by simpa using hsome', fun fdes' hrun => ?_⟩
          obtain ⟨t', ht', hfdes'⟩ := hrun' fdes' hrun
          exact ⟨t', ht', hfdes'⟩

theorem epoll_run {calls : List (Bool × FdeCall)} :
    ∀ {fdes : Fdevents} {t t' : Subscriptions}, (∀ c ∈ calls, c.1 = true) → fdes.Refines t →
      subscriptions.exec t (calls.map Prod.snd) = some t' →
      ∃ fdes', epollBackend.exec fdes calls = some fdes' ∧ fdes'.Refines t' := by
  induction calls with
  | nil =>
      intro fdes t t' _ h hrun
      cases hrun
      exact ⟨fdes, rfl, h⟩
  | cons c calls ih =>
      intro fdes t t' hok h hrun
      obtain ⟨hc, hok'⟩ := List.forall_mem_cons.mp hok
      have hcall : (fdes.call c.1 c.2).Refines (t.call c.2) := by
        rw [hc]
        exact h.call c.2
      exact ih hok' hcall hrun

section Agree

variable {calls : List (Bool × FdeCall)} (hok : ∀ c ∈ calls, c.1 = true)
  (hfds : ∀ c ∈ calls, c.2.fd < Select.FD_SETSIZE) {s : Select.Fdevents}
  (hrun : selectBackend.exec Select.Fdevents.start (calls.map Prod.snd) = some s)

include hok hfds hrun

/-- Both have the same subscriptions. -/
theorem backends_run : ∃ t e, s.Refines t ∧ e.Refines t ∧
    epollBackend.exec Fdevents.start calls = some e := by
  have hfds' : ∀ c ∈ calls.map Prod.snd, c.fd < Select.FD_SETSIZE := by
    intro c hmem
    obtain ⟨call, hcall, rfl⟩ := List.mem_map.mp hmem
    exact hfds call hcall
  obtain ⟨t, ht, hs⟩ := (select_run hfds' Select.Fdevents.Refines.start).2 s hrun
  obtain ⟨e, he, hrefines⟩ := epoll_run hok Fdevents.Refines.start ht
  exact ⟨t, e, hs, hrefines, he⟩

/-- The two backends agree after every run of calls that the one with select gets through and in
which no `epoll_ctl` is refused: on what each descriptor is subscribed to, on what the system is
asked about it, and on the descriptors that `select` has to look at. -/
theorem backends_agree :
    ∃ e, epollBackend.exec Fdevents.start calls = some e ∧
      (∀ fd, (s.entry fd).subscription = (e.entry fd).subscription) ∧
      (∀ fd, fd ∈ s.readset ↔ ∃ events, e.epoll fd = some events ∧ Flag.IN ∈ events) ∧
      (∀ fd, fd ∈ s.writeset ↔ ∃ events, e.epoll fd = some events ∧ Flag.OUT ∈ events) ∧
      (∀ n, s.nfds ≤ n ↔ ∀ fd, e.epoll fd ≠ none → fd < n) ∧ s.nfds ≤ s.events.length := by
  obtain ⟨t, e, hs, hrefines, he⟩ := backends_run hok hfds hrun
  refine ⟨e, he, fun fd => (hs.table fd).trans (hrefines.table fd).symm,
    fun fd => (hs.read fd).trans (hrefines.mem_epoll fd (.inl rfl)).symm,
    fun fd => (hs.write fd).trans (hrefines.mem_epoll fd (.inr rfl)).symm, fun n => ?_, hs.inside⟩
  constructor
  · intro hle fd hfd
    exact Nat.lt_of_lt_of_le (hs.below fd ((hrefines.epoll_ne_none fd).mp hfd)) hle
  · intro hall
    cases hnfds : s.nfds with
    | zero => exact Nat.zero_le n
    | succ maxfd => exact hall maxfd ((hrefines.epoll_ne_none maxfd).mpr (hs.top maxfd hnfds))

end Agree

/-- Two descriptors, one of which goes away. -/
def fdeCalls : List (Bool × FdeCall) :=
  [(true, .set 5 .IN 0 none), (true, .set 7 .IN 0 (some 2)), (true, .set 7 .OUT 0 (some 2)),
    (true, .clr 7 .IN), (true, .del 5)]

theorem backends_agree_two : ∃ s e,
    selectBackend.exec Select.Fdevents.start (fdeCalls.map Prod.snd) = some s ∧
      epollBackend.exec Fdevents.start fdeCalls = some e ∧ s.nfds = 8 ∧
      ∀ fd, (s.entry fd).subscription = (e.entry fd).subscription := by
  obtain ⟨s, hs⟩ : ∃ s,
      selectBackend.exec Select.Fdevents.start (fdeCalls.map Prod.snd) = some s := ⟨_, rfl⟩
  obtain ⟨e, he, hagree, -⟩ := backends_agree (by decide) (by decide) hs
  cases hs
  exact ⟨_, e, rfl, he, rfl, hagree⟩

/-- The backend with select gets through exactly the runs in which no `clr` takes the last
subscription away. -/
theorem select_defined_iff {calls : List FdeCall} (hfds : ∀ c ∈ calls, c.fd < Select.FD_SETSIZE) :
    (selectBackend.exec Select.Fdevents.start calls).isSome ↔
      subscriptions.Meets KeepsOne .none calls :=
  (select_run hfds Select.Fdevents.Refines.start).1

theorem select_defined_iff_two :
    subscriptions.Meets KeepsOne .none [.set 3 .IN 0 none, .set 4 .IN 0 none, .clr 4 .IN] ∧
      ¬ subscriptions.Meets KeepsOne .none [.set 3 .IN 0 none, .clr 3 .IN] :=
  ⟨(select_defined_iff (by decide)).mp (by decide),
    fun h => absurd ((select_defined_iff (by decide)).mpr h) (by decide)⟩

/-! ## Waiting -/

namespace Select

/-- What `select` answers: an error, or the two sets it leaves. -/
inductive Selected where
  | fail (errno : Errno)
  | ready (t_readset t_writeset : Finset Nat)

/-- The ready events of a descriptor. -/
def readyBits (t_readset t_writeset : Finset Nat) (i : Nat) : Finset Flag :=
  (if i ∈ t_readset then {.IN} else ∅) ∪ (if i ∈ t_writeset then {.OUT} else ∅)

namespace Fdevents

/-- `fde->events = events`, for the entry of `i`. -/
def setReady (fdes : Fdevents) (i : Nat) (events : Finset Flag) : Fdevents :=
  { fdes with events := (fdes.table.update i fun fde => { fde with events := events }).events }

/-- The loop of `wait` over the descriptors `is`, with what is in `ready_events`. -/
def waitLoop (t_readset t_writeset : Finset Nat) (ret : Nat) :
    Fdevents → List Nat → List Nat → Fdevents × List Nat
  | fdes, ready_events, [] => (fdes, ready_events)
  | fdes, ready_events, i :: is =>
      if ready_events.length < ret then
        let events := readyBits t_readset t_writeset i
        waitLoop t_readset t_writeset ret (fdes.setReady i events)
          (if events = ∅ then ready_events else ready_events ++ [i]) is
      else (fdes, ready_events)

/-- `Fdevents::wait`.  `none` is NULL. -/
def wait (fdes : Fdevents) : Selected → Option (Fdevents × List Nat)
  | .fail e => if e = EINTR then some (fdes, []) else none
  | .ready t_readset t_writeset =>
      -- `select` returns the number of bits
      let ret := t_readset.card + t_writeset.card
      if 0 < ret then some (fdes.waitLoop t_readset t_writeset ret [] (List.range fdes.nfds))
      else some (fdes, [])

/-- What `select` leaves of the two sets, when these descriptors are readable and writable. -/
def selected (fdes : Fdevents) (readable writable : Finset Nat) : Selected :=
  .ready (fdes.readset.filter fun fd => fd < fdes.nfds ∧ fd ∈ readable)
    (fdes.writeset.filter fun fd => fd < fdes.nfds ∧ fd ∈ writable)

section Wait

variable {t_readset t_writeset : Finset Nat} {ret : Nat}

theorem readyBits_ne_empty (i : Nat) :
    readyBits t_readset t_writeset i ≠ ∅ ↔ i ∈ t_readset ∪ t_writeset := by
  unfold readyBits
  by_cases hr : i ∈ t_readset <;> by_cases hw : i ∈ t_writeset <;> simp [hr, hw]

theorem entry_setReady {fdes : Fdevents} {i : Nat} (h : i < fdes.events.length)
    (events : Finset Flag) (j : Nat) :
    (fdes.setReady i events).entry j =
      if j = i then { fdes.entry i with events := events } else fdes.entry j := by
  split
  · next hji =>
      rw [hji]
      exact @Server5204.Fdevents.entry_update_self fdes.table i _ h
  · next hji => exact @Server5204.Fdevents.entry_update_of_ne fdes.table i j _ hji

theorem length_setReady (fdes : Fdevents) (i : Nat) (events : Finset Flag) :
    (fdes.setReady i events).events.length = fdes.events.length := List.length_modify ..

/-- The loop finds all that is ready, if as many bits were promised.  It sets the ready events of
what it finds, and stays away from other descriptors. -/
theorem waitLoop_spec {is : List Nat} :
    ∀ {fdes : Fdevents} {ready_events : List Nat}, is.Nodup → (∀ i ∈ is, i < fdes.events.length) →
      ready_events.length + (is.filter fun i => i ∈ t_readset ∪ t_writeset).length ≤ ret →
      (fdes.waitLoop t_readset t_writeset ret ready_events is).2 =
          ready_events ++ is.filter (fun i => i ∈ t_readset ∪ t_writeset) ∧
        (∀ i ∈ is, i ∈ t_readset ∪ t_writeset →
          ((fdes.waitLoop t_readset t_writeset ret ready_events is).1.entry i).events =
            readyBits t_readset t_writeset i) ∧
        ∀ i, i ∉ is →
          (fdes.waitLoop t_readset t_writeset ret ready_events is).1.entry i = fdes.entry i := by
  induction is with
  | nil => exact fun _ _ _ => ⟨by simp [waitLoop], by simp, fun _ _ => rfl⟩
  | cons i is ih =>
      intro fdes ready_events hnodup hinside hret
      obtain ⟨hi, hnodup'⟩ := List.nodup_cons.mp hnodup
      rw [waitLoop]
      split
      · have hlen := hinside i List.mem_cons_self
        have hentry := entry_setReady hlen (readyBits t_readset t_writeset i)
        have hinside' : ∀ j ∈ is,
            j < (fdes.setReady i (readyBits t_readset t_writeset i)).events.length := by
          intro j hj
          rw [length_setReady]
          exact hinside j (List.mem_cons_of_mem i hj)
        have hself : ∀ fdes' : Fdevents,
            (∀ j, j ∉ is → fdes'.entry j =
              (fdes.setReady i (readyBits t_readset t_writeset i)).entry j) →
            (fdes'.entry i).events = readyBits t_readset t_writeset i := by
          intro fdes' hrest
          rw [hrest i hi, hentry, if_pos rfl]
        have hother : ∀ fdes' : Fdevents,
            (∀ j, j ∉ is → fdes'.entry j =
              (fdes.setReady i (readyBits t_readset t_writeset i)).entry j) →
            ∀ j, j ∉ i :: is → fdes'.entry j = fdes.entry j := by
          intro fdes' hrest j hj
          obtain ⟨hji, hj'⟩ := not_or.mp (List.mem_cons.not.mp hj)
          rw [hrest j hj', hentry, if_neg hji]
        rcases Decidable.em (readyBits t_readset t_writeset i = ∅) with hempty | hready
        · have hnot : i ∉ t_readset ∪ t_writeset := fun hmem =>
            (readyBits_ne_empty i).mpr hmem hempty
          have hfilter : (i :: is).filter (fun i => i ∈ t_readset ∪ t_writeset) =
              is.filter fun i => i ∈ t_readset ∪ t_writeset :=
            List.filter_cons_of_neg (by simpa using hnot)
          rw [hfilter] at hret ⊢
          simp only [if_pos hempty]
          obtain ⟨hfound, hbits, hrest⟩ := ih hnodup' hinside' hret
          refine ⟨hfound, fun j hj hjready => ?_, hother _ hrest⟩
          rcases List.mem_cons.mp hj with rfl | hj
          · exact absurd hjready hnot
          · exact hbits j hj hjready
        · have hfilter : (i :: is).filter (fun i => i ∈ t_readset ∪ t_writeset) =
              i :: is.filter fun i => i ∈ t_readset ∪ t_writeset :=
            List.filter_cons_of_pos (by simpa using (readyBits_ne_empty i).mp hready)
          rw [hfilter] at hret ⊢
          rw [List.length_cons] at hret
          simp only [if_neg hready]
          obtain ⟨hfound, hbits, hrest⟩ := @ih (fdes.setReady i (readyBits t_readset t_writeset i))
            (ready_events ++ [i]) hnodup' hinside' (by
              rw [List.length_append, List.length_singleton]
              omega)
          refine ⟨by rw [hfound, List.append_assoc]; rfl, fun j hj hjready => ?_, hother _ hrest⟩
          rcases List.mem_cons.mp hj with rfl | hj
          · exact hself _ hrest
          · exact hbits j hj hjready
      · next hfull =>
          -- as many have been found as there are bits, so none is left
          have hnil : (i :: is).filter (fun i => i ∈ t_readset ∪ t_writeset) = [] :=
            List.length_eq_zero_iff.mp (by omega)
          refine ⟨by rw [hnil, List.append_nil], fun j hj hready => ?_, fun _ _ => rfl⟩
          have hmem : j ∈ (i :: is).filter (fun i => i ∈ t_readset ∪ t_writeset) :=
            List.mem_filter.mpr ⟨hj, decide_eq_true hready⟩
          rw [hnil] at hmem
          cases hmem

/-- `select` promises at least as many bits as there are descriptors. -/
theorem length_filter_le (n : Nat) :
    ((List.range n).filter fun i => i ∈ t_readset ∪ t_writeset).length ≤
      t_readset.card + t_writeset.card := by
  have hnodup : ((List.range n).filter fun i => i ∈ t_readset ∪ t_writeset).Nodup :=
    List.nodup_range.filter _
  rw [← List.toFinset_card_of_nodup hnodup]
  refine Nat.le_trans (Finset.card_le_card fun i hi => ?_) (Finset.card_union_le _ _)
  exact of_decide_eq_true (List.mem_filter.mp (List.mem_toFinset.mp hi)).2

/-- `wait` returns the descriptors of both sets, from the lowest to the highest. -/
theorem wait_spec {fdes : Fdevents} (hinside : fdes.nfds ≤ fdes.events.length) :
    ∃ fdes', fdes.wait (.ready t_readset t_writeset) =
        some (fdes', (List.range fdes.nfds).filter fun i => i ∈ t_readset ∪ t_writeset) ∧
      ∀ i < fdes.nfds, i ∈ t_readset ∪ t_writeset →
        (fdes'.entry i).events = readyBits t_readset t_writeset i := by
  have hlen := @length_filter_le t_readset t_writeset fdes.nfds
  unfold wait
  dsimp only
  split
  · obtain ⟨hfound, hbits, -⟩ := @waitLoop_spec t_readset t_writeset
      (t_readset.card + t_writeset.card) (List.range fdes.nfds) fdes [] List.nodup_range
      (fun i hi => Nat.lt_of_lt_of_le (List.mem_range.mp hi) hinside)
      (by rw [List.length_nil]; omega)
    refine ⟨_, congrArg some (Prod.ext rfl hfound), fun i hi => hbits i (List.mem_range.mpr hi)⟩
  · next hzero =>
      have hnil : (List.range fdes.nfds).filter (fun i => i ∈ t_readset ∪ t_writeset) = [] :=
        List.length_eq_zero_iff.mp (by omega)
      refine ⟨fdes, by rw [hnil], fun i hi hready => ?_⟩
      have hmem : i ∈ (List.range fdes.nfds).filter fun i => i ∈ t_readset ∪ t_writeset :=
        List.mem_filter.mpr ⟨List.mem_range.mpr hi, decide_eq_true hready⟩
      rw [hnil] at hmem
      cases hmem

end Wait

end Fdevents

end Select

/-- What `epoll_wait` reports, when these descriptors are readable and writable and there is no
urgent data, no hang-up and no error to be reported. -/
structure EpollAnswer (fdes : Fdevents) (readable writable : Finset Nat) (rs : List EpollReady) :
    Prop where
  nodup : (rs.map EpollReady.fd).Nodup
  fds : ∀ fd, fd ∈ rs.map EpollReady.fd ↔ ∃ events, fdes.epoll fd = some events ∧
    (Flag.IN ∈ events ∧ fd ∈ readable ∨ Flag.OUT ∈ events ∧ fd ∈ writable)
  epollin : ∀ r ∈ rs, r.epollin = true ↔
    (∃ events, fdes.epoll r.fd = some events ∧ Flag.IN ∈ events) ∧ r.fd ∈ readable
  epollout : ∀ r ∈ rs, r.epollout = true ↔
    (∃ events, fdes.epoll r.fd = some events ∧ Flag.OUT ∈ events) ∧ r.fd ∈ writable
  others : ∀ r ∈ rs, r.epollpri = false ∧ r.epollhup = false ∧ r.epollerr = false

/-- The loop behind `epoll_wait` sets the ready events of what was reported. -/
theorem Fdevents.events_wait {rs : List EpollReady} :
    ∀ {fdes : Fdevents}, (rs.map EpollReady.fd).Nodup → (∀ r ∈ rs, r.fd < fdes.events.length) →
      (∀ r ∈ rs, ((fdes.wait rs).entry r.fd).events = readyEvents r) ∧
        ∀ fd, fd ∉ rs.map EpollReady.fd → (fdes.wait rs).entry fd = fdes.entry fd := by
  induction rs with
  | nil => exact fun _ _ => ⟨by simp, fun _ _ => rfl⟩
  | cons r rs ih =>
      intro fdes hnodup hinside
      rw [List.map_cons] at hnodup
      obtain ⟨hr, hnodup'⟩ := List.nodup_cons.mp hnodup
      have hinside' : ∀ r' ∈ rs, r'.fd < (fdes.update r.fd fun fde =>
          { fde with events := readyEvents r }).events.length := by
        intro r' hr'
        rw [update, List.length_modify]
        exact hinside r' (List.mem_cons_of_mem r hr')
      obtain ⟨hevents, hrest⟩ := ih hnodup' hinside'
      refine ⟨fun r' hr' => ?_, fun fd hfd => ?_⟩
      · rcases List.mem_cons.mp hr' with rfl | hr'
        · rw [Fdevents.wait, hrest r'.fd hr,
            entry_update_self _ (hinside r' List.mem_cons_self)]
        · exact hevents r' hr'
      · rw [List.map_cons] at hfd
        obtain ⟨hne, hfd'⟩ := not_or.mp (List.mem_cons.not.mp hfd)
        rw [Fdevents.wait, hrest fd hfd', entry_update_of_ne _ hne]

theorem Fdevents.Refines.inside {fdes : Fdevents} {t : Subscriptions} (h : fdes.Refines t)
    {fd : Nat} (hfd : (t fd).s_flags ≠ ∅) : fd < fdes.events.length := by
  refine Nat.lt_of_not_le fun hle => hfd ?_
  rw [← h.s_flags, entry, List.getD_eq_getElem?_getD, List.getElem?_eq_none hle]
  rfl

section Waiting

variable {s : Select.Fdevents} {e : Fdevents} {t : Subscriptions} {readable writable : Finset Nat}
  {rs : List EpollReady}

/-- A descriptor is in the set that `select` leaves if it is subscribed to the flag. -/
theorem Select.Fdevents.Refines.mem_selected (h : s.Refines t) (fd : Nat) :
    (fd ∈ s.readset.filter (fun fd => fd < s.nfds ∧ fd ∈ readable) ↔
        Flag.IN ∈ (t fd).s_flags ∧ fd ∈ readable) ∧
      (fd ∈ s.writeset.filter (fun fd => fd < s.nfds ∧ fd ∈ writable) ↔
        Flag.OUT ∈ (t fd).s_flags ∧ fd ∈ writable) := by
  have hbelow : ∀ flag, flag ∈ (t fd).s_flags → fd < s.nfds := by
    intro flag hflag
    exact h.below fd (Finset.ne_empty_of_mem hflag)
  rw [Finset.mem_filter, Finset.mem_filter, h.read, h.write]
  exact ⟨⟨fun ⟨hin, _, hr⟩ => ⟨hin, hr⟩, fun ⟨hin, hr⟩ => ⟨hin, hbelow _ hin, hr⟩⟩,
    ⟨fun ⟨hout, _, hw⟩ => ⟨hout, hw⟩, fun ⟨hout, hw⟩ => ⟨hout, hbelow _ hout, hw⟩⟩⟩

theorem EpollAnswer.mem_fds (h : EpollAnswer e readable writable rs) (hrefines : e.Refines t)
    (fd : Nat) : fd ∈ rs.map EpollReady.fd ↔
      Flag.IN ∈ (t fd).s_flags ∧ fd ∈ readable ∨ Flag.OUT ∈ (t fd).s_flags ∧ fd ∈ writable := by
  rw [h.fds, ← hrefines.mem_epoll fd (.inl rfl), ← hrefines.mem_epoll fd (.inr rfl)]
  constructor
  · rintro ⟨events, hevents, ⟨hin, hr⟩ | ⟨hout, hw⟩⟩
    · exact .inl ⟨⟨events, hevents, hin⟩, hr⟩
    · exact .inr ⟨⟨events, hevents, hout⟩, hw⟩
  · rintro (⟨⟨events, hevents, hin⟩, hr⟩ | ⟨⟨events, hevents, hout⟩, hw⟩)
    · exact ⟨events, hevents, .inl ⟨hin, hr⟩⟩
    · exact ⟨events, hevents, .inr ⟨hout, hw⟩⟩

/-- The ready events that the two loops set. -/
theorem EpollAnswer.readyEvents_eq (h : EpollAnswer e readable writable rs) (hs : s.Refines t)
    (hrefines : e.Refines t) {r : EpollReady} (hr : r ∈ rs) :
    Fdevents.readyEvents r =
      Select.readyBits (s.readset.filter fun fd => fd < s.nfds ∧ fd ∈ readable)
        (s.writeset.filter fun fd => fd < s.nfds ∧ fd ∈ writable) r.fd := by
  obtain ⟨hpri, hhup, herr⟩ := h.others r hr
  obtain ⟨hread, hwrite⟩ := @Select.Fdevents.Refines.mem_selected s t readable writable hs r.fd
  have hin : r.epollin = true ↔ r.fd ∈ s.readset.filter fun fd => fd < s.nfds ∧ fd ∈ readable := by
    rw [h.epollin r hr, hread, hrefines.mem_epoll r.fd (.inl rfl)]
  have hout : r.epollout = true ↔
      r.fd ∈ s.writeset.filter fun fd => fd < s.nfds ∧ fd ∈ writable := by
    rw [h.epollout r hr, hwrite, hrefines.mem_epoll r.fd (.inr rfl)]
  simp only [Fdevents.readyEvents, Select.readyBits, hpri, hhup, herr, Bool.false_eq_true, or_false,
    if_false, Finset.union_empty, ← hin, ← hout]

/-- After the same calls the two backends return the same descriptors from `wait`, with the same
ready events, whatever is readable and writable and in whatever order `epoll_wait` reports it, if
no `epoll_ctl` was refused and nothing else is reported. -/
theorem wait_agrees {calls : List (Bool × FdeCall)} (hok : ∀ c ∈ calls, c.1 = true)
    (hfds : ∀ c ∈ calls, c.2.fd < Select.FD_SETSIZE)
    (hrun : selectBackend.exec Select.Fdevents.start (calls.map Prod.snd) = some s)
    (hrun' : epollBackend.exec Fdevents.start calls = some e)
    (hrs : EpollAnswer e readable writable rs) :
    ∃ s' ready_events, s.wait (s.selected readable writable) = some (s', ready_events) ∧
      ready_events.Pairwise (· < ·) ∧ ready_events.Perm (rs.map EpollReady.fd) ∧
      ∀ fd ∈ ready_events, (s'.entry fd).events = ((e.wait rs).entry fd).events := by
  obtain ⟨t, e', hs, hrefines, he'⟩ := backends_run hok hfds hrun
  cases hrun'.symm.trans he'
  obtain ⟨s', hwait, hbits⟩ := Select.Fdevents.wait_spec hs.inside
  have hmem : ∀ fd, fd ∈ (List.range s.nfds).filter (fun i =>
        i ∈ s.readset.filter (fun fd => fd < s.nfds ∧ fd ∈ readable) ∪
          s.writeset.filter fun fd => fd < s.nfds ∧ fd ∈ writable) ↔
      fd ∈ rs.map EpollReady.fd := by
    intro fd
    obtain ⟨hread, hwrite⟩ := @Select.Fdevents.Refines.mem_selected s t readable writable hs fd
    rw [List.mem_filter, List.mem_range, decide_eq_true_iff, Finset.mem_union, hread, hwrite,
      hrs.mem_fds hrefines]
    refine ⟨fun h => h.2, fun h => ⟨?_, h⟩⟩
    rcases h with ⟨hin, -⟩ | ⟨hout, -⟩
    · exact hs.below fd (Finset.ne_empty_of_mem hin)
    · exact hs.below fd (Finset.ne_empty_of_mem hout)
  refine ⟨s', _, hwait, List.pairwise_lt_range.filter _,
    (List.perm_ext_iff_of_nodup (List.nodup_range.filter _) hrs.nodup).mpr hmem, fun fd hfd => ?_⟩
  have hready := List.mem_filter.mp hfd
  obtain ⟨r, hr, rfl⟩ := List.mem_map.mp ((hmem fd).mp hfd)
  have hinside : ∀ r ∈ rs, r.fd < e.events.length := by
    intro r hr
    rcases (hrs.mem_fds hrefines r.fd).mp (List.mem_map_of_mem hr) with ⟨hin, -⟩ | ⟨hout, -⟩
    · exact hrefines.inside (Finset.ne_empty_of_mem hin)
    · exact hrefines.inside (Finset.ne_empty_of_mem hout)
  rw [hbits r.fd (List.mem_range.mp hready.1) (of_decide_eq_true hready.2),
    (Fdevents.events_wait hrs.nodup hinside).1 r hr, hrs.readyEvents_eq hs hrefines hr]

end Waiting

/-- Two descriptors. -/
def fiveSix : List (Bool × FdeCall) := [(true, .set 5 .IN 0 none), (true, .set 6 .IN 0 none)]

/-- `epoll_wait` when only one of them is readable. -/
theorem fiveSix_answer {e : Fdevents} (hrun : epollBackend.exec Fdevents.start fiveSix = some e) :
    EpollAnswer e {5, 9} {6} [⟨5, true, false, false, false, false⟩] := by
  have hepoll : ∀ fd, e.epoll fd =
      if fd = 6 then some {Flag.IN} else if fd = 5 then some {Flag.IN} else none := by
    intro fd
    cases hrun
    show Function.update (Function.update (fun _ => none) 5 (some {Flag.IN})) 6
      (some {Flag.IN}) fd = _
    rw [Function.update_apply, Function.update_apply]
  refine ⟨by decide, fun fd => ?_, fun r hr => ?_, fun r hr => ?_, by decide⟩
  · rw [hepoll]
    split
    · next h6 => simp [h6]
    · split
      · next h5 => simp [h5]
      · next h5 => simp [h5]
  · rw [List.mem_singleton.mp hr, hepoll]
    simp
  · rw [List.mem_singleton.mp hr, hepoll]
    simp

theorem wait_agrees_five : ∃ s e s' ready_events,
    selectBackend.exec Select.Fdevents.start (fiveSix.map Prod.snd) = some s ∧
      epollBackend.exec Fdevents.start fiveSix = some e ∧
      s.wait (s.selected {5, 9} {6}) = some (s', ready_events) ∧ ready_events.Perm [5] ∧
      ∀ fd ∈ ready_events, (s'.entry fd).events =
        ((e.wait [⟨5, true, false, false, false, false⟩]).entry fd).events := by
  obtain ⟨s, hs⟩ : ∃ s,
      selectBackend.exec Select.Fdevents.start (fiveSix.map Prod.snd) = some s := ⟨_, rfl⟩
  obtain ⟨e, he⟩ : ∃ e, epollBackend.exec Fdevents.start fiveSix = some e := ⟨_, rfl⟩
  obtain ⟨s', ready_events, hwait, -, hperm, hevents⟩ :=
    wait_agrees (by decide) (by decide) hs he (fiveSix_answer he)
  exact ⟨s, e, s', ready_events, hs, he, hwait, hperm, hevents⟩

end KvServer.Server5204
