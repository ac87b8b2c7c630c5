import Mathlib.Data.Prod.Lex
import Mathlib.Algebra.Order.BigOperators.Group.List
import Mathlib.Algebra.Order.Ring.Nat
import Mathlib.Data.List.Induction
import Mathlib.Data.List.Perm.Basic
import Mathlib.Data.List.TakeWhile
import Mathlib.Order.Bounds.Basic
import Mathlib.Tactic.Common

/-!
# The results of the children

`run_benchmark` starts a child for each connection and reads their results one after the
other.  It keeps the earliest start, the latest end and the sum of the messages.  The two
clients have the same loop and the same functions on `timespec`.

*The loop.*  The first result is recognised by what is kept so far: both times are still in
second 0.  A result that ends in second 0 leaves them there, so the next result is taken for
the first one again.  What is kept is therefore decided by the results from the first one on
that ends later (`lasting`), or by the last one alone (`foldl_collect_early`).

*The order.*  Which results are overwritten depends on the order in which they are read.
`OrderFree` says when this makes no difference.
-/

namespace KvServer.Client

/-! ## Times -/

/-- `struct timespec` -/
@[ext] structure Timespec where
  tv_sec : Int
  tv_nsec : Int
deriving DecidableEq, Repr

namespace Timespec

/-- Times are compared by the seconds first. -/
instance : LinearOrder Timespec :=
  LinearOrder.lift' (fun t => toLex (t.tv_sec, t.tv_nsec)) fun t t' h => by
    have heq : (t.tv_sec, t.tv_nsec) = (t'.tv_sec, t'.tv_nsec) := h
    exact Timespec.ext (congrArg Prod.fst heq) (congrArg Prod.snd heq)

theorem le_iff {t t' : Timespec} :
    t ≤ t' ↔ t.tv_sec < t'.tv_sec ∨ t.tv_sec = t'.tv_sec ∧ t.tv_nsec ≤ t'.tv_nsec :=
  Prod.Lex.toLex_le_toLex

theorem tv_sec_le {t t' : Timespec} (h : t ≤ t') : t.tv_sec ≤ t'.tv_sec := by
  rcases le_iff.mp h with hlt | ⟨heq, -⟩ <;> omega

end Timespec

/-- `min_timespec` -/
def minTimespec (t1 t2 : Timespec) : Timespec :=
  if t1.tv_sec = t2.tv_sec then if t1.tv_nsec < t2.tv_nsec then t1 else t2
  else if t1.tv_sec < t2.tv_sec then t1 else t2

/-- `max_timespec` -/
def maxTimespec (t1 t2 : Timespec) : Timespec :=
  if t1.tv_sec = t2.tv_sec then if t1.tv_nsec > t2.tv_nsec then t1 else t2
  else if t1.tv_sec > t2.tv_sec then t1 else t2

/-- `copy_timespec` -/
def copyTimespec (dest src : Timespec) : Timespec :=
  { { dest with tv_nsec := src.tv_nsec } with tv_sec := src.tv_sec }

@[simp] theorem copyTimespec_eq (dest src : Timespec) : copyTimespec dest src = src := rfl

theorem minTimespec_eq (t1 t2 : Timespec) : minTimespec t1 t2 = min t1 t2 := by
  unfold minTimespec
  split
  · split
    · exact (min_eq_left (Timespec.le_iff.mpr (by omega))).symm
    · exact (min_eq_right (Timespec.le_iff.mpr (by omega))).symm
  · split
    · exact (min_eq_left (Timespec.le_iff.mpr (by omega))).symm
    · exact (min_eq_right (Timespec.le_iff.mpr (by omega))).symm

theorem maxTimespec_eq (t1 t2 : Timespec) : maxTimespec t1 t2 = max t1 t2 := by
  unfold maxTimespec
  split
  · split
    · exact (max_eq_left (Timespec.le_iff.mpr (by omega))).symm
    · exact (max_eq_right (Timespec.le_iff.mpr (by omega))).symm
  · split
    · exact (max_eq_left (Timespec.le_iff.mpr (by omega))).symm
    · exact (max_eq_right (Timespec.le_iff.mpr (by omega))).symm

/-! ## The loop -/

/-- `struct benchmark_results` -/
structure BenchmarkResults where
  tstart : Timespec
  tend : Timespec
  messages_sent : UInt32
deriving DecidableEq, Repr

/-- What the parent keeps. -/
structure Collected where
  earliest_start : Timespec
  latest_end : Timespec
  total_messages_sent : UInt64
deriving DecidableEq, Repr

def Collected.start : Collected := ⟨⟨0, 0⟩, ⟨0, 0⟩, 0⟩

/-- The results of one child. -/
def collect (c : Collected) (br : BenchmarkResults) : Collected :=
  let total_messages_sent := c.total_messages_sent + br.messages_sent.toUInt64
  if c.earliest_start.tv_sec = 0 ∧ c.latest_end.tv_sec = 0 then
    { earliest_start := copyTimespec c.earliest_start br.tstart
      latest_end := copyTimespec c.latest_end br.tend
      total_messages_sent := total_messages_sent }
  else
    { earliest_start := copyTimespec c.earliest_start (minTimespec br.tstart c.earliest_start)
      latest_end := copyTimespec c.latest_end (maxTimespec br.tend c.latest_end)
      total_messages_sent := total_messages_sent }

/-- `run_benchmark` in the parent: the results are those read from `read_fds`. -/
def runBenchmark {num_of_connections : UInt16}
    (results : Vector BenchmarkResults num_of_connections.toNat) : Collected :=
  results.toList.foldl collect Collected.start

/-- `0 <= tv_sec` and `0 <= tv_nsec < 10^9` -/
def Timespec.Normalised (t : Timespec) : Prop :=
  0 ≤ t.tv_sec ∧ 0 ≤ t.tv_nsec ∧ t.tv_nsec < 1000000000

instance (t : Timespec) : Decidable t.Normalised := inferInstanceAs (Decidable (_ ∧ _))

/-- The times are normalised, and the child did not end before it started. -/
structure BenchmarkResults.Normalised (br : BenchmarkResults) : Prop where
  tstart : br.tstart.Normalised
  tend : br.tend.Normalised
  le : br.tstart ≤ br.tend

instance (br : BenchmarkResults) : Decidable br.Normalised :=
  decidable_of_iff (br.tstart.Normalised ∧ br.tend.Normalised ∧ br.tstart ≤ br.tend)
    ⟨fun h => ⟨h.1, h.2.1, h.2.2⟩, fun h => ⟨h.tstart, h.tend, h.le⟩⟩

/-- The times at which children started. -/
def starts (results : List BenchmarkResults) : Set Timespec := {t | ∃ r ∈ results, r.tstart = t}

/-- The times at which children ended. -/
def ends (results : List BenchmarkResults) : Set Timespec := {t | ∃ r ∈ results, r.tend = t}

/-- The parent has the first start, the last end and the number of all messages. -/
structure Aggregates (results : List BenchmarkResults) (c : Collected) : Prop where
  earliest : IsLeast (starts results) c.earliest_start
  latest : IsGreatest (ends results) c.latest_end
  total : c.total_messages_sent.toNat = (results.map fun r => r.messages_sent.toNat).sum

/-! ## What is kept -/

/-- The child has ended in second 0. -/
def BenchmarkResults.Early (br : BenchmarkResults) : Prop := br.tend.tv_sec = 0

instance (br : BenchmarkResults) : Decidable br.Early := inferInstanceAs (Decidable (_ = _))

theorem BenchmarkResults.Normalised.tstart_of_early {br : BenchmarkResults} (h : br.Normalised)
    (he : br.Early) : br.tstart.tv_sec = 0 := by
  have hle := Timespec.tv_sec_le h.le
  rw [show br.tend.tv_sec = 0 from he] at hle
  exact Int.le_antisymm hle h.tstart.1

/-- The results in front of the first one that is not early. -/
def early (results : List BenchmarkResults) : List BenchmarkResults :=
  results.takeWhile fun br => br.Early

/-- The results from the first one on that is not early. -/
def lasting (results : List BenchmarkResults) : List BenchmarkResults :=
  results.dropWhile fun br => br.Early

theorem early_append_lasting (results : List BenchmarkResults) :
    early results ++ lasting results = results :=
  List.takeWhile_append_dropWhile

theorem mem_iff_early_or_lasting {results : List BenchmarkResults} {br : BenchmarkResults} :
    br ∈ results ↔ br ∈ early results ∨ br ∈ lasting results := by
  rw [← List.mem_append, early_append_lasting]

theorem early_of_mem {results : List BenchmarkResults} {br : BenchmarkResults}
    (h : br ∈ early results) : br.Early :=
  of_decide_eq_true (List.mem_takeWhile_imp (p := fun br : BenchmarkResults => br.Early) h)

theorem lasting_eq_nil_iff {results : List BenchmarkResults} :
    lasting results = [] ↔ ∀ br ∈ results, br.Early := by
  simp [lasting, List.dropWhile_eq_nil_iff]

/-- The first result is still to come, as far as the loop can tell. -/
def Collected.Unset (c : Collected) : Prop := c.earliest_start.tv_sec = 0 ∧ c.latest_end.tv_sec = 0

theorem collect_of_unset {c : Collected} (h : c.Unset) (br : BenchmarkResults) :
    (collect c br).earliest_start = br.tstart ∧ (collect c br).latest_end = br.tend := by
  rw [collect]
  simp only [if_pos (show _ ∧ _ from h), copyTimespec_eq, and_self]

theorem collect_of_set {c : Collected} (h : ¬ c.Unset) (br : BenchmarkResults) :
    (collect c br).earliest_start = min br.tstart c.earliest_start ∧
      (collect c br).latest_end = max br.tend c.latest_end := by
  rw [collect]
  simp only [if_neg (show ¬ (_ ∧ _) from h), copyTimespec_eq, minTimespec_eq, maxTimespec_eq,
    and_self]

/-- Early results overwrite each other. -/
theorem foldl_collect_early {c : Collected} (hc : c.Unset) {results : List BenchmarkResults}
    (h : ∀ br ∈ results, br.Normalised ∧ br.Early) :
    (results.foldl collect c).Unset ∧ ∀ br ∈ results.getLast?,
      (results.foldl collect c).earliest_start = br.tstart ∧
        (results.foldl collect c).latest_end = br.tend := by
  induction results using List.reverseRecOn with
  | nil => exact ⟨hc, fun br hbr => by cases hbr⟩
  | append_singleton results br ih =>
      obtain ⟨hunset, -⟩ := ih fun br' hbr' => h br' (List.mem_append_left _ hbr')
      obtain ⟨hnorm, hearly⟩ := h br (List.mem_append_right _ List.mem_cons_self)
      obtain ⟨hstart, hend⟩ := collect_of_unset hunset br
      rw [List.foldl_append, List.foldl_cons, List.foldl_nil]
      refine ⟨⟨?_, ?_⟩, fun br' hbr' => ?_⟩
      · rw [hstart]
        exact hnorm.tstart_of_early hearly
      · rw [hend]
        exact hearly
      · rw [List.getLast?_concat] at hbr'
        cases hbr'
        exact ⟨hstart, hend⟩

/-- The times kept are those of the results, and one of them is not early. -/
structure Follows (results : List BenchmarkResults) (c : Collected) : Prop where
  earliest : IsLeast (starts results) c.earliest_start
  latest : IsGreatest (ends results) c.latest_end
  late : 0 < c.latest_end.tv_sec

theorem starts_concat (results : List BenchmarkResults) (br : BenchmarkResults) :
    starts (results ++ [br]) = insert br.tstart (starts results) := by
  ext t
  simp [starts, or_and_right, exists_or, eq_comm, or_comm]

theorem ends_concat (results : List BenchmarkResults) (br : BenchmarkResults) :
    ends (results ++ [br]) = insert br.tend (ends results) := by
  ext t
  simp [ends, or_and_right, exists_or, eq_comm, or_comm]

/-- The first result that is not early. -/
theorem Follows.first {c : Collected} (hc : c.Unset) {br : BenchmarkResults} (h : br.Normalised)
    (hearly : ¬ br.Early) : Follows [br] (collect c br) := by
  obtain ⟨hstart, hend⟩ := collect_of_unset hc br
  refine ⟨?_, ?_, ?_⟩
  · rw [hstart]
    exact ⟨⟨br, List.mem_cons_self, rfl⟩, fun t ⟨r, hr, ht⟩ => by simp_all⟩
  · rw [hend]
    exact ⟨⟨br, List.mem_cons_self, rfl⟩, fun t ⟨r, hr, ht⟩ => by simp_all⟩
  · rw [hend]
    exact lt_of_le_of_ne h.tend.1 (Ne.symm hearly)

/-- A result behind it. -/
theorem Follows.collect {results : List BenchmarkResults} {c : Collected} (h : Follows results c)
    (br : BenchmarkResults) : Follows (results ++ [br]) (collect c br) := by
  have hset : ¬ c.Unset := fun hunset => h.late.ne' hunset.2
  obtain ⟨hstart, hend⟩ := collect_of_set hset br
  refine ⟨?_, ?_, ?_⟩
  · rw [hstart, starts_concat]
    exact h.earliest.insert _
  · rw [hend, ends_concat]
    exact h.latest.insert _
  · rw [hend]
    exact h.late.trans_le (Timespec.tv_sec_le (le_max_right _ _))

theorem Follows.foldl {results : List BenchmarkResults} {c : Collected} (h : Follows results c)
    (more : List BenchmarkResults) :
    Follows (results ++ more) (more.foldl KvServer.Client.collect c) := by
  induction more generalizing results c with
  | nil => simpa using h
  | cons br more ih => simpa using ih (h.collect br)

/-- What is kept if not all results are early. -/
theorem follows_lasting {results : List BenchmarkResults} (hnorm : ∀ br ∈ results, br.Normalised)
    (hlasting : lasting results ≠ []) :
    Follows (lasting results) (results.foldl collect Collected.start) := by
  obtain ⟨first, rest, hcons⟩ := List.exists_cons_of_ne_nil hlasting
  have hsplit := early_append_lasting results
  have hfirst : ¬ first.Early := by
    have hhead := List.head?_dropWhile_not (fun br : BenchmarkResults => decide br.Early) results
    rw [show results.dropWhile _ = first :: rest from hcons] at hhead
    simpa using hhead
  obtain ⟨hunset, -⟩ := foldl_collect_early (c := Collected.start) ⟨rfl, rfl⟩
    fun br hbr => ⟨hnorm br (mem_iff_early_or_lasting.mpr (Or.inl hbr)), early_of_mem hbr⟩
  have hnormFirst : first.Normalised :=
    hnorm first (mem_iff_early_or_lasting.mpr (Or.inr (hcons ▸ List.mem_cons_self)))
  have hfollows := (Follows.first hunset hnormFirst hfirst).foldl rest
  rw [← List.foldl_cons (f := collect), ← List.foldl_append, ← hcons, hsplit] at hfollows
  rw [hcons]
  exact hfollows

/-! ## The number of messages -/

theorem toNat_foldl_collect (results : List BenchmarkResults) (c : Collected) :
    (results.foldl collect c).total_messages_sent.toNat =
      (c.total_messages_sent.toNat +
        (results.map fun r => r.messages_sent.toNat).sum) % 2 ^ 64 := by
  induction results generalizing c with
  | nil => exact (Nat.mod_eq_of_lt (by simpa using c.total_messages_sent.toNat_lt)).symm
  | cons br results ih =>
      have hstep : (collect c br).total_messages_sent =
          c.total_messages_sent + br.messages_sent.toUInt64 := by
        rw [collect]
        split <;> rfl
      rw [List.foldl_cons, ih, hstep, UInt64.toNat_add, UInt32.toNat_toUInt64, List.map_cons,
        List.sum_cons, Nat.mod_add_mod, Nat.add_assoc]

/-- As many children as a `uint16_t` counts cannot send too many messages for a `uint64_t`. -/
theorem total_runBenchmark {num_of_connections : UInt16}
    (results : Vector BenchmarkResults num_of_connections.toNat) :
    (runBenchmark results).total_messages_sent.toNat =
      (results.toList.map fun r => r.messages_sent.toNat).sum := by
  have hzero : Collected.start.total_messages_sent.toNat = 0 := rfl
  have hle := List.sum_le_card_nsmul (results.toList.map fun r => r.messages_sent.toNat) (2 ^ 32)
    (by simpa using fun br _ => br.messages_sent.toNat_lt.le)
  have hcount := num_of_connections.toNat_lt
  rw [List.length_map, Vector.length_toList, Nat.nsmul_eq_mul] at hle
  rw [runBenchmark, toNat_foldl_collect, hzero, Nat.zero_add, Nat.mod_eq_of_lt (by omega)]

/-! ## Whether it is what was asked for -/

/-- The results that are overwritten make no difference.  If all are early these are all but
the last. -/
def Unharmed (results : List BenchmarkResults) : Prop :=
  if lasting results = [] then
    ∀ last ∈ results.getLast?, ∀ r ∈ results, last.tstart ≤ r.tstart ∧ r.tend ≤ last.tend
  else ∀ r ∈ early results, ∃ r' ∈ lasting results, r'.tstart ≤ r.tstart

instance (results : List BenchmarkResults) : Decidable (Unharmed results) :=
  inferInstanceAs (Decidable (ite _ _ _))

/-- An early child did not start before all those that are not early, or all children started
and ended at the same time. -/
def OrderFree (results : List BenchmarkResults) : Prop :=
  (∀ r ∈ results, r.Early → ∃ r' ∈ results, ¬ r'.Early ∧ r'.tstart ≤ r.tstart) ∨
    ∀ r ∈ results, ∀ r' ∈ results, r.tstart = r'.tstart ∧ r.tend = r'.tend

section Aggregates

variable {results : List BenchmarkResults}

/-- The loop keeps the first start and the last end exactly if no overwritten result had them. -/
theorem extremes_iff (hne : results ≠ []) (hnorm : ∀ br ∈ results, br.Normalised) :
    (IsLeast (starts results) (results.foldl collect Collected.start).earliest_start ∧
      IsGreatest (ends results) (results.foldl collect Collected.start).latest_end) ↔
      Unharmed results := by
  unfold Unharmed
  split
  · next hlasting =>
    have hearly := lasting_eq_nil_iff.mp hlasting
    obtain ⟨hunset, hlast⟩ := foldl_collect_early (c := Collected.start) ⟨rfl, rfl⟩
      fun br hbr => ⟨hnorm br hbr, hearly br hbr⟩
    have hsome := List.getLast?_eq_some_getLast hne
    obtain ⟨hstart, hend⟩ := hlast _ hsome
    rw [hstart, hend, hsome]
    constructor
    · rintro ⟨hleast, hgreatest⟩ last hmem r hr
      cases hmem
      exact ⟨hleast.2 ⟨r, hr, rfl⟩, hgreatest.2 ⟨r, hr, rfl⟩⟩
    · intro hall
      have hlast := hall _ rfl
      refine ⟨⟨⟨_, List.getLast_mem hne, rfl⟩, ?_⟩, ⟨⟨_, List.getLast_mem hne, rfl⟩, ?_⟩⟩
      · rintro t ⟨r, hr, rfl⟩
        exact (hlast r hr).1
      · rintro t ⟨r, hr, rfl⟩
        exact (hlast r hr).2
  · next hlasting =>
    obtain ⟨⟨hstart, hleast⟩, ⟨hend, hgreatest⟩, hlate⟩ := follows_lasting hnorm hlasting
    constructor
    · rintro ⟨⟨-, hall⟩, -⟩ r hr
      obtain ⟨r', hr', heq⟩ := hstart
      exact ⟨r', hr', heq ▸ hall ⟨r, mem_iff_early_or_lasting.mpr (Or.inl hr), rfl⟩⟩
    · intro hall
      obtain ⟨r, hr, hr'⟩ := hstart
      obtain ⟨r', hend, hend'⟩ := hend
      refine ⟨⟨⟨r, mem_iff_early_or_lasting.mpr (Or.inr hr), hr'⟩, ?_⟩,
        ⟨⟨r', mem_iff_early_or_lasting.mpr (Or.inr hend), hend'⟩, ?_⟩⟩
      · rintro t ⟨x, hx, rfl⟩
        rcases mem_iff_early_or_lasting.mp hx with hx | hx
        · obtain ⟨y, hy, hle⟩ := hall x hx
          exact (hleast ⟨y, hy, rfl⟩).trans hle
        · exact hleast ⟨x, hx, rfl⟩
      · rintro t ⟨x, hx, rfl⟩
        rcases mem_iff_early_or_lasting.mp hx with hx | hx
        · -- an early result ends before the one that is not early
          have hzero : x.tend.tv_sec = 0 := early_of_mem hx
          exact Timespec.le_iff.mpr (Or.inl (hzero ▸ hlate))
        · exact hgreatest ⟨x, hx, rfl⟩

/-- Early results in front of the others. -/
theorem early_lasting_append {front behind : List BenchmarkResults} (hfront : ∀ r ∈ front, r.Early)
    (hbehind : ∀ r ∈ behind, ¬ r.Early) :
    early (front ++ behind) = front ∧ lasting (front ++ behind) = behind := by
  have hpos : ∀ r ∈ front, decide r.Early = true := fun r hr => decide_eq_true (hfront r hr)
  have hnone : early behind = [] ∧ lasting behind = behind := by
    cases behind with
    | nil => exact ⟨rfl, rfl⟩
    | cons r behind => simp [early, lasting, hbehind r List.mem_cons_self]
  constructor
  · rw [early, List.takeWhile_append_of_pos hpos]
    exact (congrArg (front ++ ·) hnone.1).trans (List.append_nil front)
  · rw [lasting, List.dropWhile_append_of_pos hpos]
    exact hnone.2

/-- The order makes no difference if no order is harmful. -/
theorem unharmed_perm_iff :
    (∀ results', results'.Perm results → Unharmed results') ↔ OrderFree results := by
  constructor
  · intro h
    by_cases hall : ∀ r ∈ results, r.Early
    · -- each of them can be the last one
      have hlast : ∀ r ∈ results, ∀ x ∈ results, r.tstart ≤ x.tstart ∧ x.tend ≤ r.tend := by
        intro r hr
        have hperm : (results.erase r ++ [r]).Perm results :=
          (List.perm_append_comm).trans (List.perm_cons_erase hr).symm
        have hunharmed := h _ hperm
        rw [Unharmed, if_pos (lasting_eq_nil_iff.mpr fun x hx => hall x (hperm.mem_iff.mp hx))]
          at hunharmed
        exact fun x hx => hunharmed r (List.getLast?_concat ..) x (hperm.mem_iff.mpr hx)
      refine Or.inr fun r hr r' hr' => ⟨?_, ?_⟩
      · exact le_antisymm (hlast r hr r' hr').1 (hlast r' hr' r hr).1
      · exact le_antisymm (hlast r' hr' r hr).2 (hlast r hr r' hr').2
    · -- all early results can be in front
      obtain ⟨first, hfirst, hlate⟩ : ∃ r ∈ results, ¬ r.Early := by simpa using hall
      have hperm := List.filter_append_perm (fun r : BenchmarkResults => decide r.Early) results
      have hunharmed := h _ hperm
      obtain ⟨hearly, hlasting⟩ := @early_lasting_append
        (results.filter fun r => decide r.Early) (results.filter fun r => !decide r.Early)
        (fun r hr => by simpa using (List.mem_filter.mp hr).2)
        (fun r hr => by simpa using (List.mem_filter.mp hr).2)
      rw [Unharmed, hearly, hlasting, if_neg] at hunharmed
      · refine Or.inl fun r hr hr' => ?_
        obtain ⟨r', hmem, hle⟩ := hunharmed r (by simp [hr, hr'])
        simp only [List.mem_filter, Bool.not_eq_true', decide_eq_false_iff_not] at hmem
        exact ⟨r', hmem.1, hmem.2, hle⟩
      · exact List.ne_nil_of_mem (by simp [hfirst, hlate] : first ∈ _)
  · intro h results' hperm
    have hmem : ∀ r, r ∈ results' ↔ r ∈ results := fun r => hperm.mem_iff
    unfold Unharmed
    split
    · next hlasting =>
      have hearly := lasting_eq_nil_iff.mp hlasting
      intro last hlast r hr
      have hlast' := (hmem last).mp (List.mem_of_getLast? hlast)
      rcases h with h | h
      · obtain ⟨r', hr', hlate, -⟩ := h last hlast' (hearly last ((hmem last).mpr hlast'))
        exact absurd (hearly r' ((hmem r').mpr hr')) hlate
      · obtain ⟨hstart, hend⟩ := h last hlast' r ((hmem r).mp hr)
        exact ⟨hstart.le, hend.ge⟩
    · next hlasting =>
      intro r hr
      have hr' := (hmem r).mp (mem_iff_early_or_lasting.mpr (Or.inl hr))
      rcases h with h | h
      · obtain ⟨r', hmem', hlate, hle⟩ := h r hr' (early_of_mem hr)
        rcases mem_iff_early_or_lasting.mp ((hmem r').mpr hmem') with hin | hin
        · exact absurd (early_of_mem hin) hlate
        · exact ⟨r', hin, hle⟩
      · obtain ⟨r', hin⟩ := List.exists_mem_of_ne_nil _ hlasting
        have hin' := (hmem r').mp (mem_iff_early_or_lasting.mpr (Or.inr hin))
        exact ⟨r', hin, (h r' hin' r hr').1.le⟩

/-- What was asked for does not depend on the order. -/
theorem Aggregates.perm {results' : List BenchmarkResults} {c : Collected}
    (hperm : results'.Perm results) (h : Aggregates results' c) : Aggregates results c := by
  have hstarts : starts results' = starts results := by simp only [starts, hperm.mem_iff]
  have hends : ends results' = ends results := by simp only [ends, hperm.mem_iff]
  exact ⟨hstarts ▸ h.earliest, hends ▸ h.latest, h.total.trans (hperm.map _).sum_eq⟩

end Aggregates

section Children

variable {num_of_connections : UInt16}

theorem aggregates_iff_unharmed (hpos : 0 < num_of_connections.toNat)
    (results : Vector BenchmarkResults num_of_connections.toNat)
    (hnorm : ∀ br ∈ results.toList, br.Normalised) :
    Aggregates results.toList (runBenchmark results) ↔ Unharmed results.toList := by
  have hne : results.toList ≠ [] := by
    rw [← List.length_pos_iff, Vector.length_toList]
    exact hpos
  rw [← extremes_iff hne hnorm]
  exact ⟨fun h => ⟨h.earliest, h.latest⟩, fun h => ⟨h.1, h.2, total_runBenchmark results⟩⟩

/-- The parent has the first start, the last end and the number of all messages exactly if the
results that are overwritten make no difference, and it has them in every order of the children
exactly if these make no difference in any order. -/
theorem runBenchmark_aggregates_iff (hpos : 0 < num_of_connections.toNat)
    (results : Vector BenchmarkResults num_of_connections.toNat)
    (hnorm : ∀ br ∈ results.toList, br.Normalised) :
    (Aggregates results.toList (runBenchmark results) ↔ Unharmed results.toList) ∧
      ((∀ results' : Vector BenchmarkResults num_of_connections.toNat,
        results'.toList.Perm results.toList → Aggregates results.toList (runBenchmark results')) ↔
        OrderFree results.toList) := by
  refine ⟨aggregates_iff_unharmed hpos results hnorm, ?_⟩
  rw [← unharmed_perm_iff]
  constructor
  · intro h l hperm
    have hlen : l.toArray.size = num_of_connections.toNat := by simp [hperm.length_eq]
    have hagg := h ⟨l.toArray, hlen⟩ hperm
    exact (aggregates_iff_unharmed hpos ⟨l.toArray, hlen⟩
      fun br hbr => hnorm br (hperm.mem_iff.mp hbr)).mp (hagg.perm hperm.symm)
  · intro h results' hperm
    have hnorm' : ∀ br ∈ results'.toList, br.Normalised := fun br hbr =>
      hnorm br (hperm.mem_iff.mp hbr)
    exact ((aggregates_iff_unharmed hpos results' hnorm').mpr (h _ hperm)).perm hperm

end Children

/-- Two children that start when the machine has been running for a while. -/
theorem runBenchmark_aggregates_iff_two :
    Aggregates [⟨⟨81, 500⟩, ⟨84, 0⟩, 924⟩, ⟨⟨81, 700⟩, ⟨83, 0⟩, 924⟩]
      (@runBenchmark 2 #v[⟨⟨81, 500⟩, ⟨84, 0⟩, 924⟩, ⟨⟨81, 700⟩, ⟨83, 0⟩, 924⟩]) :=
  (@runBenchmark_aggregates_iff 2 (by decide)
    #v[⟨⟨81, 500⟩, ⟨84, 0⟩, 924⟩, ⟨⟨81, 700⟩, ⟨83, 0⟩, 924⟩] (by decide)).1.mpr (by decide)

/-- Two children in second 0: the start of the second one is kept. -/
theorem early_start_lost :
    ∃ results : Vector BenchmarkResults (2 : UInt16).toNat,
      (∀ br ∈ results.toList, br.Normalised) ∧
        ¬ Aggregates results.toList (runBenchmark results) := by
  refine ⟨#v[⟨⟨0, 500⟩, ⟨0, 900⟩, 924⟩, ⟨⟨0, 700⟩, ⟨0, 800⟩, 924⟩], by decide, fun h => ?_⟩
  exact absurd (h.earliest.2 ⟨_, List.mem_cons_self, rfl⟩) (by decide)

end KvServer.Client
