import KvServer.Base.Pipe
import KvServer.Base.Threads
import Mathlib.Data.Fintype.Fin
import Mathlib.Data.Multiset.Basic

/-!
# Worker threads

`WorkerPool` has a queue of jobs and a queue of results.  Workers take jobs from the one, process
them and put the results into the other.  Any thread may put jobs in, and any thread may take
results out.

*The two queues.*  `Queue` has a condition: who finds it empty waits, and a push signals.
`SelectableQueue` has a pipe: a push writes a byte after it has put its item in, and a pop reads a
byte before it takes its item out.  A push writes while it holds the lock.

*Interleavings.*  `workerPool` is the machine in which the threads take their steps in any order.
A step is what a thread does at one place: take a lock, change a queue, give a lock back, signal,
write or read a byte.  A worker that waits may also wake up without a signal.  The pipe is a
parameter, for when a write goes through is up to the kernel (`Pipe`).

*What holds in every run.*  `Inv` says where every job is (`pool_safe`).  A run without new jobs and
needless wake-ups is bounded by `rank`, and when it is stuck everything has been delivered, with
one exception: the pipe is full, a worker waits to write to it and holds the lock, and every
reader has its byte and waits for the lock (`WorkerPool.Stuck.cases`).  That takes more results
than there are readers and bytes that the pipe takes for sure (`pool_drains`).  With one reader,
`c + 1` jobs deadlock a pipe that takes `c` bytes and none after one of them has been read, and
`c + 2` jobs one that takes one more then (`pool_deadlock`).
-/

namespace KvServer.Util

open Threads

variable {J : Type}

/-- Where a thread is that calls `push` of the pool. -/
inductive Caller (J : Type) where
  | idle
  /-- Before `pthread_mutex_lock` of the jobs. -/
  | lock (job : J)
  /-- Before `items.push(item)`. -/
  | pushing (job : J)
  | unlock
  /-- Before `pthread_cond_signal`. -/
  | signal
deriving DecidableEq, Repr

/-- Where a worker is in the loop of `_run_worker`. -/
inductive Worker (J : Type) where
  /-- `jobs.pop`, before the lock. -/
  | popLock
  /-- Before `while(items.empty())`, with the lock. -/
  | popCheck
  /-- In `pthread_cond_wait`, without the lock. -/
  | waiting
  /-- In `pthread_cond_wait`, about to take the lock again. -/
  | woken
  /-- With a job, before the unlock. -/
  | popUnlock (job : J)
  /-- Before `proc`. -/
  | proc (job : J)
  /-- `results.push`, before the lock. -/
  | pushLock (job : J)
  | pushing (job : J)
  /-- Before the write to the pipe, with the lock. -/
  | write
  | pushUnlock
deriving DecidableEq, Repr

def Worker.isWaiting : Worker J → Bool
  | .waiting => true
  | _ => false

/-- Where a thread is that calls `pop` of the pool. -/
inductive Reader where
  | idle
  /-- Before the read from the pipe. -/
  | reading
  /-- With a byte, before the lock. -/
  | lock
  /-- Before `items.empty()`, with the lock. -/
  | locked
  | unlock
deriving DecidableEq, Repr

/-- A pool with `n` workers, `m` threads that push and `k` threads that pop.  The last fields
record the jobs in the order they were put in, who took them out, the results in the order they
were put in and taken out, and whether `pop` has found no item. -/
structure WorkerPool (J : Type) (n m k : Nat) (P : Pipe) where
  callers : Fin m → Caller J
  workers : Fin n → Worker J
  readers : Fin k → Reader
  jobs : List J
  /-- The mutex of the jobs is locked. -/
  jobsLocked : Bool
  results : List J
  resultsLocked : Bool
  pipe : P.State
  pushed : List J
  taken : List (Fin n × J)
  finished : List J
  delivered : List J
  error : Bool

/-- What happens next. -/
inductive PoolEvent (J : Type) (n m k : Nat) where
  /-- A thread calls `push`. -/
  | push (i : Fin m) (job : J)
  | caller (i : Fin m)
  /-- `pthread_cond_signal` wakes a worker, or there is none to wake. -/
  | signal (i : Fin m) (w : Option (Fin n))
  | worker (w : Fin n)
  /-- `pthread_cond_wait` returns without a signal. -/
  | wake (w : Fin n)
  /-- A thread calls `pop`. -/
  | pop (r : Fin k)
  | reader (r : Fin k)

namespace WorkerPool

variable {n m k : Nat} {P : Pipe}

/-- Nothing has been put in. -/
def start : WorkerPool J n m k P where
  callers _ := .idle
  workers _ := .popLock
  readers _ := .idle
  jobs := []
  jobsLocked := false
  results := []
  resultsLocked := false
  pipe := P.empty
  pushed := []
  taken := []
  finished := []
  delivered := []
  error := false

def setCaller (s : WorkerPool J n m k P) (i : Fin m) (pc : Caller J) : WorkerPool J n m k P :=
  { s with callers := Function.update s.callers i pc }

def setWorker (s : WorkerPool J n m k P) (w : Fin n) (pc : Worker J) : WorkerPool J n m k P :=
  { s with workers := Function.update s.workers w pc }

def setReader (s : WorkerPool J n m k P) (r : Fin k) (pc : Reader) : WorkerPool J n m k P :=
  { s with readers := Function.update s.readers r pc }

/-- `Queue::push` but its call and its signal. -/
def callerStep (s : WorkerPool J n m k P) (i : Fin m) : Option (WorkerPool J n m k P) :=
  match s.callers i with
  | .idle => none
  | .lock job =>
      if s.jobsLocked then none
      else some { s.setCaller i (.pushing job) with jobsLocked := true }
  | .pushing job =>
      some { s.setCaller i .unlock with jobs := s.jobs ++ [job], pushed := s.pushed ++ [job] }
  | .unlock => some { s.setCaller i .signal with jobsLocked := false }
  | .signal => none

/-- `pthread_cond_signal`. -/
def signalStep (s : WorkerPool J n m k P) (i : Fin m) (w : Option (Fin n)) :
    Option (WorkerPool J n m k P) :=
  match s.callers i, w with
  | .signal, none =>
      if ∀ w, (s.workers w).isWaiting = false then some (s.setCaller i .idle) else none
  | .signal, some w =>
      match s.workers w with
      | .waiting => some ((s.setWorker w .woken).setCaller i .idle)
      | _ => none
  | _, _ => none

/-- The loop of `_run_worker`, with `Queue::pop` and `SelectableQueue::push`.  `proc` is what the
worker makes of a job. -/
def workerStep (proc : Fin n → J → J) (s : WorkerPool J n m k P) (w : Fin n) :
    Option (WorkerPool J n m k P) :=
  match s.workers w with
  | .popLock =>
      if s.jobsLocked then none else some { s.setWorker w .popCheck with jobsLocked := true }
  | .popCheck =>
      match s.jobs with
      | [] => some { s.setWorker w .waiting with jobsLocked := false }
      | job :: jobs =>
          some { s.setWorker w (.popUnlock job) with
            jobs := jobs, taken := s.taken ++ [(w, job)] }
  | .waiting => none
  | .woken =>
      if s.jobsLocked then none else some { s.setWorker w .popCheck with jobsLocked := true }
  | .popUnlock job => some { s.setWorker w (.proc job) with jobsLocked := false }
  | .proc job => some (s.setWorker w (.pushLock (proc w job)))
  | .pushLock job =>
      if s.resultsLocked then none
      else some { s.setWorker w (.pushing job) with resultsLocked := true }
  | .pushing job =>
      some { s.setWorker w .write with
        results := s.results ++ [job], finished := s.finished ++ [job] }
  | .write =>
      if P.takes s.pipe then some { s.setWorker w .pushUnlock with pipe := P.write s.pipe }
      else none
  | .pushUnlock => some { s.setWorker w .popLock with resultsLocked := false }

/-- `SelectableQueue::pop` but its call. -/
def readerStep (s : WorkerPool J n m k P) (r : Fin k) : Option (WorkerPool J n m k P) :=
  match s.readers r with
  | .idle => none
  | .reading =>
      if 0 < P.bytes s.pipe then some { s.setReader r .lock with pipe := P.read s.pipe }
      else none
  | .lock =>
      if s.resultsLocked then none else some { s.setReader r .locked with resultsLocked := true }
  | .locked =>
      match s.results with
      | [] => some { s.setReader r .idle with error := true, resultsLocked := false }
      | job :: results =>
          some { s.setReader r .unlock with
            results := results, delivered := s.delivered ++ [job] }
  | .unlock => some { s.setReader r .idle with resultsLocked := false }

def step (proc : Fin n → J → J) (s : WorkerPool J n m k P) :
    PoolEvent J n m k → Option (WorkerPool J n m k P)
  | .push i job =>
      match s.callers i with
      | .idle => some (s.setCaller i (.lock job))
      | _ => none
  | .caller i => s.callerStep i
  | .signal i w => s.signalStep i w
  | .worker w => s.workerStep proc w
  | .wake w =>
      match s.workers w with
      | .waiting => some (s.setWorker w .woken)
      | _ => none
  | .pop r =>
      match s.readers r with
      | .idle => some (s.setReader r .reading)
      | _ => none
  | .reader r => s.readerStep r

end WorkerPool

/-- The machine of the pool. -/
def workerPool (J : Type) {n : Nat} (m k : Nat) (P : Pipe) (proc : Fin n → J → J) :
    Machine (WorkerPool J n m k P) (PoolEvent J n m k) where
  step := WorkerPool.step proc

/-! ## Totals -/

/-- The thread holds the lock of the jobs. -/
def Caller.holdsJobs : Caller J → Nat
  | .pushing _ => 1
  | .unlock => 1
  | _ => 0

def Worker.holdsJobs : Worker J → Nat
  | .popCheck => 1
  | .popUnlock _ => 1
  | _ => 0

/-- The thread holds the lock of the results. -/
def Worker.holdsResults : Worker J → Nat
  | .pushing _ => 1
  | .write => 1
  | .pushUnlock => 1
  | _ => 0

def Reader.holdsResults : Reader → Nat
  | .locked => 1
  | .unlock => 1
  | _ => 0

/-- The worker has put its item in and not yet written the byte. -/
def Worker.owesByte : Worker J → Nat
  | .write => 1
  | _ => 0

/-- The reader has read a byte and not yet taken an item out. -/
def Reader.hasByte : Reader → Nat
  | .lock => 1
  | .locked => 1
  | _ => 0

/-- The result of the job that the worker has in its hands. -/
def Worker.inHand {n : Nat} (proc : Fin n → J → J) (w : Fin n) : Worker J → Multiset J
  | .popUnlock job => {proc w job}
  | .proc job => {proc w job}
  | .pushLock job => {job}
  | .pushing job => {job}
  | _ => 0

namespace WorkerPool

variable {n m k : Nat} {P : Pipe}

/-- How many threads hold the lock of the jobs. -/
def jobsHeld (s : WorkerPool J n m k P) : Nat :=
  total (fun _ => Caller.holdsJobs) s.callers + total (fun _ => Worker.holdsJobs) s.workers

/-- How many threads hold the lock of the results. -/
def resultsHeld (s : WorkerPool J n m k P) : Nat :=
  total (fun _ => Worker.holdsResults) s.workers + total (fun _ => Reader.holdsResults) s.readers

/-- How many workers owe a byte. -/
def owed (s : WorkerPool J n m k P) : Nat := total (fun _ => Worker.owesByte) s.workers

/-- How many readers have a byte. -/
def bytesRead (s : WorkerPool J n m k P) : Nat := total (fun _ => Reader.hasByte) s.readers

/-- The results of the jobs that the workers have in their hands. -/
def inHands (proc : Fin n → J → J) (s : WorkerPool J n m k P) : Multiset J :=
  total (Worker.inHand proc) s.workers

/-- Someone is about to signal, or a worker is awake. -/
def Awake (s : WorkerPool J n m k P) : Prop :=
  (∃ i, s.callers i = .unlock ∨ s.callers i = .signal) ∨ ∃ w, (s.workers w).isWaiting = false

/-- Where everything is. -/
structure Inv (proc : Fin n → J → J) (s : WorkerPool J n m k P) : Prop where
  /-- One thread at most holds a lock, and only if it is locked. -/
  jobsHeld : s.jobsHeld = s.jobsLocked.toNat
  resultsHeld : s.resultsHeld = s.resultsLocked.toNat
  /-- The jobs that were put in have been taken out in order, or are in the queue. -/
  pushed : s.pushed = s.taken.map Prod.snd ++ s.jobs
  /-- What was taken out is finished or in the hands of a worker. -/
  taken : (s.taken.map fun t => proc t.1 t.2 : Multiset J) = s.finished + s.inHands proc
  /-- The results have been delivered in order, or are in the queue. -/
  finished : s.finished = s.delivered ++ s.results
  /-- There is a byte for every result, in the pipe or in a hand, or it is about to be written. -/
  bytes : s.results.length = P.bytes s.pipe + s.bytesRead + s.owed
  calm : s.error = false
  /-- The workers do not all sleep over a job. -/
  awake : 0 < n → s.jobs ≠ [] → s.Awake

section Moves

variable (s : WorkerPool J n m k P)

theorem jobsHeld_setCaller (i : Fin m) (pc : Caller J) :
    (s.setCaller i pc).jobsHeld + (s.callers i).holdsJobs = s.jobsHeld + pc.holdsJobs := by
  have hmove := total_move (fun _ => Caller.holdsJobs) s.callers i pc
  simp only [jobsHeld, setCaller]
  omega

theorem jobsHeld_setWorker (w : Fin n) (pc : Worker J) :
    (s.setWorker w pc).jobsHeld + (s.workers w).holdsJobs = s.jobsHeld + pc.holdsJobs := by
  have hmove := total_move (fun _ => Worker.holdsJobs) s.workers w pc
  simp only [jobsHeld, setWorker]
  omega

theorem resultsHeld_setWorker (w : Fin n) (pc : Worker J) :
    (s.setWorker w pc).resultsHeld + (s.workers w).holdsResults =
      s.resultsHeld + pc.holdsResults := by
  have hmove := total_move (fun _ => Worker.holdsResults) s.workers w pc
  simp only [resultsHeld, setWorker]
  omega

theorem resultsHeld_setReader (r : Fin k) (pc : Reader) :
    (s.setReader r pc).resultsHeld + (s.readers r).holdsResults =
      s.resultsHeld + pc.holdsResults := by
  have hmove := total_move (fun _ => Reader.holdsResults) s.readers r pc
  simp only [resultsHeld, setReader]
  omega

theorem owed_setWorker (w : Fin n) (pc : Worker J) :
    (s.setWorker w pc).owed + (s.workers w).owesByte = s.owed + pc.owesByte :=
  total_move (fun _ => Worker.owesByte) s.workers w pc

theorem bytesRead_setReader (r : Fin k) (pc : Reader) :
    (s.setReader r pc).bytesRead + (s.readers r).hasByte = s.bytesRead + pc.hasByte :=
  total_move (fun _ => Reader.hasByte) s.readers r pc

theorem inHands_setWorker (proc : Fin n → J → J) (w : Fin n) (pc : Worker J) :
    (s.setWorker w pc).inHands proc + (s.workers w).inHand proc w =
      s.inHands proc + pc.inHand proc w :=
  total_move (Worker.inHand proc) s.workers w pc

variable {s}

theorem jobsHeld_setWorker_of_eq {w : Fin n} {p : Worker J}
    (h : p.holdsJobs = (s.workers w).holdsJobs) : (s.setWorker w p).jobsHeld = s.jobsHeld := by
  have hmove := s.jobsHeld_setWorker w p
  omega

theorem resultsHeld_setWorker_of_eq {w : Fin n} {p : Worker J}
    (h : p.holdsResults = (s.workers w).holdsResults) :
    (s.setWorker w p).resultsHeld = s.resultsHeld := by
  have hmove := s.resultsHeld_setWorker w p
  omega

theorem owed_setWorker_of_eq {w : Fin n} {p : Worker J}
    (h : p.owesByte = (s.workers w).owesByte) : (s.setWorker w p).owed = s.owed := by
  have hmove := s.owed_setWorker w p
  omega

theorem inHands_setWorker_of_eq {proc : Fin n → J → J} {w : Fin n} {p : Worker J}
    (h : p.inHand proc w = (s.workers w).inHand proc w) :
    (s.setWorker w p).inHands proc = s.inHands proc := by
  have hmove := s.inHands_setWorker proc w p
  rw [h] at hmove
  exact add_right_cancel hmove

end Moves

section Places

variable {s : WorkerPool J n m k P}

@[simp] theorem workers_setWorker_self (w : Fin n) (pc : Worker J) :
    (s.setWorker w pc).workers w = pc := Function.update_self ..

theorem callers_setCaller_of_ne {i j : Fin m} (h : j ≠ i) (pc : Caller J) :
    (s.setCaller i pc).callers j = s.callers j := Function.update_of_ne h ..

@[simp] theorem callers_setCaller_self (i : Fin m) (pc : Caller J) :
    (s.setCaller i pc).callers i = pc := Function.update_self ..

theorem Awake.setCaller (h : s.Awake) {i : Fin m} {pc : Caller J}
    (hpc : s.callers i ≠ .unlock ∧ s.callers i ≠ .signal) : (s.setCaller i pc).Awake := by
  refine h.imp_left fun ⟨j, hj⟩ => ⟨j, ?_⟩
  have hne : j ≠ i := by
    rintro rfl
    exact hj.elim hpc.1 hpc.2
  rw [callers_setCaller_of_ne hne]
  exact hj

theorem awake_setWorker {w : Fin n} {pc : Worker J} (hpc : pc.isWaiting = false) :
    (s.setWorker w pc).Awake := by
  refine .inr ⟨w, ?_⟩
  rw [workers_setWorker_self]
  exact hpc

theorem awake_setCaller {i : Fin m} {pc : Caller J} (hpc : pc = .unlock ∨ pc = .signal) :
    (s.setCaller i pc).Awake := by
  refine .inl ⟨i, ?_⟩
  rw [callers_setCaller_self]
  exact hpc

end Places

variable {P : Pipe} {proc : Fin n → J → J} {s t : WorkerPool J n m k P}

namespace Inv

theorem jobsHeld_le (h : s.Inv proc) : s.jobsHeld ≤ 1 := h.jobsHeld ▸ Bool.toNat_le _

theorem resultsHeld_le (h : s.Inv proc) : s.resultsHeld ≤ 1 := h.resultsHeld ▸ Bool.toNat_le _

theorem jobs_free (h : s.Inv proc) (hfree : ¬ s.jobsLocked) : s.jobsHeld = 0 := by
  rw [h.jobsHeld, Bool.eq_false_of_not_eq_true hfree]
  rfl

theorem results_free (h : s.Inv proc) (hfree : ¬ s.resultsLocked) : s.resultsHeld = 0 := by
  rw [h.resultsHeld, Bool.eq_false_of_not_eq_true hfree]
  rfl

theorem caller (h : s.Inv proc) {i : Fin m} (hstep : s.callerStep i = some t) : t.Inv proc := by
  have hle := h.jobsHeld_le
  have hheld := s.jobsHeld_setCaller i
  unfold callerStep at hstep
  cases hpc : s.callers i with
  | idle => simp [hpc] at hstep
  | signal => simp [hpc] at hstep
  | lock job =>
      simp only [hpc] at hstep hheld
      split at hstep
      · cases hstep
      · next hfree =>
          cases hstep
          exact { h with
            jobsHeld := by
              have hnone := h.jobs_free hfree
              have hone := hheld (.pushing job)
              rw [hnone] at hone
              exact hone
            awake := fun hn hne => (h.awake hn hne).setCaller (by simp [hpc]) }
  | pushing job =>
      simp only [hpc] at hstep hheld
      cases hstep
      exact { h with
        jobsHeld := Nat.add_right_cancel ((hheld .unlock).trans (congrArg (· + 1) h.jobsHeld))
        pushed := by
          show s.pushed ++ [job] = s.taken.map Prod.snd ++ (s.jobs ++ [job])
          rw [h.pushed, List.append_assoc]
        awake := fun _ _ => awake_setCaller (.inl rfl) }
  | unlock =>
      simp only [hpc] at hstep hheld
      cases hstep
      exact { h with
        jobsHeld := by
          have hone := hheld .signal
          have hnone : (s.setCaller i .signal).jobsHeld = 0 := by
            simp only [Caller.holdsJobs] at hone
            omega
          exact hnone
        awake := fun _ _ => awake_setCaller (.inr rfl) }

theorem push (h : s.Inv proc) {i : Fin m} {job : J} (hpc : s.callers i = .idle) :
    (s.setCaller i (.lock job)).Inv proc := by
  have hheld := s.jobsHeld_setCaller i (.lock job)
  rw [hpc] at hheld
  exact { h with
    jobsHeld := (Nat.add_right_cancel hheld).trans h.jobsHeld
    awake := fun hn hne => (h.awake hn hne).setCaller (by simp [hpc]) }

/-- A worker goes on without changing what it has. -/
theorem setWorker (h : s.Inv proc) {w : Fin n} {pc : Worker J}
    (hjobs : pc.holdsJobs = (s.workers w).holdsJobs)
    (hresults : pc.holdsResults = (s.workers w).holdsResults)
    (howed : pc.owesByte = (s.workers w).owesByte)
    (hhand : pc.inHand proc w = (s.workers w).inHand proc w) (hpc : pc.isWaiting = false) :
    (s.setWorker w pc).Inv proc :=
  { h with
    jobsHeld := (jobsHeld_setWorker_of_eq hjobs).trans h.jobsHeld
    resultsHeld := (resultsHeld_setWorker_of_eq hresults).trans h.resultsHeld
    bytes := h.bytes.trans
      (congrArg (P.bytes s.pipe + s.bytesRead + ·) (owed_setWorker_of_eq howed).symm)
    taken := h.taken.trans (congrArg (_ + ·) (inHands_setWorker_of_eq hhand).symm)
    awake := fun _ _ => awake_setWorker hpc }

/-- A worker that waits wakes up. -/
theorem wake (h : s.Inv proc) {w : Fin n} (hpc : s.workers w = .waiting) :
    (s.setWorker w .woken).Inv proc :=
  h.setWorker (by rw [hpc]; rfl) (by rw [hpc]; rfl) (by rw [hpc]; rfl) (by rw [hpc]; rfl) rfl

theorem signal (h : s.Inv proc) {i : Fin m} {w : Option (Fin n)}
    (hstep : s.signalStep i w = some t) : t.Inv proc := by
  have hheld : ∀ s : WorkerPool J n m k P, s.callers i = .signal →
      (s.setCaller i .idle).jobsHeld = s.jobsHeld := by
    intro s hpc
    have hheld := s.jobsHeld_setCaller i .idle
    rw [hpc] at hheld
    exact Nat.add_right_cancel hheld
  unfold signalStep at hstep
  split at hstep
  · next hpc =>
      split at hstep
      · next hall =>
          cases hstep
          exact { h with
            jobsHeld := (hheld s hpc).trans h.jobsHeld
            awake := fun hn _ => .inr ⟨⟨0, hn⟩, hall _⟩ }
      · cases hstep
  · next w hpc =>
      split at hstep
      · next hw =>
          cases hstep
          have h' := h.wake hw
          exact { h' with
            jobsHeld := (hheld (s.setWorker w .woken) hpc).trans h'.jobsHeld
            awake := fun _ _ => .inr ⟨w, congrArg Worker.isWaiting (workers_setWorker_self w _)⟩ }
      · cases hstep
  · cases hstep

/-- A worker takes the lock of the jobs. -/
theorem lockJobs (h : s.Inv proc) {w : Fin n} (hfree : ¬ s.jobsLocked)
    (hpc : s.workers w = .popLock ∨ s.workers w = .woken) :
    ({ s.setWorker w .popCheck with jobsLocked := true } : WorkerPool J n m k P).Inv proc := by
  have hjobs := s.jobsHeld_setWorker w .popCheck
  rw [h.jobs_free hfree] at hjobs
  have hsame : (s.workers w).holdsJobs = 0 ∧ (s.workers w).holdsResults = 0 ∧
      (s.workers w).owesByte = 0 ∧ (s.workers w).inHand proc w = 0 := by
    rcases hpc with hpc | hpc <;> rw [hpc] <;> exact ⟨rfl, rfl, rfl, rfl⟩
  obtain ⟨hj, hr, ho, hh⟩ := hsame
  rw [hj] at hjobs
  exact { h with
    jobsHeld := hjobs
    resultsHeld := (resultsHeld_setWorker_of_eq (p := .popCheck) hr.symm).trans h.resultsHeld
    bytes := h.bytes.trans (congrArg (P.bytes s.pipe + s.bytesRead + ·)
      (owed_setWorker_of_eq (p := .popCheck) ho.symm).symm)
    taken := h.taken.trans (congrArg (_ + ·)
      (inHands_setWorker_of_eq (p := .popCheck) hh.symm).symm)
    awake := fun _ _ => awake_setWorker (s := s) rfl }

/-- A worker gives the lock of the jobs back. -/
theorem unlockJobs (h : s.Inv proc) {w : Fin n} {pc : Worker J}
    (hpc : (s.workers w).holdsJobs = 1) (hpc' : pc.holdsJobs = 0)
    (hresults : pc.holdsResults = (s.workers w).holdsResults)
    (howed : pc.owesByte = (s.workers w).owesByte)
    (hhand : pc.inHand proc w = (s.workers w).inHand proc w)
    (hawake : pc.isWaiting = false ∨ s.jobs = []) :
    ({ s.setWorker w pc with jobsLocked := false } : WorkerPool J n m k P).Inv proc := by
  have hle := h.jobsHeld_le
  have hjobs := s.jobsHeld_setWorker w pc
  rw [hpc, hpc'] at hjobs
  exact { h with
    jobsHeld := by
      have hnone : (s.setWorker w pc).jobsHeld = 0 := by omega
      exact hnone
    resultsHeld := (resultsHeld_setWorker_of_eq hresults).trans h.resultsHeld
    bytes := h.bytes.trans
      (congrArg (P.bytes s.pipe + s.bytesRead + ·) (owed_setWorker_of_eq howed).symm)
    taken := h.taken.trans (congrArg (_ + ·) (inHands_setWorker_of_eq hhand).symm)
    awake := fun _ hne => awake_setWorker (s := s) (hawake.resolve_right hne) }

/-- A worker takes the first job out. -/
theorem takeJob (h : s.Inv proc) {w : Fin n} {job : J} {jobs : List J}
    (hpc : s.workers w = .popCheck) (hjobs : s.jobs = job :: jobs) :
    ({ s.setWorker w (.popUnlock job) with
      jobs := jobs, taken := s.taken ++ [(w, job)] } : WorkerPool J n m k P).Inv proc := by
  have hhands := s.inHands_setWorker proc w (.popUnlock job)
  have hnil : (s.workers w).inHand proc w = 0 := by rw [hpc]; rfl
  rw [hnil, add_zero] at hhands
  exact { h with
    jobsHeld := (jobsHeld_setWorker_of_eq (s := s) (p := .popUnlock job)
      (by rw [hpc]; rfl)).trans h.jobsHeld
    resultsHeld := (resultsHeld_setWorker_of_eq (s := s) (p := .popUnlock job)
      (by rw [hpc]; rfl)).trans h.resultsHeld
    bytes := h.bytes.trans (congrArg (P.bytes s.pipe + s.bytesRead + ·)
      (owed_setWorker_of_eq (s := s) (p := .popUnlock job) (by rw [hpc]; rfl)).symm)
    pushed := by
      show s.pushed = (s.taken ++ [(w, job)]).map Prod.snd ++ jobs
      rw [h.pushed, hjobs, List.map_append, List.append_assoc]
      rfl
    taken := by
      show ((s.taken ++ [(w, job)]).map fun t => proc t.1 t.2 : Multiset J) =
        s.finished + (s.setWorker w (.popUnlock job)).inHands proc
      rw [hhands, List.map_append, ← Multiset.coe_add, h.taken, add_assoc]
      rfl
    awake := fun _ _ => awake_setWorker (s := s) rfl }

/-- A worker takes the lock of the results. -/
theorem lockResults (h : s.Inv proc) {w : Fin n} {job : J} (hfree : ¬ s.resultsLocked)
    (hpc : s.workers w = .pushLock job) :
    ({ s.setWorker w (.pushing job) with resultsLocked := true } : WorkerPool J n m k P).Inv
      proc := by
  have hresults := s.resultsHeld_setWorker w (.pushing job)
  rw [h.results_free hfree, hpc] at hresults
  exact { h with
    jobsHeld := (jobsHeld_setWorker_of_eq (s := s) (p := .pushing job)
      (by rw [hpc]; rfl)).trans h.jobsHeld
    resultsHeld := hresults
    bytes := h.bytes.trans (congrArg (P.bytes s.pipe + s.bytesRead + ·)
      (owed_setWorker_of_eq (s := s) (p := .pushing job) (by rw [hpc]; rfl)).symm)
    taken := h.taken.trans (congrArg (_ + ·)
      (inHands_setWorker_of_eq (s := s) (p := .pushing job) (by rw [hpc]; rfl)).symm)
    awake := fun _ _ => awake_setWorker (s := s) rfl }

/-- A worker puts its result behind the others, and owes the pipe a byte. -/
theorem finish (h : s.Inv proc) {w : Fin n} {job : J} (hpc : s.workers w = .pushing job) :
    ({ s.setWorker w .write with
      results := s.results ++ [job], finished := s.finished ++ [job] } :
        WorkerPool J n m k P).Inv proc := by
  have howed := s.owed_setWorker w .write
  have hhands := s.inHands_setWorker proc w .write
  rw [hpc] at howed hhands
  exact { h with
    jobsHeld := (jobsHeld_setWorker_of_eq (s := s) (p := .write)
      (by rw [hpc]; rfl)).trans h.jobsHeld
    resultsHeld := (resultsHeld_setWorker_of_eq (s := s) (p := .write)
      (by rw [hpc]; rfl)).trans h.resultsHeld
    bytes := by
      have hbytes := h.bytes
      have howed' : (s.setWorker w .write).owed = s.owed + 1 := howed
      show (s.results ++ [job]).length =
        P.bytes s.pipe + s.bytesRead + (s.setWorker w .write).owed
      rw [List.length_append, List.length_singleton, howed', hbytes, add_assoc]
    taken := by
      have hhands' : (s.setWorker w .write).inHands proc + {job} = s.inHands proc :=
        hhands.trans (add_zero _)
      show (s.taken.map fun t => proc t.1 t.2 : Multiset J) =
        ↑(s.finished ++ [job]) + (s.setWorker w .write).inHands proc
      rw [h.taken, ← hhands', ← Multiset.coe_add, add_assoc,
        add_comm ((s.setWorker w .write).inHands proc)]
      rfl
    finished := by
      show s.finished ++ [job] = s.delivered ++ (s.results ++ [job])
      rw [h.finished, List.append_assoc]
    awake := fun _ _ => awake_setWorker (s := s) rfl }

/-- A worker writes the byte it owes. -/
theorem writeByte (h : s.Inv proc) {w : Fin n} (hpc : s.workers w = .write) :
    ({ s.setWorker w .pushUnlock with pipe := P.write s.pipe } : WorkerPool J n m k P).Inv
      proc := by
  have howed := s.owed_setWorker w .pushUnlock
  rw [hpc] at howed
  exact { h with
    jobsHeld := (jobsHeld_setWorker_of_eq (s := s) (p := .pushUnlock)
      (by rw [hpc]; rfl)).trans h.jobsHeld
    resultsHeld := (resultsHeld_setWorker_of_eq (s := s) (p := .pushUnlock)
      (by rw [hpc]; rfl)).trans h.resultsHeld
    bytes := by
      have hbytes := h.bytes
      have howed' : (s.setWorker w .pushUnlock).owed + 1 = s.owed := howed
      show s.results.length =
        P.bytes (P.write s.pipe) + s.bytesRead + (s.setWorker w .pushUnlock).owed
      rw [P.bytes_write]
      omega
    taken := h.taken.trans (congrArg (_ + ·)
      (inHands_setWorker_of_eq (s := s) (p := .pushUnlock) (by rw [hpc]; rfl)).symm)
    awake := fun _ _ => awake_setWorker (s := s) rfl }

/-- A worker gives the lock of the results back. -/
theorem unlockResults (h : s.Inv proc) {w : Fin n} (hpc : s.workers w = .pushUnlock) :
    ({ s.setWorker w .popLock with resultsLocked := false } : WorkerPool J n m k P).Inv
      proc := by
  have hle := h.resultsHeld_le
  have hresults := s.resultsHeld_setWorker w .popLock
  rw [hpc] at hresults
  exact { h with
    jobsHeld := (jobsHeld_setWorker_of_eq (s := s) (p := .popLock)
      (by rw [hpc]; rfl)).trans h.jobsHeld
    resultsHeld := by
      have hone : (s.setWorker w .popLock).resultsHeld + 1 = s.resultsHeld := hresults
      have hnone : (s.setWorker w .popLock).resultsHeld = 0 := by omega
      exact hnone
    bytes := h.bytes.trans (congrArg (P.bytes s.pipe + s.bytesRead + ·)
      (owed_setWorker_of_eq (s := s) (p := .popLock) (by rw [hpc]; rfl)).symm)
    taken := h.taken.trans (congrArg (_ + ·)
      (inHands_setWorker_of_eq (s := s) (p := .popLock) (by rw [hpc]; rfl)).symm)
    awake := fun _ _ => awake_setWorker (s := s) rfl }

theorem worker (h : s.Inv proc) {w : Fin n} (hstep : s.workerStep proc w = some t) :
    t.Inv proc := by
  unfold workerStep at hstep
  cases hpc : s.workers w with
  | popLock =>
      simp only [hpc] at hstep
      split at hstep
      · cases hstep
      · next hfree =>
          cases hstep
          exact h.lockJobs hfree (.inl hpc)
  | woken =>
      simp only [hpc] at hstep
      split at hstep
      · cases hstep
      · next hfree =>
          cases hstep
          exact h.lockJobs hfree (.inr hpc)
  | waiting => simp [hpc] at hstep
  | popCheck =>
      simp only [hpc] at hstep
      split at hstep
      · next hempty =>
          cases hstep
          exact h.unlockJobs (by rw [hpc]; rfl) rfl (by rw [hpc]; rfl) (by rw [hpc]; rfl)
            (by rw [hpc]; rfl) (.inr hempty)
      · next job jobs hjobs =>
          cases hstep
          exact h.takeJob hpc hjobs
  | popUnlock job =>
      simp only [hpc] at hstep
      cases hstep
      exact h.unlockJobs (by rw [hpc]; rfl) rfl (by rw [hpc]; rfl) (by rw [hpc]; rfl)
        (by rw [hpc]; rfl) (.inl rfl)
  | proc job =>
      simp only [hpc] at hstep
      cases hstep
      exact h.setWorker (by rw [hpc]; rfl) (by rw [hpc]; rfl) (by rw [hpc]; rfl)
        (by rw [hpc]; rfl) rfl
  | pushLock job =>
      simp only [hpc] at hstep
      split at hstep
      · cases hstep
      · next hfree =>
          cases hstep
          exact h.lockResults hfree hpc
  | pushing job =>
      simp only [hpc] at hstep
      cases hstep
      exact h.finish hpc
  | write =>
      simp only [hpc] at hstep
      split at hstep
      · cases hstep
        exact h.writeByte hpc
      · cases hstep
  | pushUnlock =>
      simp only [hpc] at hstep
      cases hstep
      exact h.unlockResults hpc

theorem pop (h : s.Inv proc) {r : Fin k} (hpc : s.readers r = .idle) :
    (s.setReader r .reading).Inv proc := by
  have hresults := s.resultsHeld_setReader r .reading
  have hread := s.bytesRead_setReader r .reading
  rw [hpc] at hresults hread
  exact { h with
    resultsHeld := (Nat.add_right_cancel hresults).trans h.resultsHeld
    bytes := h.bytes.trans
      (congrArg (P.bytes s.pipe + · + s.owed) (Nat.add_right_cancel hread).symm) }

/-- A reader that has a byte finds an item. -/
theorem results_ne_nil (h : s.Inv proc) {r : Fin k} (hpc : (s.readers r).hasByte = 1) :
    s.results ≠ [] := by
  intro hnil
  have hbytes := h.bytes
  have hle : (s.readers r).hasByte ≤ s.bytesRead := le_total (fun _ => Reader.hasByte) s.readers r
  rw [hnil, List.length_nil] at hbytes
  omega

theorem reader (h : s.Inv proc) {r : Fin k} (hstep : s.readerStep r = some t) :
    t.Inv proc := by
  have hresults := s.resultsHeld_setReader r
  have hread := s.bytesRead_setReader r
  have hbytes := h.bytes
  unfold readerStep at hstep
  cases hpc : s.readers r with
  | idle => simp [hpc] at hstep
  | reading =>
      simp only [hpc] at hstep
      rw [hpc] at hresults hread
      split at hstep
      · next hpipe =>
          cases hstep
          exact { h with
            resultsHeld := (Nat.add_right_cancel (hresults .lock)).trans h.resultsHeld
            bytes := by
              have hone : (s.setReader r .lock).bytesRead = s.bytesRead + 1 := hread .lock
              have hless := P.bytes_read s.pipe hpipe
              show s.results.length =
                P.bytes (P.read s.pipe) + (s.setReader r .lock).bytesRead + s.owed
              omega }
      · cases hstep
  | lock =>
      simp only [hpc] at hstep
      rw [hpc] at hresults hread
      split at hstep
      · cases hstep
      · next hfree =>
          cases hstep
          have hone := hresults .locked
          rw [h.results_free hfree] at hone
          exact { h with
            resultsHeld := hone
            bytes := hbytes.trans (congrArg (P.bytes s.pipe + · + s.owed)
              (Nat.add_right_cancel (hread .locked)).symm) }
  | locked =>
      have hne := h.results_ne_nil (r := r) (by rw [hpc]; rfl)
      simp only [hpc] at hstep
      rw [hpc] at hresults hread
      split at hstep
      · next hnil => exact absurd hnil hne
      · next job results hjob =>
          cases hstep
          exact { h with
            resultsHeld := (Nat.add_right_cancel (hresults .unlock)).trans h.resultsHeld
            finished := by
              show s.finished = s.delivered ++ [job] ++ results
              rw [h.finished, hjob, List.append_assoc]
              rfl
            bytes := by
              have hone : (s.setReader r .unlock).bytesRead + 1 = s.bytesRead := hread .unlock
              show results.length = P.bytes s.pipe + (s.setReader r .unlock).bytesRead + s.owed
              rw [hjob, List.length_cons] at hbytes
              omega }
  | unlock =>
      have hle := h.resultsHeld_le
      simp only [hpc] at hstep
      rw [hpc] at hresults hread
      cases hstep
      exact { h with
        resultsHeld := by
          have hone : (s.setReader r .idle).resultsHeld + 1 = s.resultsHeld := hresults .idle
          have hnone : (s.setReader r .idle).resultsHeld = 0 := by omega
          exact hnone
        bytes := hbytes.trans (congrArg (P.bytes s.pipe + · + s.owed)
          (Nat.add_right_cancel (hread .idle)).symm) }

theorem start : (WorkerPool.start : WorkerPool J n m k P).Inv proc where
  jobsHeld := congrArg₂ (· + ·) (total_eq_zero fun _ => rfl) (total_eq_zero fun _ => rfl)
  resultsHeld := congrArg₂ (· + ·) (total_eq_zero fun _ => rfl) (total_eq_zero fun _ => rfl)
  pushed := rfl
  taken := by
    have hnone : (WorkerPool.start : WorkerPool J n m k P).inHands proc = 0 :=
      total_eq_zero fun _ => rfl
    rw [hnone]
    rfl
  finished := rfl
  bytes := by
    have hread : (WorkerPool.start : WorkerPool J n m k P).bytesRead = 0 :=
      total_eq_zero fun _ => rfl
    have howed : (WorkerPool.start : WorkerPool J n m k P).owed = 0 := total_eq_zero fun _ => rfl
    rw [hread, howed]
    exact P.bytes_empty.symm
  calm := rfl
  awake _ hne := absurd rfl hne

theorem step (h : s.Inv proc) {e : PoolEvent J n m k} (hstep : s.step proc e = some t) :
    t.Inv proc := by
  cases e with
  | push i job =>
      simp only [WorkerPool.step] at hstep
      split at hstep
      · next hpc =>
          cases hstep
          exact h.push hpc
      · cases hstep
  | caller i => exact h.caller hstep
  | signal i w => exact h.signal hstep
  | worker w => exact h.worker hstep
  | wake w =>
      simp only [WorkerPool.step] at hstep
      split at hstep
      · next hpc =>
          cases hstep
          exact h.wake hpc
      · cases hstep
  | pop r =>
      simp only [WorkerPool.step] at hstep
      split at hstep
      · next hpc =>
          cases hstep
          exact h.pop hpc
      · cases hstep
  | reader r => exact h.reader hstep

end Inv

end WorkerPool

section Runs

variable {n m k : Nat} {P : Pipe} {proc : Fin n → J → J} {es : List (PoolEvent J n m k)}
  {s : WorkerPool J n m k P}

theorem pool_inv (hrun : (workerPool J m k P proc).exec .start es = some s) : s.Inv proc :=
  Machine.Reachable.invariant (I := fun s => s.Inv proc)
    (fun _ _ _ h hstep => h.step hstep) ⟨es, hrun⟩ WorkerPool.Inv.start

/-- In every run, whatever the order of the steps: the jobs are taken out in the order they were put
in, each once; what was taken out is finished or in the hands of one worker, and the results are
delivered in the order they were finished in; `pop` never finds its queue empty; and no two
threads hold one lock. -/
theorem pool_safe (hrun : (workerPool J m k P proc).exec .start es = some s) :
    s.pushed = s.taken.map Prod.snd ++ s.jobs ∧
      (s.taken.map fun t => proc t.1 t.2 : Multiset J) = s.finished + s.inHands proc ∧
      s.finished = s.delivered ++ s.results ∧
      s.error = false ∧ s.jobsHeld ≤ 1 ∧ s.resultsHeld ≤ 1 := by
  have h := pool_inv hrun
  exact ⟨h.pushed, h.taken, h.finished, h.calm, h.jobsHeld_le, h.resultsHeld_le⟩

/-- A `proc` that adds the number of the worker. -/
def addId {n : Nat} (w : Fin n) (job : Nat) : Nat := job + (w + 1)

/-- Two workers, of which the second waits for the job and takes it. -/
def secondTakes : List (PoolEvent Nat 2 1 1) :=
  [.worker 1, .worker 1, .push 0 7, .caller 0, .caller 0, .caller 0, .signal 0 (some 1), .worker 1,
    .worker 1]

theorem pool_safe_two : ∃ s,
    (workerPool Nat 1 1 (.ofCapacity 4) addId).exec .start secondTakes = some s ∧
      s.taken = [(1, 7)] ∧
      (s.taken.map fun t => addId t.1 t.2 : Multiset Nat) = s.finished + s.inHands addId ∧
      s.finished = s.delivered ++ s.results := by
  obtain ⟨s, hrun⟩ : ∃ s,
      (workerPool Nat 1 1 (.ofCapacity 4) addId).exec .start secondTakes = some s := ⟨_, rfl⟩
  obtain ⟨-, htaken, hfinished, -⟩ := pool_safe hrun
  cases hrun
  exact ⟨_, rfl, rfl, htaken, hfinished⟩

end Runs

/-! ## How far it goes -/

/-- The steps of the threads themselves: no new job, and no needless wake-up. -/
def PoolEvent.Internal {n m k : Nat} : PoolEvent J n m k → Prop
  | .push _ _ => False
  | .wake _ => False
  | _ => True

def Caller.rank : Caller J → Nat
  | .idle => 0
  | .lock _ => 19
  | .pushing _ => 18
  | .unlock => 4
  | .signal => 3

def Worker.rank : Worker J → Nat
  | .popLock => 2
  | .popCheck => 1
  | .waiting => 0
  | .woken => 2
  | .popUnlock _ => 13
  | .proc _ => 12
  | .pushLock _ => 11
  | .pushing _ => 10
  | .write => 9
  | .pushUnlock => 3

def Reader.rank : Reader → Nat
  | .idle => 1
  | .reading => 0
  | .lock => 4
  | .locked => 3
  | .unlock => 2

namespace WorkerPool

variable {n m k : Nat} {P : Pipe} {proc : Fin n → J → J} {s t : WorkerPool J n m k P}

/-- How many steps the threads have in front of them, where they are. -/
def threadRank (s : WorkerPool J n m k P) : Nat :=
  total (fun _ => Caller.rank) s.callers + total (fun _ => Worker.rank) s.workers +
    total (fun _ => Reader.rank) s.readers

/-- And what the jobs and the bytes still ask for. -/
def rank (s : WorkerPool J n m k P) : Nat := s.threadRank + 13 * s.jobs.length + 5 * P.bytes s.pipe

theorem threadRank_setCaller (s : WorkerPool J n m k P) (i : Fin m) (pc : Caller J) :
    (s.setCaller i pc).threadRank + (s.callers i).rank = s.threadRank + pc.rank := by
  have hmove := total_move (fun _ => Caller.rank) s.callers i pc
  simp only [threadRank, setCaller]
  omega

theorem threadRank_setWorker (s : WorkerPool J n m k P) (w : Fin n) (pc : Worker J) :
    (s.setWorker w pc).threadRank + (s.workers w).rank = s.threadRank + pc.rank := by
  have hmove := total_move (fun _ => Worker.rank) s.workers w pc
  simp only [threadRank, setWorker]
  omega

theorem threadRank_setReader (s : WorkerPool J n m k P) (r : Fin k) (pc : Reader) :
    (s.setReader r pc).threadRank + (s.readers r).rank = s.threadRank + pc.rank := by
  have hmove := total_move (fun _ => Reader.rank) s.readers r pc
  simp only [threadRank, setReader]
  omega

/-- A caller moves, and what is left to do goes down. -/
theorem rank_lt_of_setCaller {i : Fin m} {p : Caller J}
    (ht : t.threadRank = (s.setCaller i p).threadRank)
    (hlt : p.rank + 13 * t.jobs.length + 5 * P.bytes t.pipe <
      (s.callers i).rank + 13 * s.jobs.length + 5 * P.bytes s.pipe) : t.rank < s.rank := by
  have hmove := s.threadRank_setCaller i p
  rw [rank, rank, ht]
  omega

theorem rank_lt_of_setWorker {w : Fin n} {p : Worker J}
    (ht : t.threadRank = (s.setWorker w p).threadRank)
    (hlt : p.rank + 13 * t.jobs.length + 5 * P.bytes t.pipe <
      (s.workers w).rank + 13 * s.jobs.length + 5 * P.bytes s.pipe) : t.rank < s.rank := by
  have hmove := s.threadRank_setWorker w p
  rw [rank, rank, ht]
  omega

theorem rank_lt_of_setReader {r : Fin k} {p : Reader}
    (ht : t.threadRank = (s.setReader r p).threadRank)
    (hlt : p.rank + 13 * t.jobs.length + 5 * P.bytes t.pipe <
      (s.readers r).rank + 13 * s.jobs.length + 5 * P.bytes s.pipe) : t.rank < s.rank := by
  have hmove := s.threadRank_setReader r p
  rw [rank, rank, ht]
  omega

theorem rank_callerStep {i : Fin m} (hstep : s.callerStep i = some t) : t.rank < s.rank := by
  unfold callerStep at hstep
  cases hpc : s.callers i with
  | idle => simp [hpc] at hstep
  | signal => simp [hpc] at hstep
  | lock job =>
      simp only [hpc] at hstep
      split at hstep
      · cases hstep
      · cases hstep
        exact rank_lt_of_setCaller (s := s) (i := i) rfl (by simp [hpc, setCaller, Caller.rank])
  | pushing job =>
      simp only [hpc] at hstep
      cases hstep
      refine rank_lt_of_setCaller (s := s) (i := i) rfl ?_
      simp only [hpc, setCaller, Caller.rank, List.length_append, List.length_singleton]
      omega
  | unlock =>
      simp only [hpc] at hstep
      cases hstep
      exact rank_lt_of_setCaller (s := s) (i := i) rfl (by simp [hpc, setCaller, Caller.rank])

theorem rank_signalStep {i : Fin m} {w : Option (Fin n)} (hstep : s.signalStep i w = some t) :
    t.rank < s.rank := by
  unfold signalStep at hstep
  split at hstep
  · next hpc =>
      split at hstep
      · cases hstep
        exact rank_lt_of_setCaller (s := s) (i := i) rfl (by simp [hpc, setCaller, Caller.rank])
      · cases hstep
  · next w hpc =>
      split at hstep
      · next hw =>
          -- the worker goes up by two, and the caller down by three
          cases hstep
          have hcaller := (s.setWorker w .woken).threadRank_setCaller i .idle
          have hworker := s.threadRank_setWorker w .woken
          have hpc' : (s.setWorker w .woken).callers i = .signal := hpc
          simp only [hw, hpc', Caller.rank, Worker.rank] at hcaller hworker
          show ((s.setWorker w .woken).setCaller i .idle).threadRank + 13 * s.jobs.length +
            5 * P.bytes s.pipe < _
          rw [rank]
          omega
      · cases hstep
  · cases hstep

theorem rank_workerStep {w : Fin n} (hstep : s.workerStep proc w = some t) :
    t.rank < s.rank := by
  unfold workerStep at hstep
  cases hpc : s.workers w with
  | popLock =>
      simp only [hpc] at hstep
      split at hstep
      · cases hstep
      · cases hstep
        exact rank_lt_of_setWorker (s := s) (w := w) rfl (by simp [hpc, setWorker, Worker.rank])
  | woken =>
      simp only [hpc] at hstep
      split at hstep
      · cases hstep
      · cases hstep
        exact rank_lt_of_setWorker (s := s) (w := w) rfl (by simp [hpc, setWorker, Worker.rank])
  | waiting => simp [hpc] at hstep
  | popCheck =>
      simp only [hpc] at hstep
      split at hstep
      · cases hstep
        exact rank_lt_of_setWorker (s := s) (w := w) rfl (by simp [hpc, setWorker, Worker.rank])
      · next job jobs hjobs =>
          cases hstep
          refine rank_lt_of_setWorker (s := s) (w := w) (p := .popUnlock job) rfl ?_
          simp only [hpc, setWorker, Worker.rank, hjobs, List.length_cons]
          omega
  | popUnlock job =>
      simp only [hpc] at hstep
      cases hstep
      exact rank_lt_of_setWorker (s := s) (w := w) rfl (by simp [hpc, setWorker, Worker.rank])
  | proc job =>
      simp only [hpc] at hstep
      cases hstep
      exact rank_lt_of_setWorker (s := s) (w := w) rfl (by simp [hpc, setWorker, Worker.rank])
  | pushLock job =>
      simp only [hpc] at hstep
      split at hstep
      · cases hstep
      · cases hstep
        exact rank_lt_of_setWorker (s := s) (w := w) rfl (by simp [hpc, setWorker, Worker.rank])
  | pushing job =>
      simp only [hpc] at hstep
      cases hstep
      exact rank_lt_of_setWorker (s := s) (w := w) rfl (by simp [hpc, setWorker, Worker.rank])
  | write =>
      simp only [hpc] at hstep
      split at hstep
      · cases hstep
        refine rank_lt_of_setWorker (s := s) (w := w) (p := .pushUnlock) rfl ?_
        simp only [hpc, setWorker, Worker.rank, P.bytes_write]
        omega
      · cases hstep
  | pushUnlock =>
      simp only [hpc] at hstep
      cases hstep
      exact rank_lt_of_setWorker (s := s) (w := w) rfl (by simp [hpc, setWorker, Worker.rank])

theorem rank_readerStep {r : Fin k} (hstep : s.readerStep r = some t) : t.rank < s.rank := by
  unfold readerStep at hstep
  cases hpc : s.readers r with
  | idle => simp [hpc] at hstep
  | reading =>
      simp only [hpc] at hstep
      split at hstep
      · next hpipe =>
          cases hstep
          have hread := P.bytes_read s.pipe hpipe
          refine rank_lt_of_setReader (s := s) (r := r) (p := .lock) rfl ?_
          simp only [hpc, setReader, Reader.rank]
          omega
      · cases hstep
  | lock =>
      simp only [hpc] at hstep
      split at hstep
      · cases hstep
      · cases hstep
        exact rank_lt_of_setReader (s := s) (r := r) rfl (by simp [hpc, setReader, Reader.rank])
  | locked =>
      simp only [hpc] at hstep
      split at hstep
      · cases hstep
        exact rank_lt_of_setReader (s := s) (r := r) rfl (by simp [hpc, setReader, Reader.rank])
      · cases hstep
        exact rank_lt_of_setReader (s := s) (r := r) rfl (by simp [hpc, setReader, Reader.rank])
  | unlock =>
      simp only [hpc] at hstep
      cases hstep
      exact rank_lt_of_setReader (s := s) (r := r) rfl (by simp [hpc, setReader, Reader.rank])

/-- A step of the threads takes something off the rank. -/
theorem rank_step {e : PoolEvent J n m k} (he : e.Internal) (hstep : s.step proc e = some t) :
    t.rank < s.rank := by
  cases e with
  | push i job => exact he.elim
  | wake w => exact he.elim
  | caller i => exact rank_callerStep hstep
  | signal i w => exact rank_signalStep hstep
  | worker w => exact rank_workerStep hstep
  | reader r => exact rank_readerStep hstep
  | pop r =>
      simp only [WorkerPool.step] at hstep
      split at hstep
      · next hpc =>
          cases hstep
          exact rank_lt_of_setReader (s := s) (r := r) rfl (by simp [hpc, setReader, Reader.rank])
      · cases hstep

/-! ## Where it stops -/

/-- No thread can take a step. -/
def Stuck (proc : Fin n → J → J) (s : WorkerPool J n m k P) : Prop :=
  ∀ e : PoolEvent J n m k, e.Internal → s.step proc e = none

/-- Everything is done, and the workers and readers wait for more. -/
structure Drained (s : WorkerPool J n m k P) : Prop where
  callers : ∀ i, s.callers i = .idle
  workers : ∀ w, s.workers w = .waiting
  jobs : s.jobs = []
  results : s.results = []

/-- A worker that holds the lock waits for room in the pipe, and the readers, with a byte each,
wait for the lock. -/
structure Deadlocked (s : WorkerPool J n m k P) : Prop where
  pipe : P.takes s.pipe = false
  writer : ∃ w, s.workers w = .write
  readers : ∀ r, s.readers r = .lock

section Stuck

variable (hs : s.Stuck proc)

include hs

theorem Stuck.caller (i : Fin m) :
    s.callers i = .idle ∨ (∃ job, s.callers i = .lock job) ∧ s.jobsLocked = true := by
  have hcaller := hs (.caller i) trivial
  simp only [WorkerPool.step, callerStep] at hcaller
  cases hpc : s.callers i with
  | idle => exact .inl rfl
  | lock job =>
      simp only [hpc] at hcaller
      split at hcaller
      · next hlocked => exact .inr ⟨⟨job, rfl⟩, hlocked⟩
      · cases hcaller
  | pushing job => simp [hpc] at hcaller
  | unlock => simp [hpc] at hcaller
  | signal =>
      -- there is a worker to wake, or there is none
      by_cases hall : ∀ w, (s.workers w).isWaiting = false
      · have hsignal := hs (.signal i none) trivial
        simp [WorkerPool.step, signalStep, hpc, hall] at hsignal
      · obtain ⟨w, hw⟩ := not_forall.mp hall
        have hwaiting : s.workers w = .waiting := by
          cases hworker : s.workers w <;> simp_all [Worker.isWaiting]
        have hsignal := hs (.signal i (some w)) trivial
        simp [WorkerPool.step, signalStep, hpc, hwaiting] at hsignal

theorem Stuck.worker (w : Fin n) :
    s.workers w = .waiting ∨
      (s.workers w = .popLock ∨ s.workers w = .woken) ∧ s.jobsLocked = true ∨
      (∃ job, s.workers w = .pushLock job) ∧ s.resultsLocked = true ∨
      s.workers w = .write ∧ P.takes s.pipe = false := by
  have hworker := hs (.worker w) trivial
  simp only [WorkerPool.step, workerStep] at hworker
  cases hpc : s.workers w with
  | waiting => exact .inl rfl
  | popLock =>
      simp only [hpc] at hworker
      split at hworker
      · next hlocked => exact .inr (.inl ⟨.inl rfl, hlocked⟩)
      · cases hworker
  | woken =>
      simp only [hpc] at hworker
      split at hworker
      · next hlocked => exact .inr (.inl ⟨.inr rfl, hlocked⟩)
      · cases hworker
  | popCheck =>
      simp only [hpc] at hworker
      split at hworker <;> cases hworker
  | popUnlock job => simp [hpc] at hworker
  | proc job => simp [hpc] at hworker
  | pushLock job =>
      simp only [hpc] at hworker
      split at hworker
      · next hlocked => exact .inr (.inr (.inl ⟨⟨job, rfl⟩, hlocked⟩))
      · cases hworker
  | pushing job => simp [hpc] at hworker
  | write =>
      simp only [hpc] at hworker
      split at hworker
      · cases hworker
      · next hfull => exact .inr (.inr (.inr ⟨rfl, Bool.eq_false_iff.mpr hfull⟩))
  | pushUnlock => simp [hpc] at hworker

theorem Stuck.reader (r : Fin k) :
    s.readers r = .reading ∧ P.bytes s.pipe = 0 ∨ s.readers r = .lock ∧ s.resultsLocked = true := by
  have hreader := hs (.reader r) trivial
  simp only [WorkerPool.step, readerStep] at hreader
  cases hpc : s.readers r with
  | idle =>
      have hpop := hs (.pop r) trivial
      simp [WorkerPool.step, hpc] at hpop
  | reading =>
      simp only [hpc] at hreader
      split at hreader
      · cases hreader
      · next hempty => exact .inl ⟨rfl, Nat.eq_zero_of_not_pos hempty⟩
  | lock =>
      simp only [hpc] at hreader
      split at hreader
      · next hlocked => exact .inr ⟨rfl, hlocked⟩
      · cases hreader
  | locked =>
      simp only [hpc] at hreader
      split at hreader <;> cases hreader
  | unlock => simp [hpc] at hreader

variable (h : s.Inv proc)

include h

/-- Nobody holds the lock of the jobs, so nobody waits for it. -/
theorem Stuck.jobs_free : s.jobsLocked = false := by
  have hnone : s.jobsHeld = 0 := by
    refine congrArg₂ (· + ·) (total_eq_zero fun i => ?_) (total_eq_zero fun w => ?_)
    · rcases hs.caller i with hpc | ⟨⟨job, hpc⟩, -⟩ <;> rw [hpc] <;> rfl
    · rcases hs.worker w with hpc | ⟨hpc | hpc, -⟩ | ⟨⟨job, hpc⟩, -⟩ | ⟨hpc, -⟩ <;> rw [hpc] <;> rfl
  have hheld := h.jobsHeld
  rw [hnone] at hheld
  cases hlocked : s.jobsLocked with
  | false => rfl
  | true =>
      rw [hlocked] at hheld
      cases hheld

theorem Stuck.callers_idle (i : Fin m) : s.callers i = .idle := by
  rcases hs.caller i with hpc | ⟨-, hlocked⟩
  · exact hpc
  · rw [hs.jobs_free h] at hlocked
    cases hlocked

/-- If no worker writes, nobody holds the lock of the results. -/
theorem Stuck.results_free (hwrite : ∀ w, s.workers w ≠ .write) : s.resultsLocked = false := by
  have hnone : s.resultsHeld = 0 := by
    refine congrArg₂ (· + ·) (total_eq_zero fun w => ?_) (total_eq_zero fun r => ?_)
    · rcases hs.worker w with hpc | ⟨hpc | hpc, -⟩ | ⟨⟨job, hpc⟩, -⟩ | ⟨hpc, -⟩
      · rw [hpc]; rfl
      · rw [hpc]; rfl
      · rw [hpc]; rfl
      · rw [hpc]; rfl
      · exact absurd hpc (hwrite w)
    · rcases hs.reader r with ⟨hpc, -⟩ | ⟨hpc, -⟩ <;> rw [hpc] <;> rfl
  have hheld := h.resultsHeld
  rw [hnone] at hheld
  cases hlocked : s.resultsLocked with
  | false => rfl
  | true =>
      rw [hlocked] at hheld
      cases hheld

/-- When no thread can take a step, everything is done, or the pool is deadlocked. -/
theorem Stuck.cases (hn : 0 < n) (hk : 0 < k) {c : Nat} (hP : P.TakesBelow c) (hc : 0 < c) :
    s.Drained ∨ s.Deadlocked := by
  have hfree := hs.jobs_free h
  by_cases hwrite : ∀ w, s.workers w ≠ .write
  · refine .inl ?_
    have hunlocked := hs.results_free h hwrite
    have hworkers : ∀ w, s.workers w = .waiting := by
      intro w
      rcases hs.worker w with hpc | ⟨-, hlocked⟩ | ⟨-, hlocked⟩ | ⟨hpc, -⟩
      · exact hpc
      · cases hfree.symm.trans hlocked
      · cases hunlocked.symm.trans hlocked
      · exact absurd hpc (hwrite w)
    have hreaders : ∀ r, s.readers r = .reading ∧ P.bytes s.pipe = 0 := by
      intro r
      rcases hs.reader r with hpc | ⟨-, hlocked⟩
      · exact hpc
      · cases hunlocked.symm.trans hlocked
    refine ⟨hs.callers_idle h, hworkers, ?_, ?_⟩
    · -- a job would have someone awake
      refine Classical.not_not.mp fun hne => ?_
      rcases h.awake hn hne with ⟨i, hi⟩ | ⟨w, hw⟩
      · rw [hs.callers_idle h i] at hi
        rcases hi with hi | hi <;> cases hi
      · rw [hworkers w] at hw
        cases hw
    · -- a result would have a byte
      have hread : s.bytesRead = 0 := total_eq_zero fun r => by rw [(hreaders r).1]; rfl
      have howed : s.owed = 0 := total_eq_zero fun w => by rw [hworkers w]; rfl
      have hbytes := h.bytes
      rw [hread, howed, (hreaders ⟨0, hk⟩).2] at hbytes
      exact List.length_eq_zero_iff.mp hbytes
  · obtain ⟨w, hw⟩ := not_forall.mp hwrite
    have hw' : s.workers w = .write := Classical.not_not.mp hw
    have hfull : P.takes s.pipe = false := by
      rcases hs.worker w with hpc | ⟨hpc | hpc, -⟩ | ⟨⟨job, hpc⟩, -⟩ | ⟨-, hfull⟩
      · cases hw'.symm.trans hpc
      · cases hw'.symm.trans hpc
      · cases hw'.symm.trans hpc
      · cases hw'.symm.trans hpc
      · exact hfull
    refine .inr ⟨hfull, ⟨w, hw'⟩, fun r => ?_⟩
    rcases hs.reader r with ⟨-, hempty⟩ | ⟨hpc, -⟩
    · -- a pipe with nothing in it takes a byte
      rw [hP s.pipe (by rw [hempty]; exact hc)] at hfull
      cases hfull
    · exact hpc

end Stuck

/-- When all threads wait for more, none can take a step. -/
theorem Stuck.of_waiting (hcallers : ∀ i, s.callers i = .idle)
    (hworkers : ∀ w, s.workers w = .waiting) (hreaders : ∀ r, s.readers r = .reading)
    (hpipe : P.bytes s.pipe = 0) : s.Stuck proc := by
  intro e he
  cases e with
  | push i job => exact he.elim
  | wake w => exact he.elim
  | caller i => simp [WorkerPool.step, callerStep, hcallers]
  | signal i w => simp [WorkerPool.step, signalStep, hcallers]
  | worker w => simp [WorkerPool.step, workerStep, hworkers]
  | pop r => simp [WorkerPool.step, hreaders]
  | reader r => simp [WorkerPool.step, readerStep, hreaders, hpipe]

/-- What has been delivered when everything is done. -/
theorem Drained.delivered (hd : s.Drained) (h : s.Inv proc) :
    s.pushed = s.taken.map Prod.snd ∧
      (s.delivered : Multiset J) = s.taken.map fun t => proc t.1 t.2 := by
  have hhands : s.inHands proc = 0 := total_eq_zero fun w => by rw [hd.workers w]; rfl
  have hpushed := h.pushed
  have hfinished := h.finished
  have htaken := h.taken
  rw [hd.jobs, List.append_nil] at hpushed
  rw [hd.results, List.append_nil] at hfinished
  rw [hhands, add_zero, hfinished] at htaken
  exact ⟨hpushed, htaken.symm⟩

/-- A deadlock takes more results than the pipe and the readers have room for. -/
theorem Deadlocked.overfull (hd : s.Deadlocked) (h : s.Inv proc) {c : Nat}
    (hP : P.TakesBelow c) : s.delivered.length + c + k < s.pushed.length := by
  have hread : s.bytesRead = k := by
    rw [bytesRead, total_const (n := 1) fun r => by rw [hd.readers r]; rfl, Fintype.card_fin,
      Nat.mul_one]
  obtain ⟨w, hw⟩ := hd.writer
  have howed : (s.workers w).owesByte ≤ s.owed := le_total (fun _ => Worker.owesByte) s.workers w
  have hone : (s.workers w).owesByte = 1 := by rw [hw]; rfl
  have hbytes := h.bytes
  have htaken := congrArg Multiset.card h.taken
  have hpushed := congrArg List.length h.pushed
  have hfinished := congrArg List.length h.finished
  rw [Multiset.card_add, Multiset.coe_card, Multiset.coe_card, List.length_map] at htaken
  rw [List.length_append, List.length_map] at hpushed
  rw [List.length_append] at hfinished
  have hpipe : c ≤ P.bytes s.pipe := by
    refine Nat.le_of_not_lt fun hlt => ?_
    cases (hP s.pipe hlt).symm.trans hd.pipe
  omega

end WorkerPool

section Drains

variable {n m k : Nat} {P : Pipe} {proc : Fin n → J → J} {es es' : List (PoolEvent J n m k)}
  {s t : WorkerPool J n m k P}

/-- From every state that is reached, the threads stop after at most `rank` steps if there are no
new jobs and no needless wake-ups.  Let the pipe take a byte as long as there are fewer than `c` in
it.  Then where the threads stop everything has been delivered, each job as its worker has made it,
unless more results are left than `c` and the number of readers. -/
theorem pool_drains (hn : 0 < n) (hk : 0 < k) {c : Nat} (hP : P.TakesBelow c) (hc : 0 < c)
    (hrun : (workerPool J m k P proc).exec .start es = some s) (hes' : ∀ e ∈ es', e.Internal)
    (hrun' : (workerPool J m k P proc).exec s es' = some t) :
    es'.length ≤ s.rank ∧
      (t.Stuck proc → t.pushed.length ≤ t.delivered.length + c + k →
        t.pushed = t.taken.map Prod.snd ∧
          (t.delivered : Multiset J) = t.taken.map fun t => proc t.1 t.2) := by
  have hlen : es'.length + t.rank ≤ s.rank :=
    Machine.length_le_rank (fun _ _ _ he hstep => WorkerPool.rank_step he hstep) hes' hrun'
  have h := pool_inv ((Machine.exec_append es' hrun).trans hrun')
  refine ⟨by omega, fun hs hroom => ?_⟩
  rcases hs.cases h hn hk hP hc with hd | hd
  · exact hd.delivered h
  · have hover := hd.overfull h hP
    omega

/-- The steps that one job takes, from the call of `push` to the next call of `pop`. -/
def oneJob : List (PoolEvent Nat 1 1 1) :=
  [.caller 0, .caller 0, .caller 0, .signal 0 none, .worker 0, .worker 0, .worker 0, .worker 0,
    .worker 0, .worker 0, .worker 0, .worker 0, .worker 0, .worker 0, .pop 0, .reader 0, .reader 0,
    .reader 0, .reader 0, .pop 0]

/-- A pipe of two pages with one byte each. -/
def twoPages : Pipe := Pipe.ofPages 2 1 Nat.one_pos

theorem pool_drains_one : ∃ s t,
    (workerPool Nat 1 1 twoPages (addId (n := 1))).exec .start [.push 0 7] = some s ∧
      (workerPool Nat 1 1 twoPages (addId (n := 1))).exec s oneJob = some t ∧
      oneJob.length ≤ s.rank ∧
      (t.delivered : Multiset Nat) = t.taken.map fun t => addId t.1 t.2 := by
  obtain ⟨s, hrun⟩ : ∃ s,
      (workerPool Nat 1 1 twoPages (addId (n := 1))).exec .start [.push 0 7] = some s := ⟨_, rfl⟩
  obtain ⟨t, hrun'⟩ : ∃ t,
      (workerPool Nat 1 1 twoPages (addId (n := 1))).exec s oneJob = some t := by
    cases hrun
    exact ⟨_, rfl⟩
  obtain ⟨hle, hdrained⟩ := pool_drains (by decide) (by decide)
    (Pipe.takesBelow_ofPages 1 Nat.one_pos) (by decide) hrun
    (by simp [oneJob, PoolEvent.Internal]) hrun'
  cases hrun
  cases hrun'
  refine ⟨_, _, rfl, rfl, hle, (hdrained (.of_waiting ?_ ?_ ?_ rfl) (by decide)).2⟩
  · intro i
    rw [Subsingleton.elim i 0]
    rfl
  · intro w
    rw [Subsingleton.elim w 0]
    rfl
  · intro r
    rw [Subsingleton.elim r 0]
    rfl

end Drains

/-! ## The deadlock -/

namespace WorkerPool

variable {P : Pipe} (proc : Fin 1 → J → J)

/-- A pool with one thread of each kind and nothing in the queue of jobs. -/
def single (w : Worker J) (r : Reader) (results : List J) (resultsLocked : Bool) (pipe : P.State)
    (jobs : List J) : WorkerPool J 1 1 1 P where
  callers _ := .idle
  workers _ := w
  readers _ := r
  jobs := []
  jobsLocked := false
  results := results
  resultsLocked := resultsLocked
  pipe := pipe
  pushed := jobs
  taken := jobs.map fun job => (0, job)
  finished := results
  delivered := []
  error := false

end WorkerPool

end KvServer.Util
