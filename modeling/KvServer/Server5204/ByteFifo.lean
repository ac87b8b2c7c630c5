import KvServer.Base.Fifo
import KvServer.Server5204.Link
import KvServer.Util.Strings

/-!
# A buffer is a queue of bytes

`msg_read` puts bytes into a buffer and `msg_write` takes bytes out of one.  Between the two
loops stand `grow`, which moves the block to another place, and `nice`, which moves the window
inside it.  `bufferUse` is a buffer with all of this happening to it, one call of the system
or of `nice` at a time, so that what holds in every state of it holds throughout the two
functions.

*The window* stays in the block (`Fits`), and so the two regions of the `memcpy` in `nice` do
not overlap (`Fits.copiesApart`).  If they did the machine would be at `undefined`.  *The
content* is a queue: every step is one of `fifo` or leaves the queue alone (`step_refines`).
*What comes and goes* is what the events say: the bytes of the reads (`arrived`) and as many
bytes as the writes take (`taken`).

`msgRead_run` and `msgWrite_run` say that the calls of the two functions are runs of this
machine.
-/

namespace KvServer.Server5204

open Transfer

namespace Buffer

/-! ## `grow` and `nice` -/

/-- What `realloc` promises: the bytes of the old block are in front. -/
def Keeps (b : Buffer) (p : Memory Byte) : Prop := ∀ i : Nat, i < b.total.toNat → p i = b.buf i

instance (b : Buffer) (p : Memory Byte) : Decidable (b.Keeps p) :=
  inferInstanceAs (Decidable (∀ i : Nat, i < b.total.toNat → p i = b.buf i))

/-- `grow()` does not return -1, when `p` is what `realloc` returns: the size asked for is an
`int`, and there is memory.  A size that is no `int` comes out negative, and is asked in vain. -/
def Grows (b : Buffer) (p : Option (Memory Byte)) : Prop :=
  b.grow.total ≤ Util.INT_MAX ∧ p.isSome

instance (b : Buffer) (p : Option (Memory Byte)) : Decidable (b.Grows p) :=
  inferInstanceAs (Decidable (_ ∧ _))

/-- `grow()` with what `realloc` returns, which is `none` for NULL.  When it returns -1, nothing
has changed. -/
def realloc (b : Buffer) : Option (Memory Byte) → Buffer
  | none => b
  | some p => if b.grow.total ≤ Util.INT_MAX then { b.grow with buf := p } else b

theorem realloc_some {b : Buffer} (h : b.grow.total ≤ Util.INT_MAX) (p : Memory Byte) :
    b.realloc (some p) = { b.grow with buf := p } := if_pos h

theorem realloc_of_not_grows {b : Buffer} {p : Option (Memory Byte)} (h : ¬ b.Grows p) :
    b.realloc p = b := by
  cases p with
  | none => rfl
  | some p => exact if_neg fun hle => h ⟨hle, rfl⟩

/-- The `memcpy` of `nice()` copies between regions that do not overlap. -/
def CopiesApart (b : Buffer) : Prop := ∀ c ∈ b.niceCopy, c.Apart

instance (b : Buffer) : Decidable b.CopiesApart := inferInstanceAs (Decidable (∀ c ∈ _, _))

theorem Fits.le_total_grow {b : Buffer} (h : b.Fits) : b.total ≤ b.grow.total := by
  have htotal := h.total
  have hdata := h.data
  have hsize := h.size
  unfold grow
  dsimp only
  split
  · omega
  · split <;> omega

theorem Fits.realloc {b : Buffer} (h : b.Fits) (p : Option (Memory Byte)) : (b.realloc p).Fits := by
  by_cases hp : b.Grows p
  · obtain ⟨hle, hsome⟩ := hp
    obtain ⟨q, rfl⟩ := Option.isSome_iff_exists.mp hsome
    rw [realloc_some hle]
    exact ⟨h.data, h.size, Int.le_trans h.total h.le_total_grow⟩
  · rw [realloc_of_not_grows hp]
    exact h

@[simp] theorem data_realloc (b : Buffer) (p : Option (Memory Byte)) :
    (b.realloc p).data = b.data := by
  cases p with
  | none => rfl
  | some p => rw [realloc]; split <;> rfl

@[simp] theorem size_realloc (b : Buffer) (p : Option (Memory Byte)) :
    (b.realloc p).size = b.size := by
  cases p with
  | none => rfl
  | some p => rw [realloc]; split <;> rfl

/-- The window lies in the part of the block that `realloc` keeps. -/
theorem Fits.content_realloc {b : Buffer} (h : b.Fits) {p : Option (Memory Byte)}
    (hp : ∀ q ∈ p, b.Keeps q) : (b.realloc p).content = b.content := by
  by_cases hgrows : b.Grows p
  · obtain ⟨hle, hsome⟩ := hgrows
    obtain ⟨q, rfl⟩ := Option.isSome_iff_exists.mp hsome
    have hdata := h.data
    have htotal := h.total
    rw [realloc_some hle]
    refine Memory.slice_congr fun i hi => ?_
    have haddr : b.data + i = ((b.data.toNat + i : Nat) : Int) := by omega
    have hi' : i < b.size.toNat := hi
    show q (b.data + i) = b.buf (b.data + i)
    rw [haddr]
    exact hp q rfl _ (by omega)
  · rw [realloc_of_not_grows hgrows]

/-- A window that starts behind the middle of the block is not longer than what is in front of
it. -/
theorem Fits.size_le_data {b : Buffer} (h : b.Fits) (hdata : b.data > b.total.tdiv 2) :
    b.size ≤ b.data := by
  have hsize := h.size
  have htotal := h.total
  have hfront := h.data
  rw [Int.tdiv_eq_ediv_of_nonneg (by omega)] at hdata
  omega

theorem Fits.copiesApart {b : Buffer} (h : b.Fits) : b.CopiesApart := by
  intro c hc
  obtain ⟨hdata, hcopy⟩ := Option.ite_none_right_eq_some.mp hc
  cases hcopy
  have hle := h.size_le_data hdata
  exact Memory.Copy.apart_iff.mpr (.inr (.inl (by dsimp only; omega)))

theorem Fits.nice {b : Buffer} (h : b.Fits) : b.nice.Fits := by
  rw [nice_eq]
  split
  · refine ⟨Int.le_refl 0, h.size, ?_⟩
    show 0 + b.size ≤ b.total
    have hdata := h.data
    have htotal := h.total
    omega
  · exact h

end Buffer

/-! ## The machine -/

/-- Where the code stands that uses the buffer. -/
inductive Point where
  /-- No call is going on. -/
  | idle
  /-- In front of `nice()` at the start of `msg_read`. -/
  | readNice
  /-- At the loop of `msg_read`, with space left. -/
  | reading
  /-- `msg_read` has returned NULL. -/
  | dropped
  /-- At the loop of `msg_write`, with bytes left. -/
  | writing
  /-- In front of `nice()` at the end of `msg_write`. -/
  | writeNice
  /-- A `memcpy` between regions that overlap was called. -/
  | undefined
deriving DecidableEq, Repr

/-- A buffer, what has been read into it and what has been written from it. -/
structure BufferUse where
  buffer : Buffer
  point : Point
  came : List Byte
  wire : List Byte

/-- What happens next.  `msgRead` and `msgWrite` are calls, with what `realloc` returns if
they get there. -/
inductive BufferEvent where
  | msgRead (p : Option (Memory Byte))
  | msgWrite (p : Option (Memory Byte))
  | nice
  | read (a : ReadAnswer Byte)
  | write (a : WriteAnswer)

/-- The bytes that a read brings. -/
def BufferEvent.bytes : BufferEvent → List Byte
  | .read (.data bytes) => bytes
  | _ => []

/-- How many bytes a write takes. -/
def BufferEvent.count : BufferEvent → Nat
  | .write (.count n) => n
  | _ => 0

/-- The bytes that the reads bring. -/
def arrived (events : List BufferEvent) : List Byte := events.flatMap BufferEvent.bytes

/-- How many bytes the writes take. -/
def taken (events : List BufferEvent) : Nat := (events.map BufferEvent.count).sum

namespace BufferUse

/-- A buffer that was just built. -/
def start (b : Buffer) : BufferUse := ⟨b, .idle, [], []⟩

/-- `if(total() == INIT_BUFFER_SIZE) grow()` -/
def growFirst (b : Buffer) (p : Option (Memory Byte)) : Option Buffer :=
  if b.total = INIT_BUFFER_SIZE then
    if ∀ q ∈ p, b.Keeps q then some (b.realloc p) else none
  else some b

/-- One iteration of the loop of `msg_read`.  A read of more than was asked for cannot
happen. -/
def onRead (noblock_ : Bool) (s : BufferUse) : ReadAnswer Byte → Option BufferUse
  | .fail e =>
      if e = EINTR then some s
      else if e = EWOULDBLOCK then some { s with point := .idle }
      else some { s with point := .dropped }
  | .data [] => some { s with point := .dropped }
  | .data (b :: bytes) =>
      if (b :: bytes).length ≤ s.buffer.space.toNat then
        let msg := s.buffer.recv (b :: bytes)
        some { s with
          buffer := msg
          came := s.came ++ b :: bytes
          point := if msg.space ≤ 0 ∨ noblock_ = false then .idle else .reading }
      else none

/-- One iteration of the loop of `msg_write`. -/
def onWrite (noblock_ : Bool) (s : BufferUse) : WriteAnswer → Option BufferUse
  | .fail e =>
      if e = EINTR then some s
      else if e = EWOULDBLOCK then some { s with point := .writeNice }
      else some { s with point := .idle }
  | .count 0 => some { s with point := .writeNice }
  | .count (n + 1) =>
      if n + 1 ≤ s.buffer.size.toNat then
        let smsg := s.buffer.decr (n + 1 : Nat)
        some { s with
          buffer := smsg
          wire := s.wire ++ s.buffer.content.take (n + 1)
          point := if smsg.size ≤ 0 ∨ noblock_ = false then .writeNice else .writing }
      else none

/-- The call of `nice()`, behind which the code stands at `point`. -/
def onNice (s : BufferUse) (point : Buffer → Point) : BufferUse :=
  if s.buffer.CopiesApart then { s with buffer := s.buffer.nice, point := point s.buffer.nice }
  else { s with point := .undefined }

/-- One step.  `msg_read` makes its buffer itself, and here it may be called on any buffer. -/
def step (noblock_ : Bool) (s : BufferUse) (e : BufferEvent) : Option BufferUse :=
  match s.point, e with
  | .idle, .msgRead p =>
      (growFirst s.buffer p).map fun msg => { s with buffer := msg, point := .readNice }
  | .readNice, .nice => some (s.onNice fun msg => if 0 < msg.space then .reading else .idle)
  | .reading, .read a => onRead noblock_ s a
  | .idle, .msgWrite p =>
      (growFirst s.buffer p).map fun smsg =>
        { s with buffer := smsg, point := if 0 < smsg.size then .writing else .writeNice }
  | .writing, .write a => onWrite noblock_ s a
  | .writeNice, .nice => some (s.onNice fun _ => .idle)
  | _, _ => none

/-- The queue that the buffer is. -/
def queue (s : BufferUse) : Fifo Byte := ⟨s.buffer.content, s.came, s.wire⟩

end BufferUse

/-- The machine of a buffer. -/
def bufferUse (noblock_ : Bool) : Machine BufferUse BufferEvent where
  step := BufferUse.step noblock_

/-! ## Steps -/

namespace BufferUse

variable {noblock_ : Bool} {s t : BufferUse}

/-- The window lies in the block and nothing undefined was done. -/
structure Sound (s : BufferUse) : Prop where
  fits : s.buffer.Fits
  point : s.point ≠ .undefined

/-- What a step keeps and does: the state stays sound, and the content is a queue. -/
def Refines (s t : BufferUse) : Prop :=
  t.Sound ∧ ∃ ops, (fifo Byte).exec s.queue ops = some t.queue

/-- Nothing comes or goes. -/
theorem refines_of_content (hsound : t.Sound) (hcontent : t.buffer.content = s.buffer.content)
    (hcame : t.came = s.came) (hwire : t.wire = s.wire) : Refines s t := by
  refine ⟨hsound, [], ?_⟩
  rw [queue, queue, hcontent, hcame, hwire]
  rfl

theorem growFirst_spec {b b' : Buffer} {p : Option (Memory Byte)} (h : b.Fits)
    (hgrow : growFirst b p = some b') : b'.Fits ∧ b'.content = b.content := by
  unfold growFirst at hgrow
  split at hgrow
  · split at hgrow
    · next hkeeps =>
      cases hgrow
      exact ⟨h.realloc p, h.content_realloc hkeeps⟩
    · cases hgrow
  · cases hgrow
    exact ⟨h, rfl⟩

/-- A block that stays where it is. -/
theorem growFirst_buf (b : Buffer) : growFirst b (some b.buf) =
    some (if b.total = INIT_BUFFER_SIZE then b.grow else b) := by
  unfold growFirst
  split
  · next htotal =>
      have hgrow : b.grow.total ≤ Util.INT_MAX := by
        rw [Buffer.grow, htotal]
        show (8 * 1024 : Int) ≤ Util.INT_MAX
        decide
      refine (if_pos fun q hq i _ => ?_).trans (congrArg some (Buffer.realloc_some hgrow b.buf))
      cases hq
      rfl
  · rfl

theorem onRead_refines (h : s.buffer.Fits) (hs : s.point = .reading) {a : ReadAnswer Byte}
    (hread : onRead noblock_ s a = some t) : Refines s t := by
  rcases a with bytes | e
  · cases bytes with
    | nil =>
        cases hread
        exact refines_of_content ⟨h, Point.noConfusion⟩ rfl rfl rfl
    | cons b bytes =>
        simp only [onRead, Option.ite_none_right_eq_some, Option.some.injEq] at hread
        obtain ⟨hroom, rfl⟩ := hread
        refine ⟨⟨h.recv ?_, by dsimp only; split <;> exact Point.noConfusion⟩,
          [.push (b :: bytes)], ?_⟩
        · rw [List.length_cons] at hroom ⊢
          omega
        · show some (Fifo.mk _ _ _) = some (Fifo.mk _ _ _)
          rw [Buffer.content_recv h]
          rfl
  · simp only [onRead] at hread
    split at hread
    · cases hread
      exact refines_of_content ⟨h, fun hu => Point.noConfusion (hs.symm.trans hu)⟩ rfl rfl rfl
    · split at hread <;> cases hread <;>
        exact refines_of_content ⟨h, Point.noConfusion⟩ rfl rfl rfl

theorem onWrite_refines (h : s.buffer.Fits) (hs : s.point = .writing) {a : WriteAnswer}
    (hwrite : onWrite noblock_ s a = some t) : Refines s t := by
  rcases a with n | e
  · cases n with
    | zero =>
        cases hwrite
        exact refines_of_content ⟨h, Point.noConfusion⟩ rfl rfl rfl
    | succ n =>
        simp only [onWrite, Option.ite_none_right_eq_some, Option.some.injEq] at hwrite
        obtain ⟨hsize, rfl⟩ := hwrite
        have hsize' : ((n + 1 : Nat) : Int) ≤ s.buffer.size := by
          have hpos := h.size
          omega
        refine ⟨⟨h.decr hsize', by dsimp only; split <;> exact Point.noConfusion⟩,
          [.pop (n + 1)], ?_⟩
        have hlen : n + 1 ≤ s.queue.queue.length := by
          rw [queue, Buffer.length_content]
          exact hsize
        have hpop : (fifo Byte).step s.queue (.pop (n + 1)) = some
            ⟨s.buffer.content.drop (n + 1), s.came, s.wire ++ s.buffer.content.take (n + 1)⟩ :=
          if_pos hlen
        rw [Machine.exec_cons, hpop, queue, Buffer.content_decr hsize']
        rfl
  · simp only [onWrite] at hwrite
    split at hwrite
    · cases hwrite
      exact refines_of_content ⟨h, fun hu => Point.noConfusion (hs.symm.trans hu)⟩ rfl rfl rfl
    · split at hwrite <;> cases hwrite <;>
        exact refines_of_content ⟨h, Point.noConfusion⟩ rfl rfl rfl

/-- `nice()` is defined, moves the window and leaves the content alone. -/
theorem onNice_refines (h : s.buffer.Fits) {point : Buffer → Point}
    (hpoint : ∀ b, point b ≠ .undefined) : Refines s (s.onNice point) := by
  rw [onNice, if_pos h.copiesApart]
  exact refines_of_content ⟨h.nice, hpoint _⟩ (Buffer.content_nice _) rfl rfl

theorem step_refines {e : BufferEvent} (h : s.Sound)
    (hstep : step noblock_ s e = some t) : Refines s t := by
  unfold step at hstep
  split at hstep
  · obtain ⟨msg, hgrow, rfl⟩ := Option.map_eq_some_iff.mp hstep
    obtain ⟨hfits, hcontent⟩ := growFirst_spec h.fits hgrow
    exact refines_of_content ⟨hfits, Point.noConfusion⟩ hcontent rfl rfl
  · cases hstep
    exact onNice_refines h.fits fun b => by split <;> exact Point.noConfusion
  · next a hs => exact onRead_refines h.fits hs hstep
  · obtain ⟨smsg, hgrow, rfl⟩ := Option.map_eq_some_iff.mp hstep
    obtain ⟨hfits, hcontent⟩ := growFirst_spec h.fits hgrow
    exact refines_of_content ⟨hfits, by dsimp only; split <;> exact Point.noConfusion⟩ hcontent
      rfl rfl
  · next a hs => exact onWrite_refines h.fits hs hstep
  · cases hstep
    exact onNice_refines h.fits fun b => Point.noConfusion
  · cases hstep

/-! ## What comes and goes -/

/-- What a step does to the two records: it adds what its event says. -/
def Records (s t : BufferUse) (e : BufferEvent) : Prop :=
  t.came = s.came ++ e.bytes ∧ t.wire.length = s.wire.length + e.count

theorem records_none {e : BufferEvent} (hcame : t.came = s.came) (hwire : t.wire = s.wire)
    (hbytes : e.bytes = []) (hcount : e.count = 0) : Records s t e := by
  rw [Records, hcame, hwire, hbytes, hcount, List.append_nil]
  exact ⟨rfl, rfl⟩

theorem onRead_records {a : ReadAnswer Byte} (hread : onRead noblock_ s a = some t) :
    Records s t (.read a) := by
  rcases a with bytes | e
  · cases bytes with
    | nil =>
        cases hread
        exact records_none rfl rfl rfl rfl
    | cons b bytes =>
        simp only [onRead, Option.ite_none_right_eq_some, Option.some.injEq] at hread
        rw [← hread.2]
        exact ⟨rfl, rfl⟩
  · simp only [onRead] at hread
    split at hread
    · cases hread
      exact records_none rfl rfl rfl rfl
    · split at hread <;> cases hread <;> exact records_none rfl rfl rfl rfl

theorem onWrite_records {a : WriteAnswer} (hwrite : onWrite noblock_ s a = some t) :
    Records s t (.write a) := by
  rcases a with n | e
  · cases n with
    | zero =>
        cases hwrite
        exact records_none rfl rfl rfl rfl
    | succ n =>
        simp only [onWrite, Option.ite_none_right_eq_some, Option.some.injEq] at hwrite
        obtain ⟨hsize, rfl⟩ := hwrite
        refine ⟨(List.append_nil _).symm, ?_⟩
        show (s.wire ++ s.buffer.content.take (n + 1)).length = s.wire.length + (n + 1)
        rw [List.length_append, List.length_take, Buffer.length_content, Nat.min_eq_left hsize]
  · simp only [onWrite] at hwrite
    split at hwrite
    · cases hwrite
      exact records_none rfl rfl rfl rfl
    · split at hwrite <;> cases hwrite <;> exact records_none rfl rfl rfl rfl

theorem onNice_records (s : BufferUse) (point : Buffer → Point) :
    Records s (s.onNice point) .nice := by
  unfold onNice
  split <;> exact records_none rfl rfl rfl rfl

theorem step_records {e : BufferEvent} (hstep : step noblock_ s e = some t) : Records s t e := by
  unfold step at hstep
  split at hstep
  · obtain ⟨msg, -, rfl⟩ := Option.map_eq_some_iff.mp hstep
    exact records_none rfl rfl rfl rfl
  · cases hstep
    exact onNice_records s _
  · exact onRead_records hstep
  · obtain ⟨smsg, -, rfl⟩ := Option.map_eq_some_iff.mp hstep
    exact records_none rfl rfl rfl rfl
  · exact onWrite_records hstep
  · cases hstep
    exact onNice_records s _
  · cases hstep

end BufferUse

/-! ## Runs -/

/-- The two constructors of `Buffer`.  `Buffer(char *ptr, int sz)` is given a block of `sz`
bytes.  `Buffer(int total)` asks for one and takes any number. -/
inductive Buffer.Built : Buffer → Prop where
  | ofTotal (id : Nat) (buf : Memory Byte) (total : Int) : Built (ofTotal id buf total)
  | ofPtr (id : Nat) (ptr : Memory Byte) (sz : Nat) : Built (ofPtr id ptr sz)

/-- A buffer that was asked for with a negative size: it has no room and nothing in it. -/
structure Buffer.Void (b : Buffer) : Prop where
  data : b.data = 0
  size : b.size = 0
  total : b.total < 0

theorem Buffer.Built.fits_or_void {b : Buffer} (h : b.Built) : b.Fits ∨ b.Void := by
  cases h with
  | ofTotal id buf total =>
      rcases Int.lt_or_le total 0 with hlt | hle
      · exact .inr ⟨rfl, rfl, hlt⟩
      · exact .inl ⟨Int.le_refl 0, Int.le_refl 0, hle⟩
  | ofPtr id ptr sz =>
      exact .inl ⟨Int.le_refl 0, Int.natCast_nonneg sz, Int.le_of_eq (Int.zero_add (sz : Int))⟩

section Runs

variable {noblock_ : Bool} {b : Buffer} {events : List BufferEvent} {s t : BufferUse}

/-- The records of a run are what its events say. -/
theorem exec_records (hrun : (bufferUse noblock_).exec s events = some t) :
    t.came = s.came ++ arrived events ∧ t.wire.length = s.wire.length + taken events := by
  induction events generalizing s with
  | nil =>
      cases hrun
      exact ⟨(List.append_nil _).symm, rfl⟩
  | cons e events ih =>
      obtain ⟨u, hstep, hrest⟩ := (bufferUse noblock_).exec_cons_eq_some hrun
      obtain ⟨hcame, hwire⟩ := BufferUse.step_records hstep
      obtain ⟨hcame', hwire'⟩ := ih hrest
      constructor
      · rw [hcame', hcame, List.append_assoc]
        rfl
      · rw [hwire', hwire, Nat.add_assoc]
        rfl

/-- Every run of a buffer is a run of a queue. -/
theorem exec_fifo (hb : b.Fits)
    (hrun : (bufferUse noblock_).exec (BufferUse.start b) events = some t) :
    t.Sound ∧ ∃ ops, (fifo Byte).exec (Fifo.ofList b.content) ops = some t.queue :=
  Machine.exec_refines (N := fifo Byte) (f := BufferUse.queue) (I := BufferUse.Sound)
    (fun _ _ _ h hstep => BufferUse.step_refines h hstep) hrun ⟨hb, Point.noConfusion⟩

/-- A buffer without room stays as it is: no loop is entered. -/
structure BufferUse.Idle (s : BufferUse) : Prop where
  void : s.buffer.Void
  came : s.came = []
  wire : s.wire = []
  point : s.point = .idle ∨ s.point = .readNice ∨ s.point = .writeNice

theorem Buffer.Void.copiesApart (h : b.Void) : b.CopiesApart := by
  intro c hc
  obtain ⟨-, hcopy⟩ := Option.ite_none_right_eq_some.mp hc
  cases hcopy
  exact Memory.Copy.apart_iff.mpr (.inl (Int.le_of_eq h.size))

theorem Buffer.Void.nice (h : b.Void) : b.nice.Void := by
  rw [nice_eq]
  split
  · exact ⟨rfl, h.size, h.total⟩
  · exact h

theorem Buffer.Void.content (h : b.Void) : b.content = [] := by
  rw [Buffer.content, h.size]
  rfl

theorem BufferUse.Idle.step {e : BufferEvent} (h : s.Idle)
    (hstep : (bufferUse noblock_).step s e = some t) : t.Idle := by
  obtain ⟨hvoid, hcame, hwire, hpoint⟩ := h
  have hgrow : ∀ p, BufferUse.growFirst s.buffer p = some s.buffer := fun p => by
    have htotal := hvoid.total
    exact if_neg fun h => by rw [INIT_BUFFER_SIZE] at h; omega
  simp only [bufferUse, BufferUse.step] at hstep
  split at hstep
  · rw [hgrow] at hstep
    cases hstep
    exact ⟨hvoid, hcame, hwire, .inr (.inl rfl)⟩
  · have hspace : ¬ 0 < s.buffer.nice.space := by
      have hdata := hvoid.nice.data
      have hsize := hvoid.nice.size
      have htotal := hvoid.nice.total
      show ¬ 0 < s.buffer.nice.total - s.buffer.nice.data - s.buffer.nice.size
      omega
    rw [BufferUse.onNice, if_pos hvoid.copiesApart, if_neg hspace] at hstep
    cases hstep
    exact ⟨hvoid.nice, hcame, hwire, .inl rfl⟩
  · next a hs => rcases hpoint with h | h | h <;> cases hs.symm.trans h
  · rw [hgrow] at hstep
    cases hstep
    exact ⟨hvoid, hcame, hwire, .inr (.inr (if_neg fun h => by
      rw [hvoid.size] at h
      exact Int.lt_irrefl 0 h))⟩
  · next a hs => rcases hpoint with h | h | h <;> cases hs.symm.trans h
  · rw [BufferUse.onNice, if_pos hvoid.copiesApart] at hstep
    cases hstep
    exact ⟨hvoid.nice, hcame, hwire, .inl rfl⟩
  · cases hstep

theorem exec_idle (hb : b.Void)
    (hrun : (bufferUse noblock_).exec (BufferUse.start b) events = some t) : t.Idle :=
  Machine.Reachable.invariant (fun _ _ _ h hstep => h.step hstep) ⟨events, hrun⟩
    ⟨hb, rfl, rfl, .inl rfl⟩

end Runs

/-! ## The calls are runs -/

/-- Where the code stands behind `msg_read`. -/
def ReadEnd.point : ReadEnd → Point
  | .returned => .idle
  | .null => .dropped
  | .waiting => .reading

/-- Where the code stands behind `msg_write`. -/
def MsgWrite.point (w : MsgWrite) : Point := if w.len = none then .writing else .idle

section Calls

variable {noblock_ : Bool}

theorem step_read {s : BufferUse} (hs : s.point = .reading) (a : ReadAnswer Byte) :
    (bufferUse noblock_).step s (.read a) = s.onRead noblock_ a := by
  simp only [bufferUse, BufferUse.step, hs]

theorem step_write {s : BufferUse} (hs : s.point = .writing) (a : WriteAnswer) :
    (bufferUse noblock_).step s (.write a) = s.onWrite noblock_ a := by
  simp only [bufferUse, BufferUse.step, hs]

theorem step_msgRead (b : Buffer) (p : Option (Memory Byte)) :
    (bufferUse noblock_).step (BufferUse.start b) (.msgRead p) =
      (BufferUse.growFirst b p).map fun msg => ⟨msg, .readNice, [], []⟩ := rfl

theorem step_msgWrite (b : Buffer) (p : Option (Memory Byte)) :
    (bufferUse noblock_).step (BufferUse.start b) (.msgWrite p) =
      (BufferUse.growFirst b p).map fun smsg =>
        ⟨smsg, if 0 < smsg.size then .writing else .writeNice, [], []⟩ := rfl

/-- The last step of `msg_write`. -/
theorem exec_writeNice (s : BufferUse) (hs : s.point = .writeNice) (h : s.buffer.Fits) :
    (bufferUse noblock_).exec s [.nice] =
      some { s with buffer := s.buffer.nice, point := .idle } := by
  rw [Machine.exec_cons]
  simp only [bufferUse, BufferUse.step, hs, BufferUse.onNice, if_pos h.copiesApart]
  rfl

/-- The loop of `msg_read`. -/
theorem msgReadLoop_run {reads : List (ReadAnswer Byte)} {s : BufferUse} (hs : s.point = .reading)
    (hspace : 0 < s.buffer.space) :
    ∃ events t, (bufferUse noblock_).exec s events = some t ∧
      t.buffer = (msgReadLoop noblock_ s.buffer reads).msg ∧ t.wire = s.wire ∧
      t.point = (msgReadLoop noblock_ s.buffer reads).ending.point := by
  induction reads generalizing s with
  | nil => exact ⟨[], s, rfl, rfl, rfl, hs⟩
  | cons a rest ih =>
      have hstep := @step_read noblock_ s hs
      rcases a with bytes | e
      · cases bytes with
        | nil =>
            refine ⟨[.read (.data [])], { s with point := .dropped }, ?_, rfl, rfl, rfl⟩
            rw [Machine.exec_cons, hstep]
            rfl
        | cons b bytes =>
            obtain ⟨k, hk⟩ : ∃ k, s.buffer.space.toNat = k + 1 :=
              ⟨s.buffer.space.toNat - 1, by omega⟩
            have htake : (b :: bytes).take s.buffer.space.toNat = b :: bytes.take k := by
              rw [hk, List.take_succ_cons]
            have hread : s.onRead noblock_ (.data (b :: bytes.take k)) = some { s with
                buffer := s.buffer.recv (b :: bytes.take k)
                came := s.came ++ b :: bytes.take k
                point := if (s.buffer.recv (b :: bytes.take k)).space ≤ 0 ∨ noblock_ = false
                  then .idle else .reading } := by
              refine if_pos ?_
              rw [← htake, List.length_take]
              exact Nat.min_le_left _ _
            simp only [msgReadLoop, htake]
            split
            · next hdone =>
                refine ⟨[.read (.data (b :: bytes.take k))],
                  ⟨s.buffer.recv (b :: bytes.take k), .idle, s.came ++ b :: bytes.take k, s.wire⟩,
                  ?_, rfl, rfl, rfl⟩
                rw [Machine.exec_cons, hstep, hread, if_pos hdone]
                rfl
            · next hmore =>
                have hspace' : 0 < (s.buffer.recv (b :: bytes.take k)).space := by omega
                obtain ⟨events, t, hrun, hbuffer, hwire, hpoint⟩ := @ih
                  ⟨s.buffer.recv (b :: bytes.take k), .reading, s.came ++ b :: bytes.take k, s.wire⟩
                  rfl hspace'
                refine ⟨.read (.data (b :: bytes.take k)) :: events, t, ?_, hbuffer, hwire, hpoint⟩
                rw [Machine.exec_cons, hstep, hread, if_neg hmore]
                exact hrun
      · simp only [msgReadLoop]
        split
        · next hintr =>
            obtain ⟨events, t, hrun, hbuffer, hwire, hpoint⟩ := ih hs hspace
            refine ⟨.read (.fail e) :: events, t, ?_, hbuffer, hwire, hpoint⟩
            rw [Machine.exec_cons, hstep, BufferUse.onRead, if_pos hintr]
            exact hrun
        · next hintr =>
            split
            · next hblock =>
                refine ⟨[.read (.fail e)], { s with point := .idle }, ?_, rfl, rfl, rfl⟩
                rw [Machine.exec_cons, hstep, BufferUse.onRead, if_neg hintr, if_pos hblock]
                rfl
            · next hblock =>
                refine ⟨[.read (.fail e)], { s with point := .dropped }, ?_, rfl, rfl, rfl⟩
                rw [Machine.exec_cons, hstep, BufferUse.onRead, if_neg hintr, if_neg hblock]
                rfl

/-- A call of `msg_read` is a run of the buffer that it makes, which reads the bytes that the
call reads. -/
theorem msgRead_run (id : Nat) (buf : Memory Byte) (reads : List (ReadAnswer Byte)) :
    ∃ events t, (bufferUse noblock_).exec
        (BufferUse.start (Buffer.ofTotal id buf INIT_BUFFER_SIZE)) events = some t ∧
      t.buffer = (msgRead noblock_ id buf reads).msg ∧
      t.point = (msgRead noblock_ id buf reads).ending.point ∧
      arrived events ++ received (msgRead noblock_ id buf reads).rest = received reads := by
  have hgrow : BufferUse.growFirst (Buffer.ofTotal id buf INIT_BUFFER_SIZE) (some buf) = _ :=
    BufferUse.growFirst_buf (Buffer.ofTotal id buf INIT_BUFFER_SIZE)
  have henter : (bufferUse noblock_).exec
      (BufferUse.start (Buffer.ofTotal id buf INIT_BUFFER_SIZE)) [.msgRead (some buf), .nice] =
      some ⟨msgReadBuffer id buf, .reading, [], []⟩ := by
    rw [Machine.exec_cons, step_msgRead, hgrow]
    rfl
  obtain ⟨events, t, hrest, hbuffer, hwire, hpoint⟩ := @msgReadLoop_run noblock_ reads
    ⟨msgReadBuffer id buf, .reading, [], []⟩ rfl (show (0 : Int) < 8192 - 0 - 0 by decide)
  have hrun := (Machine.exec_append events henter).trans hrest
  refine ⟨_, t, hrun, hbuffer, hpoint, ?_⟩
  -- nothing was written, so what arrived is in the buffer
  have hfits : (Buffer.ofTotal id buf INIT_BUFFER_SIZE).Fits :=
    ⟨Int.le_refl 0, Int.le_refl 0, show (0 : Int) + 0 ≤ 1024 by decide⟩
  obtain ⟨-, ops, hops⟩ := exec_fifo hfits hrun
  have hlaw : t.wire ++ t.buffer.content = [] ++ t.came := fifo_conserves hops
  have hbytes := (msgRead_spec noblock_ id buf reads).bytes
  rw [hwire, (exec_records hrun).1, hbuffer] at hlaw
  exact (congrArg (· ++ received (msgRead noblock_ id buf reads).rest) hlaw.symm).trans hbytes

/-- The loop of `msg_write`, and `nice` behind it. -/
theorem msgWriteLoop_run {writes : List WriteAnswer} {s : BufferUse} {ret : Int}
    (hs : s.point = .writing) (hfits : s.buffer.Fits) (hsize : 0 < s.buffer.size) :
    ∃ events t, (bufferUse noblock_).exec s events = some t ∧
      t.buffer = (msgWriteLoop noblock_ s.buffer ret s.wire writes).smsg ∧
      t.wire = (msgWriteLoop noblock_ s.buffer ret s.wire writes).wire ∧
      t.point = (msgWriteLoop noblock_ s.buffer ret s.wire writes).point := by
  induction writes generalizing s ret with
  | nil => exact ⟨[], s, rfl, rfl, rfl, hs⟩
  | cons a rest ih =>
      have hstep := @step_write noblock_ s hs
      rcases a with n | e
      · cases n with
        | zero =>
            refine ⟨[.write (.count 0), .nice], { s with buffer := s.buffer.nice, point := .idle },
              ?_, rfl, rfl, rfl⟩
            rw [Machine.exec_cons, hstep]
            exact @exec_writeNice noblock_ { s with point := .writeNice } rfl hfits
        | succ n =>
            obtain ⟨k, hk⟩ : ∃ k, min (n + 1) s.buffer.size.toNat = k + 1 :=
              ⟨min (n + 1) s.buffer.size.toNat - 1, by omega⟩
            have hfits' : (s.buffer.decr (k + 1 : Nat)).Fits := hfits.decr (by omega)
            have hwrite : s.onWrite noblock_ (.count (k + 1)) = some { s with
                buffer := s.buffer.decr (k + 1 : Nat)
                wire := s.wire ++ s.buffer.content.take (k + 1)
                point := if (s.buffer.decr (k + 1 : Nat)).size ≤ 0 ∨ noblock_ = false
                  then .writeNice else .writing } := if_pos (by omega)
            simp only [msgWriteLoop, hk]
            split
            · next hdone =>
                refine ⟨[.write (.count (k + 1)), .nice],
                  ⟨(s.buffer.decr (k + 1 : Nat)).nice, .idle, s.came,
                    s.wire ++ s.buffer.content.take (k + 1)⟩, ?_, rfl, rfl, rfl⟩
                rw [Machine.exec_cons, hstep, hwrite, if_pos hdone]
                exact @exec_writeNice noblock_ ⟨s.buffer.decr (k + 1 : Nat), .writeNice, s.came,
                  s.wire ++ s.buffer.content.take (k + 1)⟩ rfl hfits'
            · next hmore =>
                have hsize' : 0 < (s.buffer.decr (k + 1 : Nat)).size := by omega
                obtain ⟨events, t, hrun, hbuffer, hwire, hpoint⟩ := @ih
                  ⟨s.buffer.decr (k + 1 : Nat), .writing, s.came,
                    s.wire ++ s.buffer.content.take (k + 1)⟩ (ret + (k + 1 : Nat)) rfl hfits' hsize'
                refine ⟨.write (.count (k + 1)) :: events, t, ?_, hbuffer, hwire, hpoint⟩
                rw [Machine.exec_cons, hstep, hwrite, if_neg hmore]
                exact hrun
      · simp only [msgWriteLoop]
        split
        · next hintr =>
            obtain ⟨events, t, hrun, hbuffer, hwire, hpoint⟩ := @ih s ret hs hfits hsize
            refine ⟨.write (.fail e) :: events, t, ?_, hbuffer, hwire, hpoint⟩
            rw [Machine.exec_cons, hstep, BufferUse.onWrite, if_pos hintr]
            exact hrun
        · next hintr =>
            split
            · next hblock =>
                refine ⟨[.write (.fail e), .nice],
                  { s with buffer := s.buffer.nice, point := .idle }, ?_, rfl, rfl, rfl⟩
                rw [Machine.exec_cons, hstep, BufferUse.onWrite, if_neg hintr, if_pos hblock]
                exact @exec_writeNice noblock_ { s with point := .writeNice } rfl hfits
            · next hblock =>
                refine ⟨[.write (.fail e)], { s with point := .idle }, ?_, rfl, rfl, rfl⟩
                rw [Machine.exec_cons, hstep, BufferUse.onWrite, if_neg hintr, if_neg hblock]
                rfl

/-- A call of `msg_write` is a run of the buffer that it is given. -/
theorem msgWrite_run {smsg : Buffer} (h : smsg.Fits) (writes : List WriteAnswer) :
    ∃ events t, (bufferUse noblock_).exec (BufferUse.start smsg) events = some t ∧
      t.buffer = (msgWrite noblock_ smsg writes).smsg ∧
      t.wire = (msgWrite noblock_ smsg writes).wire ∧
      t.point = (msgWrite noblock_ smsg writes).point := by
  have hgrow := BufferUse.growFirst_buf smsg
  obtain ⟨hfits, -⟩ := BufferUse.growFirst_spec h hgrow
  generalize hb : (if smsg.total = INIT_BUFFER_SIZE then smsg.grow else smsg) = b at hgrow hfits
  simp only [msgWrite, hb]
  split
  · next hsize =>
      obtain ⟨events, t, hrun, hbuffer, hwire, hpoint⟩ :=
        @msgWriteLoop_run noblock_ writes ⟨b, .writing, [], []⟩ 0 rfl hfits hsize
      refine ⟨.msgWrite (some smsg.buf) :: events, t, ?_, hbuffer, hwire, hpoint⟩
      rw [Machine.exec_cons, step_msgWrite, hgrow, Option.map_some, if_pos hsize]
      exact hrun
  · next hsize =>
      refine ⟨[.msgWrite (some smsg.buf), .nice], ⟨b.nice, .idle, [], []⟩, ?_, rfl, rfl, rfl⟩
      rw [Machine.exec_cons, step_msgWrite, hgrow, Option.map_some, if_neg hsize]
      exact @exec_writeNice noblock_ ⟨b, .writeNice, [], []⟩ rfl hfits

end Calls

/-! ## The buffer throughout the two functions -/

/-- What holds of a buffer `b` in every state of a run of `events` that starts with it. -/
structure Buffer.IsFifo (b : Buffer) (events : List BufferEvent) (t : BufferUse) : Prop where
  data : 0 ≤ t.buffer.data
  size : 0 ≤ t.buffer.size
  /-- A negative total is that of no block. -/
  total : t.buffer.data + t.buffer.size ≤ max t.buffer.total 0
  /-- No `memcpy` so far was undefined, and one that `nice` would make now is not. -/
  apart : t.point ≠ .undefined ∧ t.buffer.CopiesApart
  grow : ∀ p, (∀ q ∈ p, t.buffer.Keeps q) → (t.buffer.realloc p).content = t.buffer.content
  nice : t.buffer.nice.content = t.buffer.content
  bytes : t.wire ++ t.buffer.content = b.content ++ arrived events
  taken : t.wire.length = taken events

section Throughout

variable {noblock_ : Bool} {b : Buffer} {events : List BufferEvent} {t : BufferUse}

theorem Buffer.Fits.isFifo (hb : b.Fits)
    (hrun : (bufferUse noblock_).exec (BufferUse.start b) events = some t) :
    b.IsFifo events t := by
  obtain ⟨⟨hfits, hpoint⟩, ops, hops⟩ := exec_fifo hb hrun
  obtain ⟨hcame, htaken⟩ := exec_records hrun
  have hlaw : t.wire ++ t.buffer.content = b.content ++ t.came := fifo_conserves hops
  have htotal := hfits.total
  exact {
    data := hfits.data
    size := hfits.size
    total := by omega
    apart := ⟨hpoint, hfits.copiesApart⟩
    grow := fun p hp => hfits.content_realloc hp
    nice := Buffer.content_nice _
    bytes := hlaw.trans (congrArg (b.content ++ ·) hcame)
    taken := htaken.trans (Nat.zero_add _) }

theorem Buffer.Void.isFifo (hb : b.Void)
    (hrun : (bufferUse noblock_).exec (BufferUse.start b) events = some t) :
    b.IsFifo events t := by
  obtain ⟨hvoid, hcame, hwire, hpoint⟩ := exec_idle hb hrun
  obtain ⟨harrived, htaken⟩ := exec_records hrun
  have hdata := hvoid.data
  have hsize := hvoid.size
  have hdefined : t.point ≠ .undefined := by
    intro hu
    rcases hpoint with h | h | h <;> cases hu.symm.trans h
  exact {
    data := Int.le_of_eq hdata.symm
    size := Int.le_of_eq hsize.symm
    total := by omega
    apart := ⟨hdefined, hvoid.copiesApart⟩
    grow := fun p _ => by rw [Buffer.content, Buffer.content, Buffer.size_realloc, hsize]; rfl
    nice := Buffer.content_nice _
    bytes := by
      rw [hwire, hvoid.content, hb.content, ← hcame, harrived]
      rfl
    taken := htaken.trans (Nat.zero_add _) }

/-- Runs without a read bring nothing. -/
theorem arrived_eq_nil (h : ∀ a, .read a ∉ events) : arrived events = [] := by
  refine List.flatMap_eq_nil_iff.mpr fun e he => ?_
  cases e with
  | read a => exact absurd he (h a)
  | _ => rfl

end Throughout

/-- Throughout `msg_read` and `msg_write` the window of a buffer lies in its block, `nice` copies
between regions that do not overlap, `grow` and `nice` leave the content as it is, and what was
written and what is left are what was there at first and what was read, in this order.  The calls
of the two functions are runs. -/
theorem buffer_is_fifo (noblock_ : Bool) :
    (∀ id buf reads, ∃ events t, (bufferUse noblock_).exec
        (BufferUse.start (Buffer.ofTotal id buf INIT_BUFFER_SIZE)) events = some t ∧
      t.buffer = (msgRead noblock_ id buf reads).msg ∧
      t.point = (msgRead noblock_ id buf reads).ending.point ∧
      arrived events ++ received (msgRead noblock_ id buf reads).rest = received reads) ∧
    (∀ smsg : Buffer, smsg.Fits → ∀ writes, ∃ events t,
      (bufferUse noblock_).exec (BufferUse.start smsg) events = some t ∧
      t.buffer = (msgWrite noblock_ smsg writes).smsg ∧
      t.wire = (msgWrite noblock_ smsg writes).wire ∧
      t.point = (msgWrite noblock_ smsg writes).point) ∧
    ∀ b : Buffer, b.Built → ∀ events t,
      (bufferUse noblock_).exec (BufferUse.start b) events = some t →
      b.IsFifo events t ∧
        ((∀ a, .read a ∉ events) → t.wire ++ t.buffer.content = b.content) := by
  refine ⟨msgRead_run, fun smsg h => msgWrite_run h, fun b hb events t hrun => ?_⟩
  have hfifo : b.IsFifo events t := by
    rcases hb.fits_or_void with hfits | hvoid
    · exact hfits.isFifo hrun
    · exact hvoid.isFifo hrun
  refine ⟨hfifo, fun hwrites => ?_⟩
  rw [hfifo.bytes, arrived_eq_nil hwrites, List.append_nil]

/-- A response of four bytes that is written in two pieces. -/
theorem buffer_is_fifo_two_writes :
    ∃ t, (bufferUse true).exec (BufferUse.start (Buffer.ofPtr 7 (fun a => a.toNat.toUInt8) 4))
        [.msgWrite none, .write (.count 3), .write (.fail EWOULDBLOCK), .nice] = some t ∧
      t.wire = [0, 1, 2] ∧ t.wire ++ t.buffer.content = [0, 1, 2, 3] := by
  obtain ⟨-, -, hfifo⟩ := buffer_is_fifo true
  have hrun : (bufferUse true).exec
      (BufferUse.start (Buffer.ofPtr 7 (fun a => a.toNat.toUInt8) 4))
      [.msgWrite none, .write (.count 3), .write (.fail EWOULDBLOCK), .nice] = some _ := rfl
  exact ⟨_, hrun, rfl,
    (hfifo _ (.ofPtr 7 (fun a => a.toNat.toUInt8) 4) _ _ hrun).2 (by simp)⟩

end KvServer.Server5204
