import KvServer.Server5204.Exchange

/-!
# Asking for a response

`request` sends a packet, writes until the output buffer is empty, and then waits for a packet:
`response` asks `parse`, and reads as long as `parse` is not ready.

*The pieces.*  `Link::read` does to the input buffer what `msg_read` does to a fresh one
(`linkReadLoop_eq`), and `Link::write` is `msg_write` on the output buffer.  `flush` ends with an
empty buffer unless the socket fails (`flush_spec`).

*The whole.*  On a blocking socket that does not fail, `response` returns a packet exactly if the
bytes that were left and those that come begin with its text, and leaves what is behind it
(`response_returned_iff`).  Then everything that was asked has been written (`request_spec`).
-/

namespace KvServer.Server5204

open Transfer Testclient Util

/-! ## `read` -/

/-- Where `read` stands: the value it returns if it has returned, the input buffer, and the
answers left over. -/
structure LinkRead where
  len : Option Int
  input : Buffer
  rest : List (ReadAnswer Byte)

/-- `while((want = input->space()) > 0)`, entered with space left. -/
def linkReadLoop (noblock_ : Bool) (input : Buffer) (ret : Int) : List (ReadAnswer Byte) → LinkRead
  | [] => ⟨none, input, []⟩
  | .fail e :: rest =>
      if e = EINTR then linkReadLoop noblock_ input ret rest
      else if e = EWOULDBLOCK then ⟨some ret, input, rest⟩
      else ⟨some (-1), input, rest⟩
  | .data [] :: rest => ⟨some 0, input, rest⟩
  | .data (b :: bytes) :: rest =>
      let want := input.space.toNat
      let got := (b :: bytes).take want
      let input := input.recv got
      let ret := ret + got.length
      if input.space ≤ 0 ∨ noblock_ = false then
        ⟨some ret, input, pushBack ((b :: bytes).drop want) rest⟩
      else linkReadLoop noblock_ input ret rest

/-- The buffer that the loop of `read` starts with. -/
def readBuffer (heap : Allocator) (input : Buffer) : Buffer :=
  let input := if input.total = INIT_BUFFER_SIZE then input.realloc (heap.realloc input) else input
  input.nice

/-- `Link::read`. -/
def linkRead (heap : Allocator) (noblock_ : Bool) (input : Buffer)
    (reads : List (ReadAnswer Byte)) : LinkRead :=
  let input := readBuffer heap input
  if 0 < input.space then linkReadLoop noblock_ input 0 reads else ⟨some 0, input, reads⟩

/-- What `read` returns when `msg_read` returns its buffer, NULL, or not yet. -/
def ReadEnd.len (ret : Int) : ReadEnd → Option Int → Prop
  | .returned, len => len = some ret
  | .null, len => len = some 0 ∨ len = some (-1)
  | .waiting, len => len = none

/-- `read` and `msg_read` run the same loop. -/
theorem linkReadLoop_eq {noblock_ : Bool} {reads : List (ReadAnswer Byte)} :
    ∀ {input : Buffer} {ret : Int},
      (linkReadLoop noblock_ input ret reads).input = (msgReadLoop noblock_ input reads).msg ∧
      (linkReadLoop noblock_ input ret reads).rest = (msgReadLoop noblock_ input reads).rest ∧
      (msgReadLoop noblock_ input reads).ending.len
        (ret + ((msgReadLoop noblock_ input reads).msg.size - input.size))
        (linkReadLoop noblock_ input ret reads).len := by
  induction reads with
  | nil => exact ⟨rfl, rfl, rfl⟩
  | cons a rest ih =>
      intro input ret
      rcases a with bytes | e
      · cases bytes with
        | nil => exact ⟨rfl, rfl, .inl rfl⟩
        | cons b bytes =>
            simp only [linkReadLoop, msgReadLoop]
            split
            · refine ⟨rfl, rfl, ?_⟩
              show some _ = some _
              rw [Buffer.size_recv]
              congr 1
              omega
            · obtain ⟨hinput, hrest, hlen⟩ := @ih (input.recv ((b :: bytes).take
                input.space.toNat)) (ret + ((b :: bytes).take input.space.toNat).length)
              refine ⟨hinput, hrest, ?_⟩
              rw [Buffer.size_recv] at hlen
              have hsum : ∀ n m k : Int, ret + n + (m - (k + n)) = ret + (m - k) := by
                intro n m k
                omega
              rw [hsum] at hlen
              exact hlen
      · simp only [linkReadLoop, msgReadLoop]
        split
        · exact ih
        · split
          · refine ⟨rfl, rfl, ?_⟩
            show some ret = some _
            rw [Int.sub_self, Int.add_zero]
          · exact ⟨rfl, rfl, .inr rfl⟩

/-- What `read` promises: it keeps the bytes in order, and a value that is positive says that
some have come. -/
structure LinkRead.Spec (input : Buffer) (reads : List (ReadAnswer Byte)) (r : LinkRead) :
    Prop where
  bytes : r.input.content ++ received r.rest = input.content ++ received reads
  fits : r.input.Fits
  rest : r.rest.length ≤ reads.length
  none : r.len = none → r.rest = []
  pos : ∀ len, r.len = some len → 0 < len → input.content.length < r.input.content.length

theorem length_pushBack_le (bytes : List Byte) (rest : List (ReadAnswer Byte)) :
    (pushBack bytes rest).length ≤ rest.length + 1 := by
  cases bytes with
  | nil => exact Nat.le_succ _
  | cons b bytes => exact Nat.le_refl _

theorem msgReadLoop_rest {noblock_ : Bool} {reads : List (ReadAnswer Byte)} :
    ∀ {msg : Buffer}, (msgReadLoop noblock_ msg reads).rest.length ≤ reads.length ∧
      ((msgReadLoop noblock_ msg reads).ending = .waiting →
        (msgReadLoop noblock_ msg reads).rest = []) := by
  induction reads with
  | nil => exact ⟨Nat.le_refl _, fun _ => rfl⟩
  | cons a rest ih =>
      intro msg
      rcases a with bytes | e
      · cases bytes with
        | nil => exact ⟨Nat.le_succ _, fun h => by cases h⟩
        | cons b bytes =>
            simp only [msgReadLoop]
            split
            · exact ⟨length_pushBack_le _ rest, fun h => by cases h⟩
            · exact ⟨Nat.le_succ_of_le ih.1, ih.2⟩
      · simp only [msgReadLoop]
        split
        · exact ⟨Nat.le_succ_of_le ih.1, ih.2⟩
        · split <;> exact ⟨Nat.le_succ _, fun h => by cases h⟩

theorem readBuffer_spec (heap : Allocator) {input : Buffer} (h : input.Fits) :
    (readBuffer heap input).Fits ∧ (readBuffer heap input).content = input.content := by
  unfold readBuffer
  dsimp only
  split
  · exact ⟨(h.realloc _).nice,
      (Buffer.content_nice _).trans (h.content_realloc (heap.keeps input))⟩
  · exact ⟨h.nice, Buffer.content_nice _⟩

theorem linkReadLoop_spec {noblock_ : Bool} {reads : List (ReadAnswer Byte)} {input : Buffer}
    (h : input.Fits) (hspace : 0 < input.space) :
    (linkReadLoop noblock_ input 0 reads).Spec input reads := by
  obtain ⟨hinput, hrest, hlen⟩ := @linkReadLoop_eq noblock_ reads input 0
  obtain ⟨hbytes, hfits, -, -, -⟩ := @msgReadLoop_spec noblock_ reads input h hspace
  obtain ⟨hle, hwaiting⟩ := @msgReadLoop_rest noblock_ reads input
  have hsize := h.size
  generalize linkReadLoop noblock_ input 0 reads = r at hinput hrest hlen ⊢
  generalize msgReadLoop noblock_ input reads = m at hinput hrest hlen hbytes hfits hle hwaiting
  refine ⟨by rw [hinput, hrest, hbytes], hinput ▸ hfits, hrest ▸ hle, ?_, ?_⟩
  · intro hnone
    rw [hrest]
    refine hwaiting ?_
    cases hend : m.ending with
    | waiting => rfl
    | returned =>
        rw [hend] at hlen
        cases hnone.symm.trans hlen
    | null =>
        rw [hend] at hlen
        rcases hlen with hlen | hlen <;> cases hnone.symm.trans hlen
  · intro len hsome hpos
    rw [hinput, Buffer.length_content, Buffer.length_content]
    cases hend : m.ending with
    | waiting =>
        rw [hend] at hlen
        cases hsome.symm.trans hlen
    | returned =>
        rw [hend] at hlen
        cases hsome.symm.trans hlen
        omega
    | null =>
        rw [hend] at hlen
        rcases hlen with hlen | hlen <;> cases hsome.symm.trans hlen <;> omega

theorem linkRead_spec (heap : Allocator) (noblock_ : Bool) {input : Buffer} (h : input.Fits)
    (reads : List (ReadAnswer Byte)) : (linkRead heap noblock_ input reads).Spec input reads := by
  obtain ⟨hfits, hcontent⟩ := readBuffer_spec heap h
  unfold linkRead
  dsimp only
  split
  · next hspace =>
      obtain ⟨hbytes, hfits', hrest, hnone, hpos⟩ :=
        @linkReadLoop_spec noblock_ reads (readBuffer heap input) hfits hspace
      rw [hcontent] at hbytes hpos
      exact ⟨hbytes, hfits', hrest, hnone, hpos⟩
  · refine ⟨?_, hfits, Nat.le_refl _, (fun hnone => by cases hnone), ?_⟩
    · rw [hcontent]
    · intro len hsome hpos
      cases hsome
      omega

/-! ## Room -/

/-- There is room for the next read, at the latest when the window has been moved. -/
structure HasRoom (input : Buffer) : Prop where
  fits : input.Fits
  total : 0 < input.total
  room : input.size = 0 ∨ 0 < input.space

theorem space_nice {b : Buffer} (h : b.Fits) : b.space ≤ b.nice.space := by
  have hdata := h.data
  rw [Buffer.nice_eq]
  split
  · show b.total - b.data - b.size ≤ b.total - 0 - b.size
    omega
  · exact Int.le_refl _

theorem space_nice_of_empty {b : Buffer} (h : b.Fits) (htotal : 0 < b.total) (hsize : b.size = 0) :
    0 < b.nice.space := by
  have hdata := h.data
  rw [Buffer.nice_eq]
  split
  · show 0 < b.total - 0 - b.size
    omega
  · next hle =>
      rw [Int.tdiv_eq_ediv_of_nonneg (by omega)] at hle
      show 0 < b.total - b.data - b.size
      omega

theorem readBuffer_space (heap : Allocator) {b : Buffer} (h : HasRoom b) :
    0 < (readBuffer heap b).space := by
  have hnice : 0 < b.nice.space := by
    rcases h.room with hsize | hpos
    · exact space_nice_of_empty h.fits h.total hsize
    · exact Int.lt_of_lt_of_le hpos (space_nice h.fits)
  unfold readBuffer
  dsimp only
  split
  · by_cases hgrows : b.Grows (heap.realloc b)
    · have hspace := h.fits.space_nonneg
      have hgrow := hgrows.space_lt
      exact Int.lt_of_lt_of_le (by omega) (space_nice (h.fits.realloc _))
    · rw [Buffer.realloc_of_not_grows hgrows]
      exact hnice
  · exact hnice

theorem total_nice (b : Buffer) : b.nice.total = b.total := by
  rw [Buffer.nice_eq]
  split <;> rfl

theorem total_realloc_le {b : Buffer} (h : b.Fits) (p : Option (Memory Byte)) :
    b.total ≤ (b.realloc p).total := by
  by_cases hgrows : b.Grows p
  · obtain ⟨q, rfl⟩ := Option.isSome_iff_exists.mp hgrows.2
    rw [Buffer.realloc_some hgrows.1]
    exact h.le_total_grow
  · rw [Buffer.realloc_of_not_grows hgrows]

theorem total_readBuffer (heap : Allocator) {b : Buffer} (h : b.Fits) (htotal : 0 < b.total) :
    0 < (readBuffer heap b).total := by
  unfold readBuffer
  dsimp only
  split
  · rw [total_nice]
    exact Int.lt_of_lt_of_le htotal (total_realloc_le h _)
  · rw [total_nice]
    exact htotal

/-- A window that fills its block and has not half of it in front is smaller than 512 MiB, or
`grow` asks for more than an `int` of bytes. -/
theorem growsIfFull_of_finds {input : Buffer} {p : Option (Memory Byte)} (h : input.Fits)
    (hp : p.isSome) (hsmall : input.size < 536870912) : input.GrowsIfFull p := by
  intro hfull
  have hfits := h.nice
  have hsize : input.nice.size = input.size := by
    rw [Buffer.nice_eq]
    split <;> rfl
  have hdata : input.nice.data ≤ input.nice.total.tdiv 2 := by
    rw [Buffer.nice_eq]
    split
    · have htotal := h.total
      have hdata := h.data
      have hsize := h.size
      show 0 ≤ input.total.tdiv 2
      rw [Int.tdiv_eq_ediv_of_nonneg (by omega)]
      omega
    · next hle => exact Int.not_lt.mp hle
  have htotal := hfits.total
  have hnonneg := hfits.data
  have hspace : input.nice.space =
      input.nice.total - input.nice.data - input.nice.size := rfl
  rw [Int.tdiv_eq_ediv_of_nonneg (by have := hfits.size; omega)] at hdata
  refine ⟨?_, hp⟩
  rw [INT_MAX, Buffer.grow]
  dsimp only
  split
  · omega
  · split <;> omega

/-- `parse` leaves room when it waits, unless `grow` fails. -/
theorem hasRoom_parse {input : Buffer} {p : Option (Memory Byte)} (h : input.Fits)
    (htotal : 0 < input.total) (hp : ∀ q ∈ p, input.nice.Keeps q) (hgrows : input.GrowsIfFull p)
    (hwait : parseText input.content = .wait) : HasRoom (input.parse p).2 := by
  have hspace := h.space_nonneg
  have hspace' := h.nice.space_nonneg
  obtain ⟨-, -, hfits, -⟩ := h.parse_wait hp hwait
  refine ⟨hfits, ?_, ?_⟩
  · unfold Buffer.parse
    split
    · exact htotal
    · simp only [hwait]
      split
      · split
        · next hfull =>
            rw [if_pos (hgrows hfull)]
            refine Int.lt_of_lt_of_le ?_ (total_realloc_le h.nice p)
            rw [total_nice]
            exact htotal
        · rw [total_nice]
          exact htotal
      · exact htotal
  · unfold Buffer.parse
    split
    · next hsize => exact .inl hsize
    · refine .inr ?_
      simp only [hwait]
      split
      · split
        · next hfull =>
            have hgrow := (hgrows hfull).space_lt
            rw [if_pos (hgrows hfull)]
            show 0 < (input.nice.realloc p).space
            omega
        · next hne =>
            show 0 < input.nice.space
            omega
      · next hne =>
          show 0 < input.space
          omega

/-! ## `response` -/

/-- How `response` ends. -/
inductive ResponseEnd where
  | returned (resp : Packet)
  | null
  | undefined
  /-- The next answer has not come. -/
  | waiting
  /-- The fuel was not enough. -/
  | fuel
deriving DecidableEq, Repr

/-- Where `response` stands. -/
structure Response where
  ending : ResponseEnd
  input : Buffer
  rest : List (ReadAnswer Byte)

/-- `while(1)` of `response`. -/
def responseLoop (heap : Allocator) (noblock_ : Bool) :
    Nat → Buffer → List (ReadAnswer Byte) → Response
  | 0, input, reads => ⟨.fuel, input, reads⟩
  | fuel + 1, input, reads =>
      match input.parse (heap.realloc input.nice) with
      | (.null, input) => ⟨.null, input, reads⟩
      | (.undefined, input) => ⟨.undefined, input, reads⟩
      | (.data resp, input) =>
          if resp = [] then
            match linkRead heap noblock_ input reads with
            | ⟨none, input, rest⟩ => ⟨.waiting, input, rest⟩
            | ⟨some len, input, rest⟩ =>
                if len ≤ 0 then ⟨.null, input, rest⟩
                else responseLoop heap noblock_ fuel input rest
          else ⟨.returned resp, input, reads⟩

/-- What goes down with every read that brings bytes. -/
def pending (reads : List (ReadAnswer Byte)) : Nat := (received reads).length + reads.length

/-- `Link::response`. -/
def response (heap : Allocator) (noblock_ : Bool) (input : Buffer)
    (reads : List (ReadAnswer Byte)) : Response :=
  responseLoop heap noblock_ (pending reads + 1) input reads

/-- A read that has brought bytes has used up some. -/
theorem LinkRead.Spec.pending_lt {input : Buffer} {reads : List (ReadAnswer Byte)} {r : LinkRead}
    (h : r.Spec input reads) {len : Int} (hlen : r.len = some len) (hpos : 0 < len) :
    pending r.rest < pending reads := by
  have hbytes := congrArg List.length h.bytes
  rw [List.length_append, List.length_append] at hbytes
  have hmore := h.pos len hlen hpos
  have hrest := h.rest
  rw [pending, pending]
  omega

/-- What `response` promises, for the bytes that were left and those that come. -/
structure Response.Spec (input : Buffer) (reads : List (ReadAnswer Byte)) (r : Response) :
    Prop where
  fits : r.input.Fits
  fuel : r.ending ≠ .fuel
  /-- A packet is what the bytes begin with, and the rest of them is left. -/
  returned : ∀ p, r.ending = .returned p → ∃ text, PacketText p text ∧
    input.content ++ received reads = text ++ (r.input.content ++ received r.rest)
  /-- Otherwise nothing has gone. -/
  kept : (∀ p, r.ending ≠ .returned p) →
    r.input.content ++ received r.rest = input.content ++ received reads
  /-- It waits when all has been read and is no packet. -/
  waiting : r.ending = .waiting → r.rest = []

section Response

variable {heap : Allocator} {noblock_ : Bool} {input : Buffer} {reads : List (ReadAnswer Byte)}
  {fuel : Nat}

/-- One iteration, when `parse` finds a packet. -/
theorem responseLoop_ready (h : input.Fits) {p : Packet} {used : Nat}
    (hready : parseText input.content = .ready p used) :
    ∃ b, responseLoop heap noblock_ (fuel + 1) input reads = ⟨.returned p, b, reads⟩ ∧
      b.Fits ∧ b.content = input.content.drop used := by
  obtain ⟨hdata, hne, hfits, hcontent⟩ := h.parse_ready (heap.realloc input.nice) hready
  refine ⟨(input.parse (heap.realloc input.nice)).2, ?_, hfits, hcontent⟩
  have hparse : input.parse (heap.realloc input.nice) =
      (.data p, (input.parse (heap.realloc input.nice)).2) := Prod.ext hdata rfl
  rw [responseLoop, hparse]
  exact if_neg hne

/-- One iteration, when the text is refused. -/
theorem responseLoop_bad {e : BadPacket} (hbad : parseText input.content = .bad e) :
    responseLoop heap noblock_ (fuel + 1) input reads = ⟨.null, input, reads⟩ ∨
      responseLoop heap noblock_ (fuel + 1) input reads = ⟨.undefined, input, reads⟩ := by
  obtain ⟨hnot, hinput⟩ := Buffer.parse_bad (heap.realloc input.nice) hbad
  have hparse : input.parse (heap.realloc input.nice) =
      ((input.parse (heap.realloc input.nice)).1, input) := Prod.ext rfl hinput
  rw [responseLoop, hparse]
  cases hparsed : (input.parse (heap.realloc input.nice)).1 with
  | data recv_data => exact absurd hparsed (hnot recv_data)
  | null => exact .inl rfl
  | undefined => exact .inr rfl

/-- One iteration, when `parse` waits and `grow` does not fail: a read, and the loop goes on if it
has brought bytes. -/
theorem responseLoop_wait
    (hdata : (input.parse (heap.realloc input.nice)).1 = .data []) :
    let b := (input.parse (heap.realloc input.nice)).2
    responseLoop heap noblock_ (fuel + 1) input reads =
      match (linkRead heap noblock_ b reads).len with
      | none => ⟨.waiting, (linkRead heap noblock_ b reads).input,
          (linkRead heap noblock_ b reads).rest⟩
      | some len =>
          if len ≤ 0 then ⟨.null, (linkRead heap noblock_ b reads).input,
            (linkRead heap noblock_ b reads).rest⟩
          else responseLoop heap noblock_ fuel (linkRead heap noblock_ b reads).input
            (linkRead heap noblock_ b reads).rest := by
  have hparse : input.parse (heap.realloc input.nice) =
      (.data [], (input.parse (heap.realloc input.nice)).2) := Prod.ext hdata rfl
  rw [responseLoop, hparse]
  dsimp only
  rw [if_pos rfl]
  rcases linkRead heap noblock_ (input.parse (heap.realloc input.nice)).2 reads with
    ⟨_ | len, b, rest⟩ <;> rfl

/-- One iteration, when `grow` fails. -/
theorem responseLoop_null (hnull : (input.parse (heap.realloc input.nice)).1 = .null) :
    responseLoop heap noblock_ (fuel + 1) input reads =
      ⟨.null, (input.parse (heap.realloc input.nice)).2, reads⟩ := by
  have hparse : input.parse (heap.realloc input.nice) =
      (.null, (input.parse (heap.realloc input.nice)).2) := Prod.ext hnull rfl
  rw [responseLoop, hparse]

theorem responseLoop_spec (h : input.Fits) (hfuel : pending reads < fuel) :
    (responseLoop heap noblock_ fuel input reads).Spec input reads := by
  induction fuel generalizing input reads with
  | zero => exact absurd hfuel (Nat.not_lt_zero _)
  | succ fuel ih =>
      cases hverdict : parseText input.content with
      | ready p used =>
          obtain ⟨b, hloop, hfits, hcontent⟩ := @responseLoop_ready heap noblock_ input reads fuel
            h p used hverdict
          rw [hloop]
          obtain ⟨text, rest, htext, heq, rfl⟩ := parseText_iff.mp hverdict
          refine ⟨hfits, by simp, ?_, fun hnot => absurd rfl (hnot p), by simp⟩
          intro q hq
          cases hq
          refine ⟨text, htext, ?_⟩
          rw [hcontent, heq, List.drop_left, List.append_assoc]
      | bad e =>
          rcases @responseLoop_bad heap noblock_ input reads fuel e hverdict with hloop | hloop
          · rw [hloop]
            exact ⟨h, by simp, by simp, fun _ => rfl, by simp⟩
          · rw [hloop]
            exact ⟨h, by simp, by simp, fun _ => rfl, by simp⟩
      | wait =>
          obtain ⟨hdata | hnull, -, hfits, hcontent⟩ :=
            h.parse_wait (heap.keeps input.nice) hverdict
          · have hread := linkRead_spec heap noblock_ hfits reads
            have hbytes := hread.bytes
            rw [hcontent] at hbytes
            rw [responseLoop_wait hdata]
            generalize (input.parse (heap.realloc input.nice)).2 = b at *
            cases hlen : (linkRead heap noblock_ b reads).len with
            | none =>
                exact ⟨hread.fits, by simp, by simp, fun _ => hbytes, fun _ => hread.none hlen⟩
            | some len =>
                dsimp only
                split
                · exact ⟨hread.fits, by simp, by simp, fun _ => hbytes, by simp⟩
                · next hpos =>
                    have hlt := hread.pending_lt hlen (Int.not_le.mp hpos)
                    obtain ⟨hfits', hfuel', hreturned, hkept, hwaiting⟩ :=
                      ih hread.fits (Nat.lt_of_lt_of_le hlt (Nat.lt_succ_iff.mp hfuel))
                    rw [hbytes] at hreturned hkept
                    exact ⟨hfits', hfuel', hreturned, hkept, hwaiting⟩
          · rw [responseLoop_null hnull]
            refine ⟨hfits, by simp, by simp, fun _ => ?_, by simp⟩
            rw [hcontent]

end Response

/-! ## A socket that does not fail -/

/-- Every read brings bytes or is interrupted. -/
def Brings (reads : List (ReadAnswer Byte)) : Prop :=
  ∀ a ∈ reads, (∃ b bytes, a = .data (b :: bytes)) ∨ a = .fail EINTR

/-- A blocking `read` returns with the first bytes that come. -/
theorem linkReadLoop_brings {reads : List (ReadAnswer Byte)} (h : Brings reads) {input : Buffer}
    (hspace : 0 < input.space) :
    ((linkReadLoop false input 0 reads).len = none ∧ received reads = []) ∨
      (∃ len, (linkReadLoop false input 0 reads).len = some len ∧ 0 < len) ∧
        Brings (linkReadLoop false input 0 reads).rest := by
  induction reads with
  | nil => exact .inl ⟨rfl, rfl⟩
  | cons a rest ih =>
      have hrest : Brings rest := fun a ha => h a (List.mem_cons_of_mem _ ha)
      rcases h a List.mem_cons_self with ⟨b, bytes, rfl⟩ | rfl
      · refine .inr ?_
        simp only [linkReadLoop, or_true, if_true]
        refine ⟨⟨_, rfl, ?_⟩, ?_⟩
        · rw [List.length_take, List.length_cons]
          omega
        · intro a ha
          cases hdrop : (b :: bytes).drop input.space.toNat with
          | nil =>
              rw [hdrop] at ha
              exact hrest a ha
          | cons c more =>
              rw [hdrop] at ha
              rcases List.mem_cons.mp ha with rfl | ha
              · exact .inl ⟨c, more, rfl⟩
              · exact hrest a ha
      · exact ih hrest

theorem total_linkReadLoop {noblock_ : Bool} {input : Buffer} (h : input.Fits)
    (hspace : 0 < input.space) (reads : List (ReadAnswer Byte)) :
    (linkReadLoop noblock_ input 0 reads).input.total = input.total := by
  rw [linkReadLoop_eq.1]
  exact (msgReadLoop_spec h hspace).total

section Blocking

variable {heap : Allocator} {p : Packet}

theorem responseLoop_brings (hheap : ∀ b, (heap.realloc b).isSome) :
    ∀ {fuel : Nat} {input : Buffer} {reads : List (ReadAnswer Byte)}, pending reads < fuel →
      input.Fits → 0 < input.total → Brings reads →
      (input.content ++ received reads).length < 536870912 →
      (∃ used, parseText (input.content ++ received reads) = .ready p used) →
      (responseLoop heap false fuel input reads).ending = .returned p := by
  intro fuel
  induction fuel with
  | zero => exact fun hfuel => absurd hfuel (Nat.not_lt_zero _)
  | succ fuel ih =>
      rintro input reads hfuel h htotal hreads hsmall ⟨used, hwhole⟩
      cases hverdict : parseText input.content with
      | ready q n =>
          obtain ⟨b, hloop, -, -⟩ := @responseLoop_ready heap false input reads fuel h q n hverdict
          cases (packets.ready_append (received reads) hverdict).symm.trans hwhole
          rw [hloop]
      | bad e => cases (packets.bad_append (received reads) hverdict).symm.trans hwhole
      | wait =>
          have hgrows : input.GrowsIfFull (heap.realloc input.nice) := by
            refine growsIfFull_of_finds h (hheap _) ?_
            have hlen := input.length_content
            have hsize := h.size
            rw [List.length_append] at hsmall
            omega
          obtain ⟨-, hdata, hfits, hcontent⟩ := h.parse_wait (heap.keeps input.nice) hverdict
          have hroom := hasRoom_parse h htotal (heap.keeps input.nice) hgrows hverdict
          have hspace := readBuffer_space heap hroom
          rw [responseLoop_wait (hdata hgrows)]
          generalize (input.parse (heap.realloc input.nice)).2 = b at *
          have hread := linkRead_spec heap false hfits reads
          have hbytes := hread.bytes
          have heq : linkRead heap false b reads = linkReadLoop false (readBuffer heap b) 0 reads :=
            if_pos hspace
          rw [hcontent] at hbytes
          rcases linkReadLoop_brings hreads hspace with ⟨-, hnil⟩ | ⟨⟨len, hlen, hpos⟩, hrest⟩
          · -- nothing more comes, so the packet would have been there
            rw [hnil, List.append_nil] at hwhole
            cases hverdict.symm.trans hwhole
          · rw [← heq] at hlen hrest
            have htotal' : 0 < (linkRead heap false b reads).input.total := by
              rw [heq, total_linkReadLoop (readBuffer_spec heap hfits).1 hspace]
              exact total_readBuffer heap hfits hroom.total
            have hlt := hread.pending_lt hlen hpos
            simp only [hlen, if_neg (Int.not_le.mpr hpos)]
            refine ih (Nat.lt_of_lt_of_le hlt (Nat.lt_succ_iff.mp hfuel)) hread.fits htotal' hrest
              ?_ ⟨used, ?_⟩
            · rw [hbytes]
              exact hsmall
            · rw [hbytes]
              exact hwhole

/-- On a blocking socket that does not fail, `response` returns a packet exactly if the bytes
that were left and those that come begin with its text, as long as there is memory and these
bytes are fewer than 512 MiB. -/
theorem response_returned_iff (hheap : ∀ b, (heap.realloc b).isSome) {input : Buffer}
    (h : input.Fits) (htotal : 0 < input.total) {reads : List (ReadAnswer Byte)}
    (hreads : Brings reads) (hsmall : (input.content ++ received reads).length < 536870912) :
    (response heap false input reads).ending = .returned p ↔
      ∃ text rest, PacketText p text ∧ input.content ++ received reads = text ++ rest := by
  have hspec : (response heap false input reads).Spec input reads :=
    responseLoop_spec h (Nat.lt_succ_self (pending reads))
  constructor
  · intro hreturned
    obtain ⟨text, htext, hbytes⟩ := hspec.returned p hreturned
    exact ⟨text, _, htext, hbytes⟩
  · rintro ⟨text, rest, htext, hbytes⟩
    exact responseLoop_brings hheap (Nat.lt_succ_self _) h htotal hreads hsmall
      ⟨_, parseText_iff.mpr ⟨text, rest, htext, hbytes, rfl⟩⟩

end Blocking

/-! ## `flush` -/

/-- How `flush` ends. -/
inductive FlushEnd where
  | returned (len : Int)
  /-- The next answer has not come. -/
  | waiting
  /-- The fuel was not enough. -/
  | fuel
deriving DecidableEq, Repr

/-- Where `flush` stands. -/
structure Flush where
  ending : FlushEnd
  output : Buffer
  wire : List Byte
  rest : List WriteAnswer

/-- `while(!output->empty())`.  `write` is the same function as `msg_write`. -/
def flushLoop (noblock_ : Bool) :
    Nat → Buffer → Int → List Byte → List WriteAnswer → Flush
  | 0, output, _, wire, writes => ⟨.fuel, output, wire, writes⟩
  | fuel + 1, output, len, wire, writes =>
      if output.size = 0 then ⟨.returned len, output, wire, writes⟩
      else
        match msgWrite noblock_ output writes with
        | ⟨none, output, more, rest⟩ => ⟨.waiting, output, wire ++ more, rest⟩
        | ⟨some ret, output, more, rest⟩ =>
            if ret = -1 then ⟨.returned (-1), output, wire ++ more, rest⟩
            else flushLoop noblock_ fuel output (len + ret) (wire ++ more) rest

/-- What goes down with every write. -/
def outstanding (writes : List WriteAnswer) : Nat := accepted writes + writes.length

/-- `Link::flush`. -/
def flush (noblock_ : Bool) (output : Buffer) (writes : List WriteAnswer) : Flush :=
  flushLoop noblock_ (outstanding writes + 1) output 0 [] writes

theorem length_pushBackCount_le (n : Nat) (rest : List WriteAnswer) :
    (pushBackCount n rest).length ≤ rest.length + 1 := by
  cases n with
  | zero => exact Nat.le_succ _
  | succ n => exact Nat.le_refl _

/-- What `write` leaves: a buffer, fewer answers, and none at all if it waits. -/
structure MsgWrite.Leaves (writes : List WriteAnswer) (w : MsgWrite) : Prop where
  fits : w.smsg.Fits
  le : outstanding w.rest ≤ outstanding writes
  lt : w.len ≠ none → outstanding w.rest < outstanding writes
  waiting : w.len = none → w.rest = [] ∧ 0 < w.smsg.size
  failed : WriteFailed w.rest → WriteFailed writes

theorem WriteFailed.cons {a : WriteAnswer} {rest : List WriteAnswer} :
    WriteFailed rest → WriteFailed (a :: rest)
  | ⟨e, he, hg⟩ => ⟨e, List.mem_cons_of_mem _ he, hg⟩

theorem writeFailed_pushBackCount {n : Nat} {rest : List WriteAnswer} :
    WriteFailed (pushBackCount n rest) ↔ WriteFailed rest := by
  cases n with
  | zero => exact Iff.rfl
  | succ n => exact writeFailed_count

theorem msgWriteLoop_leaves {noblock_ : Bool} {writes : List WriteAnswer} :
    ∀ {smsg : Buffer} {ret : Int} {wire : List Byte}, smsg.Fits → 0 < smsg.size →
      (msgWriteLoop noblock_ smsg ret wire writes).Leaves writes := by
  induction writes with
  | nil =>
      exact fun h hsize => ⟨h, Nat.le_refl _, fun hsome => absurd rfl hsome,
        fun _ => ⟨rfl, hsize⟩, id⟩
  | cons a rest ih =>
      intro smsg ret wire h hsize
      have hskip : ∀ a : WriteAnswer, outstanding rest < outstanding (a :: rest) := by
        intro a
        cases a with
        | count n =>
            rw [outstanding, outstanding, accepted_count, List.length_cons]
            omega
        | fail e => exact Nat.lt_succ_self _
      rcases a with n | e
      · cases n with
        | zero =>
            exact ⟨h.nice, Nat.le_of_lt (hskip _), fun _ => hskip _, (fun hnone => by cases hnone),
              WriteFailed.cons⟩
        | succ n =>
            have hle : ((min (n + 1) smsg.size.toNat : Nat) : Int) ≤ smsg.size := by omega
            simp only [msgWriteLoop]
            split
            · have hlt : outstanding (pushBackCount (n + 1 - smsg.size.toNat) rest) <
                  outstanding (.count (n + 1) :: rest) := by
                have hlen := length_pushBackCount_le (n + 1 - smsg.size.toNat) rest
                rw [outstanding, outstanding, accepted_pushBackCount, accepted_count,
                  List.length_cons]
                omega
              exact ⟨(h.decr hle).nice, Nat.le_of_lt hlt, fun _ => hlt,
                (fun hnone => by cases hnone), fun hf => (writeFailed_pushBackCount.mp hf).cons⟩
            · next hmore =>
                obtain ⟨hfits, hrest, -, hwaiting, hfailed⟩ :=
                  @ih _ (ret + (min (n + 1) smsg.size.toNat : Nat))
                    (wire ++ smsg.content.take (min (n + 1) smsg.size.toNat)) (h.decr hle)
                    (by omega)
                have hlt := Nat.lt_of_le_of_lt hrest (hskip (.count (n + 1)))
                exact ⟨hfits, Nat.le_of_lt hlt, fun _ => hlt, hwaiting, fun hf => (hfailed hf).cons⟩
      · simp only [msgWriteLoop]
        split
        · obtain ⟨hfits, hrest, -, hwaiting, hfailed⟩ := @ih smsg ret wire h hsize
          have hlt := Nat.lt_of_le_of_lt hrest (hskip (.fail e))
          exact ⟨hfits, Nat.le_of_lt hlt, fun _ => hlt, hwaiting, fun hf => (hfailed hf).cons⟩
        · split
          · exact ⟨h.nice, Nat.le_of_lt (hskip _), fun _ => hskip _, (fun hnone => by cases hnone),
              WriteFailed.cons⟩
          · exact ⟨h, Nat.le_of_lt (hskip _), fun _ => hskip _, (fun hnone => by cases hnone),
              WriteFailed.cons⟩

theorem msgWrite_leaves (noblock_ : Bool) {smsg : Buffer} (h : smsg.Fits) (hsize : 0 < smsg.size)
    (writes : List WriteAnswer) : (msgWrite noblock_ smsg writes).Leaves writes := by
  unfold msgWrite
  dsimp only
  split
  · rw [Buffer.size_grow, if_pos hsize]
    exact msgWriteLoop_leaves h.grow hsize
  · exact msgWriteLoop_leaves h hsize

/-- What `flush` promises: the socket took the bytes in order. -/
structure Flush.Spec (output : Buffer) (len : Int) (wire : List Byte) (writes : List WriteAnswer)
    (f : Flush) : Prop where
  fits : f.output.Fits
  fuel : f.ending ≠ .fuel
  /-- The socket took `sent` off the front. -/
  sent : ∃ sent, f.wire = wire ++ sent ∧ sent ++ f.output.content = output.content ∧
    sent.length + accepted f.rest = accepted writes
  /-- It returns how many bytes there were when all are gone, and -1 if the socket fails. -/
  returned : ∀ n, f.ending = .returned n →
    f.output.content = [] ∧ n = len + output.size ∨ n = -1 ∧ WriteFailed writes
  waiting : f.ending = .waiting → f.rest = [] ∧ f.output.content ≠ []

theorem flushLoop_spec {noblock_ : Bool} {fuel : Nat} :
    ∀ {output : Buffer} {len : Int} {wire : List Byte} {writes : List WriteAnswer},
      output.Fits → outstanding writes < fuel →
      (flushLoop noblock_ fuel output len wire writes).Spec output len wire writes := by
  induction fuel with
  | zero => exact fun _ hfuel => absurd hfuel (Nat.not_lt_zero _)
  | succ fuel ih =>
      intro output len wire writes h hfuel
      have hpos := h.size
      rw [flushLoop]
      split
      · next hzero =>
          have hnil := Buffer.content_eq_nil hzero
          refine ⟨h, by simp, ⟨[], (List.append_nil _).symm, rfl, Nat.zero_add _⟩, ?_, by simp⟩
          intro n hn
          cases hn
          exact .inl ⟨hnil, by omega⟩
      · next hne =>
          have hsize : 0 < output.size := by omega
          obtain ⟨sent, hwire, hcontent, htaken, hlen, -⟩ := msgWrite_spec noblock_ output writes
          obtain ⟨hfits, -, hlt, hwaiting, hfailed⟩ := msgWrite_leaves noblock_ h hsize writes
          generalize msgWrite noblock_ output writes = w at *
          obtain ⟨ret, b, more, rest⟩ := w
          have hmore : more = sent := hwire
          rw [hmore]
          cases ret with
          | none =>
              obtain ⟨hnil, hleft⟩ := hwaiting rfl
              refine ⟨hfits, by simp, ⟨sent, rfl, hcontent, htaken⟩, by simp, fun _ => ⟨hnil, ?_⟩⟩
              intro hcnil
              have hzero := b.length_content
              rw [hcnil, List.length_nil] at hzero
              have hleft' : 0 < b.size := hleft
              omega
          | some ret =>
              dsimp only
              split
              · next herr =>
                  refine ⟨hfits, by simp, ⟨sent, rfl, hcontent, htaken⟩, ?_, by simp⟩
                  intro n hn
                  cases hn
                  rcases hlen ret rfl with hok | ⟨-, hf⟩
                  · omega
                  · exact .inr ⟨rfl, hf⟩
              · next hok =>
                  have hret : ret = sent.length := by
                    rcases hlen ret rfl with heq | ⟨herr, -⟩
                    · rw [heq, Int.zero_add]
                    · exact absurd herr hok
                  obtain ⟨hfits', hfuel', ⟨sent', hwire', hcontent', htaken'⟩, hreturned,
                    hwaiting'⟩ :=
                    @ih b (len + ret) (wire ++ sent) rest hfits
                      (Nat.lt_of_lt_of_le (hlt (by simp)) (Nat.lt_succ_iff.mp hfuel))
                  refine ⟨hfits', hfuel', ⟨sent ++ sent', ?_, ?_, ?_⟩, ?_, hwaiting'⟩
                  · rw [hwire', List.append_assoc]
                  · rw [List.append_assoc, hcontent']
                    exact hcontent
                  · have htaken'' : sent.length + accepted rest = accepted writes := htaken
                    rw [List.length_append]
                    omega
                  · intro n hn
                    refine (hreturned n hn).imp ?_ fun ⟨herr, hf⟩ => ⟨herr, hfailed hf⟩
                    rintro ⟨hnil, heq⟩
                    have hsum := congrArg List.length hcontent
                    rw [List.length_append, Buffer.length_content, Buffer.length_content] at hsum
                    have hsum' : sent.length + b.size.toNat = output.size.toNat := hsum
                    have hbsize : 0 ≤ b.size := hfits.size
                    exact ⟨hnil, by omega⟩

/-- `flush` ends with an empty buffer when everything was taken, and waits for more room as long
as it was not, unless the socket fails. -/
theorem flush_spec (noblock_ : Bool) {output : Buffer} (h : output.Fits)
    (writes : List WriteAnswer) : (flush noblock_ output writes).Spec output 0 [] writes :=
  flushLoop_spec h (Nat.lt_succ_self _)

/-! ## `request` -/

/-- Where `request` stands. -/
structure Request where
  ending : ResponseEnd
  output : Buffer
  wire : List Byte
  writes : List WriteAnswer
  input : Buffer
  reads : List (ReadAnswer Byte)

/-- `Link::request`. -/
def request (heap : Allocator) (noblock_ : Bool) (output input : Buffer) (p : Packet)
    (writes : List WriteAnswer) (reads : List (ReadAnswer Byte)) : Request :=
  match flush noblock_ (sendBytes heap output p).2 writes with
  | ⟨.waiting, output, wire, writes⟩ => ⟨.waiting, output, wire, writes, input, reads⟩
  | ⟨.fuel, output, wire, writes⟩ => ⟨.fuel, output, wire, writes, input, reads⟩
  | ⟨.returned len, output, wire, writes⟩ =>
      if len = -1 then ⟨.null, output, wire, writes, input, reads⟩
      else
        let r := response heap noblock_ input reads
        ⟨r.ending, output, wire, writes, r.input, r.rest⟩

section Request

variable {heap : Allocator} {noblock_ : Bool} {output input : Buffer} {p q : Packet}
  {writes : List WriteAnswer} {reads : List (ReadAnswer Byte)}

/-- A request goes through `flush` and ends in `response`. -/
theorem request_eq {len : Int}
    (hflush : (flush noblock_ (sendBytes heap output p).2 writes).ending = .returned len)
    (hlen : len ≠ -1) :
    request heap noblock_ output input p writes reads =
      ⟨(response heap noblock_ input reads).ending,
        (flush noblock_ (sendBytes heap output p).2 writes).output,
        (flush noblock_ (sendBytes heap output p).2 writes).wire,
        (flush noblock_ (sendBytes heap output p).2 writes).rest,
        (response heap noblock_ input reads).input,
        (response heap noblock_ input reads).rest⟩ := by
  unfold request
  generalize flush noblock_ (sendBytes heap output p).2 writes = f at hflush
  obtain ⟨ending, output', wire', writes'⟩ := f
  cases hflush
  exact if_neg hlen

theorem flush_of_returned
    (h : (request heap noblock_ output input p writes reads).ending = .returned q) :
    ∃ len, (flush noblock_ (sendBytes heap output p).2 writes).ending = .returned len ∧
      len ≠ -1 := by
  unfold request at h
  split at h
  · cases h
  · cases h
  · next len output' wire' writes' hflush =>
      rw [hflush]
      split at h
      · cases h
      · next hne => exact ⟨len, rfl, hne⟩

/-- What is to be written has been taken exactly if there was room for it. -/
theorem flush_returned_iff (houtput : output.Fits) (hp : Sendable p)
    (hsends : (sendBytes heap output p).1 = true) (hwrites : ¬ WriteFailed writes) :
    (∃ len, (flush noblock_ (sendBytes heap output p).2 writes).ending = .returned len ∧ len ≠ -1) ↔
      (output.content ++ packetText p).length ≤ accepted writes := by
  obtain ⟨hfits, hsent⟩ := sendBytes_spec heap houtput hp
  obtain ⟨-, hfuel, ⟨sent, -, hcontent, htaken⟩, hreturned, hwaiting⟩ :=
    flush_spec noblock_ hfits writes
  generalize flush noblock_ (sendBytes heap output p).2 writes = f at *
  have hsum := congrArg List.length hcontent
  rw [List.length_append, hsent hsends] at hsum
  cases hending : f.ending with
  | fuel => exact absurd hending hfuel
  | waiting =>
      -- the answers are used up, and bytes are left
      obtain ⟨hnil, hne⟩ := hwaiting hending
      have hleft := List.length_pos_iff.mpr hne
      rw [hnil, accepted_nil] at htaken
      constructor
      · rintro ⟨len, hlen, -⟩
        cases hlen
      · intro hroom
        omega
  | returned len =>
      rcases hreturned len hending with ⟨hnil, heq⟩ | ⟨-, hf⟩
      · have hsize := hfits.size
        rw [hnil, List.length_nil] at hsum
        exact ⟨fun _ => by omega, fun _ => ⟨len, rfl, by omega⟩⟩
      · exact absurd hf hwrites

/-- `request` returns the packet that the input begins with, when all can be written. -/
theorem request_returned (hheap : ∀ b, (heap.realloc b).isSome) (houtput : output.Fits)
    (hinput : input.Fits) (htotal : 0 < input.total) (hp : Sendable p)
    (hsends : (sendBytes heap output p).1 = true) (hwrites : ¬ WriteFailed writes)
    (hreads : Brings reads) (hsmall : (input.content ++ received reads).length < 536870912)
    (hroom : (output.content ++ packetText p).length ≤ accepted writes)
    (hbegins : ∃ text rest, PacketText q text ∧ input.content ++ received reads = text ++ rest) :
    (request heap false output input p writes reads).ending = .returned q := by
  obtain ⟨len, hflush, hlen⟩ := (flush_returned_iff houtput hp hsends hwrites).mpr hroom
  rw [request_eq hflush hlen]
  exact (response_returned_iff hheap hinput htotal hreads hsmall).mpr hbegins

/-- An empty buffer. -/
def emptyBuffer (id : Nat) : Buffer := Buffer.ofTotal id (fun _ => 0) INIT_BUFFER_SIZE

theorem emptyBuffer_fits (id : Nat) : (emptyBuffer id).Fits :=
  Buffer.fits_ofTotal id (fun _ => 0)

/-- The answer `ok` comes in two pieces. -/
def okReads : List (ReadAnswer Byte) := [.data [50, LF, 111], .fail EINTR, .data [107, LF, LF, 7]]

/-- The question `k` is taken in three pieces. -/
def kWrites : List WriteAnswer := [.count 2, .fail EINTR, .count 0, .count 1, .count 9]

theorem okReads_brings : Brings okReads := by
  intro a ha
  simp only [okReads, List.mem_cons, List.not_mem_nil, or_false] at ha
  rcases ha with rfl | rfl | rfl
  · exact .inl ⟨50, [LF, 111], rfl⟩
  · exact .inr rfl
  · exact .inl ⟨107, [LF, LF, 7], rfl⟩

theorem okReads_begins :
    ∃ text rest, PacketText [[111, 107]] text ∧
      (emptyBuffer 1).content ++ received okReads = text ++ rest :=
  ⟨packetText [[111, 107]], [7], Sendable.packetText (by decide), by decide⟩

/-- When `request` returns a packet and no `grow` of its `send` failed, everything in the output
buffer and the text of what was asked have been written, and the bytes of the input begin with
the text of the packet.  What is behind it is left. -/
theorem request_spec (houtput : output.Fits) (hinput : input.Fits) (hp : Sendable p)
    (hsends : (sendBytes heap output p).1 = true)
    (h : (request heap noblock_ output input p writes reads).ending = .returned q) :
    (request heap noblock_ output input p writes reads).wire = output.content ++ packetText p ∧
      (request heap noblock_ output input p writes reads).output.content = [] ∧
      ∃ text, PacketText q text ∧ input.content ++ received reads = text ++
        ((request heap noblock_ output input p writes reads).input.content ++
          received (request heap noblock_ output input p writes reads).reads) := by
  obtain ⟨len, hflush, hlen⟩ := flush_of_returned h
  rw [request_eq hflush hlen] at h ⊢
  obtain ⟨hfits, hsent⟩ := sendBytes_spec heap houtput hp
  obtain ⟨-, -, ⟨sent, hwire, hcontent, -⟩, hreturned, -⟩ := flush_spec noblock_ hfits writes
  have hempty : (flush noblock_ (sendBytes heap output p).2 writes).output.content = [] := by
    rcases hreturned len hflush with ⟨hnil, -⟩ | ⟨herr, -⟩
    · exact hnil
    · exact absurd herr hlen
  rw [hempty, List.append_nil, hsent hsends] at hcontent
  rw [List.nil_append, hcontent] at hwire
  exact ⟨hwire, hempty,
    (responseLoop_spec hinput (Nat.lt_succ_self (pending reads))).returned q h⟩

theorem request_spec_ok :
    (request sameBlock false (emptyBuffer 0) (emptyBuffer 1) [[107]] kWrites okReads).wire =
      [49, LF, 107, LF, LF] := by
  have hsends : (sendBytes sameBlock (emptyBuffer 0) [[107]]).1 = true :=
    sendBytes_finds (fun _ => rfl) (by decide) (by decide)
  exact (request_spec (q := [[111, 107]]) (emptyBuffer_fits 0) (emptyBuffer_fits 1) (by decide)
    hsends (request_returned (fun _ => rfl) (emptyBuffer_fits 0) (emptyBuffer_fits 1) (by decide)
      (by decide) hsends (by decide) okReads_brings (by decide) (by decide) okReads_begins)).1

/-- On a blocking socket that does not fail, `request` returns a packet exactly if the socket
takes all that is to be written and the bytes of the input begin with the text of the packet, as
long as no `grow` fails: there is memory, and both buffers stay below 512 MiB. -/
theorem request_returned_iff (hheap : ∀ b, (heap.realloc b).isSome) (houtput : output.Fits)
    (hslot : output.slot ≤ 536870912) (hinput : input.Fits) (htotal : 0 < input.total)
    (hsmall : (input.content ++ received reads).length < 536870912) (hp : Sendable p)
    (hwrites : ¬ WriteFailed writes) (hreads : Brings reads) :
    (request heap false output input p writes reads).ending = .returned q ↔
      (output.content ++ packetText p).length ≤ accepted writes ∧
        ∃ text rest, PacketText q text ∧ input.content ++ received reads = text ++ rest := by
  have hsends := sendBytes_finds hheap hp hslot
  constructor
  · intro h
    obtain ⟨len, hflush, hlen⟩ := flush_of_returned h
    refine ⟨(flush_returned_iff houtput hp hsends hwrites).mp ⟨len, hflush, hlen⟩, ?_⟩
    rw [request_eq hflush hlen] at h
    exact (response_returned_iff hheap hinput htotal hreads hsmall).mp h
  · rintro ⟨hroom, hbegins⟩
    exact request_returned hheap houtput hinput htotal hp hsends hwrites hreads hsmall hroom hbegins

theorem request_returned_iff_ok :
    (request sameBlock false (emptyBuffer 0) (emptyBuffer 1) [[107]] kWrites okReads).ending =
      .returned [[111, 107]] :=
  (request_returned_iff (fun _ => rfl) (emptyBuffer_fits 0) (by decide) (emptyBuffer_fits 1)
    (by decide) (by decide) (by decide) (by decide) okReads_brings).mpr
    ⟨by decide, okReads_begins⟩

end Request

end KvServer.Server5204
