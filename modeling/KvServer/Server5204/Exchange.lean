import KvServer.Server5204.PacketStream

/-!
# Exchanging packets

Two links speak to each other.  One puts packets into its output buffer and writes from it when
the socket takes bytes.  The other reads when there are bytes, into its input buffer, and asks
`parse` for the next packet.  All of this happens in any order and any piece by piece, and
between the calls the buffers are moved and enlarged.

*The receiving end.*  `inbox` is an input buffer with everything that is done to it.  Every run
of it is a run of the decoder of `packets` (`inbox_refines`), so the packets depend on the bytes
alone and not on the pieces they come in (`inbox_chunking`).

*Both ends.*  `direction` is one direction of a connection.  What has arrived, what is under way
and what is still in the output buffer are the text of what was sent (`Direction.Inv`).  So the
packets that were taken out are the first of those sent, in order, and `parse` never refuses
anything (`delivered_in_order`).
-/

namespace KvServer.Server5204

open Testclient Util

/-! ## What the functions do to a buffer -/

namespace Buffer

/-- What `parse` returns.  An empty list says that it is not ready. -/
inductive Parsed where
  | data (recv_data : Packet)
  /-- NULL -/
  | null
  /-- The sum of two lengths is no `int`. -/
  | undefined
deriving DecidableEq, Repr

/-- `Link::parse`.  `grown` is what `realloc` returns if `grow` is called. -/
def parse (input : Buffer) (grown : Option (Memory Byte)) : Parsed × Buffer :=
  if input.size = 0 then (.data [], input)
  else
    match parseText input.content with
    | .ready recv_data parsed => (.data recv_data, input.decr parsed)
    | .bad .format => (.null, input)
    | .bad .overflow => (.undefined, input)
    | .wait =>
        if input.space = 0 then
          let input := input.nice
          if input.space = 0 then
            if input.Grows grown then (.data [], input.realloc grown) else (.null, input)
          else (.data [], input)
        else (.data [], input)

theorem fits_ofTotal (id : Nat) (buf : Memory Byte) : (ofTotal id buf INIT_BUFFER_SIZE).Fits :=
  ⟨Int.le_refl 0, Int.le_refl 0, show (0 : Int) + 0 ≤ 1024 by decide⟩

theorem Fits.space_nonneg {b : Buffer} (h : b.Fits) : 0 ≤ b.space := by
  have htotal := h.total
  show 0 ≤ b.total - b.data - b.size
  omega

theorem Fits.grow {b : Buffer} (h : b.Fits) : b.grow.Fits :=
  ⟨h.data, h.size, Int.le_trans h.total h.le_total_grow⟩

/-- What making room promises: the content stays, and there is room unless `grow` fails. -/
structure MadeRoom (b : Buffer) (want : Int) (r : Bool × Buffer) : Prop where
  fits : r.2.Fits
  content : r.2.content = b.content
  room : r.1 = true → want ≤ r.2.space

theorem makeRoom_spec (heap : Allocator) {b : Buffer} (h : b.Fits) (want : Int) :
    MadeRoom b want (b.makeRoom heap want) := by
  induction hn : (want - b.space).toNat using Nat.strongRecOn generalizing b with
  | ind n ih =>
      rw [makeRoom]
      split
      · split
        · next hgrows =>
            have hspace := hgrows.space_lt
            have hcontent := h.content_realloc (heap.keeps b)
            obtain ⟨hfits, hcontent', hroom⟩ :=
              ih (want - (b.realloc (heap.realloc b)).space).toNat (by omega) (h.realloc _) rfl
            exact ⟨hfits, hcontent'.trans hcontent, hroom⟩
        · exact ⟨h, rfl, fun hok => by cases hok⟩
      · next hle => exact ⟨h, rfl, fun _ => Int.not_lt.mp hle⟩

/-- What appending promises: the bytes are behind the content, unless `grow` fails. -/
theorem appendBytes_spec (heap : Allocator) {b : Buffer} (h : b.Fits) {size : Int}
    {bytes : List Byte} (hlen : (bytes.length : Int) ≤ size) :
    (b.appendBytes heap size bytes).2.Fits ∧ ((b.appendBytes heap size bytes).1 = true →
      (b.appendBytes heap size bytes).2.content = b.content ++ bytes) := by
  obtain ⟨hfits, hcontent, hroom⟩ := makeRoom_spec heap h size
  unfold appendBytes
  generalize b.makeRoom heap size = r at *
  obtain ⟨_ | _, b'⟩ := r
  · exact ⟨hfits, fun hok => by cases hok⟩
  · refine ⟨hfits.recv (Int.le_trans hlen (hroom rfl)), fun _ => ?_⟩
    rw [content_recv hfits, hcontent]

/-- The room that `append_record` makes is enough for a size that is an `int`. -/
theorem length_recordText {s : Str} (h : (s.length : Int) ≤ INT_MAX) :
    ((recordText s).length : Int) ≤ 16 + s.length + 1 := by
  have hdigits := (length_digits_le_iff (n := s.length) (k := 10) (by decide)).mpr (by
    rw [INT_MAX] at h
    omega)
  rw [recordText, List.length_append, List.length_cons, List.length_append, List.length_singleton]
  omega

end Buffer

/-- The records are behind what is in the buffer, unless `grow` fails. -/
theorem sendRecords_spec (heap : Allocator) {p : Packet}
    (hp : ∀ s ∈ p, (s.length : Int) ≤ INT_MAX) :
    ∀ {output : Buffer}, output.Fits → (sendRecords heap output p).2.Fits ∧
      ((sendRecords heap output p).1 = true →
        (sendRecords heap output p).2.content = output.content ++ p.flatMap recordText) := by
  induction p with
  | nil => exact fun h => ⟨h, fun _ => (List.append_nil _).symm⟩
  | cons s p ih =>
      intro output h
      obtain ⟨hfits, hcontent⟩ := Buffer.appendBytes_spec heap h
        (Buffer.length_recordText (hp s List.mem_cons_self))
      obtain ⟨hfits', hcontent'⟩ := ih (fun t ht => hp t (List.mem_cons_of_mem s ht)) hfits
      refine ⟨hfits', fun hok => ?_⟩
      obtain ⟨hok, hok'⟩ := Bool.and_eq_true_iff.mp hok
      rw [List.flatMap_cons, ← List.append_assoc, ← hcontent hok]
      exact hcontent' hok'

/-- A record of a packet that can be sent has a size that is an `int`. -/
theorem Sendable.length_le {p : Packet} (h : Sendable p) :
    ∀ s ∈ p, (s.length : Int) ≤ INT_MAX := by
  intro s hs
  obtain ⟨before, after, rfl⟩ := List.append_of_mem hs
  have hmax : _ ≤ 134217728 := h.max
  rw [List.flatMap_append, List.flatMap_cons, List.length_append, List.length_append, recordText,
    List.length_append, List.length_cons, List.length_append] at hmax
  rw [INT_MAX]
  omega

/-- `send` writes the text of the packet behind what is in the buffer, unless `grow` fails. -/
theorem sendBytes_spec (heap : Allocator) {output : Buffer} (h : output.Fits) {p : Packet}
    (hp : Sendable p) : (sendBytes heap output p).2.Fits ∧
      ((sendBytes heap output p).1 = true →
        (sendBytes heap output p).2.content = output.content ++ packetText p) := by
  obtain ⟨hfits, hcontent⟩ := sendRecords_spec heap hp.length_le h
  have hLF : ([LF].length : Int) ≤ 1 := Int.le_refl 1
  obtain ⟨hfits', hcontent'⟩ := Buffer.appendBytes_spec heap hfits hLF
  refine ⟨hfits', fun hok => ?_⟩
  obtain ⟨hok, hok'⟩ := Bool.and_eq_true_iff.mp hok
  rw [packetText, ← List.append_assoc, ← hcontent hok]
  exact hcontent' hok'

/-! ## The receiving end -/

/-- An input buffer, the bytes read into it and the packets taken out of it. -/
structure Inbox where
  input : Buffer
  arrived : List Byte
  got : List Packet
  /-- `parse` has returned NULL, or worse. -/
  refused : Bool

/-- What is done to an input buffer.  `p` is what `realloc` returns if it is called. -/
inductive InboxEvent where
  | arrive (bytes : List Byte)
  | nice
  | grow (p : Option (Memory Byte))
  | parse (p : Option (Memory Byte))

namespace Inbox

/-- An empty input buffer. -/
def start (id : Nat) (buf : Memory Byte) : Inbox :=
  ⟨Buffer.ofTotal id buf INIT_BUFFER_SIZE, [], [], false⟩

/-- A packet that `parse` returns is taken out.  An empty list is not a packet. -/
def take (s : Inbox) : Buffer.Parsed × Buffer → Inbox
  | (.data recv_data, input) =>
      { s with input := input, got := if recv_data = [] then s.got else s.got ++ [recv_data] }
  | (.null, input) => { s with input := input, refused := true }
  | (.undefined, input) => { s with input := input, refused := true }

theorem arrived_take (s : Inbox) (r : Buffer.Parsed × Buffer) :
    (s.take r).arrived = s.arrived := by
  rcases r with ⟨_ | _ | _, input⟩ <;> rfl

theorem input_take (s : Inbox) (r : Buffer.Parsed × Buffer) : (s.take r).input = r.2 := by
  rcases r with ⟨_ | _ | _, input⟩ <;> rfl

theorem got_take_of_wait (s : Inbox) {r : Buffer.Parsed × Buffer}
    (h : r.1 = .data [] ∨ r.1 = .null) : (s.take r).got = s.got := by
  rcases r with ⟨parsed, input⟩
  rcases h with h | h <;> cases h <;> rfl

def step (s : Inbox) : InboxEvent → Option Inbox
  | .arrive bytes =>
      if bytes.length ≤ s.input.space.toNat then
        some { s with input := s.input.recv bytes, arrived := s.arrived ++ bytes }
      else none
  | .nice => some { s with input := s.input.nice }
  | .grow p =>
      if ∀ q ∈ p, s.input.Keeps q then some { s with input := s.input.realloc p } else none
  | .parse p =>
      if ∀ q ∈ p, s.input.nice.Keeps q then some (s.take (s.input.parse p)) else none

/-- What the decoder sees of it. -/
def receiver (s : Inbox) : StreamDecoder.Receiver Byte Packet :=
  ⟨s.input.content, s.arrived, s.got⟩

end Inbox

/-- The machine of an input buffer. -/
def inbox : Machine Inbox InboxEvent where
  step := Inbox.step

namespace Buffer

variable {input : Buffer} {p : Option (Memory Byte)}

theorem content_eq_nil (h : input.size = 0) : input.content = [] := by
  rw [← List.length_eq_zero_iff, length_content, h]
  rfl

/-- `parse` calls `grow` at most when the window fills the block, and then `grow` does not fail. -/
def GrowsIfFull (input : Buffer) (p : Option (Memory Byte)) : Prop :=
  input.nice.space = 0 → input.nice.Grows p

instance (input : Buffer) (p : Option (Memory Byte)) : Decidable (input.GrowsIfFull p) :=
  inferInstanceAs (Decidable (_ → _))

/-- `parse` when it waits: the content stays, and there is room unless `grow` fails. -/
theorem Fits.parse_wait (h : input.Fits) (hp : ∀ q ∈ p, input.nice.Keeps q)
    (hwait : parseText input.content = .wait) :
    ((input.parse p).1 = .data [] ∨ (input.parse p).1 = .null) ∧
      (input.GrowsIfFull p → (input.parse p).1 = .data []) ∧ (input.parse p).2.Fits ∧
      (input.parse p).2.content = input.content := by
  unfold Buffer.parse
  split
  · exact ⟨.inl rfl, fun _ => rfl, h, rfl⟩
  · simp only [hwait]
    split
    · split
      · next hfull =>
          split
          · refine ⟨.inl rfl, fun _ => rfl, h.nice.realloc p, ?_⟩
            rw [h.nice.content_realloc hp, content_nice]
          · next hfails =>
              exact ⟨.inr rfl, fun hgrows => absurd (hgrows hfull) hfails, h.nice,
                content_nice input⟩
      · exact ⟨.inl rfl, fun _ => rfl, h.nice, content_nice input⟩
    · exact ⟨.inl rfl, fun _ => rfl, h, rfl⟩

/-- `parse` when there is a packet. -/
theorem Fits.parse_ready (h : input.Fits) (grown : Option (Memory Byte)) {recv_data : Packet}
    {parsed : Nat} (hready : parseText input.content = .ready recv_data parsed) :
    (input.parse grown).1 = .data recv_data ∧ recv_data ≠ [] ∧
      (input.parse grown).2.Fits ∧
      (input.parse grown).2.content = input.content.drop parsed := by
  obtain ⟨text, rest, htext, heq, hparsed⟩ := parseText_iff.mp hready
  have hne : input.size ≠ 0 := by
    intro hsize
    rw [content_eq_nil hsize] at heq
    exact htext.ne_nil_text (List.append_eq_nil_iff.mp heq.symm).1
  have hle : (parsed : Int) ≤ input.size := by
    have hlen := input.length_content
    rw [heq, List.length_append] at hlen
    have hsize := h.size
    omega
  simp only [Buffer.parse, if_neg hne, hready]
  exact ⟨trivial, htext.ne_nil, h.decr hle, content_decr hle⟩

/-- `parse` when the text is refused: the buffer stays as it is. -/
theorem parse_bad (grown : Option (Memory Byte)) {e : BadPacket}
    (hbad : parseText input.content = .bad e) :
    (∀ recv_data, (input.parse grown).1 ≠ .data recv_data) ∧ (input.parse grown).2 = input := by
  have hne : input.size ≠ 0 := by
    intro hsize
    rw [content_eq_nil hsize, parseText, List.dropWhile_nil, parseLoop_wait rfl] at hbad
    cases hbad
  cases e with
  | format =>
      simp only [Buffer.parse, if_neg hne, hbad]
      exact ⟨by simp, trivial⟩
  | overflow =>
      simp only [Buffer.parse, if_neg hne, hbad]
      exact ⟨by simp, trivial⟩

theorem parse_wait (grown : Option (Memory Byte)) (hwait : parseText input.content = .wait) :
    (input.parse grown).1 = .data [] ∨ (input.parse grown).1 = .null := by
  unfold Buffer.parse
  split
  · exact .inl rfl
  · simp only [hwait]
    split
    · split
      · split
        · exact .inl rfl
        · exact .inr rfl
      · exact .inl rfl
    · exact .inl rfl

/-- `parse` returns a packet only if it is there. -/
theorem parse_data {grown : Option (Memory Byte)} {recv_data : Packet} (hne : recv_data ≠ [])
    (hdata : (input.parse grown).1 = .data recv_data) :
    ∃ parsed, parseText input.content = .ready recv_data parsed := by
  cases hverdict : parseText input.content with
  | ready q parsed =>
      have hsize : input.size ≠ 0 := by
        intro hzero
        rw [Buffer.parse, if_pos hzero] at hdata
        cases hdata
        exact hne rfl
      simp only [Buffer.parse, if_neg hsize, hverdict] at hdata
      cases hdata
      exact ⟨parsed, rfl⟩
  | wait =>
      rcases parse_wait grown hverdict with hnil | hnull
      · cases hdata.symm.trans hnil
        exact absurd rfl hne
      · cases hdata.symm.trans hnull
  | bad e => exact absurd hdata ((parse_bad grown hverdict).1 recv_data)

end Buffer

/-- `parse` returns a packet and leaves the rest exactly if the text of the packet and the rest are
what the buffer holds. -/
theorem parse_returns_iff {input : Buffer} (h : input.Fits) (grown : Option (Memory Byte))
    {recv_data : Packet} (hne : recv_data ≠ []) (rest : List Byte) :
    (input.parse grown).1 = .data recv_data ∧ (input.parse grown).2.content = rest ↔
      ∃ text, PacketText recv_data text ∧ input.content = text ++ rest := by
  constructor
  · rintro ⟨hdata, rfl⟩
    obtain ⟨parsed, hready⟩ := Buffer.parse_data hne hdata
    obtain ⟨text, rest, htext, heq, rfl⟩ := parseText_iff.mp hready
    obtain ⟨-, -, -, hcontent⟩ := h.parse_ready grown hready
    refine ⟨text, htext, ?_⟩
    rw [hcontent, heq, List.drop_left]
  · rintro ⟨text, htext, heq⟩
    have hready := parseText_iff.mpr ⟨text, rest, htext, heq, rfl⟩
    obtain ⟨hdata, -, -, hcontent⟩ := h.parse_ready grown hready
    refine ⟨hdata, ?_⟩
    rw [hcontent, heq, List.drop_left]

/-- The packet `ok` and one byte more. -/
theorem parse_returns_iff_ok :
    let input := (Buffer.ofTotal 0 (fun _ => 0) 1024).recv [50, LF, 111, 107, LF, LF, 7]
    (input.parse none).1 = .data [[111, 107]] ∧ (input.parse none).2.content = [7] :=
  (parse_returns_iff ((Buffer.fits_ofTotal 0 (fun _ => 0)).recv (by decide)) none
    (by decide) [7]).mpr ⟨packetText [[111, 107]], Sendable.packetText (by decide), by decide⟩

namespace Inbox

variable {s t : Inbox}

/-- A step is one of the decoder, or leaves the bytes where they are. -/
theorem step_refines {e : InboxEvent} (h : s.input.Fits) (hstep : s.step e = some t) :
    t.input.Fits ∧ ∃ es, packets.receiver.exec s.receiver es = some t.receiver := by
  cases e with
  | arrive bytes =>
      simp only [step, Option.ite_none_right_eq_some, Option.some.injEq] at hstep
      obtain ⟨hroom, rfl⟩ := hstep
      refine ⟨h.recv ?_, [.arrive bytes], ?_⟩
      · have hspace := h.space_nonneg
        omega
      · show some (StreamDecoder.Receiver.mk _ _ _) = some (StreamDecoder.Receiver.mk _ _ _)
        rw [Buffer.content_recv h]
        rfl
  | nice =>
      cases hstep
      refine ⟨h.nice, [], ?_⟩
      rw [Machine.exec_nil, receiver, receiver, Buffer.content_nice]
  | grow p =>
      simp only [step, Option.ite_none_right_eq_some, Option.some.injEq] at hstep
      obtain ⟨hkeeps, rfl⟩ := hstep
      refine ⟨h.realloc p, [], ?_⟩
      rw [Machine.exec_nil, receiver, receiver, h.content_realloc hkeeps]
  | parse p =>
      simp only [step, Option.ite_none_right_eq_some, Option.some.injEq] at hstep
      obtain ⟨hkeeps, rfl⟩ := hstep
      cases hverdict : parseText s.input.content with
      | ready recv_data parsed =>
          obtain ⟨hdata, hne, hfits, hcontent⟩ := h.parse_ready p hverdict
          have hparse : s.input.parse p = (.data recv_data, (s.input.parse p).2) :=
            Prod.ext hdata rfl
          rw [hparse]
          refine ⟨hfits, [.decode], ?_⟩
          have hdecode : packets.decode s.receiver.pending = .ready recv_data parsed := hverdict
          rw [Machine.exec_cons]
          simp only [StreamDecoder.receiver, StreamDecoder.receive, hdecode]
          rw [take, if_neg hne, receiver, receiver, hcontent]
          rfl
      | wait =>
          obtain ⟨hdata, -, hfits, hcontent⟩ := h.parse_wait hkeeps hverdict
          refine ⟨?_, [], ?_⟩
          · rw [input_take]
            exact hfits
          · rw [Machine.exec_nil, receiver, receiver, got_take_of_wait s hdata, arrived_take,
              input_take, hcontent]
      | bad e =>
          obtain ⟨hnot, hinput⟩ := Buffer.parse_bad p hverdict
          have hparse : s.input.parse p = ((s.input.parse p).1, s.input) := Prod.ext rfl hinput
          rw [hparse]
          cases hparsed : (s.input.parse p).1 with
          | data recv_data => exact absurd hparsed (hnot recv_data)
          | null => exact ⟨h, [], rfl⟩
          | undefined => exact ⟨h, [], rfl⟩

end Inbox

section Runs

variable {id id' : Nat} {buf buf' : Memory Byte} {es es' : List InboxEvent} {s s' : Inbox}

/-- Every run of an input buffer is a run of the decoder. -/
theorem inbox_refines (hrun : inbox.exec (Inbox.start id buf) es = some s) :
    s.input.Fits ∧ ∃ es, packets.receiver.exec StreamDecoder.Receiver.start es = some s.receiver :=
  Machine.exec_refines (N := packets.receiver) (f := Inbox.receiver) (I := fun s => s.input.Fits)
    (fun _ _ _ h hstep => Inbox.step_refines h hstep) hrun (Buffer.fits_ofTotal id buf)

/-- The packets taken out are those that the bytes carry. -/
theorem inbox_carries (hrun : inbox.exec (Inbox.start id buf) es = some s) :
    packets.Carries s.arrived s.got s.input.content := by
  obtain ⟨-, es, hes⟩ := inbox_refines hrun
  exact StreamDecoder.receiver_carries hes

/-- Two receivers of the same bytes that wait for more have taken out the same packets, however
the bytes came and whatever was done to the buffers in between. -/
theorem inbox_chunking (hrun : inbox.exec (Inbox.start id buf) es = some s)
    (hrun' : inbox.exec (Inbox.start id' buf') es' = some s') (harrived : s.arrived = s'.arrived)
    (hs : packets.Drained s.input.content) (hs' : packets.Drained s'.input.content) :
    s.got = s'.got ∧ s.input.content = s'.input.content := by
  obtain ⟨-, fs, hfs⟩ := inbox_refines hrun
  obtain ⟨-, fs', hfs'⟩ := inbox_refines hrun'
  exact StreamDecoder.receiver_chunking hfs hfs' harrived hs hs'

end Runs

/-- A packet that is there is taken out by `parse`. -/
theorem inbox_parse_ready {s : Inbox} (h : s.input.Fits) {recv_data : Packet} {parsed : Nat}
    (hready : parseText s.input.content = .ready recv_data parsed) :
    ∃ t, inbox.step s (.parse none) = some t ∧ t.got = s.got ++ [recv_data] ∧
      t.arrived = s.arrived ∧ t.input.content = s.input.content.drop parsed := by
  obtain ⟨hdata, hne, -, hcontent⟩ := h.parse_ready none hready
  have hparse : s.input.parse none = (.data recv_data, (s.input.parse none).2) :=
    Prod.ext hdata rfl
  have hstep : s.step (.parse none) = some (s.take (s.input.parse none)) := by
    rw [Inbox.step, if_pos fun q hq => by cases hq]
  refine ⟨_, hstep, ?_, ?_, ?_⟩
  · rw [hparse, Inbox.take, if_neg hne]
  · rw [hparse, Inbox.take]
  · rw [hparse, Inbox.take]
    exact hcontent

/-- When the bytes of `ok` have come, one more `parse` takes it out. -/
theorem inbox_takes_ok (id : Nat) (buf : Memory Byte) (es : List InboxEvent) {s : Inbox}
    (hrun : inbox.exec (Inbox.start id buf) es = some s)
    (harrived : s.arrived = packetText [[111, 107]]) (hgot : s.got = []) :
    ∃ t, inbox.exec (Inbox.start id buf) (es ++ [.parse none]) = some t ∧
      t.got = [[[111, 107]]] ∧ t.arrived = packetText [[111, 107]] ∧ t.input.content = [] := by
  obtain ⟨hfits, -⟩ := inbox_refines hrun
  have hcarries := inbox_carries hrun
  rw [hgot] at hcarries
  have hcontent : s.input.content = packetText [[111, 107]] := hcarries.nil_inv.trans harrived
  have hready : parseText s.input.content = .ready [[111, 107]] 6 :=
    parseText_iff.mpr ⟨_, [], Sendable.packetText (by decide), by rw [hcontent, List.append_nil],
      by decide⟩
  obtain ⟨t, hstep, ht, harrived', hleft⟩ := inbox_parse_ready hfits hready
  refine ⟨t, ?_, ?_, harrived'.trans harrived, ?_⟩
  · rw [Machine.exec_append _ hrun, Machine.exec_cons, hstep]
    rfl
  · rw [ht, hgot]
    rfl
  · rw [hleft, hcontent]
    rfl

/-- `ok` in one piece, and in two pieces between which the buffer is moved. -/
theorem inbox_chunking_ok : ∃ es es' s s', inbox.exec (Inbox.start 0 fun _ => 0) es = some s ∧
    inbox.exec (Inbox.start 1 fun _ => 7) es' = some s' ∧ es.length = 2 ∧ es'.length = 4 ∧
    s.got = [[[111, 107]]] ∧ s.got = s'.got := by
  obtain ⟨s, hrun, hgot, harrived, hleft⟩ := inbox_takes_ok 0 (fun _ => 0)
    [.arrive (packetText [[111, 107]])] rfl rfl rfl
  obtain ⟨s', hrun', -, harrived', hleft'⟩ := inbox_takes_ok 1 (fun _ => 7)
    [.arrive [50, LF, 111], .nice, .arrive [107, LF, LF]] rfl rfl rfl
  have hdrained : packets.Drained s.input.content := by
    rw [hleft]
    exact drained_nil
  have hdrained' : packets.Drained s'.input.content := by
    rw [hleft']
    exact drained_nil
  exact ⟨_, _, s, s', hrun, hrun', rfl, rfl, hgot,
    (inbox_chunking hrun hrun' (harrived.trans harrived'.symm) hdrained hdrained').1⟩

/-! ## Both ends -/

/-- One direction of a connection: the output buffer of the sender, the bytes under way, and the
receiving end. -/
structure Direction where
  output : Buffer
  sent : List Packet
  wire : List Byte
  inbox : Inbox

/-- What is done to it, with what `realloc` returns if it is called. -/
inductive DirectionEvent where
  | send (p : Packet) (heap : Allocator)
  /-- The socket takes `n` bytes. -/
  | write (n : Nat)
  | outNice
  | outGrow (p : Option (Memory Byte))
  /-- The socket brings `n` bytes. -/
  | read (n : Nat)
  | inNice
  | inGrow (p : Option (Memory Byte))
  | parse (p : Option (Memory Byte))

namespace Direction

/-- Two links that were just built. -/
def start (id id' : Nat) (buf buf' : Memory Byte) : Direction :=
  ⟨Buffer.ofTotal id buf INIT_BUFFER_SIZE, [], [], Inbox.start id' buf'⟩

/-- Something happens at the receiving end. -/
def onInbox (s : Direction) (e : InboxEvent) : Option Direction :=
  (s.inbox.step e).map fun i => { s with inbox := i }

def step (s : Direction) : DirectionEvent → Option Direction
  | .send p heap =>
      if Sendable p then
        some { s with output := (sendBytes heap s.output p).2, sent := s.sent ++ [p] }
      else none
  | .write n =>
      if n ≤ s.output.size.toNat then
        some { s with output := s.output.decr n, wire := s.wire ++ s.output.content.take n }
      else none
  | .outNice => some { s with output := s.output.nice }
  | .outGrow p =>
      if ∀ q ∈ p, s.output.Keeps q then some { s with output := s.output.realloc p } else none
  | .read n =>
      if n ≤ s.wire.length then
        ({ s with wire := s.wire.drop n } : Direction).onInbox (.arrive (s.wire.take n))
      else none
  | .inNice => s.onInbox .nice
  | .inGrow p => s.onInbox (.grow p)
  | .parse p => s.onInbox (.parse p)

/-- No call of `grow` that the step makes in `send` or in `parse` fails. -/
def Granted (s : Direction) : DirectionEvent → Prop
  | .send p heap => (sendBytes heap s.output p).1 = true
  | .parse p => s.inbox.input.GrowsIfFull p
  | _ => True

instance (s : Direction) : DecidablePred s.Granted
  | .send p heap => inferInstanceAs (Decidable ((sendBytes heap s.output p).1 = true))
  | .parse p => inferInstanceAs (Decidable (s.inbox.input.GrowsIfFull p))
  | .write _ | .outNice | .outGrow _ | .read _ | .inNice | .inGrow _ => isTrue trivial

/-- What has arrived, what is under way and what is not written yet are the text of what was
sent, and what was taken out is what the bytes carry. -/
structure Inv (s : Direction) : Prop where
  output : s.output.Fits
  input : s.inbox.input.Fits
  sendable : ∀ p ∈ s.sent, Sendable p
  flows : s.inbox.arrived ++ (s.wire ++ s.output.content) = s.sent.flatMap packetText
  carries : packets.Carries s.inbox.arrived s.inbox.got s.inbox.input.content
  calm : s.inbox.refused = false

theorem Inv.start (id id' : Nat) (buf buf' : Memory Byte) : (start id id' buf buf').Inv where
  output := Buffer.fits_ofTotal id buf
  input := Buffer.fits_ofTotal id' buf'
  sendable p hp := by cases hp
  flows := rfl
  carries := .nil []
  calm := rfl

variable {s t : Direction}

/-- What was taken out came first among what was sent, and the rest is still on its way. -/
theorem Inv.rest (h : s.Inv) : ∃ more, s.sent = s.inbox.got ++ more ∧
    packets.Carries (s.inbox.input.content ++ (s.wire ++ s.output.content)) more [] := by
  have hall := carries_sent h.sendable
  rw [← h.flows] at hall
  exact (h.carries.append _).prefix_of_drained hall drained_nil

/-- Nothing that is on its way is refused. -/
theorem Inv.not_bad (h : s.Inv) (e : BadPacket) : parseText s.inbox.input.content ≠ .bad e := by
  intro hbad
  obtain ⟨more, -, hcarries⟩ := h.rest
  have hbad' := packets.bad_append (s.wire ++ s.output.content) hbad
  cases more with
  | nil =>
      have hnil := (List.append_eq_nil_iff.mp hcarries.nil_inv.symm).1
      rw [hnil, parseText, List.dropWhile_nil, parseLoop_wait rfl] at hbad
      cases hbad
  | cons p more =>
      obtain ⟨used, hready, -⟩ := hcarries.cons_inv
      cases hready.symm.trans hbad'

/-- The sender does something that moves no bytes from one end to the other. -/
theorem Inv.ofOutput (h : s.Inv) {b : Buffer} (hfits : b.Fits) (hb : b.content = s.output.content) :
    ({ s with output := b } : Direction).Inv where
  output := hfits
  input := h.input
  sendable := h.sendable
  flows := by
    show _ ++ (_ ++ b.content) = _
    rw [hb]
    exact h.flows
  carries := h.carries
  calm := h.calm

/-- `parse` refuses nothing. -/
theorem Inv.parse_refused (h : s.Inv) {p : Option (Memory Byte)}
    (hp : ∀ q ∈ p, s.inbox.input.nice.Keeps q) (hgrows : s.inbox.input.GrowsIfFull p) :
    (s.inbox.take (s.inbox.input.parse p)).refused = false := by
  have hdata : ∃ recv_data, (s.inbox.input.parse p).1 = .data recv_data := by
    cases hverdict : parseText s.inbox.input.content with
    | ready recv_data parsed =>
        obtain ⟨hdata, -, -, -⟩ := h.input.parse_ready p hverdict
        exact ⟨recv_data, hdata⟩
    | wait =>
        obtain ⟨-, hdata, -, -⟩ := h.input.parse_wait hp hverdict
        exact ⟨[], hdata hgrows⟩
    | bad e => exact absurd hverdict (h.not_bad e)
  obtain ⟨recv_data, hdata⟩ := hdata
  have hparse : s.inbox.input.parse p = (.data recv_data, (s.inbox.input.parse p).2) :=
    Prod.ext hdata rfl
  rw [hparse]
  exact h.calm

/-- Something happens at the receiving end, and the bytes that arrive come off the wire. -/
theorem Inv.onInbox (h : s.Inv) {w : List Byte} {e : InboxEvent}
    (hstep : ({ s with wire := w } : Direction).onInbox e = some t)
    (hflow : ∀ i, s.inbox.step e = some i → i.arrived ++ w = s.inbox.arrived ++ s.wire)
    (hcalm : ∀ i, s.inbox.step e = some i → i.refused = false) : t.Inv := by
  obtain ⟨i, hi, rfl⟩ := Option.map_eq_some_iff.mp hstep
  obtain ⟨hfits, es, hes⟩ := Inbox.step_refines h.input hi
  have hcarries := StreamDecoder.exec_carries hes h.carries
  refine ⟨h.output, hfits, h.sendable, ?_, hcarries, hcalm i hi⟩
  show i.arrived ++ (w ++ s.output.content) = _
  rw [← List.append_assoc, hflow i hi, List.append_assoc]
  exact h.flows

theorem Inv.step (h : s.Inv) {e : DirectionEvent} (hgranted : s.Granted e)
    (hstep : s.step e = some t) : t.Inv := by
  cases e with
  | send p heap =>
      simp only [Direction.step, Option.ite_none_right_eq_some, Option.some.injEq] at hstep
      obtain ⟨hp, rfl⟩ := hstep
      obtain ⟨hfits, hcontent⟩ := sendBytes_spec heap h.output hp
      refine ⟨hfits, h.input, ?_, ?_, h.carries, h.calm⟩
      · intro q hq
        rcases List.mem_append.mp hq with hq | hq
        · exact h.sendable q hq
        · rw [List.mem_singleton.mp hq]
          exact hp
      · show _ ++ (_ ++ (sendBytes heap s.output p).2.content) = (s.sent ++ [p]).flatMap packetText
        rw [hcontent hgranted, List.flatMap_append, ← h.flows, List.flatMap_singleton]
        simp only [List.append_assoc]
  | write n =>
      simp only [Direction.step, Option.ite_none_right_eq_some, Option.some.injEq] at hstep
      obtain ⟨hn, rfl⟩ := hstep
      have hle : (n : Int) ≤ s.output.size := by
        have hsize := h.output.size
        omega
      refine ⟨h.output.decr hle, h.input, h.sendable, ?_, h.carries, h.calm⟩
      show _ ++ (s.wire ++ s.output.content.take n ++ (s.output.decr n).content) = _
      rw [Buffer.content_decr hle, List.append_assoc, List.take_append_drop]
      exact h.flows
  | outNice =>
      cases hstep
      exact h.ofOutput h.output.nice (Buffer.content_nice _)
  | outGrow p =>
      simp only [Direction.step, Option.ite_none_right_eq_some, Option.some.injEq] at hstep
      obtain ⟨hkeeps, rfl⟩ := hstep
      exact h.ofOutput (h.output.realloc p) (h.output.content_realloc hkeeps)
  | read n =>
      simp only [Direction.step, Option.ite_none_right_eq_some] at hstep
      refine h.onInbox hstep.2 ?_ ?_
      · intro i hi
        simp only [Inbox.step, Option.ite_none_right_eq_some, Option.some.injEq] at hi
        obtain ⟨-, rfl⟩ := hi
        show s.inbox.arrived ++ s.wire.take n ++ s.wire.drop n = _
        rw [List.append_assoc, List.take_append_drop]
      · intro i hi
        simp only [Inbox.step, Option.ite_none_right_eq_some, Option.some.injEq] at hi
        obtain ⟨-, rfl⟩ := hi
        exact h.calm
  | inNice =>
      refine h.onInbox hstep ?_ ?_ <;> rintro i hi <;> cases hi
      · rfl
      · exact h.calm
  | inGrow p =>
      refine h.onInbox hstep ?_ ?_ <;> intro i hi <;>
        simp only [Inbox.step, Option.ite_none_right_eq_some, Option.some.injEq] at hi <;>
        obtain ⟨-, rfl⟩ := hi
      · rfl
      · exact h.calm
  | parse p =>
      refine h.onInbox hstep ?_ ?_ <;> intro i hi <;>
        simp only [Inbox.step, Option.ite_none_right_eq_some, Option.some.injEq] at hi <;>
        obtain ⟨hkeeps, rfl⟩ := hi
      · rw [Inbox.arrived_take]
      · exact h.parse_refused hkeeps hgranted

end Direction

/-- A buffer below 512 MiB never asks for a size that is no `int`. -/
theorem Buffer.makeRoom_finds {heap : Allocator} (hheap : ∀ b, (heap.realloc b).isSome) {b : Buffer}
    {want : Int} (hsmall : b.data + b.size + want < 1073741824) :
    (b.makeRoom heap want).1 = true ∧ (b.makeRoom heap want).2.slot = b.slot := by
  induction hn : (want - b.space).toNat using Nat.strongRecOn generalizing b with
  | ind n ih =>
      rw [makeRoom]
      split
      · next hlt =>
          have htotal : b.total < 1073741824 := by
            have hspace : b.space = b.total - b.data - b.size := rfl
            omega
          have hgrows : b.Grows (heap.realloc b) := by
            refine ⟨?_, hheap b⟩
            rw [INT_MAX, grow]
            dsimp only
            split
            · omega
            · split <;> omega
          have hspace := hgrows.space_lt
          rw [dif_pos hgrows]
          obtain ⟨hok, hslot⟩ := ih _ (by omega) (b := b.realloc (heap.realloc b))
            (by rw [data_realloc, size_realloc]; exact hsmall) rfl
          refine ⟨hok, hslot.trans ?_⟩
          rw [slot, slot, data_realloc, size_realloc]
      · exact ⟨rfl, rfl⟩

theorem Buffer.appendBytes_finds {heap : Allocator} (hheap : ∀ b, (heap.realloc b).isSome)
    {b : Buffer} {want : Int} (bytes : List Byte) (hsmall : b.slot + want < 1073741824) :
    (b.appendBytes heap want bytes).1 = true ∧
      (b.appendBytes heap want bytes).2.slot = b.slot + bytes.length := by
  obtain ⟨hok, hslot⟩ := makeRoom_finds hheap hsmall
  unfold appendBytes
  generalize b.makeRoom heap want = r at *
  obtain ⟨_ | _, b'⟩ := r
  · cases hok
  · refine ⟨rfl, ?_⟩
    show b'.data + (b'.size + bytes.length) = _
    rw [← Int.add_assoc]
    exact congrArg (· + (bytes.length : Int)) hslot

theorem sendRecords_finds {heap : Allocator} (hheap : ∀ b, (heap.realloc b).isSome) {p : Packet} :
    ∀ {b : Buffer}, b.slot + (p.flatMap recordText).length + 16 < 1073741824 →
      (sendRecords heap b p).1 = true ∧
        (sendRecords heap b p).2.slot = b.slot + (p.flatMap recordText).length := by
  induction p with
  | nil => exact fun _ => ⟨rfl, (Int.add_zero _).symm⟩
  | cons s p ih =>
      intro b hsmall
      have hlen : s.length + 2 ≤ (recordText s).length := by
        rw [recordText, List.length_append, List.length_cons, List.length_append,
          List.length_singleton]
        omega
      rw [List.flatMap_cons, List.length_append] at hsmall ⊢
      obtain ⟨hok, hslot⟩ : (b.appendRecord heap s).1 = true ∧
          (b.appendRecord heap s).2.slot = b.slot + (recordText s).length :=
        Buffer.appendBytes_finds hheap (recordText s) (by omega)
      obtain ⟨hok', hslot'⟩ := ih (b := (b.appendRecord heap s).2) (by
        rw [hslot]
        omega)
      refine ⟨Bool.and_eq_true_iff.mpr ⟨hok, hok'⟩, hslot'.trans ?_⟩
      rw [hslot]
      omega

/-- As long as `realloc` finds memory, `grow` does not fail below 512 MiB. -/
theorem sendBytes_finds {heap : Allocator} (hheap : ∀ b, (heap.realloc b).isSome) {output : Buffer}
    {p : Packet} (hp : Sendable p) (hsmall : output.slot ≤ 536870912) :
    (sendBytes heap output p).1 = true := by
  have hmax : _ ≤ 134217728 := hp.max
  obtain ⟨hok, hslot⟩ := sendRecords_finds hheap (p := p) (b := output) (by omega)
  have hroom : (sendRecords heap output p).2.slot + 1 < 1073741824 := by omega
  obtain ⟨hok', -⟩ := Buffer.appendBytes_finds hheap [LF] hroom
  exact Bool.and_eq_true_iff.mpr ⟨hok, hok'⟩

/-- A heap in which every block can grow where it is. -/
def sameBlock : Allocator where
  realloc b := some b.buf
  keeps b p hp i _ := by
    cases hp
    rfl

end KvServer.Server5204
