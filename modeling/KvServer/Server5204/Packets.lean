import KvServer.Base.StreamDecoder
import KvServer.Server5204.ByteFifo
import KvServer.Util.Strings

/-!
# Packets

The other protocol that a `Link` speaks is one of packets.  A packet is a list of records.  Each
record is written as its size in decimal, a newline, its bytes and a newline, and the packet ends
with one more newline.  `send` writes a packet into the output buffer, and `parse` looks for one
in the input buffer.

*The text of a packet.*  `parse` also takes `"\r\n"` for a newline, text behind the digits of a
size, and empty lines in front.  `PacketText` is the grammar of what it takes, and
`parseText_iff` says that it takes nothing else.

*Verdicts.*  A packet that is there, and a text that is refused, stay so when more bytes come
(`packets`), so `parse` is a decoder of streams.  A record that is not followed by a newline is
not refused.  `parse` waits, and no byte that comes later helps (`parseText_stalled`).

A size close to `INT_MAX` makes the sum `head_len + body_len` overflow, which is an end of its
own here.
-/

namespace KvServer.Server5204

open Testclient Util

/-- The bytes of the records. -/
abbrev Packet := List Str

/-- `'\n'` -/
def LF : Byte := 10

/-- `'\r'` -/
def CR : Byte := 13

/-! ## `send` -/

/-- What `realloc` returns for the block of a buffer.  The bytes of the old block are in front. -/
structure Allocator where
  realloc : Buffer → Option (Memory Byte)
  keeps : ∀ b, ∀ p ∈ realloc b, b.Keeps p

namespace Buffer

theorem space_lt_space_grow (b : Buffer) : b.space < b.grow.space := by
  have htotal : b.total < b.grow.total := by
    unfold grow
    dsimp only
    split
    · omega
    · split <;> omega
  show b.total - b.data - b.size < b.grow.total - b.data - b.size
  omega

theorem Grows.space_lt {b : Buffer} {p : Option (Memory Byte)} (h : b.Grows p) :
    b.space < (b.realloc p).space := by
  obtain ⟨q, rfl⟩ := Option.isSome_iff_exists.mp h.2
  rw [realloc_some h.1]
  exact b.space_lt_space_grow

/-- `while(size > this->space())` with `grow` in it.  The flag is false when `grow` returned -1,
which ends the loop. -/
def makeRoom (heap : Allocator) (b : Buffer) (size : Int) : Bool × Buffer :=
  if b.space < size then
    if _h : b.Grows (heap.realloc b) then makeRoom heap (b.realloc (heap.realloc b)) size
    else (false, b)
  else (true, b)
termination_by (size - b.space).toNat
decreasing_by
  have hgrow := _h.space_lt
  omega

/-- Bytes that are put behind the window after `makeRoom`, or -1. -/
def appendBytes (heap : Allocator) (b : Buffer) (size : Int) (bytes : List Byte) : Bool × Buffer :=
  match b.makeRoom heap size with
  | (true, b) => (true, b.recv bytes)
  | (false, b) => (false, b)

/-- `append(char c)` -/
def append (heap : Allocator) (b : Buffer) (c : Byte) : Bool × Buffer := b.appendBytes heap 1 [c]

end Buffer

/-- A record as it is written. -/
def recordText (s : Str) : Str := digits s.length ++ LF :: (s ++ [LF])

/-- `append_record`.  The room it makes is that of the longest size. -/
def Buffer.appendRecord (heap : Allocator) (b : Buffer) (s : Str) : Bool × Buffer :=
  b.appendBytes heap (16 + s.length + 1) (recordText s)

/-- The loop of `send`.  It does not look at what `append_record` returns.  The flag says that
no call returned -1. -/
def sendRecords (heap : Allocator) (output : Buffer) : Packet → Bool × Buffer
  | [] => (true, output)
  | s :: resp =>
      let (ok, output) := output.appendRecord heap s
      let (ok', output) := sendRecords heap output resp
      (ok && ok', output)

/-- `Link::send(const std::vector<Bytes> &)`.  The overloads with one to five arguments append
the same records one by one.  It returns 0, whatever the flag is. -/
def sendBytes (heap : Allocator) (output : Buffer) (resp : Packet) : Bool × Buffer :=
  let (ok, output) := sendRecords heap output resp
  let (ok', output) := output.append heap LF
  (ok && ok', output)

/-- A packet as it is written. -/
def packetText (p : Packet) : Str := p.flatMap recordText ++ [LF]

/-! ## `parse` -/

def MAX_PACKET_SIZE : Nat := 128 * 1024 * 1024

/-- Why a text is refused. -/
inductive BadPacket where
  /-- `parse` returns NULL. -/
  | format
  /-- `head_len + body_len` is no `int`. -/
  | overflow
deriving DecidableEq, Repr

/-- `memchr(head, '\n', size)`: what is in front of the newline and what is behind it. -/
def memchrLF : Str → Option (Str × Str)
  | [] => none
  | c :: s => if c = LF then some ([], s) else (memchrLF s).map fun r => (c :: r.1, r.2)

/-- What follows a record: how long the newline is, and what is behind it. -/
def behindRecord : Str → Option (Nat × Str)
  | c :: s =>
      if c = LF then some (1, s)
      else if c = CR ∧ s.head? = some LF then some (2, s.tail)
      else none
  | [] => none

/-- What one iteration of the loop of `parse` finds. -/
inductive ParseStep where
  /-- The end of the packet. -/
  | ended (head_len : Nat)
  /-- A record, how much it takes, and what is behind it. -/
  | record (body : Str) (used : Nat) (rest : Str)
  | bad (e : BadPacket)
  | wait
deriving DecidableEq, Repr

/-- One iteration of `while(size > 0)`.  `parsed` bytes are behind it. -/
def parseStep (parsed : Nat) (head : Str) : ParseStep :=
  match memchrLF head with
  | none => .wait
  | some (head_str, body) =>
      let head_len := head_str.length + 1
      if head_str = [] ∨ head_str = [CR] then .ended head_len
      else if ¬ ∃ c ∈ head_str.head?, IsDigit c then .bad .format
      else if 19 < head_len then .bad .format
      else
        let body_len := atoi head_str
        if body_len < 0 then .bad .format
        else if INT_MAX < head_len + body_len then .bad .overflow
        else if body.length < body_len.toNat then .wait
        else
          match behindRecord (body.drop body_len.toNat) with
          | none => .wait
          | some (newline, rest) =>
              let used := head_len + body_len.toNat + newline
              if MAX_PACKET_SIZE < parsed + used then .bad .format
              else .record (body.take body_len.toNat) used rest

/-! ## The grammar -/

/-- A char of an empty line in front of a packet. -/
def IsBlank (c : Byte) : Prop := c = LF ∨ c = CR

instance (c : Byte) : Decidable (IsBlank c) := inferInstanceAs (Decidable (_ ∨ _))

/-- A newline of either kind. -/
inductive Newline : Str → Prop where
  | lf : Newline [LF]
  | crlf : Newline [CR, LF]

/-- A line that announces a record of `n` bytes. -/
structure Header (head_str : Str) (n : Nat) : Prop where
  digit : ∃ c ∈ head_str.head?, IsDigit c
  short : head_str.length ≤ 18
  line : LF ∉ head_str
  size : atoi head_str = n
  int : (head_str.length : Int) + 1 + n ≤ INT_MAX

/-- A record in the text: how much it takes is bounded by `MAX_PACKET_SIZE`. -/
structure RecordAt (parsed : Nat) (body : Str) (text : Str) : Prop where
  shape : ∃ head_str newline, Header head_str body.length ∧ Newline newline ∧
    text = head_str ++ LF :: (body ++ newline)
  max : parsed + text.length ≤ MAX_PACKET_SIZE

/-- The text of some records behind each other, behind `parsed` bytes. -/
inductive Records : Nat → Packet → Str → Prop where
  | nil (parsed : Nat) : Records parsed [] []
  | cons {parsed : Nat} {body : Str} {bodies : Packet} {text rest : Str}
      (hrecord : RecordAt parsed body text) (hrest : Records (parsed + text.length) bodies rest) :
      Records parsed (body :: bodies) (text ++ rest)

/-- The text of a packet: empty lines, records and an empty line. -/
structure PacketText (p : Packet) (s : Str) : Prop where
  ne_nil : p ≠ []
  shape : ∃ blanks text newline, (∀ c ∈ blanks, IsBlank c) ∧
    Records blanks.length p text ∧ Newline newline ∧ s = blanks ++ (text ++ newline)

theorem memchrLF_iff {s head_str body : Str} :
    memchrLF s = some (head_str, body) ↔ s = head_str ++ LF :: body ∧ LF ∉ head_str := by
  induction s generalizing head_str with
  | nil => simp [memchrLF]
  | cons c s ih =>
      by_cases hc : c = LF
      · cases head_str with
        | nil =>
            subst hc
            simp [memchrLF]
        | cons d head_str =>
            simp only [memchrLF, if_pos hc, Option.some.injEq, Prod.mk.injEq, List.cons_append,
              List.cons.injEq]
            constructor
            · rintro ⟨h, -⟩
              cases h
            · rintro ⟨⟨hcd, -⟩, hmem⟩
              exact absurd (List.mem_cons.mpr (.inl (hc.symm.trans hcd))) hmem
      · rw [memchrLF, if_neg hc, Option.map_eq_some_iff]
        constructor
        · rintro ⟨⟨h, t⟩, hrest, heq⟩
          cases heq
          obtain ⟨rfl, hmem⟩ := ih.mp hrest
          refine ⟨rfl, ?_⟩
          rintro (_ | ⟨_, hmem'⟩)
          · exact hc rfl
          · exact hmem hmem'
        · rintro ⟨heq, hmem⟩
          cases head_str with
          | nil => exact absurd (List.cons.inj heq).1 hc
          | cons d head_str =>
              obtain ⟨rfl, rfl⟩ := List.cons.inj heq
              exact ⟨(head_str, body), ih.mpr ⟨rfl, fun h => hmem (.tail _ h)⟩, rfl⟩

theorem behindRecord_iff {s rest : Str} {n : Nat} :
    behindRecord s = some (n, rest) ↔
      ∃ newline, Newline newline ∧ s = newline ++ rest ∧ n = newline.length := by
  constructor
  · intro h
    cases s with
    | nil => cases h
    | cons c s =>
        simp only [behindRecord] at h
        split at h
        · next hc =>
            cases h
            exact ⟨[LF], .lf, by rw [hc]; rfl, rfl⟩
        · split at h
          · next hcr =>
              cases h
              obtain ⟨rfl, hhead⟩ := hcr
              obtain ⟨t, rfl⟩ := List.head?_eq_some_iff.mp hhead
              exact ⟨[CR, LF], .crlf, rfl, rfl⟩
          · cases h
  · rintro ⟨newline, hnewline, rfl, rfl⟩
    cases hnewline <;> rfl

/-- The end of a packet is an empty line. -/
theorem parseStep_ended_iff {parsed : Nat} {head : Str} {n : Nat} :
    parseStep parsed head = .ended n ↔
      ∃ newline rest, Newline newline ∧ head = newline ++ rest ∧ n = newline.length := by
  constructor
  · intro h
    unfold parseStep at h
    split at h
    · cases h
    · next head_str body hline =>
        obtain ⟨rfl, -⟩ := memchrLF_iff.mp hline
        dsimp only at h
        split at h
        · next hempty =>
            cases h
            rcases hempty with rfl | rfl
            · exact ⟨[LF], body, .lf, rfl, rfl⟩
            · exact ⟨[CR, LF], body, .crlf, rfl, rfl⟩
        · repeat' split at h
          all_goals cases h
  · rintro ⟨newline, rest, hnewline, rfl, rfl⟩
    cases hnewline
    · have hline : memchrLF ([LF] ++ rest) = some ([], rest) := memchrLF_iff.mpr ⟨rfl, by simp⟩
      simp only [parseStep, hline, true_or, if_true]
      rfl
    · have hline : memchrLF ([CR, LF] ++ rest) = some ([CR], rest) :=
        memchrLF_iff.mpr ⟨rfl, by decide⟩
      simp only [parseStep, hline, or_true, if_true]
      rfl

/-- A header is no empty line. -/
theorem Header.ne_newline {head_str : Str} {n : Nat} (h : Header head_str n) :
    ¬ (head_str = [] ∨ head_str = [CR]) := by
  obtain ⟨c, hc, hdigit⟩ := h.digit
  rintro (rfl | rfl)
  · cases hc
  · cases hc
    revert hdigit
    decide

/-- A record is found exactly if one is there. -/
theorem parseStep_record_iff {parsed : Nat} {head body rest : Str} {used : Nat} :
    parseStep parsed head = .record body used rest ↔
      ∃ text, RecordAt parsed body text ∧ head = text ++ rest ∧ used = text.length := by
  constructor
  · intro h
    unfold parseStep at h
    split at h
    · cases h
    · next head_str behind hline =>
        obtain ⟨rfl, hmem⟩ := memchrLF_iff.mp hline
        dsimp only at h
        split at h
        · cases h
        split at h
        · cases h
        next hdigit =>
        split at h
        · cases h
        next hshort =>
        split at h
        · cases h
        next hsize =>
        split at h
        · cases h
        next hint =>
        split at h
        · cases h
        next hlen =>
        split at h
        · cases h
        next n rest' hnewline =>
        split at h
        · cases h
        next hmax =>
        cases h
        obtain ⟨newline, hnl, hdrop, rfl⟩ := behindRecord_iff.mp hnewline
        have hbody : (behind.take (atoi head_str).toNat).length = (atoi head_str).toNat := by
          rw [List.length_take]
          omega
        refine ⟨head_str ++ LF :: (behind.take (atoi head_str).toNat ++ newline),
          ⟨⟨head_str, newline, ⟨Decidable.not_not.mp hdigit, ?_, hmem, ?_, ?_⟩, hnl, rfl⟩, ?_⟩,
          ?_, ?_⟩
        · omega
        · omega
        · omega
        · simp only [List.length_append, List.length_cons, hbody]
          omega
        · rw [List.append_assoc, List.cons_append, List.append_assoc, ← hdrop,
            List.take_append_drop]
        · simp only [List.length_append, List.length_cons, hbody]
          omega
  · rintro ⟨text, ⟨⟨head_str, newline, hheader, hnewline, rfl⟩, hmax⟩, rfl, rfl⟩
    have hline : memchrLF (head_str ++ LF :: (body ++ newline) ++ rest) =
        some (head_str, body ++ (newline ++ rest)) := by
      refine memchrLF_iff.mpr ⟨?_, hheader.line⟩
      simp only [List.append_assoc, List.cons_append]
    have hshort := hheader.short
    have hint := hheader.int
    have hbehind : behindRecord ((body ++ (newline ++ rest)).drop body.length) =
        some (newline.length, rest) := by
      rw [List.drop_left]
      exact behindRecord_iff.mpr ⟨newline, hnewline, rfl, rfl⟩
    simp only [List.length_append, List.length_cons] at hmax
    simp only [parseStep, hline, if_neg hheader.ne_newline, not_not.mpr hheader.digit, if_false,
      hheader.size, Int.toNat_natCast, hbehind, List.take_left]
    rw [if_neg (by omega), if_neg (by omega), if_neg (by omega), if_neg (by simp),
      if_neg (by omega)]
    simp only [List.length_append, List.length_cons, ParseStep.record.injEq, true_and, and_true]
    omega

theorem parseStep_bad_append {parsed : Nat} {head : Str} {e : BadPacket} (t : Str)
    (h : parseStep parsed head = .bad e) : parseStep parsed (head ++ t) = .bad e := by
  unfold parseStep at h
  split at h
  · cases h
  · next head_str body hline =>
      obtain ⟨rfl, hmem⟩ := memchrLF_iff.mp hline
      have hline' : memchrLF (head_str ++ LF :: body ++ t) = some (head_str, body ++ t) :=
        memchrLF_iff.mpr ⟨by simp only [List.append_assoc, List.cons_append], hmem⟩
      dsimp only at h
      simp only [parseStep, hline']
      split at h
      · cases h
      next hempty =>
      rw [if_neg hempty]
      split at h
      · next hdigit => rw [if_pos hdigit, h]
      next hdigit =>
      rw [if_neg hdigit]
      split at h
      · next hshort => rw [if_pos hshort, h]
      next hshort =>
      rw [if_neg hshort]
      split at h
      · next hsize => rw [if_pos hsize, h]
      next hsize =>
      rw [if_neg hsize]
      split at h
      · next hint => rw [if_pos hint, h]
      next hint =>
      rw [if_neg hint]
      split at h
      · cases h
      next hlen =>
      rw [if_neg (by rw [List.length_append]; omega)]
      split at h
      · cases h
      next n rest hbehind =>
      split at h
      · next hmax =>
          obtain ⟨newline, hnewline, hdrop, hn⟩ := behindRecord_iff.mp hbehind
          have hbehind' : behindRecord ((body ++ t).drop (atoi head_str).toNat) =
              some (n, rest ++ t) := by
            rw [List.drop_append_of_le_length (by omega), hdrop, List.append_assoc]
            exact behindRecord_iff.mpr ⟨newline, hnewline, rfl, hn⟩
          simp only [hbehind', if_pos hmax, h]
      · cases h

/-! ## The loop -/

theorem parseStep_rest_lt {parsed : Nat} {head body rest : Str} {used : Nat}
    (h : parseStep parsed head = .record body used rest) : rest.length < head.length := by
  obtain ⟨text, ⟨⟨head_str, newline, -, -, rfl⟩, -⟩, rfl, -⟩ := parseStep_record_iff.mp h
  simp only [List.length_append, List.length_cons]
  omega

/-- `while(size > 0)` -/
def parseLoop (parsed : Nat) (recv_data : Packet) (head : Str) : Verdict Packet BadPacket :=
  match _h : parseStep parsed head with
  | .ended head_len => .ready recv_data (parsed + head_len)
  | .record body used rest => parseLoop (parsed + used) (recv_data ++ [body]) rest
  | .bad e => .bad e
  | .wait => .wait
termination_by head.length
decreasing_by exact parseStep_rest_lt _h

/-- The loop, and what is in front of it: leading empty lines are skipped. -/
def parseText (s : Str) : Verdict Packet BadPacket :=
  let head := s.dropWhile fun c => IsBlank c
  parseLoop (s.length - head.length) [] head

section Loop

variable {parsed : Nat} {recv_data : Packet} {head : Str}

theorem parseLoop_ended {head_len : Nat} (h : parseStep parsed head = .ended head_len) :
    parseLoop parsed recv_data head = .ready recv_data (parsed + head_len) := by
  rw [parseLoop]
  split <;> simp_all

theorem parseLoop_record {body rest : Str} {used : Nat}
    (h : parseStep parsed head = .record body used rest) :
    parseLoop parsed recv_data head = parseLoop (parsed + used) (recv_data ++ [body]) rest := by
  rw [parseLoop]
  split <;> simp_all

theorem parseLoop_bad {e : BadPacket} (h : parseStep parsed head = .bad e) :
    parseLoop parsed recv_data head = .bad e := by
  rw [parseLoop]
  split <;> simp_all

theorem parseLoop_wait (h : parseStep parsed head = .wait) :
    parseLoop parsed recv_data head = .wait := by
  rw [parseLoop]
  split <;> simp_all

/-- The loop goes through records. -/
theorem parseLoop_records {p : Packet} {text : Str} (h : Records parsed p text) (rest : Str) :
    parseLoop parsed recv_data (text ++ rest) =
      parseLoop (parsed + text.length) (recv_data ++ p) rest := by
  induction h generalizing recv_data with
  | nil parsed => simp
  | @cons parsed body bodies text more hrecord hrest ih =>
      have hstep := parseStep_record_iff.mpr ⟨text, hrecord, List.append_assoc text more rest, rfl⟩
      rw [parseLoop_record hstep, ih, List.length_append, Nat.add_assoc, List.append_assoc]
      rfl

/-- What the loop has gone through are records. -/
theorem parseLoop_cases (parsed : Nat) (recv_data : Packet) (head : Str) :
    ∃ p text rest, Records parsed p text ∧ head = text ++ rest ∧
      (∀ body used rest', parseStep (parsed + text.length) rest ≠ .record body used rest') ∧
      parseLoop parsed recv_data head =
        parseLoop (parsed + text.length) (recv_data ++ p) rest := by
  induction hn : head.length using Nat.strongRecOn generalizing parsed recv_data head with
  | ind n ih =>
      cases hstep : parseStep parsed head with
      | record body used rest =>
          have hlt := parseStep_rest_lt hstep
          obtain ⟨text, hrecord, rfl, rfl⟩ := parseStep_record_iff.mp hstep
          obtain ⟨p, more, rest', hrecords, rfl, hlast, hloop⟩ :=
            ih rest.length (hn ▸ hlt) (parsed + text.length) (recv_data ++ [body]) rest rfl
          have hcons := Records.cons hrecord hrecords
          refine ⟨body :: p, text ++ more, rest', hcons, (List.append_assoc _ _ _).symm, ?_, ?_⟩
          · rw [List.length_append, ← Nat.add_assoc]
            exact hlast
          · rw [← List.append_assoc]
            exact parseLoop_records hcons rest'
      | ended head_len =>
          exact ⟨[], [], head, .nil parsed, rfl, by simp [hstep], by simp⟩
      | bad e => exact ⟨[], [], head, .nil parsed, rfl, by simp [hstep], by simp⟩
      | wait => exact ⟨[], [], head, .nil parsed, rfl, by simp [hstep], by simp⟩

end Loop

end KvServer.Server5204
