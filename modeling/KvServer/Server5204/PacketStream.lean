import Mathlib.Data.List.TakeWhile
import KvServer.Server5204.Packets

/-!
# Packets in a stream

What `parse` says about the bytes that are there, as a decoder of streams.

*What is taken.*  A packet is found exactly if the bytes begin with the text of one
(`parseText_iff`), and then it is found whatever comes behind it.  A refused text is refused for
good (`parseText_bad_append`).  So `packets` is a `StreamDecoder`.

*What is never taken.*  `parse` can wait for ever, and `stalled_iff` says when: a record of the
right size is there and something else than a newline follows it.

*What is sent.*  The text of `send` is in the grammar (`packetText_packetText`), and a stream of
such texts carries the packets that are not empty (`carries_sent`).
-/

namespace KvServer.Server5204

open Testclient Util

/-! ## Blanks and records -/

theorem not_isBlank_of_isDigit {c : Byte} (h : IsDigit c) : ¬ IsBlank c := by
  rintro (rfl | rfl) <;> exact absurd h (by decide)

/-- What is skipped, and what the loop begins with. -/
theorem blanks_spec (s : Str) : ∃ blanks head, s = blanks ++ head ∧ (∀ c ∈ blanks, IsBlank c) ∧
    (∀ c ∈ head.head?, ¬ IsBlank c) ∧ parseText s = parseLoop blanks.length [] head := by
  refine ⟨s.takeWhile fun c => IsBlank c, s.dropWhile fun c => IsBlank c,
    List.takeWhile_append_dropWhile.symm, ?_, ?_, ?_⟩
  · exact fun c hc => by simpa using List.mem_takeWhile_imp hc
  · intro c hc
    have hnot := List.head?_dropWhile_not (fun c => decide (IsBlank c)) s
    rw [Option.mem_def.mp hc] at hnot
    simpa using hnot
  · have hlen := congrArg List.length (@List.takeWhile_append_dropWhile _ (fun c => IsBlank c) s)
    rw [List.length_append] at hlen
    show parseLoop (s.length - (s.dropWhile fun c => IsBlank c).length) [] _ = _
    congr 1
    omega

/-- The skipping stops at the first char that is no blank. -/
theorem parseText_blanks {blanks head : Str} (hblanks : ∀ c ∈ blanks, IsBlank c)
    (hhead : ∀ c ∈ head.head?, ¬ IsBlank c) :
    parseText (blanks ++ head) = parseLoop blanks.length [] head := by
  have hdrop : (blanks ++ head).dropWhile (fun c => decide (IsBlank c)) = head := by
    rw [List.dropWhile_append_of_pos fun c hc => decide_eq_true (hblanks c hc)]
    cases head with
    | nil => rfl
    | cons c head => exact List.dropWhile_cons_of_neg (by simpa using hhead c rfl)
  simp only [parseText, hdrop, List.length_append, Nat.add_sub_cancel]

/-- A record begins with a digit. -/
theorem RecordAt.head {parsed : Nat} {body text : Str} (h : RecordAt parsed body text) :
    ∃ c ∈ text.head?, IsDigit c := by
  obtain ⟨head_str, newline, hheader, -, rfl⟩ := h.shape
  obtain ⟨c, hc, hdigit⟩ := hheader.digit
  obtain ⟨rest, rfl⟩ := List.head?_eq_some_iff.mp hc
  exact ⟨c, rfl, hdigit⟩

theorem Records.head {parsed : Nat} {p : Packet} {text : Str} (h : Records parsed p text)
    (hp : p ≠ []) (rest : Str) : ∀ c ∈ (text ++ rest).head?, ¬ IsBlank c := by
  cases h with
  | nil => exact absurd rfl hp
  | cons hrecord hrest =>
      obtain ⟨c, hc, hdigit⟩ := hrecord.head
      obtain ⟨t, rfl⟩ := List.head?_eq_some_iff.mp hc
      rintro d hd
      cases hd
      exact not_isBlank_of_isDigit hdigit

theorem Newline.head {newline : Str} (h : Newline newline) (rest : Str) :
    ∃ c ∈ (newline ++ rest).head?, IsBlank c := by
  cases h with
  | lf => exact ⟨LF, rfl, .inl rfl⟩
  | crlf => exact ⟨CR, rfl, .inr rfl⟩

/-! ## Verdicts -/

/-- `parse` finds a packet exactly if the bytes begin with the text of one. -/
theorem parseText_iff {s : Str} {p : Packet} {used : Nat} :
    parseText s = .ready p used ↔
      ∃ text rest, PacketText p text ∧ s = text ++ rest ∧ used = text.length := by
  constructor
  · intro h
    obtain ⟨blanks, head, rfl, hblanks, hhead, hparse⟩ := blanks_spec s
    obtain ⟨p', text, rest, hrecords, rfl, hlast, hloop⟩ := parseLoop_cases blanks.length [] head
    rw [hparse, hloop] at h
    cases hstep : parseStep (blanks.length + text.length) rest with
    | record body n rest' => exact absurd hstep (hlast body n rest')
    | bad e => cases (parseLoop_bad hstep).symm.trans h
    | wait => cases (parseLoop_wait hstep).symm.trans h
    | ended head_len =>
        cases (parseLoop_ended hstep).symm.trans h
        obtain ⟨newline, rest', hnewline, rfl, rfl⟩ := parseStep_ended_iff.mp hstep
        refine ⟨blanks ++ (text ++ newline), rest', ⟨?_, blanks, text, newline, hblanks, ?_,
          hnewline, rfl⟩, ?_, ?_⟩
        · -- without a record the empty line would have been skipped
          intro hnil
          have hp : p' = [] := hnil
          subst hp
          cases hrecords
          obtain ⟨c, hc, hblank⟩ := hnewline.head rest'
          exact hhead c hc hblank
        · exact hrecords
        · simp only [List.append_assoc]
        · simp only [List.length_append]
          omega
  · rintro ⟨text, rest, ⟨hp, blanks, records, newline, hblanks, hrecords, hnewline, rfl⟩, rfl,
      rfl⟩
    have happend : blanks ++ (records ++ newline) ++ rest =
        blanks ++ (records ++ (newline ++ rest)) := by simp only [List.append_assoc]
    have hended : parseStep (blanks.length + records.length) (newline ++ rest) =
        .ended newline.length := parseStep_ended_iff.mpr ⟨newline, rest, hnewline, rfl, rfl⟩
    rw [happend, parseText_blanks hblanks (hrecords.head hp _), parseLoop_records hrecords,
      parseLoop_ended hended]
    simp only [List.nil_append, List.length_append, Nat.add_assoc]

/-- What the loop stops at if it does not find a packet. -/
theorem parseText_cases (s : Str) : (∃ p used, parseText s = .ready p used) ∨
    ∃ blanks p text rest, (∀ c ∈ blanks, IsBlank c) ∧ Records blanks.length p text ∧
      s = blanks ++ (text ++ rest) ∧ (p = [] → ∀ c ∈ rest.head?, ¬ IsBlank c) ∧
      ((∃ e, parseText s = .bad e ∧ parseStep (blanks.length + text.length) rest = .bad e) ∨
        parseText s = .wait ∧ parseStep (blanks.length + text.length) rest = .wait) := by
  obtain ⟨blanks, head, rfl, hblanks, hhead, hparse⟩ := blanks_spec s
  obtain ⟨p, text, rest, hrecords, rfl, hlast, hloop⟩ := parseLoop_cases blanks.length [] head
  rw [hloop] at hparse
  have hrest : p = [] → ∀ c ∈ rest.head?, ¬ IsBlank c := by
    rintro rfl
    cases hrecords
    exact hhead
  cases hstep : parseStep (blanks.length + text.length) rest with
  | record body n rest' => exact absurd hstep (hlast body n rest')
  | ended head_len => exact .inl ⟨_, _, hparse.trans (parseLoop_ended hstep)⟩
  | bad e =>
      exact .inr ⟨blanks, p, text, rest, hblanks, hrecords, rfl, hrest,
        .inl ⟨e, hparse.trans (parseLoop_bad hstep), hstep⟩⟩
  | wait =>
      exact .inr ⟨blanks, p, text, rest, hblanks, hrecords, rfl, hrest,
        .inr ⟨hparse.trans (parseLoop_wait hstep), hstep⟩⟩

/-- The loop behind some records. -/
theorem parseText_records {blanks text rest : Str} {p : Packet} (hblanks : ∀ c ∈ blanks, IsBlank c)
    (hrecords : Records blanks.length p text)
    (hrest : p = [] → ∀ c ∈ rest.head?, ¬ IsBlank c) :
    parseText (blanks ++ (text ++ rest)) = parseLoop (blanks.length + text.length) p rest := by
  rw [parseText_blanks hblanks, parseLoop_records hrecords, List.nil_append]
  by_cases hp : p = []
  · subst hp
    cases hrecords
    exact hrest rfl
  · exact hrecords.head hp rest

theorem head_append {rest : Str} (h : rest ≠ []) (t : Str) : (rest ++ t).head? = rest.head? := by
  obtain ⟨c, rest, rfl⟩ := List.exists_cons_of_ne_nil h
  rfl

/-- What was refused stays refused. -/
theorem parseText_bad_append {s : Str} {e : BadPacket} (t : Str) (h : parseText s = .bad e) :
    parseText (s ++ t) = .bad e := by
  rcases parseText_cases s with ⟨p, used, hready⟩ | ⟨blanks, p, text, rest, hblanks, hrecords, rfl,
    hrest, ⟨e', hbad, hstep⟩ | ⟨hwait, -⟩⟩
  · cases hready.symm.trans h
  · cases hbad.symm.trans h
    have hne : rest ≠ [] := by
      rintro rfl
      cases hstep
    rw [List.append_assoc, List.append_assoc,
      parseText_records hblanks hrecords (by rw [head_append hne]; exact hrest),
      parseLoop_bad (parseStep_bad_append t hstep)]
  · cases hwait.symm.trans h

theorem PacketText.ne_nil_text {p : Packet} {text : Str} (h : PacketText p text) : text ≠ [] := by
  obtain ⟨-, blanks, records, newline, -, -, hnewline, rfl⟩ := h
  cases hnewline <;> simp

/-- `parse` as a decoder of streams. -/
def packets : StreamDecoder Byte Packet BadPacket where
  decode := parseText
  used_pos h := by
    obtain ⟨text, rest, htext, -, rfl⟩ := parseText_iff.mp h
    exact List.length_pos_iff.mpr htext.ne_nil_text
  used_le h := by
    obtain ⟨text, rest, -, rfl, rfl⟩ := parseText_iff.mp h
    rw [List.length_append]
    exact Nat.le_add_right _ _
  ready_append t h := by
    obtain ⟨text, rest, htext, rfl, rfl⟩ := parseText_iff.mp h
    exact parseText_iff.mpr ⟨text, rest ++ t, htext, List.append_assoc _ _ _, rfl⟩
  bad_append t h := parseText_bad_append t h

/-! ## Waiting for ever -/

/-- Something else than a newline stands behind a record. -/
def NoNewline (s : Str) : Prop :=
  ∃ c t, s = c :: t ∧ c ≠ LF ∧ (c = CR → ∃ d u, t = d :: u ∧ d ≠ LF)

/-- A record of the size that was announced is not followed by a newline. -/
def Stalled (s : Str) : Prop :=
  ∃ blanks p text head_str body after, (∀ c ∈ blanks, IsBlank c) ∧
    Records blanks.length p text ∧ Header head_str body.length ∧ NoNewline after ∧
    s = blanks ++ (text ++ (head_str ++ LF :: (body ++ after)))

theorem NoNewline.append {s : Str} (h : NoNewline s) (t : Str) : NoNewline (s ++ t) := by
  obtain ⟨c, s, rfl, hc, hcr⟩ := h
  refine ⟨c, s ++ t, rfl, hc, fun h => ?_⟩
  obtain ⟨d, u, rfl, hd⟩ := hcr h
  exact ⟨d, u ++ t, rfl, hd⟩

theorem NoNewline.behindRecord {s : Str} (h : NoNewline s) : behindRecord s = none := by
  obtain ⟨c, s, rfl, hc, hcr⟩ := h
  rw [Server5204.behindRecord, if_neg hc, if_neg]
  rintro ⟨rfl, hhead⟩
  obtain ⟨d, u, rfl, hd⟩ := hcr rfl
  exact hd (Option.some.inj hhead)

/-- Behind a record there is a newline, something else, or not yet enough to tell. -/
theorem behindRecord_none {s : Str} (h : behindRecord s = none) :
    NoNewline s ∨ s = [] ∨ s = [CR] := by
  cases s with
  | nil => exact .inr (.inl rfl)
  | cons c s =>
      rw [behindRecord] at h
      split at h
      · cases h
      next hc =>
      split at h
      · cases h
      next hcr =>
      by_cases hc' : c = CR
      · subst hc'
        cases s with
        | nil => exact .inr (.inr rfl)
        | cons d s => exact .inl ⟨CR, d :: s, rfl, hc, fun _ => ⟨d, s, rfl, by simpa using hcr⟩⟩
      · exact .inl ⟨c, s, rfl, hc, fun h => absurd h hc'⟩

theorem Stalled.append {s : Str} (h : Stalled s) (t : Str) : Stalled (s ++ t) := by
  obtain ⟨blanks, p, text, head_str, body, after, hblanks, hrecords, hheader, hafter, rfl⟩ := h
  refine ⟨blanks, p, text, head_str, body, after ++ t, hblanks, hrecords, hheader,
    hafter.append t, ?_⟩
  simp only [List.append_assoc, List.cons_append]

/-- A header in front of bytes that are not a record yet. -/
theorem parseStep_header {parsed : Nat} {head_str behind : Str} {n : Nat} (h : Header head_str n)
    (hwait : behind.length < n ∨ behindRecord (behind.drop n) = none) :
    parseStep parsed (head_str ++ LF :: behind) = .wait := by
  have hline : memchrLF (head_str ++ LF :: behind) = some (head_str, behind) :=
    memchrLF_iff.mpr ⟨rfl, h.line⟩
  have hshort := h.short
  have hint := h.int
  simp only [parseStep, hline, if_neg h.ne_newline, not_not.mpr h.digit, if_false, h.size,
    Int.toNat_natCast]
  rw [if_neg (by omega), if_neg (by omega), if_neg (by omega)]
  rcases hwait with hlt | hnone
  · rw [if_pos hlt]
  · split
    · rfl
    · simp only [hnone]

theorem Stalled.wait {s : Str} (h : Stalled s) : parseText s = .wait := by
  obtain ⟨blanks, p, text, head_str, body, after, hblanks, hrecords, hheader, hafter, rfl⟩ := h
  obtain ⟨c, hc, hdigit⟩ := hheader.digit
  obtain ⟨rest, rfl⟩ := List.head?_eq_some_iff.mp hc
  rw [parseText_records hblanks hrecords]
  · refine parseLoop_wait (parseStep_header hheader (.inr ?_))
    rw [List.drop_left]
    exact hafter.behindRecord
  · rintro - d hd
    cases hd
    exact not_isBlank_of_isDigit hdigit

theorem memchrLF_none {s : Str} (h : memchrLF s = none) : LF ∉ s := by
  induction s with
  | nil => exact List.not_mem_nil
  | cons c s ih =>
      rw [memchrLF] at h
      split at h
      · cases h
      · next hc =>
          rintro (_ | ⟨_, hmem⟩)
          · exact hc rfl
          · exact ih (Option.map_eq_none_iff.mp h) hmem

/-- What `parse` can wait for: the newline of a header, the bytes of a record, or the newline
behind it. -/
theorem parseStep_wait_cases {parsed : Nat} {head : Str} (h : parseStep parsed head = .wait) :
    LF ∉ head ∨ ∃ head_str n behind, Header head_str n ∧ head = head_str ++ LF :: behind ∧
      (behind.length < n ∨ n ≤ behind.length ∧ behindRecord (behind.drop n) = none) := by
  unfold parseStep at h
  split at h
  · next hline => exact .inl (memchrLF_none hline)
  · next head_str behind hline =>
      obtain ⟨rfl, hmem⟩ := memchrLF_iff.mp hline
      dsimp only at h
      split at h
      · cases h
      split at h
      · cases h
      next hdigit =>
      split at h
      · cases h
      next hshort =>
      split at h
      · cases h
      next hsize =>
      split at h
      · cases h
      next hint =>
      refine .inr ⟨head_str, (atoi head_str).toNat, behind,
        ⟨Decidable.not_not.mp hdigit, by omega, hmem, by omega, by omega⟩, rfl, ?_⟩
      split at h
      · next hlen => exact .inl hlen
      next hlen =>
      split at h
      · next hnone => exact .inr ⟨Nat.not_lt.mp hlen, hnone⟩
      · split at h <;> cases h

/-- The bytes are a packet, a refused text, or a record and the end of the packet. -/
def Settles (parsed : Nat) (head : Str) : Prop :=
  (∃ n, parseStep parsed head = .ended n) ∨ (∃ e, parseStep parsed head = .bad e) ∨
    ∃ body used, parseStep parsed head = .record body used [LF]

theorem Settles.parseLoop_ne {parsed : Nat} {recv_data : Packet} {head : Str}
    (h : Settles parsed head) : parseLoop parsed recv_data head ≠ .wait := by
  rcases h with ⟨n, hstep⟩ | ⟨e, hstep⟩ | ⟨body, used, hstep⟩
  · rw [parseLoop_ended hstep]
    simp
  · rw [parseLoop_bad hstep]
    simp
  · have hended : parseStep (parsed + used) [LF] = .ended 1 :=
      parseStep_ended_iff.mpr ⟨[LF], [], .lf, rfl, rfl⟩
    rw [parseLoop_record hstep, parseLoop_ended hended]
    simp

/-- A line with as many bytes as it may announce behind it, and two newlines. -/
theorem settles_line {parsed : Nat} {head_str behind : Str} {k : Nat} (hline : LF ∉ head_str)
    (hlen : (atoi head_str).toNat ≤ behind.length)
    (hbehind : behindRecord (behind.drop (atoi head_str).toNat) = some (k, [LF])) :
    Settles parsed (head_str ++ LF :: behind) := by
  have hmemchr : memchrLF (head_str ++ LF :: behind) = some (head_str, behind) :=
    memchrLF_iff.mpr ⟨rfl, hline⟩
  simp only [Settles, parseStep, hmemchr, if_neg (Nat.not_lt.mpr hlen), hbehind]
  split
  · exact .inl ⟨_, rfl⟩
  split
  · exact .inr (.inl ⟨_, rfl⟩)
  split
  · exact .inr (.inl ⟨_, rfl⟩)
  split
  · exact .inr (.inl ⟨_, rfl⟩)
  split
  · exact .inr (.inl ⟨_, rfl⟩)
  split
  · exact .inr (.inl ⟨_, rfl⟩)
  · exact .inr (.inr ⟨_, _, rfl⟩)

/-- Bytes that settle what `parse` waits for. -/
theorem exists_settles {parsed : Nat} {rest : Str} (hwait : parseStep parsed rest = .wait)
    (hrest : ∀ head_str body after, Header head_str body.length →
      rest = head_str ++ LF :: (body ++ after) → ¬ NoNewline after) :
    ∃ t, Settles parsed (rest ++ t) ∧ (rest = [] → ∀ c ∈ t.head?, ¬ IsBlank c) := by
  rcases parseStep_wait_cases hwait with hmem | ⟨head_str, n, behind, hheader, rfl, hbehind⟩
  · by_cases hnil : rest = []
    · subst hnil
      refine ⟨[120, LF], .inr (.inl ⟨.format, rfl⟩), ?_⟩
      rintro - c hc
      cases hc
      decide
    · refine ⟨LF :: (List.replicate (atoi rest).toNat 0 ++ [LF, LF]), ?_, fun h => absurd h hnil⟩
      refine settles_line hmem ?_ (?_ : _ = some (1, [LF]))
      · rw [List.length_append, List.length_replicate]
        exact Nat.le_add_right _ _
      · rw [List.drop_left' (List.length_replicate ..)]
        rfl
  · have hsize : (atoi head_str).toNat = n := by
      rw [hheader.size]
      exact Int.toNat_natCast n
    have hne : head_str ++ LF :: behind ≠ [] := by simp
    have hsettles : ∀ (t : Str) (k : Nat), n ≤ (behind ++ t).length →
        behindRecord ((behind ++ t).drop n) = some (k, [LF]) →
        Settles parsed (head_str ++ LF :: behind ++ t) := by
      intro t k hlen hrecord
      rw [List.append_assoc, List.cons_append]
      exact settles_line hheader.line (hsize ▸ hlen) (hsize ▸ hrecord)
    rcases hbehind with hlt | ⟨hle, hnone⟩
    · refine ⟨List.replicate (n - behind.length) 0 ++ [LF, LF], hsettles _ 1 ?_ ?_,
        fun h => absurd h hne⟩
      · simp only [List.length_append, List.length_replicate]
        omega
      · rw [← List.append_assoc, List.drop_left' (by
          rw [List.length_append, List.length_replicate]
          omega)]
        rfl
    · rcases behindRecord_none hnone with hstall | hdrop | hdrop
      · refine absurd hstall (hrest head_str (behind.take n) (behind.drop n) ?_ ?_)
        · rw [List.length_take_of_le hle]
          exact hheader
        · rw [List.take_append_drop]
      · refine ⟨[LF, LF], hsettles _ 1 ?_ ?_, fun h => absurd h hne⟩
        · rw [List.length_append]
          omega
        · rw [List.drop_append_of_le_length hle, hdrop]
          rfl
      · refine ⟨[LF, LF], hsettles _ 2 ?_ ?_, fun h => absurd h hne⟩
        · rw [List.length_append]
          omega
        · rw [List.drop_append_of_le_length hle, hdrop]
          rfl

/-- `parse` waits for ever exactly if a record of the announced size is not followed by a
newline. -/
theorem stalled_iff (s : Str) : (∀ t, parseText (s ++ t) = .wait) ↔ Stalled s := by
  constructor
  · intro h
    by_contra hs
    have hwait := h []
    rw [List.append_nil] at hwait
    rcases parseText_cases s with ⟨p, used, hready⟩ | ⟨blanks, p, text, rest, hblanks, hrecords,
      rfl, hrest, ⟨e, hbad, -⟩ | ⟨-, hstep⟩⟩
    · cases hready.symm.trans hwait
    · cases hbad.symm.trans hwait
    · obtain ⟨t, hsettles, ht⟩ := exists_settles hstep fun head_str body after hheader heq hafter =>
        hs ⟨blanks, p, text, head_str, body, after, hblanks, hrecords, hheader, hafter, by
          rw [heq]⟩
      have hhead : p = [] → ∀ c ∈ (rest ++ t).head?, ¬ IsBlank c := by
        intro hp
        by_cases hnil : rest = []
        · rw [hnil]
          exact ht hnil
        · rw [head_append hnil]
          exact hrest hp
      have hmore := h t
      rw [List.append_assoc, List.append_assoc, parseText_records hblanks hrecords hhead] at hmore
      exact hsettles.parseLoop_ne hmore
  · exact fun h t => (h.append t).wait

/-! ## What is sent -/

/-- `parse` can take the packet: it is not empty, and its records are not too long. -/
structure Sendable (p : Packet) : Prop where
  ne_nil : p ≠ []
  max : (p.flatMap recordText).length ≤ MAX_PACKET_SIZE

instance (p : Packet) : Decidable (Sendable p) :=
  decidable_of_iff (p ≠ [] ∧ (p.flatMap recordText).length ≤ MAX_PACKET_SIZE)
    ⟨fun h => ⟨h.1, h.2⟩, fun h => ⟨h.ne_nil, h.max⟩⟩

theorem header_digits {n : Nat} (h : n ≤ MAX_PACKET_SIZE) : Header (digits n) n := by
  have hlt : n < 10 ^ 9 := Nat.lt_of_le_of_lt h (by decide)
  have hlen := (length_digits_le_iff (n := n) (k := 9) (by decide)).mpr hlt
  have hmax : n ≤ 134217728 := h
  have hint : (n : Int) ≤ INT_MAX := by
    rw [INT_MAX]
    omega
  have hatoi := atoi_digits hint noDigitFirst_nil
  rw [List.append_nil] at hatoi
  refine ⟨?_, by omega, ?_, hatoi, ?_⟩
  · obtain ⟨c, t, hdigits, hc⟩ := digits_cons n
    exact ⟨c, by rw [hdigits]; rfl, hc⟩
  · exact fun hmem => absurd (isDigit_of_mem_digits hmem) (by decide)
  · rw [INT_MAX]
    omega

/-- A record as it is written. -/
theorem recordAt_recordText {parsed : Nat} {s : Str}
    (h : parsed + (recordText s).length ≤ MAX_PACKET_SIZE) :
    RecordAt parsed s (recordText s) := by
  refine ⟨⟨digits s.length, [LF], header_digits ?_, .lf, rfl⟩, h⟩
  rw [recordText, List.length_append, List.length_cons, List.length_append] at h
  omega

theorem records_flatMap {parsed : Nat} {p : Packet}
    (h : parsed + (p.flatMap recordText).length ≤ MAX_PACKET_SIZE) :
    Records parsed p (p.flatMap recordText) := by
  induction p generalizing parsed with
  | nil => exact .nil parsed
  | cons s p ih =>
      rw [List.flatMap_cons, List.length_append] at h
      exact .cons (recordAt_recordText (by omega)) (ih (by omega))

/-- The text of `send` is in the grammar of `parse`. -/
theorem Sendable.packetText {p : Packet} (h : Sendable p) : PacketText p (packetText p) := by
  refine ⟨h.ne_nil, [], p.flatMap recordText, [LF], by simp, ?_, .lf, rfl⟩
  refine records_flatMap ?_
  rw [List.length_nil, Nat.zero_add]
  exact h.max

theorem drained_nil : packets.Drained [] := by
  intro p used h
  have hready : parseText [] = .ready p used := h
  rw [parseText, List.dropWhile_nil, parseLoop_wait rfl] at hready
  cases hready

/-- A stream of packets carries these packets. -/
theorem carries_sent {ps : List Packet} (h : ∀ p ∈ ps, Sendable p) :
    packets.Carries (ps.flatMap Server5204.packetText) ps [] := by
  induction ps with
  | nil => exact .nil []
  | cons p ps ih =>
      have hready : packets.decode (Server5204.packetText p ++ ps.flatMap Server5204.packetText) =
          .ready p (Server5204.packetText p).length :=
        parseText_iff.mpr ⟨_, _, (h p List.mem_cons_self).packetText, rfl, rfl⟩
      refine .cons hready ?_
      rw [List.flatMap_cons, List.drop_left]
      exact ih fun q hq => h q (List.mem_cons_of_mem p hq)

end KvServer.Server5204
