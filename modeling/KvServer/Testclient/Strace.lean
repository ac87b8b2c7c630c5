import Mathlib.Data.List.Chain
import KvServer.Testclient.Lines

/-!
# Requests and responses in a trace

`strace` prints the bytes that were sent and received as a string in quotes, and
`checkoutput` reads the messages back.  `quoted` is what `strace` prints.

`parseSend` and `parseResponse` are the same scan (`parseLoop`) for two kinds of
message.  It takes an escape sequence for a backslash and decimal digits, leaves out
every `'?'` of a value, and takes one byte for the header of each message but the
first.  So it finds a message again if it is the only one and its bytes survive this
(`Survives`).  Of more, it finds the second only if all its bytes behind the opcode are the
same (`sendsFound_more`, `responsesFound_more`).
-/

namespace KvServer.Testclient

/-! ## What `strace` prints -/

/-- `'"'` -/
def QUOTE : Byte := 34

/-- `'\\'` -/
def BACKSLASH : Byte := 92

/-- `'?'` -/
def QUESTION : Byte := 63

def Printable (c : Byte) : Prop := 32 ≤ c ∧ c ≤ 126

instance (c : Byte) : Decidable (Printable c) := inferInstanceAs (Decidable (_ ∧ _))

/-- The three octal digits of a byte. -/
def octal (c : Byte) : Str := [48 + c / 64, 48 + c / 8 % 8, 48 + c % 8]

/-- The octal digits without leading zeros. -/
def shortOctal (c : Byte) : Str :=
  if c < 8 then [48 + c] else if c < 64 then [48 + c / 8, 48 + c % 8] else octal c

/-- The letter of the C escape of a byte. -/
def escapeLetter (c : Byte) : Option Byte :=
  if c = QUOTE ∨ c = BACKSLASH then some c
  else if c = 9 then some 116
  else if c = 10 then some 110
  else if c = 11 then some 118
  else if c = 12 then some 102
  else if c = 13 then some 114
  else none

/-- A byte as `strace` prints it before `next`. -/
def quoteByte (c : Byte) (next : Option Byte) : Str :=
  match escapeLetter c with
  | some letter => [BACKSLASH, letter]
  | none =>
      if Printable c then [c]
      else if ∃ d ∈ next, IsDigit d then BACKSLASH :: octal c
      else BACKSLASH :: shortOctal c

def quoteBytes : List Byte → Str
  | [] => []
  | c :: rest => quoteByte c rest.head? ++ quoteBytes rest

/-- The string in its quotes. -/
def quoted (bytes : List Byte) : Str := QUOTE :: (quoteBytes bytes ++ [QUOTE])

/-! ## The parsers -/

/-- How a parser fails: it reads the token behind its end, or `stoi` or `substr` throws. -/
inductive Fault where
  | outside
  | exception
deriving DecidableEq, Repr

/-- The message that is being read.  `keyindex` and `valueindex` are the lengths. -/
structure Scan where
  status : Byte
  key : Str
  value : Str
deriving DecidableEq, Repr

/-- `keyindex==16 and valueindex==32` -/
def Scan.Full (s : Scan) : Prop := s.key.length = 16 ∧ s.value.length = 32

instance (s : Scan) : Decidable s.Full := inferInstanceAs (Decidable (_ ∧ _))

/-- A char goes into the key or into the value.  After the key `currentchar` is `'?'`, which
does not go into the value. -/
def Scan.put (s : Scan) (currentchar : Byte) : Scan :=
  let (s, currentchar) :=
    if s.key.length < 16 then ({ s with key := s.key ++ [currentchar] }, QUESTION)
    else (s, currentchar)
  if 16 ≤ s.key.length ∧ s.value.length < 32 ∧ currentchar ≠ QUESTION then
    { s with value := s.value ++ [currentchar] }
  else s

/-- The number as a char. -/
def decimal (digits : Str) : Byte := UInt8.ofNat (number digits)

/-- The char of an escape sequence and the number of its digits. -/
def escape (rest : Str) : Byte × Nat :=
  let digits := rest.takeWhile fun c => IsDigit c
  (decimal digits, digits.length)

/-- After a message: the message that is read next, and how many chars are skipped for it. -/
def nextScan (s : Scan) (rest : Str) : Option (Nat × Scan) :=
  if rest.head? = some QUOTE then some (0, s)
  else (rest[1]?.bind stoi).map fun status => (2, ⟨status, [], []⟩)

/-- The loop of a parser, from a place in the token on.  `currentindex` is `ahead` chars
further.  The end of the token reads as `'\0'`, and then the loop goes on behind it. -/
def parseLoop (bounded : Bool) : Str → Nat → Scan → Except Fault (List Scan)
  | [], 0, s => if bounded ∧ 32 ≤ s.value.length then .ok [] else .error .outside
  | [], _ + 1, _ => .error .outside
  | _ :: rest, ahead + 1, s => parseLoop bounded rest ahead s
  | c :: rest, 0, s =>
      if c = QUOTE ∨ (bounded ∧ 32 ≤ s.value.length) then .ok []
      else
        let (currentchar, ahead) := if c = BACKSLASH then escape rest else (c, 0)
        let s := s.put currentchar
        if s.Full then
          match nextScan s (rest.drop ahead) with
          | none => .error .exception
          | some (skip, s') => (parseLoop bounded rest (ahead + skip) s').map (s :: ·)
        else parseLoop bounded rest ahead s

/-- The messages in a token. -/
def parseToken (bounded : Bool) (token : Str) : Except Fault (List Scan) :=
  match token[2]?.bind stoi with
  | none => .error .exception
  | some status => parseLoop bounded (token.drop 5) 0 ⟨status, [], []⟩

/-- `parseSend` -/
def parseSend (token : Str) : Except Fault (List SendMessage) :=
  (parseToken false token).map (List.map fun s =>
    { operation := s.status, keepalive := 1, key := pad 16 s.key, value := pad 32 s.value })

/-- `parseResponse`.  Its loop also ends when the value is full. -/
def parseResponse (token : Str) : Except Fault (List ResponseMessage) :=
  (parseToken true token).map (List.map fun s =>
    { status_code := s.status, keepalive := 0, key := pad 16 s.key, value := pad 32 s.value })

/-! ## Bytes in the text -/

/-- The scan reads the byte as it is. -/
def Kept (c : Byte) : Prop := c ≤ 7 ∨ (Printable c ∧ c ≠ QUOTE ∧ c ≠ BACKSLASH)

instance (c : Byte) : Decidable (Kept c) := inferInstanceAs (Decidable (_ ∨ _))

/-- The byte is printed in octal. -/
def InOctal (c : Byte) : Prop := escapeLetter c = none ∧ ¬ Printable c

instance (c : Byte) : Decidable (InOctal c) := inferInstanceAs (Decidable (_ ∧ _))

theorem shortOctal_digits (c : Byte) : ∀ d ∈ shortOctal c, IsDigit d := by
  have hall : ∀ c : Byte, ((shortOctal c).all fun d => IsDigit d) = true :=
    forall_byte (by decide +kernel)
  exact fun d hd => of_decide_eq_true (List.all_eq_true.mp (hall c) d hd)

/-- Octal digits are read as decimal digits, which is right for one digit only. -/
theorem decimal_shortOctal : ∀ c : Byte, InOctal c → (decimal (shortOctal c) = c ↔ Kept c) :=
  forall_byte (by decide +kernel)

theorem decimal_shortOctal_ne : ∀ c : Byte, InOctal c → decimal (shortOctal c) ≠ QUESTION :=
  forall_byte (by decide +kernel)

theorem escapeLetter_spec {c letter : Byte} (h : escapeLetter c = some letter) :
    ¬ IsDigit letter ∧ ¬ Kept c ∧ c ≠ 0 := by
  have hall : ∀ c : Byte, ((escapeLetter c).all fun letter =>
      ¬ IsDigit letter ∧ ¬ Kept c ∧ c ≠ 0) = true :=
    forall_byte (by decide +kernel)
  have hc := hall c
  rw [h] at hc
  exact of_decide_eq_true hc

/-- No digit comes first. -/
def NoDigit (chars : Str) : Prop := ∀ d ∈ chars.head?, ¬ IsDigit d

theorem escape_append {digits chars : Str} (hdigits : ∀ d ∈ digits, IsDigit d)
    (h : NoDigit chars) : escape (digits ++ chars) = (decimal digits, digits.length) := by
  have htake : (digits ++ chars).takeWhile (fun c => IsDigit c) = digits := by
    rw [List.takeWhile_append_of_pos fun d hd => decide_eq_true (hdigits d hd)]
    cases chars with
    | nil => simp
    | cons c chars => simp [h c rfl]
  rw [escape, htake]

/-- Text starts with a digit only if the bytes do. -/
theorem noDigit_quoteBytes {bytes : List Byte} (chars : Str)
    (h : ∀ d ∈ bytes.head?, ¬ IsDigit d) : NoDigit (quoteBytes bytes ++ QUOTE :: chars) := by
  cases bytes with
  | nil =>
      rintro d hd
      cases hd
      decide
  | cons c bytes =>
      have hbackslash : ¬ IsDigit BACKSLASH := by decide
      rintro d hd
      rw [quoteBytes, quoteByte] at hd
      split at hd
      · cases hd
        exact hbackslash
      · split at hd
        · cases hd
          exact h c rfl
        · split at hd <;> cases hd <;> exact hbackslash

/-- A char of the text, what it is read as, and how much of the text this takes. -/
structure Reads (x : Byte) (rest : Str) (w : Byte) (ahead : Nat) : Prop where
  quote : x ≠ QUOTE
  read : (if x = BACKSLASH then escape rest else (x, 0)) = (w, ahead)

/-- A byte in the text.  If it is kept it is read and nothing else, and otherwise something
else is read.  A byte in octal has to end before the next digit. -/
theorem quoteByte_reads {c : Byte} {bytes : List Byte} (chars : Str)
    (h : InOctal c → ∀ d ∈ bytes.head?, ¬ IsDigit d) :
    ∃ x rest w ahead, quoteByte c bytes.head? ++ (quoteBytes bytes ++ QUOTE :: chars) = x :: rest ∧
      Reads x rest w ahead ∧
      ((Kept c ∧ w = c ∧ rest.drop ahead = quoteBytes bytes ++ QUOTE :: chars) ∨
        (¬ Kept c ∧ w ≠ c ∧ w ≠ QUESTION)) := by
  rw [quoteByte]
  cases hl : escapeLetter c with
  | some letter =>
      obtain ⟨hdigit, hkept, hzero⟩ := escapeLetter_spec hl
      refine ⟨_, _, 0, 0, rfl, ⟨by decide, ?_⟩, Or.inr ⟨hkept, hzero.symm, by decide⟩⟩
      exact @escape_append [] _ (fun d hd => by cases hd) (fun d hd => by cases hd; exact hdigit)
  | none =>
      by_cases hp : Printable c
      · have hquote : c ≠ QUOTE := by
          rintro rfl
          cases hl
        have hbackslash : c ≠ BACKSLASH := by
          rintro rfl
          cases hl
        refine ⟨c, _, c, 0, by rw [if_pos hp]; rfl, ⟨hquote, if_neg hbackslash⟩, Or.inl ?_⟩
        exact ⟨Or.inr ⟨hp, hquote, hbackslash⟩, rfl, rfl⟩
      · have hoctal : InOctal c := ⟨hl, hp⟩
        have hnext : ¬ ∃ d ∈ bytes.head?, IsDigit d := fun ⟨d, hd, hdigit⟩ => h hoctal d hd hdigit
        refine ⟨BACKSLASH, _, decimal (shortOctal c), (shortOctal c).length,
          by rw [if_neg hp, if_neg hnext]; rfl, ⟨by decide, ?_⟩, ?_⟩
        · exact escape_append (shortOctal_digits c) (noDigit_quoteBytes chars (h hoctal))
        · by_cases hkept : Kept c
          · exact Or.inl ⟨hkept, (decimal_shortOctal c hoctal).mpr hkept, List.drop_left⟩
          · exact Or.inr ⟨hkept, fun heq => hkept ((decimal_shortOctal c hoctal).mp heq),
              decimal_shortOctal_ne c hoctal⟩

/-! ## The scan -/

theorem Scan.put_key {s : Scan} (w : Byte) (h : s.key.length < 16) :
    s.put w = { s with key := s.key ++ [w] } := by
  simp [Scan.put, h]

theorem Scan.put_value {s : Scan} {w : Byte} (hkey : s.key.length = 16)
    (hvalue : s.value.length < 32) (hw : w ≠ QUESTION) :
    s.put w = { s with value := s.value ++ [w] } := by
  simp [Scan.put, hkey, hvalue, hw]

/-- What is in the key stays there, what is in the value stays there, and `'?'` is never added
to the value. -/
def Scan.Extends (s t : Scan) : Prop :=
  t.status = s.status ∧ s.key <+: t.key ∧ ∃ u, t.value = s.value ++ u ∧ QUESTION ∉ u

theorem Scan.Extends.refl (s : Scan) : s.Extends s :=
  ⟨rfl, List.prefix_rfl, [], (List.append_nil _).symm, List.not_mem_nil⟩

theorem Scan.Extends.trans {s t r : Scan} (h : s.Extends t) (h' : t.Extends r) : s.Extends r := by
  obtain ⟨hstatus, hkey, u, hvalue, hu⟩ := h
  obtain ⟨hstatus', hkey', u', hvalue', hu'⟩ := h'
  refine ⟨hstatus'.trans hstatus, hkey.trans hkey', u ++ u', ?_, ?_⟩
  · rw [hvalue', hvalue, List.append_assoc]
  · rw [List.mem_append]
    exact fun hmem => hmem.elim hu hu'

theorem Scan.put_extends (s : Scan) (w : Byte) : s.Extends (s.put w) := by
  unfold Scan.put
  by_cases hkey : s.key.length < 16
  · simp only [hkey, if_true, ne_eq, not_true, and_false, if_false]
    exact ⟨rfl, List.prefix_append _ _, [], (List.append_nil _).symm, List.not_mem_nil⟩
  · simp only [hkey, if_false]
    split
    · next hput =>
        refine ⟨rfl, List.prefix_rfl, [w], rfl, ?_⟩
        rw [List.mem_singleton]
        exact fun heq => hput.2.2 heq.symm
    · exact Scan.Extends.refl s

section Loop

variable {bounded : Bool} {x w c : Byte} {rest chars : Str} {ahead : Nat} {s : Scan}

/-- Skipping. -/
theorem parseLoop_drop_add (bounded : Bool) (s : Scan) (skip : Nat) (h : rest.drop ahead = chars)
    (hne : chars ≠ []) :
    parseLoop bounded rest (ahead + skip) s = parseLoop bounded chars skip s := by
  induction rest generalizing ahead with
  | nil => exact absurd (h.symm.trans List.drop_nil) hne
  | cons d rest ih =>
      cases ahead with
      | zero =>
          rw [Nat.zero_add]
          exact congrArg (parseLoop bounded · skip s) h
      | succ ahead =>
          rw [Nat.succ_add]
          exact ih h

theorem parseLoop_drop (bounded : Bool) (s : Scan) (h : rest.drop ahead = chars)
    (hne : chars ≠ []) : parseLoop bounded rest ahead s = parseLoop bounded chars 0 s :=
  parseLoop_drop_add bounded s 0 h hne

/-- The loop goes on behind a message. -/
def parseNext (bounded : Bool) (s : Scan) (chars : Str) : Except Fault (List Scan) :=
  match nextScan s chars with
  | none => .error .exception
  | some (skip, s') => (parseLoop bounded chars skip s').map (s :: ·)

/-- It finds the end of the token. -/
theorem parseNext_quote (bounded : Bool) (s : Scan) (chars : Str) :
    parseNext bounded s (QUOTE :: chars) = .ok [s] := by
  have hstop : parseLoop bounded (QUOTE :: chars) 0 s = .ok [] := by
    rw [parseLoop]
    exact if_pos (Or.inl rfl)
  have hnext : nextScan s (QUOTE :: chars) = some (0, s) := rfl
  rw [parseNext, hnext]
  simp only [hstop]
  rfl

/-- The loop does not end in front of the char. -/
theorem Reads.not_stop (h : Reads x rest w ahead) (hroom : s.value.length < 32) :
    ¬ (x = QUOTE ∨ (bounded ∧ 32 ≤ s.value.length)) := by
  rintro (hquote | ⟨-, hfull⟩)
  · exact h.quote hquote
  · exact Nat.not_le.mpr hroom hfull

/-- One char that does not complete the message. -/
theorem parseLoop_reads (hroom : s.value.length < 32) (h : Reads x rest w ahead)
    (hfull : ¬ (s.put w).Full) :
    parseLoop bounded (x :: rest) 0 s = parseLoop bounded rest ahead (s.put w) := by
  rw [parseLoop, if_neg (h.not_stop hroom), h.read]
  exact if_neg hfull

/-- The char that completes the message. -/
theorem parseLoop_reads_full (hroom : s.value.length < 32) (h : Reads x rest w ahead)
    (hrest : rest.drop ahead = chars) (hne : chars ≠ []) (hfull : (s.put w).Full) :
    parseLoop bounded (x :: rest) 0 s = parseNext bounded (s.put w) chars := by
  rw [parseLoop, if_neg (h.not_stop hroom), h.read, parseNext]
  simp only [if_pos hfull, hrest]
  cases hnext : nextScan (s.put w) chars with
  | none => rfl
  | some next =>
      obtain ⟨skip, s'⟩ := next
      simp only [parseLoop_drop_add bounded s' skip hrest hne]

/-- Where the first message of a scan comes from. -/
theorem parseLoop_cons_ok {t : Scan} {ts : List Scan}
    (h : parseLoop bounded (x :: rest) 0 s = .ok (t :: ts)) :
    ∃ w ahead, (if x = BACKSLASH then escape rest else (x, 0)) = (w, ahead) ∧
      ((t = s.put w ∧ t.Full) ∨ parseLoop bounded rest ahead (s.put w) = .ok (t :: ts)) := by
  rw [parseLoop] at h
  split at h
  · cases h
  · rcases hr : (if x = BACKSLASH then escape rest else (x, 0)) with ⟨w, ahead⟩
    rw [hr] at h
    refine ⟨w, ahead, rfl, ?_⟩
    dsimp only at h
    split at h
    · next hfull =>
        split at h
        · cases h
        · next skip s' _ =>
            cases hloop : parseLoop bounded rest (ahead + skip) s' with
            | error fault => rw [hloop] at h; cases h
            | ok ts' =>
                rw [hloop] at h
                cases h
                exact Or.inl ⟨rfl, hfull⟩
    · exact Or.inr h

/-- The first message that the scan finds extends the one it has begun, and it is complete. -/
theorem parseLoop_first {t : Scan} {ts : List Scan}
    (h : parseLoop bounded chars ahead s = .ok (t :: ts)) : s.Extends t ∧ t.Full := by
  induction chars generalizing ahead s with
  | nil =>
      cases ahead with
      | zero =>
          rw [parseLoop] at h
          split at h <;> cases h
      | succ ahead => cases h
  | cons x rest ih =>
      cases ahead with
      | succ ahead => exact ih h
      | zero =>
          obtain ⟨w, ahead, -, ⟨rfl, hfull⟩ | hloop⟩ := parseLoop_cons_ok h
          · exact ⟨s.put_extends w, hfull⟩
          · obtain ⟨hextends, hfull⟩ := ih hloop
            exact ⟨(s.put_extends w).trans hextends, hfull⟩

/-- So it is the one it has begun with the next char put in. -/
theorem parseLoop_reads_extends {t : Scan} {ts : List Scan} (h : Reads x rest w ahead)
    (hloop : parseLoop bounded (x :: rest) 0 s = .ok (t :: ts)) : (s.put w).Extends t := by
  obtain ⟨w', ahead', hread, hcase⟩ := parseLoop_cons_ok hloop
  cases h.read.symm.trans hread
  rcases hcase with ⟨rfl, -⟩ | hloop'
  · exact Scan.Extends.refl _
  · exact (parseLoop_first hloop').1

/-! ## The scan of a quoted message -/

/-- A byte that is printed in octal is not directly followed by a digit. -/
def Apart (bytes : List Byte) : Prop := bytes.IsChain fun c next => InOctal c → ¬ IsDigit next

instance (bytes : List Byte) : Decidable (Apart bytes) :=
  inferInstanceAs (Decidable (List.IsChain _ _))

theorem Apart.head {bytes : List Byte} (h : Apart (c :: bytes)) :
    InOctal c → ∀ d ∈ bytes.head?, ¬ IsDigit d := by
  intro hoctal d hd
  cases bytes with
  | nil => cases hd
  | cons e bytes =>
      cases hd
      exact (List.isChain_cons_cons.mp h).1 hoctal

theorem Apart.tail {bytes : List Byte} (h : Apart (c :: bytes)) : Apart bytes := by
  cases bytes with
  | nil => exact .nil
  | cons d bytes => exact (List.isChain_cons_cons.mp h).2

theorem quoteBytes_append_ne_nil (bytes : List Byte) (chars : Str) :
    quoteBytes bytes ++ QUOTE :: chars ≠ [] := by
  simp

section Byte

variable {bytes : List Byte} (hapart : Apart (c :: bytes))
include hapart

/-- A byte that does not complete the message. -/
theorem parseLoop_byte (hroom : s.value.length < 32) (hkept : Kept c)
    (hfull : ¬ (s.put c).Full) :
    parseLoop bounded (quoteBytes (c :: bytes) ++ QUOTE :: chars) 0 s =
      parseLoop bounded (quoteBytes bytes ++ QUOTE :: chars) 0 (s.put c) := by
  obtain ⟨x, rest, w, ahead, htext, hreads, ⟨-, rfl, hdrop⟩ | ⟨hnot, -⟩⟩ :=
    quoteByte_reads chars hapart.head
  · rw [quoteBytes, List.append_assoc, htext, parseLoop_reads hroom hreads hfull,
      parseLoop_drop bounded _ hdrop (quoteBytes_append_ne_nil _ _)]
  · exact absurd hkept hnot

/-- The byte that completes the message. -/
theorem parseLoop_full_byte (hroom : s.value.length < 32) (hkept : Kept c)
    (hfull : (s.put c).Full) :
    parseLoop bounded (quoteBytes (c :: bytes) ++ QUOTE :: chars) 0 s =
      parseNext bounded (s.put c) (quoteBytes bytes ++ QUOTE :: chars) := by
  obtain ⟨x, rest, w, ahead, htext, hreads, ⟨-, rfl, hdrop⟩ | ⟨hnot, -⟩⟩ :=
    quoteByte_reads chars hapart.head
  · rw [quoteBytes, List.append_assoc, htext]
    exact parseLoop_reads_full hroom hreads hdrop (quoteBytes_append_ne_nil _ _) hfull
  · exact absurd hkept hnot

/-- A byte that is not kept. -/
theorem parseLoop_bad_byte {t : Scan} {ts : List Scan} (hnot : ¬ Kept c)
    (h : parseLoop bounded (quoteBytes (c :: bytes) ++ QUOTE :: chars) 0 s = .ok (t :: ts)) :
    ∃ w, w ≠ c ∧ w ≠ QUESTION ∧ (s.put w).Extends t := by
  obtain ⟨x, rest, w, ahead, htext, hreads, ⟨hkept, -⟩ | ⟨-, hw, hquestion⟩⟩ :=
    quoteByte_reads chars hapart.head
  · exact absurd hkept hnot
  · rw [quoteBytes, List.append_assoc, htext] at h
    exact ⟨w, hw, hquestion, parseLoop_reads_extends hreads h⟩

end Byte

/-- The key of the message. -/
theorem parseLoop_key {key bytes : List Byte} (hapart : Apart (key ++ bytes))
    (hlen : s.key.length + key.length = 16) (hvalue : s.value = []) (hkept : ∀ c ∈ key, Kept c) :
    parseLoop bounded (quoteBytes (key ++ bytes) ++ QUOTE :: chars) 0 s =
      parseLoop bounded (quoteBytes bytes ++ QUOTE :: chars) 0 { s with key := s.key ++ key } := by
  induction key generalizing s with
  | nil => rw [List.append_nil, List.nil_append]
  | cons c key ih =>
      rw [List.length_cons] at hlen
      have hput := Scan.put_key c (show s.key.length < 16 by omega)
      have hapart' : Apart (c :: (key ++ bytes)) := hapart
      have hrest := @ih { s with key := s.key ++ [c] } hapart'.tail
        (by rw [List.length_append, List.length_singleton]; omega) hvalue
        (fun d hd => hkept d (List.mem_cons_of_mem _ hd))
      rw [List.cons_append, parseLoop_byte hapart' (by simp [hvalue])
        (hkept c List.mem_cons_self) (by simp [hput, hvalue, Scan.Full]), hput, hrest]
      simp

/-- The value of the message. -/
theorem parseLoop_value {value bytes : List Byte} (hapart : Apart (value ++ bytes))
    (hne : value ≠ []) (hkey : s.key.length = 16) (hlen : s.value.length + value.length = 32)
    (hkept : ∀ c ∈ value, Kept c ∧ c ≠ QUESTION) :
    parseLoop bounded (quoteBytes (value ++ bytes) ++ QUOTE :: chars) 0 s =
      parseNext bounded { s with value := s.value ++ value }
        (quoteBytes bytes ++ QUOTE :: chars) := by
  induction value generalizing s with
  | nil => exact absurd rfl hne
  | cons c value ih =>
      obtain ⟨hc, hquestion⟩ := hkept c List.mem_cons_self
      rw [List.length_cons] at hlen
      have hroom : s.value.length < 32 := by omega
      have hput := Scan.put_value hkey hroom hquestion
      have hlen' : (s.put c).value.length = s.value.length + 1 := by simp [hput]
      have hapart' : Apart (c :: (value ++ bytes)) := hapart
      rw [List.cons_append]
      cases value with
      | nil =>
          have hfull : (s.put c).value.length = 32 := hlen'.trans hlen
          rw [parseLoop_full_byte hapart' hroom hc ⟨by rw [hput]; exact hkey, hfull⟩, hput,
            List.nil_append]
      | cons d value =>
          have hnot : (s.put c).value.length ≠ 32 := by
            rw [List.length_cons] at hlen
            omega
          have hrest := @ih { s with value := s.value ++ [c] } hapart'.tail (List.cons_ne_nil _ _)
            hkey (by rw [List.length_append, List.length_singleton]; omega)
            (fun e he => hkept e (List.mem_cons_of_mem _ he))
          rw [parseLoop_byte hapart' hroom hc (fun hfull => hnot hfull.2), hput, hrest]
          simp

/-- If the scan finds the key, it has kept each of its bytes. -/
theorem kept_of_parseLoop_key {key bytes : List Byte} {t : Scan} {ts : List Scan}
    (hapart : Apart (key ++ bytes)) (hlen : s.key.length + key.length = 16) (hvalue : s.value = [])
    (h : parseLoop bounded (quoteBytes (key ++ bytes) ++ QUOTE :: chars) 0 s = .ok (t :: ts))
    (hkey : t.key = s.key ++ key) : ∀ c ∈ key, Kept c := by
  induction key generalizing s with
  | nil =>
      intro c hc
      cases hc
  | cons c key ih =>
      rw [List.length_cons] at hlen
      have hput : ∀ w, s.put w = { s with key := s.key ++ [w] } := fun w =>
        Scan.put_key w (by omega)
      have hapart' : Apart (c :: (key ++ bytes)) := hapart
      by_cases hkept : Kept c
      · rw [List.cons_append, parseLoop_byte hapart' (by simp [hvalue]) hkept
          (by simp [hput, hvalue, Scan.Full]), hput] at h
        have hrest := @ih { s with key := s.key ++ [c] } hapart'.tail
          (by rw [List.length_append, List.length_singleton]; omega) hvalue h
          (by rw [hkey, List.append_assoc]; rfl)
        exact List.forall_mem_cons.mpr ⟨hkept, hrest⟩
      · obtain ⟨w, hw, -, -, hprefix, -⟩ := parseLoop_bad_byte hapart' hkept h
        rw [hput, hkey] at hprefix
        have hcons : [w] <+: c :: key := (List.prefix_append_right_inj s.key).mp hprefix
        exact absurd (List.cons_prefix_cons.mp hcons).1 hw

/-- If it finds the value, it has kept each of its bytes, and none is `'?'`. -/
theorem kept_of_parseLoop_value {value : List Byte} {t : Scan} {ts : List Scan}
    (hapart : Apart value) (hkey : s.key.length = 16) (hlen : s.value.length + value.length = 32)
    (h : parseLoop bounded (quoteBytes value ++ QUOTE :: chars) 0 s = .ok (t :: ts))
    (hvalue : t.value = s.value ++ value) : ∀ c ∈ value, Kept c ∧ c ≠ QUESTION := by
  induction value generalizing s with
  | nil =>
      intro c hc
      cases hc
  | cons c value ih =>
      rw [List.length_cons] at hlen
      have hroom : s.value.length < 32 := by omega
      have hquestion : c ≠ QUESTION := by
        obtain ⟨⟨-, -, u, hu, hmem⟩, -⟩ := parseLoop_first h
        rw [hvalue] at hu
        rintro rfl
        exact hmem (List.append_cancel_left hu ▸ List.mem_cons_self)
      have hput : ∀ w, w ≠ QUESTION → s.put w = { s with value := s.value ++ [w] } := fun w =>
        Scan.put_value hkey hroom
      by_cases hkept : Kept c
      · refine List.forall_mem_cons.mpr ⟨⟨hkept, hquestion⟩, ?_⟩
        cases value with
        | nil =>
            intro d hd
            cases hd
        | cons d value =>
            have hlen' : (s.put c).value.length = s.value.length + 1 := by simp [hput c hquestion]
            have hnot : (s.put c).value.length ≠ 32 := by
              rw [List.length_cons] at hlen
              omega
            rw [parseLoop_byte hapart hroom hkept (fun hfull => hnot hfull.2),
              hput c hquestion] at h
            exact @ih { s with value := s.value ++ [c] } hapart.tail hkey
              (by rw [List.length_append, List.length_singleton]; omega) h
              (by rw [hvalue, List.append_assoc]; rfl)
      · obtain ⟨w, hw, hwq, -, -, u, hu, -⟩ := parseLoop_bad_byte hapart hkept h
        rw [hput w hwq, hvalue, List.append_assoc] at hu
        exact absurd (List.cons.inj (List.append_cancel_left hu)).1.symm hw

end Loop

/-! ## Tokens of messages -/

theorem low_spec : ∀ c : Byte, c ≤ 7 →
    InOctal c ∧ ¬ IsDigit c ∧ shortOctal c = [48 + c] ∧ stoi (48 + c) = some c :=
  forall_byte (by decide +kernel)

theorem quoteByte_low {c : Byte} {next : Option Byte} (hc : c ≤ 7)
    (hnext : ∀ d ∈ next, ¬ IsDigit d) : quoteByte c next = [BACKSLASH, 48 + c] := by
  obtain ⟨⟨hletter, hprintable⟩, -, hoctal, -⟩ := low_spec c hc
  have hno : ¬ ∃ d ∈ next, IsDigit d := fun ⟨d, hd, hdigit⟩ => hnext d hd hdigit
  rw [quoteByte, hletter]
  simp only [if_neg hprintable, if_neg hno, hoctal]

/-- The header of the first message, if no digit comes behind it. -/
theorem parseToken_quoted (bounded : Bool) {status keepalive : Byte} {bytes : List Byte}
    (hstatus : status ≤ 7) (hkeepalive : keepalive ≤ 7) (hapart : Apart (keepalive :: bytes)) :
    parseToken bounded (quoted (status :: keepalive :: bytes)) =
      parseLoop bounded (quoteBytes bytes ++ [QUOTE]) 0 ⟨status, [], []⟩ := by
  obtain ⟨hoctal, hdigit, -, -⟩ := low_spec keepalive hkeepalive
  have hfirst : quoteByte status (some keepalive) = [BACKSLASH, 48 + status] :=
    quoteByte_low hstatus fun d hd => by
      cases hd
      exact hdigit
  have hsecond : quoteByte keepalive bytes.head? = [BACKSLASH, 48 + keepalive] :=
    quoteByte_low hkeepalive (hapart.head hoctal)
  have htoken : quoted (status :: keepalive :: bytes) =
      QUOTE :: BACKSLASH :: (48 + status) :: BACKSLASH :: (48 + keepalive) ::
        (quoteBytes bytes ++ [QUOTE]) := by
    rw [quoted, quoteBytes, quoteBytes, List.head?_cons, hfirst, hsecond]
    simp
  have hstoi : (quoted (status :: keepalive :: bytes))[2]?.bind stoi = some status := by
    rw [htoken]
    exact (low_spec status hstatus).2.2.2
  rw [parseToken, hstoi, htoken]
  rfl

/-- What a message carries besides its code. -/
structure Content where
  keepalive : Byte
  key : Key
  value : Value

/-- The key and the value as bytes. -/
def Content.bytes (c : Content) : List Byte := c.key.toList ++ c.value.toList

/-- The scan keeps each byte of the key and of the value. -/
structure Content.Survives (c : Content) : Prop where
  key : ∀ b ∈ c.key.toList, Kept b
  value : ∀ b ∈ c.value.toList, Kept b ∧ b ≠ QUESTION

theorem pad_toList {n : Nat} (v : Vector Byte n) : pad n v.toList = v := by
  apply Vector.ext
  intro i hi
  simp [pad]

theorem eq_toList_of_pad {n : Nat} {s : Str} {v : Vector Byte n} (hlen : s.length = n)
    (h : pad n s = v) : s = v.toList := by
  subst h
  apply List.ext_getElem
  · simp [hlen]
  · intro i hi hi'
    simp [pad, hi]

section Content

variable {bounded : Bool} {status : Byte} {c : Content}
  (hstatus : status ≤ 7) (hkeepalive : c.keepalive ≤ 7) (hapart : Apart (c.keepalive :: c.bytes))
include hstatus hkeepalive hapart

/-- A message that survives is found. -/
theorem parseToken_of_survives (h : c.Survives) :
    parseToken bounded (quoted (status :: c.keepalive :: c.bytes)) =
      .ok [⟨status, c.key.toList, c.value.toList⟩] := by
  have hvalue : Apart c.value.toList := List.IsChain.right_of_append hapart.tail
  have hfound := @parseLoop_value bounded [] ⟨status, c.key.toList, []⟩ c.value.toList []
    (by rwa [List.append_nil]) (by simp) (by simp) (by simp) h.value
  rw [List.append_nil] at hfound
  rw [parseToken_quoted bounded hstatus hkeepalive hapart, Content.bytes,
    parseLoop_key hapart.tail (by simp) rfl h.key]
  exact hfound.trans (parseNext_quote bounded _ [])

/-- A message that is found has survived. -/
theorem survives_of_parseToken {t : Scan} {ts : List Scan}
    (h : parseToken bounded (quoted (status :: c.keepalive :: c.bytes)) = .ok (t :: ts))
    (hkey : pad 16 t.key = c.key) (hvalue : pad 32 t.value = c.value) : c.Survives := by
  have hchain : Apart c.value.toList := List.IsChain.right_of_append hapart.tail
  rw [parseToken_quoted bounded hstatus hkeepalive hapart, Content.bytes] at h
  obtain ⟨-, hkeylen, hvaluelen⟩ := parseLoop_first h
  have hkey' := eq_toList_of_pad hkeylen hkey
  have hvalue' := eq_toList_of_pad hvaluelen hvalue
  have hkept : ∀ b ∈ c.key.toList, Kept b :=
    kept_of_parseLoop_key hapart.tail (by simp) rfl h hkey'
  refine ⟨hkept, ?_⟩
  rw [parseLoop_key hapart.tail (by simp) rfl hkept] at h
  exact kept_of_parseLoop_value hchain (by simp) (by simp) h hvalue'

end Content

/-! ## The second message -/

/-- The scan has read the code of the next message, and stands in front of its keepalive byte. -/
theorem parseNext_message (bounded : Bool) (s : Scan) {status : Byte} {bytes : List Byte}
    (hstatus : status ≤ 7) (hnext : ∀ d ∈ bytes.head?, ¬ IsDigit d) (chars : Str) :
    parseNext bounded s (quoteBytes (status :: bytes) ++ QUOTE :: chars) =
      (parseLoop bounded (quoteBytes bytes ++ QUOTE :: chars) 0 ⟨status, [], []⟩).map (s :: ·) := by
  have htext : quoteBytes (status :: bytes) ++ QUOTE :: chars =
      BACKSLASH :: (48 + status) :: (quoteBytes bytes ++ QUOTE :: chars) := by
    rw [quoteBytes, quoteByte_low hstatus hnext]
    rfl
  have hscan : nextScan s (BACKSLASH :: (48 + status) :: (quoteBytes bytes ++ QUOTE :: chars)) =
      some (2, ⟨status, [], []⟩) := by
    have hstoi := (low_spec status hstatus).2.2.2
    simp only [nextScan, List.head?_cons, List.getElem?_cons_succ, List.getElem?_cons_zero,
      Option.bind_some, hstoi, Option.map_some]
    exact if_neg (by decide)
  rw [htext, parseNext, hscan]
  rfl

/-- The second message is read from its keepalive byte on. -/
theorem parseToken_second {bounded : Bool} {status status' : Byte} {c c' : Content}
    {bytes : List Byte} {ts : List Scan} (hstatus : status ≤ 7) (hkeepalive : c.keepalive ≤ 7)
    (hstatus' : status' ≤ 7) (hkeepalive' : c'.keepalive ≤ 7) (hsurvives : c.Survives)
    (hkept : ∀ b ∈ c'.bytes, Kept b ∧ b ≠ QUESTION)
    (hapart : Apart (c.keepalive :: (c.bytes ++ status' :: c'.keepalive :: (c'.bytes ++ bytes))))
    (h : parseToken bounded (quoted (status :: c.keepalive ::
      (c.bytes ++ status' :: c'.keepalive :: (c'.bytes ++ bytes)))) = .ok ts) :
    ∃ ts', ts = ⟨status, c.key.toList, c.value.toList⟩ ::
      ⟨status', (c'.keepalive :: c'.bytes).take 16,
        ((c'.keepalive :: c'.bytes).drop 16).take 32⟩ :: ts' := by
  have hlen : (c'.keepalive :: c'.bytes).length = 49 := by simp [Content.bytes]
  have hlow : Kept c'.keepalive ∧ c'.keepalive ≠ QUESTION :=
    ⟨.inl hkeepalive', fun heq => by rw [heq] at hkeepalive'; exact absurd hkeepalive' (by decide)⟩
  have hall : ∀ b ∈ c'.keepalive :: c'.bytes, Kept b ∧ b ≠ QUESTION :=
    List.forall_mem_cons.mpr ⟨hlow, hkept⟩
  -- the bytes that are read as key and as value, and the one that is left
  obtain ⟨key, value, last, hsplit, hkey, hvalue, hkeys, hvalues⟩ :
      ∃ key value last, c'.keepalive :: c'.bytes = key ++ (value ++ last) ∧ key.length = 16 ∧
        value.length = 32 ∧ (c'.keepalive :: c'.bytes).take 16 = key ∧
        ((c'.keepalive :: c'.bytes).drop 16).take 32 = value := by
    refine ⟨_, _, ((c'.keepalive :: c'.bytes).drop 16).drop 32, ?_, ?_, ?_, rfl, rfl⟩
    · rw [List.take_append_drop, List.take_append_drop]
    · rw [List.length_take, hlen]
      rfl
    · rw [List.length_take, List.length_drop, hlen]
      rfl
  rw [hkeys, hvalues]
  have hbytes : c'.keepalive :: (c'.bytes ++ bytes) = key ++ (value ++ (last ++ bytes)) := by
    rw [← List.cons_append, hsplit, List.append_assoc, List.append_assoc]
  rw [hsplit] at hall
  have hrest : Apart (c'.keepalive :: (c'.bytes ++ bytes)) :=
    (List.IsChain.right_of_append hapart.tail).tail
  rw [parseToken_quoted bounded hstatus hkeepalive hapart, Content.bytes, List.append_assoc,
    parseLoop_key (by rw [← List.append_assoc]; exact hapart.tail) (by simp) rfl hsurvives.key,
    parseLoop_value (List.IsChain.right_of_append (by rw [← List.append_assoc]; exact hapart.tail))
      (by simp) (by simp) (by simp) hsurvives.value,
    parseNext_message bounded _ hstatus' (fun d hd => by
      cases hd
      exact (low_spec _ hkeepalive').2.1), hbytes,
    parseLoop_key (by rw [← hbytes]; exact hrest) (by rw [hkey]; rfl) rfl
      (fun b hb => (hall b (List.mem_append_left _ hb)).1),
    parseLoop_value (List.IsChain.right_of_append (by rw [← hbytes]; exact hrest))
      (List.ne_nil_of_length_pos (by rw [hvalue]; decide)) hkey (by rw [hvalue]; rfl)
      (fun b hb => hall b (List.mem_append_right _ (List.mem_append_left _ hb)))] at h
  rw [parseNext] at h
  split at h
  · cases h
  · next skip s' _ =>
      generalize parseLoop bounded (quoteBytes (last ++ bytes) ++ [QUOTE]) skip s' = r at h
      cases r with
      | error fault => cases h
      | ok ts' =>
          cases h
          exact ⟨ts', rfl⟩

/-- A list that stays the same when it is moved on by one. -/
theorem eq_of_take_cons {α : Type} {a : α} {l : List α} (h : (a :: l).take l.length = l) :
    ∀ b ∈ l, b = a := by
  induction l generalizing a with
  | nil => exact fun b hb => by cases hb
  | cons x l ih =>
      rw [List.length_cons, List.take_succ_cons] at h
      obtain ⟨rfl, htail⟩ := List.cons.inj h
      exact List.forall_mem_cons.mpr ⟨rfl, ih htail⟩

/-- Bytes that come back as they were although they were read one byte too early. -/
theorem eq_keepalive_of_found {c : Content}
    (hkey : pad 16 ((c.keepalive :: c.bytes).take 16) = c.key)
    (hvalue : pad 32 (((c.keepalive :: c.bytes).drop 16).take 32) = c.value) :
    ∀ b ∈ c.bytes, b = c.keepalive := by
  have hlen : (c.keepalive :: c.bytes).length = 49 := by simp [Content.bytes]
  have hkeys := eq_toList_of_pad (by rw [List.length_take, hlen]; rfl) hkey
  have hvalues := eq_toList_of_pad (by rw [List.length_take, List.length_drop, hlen]; rfl) hvalue
  refine eq_of_take_cons ?_
  have hbytes : c.bytes.length = 16 + 32 := Nat.succ.inj hlen
  rw [hbytes, List.take_add, hkeys, hvalues]
  rfl

/-- The second message is found only if all its bytes behind the code are the same. -/
theorem eq_keepalive_of_parseToken {bounded : Bool} {status status' : Byte} {c c' : Content}
    {bytes : List Byte} {t t' : Scan} {ts : List Scan} (hstatus : status ≤ 7)
    (hkeepalive : c.keepalive ≤ 7) (hstatus' : status' ≤ 7) (hkeepalive' : c'.keepalive ≤ 7)
    (hsurvives : c.Survives) (hkept : ∀ b ∈ c'.bytes, Kept b ∧ b ≠ QUESTION)
    (hapart : Apart (c.keepalive :: (c.bytes ++ status' :: c'.keepalive :: (c'.bytes ++ bytes))))
    (h : parseToken bounded (quoted (status :: c.keepalive ::
      (c.bytes ++ status' :: c'.keepalive :: (c'.bytes ++ bytes)))) = .ok (t :: t' :: ts))
    (hkey : pad 16 t'.key = c'.key) (hvalue : pad 32 t'.value = c'.value) :
    ∀ b ∈ c'.bytes, b = c'.keepalive := by
  obtain ⟨ts', hts⟩ :=
    parseToken_second hstatus hkeepalive hstatus' hkeepalive' hsurvives hkept hapart h
  obtain ⟨rfl, -⟩ := List.cons.inj (List.cons.inj hts).2
  exact eq_keepalive_of_found hkey hvalue

/-! ## `parseSend` and `parseResponse` -/

def sendContent (m : SendMessage) : Content := ⟨m.keepalive, m.key, m.value⟩

def responseContent (m : ResponseMessage) : Content := ⟨m.keepalive, m.key, m.value⟩

/-- There is one message, it survives, and none of its bytes in octal comes before a digit. -/
def Readable (contents : List Content) : Prop :=
  ∃ c, contents = [c] ∧ Apart (c.keepalive :: c.bytes) ∧ c.Survives

/-- `parseSend` finds the requests in what `strace` prints.  It sets their keepalive to 1. -/
def SendsFound (sends : List SendMessage) : Prop :=
  parseSend (quoted (sends.flatMap SendMessage.bytes)) =
    .ok (sends.map fun m => { m with keepalive := 1 })

/-- `parseResponse` finds the responses in what `strace` prints.  It sets their keepalive to
0. -/
def ResponsesFound (responses : List ResponseMessage) : Prop :=
  parseResponse (quoted (responses.flatMap ResponseMessage.bytes)) =
    .ok (responses.map fun m => { m with keepalive := 0 })

/-- One message that was found. -/
theorem map_ok_eq_singleton {μ : Type} {f : Scan → μ} {r : Except Fault (List Scan)} {m : μ}
    (h : r.map (List.map f) = .ok [m]) : ∃ t, r = .ok [t] ∧ f t = m := by
  cases r with
  | error fault => cases h
  | ok ts =>
      cases ts with
      | nil => cases h
      | cons t ts =>
          cases ts with
          | cons t' ts => cases h
          | nil => cases h; exact ⟨t, rfl, rfl⟩

theorem sendsFound_iff {m : SendMessage} (hoperation : m.operation ≤ 7)
    (hkeepalive : m.keepalive ≤ 7) (hapart : Apart (m.keepalive :: (sendContent m).bytes)) :
    SendsFound [m] ↔ (sendContent m).Survives := by
  have hbytes : [m].flatMap SendMessage.bytes =
      m.operation :: (sendContent m).keepalive :: (sendContent m).bytes := List.append_nil _
  rw [SendsFound, hbytes]
  constructor
  · intro h
    obtain ⟨t, ht, heq⟩ := map_ok_eq_singleton h
    rw [SendMessage.mk.injEq] at heq
    exact survives_of_parseToken hoperation hkeepalive hapart ht heq.2.2.1 heq.2.2.2
  · intro h
    rw [parseSend, parseToken_of_survives hoperation hkeepalive hapart h]
    simp only [Except.map, List.map_cons, List.map_nil, pad_toList]
    rfl

theorem responsesFound_iff {m : ResponseMessage} (hstatus : m.status_code ≤ 7)
    (hkeepalive : m.keepalive ≤ 7) (hapart : Apart (m.keepalive :: (responseContent m).bytes)) :
    ResponsesFound [m] ↔ (responseContent m).Survives := by
  have hbytes : [m].flatMap ResponseMessage.bytes =
      m.status_code :: (responseContent m).keepalive :: (responseContent m).bytes :=
    List.append_nil _
  rw [ResponsesFound, hbytes]
  constructor
  · intro h
    obtain ⟨t, ht, heq⟩ := map_ok_eq_singleton h
    rw [ResponseMessage.mk.injEq] at heq
    exact survives_of_parseToken hstatus hkeepalive hapart ht heq.2.2.1 heq.2.2.2
  · intro h
    rw [parseResponse, parseToken_of_survives hstatus hkeepalive hapart h]
    simp only [Except.map, List.map_cons, List.map_nil, pad_toList]
    rfl

/-- The first two messages that were found. -/
theorem map_ok_eq_cons_cons {μ : Type} {f : Scan → μ} {r : Except Fault (List Scan)} {m m' : μ}
    {ms : List μ} (h : r.map (List.map f) = .ok (m :: m' :: ms)) :
    ∃ t t' ts, r = .ok (t :: t' :: ts) ∧ f t' = m' := by
  cases r with
  | error fault => cases h
  | ok ts =>
      cases ts with
      | nil => cases h
      | cons t ts =>
          cases ts with
          | nil => cases h
          | cons t' ts => cases h; exact ⟨t, t', ts, rfl, rfl⟩

/-- Two requests or more of which the bytes of the first two are kept: they are found only if all
bytes of the second behind its opcode are the same. -/
theorem sendsFound_more {m m' : SendMessage} {sends : List SendMessage}
    (hsends : ∀ m'' ∈ [m, m'], m''.operation ≤ 7 ∧ m''.keepalive ≤ 7)
    (hapart : Apart (((m :: m' :: sends).flatMap SendMessage.bytes).tail))
    (hsurvives : (sendContent m).Survives)
    (hkept : ∀ b ∈ (sendContent m').bytes, Kept b ∧ b ≠ QUESTION)
    (h : SendsFound (m :: m' :: sends)) : ∀ b ∈ (sendContent m').bytes, b = m'.keepalive := by
  obtain ⟨hm, hrest⟩ := List.forall_mem_cons.mp hsends
  obtain ⟨hm', -⟩ := List.forall_mem_cons.mp hrest
  have hbytes : (m :: m' :: sends).flatMap SendMessage.bytes = m.operation ::
      (sendContent m).keepalive :: ((sendContent m).bytes ++ m'.operation ::
        (sendContent m').keepalive :: ((sendContent m').bytes ++
          sends.flatMap SendMessage.bytes)) := rfl
  rw [SendsFound, hbytes] at h
  rw [hbytes] at hapart
  obtain ⟨t, t', ts, ht, heq⟩ := map_ok_eq_cons_cons h
  rw [SendMessage.mk.injEq] at heq
  exact eq_keepalive_of_parseToken hm.1 hm.2 hm'.1 hm'.2 hsurvives hkept hapart ht
    heq.2.2.1 heq.2.2.2

theorem responsesFound_more {m m' : ResponseMessage} {responses : List ResponseMessage}
    (hresponses : ∀ m'' ∈ [m, m'], m''.status_code ≤ 7 ∧ m''.keepalive ≤ 7)
    (hapart : Apart (((m :: m' :: responses).flatMap ResponseMessage.bytes).tail))
    (hsurvives : (responseContent m).Survives)
    (hkept : ∀ b ∈ (responseContent m').bytes, Kept b ∧ b ≠ QUESTION)
    (h : ResponsesFound (m :: m' :: responses)) :
    ∀ b ∈ (responseContent m').bytes, b = m'.keepalive := by
  obtain ⟨hm, hrest⟩ := List.forall_mem_cons.mp hresponses
  obtain ⟨hm', -⟩ := List.forall_mem_cons.mp hrest
  have hbytes : (m :: m' :: responses).flatMap ResponseMessage.bytes = m.status_code ::
      (responseContent m).keepalive :: ((responseContent m).bytes ++ m'.status_code ::
        (responseContent m').keepalive :: ((responseContent m').bytes ++
          responses.flatMap ResponseMessage.bytes)) := rfl
  rw [ResponsesFound, hbytes] at h
  rw [hbytes] at hapart
  obtain ⟨t, t', ts, ht, heq⟩ := map_ok_eq_cons_cons h
  rw [ResponseMessage.mk.injEq] at heq
  exact eq_keepalive_of_parseToken hm.1 hm.2 hm'.1 hm'.2 hsurvives hkept hapart ht
    heq.2.2.1 heq.2.2.2

theorem Readable.of_map {μ : Type} {f : μ → Content} {ms : List μ} (h : Readable (ms.map f)) :
    ∃ m, ms = [m] ∧ Apart ((f m).keepalive :: (f m).bytes) ∧ (f m).Survives := by
  obtain ⟨c, hc, hapart, hsurvives⟩ := h
  obtain ⟨m, rfl, rfl⟩ := List.map_eq_singleton_iff.mp hc
  exact ⟨m, rfl, hapart, hsurvives⟩

/-- The parsers find the messages that `strace` prints if there is one, its bytes survive and
none of them in octal comes before a digit.  If none in octal comes before a digit, a single
message is found only if its bytes survive. -/
theorem parse_quoted {sends : List SendMessage} {responses : List ResponseMessage}
    (hsends : ∀ m ∈ sends, m.operation ≤ 3 ∧ m.keepalive ≤ 1)
    (hresponses : ∀ m ∈ responses, m.status_code ≤ 3 ∧ m.keepalive ≤ 1) :
    (Readable (sends.map sendContent) → SendsFound sends) ∧
      (Readable (responses.map responseContent) → ResponsesFound responses) ∧
      (∀ m ∈ sends, Apart (m.keepalive :: (sendContent m).bytes) →
        (SendsFound [m] ↔ (sendContent m).Survives)) ∧
      ∀ m ∈ responses, Apart (m.keepalive :: (responseContent m).bytes) →
        (ResponsesFound [m] ↔ (responseContent m).Survives) := by
  have hlow : ∀ {b n : Byte}, b ≤ n → n ≤ 7 → b ≤ 7 := fun h h' => UInt8.le_trans h h'
  have hsend : ∀ m ∈ sends, Apart (m.keepalive :: (sendContent m).bytes) →
      (SendsFound [m] ↔ (sendContent m).Survives) := fun m hm hapart =>
    sendsFound_iff (hlow (hsends m hm).1 (by decide)) (hlow (hsends m hm).2 (by decide)) hapart
  have hresponse : ∀ m ∈ responses, Apart (m.keepalive :: (responseContent m).bytes) →
      (ResponsesFound [m] ↔ (responseContent m).Survives) := fun m hm hapart =>
    responsesFound_iff (hlow (hresponses m hm).1 (by decide)) (hlow (hresponses m hm).2 (by decide))
      hapart
  refine ⟨fun h => ?_, fun h => ?_, hsend, hresponse⟩
  · obtain ⟨m, rfl, hapart, hsurvives⟩ := h.of_map
    exact (hsend m List.mem_cons_self hapart).mpr hsurvives
  · obtain ⟨m, rfl, hapart, hsurvives⟩ := h.of_map
    exact (hresponse m List.mem_cons_self hapart).mpr hsurvives

/-- A request and a response of zeros are found. -/
theorem parse_quoted_zeros :
    SendsFound [SendMessage.blank .GET 1] ∧
      ResponsesFound [(SendMessage.blank .GET 1).toResponse] := by
  obtain ⟨hsend, hresponse, -, -⟩ := @parse_quoted [SendMessage.blank .GET 1]
    [(SendMessage.blank .GET 1).toResponse] (by decide) (by decide)
  exact ⟨hsend ⟨_, rfl, by decide +kernel, by decide +kernel, by decide +kernel⟩,
    hresponse ⟨_, rfl, by decide +kernel, by decide +kernel, by decide +kernel⟩⟩

/-- A value with the byte 234, which is printed as `\352`. -/
theorem parse_quoted_fails :
    ∃ m : SendMessage, m.operation ≤ 3 ∧ m.keepalive ≤ 1 ∧
      (∀ b ∈ (sendContent m).bytes, b ≠ 32) ∧ ¬ SendsFound [m] := by
  refine ⟨{ SendMessage.blank .GET 0 with key := pad 16 [107], value := pad 32 [113, 234, 1] },
    by decide, by decide, by decide +kernel, ?_⟩
  rw [sendsFound_iff (by decide) (by decide) (by decide +kernel)]
  rintro ⟨-, hvalue⟩
  exact absurd (hvalue 234 (by decide +kernel)).1 (by decide)

end KvServer.Testclient
