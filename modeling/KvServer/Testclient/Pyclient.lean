import Mathlib.Data.List.DropRight
import KvServer.Server5204.Framing
import KvServer.Testclient.Lines

/-!
# The packets of `pyclient`

`pyclient` splits a line at its colons and puts operation, keepalive, key and value
behind each other.  It does not fill up a key that is too short, and a value that is
not 32 bytes long it replaces by zeros.  So a packet is the request of its line only
for lines whose fields have full length (`Encodes`), and the server cuts the packets
of a file as they were sent only if all lines are of this kind.
-/

namespace KvServer.Testclient

open Server5204

/-! ## `pyclient` -/

/-- `int(field)`.  `none` is an exception. -/
def pyInt (field : Str) : Option Int :=
  let chars := (field.dropWhile fun c => IsSpace c).rdropWhile fun c => IsSpace c
  let digits := behindSign chars
  if digits ≠ [] ∧ (digits.all fun c => IsDigit c) then some (signed chars digits) else none

/-- `chr(n)` -/
def chr (n : Int) : Option Byte := if 0 ≤ n ∧ n < 256 then some (UInt8.ofNat n.toNat) else none

/-- `value` -/
def pyValue (field : Str) : Str := if field.length ≠ 32 then List.replicate 32 0 else field

/-- What is appended to `packet_buffer` for a line. -/
def packet (line : Str) (keep_alive : Byte) : Option (List Byte) := do
  let fields := line.splitOn COLON
  let operation ← fields[0]?.bind pyInt
  let key ← fields[1]?
  let value ← fields[2]?.map pyValue
  let c ← chr operation
  pure (c :: keep_alive :: (key ++ value))

/-- `keep_alive` of line `index`. -/
def keepAlive (number_of_messages : Int) (index : Nat) : Byte :=
  if (index : Int) = number_of_messages - 1 then 0 else 1

/-- `packet_buffer`, from line `index` on. -/
def packets (number_of_messages : Int) : Nat → List Str → Option (List (List Byte))
  | _, [] => some []
  | index, line :: lines =>
      if line = [] then some []
      else
        (packet line (keepAlive number_of_messages index)).bind fun p =>
          (packets number_of_messages (index + 1) lines).map (p :: ·)

/-- `lines`: the file, split at its newlines. -/
def pyLines (text : Str) : List Str := text.splitOn NEWLINE

/-- The requests that the lines stand for, with the keepalives of `pyclient`. -/
def requests (number_of_messages : Int) : Nat → List Line → List SendMessage
  | _, [] => []
  | index, l :: ls =>
      l.request (keepAlive number_of_messages index) :: requests number_of_messages (index + 1) ls

/-! ## One packet -/

/-- The first field of a string. -/
theorem splitOn_first (s rest : Str) :
    ∃ field fields, (s ++ COLON :: rest).splitOn COLON = field :: fields ∧
      ((COLON ∉ s ∧ field = s ∧ fields = rest.splitOn COLON) ∨
        (COLON ∈ s ∧ field.length < s.length ∧ fields ≠ [])) := by
  by_cases hmem : COLON ∈ s
  · obtain ⟨front, back, rfl, hfront⟩ := List.eq_append_cons_of_mem hmem
    refine ⟨front, (back ++ COLON :: rest).splitOn COLON, ?_,
      Or.inr ⟨hmem, ?_, List.splitOn_ne_nil _ _⟩⟩
    · rw [List.append_assoc, List.cons_append, List.splitOn_append_cons_self_of_not_mem hfront]
    · simp
  · exact ⟨s, _, List.splitOn_append_cons_self_of_not_mem hmem rest, Or.inl ⟨hmem, rfl, rfl⟩⟩

theorem pyInt_digit (op : Operation) : (pyInt [digit op]).bind chr = some op.code := by
  cases op <;> decide +kernel

theorem length_pyValue (field : Str) : (pyValue field).length = 32 := by
  unfold pyValue
  split
  · exact List.length_replicate
  · next hlen => exact not_not.mp hlen

/-- The value field of a line. -/
def Line.valueField (l : Line) : Str :=
  match l.valuestring with
  | none => []
  | some valuestring => valuestring ++ [COLON]

/-- The packet of a line: its key and the value field up to a colon. -/
theorem packet_text (l : Line) (keep_alive : Byte) :
    ∃ key value, packet l.text keep_alive =
        some (l.opcode.code :: keep_alive :: (key ++ pyValue value)) ∧
      ((COLON ∉ l.keystring ∧ key = l.keystring ∧ (l.valueField.splitOn COLON)[0]? = some value) ∨
        (COLON ∈ l.keystring ∧ key.length < l.keystring.length)) := by
  obtain ⟨key, fields, hsplit, hkey⟩ := splitOn_first l.keystring l.valueField
  have hopcode : COLON ∉ [digit l.opcode] := by
    cases l.opcode <;> decide
  have hfields : l.text.splitOn COLON = [digit l.opcode] :: key :: fields := by
    rw [← hsplit, ← List.splitOn_append_cons_self_of_not_mem hopcode]
    rfl
  have hne : fields ≠ [] := by
    rcases hkey with ⟨-, -, rfl⟩ | ⟨-, -, hne⟩
    · exact List.splitOn_ne_nil _ _
    · exact hne
  obtain ⟨value, rest, rfl⟩ := List.exists_cons_of_ne_nil hne
  obtain ⟨operation, hint, hchr⟩ := Option.bind_eq_some_iff.mp (pyInt_digit l.opcode)
  refine ⟨key, value, ?_, hkey.imp (fun ⟨hcolon, heq, hvalue⟩ => ⟨hcolon, heq, ?_⟩)
    fun ⟨hcolon, hlt, _⟩ => ⟨hcolon, hlt⟩⟩
  · rw [packet, hfields]
    simp [hint, hchr]
  · rw [← hvalue]
    rfl

theorem toList_pad {n : Nat} {s : Str} (h : s.length ≤ n) :
    (pad n s).toList = s ++ List.replicate (n - s.length) 0 := by
  apply List.ext_getElem
  · simp
    omega
  · intro i hi hi'
    simp only [pad, Vector.getElem_toList, Vector.getElem_ofFn, List.getElem_append]
    split
    · next hlt => exact List.getD_eq_getElem _ _ hlt
    · next hge =>
        rw [List.getElem_replicate]
        exact List.getD_eq_default _ _ (Nat.not_lt.mp hge)

theorem toList_pad_eq_zeros_iff {n : Nat} {s : Str} (h : s.length ≤ n) :
    (pad n s).toList = List.replicate n 0 ↔ ∀ b ∈ s, b = 0 := by
  rw [toList_pad h, List.eq_replicate_iff]
  constructor
  · exact fun hall b hb => hall.2 b (List.mem_append_left _ hb)
  · intro hall
    refine ⟨by simp; omega, fun b hb => ?_⟩
    rcases List.mem_append.mp hb with hb | hb
    · exact hall b hb
    · exact List.eq_of_mem_replicate hb

/-- The fields have full length and no colon.  A value of zeros may be of any length. -/
structure Encodes (l : Line) : Prop where
  key : l.keystring.length = 16
  colon : COLON ∉ l.keystring
  value : ∀ v ∈ l.valuestring, (v.length = 32 ∧ COLON ∉ v) ∨ ∀ b ∈ v, b = 0

/-- The value in the packet. -/
theorem pyValue_eq_iff {l : Line} {value : Str} (hlen : ∀ v ∈ l.valuestring, v.length ≤ 32)
    (hvalue : (l.valueField.splitOn COLON)[0]? = some value) :
    pyValue value = (pad 32 (l.valuestring.getD [])).toList ↔
      ∀ v ∈ l.valuestring, (v.length = 32 ∧ COLON ∉ v) ∨ ∀ b ∈ v, b = 0 := by
  cases hv : l.valuestring with
  | none =>
      rw [Line.valueField, hv] at hvalue
      cases hvalue
      exact iff_of_true rfl fun v hmem => by cases hmem
  | some v =>
      have hle : v.length ≤ 32 := hlen v hv
      have hzeros := toList_pad_eq_zeros_iff hle
      obtain ⟨field, fields, hsplit, hfield⟩ := splitOn_first v []
      rw [Line.valueField, hv, hsplit] at hvalue
      cases hvalue
      simp only [Option.getD_some, Option.mem_some_iff, forall_eq']
      rcases hfield with ⟨hcolon, rfl, -⟩ | ⟨hcolon, hlt, -⟩
      · unfold pyValue
        split
        · next hne =>
            rw [eq_comm, hzeros]
            exact ⟨Or.inr, fun h => h.resolve_left fun hfull => hne hfull.1⟩
        · next hfull =>
            have hfull' : value.length = 32 := not_not.mp hfull
            refine iff_of_true ?_ (Or.inl ⟨hfull', hcolon⟩)
            rw [toList_pad hle, hfull']
            simp
      · rw [pyValue, if_pos (by omega), eq_comm, hzeros]
        exact ⟨Or.inr, fun h => h.resolve_left fun hfull => hfull.2 hcolon⟩

/-- The packet of a line is its request exactly if the fields have full length. -/
theorem packet_eq_iff {l : Line} (keep_alive : Byte) (hkey : l.keystring.length ≤ 16)
    (hvalue : ∀ v ∈ l.valuestring, v.length ≤ 32) :
    packet l.text keep_alive = some (l.request keep_alive).bytes ↔ Encodes l := by
  obtain ⟨key, value, hpacket, hcase⟩ := packet_text l keep_alive
  have hbytes : (l.request keep_alive).bytes = l.opcode.code :: keep_alive ::
      ((pad 16 l.keystring).toList ++ (pad 32 (l.valuestring.getD [])).toList) := rfl
  rw [hpacket, hbytes, Option.some_inj, List.cons_inj_right, List.cons_inj_right]
  rcases hcase with ⟨hcolon, rfl, hget⟩ | ⟨hcolon, hlt⟩
  · have hiff := pyValue_eq_iff hvalue hget
    constructor
    · intro heq
      have hlen := congrArg List.length heq
      simp only [List.length_append, length_pyValue, Vector.length_toList] at hlen
      exact ⟨by omega, hcolon, hiff.mp (List.append_inj heq (by simp; omega)).2⟩
    · intro h
      rw [hiff.mpr h.value, toList_pad hkey, h.key]
      simp
  · refine iff_of_false (fun heq => ?_) fun h => h.colon hcolon
    have hlen := congrArg List.length heq
    simp only [List.length_append, length_pyValue, Vector.length_toList] at hlen
    omega

/-! ## The packets of a file -/

/-- The lines of a file, and the empty string behind its last newline. -/
theorem pyLines_flatMap {lines : List Str} (h : ∀ line ∈ lines, NEWLINE ∉ line) :
    pyLines (lines.flatMap fun line => line ++ [NEWLINE]) = lines ++ [[]] := by
  induction lines with
  | nil => rfl
  | cons line lines ih =>
      have hrest := ih fun l hl => h l (List.mem_cons_of_mem line hl)
      rw [List.flatMap_cons, List.append_assoc, List.singleton_append, pyLines,
        List.splitOn_append_cons_self_of_not_mem (h line List.mem_cons_self), List.cons_append]
      exact congrArg (line :: ·) hrest

/-- The loop ends at the empty string. -/
theorem packets_append_nil (number_of_messages : Int) (index : Nat) (lines : List Str) :
    packets number_of_messages index (lines ++ [[]]) =
      packets number_of_messages index lines := by
  induction lines generalizing index with
  | nil => rfl
  | cons line lines ih => rw [List.cons_append, packets, ih, packets]

/-- The packets of a file of request lines are those of the lines, as long as no field has a
newline in it: there the line would be split. -/
theorem packets_pyLines (number_of_messages : Int) {ls : List Line}
    (h : ∀ l ∈ ls, NEWLINE ∉ l.text) :
    packets number_of_messages 0 (pyLines (ls.flatMap fun l => l.text ++ [NEWLINE])) =
      packets number_of_messages 0 (ls.map Line.text) := by
  have hlines : ∀ line ∈ ls.map Line.text, NEWLINE ∉ line := by
    intro line hline
    obtain ⟨l, hl, rfl⟩ := List.mem_map.mp hline
    exact h l hl
  have hfile := pyLines_flatMap hlines
  rw [List.flatMap_map] at hfile
  rw [hfile, packets_append_nil]

/-- A line that `createTest` writes, with a key of 1 to 16 bytes and, for `PUT` and `UPDATE`
only, a value of 1 to 32 bytes.  A line of a file has no newline in it
(`packets_pyLines`). -/
structure Line.Short (l : Line) : Prop where
  key : 1 ≤ l.keystring.length ∧ l.keystring.length ≤ 16
  value : ∀ v ∈ l.valuestring, 1 ≤ v.length ∧ v.length ≤ 32
  field : l.valuestring.isSome ↔ l.opcode = .PUT ∨ l.opcode = .UPDATE

/-- A packet is not longer than a request. -/
theorem length_packet {l : Line} {keep_alive : Byte} {p : List Byte} (h : l.Short)
    (hp : packet l.text keep_alive = some p) : p.length ≤ KVSTORE_CONTENT_LEN := by
  obtain ⟨key, value, hpacket, hcase⟩ := packet_text l keep_alive
  have hlen : key.length ≤ l.keystring.length := by
    rcases hcase with ⟨-, rfl, -⟩ | ⟨-, hlt⟩
    · exact Nat.le_refl _
    · exact Nat.le_of_lt hlt
  cases hp.symm.trans hpacket
  have hkey := h.key.2
  simp only [List.length_cons, List.length_append, length_pyValue, KVSTORE_CONTENT_LEN]
  omega

/-- The server cuts a packet of full length off the front. -/
theorem messages_packet {p more : List Byte} (h : p.length = KVSTORE_CONTENT_LEN) :
    messages (p ++ more) = SendMessage.ofBytes p :: messages more := by
  have hdvd : KVSTORE_CONTENT_LEN ∣ p.length := h ▸ Nat.dvd_refl _
  have hp : messages p = [SendMessage.ofBytes p] := by
    have hflat := messages_flatMap [SendMessage.ofBytes p]
    rwa [List.flatMap_cons, List.flatMap_nil, List.append_nil, SendMessage.bytes_ofBytes h] at hflat
  rw [messages_append hdvd, hp]
  rfl

theorem length_requests (number_of_messages : Int) (ls : List Line) :
    ∀ index, (requests number_of_messages index ls).length = ls.length := by
  induction ls with
  | nil => exact fun index => rfl
  | cons l ls ih =>
      intro index
      rw [requests, List.length_cons, ih, List.length_cons]

/-- The packets of lines, and what the server makes of them. -/
theorem packets_iff (number_of_messages : Int) {ls : List Line} (h : ∀ l ∈ ls, l.Short) :
    ∀ index, ∃ ps, packets number_of_messages index (ls.map Line.text) = some ps ∧
      ps.flatten.length ≤ KVSTORE_CONTENT_LEN * ls.length ∧
      (messages ps.flatten = requests number_of_messages index ls ↔ ∀ l ∈ ls, Encodes l) := by
  induction ls with
  | nil => exact fun index => ⟨[], rfl, Nat.le_refl 0, iff_of_true rfl fun l hl => by cases hl⟩
  | cons l ls ih =>
      intro index
      have hl := h l List.mem_cons_self
      obtain ⟨ps, hps, hlen, hiff⟩ :=
        ih (fun l' hl' => h l' (List.mem_cons_of_mem _ hl')) (index + 1)
      obtain ⟨key, value, hpacket, -⟩ := packet_text l (keepAlive number_of_messages index)
      have hle := length_packet hl hpacket
      have hone := packet_eq_iff (keepAlive number_of_messages index) hl.key.2
        fun v hv => (hl.value v hv).2
      generalize l.opcode.code :: keepAlive number_of_messages index :: (key ++ pyValue value) = p
        at hpacket hle
      rw [hpacket, Option.some_inj] at hone
      refine ⟨p :: ps, ?_, ?_, ?_⟩
      · have hne : l.text ≠ [] := List.cons_ne_nil _ _
        rw [List.map_cons, packets, if_neg hne, hpacket, Option.bind_some, hps]
        rfl
      · rw [List.flatten_cons, List.length_append, List.length_cons, Nat.mul_succ]
        omega
      · rw [List.flatten_cons, List.forall_mem_cons, requests]
        rcases Nat.lt_or_eq_of_le hle with hlt | hfull
        · -- a short packet: the server finds fewer requests than there are lines
          refine iff_of_false (fun heq => ?_) fun hall => ?_
          · have hcount := congrArg List.length heq
            simp only [length_messages, List.length_append, List.length_cons, length_requests,
              KVSTORE_CONTENT_LEN] at hcount hlt hlen
            omega
          · rw [hone.mpr hall.1, SendMessage.length_bytes] at hlt
            exact absurd hlt (Nat.lt_irrefl _)
        · rw [messages_packet hfull, List.cons.injEq, hiff, ← hone]
          refine and_congr_left fun _ => ⟨fun heq => ?_, fun heq => ?_⟩
          · rw [← heq, SendMessage.bytes_ofBytes hfull]
          · rw [heq, SendMessage.ofBytes_bytes]

/-- The packet that `pyclient` builds for a line is the request of the line exactly if its
fields have full length, and the server finds the requests in the packets of a list of lines
exactly if all of them are of this kind. -/
theorem pyclient_iff (number_of_messages : Int) {ls : List Line} (h : ∀ l ∈ ls, l.Short) :
    (∀ l ∈ ls, ∀ keep_alive,
        packet l.text keep_alive = some (l.request keep_alive).bytes ↔ Encodes l) ∧
      ∃ ps, packets number_of_messages 0 (ls.map Line.text) = some ps ∧
        (messages ps.flatten = requests number_of_messages 0 ls ↔ ∀ l ∈ ls, Encodes l) := by
  constructor
  · intro l hl keep_alive
    exact packet_eq_iff keep_alive (h l hl).key.2 fun v hv => ((h l hl).value v hv).2
  · obtain ⟨ps, hps, -, hiff⟩ := packets_iff number_of_messages h 0
    exact ⟨ps, hps, hiff⟩

/-- A line with a key of 16 bytes. -/
theorem pyclient_iff_get :
    ∃ ps, packets 1 0 [(⟨.GET, List.replicate 16 97, none⟩ : Line).text] = some ps ∧
      messages ps.flatten = requests 1 0 [⟨.GET, List.replicate 16 97, none⟩] := by
  have hshort : ∀ l ∈ [(⟨.GET, List.replicate 16 97, none⟩ : Line)], l.Short := by
    intro l hl
    cases List.mem_singleton.mp hl
    exact ⟨by decide, fun v hv => (by cases hv), by decide⟩
  obtain ⟨ps, hps, hiff⟩ := (pyclient_iff 1 hshort).2
  refine ⟨ps, hps, hiff.mpr fun l hl => ?_⟩
  cases List.mem_singleton.mp hl
  exact ⟨rfl, by decide, fun v hv => (by cases hv)⟩

/-- A line with a key of 15 bytes: the packet has 49 bytes. -/
theorem packet_short :
    ∃ l : Line, l.Short ∧ (packet l.text 1).map List.length = some 49 ∧
      ∀ keep_alive, packet l.text keep_alive ≠ some (l.request keep_alive).bytes := by
  refine ⟨⟨.GET, List.replicate 15 97, none⟩, ⟨by decide, fun v hv => (by cases hv), by decide⟩,
    by decide +kernel, fun keep_alive heq => ?_⟩
  have h := (packet_eq_iff keep_alive (by decide) fun v hv => (by cases hv)).mp heq
  exact absurd h.key (by decide)

end KvServer.Testclient
