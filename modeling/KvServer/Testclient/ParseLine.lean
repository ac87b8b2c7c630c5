import KvServer.Testclient.Lines
import Mathlib.Data.List.TakeDrop
import Mathlib.Data.List.TakeWhile

/-!
# What `parseLine` makes of a line

The two scans of `parseLine` share one index.  A scan stops at a colon or when its field
is full, and in both cases the index is moved on by one.

*Fields.*  `field n s` is what a scan with room for `n` chars takes of the rest `s` of the
line, if it stops inside (`scanField_append`).  Behind a key of more than 16 chars the scan
of the value therefore does not start behind the colon but in the key, one char further
(`parseLine_requestLine`).

*Reads.*  `lineReads` are the indices at which `parseLine` reads the line.  It does not
depend on anything else (`parseLine_congr`).  A line with a value field ends in a colon that
the second scan does not pass.  On a line without one the colon behind the key has been
used up, and the second scan reads on behind the end.
-/

namespace KvServer.Testclient

/-! ## Fields -/

/-- The chars in front of the next colon, at most `n` of them. -/
def field (n : Nat) (s : Str) : Str := (s.take n).takeWhile (· ≠ COLON)

@[simp] theorem field_nil (n : Nat) : field n [] = [] := by simp [field]

@[simp] theorem field_colon (n : Nat) (s : Str) : field n (COLON :: s) = [] := by
  cases n with
  | zero => rfl
  | succ n => simp [field]

theorem field_cons {c : Byte} (hc : c ≠ COLON) (n : Nat) (s : Str) :
    field (n + 1) (c :: s) = c :: field n s := by
  simp [field, hc]

theorem field_isPrefix (n : Nat) (s : Str) : field n s <+: s :=
  (List.takeWhile_prefix _).trans (List.take_prefix n s)

/-- Without a colon a field is cut off only where it is full. -/
theorem field_eq_take {s : Str} (hcolon : COLON ∉ s) (n : Nat) : field n s = s.take n := by
  rw [field, List.takeWhile_eq_self_iff]
  intro c hc
  have hne : c ≠ COLON := fun h => hcolon (h ▸ List.mem_of_mem_take hc)
  simpa using hne

/-- A field does not go over a colon. -/
theorem field_append (n : Nat) (s t : Str) : field n (s ++ COLON :: t) = field n s := by
  induction s generalizing n with
  | nil => simp
  | cons c s ih =>
      cases n with
      | zero => rfl
      | succ n =>
          by_cases hc : c = COLON
          · subst hc
            simp
          · rw [List.cons_append, field_cons hc, field_cons hc, ih]

theorem charAt_length_append (before : Str) (c : Byte) (s : Str) (behind : Nat → Byte) :
    charAt (before ++ c :: s) behind before.length = c :=
  @charAt_append before [c] s behind 0 (Nat.succ_pos 0)

/-- A scan that finds a colon, or has no room for the whole rest of the line, takes a
field of this rest. -/
theorem scanField_append {before s : Str} (behind : Nat → Byte) {n : Nat}
    (hstop : COLON ∈ s ∨ n ≤ s.length) :
    scanField (charAt (before ++ s) behind) before.length n =
      (field n s, before.length + (field n s).length) := by
  induction n generalizing before s with
  | zero => rfl
  | succ n ih =>
      cases s with
      | nil => rcases hstop with hcolon | hlen <;> contradiction
      | cons c s =>
          rw [scanField, charAt_length_append]
          by_cases hc : c = COLON
          · subst hc
            simp
          · have hrest : COLON ∈ s ∨ n ≤ s.length := by
              rcases hstop with hcolon | hlen
              · exact .inl ((List.mem_cons.mp hcolon).resolve_left (Ne.symm hc))
              · exact .inr (Nat.le_of_succ_le_succ hlen)
            have hscan := @ih (before ++ [c]) s hrest
            rw [List.append_assoc, List.singleton_append, List.length_append,
              List.length_singleton] at hscan
            rw [if_neg hc, hscan, field_cons hc]
            rw [List.length_cons, Nat.add_assoc, Nat.add_comm 1]

/-! ## The two scans -/

/-- What is left of the rest of a line when the key field has been taken from it. -/
def behindKey (s : Str) : Str := s.drop ((field 16 s).length + 1)

theorem behindKey_append (key t : Str) :
    behindKey (key ++ COLON :: t) =
      if field 16 key = key then t else behindKey key ++ COLON :: t := by
  rw [behindKey, field_append]
  split
  case isTrue h => rw [h, List.drop_length_add_append, List.drop_one, List.tail_cons]
  case isFalse h =>
      have hlt : (field 16 key).length < key.length := by
        have hne : (field 16 key).length ≠ key.length :=
          fun heq => h ((field_isPrefix 16 key).eq_of_length heq)
        have hle := (field_isPrefix 16 key).length_le
        omega
      rw [List.drop_append_of_le_length hlt, behindKey]

/-- The scan of the key stops at the colon behind it at the latest. -/
theorem scanField_key (c : Byte) {s : Str} (behind : Nat → Byte) (hkey : COLON ∈ s) :
    scanField (charAt (c :: COLON :: s) behind) 2 16 =
      (field 16 s, 2 + (field 16 s).length) :=
  @scanField_append [c, COLON] s behind 16 (.inl hkey)

/-- The scan of the value starts behind the char at which the scan of the key stopped. -/
theorem scanField_value (c : Byte) {s : Str} (behind : Nat → Byte)
    (hvalue : COLON ∈ behindKey s) :
    scanField (charAt (c :: COLON :: s) behind) (2 + (field 16 s).length + 1) 32 =
      (field 32 (behindKey s),
        2 + (field 16 s).length + 1 + (field 32 (behindKey s)).length) := by
  have hsplit : s.take ((field 16 s).length + 1) ++ behindKey s = s := List.take_append_drop _ s
  have hlen : (field 16 s).length + 1 ≤ s.length := by
    by_contra hgt
    rw [behindKey, List.drop_eq_nil_of_le (by omega)] at hvalue
    cases hvalue
  have hscan := @scanField_append (c :: COLON :: s.take ((field 16 s).length + 1)) (behindKey s)
    behind 32 (.inl hvalue)
  rw [List.cons_append, List.cons_append, hsplit, List.length_cons, List.length_cons,
    List.length_take_of_le hlen] at hscan
  have hindex : 2 + (field 16 s).length + 1 = (field 16 s).length + 1 + 1 + 1 := by omega
  rw [hindex, hscan]

/-- If both scans stop at a colon, `parseLine` finds the two fields. -/
theorem parseLine_fields (c : Byte) {s : Str} (behind : Nat → Byte) (hkey : COLON ∈ s)
    (hvalue : COLON ∈ behindKey s) :
    parseLine (c :: COLON :: s) behind = (stoi c).map fun operation =>
      { operation := operation
        keepalive := 1
        key := pad 16 (field 16 s)
        value := pad 32 (field 32 (behindKey s)) } := by
  have hchar : charAt (c :: COLON :: s) behind 0 = c := rfl
  simp only [parseLine, hchar, scanField_key c behind hkey, scanField_value c behind hvalue]

/-! ## The line `d:key:value:` -/

/-- A request line with any digit in front. -/
def requestLine (d : Byte) (key value : Str) : Str :=
  (48 + d) :: COLON :: (key ++ COLON :: (value ++ [COLON]))

/-- The line stands for an operation, the first 16 chars of the key and the first 32 of the
value. -/
def Decodes (behind : Nat → Byte) (d : Byte) (key value : Str) : Prop :=
  ∃ msg, parseLine (requestLine d key value) behind = some msg ∧
    msg.operation = d ∧
    msg.key = pad 16 (key.take 16) ∧
    msg.value = pad 32 (value.take 32)

theorem stoi_add {d : Byte} (hd : d ≤ 9) : stoi (48 + d) = some d := by
  have hdigit : IsDigit (48 + d) := by
    rw [UInt8.le_iff_toNat_le] at hd
    simp only [IsDigit, UInt8.le_iff_toNat_le, UInt8.toNat_add]
    change d.toNat ≤ 9 at hd
    change 48 ≤ (48 + d.toNat) % 256 ∧ (48 + d.toNat) % 256 ≤ 57
    omega
  have hsub : 48 + d - 48 = d := by rw [UInt8.add_comm, UInt8.add_sub_cancel]
  rw [stoi, if_pos hdigit, hsub]

/-- The operation and the key are always found, and the value if the key fits.  If it does
not, the value is what comes behind the 17th char of the key. -/
theorem parseLine_requestLine {d : Byte} {key value : Str} (behind : Nat → Byte) (hd : d ≤ 9)
    (hkey : COLON ∉ key) (hvalue : COLON ∉ value) :
    parseLine (requestLine d key value) behind = some
      { operation := d
        keepalive := 1
        key := pad 16 (key.take 16)
        value := pad 32 ((if key.length ≤ 16 then value else key.drop 17).take 32) } := by
  have hbehind : behindKey (key ++ COLON :: (value ++ [COLON])) =
      if key.length ≤ 16 then value ++ [COLON]
      else key.drop 17 ++ COLON :: (value ++ [COLON]) := by
    simp only [behindKey_append, field_eq_take hkey, List.take_eq_self_iff]
    split
    case isTrue h => rfl
    case isFalse h =>
        rw [behindKey, field_eq_take hkey, List.length_take_of_le (Nat.le_of_not_le h)]
  have hrest : COLON ∉ key.drop 17 := fun h => hkey (List.mem_of_mem_drop h)
  rw [requestLine, parseLine_fields _ behind (by simp), stoi_add hd, Option.map_some,
    field_append, field_eq_take hkey, hbehind]
  · split
    case isTrue h => rw [field_append, field_eq_take hvalue]
    case isFalse h => rw [field_append, field_eq_take hrest]
  · rw [hbehind]
    split <;> simp

/-- The value is right if the key fits.  Otherwise its chars behind the 17th have to be
those of the value. -/
theorem decodes_iff {d : Byte} {key value : Str} (behind : Nat → Byte) (hd : d ≤ 9)
    (hkey : COLON ∉ key) (hkey0 : 0 ∉ key) (hvalue : COLON ∉ value) (hvalue0 : 0 ∉ value) :
    Decodes behind d key value ↔
      key.length ≤ 16 ∨ (key.drop 17).take 32 = value.take 32 := by
  rw [Decodes, parseLine_requestLine behind hd hkey hvalue]
  constructor
  · rintro ⟨msg, hmsg, -, -, hval⟩
    cases hmsg
    by_cases hlen : key.length ≤ 16
    · exact .inl hlen
    · rw [if_neg hlen] at hval
      have hdrop0 : 0 ∉ (key.drop 17).take 32 :=
        fun h => hkey0 (List.mem_of_mem_drop (List.mem_of_mem_take h))
      have htake0 : 0 ∉ value.take 32 := fun h => hvalue0 (List.mem_of_mem_take h)
      have hlenDrop : ((key.drop 17).take 32).length ≤ 32 := List.length_take_le _ _
      have hlenTake : (value.take 32).length ≤ 32 := List.length_take_le _ _
      exact .inr (eq_of_pad_eq hlenDrop hlenTake hdrop0 htake0 hval)
  · intro h
    refine ⟨_, rfl, rfl, rfl, ?_⟩
    by_cases hlen : key.length ≤ 16
    · rw [if_pos hlen]
    · rw [if_neg hlen, h.resolve_left hlen]

theorem decodes_iff_put : Decodes (fun _ => 0) 1 [107, 101, 121] [118] :=
  (decodes_iff (fun _ => 0) (by decide) (by decide) (by decide) (by decide) (by decide)).mpr
    (.inl (by decide))

/-- A PUT of `b` under a key of 18 chars.  The value is taken from the key. -/
theorem long_key_not_decoded :
    ∃ key value : Str, COLON ∉ key ∧ 0 ∉ key ∧ COLON ∉ value ∧ 0 ∉ value ∧
      ¬ Decodes (fun _ => 0) 1 key value := by
  refine ⟨List.replicate 18 97, [98], by decide, by decide, by decide, by decide, ?_⟩
  rintro ⟨msg, hmsg, -, -, hval⟩
  have hparse : (parseLine (requestLine 1 (List.replicate 18 97) [98]) fun _ => 0).map
      SendMessage.value = some (pad 32 [97]) := by decide
  rw [hmsg, Option.map_some, hval] at hparse
  exact absurd (Option.some.inj hparse) (by decide)

/-! ## What is read -/

/-- The indices that a scan reads.  The test reads the char before it looks for room, and the
body reads it again. -/
def scanReads (chars : Nat → Byte) (index : Nat) : Nat → List Nat
  | 0 => [index]
  | n + 1 =>
      if chars index = COLON then [index]
      else index :: index :: scanReads chars (index + 1) n

/-- The indices at which `parseLine` reads the line. -/
def lineReads (line : Str) (behind : Nat → Byte) : List Nat :=
  0 :: match stoi (charAt line behind 0) with
    | none => []
    | some _ =>
        let key := scanField (charAt line behind) 2 16
        scanReads (charAt line behind) 2 16 ++ scanReads (charAt line behind) (key.2 + 1) 32

theorem le_scanField (chars : Nat → Byte) (index n : Nat) :
    index ≤ (scanField chars index n).2 := by
  induction n generalizing index with
  | zero => exact Nat.le_refl index
  | succ n ih =>
      rw [scanField]
      split
      · exact Nat.le_refl index
      · exact Nat.le_of_succ_le (ih (index + 1))

/-- A scan reads from its first index to the one at which it stops. -/
theorem mem_scanReads {chars : Nat → Byte} {index n i : Nat} :
    i ∈ scanReads chars index n ↔ index ≤ i ∧ i ≤ (scanField chars index n).2 := by
  induction n generalizing index with
  | zero =>
      simp only [scanReads, scanField, List.mem_singleton]
      omega
  | succ n ih =>
      have hle := le_scanField chars (index + 1) n
      rw [scanReads, scanField]
      split
      · simp only [List.mem_singleton]
        omega
      · simp only [List.mem_cons, ih]
        omega

/-- A scan depends on nothing but the chars it reads. -/
theorem scanField_congr {chars chars' : Nat → Byte} {index n : Nat}
    (h : ∀ i ∈ scanReads chars index n, chars i = chars' i) :
    scanField chars index n = scanField chars' index n := by
  induction n generalizing index with
  | zero => rfl
  | succ n ih =>
      rw [scanReads] at h
      by_cases hc : chars index = COLON
      · rw [if_pos hc] at h
        have hc' : chars' index = COLON := (h index (.head _)).symm.trans hc
        rw [scanField, scanField, if_pos hc, if_pos hc']
      · rw [if_neg hc] at h
        have heq := h index (.head _)
        have hrest := ih fun i hi => h i (.tail _ (.tail _ hi))
        rw [scanField, scanField, ← heq, hrest]

theorem parseLine_congr {line : Str} {behind behind' : Nat → Byte}
    (h : ∀ i ∈ lineReads line behind, charAt line behind i = charAt line behind' i) :
    parseLine line behind = parseLine line behind' := by
  have hzero := h 0 (.head _)
  rw [lineReads] at h
  cases hop : stoi (charAt line behind 0) with
  | none => simp only [parseLine, ← hzero, hop, Option.map_none]
  | some operation =>
      rw [hop] at h
      have hkey := scanField_congr fun i hi => h i (.tail _ (List.mem_append_left _ hi))
      have hvalue := scanField_congr fun i hi => h i (.tail _ (List.mem_append_right _ hi))
      simp only [parseLine, ← hzero, hop, Option.map_some, ← hkey, hvalue]

/-- `parseLine` does not read behind the `'\0'` of the line. -/
def Inside (line : Str) (behind : Nat → Byte) : Prop := ∀ i ∈ lineReads line behind, i ≤ line.length

/-- Then it does not depend on what is there. -/
theorem Inside.parseLine_eq {line : Str} {behind : Nat → Byte} (h : Inside line behind)
    (behind' : Nat → Byte) : parseLine line behind = parseLine line behind' := by
  refine parseLine_congr fun i hi => ?_
  rcases Nat.lt_or_eq_of_le (h i hi) with hlt | heq
  · rw [charAt, charAt, if_pos hlt, if_pos hlt]
  · rw [charAt, charAt, if_neg (by omega), if_pos heq, if_neg (by omega), if_pos heq]

/-- The index at which the scan of the value stops is the last one. -/
theorem inside_text_iff (l : Line) (behind : Nat → Byte) :
    Inside l.text behind ↔
      (scanField (charAt l.text behind) ((scanField (charAt l.text behind) 2 16).2 + 1) 32).2 ≤
        l.text.length := by
  have hop : charAt l.text behind 0 = digit l.opcode := rfl
  have hkey := le_scanField (charAt l.text behind) 2 16
  have hvalue :=
    le_scanField (charAt l.text behind) ((scanField (charAt l.text behind) 2 16).2 + 1) 32
  rw [Inside, lineReads, hop, stoi_digit]
  simp only [List.mem_cons, List.mem_append, mem_scanReads]
  constructor
  · intro h
    exact h _ (.inr (.inr ⟨hvalue, Nat.le_refl _⟩))
  · intro h i hi
    omega

/-- The rest of a line behind the operation. -/
def Line.rest (l : Line) : Str :=
  l.keystring ++ COLON ::
    match l.valuestring with
    | none => []
    | some valuestring => valuestring ++ [COLON]

theorem Line.text_eq (l : Line) : l.text = digit l.opcode :: COLON :: l.rest := rfl

theorem Line.colon_mem_rest (l : Line) : COLON ∈ l.rest := by simp [Line.rest]

/-- With a colon left for the value, both scans stay in the line. -/
theorem inside_of_colon {l : Line} (behind : Nat → Byte) (hvalue : COLON ∈ behindKey l.rest) :
    Inside l.text behind := by
  have hle := (field_isPrefix 32 (behindKey l.rest)).length_le
  have hpos := List.length_pos_of_mem hvalue
  rw [inside_text_iff, l.text_eq, scanField_key _ behind l.colon_mem_rest,
    scanField_value _ behind hvalue]
  simp only [behindKey, List.length_drop, List.length_cons] at hle hpos ⊢
  omega

/-- Without one, the scan of the value starts at the `'\0'` and goes on. -/
theorem not_inside {l : Line} (behind : Nat → Byte) (hkey : field 16 l.keystring = l.keystring)
    (hvalue : l.valuestring = none) : ¬ Inside l.text behind := by
  have hrest : l.rest = l.keystring ++ [COLON] := by rw [Line.rest, hvalue]
  have hindex : 2 + (field 16 l.rest).length + 1 = l.text.length := by
    rw [l.text_eq, hrest, field_append, hkey]
    simp only [List.length_cons, List.length_append, List.length_nil]
    omega
  have hend : charAt l.text behind l.text.length ≠ COLON := by simp [charAt, COLON]
  have hscan := le_scanField (charAt l.text behind) (l.text.length + 1) 31
  have hfirst : (scanField (charAt l.text behind) 2 16).2 + 1 = l.text.length := by
    rw [← hindex, l.text_eq, scanField_key _ behind l.colon_mem_rest]
  rw [inside_text_iff, hfirst, scanField, if_neg hend]
  simp only
  omega

/-- The value field is left for the scan of the value unless there is none and the scan of the
key stops at the colon behind the key. -/
theorem colon_mem_behindKey {l : Line}
    (h : l.valuestring = none → field 16 l.keystring ≠ l.keystring) :
    COLON ∈ behindKey l.rest := by
  rw [Line.rest, behindKey_append]
  split
  case isTrue hkey =>
      cases hvalue : l.valuestring with
      | none => exact absurd hkey (h hvalue)
      | some valuestring => simp
  case isFalse hkey => simp

theorem pad_eq_nil_iff {n : Nat} {s : Str} (hlen : s.length ≤ n) :
    pad n s = pad n [] ↔ ∀ c ∈ s, c = 0 := by
  rw [pad_eq_pad_iff]
  constructor
  · intro h c hc
    obtain ⟨i, hi, rfl⟩ := List.mem_iff_getElem.mp hc
    have hget := h i (Nat.lt_of_lt_of_le hi hlen)
    rw [List.getD_eq_getElem _ _ hi] at hget
    simpa using hget
  · intro h i hi
    rcases Nat.lt_or_ge i s.length with hlt | hge
    · rw [List.getD_eq_getElem _ _ hlt]
      simpa using h s[i] (List.getElem_mem hlt)
    · rw [List.getD_eq_default _ _ hge]
      simp

theorem length_field_le (n : Nat) (s : Str) : (field n s).length ≤ n :=
  ((List.takeWhile_prefix _).length_le).trans (List.length_take_le n s)

/-- The value of a line without a value field, if the scan of it stays in the line: what is
left of the key. -/
theorem parseLine_no_value {l : Line} (behind : Nat → Byte) (hvalue : l.valuestring = none)
    (hkey : field 16 l.keystring ≠ l.keystring) :
    ∃ msg, parseLine l.text behind = some msg ∧
      msg.value = pad 32 (field 32 (behindKey l.keystring)) := by
  have hparse := parseLine_fields (digit l.opcode) behind l.colon_mem_rest
    (colon_mem_behindKey fun _ => hkey)
  have hvalueField : field 32 (behindKey l.rest) = field 32 (behindKey l.keystring) := by
    rw [Line.rest, hvalue, behindKey_append, if_neg hkey, field_append]
  rw [stoi_digit, Option.map_some, hvalueField] at hparse
  exact ⟨_, hparse, rfl⟩

/-- `parseLine` stays in every line with a value field.  In a line without one it does so
only if the key has a colon or does not fit, and then the value is empty only if nothing
but NULs is left of the key. -/
theorem inside_iff (l : Line) (behind : Nat → Byte) :
    (Inside l.text behind ∧
        (l.valuestring = none →
          ∃ msg, parseLine l.text behind = some msg ∧ msg.value = pad 32 [])) ↔
      (l.valuestring = none →
        field 16 l.keystring ≠ l.keystring ∧ ∀ c ∈ field 32 (behindKey l.keystring), c = 0) := by
  constructor
  · rintro ⟨hinside, hzero⟩ hvalue
    have hkey : field 16 l.keystring ≠ l.keystring :=
      fun hkey => not_inside behind hkey hvalue hinside
    obtain ⟨msg, hmsg, hval⟩ := hzero hvalue
    obtain ⟨msg', hmsg', hval'⟩ := parseLine_no_value behind hvalue hkey
    cases hmsg.symm.trans hmsg'
    exact ⟨hkey, (pad_eq_nil_iff (length_field_le _ _)).mp (hval'.symm.trans hval)⟩
  · intro h
    refine ⟨inside_of_colon behind (colon_mem_behindKey fun hvalue => (h hvalue).1), ?_⟩
    intro hvalue
    obtain ⟨msg, hmsg, hval⟩ := parseLine_no_value behind hvalue (h hvalue).1
    exact ⟨msg, hmsg, hval.trans ((pad_eq_nil_iff (length_field_le _ _)).mpr (h hvalue).2)⟩

/-- The GET line `0:key:`. -/
theorem get_line_not_inside :
    ∃ l : Line, l.opcode = .GET ∧ l.valuestring = none ∧ ¬ Inside l.text fun _ => 0 := by
  refine ⟨⟨.GET, [107, 101, 121], none⟩, rfl, rfl, ?_⟩
  intro h
  exact absurd (h 7 (by decide)) (by decide)

end KvServer.Testclient
