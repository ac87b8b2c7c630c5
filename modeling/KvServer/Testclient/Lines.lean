import KvServer.Store.Messages

/-!
# Request lines

The test clients read their requests from a file.  The first line of the file is
the number of request lines, and a request line is the operation as a digit, the
key and, for some operations, a value, each followed by a colon.

`Line` is such a line as the generator has it, `Line.text` the characters it writes
and `Line.request` the request the line stands for.  `parseLine` is what the clients
do with the characters.  It looks for a colon behind the value, so on a line without
a value it reads on behind the end of the string.  What it finds there is an
argument, `behind`.
-/

namespace KvServer.Testclient

/-- `std::string` -/
abbrev Str := List Byte

/-- `':'` -/
def COLON : Byte := 58

/-- `'\n'` -/
def NEWLINE : Byte := 10

/-! ## Fields of fixed size -/

/-- A string in an array of `n` chars, filled up with `'\0'`. -/
def pad (n : Nat) (s : Str) : Vector Byte n := Vector.ofFn fun i => s.getD i 0

theorem pad_eq_pad_iff {n : Nat} {s t : Str} :
    pad n s = pad n t ↔ ∀ i < n, s.getD i 0 = t.getD i 0 := by
  constructor
  · intro h i hi
    have hget := congrArg (fun v : Vector Byte n => v[i]) h
    simpa [pad] using hget
  · intro h
    apply Vector.ext
    intro i hi
    simpa [pad] using h i hi

/-- A char that is not `'\0'` comes from the string. -/
theorem getElem?_eq_of_getD {s : Str} (hs : 0 ∉ s) (i : Nat) :
    s[i]? = if s.getD i 0 = 0 then none else some (s.getD i 0) := by
  rcases Nat.lt_or_ge i s.length with hlt | hge
  · have hne : s[i] ≠ 0 := fun h => hs (h ▸ List.getElem_mem hlt)
    rw [List.getD_eq_getElem _ _ hlt, if_neg hne, List.getElem?_eq_getElem hlt]
  · rw [List.getD_eq_default _ _ hge, if_pos rfl, List.getElem?_eq_none hge]

/-- Strings that fit and have no `'\0'` are told apart by their arrays. -/
theorem eq_of_pad_eq {n : Nat} {s t : Str} (hs : s.length ≤ n) (ht : t.length ≤ n)
    (hs0 : 0 ∉ s) (ht0 : 0 ∉ t) (h : pad n s = pad n t) : s = t := by
  apply List.ext_getElem?
  intro i
  rcases Nat.lt_or_ge i n with hlt | hge
  · rw [getElem?_eq_of_getD hs0, getElem?_eq_of_getD ht0, pad_eq_pad_iff.mp h i hlt]
  · rw [List.getElem?_eq_none (Nat.le_trans hs hge), List.getElem?_eq_none (Nat.le_trans ht hge)]

/-! ## Numbers -/

/-- `isspace` -/
def IsSpace (c : Byte) : Prop := c = 32 ∨ (9 ≤ c ∧ c ≤ 13)

instance (c : Byte) : Decidable (IsSpace c) := inferInstanceAs (Decidable (_ ∨ _))

/-- `'0'` to `'9'` -/
def IsDigit (c : Byte) : Prop := 48 ≤ c ∧ c ≤ 57

instance (c : Byte) : Decidable (IsDigit c) := inferInstanceAs (Decidable (_ ∧ _))

/-- The number with these digits. -/
def number (digits : Str) : Nat := digits.foldl (fun n c => n * 10 + (c.toNat - 48)) 0

/-- What comes behind an optional sign. -/
def behindSign (chars : Str) : Str :=
  if chars.head? = some 45 ∨ chars.head? = some 43 then chars.tail else chars

/-- The number with these digits and the sign in front of `chars`. -/
def signed (chars digits : Str) : Int :=
  if chars.head? = some 45 then -number digits else number digits

/-! ## Lines -/

/-- A request line: the operation, the key, and the value field if there is one. -/
structure Line where
  opcode : Operation
  keystring : Str
  valuestring : Option Str
deriving DecidableEq, Repr

/-- The digit of an operation. -/
def digit (op : Operation) : Byte := 48 + op.code

/-- The characters of a line, without the newline. -/
def Line.text (l : Line) : Str :=
  digit l.opcode :: COLON :: (l.keystring ++ COLON ::
    match l.valuestring with
    | none => []
    | some valuestring => valuestring ++ [COLON])

/-- The request a line stands for. -/
def Line.request (l : Line) (keepalive : Byte) : SendMessage where
  operation := l.opcode.code
  keepalive := keepalive
  key := pad 16 l.keystring
  value := pad 32 (l.valuestring.getD [])

/-! ## `parseLine` -/

/-- `line[index]`.  Behind its characters a string has a `'\0'`, and what is behind that is
not its own. -/
def charAt (line : Str) (behind : Nat → Byte) (index : Nat) : Byte :=
  if index < line.length then line.getD index 0
  else if index = line.length then 0 else behind index

/-- `stoi` of a string of one char. -/
def stoi (c : Byte) : Option Byte := if IsDigit c then some (c - 48) else none

/-- `while(line[index]!=':' and ...)` with room for `n` more chars: the field and the index
behind it. -/
def scanField (chars : Nat → Byte) (index : Nat) : Nat → Str × Nat
  | 0 => ([], index)
  | n + 1 =>
      if chars index = COLON then ([], index)
      else
        let (field, last) := scanField chars (index + 1) n
        (chars index :: field, last)

/-- `parseLine`.  `none` is the exception of `stoi`. -/
def parseLine (line : Str) (behind : Nat → Byte) : Option SendMessage :=
  (stoi (charAt line behind 0)).map fun operation =>
    let key := scanField (charAt line behind) 2 16
    let value := scanField (charAt line behind) (key.2 + 1) 32
    { operation := operation
      keepalive := 1
      key := pad 16 key.1
      value := pad 32 value.1 }

/-- `stoi` takes the first char of the line. -/
def StartsWithDigit (line : Str) : Prop := ∃ c ∈ line.head?, IsDigit c

instance (line : Str) : Decidable (StartsWithDigit line) :=
  inferInstanceAs (Decidable (∃ c ∈ line.head?, IsDigit c))

theorem parseLine_isSome {line : Str} (behind : Nat → Byte) (h : StartsWithDigit line) :
    (parseLine line behind).isSome := by
  obtain ⟨c, hc, hdigit⟩ := h
  cases line with
  | nil => cases hc
  | cons d line =>
      cases hc
      have hchar : charAt (c :: line) behind 0 = c := rfl
      rw [parseLine, hchar, stoi, if_pos hdigit]
      rfl

theorem parseLine_keepalive {line : Str} {behind : Nat → Byte} {msg : SendMessage}
    (h : parseLine line behind = some msg) : msg.keepalive = 1 := by
  obtain ⟨operation, -, rfl⟩ := Option.map_eq_some_iff.mp h
  rfl

@[simp] theorem stoi_digit (op : Operation) : stoi (digit op) = some op.code := by
  cases op <;> decide

/-- The scan takes a field that fits and is followed by a colon. -/
theorem scanField_eq {chars : Nat → Byte} {field : Str} {index n : Nat} (hcolon : COLON ∉ field)
    (hlen : field.length ≤ n) (hfield : ∀ i (h : i < field.length), chars (index + i) = field[i])
    (hend : chars (index + field.length) = COLON) :
    scanField chars index n = (field, index + field.length) := by
  induction field generalizing index n with
  | nil =>
      cases n with
      | zero => rfl
      | succ n => exact if_pos hend
  | cons c field ih =>
      cases n with
      | zero => cases hlen
      | succ n =>
          have hc : chars index = c := hfield 0 (Nat.succ_pos _)
          have hne : chars index ≠ COLON := fun h => hcolon (by rw [← h, hc]; exact .head _)
          have hrest := @ih (index + 1) n (fun h => hcolon (.tail _ h))
            (Nat.le_of_succ_le_succ hlen) (fun i hi => by
              rw [Nat.add_right_comm]
              exact hfield (i + 1) (Nat.succ_lt_succ hi))
            (by
              rw [Nat.add_right_comm]
              exact hend)
          rw [scanField, if_neg hne, hrest, hc, List.length_cons]
          simp only [Nat.add_right_comm, Nat.add_assoc]

/-- A string in the middle of a line. -/
theorem charAt_append {before s after : Str} (behind : Nat → Byte) {i : Nat} (h : i < s.length) :
    charAt (before ++ (s ++ after)) behind (before.length + i) = s[i] := by
  have hlt : before.length + i < (before ++ (s ++ after)).length := by
    simp only [List.length_append]
    omega
  rw [charAt, if_pos hlt, List.getD_append_right _ _ _ _ (Nat.le_add_right _ _),
    Nat.add_sub_cancel_left, List.getD_append _ _ _ _ h, List.getD_eq_getElem _ _ h]

/-- The scan of a field in the middle of a line. -/
theorem scanField_charAt {before field after : Str} (behind : Nat → Byte) {n : Nat}
    (hcolon : COLON ∉ field) (hlen : field.length ≤ n) :
    scanField (charAt (before ++ (field ++ COLON :: after)) behind) before.length n =
      (field, before.length + field.length) := by
  refine scanField_eq hcolon hlen (fun i h => charAt_append behind h) ?_
  have hend := @charAt_append (before ++ field) [COLON] after behind 0 (Nat.succ_pos 0)
  simpa using hend

/-- The key field of a line. -/
theorem scanField_text {l : Line} (behind : Nat → Byte) (hlen : l.keystring.length ≤ 16)
    (hcolon : COLON ∉ l.keystring) :
    scanField (charAt l.text behind) 2 16 = (l.keystring, 2 + l.keystring.length) :=
  @scanField_charAt [digit l.opcode, COLON] l.keystring _ behind 16 hcolon hlen

/-- The clients find the operation and the key of a line in which the key fits and has no
colon. -/
theorem parseLine_text {l : Line} (behind : Nat → Byte) (hlen : l.keystring.length ≤ 16)
    (hcolon : COLON ∉ l.keystring) :
    ∃ value, parseLine l.text behind = some { l.request 1 with value := value } := by
  have hop : charAt l.text behind 0 = digit l.opcode := rfl
  refine ⟨pad 32 (scanField (charAt l.text behind) (2 + l.keystring.length + 1) 32).1, ?_⟩
  rw [parseLine, hop, stoi_digit, Option.map_some, scanField_text behind hlen hcolon]
  rfl

/-- If the value fits as well and has no colon either, they find the whole request. -/
theorem parseLine_text_value {l : Line} {valuestring : Str} (behind : Nat → Byte)
    (hlen : l.keystring.length ≤ 16) (hcolon : COLON ∉ l.keystring)
    (hvalue : l.valuestring = some valuestring) (hvlen : valuestring.length ≤ 32)
    (hvcolon : COLON ∉ valuestring) : parseLine l.text behind = some (l.request 1) := by
  have hop : charAt l.text behind 0 = digit l.opcode := rfl
  have htext : l.text =
      (digit l.opcode :: COLON :: (l.keystring ++ [COLON])) ++ (valuestring ++ COLON :: []) := by
    rw [Line.text, hvalue]
    simp
  have hval := @scanField_charAt (digit l.opcode :: COLON :: (l.keystring ++ [COLON]))
    valuestring [] behind 32 hvcolon hvlen
  have hindex : (digit l.opcode :: COLON :: (l.keystring ++ [COLON])).length =
      2 + l.keystring.length + 1 := by
    simp only [List.length_cons, List.length_append, List.length_nil]
    omega
  rw [← htext, hindex] at hval
  rw [parseLine, hop, stoi_digit, Option.map_some, scanField_text behind hlen hcolon]
  simp only [hval]
  rw [Line.request, hvalue]
  rfl

end KvServer.Testclient
