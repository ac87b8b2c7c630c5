import Mathlib.Data.List.TakeWhile
import KvServer.Testclient.Strace

/-!
# Where the trace parsers end

The loop of a parser ends at a quote.  A token that was cut short has none, and nothing else
stops the scan at its end: the index goes on behind the token.

*Indices.*  `parserLoop` is the loop with its index, one char of the token at a time, and with
fuel.  It does what `parseLoop` does (`parserLoop_spec`), so it always ends or reads behind the
token, after at most two iterations more than there are chars left.

*The end.*  The scan never passes over a quote.  On a text without one it stops only at the
header of a message, where `stoi` and `substr` throw if there is no digit.  `BreaksOff` says
of the text that this happens (`parseLoop_outside_iff`).
-/

namespace KvServer.Testclient

/-! ## The loop with its index -/

/-- `token[index]`.  Behind its chars a string has a `'\0'`. -/
def tokenAt (token : Str) (index : Nat) : Except Fault Byte :=
  if index < token.length then .ok (token.getD index 0)
  else if index = token.length then .ok 0
  else .error .outside

/-- `stoi(token.substr(index, 1))`.  `substr` throws behind the end, and `stoi` throws if there
is no digit. -/
def stoiAt (token : Str) (index : Nat) : Option Byte := token[index]?.bind stoi

/-- `while(nums.find(token[currentindex]) != std::string::npos)`: the number and the index of the
first char that is not a digit.  `none` says that the fuel is used up. -/
def digitLoop (token : Str) : Nat → Nat → Nat → Option (Except Fault (Nat × Nat))
  | 0, _, _ => none
  | fuel + 1, number, currentindex =>
      match tokenAt token currentindex with
      | .error fault => some (.error fault)
      | .ok c =>
          if IsDigit c then digitLoop token fuel (number * 10 + (c.toNat - 48)) (currentindex + 1)
          else some (.ok (number, currentindex))

/-- The char at an index, or of the escape sequence there, and the index of its last char. -/
def charFrom (token : Str) (fuel : Nat) (c : Byte) (currentindex : Nat) :
    Option (Except Fault (Byte × Nat)) :=
  if c = BACKSLASH then
    (digitLoop token fuel 0 (currentindex + 1)).map
      (Except.map fun (number, currentindex) => (UInt8.ofNat number, currentindex - 1))
  else some (.ok (c, currentindex))

/-- After a message: the index from which the loop goes on, and the message that is read next. -/
def nextMessage (token : Str) (currentindex : Nat) (s : Scan) : Except Fault (Nat × Scan) :=
  match tokenAt token currentindex with
  | .error fault => .error fault
  | .ok c =>
      if c = QUOTE then .ok (currentindex, s)
      else
        match stoiAt token (currentindex + 1) with
        | none => .error .exception
        | some status => .ok (currentindex + 2, ⟨status, [], []⟩)

/-- The `while` loop of a parser. -/
def parserLoop (bounded : Bool) (token : Str) : Nat → Nat → Scan → Option (Except Fault (List Scan))
  | 0, _, _ => none
  | fuel + 1, currentindex, s =>
      match tokenAt token currentindex with
      | .error fault => some (.error fault)
      | .ok c =>
          if c = QUOTE ∨ (bounded ∧ 32 ≤ s.value.length) then some (.ok [])
          else
            match charFrom token (fuel + 1) c currentindex with
            | none => none
            | some (.error fault) => some (.error fault)
            | some (.ok (currentchar, currentindex)) =>
                let s := s.put currentchar
                let currentindex := currentindex + 1
                if s.Full then
                  match nextMessage token currentindex s with
                  | .error fault => some (.error fault)
                  | .ok (currentindex, s') =>
                      (parserLoop bounded token fuel currentindex s').map (Except.map (s :: ·))
                else parserLoop bounded token fuel currentindex s

/-- A parser, up to the messages it makes of what it has scanned. -/
def parserRun (bounded : Bool) (fuel : Nat) (token : Str) : Option (Except Fault (List Scan)) :=
  match stoiAt token 2 with
  | none => some (.error .exception)
  | some status => parserLoop bounded token fuel 5 ⟨status, [], []⟩

/-- The parser ends and does not read the token at an index beyond its length. -/
def StaysInside (bounded : Bool) (token : Str) : Prop :=
  ∃ fuel r, parserRun bounded fuel token = some r ∧ r ≠ .error .outside

/-- A quote, a backslash and a digit, and at least five chars. -/
structure IsToken (token : Str) : Prop where
  length : 5 ≤ token.length
  quote : token[0]? = some QUOTE
  backslash : token[1]? = some BACKSLASH
  digit : ∃ d ∈ token[2]?, IsDigit d

/-! ## It is the same loop -/

section Index

variable {token : Str} {index : Nat}

theorem tokenAt_of_drop {c : Byte} {rest : Str} (h : token.drop index = c :: rest) :
    tokenAt token index = .ok c := by
  have hget : token[index]? = some c := by
    rw [← Nat.add_zero index, ← List.getElem?_drop, h]
    rfl
  obtain ⟨hlt, heq⟩ := List.getElem?_eq_some_iff.mp hget
  rw [tokenAt, if_pos hlt, List.getD_eq_getElem _ _ hlt, heq]

theorem tokenAt_length : tokenAt token token.length = .ok 0 := by
  rw [tokenAt, if_neg (Nat.lt_irrefl _), if_pos rfl]

theorem tokenAt_of_gt (h : token.length < index) : tokenAt token index = .error .outside := by
  rw [tokenAt, if_neg (by omega), if_neg (by omega)]

/-- The rest of the token from an index inside. -/
theorem drop_cases (hindex : index ≤ token.length) :
    (index = token.length ∧ token.drop index = []) ∨
      ∃ c rest, token.drop index = c :: rest ∧ token.drop (index + 1) = rest ∧
        index < token.length := by
  rcases Nat.lt_or_ge index token.length with hlt | hge
  · exact Or.inr ⟨_, _, List.drop_eq_getElem_cons hlt, rfl, hlt⟩
  · exact Or.inl ⟨Nat.le_antisymm hindex hge, List.drop_eq_nil_of_le hge⟩

/-- The digits from an index on, unless the fuel does not last for them. -/
theorem digitLoop_spec {fuel number : Nat} (hindex : index ≤ token.length) :
    digitLoop token fuel number index =
        some (.ok (((token.drop index).takeWhile fun c => IsDigit c).foldl
            (fun n c => n * 10 + (c.toNat - 48)) number,
          index + ((token.drop index).takeWhile fun c => IsDigit c).length)) ∨
      digitLoop token fuel number index = none ∧ index + fuel ≤ token.length := by
  induction fuel generalizing number index with
  | zero => exact Or.inr ⟨rfl, hindex⟩
  | succ fuel ih =>
      rw [digitLoop]
      rcases drop_cases hindex with ⟨rfl, hnil⟩ | ⟨c, rest, hcons, hrest, hlt⟩
      · have hzero : ¬ IsDigit (0 : Byte) := by decide
        simp [tokenAt_length, hzero]
      · simp only [tokenAt_of_drop hcons, hcons]
        by_cases hc : IsDigit c
        · have hspec := @ih (index + 1) (number * 10 + (c.toNat - 48)) hlt
          rw [hrest, Nat.add_right_comm, Nat.add_assoc] at hspec
          rw [if_pos hc, List.takeWhile_cons_of_pos (by simpa using hc), List.foldl_cons,
            List.length_cons]
          exact hspec.imp_right fun ⟨hnone, hle⟩ => ⟨hnone, by omega⟩
        · rw [if_neg hc, List.takeWhile_cons_of_neg (by simpa using hc)]
          exact Or.inl rfl

/-- The char at an index, in terms of the rest of the token. -/
theorem charFrom_spec {fuel : Nat} {c : Byte} {rest : Str}
    (hrest : token.drop (index + 1) = rest) (hlt : index < token.length) {w : Byte} {ahead : Nat}
    (hread : (if c = BACKSLASH then escape rest else (c, 0)) = (w, ahead)) :
    charFrom token fuel c index = some (.ok (w, index + ahead)) ∨
      charFrom token fuel c index = none ∧ index + fuel < token.length := by
  rw [charFrom]
  split
  · next hc =>
    rw [if_pos hc, escape, Prod.mk.injEq] at hread
    obtain ⟨rfl, rfl⟩ := hread
    rcases @digitLoop_spec token (index + 1) fuel 0 hlt with hsome | ⟨hnone, hle⟩
    · rw [hsome, hrest]
      refine Or.inl (congrArg some (congrArg Except.ok (Prod.ext rfl ?_)))
      show index + 1 + _ - 1 = _
      omega
    · rw [hnone]
      exact Or.inr ⟨rfl, by omega⟩
  · next hc =>
    rw [if_neg hc] at hread
    cases hread
    exact Or.inl rfl

/-- What an escape sequence is made of is inside the token. -/
theorem read_le {c w : Byte} {rest : Str} {ahead : Nat}
    (hread : (if c = BACKSLASH then escape rest else (c, 0)) = (w, ahead)) :
    ahead ≤ rest.length := by
  split at hread
  · rw [escape, Prod.mk.injEq] at hread
    rw [← hread.2]
    exact (List.takeWhile_sublist _).length_le
  · cases hread
    exact Nat.zero_le _

/-- Skipping inside the token. -/
theorem parseLoop_skip (bounded : Bool) (s : Scan) {rest : Str} {ahead : Nat}
    (h : ahead ≤ rest.length) :
    parseLoop bounded rest ahead s = parseLoop bounded (rest.drop ahead) 0 s := by
  induction rest generalizing ahead with
  | nil =>
      cases Nat.le_zero.mp h
      rfl
  | cons c rest ih =>
      cases ahead with
      | zero => rfl
      | succ ahead => exact ih (Nat.le_of_succ_le_succ h)

/-- What comes after a message, in terms of the rest of the token. -/
theorem nextMessage_spec (hindex : index ≤ token.length) (s : Scan) :
    (nextScan s (token.drop index) = none ∧
        nextMessage token index s = .error .exception) ∨
      ∃ skip s', nextScan s (token.drop index) = some (skip, s') ∧
        nextMessage token index s = .ok (index + skip, s') ∧ index + skip ≤ token.length := by
  have hstoi : (token.drop index)[1]?.bind stoi = stoiAt token (index + 1) := by
    rw [List.getElem?_drop, stoiAt]
  rw [nextScan, nextMessage, hstoi]
  rcases drop_cases hindex with ⟨rfl, hnil⟩ | ⟨c, rest, hcons, -, hlt⟩
  · have hquote : ¬ (0 : Byte) = QUOTE := by decide
    have hnone : stoiAt token (token.length + 1) = none := by
      rw [stoiAt, List.getElem?_eq_none (by omega), Option.bind_none]
    rw [hnil, tokenAt_length, hnone]
    dsimp only
    rw [if_neg hquote]
    exact Or.inl ⟨rfl, rfl⟩
  · rw [tokenAt_of_drop hcons, hcons, List.head?_cons]
    dsimp only
    by_cases hc : c = QUOTE
    · subst hc
      exact Or.inr ⟨0, s, if_pos rfl, if_pos rfl, hindex⟩
    · rw [if_neg hc, if_neg (fun h => hc (Option.some.inj h))]
      cases hstatus : stoiAt token (index + 1) with
      | none => exact Or.inl ⟨rfl, rfl⟩
      | some status =>
          refine Or.inr ⟨2, ⟨status, [], []⟩, rfl, rfl, ?_⟩
          obtain ⟨d, hget, -⟩ := Option.bind_eq_some_iff.mp hstatus
          have hlt' := (List.getElem?_eq_some_iff.mp hget).1
          omega

/-- The last iteration: the `'\0'` behind the token is taken for a char, and the next one is
read behind it. -/
theorem parserLoop_length {bounded : Bool} {fuel : Nat} {s : Scan} :
    parserLoop bounded token (fuel + 1) token.length s = some (parseLoop bounded [] 0 s) ∨
      parserLoop bounded token (fuel + 1) token.length s = none ∧ fuel = 0 := by
  have hquote : ¬ (0 : Byte) = QUOTE := by decide
  have hbackslash : ¬ (0 : Byte) = BACKSLASH := by decide
  have hgt : tokenAt token (token.length + 1) = .error .outside :=
    tokenAt_of_gt (Nat.lt_succ_self _)
  rw [parserLoop, tokenAt_length]
  dsimp only
  rw [parseLoop]
  by_cases hstop : bounded ∧ 32 ≤ s.value.length
  · rw [if_pos (Or.inr hstop), if_pos hstop]
    exact Or.inl rfl
  · rw [if_neg (fun h => h.elim hquote hstop), if_neg hstop, charFrom, if_neg hbackslash]
    dsimp only
    split
    · rw [nextMessage, hgt]
      exact Or.inl rfl
    · cases fuel with
      | zero => exact Or.inr ⟨rfl, rfl⟩
      | succ fuel =>
          rw [parserLoop, hgt]
          exact Or.inl rfl

/-- The loop with its index does what the loop on the rest of the token does, unless the fuel
does not last for the chars that are left. -/
theorem parserLoop_spec {bounded : Bool} {fuel : Nat} {s : Scan} (hindex : index ≤ token.length) :
    parserLoop bounded token fuel index s = some (parseLoop bounded (token.drop index) 0 s) ∨
      parserLoop bounded token fuel index s = none ∧ index + fuel < token.length + 2 := by
  induction fuel generalizing index s with
  | zero => exact Or.inr ⟨rfl, by omega⟩
  | succ fuel ih =>
      rcases drop_cases hindex with ⟨rfl, hnil⟩ | ⟨c, rest, hcons, hrest, hlt⟩
      · rw [hnil]
        rcases @parserLoop_length token bounded fuel s with hsome | ⟨hnone, hfuel⟩
        · exact Or.inl hsome
        · exact Or.inr ⟨hnone, by omega⟩
      · rw [parserLoop, tokenAt_of_drop hcons, hcons]
        dsimp only
        rw [parseLoop]
        by_cases hstop : c = QUOTE ∨ (bounded ∧ 32 ≤ s.value.length)
        · rw [if_pos hstop, if_pos hstop]
          exact Or.inl rfl
        · rw [if_neg hstop, if_neg hstop]
          rcases hread : (if c = BACKSLASH then escape rest else (c, 0)) with ⟨w, ahead⟩
          have hahead := read_le hread
          have hbehind : index + ahead + 1 ≤ token.length := by
            rw [← hrest, List.length_drop] at hahead
            omega
          have hdrop : token.drop (index + ahead + 1) = rest.drop ahead := by
            rw [← hrest, List.drop_drop]
            congr 1
            omega
          rcases @charFrom_spec token index (fuel + 1) c rest hrest hlt w ahead hread with
            hchar | ⟨hnone, hle⟩
          · rw [hchar]
            dsimp only
            split
            · rcases @nextMessage_spec token (index + ahead + 1) hbehind (s.put w) with
                ⟨hscan, hnext⟩ | ⟨skip, s', hscan, hnext, hskip⟩
              · rw [hnext, ← hdrop, hscan]
                exact Or.inl rfl
              · have hdrop' : token.drop (index + ahead + 1 + skip) = rest.drop (ahead + skip) := by
                  rw [← List.drop_drop, hdrop, List.drop_drop]
                have hskip' : ahead + skip ≤ rest.length := by
                  rw [← hrest, List.length_drop]
                  omega
                rw [hnext, ← hdrop, hscan]
                dsimp only
                rw [parseLoop_skip bounded s' hskip', ← hdrop']
                rcases @ih (index + ahead + 1 + skip) s' hskip with hsome | ⟨hnone, hle⟩
                · rw [hsome]
                  exact Or.inl rfl
                · rw [hnone]
                  exact Or.inr ⟨rfl, by omega⟩
            · rw [parseLoop_skip bounded _ hahead, ← hdrop]
              rcases @ih (index + ahead + 1) (s.put w) hbehind with hsome | ⟨hnone, hle⟩
              · exact Or.inl hsome
              · exact Or.inr ⟨hnone, by omega⟩
          · rw [hnone]
            exact Or.inr ⟨rfl, by omega⟩

end Index

/-- The runs of a parser are those of the loop on the rest of the token. -/
theorem parserRun_spec {bounded : Bool} {token : Str} (fuel : Nat) (h : 5 ≤ token.length) :
    parserRun bounded fuel token = some (parseToken bounded token) ∨
      parserRun bounded fuel token = none ∧ 5 + fuel < token.length + 2 := by
  rw [parserRun, parseToken, stoiAt]
  cases token[2]?.bind stoi with
  | none => exact Or.inl rfl
  | some status => exact parserLoop_spec h

theorem staysInside_iff_ne {bounded : Bool} {token : Str} (h : 5 ≤ token.length) :
    StaysInside bounded token ↔ parseToken bounded token ≠ .error .outside := by
  constructor
  · rintro ⟨fuel, r, hrun, hr⟩
    rcases @parserRun_spec bounded token fuel h with hsome | ⟨hnone, -⟩
    · cases hsome.symm.trans hrun
      exact hr
    · cases hnone.symm.trans hrun
  · intro hne
    rcases @parserRun_spec bounded token token.length h with hsome | ⟨-, hfuel⟩
    · exact ⟨token.length, _, hsome, hne⟩
    · omega

/-! ## The text of messages -/

/-- `Piece text c rest`: what is in front of `rest` in `text` is read as the char `c`.  It is a
char that is no quote, or a backslash with all digits behind it. -/
inductive Piece : Str → Byte → Str → Prop where
  | char {c : Byte} {rest : Str} : c ≠ QUOTE → c ≠ BACKSLASH → Piece (c :: rest) c rest
  | escape {digits rest : Str} : (∀ d ∈ digits, IsDigit d) → NoDigit rest →
      Piece (BACKSLASH :: (digits ++ rest)) (decimal digits) rest

/-- `Message k v text rest`: what is in front of `rest` in `text` are the last `k` chars of a key
and the last `v` chars of a value, where a `'?'` in the value does not count. -/
inductive Message : Nat → Nat → Str → Str → Prop where
  | key {k v : Nat} {text text' rest : Str} {c : Byte} :
      Piece text c text' → Message k v text' rest → Message (k + 1) v text rest
  | value {v : Nat} {text text' rest : Str} {c : Byte} :
      Piece text c text' → c ≠ QUESTION → Message 0 v text' rest → Message 0 (v + 1) text rest
  | question {v : Nat} {text text' rest : Str} :
      Piece text QUESTION text' → Message 0 (v + 1) text' rest → Message 0 (v + 1) text rest
  | done {rest : Str} : Message 0 0 rest rest

/-- A quote, or the header of a message: any char and a digit. -/
def GoesOnWith (text : Str) : Prop :=
  text.head? = some QUOTE ∨ ∃ d ∈ text[1]?, IsDigit d

/-- Behind one of its messages the text does not go on as it has to. -/
inductive BreaksOff : Str → Prop where
  | here {text rest : Str} : Message 16 32 text rest → ¬ GoesOnWith rest → BreaksOff text
  | later {text rest : Str} {c d : Byte} : Message 16 32 text (c :: d :: rest) → c ≠ QUOTE →
      IsDigit d → BreaksOff rest → BreaksOff text

/-- Behind a message. -/
def BreaksBehind (rest : Str) : Prop :=
  ¬ GoesOnWith rest ∨ ∃ c d rest', rest = c :: d :: rest' ∧ c ≠ QUOTE ∧ IsDigit d ∧ BreaksOff rest'

theorem breaksOff_iff {text : Str} :
    BreaksOff text ↔ ∃ rest, Message 16 32 text rest ∧ BreaksBehind rest := by
  constructor
  · intro h
    cases h with
    | here hmessage hrest => exact ⟨_, hmessage, Or.inl hrest⟩
    | later hmessage hc hd hrest => exact ⟨_, hmessage, Or.inr ⟨_, _, _, rfl, hc, hd, hrest⟩⟩
  · rintro ⟨rest, hmessage, hrest | ⟨c, d, rest', rfl, hc, hd, hrest⟩⟩
    · exact .here hmessage hrest
    · exact .later hmessage hc hd hrest

theorem breaksBehind_cons_iff {c d : Byte} {rest : Str} (hc : c ≠ QUOTE) (hd : IsDigit d) :
    BreaksBehind (c :: d :: rest) ↔ BreaksOff rest := by
  constructor
  · rintro (hno | ⟨c', d', rest', heq, -, -, hrest⟩)
    · exact absurd (Or.inr ⟨d, rfl, hd⟩) hno
    · cases heq
      exact hrest
  · exact fun h => Or.inr ⟨c, d, rest, rfl, hc, hd, h⟩

/-- The digits in front of a text. -/
theorem digits_split (text : Str) : ∃ digits rest, text = digits ++ rest ∧
    (∀ d ∈ digits, IsDigit d) ∧ NoDigit rest := by
  refine ⟨_, _, (List.takeWhile_append_dropWhile (p := fun c : Byte => IsDigit c)).symm, ?_, ?_⟩
  · exact fun d hd => of_decide_eq_true (List.mem_takeWhile_imp (p := fun c : Byte => IsDigit c) hd)
  · intro d hd
    have hhead := List.head?_dropWhile_not (fun c : Byte => IsDigit c) text
    rw [hd] at hhead
    exact of_decide_eq_false hhead

/-- What is left of a key and a value. -/
def Scan.Left (s : Scan) (k v : Nat) : Prop := s.key.length + k = 16 ∧ s.value.length + v = 32

theorem Scan.put_question {s : Scan} (hkey : s.key.length = 16) : s.put QUESTION = s := by
  simp [Scan.put, hkey]

section Text

variable {c w : Byte} {rest : Str} {ahead : Nat}
  (hread : (if c = BACKSLASH then escape rest else (c, 0)) = (w, ahead)) (hquote : c ≠ QUOTE)
include hread hquote

/-- A piece is what the scan reads. -/
theorem piece_cons_iff {w' : Byte} {text : Str} :
    Piece (c :: rest) w' text ↔ w' = w ∧ text = rest.drop ahead := by
  constructor
  · intro h
    cases h with
    | char _ hbackslash =>
        rw [if_neg hbackslash] at hread
        cases hread
        exact ⟨rfl, rfl⟩
    | escape hdigits hrest =>
        rw [if_pos rfl, escape_append hdigits hrest] at hread
        cases hread
        exact ⟨rfl, List.drop_left.symm⟩
  · rintro ⟨rfl, rfl⟩
    by_cases hbackslash : c = BACKSLASH
    · obtain ⟨digits, behind, rfl, hdigits, hbehind⟩ := digits_split rest
      rw [if_pos hbackslash, escape_append hdigits hbehind] at hread
      cases hread
      rw [List.drop_left, hbackslash]
      exact .escape hdigits hbehind
    · rw [if_neg hbackslash] at hread
      cases hread
      exact .char hquote hbackslash

/-- The scan does not pass over a quote. -/
theorem quote_mem_drop_iff : QUOTE ∈ c :: rest ↔ QUOTE ∈ rest.drop ahead := by
  rw [List.mem_cons, or_iff_right hquote.symm]
  split at hread
  · obtain ⟨digits, behind, rfl, hdigits, hbehind⟩ := digits_split rest
    rw [escape_append hdigits hbehind] at hread
    cases hread
    have hno : QUOTE ∉ digits := fun hmem => absurd (hdigits QUOTE hmem) (by decide)
    rw [List.drop_left, List.mem_append, or_iff_right hno]
  · cases hread
    rfl

/-- The next piece of a message. -/
theorem message_cons {s : Scan} {k v : Nat} (hleft : s.Left k v) (hv : 0 < v) :
    ∃ k' v', (s.put w).Left k' v' ∧ (0 < v' ∨ k' = 0 ∧ v' = 0) ∧
      ∀ text, Message k v (c :: rest) text ↔ Message k' v' (rest.drop ahead) text := by
  have hpiece : Piece (c :: rest) w (rest.drop ahead) :=
    (piece_cons_iff hread hquote).mpr ⟨rfl, rfl⟩
  have hinv : ∀ {w' text}, Piece (c :: rest) w' text → w' = w ∧ text = rest.drop ahead :=
    fun h => (piece_cons_iff hread hquote).mp h
  obtain ⟨hkey, hvalue⟩ := hleft
  cases k with
  | succ k =>
      refine ⟨k, v, ?_, Or.inl hv, fun text => ⟨fun h => ?_, .key hpiece⟩⟩
      · rw [Scan.put_key w (by omega)]
        exact ⟨by rw [List.length_append, List.length_singleton]; omega, hvalue⟩
      · cases h with
        | key hp hmessage =>
            obtain ⟨rfl, rfl⟩ := hinv hp
            exact hmessage
  | zero =>
      obtain ⟨v, rfl⟩ := Nat.exists_eq_succ_of_ne_zero hv.ne'
      by_cases hw : w = QUESTION
      · refine ⟨0, v + 1, ?_, Or.inl hv, fun text => ⟨fun h => ?_, .question (hw ▸ hpiece)⟩⟩
        · rw [hw, Scan.put_question hkey]
          exact ⟨hkey, hvalue⟩
        · cases h with
          | value hp hne hmessage => exact absurd ((hinv hp).1.trans hw) hne
          | question hp hmessage =>
              obtain ⟨-, rfl⟩ := hinv hp
              exact hmessage
      · refine ⟨0, v, ?_, ?_, fun text => ⟨fun h => ?_, .value hpiece hw⟩⟩
        · rw [Scan.put_value hkey (by omega) hw]
          exact ⟨hkey, by rw [List.length_append, List.length_singleton]; omega⟩
        · omega
        · cases h with
          | value hp hne hmessage =>
              obtain ⟨rfl, rfl⟩ := hinv hp
              exact hmessage
          | question hp hmessage => exact absurd (hinv hp).1.symm hw

end Text

theorem message_done_iff {text rest : Str} : Message 0 0 text rest ↔ rest = text := by
  constructor
  · intro h
    cases h
    rfl
  · rintro rfl
    exact .done

/-- A message is not over at the end of the text. -/
theorem not_message_nil {k v : Nat} {rest : Str} (hv : 0 < v) : ¬ Message k v [] rest := by
  intro h
  cases h with
  | key hp _ => cases hp
  | value hp _ _ => cases hp
  | question hp _ => cases hp
  | done => cases hv

/-! ## When the scan reads behind the token -/

theorem map_eq_error_iff {α β : Type} {f : α → β} {r : Except Fault α} {fault : Fault} :
    r.map f = .error fault ↔ r = .error fault := by
  cases r with
  | error fault' => simp [Except.map]
  | ok a => simp [Except.map]

/-- The scan reads behind a text that has no quote and goes on behind all of its messages as it
has to. -/
def Overruns (k v : Nat) (text : Str) : Prop :=
  QUOTE ∉ text ∧ ¬ ∃ rest, Message k v text rest ∧ BreaksBehind rest

theorem overruns_start_iff {text : Str} :
    Overruns 16 32 text ↔ QUOTE ∉ text ∧ ¬ BreaksOff text := by
  rw [Overruns, breaksOff_iff]

/-- What `nextScan` finds behind a message. -/
theorem nextScan_cases (s : Scan) (rest : Str) :
    (QUOTE ∈ rest ∧ rest.head? = some QUOTE ∧ nextScan s rest = some (0, s)) ∨
      (¬ GoesOnWith rest ∧ nextScan s rest = none) ∨
      ∃ c d behind status, rest = c :: d :: behind ∧ c ≠ QUOTE ∧ IsDigit d ∧
        nextScan s rest = some (2, ⟨status, [], []⟩) := by
  by_cases hquote : rest.head? = some QUOTE
  · exact Or.inl ⟨List.mem_of_head? hquote, hquote, if_pos hquote⟩
  · rw [nextScan, if_neg hquote]
    by_cases hdigit : ∃ d ∈ rest[1]?, IsDigit d
    · obtain ⟨d, hget, hd⟩ := hdigit
      have hstoi : stoi d = some (d - 48) := if_pos hd
      cases rest with
      | nil => cases hget
      | cons c rest =>
          cases rest with
          | nil => cases hget
          | cons d' behind =>
              cases hget
              refine Or.inr (Or.inr ⟨c, d, behind, d - 48, rfl, ?_, hd, ?_⟩)
              · rintro rfl
                exact hquote rfl
              · rw [List.getElem?_cons_succ, List.getElem?_cons_zero, Option.bind_some, hstoi]
                rfl
    · refine Or.inr (Or.inl ⟨fun h => h.elim hquote hdigit, ?_⟩)
      cases hget : rest[1]? with
      | none => rfl
      | some d =>
          rw [Option.bind_some, stoi, if_neg (fun hd => hdigit ⟨d, hget, hd⟩)]
          rfl

/-- Behind a message the loop goes on with the next one, if there is one. -/
theorem parseLoop_next_iff {bounded : Bool} {s : Scan} {rest : Str} {ahead : Nat}
    (hahead : ahead ≤ rest.length) (hstart : ∀ text status, text.length < rest.length →
      (parseLoop bounded text 0 ⟨status, [], []⟩ = .error .outside ↔ Overruns 16 32 text)) :
    ((match nextScan s (rest.drop ahead) with
      | none => .error .exception
      | some (skip, s') => (parseLoop bounded rest (ahead + skip) s').map (s :: ·)) =
        (.error .outside : Except Fault (List Scan))) ↔
      QUOTE ∉ rest.drop ahead ∧ ¬ BreaksBehind (rest.drop ahead) := by
  rcases nextScan_cases s (rest.drop ahead) with
    ⟨hmem, hhead, hnext⟩ | ⟨hno, hnext⟩ | ⟨c, d, behind, status, hcons, hc, hd, hnext⟩
  · rw [hnext]
    refine iff_of_false ?_ fun h => h.1 hmem
    dsimp only
    obtain ⟨behind, hcons⟩ : ∃ behind, rest.drop ahead = QUOTE :: behind :=
      List.head?_eq_some_iff.mp hhead
    rw [map_eq_error_iff, Nat.add_zero, parseLoop_skip bounded s hahead, hcons, parseLoop,
      if_pos (Or.inl rfl)]
    exact fun h => by cases h
  · rw [hnext]
    exact iff_of_false (fun h => by cases h) fun h => h.2 (Or.inl hno)
  · have hlen := congrArg List.length hcons
    rw [List.length_drop, List.length_cons, List.length_cons] at hlen
    have hbehind : rest.drop (ahead + 2) = behind := by
      rw [← List.drop_drop, hcons]
      rfl
    have hdquote : d ≠ QUOTE := by
      rintro rfl
      exact absurd hd (by decide)
    rw [hnext]
    dsimp only
    rw [map_eq_error_iff, parseLoop_skip bounded _ (by omega), hbehind,
      hstart behind status (by omega), overruns_start_iff, hcons, breaksBehind_cons_iff hc hd,
      List.mem_cons, List.mem_cons, or_iff_right hc.symm, or_iff_right hdquote.symm]

/-- The loop in the middle of a message. -/
theorem parseLoop_outside_iff {bounded : Bool} (n : Nat) :
    ∀ {text : Str} {s : Scan} {k v : Nat}, text.length = n → s.Left k v → 0 < v →
      (parseLoop bounded text 0 s = .error .outside ↔ Overruns k v text) := by
  induction n using Nat.strongRecOn with
  | ind n ih =>
    intro text s k v hlen hleft hv
    have hroom : ¬ (bounded ∧ 32 ≤ s.value.length) := fun h => by
      have hvalue := hleft.2
      omega
    cases text with
    | nil =>
        rw [parseLoop, if_neg hroom]
        refine iff_of_true rfl ⟨List.not_mem_nil, ?_⟩
        rintro ⟨rest, hmessage, -⟩
        exact not_message_nil hv hmessage
    | cons c rest =>
        rw [List.length_cons] at hlen
        by_cases hquote : c = QUOTE
        · rw [parseLoop, if_pos (Or.inl hquote)]
          exact iff_of_false (fun h => by cases h) fun h => h.1 (hquote ▸ List.mem_cons_self)
        · rcases hread : (if c = BACKSLASH then escape rest else (c, 0)) with ⟨w, ahead⟩
          have hahead := read_le hread
          obtain ⟨k', v', hleft', hcase, hmessage⟩ := message_cons hread hquote hleft hv
          have hover : Overruns k v (c :: rest) ↔ Overruns k' v' (rest.drop ahead) := by
            simp only [Overruns, quote_mem_drop_iff hread hquote, hmessage]
          rw [parseLoop, if_neg (fun h => h.elim hquote hroom), hread, hover]
          dsimp only
          rcases hcase with hv' | ⟨rfl, rfl⟩
          · have hnot : ¬ (s.put w).Full := fun hfull => by
              have hvalue := hleft'.2
              rw [hfull.2] at hvalue
              omega
            rw [if_neg hnot, parseLoop_skip bounded _ hahead]
            refine ih (rest.drop ahead).length ?_ rfl hleft' hv'
            rw [List.length_drop]
            omega
          · have hdone : Overruns 0 0 (rest.drop ahead) ↔
                QUOTE ∉ rest.drop ahead ∧ ¬ BreaksBehind (rest.drop ahead) := by
              simp only [Overruns, message_done_iff, exists_eq_left]
            rw [if_pos (show (s.put w).Full from hleft'), hdone]
            refine parseLoop_next_iff hahead fun text status hlt => ?_
            exact ih text.length (by omega) rfl ⟨rfl, rfl⟩ (by decide)

/-! ## Tokens -/

section Token

variable {bounded : Bool} {token : Str}

theorem staysInside_iff (h : IsToken token) :
    StaysInside bounded token ↔ QUOTE ∈ token.drop 5 ∨ BreaksOff (token.drop 5) := by
  obtain ⟨d, hget, hd⟩ := h.digit
  have hstatus : token[2]?.bind stoi = some (d - 48) := by
    rw [hget]
    exact if_pos hd
  have hiff : parseLoop bounded (token.drop 5) 0 ⟨d - 48, [], []⟩ = .error .outside ↔
      Overruns 16 32 (token.drop 5) :=
    parseLoop_outside_iff _ rfl ⟨rfl, rfl⟩ (by decide)
  rw [staysInside_iff_ne h.length, parseToken, hstatus]
  dsimp only
  rw [Ne, hiff, overruns_start_iff, not_and_or, not_not, not_not]

end Token

/-- The two parsers end inside their token exactly if it has a quote behind the header of the
first message, or does not go on as it has to behind one of its messages. -/
theorem parsers_stayInside_iff {token : Str} (h : IsToken token) :
    (StaysInside false token ↔ QUOTE ∈ token.drop 5 ∨ BreaksOff (token.drop 5)) ∧
      (StaysInside true token ↔ QUOTE ∈ token.drop 5 ∨ BreaksOff (token.drop 5)) :=
  ⟨staysInside_iff h, staysInside_iff h⟩

/-- The token of a request that was not cut short. -/
theorem parsers_stayInside_iff_whole :
    StaysInside false (quoted (SendMessage.blank .GET 1).bytes) :=
  (parsers_stayInside_iff ⟨by decide, rfl, by decide, 48, by decide, by decide⟩).1.mpr
    (Or.inl (by decide))

/-- The token of a request for a key that starts with a space is cut short behind the
keepalive byte. -/
theorem parser_leaves_token : ∃ token, IsToken token ∧ ¬ StaysInside false token := by
  have htoken : IsToken [QUOTE, BACKSLASH, 48, BACKSLASH, 49] :=
    ⟨by decide, rfl, rfl, 48, rfl, by decide⟩
  refine ⟨_, htoken, fun h => ?_⟩
  exact (staysInside_iff_ne htoken.length).mp h (by decide)

end KvServer.Testclient
