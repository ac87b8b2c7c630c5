import KvServer.Base.Draws
import KvServer.Store.Process
import KvServer.Testclient.Lines

/-!
# The test generator

`createTest` writes files of request lines.  It keeps the keys that the lines so far
have put into the store, and it rewrites a request that would fail into another
one, unless a draw of the failure rate lets it through: a read of an unknown key
becomes a read of a known one or a write, a delete of an unknown key becomes a
delete of a known one or a write, and an insert may become an update.

`Generates` lists what a line can be and what it does to the keys, and the decision
tree is shown to do nothing else (`createLine_ensures`).

The numbers of `rand()` are drawn from a list, and the program fails when it divides
by zero.  `unordered_map` does not say in which order it walks its keys, so each
line comes with an order of its own.
-/

namespace KvServer.Testclient

open Draws

/-- The options of the command line.  `limitvector` and `startchar` are there when `-l` and
`-s` are. -/
structure Options where
  testcount : Int
  readProb : Int
  keyLength : Int
  valueLength : Int
  keyvariance : Int
  valuevariance : Int
  clientcount : Int
  failurerate : Int
  writeamount : Int
  updatechance : Int
  deletechance : Int
  alphabet : Str
  limitvector : Option (List Str)
  startchar : Option Str

/-- The options when there are none on the command line. -/
def Options.default : Options where
  testcount := 50
  readProb := 90
  keyLength := 16
  valueLength := 32
  keyvariance := 0
  valuevariance := 0
  clientcount := 1
  failurerate := 0
  writeamount := 1
  updatechance := 50
  deletechance := 10
  alphabet := (List.range' 97 26 ++ List.range' 65 26).map UInt8.ofNat
  limitvector := none
  startchar := none

/-- `keymap`: the keys, each once. -/
abbrev Keymap := List Str

/-- `keymap->insert` -/
def Keymap.insert (keymap : Keymap) (keystring : Str) : Keymap :=
  if keystring ∈ keymap then keymap else keymap ++ [keystring]

/-- The order in which `unordered_map` walks its keys. -/
structure Order where
  walk : Keymap → List Str
  perm : ∀ keymap, (walk keymap).Perm keymap

inductive Mode where
  | r
  | w
  | d
deriving DecidableEq, Repr

/-- The variables of the loop. -/
structure Choice where
  mode : Mode
  opcode : Operation
  keystring : Str
  keymap : Keymap

/-- `size_t` compared with `int`: the `int` is converted. -/
def unsigned (n : Int) : Nat := (n % 18446744073709551616).toNat

/-! ## The decision tree -/

/-- `auto item = keymap->begin(); std::advance(item, rand()%keymap->size());` -/
def randomKey (order : Order) (keymap : Keymap) : Draws Str := do
  let n ← drawMod keymap.length
  match (order.walk keymap)[n.toNat]? with
  | some keystring => pure keystring
  | none => failure

/-- `alphabet[rand()%alphabet.size()]`, `n` times. -/
def randomString (alphabet : Str) (n : Nat) : Draws Str :=
  repeated (fun _ => do
    let k ← drawMod alphabet.length
    pure (alphabet.getD k.toNat 0)) n 0

/-- The mode and the opcode a line starts with. -/
def chooseMode (o : Options) (keymap : Keymap) : Draws (Mode × Operation) := do
  let n ← drawMod 100
  if n + 1 < o.readProb ∧ unsigned o.writeamount ≤ keymap.length then pure (.r, .GET)
  else do
    let n ← drawMod 100
    if n > o.deletechance then pure (.w, .PUT) else pure (.d, .DELETE)

/-- The key a line starts with. -/
def chooseKey (o : Options) (keyoffset : Int) : Draws Str :=
  match o.limitvector with
  | some limitvector => do
      let randomindex ← drawMod limitvector.length
      pure (limitvector.getD randomindex.toNat [])
  | none =>
      match o.startchar, keyoffset.toNat with
      | some startchar, n + 1 => do
          let rest ← randomString o.alphabet n
          pure (startchar ++ rest)
      | _, n => randomString o.alphabet n

/-- Failure check for read. -/
def checkRead (o : Options) (order : Order) (c : Choice) : Draws Choice :=
  if c.mode = .r ∧ c.keystring ∉ c.keymap then do
    let n ← drawMod 100
    if n ≥ o.failurerate then
      if c.keymap.length > 0 then do
        let n ← drawMod 100
        if n < o.readProb then do
          let keystring ← randomKey order c.keymap
          pure { c with keystring := keystring }
        else pure { c with mode := .w }
      else pure { c with mode := .w }
    else pure c
  else pure c

/-- Failure check for delete. -/
def checkDelete (order : Order) (c : Choice) : Draws Choice :=
  if c.mode = .d then
    let c := { c with opcode := .DELETE }
    if c.keystring ∉ c.keymap then do
      let n ← drawMod 100
      if n < 70 ∧ c.keymap.length > 0 then do
        let keystring ← randomKey order c.keymap
        pure { c with keystring := keystring, keymap := c.keymap.erase keystring }
      else pure { c with mode := .w }
    else pure { c with keymap := c.keymap.erase c.keystring }
  else pure c

/-- Failure check for write. -/
def checkWrite (o : Options) (order : Order) (c : Choice) : Draws Choice :=
  if c.mode = .w then
    if c.keystring ∉ c.keymap then do
      let n ← drawMod 100
      if n ≥ o.failurerate then do
        let n ← drawMod 100
        if n ≤ o.updatechance ∧ c.keymap.length > unsigned o.writeamount then do
          let keystring ← randomKey order c.keymap
          pure { c with opcode := .UPDATE, keystring := keystring }
        else
          pure { c with opcode := .PUT, keymap := Keymap.insert c.keymap c.keystring }
      else do
        let n ← drawMod 100
        if n > o.updatechance then do
          let keystring ← randomKey order c.keymap
          pure { c with
            opcode := .PUT
            keystring := keystring
            keymap := Keymap.insert c.keymap keystring }
        else pure { c with opcode := .UPDATE }
    else pure { c with opcode := .UPDATE }
  else pure c

/-- The body of the loop: a line and the keys after it. -/
def createLine (o : Options) (order : Order) (keyoffset valueoffset : Int) (keymap : Keymap) :
    Draws (Line × Keymap) := do
  let (mode, opcode) ← chooseMode o keymap
  let keystring ← chooseKey o keyoffset
  let c ← checkRead o order ⟨mode, opcode, keystring, keymap⟩
  let c ← checkDelete order c
  let c ← checkWrite o order c
  if c.mode = .w then do
    let valuestring ← randomString o.alphabet valueoffset.toNat
    pure (⟨c.opcode, c.keystring, some valuestring⟩, c.keymap)
  else pure (⟨c.opcode, c.keystring, none⟩, c.keymap)

/-- One file: its lines, each with the keys after it.  `keymap` is cleared between the
files. -/
def createFile (o : Options) (orders : Nat → Order) : Draws (List (Line × Keymap)) := do
  let keyoffset ← drawMod (o.keyvariance + 1)
  let valueoffset ← drawMod (o.valuevariance + 1)
  trace (fun i keymap =>
      createLine o (orders i) (o.keyLength - keyoffset) (o.valueLength - valueoffset) keymap)
    o.testcount.toNat 0 []

/-- The files, one for each client. -/
def createTest (o : Options) (orders : Nat → Nat → Order) :
    Draws (List (List (Line × Keymap))) :=
  repeated (fun z => createFile o (orders z)) o.clientcount.toNat 0

/-! ## What a line can be -/

/-- What the decision tree can settle on, when the keys are `keymap`.  `fails` says that
the failure rate is not 0. -/
inductive Decides (fails : Prop) (keymap : Keymap) : Choice → Prop where
  | get {keystring : Str} :
      keystring ∈ keymap ∨ fails → Decides fails keymap ⟨.r, .GET, keystring, keymap⟩
  | delete {keystring : Str} :
      keystring ∈ keymap → Decides fails keymap ⟨.d, .DELETE, keystring, keymap.erase keystring⟩
  | insert {keystring : Str} :
      keystring ∉ keymap → Decides fails keymap ⟨.w, .PUT, keystring, keymap ++ [keystring]⟩
  | insertKnown {keystring : Str} :
      keystring ∈ keymap → fails → Decides fails keymap ⟨.w, .PUT, keystring, keymap⟩
  | update {keystring : Str} :
      keystring ∈ keymap ∨ fails → Decides fails keymap ⟨.w, .UPDATE, keystring, keymap⟩

theorem randomKey_mem (order : Order) (keymap : Keymap) :
    Ensures (randomKey order keymap) fun keystring => keystring ∈ keymap := by
  refine ensures_bind fun n => ?_
  split
  · next keystring hget =>
      exact ensures_pure ((order.perm keymap).mem_iff.mp (List.mem_of_getElem? hget))
  · exact ensures_failure

/-- A draw that the failure rate lets through. -/
theorem fails_of_not_ge {n failurerate : Int} (hn : 0 ≤ n) (h : ¬ n ≥ failurerate) :
    0 < failurerate := by
  omega

section Decide

variable {o : Options} {order : Order} {keymap : Keymap}

/-- After the first check a read is settled. -/
def ReadChecked (fails : Prop) (keymap : Keymap) (c : Choice) : Prop :=
  c.keymap = keymap ∧ (c.mode = .r → Decides fails keymap c)

theorem checkRead_ensures {c : Choice} (hkeymap : c.keymap = keymap)
    (hopcode : c.mode = .r → c.opcode = .GET) :
    Ensures (checkRead o order c) (ReadChecked (0 < o.failurerate) keymap) := by
  obtain ⟨mode, opcode, keystring, keymap'⟩ := c
  obtain rfl : keymap' = keymap := hkeymap
  refine ensures_ite (fun hc => ?_) fun hc => ensures_pure ⟨rfl, fun hmode => ?_⟩
  · obtain ⟨rfl, hunknown⟩ := hc
    obtain rfl : opcode = .GET := hopcode rfl
    refine ensures_drawMod.bind fun n hn => ensures_ite (fun hrate => ?_) fun hrate => ?_
    · refine ensures_ite (fun hsize => ?_) fun _ => ensures_pure ⟨rfl, fun h => by cases h⟩
      refine ensures_bind fun n => ensures_ite (fun _ => ?_) fun _ => ?_
      · -- a known key is read instead
        refine (randomKey_mem order keymap').bind fun known hknown => ensures_pure ?_
        exact ⟨rfl, fun _ => .get (Or.inl hknown)⟩
      · exact ensures_pure ⟨rfl, fun h => by cases h⟩
    · exact ensures_pure ⟨rfl, fun _ => .get (Or.inr (fails_of_not_ge hn.2.1 hrate))⟩
  · obtain rfl : mode = .r := hmode
    obtain rfl : opcode = .GET := hopcode rfl
    refine .get (Or.inl ?_)
    by_contra hunknown
    exact hc ⟨rfl, hunknown⟩

/-- After the second check only a write is not settled. -/
def DeleteChecked (fails : Prop) (keymap : Keymap) (c : Choice) : Prop :=
  if c.mode = .w then c.keymap = keymap else Decides fails keymap c

theorem checkDelete_ensures {fails : Prop} {c : Choice} (h : ReadChecked fails keymap c) :
    Ensures (checkDelete order c) (DeleteChecked fails keymap) := by
  obtain ⟨mode, opcode, keystring, keymap'⟩ := c
  obtain ⟨hkeymap, hread⟩ := h
  obtain rfl : keymap' = keymap := hkeymap
  refine ensures_ite (fun hmode => ?_) fun hmode => ensures_pure ?_
  · obtain rfl : mode = .d := hmode
    refine ensures_ite (fun _ => ?_) fun hknown => ensures_pure (.delete (not_not.mp hknown))
    refine ensures_bind fun n => ensures_ite (fun _ => ?_) fun _ => ensures_pure rfl
    -- a known key is deleted instead
    exact (randomKey_mem order keymap').bind fun known hknown => ensures_pure (.delete hknown)
  · cases mode with
    | r => exact hread rfl
    | w => exact rfl
    | d => exact absurd rfl hmode

theorem checkWrite_ensures {c : Choice} (h : DeleteChecked (0 < o.failurerate) keymap c) :
    Ensures (checkWrite o order c) (Decides (0 < o.failurerate) keymap) := by
  obtain ⟨mode, opcode, keystring, keymap'⟩ := c
  refine ensures_ite (fun hmode => ?_) fun hmode => ensures_pure ?_
  · obtain rfl : mode = .w := hmode
    obtain rfl : keymap' = keymap := h
    refine ensures_ite (fun hunknown => ?_) fun hknown =>
      ensures_pure (.update (Or.inl (not_not.mp hknown)))
    have hinsert : Keymap.insert keymap' keystring = keymap' ++ [keystring] := if_neg hunknown
    refine ensures_drawMod.bind fun n hn => ensures_ite (fun _ => ?_) fun hrate => ?_
    · refine ensures_bind fun n => ensures_ite (fun _ => ?_) fun _ => ensures_pure ?_
      · -- a known key is updated instead
        refine (randomKey_mem order keymap').bind fun known hknown => ensures_pure ?_
        exact .update (Or.inl hknown)
      · simp only [hinsert]
        exact .insert hunknown
    · have hfails := fails_of_not_ge hn.2.1 hrate
      refine ensures_bind fun n => ensures_ite (fun _ => ?_) fun _ =>
        ensures_pure (.update (Or.inr hfails))
      refine (randomKey_mem order keymap').bind fun known hknown => ensures_pure ?_
      simp only [show Keymap.insert keymap' known = keymap' from if_pos hknown]
      exact .insertKnown hknown hfails
  · rw [DeleteChecked, if_neg hmode] at h
    exact h

end Decide

/-- What a line can be, and the keys after it. -/
def Generates (fails : Prop) (keymap : Keymap) (l : Line) (keymap' : Keymap) : Prop :=
  ∃ mode, Decides fails keymap ⟨mode, l.opcode, l.keystring, keymap'⟩ ∧
    (l.valuestring.isSome ↔ mode = .w)

theorem createLine_ensures (o : Options) (order : Order) (keyoffset valueoffset : Int)
    (keymap : Keymap) :
    Ensures (createLine o order keyoffset valueoffset keymap) fun x =>
      Generates (0 < o.failurerate) keymap x.1 x.2 := by
  have hmode : Ensures (chooseMode o keymap) fun x => x.1 = .r → x.2 = .GET := by
    refine ensures_bind fun n => ensures_ite (fun _ => ensures_pure fun _ => rfl) fun _ => ?_
    exact ensures_bind fun n => ensures_ite (fun _ => ensures_pure fun h => (by cases h)) fun _ =>
      ensures_pure fun h => by cases h
  refine hmode.bind fun x hx => ensures_bind fun keystring => ?_
  refine (checkRead_ensures rfl hx).bind fun c hread => ?_
  refine (checkDelete_ensures hread).bind fun c hdelete => ?_
  refine (checkWrite_ensures hdelete).bind fun c hdecides => ?_
  refine ensures_ite (fun hw => ensures_bind fun valuestring => ensures_pure ?_) fun hw =>
    ensures_pure ?_
  · exact ⟨c.mode, hdecides, iff_of_true rfl hw⟩
  · exact ⟨c.mode, hdecides, iff_of_false (fun h => by cases h) hw⟩

/-- A line has a value field exactly if it is a write. -/
theorem Generates.valuestring_iff {fails : Prop} {keymap keymap' : Keymap} {l : Line}
    (h : Generates fails keymap l keymap') :
    l.valuestring.isSome ↔ l.opcode = .PUT ∨ l.opcode = .UPDATE := by
  obtain ⟨mode, hdecides, hvalue⟩ := h
  rw [hvalue]
  generalize l.opcode = opcode at hdecides ⊢
  cases hdecides <;> simp

/-- The lines of every file are generated one after the other, from no keys on. -/
theorem createTest_ensures (o : Options) (orders : Nat → Nat → Order) :
    Ensures (createTest o orders) fun files =>
      ∀ file ∈ files, Linked (Generates (0 < o.failurerate)) [] file := by
  refine ensures_repeated
    (fun z => ensures_bind fun keyoffset => ensures_bind fun valueoffset => ?_) _ 0
  exact ensures_trace (fun i keymap => createLine_ensures o (orders z i) _ _ keymap) _ 0 []

end KvServer.Testclient
