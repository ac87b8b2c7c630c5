import KvServer.Testclient.CreateTest

/-!
# Divisions in the test generator

`createTest` picks a known key with `rand()%keymap->size()`.  Without known keys this divides
by zero, and `keymap->begin()` is the end iterator.

*Guards.*  The reads, the deletes and the updates ask for known keys first.  An insert that
is meant to fail does not: it is reached when the failure rate lets the request through
and the update chance does not make it an update (`completes_checkWrite`).

*The first line.*  There are no known keys at the start of a file, so whenever such an insert
can be drawn at all, it can be drawn for the first line (`sticks_createLine`).
-/

namespace KvServer.Testclient

open Draws

/-- Percentages, lengths and lists as the generator takes them. -/
structure Options.InRange (o : Options) : Prop where
  failurerate : 0 ≤ o.failurerate ∧ o.failurerate ≤ 100
  readProb : 0 ≤ o.readProb ∧ o.readProb ≤ 100
  updatechance : 0 ≤ o.updatechance ∧ o.updatechance ≤ 100
  deletechance : 0 ≤ o.deletechance ∧ o.deletechance ≤ 100
  keyvariance : 0 ≤ o.keyvariance
  valuevariance : 0 ≤ o.valuevariance
  alphabet : o.alphabet ≠ []
  limitvector : ∀ limitvector ∈ o.limitvector, limitvector ≠ []

/-- Whatever `rand()` returns, the run gets to its end: it does not divide by zero and does not
go to a key behind the last one. -/
def RunsThrough (o : Options) (orders : Nat → Nat → Order) : Prop :=
  ∀ draws : Stream' Nat, ∃ n, (createTest o orders (draws.take n)).isSome

variable {o : Options} {order : Order}

/-! ## Runs that get to their end -/

theorem completes_drawMod_hundred : Completes (drawMod 100) fun n => 0 ≤ n ∧ n < 100 :=
  completes_drawMod (by decide)

/-- With a known key one is found. -/
theorem completes_randomKey {keymap : Keymap} (hpos : keymap.length > 0) :
    Completes (randomKey order keymap) fun _ => True := by
  refine (completes_drawMod (by omega)).bind fun n hn => ?_
  have hlt : n.toNat < (order.walk keymap).length := by
    rw [(order.perm keymap).length_eq]
    omega
  rw [List.getElem?_eq_getElem hlt]
  exact completes_pure trivial

theorem completes_randomString {alphabet : Str} (halphabet : alphabet ≠ []) (n : Nat) :
    Completes (randomString alphabet n) fun _ => True := by
  have hpos := List.length_pos_iff.mpr halphabet
  refine completes_repeated (fun i => ?_) n 0
  exact (completes_drawMod (by omega)).bind fun k _ => completes_pure trivial

theorem completes_chooseMode (o : Options) (keymap : Keymap) :
    Completes (chooseMode o keymap) fun _ => True := by
  refine completes_drawMod_hundred.bind fun n _ => ?_
  refine completes_ite (fun _ => completes_pure trivial) fun _ => ?_
  refine completes_drawMod_hundred.bind fun n _ => ?_
  exact completes_ite (fun _ => completes_pure trivial) fun _ => completes_pure trivial

theorem completes_chooseKey (h : o.InRange) (keyoffset : Int) :
    Completes (chooseKey o keyoffset) fun _ => True := by
  rw [chooseKey]
  split
  · next limitvector hlimit =>
    have hpos := List.length_pos_iff.mpr (h.limitvector limitvector hlimit)
    exact (completes_drawMod (by omega)).bind fun n _ => completes_pure trivial
  · split
    · exact (completes_randomString h.alphabet _).bind fun rest _ => completes_pure trivial
    · exact completes_randomString h.alphabet _

theorem completes_checkRead (c : Choice) : Completes (checkRead o order c) fun _ => True := by
  refine completes_ite (fun _ => ?_) fun _ => completes_pure trivial
  refine completes_drawMod_hundred.bind fun n _ => ?_
  refine completes_ite (fun _ => completes_ite (fun hsize => ?_) ?_) fun _ => completes_pure trivial
  · refine completes_drawMod_hundred.bind fun n _ => ?_
    refine completes_ite (fun _ => ?_) fun _ => completes_pure trivial
    exact (completes_randomKey hsize).bind fun known _ => completes_pure trivial
  · exact fun _ => completes_pure trivial

theorem completes_checkDelete (c : Choice) : Completes (checkDelete order c) fun _ => True := by
  refine completes_ite (fun _ => ?_) fun _ => completes_pure trivial
  refine completes_ite (fun _ => ?_) fun _ => completes_pure trivial
  refine completes_drawMod_hundred.bind fun n _ => ?_
  refine completes_ite (fun hsize => ?_) fun _ => completes_pure trivial
  exact (completes_randomKey hsize.2).bind fun known _ => completes_pure trivial

/-- No insert that is meant to fail can be drawn. -/
def Options.NoFailingInsert (o : Options) : Prop := o.failurerate = 0 ∨ 99 ≤ o.updatechance

/-- Then the last check divides by the number of known keys only if there are some. -/
theorem completes_checkWrite (h : o.NoFailingInsert) (c : Choice) :
    Completes (checkWrite o order c) fun _ => True := by
  refine completes_ite (fun _ => ?_) fun _ => completes_pure trivial
  refine completes_ite (fun _ => ?_) fun _ => completes_pure trivial
  refine completes_drawMod_hundred.bind fun n hn => completes_ite (fun _ => ?_) fun hrate => ?_
  · refine completes_drawMod_hundred.bind fun k _ => ?_
    refine completes_ite (fun hsize => ?_) fun _ => completes_pure trivial
    have hpos := Nat.zero_lt_of_lt hsize.2
    exact (completes_randomKey hpos).bind fun known _ => completes_pure trivial
  · refine completes_drawMod_hundred.bind fun k hk => ?_
    refine completes_ite (fun hchance => ?_) fun _ => completes_pure trivial
    -- the draw of the failure rate or the one of the update chance is out of range
    rcases h with hzero | hhigh <;> omega

theorem completes_createLine (h : o.InRange) (hinsert : o.NoFailingInsert)
    (keyoffset valueoffset : Int) (keymap : Keymap) :
    Completes (createLine o order keyoffset valueoffset keymap) fun _ => True := by
  refine (completes_chooseMode o keymap).bind fun x _ => ?_
  refine (completes_chooseKey h keyoffset).bind fun keystring _ => ?_
  refine (completes_checkRead _).bind fun c _ => ?_
  refine (completes_checkDelete c).bind fun c _ => ?_
  refine (completes_checkWrite hinsert c).bind fun c _ => ?_
  refine completes_ite (fun _ => ?_) fun _ => completes_pure trivial
  exact (completes_randomString h.alphabet _).bind fun valuestring _ => completes_pure trivial

/-- A file without lines, or one in which no line can go wrong. -/
theorem completes_createFile (h : o.InRange) (hsafe : o.testcount ≤ 0 ∨ o.NoFailingInsert)
    (orders : Nat → Order) : Completes (createFile o orders) fun _ => True := by
  have hkey := h.keyvariance
  have hvalue := h.valuevariance
  refine (completes_drawMod (by omega)).bind fun keyoffset _ => ?_
  refine (completes_drawMod (by omega)).bind fun valueoffset _ => ?_
  rcases hsafe with hnone | hinsert
  · rw [Int.toNat_of_nonpos hnone]
    exact completes_pure trivial
  · exact completes_trace (fun i keymap => completes_createLine h hinsert _ _ keymap) _ _ _

/-! ## Runs that divide by zero -/

theorem sticks_randomKey_nil (order : Order) (ns : List Nat) : Sticks (randomKey order []) ns :=
  (sticks_drawMod ns).bind

/-- An insert that is meant to fail, without known keys. -/
theorem sticks_checkWrite (hrate : 0 < o.failurerate) (hchance : o.updatechance < 99)
    (opcode : Operation) (keystring : Str) :
    Sticks (checkWrite o order ⟨.w, opcode, keystring, []⟩) [0, 99] := by
  have hzero : ¬ (((0 : Nat) : Int).tmod 100 ≥ o.failurerate) := by
    change ¬ (0 : Int) ≥ o.failurerate
    omega
  have hhigh : ((99 : Nat) : Int).tmod 100 > o.updatechance := hchance
  rw [checkWrite, if_pos rfl, if_pos List.not_mem_nil]
  refine @Gets.sticks _ _ _ _ [0] [99] _ (gets_drawMod (by decide) 0) ?_
  rw [if_neg hzero]
  refine @Gets.sticks _ _ _ _ [99] [] _ (gets_drawMod (by decide) 99) ?_
  rw [if_pos hhigh]
  exact (sticks_randomKey_nil order []).bind

theorem gets_checkDelete_nil (opcode : Operation) (keystring : Str) :
    Gets (checkDelete order ⟨.d, opcode, keystring, []⟩) [0] ⟨.w, .DELETE, keystring, []⟩ := by
  rw [checkDelete, if_pos rfl]
  exact (gets_drawMod (by decide) 0).bind (gets_pure _)

theorem gets_checkRead_of_ne {c : Choice} (hmode : c.mode ≠ .r) :
    Gets (checkRead o order c) [] c := by
  rw [checkRead, if_neg fun h => hmode h.1]
  exact gets_pure c

theorem gets_checkDelete_of_ne {c : Choice} (hmode : c.mode ≠ .d) :
    Gets (checkDelete order c) [] c := by
  rw [checkDelete, if_neg hmode]
  exact gets_pure c

/-- Two high draws choose a write or a delete. -/
theorem gets_chooseMode (h : o.InRange) (keymap : Keymap) :
    Gets (chooseMode o keymap) [99, 99]
      (if 99 > o.deletechance then (.w, .PUT) else (.d, .DELETE)) := by
  have hread : ¬ (((99 : Nat) : Int).tmod 100 + 1 < o.readProb ∧
      unsigned o.writeamount ≤ keymap.length) := by
    rintro ⟨hlt, -⟩
    have hle := h.readProb.2
    change (99 : Int) + 1 < o.readProb at hlt
    omega
  refine @Gets.bind _ _ _ _ [99] [99] _ _ (gets_drawMod (by decide) 99) ?_
  rw [if_neg hread]
  refine @Gets.bind _ _ _ _ [99] [] _ _ (gets_drawMod (by decide) 99) ?_
  change Gets (if (99 : Int) > o.deletechance then pure (Mode.w, Operation.PUT)
    else pure (Mode.d, Operation.DELETE)) [] _
  split <;> exact gets_pure _

/-- The first line of a file can be an insert that is meant to fail. -/
theorem sticks_createLine (h : o.InRange) (hrate : 0 < o.failurerate)
    (hchance : o.updatechance < 99) (order : Order) (keyoffset valueoffset : Int) :
    ∃ ns, Sticks (createLine o order keyoffset valueoffset []) ns := by
  obtain ⟨n, keystring, hkey, -⟩ := completes_chooseKey h keyoffset (Stream'.const 0)
  have hmode := gets_chooseMode h []
  split at hmode
  · have hread := @gets_checkRead_of_ne o order ⟨.w, .PUT, keystring, []⟩ (by simp)
    have hdelete := @gets_checkDelete_of_ne order ⟨.w, .PUT, keystring, []⟩ (by simp)
    have hwrite := @sticks_checkWrite o order hrate hchance .PUT keystring
    exact ⟨_, hmode.sticks (hkey.sticks (hread.sticks (hdelete.sticks hwrite.bind)))⟩
  · have hread := @gets_checkRead_of_ne o order ⟨.d, .DELETE, keystring, []⟩ (by simp)
    have hdelete := @gets_checkDelete_nil order .DELETE keystring
    have hwrite := @sticks_checkWrite o order hrate hchance .DELETE keystring
    exact ⟨_, hmode.sticks (hkey.sticks (hread.sticks (hdelete.sticks hwrite.bind)))⟩

/-- Then the run ends there. -/
theorem sticks_createTest (h : o.InRange) (htest : 0 < o.testcount) (hclient : 0 < o.clientcount)
    (hrate : 0 < o.failurerate) (hchance : o.updatechance < 99) (orders : Nat → Nat → Order) :
    ∃ ns, Sticks (createTest o orders) ns := by
  obtain ⟨lines, hlines⟩ : ∃ lines, o.testcount.toNat = lines + 1 :=
    ⟨o.testcount.toNat - 1, by omega⟩
  obtain ⟨files, hfiles⟩ : ∃ files, o.clientcount.toNat = files + 1 :=
    ⟨o.clientcount.toNat - 1, by omega⟩
  have hkey := h.keyvariance
  have hvalue := h.valuevariance
  have hkeyDraw := @gets_drawMod (o.keyvariance + 1) (by omega) 0
  have hvalueDraw := @gets_drawMod (o.valuevariance + 1) (by omega) 0
  obtain ⟨ns, hns⟩ := sticks_createLine h hrate hchance (orders 0 0)
    (o.keyLength - ((0 : Nat) : Int).tmod (o.keyvariance + 1))
    (o.valueLength - ((0 : Nat) : Int).tmod (o.valuevariance + 1))
  have hfile : Sticks (createFile o (orders 0)) ([0] ++ ([0] ++ ns)) := by
    refine hkeyDraw.sticks (hvalueDraw.sticks ?_)
    rw [hlines]
    exact hns.bind
  rw [createTest, hfiles]
  exact ⟨_, hfile.bind⟩

/-- A run gets to its end on all draws exactly if there is no line to write or no insert that
is meant to fail can be drawn. -/
theorem createTest_runsThrough_iff (h : o.InRange) (orders : Nat → Nat → Order) :
    RunsThrough o orders ↔ o.testcount ≤ 0 ∨ o.clientcount ≤ 0 ∨ o.NoFailingInsert := by
  have hrate := h.failurerate
  constructor
  · intro hruns
    by_contra hnot
    simp only [Options.NoFailingInsert, not_or] at hnot
    obtain ⟨ns, hsticks⟩ := sticks_createTest h (by omega) (by omega) (by omega) (by omega) orders
    obtain ⟨n, hsome⟩ := hruns (ns ++ₛ Stream'.const 0)
    rw [hsticks.take] at hsome
    cases hsome
  · intro hcond draws
    have hcompletes : Completes (createTest o orders) fun _ => True := by
      by_cases hnone : o.clientcount ≤ 0
      · rw [createTest, Int.toNat_of_nonpos hnone]
        exact completes_pure trivial
      · have hsafe : o.testcount ≤ 0 ∨ o.NoFailingInsert :=
          hcond.imp_right fun h => h.resolve_left hnone
        exact completes_repeated (fun z => completes_createFile h hsafe (orders z)) _ _
    obtain ⟨n, files, hget, -⟩ := hcompletes draws
    have hreturns := hget.returns []
    rw [List.append_nil] at hreturns
    exact ⟨n, by rw [hreturns]; rfl⟩

/-- The keys in the order in which they were inserted. -/
def Order.inserted : Order := ⟨id, fun keymap => .refl keymap⟩

theorem Options.default_inRange : Options.default.InRange where
  failurerate := by decide
  readProb := by decide
  updatechance := by decide
  deletechance := by decide
  keyvariance := by decide
  valuevariance := by decide
  alphabet := by decide
  limitvector := by simp [Options.default]

theorem createTest_runsThrough_iff_default :
    RunsThrough Options.default fun _ _ => .inserted :=
  (createTest_runsThrough_iff Options.default_inRange fun _ _ => .inserted).mpr
    (.inr (.inr (.inl rfl)))

/-- With a failure rate of 50 (`-f 50`) the first line can divide by zero. -/
theorem failing_insert_divides :
    ∃ o : Options, o.InRange ∧ ¬ RunsThrough o fun _ _ => .inserted := by
  have hrange : { Options.default with failurerate := 50 }.InRange :=
    { Options.default_inRange with failurerate := by decide }
  refine ⟨_, hrange, fun hruns => ?_⟩
  obtain ⟨ns, hsticks⟩ := sticks_createTest hrange (by decide) (by decide) (by decide) (by decide)
    fun _ _ => .inserted
  obtain ⟨n, hsome⟩ := hruns (ns ++ₛ Stream'.const 0)
  rw [hsticks.take] at hsome
  cases hsome

end KvServer.Testclient
