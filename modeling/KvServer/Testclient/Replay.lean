import Mathlib.Data.List.Nodup
import KvServer.Testclient.CreateTest

/-!
# The generated requests on the store

The lines of a file are replayed: parsed as the clients parse them, and handed to the
packet processor one after the other.  `Tracks` says that the keys of the store are
the keys of the generator, and every line that the generator can write keeps it
(`Tracks.step`).  That the request is answered with `OK` is the other half of the
same case analysis: the generator knows whether the key is there.
-/

namespace KvServer.Testclient

open Draws

/-- A key the request has room for, and the clients can find in a line. -/
structure KeyFits (keystring : Str) : Prop where
  length : keystring.length ≤ 16
  colon : COLON ∉ keystring
  nul : 0 ∉ keystring

instance (keystring : Str) : Decidable (KeyFits keystring) :=
  decidable_of_iff (keystring.length ≤ 16 ∧ COLON ∉ keystring ∧ 0 ∉ keystring)
    ⟨fun h => ⟨h.1, h.2.1, h.2.2⟩, fun h => ⟨h.length, h.colon, h.nul⟩⟩

/-- A request that a client makes of a line. -/
def Replayed (l : Line) (send : SendMessage) : Prop :=
  ∃ behind, parseLine l.text behind = some send

/-- The operation and the key are those of the line. -/
theorem Replayed.eq {l : Line} {send : SendMessage} (h : Replayed l send)
    (hfits : KeyFits l.keystring) :
    Operation.ofByte? send.operation = some l.opcode ∧ send.key = pad 16 l.keystring := by
  obtain ⟨behind, hparse⟩ := h
  obtain ⟨value, heq⟩ := parseLine_text behind hfits.length hfits.colon
  cases hparse.symm.trans heq
  exact ⟨Operation.ofByte?_code l.opcode, rfl⟩

variable {σ : Type} [CuckoohashMap σ Key Value]

/-- The keys of the generator are the keys of the store. -/
structure Tracks (keymap : Keymap) (store : σ) : Prop where
  nodup : keymap.Nodup
  fits : ∀ keystring ∈ keymap, KeyFits keystring
  keys : ∀ k, (CuckoohashMap.find store k).isSome ↔ ∃ keystring ∈ keymap, pad 16 keystring = k

theorem Tracks.empty : Tracks [] (CuckoohashMap.empty : σ) where
  nodup := List.nodup_nil
  fits := fun keystring h => by cases h
  keys k := by
    rw [CuckoohashMap.find_empty]
    simp

section Tracks

variable {keymap keymap' : Keymap} {store store' : σ} {keystring : Str}

/-- Different keys stay different when they are padded. -/
theorem Tracks.find_iff (h : Tracks keymap store) (hfits : KeyFits keystring) :
    (CuckoohashMap.find store (pad 16 keystring)).isSome ↔ keystring ∈ keymap := by
  rw [h.keys]
  constructor
  · rintro ⟨other, hother, hpad⟩
    have hother' := h.fits other hother
    rw [← eq_of_pad_eq hother'.length hfits.length hother'.nul hfits.nul hpad]
    exact hother
  · exact fun hmem => ⟨keystring, hmem, rfl⟩

/-- The cell of one key changes, and the generator knows. -/
theorem Tracks.change (h : Tracks keymap store) (hfits : KeyFits keystring)
    (hnodup : keymap'.Nodup)
    (hframe : ∀ k, k ≠ pad 16 keystring → CuckoohashMap.find store' k = CuckoohashMap.find store k)
    (hself : (CuckoohashMap.find store' (pad 16 keystring)).isSome ↔ keystring ∈ keymap')
    (hother : ∀ other, other ≠ keystring → (other ∈ keymap' ↔ other ∈ keymap)) :
    Tracks keymap' store' := by
  have hfits' : ∀ other ∈ keymap', KeyFits other := by
    intro other hmem
    by_cases heq : other = keystring
    · rw [heq]
      exact hfits
    · exact h.fits other ((hother other heq).mp hmem)
  refine ⟨hnodup, hfits', fun k => ?_⟩
  by_cases hk : k = pad 16 keystring
  · subst hk
    rw [hself]
    constructor
    · exact fun hmem => ⟨keystring, hmem, rfl⟩
    · rintro ⟨other, hmem, hpad⟩
      have hother' := hfits' other hmem
      rw [← eq_of_pad_eq hother'.length hfits.length hother'.nul hfits.nul hpad]
      exact hmem
  · rw [hframe k hk, h.keys]
    refine exists_congr fun other => and_congr_left fun hpad => (hother other ?_).symm
    rintro rfl
    exact hk hpad.symm

end Tracks

/-- A `GET` and an `UPDATE` leave the key where it is, and succeed if it is there. -/
theorem onCell_keeps {op : Operation} {value value' : Value} {cell cell' : Option Value}
    {result : Bool} (hop : op = .GET ∨ op = .UPDATE)
    (hact : op.onCell value cell = (result, value', cell')) :
    cell'.isSome = cell.isSome ∧ result = cell.isSome := by
  rcases hop with rfl | rfl
  · cases cell <;> cases hact <;> exact ⟨rfl, rfl⟩
  · cases cell <;> cases hact <;> exact ⟨rfl, rfl⟩

/-- A line on the cell of its key: what is in the cell afterwards, and the result. -/
theorem Decides.onCell {fails : Prop} {keymap : Keymap} {c : Choice} {cell cell' : Option Value}
    {value value' : Value} {result : Bool} (h : Decides fails keymap c) (hnodup : keymap.Nodup)
    (hcell : cell.isSome ↔ c.keystring ∈ keymap)
    (hact : c.opcode.onCell value cell = (result, value', cell')) :
    c.keymap.Nodup ∧ (cell'.isSome ↔ c.keystring ∈ c.keymap) ∧
      (∀ other, other ≠ c.keystring → (other ∈ c.keymap ↔ other ∈ keymap)) ∧
      (¬ fails → result = true) := by
  cases h with
  | get hknown =>
      obtain ⟨hkept, hresult⟩ := onCell_keeps (.inl rfl) hact
      refine ⟨hnodup, by rw [hkept]; exact hcell, fun _ _ => Iff.rfl, fun hfails => ?_⟩
      rw [hresult]
      exact hcell.mpr (hknown.resolve_right hfails)
  | @delete keystring hknown =>
      have hmem := hcell.mpr hknown
      cases cell with
      | none => cases hmem
      | some v =>
          cases hact
          refine ⟨hnodup.erase keystring, ?_, fun other hne => ?_, fun _ => rfl⟩
          · exact iff_of_false Bool.false_ne_true fun h => (hnodup.mem_erase_iff.mp h).1 rfl
          · exact List.mem_erase_of_ne hne
  | @insert keystring hunknown =>
      cases cell with
      | some v => exact absurd (hcell.mp rfl) hunknown
      | none =>
          cases hact
          refine ⟨?_, iff_of_true rfl (by simp), fun other hne => by simp [hne], fun _ => rfl⟩
          exact hnodup.append (List.nodup_singleton _) (List.disjoint_singleton.mpr hunknown)
  | insertKnown hknown hfails =>
      refine ⟨hnodup, ?_, fun _ _ => Iff.rfl, fun h => absurd hfails h⟩
      have hmem := hcell.mpr hknown
      cases cell with
      | none => cases hmem
      | some v => cases hact; exact hcell
  | update hknown =>
      obtain ⟨hkept, hresult⟩ := onCell_keeps (.inr rfl) hact
      refine ⟨hnodup, by rw [hkept]; exact hcell, fun _ _ => Iff.rfl, fun hfails => ?_⟩
      rw [hresult]
      exact hcell.mpr (hknown.resolve_right hfails)

/-- One line: it is answered, the keys of the store follow those of the generator, and
without a failure rate the answer is `OK`. -/
theorem Tracks.step {fails : Prop} {keymap keymap' : Keymap} {store : σ} {l : Line}
    {send : SendMessage} (h : Tracks keymap store) (hline : Generates fails keymap l keymap')
    (hfits : KeyFits l.keystring) (hsend : Replayed l send) :
    ∃ reply store', (storeMachine σ).step store send = some (reply, store') ∧
      Tracks keymap' store' ∧ (¬ fails → reply.status_code = StatusCode.OK.code) := by
  obtain ⟨hop, hkey⟩ := hsend.eq hfits
  obtain ⟨mode, hdecides, -⟩ := hline
  rcases hact : l.opcode.onCell send.value (CuckoohashMap.find store send.key) with
    ⟨result, value, cell⟩
  have hactOn : (storeMachine σ).act send ((storeMachine σ).cell store send.key) =
      some (send.reply result value, cell) := by
    simp only [storeMachine_act, storeMachine_cell, actOn, hop, Option.map_some, hact]
  obtain ⟨store', hstep, hcell, hframe⟩ := (storeMachine σ).step_some hactOn
  simp only [storeMachine_key, storeMachine_cell, hkey] at hcell hframe
  rw [hkey] at hact
  obtain ⟨hnodup, hself, hother, hresult⟩ := hdecides.onCell h.nodup (h.find_iff hfits) hact
  refine ⟨send.reply result value, store', hstep, ?_, fun hfails => ?_⟩
  · exact h.change hfits hnodup hframe (hcell ▸ hself) hother
  · rw [SendMessage.reply, hresult hfails]
    rfl

/-- The keys after the last line, from the first line on. -/
theorem getLast?_cons_getD (x : Line × Keymap) (file : List (Line × Keymap)) (keymap : Keymap) :
    ((x :: file).getLast?.map Prod.snd).getD keymap = (file.getLast?.map Prod.snd).getD x.2 := by
  rw [List.getLast?_cons]
  cases file.getLast? with
  | none => rfl
  | some y => rfl

/-- The lines of a file from a state on. -/
theorem Tracks.run {fails : Prop} {file : List (Line × Keymap)} :
    ∀ {keymap : Keymap} {store : σ} {sends : List SendMessage}, Tracks keymap store →
      Linked (Generates fails) keymap file → (∀ x ∈ file, KeyFits x.1.keystring) →
      List.Forall₂ Replayed (file.map Prod.fst) sends →
      ∃ replies store', processPackets store sends = some (replies, store') ∧
        Tracks ((file.getLast?.map Prod.snd).getD keymap) store' ∧
        (¬ fails → ∀ r ∈ replies, r.status_code = StatusCode.OK.code) := by
  induction file with
  | nil =>
      intro keymap store sends h _ _ hsends
      cases hsends
      exact ⟨[], store, rfl, h, fun _ r hr => by cases hr⟩
  | cons x file ih =>
      intro keymap store sends h hlinked hfits hsends
      obtain ⟨l, keymap'⟩ := x
      cases hsends with
      | @cons _ send _ sends hsend hrest =>
          obtain ⟨reply, store₁, hstep, htracks, hok⟩ :=
            h.step hlinked.1 (hfits _ List.mem_cons_self) hsend
          obtain ⟨replies, store', hrun, hlast, hoks⟩ :=
            ih htracks hlinked.2 (fun y hy => hfits y (List.mem_cons_of_mem _ hy)) hrest
          refine ⟨reply :: replies, store', (storeMachine σ).serve_cons hstep hrun, ?_,
            fun hfails r hr => ?_⟩
          · rw [getLast?_cons_getD]
            exact hlast
          · rcases List.mem_cons.mp hr with rfl | hr
            · exact hok hfails
            · exact hoks hfails r hr

/-- `keymap` after the first `j` lines of a file. -/
def keymapAfter (file : List (Line × Keymap)) (j : Nat) : Keymap :=
  ((file.take j).getLast?.map Prod.snd).getD []

/-- After the first `j` lines of a generated file the keys of the store are the keys of the
generator.  Without a failure rate every line is answered `OK`.  A line has a value field
exactly if it is a `PUT` or an `UPDATE`. -/
theorem keys_tracked {o : Options} {orders : Nat → Nat → Order} {ns ns' : List Nat}
    {files : List (List (Line × Keymap))} (hrun : createTest o orders ns = some (files, ns'))
    {file : List (Line × Keymap)} (hfile : file ∈ files)
    (hfits : ∀ x ∈ file, KeyFits x.1.keystring) {sends : List SendMessage}
    (hsends : List.Forall₂ Replayed (file.map Prod.fst) sends) (j : Nat) :
    (∃ replies store,
      processPackets (CuckoohashMap.empty : σ) (sends.take j) = some (replies, store) ∧
        (∀ k, (CuckoohashMap.find store k).isSome ↔
          ∃ keystring ∈ keymapAfter file j, pad 16 keystring = k) ∧
        (o.failurerate = 0 → ∀ r ∈ replies, r.status_code = StatusCode.OK.code)) ∧
      ∀ x ∈ file, x.1.valuestring.isSome ↔ x.1.opcode = .PUT ∨ x.1.opcode = .UPDATE := by
  have hlinked := createTest_ensures o orders ns files ns' hrun file hfile
  constructor
  · have hsends' : List.Forall₂ Replayed ((file.take j).map Prod.fst) (sends.take j) := by
      rw [List.map_take]
      exact List.forall₂_take j hsends
    have hempty : Tracks [] (CuckoohashMap.empty : σ) := Tracks.empty
    obtain ⟨replies, store, hreplies, htracks, hok⟩ := hempty.run (hlinked.take j)
      (fun x hx => hfits x (List.mem_of_mem_take hx)) hsends'
    refine ⟨replies, store, hreplies, htracks.keys, fun hrate => hok ?_⟩
    rw [hrate]
    exact Int.lt_irrefl 0
  · intro x hx
    obtain ⟨keymap, hgenerates⟩ := hlinked.forall x hx
    exact hgenerates.valuestring_iff

/-- A file of two lines: `a` is put and read. -/
theorem keys_tracked_put_get :
    ∃ (file : List (Line × Keymap)) (requests : List SendMessage) (replies : List ResponseMessage)
        (store : Key → Option Value),
      createTest { Options.default with testcount := 2, keyLength := 1, valueLength := 1 }
          (fun _ _ => ⟨id, List.Perm.refl⟩) [0, 0, 0, 50, 0, 0, 99, 1, 0, 0] = some ([file], []) ∧
        processPackets (CuckoohashMap.empty : Key → Option Value) (requests.take 2) =
          some (replies, store) ∧
        (∀ k, (CuckoohashMap.find store k).isSome ↔
          ∃ keystring ∈ keymapAfter file 2, pad 16 keystring = k) ∧
        ∀ r ∈ replies, r.status_code = StatusCode.OK.code := by
  have hrun : createTest { Options.default with testcount := 2, keyLength := 1, valueLength := 1 }
      (fun _ _ => ⟨id, List.Perm.refl⟩) [0, 0, 0, 50, 0, 0, 99, 1, 0, 0] =
      some ([[(⟨.PUT, [97], some [98]⟩, [[97]]), (⟨.GET, [97], none⟩, [[97]])]], []) := by
    rfl
  have hfits : ∀ x ∈ ([(⟨.PUT, [97], some [98]⟩, [[97]]), (⟨.GET, [97], none⟩, [[97]])] :
      List (Line × Keymap)), KeyFits x.1.keystring := by
    decide
  have hsends : List.Forall₂ Replayed [⟨.PUT, [97], some [98]⟩, ⟨.GET, [97], none⟩]
      [Line.request ⟨.PUT, [97], some [98]⟩ 1, Line.request ⟨.GET, [97], none⟩ 1] :=
    .cons ⟨fun _ => 0, by decide +kernel⟩ (.cons ⟨fun _ => 0, by decide +kernel⟩ .nil)
  obtain ⟨replies, store, hreplies, hkeys, hok⟩ :=
    (@keys_tracked (Key → Option Value) _ _ _ _ _ _ hrun _ List.mem_cons_self hfits _ hsends 2).1
  exact ⟨_, _, replies, store, hrun, hreplies, hkeys, hok rfl⟩

end KvServer.Testclient
