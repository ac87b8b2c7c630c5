import KvServer.Base.Machine

/-!
# Decoding a stream

A decoder looks at what has arrived of a stream.  It says that the first item is there, that
more has to come, or that the stream is bad.  More input never changes what it has said,
unless it was waiting, and this is part of what a decoder is.

*What a stream carries.*  `Carries s items rest` says that `s` is cut into `items` and what is
left is `rest`.  The cut does not depend on what follows (`Carries.append`), and two cuts of one
stream agree as far as both go (`Carries.prefix_total`).

*Chunks.*  The stream comes in pieces of any size, and the decoder is asked at any time.
`receiver` is the machine of this.  What it has taken out is always what the stream so far
carries (`receiver_carries`), and two receivers that have seen the same stream and are waiting
have taken out the same (`receiver_chunking`).
-/

/-- What a decoder says. -/
inductive Verdict (β ε : Type) where
  /-- The first item, and how much of the input it takes. -/
  | ready (item : β) (used : Nat)
  /-- More has to come. -/
  | wait
  /-- No item will ever come. -/
  | bad (e : ε)
deriving DecidableEq, Repr

/-- A decoder whose verdicts are final. -/
structure StreamDecoder (α β ε : Type) where
  /-- What it says about what has arrived. -/
  decode : List α → Verdict β ε
  used_pos : ∀ {s item used}, decode s = .ready item used → 0 < used
  used_le : ∀ {s item used}, decode s = .ready item used → used ≤ s.length
  ready_append : ∀ {s item used} (t : List α), decode s = .ready item used →
    decode (s ++ t) = .ready item used
  bad_append : ∀ {s e} (t : List α), decode s = .bad e → decode (s ++ t) = .bad e

namespace StreamDecoder

variable {α β ε : Type} (d : StreamDecoder α β ε)

/-- No item can be taken out. -/
def Drained (s : List α) : Prop := ∀ item used, d.decode s ≠ .ready item used

/-- A stream is cut into items, and the rest is left. -/
inductive Carries : List α → List β → List α → Prop where
  | nil (s : List α) : Carries s [] s
  | cons {s rest : List α} {item : β} {items : List β} {used : Nat}
      (hready : d.decode s = .ready item used) (hrest : Carries (s.drop used) items rest) :
      Carries s (item :: items) rest

variable {d}

namespace Carries

variable {s t rest rest' : List α} {items items' : List β} {item : β} {used : Nat}

/-- The cut stays when more comes. -/
theorem append (t : List α) (h : d.Carries s items rest) :
    d.Carries (s ++ t) items (rest ++ t) := by
  induction h with
  | nil s => exact .nil (s ++ t)
  | cons hready _ ih =>
      refine .cons (d.ready_append t hready) ?_
      rw [List.drop_append_of_le_length (d.used_le hready)]
      exact ih

/-- What is left is cut further. -/
theorem trans (h : d.Carries s items rest) (h' : d.Carries rest items' rest') :
    d.Carries s (items ++ items') rest' := by
  induction h with
  | nil _ => exact h'
  | cons hready _ ih => exact .cons hready (ih h')

/-- One more item is taken out. -/
theorem snoc (h : d.Carries s items rest) (hready : d.decode rest = .ready item used) :
    d.Carries s (items ++ [item]) (rest.drop used) :=
  h.trans (.cons hready (.nil _))

theorem nil_inv (h : d.Carries s [] rest) : rest = s := by
  cases h
  rfl

theorem cons_inv (h : d.Carries s (item :: items) rest) :
    ∃ used, d.decode s = .ready item used ∧ d.Carries (s.drop used) items rest := by
  cases h with
  | cons hready hrest => exact ⟨_, hready, hrest⟩

/-- Of two cuts of one stream the longer one goes on where the shorter one ends. -/
theorem prefix_total (h : d.Carries s items rest) (h' : d.Carries s items' rest') :
    (∃ more, items' = items ++ more ∧ d.Carries rest more rest') ∨
      ∃ more, items = items' ++ more ∧ d.Carries rest' more rest := by
  induction h generalizing items' with
  | nil s => exact .inl ⟨items', rfl, h'⟩
  | cons hready hrest ih =>
      cases items' with
      | nil =>
          cases h'.nil_inv
          exact .inr ⟨_, rfl, .cons hready hrest⟩
      | cons item' items' =>
          obtain ⟨used', hready', hrest'⟩ := h'.cons_inv
          cases hready.symm.trans hready'
          rcases ih hrest' with ⟨more, rfl, hmore⟩ | ⟨more, rfl, hmore⟩
          · exact .inl ⟨more, rfl, hmore⟩
          · exact .inr ⟨more, rfl, hmore⟩

/-- Nothing can be cut off a drained rest. -/
theorem of_drained (h : d.Carries s items rest) (hs : d.Drained s) : items = [] ∧ rest = s := by
  cases h with
  | nil => exact ⟨rfl, rfl⟩
  | cons hready _ => exact absurd hready (hs _ _)

/-- A cut that leaves a drained rest is the longest one. -/
theorem prefix_of_drained (h : d.Carries s items rest) (h' : d.Carries s items' rest')
    (hdrained : d.Drained rest') : ∃ more, items' = items ++ more ∧ d.Carries rest more rest' := by
  rcases h.prefix_total h' with hmore | ⟨more, rfl, hmore⟩
  · exact hmore
  · obtain ⟨rfl, rfl⟩ := hmore.of_drained hdrained
    exact ⟨[], by simp, .nil rest⟩

end Carries

/-! ## Chunks -/

variable (d)

/-- What has arrived, how much of it is still to be decoded, and what was taken out. -/
structure Receiver (α β : Type) where
  pending : List α
  arrived : List α
  items : List β

/-- What happens to a receiver. -/
inductive Receive (α : Type) where
  /-- A piece of the stream comes. -/
  | arrive (chunk : List α)
  /-- The decoder is asked. -/
  | decode

/-- Nothing has come yet. -/
def Receiver.start : Receiver α β := ⟨[], [], []⟩

/-- One step.  An item that is ready is taken out. -/
def receive (s : Receiver α β) : Receive α → Receiver α β
  | .arrive chunk => { s with pending := s.pending ++ chunk, arrived := s.arrived ++ chunk }
  | .decode =>
      match d.decode s.pending with
      | .ready item used =>
          { s with pending := s.pending.drop used, items := s.items ++ [item] }
      | .wait => s
      | .bad _ => s

/-- The machine of a receiver. -/
def receiver : Machine (Receiver α β) (Receive α) where
  step s e := some (d.receive s e)

variable {d}

theorem receive_carries {s : Receiver α β} (h : d.Carries s.arrived s.items s.pending)
    (e : Receive α) :
    d.Carries (d.receive s e).arrived (d.receive s e).items (d.receive s e).pending := by
  cases e with
  | arrive chunk => exact h.append chunk
  | decode =>
      unfold receive
      dsimp only
      split
      · next hready => exact h.snoc hready
      · exact h
      · exact h

theorem exec_carries {es : List (Receive α)} {s t : Receiver α β}
    (hrun : d.receiver.exec s es = some t) (h : d.Carries s.arrived s.items s.pending) :
    d.Carries t.arrived t.items t.pending := by
  have hstep : ∀ (s : Receiver α β) e t, d.Carries s.arrived s.items s.pending →
      d.receiver.step s e = some t → d.Carries t.arrived t.items t.pending := by
    intro s e t h hstep
    cases hstep
    exact receive_carries h e
  exact Machine.Reachable.invariant hstep ⟨es, hrun⟩ h

/-- What was taken out is what the stream carries. -/
theorem receiver_carries {es : List (Receive α)} {s : Receiver α β}
    (hrun : d.receiver.exec Receiver.start es = some s) :
    d.Carries s.arrived s.items s.pending :=
  exec_carries hrun (.nil [])

/-- How the stream is cut into pieces does not matter. -/
theorem receiver_chunking {es es' : List (Receive α)} {s s' : Receiver α β}
    (hrun : d.receiver.exec Receiver.start es = some s)
    (hrun' : d.receiver.exec Receiver.start es' = some s')
    (harrived : s.arrived = s'.arrived) (hs : d.Drained s.pending) (hs' : d.Drained s'.pending) :
    s.items = s'.items ∧ s.pending = s'.pending := by
  have h := receiver_carries hrun
  have h' := receiver_carries hrun'
  rw [← harrived] at h'
  obtain ⟨more, hitems, hmore⟩ := h.prefix_of_drained h' hs'
  obtain ⟨rfl, hpending⟩ := hmore.of_drained hs
  exact ⟨by rw [hitems, List.append_nil], hpending.symm⟩

end StreamDecoder
