/-!
# Words

The words of a list are what lies between its separators, as far as it is not empty.

A line is read off word by word, so what is known about a line is stated about its words:
the words of two lines with a separator between them (`words_append_cons`), and where a
pattern without separators is found (`infix_iff_mem_words`).
-/

namespace Words

variable {α : Type} {p : α → Bool}

/-- A word: it has elements, and none of them is a separator. -/
structure IsWord (p : α → Bool) (w : List α) : Prop where
  ne_nil : w ≠ []
  not_sep : ∀ c ∈ w, p c = false

instance [DecidableEq α] (w : List α) : Decidable (IsWord p w) :=
  decidable_of_iff (w ≠ [] ∧ ∀ c ∈ w, p c = false)
    ⟨fun h => ⟨h.1, h.2⟩, fun h => ⟨h.ne_nil, h.not_sep⟩⟩

/-- The words of a list. -/
def words (p : α → Bool) (s : List α) : List (List α) := (s.splitOnP p).filter fun w => !w.isEmpty

@[simp] theorem words_nil : words p [] = [] := by simp [words]

/-- The words of a word. -/
theorem IsWord.words_eq {w : List α} (h : IsWord p w) : words p w = [w] := by
  rw [words, List.splitOnP_eq_singleton h.not_sep]
  simp [h.ne_nil]

/-- A separator between two lists separates their words. -/
theorem words_append_cons (s t : List α) {b : α} (hb : p b) :
    words p (s ++ b :: t) = words p s ++ words p t := by
  rw [words, List.splitOnP_append_cons s t hb, List.filter_append]
  rfl

/-- Up to its first separator a list is nothing or one word. -/
theorem sep_cases (p : α → Bool) (s : List α) :
    (∀ c ∈ s, p c = false) ∨ ∃ w b t, s = w ++ b :: t ∧ (∀ c ∈ w, p c = false) ∧ p b = true := by
  induction s with
  | nil => exact .inl (by simp)
  | cons c s ih =>
      cases hc : p c with
      | true => exact .inr ⟨[], c, s, rfl, by simp, hc⟩
      | false =>
          rcases ih with hs | ⟨w, b, t, rfl, hw, hb⟩
          · exact .inl (List.forall_mem_cons.mpr ⟨hc, hs⟩)
          · exact .inr ⟨c :: w, b, t, rfl, List.forall_mem_cons.mpr ⟨hc, hw⟩, hb⟩

/-- Induction on the words of a list. -/
theorem words_induction {motive : List α → Prop} (hnil : motive [])
    (hword : ∀ w, IsWord p w → motive w)
    (hsep : ∀ w b t, (∀ c ∈ w, p c = false) → p b = true → motive w → motive t →
      motive (w ++ b :: t)) (s : List α) : motive s := by
  have hfree : ∀ s, (∀ c ∈ s, p c = false) → motive s := by
    intro s hs
    cases s with
    | nil => exact hnil
    | cons c s => exact hword (c :: s) ⟨List.cons_ne_nil c s, hs⟩
  induction hn : s.length using Nat.strongRecOn generalizing s with
  | ind n ih =>
      rcases sep_cases p s with hs | ⟨w, b, t, rfl, hw, hb⟩
      · exact hfree s hs
      · have hlt : t.length < n := by
          rw [← hn, List.length_append, List.length_cons]
          omega
        exact hsep w b t hw hb (hfree w hw) (ih t.length hlt t rfl)

theorem isWord_of_mem {s w : List α} (h : w ∈ words p s) : IsWord p w := by
  induction s using words_induction (p := p) with
  | hnil => simp at h
  | hword v hv =>
      rw [hv.words_eq, List.mem_singleton] at h
      exact h ▸ hv
  | hsep v b t hv hb ihv iht =>
      rw [words_append_cons v t hb, List.mem_append] at h
      exact h.elim ihv iht

theorem eq_nil_of_prefix_cons {l t : List α} {b : α} (hb : p b = true)
    (hl : ∀ c ∈ l, p c = false) (h : l <+: b :: t) : l = [] := by
  rcases List.prefix_cons_iff.mp h with hnil | ⟨t', rfl, -⟩
  · exact hnil
  · have hsep := hl b (List.mem_cons_self)
    rw [hb] at hsep
    cases hsep

/-- A pattern without separators lies on one side of a separator. -/
theorem infix_append_cons_iff {pattern s t : List α} {b : α} (hb : p b = true)
    (hpattern : ∀ c ∈ pattern, p c = false) :
    pattern <:+: s ++ b :: t ↔ pattern <:+: s ∨ pattern <:+: t := by
  constructor
  · intro h
    rcases List.infix_append_iff.mp h with hs | ht | ⟨l₁, l₂, rfl, hs, ht⟩
    · exact .inl hs
    · rcases List.infix_cons_iff.mp ht with hprefix | ht
      · rw [eq_nil_of_prefix_cons hb hpattern hprefix]
        exact .inl (List.nil_infix)
      · exact .inr ht
    · have hsep : ∀ c ∈ l₂, p c = false := fun c hc => hpattern c (List.mem_append_right l₁ hc)
      rw [eq_nil_of_prefix_cons hb hsep ht, List.append_nil]
      exact .inl hs.isInfix
  · rintro (hs | ht)
    · exact hs.trans (List.prefix_append s (b :: t)).isInfix
    · exact ht.trans ((List.suffix_cons b t).trans (List.suffix_append s (b :: t))).isInfix

/-- A pattern without separators is found in one of the words. -/
theorem infix_iff_mem_words {pattern : List α} (hpattern : IsWord p pattern) (s : List α) :
    pattern <:+: s ↔ ∃ w ∈ words p s, pattern <:+: w := by
  induction s using words_induction (p := p) with
  | hnil => simp [hpattern.ne_nil]
  | hword w hw => simp [hw.words_eq]
  | hsep w b t hw hb ihw iht =>
      rw [infix_append_cons_iff hb hpattern.not_sep, ihw, iht, words_append_cons w t hb]
      simp only [List.mem_append, or_and_right, exists_or]

end Words
