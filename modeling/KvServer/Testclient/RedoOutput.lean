import KvServer.Base.Words
import KvServer.Testclient.Lines
import Mathlib.Data.List.Infix
import Mathlib.Logic.Function.Basic

/-!
# Putting split lines together

strace splits a call of a process when another process is scheduled in between: the first
line of the call ends in `<unfinished ...>`, and the rest follows behind
`<... send resumed>`.  `redooutput` writes every call in one line.  It keeps the first part
of a call in a map, under the process id.

*Tokens.*  The loop goes through the tokens of a line.  `operator>>` leaves its argument
as it is when nothing is left, and the loop takes two equal tokens in a row for that.  What
it takes of a line, and whether it stops at the mark of a split, is a function of the
tokens (`tokenLoop_spec`).

*Processes.*  A line changes nothing but the entry of its process, so what is written for a
process is a function of the lines of this process (`redoLines_pid`).

*Calls.*  What is written for a call does not depend on the calls before it, unless one of
its tokens looks like the mark (`outputs_flatMap`).  It is the whole call exactly if the
call is `Clean`.
-/

namespace KvServer.Testclient

open Words (IsWord)

/-! ## Texts -/

/-- `"sendto"` -/
def SENDTO : Str := [115, 101, 110, 100, 116, 111]

/-- `"recvfrom"` -/
def RECVFROM : Str := [114, 101, 99, 118, 102, 114, 111, 109]

/-- `"send"` -/
def SEND : Str := [115, 101, 110, 100]

/-- `"recv"` -/
def RECV : Str := [114, 101, 99, 118]

/-- `"resumed>"` -/
def RESUMED : Str := [114, 101, 115, 117, 109, 101, 100, 62]

/-- `"unfinished"` -/
def UNFINISHED : Str := [117, 110, 102, 105, 110, 105, 115, 104, 101, 100]

/-- `s.find(pattern) != std::string::npos` -/
def Find (s pattern : Str) : Prop := pattern <:+: s

instance (s pattern : Str) : Decidable (Find s pattern) := inferInstanceAs (Decidable (_ <:+: _))

/-- `isspace`, as `operator>>` asks for it. -/
def blank (c : Byte) : Bool := IsSpace c

/-- The tokens of a line. -/
def words (line : Str) : List Str := Words.words blank line

/-! ## The program -/

/-- `linestream >> token`.  When nothing is left, the token stays as it is. -/
def extract : Str × List Str → Str × List Str
  | (token, []) => (token, [])
  | (_, token :: stream) => (token, stream)

/-- `while(token!=token2 and ...)`: `line2` and `token` behind the loop. -/
def tokenLoop (line2 token2 token : Str) : List Str → Str × Str
  | [] =>
      -- nothing is left to extract, so `token` is equal to `token2` the next time
      if token ≠ token2 ∧ ¬ Find token UNFINISHED then (line2 ++ 32 :: token, token)
      else (line2, token)
  | next :: stream =>
      if token ≠ token2 ∧ ¬ Find token UNFINISHED then
        tokenLoop (line2 ++ 32 :: token) token next stream
      else (line2, token)

/-- The line has a call of `send` or `recv`. -/
def Named (line : Str) : Prop :=
  Find line SENDTO ∨ Find line RECVFROM ∨ Find line SEND ∨ Find line RECV

instance (line : Str) : Decidable (Named line) := inferInstanceAs (Decidable (_ ∨ _))

/-- `hashmap`: the first part of a call, for every process id. -/
abbrev Pending := Str → Option Str

/-- From the process id on: `line2` and `token` behind the loop. -/
def readTokens (line : Str) (stream : List Str) (line2 : Str) : Str × Str :=
  let start :=
    if Find line RESUMED then extract (extract (extract ([], stream))) else ([], stream)
  let (token, stream) := extract start
  tokenLoop line2 [] token stream

/-- The body of the loop over the lines: what is written, and the map. -/
def redoLine (hashmap : Pending) (line : Str) : Option Str × Pending :=
  if Named line then
    -- such a line has a word, so `pid` is always set
    let (pid, stream) := extract ([], words line)
    let (line2, token) := readTokens line stream ((hashmap pid).getD [])
    if Find token UNFINISHED then (none, Function.update hashmap pid (some line2))
    else
      (some (pid ++ 32 :: line2),
        if (hashmap pid).isSome then Function.update hashmap pid (some []) else hashmap)
  else (none, hashmap)

/-- The lines that are written. -/
def redoLines : Pending → List Str → List Str
  | _, [] => []
  | hashmap, line :: log =>
      let (output, hashmap) := redoLine hashmap line
      output.toList ++ redoLines hashmap log

/-- `main`: the new file. -/
def redoOutput (log : List Str) : List Str := redoLines (fun _ => none) log

/-! ## Tokens -/

/-- The tokens the loop takes. -/
def collect (token2 : Str) : List Str → List Str
  | [] => []
  | token :: stream =>
      if token ≠ token2 ∧ ¬ Find token UNFINISHED then token :: collect token stream else []

/-- The loop stops at the mark of a split. -/
def stopsAtMark (token2 : Str) : List Str → Bool
  | [] => false
  | token :: stream =>
      Find token UNFINISHED || (token ≠ token2 && stopsAtMark token stream)

/-- The tokens from which the loop starts. -/
def started (tokens : List Str) : List Str :=
  if ∃ t ∈ tokens, Find t RESUMED then
    if 3 < tokens.length then tokens.drop 3 else tokens.getLast?.toList
  else tokens

theorem words_append_cons (s t : Str) : words (s ++ 32 :: t) = words s ++ words t :=
  Words.words_append_cons s t (by decide)

theorem words_append_token {s token : Str} (h : IsWord blank token) :
    words (s ++ 32 :: token) = words s ++ [token] := by
  rw [words_append_cons]
  exact congrArg (words s ++ ·) h.words_eq

/-- The loop adds the tokens it takes to `line2`, and the last token tells whether it stops at
the mark. -/
theorem tokenLoop_spec {stream : List Str} (hstream : ∀ t ∈ stream, IsWord blank t) :
    ∀ {line2 token2 token : Str}, ¬ Find token2 UNFINISHED → (token ≠ token2 → IsWord blank token) →
      words (tokenLoop line2 token2 token stream).1 =
          words line2 ++ collect token2 (token :: stream) ∧
        (Find (tokenLoop line2 token2 token stream).2 UNFINISHED ↔
          stopsAtMark token2 (token :: stream) = true) := by
  induction stream with
  | nil =>
      intro line2 token2 token htoken2 hword
      by_cases hgo : token ≠ token2 ∧ ¬ Find token UNFINISHED
      · simp [tokenLoop, collect, stopsAtMark, hgo, words_append_token (hword hgo.1)]
      · simp [tokenLoop, collect, stopsAtMark, hgo]
  | cons next stream ih =>
      intro line2 token2 token htoken2 hword
      rw [List.forall_mem_cons] at hstream
      by_cases hgo : token ≠ token2 ∧ ¬ Find token UNFINISHED
      · obtain ⟨hwords, hstop⟩ := @ih hstream.2 (line2 ++ 32 :: token) token next hgo.2
          fun _ => hstream.1
        rw [tokenLoop, if_pos hgo, collect, if_pos hgo, stopsAtMark]
        rw [words_append_token (hword hgo.1), List.append_assoc, List.singleton_append] at hwords
        exact ⟨hwords, by simpa [hgo] using hstop⟩
      · have hstop : Find token UNFINISHED ↔
            stopsAtMark token2 (token :: next :: stream) = true := by
          by_cases heq : token = token2
          · subst heq
            simp [stopsAtMark, htoken2]
          · have hmark : Find token UNFINISHED := by
              by_contra hno
              exact hgo ⟨heq, hno⟩
            simp [stopsAtMark, hmark]
        rw [tokenLoop, if_neg hgo, collect, if_neg hgo, List.append_nil]
        exact ⟨rfl, hstop⟩

theorem started_subset {tokens : List Str} {t : Str} (h : t ∈ started tokens) : t ∈ tokens := by
  rw [started] at h
  split at h
  · split at h
    · exact List.mem_of_mem_drop h
    · exact List.mem_of_getLast? (Option.mem_toList.mp h)
  · exact h

/-- What comes before the loop: the tokens it starts from, or none and the empty string. -/
theorem extract_started (tokens : List Str) :
    ∃ token stream,
      extract (if ∃ t ∈ tokens, Find t RESUMED then extract (extract (extract ([], tokens)))
        else ([], tokens)) = (token, stream) ∧
      (token :: stream = started tokens ∨ (token = [] ∧ stream = [] ∧ started tokens = [])) := by
  rw [started]
  split
  · match tokens with
    | [] => exact ⟨[], [], rfl, .inr ⟨rfl, rfl, rfl⟩⟩
    | [a] => exact ⟨a, [], rfl, .inl rfl⟩
    | [a, b] => exact ⟨b, [], rfl, .inl rfl⟩
    | [a, b, c] => exact ⟨c, [], rfl, .inl rfl⟩
    | a :: b :: c :: d :: rest => exact ⟨d, rest, rfl, .inl (by simp)⟩
  · cases tokens with
    | nil => exact ⟨[], [], rfl, .inr ⟨rfl, rfl, rfl⟩⟩
    | cons token stream => exact ⟨token, stream, rfl, .inl rfl⟩

/-! ## Lines -/

section Line

variable {line pid : Str} {tokens : List Str}

theorem isWord_of_words (hwords : words line = pid :: tokens) :
    ∀ t ∈ pid :: tokens, IsWord blank t := by
  intro t ht
  rw [← hwords] at ht
  exact Words.isWord_of_mem ht

theorem find_iff_words {pattern : Str} (hpattern : IsWord blank pattern) :
    Find line pattern ↔ ∃ w ∈ words line, Find w pattern :=
  Words.infix_iff_mem_words hpattern line

/-- A call has a token. -/
theorem Named.words_ne_nil (h : Named line) : words line ≠ [] := by
  have hsome : ∃ w, w ∈ words line := by
    rcases h with h | h | h | h <;>
      obtain ⟨w, hw, -⟩ := (find_iff_words (by decide)).mp h <;> exact ⟨w, hw⟩
  obtain ⟨w, hw⟩ := hsome
  exact List.ne_nil_of_mem hw

/-- A process id cannot be taken for the mark of the second part. -/
def IsPid (pid : Str) : Prop := ∀ c ∈ pid, IsDigit c

theorem IsPid.not_resumed (h : IsPid pid) : ¬ Find pid RESUMED := by
  rintro ⟨s, t, rfl⟩
  have hdigit := h 114 (by simp [RESUMED])
  exact absurd hdigit (by decide)

theorem readTokens_spec (hwords : words line = pid :: tokens) (hpid : IsPid pid) (line2 : Str) :
    words (readTokens line tokens line2).1 = words line2 ++ collect [] (started tokens) ∧
      (Find (readTokens line tokens line2).2 UNFINISHED ↔
        stopsAtMark [] (started tokens) = true) := by
  have hresumed : Find line RESUMED ↔ ∃ t ∈ tokens, Find t RESUMED := by
    rw [find_iff_words (by decide), hwords]
    simp [hpid.not_resumed]
  have hwordAll : ∀ t ∈ started tokens, IsWord blank t :=
    fun t ht => isWord_of_words hwords t (.tail pid (started_subset ht))
  obtain ⟨token, stream, hstart, hcases⟩ := extract_started tokens
  simp only [readTokens, hresumed, hstart]
  rcases hcases with heq | ⟨rfl, rfl, hnil⟩
  · rw [← heq] at hwordAll ⊢
    rw [List.forall_mem_cons] at hwordAll
    exact tokenLoop_spec hwordAll.2 (by decide) fun _ => hwordAll.1
  · rw [hnil]
    exact @tokenLoop_spec [] (by simp) line2 [] [] (by decide) fun h => absurd rfl h

theorem redoLine_of_not_named {hashmap : Pending} (h : ¬ Named line) :
    redoLine hashmap line = (none, hashmap) := if_neg h

/-- The first part of a call goes into the map, and a whole call is written. -/
theorem redoLine_of_named {hashmap : Pending} (h : Named line)
    (hwords : words line = pid :: tokens) :
    redoLine hashmap line =
      if Find (readTokens line tokens ((hashmap pid).getD [])).2 UNFINISHED then
        (none, Function.update hashmap pid
          (some (readTokens line tokens ((hashmap pid).getD [])).1))
      else
        (some (pid ++ 32 :: (readTokens line tokens ((hashmap pid).getD [])).1),
          if (hashmap pid).isSome then Function.update hashmap pid (some []) else hashmap) := by
  simp only [redoLine, if_pos h, hwords, extract]

/-- A line leaves the entries of other processes alone, and what it writes is a line of its own. -/
theorem redoLine_frame {hashmap : Pending} (h : Named line) (hwords : words line = pid :: tokens) :
    (∀ q, q ≠ pid → (redoLine hashmap line).2 q = hashmap q) ∧
      ∀ output ∈ (redoLine hashmap line).1, (words output).head? = some pid := by
  have hword : words pid = [pid] := (isWord_of_words hwords pid (.head _)).words_eq
  rw [redoLine_of_named h hwords]
  split
  · exact ⟨fun q hq => Function.update_of_ne hq _ _, by simp⟩
  · constructor
    · intro q hq
      by_cases hsome : (hashmap pid).isSome
      · simp [hsome, hq]
      · simp [hsome]
    · intro output houtput
      cases houtput
      rw [words_append_cons, hword]
      rfl

end Line

/-! ## Processes -/

/-- The lines of a process, as their words. -/
def linesOf (pid : Str) (lines : List Str) : List (List Str) :=
  (lines.map words).filter fun ws => ws.head? = some pid

/-- What is written for the lines of a process, without the process id. -/
def outputs (pending : List Str) : List (List Str) → List (List Str)
  | [] => []
  | tokens :: lines =>
      let taken := pending ++ collect [] (started tokens)
      if stopsAtMark [] (started tokens) then outputs taken lines else taken :: outputs [] lines

/-- The line of another process. -/
theorem linesOf_cons_of_ne {pid q line : Str} {tokens : List Str} (lines : List Str)
    (hwords : words line = q :: tokens) (hq : q ≠ pid) :
    linesOf pid (line :: lines) = linesOf pid lines := by
  simp [linesOf, hwords, hq]

theorem linesOf_cons_self {pid line : Str} {tokens : List Str} (lines : List Str)
    (hwords : words line = pid :: tokens) :
    linesOf pid (line :: lines) = (pid :: tokens) :: linesOf pid lines := by
  simp [linesOf, hwords]

theorem linesOf_append (pid : Str) (lines lines' : List Str) :
    linesOf pid (lines ++ lines') = linesOf pid lines ++ linesOf pid lines' := by
  simp [linesOf]

/-- A line of the process: what it writes, and what it leaves in the map. -/
theorem redoLine_own {pid line : Str} {tokens : List Str} (hpid : IsPid pid) (hashmap : Pending)
    (hnamed : Named line) (hwords : words line = pid :: tokens) :
    linesOf pid (redoLine hashmap line).1.toList =
        (if stopsAtMark [] (started tokens) then []
          else [pid :: (words ((hashmap pid).getD []) ++ collect [] (started tokens))]) ∧
      words (((redoLine hashmap line).2 pid).getD []) =
        if stopsAtMark [] (started tokens) then
          words ((hashmap pid).getD []) ++ collect [] (started tokens)
        else [] := by
  have hword : words pid = [pid] := (isWord_of_words hwords pid (.head _)).words_eq
  obtain ⟨hline2, hmark⟩ := readTokens_spec hwords hpid ((hashmap pid).getD [])
  rw [redoLine_of_named hnamed hwords]
  by_cases hstop : stopsAtMark [] (started tokens) = true
  · rw [if_pos (hmark.mpr hstop), if_pos hstop, if_pos hstop]
    exact ⟨rfl, by simpa using hline2⟩
  · have houtput : words (pid ++ 32 :: (readTokens line tokens ((hashmap pid).getD [])).1) =
        pid :: (words ((hashmap pid).getD []) ++ collect [] (started tokens)) := by
      rw [words_append_cons, hword, hline2]
      rfl
    rw [if_neg (mt hmark.mp hstop), if_neg hstop, if_neg hstop]
    refine ⟨by simp [linesOf, houtput], ?_⟩
    cases hentry : hashmap pid with
    | none => simp [hentry, words]
    | some line2 => simp [words]

/-- What is written for a process depends on nothing but its own lines. -/
theorem redoLines_pid {pid : Str} {log : List Str} :
    ∀ {hashmap : Pending} {lines : List (List Str)}, (lines ≠ [] → IsPid pid) →
      linesOf pid (log.filter Named) = lines.map (pid :: ·) →
      linesOf pid (redoLines hashmap log) =
        (outputs (words ((hashmap pid).getD [])) lines).map (pid :: ·) := by
  induction log with
  | nil =>
      intro hashmap lines hpid hlines
      rw [List.map_eq_nil_iff.mp hlines.symm]
      rfl
  | cons line log ih =>
      intro hashmap lines hpid hlines
      by_cases hnamed : Named line
      · obtain ⟨q, tokens, hwords⟩ := List.exists_cons_of_ne_nil hnamed.words_ne_nil
        obtain ⟨hframe, houtput⟩ := @redoLine_frame line q tokens hashmap hnamed hwords
        rw [List.filter_cons_of_pos (by simpa using hnamed)] at hlines
        rw [redoLines, linesOf_append]
        by_cases hq : q = pid
        · subst hq
          rw [linesOf_cons_self _ hwords] at hlines
          obtain ⟨_, lines, rfl, htokens, hrest⟩ := List.map_eq_cons_iff.mp hlines.symm
          cases htokens
          have hpid := hpid (List.cons_ne_nil _ _)
          obtain ⟨hown, hentry⟩ := redoLine_own hpid hashmap hnamed hwords
          rw [hown, ih (fun _ => hpid) hrest.symm, hentry, outputs]
          split <;> rfl
        · -- the line of another process
          rw [linesOf_cons_of_ne _ hwords hq] at hlines
          have hnone : linesOf pid (redoLine hashmap line).1.toList = [] := by
            cases hout : (redoLine hashmap line).1 with
            | none => rfl
            | some output =>
                have hhead := houtput output hout
                simp [linesOf, hhead, hq]
          rw [hnone, List.nil_append, ih hpid hlines, hframe pid (Ne.symm hq)]
      · rw [List.filter_cons_of_neg (by simpa using hnamed)] at hlines
        rw [redoLines, redoLine_of_not_named hnamed]
        exact ih hpid hlines

/-! ## Calls -/

/-- A call as strace reports it: in one line, or cut in two. -/
inductive Call where
  | whole (tokens : List Str)
  | cut (before : List Str) (name : Str) (after : List Str)
deriving DecidableEq, Repr

namespace Call

/-- The tokens of the call. -/
def tokens : Call → List Str
  | whole tokens => tokens
  | cut before _ after => before ++ after

/-- `"<unfinished"` and `"...>"` -/
def unfinishedMark : List Str := [60 :: UNFINISHED, [46, 46, 46, 62]]

/-- `"<..."`, the name and `"resumed>"` -/
def resumedMark (name : Str) : List Str := [[60, 46, 46, 46], name, RESUMED]

/-- Its lines, without the process id. -/
def lines : Call → List (List Str)
  | whole tokens => [tokens]
  | cut before name after => [before ++ unfinishedMark, resumedMark name ++ after]

/-- No token has `unfinished` in it. -/
def NoMark (c : Call) : Prop := ∀ t ∈ c.tokens, ¬ Find t UNFINISHED

/-- No two tokens of a line that belong to the call are equal neighbours, no token makes the
line look like a second part, and the second part is not empty. -/
def Legible : Call → Prop
  | whole tokens =>
      tokens.IsChain (· ≠ ·) ∧ ((∀ t ∈ tokens, ¬ Find t RESUMED) ∨ tokens.length = 1)
  | cut before _ after =>
      before.IsChain (· ≠ ·) ∧ (∀ t ∈ before, ¬ Find t RESUMED) ∧
        after.IsChain (· ≠ ·) ∧ after ≠ []

/-- The calls that come out whole. -/
structure Clean (c : Call) : Prop where
  noMark : c.NoMark
  legible : c.Legible

end Call

/-! ## What the loop takes of a call -/

theorem collect_isPrefix (token2 : Str) (tokens : List Str) : collect token2 tokens <+: tokens := by
  induction tokens generalizing token2 with
  | nil => exact List.nil_prefix
  | cons token stream ih =>
      rw [collect]
      split
      · exact List.cons_prefix_cons.mpr ⟨rfl, ih token⟩
      · exact List.nil_prefix

theorem collect_noMark {token2 t : Str} {tokens : List Str} (h : t ∈ collect token2 tokens) :
    ¬ Find t UNFINISHED := by
  induction tokens generalizing token2 with
  | nil => cases h
  | cons token stream ih =>
      rw [collect] at h
      split at h
      · next hgo =>
        rcases List.mem_cons.mp h with rfl | hrest
        · exact hgo.2
        · exact ih hrest
      · cases h

/-- Without the mark the loop takes everything unless two neighbours are equal. -/
theorem collect_eq_iff {token2 : Str} {tokens : List Str}
    (hmark : ∀ t ∈ tokens, ¬ Find t UNFINISHED) :
    collect token2 tokens = tokens ↔ (token2 :: tokens).IsChain (· ≠ ·) := by
  induction tokens generalizing token2 with
  | nil => simp [collect]
  | cons token stream ih =>
      rw [List.forall_mem_cons] at hmark
      rw [collect, List.isChain_cons_cons, ← ih hmark.2]
      by_cases heq : token = token2
      · simp [heq]
      · simp [heq, hmark.1, Ne.symm heq]

theorem stopsAtMark_eq_false {token2 : Str} {tokens : List Str}
    (hmark : ∀ t ∈ tokens, ¬ Find t UNFINISHED) : stopsAtMark token2 tokens = false := by
  induction tokens generalizing token2 with
  | nil => rfl
  | cons token stream ih =>
      rw [List.forall_mem_cons] at hmark
      simp [stopsAtMark, hmark.1, ih hmark.2]

/-- With the mark behind them the loop gets through the tokens under the same condition. -/
theorem stopsAtMark_append {token2 mark : Str} {tokens : List Str} (rest : List Str)
    (hmark : Find mark UNFINISHED) (htokens : ∀ t ∈ tokens, ¬ Find t UNFINISHED) :
    stopsAtMark token2 (tokens ++ mark :: rest) = true ↔ (token2 :: tokens).IsChain (· ≠ ·) := by
  induction tokens generalizing token2 with
  | nil => simp [stopsAtMark, hmark]
  | cons token stream ih =>
      rw [List.forall_mem_cons] at htokens
      rw [List.cons_append, stopsAtMark, List.isChain_cons_cons, ← ih htokens.2]
      by_cases heq : token = token2
      · subst heq
        simp [htokens.1]
      · simp [heq, htokens.1, Ne.symm heq]

/-- And it takes nothing of what is behind it. -/
theorem collect_append {token2 mark : Str} {tokens : List Str} (rest : List Str)
    (hmark : Find mark UNFINISHED) :
    collect token2 (tokens ++ mark :: rest) = collect token2 tokens := by
  induction tokens generalizing token2 with
  | nil => simp [collect, hmark]
  | cons token stream ih =>
      rw [List.cons_append, collect, collect]
      split
      · rw [ih]
      · rfl

theorem started_of_not_resumed {tokens : List Str} (h : ∀ t ∈ tokens, ¬ Find t RESUMED) :
    started tokens = tokens := by
  rw [started, if_neg]
  rintro ⟨t, ht, hresumed⟩
  exact h t ht hresumed

/-- A line that looks like a second part has lost three tokens, or all but the last. -/
theorem length_started {tokens : List Str} (h : ∃ t ∈ tokens, Find t RESUMED) :
    (started tokens).length ≤ max 1 (tokens.length - 3) := by
  rw [started, if_pos h]
  split
  · rw [List.length_drop]
    exact Nat.le_max_right _ _
  · cases tokens.getLast? with
    | none => exact Nat.zero_le _
    | some t => exact Nat.le_max_left _ _

theorem started_singleton (t : Str) : started [t] = [t] := by
  rw [started]
  split <;> rfl

/-- Tokens are not empty, so the loop starts at the first one. -/
theorem isChain_nil_cons {tokens : List Str} (hword : ∀ t ∈ tokens, t ≠ []) :
    ([] :: tokens).IsChain (· ≠ ·) ↔ tokens.IsChain (· ≠ ·) := by
  cases tokens with
  | nil => simp
  | cons t tokens =>
      have hne : ([] : Str) ≠ t := Ne.symm (hword t (.head _))
      simp [List.isChain_cons_cons, hne]

/-- A call in one line comes out whole. -/
theorem collect_whole_iff {tokens : List Str} (hword : ∀ t ∈ tokens, t ≠ [])
    (hmark : ∀ t ∈ tokens, ¬ Find t UNFINISHED) :
    collect [] (started tokens) = tokens ↔ (Call.whole tokens).Legible := by
  by_cases hresumed : ∃ t ∈ tokens, Find t RESUMED
  · have hnot : ¬ ∀ t ∈ tokens, ¬ Find t RESUMED := by
      rintro h
      obtain ⟨t, ht, hfind⟩ := hresumed
      exact h t ht hfind
    constructor
    · intro h
      have hle := (collect_isPrefix [] (started tokens)).length_le
      have hstarted := length_started hresumed
      obtain ⟨t, ht, -⟩ := hresumed
      have hpos := List.length_pos_of_mem ht
      rw [h] at hle
      have hone : tokens.length = 1 := by omega
      obtain ⟨t, rfl⟩ := List.length_eq_one_iff.mp hone
      exact ⟨.singleton t, .inr rfl⟩
    · rintro ⟨-, hlen⟩
      obtain ⟨t, rfl⟩ := List.length_eq_one_iff.mp (hlen.resolve_left hnot)
      rw [started_singleton, collect_eq_iff hmark, isChain_nil_cons hword]
      exact .singleton t
  · have hnot : ∀ t ∈ tokens, ¬ Find t RESUMED := fun t ht hfind => hresumed ⟨t, ht, hfind⟩
    rw [started_of_not_resumed hnot, collect_eq_iff hmark, isChain_nil_cons hword]
    exact ⟨fun h => ⟨h, .inl hnot⟩, fun h => h.1⟩

/-- The line with the second part. -/
theorem started_resumedMark (name : Str) (after : List Str) :
    started (Call.resumedMark name ++ after) = if after = [] then [RESUMED] else after := by
  have hresumed : ∃ t ∈ Call.resumedMark name ++ after, Find t RESUMED :=
    ⟨RESUMED, by simp [Call.resumedMark], List.infix_refl RESUMED⟩
  rw [started, if_pos hresumed]
  cases after with
  | nil => rfl
  | cons t after => simp [Call.resumedMark]

/-- The line with the first part, if nothing in it looks like a second part. -/
theorem started_unfinishedMark {before : List Str} (h : ∀ t ∈ before, ¬ Find t RESUMED) :
    started (before ++ Call.unfinishedMark) = before ++ Call.unfinishedMark := by
  apply started_of_not_resumed
  intro t ht
  rcases List.mem_append.mp ht with hbefore | hmark
  · exact h t hbefore
  · exact (by decide : ∀ t ∈ Call.unfinishedMark, ¬ Find t RESUMED) t hmark

/-- If something does, the mark is skipped, or two tokens at least are lost. -/
theorem first_part_lost {before : List Str} (h : ∃ t ∈ before, Find t RESUMED) :
    stopsAtMark [] (started (before ++ Call.unfinishedMark)) = false ∨
      (collect [] (started (before ++ Call.unfinishedMark))).length + 2 ≤ before.length := by
  obtain ⟨t, ht, hfind⟩ := h
  have hresumed : ∃ t ∈ before ++ Call.unfinishedMark, Find t RESUMED :=
    ⟨t, List.mem_append_left _ ht, hfind⟩
  rw [started, if_pos hresumed]
  match before with
  | [] => cases ht
  | [a] =>
      left
      change stopsAtMark [] [[46, 46, 46, 62]] = false
      decide
  | [a, b] =>
      left
      change stopsAtMark [] [[46, 46, 46, 62]] = false
      decide
  | a :: b :: c :: before =>
      have hle := (collect_isPrefix [] before).length_le
      have hcollect := @collect_append [] (60 :: UNFINISHED) before [[46, 46, 46, 62]] (by decide)
      refine .inr ?_
      simp only [Call.unfinishedMark, List.cons_append, List.length_cons, List.length_append,
        List.drop_succ_cons, List.drop_zero]
      rw [if_pos (by omega), hcollect]
      omega

theorem second_part {name : Str} {after : List Str} (hmark : ∀ t ∈ after, ¬ Find t UNFINISHED) :
    stopsAtMark [] (started (Call.resumedMark name ++ after)) = false := by
  rw [started_resumedMark]
  split
  · decide
  · exact stopsAtMark_eq_false hmark

theorem length_second_part (name : Str) (after : List Str) :
    (collect [] (started (Call.resumedMark name ++ after))).length ≤ after.length + 1 := by
  have hle := (collect_isPrefix [] (started (Call.resumedMark name ++ after))).length_le
  rw [started_resumedMark] at hle ⊢
  split
  · exact Nat.le_add_left 1 _
  · next hne =>
    rw [if_neg hne] at hle
    exact Nat.le_succ_of_le hle

theorem second_part_iff {name : Str} {after : List Str} (hword : ∀ t ∈ after, t ≠ [])
    (hmark : ∀ t ∈ after, ¬ Find t UNFINISHED) :
    collect [] (started (Call.resumedMark name ++ after)) = after ↔
      after.IsChain (· ≠ ·) ∧ after ≠ [] := by
  rw [started_resumedMark]
  split
  · next hnil =>
    subst hnil
    have htaken : collect [] [RESUMED] = [RESUMED] := by decide
    simp [htaken]
  · next hne =>
    rw [collect_eq_iff hmark, isChain_nil_cons hword]
    simp [hne]

namespace Call

/-- What is written for the lines of a call alone. -/
def written (c : Call) : List (List Str) := outputs [] c.lines

theorem stopsAtMark_whole {tokens : List Str} (hmark : (whole tokens).NoMark) :
    stopsAtMark [] (started tokens) = false :=
  stopsAtMark_eq_false fun t ht => hmark t (started_subset ht)

theorem written_whole {tokens : List Str} (hmark : (whole tokens).NoMark) :
    (whole tokens).written = [collect [] (started tokens)] := by
  simp [written, lines, outputs, stopsAtMark_whole hmark]

theorem written_cut {before after : List Str} {name : Str}
    (hmark : ∀ t ∈ after, ¬ Find t UNFINISHED) :
    (cut before name after).written =
      if stopsAtMark [] (started (before ++ unfinishedMark)) then
        [collect [] (started (before ++ unfinishedMark)) ++
          collect [] (started (resumedMark name ++ after))]
      else
        [collect [] (started (before ++ unfinishedMark)),
          collect [] (started (resumedMark name ++ after))] := by
  have hsecond := @second_part name after hmark
  simp [written, lines, outputs, hsecond]

/-- What the loop takes of the first part, if the line is not mistaken. -/
theorem first_part_iff {before : List Str} (hword : ∀ t ∈ before, t ≠ [])
    (hmark : ∀ t ∈ before, ¬ Find t UNFINISHED) (hresumed : ∀ t ∈ before, ¬ Find t RESUMED) :
    (stopsAtMark [] (started (before ++ unfinishedMark)) = true ↔ before.IsChain (· ≠ ·)) ∧
      (before.IsChain (· ≠ ·) →
        collect [] (started (before ++ unfinishedMark)) = before) := by
  have hmarkFound : Find (60 :: UNFINISHED) UNFINISHED := by decide
  rw [started_unfinishedMark hresumed]
  constructor
  · exact (stopsAtMark_append _ hmarkFound hmark).trans (isChain_nil_cons hword)
  · intro hchain
    exact (collect_append _ hmarkFound).trans
      ((collect_eq_iff hmark).mpr ((isChain_nil_cons hword).mpr hchain))

/-- A call without the mark in its tokens comes out whole exactly if it is legible. -/
theorem written_iff {c : Call} (hword : ∀ t ∈ c.tokens, t ≠ []) (hmark : c.NoMark) :
    c.written = [c.tokens] ↔ c.Legible := by
  cases c with
  | whole tokens =>
      rw [written_whole hmark, List.singleton_inj]
      exact collect_whole_iff hword hmark
  | cut before name after =>
      obtain ⟨hwordBefore, hwordAfter⟩ := List.forall_mem_append.mp hword
      obtain ⟨hmarkBefore, hmarkAfter⟩ := List.forall_mem_append.mp hmark
      rw [written_cut hmarkAfter, tokens]
      by_cases hresumed : ∀ t ∈ before, ¬ Find t RESUMED
      · obtain ⟨hstop, htaken⟩ := first_part_iff hwordBefore hmarkBefore hresumed
        by_cases hchain : before.IsChain (· ≠ ·)
        · rw [if_pos (hstop.mpr hchain), htaken hchain, List.singleton_inj,
            List.append_cancel_left_eq, second_part_iff hwordAfter hmarkAfter]
          exact ⟨fun h => ⟨hchain, hresumed, h⟩, fun h => h.2.2⟩
        · rw [if_neg (mt hstop.mp hchain)]
          exact ⟨fun h => by simp at h, fun h => absurd h.1 hchain⟩
      · have hlost : ∃ t ∈ before, Find t RESUMED := by
          by_contra hnone
          exact hresumed fun t ht hfind => hnone ⟨t, ht, hfind⟩
        refine ⟨fun h => ?_, fun h => absurd h.2.1 hresumed⟩
        rcases first_part_lost hlost with hstop | hlen
        · rw [hstop] at h
          simp at h
        · split at h
          · have hlength := congrArg List.length (List.singleton_inj.mp h)
            have hsecond := length_second_part name after
            rw [List.length_append, List.length_append] at hlength
            omega
          · simp at h

theorem written_ne_nil {c : Call} (hmark : c.NoMark) : c.written ≠ [] := by
  cases c with
  | whole tokens => simp [written_whole hmark]
  | cut before name after =>
      rw [written_cut fun t ht => hmark t (List.mem_append_right _ ht)]
      split <;> simp

/-- A call leaves nothing for the next one. -/
theorem outputs_lines_append {c : Call} (hmark : c.NoMark) (rest : List (List Str)) :
    outputs [] (c.lines ++ rest) = c.written ++ outputs [] rest := by
  cases c with
  | whole tokens => simp [written, lines, outputs, stopsAtMark_whole hmark]
  | cut before name after =>
      have hsecond := @second_part name after fun t ht => hmark t (List.mem_append_right _ ht)
      rw [written]
      simp only [lines, List.cons_append, List.nil_append, outputs, hsecond]
      split <;> simp

end Call

/-! ## Logs -/

/-- The calls of a process come out one by one. -/
theorem outputs_flatMap {calls : List Call} (hmark : ∀ c ∈ calls, c.NoMark) :
    outputs [] (calls.flatMap Call.lines) = calls.flatMap Call.written := by
  induction calls with
  | nil => rfl
  | cons c calls ih =>
      rw [List.forall_mem_cons] at hmark
      rw [List.flatMap_cons, List.flatMap_cons, Call.outputs_lines_append hmark.1, ih hmark.2]

/-- Nothing that is written has the mark in it. -/
theorem outputs_noMark {pending : List Str} {lines : List (List Str)}
    (hpending : ∀ t ∈ pending, ¬ Find t UNFINISHED) :
    ∀ tokens ∈ outputs pending lines, ∀ t ∈ tokens, ¬ Find t UNFINISHED := by
  induction lines generalizing pending with
  | nil => simp [outputs]
  | cons tokens lines ih =>
      have htaken : ∀ t ∈ pending ++ collect [] (started tokens), ¬ Find t UNFINISHED := by
        intro t ht
        rcases List.mem_append.mp ht with hmem | hmem
        · exact hpending t hmem
        · exact collect_noMark hmem
      rw [outputs]
      split
      · exact ih htaken
      · exact List.forall_mem_cons.mpr ⟨htaken, ih (by simp)⟩

theorem length_le_flatMap {α β : Type} {f : α → List β} {l : List α} (hf : ∀ a ∈ l, f a ≠ []) :
    l.length ≤ (l.flatMap f).length := by
  induction l with
  | nil => exact Nat.le_refl 0
  | cons a l ih =>
      rw [List.forall_mem_cons] at hf
      have hpos := List.length_pos_iff.mpr hf.1
      have hle := ih hf.2
      rw [List.flatMap_cons, List.length_append, List.length_cons]
      omega

/-- If every element gives something, what they give is one thing each exactly if it has the
right length and the right elements. -/
theorem flatMap_eq_map_iff {α β : Type} {f : α → List β} {g : α → β} {l : List α}
    (hf : ∀ a ∈ l, f a ≠ []) : l.flatMap f = l.map g ↔ ∀ a ∈ l, f a = [g a] := by
  induction l with
  | nil => simp
  | cons a l ih =>
      rw [List.forall_mem_cons] at hf ⊢
      rw [List.flatMap_cons, List.map_cons, ← ih hf.2]
      constructor
      · intro h
        obtain ⟨b, bs, hfa⟩ := List.exists_cons_of_ne_nil hf.1
        rw [hfa, List.cons_append] at h
        obtain ⟨hb, hrest⟩ := List.cons.inj h
        have hlen := congrArg List.length hrest
        have hle := length_le_flatMap hf.2
        rw [List.length_append, List.length_map] at hlen
        have hbs : bs = [] := List.eq_nil_of_length_eq_zero (by omega)
        rw [hbs, List.nil_append] at hrest
        exact ⟨by rw [hfa, hb, hbs], hrest⟩
      · rintro ⟨hfa, hrest⟩
        rw [hfa, hrest]
        rfl

/-- The lines of a process come out as its calls exactly if all of them are clean. -/
theorem outputs_eq_iff {calls : List Call} (hword : ∀ c ∈ calls, ∀ t ∈ c.tokens, t ≠ []) :
    outputs [] (calls.flatMap Call.lines) = calls.map Call.tokens ↔ ∀ c ∈ calls, c.Clean := by
  have hwritten : (∀ c ∈ calls, c.NoMark) →
      (outputs [] (calls.flatMap Call.lines) = calls.map Call.tokens ↔
        ∀ c ∈ calls, c.Legible) := by
    intro hmark
    rw [outputs_flatMap hmark, flatMap_eq_map_iff fun c hc => Call.written_ne_nil (hmark c hc)]
    exact forall₂_congr fun c hc => Call.written_iff (hword c hc) (hmark c hc)
  constructor
  · intro h
    have hmark : ∀ c ∈ calls, c.NoMark := by
      intro c hc
      refine @outputs_noMark [] (calls.flatMap Call.lines) (by simp) c.tokens ?_
      rw [h]
      exact List.mem_map_of_mem hc
    exact fun c hc => ⟨hmark c hc, (hwritten hmark).mp h c hc⟩
  · intro h
    exact (hwritten fun c hc => (h c hc).noMark).mpr fun c hc => (h c hc).legible

/-- The lines of the log that have a call in them are, process by process, the lines of its
calls in their order. -/
structure Interleaves (log : List Str) (calls : Str → List Call) : Prop where
  lines : ∀ pid, linesOf pid (log.filter Named) = ((calls pid).flatMap Call.lines).map (pid :: ·)
  isPid : ∀ pid, calls pid ≠ [] → IsPid pid

namespace Interleaves

variable {log : List Str} {calls : Str → List Call}

theorem word (h : Interleaves log calls) {pid : Str} : ∀ c ∈ calls pid, ∀ t ∈ c.tokens, t ≠ [] := by
  intro c hc t ht
  have hline : ∃ tokens ∈ c.lines, t ∈ tokens := by
    cases c with
    | whole tokens => exact ⟨tokens, .head _, ht⟩
    | cut before name after =>
        rcases List.mem_append.mp ht with hbefore | hafter
        · exact ⟨_, .head _, List.mem_append_left _ hbefore⟩
        · exact ⟨_, .tail _ (.head _), List.mem_append_right _ hafter⟩
  obtain ⟨tokens, htokens, hmem⟩ := hline
  have hwords : pid :: tokens ∈ linesOf pid (log.filter Named) := by
    rw [h.lines]
    exact List.mem_map_of_mem (List.mem_flatMap.mpr ⟨c, hc, htokens⟩)
  obtain ⟨line, -, hline⟩ := List.mem_map.mp (List.mem_filter.mp hwords).1
  exact (isWord_of_words hline t (.tail _ hmem)).ne_nil

end Interleaves

/-- What is written for a process is its calls, each with all of its tokens, exactly if its
calls are clean.  The lines of the other processes do not matter. -/
theorem redoOutput_iff {log : List Str} {calls : Str → List Call} (h : Interleaves log calls)
    (pid : Str) :
    linesOf pid (redoOutput log) = (calls pid).map (fun c => pid :: c.tokens) ↔
      ∀ c ∈ calls pid, c.Clean := by
  have hpid : (calls pid).flatMap Call.lines ≠ [] → IsPid pid := by
    intro hne
    refine h.isPid pid fun hnil => hne ?_
    rw [hnil, List.flatMap_nil]
  have hmap : (calls pid).map (fun c => pid :: c.tokens) =
      ((calls pid).map Call.tokens).map (pid :: ·) := by
    rw [List.map_map]
    rfl
  rw [redoOutput, redoLines_pid hpid (h.lines pid), hmap, ← outputs_eq_iff h.word]
  exact List.map_inj_right fun _ _ htokens => List.tail_eq_of_cons_eq htokens

/-! ## Logs -/

/-- A line with these words. -/
def text (ws : List Str) : Str := ws.flatMap fun w => 32 :: w

theorem words_text {ws : List Str} (h : ∀ w ∈ ws, IsWord blank w) : words (text ws) = ws := by
  induction ws using List.reverseRecOn with
  | nil => rfl
  | append_singleton ws w ih =>
      rw [List.forall_mem_append] at h
      have htext : text (ws ++ [w]) = text ws ++ 32 :: w := by simp [text]
      rw [htext, words_append_token (h.2 w (.head _)), ih h.1]

/-- A log of lines of calls, each with its process id. -/
def logOf (lines : List (Str × List Str)) : List Str := lines.map fun l => text (l.1 :: l.2)

/-- The processes take turns in any way, and each writes the lines of its calls. -/
theorem Interleaves.ofLines {lines : List (Str × List Str)} {calls : Str → List Call}
    (hword : ∀ l ∈ lines, ∀ t ∈ l.1 :: l.2, IsWord blank t)
    (hnamed : ∀ line ∈ logOf lines, Named line) (hpid : ∀ pid, calls pid ≠ [] → IsPid pid)
    (hlines : ∀ pid, (lines.filter fun l => l.1 = pid).map Prod.snd =
      (calls pid).flatMap Call.lines) : Interleaves (logOf lines) calls := by
  refine ⟨fun pid => ?_, hpid⟩
  have hfilter : (logOf lines).filter Named = logOf lines := by
    rw [List.filter_eq_self]
    exact fun line hline => decide_eq_true (hnamed line hline)
  have hwords : (logOf lines).map words = lines.map fun l => l.1 :: l.2 := by
    rw [logOf, List.map_map]
    exact List.map_congr_left fun l hl => words_text (hword l hl)
  rw [hfilter, linesOf, hwords, ← hlines, List.filter_map, List.map_map]
  -- the lines that start with the process id
  have hhead : (fun ws : List Str => decide (ws.head? = some pid)) ∘
      (fun l : Str × List Str => l.1 :: l.2) = fun l => decide (l.1 = pid) := by
    funext l
    simp
  rw [hhead]
  refine List.map_congr_left fun l hl => ?_
  have hpid := of_decide_eq_true (List.mem_filter.mp hl).2
  exact congrArg (· :: l.2) hpid

/-- The lines `7 send( <unfinished ...>`, `8 recv( = 2` and `7 <... send resumed> = 1`. -/
theorem redoOutput_iff_cut :
    let log := logOf [([55], [[115, 101, 110, 100, 40], 60 :: UNFINISHED, [46, 46, 46, 62]]),
      ([56], [[114, 101, 99, 118, 40], [61], [50]]),
      ([55], [[60, 46, 46, 46], SEND, RESUMED, [61], [49]])]
    linesOf [55] (redoOutput log) = [[[55], [115, 101, 110, 100, 40], [61], [49]]] ∧
      linesOf [56] (redoOutput log) = [[[56], [114, 101, 99, 118, 40], [61], [50]]] := by
  intro log
  let calls : Str → List Call := fun pid =>
    if pid = [55] then [.cut [[115, 101, 110, 100, 40]] SEND [[61], [49]]]
    else if pid = [56] then [.whole [[114, 101, 99, 118, 40], [61], [50]]]
    else []
  have hcalls : Interleaves log calls := by
    refine .ofLines (by decide) (by decide) (fun pid hne => ?_) fun pid => ?_
    · by_cases h7 : pid = [55]
      · exact h7 ▸ List.forall_mem_singleton.mpr (by decide)
      · by_cases h8 : pid = [56]
        · exact h8 ▸ List.forall_mem_singleton.mpr (by decide)
        · exact absurd (by simp [calls, h7, h8]) hne
    · by_cases h7 : pid = [55]
      · subst h7
        rfl
      · by_cases h8 : pid = [56]
        · subst h8
          rfl
        · simp [calls, h7, h8, Ne.symm h7, Ne.symm h8]
  have hcut : (Call.cut [[115, 101, 110, 100, 40]] SEND [[61], [49]]).Clean := by
    constructor
    · change ∀ t ∈ [[115, 101, 110, 100, 40], [61], [49]], ¬ Find t UNFINISHED
      decide
    · exact ⟨.singleton _, by decide, by decide, by decide⟩
  have hwhole : (Call.whole [[114, 101, 99, 118, 40], [61], [50]]).Clean := by
    constructor
    · change ∀ t ∈ [[114, 101, 99, 118, 40], [61], [50]], ¬ Find t UNFINISHED
      decide
    · exact ⟨by decide, .inl (by decide)⟩
  exact ⟨(redoOutput_iff hcalls [55]).mpr (List.forall_mem_singleton.mpr hcut),
    (redoOutput_iff hcalls [56]).mpr (List.forall_mem_singleton.mpr hwhole)⟩

/-- The line `7 send( a a`.  The loop takes the second `a` for the end of the line. -/
theorem equal_neighbours_lost :
    ∃ log calls, Interleaves log calls ∧
      ¬ ∀ pid, linesOf pid (redoOutput log) =
        (calls pid).map fun c : Call => pid :: c.tokens := by
  have hcalls : Interleaves (logOf [([55], [[115, 101, 110, 100, 40], [97], [97]])])
      fun pid => if pid = [55] then [.whole [[115, 101, 110, 100, 40], [97], [97]]] else [] := by
    refine .ofLines (by decide) (by decide) (fun pid hne => ?_) fun pid => ?_
    · by_cases h7 : pid = [55]
      · exact h7 ▸ List.forall_mem_singleton.mpr (by decide)
      · exact absurd (if_neg h7) hne
    · by_cases h7 : pid = [55]
      · subst h7
        rfl
      · simp [h7, Ne.symm h7]
  exact ⟨_, _, hcalls, fun h => absurd (h [55]) (by decide)⟩

end KvServer.Testclient
