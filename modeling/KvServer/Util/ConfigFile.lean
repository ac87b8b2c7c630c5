import KvServer.Util.Config
import Mathlib.Data.List.DropRight
import Mathlib.Data.List.Infix
import Mathlib.Logic.Function.Iterate

/-!
# Configuration files

A configuration is written with one line for each node, indented by a tab for each level, and
`load` reads it back.  A line is a comment, or a key and a value with a colon or an equals sign
between them.

*Reading.*  `load` goes on from the node it has read last.  A line that is indented by one more
tab is a child of it, and for other lines `load` goes up first.  A comment is added to the last
node, whatever its indentation.  `Cursor` is the last node with those above it.

*Tidy trees.*  In what `load` returns comments come before the other children, keys and
values have no white space around them, and there are no newlines (`tidy_of_load`).

*Round trip.*  Written with lines that fit into the buffer, exactly the tidy trees are read back
(`load_save_iff`).  Calls of `set` with such keys and values keep a tree tidy, so
what was loaded and changed can be saved and loaded again (`load_save_setAll`).
-/

namespace KvServer.Util

open Testclient

/-! ## White space -/

def TAB : Byte := 9

def LF : Byte := 10

def SPACE : Byte := 32

def HASH : Byte := 35

def EQUALS : Byte := 61

section All

variable {P : Byte → Prop} [DecidablePred P]

theorem all_iff {s : Str} : s.all (fun c => P c) ↔ ∀ c ∈ s, P c := by
  simp only [List.all_eq_true, decide_eq_true_eq]

theorem option_all_iff {o : Option Byte} : o.all (fun c => P c) ↔ ∀ c ∈ o, P c := by
  cases o with
  | none => exact iff_of_true rfl fun c hc => by cases hc
  | some c => simp

end All

/-- `is_empty_str` -/
def IsEmptyStr (s : Str) : Prop := ∀ c ∈ s, IsSpace c

instance (s : Str) : Decidable (IsEmptyStr s) := decidable_of_iff _ all_iff

def ltrim (s : Str) : Str := s.dropWhile fun c => IsSpace c

def rtrim (s : Str) : Str := s.rdropWhile fun c => IsSpace c

def trim (s : Str) : Str := rtrim (ltrim s)

/-- No white space at either end. -/
structure Trimmed (s : Str) : Prop where
  head : ∀ c ∈ s.head?, ¬ IsSpace c
  last : ∀ c ∈ s.getLast?, ¬ IsSpace c

instance (s : Str) : Decidable (Trimmed s) :=
  decidable_of_iff (s.head?.all (fun c => ¬ IsSpace c) ∧ s.getLast?.all fun c => ¬ IsSpace c)
    ⟨fun h => ⟨option_all_iff.mp h.1, option_all_iff.mp h.2⟩,
      fun h => ⟨option_all_iff.mpr h.head, option_all_iff.mpr h.last⟩⟩

theorem ltrim_eq_self {s : Str} (h : ∀ c ∈ s.head?, ¬ IsSpace c) : ltrim s = s := by
  cases s with
  | nil => rfl
  | cons c s =>
      have hc : ¬ IsSpace c := h c rfl
      exact List.dropWhile_cons_of_neg (by simpa using hc)

theorem Trimmed.rtrim {s : Str} (h : Trimmed s) : rtrim s = s := by
  refine List.rdropWhile_eq_self_iff.mpr fun hs => ?_
  have hlast := h.last _ (List.getLast?_eq_some_getLast hs)
  simpa using hlast

theorem Trimmed.trim {s : Str} (h : Trimmed s) : trim s = s := by
  rw [Util.trim, ltrim_eq_self h.head, h.rtrim]

/-- A value behind its blank. -/
theorem Trimmed.trim_cons {s : Str} (h : Trimmed s) : Util.trim (SPACE :: s) = s := by
  have hblank : ltrim (SPACE :: s) = ltrim s := List.dropWhile_cons_of_pos (by decide)
  rw [Util.trim, hblank, ltrim_eq_self h.head, h.rtrim]

theorem trim_isPrefix (s : Str) : trim s <+: ltrim s := List.rdropWhile_prefix _ _

theorem head?_of_isPrefix {s t : Str} (h : s <+: t) {c : Byte} (hc : c ∈ s.head?) :
    c ∈ t.head? := by
  obtain ⟨u, rfl⟩ := h
  cases s with
  | nil => cases hc
  | cons d s => exact hc

theorem trimmed_trim (s : Str) : Trimmed (trim s) where
  head := by
    intro c hc
    have hhead := head?_of_isPrefix (trim_isPrefix s) hc
    have hnot := List.head?_dropWhile_not (fun c => decide (IsSpace c)) s
    rw [ltrim, Option.mem_def] at hhead
    rw [hhead] at hnot
    simpa using hnot
  last := by
    intro c hc
    have hne : trim s ≠ [] := by
      intro hnil
      rw [hnil] at hc
      cases hc
    have hnot := List.rdropWhile_last_not (fun c => decide (IsSpace c)) (ltrim s) hne
    rw [List.getLast?_eq_some_getLast hne] at hc
    cases hc
    simpa [trim, rtrim] using hnot

/-! ## Reading lines -/

/-- `fgets` with room for `n` chars: the line and what is left. -/
def fgets : Nat → Str → Str × Str
  | 0, s => ([], s)
  | _ + 1, [] => ([], [])
  | n + 1, c :: s =>
      if c = LF then ([c], s)
      else
        let (line, rest) := fgets n s
        (c :: line, rest)

/-- The lines that `fgets` reads.  Each has a char, so there are not more of them than chars. -/
def fgetsLoop : Nat → Str → List Str
  | 0, _ => []
  | fuel + 1, s =>
      if s = [] then []
      else
        let (line, rest) := fgets (CONFIG_MAX_LINE - 1) s
        line :: fgetsLoop fuel rest

def fgetsLines (text : Str) : List Str := fgetsLoop text.length text

/-- A line has no newline but at its end. -/
theorem lf_not_mem_fgets (n : Nat) (s : Str) : LF ∉ (fgets n s).1.dropLast := by
  induction n generalizing s with
  | zero => simp [fgets]
  | succ n ih =>
      cases s with
      | nil => simp [fgets]
      | cons c s =>
          rw [fgets]
          split
          · simp
          · next hc =>
              have hrest := ih s
              show LF ∉ (c :: (fgets n s).1).dropLast
              generalize (fgets n s).1 = line at hrest ⊢
              cases line with
              | nil => simp
              | cons d line =>
                  rw [List.dropLast_cons_cons]
                  exact fun h => (List.mem_cons.mp h).elim (Ne.symm hc) hrest

theorem lf_not_mem_fgetsLoop {fuel : Nat} {s : Str} :
    ∀ line ∈ fgetsLoop fuel s, LF ∉ line.dropLast := by
  induction fuel generalizing s with
  | zero => exact fun line h => by cases h
  | succ fuel ih =>
      intro line hline
      rw [fgetsLoop] at hline
      split at hline
      · cases hline
      · rcases List.mem_cons.mp hline with rfl | hline
        · exact lf_not_mem_fgets _ s
        · exact ih line hline

/-- A line that fits is read whole. -/
theorem fgets_append {n : Nat} {line : Str} (hlf : LF ∉ line) (hlen : line.length < n)
    (rest : Str) : fgets n (line ++ LF :: rest) = (line ++ [LF], rest) := by
  induction line generalizing n with
  | nil =>
      cases n with
      | zero => cases hlen
      | succ n => exact if_pos rfl
  | cons c line ih =>
      cases n with
      | zero => cases hlen
      | succ n =>
          have hc : c ≠ LF := fun h => hlf (h ▸ List.mem_cons_self)
          have hrest := @ih n (fun h => hlf (List.mem_cons_of_mem c h))
            (Nat.lt_of_succ_lt_succ hlen)
          rw [List.cons_append, fgets, if_neg hc, hrest]
          rfl

/-- A line as it is written. -/
structure WholeLine (line : Str) : Prop where
  lf : ∃ s, line = s ++ [LF] ∧ LF ∉ s
  length : line.length ≤ CONFIG_MAX_LINE - 1

/-- Lines that fit are read as they were written. -/
theorem fgetsLoop_flatten {lines : List Str} (h : ∀ line ∈ lines, WholeLine line) {fuel : Nat}
    (hfuel : lines.length ≤ fuel) : fgetsLoop fuel lines.flatten = lines := by
  induction lines generalizing fuel with
  | nil => cases fuel <;> rfl
  | cons line lines ih =>
      obtain ⟨⟨s, rfl, hs⟩, hlen⟩ := h line List.mem_cons_self
      have hrest := fun fuel => @ih (fun l hl => h l (List.mem_cons_of_mem _ hl)) fuel
      cases fuel with
      | zero => cases hfuel
      | succ fuel =>
          have hne : s ++ LF :: lines.flatten ≠ [] := by simp
          rw [List.length_append, List.length_singleton] at hlen
          rw [List.flatten_cons, List.append_assoc, List.singleton_append, fgetsLoop, if_neg hne,
            fgets_append hs hlen]
          exact congrArg _ (hrest fuel (Nat.le_of_succ_le_succ hfuel))

theorem length_le_flatten {lines : List Str} (h : ∀ line ∈ lines, WholeLine line) :
    lines.length ≤ lines.flatten.length := by
  induction lines with
  | nil => exact Nat.le_refl 0
  | cons line lines ih =>
      obtain ⟨⟨s, rfl, -⟩, -⟩ := h line List.mem_cons_self
      have hrest := ih fun l hl => h l (List.mem_cons_of_mem _ hl)
      rw [List.flatten_cons, List.length_append, List.length_append, List.length_singleton,
        List.length_cons]
      omega

theorem fgetsLines_flatten {lines : List Str} (h : ∀ line ∈ lines, WholeLine line) :
    fgetsLines lines.flatten = lines := fgetsLoop_flatten h (length_le_flatten h)

/-! ## `load` -/

/-- What is wrong with a line.  For `underflow`, the line has a `'\0'` in front, and the char
before the buffer is written.  For the others `load` returns `NULL`. -/
inductive BadLine where
  | underflow
  | indent
  | whitespace
  | separator
deriving DecidableEq, Repr

/-- `is_kv_seperator` -/
def IsKvSeparator (c : Byte) : Prop := c = EQUALS ∨ c = COLON

instance (c : Byte) : Decidable (IsKvSeparator c) := inferInstanceAs (Decidable (_ ∨ _))

open Config (node)

/-- A comment has `#` for a key. -/
def comment (val : Str) : Config := node [HASH] val []

/-- `cfg`, and the nodes above it up to the root.  They do not have the node below them as a
child yet. -/
structure Cursor where
  cfg : Config
  above : List Config

namespace Cursor

/-- `if(cfg != root) cfg = cfg->parent` -/
def up : Cursor → Cursor
  | ⟨cfg, []⟩ => ⟨cfg, []⟩
  | ⟨cfg, parent :: above⟩ => ⟨parent.addChild cfg, above⟩

/-- A comment is a child of `cfg`. -/
def addComment (c : Cursor) (val : Str) : Cursor := ⟨c.cfg.addChild (comment val), c.above⟩

/-- `cfg = cfg->add_child(key, val)` -/
def addEntry (c : Cursor) (key val : Str) : Cursor := ⟨node key val [], c.cfg :: c.above⟩

/-- The whole tree. -/
def root (c : Cursor) : Config := c.above.foldl (fun cfg parent => parent.addChild cfg) c.cfg

end Cursor

/-- The variables of the loop. -/
structure Loading where
  cursor : Cursor
  last_indent : Nat

/-- `new Config("root", "")` -/
def ROOT : Str := [114, 111, 111, 116]

def Loading.start : Loading := ⟨⟨node ROOT [] [], []⟩, 0⟩

/-- The body of the loop, for a buffer whose last char has been taken away. -/
def readBuffer (st : Loading) (buf : Str) : Except BadLine Loading :=
  if IsEmptyStr buf then .ok st
  else
    let indent := (buf.takeWhile (· = TAB)).length
    let key := buf.drop indent
    if key.head? = some HASH then .ok { st with cursor := st.cursor.addComment key.tail }
    else if indent > st.last_indent + 1 then .error .indent
    else
      let cursor := Cursor.up^[st.last_indent + 1 - indent] st.cursor
      if ∃ c ∈ key.head?, IsSpace c then .error .whitespace
      else
        let name := key.takeWhile fun c => ¬ IsKvSeparator c
        if key.length ≤ name.length then .error .separator
        else
          .ok ⟨cursor.addEntry (trim name) (trim (key.drop (name.length + 1))), indent⟩

/-- `buf[strlen(buf) - 1] = '\0'` -/
def readLine (st : Loading) (line : Str) : Except BadLine Loading :=
  match cString line with
  | [] => .error .underflow
  | c :: s => readBuffer st (c :: s).dropLast

/-- `load` of a file with this text. -/
def load (text : Str) : Except BadLine Config :=
  ((fgetsLines text).foldlM readLine Loading.start).map fun st => st.cursor.root

/-! ## `save` -/

/-- The line of a key and its value. -/
def entryLine (depth : Nat) (key val : Str) : Str :=
  List.replicate depth TAB ++ (key ++ COLON :: SPACE :: val) ++ [LF]

/-- The line of a comment. -/
def commentLine (depth : Nat) (val : Str) : Str :=
  List.replicate depth TAB ++ HASH :: val ++ [LF]

mutual

/-- The lines of a child.  `depth` is that of the node it is a child of. -/
def saveChild (depth : Nat) : Config → List Str
  | node key val children =>
      (if key.head? = some HASH then commentLine depth val else entryLine depth key val) ::
        saveChildren (depth + 1) children

def saveChildren (depth : Nat) : List Config → List Str
  | [] => []
  | c :: children => saveChild depth c ++ saveChildren depth children

end

/-- The lines that are written. -/
def saveLines (conf : Config) : List Str := saveChildren 0 conf.children

def save (conf : Config) : Str := (saveLines conf).flatten

theorem saveChildren_eq (depth : Nat) (children : List Config) :
    saveChildren depth children = children.flatMap (saveChild depth) := by
  induction children with
  | nil => rfl
  | cons c children ih => rw [saveChildren, List.flatMap_cons, ih]

/-! ## Tidy trees -/

/-- A char that a line can have. -/
def InLine (c : Byte) : Prop := c ≠ 0 ∧ c ≠ LF

instance (c : Byte) : Decidable (InLine c) := inferInstanceAs (Decidable (_ ∧ _))

/-- A comment is a line. -/
def CleanComment (val : Str) : Prop := ∀ c ∈ val, InLine c

instance (val : Str) : Decidable (CleanComment val) := decidable_of_iff _ all_iff

structure CleanVal (val : Str) : Prop where
  inLine : ∀ c ∈ val, InLine c
  trimmed : Trimmed val

instance (val : Str) : Decidable (CleanVal val) :=
  decidable_of_iff (val.all (fun c => InLine c) ∧ Trimmed val)
    ⟨fun h => ⟨all_iff.mp h.1, h.2⟩, fun h => ⟨all_iff.mpr h.inLine, h.trimmed⟩⟩

/-- A key ends at the first separator, and it is not a comment. -/
structure CleanKey (key : Str) : Prop where
  inLine : ∀ c ∈ key, InLine c
  separator : ∀ c ∈ key, ¬ IsKvSeparator c
  hash : key.head? ≠ some HASH
  trimmed : Trimmed key

instance (key : Str) : Decidable (CleanKey key) :=
  decidable_of_iff (key.all (fun c => InLine c) ∧ key.all (fun c => ¬ IsKvSeparator c) ∧
      key.head? ≠ some HASH ∧ Trimmed key)
    ⟨fun h => ⟨all_iff.mp h.1, all_iff.mp h.2.1, h.2.2.1, h.2.2.2⟩,
      fun h => ⟨all_iff.mpr h.inLine, all_iff.mpr h.separator, h.hash, h.trimmed⟩⟩

/-- A node whose comments come first. -/
inductive Tidy : Config → Prop where
  | node {key val : Str} {comments : List Str} {entries : List Config} :
      CleanKey key → CleanVal val → (∀ v ∈ comments, CleanComment v) →
        (∀ c ∈ entries, Tidy c) → Tidy (.node key val (comments.map comment ++ entries))

theorem Tidy.cleanKey {c : Config} (h : Tidy c) : CleanKey c.key := by
  cases h with
  | node hkey _ _ _ => exact hkey

theorem Tidy.cleanVal {c : Config} (h : Tidy c) : CleanVal c.val := by
  cases h with
  | node _ hval _ _ => exact hval

theorem cleanVal_nil : CleanVal [] := by decide

theorem tidy_leaf {key val : Str} (hkey : CleanKey key) (hval : CleanVal val) :
    Tidy (.node key val []) :=
  @Tidy.node key val [] [] hkey hval (fun v hv => by cases hv) fun c hc => by cases hc

theorem Tidy.addChild {c p : Config} (hp : Tidy p) (hc : Tidy c) : Tidy (p.addChild c) := by
  cases hp with
  | @node key val comments entries hkey hval hcomments hentries =>
      rw [Config.addChild, List.append_assoc]
      refine .node hkey hval hcomments fun d hd => ?_
      rcases List.mem_append.mp hd with hd | hd
      · exact hentries d hd
      · rw [List.mem_singleton.mp hd]
        exact hc

/-! ## What a line does -/

theorem cString_eq_self {s : Str} (h : ∀ c ∈ s, c ≠ 0) : cString s = s := by
  rw [cString, List.takeWhile_eq_self_iff]
  intro c hc
  simpa using h c hc

/-- A line with its newline is the buffer without it. -/
theorem readLine_append {s : Str} (h : ∀ c ∈ s, InLine c) (st : Loading) :
    readLine st (s ++ [LF]) = readBuffer st s := by
  have hline : cString (s ++ [LF]) = s ++ [LF] := by
    refine cString_eq_self fun c hc => ?_
    rcases List.mem_append.mp hc with hc | hc
    · exact (h c hc).1
    · rw [List.mem_singleton.mp hc]
      decide
  rw [readLine, hline]
  cases s with
  | nil => rfl
  | cons c s =>
      show readBuffer st ((c :: s) ++ [LF]).dropLast = _
      rw [List.dropLast_concat]

/-- The tabs in front of a line. -/
theorem takeWhile_tabs (depth : Nat) {s : Str} (hs : s.head? ≠ some TAB) :
    (List.replicate depth TAB ++ s).takeWhile (· = TAB) = List.replicate depth TAB := by
  rw [List.takeWhile_append_of_pos fun c hc => decide_eq_true (List.eq_of_mem_replicate hc)]
  cases s with
  | nil => rw [List.takeWhile_nil, List.append_nil]
  | cons c s =>
      have hc : c ≠ TAB := fun h => hs (congrArg some h)
      rw [List.takeWhile_cons_of_neg (by simpa using hc), List.append_nil]

theorem inLine_tabs {depth : Nat} {s : Str} (hs : ∀ c ∈ s, InLine c) :
    ∀ c ∈ List.replicate depth TAB ++ s, InLine c := by
  intro c hc
  rcases List.mem_append.mp hc with hc | hc
  · rw [List.eq_of_mem_replicate hc]
    exact ⟨by decide, by decide⟩
  · exact hs c hc

theorem inLine_comment {val : Str} (h : CleanComment val) (depth : Nat) :
    ∀ c ∈ List.replicate depth TAB ++ HASH :: val, InLine c := by
  refine inLine_tabs fun c hc => ?_
  rcases List.mem_cons.mp hc with rfl | hc
  · exact ⟨by decide, by decide⟩
  · exact h c hc

theorem inLine_entry {key val : Str} (hkey : CleanKey key) (hval : CleanVal val) (depth : Nat) :
    ∀ c ∈ List.replicate depth TAB ++ (key ++ COLON :: SPACE :: val), InLine c := by
  refine inLine_tabs fun c hc => ?_
  rcases List.mem_append.mp hc with hc | hc
  · exact hkey.inLine c hc
  · rcases List.mem_cons.mp hc with rfl | hc
    · exact ⟨by decide, by decide⟩
    · rcases List.mem_cons.mp hc with rfl | hc
      · exact ⟨by decide, by decide⟩
      · exact hval.inLine c hc

theorem readLine_comment {val : Str} (h : CleanComment val) (depth : Nat) (st : Loading) :
    readLine st (commentLine depth val) =
      .ok { st with cursor := st.cursor.addComment val } := by
  have hnot : ¬ IsEmptyStr (List.replicate depth TAB ++ HASH :: val) := fun hempty =>
    absurd (hempty HASH (List.mem_append_right _ List.mem_cons_self)) (by decide)
  have htabs := @takeWhile_tabs depth (HASH :: val) (show some HASH ≠ some TAB by decide)
  rw [commentLine, List.append_assoc, List.cons_append, ← List.cons_append, ← List.append_assoc,
    readLine_append (inLine_comment h depth), readBuffer, if_neg hnot]
  simp only [htabs, List.length_replicate, List.drop_left']
  exact if_pos rfl

/-- What comes behind the tabs of an entry. -/
theorem head?_entry {key : Str} (h : CleanKey key) (rest : Str) :
    ∀ c ∈ (key ++ COLON :: rest).head?, ¬ IsSpace c ∧ c ≠ HASH := by
  intro c hc
  cases key with
  | nil =>
      cases hc
      exact ⟨by decide, by decide⟩
  | cons d key =>
      cases hc
      exact ⟨h.trimmed.head c rfl, fun heq => h.hash (congrArg some heq)⟩

/-- The cursor where the next line with this indentation is a child. -/
def Loading.parentAt (st : Loading) (depth : Nat) : Cursor :=
  Cursor.up^[st.last_indent + 1 - depth] st.cursor

theorem readLine_entry {key val : Str} (hkey : CleanKey key) (hval : CleanVal val) {depth : Nat}
    {st : Loading} (hdepth : depth ≤ st.last_indent + 1) :
    readLine st (entryLine depth key val) = .ok ⟨(st.parentAt depth).addEntry key val, depth⟩ := by
  have hhead := head?_entry hkey (SPACE :: val)
  have hnot : ¬ IsEmptyStr (List.replicate depth TAB ++ (key ++ COLON :: SPACE :: val)) :=
    fun hempty => absurd (hempty COLON (by simp)) (by decide)
  have htabs : (List.replicate depth TAB ++ (key ++ COLON :: SPACE :: val)).takeWhile (· = TAB) =
      List.replicate depth TAB :=
    takeWhile_tabs depth fun h => (hhead TAB h).1 (by decide)
  have hname : (key ++ COLON :: SPACE :: val).takeWhile (fun c => ¬ IsKvSeparator c) = key := by
    rw [List.takeWhile_append_of_pos fun c hc => decide_eq_true (hkey.separator c hc),
      List.takeWhile_cons_of_neg (by decide), List.append_nil]
  have hrest : (key ++ COLON :: SPACE :: val).drop (key.length + 1) = SPACE :: val := by
    rw [List.drop_length_add_append]
    rfl
  have hlonger : ¬ (key ++ COLON :: SPACE :: val).length ≤ key.length := by
    rw [List.length_append, List.length_cons]
    omega
  have hhash : (key ++ COLON :: SPACE :: val).head? ≠ some HASH := fun h => (hhead HASH h).2 rfl
  have hspace : ¬ ∃ c ∈ (key ++ COLON :: SPACE :: val).head?, IsSpace c := by
    rintro ⟨c, hc, hs⟩
    exact (hhead c hc).1 hs
  rw [entryLine, readLine_append (inLine_entry hkey hval depth), readBuffer, if_neg hnot]
  simp only [htabs, List.length_replicate, List.drop_left', hname, hrest, hkey.trimmed.trim,
    hval.trimmed.trim_cons]
  rw [if_neg hhash, if_neg (by omega), if_neg hspace, if_neg hlonger]
  rfl

/-! ## What is written is read back -/

namespace Cursor

@[simp] theorem root_up (c : Cursor) : c.up.root = c.root := by
  obtain ⟨cfg, above⟩ := c
  cases above with
  | nil => rfl
  | cons parent above => rfl

theorem root_iterate (c : Cursor) (n : Nat) : (up^[n] c).root = c.root := by
  induction n generalizing c with
  | zero => rfl
  | succ n ih => rw [Function.iterate_succ_apply, ih, root_up]

/-- More children of `cfg`. -/
def addChildren (c : Cursor) (children : List Config) : Cursor :=
  ⟨.node c.cfg.key c.cfg.val (c.cfg.children ++ children), c.above⟩

@[simp] theorem addChildren_nil (c : Cursor) : c.addChildren [] = c := by
  obtain ⟨⟨key, val, children⟩, above⟩ := c
  rw [addChildren, List.append_nil]
  rfl

@[simp] theorem addChildren_append (c : Cursor) (xs ys : List Config) :
    c.addChildren (xs ++ ys) = (c.addChildren xs).addChildren ys := by
  rw [addChildren, addChildren, ← List.append_assoc]
  rfl

theorem addComment_eq (c : Cursor) (val : Str) :
    c.addComment val = c.addChildren [comment val] := by
  obtain ⟨⟨key, val', children⟩, above⟩ := c
  rfl

end Cursor

theorem foldlM_cons {st st' : Loading} {line : Str} (h : readLine st line = .ok st')
    (lines : List Str) : (line :: lines).foldlM readLine st = lines.foldlM readLine st' := by
  rw [List.foldlM_cons, h]
  rfl

theorem foldlM_append {st st' : Loading} {lines : List Str}
    (h : lines.foldlM readLine st = .ok st') (lines' : List Str) :
    (lines ++ lines').foldlM readLine st = lines'.foldlM readLine st' := by
  rw [List.foldlM_append, h]
  rfl

/-- The children are read at the node that the cursor is at for this indentation. -/
def ReadsAs (lines : List Str) (depth : Nat) (children : List Config) : Prop :=
  ∀ st : Loading, depth ≤ st.last_indent + 1 →
    ∃ st', lines.foldlM readLine st = .ok st' ∧ depth ≤ st'.last_indent + 1 ∧
      st'.parentAt depth = (st.parentAt depth).addChildren children

theorem ReadsAs.append {lines lines' : List Str} {depth : Nat} {xs ys : List Config}
    (h : ReadsAs lines depth xs) (h' : ReadsAs lines' depth ys) :
    ReadsAs (lines ++ lines') depth (xs ++ ys) := by
  intro st hdepth
  obtain ⟨st₁, hlines, hdepth₁, hparent₁⟩ := h st hdepth
  obtain ⟨st', hlines', hdepth', hparent'⟩ := h' st₁ hdepth₁
  refine ⟨st', (foldlM_append hlines lines').trans hlines', hdepth', ?_⟩
  rw [hparent', hparent₁, Cursor.addChildren_append]

theorem readsAs_entries {entries : List Config} {depth : Nat}
    (h : ∀ c ∈ entries, ReadsAs (saveChild depth c) depth [c]) :
    ReadsAs (entries.flatMap (saveChild depth)) depth entries := by
  induction entries with
  | nil => exact fun st hdepth => ⟨st, rfl, hdepth, (Cursor.addChildren_nil _).symm⟩
  | cons c entries ih =>
      exact (h c List.mem_cons_self).append (ih fun d hd => h d (List.mem_cons_of_mem c hd))

theorem saveChild_comment (depth : Nat) (val : Str) :
    saveChild depth (comment val) = [commentLine depth val] := rfl

/-- The comments are read at the node that was read last. -/
theorem read_comments {comments : List Str} (h : ∀ v ∈ comments, CleanComment v) (depth : Nat)
    (st : Loading) :
    ((comments.map comment).flatMap (saveChild depth)).foldlM readLine st =
      .ok { st with cursor := st.cursor.addChildren (comments.map comment) } := by
  induction comments generalizing st with
  | nil =>
      rw [List.map_nil, Cursor.addChildren_nil]
      rfl
  | cons v comments ih =>
      have hline := readLine_comment (h v List.mem_cons_self) depth st
      have hrest := ih (fun w hw => h w (List.mem_cons_of_mem v hw))
        { st with cursor := st.cursor.addComment v }
      rw [List.map_cons, List.flatMap_cons, saveChild_comment, List.singleton_append,
        foldlM_cons hline, hrest, Cursor.addComment_eq, ← Cursor.addChildren_append,
        List.singleton_append]

/-- A tidy node is read as it was written. -/
theorem Tidy.readsAs {c : Config} (h : Tidy c) :
    ∀ depth, ReadsAs (saveChild depth c) depth [c] := by
  induction h with
  | @node key val comments entries hkey hval hcomments _ ih =>
      intro depth st hdepth
      have hline := readLine_entry hkey hval hdepth
      have hcomm := read_comments hcomments (depth + 1)
        ⟨(st.parentAt depth).addEntry key val, depth⟩
      obtain ⟨st', hentries, hdepth', hparent⟩ :=
        readsAs_entries (fun c hc => ih c hc (depth + 1))
          ⟨((st.parentAt depth).addEntry key val).addChildren (comments.map comment), depth⟩
          (Nat.le_refl _)
      have hup : st'.parentAt depth = (st'.parentAt (depth + 1)).up := by
        have hsucc : st'.last_indent + 1 - depth = (st'.last_indent + 1 - (depth + 1)) + 1 := by
          omega
        rw [Loading.parentAt, hsucc, Function.iterate_succ_apply']
        rfl
      refine ⟨st', ?_, by omega, ?_⟩
      · rw [saveChild, if_neg hkey.hash, saveChildren_eq, List.flatMap_append, foldlM_cons hline,
          foldlM_append hcomm]
        exact hentries
      · have hhere : (⟨((st.parentAt depth).addEntry key val).addChildren (comments.map comment),
            depth⟩ : Loading).parentAt (depth + 1) =
            ((st.parentAt depth).addEntry key val).addChildren (comments.map comment) := by
          rw [Loading.parentAt, Nat.sub_self]
          rfl
        rw [hup, hparent, hhere, ← Cursor.addChildren_append]
        rcases st.parentAt depth with ⟨⟨key', val', children⟩, above⟩
        rfl

/-- The lines of a tree fit into the buffer. -/
def Short (conf : Config) : Prop := ∀ line ∈ saveLines conf, line.length ≤ CONFIG_MAX_LINE - 1

/-- A newline at the end of a line, and no other. -/
def IsLine (line : Str) : Prop := ∃ s, line = s ++ [LF] ∧ LF ∉ s

theorem isLine_append {s : Str} (h : ∀ c ∈ s, InLine c) : IsLine (s ++ [LF]) :=
  ⟨s, rfl, fun hmem => (h LF hmem).2 rfl⟩

/-- Below a tidy node there are lines only. -/
theorem Tidy.isLine {c : Config} (h : Tidy c) :
    ∀ depth, ∀ line ∈ saveChildren depth c.children, IsLine line := by
  induction h with
  | @node key val comments entries _ _ hcomments hentries ih =>
      intro depth line hline
      rw [Config.children, saveChildren_eq, List.flatMap_append, List.mem_append,
        List.mem_flatMap, List.mem_flatMap] at hline
      rcases hline with ⟨c, hc, hline⟩ | ⟨c, hc, hline⟩
      · obtain ⟨v, hv, rfl⟩ := List.mem_map.mp hc
        rw [saveChild_comment, List.mem_singleton] at hline
        rw [hline]
        exact isLine_append (inLine_comment (hcomments v hv) depth)
      · have hrest := ih c hc (depth + 1)
        have hkey := (hentries c hc).cleanKey
        have hval := (hentries c hc).cleanVal
        obtain ⟨key', val', children⟩ := c
        have hhash : key'.head? ≠ some HASH := hkey.hash
        rw [saveChild, if_neg hhash] at hline
        rcases List.mem_cons.mp hline with rfl | hline
        · exact isLine_append (inLine_entry hkey hval depth)
        · exact hrest line hline

/-- What is written of a tidy tree is read back. -/
theorem load_save {children : List Config} (h : Tidy (node ROOT [] children))
    (hshort : Short (node ROOT [] children)) :
    load (save (node ROOT [] children)) = .ok (node ROOT [] children) := by
  have hlines : fgetsLines (save (node ROOT [] children)) = saveLines (node ROOT [] children) :=
    fgetsLines_flatten fun line hline => ⟨h.isLine 0 line hline, hshort line hline⟩
  rw [load, hlines, saveLines, Config.children]
  cases h with
  | @node _ _ comments entries _ _ hcomments hentries =>
      have hcomm := read_comments hcomments 0 Loading.start
      obtain ⟨st', hread, -, hparent⟩ := readsAs_entries (fun c hc => (hentries c hc).readsAs 0)
        { Loading.start with cursor := Loading.start.cursor.addChildren (comments.map comment) }
        (Nat.zero_le _)
      rw [saveChildren_eq, List.flatMap_append, foldlM_append hcomm, hread]
      refine congrArg Except.ok ?_
      have hroot := Cursor.root_iterate st'.cursor (st'.last_indent + 1 - 0)
      exact hroot.symm.trans (congrArg Cursor.root hparent)

/-! ## What is read is tidy -/

theorem mem_of_mem_trim {s : Str} {c : Byte} (h : c ∈ trim s) : c ∈ s :=
  (List.dropWhile_suffix _).subset ((trim_isPrefix s).subset h)

theorem Cursor.root_congr {cfg cfg' : Config} (hkey : cfg.key = cfg'.key)
    (hval : cfg.val = cfg'.val) (above : List Config) :
    (Cursor.root ⟨cfg, above⟩).key = (Cursor.root ⟨cfg', above⟩).key ∧
      (Cursor.root ⟨cfg, above⟩).val = (Cursor.root ⟨cfg', above⟩).val := by
  induction above generalizing cfg cfg' with
  | nil => exact ⟨hkey, hval⟩
  | cons parent above ih =>
      obtain ⟨key, val, children⟩ := parent
      exact ih rfl rfl

/-- The node that was read last has comments only, and those above it are tidy. -/
structure Loading.Sound (st : Loading) : Prop where
  cfg : ∃ (key val : Str) (comments : List Str),
    st.cursor.cfg = node key val (comments.map comment) ∧
    CleanKey key ∧ CleanVal val ∧ ∀ v ∈ comments, CleanComment v
  above : ∀ p ∈ st.cursor.above, Tidy p
  root : st.cursor.root.key = ROOT ∧ st.cursor.root.val = []

/-- The cursor between two lines. -/
structure Cursor.AllTidy (c : Cursor) : Prop where
  cfg : Tidy c.cfg
  above : ∀ p ∈ c.above, Tidy p

namespace Cursor.AllTidy

variable {c : Cursor}

theorem up (h : c.AllTidy) : c.up.AllTidy := by
  obtain ⟨cfg, above⟩ := c
  cases above with
  | nil => exact h
  | cons parent above =>
      exact ⟨(h.above parent List.mem_cons_self).addChild h.cfg,
        fun p hp => h.above p (List.mem_cons_of_mem parent hp)⟩

theorem iterate (h : c.AllTidy) (n : Nat) : (Cursor.up^[n] c).AllTidy := by
  induction n generalizing c with
  | zero => exact h
  | succ n ih => exact ih h.up

theorem root (h : c.AllTidy) : Tidy c.root := by
  obtain ⟨cfg, above⟩ := c
  induction above generalizing cfg with
  | nil => exact h.cfg
  | cons parent above ih => exact ih _ h.up

end Cursor.AllTidy

namespace Loading.Sound

variable {st st' : Loading}

theorem allTidy (h : st.Sound) : st.cursor.AllTidy := by
  obtain ⟨key, val, comments, hcfg, hkey, hval, hcomments⟩ := h.cfg
  refine ⟨?_, h.above⟩
  rw [hcfg, ← List.append_nil (comments.map comment)]
  exact .node hkey hval hcomments fun c hc => by cases hc

theorem addComment (h : st.Sound) {val : Str} (hval : CleanComment val) :
    Loading.Sound { st with cursor := st.cursor.addComment val } := by
  obtain ⟨key, val', comments, hcfg, hkey, hval', hcomments⟩ := h.cfg
  refine ⟨⟨key, val', comments ++ [val], ?_, hkey, hval', fun v hv => ?_⟩, h.above, ?_⟩
  · show st.cursor.cfg.addChild (comment val) = _
    rw [hcfg, Config.addChild, List.map_append]
    rfl
  · rcases List.mem_append.mp hv with hv | hv
    · exact hcomments v hv
    · rw [List.mem_singleton.mp hv]
      exact hval
  · have hroot := h.root
    obtain ⟨⟨cfg, above⟩, last_indent⟩ := st
    obtain ⟨key, val'', children⟩ := cfg
    have hsame := @Cursor.root_congr ((node key val'' children).addChild (comment val))
      (node key val'' children) rfl rfl above
    exact ⟨hsame.1.trans hroot.1, hsame.2.trans hroot.2⟩

theorem addEntry (h : st.Sound) {key val : Str} (hkey : CleanKey key) (hval : CleanVal val)
    (n indent : Nat) :
    Loading.Sound ⟨(Cursor.up^[n] st.cursor).addEntry key val, indent⟩ := by
  have htidy := h.allTidy.iterate n
  have hroot := h.root
  rw [← Cursor.root_iterate st.cursor n] at hroot
  refine ⟨⟨key, val, [], rfl, hkey, hval, fun v hv => by cases hv⟩, fun p hp => ?_, ?_⟩
  · rcases List.mem_cons.mp hp with rfl | hp
    · exact htidy.cfg
    · exact htidy.above p hp
  · generalize Cursor.up^[n] st.cursor = cursor at hroot ⊢
    obtain ⟨cfg, above⟩ := cursor
    obtain ⟨key', val', children⟩ := cfg
    have hsame := @Cursor.root_congr ((node key' val' children).addChild (node key val []))
      (node key' val' children) rfl rfl above
    exact ⟨hsame.1.trans hroot.1, hsame.2.trans hroot.2⟩

end Loading.Sound

theorem cleanKey_root : CleanKey ROOT := by decide

theorem sound_start : Loading.start.Sound where
  cfg := ⟨ROOT, [], [], rfl, cleanKey_root, cleanVal_nil, fun v hv => by cases hv⟩
  above := fun p hp => by cases hp
  root := ⟨rfl, rfl⟩

/-- A name that does not begin with white space or a `#`. -/
theorem cleanKey_trim {key : Str} (hin : ∀ c ∈ key, InLine c) (hhash : key.head? ≠ some HASH)
    (hspace : ¬ ∃ c ∈ key.head?, IsSpace c) :
    CleanKey (trim (key.takeWhile fun c => ¬ IsKvSeparator c)) := by
  have hinit : (key.takeWhile fun c => ¬ IsKvSeparator c) <+: key := List.takeWhile_prefix _
  have hhead : ∀ c ∈ (key.takeWhile fun c => ¬ IsKvSeparator c).head?, ¬ IsSpace c :=
    fun c hc hs => hspace ⟨c, head?_of_isPrefix hinit hc, hs⟩
  refine ⟨fun c hc => hin c (hinit.subset (mem_of_mem_trim hc)), fun c hc => ?_, fun h => ?_,
    trimmed_trim _⟩
  · simpa using List.mem_takeWhile_imp (mem_of_mem_trim hc)
  · have hltrim := head?_of_isPrefix (trim_isPrefix _) (Option.mem_def.mpr h)
    rw [ltrim_eq_self hhead] at hltrim
    exact hhash (head?_of_isPrefix hinit hltrim)

/-- A line keeps the trees tidy. -/
theorem Loading.Sound.readBuffer {st st' : Loading} {buf : Str} (h : st.Sound)
    (hin : ∀ c ∈ buf, InLine c) (hread : readBuffer st buf = .ok st') : st'.Sound := by
  unfold Util.readBuffer at hread
  split at hread
  · cases hread
    exact h
  · dsimp only at hread
    have hkey : ∀ c ∈ buf.drop (buf.takeWhile (· = TAB)).length, InLine c :=
      fun c hc => hin c (List.mem_of_mem_drop hc)
    generalize buf.drop (buf.takeWhile (· = TAB)).length = key at hkey hread
    split at hread
    · cases hread
      exact h.addComment fun c hc => hkey c (List.mem_of_mem_tail hc)
    · next hhash =>
        split at hread
        · cases hread
        · split at hread
          · cases hread
          · next hspace =>
              split at hread
              · cases hread
              · cases hread
                exact h.addEntry (cleanKey_trim hkey hhash hspace)
                  ⟨fun c hc => hkey c (List.mem_of_mem_drop (mem_of_mem_trim hc)),
                    trimmed_trim _⟩ _ _

theorem mem_dropLast_of_isPrefix {s t : Str} (h : s <+: t) {c : Byte} (hc : c ∈ s.dropLast) :
    c ∈ t.dropLast := by
  obtain ⟨u, rfl⟩ := h
  cases u with
  | nil =>
      rw [List.append_nil]
      exact hc
  | cons d u =>
      rw [List.dropLast_append_of_ne_nil (List.cons_ne_nil d u)]
      exact List.mem_append_left _ (List.mem_of_mem_dropLast hc)

theorem inLine_dropLast {line : Str} (hlf : LF ∉ line.dropLast) :
    ∀ c ∈ (cString line).dropLast, InLine c := by
  intro c hc
  have hinit : cString line <+: line := List.takeWhile_prefix _
  have hzero : c ∈ cString line := List.mem_of_mem_dropLast hc
  refine ⟨by simpa using List.mem_takeWhile_imp hzero, ?_⟩
  rintro rfl
  exact hlf (mem_dropLast_of_isPrefix hinit hc)

theorem Loading.Sound.readLine {st st' : Loading} {line : Str} (h : st.Sound)
    (hlf : LF ∉ line.dropLast) (hread : readLine st line = .ok st') : st'.Sound := by
  have hin := inLine_dropLast hlf
  unfold Util.readLine at hread
  split at hread
  · cases hread
  · next c s hline =>
      rw [hline] at hin
      exact h.readBuffer hin hread

theorem Loading.Sound.foldlM {lines : List Str} {st st' : Loading} (h : st.Sound)
    (hlf : ∀ line ∈ lines, LF ∉ line.dropLast) (hread : lines.foldlM Util.readLine st = .ok st') :
    st'.Sound := by
  induction lines generalizing st with
  | nil =>
      cases hread
      exact h
  | cons line lines ih =>
      rw [List.foldlM_cons] at hread
      cases hline : Util.readLine st line with
      | error e =>
          rw [hline] at hread
          cases hread
      | ok st₁ =>
          rw [hline] at hread
          exact ih (h.readLine (hlf line List.mem_cons_self) hline)
            (fun l hl => hlf l (List.mem_cons_of_mem line hl)) hread

/-- What `load` returns is tidy. -/
theorem tidy_of_load {text : Str} {conf : Config} (h : load text = .ok conf) :
    Tidy conf ∧ conf.key = ROOT ∧ conf.val = [] := by
  rw [load] at h
  cases hread : (fgetsLines text).foldlM readLine Loading.start with
  | error e =>
      rw [hread] at h
      cases h
  | ok st =>
      rw [hread] at h
      cases h
      have hsound := sound_start.foldlM lf_not_mem_fgetsLoop hread
      exact ⟨hsound.allTidy.root, hsound.root⟩

/-! ## Saving and loading -/

/-- Of the trees whose lines fit into the buffer, exactly the tidy ones are read back.  Whatever
the text, what `load` returns is a tidy tree with a root of this kind. -/
theorem load_save_iff :
    (∀ children, Short (node ROOT [] children) →
      (load (save (node ROOT [] children)) = .ok (node ROOT [] children) ↔
        Tidy (node ROOT [] children))) ∧
      ∀ text conf, load text = .ok conf → Tidy conf ∧ conf.key = ROOT ∧ conf.val = [] :=
  ⟨fun _ hshort => ⟨fun h => (tidy_of_load h).1, fun h => load_save h hshort⟩,
    fun _ _ h => tidy_of_load h⟩

/-- A comment, `a: 1` and `b: 2` below it are read back.  With the comment behind them they are
not. -/
theorem load_save_iff_nested :
    load (save (node ROOT [] [comment [104], node [97] [49] [node [98] [50] []]])) =
        .ok (node ROOT [] [comment [104], node [97] [49] [node [98] [50] []]]) ∧
      load (save (node ROOT [] [node [97] [49] [node [98] [50] []], comment [104]])) ≠
        .ok (node ROOT [] [node [97] [49] [node [98] [50] []], comment [104]]) := by
  have hb : Tidy (node [98] [50] []) := tidy_leaf (by decide) (by decide)
  have ha : Tidy (node [97] [49] [node [98] [50] []]) :=
    @Tidy.node [97] [49] [] [_] (by decide) (by decide) (fun v hv => by cases hv)
      fun c hc => by rw [List.mem_singleton.mp hc]; exact hb
  have htidy : Tidy (node ROOT [] [comment [104], node [97] [49] [node [98] [50] []]]) :=
    @Tidy.node ROOT [] [[104]] [_] cleanKey_root cleanVal_nil
      (fun v hv => by rw [List.mem_singleton.mp hv]; decide)
      fun c hc => by rw [List.mem_singleton.mp hc]; exact ha
  refine ⟨(load_save_iff.1 _ (by unfold Short; decide)).mpr htidy, fun h => ?_⟩
  have hnot := (load_save_iff.1 _ (by unfold Short; decide)).mp h
  generalize hchildren : [node [97] [49] [node [98] [50] []], comment [104]] = children at hnot
  cases hnot with
  | @node _ _ comments entries _ _ _ hentries =>
      cases comments with
      | nil =>
          have hmem : comment [104] ∈ entries := by
            rw [List.map_nil, List.nil_append] at hchildren
            rw [← hchildren]
            exact List.mem_cons_of_mem _ List.mem_cons_self
          exact (hentries _ hmem).cleanKey.hash rfl
      | cons v comments =>
          have hkey := congrArg Config.key (List.cons.inj hchildren).1
          exact absurd hkey (show [97] ≠ [HASH] by decide)

section OnLast

variable {α : Type} {p : α → Bool} {g : α → α}

theorem onLast_append {l : List α} (hl : ∀ a ∈ l, p a = false) (l' : List α) :
    onLast p g (l ++ l') = (onLast p g l').map fun l'' => l ++ l'' := by
  induction l with
  | nil =>
      rw [List.nil_append]
      exact Option.map_id'.symm
  | cons a l ih =>
      have hrest := ih fun b hb => hl b (List.mem_cons_of_mem a hb)
      have ha : ¬ p a = true := by
        rw [hl a List.mem_cons_self]
        exact Bool.false_ne_true
      rw [List.cons_append, onLast, hrest]
      cases onLast p g l' with
      | none => exact if_neg ha
      | some l'' => rfl

theorem mem_onLast {l l' : List α} (h : onLast p g l = some l') {b : α} (hb : b ∈ l') :
    b ∈ l ∨ ∃ a ∈ l, p a = true ∧ b = g a := by
  induction l generalizing l' with
  | nil => cases h
  | cons a l ih =>
      rw [onLast] at h
      split at h
      · next l'' hrest =>
          cases h
          rcases List.mem_cons.mp hb with rfl | hb
          · exact .inl List.mem_cons_self
          · rcases ih hrest hb with hb | ⟨c, hc, hpc⟩
            · exact .inl (List.mem_cons_of_mem a hb)
            · exact .inr ⟨c, List.mem_cons_of_mem a hc, hpc⟩
      · split at h
        · next ha =>
            cases h
            rcases List.mem_cons.mp hb with rfl | hb
            · exact .inr ⟨a, List.mem_cons_self, ha, rfl⟩
            · exact .inl (List.mem_cons_of_mem a hb)
        · cases h

end OnLast

/-- A child that is not a comment is changed. -/
theorem Tidy.onChild {g : Config → Config} {f : Str} (hf : CleanKey f)
    (hg : ∀ c, Tidy c → Tidy (g c)) {conf : Config} (h : Tidy conf) : Tidy (conf.onChild f g) := by
  cases h with
  | @node key val comments entries hkey hval hcomments hentries =>
      have hnot : ∀ c ∈ comments.map comment, decide (c.key = f) = false := by
        intro c hc
        obtain ⟨v, -, rfl⟩ := List.mem_map.mp hc
        refine decide_eq_false fun heq => hf.hash ?_
        rw [← heq]
        rfl
      rw [Config.onChild, onLast_append hnot]
      cases hlast : onLast (fun c => decide (c.key = f)) g entries with
      | none =>
          rw [Option.map_none, Option.getD_none, List.append_assoc]
          refine .node hkey hval hcomments fun c hc => ?_
          rcases List.mem_append.mp hc with hc | hc
          · exact hentries c hc
          · rw [List.mem_singleton.mp hc]
            exact hg _ (tidy_leaf hf cleanVal_nil)
      | some entries' =>
          rw [Option.map_some, Option.getD_some]
          refine .node hkey hval hcomments fun c hc => ?_
          rcases mem_onLast hlast hc with hc | ⟨d, hd, -, rfl⟩
          · exact hentries c hc
          · exact hg d (hentries d hd)

theorem Tidy.put {val : Str} (hval : CleanVal val) {fs : List Str} (hfs : ∀ f ∈ fs, CleanKey f)
    {conf : Config} (h : Tidy conf) : Tidy (Config.put val fs conf) := by
  induction fs generalizing conf with
  | nil =>
      cases h with
      | node hkey _ hcomments hentries => exact .node hkey hval hcomments hentries
  | cons f fs ih =>
      exact h.onChild (hfs f List.mem_cons_self) fun c hc =>
        ih (fun f' hf' => hfs f' (List.mem_cons_of_mem f hf')) hc

/-- A call of `set` that the file has room for. -/
structure CleanCall (call : Str × Str) : Prop where
  fields : ∀ f ∈ Config.fields call.1, CleanKey f
  val : CleanVal (cString call.2)

/-- `set` does not touch the root. -/
theorem root_set (conf : Config) (key val : Str) :
    (conf.set key val).key = conf.key ∧ (conf.set key val).val = conf.val := by
  rw [Config.set_eq]
  refine ⟨Config.key_put _ _ conf, ?_⟩
  cases hfields : Config.fields key with
  | nil => exact absurd hfields (Config.fieldsFrom_ne_nil _ _)
  | cons f fs => exact Config.val_onChild f _ conf

/-- Calls of `set` keep a loaded tree as it is loaded. -/
theorem tidy_setAll {conf : Config} (h : Tidy conf ∧ conf.key = ROOT ∧ conf.val = [])
    {calls : List (Str × Str)} (hcalls : ∀ call ∈ calls, CleanCall call) :
    Tidy (conf.setAll calls) ∧ (conf.setAll calls).key = ROOT ∧ (conf.setAll calls).val = [] := by
  induction calls generalizing conf with
  | nil => exact h
  | cons call calls ih =>
      obtain ⟨htidy, hkey, hval⟩ := h
      have hcall := hcalls call List.mem_cons_self
      have hroot := root_set conf call.1 call.2
      refine ih ⟨?_, hroot.1.trans hkey, hroot.2.trans hval⟩ fun c hc =>
        hcalls c (List.mem_cons_of_mem call hc)
      show Tidy (conf.set call.1 call.2)
      rw [Config.set_eq]
      exact htidy.put hcall.val hcall.fields

/-- What was loaded and changed by `set` can be saved and loaded again: the same tree comes
back, and with it everything that `get_str` sees. -/
theorem load_save_setAll {text : Str} {conf : Config} (hload : load text = .ok conf)
    {calls : List (Str × Str)} (hcalls : ∀ call ∈ calls, CleanCall call)
    (hshort : Short (conf.setAll calls)) :
    load (save (conf.setAll calls)) = .ok (conf.setAll calls) := by
  have h := tidy_setAll (tidy_of_load hload) hcalls
  generalize conf.setAll calls = conf' at h hshort ⊢
  obtain ⟨key, val, children⟩ := conf'
  obtain ⟨htidy, hkey, hval⟩ := h
  cases hkey
  cases hval
  exact load_save htidy hshort

/-- `a: 1` is loaded, and `a.b` is set to `2`. -/
theorem load_save_setAll_nested : ∃ conf, load [97, 58, 32, 49, 10] = .ok conf ∧
    load (save (conf.setAll [([97, 46, 98], [50])])) = .ok (conf.setAll [([97, 46, 98], [50])]) ∧
    (conf.setAll [([97, 46, 98], [50])]).getStr [97, 47, 98] = [50] := by
  have hload : load [97, 58, 32, 49, 10] = .ok (node ROOT [] [node [97] [49] []]) := by rfl
  have hcalls : ∀ call ∈ [(([97, 46, 98], [50]) : Str × Str)], CleanCall call := by
    intro call hcall
    rw [List.mem_singleton.mp hcall]
    refine ⟨fun f hf => ?_, by decide⟩
    have hfields : f ∈ [[97], [98]] := hf
    rcases List.mem_pair.mp hfields with rfl | rfl <;> decide
  exact ⟨_, hload, load_save_setAll hload hcalls (by unfold Short; decide), by decide⟩

end KvServer.Util
