import KvServer.Util.Strings

/-!
# A configuration as a map

A configuration is a tree of keys with values.  `set` and `get` take a path, whose fields are
separated by dots or slashes.  `get` goes down from child to child and `set` does the same,
but it adds the children that are missing.

Of several children with one key the last one counts.  A child that `set` adds has the empty
value, which is also what `get_str` returns where there is nothing, so the children added on the
way are not seen.  What is seen of a tree is therefore a map from lists of fields to values
(`Config.view`), `set` updates it at one place (`getStr_set`), and after any number of calls
the last one for a path decides (`getStr_setAll`).
-/

namespace KvServer.Util

open Testclient

/-! ## The last element that is looked for -/

section Last

variable {α : Type} {p q : α → Bool} {g : α → α} {l : List α}

/-- The last element with `p`. -/
def findLast (p : α → Bool) : List α → Option α
  | [] => none
  | a :: l =>
      match findLast p l with
      | some b => some b
      | none => if p a then some a else none

/-- The list with `g` at its last element with `p`. -/
def onLast (p : α → Bool) (g : α → α) : List α → Option (List α)
  | [] => none
  | a :: l =>
      match onLast p g l with
      | some l' => some (a :: l')
      | none => if p a then some (g a :: l) else none

theorem findLast_of_onLast_none (h : onLast p g l = none) : findLast p l = none := by
  induction l with
  | nil => rfl
  | cons a l ih =>
      rw [onLast] at h
      split at h
      · cases h
      · next hrest =>
          split at h
          · cases h
          · next ha => rw [findLast, ih hrest, if_neg ha]

/-- The element that is changed is the one that is found. -/
theorem findLast_onLast (hg : ∀ a, p a → p (g a)) {l' : List α} (h : onLast p g l = some l') :
    ∃ a, findLast p l = some a ∧ findLast p l' = some (g a) := by
  induction l generalizing l' with
  | nil => cases h
  | cons a l ih =>
      rw [onLast] at h
      split at h
      · next l'' hrest =>
          cases h
          obtain ⟨b, hb, hb'⟩ := ih hrest
          exact ⟨b, by rw [findLast, hb], by rw [findLast, hb']⟩
      · next hrest =>
          have hnone := findLast_of_onLast_none hrest
          split at h
          · next ha =>
              cases h
              exact ⟨a, by rw [findLast, hnone, if_pos ha],
                by rw [findLast, hnone, if_pos (hg a ha)]⟩
          · cases h

/-- Another element is found as before. -/
theorem findLast_onLast_of_ne (hg : ∀ a, p a → q a = false ∧ q (g a) = false) {l' : List α}
    (h : onLast p g l = some l') : findLast q l' = findLast q l := by
  induction l generalizing l' with
  | nil => cases h
  | cons a l ih =>
      rw [onLast] at h
      split at h
      · next l'' hrest =>
          cases h
          rw [findLast, findLast, ih hrest]
      · split at h
        · next ha =>
            cases h
            obtain ⟨hq, hq'⟩ := hg a ha
            rw [findLast, findLast, hq, hq']
            cases findLast q l with
            | some b => rfl
            | none => rfl
        · cases h

theorem findLast_append_singleton (l : List α) (a : α) :
    findLast p (l ++ [a]) = if p a then some a else findLast p l := by
  induction l with
  | nil => rfl
  | cons b l ih =>
      rw [List.cons_append, findLast, ih]
      by_cases ha : p a
      · rw [if_pos ha, if_pos ha]
      · rw [if_neg ha, if_neg ha, findLast]

end Last

/-! ## Trees and paths -/

/-- `Config`.  The depth of a node and its parent are those in the tree. -/
inductive Config where
  | node (key val : Str) (children : List Config)

/-- What is seen of a string through a `const char *`. -/
def cString (s : Str) : Str := s.takeWhile (· ≠ 0)

/-- `CONFIG_MAX_LINE` -/
def CONFIG_MAX_LINE : Nat := 4096

/-- `'.'` and `'/'` -/
def IsFieldSeparator (c : Byte) : Prop := c = 46 ∨ c = 47

instance (c : Byte) : Decidable (IsFieldSeparator c) := inferInstanceAs (Decidable (_ ∨ _))

/-- `path`, the copy that `snprintf` makes of a key. -/
def path (key : Str) : Str := (cString key).take (CONFIG_MAX_LINE - 1)

namespace Config

def key : Config → Str
  | node key _ _ => key

def val : Config → Str
  | node _ val _ => val

def children : Config → List Config
  | node _ _ children => children

/-- A child behind the others. -/
def addChild : Config → Config → Config
  | node key val children, c => node key val (children ++ [c])

/-- `find_child`, from the last child on. -/
def findChild (conf : Config) (key : Str) : Option Config :=
  findLast (fun c => c.key = key) conf.children

/-- The child that is found, or added with the empty value, is changed by `g`. -/
def onChild (f : Str) (g : Config → Config) : Config → Config
  | node key val children =>
      node key val ((onLast (fun c => c.key = f) g children).getD
        (children ++ [g (node f [] [])]))

/-- `c->val = val` -/
def setVal (val : Str) : Config → Config
  | node key _ children => node key val children

/-- The loop of `get`.  `f` is the field so far. -/
def getLoop (conf : Config) (f : Str) : Str → Option Config
  | [] => conf.findChild f
  | c :: fs =>
      if IsFieldSeparator c then (conf.findChild f).bind fun conf => getLoop conf [] fs
      else getLoop conf (f ++ [c]) fs

def get (conf : Config) (key : Str) : Option Config := conf.getLoop [] (path key)

/-- The loop of `build_key_path`, with what `set` does to the node that it ends at. -/
def setLoop (val : Str) (f : Str) : Str → Config → Config
  | [] => onChild f (setVal val)
  | c :: fs =>
      if IsFieldSeparator c then onChild f (setLoop val [] fs)
      else setLoop val (f ++ [c]) fs

def set (conf : Config) (key val : Str) : Config := setLoop (cString val) [] (path key) conf

def getStr (conf : Config) (key : Str) : Str := ((conf.get key).map Config.val).getD []

def getNum (conf : Config) (key : Str) : Int := ((conf.get key).map fun c => atoi c.val).getD 0

def getInt64 (conf : Config) (key : Str) : Int :=
  ((conf.get key).map fun c => (strToInt64 c.val).1).getD 0

/-! ## Fields -/

/-- The fields of a path, when `f` is the first one so far. -/
def fieldsFrom (f : Str) : Str → List Str
  | [] => [f]
  | c :: fs => if IsFieldSeparator c then f :: fieldsFrom [] fs else fieldsFrom (f ++ [c]) fs

/-- The fields of a key. -/
def fields (key : Str) : List Str := fieldsFrom [] (path key)

theorem fieldsFrom_ne_nil (f s : Str) : fieldsFrom f s ≠ [] := by
  induction s generalizing f with
  | nil => exact List.cons_ne_nil f []
  | cons c s ih =>
      rw [fieldsFrom]
      split
      · exact List.cons_ne_nil f _
      · exact ih (f ++ [c])

/-- The node at a list of fields. -/
def lookup : Config → List Str → Option Config
  | conf, [] => some conf
  | conf, f :: fs => (conf.findChild f).bind fun c => lookup c fs

/-- A value is written at a list of fields. -/
def put (val : Str) : List Str → Config → Config
  | [] => setVal val
  | f :: fs => onChild f (put val fs)

theorem lookup_singleton (conf : Config) (f : Str) : conf.lookup [f] = conf.findChild f := by
  rw [lookup]
  cases conf.findChild f with
  | none => rfl
  | some c => rfl

theorem getLoop_eq (conf : Config) (f s : Str) :
    conf.getLoop f s = conf.lookup (fieldsFrom f s) := by
  induction s generalizing conf f with
  | nil => exact (lookup_singleton conf f).symm
  | cons c s ih =>
      rw [getLoop, fieldsFrom]
      split
      · rw [lookup]
        exact congrArg _ (funext fun conf => ih conf [])
      · exact ih conf (f ++ [c])

theorem setLoop_eq (val f s : Str) : setLoop val f s = put val (fieldsFrom f s) := by
  induction s generalizing f with
  | nil => rfl
  | cons c s ih =>
      rw [setLoop, fieldsFrom]
      split
      · rw [put, ih]
      · exact ih (f ++ [c])

theorem get_eq (conf : Config) (key : Str) : conf.get key = conf.lookup (fields key) :=
  getLoop_eq conf [] (path key)

theorem set_eq (conf : Config) (key val : Str) :
    conf.set key val = put (cString val) (fields key) conf :=
  congrFun (setLoop_eq (cString val) [] (path key)) conf

/-! ## The map -/

/-- What is seen at a list of fields. -/
def view (conf : Config) (fs : List Str) : Str := ((conf.lookup fs).map Config.val).getD []

theorem getStr_eq (conf : Config) (key : Str) : conf.getStr key = conf.view (fields key) := by
  rw [getStr, get_eq, view]

/-- The numbers are read from what is seen. -/
theorem getNum_eq (conf : Config) (key : Str) :
    conf.getNum key = atoi (conf.getStr key) ∧
      conf.getInt64 key = (strToInt64 (conf.getStr key)).1 := by
  rw [getNum, getInt64, getStr]
  cases conf.get key with
  | none => exact ⟨rfl, rfl⟩
  | some c => exact ⟨rfl, rfl⟩

theorem view_cons (conf : Config) (f : Str) (fs : List Str) :
    conf.view (f :: fs) = ((conf.findChild f).map fun c => c.view fs).getD [] := by
  rw [view, lookup]
  cases conf.findChild f with
  | none => rfl
  | some c => rfl

/-- Nothing is seen in a node that has just been added. -/
theorem view_new (f : Str) (fs : List Str) : (node f [] []).view fs = [] := by
  cases fs with
  | nil => rfl
  | cons f' fs => rfl

theorem key_put (val : Str) (fs : List Str) (conf : Config) : (put val fs conf).key = conf.key := by
  cases conf with
  | node key val' children =>
      cases fs with
      | nil => rfl
      | cons f fs => rfl

section OnChild

variable {g : Config → Config} {f : Str} (hg : ∀ c, (g c).key = c.key)
include hg

/-- The child that is changed is the one that is found, or a new one. -/
theorem findChild_onChild (conf : Config) :
    (conf.onChild f g).findChild f = some (g ((conf.findChild f).getD (node f [] []))) := by
  obtain ⟨key, val, children⟩ := conf
  rw [onChild, findChild, findChild]
  cases h : onLast (fun c => c.key = f) g children with
  | some children' =>
      have hkey : ∀ c : Config, decide (c.key = f) = true → decide ((g c).key = f) = true := by
        intro c hc
        rw [hg]
        exact hc
      obtain ⟨c, hc, hc'⟩ := findLast_onLast hkey h
      have hfound : findLast (fun c => c.key = f) (node key val children).children = some c := hc
      rw [hfound]
      exact hc'
  | none =>
      have hnone := findLast_of_onLast_none h
      have hfound : findLast (fun c => c.key = f) (node key val children).children = none := hnone
      have hnew : (g (node f [] [])).key = f := hg _
      rw [hfound]
      exact (findLast_append_singleton _ _).trans (if_pos (decide_eq_true hnew))

theorem findChild_onChild_of_ne {f' : Str} (hne : f' ≠ f) (conf : Config) :
    (conf.onChild f g).findChild f' = conf.findChild f' := by
  obtain ⟨key, val, children⟩ := conf
  have hother : ∀ c : Config, c.key = f → decide (c.key = f') = false := by
    intro c hc
    exact decide_eq_false fun h => hne (h.symm.trans hc)
  rw [onChild, findChild, findChild]
  cases h : onLast (fun c => c.key = f) g children with
  | some children' =>
      refine findLast_onLast_of_ne (fun c hc => ?_) h
      have hc' := of_decide_eq_true hc
      exact ⟨hother c hc', hother (g c) ((hg c).trans hc')⟩
  | none =>
      have hnew := hother (g (node f [] [])) (hg _)
      refine (findLast_append_singleton _ _).trans (if_neg ?_)
      rw [hnew]
      exact Bool.false_ne_true

end OnChild

theorem val_onChild (f : Str) (g : Config → Config) (conf : Config) :
    (conf.onChild f g).val = conf.val := by
  cases conf with
  | node key val children => rfl

/-- A value that is written is seen where it was written, and nothing else changes. -/
theorem view_put (val : Str) (fs : List Str) (conf : Config) (fs' : List Str) :
    (put val fs conf).view fs' = if fs' = fs then val else conf.view fs' := by
  induction fs generalizing conf fs' with
  | nil =>
      obtain ⟨key, val', children⟩ := conf
      cases fs' with
      | nil => rfl
      | cons f' fs' =>
          rw [if_neg (List.cons_ne_nil f' fs')]
          rfl
  | cons f fs ih =>
      cases fs' with
      | nil =>
          rw [if_neg (List.cons_ne_nil f fs).symm]
          exact val_onChild f _ conf
      | cons f' fs' =>
          rw [put, view_cons, view_cons]
          rcases Decidable.em (f' = f) with rfl | hne
          · rw [findChild_onChild (key_put val fs), Option.map_some, Option.getD_some, ih]
            simp only [List.cons.injEq, true_and]
            cases conf.findChild f' with
            | some c => rfl
            | none =>
                rw [Option.getD_none, view_new]
                rfl
          · rw [findChild_onChild_of_ne (key_put val fs) hne, if_neg]
            exact fun h => hne (List.cons.inj h).1

/-- `set` and `get_str`. -/
theorem getStr_set (conf : Config) (key val key' : Str) :
    (conf.set key val).getStr key' =
      if fields key' = fields key then cString val else conf.getStr key' := by
  rw [getStr_eq, set_eq, view_put, getStr_eq]

/-- Calls of `set`, one after the other. -/
def setAll (conf : Config) (calls : List (Str × Str)) : Config :=
  calls.foldl (fun conf call => conf.set call.1 call.2) conf

/-- After any calls of `set`, `get_str` returns the value of the last one whose key has the same
fields, and what it returned before if there is none.  The other ways to read a value
read the same string. -/
theorem getStr_setAll (conf : Config) (calls : List (Str × Str)) (key : Str) :
    (conf.setAll calls).getStr key =
        ((findLast (fun call => fields call.1 = fields key) calls).map fun call =>
          cString call.2).getD (conf.getStr key) ∧
      (conf.setAll calls).getNum key = atoi ((conf.setAll calls).getStr key) ∧
      (conf.setAll calls).getInt64 key = (strToInt64 ((conf.setAll calls).getStr key)).1 := by
  refine ⟨?_, getNum_eq _ key⟩
  induction calls generalizing conf with
  | nil => rfl
  | cons call calls ih =>
      have hrest := ih (conf.set call.1 call.2)
      rw [setAll, List.foldl_cons]
      refine hrest.trans ?_
      rw [findLast, getStr_set]
      cases findLast (fun call => decide (fields call.1 = fields key)) calls with
      | some found => rfl
      | none =>
          rcases Decidable.em (fields call.1 = fields key) with heq | hne
          · simp [heq]
          · have hne' : ¬ fields key = fields call.1 := fun h => hne h.symm
            simp [hne, hne']

/-- `a.b` and `a/b` are one path. -/
example : ((node [] [] []).set [97, 46, 98] [49]).getNum [97, 47, 98] = 1 := by decide

end Config

end KvServer.Util
