import Mathlib.Data.List.Induction
import KvServer.Base.Machine
import KvServer.Testclient.Lines

/-!
# The client on libev

Three watchers: `remote_w` for the connection, `file_watcher` for the file and `send_w`
for the socket.  `filein_cb` reads a line into a buffer, and `send_cb` sends the line
that is in the buffer whenever the socket can be written to.  It does not stop watching
for that when it has sent the line, and a read event starts the file watcher whether or
not the line was sent.  So lines are sent again, or are replaced before they are sent.

Each message is recorded with the number of its line.  `Holds` ties the buffer to the
file in every run, and the lines are sent in order exactly if each write event finds one
line more read than sent (`Holds.sendCbWrite`), which is a matter of the order of the
callbacks (`fresh_iff_inTurn`).
-/

namespace KvServer.Testclient.Evclient

/-! ## State and callbacks -/

/-- The events a watcher is registered for.  A stopped one has none. -/
structure Events where
  read : Bool
  write : Bool
deriving DecidableEq, Repr

/-- The globals.  `rest` is what `getline` has not read yet, `line` the buffer, and `sent`
the messages passed to `send`, each with the number of the line it was made of. -/
structure Client where
  file_watcher : Bool
  remote_w : Bool
  send_w : Events
  rest : List Str
  line : Option Str
  counter : Nat
  lines_written : Nat
  lines_read_from_file : Nat
  sent : List (Nat × SendMessage)
  exited : Bool

/-- Before the loop, with a file of these lines. -/
def Client.start (lines : List Str) : Client where
  file_watcher := false
  remote_w := true
  send_w := ⟨true, false⟩
  rest := lines
  line := none
  counter := 0
  lines_written := 0
  lines_read_from_file := 0
  sent := []
  exited := false

/-- `std::string(line)` of a C string. -/
def cString (line : Str) : Str := line.takeWhile fun c => c ≠ 0

/-- `remote_cb` -/
def remoteCb (s : Client) : Client := { s with file_watcher := true, remote_w := false }

/-- `filein_cb` -/
def fileinCb (s : Client) : Client :=
  match s.rest with
  | [] => { s with file_watcher := false, send_w := ⟨false, true⟩ }
  | line :: rest =>
      { s with
        rest := rest
        line := some line
        lines_read_from_file := s.lines_read_from_file + 1
        file_watcher := false
        send_w := ⟨true, true⟩ }

/-- `send_cb` for `EV_WRITE`.  `delivered` says that `send` does not return -1, and `behind`
is what `parseLine` reads behind the line. -/
def sendCbWrite (total : Nat) (behind : Nat → Byte) (delivered : Bool) (s : Client) : Client :=
  -- the branch for `lines_written >= total` does not return
  let s := if s.lines_written ≥ total then { s with send_w := ⟨true, false⟩ } else s
  match s.line.bind fun line => parseLine (cString line) behind with
  | none => { s with exited := true }
  | some msg =>
      let msg := if s.lines_written + 1 = total then { msg with keepalive := 0 } else msg
      let s := { s with
        sent := s.sent ++ [(s.lines_read_from_file, msg)]
        lines_written := s.lines_written + 1 }
      if delivered then
        { s with send_w := if s.lines_written % 995 = 0 then ⟨true, false⟩ else ⟨true, true⟩ }
      else { s with exited := true }

/-- `while (recv(...) == 50)` when this is so `messages` times: the counter, and whether it has
reached the total. -/
def recvLoop (total : Nat) : Nat → Nat → Nat × Bool
  | 0, counter => (counter, false)
  | messages + 1, counter =>
      if counter + 1 ≥ total then (counter + 1, true) else recvLoop total messages (counter + 1)

/-- `send_cb` for `EV_READ`. -/
def sendCbRead (total messages : Nat) (s : Client) : Client :=
  let (counter, done) := recvLoop total messages s.counter
  let s := { s with counter := counter }
  if done then { s with send_w := ⟨false, false⟩, remote_w := false, file_watcher := false }
  else if s.lines_read_from_file ≠ total then { s with file_watcher := true }
  else { s with send_w := ⟨true, false⟩ }

/-- A callback that the loop calls. -/
inductive Callback where
  | remote
  | filein
  | write (behind : Nat → Byte) (delivered : Bool)
  | read (messages : Nat)

/-- A watcher is called only while it is active, and for an event it is registered for. -/
def step (total : Nat) (s : Client) : Callback → Option Client
  | .remote => if ¬ s.exited ∧ s.remote_w then some (remoteCb s) else none
  | .filein => if ¬ s.exited ∧ s.file_watcher then some (fileinCb s) else none
  | .write behind delivered =>
      if ¬ s.exited ∧ s.send_w.write then some (sendCbWrite total behind delivered s) else none
  | .read messages =>
      if ¬ s.exited ∧ s.send_w.read then some (sendCbRead total messages s) else none

/-- The client as a machine over its callbacks. -/
def evclient (total : Nat) : Machine Client Callback where
  step := step total

/-! ## The buffer and the file -/

/-- What holds in every run. -/
structure Holds (lines : List Str) (s : Client) : Prop where
  rest : s.rest = lines.drop s.lines_read_from_file
  line : ∀ n, s.lines_read_from_file = n + 1 → ∃ line, lines[n]? = some line ∧ s.line = some line
  sent : s.sent.length = s.lines_written
  ready : s.send_w.write = true → 1 ≤ s.lines_read_from_file

/-- A message of line `j + 1`.  Its keepalive is 0 if this is the last line, and 1 otherwise. -/
def OfLine (total : Nat) (lines : List Str) (j : Nat) (x : Nat × SendMessage) : Prop :=
  x.1 = j + 1 ∧ ∃ line behind msg, lines[j]? = some line ∧
    parseLine (cString line) behind = some msg ∧
    x.2 = { msg with keepalive := if j + 1 = total then 0 else 1 }

/-- The messages sent so far are those of the first lines, each once and in order, and not more
than there are to send. -/
structure SendsLines (total : Nat) (lines : List Str) (sent : List (Nat × SendMessage)) : Prop where
  count : sent.length ≤ total
  order : ∀ j x, sent[j]? = some x → OfLine total lines j x

/-- A write event finds one line more read than sent, and fewer sent than there are to send. -/
def Fresh (total : Nat) (s : Client) : Callback → Prop
  | .write _ _ => s.lines_read_from_file = s.lines_written + 1 ∧ s.lines_written < total
  | _ => True

instance (total : Nat) (s : Client) : (e : Callback) → Decidable (Fresh total s e)
  | .write _ _ => inferInstanceAs (Decidable (_ ∧ _))
  | .remote => inferInstanceAs (Decidable True)
  | .filein => inferInstanceAs (Decidable True)
  | .read _ => inferInstanceAs (Decidable True)

theorem holds_start (lines : List Str) : Holds lines (Client.start lines) where
  rest := rfl
  line n h := by cases h
  sent := rfl
  ready h := by cases h

section Step

variable {total : Nat} {lines : List Str} {s : Client}

theorem Holds.remoteCb (h : Holds lines s) : Holds lines (remoteCb s) :=
  ⟨h.rest, h.line, h.sent, h.ready⟩

/-- A line is read, or the file is at its end. -/
theorem Holds.fileinCb (hne : lines ≠ []) (h : Holds lines s) : Holds lines (fileinCb s) := by
  have hdrop := h.rest
  unfold Evclient.fileinCb
  cases hrest : s.rest with
  | nil =>
      rw [hrest] at hdrop
      refine ⟨hdrop, h.line, h.sent, fun _ => ?_⟩
      have hle := List.drop_eq_nil_iff.mp hdrop.symm
      exact Nat.le_trans (List.length_pos_iff.mpr hne) hle
  | cons line rest =>
      rw [hrest] at hdrop
      have hget : lines[s.lines_read_from_file]? = some line := by
        rw [← List.head?_drop, ← hdrop, List.head?_cons]
      refine ⟨?_, fun n hn => ?_, h.sent, fun _ => Nat.succ_pos _⟩
      · rw [← List.tail_drop, ← hdrop, List.tail_cons]
      · cases hn
        exact ⟨line, hget, rfl⟩

theorem Holds.sendCbRead (messages : Nat) (h : Holds lines s) :
    Holds lines (sendCbRead total messages s) := by
  unfold Evclient.sendCbRead
  rcases recvLoop total messages s.counter with ⟨counter, done⟩
  dsimp only
  split
  · exact ⟨h.rest, h.line, h.sent, fun hw => by cases hw⟩
  · split
    · exact ⟨h.rest, h.line, h.sent, h.ready⟩
    · exact ⟨h.rest, h.line, h.sent, fun hw => by cases hw⟩

theorem sent_fileinCb (s : Client) : (fileinCb s).sent = s.sent := by
  unfold fileinCb
  split <;> rfl

theorem sent_sendCbRead (messages : Nat) (s : Client) :
    (sendCbRead total messages s).sent = s.sent := by
  unfold sendCbRead
  rcases recvLoop total messages s.counter with ⟨counter, done⟩
  dsimp only
  split
  · rfl
  · split <;> rfl

/-- What a write event does: the line in the buffer is sent. -/
theorem sendCbWrite_eq {line : Str} {behind : Nat → Byte} {msg : SendMessage} (delivered : Bool)
    (hline : s.line = some line) (hparse : parseLine (cString line) behind = some msg) :
    ∃ send_w exited, sendCbWrite total behind delivered s =
      { s with
        send_w := send_w
        exited := exited
        lines_written := s.lines_written + 1
        sent := s.sent ++ [(s.lines_read_from_file,
          if s.lines_written + 1 = total then { msg with keepalive := 0 } else msg)] } := by
  unfold sendCbWrite
  by_cases hge : s.lines_written ≥ total
  · simp only [if_pos hge, hline, Option.bind_some, hparse]
    cases delivered
    · exact ⟨_, _, rfl⟩
    · exact ⟨_, _, rfl⟩
  · simp only [if_neg hge, hline, Option.bind_some, hparse]
    cases delivered
    · exact ⟨_, _, rfl⟩
    · exact ⟨_, _, rfl⟩

theorem startsWithDigit_cString {line : Str} (h : StartsWithDigit line) :
    StartsWithDigit (cString line) := by
  obtain ⟨c, hc, hdigit⟩ := h
  cases line with
  | nil => cases hc
  | cons d line =>
      cases hc
      have hne : c ≠ 0 := by
        rintro rfl
        exact absurd hdigit (by decide)
      have hhead : (cString (c :: line)).head? = some c := by simp [cString, hne]
      exact ⟨c, hhead, hdigit⟩

/-- One message more. -/
theorem sendsLines_append {sent : List (Nat × SendMessage)} {x : Nat × SendMessage}
    (hx : x.1 = sent.length + 1 → OfLine total lines sent.length x) :
    SendsLines total lines (sent ++ [x]) ↔
      SendsLines total lines sent ∧ x.1 = sent.length + 1 ∧ sent.length < total := by
  constructor
  · rintro ⟨hcount, horder⟩
    rw [List.length_append, List.length_singleton] at hcount
    have hlast := horder sent.length x List.getElem?_concat_length
    refine ⟨⟨Nat.le_of_succ_le hcount, fun j y hy => horder j y ?_⟩, hlast.1, hcount⟩
    rw [List.getElem?_append_left (List.getElem?_eq_some_iff.mp hy).1]
    exact hy
  · rintro ⟨⟨-, horder⟩, hline, hlt⟩
    constructor
    · rw [List.length_append, List.length_singleton]
      exact hlt
    · intro j y hy
      rcases Nat.lt_trichotomy j sent.length with hj | rfl | hj
      · rw [List.getElem?_append_left hj] at hy
        exact horder j y hy
      · rw [List.getElem?_concat_length] at hy
        cases hy
        exact hx hline
      · rw [List.getElem?_eq_none (by simp; omega)] at hy
        cases hy

/-- A write event keeps what holds in every run, and it keeps the order exactly if it finds one
line more read than sent. -/
theorem Holds.sendCbWrite (behind : Nat → Byte) (delivered : Bool)
    (hdigits : ∀ line ∈ lines, StartsWithDigit line) (h : Holds lines s)
    (hwrite : s.send_w.write = true) :
    Holds lines (sendCbWrite total behind delivered s) ∧
      (SendsLines total lines (sendCbWrite total behind delivered s).sent ↔
        SendsLines total lines s.sent ∧ s.lines_read_from_file = s.lines_written + 1 ∧
          s.lines_written < total) := by
  obtain ⟨n, hn⟩ := Nat.exists_eq_add_of_le' (h.ready hwrite)
  obtain ⟨line, hget, hline⟩ := h.line n hn
  obtain ⟨msg, hparse⟩ := Option.isSome_iff_exists.mp (parseLine_isSome behind
    (startsWithDigit_cString (hdigits line (List.mem_of_getElem? hget))))
  obtain ⟨send_w, exited, heq⟩ := @sendCbWrite_eq total s line behind msg delivered hline hparse
  rw [heq]
  constructor
  · refine ⟨h.rest, h.line, ?_, fun _ => h.ready hwrite⟩
    rw [List.length_append, List.length_singleton, h.sent]
  · rw [← h.sent]
    refine sendsLines_append fun hnext => ⟨hnext, line, behind, msg, ?_, hparse, ?_⟩
    · have hlen : n = s.sent.length := Nat.succ.inj (hn.symm.trans hnext)
      rw [← hlen]
      exact hget
    · dsimp only
      split
      · rfl
      · rw [← parseLine_keepalive hparse]

end Step

/-- One callback. -/
theorem Holds.step {total : Nat} {lines : List Str} {s t : Client} {e : Callback}
    (hne : lines ≠ []) (hdigits : ∀ line ∈ lines, StartsWithDigit line) (h : Holds lines s)
    (hstep : (evclient total).step s e = some t) :
    Holds lines t ∧
      (SendsLines total lines t.sent ↔ SendsLines total lines s.sent ∧ Fresh total s e) := by
  cases e with
  | remote =>
      simp only [evclient, Evclient.step, Option.ite_none_right_eq_some, Option.some.injEq] at hstep
      obtain ⟨-, rfl⟩ := hstep
      exact ⟨h.remoteCb, (and_iff_left trivial).symm⟩
  | filein =>
      simp only [evclient, Evclient.step, Option.ite_none_right_eq_some, Option.some.injEq] at hstep
      obtain ⟨-, rfl⟩ := hstep
      rw [sent_fileinCb]
      exact ⟨h.fileinCb hne, (and_iff_left trivial).symm⟩
  | write behind delivered =>
      simp only [evclient, Evclient.step, Option.ite_none_right_eq_some, Option.some.injEq] at hstep
      obtain ⟨hactive, rfl⟩ := hstep
      exact h.sendCbWrite behind delivered hdigits hactive.2
  | read messages =>
      simp only [evclient, Evclient.step, Option.ite_none_right_eq_some, Option.some.injEq] at hstep
      obtain ⟨-, rfl⟩ := hstep
      rw [sent_sendCbRead]
      exact ⟨h.sendCbRead messages, (and_iff_left trivial).symm⟩

/-- In every run of the client the lines are sent in order, each once, and keepalive is 0 in the
last message only, exactly if every write event finds one line more read than sent and fewer sent
than there are to send. -/
theorem sendsLines_iff {total : Nat} (htotal : 1 ≤ total) {lines : List Str}
    (hlines : total ≤ lines.length) (hdigits : ∀ line ∈ lines, StartsWithDigit line)
    {events : List Callback} {t : Client}
    (hrun : (evclient total).exec (Client.start lines) events = some t) :
    SendsLines total lines t.sent ↔
      (evclient total).Meets (Fresh total) (Client.start lines) events := by
  have hne : lines ≠ [] := List.ne_nil_of_length_pos (Nat.le_trans htotal hlines)
  have hstart : SendsLines total lines (Client.start lines).sent :=
    ⟨Nat.zero_le total, fun j x hx => by cases hx⟩
  have hiff := Machine.exec_iff_meets (I := Holds lines)
    (G := fun s => SendsLines total lines s.sent) (C := Fresh total)
    (fun s e t hs hstep => hs.step hne hdigits hstep) hrun (holds_start lines)
  rw [hiff]
  exact and_iff_right hstart

/-! ## The order of the callbacks -/

def Callback.isFilein : Callback → Bool
  | .filein => true
  | _ => false

def Callback.isWrite : Callback → Bool
  | .write _ _ => true
  | _ => false

/-- Before each write event there are as many write events as lines that were read but one, and
fewer than lines to be sent.  `filein_cb` reads a line as long as the file has one. -/
def InTurn (total lines : Nat) (events : List Callback) : Prop :=
  ∀ pre behind delivered post, events = pre ++ .write behind delivered :: post →
    min (pre.countP Callback.isFilein) lines = pre.countP Callback.isWrite + 1 ∧
      pre.countP Callback.isWrite < total

theorem read_fileinCb {lines : List Str} {s : Client} {k : Nat} (h : Holds lines s)
    (hread : s.lines_read_from_file = min k lines.length) :
    (fileinCb s).lines_read_from_file = min (k + 1) lines.length := by
  have hdrop := h.rest
  unfold fileinCb
  cases hrest : s.rest with
  | nil =>
      rw [hrest] at hdrop
      have hle := List.drop_eq_nil_iff.mp hdrop.symm
      show s.lines_read_from_file = _
      omega
  | cons line rest =>
      rw [hrest] at hdrop
      have hlt : s.lines_read_from_file < lines.length := by
        refine Nat.lt_of_not_le fun hle => ?_
        rw [List.drop_eq_nil_of_le hle] at hdrop
        cases hdrop
      show s.lines_read_from_file + 1 = _
      omega

/-- The counters of the client count the callbacks. -/
theorem counters {total : Nat} {lines : List Str} (hne : lines ≠ [])
    (hdigits : ∀ line ∈ lines, StartsWithDigit line) {events : List Callback} {t : Client}
    (hrun : (evclient total).exec (Client.start lines) events = some t) :
    Holds lines t ∧
      t.lines_read_from_file = min (events.countP Callback.isFilein) lines.length ∧
      t.lines_written = events.countP Callback.isWrite := by
  induction events using List.reverseRecOn generalizing t with
  | nil =>
      cases hrun
      exact ⟨holds_start lines, (Nat.zero_min _).symm, rfl⟩
  | append_singleton events e ih =>
      obtain ⟨s, hs, hlast⟩ := (evclient total).exec_append_eq_some hrun
      obtain ⟨t', hstep, hend⟩ := (evclient total).exec_cons_eq_some hlast
      cases hend
      obtain ⟨hholds, hread, hwritten⟩ := ih hs
      refine ⟨(hholds.step hne hdigits hstep).1, ?_⟩
      rw [List.countP_append, List.countP_append, List.countP_singleton, List.countP_singleton]
      cases e with
      | remote =>
          obtain ⟨-, hsome⟩ := Option.ite_none_right_eq_some.mp hstep
          cases hsome
          exact ⟨hread, hwritten⟩
      | filein =>
          obtain ⟨-, hsome⟩ := Option.ite_none_right_eq_some.mp hstep
          cases hsome
          refine ⟨read_fileinCb hholds hread, ?_⟩
          have hsame : (fileinCb s).lines_written = s.lines_written := by
            unfold fileinCb
            split <;> rfl
          exact hsame.trans hwritten
      | write behind delivered =>
          obtain ⟨hactive, hsome⟩ := Option.ite_none_right_eq_some.mp hstep
          cases hsome
          obtain ⟨n, hn⟩ := Nat.exists_eq_add_of_le' (hholds.ready hactive.2)
          obtain ⟨line, hget, hline⟩ := hholds.line n hn
          obtain ⟨msg, hparse⟩ := Option.isSome_iff_exists.mp (parseLine_isSome behind
            (startsWithDigit_cString (hdigits line (List.mem_of_getElem? hget))))
          obtain ⟨send_w, exited, heq⟩ :=
            @sendCbWrite_eq total s line behind msg delivered hline hparse
          rw [heq]
          exact ⟨hread, congrArg (· + 1) hwritten⟩
      | read messages =>
          obtain ⟨-, hsome⟩ := Option.ite_none_right_eq_some.mp hstep
          cases hsome
          have hsame : (sendCbRead total messages s).lines_read_from_file =
                s.lines_read_from_file ∧
              (sendCbRead total messages s).lines_written = s.lines_written := by
            unfold sendCbRead
            rcases recvLoop total messages s.counter with ⟨counter, done⟩
            dsimp only
            split
            · exact ⟨rfl, rfl⟩
            · split <;> exact ⟨rfl, rfl⟩
          exact ⟨hsame.1.trans hread, hsame.2.trans hwritten⟩

/-- The condition of `sendsLines_iff`, on the order of the callbacks alone. -/
theorem fresh_iff_inTurn {total : Nat} {lines : List Str} (hne : lines ≠ [])
    (hdigits : ∀ line ∈ lines, StartsWithDigit line) {events : List Callback} {t : Client}
    (hrun : (evclient total).exec (Client.start lines) events = some t) :
    (evclient total).Meets (Fresh total) (Client.start lines) events ↔
      InTurn total lines.length events := by
  constructor
  · rintro hmeets pre behind delivered post rfl
    obtain ⟨s, hs, -⟩ := (evclient total).exec_append_eq_some hrun
    obtain ⟨-, hread, hwritten⟩ := counters hne hdigits hs
    obtain ⟨hfresh, hlt⟩ : Fresh total s (.write behind delivered) := hmeets pre _ post s rfl hs
    rw [← hread, ← hwritten]
    exact ⟨hfresh, hlt⟩
  · rintro hturn pre e post s rfl hs
    cases e with
    | write behind delivered =>
        obtain ⟨-, hread, hwritten⟩ := counters hne hdigits hs
        rw [Fresh, hread, hwritten]
        exact hturn pre behind delivered post rfl
    | remote => trivial
    | filein => trivial
    | read messages => trivial

/-- Two lines, and a read event behind each write event. -/
theorem sendsLines_iff_two :
    ∃ t, (evclient 2).exec (Client.start [[48, 58, 97, 58, 10], [48, 58, 98, 58, 10]])
        [.remote, .filein, .write (fun _ => 0) true, .read 1, .filein,
          .write (fun _ => 0) true, .read 1] = some t ∧
      SendsLines 2 [[48, 58, 97, 58, 10], [48, 58, 98, 58, 10]] t.sent := by
  have hrun : ∃ t, (evclient 2).exec (Client.start [[48, 58, 97, 58, 10], [48, 58, 98, 58, 10]])
      [.remote, .filein, .write (fun _ => 0) true, .read 1, .filein,
        .write (fun _ => 0) true, .read 1] = some t := ⟨_, rfl⟩
  obtain ⟨t, hrun⟩ := hrun
  exact ⟨t, hrun, (sendsLines_iff (by decide) (by decide) (by decide) hrun).mpr
    (by decide +kernel)⟩

/-- A line is sent twice. -/
theorem line_sent_twice :
    ∃ t, (evclient 2).exec (Client.start [[48, 58, 97, 58, 10], [48, 58, 98, 58, 10]])
        [.remote, .filein, .write (fun _ => 0) true, .write (fun _ => 0) true] = some t ∧
      t.sent.map Prod.fst = [1, 1] ∧
      ¬ SendsLines 2 [[48, 58, 97, 58, 10], [48, 58, 98, 58, 10]] t.sent := by
  refine ⟨_, rfl, rfl, fun h => ?_⟩
  have hsecond := (h.order 1 _ rfl).1
  cases hsecond

end KvServer.Testclient.Evclient
