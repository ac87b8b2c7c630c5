import KvServer.Testclient.Lines

/-!
# Sending a file of requests

`send_tcp_requests` reads requests from a file and sends them in batches of `m`, until
the number of requests it has counted is no longer less than `n`.  At the end of the
file it opens the file again.  The keepalive of a last request is cleared when the count
is equal to `n`.

The place in the file is a function of the number of lines read (`Place`), so a batch is
a range of line numbers (`readBatch_eq`) and so is the whole run.  The count is a
multiple of `m`, and it meets `n` exactly if `n` is one.
-/

namespace KvServer.Testclient

/-! ## The loop -/

/-- `stoi` of a line, the header of the file. -/
def stoiLine (line : Str) : Option Int :=
  let chars := line.dropWhile fun c => IsSpace c
  let digits := (behindSign chars).takeWhile fun c => IsDigit c
  if digits = [] then none
  else if -2147483648 ≤ signed chars digits ∧ signed chars digits ≤ 2147483647 then
    some (signed chars digits)
  else none

/-- The file as it is being read: the lines left, and `linecount`.  All lines end in a newline,
also the last. -/
structure Reading where
  rest : List Str
  linecount : Int
deriving DecidableEq, Repr

/-- `getline`.  At the end of the file it clears the string and fails.  (If the last line had no
newline, the string would keep that line.) -/
def Reading.getline (r : Reading) : Str × Reading :=
  (r.rest.headD [], { rest := r.rest.tail, linecount := r.linecount + 1 })

/-- The line of the next request.  At the end the file is opened again and its header
skipped. -/
def nextLine (file : List Str) (length : Int) (r : Reading) : Str × Reading :=
  (if r.linecount ≥ length then { rest := file.tail, linecount := 0 } else r).getline

/-- The `for` loop of a batch: `i` requests are left, and the first of them is the `j`-th of
all.  `behind j` is what `parseLine` reads behind its line. -/
def readBatch (behind : Nat → Nat → Byte) (file : List Str) (length : Int) :
    Nat → Nat → Reading → Option (List SendMessage × Reading)
  | 0, _, r => some ([], r)
  | i + 1, j, r =>
      let (line, r) := nextLine file length r
      (parseLine line (behind j)).bind fun msg =>
        (readBatch behind file length i (j + 1) r).map fun (msgs, r) => (msg :: msgs, r)

/-- The `while` loop: what is sent, and `msgs_sent` at the end.  `j` requests were read
before. -/
def sendLoop (behind : Nat → Nat → Byte) (file : List Str) (length : Int) (m n : Nat) :
    Nat → Nat → Nat → Reading → Option (List SendMessage × Nat)
  | 0, _, _, _ => none
  | fuel + 1, msgs_sent, j, r =>
      if msgs_sent < n then
        (readBatch behind file length m j r).bind fun (msgs, r) =>
          let msgs_sent := (msgs_sent + m) % 4294967296
          let msgs :=
            if msgs_sent = n then msgs.modify (m - 1) fun msg => { msg with keepalive := 0 }
            else msgs
          (sendLoop behind file length m n fuel msgs_sent (j + m) r).map fun (sent, count) =>
            (msgs ++ sent, count)
      else some ([], msgs_sent)

/-- `send_tcp_requests` with `m` messages per request and `n` per connection.  `none` is an
exception of `stoi`, or that the fuel is used up. -/
def sendTcpRequests (behind : Nat → Nat → Byte) (fuel m n : Nat) (file : List Str) :
    Option (List SendMessage × Nat) :=
  (stoiLine (file.headD [])).bind fun length =>
    sendLoop behind file length m n fuel 0 0 { rest := file.tail, linecount := 0 }

/-! ## The place in the file -/

/-- After `j` lines the next one is line `j % L`, or the file is at its end and about to be
opened again. -/
def Place (lines : List Str) (L j : Nat) (r : Reading) : Prop :=
  ∃ p, p ≤ L ∧ p % L = j % L ∧ r = { rest := lines.drop p, linecount := p }

theorem getline_drop {lines : List Str} {p : Nat} (hlt : p < lines.length) :
    some (Reading.getline { rest := lines.drop p, linecount := p }).1 = lines[p]? ∧
      (Reading.getline { rest := lines.drop p, linecount := p }).2 =
        { rest := lines.drop (p + 1), linecount := ((p + 1 : Nat) : Int) } := by
  rw [Reading.getline, List.tail_drop, List.drop_eq_getElem_cons hlt,
    List.getElem?_eq_getElem hlt]
  exact ⟨rfl, rfl⟩

/-- The line that is read, and the place behind it. -/
theorem Place.next {lines : List Str} {L j : Nat} {r : Reading} (header : Str) (hpos : 0 < L)
    (hlines : L ≤ lines.length) (h : Place lines L j r) :
    some (nextLine (header :: lines) L r).1 = lines[j % L]? ∧
      Place lines L (j + 1) (nextLine (header :: lines) L r).2 := by
  obtain ⟨p, hle, hmod, rfl⟩ := h
  have hlt : j % L < L := Nat.mod_lt j hpos
  -- opened again or not, the place is line `j % L`
  have hplace : (if ((p : Nat) : Int) ≥ L then { rest := (header :: lines).tail, linecount := 0 }
      else { rest := lines.drop p, linecount := (p : Int) } : Reading) =
        { rest := lines.drop (j % L), linecount := ((j % L : Nat) : Int) } := by
    split
    · next hge =>
        have hp : p = L := by omega
        rw [← hmod, hp, Nat.mod_self]
        rfl
    · next hge =>
        rw [← hmod, Nat.mod_eq_of_lt (by omega)]
  obtain ⟨hline, hrest⟩ := getline_drop (Nat.lt_of_lt_of_le hlt hlines)
  rw [nextLine, hplace]
  refine ⟨hline, j % L + 1, hlt, ?_, hrest⟩
  rw [Nat.mod_add_mod]

/-! ## Batches -/

/-- The request of line `j`, counted on through the file. -/
def requestAt (behind : Nat → Nat → Byte) (lines : List Str) (L j : Nat) : Option SendMessage :=
  lines[j % L]?.bind fun line => parseLine line (behind j)

section Batch

variable {behind : Nat → Nat → Byte} {header : Str} {lines : List Str} {L : Nat}
  {msg : Nat → SendMessage} (hpos : 0 < L) (hlines : L ≤ lines.length)
  (hmsg : ∀ j, requestAt behind lines L j = some (msg j))
include hpos hlines hmsg

/-- A batch is the requests of the next lines. -/
theorem readBatch_eq (i : Nat) {j : Nat} {r : Reading} (h : Place lines L j r) :
    ∃ r', readBatch behind (header :: lines) L i j r = some ((List.range' j i).map msg, r') ∧
      Place lines L (j + i) r' := by
  induction i generalizing j r with
  | zero => exact ⟨r, rfl, h⟩
  | succ i ih =>
      obtain ⟨hline, hplace⟩ := h.next header hpos hlines
      obtain ⟨r', hbatch, hplace'⟩ := ih hplace
      have hparse := hmsg j
      rw [requestAt, ← hline, Option.bind_some] at hparse
      refine ⟨r', ?_, ?_⟩
      · simp only [readBatch, hparse, Option.bind_some, hbatch, Option.map_some, List.range'_succ,
          List.map_cons]
      · rw [Nat.add_right_comm] at hplace'
        exact hplace'

/-- The requests that are to be sent: the last one has keepalive 0. -/
def lastCleared (msg : Nat → SendMessage) (n j : Nat) : SendMessage :=
  if j + 1 = n then { msg j with keepalive := 0 } else msg j

omit hpos hlines hmsg in
/-- The batch that is sent.  It is the last one exactly if it ends at `n`. -/
theorem batch_lastCleared {j m n : Nat} (hm : 1 ≤ m) (hn : j + m ≤ n) :
    (if j + m = n then ((List.range' j m).map msg).modify (m - 1)
        fun request => { request with keepalive := 0 }
      else (List.range' j m).map msg) = (List.range' j m).map (lastCleared msg n) := by
  apply List.ext_getElem
  · split <;> simp
  · intro i hi hi'
    rw [List.length_map, List.length_range'] at hi'
    split
    · next hlast =>
        rw [List.getElem_modify]
        simp only [List.getElem_map, List.getElem_range', lastCleared]
        by_cases h : m - 1 = i
        · rw [if_pos h, if_pos (by omega)]
        · rw [if_neg h, if_neg (by omega)]
    · next hlast =>
        simp only [List.getElem_map, List.getElem_range', lastCleared]
        rw [if_neg (by omega)]

/-- The run when `k` batches are left: the requests are sent, and the count ends at `n`. -/
theorem sendLoop_eq {m n : Nat} (hm : 1 ≤ m) (hn : n < 4294967296) (k : Nat) {j : Nat} {r : Reading}
    (hk : j + k * m = n) (h : Place lines L j r) :
    sendLoop behind (header :: lines) L m n (k + 1) j j r =
      some ((List.range' j (k * m)).map (lastCleared msg n), n) := by
  induction k generalizing j r with
  | zero =>
      rw [Nat.zero_mul] at hk ⊢
      rw [sendLoop, if_neg (by omega)]
      exact congrArg (fun count => some ([], count)) hk
  | succ k ih =>
      rw [Nat.succ_mul] at hk ⊢
      obtain ⟨r', hbatch, hplace⟩ := readBatch_eq hpos hlines hmsg m h
      have hrest := ih (show j + m + k * m = n by omega) hplace
      have hcount : (j + m) % 4294967296 = j + m := Nat.mod_eq_of_lt (by omega)
      have hrange : List.range' j (k * m + m) = List.range' j m ++ List.range' (j + m) (k * m) := by
        rw [List.range'_append_1, Nat.add_comm]
      rw [sendLoop, if_pos (by omega), hbatch]
      simp only [Option.bind_some, hcount, hrest, Option.map_some]
      rw [batch_lastCleared hm (by omega), hrange, List.map_append]

end Batch

theorem length_readBatch {behind : Nat → Nat → Byte} {file : List Str} {length : Int} {i : Nat} :
    ∀ {j : Nat} {r r' : Reading} {msgs : List SendMessage},
      readBatch behind file length i j r = some (msgs, r') → msgs.length = i := by
  induction i with
  | zero =>
      intro j r r' msgs h
      cases h
      rfl
  | succ i ih =>
      intro j r r' msgs h
      simp only [readBatch, Option.bind_eq_some_iff, Option.map_eq_some_iff] at h
      obtain ⟨msg, -, ⟨msgs', r''⟩, hrest, heq⟩ := h
      cases heq
      rw [List.length_cons, ih hrest]

/-- Only whole batches are sent. -/
theorem dvd_length_sendLoop {behind : Nat → Nat → Byte} {file : List Str} {length : Int}
    {m n fuel : Nat} :
    ∀ {msgs_sent j : Nat} {r : Reading} {sent : List SendMessage} {count : Nat},
      sendLoop behind file length m n fuel msgs_sent j r = some (sent, count) →
      m ∣ sent.length := by
  induction fuel with
  | zero =>
      intro msgs_sent j r sent count h
      cases h
  | succ fuel ih =>
      intro msgs_sent j r sent count h
      rw [sendLoop] at h
      split at h
      · simp only [Option.bind_eq_some_iff, Option.map_eq_some_iff] at h
        obtain ⟨⟨msgs, r'⟩, hbatch, ⟨sent', count'⟩, hrest, heq⟩ := h
        cases heq
        rw [List.length_append]
        refine Nat.dvd_add ?_ (ih hrest)
        have hlen := length_readBatch hbatch
        split
        · exact ⟨1, by rw [List.length_modify, hlen, Nat.mul_one]⟩
        · exact ⟨1, by rw [hlen, Nat.mul_one]⟩
      · cases h
        exact Nat.dvd_zero m

/-! ## The workload -/

/-- The run ends, and what it sends is `n` requests: number `j` is the parse of line `j % L`
of those behind the header, and the last one is the only one with keepalive 0. -/
def SendsWorkload (behind : Nat → Nat → Byte) (file : List Str) (L m n : Nat) : Prop :=
  ∃ fuel sent count, sendTcpRequests behind fuel m n file = some (sent, count) ∧
    sent.length = n ∧ ∀ j < n, ∃ line msg, file.tail[j % L]? = some line ∧
      parseLine line (behind j) = some msg ∧
      sent[j]? = some { msg with keepalive := if j + 1 = n then 0 else 1 }

/-- There is a request at every place. -/
theorem requestAt_isSome (behind : Nat → Nat → Byte) {lines : List Str} {L : Nat} (hpos : 1 ≤ L)
    (hlines : L ≤ lines.length) (hdigits : ∀ line ∈ lines.take L, StartsWithDigit line) (j : Nat) :
    (requestAt behind lines L j).isSome := by
  have hlt : j % L < L := Nat.mod_lt j hpos
  have hline : j % L < lines.length := Nat.lt_of_lt_of_le hlt hlines
  have hmem : lines.get ⟨j % L, hline⟩ ∈ lines.take L :=
    List.mem_take_iff_getElem.mpr ⟨j % L, Nat.lt_min.mpr ⟨hlt, hline⟩, rfl⟩
  rw [requestAt, List.getElem?_eq_getElem hline, Option.bind_some]
  exact parseLine_isSome (behind j) (hdigits _ hmem)

/-- `send_tcp_requests` sends the workload exactly if the batch size divides the number of
requests. -/
theorem sendsWorkload_iff (behind : Nat → Nat → Byte) {header : Str} {lines : List Str}
    {L m n : Nat} (hheader : stoiLine header = some (L : Int)) (hpos : 1 ≤ L)
    (hlines : L ≤ lines.length)
    (hdigits : ∀ line ∈ lines.take L, StartsWithDigit line)
    (hm : 1 ≤ m ∧ m ≤ 65535) (hn : 1 ≤ n ∧ n < 4294967296) :
    SendsWorkload behind (header :: lines) L m n ↔ m ∣ n := by
  constructor
  · rintro ⟨fuel, sent, count, hrun, hlen, -⟩
    obtain ⟨length, -, hloop⟩ := Option.bind_eq_some_iff.mp hrun
    rw [← hlen]
    exact dvd_length_sendLoop hloop
  · rintro ⟨k, hk⟩
    have hsome := requestAt_isSome behind hpos hlines hdigits
    obtain ⟨msg, hmsg⟩ : ∃ msg : Nat → SendMessage, ∀ j,
        requestAt behind lines L j = some (msg j) :=
      ⟨fun j => (requestAt behind lines L j).get (hsome j), fun j => (Option.some_get _).symm⟩
    have hplace : Place lines L 0 { rest := lines, linecount := 0 } := ⟨0, Nat.zero_le L, rfl, rfl⟩
    have hrun : sendLoop behind (header :: lines) L m n (k + 1) 0 0 ⟨lines, 0⟩ =
        some ((List.range' 0 (k * m)).map (lastCleared msg n), n) :=
      sendLoop_eq hpos hlines hmsg hm.1 hn.2 k (by rw [Nat.zero_add, Nat.mul_comm, hk]) hplace
    refine ⟨k + 1, (List.range' 0 (k * m)).map (lastCleared msg n), n, ?_, ?_, fun j hj => ?_⟩
    · rw [sendTcpRequests, List.headD_cons, hheader]
      exact hrun
    · rw [List.length_map, List.length_range', Nat.mul_comm]
      exact hk.symm
    · obtain ⟨line, hget, hparse⟩ := Option.bind_eq_some_iff.mp (hmsg j)
      refine ⟨line, msg j, hget, hparse, ?_⟩
      have hlt : j < k * m := by
        rw [Nat.mul_comm, ← hk]
        exact hj
      rw [List.getElem?_map, List.getElem?_range' hlt, Option.map_some, lastCleared]
      simp only [Nat.zero_add, Nat.one_mul]
      split
      · rfl
      · rw [← parseLine_keepalive hparse]

/-- Four requests in batches of two, from a file of three lines. -/
theorem sendsWorkload_iff_four :
    SendsWorkload (fun _ _ => 0) [[51], [48, 58, 97, 58], [48, 58, 98, 58], [50, 58, 97, 58]]
      3 2 4 :=
  (sendsWorkload_iff _ rfl (by decide) (by decide) (by decide) (by decide) (by decide)).mpr
    (by decide)

/-- Three requests in batches of two: four are sent, and none with keepalive 0. -/
theorem three_by_two :
    (∃ sent, sendTcpRequests (fun _ _ => 0) 3 2 3 [[49], [48, 58, 97, 58]] = some (sent, 4) ∧
        sent.map SendMessage.keepalive = [1, 1, 1, 1]) ∧
      ¬ SendsWorkload (fun _ _ => 0) [[49], [48, 58, 97, 58]] 1 2 3 := by
  constructor
  · exact ⟨_, rfl, rfl⟩
  · rintro ⟨fuel, sent, count, hrun, hlen, -⟩
    obtain ⟨length, -, hloop⟩ := Option.bind_eq_some_iff.mp hrun
    have hdvd := dvd_length_sendLoop hloop
    rw [hlen] at hdvd
    exact absurd hdvd (by decide)

end KvServer.Testclient
