import KvServer.Store.Process

/-!
# What the store answers

The answer to a request is decided by the successes before it on the same key.
A *history* is the list of requests answered so far, each with its reply.
`Present` reads off it whether the key is in the store, `lastWritten` which value
it holds, and `HistoryLaw` says what the next reply must be.

The proof carries `Records`: the store holds a key exactly when the history says
so, with the value the history says.  The empty store records the empty history,
one packet extends both sides (`Records.step`), and the law of a whole run
follows by induction over the packets.
-/

namespace KvServer

/-- A request with the reply it got. -/
structure Exchange where
  request : SendMessage
  reply : ResponseMessage
deriving DecidableEq, Repr

namespace Exchange

/-- The server answered `OK`. -/
def Ok (x : Exchange) : Prop := x.reply.status_code = StatusCode.OK.code

/-- The request was an `op`. -/
def Is (x : Exchange) (op : Operation) : Prop := x.request.operation = op.code

instance (x : Exchange) : Decidable x.Ok := inferInstanceAs (Decidable (_ = _))

instance (x : Exchange) (op : Operation) : Decidable (x.Is op) :=
  inferInstanceAs (Decidable (_ = _))

/-- A successful `op₁` or `op₂` on `k`. -/
def Did (op₁ op₂ : Operation) (k : Key) (x : Exchange) : Prop :=
  x.Ok ∧ x.request.key = k ∧ (x.Is op₁ ∨ x.Is op₂)

instance (op₁ op₂ : Operation) (k : Key) (x : Exchange) : Decidable (x.Did op₁ op₂ k) :=
  inferInstanceAs (Decidable (_ ∧ _))

end Exchange

/-- The requests of a run with their replies. -/
def exchanges (sends : List SendMessage) (replies : List ResponseMessage) : List Exchange :=
  List.zipWith Exchange.mk sends replies

/-- The last successful `op₁` or `op₂` on `k`. -/
def lastSuccess (op₁ op₂ : Operation) (k : Key) (h : List Exchange) : Option Exchange :=
  (h.filter fun x => x.Did op₁ op₂ k).getLast?

/-- The last successful `PUT` or `DELETE` on `k` is a `PUT`. -/
def Present (k : Key) (h : List Exchange) : Prop :=
  ∃ x, lastSuccess .PUT .DELETE k h = some x ∧ x.Is .PUT

/-- The value of the last successful `PUT` or `UPDATE` on `k`. -/
def lastWritten (k : Key) (h : List Exchange) : Option Value :=
  (lastSuccess .PUT .UPDATE k h).map fun x => x.request.value

/-- What the reply in `x` must be when the history before it is `h`. -/
structure HistoryLaw (h : List Exchange) (x : Exchange) : Prop where
  put : x.Is .PUT → (x.Ok ↔ ¬ Present x.request.key h)
  update : x.Is .UPDATE → (x.Ok ↔ Present x.request.key h)
  delete : x.Is .DELETE → (x.Ok ↔ Present x.request.key h)
  get : x.Is .GET → (x.Ok ↔ Present x.request.key h)
  get_value : x.Is .GET → x.Ok → lastWritten x.request.key h = some x.reply.value
  status : x.reply.status_code = StatusCode.OK.code ∨ x.reply.status_code = StatusCode.ERROR.code
  keepalive : x.reply.keepalive = x.request.keepalive
  key : x.reply.key = x.request.key
  value : ¬ (x.Is .GET ∧ x.Ok) → x.reply.value = x.request.value

/-! ## Histories grow at the end -/

theorem lastSuccess_append_of_did {op₁ op₂ : Operation} {k : Key} {h : List Exchange}
    {x : Exchange} (hx : x.Did op₁ op₂ k) : lastSuccess op₁ op₂ k (h ++ [x]) = some x := by
  simp [lastSuccess, List.filter_append, hx]

theorem lastSuccess_append_of_not {op₁ op₂ : Operation} {k : Key} {h : List Exchange}
    {x : Exchange} (hx : ¬ x.Did op₁ op₂ k) :
    lastSuccess op₁ op₂ k (h ++ [x]) = lastSuccess op₁ op₂ k h := by
  simp [lastSuccess, List.filter_append, hx]

theorem present_append_of_not {k : Key} {h : List Exchange} {x : Exchange}
    (hx : ¬ x.Did .PUT .DELETE k) : Present k (h ++ [x]) ↔ Present k h := by
  rw [Present, lastSuccess_append_of_not hx, Present]

theorem present_append_of_did {k : Key} {h : List Exchange} {x : Exchange}
    (hx : x.Did .PUT .DELETE k) : Present k (h ++ [x]) ↔ x.Is .PUT := by
  rw [Present, lastSuccess_append_of_did hx]
  constructor
  · rintro ⟨y, hy, hput⟩
    cases hy
    exact hput
  · intro hput
    exact ⟨x, rfl, hput⟩

theorem lastWritten_append_of_not {k : Key} {h : List Exchange} {x : Exchange}
    (hx : ¬ x.Did .PUT .UPDATE k) : lastWritten k (h ++ [x]) = lastWritten k h := by
  rw [lastWritten, lastSuccess_append_of_not hx, lastWritten]

theorem lastWritten_append_of_did {k : Key} {h : List Exchange} {x : Exchange}
    (hx : x.Did .PUT .UPDATE k) : lastWritten k (h ++ [x]) = some x.request.value := by
  rw [lastWritten, lastSuccess_append_of_did hx, Option.map_some]

/-! ## One cell against a history -/

/-- The content `c` of the cell of `k` is what the history says. -/
def CellRecords (k : Key) (h : List Exchange) : Option Value → Prop
  | some v => Present k h ∧ lastWritten k h = some v
  | none => ¬ Present k h

/-- An exchange that is no success of a writing operation on `k` changes nothing
for `k`. -/
theorem CellRecords.keep {k : Key} {h : List Exchange} {x : Exchange} {c : Option Value}
    (hpd : ¬ x.Did .PUT .DELETE k) (hpu : ¬ x.Did .PUT .UPDATE k) (hc : CellRecords k h c) :
    CellRecords k (h ++ [x]) c := by
  cases c with
  | none => exact fun hp => hc ((present_append_of_not hpd).mp hp)
  | some v =>
      obtain ⟨hp, hw⟩ := hc
      refine ⟨(present_append_of_not hpd).mpr hp, ?_⟩
      rw [lastWritten_append_of_not hpu, hw]

theorem CellRecords.other {k : Key} {h : List Exchange} {x : Exchange} {c : Option Value}
    (hk : x.request.key ≠ k) (hc : CellRecords k h c) : CellRecords k (h ++ [x]) c :=
  hc.keep (fun hx => hk hx.2.1) (fun hx => hk hx.2.1)

theorem CellRecords.put {k : Key} {h : List Exchange} {x : Exchange}
    (hpd : x.Did .PUT .DELETE k) (hpu : x.Did .PUT .UPDATE k) (hx : x.Is .PUT) :
    CellRecords k (h ++ [x]) (some x.request.value) :=
  ⟨(present_append_of_did hpd).mpr hx, lastWritten_append_of_did hpu⟩

theorem CellRecords.delete {k : Key} {h : List Exchange} {x : Exchange}
    (hpd : x.Did .PUT .DELETE k) (hx : ¬ x.Is .PUT) : CellRecords k (h ++ [x]) none :=
  fun hp => hx ((present_append_of_did hpd).mp hp)

theorem CellRecords.update {k : Key} {h : List Exchange} {x : Exchange} {v : Value}
    (hpd : ¬ x.Did .PUT .DELETE k) (hpu : x.Did .PUT .UPDATE k) (hc : CellRecords k h (some v)) :
    CellRecords k (h ++ [x]) (some x.request.value) :=
  ⟨(present_append_of_not hpd).mpr hc.1, lastWritten_append_of_did hpu⟩

/-- The exchange that answers `send` with `result` and `value`. -/
def SendMessage.exchange (send : SendMessage) (result : Bool) (value : Value) : Exchange :=
  ⟨send, send.reply result value⟩

theorem statusOf_eq (result : Bool) :
    statusOf result = StatusCode.OK.code ∨ statusOf result = StatusCode.ERROR.code := by
  cases result
  · exact Or.inr rfl
  · exact Or.inl rfl

section Exchange

variable {send : SendMessage} {op : Operation} {result : Bool} {value : Value}
  {h : List Exchange}

theorem SendMessage.exchange_ok : (send.exchange result value).Ok ↔ result = true := by
  cases result
  · refine ⟨fun h => ?_, fun h => absurd h (by decide)⟩
    have heq : StatusCode.ERROR = .OK := StatusCode.code_injective h
    exact absurd heq (by decide)
  · exact ⟨fun _ => rfl, fun _ => rfl⟩

variable (hop : Operation.ofByte? send.operation = some op)
include hop

theorem SendMessage.exchange_is {op' : Operation} :
    (send.exchange result value).Is op' ↔ op' = op := by
  constructor
  · intro h
    have h' : send.operation = op'.code := h
    rw [h', Operation.ofByte?_code] at hop
    exact Option.some.inj hop
  · rintro rfl
    exact Operation.ofByte?_eq_some hop

theorem SendMessage.exchange_did {op₁ op₂ : Operation} :
    (send.exchange result value).Did op₁ op₂ send.key ↔ result = true ∧ (op₁ = op ∨ op₂ = op) := by
  rw [Exchange.Did, exchange_ok, exchange_is hop, exchange_is hop]
  exact ⟨fun ⟨hr, _, ho⟩ => ⟨hr, ho⟩, fun ⟨hr, ho⟩ => ⟨hr, rfl, ho⟩⟩

/-- The law in terms of the operation and the result. -/
theorem HistoryLaw.of_result (hput : op = .PUT → (result = true ↔ ¬ Present send.key h))
    (hother : op ≠ .PUT → (result = true ↔ Present send.key h))
    (hget : op = .GET → result = true → lastWritten send.key h = some value)
    (hvalue : ¬ (op = .GET ∧ result = true) → value = send.value) :
    HistoryLaw h (send.exchange result value) where
  put ho := by
    rw [SendMessage.exchange_ok]
    exact hput ((SendMessage.exchange_is hop).mp ho).symm
  update ho := by
    rw [SendMessage.exchange_ok]
    exact hother (by rw [← (SendMessage.exchange_is hop).mp ho]; decide)
  delete ho := by
    rw [SendMessage.exchange_ok]
    exact hother (by rw [← (SendMessage.exchange_is hop).mp ho]; decide)
  get ho := by
    rw [SendMessage.exchange_ok]
    exact hother (by rw [← (SendMessage.exchange_is hop).mp ho]; decide)
  get_value ho hr :=
    hget ((SendMessage.exchange_is hop).mp ho).symm (SendMessage.exchange_ok.mp hr)
  status := statusOf_eq result
  keepalive := rfl
  key := rfl
  value hn := hvalue fun ⟨ho, hr⟩ =>
    hn ⟨(SendMessage.exchange_is hop).mpr ho.symm, SendMessage.exchange_ok.mpr hr⟩

/-- The reply to one packet obeys the law. -/
theorem CellRecords.law {c c' : Option Value}
    (hcell : op.onCell send.value c = (result, value, c')) (hc : CellRecords send.key h c) :
    HistoryLaw h (send.exchange result value) := by
  cases c with
  | none =>
      -- the key is absent: only a `PUT` succeeds
      have habs : ¬ Present send.key h := hc
      cases op <;> cases hcell <;> apply HistoryLaw.of_result hop <;> simp [habs]
  | some v =>
      -- the key is there: everything but a `PUT` succeeds
      obtain ⟨hp, hw⟩ := hc
      cases op <;> cases hcell <;> apply HistoryLaw.of_result hop <;> simp [hp, hw]

/-- The cell after one packet holds what the longer history says. -/
theorem CellRecords.step {c c' : Option Value}
    (hcell : op.onCell send.value c = (result, value, c')) (hc : CellRecords send.key h c) :
    CellRecords send.key (h ++ [send.exchange result value]) c' := by
  have hkeep : result = false ∨ op = .GET →
      CellRecords send.key (h ++ [send.exchange result value]) c := by
    intro hr
    refine hc.keep ?_ ?_
    · rw [SendMessage.exchange_did hop]
      rcases hr with rfl | rfl <;> simp
    · rw [SendMessage.exchange_did hop]
      rcases hr with rfl | rfl <;> simp
  have hdid := @SendMessage.exchange_did send op result value hop
  have his := @SendMessage.exchange_is send op result value hop
  cases op with
  | GET =>
      cases c <;> cases hcell <;> exact hkeep (Or.inr rfl)
  | PUT =>
      cases c with
      | some v => cases hcell; exact hkeep (Or.inl rfl)
      | none =>
          cases hcell
          exact CellRecords.put (hdid.mpr ⟨rfl, Or.inl rfl⟩) (hdid.mpr ⟨rfl, Or.inl rfl⟩)
            (his.mpr rfl)
  | DELETE =>
      cases c with
      | none => cases hcell; exact hkeep (Or.inl rfl)
      | some v =>
          cases hcell
          refine CellRecords.delete (hdid.mpr ⟨rfl, Or.inr rfl⟩) fun hput => ?_
          cases his.mp hput
  | UPDATE =>
      cases c with
      | none => cases hcell; exact hkeep (Or.inl rfl)
      | some v =>
          cases hcell
          refine CellRecords.update (fun hpd => ?_) (hdid.mpr ⟨rfl, Or.inr rfl⟩) hc
          obtain ⟨-, ho | ho⟩ := hdid.mp hpd <;> cases ho

end Exchange

/-! ## The store against a history -/

section Run

variable {σ : Type} [CuckoohashMap σ Key Value]

/-- Every cell of the store holds what the history says. -/
def Records (store : σ) (h : List Exchange) : Prop :=
  ∀ k, CellRecords k h (CuckoohashMap.find store k)

theorem Records.empty : Records (CuckoohashMap.empty : σ) [] := by
  intro k
  rw [CuckoohashMap.find_empty]
  rintro ⟨x, hx, -⟩
  cases hx

/-- One packet: the reply obeys the law and the store records it. -/
theorem Records.step {store store' : σ} {send : SendMessage} {reply : ResponseMessage}
    {h : List Exchange} (hrec : Records store h)
    (hstep : (storeMachine σ).step store send = some (reply, store')) :
    HistoryLaw h ⟨send, reply⟩ ∧ Records store' (h ++ [⟨send, reply⟩]) := by
  obtain ⟨hact, hframe⟩ := (storeMachine σ).step_spec hstep
  simp only [storeMachine_key, storeMachine_cell, storeMachine_act] at hact hframe
  obtain ⟨op, result, value, hop, hcell, rfl⟩ := actOn_eq_some hact
  refine ⟨(hrec send.key).law hop hcell, fun k => ?_⟩
  by_cases hk : k = send.key
  · subst hk
    exact (hrec send.key).step hop hcell
  · rw [hframe k hk]
    exact (hrec k).other fun h => hk h.symm

/-- A run from a store that records `h`: every reply obeys the law of what came
before it. -/
theorem Records.run {sends : List SendMessage} :
    ∀ {store store' : σ} {replies : List ResponseMessage} {h : List Exchange},
      Records store h → processPackets store sends = some (replies, store') →
      ∀ pre x post, exchanges sends replies = pre ++ x :: post → HistoryLaw (h ++ pre) x := by
  induction sends with
  | nil =>
      intro store store' replies h _ _ pre x post hsplit
      cases pre <;> cases hsplit
  | cons send sends ih =>
      intro store store' replies h hrec hrun pre x post hsplit
      obtain ⟨reply, replies', t, rfl, hstep, hrest⟩ := (storeMachine σ).serve_cons_eq_some hrun
      obtain ⟨hlaw, hrec'⟩ := hrec.step hstep
      cases pre with
      | nil =>
          cases hsplit
          rw [List.append_nil]
          exact hlaw
      | cons y pre =>
          obtain ⟨rfl, hsplit'⟩ := List.cons.inj hsplit
          rw [← List.singleton_append, ← List.append_assoc]
          exact ih hrec' hrest pre x post hsplit'

/-- Replies come one for each packet and carry its key. -/
theorem processPackets_keys {sends : List SendMessage} {store store' : σ}
    {replies : List ResponseMessage} (hrun : processPackets store sends = some (replies, store')) :
    replies.map ResponseMessage.key = sends.map SendMessage.key := by
  induction sends generalizing store replies with
  | nil => cases hrun; rfl
  | cons send sends ih =>
      obtain ⟨reply, replies', t, rfl, hstep, hrest⟩ := (storeMachine σ).serve_cons_eq_some hrun
      obtain ⟨op, result, value, -, -, rfl⟩ := actOn_eq_some ((storeMachine σ).step_spec hstep).1
      rw [List.map_cons, List.map_cons, ih hrest]
      rfl

/-- The replies on one key are those of the packets on that key alone. -/
theorem processPackets_filter {sends : List SendMessage} {store store' : σ}
    {replies : List ResponseMessage} (hrun : processPackets store sends = some (replies, store'))
    (k : Key) : ∃ alone, processPackets store (sends.filter fun m => m.key = k) =
      some (replies.filter fun r => r.key = k, alone) := by
  obtain ⟨alone, hserve⟩ := (storeMachine σ).serve_key hrun k
  refine ⟨alone, hserve.trans ?_⟩
  have hzip : (sends.map SendMessage.key).zip replies =
      CellMachine.tagged ResponseMessage.key replies := by
    have hmap : (replies.map ResponseMessage.key).zip (replies.map id) =
        replies.map fun r => (r.key, r) := List.zip_map'
    rw [List.map_id] at hmap
    rw [← processPackets_keys hrun, hmap]
    rfl
  rw [← CellMachine.ofClient_tagged]
  exact congrArg (fun l => some (CellMachine.ofClient k l, alone)) hzip

/-- From the empty store every valid packet is answered as the successes before
it on its key say, and packets on other keys make no difference. -/
theorem store_history_law (sends : List SendMessage) (hvalid : ∀ m ∈ sends, m.Valid) :
    ∃ replies store, processPackets (CuckoohashMap.empty : σ) sends = some (replies, store) ∧
      replies.length = sends.length ∧
      (∀ pre x post, exchanges sends replies = pre ++ x :: post → HistoryLaw pre x) ∧
      ∀ k, ∃ alone, processPackets (CuckoohashMap.empty : σ) (sends.filter fun m => m.key = k) =
        some (replies.filter fun r => r.key = k, alone) := by
  have htotal : ∀ m ∈ sends, (storeMachine σ).Total m := fun m hm =>
    Request.total ⟨m, hvalid m hm⟩
  obtain ⟨replies, store, hrun⟩ := (storeMachine σ).serve_isSome htotal CuckoohashMap.empty
  refine ⟨replies, store, hrun, ?_, Records.run Records.empty hrun, processPackets_filter hrun⟩
  rw [← List.length_map ResponseMessage.key, processPackets_keys hrun, List.length_map]

/-- The law of a `PUT` followed by a `GET` of the same key. -/
theorem store_history_law_put_get :
    ∃ replies store, processPackets (CuckoohashMap.empty : Key → Option Value)
        [SendMessage.blank .PUT 1, SendMessage.blank .GET 1] = some (replies, store) ∧
      replies.length = 2 ∧
      (∀ pre x post, exchanges [SendMessage.blank .PUT 1, SendMessage.blank .GET 1] replies =
        pre ++ x :: post → HistoryLaw pre x) ∧
      ∀ k, ∃ alone, processPackets (CuckoohashMap.empty : Key → Option Value)
        ([SendMessage.blank .PUT 1, SendMessage.blank .GET 1].filter fun m => m.key = k) =
          some (replies.filter fun r => r.key = k, alone) :=
  store_history_law [SendMessage.blank .PUT 1, SendMessage.blank .GET 1] (by decide)

end Run

end KvServer
