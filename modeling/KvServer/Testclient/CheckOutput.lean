import KvServer.Store.History

/-!
# The expected responses

`checkoutput` keeps a map of its own and builds from it the response that it expects
to each request.  `compareResp` then compares keys and values.

What either map holds under a key is decided by the requests on that key.
`KeyState` is what they say: nothing was written, a value was written, or a value was
written and its key deleted since.  The map of the oracle has the value in the last
two cases (`KeyState.kept`), the store of the server only in the second
(`KeyState.stored`), and of a value the oracle copies one half.  So the two agree on a
`GET` exactly if the other half, or after a `DELETE` the first half, is zero
(`KeyState.answers_iff`).
-/

namespace KvServer.Testclient

/-! ## The oracle -/

/-- `hashmap`, from keys to values. -/
abbrev Hashmap := Key → Option Value

/-- `memcpy` of 16 bytes into a value that was set to 0. -/
def firstHalf (value : Value) : Value := Vector.ofFn fun i => if i.val < 16 then value.get i else 0

def zeros : Value := Vector.replicate 32 0

/-- The expected response to one request, and the map afterwards.  `stack` is what is in
the fields that nobody sets. -/
def expectedResponse (stack : ResponseMessage) (hashmap : Hashmap) (send : SendMessage) :
    ResponseMessage × Hashmap :=
  if send.operation = Operation.GET.code then
    ({ stack with key := send.key, value := ((hashmap send.key).map firstHalf).getD zeros },
      hashmap)
  else
    ({ stack with key := send.key, value := send.value },
      if send.operation = Operation.PUT.code ∨ send.operation = Operation.UPDATE.code then
        Function.update hashmap send.key (some send.value)
      -- `erase` is reached only for keys that are not in the map
      else if hashmap send.key = none then Function.update hashmap send.key none
      else hashmap)

/-- The expected responses to a list of requests. -/
def expectedResponses (stack : ResponseMessage) : Hashmap → List SendMessage → List ResponseMessage
  | _, [] => []
  | hashmap, send :: sends =>
      let (response, hashmap') := expectedResponse stack hashmap send
      response :: expectedResponses stack hashmap' sends

/-- `compareResp` -/
def compareResp (resp checkresp : ResponseMessage) : Nat :=
  if (List.finRange 16).any fun i => resp.key.get i ≠ checkresp.key.get i then 0
  else if (List.finRange 32).any fun j => resp.value.get j ≠ checkresp.value.get j then 0
  else 1

/-- The key and the value are the same. -/
def SameContent (resp checkresp : ResponseMessage) : Prop :=
  resp.key = checkresp.key ∧ resp.value = checkresp.value

theorem any_get_ne {n : Nat} {v w : Vector Byte n} :
    ((List.finRange n).any fun i => v.get i ≠ w.get i) = true ↔ v ≠ w := by
  rw [List.any_eq_true]
  constructor
  · rintro ⟨i, -, hi⟩ rfl
    exact of_decide_eq_true hi rfl
  · intro hne
    apply Decidable.byContradiction
    intro hall
    refine hne (Vector.ext fun i hi => ?_)
    refine Decidable.byContradiction fun hi' => hall ⟨⟨i, hi⟩, List.mem_finRange _, ?_⟩
    exact decide_eq_true hi'

theorem compareResp_eq_one_iff {resp checkresp : ResponseMessage} :
    compareResp resp checkresp = 1 ↔ SameContent resp checkresp := by
  simp only [compareResp, any_get_ne, SameContent]
  split
  · next hkey => simp [hkey]
  · next hkey =>
      split
      · next hvalue => simp [hvalue]
      · next hvalue => simp [not_not.mp hkey, not_not.mp hvalue]

/-! ## What the requests say about a key -/

inductive KeyState where
  | unwritten
  | written (value : Value)
  | deleted (value : Value)
deriving DecidableEq, Repr

namespace KeyState

/-- What the map of the oracle has. -/
def kept : KeyState → Option Value
  | unwritten => none
  | written value => some value
  | deleted value => some value

/-- What the store has. -/
def stored : KeyState → Option Value
  | unwritten => none
  | written value => some value
  | deleted _ => none

/-- A request on the key that succeeds. -/
def next (st : KeyState) (send : SendMessage) : KeyState :=
  if send.operation = Operation.PUT.code ∨ send.operation = Operation.UPDATE.code then
    written send.value
  else if send.operation = Operation.DELETE.code then
    match st with
    | written value => deleted value
    | st => st
  else st

/-- The half of the value that makes a difference to the oracle is zero. -/
def Answers : KeyState → Prop
  | unwritten => True
  | written value => ∀ i : Fin 32, 16 ≤ i.val → value.get i = 0
  | deleted value => ∀ i : Fin 32, i.val < 16 → value.get i = 0

/-- The state of `k` after requests that succeed. -/
def after (states : Key → KeyState) (sends : List SendMessage) (k : Key) : KeyState :=
  (sends.filter fun m => m.key = k).foldl next (states k)

theorem after_cons (states : Key → KeyState) (send : SendMessage) (sends : List SendMessage) :
    after states (send :: sends) =
      after (Function.update states send.key ((states send.key).next send)) sends := by
  funext k
  by_cases hk : send.key = k
  · subst hk
    simp [after]
  · simp [after, hk, Function.update_of_ne (Ne.symm hk)]

theorem get_firstHalf (value : Value) (i : Fin 32) :
    (firstHalf value).get i = if i.val < 16 then value.get i else 0 :=
  Vector.getElem_ofFn i.isLt

theorem get_zeros (i : Fin 32) : zeros.get i = 0 := Vector.getElem_replicate i.isLt

/-- The oracle answers a `GET` as the store does. -/
theorem answers_iff (st : KeyState) :
    st.stored.getD zeros = (st.kept.map firstHalf).getD zeros ↔ st.Answers := by
  cases st with
  | unwritten => exact iff_of_true rfl trivial
  | written value =>
      constructor
      · intro heq i hi
        have hget := get_firstHalf value i
        rw [if_neg (Nat.not_lt.mpr hi)] at hget
        rwa [← show value = firstHalf value from heq] at hget
      · intro hzero
        refine Vector.ext fun i hi => ?_
        have hget := get_firstHalf value ⟨i, hi⟩
        split at hget
        · exact hget.symm
        · next hge => exact (hzero ⟨i, hi⟩ (Nat.not_lt.mp hge)).trans hget.symm
  | deleted value =>
      constructor
      · intro heq i hi
        have hget := get_firstHalf value i
        rw [if_pos hi, ← show zeros = firstHalf value from heq] at hget
        rw [← hget, get_zeros]
      · intro hzero
        refine Vector.ext fun i hi => ?_
        have hget := get_firstHalf value ⟨i, hi⟩
        have hz := get_zeros ⟨i, hi⟩
        split at hget
        · next hlt => exact hz.trans ((hzero ⟨i, hi⟩ hlt).symm.trans hget.symm)
        · exact hz.trans hget.symm

end KeyState

/-! ## The oracle against the store -/

section Agrees

variable {σ : Type} [CuckoohashMap σ Key Value]

/-- Both maps are what the requests say. -/
structure Agrees (states : Key → KeyState) (hashmap : Hashmap) (store : σ) : Prop where
  kept : ∀ k, hashmap k = (states k).kept
  stored : ∀ k, CuckoohashMap.find store k = (states k).stored

theorem Agrees.empty :
    Agrees (fun _ => .unwritten) (fun _ => none) (CuckoohashMap.empty : σ) where
  kept _ := rfl
  stored k := CuckoohashMap.find_empty k

/-- One cell changes on both sides. -/
theorem Agrees.change {states : Key → KeyState} {hashmap hashmap' : Hashmap} {store store' : σ}
    {k : Key} {st : KeyState} (h : Agrees states hashmap store)
    (hkept : hashmap' k = st.kept) (hstored : CuckoohashMap.find store' k = st.stored)
    (hframe : ∀ k', k' ≠ k → hashmap' k' = hashmap k')
    (hframe' : ∀ k', k' ≠ k → CuckoohashMap.find store' k' = CuckoohashMap.find store k') :
    Agrees (Function.update states k st) hashmap' store' := by
  constructor
  · intro k'
    by_cases hk : k' = k
    · subst hk
      rw [Function.update_self, hkept]
    · rw [Function.update_of_ne hk, hframe k' hk, h.kept]
  · intro k'
    by_cases hk : k' = k
    · subst hk
      rw [Function.update_self, hstored]
    · rw [Function.update_of_ne hk, hframe' k' hk, h.stored]

/-- The oracle touches the entry of the key of the request only. -/
theorem expectedResponse_frame (stack : ResponseMessage) (hashmap : Hashmap) (send : SendMessage)
    {k : Key} (hk : k ≠ send.key) : (expectedResponse stack hashmap send).2 k = hashmap k := by
  unfold expectedResponse
  split
  · rfl
  · dsimp only
    split
    · exact Function.update_of_ne hk _ _
    · split
      · exact Function.update_of_ne hk _ _
      · rfl

/-- A `PUT` or an `UPDATE`. -/
theorem KeyState.write {send : SendMessage} (stack : ResponseMessage) (st : KeyState)
    (hashmap : Hashmap)
    (hcode : send.operation = Operation.PUT.code ∨ send.operation = Operation.UPDATE.code) :
    st.next send = .written send.value ∧ expectedResponse stack hashmap send =
      ({ stack with key := send.key, value := send.value },
        Function.update hashmap send.key (some send.value)) := by
  have hget : send.operation ≠ Operation.GET.code := by
    rintro hop
    rw [hop] at hcode
    exact absurd hcode (by decide)
  unfold KeyState.next expectedResponse
  rw [if_neg hget, if_pos hcode, if_pos hcode]
  exact ⟨rfl, rfl⟩

/-- A `PUT` or an `UPDATE` that succeeds. -/
theorem onCell_write {op : Operation} {value value' : Value} {cell cell' : Option Value}
    (hop : op = .PUT ∨ op = .UPDATE) (h : op.onCell value cell = (true, value', cell')) :
    value' = value ∧ cell' = some value := by
  rcases hop with rfl | rfl
  · cases cell <;> cases h
    exact ⟨rfl, rfl⟩
  · cases cell <;> cases h
    exact ⟨rfl, rfl⟩

section KeyStep

variable {send : SendMessage} {st : KeyState} {cell : Option Value} {value : Value}
  {hashmap : Hashmap} (stack : ResponseMessage)

/-- A `GET` with a value of zeros: the oracle may answer it with the wrong half. -/
theorem KeyState.step_get {result : Bool} (hcode : send.operation = Operation.GET.code)
    (hkept : hashmap send.key = st.kept) (hzero : send.value = zeros)
    (hact : Operation.GET.onCell send.value st.stored = (result, value, cell)) :
    (expectedResponse stack hashmap send).2 send.key = (st.next send).kept ∧
      cell = (st.next send).stored ∧
      (value = (expectedResponse stack hashmap send).1.value ↔ st.Answers) := by
  have hnext : st.next send = st := by
    unfold KeyState.next
    rw [hcode]
    rfl
  have hexp : expectedResponse stack hashmap send = ({ stack with
      key := send.key, value := ((hashmap send.key).map firstHalf).getD zeros }, hashmap) :=
    if_pos hcode
  have hcell : value = st.stored.getD zeros ∧ cell = st.stored := by
    cases hs : st.stored with
    | none =>
        rw [hs] at hact
        cases hact
        exact ⟨hzero, rfl⟩
    | some v =>
        rw [hs] at hact
        cases hact
        exact ⟨rfl, rfl⟩
  rw [hnext, hexp, hcell.1, hkept, KeyState.answers_iff]
  exact ⟨hkept, hcell.2, Iff.rfl⟩

/-- A `PUT` or an `UPDATE` that succeeds. -/
theorem KeyState.step_write {op : Operation} (hop : op = .PUT ∨ op = .UPDATE)
    (hcode : send.operation = op.code)
    (hact : op.onCell send.value st.stored = (true, value, cell)) :
    (expectedResponse stack hashmap send).2 send.key = (st.next send).kept ∧
      cell = (st.next send).stored ∧
      value = (expectedResponse stack hashmap send).1.value := by
  have hwrite : send.operation = Operation.PUT.code ∨ send.operation = Operation.UPDATE.code := by
    rcases hop with rfl | rfl
    · exact Or.inl hcode
    · exact Or.inr hcode
  obtain ⟨hnext, hexp⟩ := KeyState.write stack st hashmap hwrite
  obtain ⟨hvalue, hcell⟩ := onCell_write hop hact
  rw [hnext, hexp]
  exact ⟨Function.update_self _ _ _, hcell, hvalue⟩

/-- A `DELETE` that succeeds: the key is in the map of the oracle, so it stays there. -/
theorem KeyState.step_delete (hcode : send.operation = Operation.DELETE.code)
    (hkept : hashmap send.key = st.kept)
    (hact : Operation.DELETE.onCell send.value st.stored = (true, value, cell)) :
    (expectedResponse stack hashmap send).2 send.key = (st.next send).kept ∧
      cell = (st.next send).stored ∧
      value = (expectedResponse stack hashmap send).1.value := by
  cases st with
  | unwritten => cases hact
  | deleted v => cases hact
  | written v =>
      cases hact
      have hexp : expectedResponse stack hashmap send =
          ({ stack with key := send.key, value := send.value }, hashmap) := by
        simp [expectedResponse, hcode, hkept, KeyState.kept, Operation.code]
      have hnext : (KeyState.written v).next send = .deleted v := by
        simp [KeyState.next, hcode, Operation.code]
      rw [hnext, hexp]
      exact ⟨hkept, rfl, rfl⟩

/-- A request on the cell of its key, in the state that the requests before it say. -/
theorem KeyState.step {op : Operation} {result : Bool}
    (hop : Operation.ofByte? send.operation = some op) (hkept : hashmap send.key = st.kept)
    (hact : op.onCell send.value st.stored = (result, value, cell))
    (hzero : op = .GET → send.value = zeros) (hok : op ≠ .GET → result = true) :
    (expectedResponse stack hashmap send).2 send.key = (st.next send).kept ∧
      cell = (st.next send).stored ∧
      (value = (expectedResponse stack hashmap send).1.value ↔ (op = .GET → st.Answers)) := by
  have hcode := Operation.ofByte?_eq_some hop
  by_cases hget : op = .GET
  · subst hget
    obtain ⟨hmap, hstored, hvalue⟩ := KeyState.step_get stack hcode hkept (hzero rfl) hact
    exact ⟨hmap, hstored, hvalue.trans ⟨fun h _ => h, fun h => h rfl⟩⟩
  · rw [hok hget] at hact
    have hstep : (expectedResponse stack hashmap send).2 send.key = (st.next send).kept ∧
        cell = (st.next send).stored ∧
        value = (expectedResponse stack hashmap send).1.value := by
      cases op with
      | GET => exact absurd rfl hget
      | PUT => exact KeyState.step_write stack (Or.inl rfl) hcode hact
      | UPDATE => exact KeyState.step_write stack (Or.inr rfl) hcode hact
      | DELETE => exact KeyState.step_delete stack hcode hkept hact
    exact ⟨hstep.1, hstep.2.1, iff_of_true hstep.2.2 fun h => absurd h hget⟩

end KeyStep

/-- One request: both maps follow what the requests say, and the reply is the expected one
unless it answers a `GET` on the wrong half. -/
theorem Agrees.step {states : Key → KeyState} {hashmap : Hashmap} {store store' : σ}
    {send : SendMessage} {reply : ResponseMessage} (stack : ResponseMessage)
    (h : Agrees states hashmap store)
    (hstep : (storeMachine σ).step store send = some (reply, store'))
    (hzero : send.operation = Operation.GET.code → send.value = zeros)
    (hok : send.operation ≠ Operation.GET.code → reply.status_code = StatusCode.OK.code) :
    Agrees (Function.update states send.key ((states send.key).next send))
        (expectedResponse stack hashmap send).2 store' ∧
      (SameContent reply (expectedResponse stack hashmap send).1 ↔
        (send.operation = Operation.GET.code → (states send.key).Answers)) := by
  obtain ⟨hact, hframe⟩ := (storeMachine σ).step_spec hstep
  simp only [storeMachine_key, storeMachine_cell, storeMachine_act] at hact hframe
  obtain ⟨op, result, value, hop, hcell, rfl⟩ := actOn_eq_some hact
  rw [h.stored] at hcell
  have hget : send.operation = Operation.GET.code ↔ op = .GET := by
    constructor
    · intro hcode
      rw [hcode, Operation.ofByte?_code] at hop
      exact (Option.some.inj hop).symm
    · rintro rfl
      exact Operation.ofByte?_eq_some hop
  have hresult : op ≠ .GET → result = true := fun hne =>
    SendMessage.exchange_ok.mp (hok fun hcode => hne (hget.mp hcode))
  obtain ⟨hkept, hstored, hvalue⟩ := KeyState.step stack hop (h.kept send.key) hcell
    (fun heq => hzero (hget.mpr heq)) hresult
  have hkey : (expectedResponse stack hashmap send).1.key = send.key := by
    unfold expectedResponse
    split <;> rfl
  constructor
  · exact h.change hkept hstored (fun k hk => expectedResponse_frame stack hashmap send hk) hframe
  · rw [SameContent, hkey, hget]
    exact (and_iff_right rfl).trans hvalue

/-- A run: the replies are the expected ones exactly if every `GET` is on a key that the
oracle can answer. -/
theorem Agrees.run (stack : ResponseMessage) {sends : List SendMessage} :
    ∀ {states : Key → KeyState} {hashmap : Hashmap} {store store' : σ}
      {replies : List ResponseMessage}, Agrees states hashmap store →
      processPackets store sends = some (replies, store') →
      (∀ m ∈ sends, m.operation = Operation.GET.code → m.value = zeros) →
      (∀ x ∈ exchanges sends replies, ¬ x.Is .GET → x.Ok) →
      (List.Forall₂ SameContent replies (expectedResponses stack hashmap sends) ↔
        ∀ before get later, sends = before ++ get :: later → get.operation = Operation.GET.code →
          (KeyState.after states before get.key).Answers) := by
  induction sends with
  | nil =>
      intro states hashmap store store' replies _ hrun _ _
      cases hrun
      refine iff_of_true .nil ?_
      intro before get later hsplit
      cases before <;> cases hsplit
  | cons send sends ih =>
      intro states hashmap store store' replies h hrun hzero hok
      obtain ⟨reply, replies', t, rfl, hstep, hrest⟩ := (storeMachine σ).serve_cons_eq_some hrun
      obtain ⟨h', hsame⟩ := h.step stack hstep (hzero send List.mem_cons_self)
        (hok ⟨send, reply⟩ List.mem_cons_self)
      have hrun' := ih h' hrest (fun m hm => hzero m (List.mem_cons_of_mem _ hm))
        (fun x hx => hok x (List.mem_cons_of_mem _ hx))
      rw [expectedResponses, List.forall₂_cons, hsame, hrun']
      constructor
      · rintro ⟨hhead, htail⟩ before get later hsplit hget
        cases before with
        | nil =>
            cases hsplit
            exact hhead hget
        | cons m before =>
            cases hsplit
            rw [KeyState.after_cons]
            exact htail before get later rfl hget
      · intro hall
        refine ⟨fun hget => hall [] send sends rfl hget, ?_⟩
        rintro before get later rfl hget
        have hsplit := hall (send :: before) get later rfl hget
        rwa [KeyState.after_cons] at hsplit

/-- From the empty store and the empty map, when every `PUT`, `UPDATE` and `DELETE` succeeds
and a `GET` carries zeros: the replies have the expected keys and values, and `compareResp`
returns 1 for each of them, exactly if for each `GET` the last value written on its key ends in
16 zeros, or starts with 16 zeros if the key was deleted since. -/
theorem oracle_agrees_iff (stack : ResponseMessage) {sends : List SendMessage}
    {replies : List ResponseMessage} {store : σ}
    (hrun : processPackets (CuckoohashMap.empty : σ) sends = some (replies, store))
    (hzero : ∀ m ∈ sends, m.operation = Operation.GET.code → m.value = zeros)
    (hok : ∀ x ∈ exchanges sends replies, ¬ x.Is .GET → x.Ok) :
    (List.Forall₂ SameContent replies (expectedResponses stack (fun _ => none) sends) ↔
        ∀ before get later, sends = before ++ get :: later → get.operation = Operation.GET.code →
          (KeyState.after (fun _ => .unwritten) before get.key).Answers) ∧
      (List.Forall₂ (fun reply expected => compareResp reply expected = 1) replies
          (expectedResponses stack (fun _ => none) sends) ↔
        ∀ before get later, sends = before ++ get :: later → get.operation = Operation.GET.code →
          (KeyState.after (fun _ => .unwritten) before get.key).Answers) := by
  have hiff := Agrees.run stack Agrees.empty hrun hzero hok
  refine ⟨hiff, ?_⟩
  simp only [compareResp_eq_one_iff]
  exact hiff

/-- A key is put with a value of zeros and read. -/
theorem oracle_agrees_iff_put_get :
    List.Forall₂ SameContent
      [(SendMessage.blank .PUT 1).reply true zeros, (SendMessage.blank .GET 1).reply true zeros]
      (expectedResponses ((SendMessage.blank .GET 0).reply true zeros) (fun _ => none)
        [SendMessage.blank .PUT 1, SendMessage.blank .GET 1]) := by
  have hrun : ∃ store, processPackets (CuckoohashMap.empty : Key → Option Value)
      [SendMessage.blank .PUT 1, SendMessage.blank .GET 1] =
        some ([(SendMessage.blank .PUT 1).reply true zeros,
          (SendMessage.blank .GET 1).reply true zeros], store) := ⟨_, rfl⟩
  obtain ⟨store, hrun⟩ := hrun
  refine (oracle_agrees_iff _ hrun (by decide) (by decide)).1.mpr ?_
  intro before get later hsplit hget
  rcases before with _ | ⟨m, _ | ⟨m', before⟩⟩
  · cases hsplit
    exact absurd hget (by decide)
  · cases hsplit
    have hstate : KeyState.after (fun _ => .unwritten) [SendMessage.blank .PUT 1]
        (SendMessage.blank .GET 1).key = .written zeros := by
      decide
    rw [hstate]
    exact fun i _ => KeyState.get_zeros i
  · cases before <;> cases hsplit

/-- A key is put with 32 nonzero bytes and read: the oracle expects the first 16 of them. -/
theorem oracle_disagrees :
    ∃ sends replies store,
      processPackets (CuckoohashMap.empty : Key → Option Value) sends = some (replies, store) ∧
      (∀ m ∈ sends, m.operation = Operation.GET.code → m.value = zeros) ∧
      (∀ x ∈ exchanges sends replies, ¬ x.Is .GET → x.Ok) ∧
      ¬ List.Forall₂ (fun reply expected => compareResp reply expected = 1) replies
        (expectedResponses ((SendMessage.blank .GET 0).reply true zeros) (fun _ => none)
          sends) := by
  refine ⟨[{ SendMessage.blank .PUT 1 with value := Vector.replicate 32 1 },
    SendMessage.blank .GET 1], _, _, rfl, by decide, by decide, ?_⟩
  decide

end Agrees

end KvServer.Testclient
