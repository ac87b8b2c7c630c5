import KvServer.Store.Process

/-!
# Clients that share the store

The server runs one thread per core, and all of them call
`kvstore_process_packet` on the one store.  Each call is atomic, so what the
store sees is a schedule: the packets of all clients in some order, each with the
client that sent it.

When no key is used by two clients the order does not matter.  Every client gets
the replies it gets alone, and every schedule leaves the same store behind.
-/

namespace KvServer

open CellMachine

variable {σ ι : Type} [CuckoohashMap σ Key Value]

/-- Process the packets of several clients in order. -/
def processSchedule (store : σ) (sends : List (ι × SendMessage)) :
    Option (List (ι × ResponseMessage) × σ) :=
  (storeMachine σ).serveAll store sends

/-- No key is used by two clients. -/
def DisjointKeys (sends : List (ι × SendMessage)) : Prop :=
  ∀ x ∈ sends, ∀ y ∈ sends, x.2.key = y.2.key → x.1 = y.1

theorem processSchedule_isSome {sends : List (ι × SendMessage)}
    (hvalid : ∀ x ∈ sends, x.2.Valid) (store : σ) :
    ∃ replies store', processSchedule store sends = some (replies, store') :=
  (storeMachine σ).serveAll_isSome (fun x hx => Request.total ⟨x.2, hvalid x hx⟩) store

variable [DecidableEq ι]

/-- Two schedules of the same clients: every client gets the same replies in
both, those it gets alone, and the two stores they leave are the same map. -/
theorem clients_on_disjoint_keys (store : σ) (sends₁ sends₂ : List (ι × SendMessage))
    (hvalid : ∀ x ∈ sends₁, x.2.Valid) (hdisjoint : DisjointKeys sends₁)
    (hsame : ∀ c, ofClient c sends₁ = ofClient c sends₂) :
    ∃ replies₁ store₁ replies₂ store₂,
      processSchedule store sends₁ = some (replies₁, store₁) ∧
      processSchedule store sends₂ = some (replies₂, store₂) ∧
      (∀ c, ofClient c replies₁ = ofClient c replies₂) ∧
      (∀ c, ∃ alone, processPackets store (ofClient c sends₁) =
        some (ofClient c replies₁, alone)) ∧
      ∀ k, CuckoohashMap.find store₁ k = CuckoohashMap.find store₂ k := by
  have hmem : ∀ x, x ∈ sends₂ → x ∈ sends₁ := by
    rintro ⟨c, m⟩ hx
    rw [← mem_ofClient, hsame, mem_ofClient]
    exact hx
  obtain ⟨replies₁, store₁, hrun₁⟩ := processSchedule_isSome hvalid store
  obtain ⟨replies₂, store₂, hrun₂⟩ :=
    processSchedule_isSome (fun x hx => hvalid x (hmem x hx)) store
  have hdisjoint₂ : DisjointKeys sends₂ := fun x hx y hy =>
    hdisjoint x (hmem x hx) y (hmem y hy)
  refine ⟨replies₁, store₁, replies₂, store₂, hrun₁, hrun₂, fun c => ?_, fun c => ?_, fun k => ?_⟩
  · -- both are the replies of the run of `c` alone
    obtain ⟨alone₁, halone₁, -⟩ := (storeMachine σ).serveAll_client hdisjoint hrun₁ c
    obtain ⟨alone₂, halone₂, -⟩ := (storeMachine σ).serveAll_client hdisjoint₂ hrun₂ c
    rw [hsame c, halone₂] at halone₁
    exact (Prod.mk.inj (Option.some.inj halone₁)).1.symm
  · obtain ⟨alone, halone, -⟩ := (storeMachine σ).serveAll_client hdisjoint hrun₁ c
    exact ⟨alone, halone⟩
  · exact (storeMachine σ).serveAll_cell hdisjoint hsame hrun₁ hrun₂ k

/-- Two clients that put one key each, in both orders. -/
theorem clients_on_disjoint_keys_two :
    let a : Bool × SendMessage := (false, SendMessage.blank .PUT 1)
    let b : Bool × SendMessage :=
      (true, { SendMessage.blank .PUT 1 with key := Vector.replicate 16 1 })
    ∃ replies₁ store₁ replies₂ store₂,
      processSchedule (CuckoohashMap.empty : Key → Option Value) [a, b] =
        some (replies₁, store₁) ∧
      processSchedule (CuckoohashMap.empty : Key → Option Value) [b, a] =
        some (replies₂, store₂) ∧
      (∀ c, ofClient c replies₁ = ofClient c replies₂) ∧
      (∀ c, ∃ alone, processPackets (CuckoohashMap.empty : Key → Option Value)
        (ofClient c [a, b]) = some (ofClient c replies₁, alone)) ∧
      ∀ k, CuckoohashMap.find store₁ k = CuckoohashMap.find store₂ k :=
  clients_on_disjoint_keys _ _ _ (by decide) (by unfold DisjointKeys; decide) (by decide)

end KvServer
