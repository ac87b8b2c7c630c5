import KvServer.Store.Messages

/-!
# The store under the server

`CuckooKVStore` is a thin wrapper: each method hands its arguments to a
`cuckoohash_map` of the library libcuckoo.  The library is not part of the
repository, so the map is a parameter.  `CuckoohashMap` lists the operations the
wrapper calls and the map semantics the library documents for them.  Insertion
fails and changes nothing on a present key, update and erasure fail and change
nothing on an absent key, and `find` copies the value out exactly when the key is
present.  What a failed or a successful call does to the table itself (growth,
moves between buckets) stays open: the laws only speak about what `find` sees.

The methods `contains` and `size` of the wrapper have no caller in the server.
-/

namespace KvServer

/-- The operations of `cuckoohash_map` and their documented effect on what `find`
sees. -/
class CuckoohashMap (σ : Type) (κ ν : outParam Type) where
  /-- The table a constructor makes. -/
  empty : σ
  /-- The value at a key, if there is one. -/
  find : σ → κ → Option ν
  /-- Add a key that is not there. -/
  insert : σ → κ → ν → Bool × σ
  /-- Replace the value of a key that is there. -/
  update : σ → κ → ν → Bool × σ
  /-- Remove a key that is there. -/
  erase : σ → κ → Bool × σ
  find_empty : ∀ k, find empty k = none
  insert_absent : ∀ {s k} v, find s k = none → (insert s k v).1 = true ∧
    find (insert s k v).2 k = some v ∧ ∀ k', k' ≠ k → find (insert s k v).2 k' = find s k'
  insert_present : ∀ {s k w} v, find s k = some w → (insert s k v).1 = false ∧
    ∀ k', find (insert s k v).2 k' = find s k'
  update_absent : ∀ {s k} v, find s k = none → (update s k v).1 = false ∧
    ∀ k', find (update s k v).2 k' = find s k'
  update_present : ∀ {s k w} v, find s k = some w → (update s k v).1 = true ∧
    find (update s k v).2 k = some v ∧ ∀ k', k' ≠ k → find (update s k v).2 k' = find s k'
  erase_absent : ∀ {s k}, find s k = none → (erase s k).1 = false ∧
    ∀ k', find (erase s k).2 k' = find s k'
  erase_present : ∀ {s k w}, find s k = some w → (erase s k).1 = true ∧
    find (erase s k).2 k = none ∧ ∀ k', k' ≠ k → find (erase s k).2 k' = find s k'

/-- A function is a map: the reference model of the class, and a store that
evaluates. -/
instance CuckoohashMap.ofFunction {κ ν : Type} [DecidableEq κ] :
    CuckoohashMap (κ → Option ν) κ ν where
  empty := fun _ => none
  find := fun s k => s k
  insert := fun s k v =>
    if (s k).isNone then (true, Function.update s k (some v)) else (false, s)
  update := fun s k v =>
    if (s k).isSome then (true, Function.update s k (some v)) else (false, s)
  erase := fun s k =>
    if (s k).isSome then (true, Function.update s k none) else (false, s)
  find_empty := fun _ => rfl
  insert_absent := by
    intro s k v h
    simp only [h, Option.isNone_none, if_true]
    exact ⟨trivial, Function.update_self .., fun k' hk => Function.update_of_ne hk ..⟩
  insert_present := by
    intro s k w v h
    simp [h]
  update_absent := by
    intro s k v h
    simp [h]
  update_present := by
    intro s k w v h
    simp only [h, Option.isSome_some, if_true]
    exact ⟨trivial, Function.update_self .., fun k' hk => Function.update_of_ne hk ..⟩
  erase_absent := by
    intro s k h
    simp [h]
  erase_present := by
    intro s k w h
    simp only [h, Option.isSome_some, if_true]
    exact ⟨trivial, Function.update_self .., fun k' hk => Function.update_of_ne hk ..⟩

/-! ## The wrapper -/

namespace CuckooKVStore

variable {σ : Type} [CuckoohashMap σ Key Value]

/-- `CuckooKVStore::insert`. -/
def insert (hashtable : σ) (key : Key) (value : Value) : Bool × σ :=
  CuckoohashMap.insert hashtable key value

/-- `CuckooKVStore::find`.  `out_value` is written only when the key is there. -/
def find (hashtable : σ) (key : Key) (out_value : Value) : Bool × Value :=
  match CuckoohashMap.find hashtable key with
  | some value => (true, value)
  | none => (false, out_value)

/-- `CuckooKVStore::erase`. -/
def erase (hashtable : σ) (key : Key) : Bool × σ :=
  CuckoohashMap.erase hashtable key

/-- `CuckooKVStore::update`. -/
def update (hashtable : σ) (key : Key) (value : Value) : Bool × σ :=
  CuckoohashMap.update hashtable key value

end CuckooKVStore

end KvServer
