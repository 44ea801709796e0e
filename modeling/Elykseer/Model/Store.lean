import Mathlib.Data.List.AList
import Elykseer.Model.Assembly

/-!
# Stores

A `CoqStore` is a map from strings to values.  The three stores differ in what `add`
does with a key that is already there: the key store refuses to replace it, the
file-block store appends to its list, and the file-information store replaces it.
-/

set_option autoImplicit false

namespace Elykseer.Model

/-- `CoqStore<V>`, with `std::string` as key type -/
abbrev CoqStore (V : Type) := AList fun _ : Bytes => V

namespace CoqStore

variable {V : Type}

/-- `find(k)` -/
def find (s : CoqStore V) (k : Bytes) : Option V := s.lookup k

/-- `contains(k)` -/
def contains (s : CoqStore V) (k : Bytes) : Bool := (s.find k).isSome

/-- `add(k, v)` -/
def add (s : CoqStore V) (k : Bytes) (v : V) : CoqStore V := s.insert k v

/-- Nothing is found in the empty store. -/
@[simp] theorem find_empty (k : Bytes) : find (∅ : CoqStore V) k = none :=
  AList.lookup_empty k

/-- The entry added is found under its key, the others are as before. -/
@[simp] theorem find_add (s : CoqStore V) (k : Bytes) (v : V) (k' : Bytes) :
    (s.add k v).find k' = if k' = k then some v else s.find k' := by
  unfold find add
  split
  · next h => rw [h, AList.lookup_insert]
  · next h => exact AList.lookup_insert_ne h

end CoqStore

/-- `CoqFilesupport::FileInformation` -/
structure FileInformation where
  fname : Bytes
  fhash : Bytes
  fsize : ℕ
  fowner : Bytes
  fpermissions : ℕ
  fmodified : Bytes
  fchecksum : Bytes
  deriving DecidableEq

/-- `CoqKeyStore` -/
abbrev CoqKeyStore := CoqStore KeyInformation

/-- `CoqFBlockStore` -/
abbrev CoqFBlockStore := CoqStore (List BlockInformation)

/-- `CoqFInfoStore` -/
abbrev CoqFInfoStore := CoqStore FileInformation

/-- `CoqKeyStore::add(k, v)` -/
def CoqKeyStore.add (s : CoqKeyStore) (k : Bytes) (v : KeyInformation) : CoqKeyStore :=
  if s.contains k then s else CoqStore.add s k v

/-- `CoqFBlockStore::add(k, v)`; the `blockid` is an `int`. -/
def CoqFBlockStore.add (s : CoqFBlockStore) (k : Bytes) (v : BlockInformation) :
    CoqFBlockStore :=
  match CoqStore.find s k with
  | some l => CoqStore.add s k (l ++ [{ v with blockid := i32 ((l.length + 1) % 4294967296) }])
  | none => CoqStore.add s k [{ v with blockid := 1 }]

/-- `CoqFInfoStore::add(k, v)` -/
def CoqFInfoStore.add (s : CoqFInfoStore) (k : Bytes) (v : FileInformation) : CoqFInfoStore :=
  CoqStore.add s k v

/-- The blocks stored under a key, none if there is no list. -/
def CoqFBlockStore.blocks (s : CoqFBlockStore) (k : Bytes) : List BlockInformation :=
  (CoqStore.find s k).getD []

/-- A key once found is never replaced. -/
theorem CoqKeyStore.find_add (s : CoqKeyStore) (k : Bytes) (v : KeyInformation) (k' : Bytes) :
    CoqStore.find (CoqKeyStore.add s k v) k' =
      if k' = k then some ((CoqStore.find s k).getD v) else CoqStore.find s k' := by
  unfold CoqKeyStore.add CoqStore.contains
  cases h : CoqStore.find s k with
  | none => simp
  | some v' =>
    simp only [Option.isSome_some, if_true, Option.getD_some]
    split
    · next hk => rw [hk, h]
    · rfl

/-- A block is appended to the list of its key, and numbered. -/
theorem CoqFBlockStore.blocks_add (s : CoqFBlockStore) (k : Bytes) (v : BlockInformation)
    (k' : Bytes) :
    CoqFBlockStore.blocks (CoqFBlockStore.add s k v) k' =
      if k' = k then
        CoqFBlockStore.blocks s k ++
          [{ v with blockid := i32 (((CoqFBlockStore.blocks s k).length + 1) % 4294967296) }]
      else CoqFBlockStore.blocks s k' := by
  unfold CoqFBlockStore.blocks CoqFBlockStore.add
  cases h : CoqStore.find s k with
  | none =>
    rw [CoqStore.find_add]
    split <;> simp [i32]
  | some l =>
    rw [CoqStore.find_add]
    split <;> simp

end Elykseer.Model
