import Mathlib.Data.List.Dedup
import Kallisto.Model.BTreeIndex
import Kallisto.Model.EngineSystem

/-! # Listings

The path index of an engine as a tree, the listing of the paths under a given one, and
the index that a newly opened engine builds from the keys of its database. -/

namespace Kallisto.Engine

open Index

variable {B : Type}

/-! ## `list_keys` -/

/-- The first part of a path, with a slash when there are more. -/
def firstPart (path : String) : Option String :=
  match path.toList.splitOn '/' with
  | [] => none
  | [part] => some (String.ofList part)
  | part :: _ :: _ => some (String.ofList part ++ "/")

/-- What a stored path adds to a listing. -/
def listedKey (pre stored : String) : Option String :=
  if pre = "" then firstPart stored
  else if pre.toList.isPrefixOf stored.toList ∧ pre.length < stored.length then
    let remainder := stored.toList.drop pre.length
    let remainder := if remainder.head? = some '/' then remainder.tail else remainder
    if remainder = [] then none else firstPart (String.ofList remainder)
  else none

/-- The tree of the paths in the index, the oldest inserted first. -/
def KvEngine.pathTree (s : KvEngine B) : Option TlsBTreeManager :=
  (TlsBTreeManager.new 3).insertAll s.pathIndex.reverse

def KvEngine.listKeys (s : KvEngine B) (pre : String) : Option (List String) := do
  let manager ← s.pathTree
  let paths ← manager.getAllPaths
  return (paths.filterMap (listedKey pre)).dedup.mergeSort fun a b => a ≤ b

/-- `&s[start..]`, on byte offsets; no value stands for the panic when the offset is not at
the start of a character. -/
def sliceFrom (s : String) (start : ℕ) : Option String :=
  if h : (⟨start⟩ : String.Pos.Raw).IsValid s then some (s.sliceFrom ⟨⟨start⟩, h⟩).copy else none

/-- `listedKey` with the lengths and offsets of the source, which count bytes. -/
def listedKeyBytes (pre stored : String) : Option (Option String) :=
  if pre.isEmpty then some (firstPart stored)
  else if stored.startsWith pre ∧ pre.utf8ByteSize < stored.utf8ByteSize then
    (sliceFrom stored pre.utf8ByteSize).map fun remainder =>
      let remainder :=
        if remainder.toList.head? = some '/' then remainder.toList.tail else remainder.toList
      if remainder = [] then none else firstPart (String.ofList remainder)
  else some none

/-- `list_keys` with every slice taken as the source takes it. -/
def KvEngine.listKeysBytes (s : KvEngine B) (pre : String) : Option (List String) := do
  let manager ← s.pathTree
  let paths ← manager.getAllPaths
  let keys ← paths.mapM (listedKeyBytes pre)
  return (keys.filterMap id).dedup.mergeSort fun a b => a ≤ b

/-! ## `KvEngine::open` -/

/-- The path whose metadata is under a key. -/
def pathOfKey (key : String) : Option String :=
  match key.toList with
  | 'm' :: ':' :: path => some (String.ofList path)
  | _ => none

/-- The index after a scan of the keys. -/
def scannedIndex (keys : List String) : List String :=
  (keys.filterMap pathOfKey).foldl
    (fun paths path => if path ∈ paths then paths else path :: paths) []

/-- `pathOfKey` on the bytes of a key, with the tests of the source. -/
def pathOfKeyBytes (key : ByteArray) : Option String :=
  if (key.extract 0 2).data = "m:".toUTF8.data then String.fromUTF8? (key.extract 2 key.size)
  else none

/-- `scannedIndex` of the keys as the iterator of RocksDB gives them. -/
def scannedIndexBytes (keys : List ByteArray) : List String :=
  (keys.filterMap pathOfKeyBytes).foldl
    (fun paths path => if path ∈ paths then paths else path :: paths) []

/-- RocksDB returns the keys that it has in increasing order. -/
structure IsScan (rocksdb : String → Option B) (keys : List String) : Prop where
  sorted : keys.Pairwise (· < ·)
  mem : ∀ key, key ∈ keys ↔ rocksdb key ≠ none

end Kallisto.Engine
