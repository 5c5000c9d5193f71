import Kallisto.Model.PathListing
import Kallisto.Verification.Engine.Keys
import Kallisto.Verification.Index.Correctness

/-! # Listings depend on the set of paths -/

namespace Kallisto.Engine

open Index

variable {B : Type}

/-! ## The tree of the index -/

theorem pathTree_holds (s : KvEngine B) :
    ∃ manager, s.pathTree = some manager ∧
      Index.Holds 3 s.pathIndex.toFinset manager.masterBtree := by
  obtain ⟨manager, hinsert, hholds⟩ :=
    manager_insertAll_holds (t := 3) (by decide) (by decide) s.pathIndex.reverse
  rw [List.toFinset_reverse] at hholds
  exact ⟨manager, hinsert, hholds⟩

theorem listKeys_eq (s : KvEngine B) (pre : String) :
    s.listKeys pre = some (((s.pathIndex.toFinset.sort (· ≤ ·)).filterMap
      (listedKey pre)).dedup.mergeSort fun a b => a ≤ b) := by
  obtain ⟨manager, htree, hholds⟩ := pathTree_holds s
  have hpaths : manager.getAllPaths = some (s.pathIndex.toFinset.sort (· ≤ ·)) :=
    hholds.getAllPaths
  simp [KvEngine.listKeys, htree, hpaths]

/-- Engines with the same paths list the same keys. -/
theorem listKeys_congr {s s' : KvEngine B}
    (h : ∀ path, path ∈ s.pathIndex ↔ path ∈ s'.pathIndex) (pre : String) :
    s.listKeys pre = s'.listKeys pre := by
  have hpaths : s.pathIndex.toFinset = s'.pathIndex.toFinset := by
    ext path
    rw [List.mem_toFinset, List.mem_toFinset, h path]
  rw [listKeys_eq, listKeys_eq, hpaths]

example : ["b/c", "a/x", "a/y/z", "ab", "b"].filterMap (listedKey "a") = ["x", "y/", "b"] := by
  decide

/-! ## The scanned index -/

theorem pathOfKey_buildMetaKey (path : String) : pathOfKey (buildMetaKey path) = some path := by
  simp [pathOfKey, buildMetaKey]

theorem pathOfKey_buildVersionKey (path : String) (n : UInt32) :
    pathOfKey (buildVersionKey path n) = none := by
  simp [pathOfKey, toList_buildVersionKey]

theorem eq_buildMetaKey_of_pathOfKey {key path : String} (h : pathOfKey key = some path) :
    key = buildMetaKey path := by
  unfold pathOfKey at h
  split at h
  · rename_i rest hkey
    cases h
    rw [← String.toList_inj, hkey]
    simp [buildMetaKey]
  · cases h

theorem mem_foldl_insert (paths : List String) : ∀ (index : List String) (path : String),
    path ∈ paths.foldl (fun index path => if path ∈ index then index else path :: index) index ↔
      path ∈ index ∨ path ∈ paths := by
  induction paths with
  | nil => simp
  | cons new paths ih =>
    intro index path
    rw [List.foldl_cons, ih]
    split
    · rename_i hnew
      simp only [List.mem_cons]
      constructor
      · rintro (h | h)
        · exact Or.inl h
        · exact Or.inr (Or.inr h)
      · rintro (h | rfl | h)
        · exact Or.inl h
        · exact Or.inl hnew
        · exact Or.inr h
    · simp only [List.mem_cons]
      tauto

/-- A scan finds the paths that have metadata. -/
theorem mem_scannedIndex {rocksdb : String → Option B} {keys : List String}
    (h : IsScan rocksdb keys) (path : String) :
    path ∈ scannedIndex keys ↔ rocksdb (buildMetaKey path) ≠ none := by
  rw [scannedIndex, mem_foldl_insert, ← h.mem]
  simp only [List.not_mem_nil, false_or, List.mem_filterMap]
  constructor
  · rintro ⟨key, hkey, hpath⟩
    rwa [← eq_buildMetaKey_of_pathOfKey hpath]
  · exact fun hkey => ⟨_, hkey, pathOfKey_buildMetaKey path⟩

theorem isScan_empty : IsScan (fun _ => none : String → Option B) [] :=
  ⟨.nil, fun _ => iff_of_false List.not_mem_nil (not_not.mpr rfl)⟩

/-- A record is added under a key before all others. -/
theorem IsScan.cons {rocksdb : String → Option B} {keys : List String} (h : IsScan rocksdb keys)
    (key : String) (hfirst : ∀ key' ∈ keys, key < key') (b : B) :
    IsScan (Function.update rocksdb key (some b)) (key :: keys) where
  sorted := List.pairwise_cons.mpr ⟨hfirst, h.sorted⟩
  mem key' := by
    rw [List.mem_cons, h.mem, Function.update_apply]
    split <;> simp [*]

/-! ## The bytes of the keys -/

theorem toUTF8_buildMetaKey (path : String) :
    (buildMetaKey path).toUTF8 = "m:".toUTF8 ++ path.toUTF8 :=
  String.toByteArray_append

/-- A key gives a path when it is the metadata key of the path, and only then. -/
theorem pathOfKeyBytes_eq_some {key : ByteArray} {path : String} :
    pathOfKeyBytes key = some path ↔ key = (buildMetaKey path).toUTF8 := by
  rw [toUTF8_buildMetaKey]
  constructor
  · intro h
    obtain ⟨hdata, hrest⟩ := Option.ite_none_right_eq_some.mp h
    have hstart : key.extract 0 2 = "m:".toUTF8 := ByteArray.ext hdata
    have hsize : 2 ≤ key.size := by
      have hlength := congrArg ByteArray.size hstart
      rw [ByteArray.size_extract] at hlength
      change min 2 key.size - 0 = 2 at hlength
      omega
    rw [← hstart, ← fromUTF8?_eq_some.mp hrest,
      ← ByteArray.extract_eq_extract_append_extract 2 (Nat.zero_le 2) hsize,
      ByteArray.extract_zero_size]
  · rintro rfl
    have hstart : ("m:".toUTF8 ++ path.toUTF8).extract 0 2 = "m:".toUTF8 :=
      ByteArray.extract_append_eq_left rfl
    have hrest : ("m:".toUTF8 ++ path.toUTF8).extract 2 ("m:".toUTF8 ++ path.toUTF8).size =
        path.toUTF8 := ByteArray.extract_append_eq_right rfl ByteArray.size_append
    rw [pathOfKeyBytes, if_pos (congrArg ByteArray.data hstart), hrest, fromUTF8?_eq_some]

theorem pathOfKeyBytes_buildVersionKey (path : String) (n : UInt32) :
    pathOfKeyBytes (buildVersionKey path n).toUTF8 = none := by
  refine Option.eq_none_iff_forall_ne_some.mpr fun path' h => ?_
  have hkey := String.toByteArray_inj.mp (pathOfKeyBytes_eq_some.mp h)
  exact buildMetaKey_ne_buildVersionKey path' path n hkey.symm

/-- Keys name one path and one version, and a scan of any keys finds the paths whose
metadata keys are among them and no others. -/
theorem storageKeys_unambiguous (p q : String) (a b : UInt32) :
    (buildVersionKey p a = buildVersionKey q b ↔ p = q ∧ a = b) ∧
      (buildMetaKey p = buildMetaKey q ↔ p = q) ∧ buildMetaKey p ≠ buildVersionKey q b ∧
      pathOfKeyBytes (buildMetaKey p).toUTF8 = some p ∧
      pathOfKeyBytes (buildVersionKey p a).toUTF8 = none ∧
      ∀ keys, p ∈ scannedIndexBytes keys ↔ (buildMetaKey p).toUTF8 ∈ keys := by
  refine ⟨buildVersionKey_inj, buildMetaKey_inj, buildMetaKey_ne_buildVersionKey p q b,
    pathOfKeyBytes_eq_some.mpr rfl, pathOfKeyBytes_buildVersionKey p a, fun keys => ?_⟩
  rw [scannedIndexBytes, mem_foldl_insert, List.mem_filterMap]
  simp only [List.not_mem_nil, false_or, pathOfKeyBytes_eq_some, exists_eq_right]

end Kallisto.Engine
