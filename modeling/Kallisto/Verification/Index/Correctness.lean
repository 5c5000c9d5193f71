import Kallisto.Verification.Index.Insertion
import Mathlib.Data.Finset.Sort

/-! # The path index is a set of paths -/

namespace Kallisto.Index

open SearchTree

variable {t : ℕ} {S : Finset String} {path : String}

/-- The tree is well formed and holds the given paths in increasing order. -/
def Holds (t : ℕ) (S : Finset String) (index : BTreeIndex) : Prop :=
  index.minDegree = t ∧ ∃ h, index.rootNode.Shape (2 * t - 1) h ∧
    index.rootNode.paths h = S.sort (· ≤ ·)

theorem sort_sorted (S : Finset String) : (S.sort (· ≤ ·)).Pairwise (· < ·) :=
  S.sortedLT_sort.pairwise

theorem eq_sort_of_inserted {xs : List String} (h : Inserted path (S.sort (· ≤ ·)) xs) :
    xs = (insert path S).sort (· ≤ ·) := by
  refine List.Pairwise.eq_of_mem_iff (h.sorted (sort_sorted S)) (sort_sorted _) ?_
  intro p
  rw [h.mem, Finset.mem_sort, Finset.mem_sort, Finset.mem_insert]

/-! ## Single calls -/

theorem holds_new (t : ℕ) : Holds t ∅ (.new t) :=
  ⟨rfl, 0, ⟨rfl, rfl, Nat.zero_le _⟩, by simp [Node.paths, BTreeIndex.new, Node.new]⟩

theorem Holds.validatePath {index : BTreeIndex} (h : Holds t S index) (path : String) :
    index.validatePath path = some (decide (path ∈ S)) := by
  obtain ⟨_, height, hshape, hpaths⟩ := h
  have hsorted : (index.rootNode.paths height).Pairwise (· < ·) := by
    rw [hpaths]
    exact sort_sorted S
  rw [BTreeIndex.validatePath, hshape.height, containsPathRecursive_eq path hshape hsorted, hpaths]
  simp

theorem Holds.getAllPaths {index : BTreeIndex} (h : Holds t S index) :
    index.getAllPaths = some (S.sort (· ≤ ·)) := by
  obtain ⟨_, height, hshape, hpaths⟩ := h
  rw [BTreeIndex.getAllPaths, hshape.height, collectPathsRecursive_eq hshape, hpaths]

/-- Above a single child the paths are those of the child. -/
theorem shape_above {height : ℕ} {root : Node} (hshape : root.Shape (2 * t - 1) height) :
    Node.Shape (2 * t - 1) (height + 1) ⟨false, [], [root]⟩ ∧
      Node.paths (height + 1) ⟨false, [], [root]⟩ = root.paths height := by
  refine ⟨⟨rfl, rfl, Nat.zero_le _, ?_⟩, ?_⟩
  · intro child hchild
    rwa [List.mem_singleton.mp hchild]
  · simp [Node.paths, interleave]

/-- What the insertion of a new path does: a full root is first split under a new one. -/
theorem insertPath_cases (ht : 2 ≤ t) (hfull : fullLength t = 2 * t - 1) {index : BTreeIndex}
    (hdegree : index.minDegree = t) (habsent : index.validatePath path = some false) {height : ℕ}
    (hshape : index.rootNode.Shape (2 * t - 1) height) :
    ∃ root height', root.Shape (2 * t - 1) height' ∧ root.pathKeys.length < 2 * t - 1 ∧
      root.paths height' = index.rootNode.paths height ∧
      (root = index.rootNode ∧ height' = height ∨
        index.rootNode.pathKeys.length = 2 * t - 1 ∧ ∃ l middle r,
          Halves t height index.rootNode l middle r ∧ root = ⟨false, [middle], [l, r]⟩ ∧
            height' = height + 1) ∧
      index.insertPath path = (insertIntoNonFullNode t path (height' + 1) root).map
        fun root => (true, { index with rootNode := root }) := by
  subst hdegree
  by_cases hroom : index.rootNode.pathKeys.length = 2 * index.minDegree - 1
  · obtain ⟨l, middle, r, hhalves⟩ := hshape.halves (by omega) hroom
    have hsplit : splitChildNode index.minDegree ⟨false, [], [index.rootNode]⟩ 0 =
        some ⟨false, [middle], [l, r]⟩ :=
      hhalves.split ⟨false, [], [index.rootNode]⟩ [] [] [] [] rfl rfl rfl
    obtain ⟨habove, hsame⟩ := shape_above hshape
    obtain ⟨hroot, hpaths⟩ :=
      hhalves.replaced habove (by change 0 < _; omega) (show _ = [] ++ index.rootNode :: [] from rfl)
        (show _ = [] ++ [] from rfl) rfl
    refine ⟨⟨false, [middle], [l, r]⟩, height + 1, hroot, by change 1 < _; omega,
      hpaths.trans hsame, Or.inr ⟨hroom, l, middle, r, hhalves, rfl, rfl⟩, ?_⟩
    have hheight : Node.height ⟨false, [middle], [l, r]⟩ = height + 2 := hroot.height
    rw [BTreeIndex.insertPath, BTreeIndex.insertPathWith, habsent, insertIntoNonFullNode]
    simp only [Option.bind_eq_bind, Option.bind_some, hroom, hfull, if_true, hsplit, hheight]
    cases insertIntoNonFullNodeWith splitChildNode index.minDegree path (height + 2)
      ⟨false, [middle], [l, r]⟩ <;> rfl
  · refine ⟨index.rootNode, height, hshape, lt_of_le_of_ne hshape.length_le hroom, rfl,
      Or.inl ⟨rfl, rfl⟩, ?_⟩
    rw [BTreeIndex.insertPath, BTreeIndex.insertPathWith, habsent, insertIntoNonFullNode]
    simp only [Option.bind_eq_bind, Option.bind_some, hfull, if_neg hroom, hshape.height]
    cases insertIntoNonFullNodeWith splitChildNode index.minDegree path (height + 1)
      index.rootNode <;> rfl

theorem Holds.insertPath (ht : 2 ≤ t) (hfull : fullLength t = 2 * t - 1) {index : BTreeIndex}
    (h : Holds t S index) (path : String) :
    ∃ index', index.insertPath path = some (true, index') ∧ Holds t (insert path S) index' := by
  have hvalid := h.validatePath path
  by_cases hpath : path ∈ S
  · refine ⟨index, ?_, by rwa [Finset.insert_eq_of_mem hpath]⟩
    rw [BTreeIndex.insertPath, BTreeIndex.insertPathWith, hvalid]
    simp [hpath]
  obtain ⟨hdegree, height, hshape, hpaths⟩ := h
  rw [decide_eq_false hpath] at hvalid
  obtain ⟨root, height', hroot, hroom, hsame, -, hinsert⟩ :=
    insertPath_cases ht hfull hdegree hvalid hshape
  rw [hpaths] at hsame
  obtain ⟨root', hinsert', hshape', hinserted, -⟩ :=
    insertIntoNonFullNode_inserted (by omega) hfull hroot hroom
      (by rw [hsame]; exact sort_sorted S) (by simpa [hsame] using hpath)
  rw [hsame] at hinserted
  refine ⟨{ index with rootNode := root' }, ?_, hdegree, height', hshape',
    eq_sort_of_inserted hinserted⟩
  rw [hinsert, hinsert']
  rfl

/-- The manager's call, with its answer. -/
theorem Holds.insertPathIfAbsent (ht : 2 ≤ t) (hfull : fullLength t = 2 * t - 1)
    {manager : TlsBTreeManager} (h : Holds t S manager.masterBtree) (path : String) :
    ∃ manager', manager.insertPathIfAbsent path = some (decide (path ∉ S), manager') ∧
      Holds t (insert path S) manager'.masterBtree := by
  have hvalid := h.validatePath path
  by_cases hpath : path ∈ S
  · refine ⟨manager, ?_, by rwa [Finset.insert_eq_of_mem hpath]⟩
    rw [TlsBTreeManager.insertPathIfAbsent, hvalid]
    simp [hpath]
  · obtain ⟨index, hinsert, hholds⟩ := h.insertPath ht hfull path
    refine ⟨⟨index⟩, ?_, hholds⟩
    rw [TlsBTreeManager.insertPathIfAbsent, hvalid]
    simp [hpath, hinsert]

/-! ## Runs -/

theorem fullLength_eq (ht : 2 ≤ t) (hsize : t ≤ 2 ^ 63) : fullLength t = 2 * t - 1 := by
  unfold fullLength
  omega

theorem toFinset_insert (S : Finset String) (path : String) (paths : List String) :
    insert path S ∪ paths.toFinset = S ∪ (path :: paths).toFinset := by
  ext p
  simp only [Finset.mem_union, Finset.mem_insert, List.mem_toFinset, List.mem_cons]
  exact ⟨fun h => by tauto, fun h => by tauto⟩

/-- Calls that each add their path add all of them. -/
theorem foldlM_insert {σ : Type} {f : σ → String → Option σ} {I : Finset String → σ → Prop}
    (hstep : ∀ S s path, I S s → ∃ s', f s path = some s' ∧ I (insert path S) s')
    (paths : List String) :
    ∀ {S : Finset String} {s : σ}, I S s →
      ∃ s', paths.foldlM f s = some s' ∧ I (S ∪ paths.toFinset) s' := by
  induction paths with
  | nil =>
    intro S s h
    exact ⟨s, rfl, by simpa using h⟩
  | cons path paths ih =>
    intro S s h
    obtain ⟨s', hcall, hs'⟩ := hstep S s path h
    obtain ⟨s'', hrest, hs''⟩ := ih hs'
    rw [toFinset_insert] at hs''
    refine ⟨s'', ?_, hs''⟩
    rw [List.foldlM_cons, hcall]
    exact hrest

theorem insertAll_holds (ht : 2 ≤ t) (hfull : fullLength t = 2 * t - 1) (paths : List String) :
    ∃ index, (BTreeIndex.new t).insertAll paths = some index ∧ Holds t paths.toFinset index := by
  rw [← Finset.empty_union paths.toFinset]
  refine foldlM_insert ?_ paths (holds_new t)
  intro S index path h
  obtain ⟨index', hinsert, hholds⟩ := h.insertPath ht hfull path
  exact ⟨index', by rw [← BTreeIndex.insertPath, hinsert]; rfl, hholds⟩

theorem manager_insertAll_holds (ht : 2 ≤ t) (hfull : fullLength t = 2 * t - 1)
    (paths : List String) :
    ∃ manager, (TlsBTreeManager.new t).insertAll paths = some manager ∧
      Holds t paths.toFinset manager.masterBtree := by
  rw [← Finset.empty_union paths.toFinset]
  refine foldlM_insert (I := fun S (manager : TlsBTreeManager) => Holds t S manager.masterBtree)
    ?_ paths (holds_new t)
  intro S manager path h
  obtain ⟨manager', hinsert, hholds⟩ := h.insertPathIfAbsent ht hfull path
  exact ⟨manager', by simp [hinsert], hholds⟩

/-- After the calls with the given paths, no call of which panics, the index and the
manager answer like the set of these paths, and so does the next call. -/
structure IsPathSet (t : ℕ) (paths : List String) : Prop where
  index : ∃ index, (BTreeIndex.new t).insertAll paths = some index ∧
    (∀ p, index.validatePath p = some (decide (p ∈ paths))) ∧
    index.getAllPaths = some (paths.toFinset.sort (· ≤ ·))
  manager : ∃ manager, (TlsBTreeManager.new t).insertAll paths = some manager ∧
    (∀ p, ∃ manager', manager.insertPathIfAbsent p = some (decide (p ∉ paths), manager')) ∧
    manager.getAllPaths = some (paths.toFinset.sort (· ≤ ·))

/-- Up to the degree at which the size of a full node overflows, the index is a set. -/
theorem isPathSet (ht : 2 ≤ t) (hsize : t ≤ 2 ^ 63) (paths : List String) : IsPathSet t paths := by
  have hfull := fullLength_eq ht hsize
  constructor
  · obtain ⟨index, hrun, hholds⟩ := insertAll_holds ht hfull paths
    refine ⟨index, hrun, ?_, hholds.getAllPaths⟩
    intro p
    simp [hholds.validatePath p]
  · obtain ⟨manager, hrun, hholds⟩ := manager_insertAll_holds ht hfull paths
    refine ⟨manager, hrun, ?_, hholds.getAllPaths⟩
    intro p
    obtain ⟨manager', hinsert, _⟩ := hholds.insertPathIfAbsent ht hfull p
    exact ⟨manager', by simp [hinsert]⟩

theorem isPathSet_splitting : IsPathSet 2 ["d", "a", "c", "b", "e", "a"] :=
  isPathSet (by decide) (by decide) _

/-- A degree of more than half of the machine word lets a root with one key count as full,
and its split reads behind the keys. -/
theorem not_isPathSet_overflow : ¬ IsPathSet (2 ^ 63 + 1) ["a", "b"] := by
  rintro ⟨⟨index, hrun, _⟩, _⟩
  have hfault : (BTreeIndex.new (2 ^ 63 + 1)).insertAll ["a", "b"] = none := by decide
  rw [hfault] at hrun
  cases hrun

end Kallisto.Index
