import Kallisto.Verification.Index.Correctness

/-! # The shape of the B-tree

Every node but the root stays at least half full, all leaves have the same depth, and a
split is only ever made where there is something to split and room for the middle key. -/

namespace Kallisto.Index

open SearchTree

variable {t : ℕ} {S : Finset String} {path : String}

/-! ## Nodes and their depths -/

/-- The nodes of a tree with their distances from the root. -/
inductive Node.At (root : Node) : ℕ → Node → Prop
  | root : root.At 0 root
  | child {d : ℕ} {node child : Node} (h : root.At d node) (hchild : child ∈ node.childNodes) :
      root.At (d + 1) child

structure Node.WellFormed (t depth : ℕ) (root : Node) : Prop where
  keys_le : ∀ d node, root.At d node → node.pathKeys.length ≤ 2 * t - 1
  le_keys : ∀ d node, root.At d node → 0 < d → t - 1 ≤ node.pathKeys.length
  inner : ∀ d node, root.At d node → node.isLeafNode = false →
    node.childNodes.length = node.pathKeys.length + 1 ∧ 1 ≤ node.pathKeys.length
  leaf : ∀ d node, root.At d node → node.isLeafNode = true → node.childNodes = [] ∧ d = depth

theorem Node.At.levels {root node : Node} {full h d : ℕ} (hat : root.At d node)
    (hshape : root.Shape full h) (hocc : root.Occupied t h) :
    ∃ k, h = d + k ∧ node.Shape full k ∧ node.Occupied t k ∧
      (0 < d → t - 1 ≤ node.pathKeys.length) := by
  induction hat with
  | root => exact ⟨h, (Nat.zero_add h).symm, hshape, hocc, fun h => (lt_irrefl 0 h).elim⟩
  | child hat hchild ih =>
    obtain ⟨k, rfl, hnode, hnodeOcc, -⟩ := ih
    cases k with
    | zero =>
      rw [hnode.2.1] at hchild
      cases hchild
    | succ k =>
      obtain ⟨hkeys, hchildOcc⟩ := hnodeOcc _ hchild
      exact ⟨k, by omega, hnode.2.2.2 _ hchild, hchildOcc, fun _ => hkeys⟩

/-- The tree is at least half full below the root, and an inner root has a key. -/
def Filled (t : ℕ) (root : Node) (h : ℕ) : Prop :=
  root.Shape (2 * t - 1) h ∧ root.Occupied t h ∧ (0 < h → 1 ≤ root.pathKeys.length)

theorem Filled.wellFormed (ht : 2 ≤ t) {root : Node} {h : ℕ} (hfilled : Filled t root h) :
    root.WellFormed t h := by
  obtain ⟨hshape, hocc, hroot⟩ := hfilled
  refine ⟨?_, ?_, ?_, ?_⟩
  · intro d node hat
    obtain ⟨k, -, hnode, -⟩ := hat.levels hshape hocc
    exact hnode.length_le
  · intro d node hat
    obtain ⟨k, -, -, -, hkeys⟩ := hat.levels hshape hocc
    exact hkeys
  · intro d node hat hinner
    obtain ⟨k, hk, hnode, -, hkeys⟩ := hat.levels hshape hocc
    cases k with
    | zero => exact absurd hnode.1 (by simp [hinner])
    | succ k =>
      refine ⟨hnode.2.1, ?_⟩
      cases hat with
      | root => exact hroot (by omega)
      | child hat hchild =>
        have hlow := hkeys (Nat.succ_pos _)
        omega
  · intro d node hat hleaf
    obtain ⟨k, hk, hnode, -⟩ := hat.levels hshape hocc
    cases k with
    | zero => exact ⟨hnode.2.1, hk.symm⟩
    | succ k => exact absurd hnode.1 (by simp [hleaf])

/-! ## Splits with their preconditions checked -/

/-- The child has `2 * min_degree - 1` keys and, when it is an inner node, `2 * min_degree`
children, and the parent has room for one more key. -/
def splitReady (minDegree : ℕ) (parent : Node) (childIndex : ℕ) : Bool :=
  decide (parent.pathKeys.length < 2 * minDegree - 1) &&
    parent.childNodes[childIndex]?.any fun child =>
      decide (child.pathKeys.length = 2 * minDegree - 1) &&
        (child.isLeafNode || decide (child.childNodes.length = 2 * minDegree))

/-- The split, with a panic where it is not ready. -/
def splitChildNodeChecked (minDegree : ℕ) (parent : Node) (childIndex : ℕ) : Option Node :=
  if splitReady minDegree parent childIndex then splitChildNode minDegree parent childIndex
  else none

/-- A full child below a parent with room is ready for its split. -/
theorem splitChildNodeChecked_eq (ht : 1 ≤ t) {parent child : Node} {i h : ℕ}
    (hroom : parent.pathKeys.length < 2 * t - 1) (hget : parent.childNodes[i]? = some child)
    (hshape : child.Shape (2 * t - 1) h) (hkeys : child.pathKeys.length = 2 * t - 1) :
    splitChildNodeChecked t parent i = splitChildNode t parent i := by
  have hchildren : child.isLeafNode = true ∨ child.childNodes.length = 2 * t := by
    cases h with
    | zero => exact Or.inl hshape.1
    | succ h =>
      have hlength := hshape.2.1
      exact Or.inr (by omega)
  have hready : splitReady t parent i = true := by
    rw [splitReady, hget]
    simpa [hroom, hkeys] using hchildren
  rw [splitChildNodeChecked, if_pos hready]

theorem chooseChildWith_checked (ht : 1 ≤ t) (hfull : fullLength t = 2 * t - 1) {node : Node}
    {h : ℕ} (hshape : node.Shape (2 * t - 1) (h + 1)) (hroom : node.pathKeys.length < 2 * t - 1) :
    chooseChildWith splitChildNodeChecked t path node = chooseChild t path node := by
  rw [chooseChild, chooseChildWith, chooseChildWith]
  cases scanDown path node.pathKeys node.pathKeys.length with
  | none => rfl
  | some index =>
    cases hget : node.childNodes[index]? with
    | none => simp only [Option.bind_eq_bind, Option.bind_some, hget, Option.bind_none]
    | some child =>
      have hchild := hshape.2.2.2 child (List.mem_of_getElem? hget)
      simp only [Option.bind_eq_bind, Option.bind_some, hget]
      by_cases hkeys : child.pathKeys.length = fullLength t
      · rw [if_pos hkeys, if_pos hkeys,
          splitChildNodeChecked_eq ht hroom hget hchild (hkeys.trans hfull)]
      · rw [if_neg hkeys, if_neg hkeys]

theorem insertIntoNonFullNodeWith_checked (ht : 1 ≤ t) (hfull : fullLength t = 2 * t - 1) :
    ∀ {h : ℕ} {node : Node}, node.Shape (2 * t - 1) h → node.pathKeys.length < 2 * t - 1 →
      (node.paths h).Pairwise (· < ·) → path ∉ node.paths h →
      insertIntoNonFullNodeWith splitChildNodeChecked t path (h + 1) node =
        insertIntoNonFullNode t path (h + 1) node := by
  intro h
  induction h with
  | zero =>
    intro node hshape _ _ _
    rw [insertIntoNonFullNode, insertIntoNonFullNodeWith, insertIntoNonFullNodeWith,
      if_pos hshape.1, if_pos hshape.1]
  | succ h ih =>
    intro node hshape hroom hsorted hpath
    obtain ⟨node', front, child, back, hchoose, hchosen⟩ :=
      chooseChild_chosen ht hfull hshape hroom hsorted hpath
    obtain ⟨hsub, hnot⟩ := hchosen.child_paths hsorted hpath
    have hget : node'.childNodes[front.length]? = some child := by
      rw [hchosen.children, Vec.getElem?_mid]
    have hchild := ih (hchosen.shape.2.2.2 child (List.mem_of_getElem? hget)) hchosen.room hsub
      hnot
    have hchecked := (chooseChildWith_checked ht hfull hshape hroom).trans hchoose
    unfold chooseChild at hchoose
    unfold insertIntoNonFullNode at hchild ⊢
    rw [insertIntoNonFullNodeWith, insertIntoNonFullNodeWith, if_neg (by simp [hshape.1]),
      if_neg (by simp [hshape.1]), hchecked, hchoose]
    simp only [Option.bind_eq_bind, Option.bind_some, hget, hchild]

/-- No split of an insertion fails its check. -/
theorem Holds.insertPathWith_checked (ht : 2 ≤ t) (hfull : fullLength t = 2 * t - 1)
    {index : BTreeIndex} (h : Holds t S index) (path : String) :
    index.insertPathWith splitChildNodeChecked path = index.insertPath path := by
  have hvalid := h.validatePath path
  by_cases hpath : path ∈ S
  · rw [decide_eq_true hpath] at hvalid
    rw [BTreeIndex.insertPath, BTreeIndex.insertPathWith, BTreeIndex.insertPathWith, hvalid]
    rfl
  rw [decide_eq_false hpath] at hvalid
  obtain ⟨rfl, height, hshape, hpaths⟩ := h
  obtain ⟨root, height', hroot, hroom, hsame, hcase, hinsert⟩ :=
    insertPath_cases ht hfull rfl hvalid hshape
  rw [hpaths] at hsame
  have hchecked := insertIntoNonFullNodeWith_checked (by omega) hfull hroot hroom
    (by rw [hsame]; exact sort_sorted S) (by simpa [hsame] using hpath)
  rw [hinsert, BTreeIndex.insertPathWith, hvalid, ← hchecked]
  simp only [Option.bind_eq_bind, Option.bind_some]
  rcases hcase with ⟨rfl, rfl⟩ | ⟨hkeys, l, middle, r, hhalves, rfl, rfl⟩
  · rw [if_neg Bool.false_ne_true, hfull, if_neg hroom.ne, hshape.height]
    cases insertIntoNonFullNodeWith splitChildNodeChecked index.minDegree path (height' + 1)
      index.rootNode <;> rfl
  · have hsplit : splitChildNodeChecked index.minDegree ⟨false, [], [index.rootNode]⟩ 0 =
        some ⟨false, [middle], [l, r]⟩ := by
      rw [splitChildNodeChecked_eq (by omega) (by change 0 < _; omega) rfl hshape hkeys]
      exact hhalves.split ⟨false, [], [index.rootNode]⟩ [] [] [] [] rfl rfl rfl
    rw [if_neg Bool.false_ne_true, hfull, if_pos hkeys, hsplit]
    simp only [Option.bind_some, hroot.height]
    cases insertIntoNonFullNodeWith splitChildNodeChecked index.minDegree path (height + 1 + 1)
      ⟨false, [middle], [l, r]⟩ <;> rfl

/-! ## Runs -/

theorem filled_new (t : ℕ) : Filled t (BTreeIndex.new t).rootNode 0 :=
  ⟨⟨rfl, rfl, Nat.zero_le _⟩, trivial, fun h => (lt_irrefl 0 h).elim⟩

theorem Halves.filled (ht : 2 ≤ t) {h : ℕ} {root l r : Node} {middle : String}
    (hhalves : Halves t h root l middle r) (hfilled : Filled t root h) :
    Filled t ⟨false, [middle], [l, r]⟩ (h + 1) := by
  obtain ⟨hshape, hocc, -⟩ := hfilled
  refine ⟨⟨rfl, rfl, ?_, ?_⟩, ?_, fun _ => le_rfl⟩
  · change 1 ≤ _
    omega
  · simpa using ⟨hhalves.left, hhalves.right⟩
  · intro child hchild
    rcases List.mem_pair.mp hchild with rfl | rfl
    · exact ⟨hhalves.left_length.ge, hocc.of_children hhalves.left_children⟩
    · exact ⟨hhalves.right_length.ge, hocc.of_children hhalves.right_children⟩

theorem Filled.insertPath (ht : 2 ≤ t) (hfull : fullLength t = 2 * t - 1) {index : BTreeIndex}
    (hholds : Holds t S index) {h : ℕ} (hfilled : Filled t index.rootNode h)
    {index' : BTreeIndex} (hinsert : index.insertPath path = some (true, index')) :
    ∃ h', Filled t index'.rootNode h' := by
  have hvalid := hholds.validatePath path
  by_cases hpath : path ∈ S
  · rw [BTreeIndex.insertPath, BTreeIndex.insertPathWith, hvalid, decide_eq_true hpath] at hinsert
    obtain rfl : index = index' := by simpa using hinsert
    exact ⟨h, hfilled⟩
  rw [decide_eq_false hpath] at hvalid
  obtain ⟨hdegree, height, hshape, hpaths⟩ := hholds
  obtain rfl : h = height := Nat.succ.inj (hfilled.1.height.symm.trans hshape.height)
  obtain ⟨root, height', hroot, hroom, hsame, hcase, hrun⟩ :=
    insertPath_cases ht hfull hdegree hvalid hshape
  have hrootFilled : Filled t root height' := by
    rcases hcase with ⟨rfl, rfl⟩ | ⟨-, l, middle, r, hhalves, rfl, rfl⟩
    · exact hfilled
    · exact hhalves.filled ht hfilled
  rw [hpaths] at hsame
  obtain ⟨root', hinsert', hshape', -, hmore, hocc⟩ :=
    insertIntoNonFullNode_inserted (by omega) hfull hroot hroom
      (by rw [hsame]; exact sort_sorted S) (by simpa [hsame] using hpath)
  rw [hrun, hinsert'] at hinsert
  obtain rfl : { index with rootNode := root' } = index' := by simpa using hinsert
  exact ⟨height', hshape', hocc hrootFilled.2.1,
    fun hpos => (hrootFilled.2.2 hpos).trans hmore⟩

/-- The insertions of the given paths return, also with every split checked, and leave a
well-formed tree. -/
def IsBTree (t : ℕ) (paths : List String) : Prop :=
  ∃ index, (BTreeIndex.new t).insertAll paths = some index ∧
    (BTreeIndex.new t).insertAllWith splitChildNodeChecked paths = some index ∧
    ∃ depth, index.rootNode.WellFormed t depth

theorem insertAll_filled (ht : 2 ≤ t) (hfull : fullLength t = 2 * t - 1) (paths : List String) :
    ∀ {S : Finset String} {index : BTreeIndex} {h : ℕ}, Holds t S index →
      Filled t index.rootNode h → ∃ index', index.insertAll paths = some index' ∧
        index.insertAllWith splitChildNodeChecked paths = some index' ∧
        ∃ h', Filled t index'.rootNode h' := by
  induction paths with
  | nil => exact fun {_ index h} _ hfilled => ⟨index, rfl, rfl, h, hfilled⟩
  | cons path paths ih =>
    intro S index h hholds hfilled
    have hchecked := hholds.insertPathWith_checked ht hfull path
    obtain ⟨index₁, hinsert, hholds₁⟩ := hholds.insertPath ht hfull path
    obtain ⟨h₁, hfilled₁⟩ := hfilled.insertPath ht hfull hholds hinsert
    obtain ⟨index', hrun, hrunChecked, hfilled'⟩ := ih hholds₁ hfilled₁
    refine ⟨index', ?_, ?_, hfilled'⟩
    · rw [BTreeIndex.insertAll, BTreeIndex.insertAllWith, List.foldlM_cons,
        ← BTreeIndex.insertPath, hinsert]
      exact hrun
    · rw [BTreeIndex.insertAllWith, List.foldlM_cons, hchecked, hinsert]
      exact hrunChecked

/-- Up to the degree at which the size of a full node overflows, the tree keeps its shape. -/
theorem isBTree (ht : 2 ≤ t) (hsize : t ≤ 2 ^ 63) (paths : List String) : IsBTree t paths := by
  obtain ⟨index, hrun, hchecked, h, hfilled⟩ :=
    insertAll_filled ht (fullLength_eq ht hsize) paths (holds_new t) (filled_new t)
  exact ⟨index, hrun, hchecked, h, hfilled.wellFormed ht⟩

theorem isBTree_splitting : IsBTree 2 ["d", "a", "c", "b", "e", "f", "g", "h", "i", "j"] :=
  isBTree (by decide) (by decide) _

/-- A degree of more than half of the machine word has a root with one key split. -/
theorem not_isBTree_overflow : ¬ IsBTree (2 ^ 63 + 1) ["a", "b"] := by
  rintro ⟨index, hrun, -⟩
  have hfault : (BTreeIndex.new (2 ^ 63 + 1)).insertAll ["a", "b"] = none := by decide
  rw [hfault] at hrun
  cases hrun

end Kallisto.Index
