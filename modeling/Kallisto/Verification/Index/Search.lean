import Kallisto.Library.SearchTree
import Kallisto.Model.BTreeIndex

/-! # Searching the path index -/

namespace Kallisto.Index

open SearchTree

/-! ## Trees of one height -/

/-- The paths below a node with `h` levels under it, in order. -/
def Node.paths : ℕ → Node → List String
  | 0, node => node.pathKeys
  | h + 1, node => interleave (node.childNodes.map (paths h)) node.pathKeys

/-- All leaves are `h` levels down, no node has more than `full` keys, and an inner node
has one child more than keys. -/
def Node.Shape (full : ℕ) : ℕ → Node → Prop
  | 0, node => node.isLeafNode = true ∧ node.childNodes = [] ∧ node.pathKeys.length ≤ full
  | h + 1, node => node.isLeafNode = false ∧
      node.childNodes.length = node.pathKeys.length + 1 ∧ node.pathKeys.length ≤ full ∧
      ∀ child ∈ node.childNodes, child.Shape full h

theorem Node.Shape.length_le {full h : ℕ} {node : Node} (hshape : node.Shape full h) :
    node.pathKeys.length ≤ full := by
  cases h with
  | zero => exact hshape.2.2
  | succ h => exact hshape.2.2.1

theorem heights_of_forall {n : ℕ} :
    ∀ {children : List Node}, children ≠ [] → (∀ child ∈ children, child.height = n) →
      heights children = n := by
  intro children
  induction children with
  | nil => exact fun h => absurd rfl h
  | cons child rest ih =>
    intro _ h
    have hchild := h child List.mem_cons_self
    cases rest with
    | nil => simp [heights, hchild]
    | cons next rest =>
      have hrest := ih (List.cons_ne_nil _ _) fun c hc => h c (List.mem_cons_of_mem child hc)
      rw [heights, hchild, hrest, max_self]

theorem Node.Shape.height {full : ℕ} :
    ∀ {h : ℕ} {node : Node}, node.Shape full h → node.height = h + 1 := by
  intro h
  induction h with
  | zero =>
    rintro ⟨leaf, keys, children⟩ ⟨_, hchildren, _⟩
    obtain rfl : children = [] := hchildren
    rfl
  | succ h ih =>
    rintro ⟨leaf, keys, children⟩ ⟨_, hlength, _, hbelow⟩
    have hne : children ≠ [] := by
      rintro rfl
      simp at hlength
    rw [Node.height, heights_of_forall hne fun child hchild => ih (hbelow child hchild)]

theorem Node.Shape.sorted_keys {full h : ℕ} {node : Node} (_ : node.Shape full h)
    (hsorted : (node.paths h).Pairwise (· < ·)) : node.pathKeys.Pairwise (· < ·) := by
  cases h with
  | zero => exact hsorted
  | succ h => exact hsorted.sublist (keys_sublist _ _)

/-! ## The scan from below -/

theorem getElem?_scanUp (path : String) :
    ∀ {keys : List String}, keys.Pairwise (· < ·) →
      (keys[scanUp path keys]? = some path ↔ path ∈ keys) := by
  intro keys
  induction keys with
  | nil => simp [scanUp]
  | cons key keys ih =>
    intro hsorted
    obtain ⟨hkey, hkeys⟩ := List.pairwise_cons.mp hsorted
    by_cases h : path > key
    · have hne : path ≠ key := ne_of_gt h
      simpa [scanUp, h, hne] using ih hkeys
    · have hnot : path ∉ keys := fun hmem => h (hkey path hmem)
      simp [scanUp, h, hnot, eq_comm]

theorem scanUp_around (path : String) :
    ∀ {keys : List String}, keys.Pairwise (· < ·) → path ∉ keys →
      ∃ before behind, scanUp path keys = before.length ∧ Around path keys before behind := by
  intro keys
  induction keys with
  | nil => exact fun _ _ => ⟨[], [], rfl, rfl, by simp, by simp⟩
  | cons key keys ih =>
    intro hsorted hpath
    obtain ⟨hkey, hkeys⟩ := List.pairwise_cons.mp hsorted
    obtain ⟨hne, hnot⟩ : path ≠ key ∧ path ∉ keys := by simpa using hpath
    by_cases h : path > key
    · obtain ⟨before, behind, hscan, haround⟩ := ih hkeys hnot
      refine ⟨key :: before, behind, by simp [scanUp, h, hscan], by simp [haround.keys], ?_,
        haround.behind⟩
      intro k hk
      rcases List.mem_cons.mp hk with rfl | hk
      · exact h
      · exact haround.before k hk
    · have hlt : path < key := lt_of_le_of_ne (not_lt.mp h) hne
      refine ⟨[], key :: keys, by simp [scanUp, h], rfl, by simp, ?_⟩
      intro k hk
      rcases List.mem_cons.mp hk with rfl | hk
      · exact hlt
      · exact hlt.trans (hkey k hk)

/-! ## Searching -/

theorem containsPathRecursive_eq {full : ℕ} (path : String) :
    ∀ {h : ℕ} {node : Node}, node.Shape full h → (node.paths h).Pairwise (· < ·) →
      containsPathRecursive path (h + 1) node = some (decide (path ∈ node.paths h)) := by
  intro h
  induction h with
  | zero =>
    intro node hshape hsorted
    have hfound := getElem?_scanUp path (hshape.sorted_keys hsorted)
    rw [containsPathRecursive]
    by_cases hpath : path ∈ node.pathKeys
    · simp [Node.paths, hpath, hfound.mpr hpath]
    · simp [Node.paths, hpath, mt hfound.mp hpath, hshape.1]
  | succ h ih =>
    intro node hshape hsorted
    have hkeys := hshape.sorted_keys hsorted
    have hfound := getElem?_scanUp path hkeys
    obtain ⟨hleaf, hlength, _, hbelow⟩ := hshape
    rw [containsPathRecursive]
    by_cases hpath : path ∈ node.pathKeys
    · have hmem : path ∈ node.paths (h + 1) := (keys_sublist _ _).mem hpath
      simp [hmem, hfound.mpr hpath]
    · obtain ⟨before, behind, hscan, haround⟩ := scanUp_around path hkeys hpath
      rw [haround.keys, List.length_append] at hlength
      obtain ⟨front, child, back, hchildren, hfront, hback⟩ := Vec.exists_mid hlength
      have hmem : path ∈ node.paths (h + 1) ↔ path ∈ child.paths h := by
        rw [Node.paths, hchildren, List.map_append, List.map_cons] at hsorted ⊢
        exact mem_interleave_iff haround (by simpa using hfront) (by simpa using hback) hsorted
      have hchild : child.Shape full h := hbelow child (by simp [hchildren])
      have hsub : (child.paths h).Pairwise (· < ·) := by
        rw [Node.paths, hchildren, haround.keys, List.map_append, List.map_cons,
          interleave_around (by simpa using hfront)] at hsorted
        exact (List.pairwise_append.mp (List.pairwise_append.mp hsorted).2.1).1
      have hget : node.childNodes[scanUp path node.pathKeys]? = some child := by
        rw [hscan, ← hfront, hchildren, Vec.getElem?_mid]
      simp [mt hfound.mp hpath, hleaf, hget, ih hchild hsub, hmem]

/-! ## Collecting -/

/-- The loop over the keys has collected the children and keys seen so far. -/
theorem collect_loop {full h : ℕ}
    (ih : ∀ {node : Node}, node.Shape full h →
      collectPathsRecursive (h + 1) node = some (node.paths h)) {node : Node}
    (hshape : node.Shape full (h + 1)) :
    ∀ {n : ℕ}, n ≤ node.pathKeys.length →
      (List.range n).foldlM (fun paths i => do
        let child ← node.childNodes[i]?
        let below ← collectPathsRecursive (h + 1) child
        let key ← node.pathKeys[i]?
        return paths ++ below ++ [key]) [] =
      some (interleave ((node.childNodes.take n).map (Node.paths h)) (node.pathKeys.take n)) := by
  obtain ⟨_, hlength, _, hbelow⟩ := hshape
  intro n
  induction n with
  | zero => exact fun _ => rfl
  | succ n ihn =>
    intro hn
    have hkey : n < node.pathKeys.length := hn
    have hchild : n < node.childNodes.length := by omega
    have hpaths := ih (hbelow _ (List.getElem_mem hchild))
    rw [List.range_succ, List.foldlM_append, ihn (by omega), List.take_add_one,
      List.take_add_one, List.getElem?_eq_getElem hkey, List.getElem?_eq_getElem hchild,
      List.map_append, interleave_append (by simp; omega)]
    simp [List.getElem?_eq_getElem hkey, List.getElem?_eq_getElem hchild, hpaths, interleave]

theorem collectPathsRecursive_eq {full : ℕ} :
    ∀ {h : ℕ} {node : Node}, node.Shape full h →
      collectPathsRecursive (h + 1) node = some (node.paths h) := by
  intro h
  induction h with
  | zero =>
    intro node hshape
    rw [collectPathsRecursive, hshape.1]
    rfl
  | succ h ih =>
    intro node hshape
    have hloop := collect_loop ih hshape (Nat.le_refl _)
    obtain ⟨hleaf, hlength, _, hbelow⟩ := hshape
    obtain ⟨front, last, back, hchildren, hfront, hback⟩ :=
      Vec.exists_mid (m := node.pathKeys.length) (n := 0) hlength
    obtain rfl : back = [] := List.length_eq_zero_iff.mp hback
    have hlast := ih (hbelow last (by simp [hchildren]))
    have htake : node.childNodes.take node.pathKeys.length = front := by
      rw [hchildren, ← hfront, List.take_left]
    have hgetLast : node.childNodes.getLast? = some last := by
      rw [hchildren, List.getLast?_concat]
    have hpaths : node.paths (h + 1) =
        interleave (front.map (Node.paths h)) node.pathKeys ++ last.paths h := by
      have hlengths : (front.map (Node.paths h)).length = node.pathKeys.length := by
        simpa using hfront
      have haround := interleave_around hlengths (last.paths h) [] []
      simpa [Node.paths, hchildren, interleave] using haround
    rw [htake, List.take_length] at hloop
    rw [collectPathsRecursive, hleaf, hpaths, if_neg Bool.false_ne_true, hloop, hgetLast]
    simp [hlast]

end Kallisto.Index
