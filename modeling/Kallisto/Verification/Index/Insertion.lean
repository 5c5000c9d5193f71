import Kallisto.Verification.Index.Search
import Mathlib.Data.List.Induction

/-! # Inserting into the path index -/

namespace Kallisto.Index

open SearchTree

variable {t h : ℕ} {path middle : String}

/-! ## The scans from above -/

theorem scanDown_around {keys : List String} (hsorted : keys.Pairwise (· < ·))
    (hpath : path ∉ keys) (front : List String) :
    ∀ back, keys = front ++ back → (∀ key ∈ back, path < key) →
      ∃ before behind, scanDown path keys front.length = some before.length ∧
        Around path keys before behind := by
  induction front using List.reverseRecOn with
  | nil => exact fun back hkeys hback => ⟨[], back, rfl, hkeys, by simp, hback⟩
  | append_singleton front key ih =>
    intro back hkeys hback
    have hget : keys[front.length]? = some key := by
      rw [hkeys, List.append_assoc]
      exact Vec.getElem?_mid front key back
    by_cases h : path < key
    · obtain ⟨before, behind, hscan, haround⟩ := ih (key :: back) (by simp [hkeys]) (by
        intro k hk
        rcases List.mem_cons.mp hk with rfl | hk
        · exact h
        · exact hback k hk)
      refine ⟨before, behind, ?_, haround⟩
      rw [List.length_append, List.length_singleton, scanDown, hget]
      simpa only [Option.bind_eq_bind, Option.bind_some, if_pos h] using hscan
    · have hne : path ≠ key := fun heq => hpath (by simp [hkeys, heq])
      have hlt : key < path := lt_of_le_of_ne (not_lt.mp h) hne.symm
      refine ⟨front ++ [key], back, ?_, hkeys, ?_, hback⟩
      · rw [List.length_append, List.length_singleton, scanDown, hget]
        simp only [Option.bind_eq_bind, Option.bind_some, if_neg h, Option.pure_def]
      · intro k hk
        rw [hkeys, List.append_assoc] at hsorted
        rcases List.mem_append.mp hk with hk | hk
        · exact ((List.pairwise_append.mp hsorted).2.2 k hk key (by simp)).trans hlt
        · rwa [List.mem_singleton.mp hk]

/-- The loop keeps a free slot behind the keys it has not seen. -/
theorem shiftUp_around (front : List String) :
    ∀ (gap : String) (moved : List String), front.Pairwise (· < ·) → path ∉ front →
      ∃ before behind gap', Around path front before behind ∧
        shiftUp path front.length (front ++ gap :: moved) =
          some (before ++ gap' :: (behind ++ moved), before.length) := by
  induction front using List.reverseRecOn with
  | nil => exact fun gap moved _ _ => ⟨[], [], gap, ⟨rfl, by simp, by simp⟩, rfl⟩
  | append_singleton front key ih =>
    intro gap moved hsorted hpath
    obtain ⟨hfront, _, hbelow⟩ := List.pairwise_append.mp hsorted
    obtain ⟨hnot, hne⟩ : path ∉ front ∧ path ≠ key := by simpa using hpath
    have hget : (front ++ key :: gap :: moved)[front.length]? = some key :=
      Vec.getElem?_mid front key _
    by_cases h : path < key
    · obtain ⟨before, behind, gap', haround, hshift⟩ := ih key (key :: moved) hfront hnot
      have hset : Vec.set? (front ++ key :: gap :: moved) (front.length + 1) key =
          some (front ++ key :: key :: moved) := by
        simpa using Vec.set?_mid (front ++ [key]) gap key moved
      refine ⟨before, behind ++ [key], gap', ⟨by simp [haround.keys], haround.before, ?_⟩, ?_⟩
      · intro k hk
        rcases List.mem_append.mp hk with hk | hk
        · exact haround.behind k hk
        · rwa [List.mem_singleton.mp hk]
      · rw [List.length_append, List.length_singleton, List.append_assoc, List.singleton_append,
          shiftUp, hget]
        simp only [Option.bind_eq_bind, Option.bind_some, if_pos h, hset, hshift,
          List.append_assoc, List.singleton_append]
    · have hlt : key < path := lt_of_le_of_ne (not_lt.mp h) hne.symm
      refine ⟨front ++ [key], [], gap, ⟨by simp, ?_, by simp⟩, ?_⟩
      · intro k hk
        rcases List.mem_append.mp hk with hk | hk
        · exact (hbelow k hk key (by simp)).trans hlt
        · rwa [List.mem_singleton.mp hk]
      · rw [List.length_append, List.length_singleton, List.append_assoc, List.singleton_append,
          shiftUp, hget]
        simp only [Option.bind_eq_bind, Option.bind_some, if_neg h, Option.pure_def,
          List.append_assoc, List.singleton_append, List.nil_append]

theorem insertIntoLeaf_inserted {keys : List String} (hsorted : keys.Pairwise (· < ·))
    (hpath : path ∉ keys) :
    ∃ keys', insertIntoLeaf path keys = some keys' ∧ Inserted path keys keys' := by
  obtain ⟨before, behind, gap, haround, hshift⟩ := shiftUp_around keys "" [] hsorted hpath
  refine ⟨before ++ path :: behind, ?_, before, behind, haround.keys, rfl, haround.before,
    haround.behind⟩
  rw [insertIntoLeaf, hshift]
  simpa using Vec.set?_mid before gap path behind

/-! ## Splitting -/

theorem moveOut_keys {left right : List String} (ht : 1 ≤ t) (hleft : left.length = t - 1)
    (hright : right.length = t - 1) :
    Vec.moveOut t (t - 1) (left ++ middle :: right) [] = some (left ++ [middle], right) := by
  have hmove := Vec.moveOut_append (left ++ [middle]) right []
  have hlength : (left ++ [middle]).length = t := by
    rw [List.length_append, List.length_singleton]
    omega
  rw [hlength, hright] at hmove
  simpa using hmove

theorem remove_middle {left : List String} (middle : String) (hleft : left.length = t - 1) :
    Vec.remove? (left ++ [middle]) (t - 1) = some (middle, left) := by
  simpa [hleft] using Vec.remove?_mid left middle []

variable {child : Node}

/-- The children of the halves of an inner node. -/
theorem splitChildNode_eq {left right : List String} {leftChildren rightChildren : List Node}
    (ht : 1 ≤ t) (hkeys : child.pathKeys = left ++ middle :: right) (hleft : left.length = t - 1)
    (hright : right.length = t - 1)
    (hchildren : moveChildren t child = some (leftChildren, rightChildren)) {parent : Node}
    {front back : List Node} {before behind : List String}
    (hnodes : parent.childNodes = front ++ child :: back)
    (hparent : parent.pathKeys = before ++ behind) (hlength : front.length = before.length) :
    splitChildNode t parent front.length = some ⟨parent.isLeafNode, before ++ middle :: behind,
      front ++ ⟨child.isLeafNode, left, leftChildren⟩ ::
        ⟨child.isLeafNode, right, rightChildren⟩ :: back⟩ := by
  have hget : parent.childNodes[front.length]? = some child := by
    rw [hnodes, Vec.getElem?_mid]
  have hset : ∀ node, Vec.set? parent.childNodes front.length node =
      some (front ++ node :: back) := by
    intro node
    rw [hnodes, Vec.set?_mid]
  have hinsert : ∀ node sibling, Vec.insert? (front ++ node :: back) (front.length + 1) sibling =
      some (front ++ node :: sibling :: back) := by
    intro node sibling
    simpa using Vec.insert?_mid (front ++ [node]) sibling back
  have hmiddle : Vec.insert? parent.pathKeys front.length middle =
      some (before ++ middle :: behind) := by
    rw [hparent, hlength, Vec.insert?_mid]
  have hmove : Vec.moveOut t (t - 1) child.pathKeys [] = some (left ++ [middle], right) := by
    rw [hkeys, moveOut_keys ht hleft hright]
  rw [splitChildNode, hget]
  simp only [Option.bind_eq_bind, Option.bind_some, hmove, hchildren, remove_middle middle hleft,
    hset, hinsert, hmiddle, Option.pure_def]

/-- A full node is cut into two halves around its middle key. -/
structure Halves (t h : ℕ) (child l : Node) (middle : String) (r : Node) : Prop where
  left : l.Shape (2 * t - 1) h
  right : r.Shape (2 * t - 1) h
  left_length : l.pathKeys.length = t - 1
  right_length : r.pathKeys.length = t - 1
  left_children : ∀ c ∈ l.childNodes, c ∈ child.childNodes
  right_children : ∀ c ∈ r.childNodes, c ∈ child.childNodes
  paths : child.paths h = l.paths h ++ middle :: r.paths h
  split : ∀ (parent : Node) (front back : List Node) (before behind : List String),
    parent.childNodes = front ++ child :: back → parent.pathKeys = before ++ behind →
    front.length = before.length →
    splitChildNode t parent front.length =
      some ⟨parent.isLeafNode, before ++ middle :: behind, front ++ l :: r :: back⟩

theorem moveChildren_leaf (hleaf : child.isLeafNode = true) (hchildren : child.childNodes = []) :
    moveChildren t child = some ([], []) := by
  rw [moveChildren, if_pos hleaf, hchildren]

theorem moveChildren_inner {left right : List Node} (hleaf : child.isLeafNode = false)
    (hchildren : child.childNodes = left ++ right) (hleft : left.length = t)
    (hright : right.length = t) : moveChildren t child = some (left, right) := by
  have hmove := Vec.moveOut_append left right []
  rw [hleft, hright] at hmove
  rw [moveChildren, hleaf, if_neg Bool.false_ne_true, hchildren, hmove]
  rfl

theorem Node.Shape.halves (ht : 1 ≤ t) (hshape : child.Shape (2 * t - 1) h)
    (hfull : child.pathKeys.length = 2 * t - 1) : ∃ l middle r, Halves t h child l middle r := by
  obtain ⟨left, middle, right, hkeys, hleft, hright⟩ :=
    Vec.exists_mid (m := t - 1) (n := t - 1) (v := child.pathKeys) (by omega)
  cases h with
  | zero =>
    obtain ⟨hleaf, hchildren, _⟩ := hshape
    refine ⟨⟨child.isLeafNode, left, []⟩, middle, ⟨child.isLeafNode, right, []⟩,
      ⟨hleaf, rfl, ?_⟩, ⟨hleaf, rfl, ?_⟩, hleft, hright, by simp, by simp, hkeys, ?_⟩
    · change left.length ≤ _
      omega
    · change right.length ≤ _
      omega
    · intro parent front back before behind
      exact splitChildNode_eq ht hkeys hleft hright (moveChildren_leaf hleaf hchildren)
  | succ h =>
    obtain ⟨hleaf, hlength, _, hbelow⟩ := hshape
    have hsplit := List.take_append_drop t child.childNodes
    have hfront : (child.childNodes.take t).length = t := by
      rw [List.length_take]
      omega
    have hback : (child.childNodes.drop t).length = t := by
      rw [List.length_drop]
      omega
    refine ⟨⟨child.isLeafNode, left, child.childNodes.take t⟩, middle,
      ⟨child.isLeafNode, right, child.childNodes.drop t⟩,
      ⟨hleaf, ?_, ?_, ?_⟩, ⟨hleaf, ?_, ?_, ?_⟩, hleft, hright,
      fun c hc => List.mem_of_mem_take hc, fun c hc => List.mem_of_mem_drop hc, ?_, ?_⟩
    · change (child.childNodes.take t).length = left.length + 1
      omega
    · change left.length ≤ _
      omega
    · exact fun c hc => hbelow c (List.mem_of_mem_take hc)
    · change (child.childNodes.drop t).length = right.length + 1
      omega
    · change right.length ≤ _
      omega
    · exact fun c hc => hbelow c (List.mem_of_mem_drop hc)
    · change interleave (child.childNodes.map (Node.paths h)) child.pathKeys =
        interleave ((child.childNodes.take t).map (Node.paths h)) left ++
          middle :: interleave ((child.childNodes.drop t).map (Node.paths h)) right
      have hlengths : ((child.childNodes.take t).map (Node.paths h)).length = left.length + 1 := by
        rw [List.length_map]
        omega
      rw [← interleave_cut hlengths, ← List.map_append, hsplit, ← hkeys]
    · intro parent front back before behind
      exact splitChildNode_eq ht hkeys hleft hright
        (moveChildren_inner hleaf hsplit.symm hfront hback)

variable {node : Node}

/-- A node with one child replaced by its halves. -/
theorem Halves.replaced {l r : Node} {front back : List Node} {before behind : List String}
    (hhalves : Halves t h child l middle r) (hshape : node.Shape (2 * t - 1) (h + 1))
    (hroom : node.pathKeys.length < 2 * t - 1)
    (hchildren : node.childNodes = front ++ child :: back)
    (hkeys : node.pathKeys = before ++ behind) (hfront : front.length = before.length) :
    Node.Shape (2 * t - 1) (h + 1)
        ⟨node.isLeafNode, before ++ middle :: behind, front ++ l :: r :: back⟩ ∧
      Node.paths (h + 1) ⟨node.isLeafNode, before ++ middle :: behind, front ++ l :: r :: back⟩ =
        node.paths (h + 1) := by
  obtain ⟨hleaf, hlength, _, hbelow⟩ := hshape
  rw [hchildren, hkeys] at hlength
  rw [hkeys] at hroom
  simp only [List.length_append, List.length_cons] at hlength hroom
  refine ⟨⟨hleaf, ?_, ?_, ?_⟩, ?_⟩
  · change (front ++ l :: r :: back).length = (before ++ middle :: behind).length + 1
    simp only [List.length_append, List.length_cons]
    omega
  · change (before ++ middle :: behind).length ≤ _
    simp only [List.length_append, List.length_cons]
    omega
  · refine Vec.forall_replaced hchildren [l, r] hbelow ?_
    simp only [List.forall_mem_cons, List.not_mem_nil, false_imp_iff, implies_true, and_true]
    exact ⟨hhalves.left, hhalves.right⟩
  · change interleave ((front ++ l :: r :: back).map (Node.paths h)) (before ++ middle :: behind) =
      interleave (node.childNodes.map (Node.paths h)) node.pathKeys
    rw [hchildren, hkeys]
    simp only [List.map_append, List.map_cons, hhalves.paths]
    exact interleave_split (by simpa using hfront) _ _ _ _ _

/-! ## Descending -/

/-- Every node below the given one has at least `t - 1` keys. -/
def Node.Occupied (t : ℕ) : ℕ → Node → Prop
  | 0, _ => True
  | h + 1, node => ∀ child ∈ node.childNodes,
      t - 1 ≤ child.pathKeys.length ∧ child.Occupied t h

/-- A node whose children are among those of another one. -/
theorem Node.Occupied.of_children {node' : Node} (hocc : node.Occupied t h)
    (hsub : ∀ c ∈ node'.childNodes, c ∈ node.childNodes) : node'.Occupied t h := by
  cases h with
  | zero => trivial
  | succ h => exact fun c hc => hocc c (hsub c hc)

theorem Halves.occupied {l r : Node} {front back : List Node}
    (hhalves : Halves t h child l middle r)
    (hchildren : node.childNodes = front ++ child :: back) (leaf : Bool) (keys : List String)
    (hocc : node.Occupied t (h + 1)) :
    Node.Occupied t (h + 1) ⟨leaf, keys, front ++ l :: r :: back⟩ := by
  have hchild := (hocc child (by simp [hchildren])).2
  refine Vec.forall_replaced hchildren [l, r] hocc ?_
  simp only [List.forall_mem_cons, List.not_mem_nil, false_imp_iff, implies_true, and_true]
  exact ⟨⟨hhalves.left_length.ge, hchild.of_children hhalves.left_children⟩,
    hhalves.right_length.ge, hchild.of_children hhalves.right_children⟩

/-- The child to descend into, between the keys around the path. The node is the given one
up to a split child. -/
structure Chosen (t h : ℕ) (path : String) (node node' : Node) (front : List Node)
    (child : Node) (back : List Node) : Prop where
  shape : node'.Shape (2 * t - 1) (h + 1)
  paths : node'.paths (h + 1) = node.paths (h + 1)
  children : node'.childNodes = front ++ child :: back
  around : ∃ before behind, Around path node'.pathKeys before behind ∧
    front.length = before.length ∧ back.length = behind.length
  room : child.pathKeys.length < 2 * t - 1
  keys_le : node.pathKeys.length ≤ node'.pathKeys.length
  occupied : node.Occupied t (h + 1) → node'.Occupied t (h + 1)

theorem chooseChild_chosen (ht : 1 ≤ t) (hfull : fullLength t = 2 * t - 1)
    (hshape : node.Shape (2 * t - 1) (h + 1)) (hroom : node.pathKeys.length < 2 * t - 1)
    (hsorted : (node.paths (h + 1)).Pairwise (· < ·)) (hpath : path ∉ node.paths (h + 1)) :
    ∃ node' front child back, chooseChild t path node = some (node', front.length) ∧
      Chosen t h path node node' front child back := by
  have hkeys := hshape.sorted_keys hsorted
  have hnot : path ∉ node.pathKeys := fun hmem => hpath ((keys_sublist _ _).mem hmem)
  obtain ⟨before, behind, hscan, haround⟩ :=
    scanDown_around hkeys hnot node.pathKeys [] (by simp) (by simp)
  obtain ⟨hleaf, hlength, hle, hbelow⟩ := id hshape
  rw [haround.keys, List.length_append] at hlength
  obtain ⟨front, child, back, hchildren, hfront, hback⟩ := Vec.exists_mid hlength
  have hchild : child.Shape (2 * t - 1) h := hbelow child (by simp [hchildren])
  have hget : node.childNodes[before.length]? = some child := by
    rw [hchildren, ← hfront, Vec.getElem?_mid]
  by_cases hroomy : child.pathKeys.length = 2 * t - 1
  · obtain ⟨l, middle, r, hhalves⟩ := hchild.halves ht hroomy
    have hsplit := hhalves.split node front back before behind hchildren haround.keys hfront
    obtain ⟨hshape', hpaths⟩ := hhalves.replaced hshape hroom hchildren haround.keys hfront
    have hmiddle : (before ++ middle :: behind)[front.length]? = some middle := by
      rw [hfront, Vec.getElem?_mid]
    have hmore : node.pathKeys.length ≤ (before ++ middle :: behind).length := by
      rw [haround.keys]
      simp
    have hocc := hhalves.occupied hchildren node.isLeafNode (before ++ middle :: behind)
    have hne : path ≠ middle := by
      rintro rfl
      rw [← hpaths] at hpath
      exact hpath ((keys_sublist _ _).mem (by simp))
    have hchoose : chooseChild t path node =
        some (⟨node.isLeafNode, before ++ middle :: behind, front ++ l :: r :: back⟩,
          if path > middle then front.length + 1 else front.length) := by
      rw [chooseChild, chooseChildWith, hscan, ← hfront]
      rw [← hfront] at hget
      simp only [Option.bind_eq_bind, Option.bind_some, hget, hroomy, hfull, if_true, hsplit,
        hmiddle, Option.pure_def]
    by_cases hlt : path > middle
    · refine ⟨_, front ++ [l], r, back, ?_, hshape', hpaths, by simp,
        ⟨before ++ [middle], behind, ⟨by simp, ?_, haround.behind⟩, by simp [hfront], hback⟩, ?_,
        hmore, hocc⟩
      · rw [hchoose, if_pos hlt, List.length_append, List.length_singleton]
      · intro k hk
        rcases List.mem_append.mp hk with hk | hk
        · exact haround.before k hk
        · rwa [List.mem_singleton.mp hk]
      · rw [hhalves.right_length]
        omega
    · refine ⟨_, front, l, r :: back, ?_, hshape', hpaths, rfl,
        ⟨before, middle :: behind, ⟨rfl, haround.before, ?_⟩, hfront, by simp [hback]⟩, ?_,
        hmore, hocc⟩
      · rw [hchoose, if_neg hlt]
      · intro k hk
        rcases List.mem_cons.mp hk with rfl | hk
        · exact lt_of_le_of_ne (not_lt.mp hlt) hne
        · exact haround.behind k hk
      · rw [hhalves.left_length]
        omega
  · refine ⟨node, front, child, back, ?_, hshape, rfl, hchildren,
      ⟨before, behind, haround, hfront, hback⟩, ?_, le_rfl, id⟩
    · rw [chooseChild, chooseChildWith, hscan, hfront]
      simp [hget, hfull, hroomy]
    · exact lt_of_le_of_ne hchild.length_le hroomy

theorem Chosen.paths_eq {node' : Node} {front back : List Node}
    (hchosen : Chosen t h path node node' front child back) :
    node.paths (h + 1) = interleave
      (front.map (Node.paths h) ++ child.paths h :: back.map (Node.paths h)) node'.pathKeys := by
  rw [← hchosen.paths, Node.paths, hchosen.children, List.map_append, List.map_cons]

/-- The paths below the chosen child are increasing, and the new one is not among them. -/
theorem Chosen.child_paths {node' : Node} {front back : List Node}
    (hchosen : Chosen t h path node node' front child back)
    (hsorted : (node.paths (h + 1)).Pairwise (· < ·)) (hpath : path ∉ node.paths (h + 1)) :
    (child.paths h).Pairwise (· < ·) ∧ path ∉ child.paths h := by
  obtain ⟨before, behind, haround, hfront, hback⟩ := hchosen.around
  have hfront' : (front.map (Node.paths h)).length = before.length := by simpa using hfront
  have hback' : (back.map (Node.paths h)).length = behind.length := by simpa using hback
  rw [hchosen.paths_eq] at hsorted hpath
  rw [mem_interleave_iff haround hfront' hback' hsorted] at hpath
  refine ⟨?_, hpath⟩
  rw [haround.keys, interleave_around hfront'] at hsorted
  exact (List.pairwise_append.mp (List.pairwise_append.mp hsorted).2.1).1

theorem insertIntoNonFullNode_inserted (ht : 1 ≤ t) (hfull : fullLength t = 2 * t - 1) :
    ∀ {h : ℕ} {node : Node}, node.Shape (2 * t - 1) h → node.pathKeys.length < 2 * t - 1 →
      (node.paths h).Pairwise (· < ·) → path ∉ node.paths h →
      ∃ node', insertIntoNonFullNode t path (h + 1) node = some node' ∧
        node'.Shape (2 * t - 1) h ∧ Inserted path (node.paths h) (node'.paths h) ∧
        node.pathKeys.length ≤ node'.pathKeys.length ∧
        (node.Occupied t h → node'.Occupied t h) := by
  intro h
  induction h with
  | zero =>
    intro node hshape hroom hsorted hpath
    obtain ⟨keys, hkeys, hinserted⟩ := insertIntoLeaf_inserted hsorted hpath
    obtain ⟨hleaf, hchildren, _⟩ := hshape
    have hlength : keys.length = node.pathKeys.length + 1 := hinserted.length
    refine ⟨{ node with pathKeys := keys }, ?_, ⟨hleaf, hchildren, ?_⟩, hinserted, ?_, id⟩
    · rw [insertIntoNonFullNode, insertIntoNonFullNodeWith, if_pos hleaf]
      change insertIntoLeaf path (node.paths 0) >>= _ = _
      rw [hkeys]
      rfl
    · change keys.length ≤ _
      omega
    · change _ ≤ keys.length
      omega
  | succ h ih =>
    intro node hshape hroom hsorted hpath
    obtain ⟨node', front, child, back, hchoose, hchosen⟩ :=
      chooseChild_chosen ht hfull hshape hroom hsorted hpath
    obtain ⟨before, behind, haround, hfront, hback⟩ := hchosen.around
    obtain ⟨hsub, hnot⟩ := hchosen.child_paths hsorted hpath
    obtain ⟨hleaf, hlength, hle, hbelow⟩ := hchosen.shape
    obtain ⟨child', hchild', hshape', hinserted, hmore, hocc⟩ :=
      ih (hbelow child (by simp [hchosen.children])) hchosen.room hsub hnot
    rw [hchosen.paths_eq] at hsorted ⊢
    refine ⟨{ node' with childNodes := front ++ child' :: back }, ?_,
      ⟨hleaf, ?_, hle, ?_⟩, ?_, hchosen.keys_le, ?_⟩
    · unfold insertIntoNonFullNode at hchild' ⊢
      unfold chooseChild at hchoose
      rw [insertIntoNonFullNodeWith, if_neg (by simp [hshape.1]), hchoose]
      simp only [Option.bind_eq_bind, Option.bind_some, hchosen.children, Vec.getElem?_mid,
        hchild', Vec.set?_mid, Option.pure_def]
    · simpa [hchosen.children] using hlength
    · refine Vec.forall_replaced hchosen.children [child'] hbelow ?_
      simpa using hshape'
    · have hwithin := hinserted.within haround (by simpa using hfront) (by simpa using hback)
        hsorted
      simpa [Node.paths] using hwithin
    · intro hnode
      have hbelow := hchosen.occupied hnode
      obtain ⟨hkeys, hchild⟩ := hbelow child (by simp [hchosen.children])
      refine Vec.forall_replaced hchosen.children [child'] hbelow ?_
      intro c hc
      obtain rfl := List.mem_singleton.mp hc
      exact ⟨hkeys.trans hmore, hocc hchild⟩

end Kallisto.Index
