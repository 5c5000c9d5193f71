import Mathlib.Data.String.Basic
import Kallisto.Library.Vec

/-! # The path index

The B-tree of all paths and its manager. The lock of the manager makes each call one
transition. A call has no result where the source would panic; recursion goes down at
most as many levels as the tree has. -/

namespace Kallisto.Index

structure Node where
  isLeafNode : Bool
  pathKeys : List String
  childNodes : List Node

def Node.new (isLeaf : Bool) : Node :=
  ⟨isLeaf, [], []⟩

mutual

/-- The number of levels. -/
def Node.height : Node → ℕ
  | ⟨_, _, childNodes⟩ => heights childNodes + 1

def heights : List Node → ℕ
  | [] => 0
  | child :: rest => max child.height (heights rest)

end

structure BTreeIndex where
  rootNode : Node
  minDegree : ℕ

def BTreeIndex.new (degree : ℕ) : BTreeIndex :=
  ⟨.new true, degree⟩

/-- `2 * min_degree - 1`, the number of keys of a full node, as a `usize`. -/
def fullLength (minDegree : ℕ) : ℕ :=
  (2 * minDegree + (2 ^ 64 - 1)) % 2 ^ 64

/-! ## Searching -/

/-- The loop from the first key up: the index of the first key that is not below. -/
def scanUp (path : String) : List String → ℕ
  | [] => 0
  | key :: keys => if path > key then scanUp path keys + 1 else 0

/-- The loop from the key before the given position down: the position behind the last
key that is not above. -/
def scanDown (path : String) (keys : List String) : ℕ → Option ℕ
  | 0 => some 0
  | i + 1 => do
    let key ← keys[i]?
    if path < key then scanDown path keys i else return i + 1

def containsPathRecursive (path : String) : ℕ → Node → Option Bool
  | 0, _ => none
  | depth + 1, node => do
    let index := scanUp path node.pathKeys
    if node.pathKeys[index]? = some path then return true
    if node.isLeafNode then return false
    let child ← node.childNodes[index]?
    containsPathRecursive path depth child

/-! ## Collecting -/

def collectPathsRecursive : ℕ → Node → Option (List String)
  | 0, _ => none
  | depth + 1, node => do
    if node.isLeafNode then return node.pathKeys
    let paths ← (List.range node.pathKeys.length).foldlM (fun paths i => do
      let child ← node.childNodes[i]?
      let below ← collectPathsRecursive depth child
      let key ← node.pathKeys[i]?
      return paths ++ below ++ [key]) []
    let last ← node.childNodes.getLast?
    let below ← collectPathsRecursive depth last
    return paths ++ below

/-! ## Inserting -/

/-- The upper half of the children of a full inner node. -/
def moveChildren (minDegree : ℕ) (child : Node) : Option (List Node × List Node) :=
  if child.isLeafNode then some (child.childNodes, [])
  else Vec.moveOut minDegree minDegree child.childNodes []

/-- The upper half of a full child becomes its new sibling, and the key between the
halves moves up. -/
def splitChildNode (minDegree : ℕ) (parent : Node) (childIndex : ℕ) : Option Node := do
  let child ← parent.childNodes[childIndex]?
  let (keys, siblingKeys) ← Vec.moveOut minDegree (minDegree - 1) child.pathKeys []
  let (children, siblingChildren) ← moveChildren minDegree child
  let (middle, keys) ← Vec.remove? keys (minDegree - 1)
  let childNodes ← Vec.set? parent.childNodes childIndex ⟨child.isLeafNode, keys, children⟩
  let childNodes ← Vec.insert? childNodes (childIndex + 1)
    ⟨child.isLeafNode, siblingKeys, siblingChildren⟩
  let pathKeys ← Vec.insert? parent.pathKeys childIndex middle
  return ⟨parent.isLeafNode, pathKeys, childNodes⟩

/-- The loop over the keys of a leaf from the given position down: larger keys move up
by one. -/
def shiftUp (path : String) : ℕ → List String → Option (List String × ℕ)
  | 0, keys => some (keys, 0)
  | i + 1, keys => do
    let key ← keys[i]?
    if path < key then
      let keys ← Vec.set? keys (i + 1) key
      shiftUp path i keys
    else return (keys, i + 1)

def insertIntoLeaf (path : String) (keys : List String) : Option (List String) := do
  let (keys, index) ← shiftUp path keys.length (keys ++ [""])
  Vec.set? keys index path

/-! The insertion is written for any function that splits a child. -/

section Split

variable (split : ℕ → Node → ℕ → Option Node)

/-- The child to descend into, which is split first when it is full. -/
def chooseChildWith (minDegree : ℕ) (path : String) (node : Node) : Option (Node × ℕ) := do
  let index ← scanDown path node.pathKeys node.pathKeys.length
  let child ← node.childNodes[index]?
  if child.pathKeys.length = fullLength minDegree then
    let node ← split minDegree node index
    let key ← node.pathKeys[index]?
    return (node, if path > key then index + 1 else index)
  else return (node, index)

def insertIntoNonFullNodeWith (minDegree : ℕ) (path : String) : ℕ → Node → Option Node
  | 0, _ => none
  | depth + 1, node => do
    if node.isLeafNode then
      let keys ← insertIntoLeaf path node.pathKeys
      return { node with pathKeys := keys }
    else
      let (node, index) ← chooseChildWith split minDegree path node
      let child ← node.childNodes[index]?
      let child ← insertIntoNonFullNodeWith minDegree path depth child
      let childNodes ← Vec.set? node.childNodes index child
      return { node with childNodes := childNodes }

end Split

def chooseChild : ℕ → String → Node → Option (Node × ℕ) :=
  chooseChildWith splitChildNode

def insertIntoNonFullNode : ℕ → String → ℕ → Node → Option Node :=
  insertIntoNonFullNodeWith splitChildNode

namespace BTreeIndex

def validatePath (index : BTreeIndex) (path : String) : Option Bool :=
  containsPathRecursive path index.rootNode.height index.rootNode

def getAllPaths (index : BTreeIndex) : Option (List String) :=
  collectPathsRecursive index.rootNode.height index.rootNode

def insertPathWith (split : ℕ → Node → ℕ → Option Node) (index : BTreeIndex) (path : String) :
    Option (Bool × BTreeIndex) := do
  if ← index.validatePath path then return (true, index)
  if index.rootNode.pathKeys.length = fullLength index.minDegree then
    let root ← split index.minDegree ⟨false, [], [index.rootNode]⟩ 0
    let root ← insertIntoNonFullNodeWith split index.minDegree path root.height root
    return (true, { index with rootNode := root })
  else
    let root ← insertIntoNonFullNodeWith split index.minDegree path index.rootNode.height
      index.rootNode
    return (true, { index with rootNode := root })

def insertPath : BTreeIndex → String → Option (Bool × BTreeIndex) :=
  insertPathWith splitChildNode

end BTreeIndex

/-! ## The manager -/

/-- The index behind its lock. -/
structure TlsBTreeManager where
  masterBtree : BTreeIndex

namespace TlsBTreeManager

def new (degree : ℕ) : TlsBTreeManager :=
  ⟨.new degree⟩

def getAllPaths (manager : TlsBTreeManager) : Option (List String) :=
  manager.masterBtree.getAllPaths

def insertPathIfAbsent (manager : TlsBTreeManager) (path : String) :
    Option (Bool × TlsBTreeManager) := do
  if ← manager.masterBtree.validatePath path then return (false, manager)
  let (_, btree) ← manager.masterBtree.insertPath path
  return (true, ⟨btree⟩)

end TlsBTreeManager

/-! ## Sequences of calls -/

def BTreeIndex.insertAllWith (split : ℕ → Node → ℕ → Option Node) (index : BTreeIndex)
    (paths : List String) : Option BTreeIndex :=
  paths.foldlM (fun index path => Prod.snd <$> index.insertPathWith split path) index

def BTreeIndex.insertAll : BTreeIndex → List String → Option BTreeIndex :=
  BTreeIndex.insertAllWith splitChildNode

def TlsBTreeManager.insertAll (manager : TlsBTreeManager) (paths : List String) :
    Option TlsBTreeManager :=
  paths.foldlM (fun manager path => Prod.snd <$> manager.insertPathIfAbsent path) manager

end Kallisto.Index
