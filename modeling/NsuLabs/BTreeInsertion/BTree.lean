/-
Module: NsuLabs.BTreeInsertion.BTree
Purpose: `C-Labs/B_tree_insertion/src/b_tree.c`. The nodes are cells of a heap with both arrays at full
  capacity, so that the pointers a split leaves behind stay in them. `size_t` wraps around. `none` is the
  dereference of a null pointer or an access outside an array; each call of `createNode` has an outcome.
Trusted boundary: `tree->height` does not wrap, as each level has a node in memory, and
  is the fuel of `btree_insert`. A `createNode` that fails gives back what it had allocated
Main exports: BTree, btreeInsert
-/
import NsuLabs.Lib.Arrays

namespace NsuLabs.BTreeInsertion

open Lib

/-- The address of a node. -/
abbrev NodePtr := Nat

/-- A node with its two arrays. -/
structure BTreeNode where
  values : List Int
  children : List (Option NodePtr)
  size : Nat
deriving DecidableEq

/-- The nodes in memory. -/
structure Heap where
  nodes : NodePtr → Option BTreeNode
  /-- The next address that is handed out. -/
  next : NodePtr
  /-- Not in the source: how often `btree_insert` has created a missing child. -/
  missing : Nat

/-- The root, the half-degree and the height. -/
structure BTree where
  root : Option NodePtr
  t : Nat
  height : Nat
deriving DecidableEq

/-! ### `size_t` -/

def sizeAdd (a b : Nat) : Nat := (a + b) % 2 ^ 64

def sizeSub (a b : Nat) : Nat := (a + (2 ^ 64 - b % 2 ^ 64)) % 2 ^ 64

def sizeMul (a b : Nat) : Nat := a * b % 2 ^ 64

/-! ### Reading and writing nodes -/

def Heap.write (h : Heap) (p : NodePtr) (node : BTreeNode) : Heap :=
  { h with nodes := Function.update h.nodes p (some node) }

def Heap.setSize (h : Heap) (p : NodePtr) (size : Nat) : Option Heap :=
  (h.nodes p).map fun node => h.write p { node with size }

def Heap.storeValue (h : Heap) (p : NodePtr) (i : Nat) (value : Int) : Option Heap := do
  let node ← h.nodes p
  let values ← store node.values i value
  return h.write p { node with values }

def Heap.storeChild (h : Heap) (p : NodePtr) (i : Nat) (child : Option NodePtr) : Option Heap := do
  let node ← h.nodes p
  let children ← store node.children i child
  return h.write p { node with children }

/-- `node->children[i]`, which may be `NULL`. -/
def Heap.child (h : Heap) (p : NodePtr) (i : Nat) : Option (Option NodePtr) := do
  (← h.nodes p).children[i]?

/-- `node->values[i]`. -/
def Heap.value (h : Heap) (p : NodePtr) (i : Nat) : Option Int := do
  (← h.nodes p).values[i]?

/-! ### The functions of the tree -/

def btreeCreate (halfDegree : Nat) : BTree where
  root := none
  t := halfDegree
  height := 0

/-- `calloc` fills both arrays with zeros. -/
def createNode (t : Nat) (h : Heap) : NodePtr × Heap :=
  let node : BTreeNode :=
    { values := List.replicate (sizeSub (sizeMul 2 t) 1) 0
      children := List.replicate (sizeMul 2 t) none
      size := 0 }
  (h.next, { h.write h.next node with next := h.next + 1 })

def isFull (t : Nat) (node : BTreeNode) : Bool := node.size = sizeSub (sizeMul t 2) 1

def isLeaf (node : BTreeNode) : Option Bool := node.children[0]?.map fun child => child = none

/-- The binary search of `findChildIdx`. -/
def findChildIdxLoop (values : List Int) (value : Int) : (fuel l r : Nat) → Option Nat
  | 0, l, r => if l < r then none else some r
  | fuel + 1, l, r =>
    if l < r then
      values[l + (r - l) / 2]?.bind fun x =>
        if value ≤ x then findChildIdxLoop values value fuel l (l + (r - l) / 2)
        else findChildIdxLoop values value fuel (l + (r - l) / 2 + 1) r
    else some r

def findChildIdx (node : BTreeNode) (value : Int) : Option Nat :=
  findChildIdxLoop node.values value node.size 0 node.size

def moveTail (h : Heap) (src : NodePtr) (srcPos : Nat) (dest : NodePtr) (destPos : Nat) : Option Heap := do
  let srcNode ← h.nodes src
  let destNode ← h.nodes dest
  let sz := sizeSub srcNode.size srcPos
  let values ← memmove destNode.values destPos srcNode.values srcPos sz
  let children ← memmove destNode.children destPos srcNode.children srcPos (sizeAdd sz 1)
  return h.write dest { destNode with values, children }

/-- `splitChild` from the memory for the new child on. -/
def halveChild (t : Nat) (h : Heap) (node : NodePtr) (childIdx : Nat) : Option Heap := do
  let child ← (h.child node childIdx).join
  let (newChild, h) := createNode t h
  let h ← moveTail h child t newChild 0
  let h ← h.setSize child (sizeSub t 1)
  let h ← h.setSize newChild (sizeSub t 1)
  -- insert child's median value to node
  let h ← moveTail h node childIdx node (sizeAdd childIdx 1)
  let h ← h.storeValue node childIdx (← h.value child (sizeSub t 1))
  let h ← h.storeChild node (sizeAdd childIdx 1) (some newChild)
  h.setSize node (sizeAdd (← h.nodes node).size 1)

/-- `splitRoot` from the memory for the two new nodes on. -/
def halveRoot (tree : BTree) (h : Heap) : Option (BTree × Heap) := do
  let oldRoot ← tree.root
  let (newRoot, h) := createNode tree.t h
  let (newChild, h) := createNode tree.t h
  let h ← moveTail h oldRoot tree.t newChild 0
  let h ← h.setSize newChild (sizeSub tree.t 1)
  let h ← h.setSize oldRoot (sizeSub tree.t 1)
  -- insert oldRoot's median value to newRoot
  let h ← h.storeValue newRoot 0 (← h.value oldRoot (sizeSub tree.t 1))
  let h ← h.storeChild newRoot 0 (some oldRoot)
  let h ← h.storeChild newRoot 1 (some newChild)
  let h ← h.setSize newRoot 1
  return ({ tree with root := some newRoot, height := tree.height + 1 }, h)

def insertValue (h : Heap) (node : NodePtr) (value : Int) : Option Heap := do
  let childIdx ← findChildIdx (← h.nodes node) value
  let h ← moveTail h node childIdx node (sizeAdd childIdx 1)
  let h ← h.storeValue node childIdx value
  h.setSize node (sizeAdd (← h.nodes node).size 1)

/-! ### Insertion -/

/-- `exitCode_t`. -/
inductive ExitCode where
  | success
  | allocationError
deriving DecidableEq

/-- Whether the first, the second and so on of the coming calls of `createNode` finds memory. -/
abbrev Allocs := Nat → Bool

/-- Every call of `createNode` finds memory. -/
def granted : Allocs := fun _ => true

def Allocs.rest (allocs : Allocs) : Allocs := fun i => allocs (i + 1)

/-- `destroyNode`. -/
def Heap.free (h : Heap) (p : NodePtr) : Heap := { h with nodes := Function.update h.nodes p none }

def splitChild (t : Nat) (allocs : Allocs) (h : Heap) (node : NodePtr) (childIdx : Nat) :
    Option (ExitCode × Heap × Allocs) :=
  if allocs 0 then (halveChild t h node childIdx).map fun h => (.success, h, allocs.rest)
  else (h.child node childIdx).map fun _ => (.allocationError, h, allocs.rest)

def splitRoot (tree : BTree) (allocs : Allocs) (h : Heap) : Option (ExitCode × BTree × Heap × Allocs) :=
  if allocs 0 then
    if allocs.rest 0 then (halveRoot tree h).map fun (tree, h) => (.success, tree, h, allocs.rest.rest)
    else
      let (newRoot, h) := createNode tree.t h
      some (.allocationError, tree, h.free newRoot, allocs.rest.rest)
  else some (.allocationError, tree, h, allocs.rest)

/-- The branch of `btree_insert` for a missing child. A failed `createNode` stores its null pointer
    over the null pointer. -/
def createMissing (t : Nat) (allocs : Allocs) (h : Heap) (curNode : NodePtr) (childIdx : Nat) :
    Option (ExitCode × Heap × Allocs) :=
  (h.child curNode childIdx).bind fun
    | some _ => some (.success, h, allocs)
    | none =>
      if allocs 0 then
        let (child, h) := createNode t h
        (h.storeChild curNode childIdx (some child)).map fun h =>
          (.success, { h with missing := h.missing + 1 }, allocs.rest)
      else (h.storeChild curNode childIdx none).map fun h => (.allocationError, h, allocs.rest)

/-- A full child is split before it is entered; the index is the one of the child to enter. -/
def splitFull (t : Nat) (value : Int) (allocs : Allocs) (h : Heap) (curNode : NodePtr) (childIdx : Nat) :
    Option (ExitCode × Heap × Nat × Allocs) := do
  let child ← (h.child curNode childIdx).join
  let childNode ← h.nodes child
  if isFull t childNode then
    (splitChild t allocs h curNode childIdx).bind fun
      | (.allocationError, h, allocs) => some (.allocationError, h, childIdx, allocs)
      | (.success, h, allocs) =>
        -- choose between splited children
        (h.value curNode childIdx).map fun x =>
          (.success, h, if value > x then sizeAdd childIdx 1 else childIdx, allocs)
  else some (.success, h, childIdx, allocs)

/-- The loop of `btree_insert`; the node is the leaf on success. -/
def descend (t : Nat) (value : Int) :
    (fuel : Nat) → Allocs → Heap → (curNode : NodePtr) → Option (ExitCode × Heap × NodePtr)
  | 0, _, _, _ => none
  | fuel + 1, allocs, h, curNode => do
      let node ← h.nodes curNode
      let leaf ← isLeaf node
      if leaf then some (.success, h, curNode)
      else
        (findChildIdx node value).bind fun childIdx =>
          (createMissing t allocs h curNode childIdx).bind fun
            | (.allocationError, h, _) => some (.allocationError, h, curNode)
            | (.success, h, allocs) =>
              (splitFull t value allocs h curNode childIdx).bind fun
                | (.allocationError, h, _, _) => some (.allocationError, h, curNode)
                | (.success, h, childIdx, allocs) =>
                  (h.child curNode childIdx).join.bind fun child => descend t value fuel allocs h child

/-- `btree_insert` from its loop on. -/
def insertBelow (allocs : Allocs) (tree : BTree) (h : Heap) (value : Int) :
    Option (ExitCode × BTree × Heap) :=
  tree.root.bind fun root =>
    (descend tree.t value tree.height allocs h root).bind fun
      | (.allocationError, h, _) => some (.allocationError, tree, h)
      | (.success, h, leaf) => (insertValue h leaf value).map fun h => (.success, tree, h)

def btreeInsert (allocs : Allocs) (tree : BTree) (h : Heap) (value : Int) :
    Option (ExitCode × BTree × Heap) :=
  match tree.root with
  | none =>
    if allocs 0 then do
      let (root, h) := createNode tree.t h
      let h ← h.storeValue root 0 value
      let h ← h.setSize root 1
      return (.success, { tree with root := some root, height := 1 }, h)
    else some (.allocationError, tree, h)
  | some root =>
    (h.nodes root).bind fun rootNode =>
      if isFull tree.t rootNode then
        (splitRoot tree allocs h).bind fun
          | (.allocationError, tree, h, _) => some (.allocationError, tree, h)
          | (.success, tree, h, allocs) => insertBelow allocs tree h value
      else insertBelow allocs tree h value

def Heap.empty : Heap where
  nodes := fun _ => none
  next := 0
  missing := 0

/-- Calls of `btree_insert` with memory for every node. -/
def insertAll (tree : BTree) (h : Heap) : List Int → Option (BTree × Heap)
  | [] => some (tree, h)
  | value :: values => do
      let (_, tree, h) ← btreeInsert granted tree h value
      insertAll tree h values

end NsuLabs.BTreeInsertion
