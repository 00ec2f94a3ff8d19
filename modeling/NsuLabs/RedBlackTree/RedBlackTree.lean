/-
Module: NsuLabs.RedBlackTree.RedBlackTree
Purpose: `C-Labs/Red-black_tree/src/main.c`. The nodes are cells of a memory; `none` is the dereference of a
  null pointer or a failed `assert`. The stack of ancestors is a list, top first. The loop of `Insert` and
  the recursion of `CalculateBlackHeight` follow pointers, so they take fuel; `main` gives as much as there
  are nodes.
Trusted boundary: The stack of `stack.c` is a list, and its blocks are left out
Main exports: RBMemory, rbTreeBalance
-/
import NsuLabs.Lib.PointerTree

namespace NsuLabs.RedBlackTree

open Lib

inductive Color where
  | red
  | black
deriving DecidableEq

/-- What an `RBNode` holds beside its two children. -/
structure RBData where
  color : Color
  value : Int
deriving DecidableEq

abbrev RBNode := Cell RBData

abbrev RBMemory := Memory RBData

/-! ### Reading and writing nodes -/

def setColor (m : RBMemory) (node : Ptr) (color : Color) : Option RBMemory :=
  (m node).map fun cell => Function.update m node (some { cell with data := { cell.data with color } })

def setChild (m : RBMemory) (side : Side) (node : Ptr) (child : Option Ptr) : Option RBMemory :=
  (m node).map fun cell => Function.update m node (some (cell.setChild side child))

/-- `IsLeftChild` or `IsRightChild`. -/
def isChild (m : RBMemory) (side : Side) (node : Ptr) : (parent : Option Ptr) → Option Bool
  | none => some false
  | some parent => (m parent).map fun cell => cell.child side = some node

def isLeftChild (m : RBMemory) (node : Ptr) (parent : Option Ptr) : Option Bool :=
  isChild m .left node parent

def isRightChild (m : RBMemory) (node : Ptr) (parent : Option Ptr) : Option Bool :=
  isChild m .right node parent

def isLined (m : RBMemory) (node parent grandparent : Ptr) : Option Bool := do
  return (← isLeftChild m node (some parent)) && (← isLeftChild m parent (some grandparent)) ||
    (← isRightChild m node (some parent)) && (← isRightChild m parent (some grandparent))

/-! ### Rotations -/

/-- `if (Is…Child(nodeA, parent)) parent->…Child = nodeB`. -/
def relink (m : RBMemory) (side : Side) (nodeA : Ptr) (parent nodeB : Option Ptr) : Option RBMemory := do
  if ← isChild m side nodeA parent then
    match parent with
    | some parent => setChild m side parent nodeB
    | none => none
  else return m

/-- `nodeA` goes down on the given side; its child on the other side takes its place. -/
def rotate (m : RBMemory) (side : Side) (nodeA : Ptr) (parent : Option Ptr) : Option RBMemory := do
  let nodeB := (← m nodeA).child side.other
  let m ← relink m .left nodeA parent nodeB
  let m ← relink m .right nodeA parent nodeB
  match nodeB with
  | none => none
  | some nodeB =>
    let m ← setChild m side.other nodeA ((← m nodeB).child side)
    setChild m side nodeB (some nodeA)

def rotateLeft (m : RBMemory) (nodeA : Ptr) (parent : Option Ptr) : Option RBMemory :=
  rotate m .left nodeA parent

def rotateRight (m : RBMemory) (nodeA : Ptr) (parent : Option Ptr) : Option RBMemory :=
  rotate m .right nodeA parent

/-- The memory behind the rotation; `node` and `parent` are swapped by the caller. -/
def makeLined (m : RBMemory) (node parent grandparent : Ptr) : Option RBMemory := do
  if ← isLeftChild m node (some parent) then rotateRight m parent (some grandparent)
  else rotateLeft m parent (some grandparent)

def getUncle (m : RBMemory) (parent grandparent : Ptr) : Option (Option Ptr) := do
  if ← isLeftChild m parent (some grandparent) then return (← m grandparent).rightChild
  else return (← m grandparent).leftChild

/-- `uncle && uncle->color == RED`. -/
def isRed (m : RBMemory) : (node : Option Ptr) → Option Bool
  | none => some false
  | some node => (m node).map fun cell => cell.data.color = .red

/-! ### Balancing and insertion -/

/-- The second result is the new root, or `NULL` if the root stays. -/
def rbTreeBalance (m : RBMemory) (node : Ptr) : (ancestors : List Ptr) → Option (RBMemory × Option Ptr)
  -- case 0: root node
  | [] => do
      let m ← setColor m node .black
      return (m, some node)
  | [parent] => do
      if (← m node).data.color = .black then return (m, none)
      if (← m parent).data.color = .black then return (m, none)
      -- there is no uncle, and IsLined asserts that there is a grandparent
      none
  | parent :: grandparent :: ancestors => do
      let uncle ← getUncle m parent grandparent
      -- rebalance only red nodes
      if (← m node).data.color = .black then return (m, none)
      -- case 1: Black parent
      if (← m parent).data.color = .black then return (m, none)
      -- case 2: Red parent
      if ← isRed m uncle then
        -- case 2.1: Red uncle
        let m ← uncle.bind fun uncle => setColor m uncle .black
        let m ← setColor m parent .black
        let m ← setColor m grandparent .red
        rbTreeBalance m grandparent ancestors
      else
        -- case 2.2: Black uncle
        let lined ← isLined m node parent grandparent
        let m ← if lined then some m else makeLined m node parent grandparent
        let (node, parent) := if lined then (node, parent) else (parent, node)
        -- case 2.2.2: Lined shape
        let m ← setColor m parent .black
        let m ← setColor m grandparent .red
        let m ←
          if ← isLeftChild m node (some parent) then rotateRight m grandparent ancestors.head?
          else rotateLeft m grandparent ancestors.head?
        rbTreeBalance m parent ancestors

/-- `BST_TO_LEFT`. -/
def bstToLeft (value nodeValue : Int) : Side := if value < nodeValue then .left else .right

/-- The loop of `Insert`: the ancestors of the place for the value are pushed. -/
def descend (m : RBMemory) (value : Int) : (fuel : Nat) → (curNode : Option Ptr) → List Ptr →
    Option (List Ptr)
  | 0, _, _ => none
  | _ + 1, none, ancestors => some ancestors
  | fuel + 1, some curNode, ancestors => do
      let cell ← m curNode
      descend m value fuel (cell.child (bstToLeft value cell.data.value)) (curNode :: ancestors)

/-- `MakeNode`. -/
def makeNode (m : RBMemory) (value : Int) (placeholder : Ptr) : RBMemory :=
  Function.update m placeholder (some ⟨none, none, ⟨.red, value⟩⟩)

def insert (fuel : Nat) (m : RBMemory) (root : Option Ptr) (value : Int) (placeholder : Ptr) :
    Option (RBMemory × Option Ptr) := do
  let ancestors ← descend m value fuel root []
  let m := makeNode m value placeholder
  let (m, root) ←
    match ancestors.head? with
    | none => some (m, some placeholder)
    | some parent =>
      (m parent).bind fun cell =>
        (setChild m (bstToLeft value cell.data.value) parent (some placeholder)).map fun m => (m, root)
  let (m, newRoot) ← rbTreeBalance m placeholder ancestors
  return (m, newRoot.or root)

/-- The loop of `main`, from the `i`-th place of its array on. -/
def insertAll (m : RBMemory) (root : Option Ptr) (i : Nat) : List Int → Option (RBMemory × Option Ptr)
  | [] => some (m, root)
  | value :: values => do
      let (m, root) ← insert (i + 1) m root value i
      insertAll m root (i + 1) values

def calculateBlackHeight (m : RBMemory) : (fuel : Nat) → (node : Option Ptr) → Option Nat
  | _, none => some 1
  | 0, some _ => none
  | fuel + 1, some node => do
      let cell ← m node
      let h1 ← calculateBlackHeight m fuel cell.leftChild
      let h2 ← calculateBlackHeight m fuel cell.rightChild
      return max h1 h2 + if cell.data.color = .black then 1 else 0

end NsuLabs.RedBlackTree
