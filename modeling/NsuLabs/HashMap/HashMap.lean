/-
Module: NsuLabs.HashMap.HashMap
Purpose: `C-Homework/HashMap/src` (avl_tree.c and hash_map.c). `none` is the dereference of a null pointer or
  an index past the buckets. The outcome of each allocation is an argument. The freeing of data, the `hm ==
  NULL` guards, `hm_destroy` and `hm_printStatistics` are left out.
Trusted boundary: The `int8_t` depth is an integer: `balanced_depth_le` in
  `Proofs.AvlBalance` bounds it in balanced trees only, not behind a rotation that goes wrong. `loadFactor`
  is a rational number: with the default 0.75 and capacities 10·2^k the `float` products are exact, with
  another factor of `hm_setLoadFactor` they are rounded, which is left out. A stored key does not change. The
  bucket array fits in memory
Main exports: avlRun, HashMapT
-/
import Mathlib.Data.List.Basic
import Mathlib.Data.Rat.Floor

namespace NsuLabs.HashMap

universe u v

/-- `AVLNode_t *`: the null pointer or a node. -/
inductive AVLNode (α : Type u) where
  | null
  | node (data : α) (leftChild rightChild : AVLNode α) (depth : Int)
deriving DecidableEq, Inhabited

namespace AVLNode

variable {α : Type u}

/-- Number of nodes below a pointer. -/
def nodeCount : AVLNode α → Nat
  | null => 0
  | node _ leftChild rightChild _ => leftChild.nodeCount + rightChild.nodeCount + 1

/-- True height of a subtree, as opposed to the stored `depth`. -/
def height : AVLNode α → Nat
  | null => 0
  | node _ leftChild rightChild _ => max leftChild.height rightChild.height + 1

/-- The data in the order of an in-order traversal. -/
def toList : AVLNode α → List α
  | null => []
  | node data leftChild rightChild _ => leftChild.toList ++ data :: rightChild.toList

end AVLNode

open AVLNode

variable {α : Type u}

/-! ### Depths and rotations -/

def getDepth : AVLNode α → Int
  | null => 0
  | node _ _ _ depth => depth

def max2 (a b : Int) : Int := if a > b then a else b

/-- `updateDepth` dereferences its argument; all its callers pass a node. -/
def updateDepth : AVLNode α → Option (AVLNode α)
  | null => none
  | node data leftChild rightChild _ =>
    some (node data leftChild rightChild (1 + max2 (getDepth leftChild) (getDepth rightChild)))

def getBalanceFactor : AVLNode α → Int
  | null => 0
  | node _ leftChild rightChild _ => getDepth rightChild - getDepth leftChild

/-- `nodeB` takes the place of `nodeA`; both depths are recomputed, the lower node first. -/
def rotateLeft : AVLNode α → Option (AVLNode α)
  | node a leftA (node b leftB rightB depthB) depthA => do
      let nodeA ← updateDepth (node a leftA leftB depthA)
      updateDepth (node b nodeA rightB depthB)
  | _ => none

def rotateRight : AVLNode α → Option (AVLNode α)
  | node a (node b leftB rightB depthB) rightA depthA => do
      let nodeA ← updateDepth (node a rightB rightA depthA)
      updateDepth (node b leftB nodeA depthB)
  | _ => none

def rotateLeftRight : AVLNode α → Option (AVLNode α)
  | node a leftA rightA depthA => do
      let leftA ← rotateLeft leftA
      rotateRight (node a leftA rightA depthA)
  | null => none

def rotateRightLeft : AVLNode α → Option (AVLNode α)
  | node a leftA rightA depthA => do
      let rightA ← rotateRight rightA
      rotateLeft (node a leftA rightA depthA)
  | null => none

/-- A heavy child that is itself perfectly balanced goes to the double rotation on both sides. -/
def rebalance : AVLNode α → Option (AVLNode α)
  | null => none
  | node data leftChild rightChild depth =>
    let cur := node data leftChild rightChild depth
    if getBalanceFactor cur < -1 then
      if getBalanceFactor leftChild < 0 then rotateRight cur else rotateLeftRight cur
    else if getBalanceFactor cur > 1 then
      if getBalanceFactor rightChild > 0 then rotateLeft cur else rotateRightLeft cur
    else some cur

/-- The common tail of `insertImpl` and `removeImpl`: `updateDepth`, then `rebalance`. -/
def restore (cur : AVLNode α) : Option (AVLNode α) := do
  let cur ← updateDepth cur
  rebalance cur

/-! ### Insertion -/

/-- `createNode` with the outcome of its `malloc`; a failed allocation yields the null pointer. -/
def createNode (malloc : Bool) (value : α) : AVLNode α :=
  if malloc then node value null null 1 else null

/-- The flag is `*inserted`. It is raised before the allocation, whatever its outcome. -/
def insertImpl (cmp : α → α → Int) (malloc : Bool) (data : α) :
    AVLNode α → Option (AVLNode α × Bool)
  | null => some (createNode malloc data, true)
  | node current leftChild rightChild depth =>
    if cmp data current < 0 then do
      let (leftChild, inserted) ← insertImpl cmp malloc data leftChild
      let cur ← restore (node current leftChild rightChild depth)
      some (cur, inserted)
    else if cmp data current > 0 then do
      let (rightChild, inserted) ← insertImpl cmp malloc data rightChild
      let cur ← restore (node current leftChild rightChild depth)
      some (cur, inserted)
    else
      -- the previous data is destroyed and replaced; depths are untouched
      some (node data leftChild rightChild depth, false)

/-! ### Removal -/

/-- The data of the node that `findMinimalNode` reaches. -/
def findMinimalNode : AVLNode α → Option α
  | null => none
  | node data null _ _ => some data
  | node _ leftChild _ _ => findMinimalNode leftChild

/-- The subtree after `data` was written into the node that `findMinimalNode` reaches. -/
def setMinimalNode (data : α) : AVLNode α → AVLNode α
  | null => null
  | node _ null rightChild depth => node data null rightChild depth
  | node current leftChild rightChild depth =>
    node current (setMinimalNode data leftChild) rightChild depth

theorem nodeCount_setMinimalNode (data : α) (t : AVLNode α) :
    (setMinimalNode data t).nodeCount = t.nodeCount := by
  fun_induction setMinimalNode data t with
  | case1 => rfl
  | case2 => rfl
  | case3 current leftChild rightChild depth hne ih => simp [nodeCount, ih]

/-- The second component is `*removedData`. In the two-children branch the data of `curNode` and of
    its successor are swapped first, and the call on the right subtree searches for the swapped-out
    value. -/
def removeImpl (cmp : α → α → Int) (data : α) : AVLNode α → Option (AVLNode α × Option α)
  | null => some (null, none)
  | node current leftChild rightChild depth =>
    if cmp data current < 0 then do
      let (leftChild, removedData) ← removeImpl cmp data leftChild
      let cur ← restore (node current leftChild rightChild depth)
      some (cur, removedData)
    else if cmp data current > 0 then do
      let (rightChild, removedData) ← removeImpl cmp data rightChild
      let cur ← restore (node current leftChild rightChild depth)
      some (cur, removedData)
    else
      match leftChild, rightChild with
      | null, null => some (null, some current)
      | null, node d l r h => do
          -- `*curNode = *tmp` copies the only child over the removed node
          let cur ← restore (node d l r h)
          some (cur, some current)
      | node d l r h, null => do
          let cur ← restore (node d l r h)
          some (cur, some current)
      | node d l r h, node d' l' r' h' => do
          let successor ← findMinimalNode (node d' l' r' h')
          let (rightChild, removedData) ←
            removeImpl cmp current (setMinimalNode current (node d' l' r' h'))
          let cur ← restore (node successor (node d l r h) rightChild depth)
          some (cur, removedData)
termination_by t => t.nodeCount
decreasing_by
  all_goals simp only [nodeCount_setMinimalNode, nodeCount]
  all_goals omega

/-! ### The tree -/

/-- `AVLTree_t` less the function pointers: the comparator is an argument of the operations. -/
structure AVLTree (α : Type u) where
  head : AVLNode α
  size : Nat
deriving DecidableEq, Inhabited

/-- `avl_createTree` with a successful allocation. -/
def avlCreateTree : AVLTree α := { head := null, size := 0 }

def avlInsert (cmp : α → α → Int) (malloc : Bool) (tree : AVLTree α) (data : α) :
    Option (AVLTree α × Bool) := do
  let (head, inserted) ← insertImpl cmp malloc data tree.head
  some ({ head := head, size := if inserted then tree.size + 1 else tree.size }, inserted)

/-- The data pointers are not null, so `removedData != NULL` is `removedData.isSome`. -/
def avlRemove (cmp : α → α → Int) (tree : AVLTree α) (data : α) :
    Option (AVLTree α × Option α) := do
  let (head, removedData) ← removeImpl cmp data tree.head
  some ({ head := head, size := if removedData.isSome then tree.size - 1 else tree.size }, removedData)

/-- The loop of `avl_find`, started at `tree->head`. -/
def findFrom (cmp : α → α → Int) (data : α) : AVLNode α → Option α
  | null => none
  | node current leftChild rightChild _ =>
    if cmp data current < 0 then findFrom cmp data leftChild
    else if cmp data current > 0 then findFrom cmp data rightChild
    else some current

def avlFind (cmp : α → α → Int) (tree : AVLTree α) (data : α) : Option α :=
  findFrom cmp data tree.head

def avlGetSize (tree : AVLTree α) : Nat := tree.size

/-- The visitor receives the data of each node and the context it may change. -/
def foreachImpl {σ : Type v} (func : α → σ → Option σ) : AVLNode α → σ → Option σ
  | null, context => some context
  | node data leftChild rightChild _, context => do
      let context ← foreachImpl func leftChild context
      let context ← func data context
      foreachImpl func rightChild context

def avlForeach {σ : Type v} (tree : AVLTree α) (func : α → σ → Option σ) (context : σ) : Option σ :=
  foreachImpl func tree.head context

/-! ### Runs -/

/-- One call of the interface. -/
inductive AvlOp (α : Type u) where
  | insert (data : α)
  | remove (data : α)
  | find (data : α)
deriving DecidableEq

/-- What a call returned. -/
inductive AvlResult (α : Type u) where
  | inserted (flag : Bool)
  | pointer (data : Option α)
deriving DecidableEq

/-- One call on a tree, with every allocation succeeding. -/
def avlStep (cmp : α → α → Int) (tree : AVLTree α) : AvlOp α → Option (AVLTree α × AvlResult α)
  | .insert data => do
      let (tree, inserted) ← avlInsert cmp true tree data
      some (tree, .inserted inserted)
  | .remove data => do
      let (tree, removedData) ← avlRemove cmp tree data
      some (tree, .pointer removedData)
  | .find data => some (tree, .pointer (avlFind cmp tree data))

/-- A sequence of calls, with the results in the order of the calls. -/
def avlRun (cmp : α → α → Int) (tree : AVLTree α) : List (AvlOp α) → Option (AVLTree α × List (AvlResult α))
  | [] => some (tree, [])
  | op :: ops => do
      let (tree, result) ← avlStep cmp tree op
      let (tree, results) ← avlRun cmp tree ops
      some (tree, result :: results)

variable {δ : Type u}

/-! ### Entries -/

/-- `HashMapEntry_t`. The data of the entry that a search builds is null. -/
structure HashMapEntry (δ : Type u) where
  key : List UInt8
  data : Option δ
  hash : UInt64
deriving DecidableEq

def HashMapEntry.keySize (entry : HashMapEntry δ) : Nat := entry.key.length

/-- `memcmp` on two blocks of one size. Only the sign of the result is specified in C. -/
def memcmp : List UInt8 → List UInt8 → Int
  | a :: as, b :: bs => if a < b then -1 else if b < a then 1 else memcmp as bs
  | _, _ => 0

/-- Two keys of one size and one hash compare as equal, without a look at their bytes. -/
def entryCompare (a b : HashMapEntry δ) : Int :=
  if a.keySize < b.keySize then -1
  else if a.keySize > b.keySize then 1
  else if a.hash = b.hash then 0
  else memcmp a.key b.key

/-- The shift, the sums and so the whole hash are modulo `2^64`. -/
def djb2Hash (data : List UInt8) : UInt64 :=
  data.foldl (fun hash byte => ((hash <<< 5) + hash) + byte.toUInt64) 5381

/-! ### The map -/

/-- `HashMap_t`. -/
structure HashMapT (δ : Type u) where
  buckets : List (AVLTree (HashMapEntry δ))
  size : Nat
  capacity : Nat
  loadFactor : Rat
  threshold : Nat

def defaultLoadFactor : Rat := 3 / 4
def capacityExpandFactor : Nat := 2
def startCapacity : Nat := 10

/-- The conversion to `size_t` truncates. -/
def calculateThreshold (hm : HashMapT δ) : HashMapT δ :=
  { hm with threshold := (hm.loadFactor * hm.capacity).floor.toNat }

def hmSetLoadFactor (hm : HashMapT δ) (loadFactor : Rat) : HashMapT δ :=
  calculateThreshold { hm with loadFactor := loadFactor }

/-- `hm_create` with every allocation succeeding. -/
def hmCreate : HashMapT δ :=
  let hm : HashMapT δ := ⟨[], 0, startCapacity, 0, 0⟩
  let hm := hmSetLoadFactor hm defaultLoadFactor
  { hm with buckets := List.replicate hm.capacity avlCreateTree }

/-- The outcomes of the allocations a call may make: the entry and its tree node in `hm_put`, and in
    `resize` the bucket array, the tree of each new bucket and the node of each transferred entry. -/
structure Mallocs where
  entry : Bool
  node : Bool
  buckets : Bool
  tree : Nat → Bool
  transfer : Nat → Bool

def Mallocs.succeed : Mallocs :=
  { entry := true, node := true, buckets := true, tree := fun _ => true, transfer := fun _ => true }

/-- The context is the map that is being filled and the number of entries transferred so far. -/
def entryTransferVisitor (malloc : Nat → Bool) (entry : HashMapEntry δ) (context : HashMapT δ × Nat) :
    Option (HashMapT δ × Nat) := do
  let (hm, count) := context
  let bucketIndex := entry.hash.toNat % hm.capacity
  let bucket ← hm.buckets[bucketIndex]?
  let (bucket, _) ← avlInsert entryCompare (malloc count) bucket entry
  some ({ hm with buckets := hm.buckets.set bucketIndex bucket }, count + 1)

/-- When an allocation fails the buckets and the capacity are restored, the threshold is not. -/
def resize (mallocs : Mallocs) (hm : HashMapT δ) : Option (HashMapT δ) :=
  let oldCapacity := hm.capacity
  let oldBuckets := hm.buckets
  let hm := calculateThreshold { hm with capacity := hm.capacity * capacityExpandFactor }
  if mallocs.buckets && (List.range hm.capacity).all mallocs.tree then do
    let hm := { hm with buckets := List.replicate hm.capacity avlCreateTree }
    -- the loop over `i < oldCapacity`: there are as many old buckets
    let (hm, _) ← oldBuckets.foldlM
      (fun context tree => avlForeach tree (entryTransferVisitor mallocs.transfer) context) (hm, 0)
    some hm
  else some { hm with buckets := oldBuckets, capacity := oldCapacity }

def hmPut (mallocs : Mallocs) (hm : HashMapT δ) :
    Option (List UInt8) → Option δ → Option (HashMapT δ × Bool)
  | some key, some data =>
    let hash := djb2Hash key
    let bucketIndex := hash.toNat % hm.capacity
    if mallocs.entry then do
      let entry := { key := key, data := some data, hash := hash }
      let bucket ← hm.buckets[bucketIndex]?
      let (bucket, inserted) ← avlInsert entryCompare mallocs.node bucket entry
      let hm := { hm with buckets := hm.buckets.set bucketIndex bucket }
      if inserted then do
        let hm := { hm with size := hm.size + 1 }
        if hm.size ≥ hm.threshold then do
          let hm ← resize mallocs hm
          some (hm, inserted)
        else some (hm, inserted)
      else some (hm, inserted)
    else some (hm, false)
  | _, _ => some (hm, false)

/-- The entry that `hm_get` and `hm_remove` search for. -/
def entryToFind (key : List UInt8) : HashMapEntry δ := { key := key, data := none, hash := djb2Hash key }

/-- The result is the pointer returned, inside the `Option` of the crash. -/
def hmGet (hm : HashMapT δ) (key : List UInt8) : Option (Option δ) := do
  let bucketIndex := (djb2Hash key).toNat % hm.capacity
  let bucket ← hm.buckets[bucketIndex]?
  match avlFind entryCompare bucket (entryToFind key) with
  | none => some none
  | some found => some found.data

def hmRemove (hm : HashMapT δ) (key : List UInt8) : Option (HashMapT δ × Option δ) := do
  let bucketIndex := (djb2Hash key).toNat % hm.capacity
  let bucket ← hm.buckets[bucketIndex]?
  let (bucket, removedEntry) ← avlRemove entryCompare bucket (entryToFind key)
  let hm := { hm with buckets := hm.buckets.set bucketIndex bucket }
  match removedEntry with
  | some removedEntry => some ({ hm with size := hm.size - 1 }, removedEntry.data)
  | none => some (hm, none)

def hmGetSize (hm : HashMapT δ) : Nat := hm.size

/-! ### Runs -/

/-- One call with keys and data that are not null. -/
inductive HmOp (δ : Type u) where
  | put (key : List UInt8) (data : δ)
  | remove (key : List UInt8)
  | get (key : List UInt8)
deriving DecidableEq

/-- What a call returned. -/
inductive HmResult (δ : Type u) where
  | inserted (flag : Bool)
  | pointer (data : Option δ)
deriving DecidableEq

/-- One call with every allocation succeeding. -/
def hmStep (hm : HashMapT δ) : HmOp δ → Option (HashMapT δ × HmResult δ)
  | .put key data => do
      let (hm, inserted) ← hmPut Mallocs.succeed hm (some key) (some data)
      some (hm, .inserted inserted)
  | .remove key => do
      let (hm, data) ← hmRemove hm key
      some (hm, .pointer data)
  | .get key => do
      let data ← hmGet hm key
      some (hm, .pointer data)

/-- A sequence of calls; after each one its result and what `hm_getSize` returns then. -/
def hmRun (hm : HashMapT δ) : List (HmOp δ) → Option (HashMapT δ × List (HmResult δ × Nat))
  | [] => some (hm, [])
  | op :: ops => do
      let (hm, result) ← hmStep hm op
      let size := hmGetSize hm
      let (hm, results) ← hmRun hm ops
      some (hm, (result, size) :: results)

end NsuLabs.HashMap
