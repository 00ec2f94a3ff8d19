/-
Module: NsuLabs.SpanningTree.SpanningTree
Purpose: `C-Labs/Minimal_spanning_tree_Prim_algo/src` and `C-Labs/Minimal_spanning_tree_Kruskal_algo/src`
  with the reading loops of main.c, for a graph with `n + 1` vertices. The queue is the list of the `size`
  elements of its heap, and the comparator is a parameter. `rand i` is the result of the `i`-th `rand() % 2`.
  Loops take fuel: those on the heap as much as there are elements, the main loop of Prim one for every pair
  of vertices, and `find` the number of vertices.
Trusted boundary: Every allocation succeeds; in the two programs the array grows as
  needed; two elements have the same address only if they are at the same place; the product of a capacity
  and 1.5 is exact, as it is below 2^24 (above, the rounded product still exceeds the capacity). `qsort` is
  the merge sort of glibc, which is stable and only asks whether the comparator gives at most 0
Main exports: Prim.run, Kruskal.run
-/
import NsuLabs.Lib.Graphs

namespace NsuLabs.SpanningTree

section

universe u

variable {α : Type u}

def swap (heap : List α) (i j : Nat) : List α :=
  match heap[i]?, heap[j]? with
  | some a, some b => (heap.set i b).set j a
  | _, _ => heap

/-- `pq->cmp(pq->heap[i], pq->heap[j]) < 0`. -/
def comesAfter (cmp : α → α → Int) (heap : List α) (i j : Nat) : Bool :=
  match heap[i]?, heap[j]? with
  | some a, some b => cmp a b < 0
  | _, _ => false

def heapifyBottomUp (cmp : α → α → Int) : (fuel : Nat) → List α → (node : Nat) → List α
  | 0, heap, _ => heap
  | fuel + 1, heap, node =>
    if node = 0 then heap
    else if comesAfter cmp heap ((node - 1) / 2) node then
      heapifyBottomUp cmp fuel (swap heap ((node - 1) / 2) node) ((node - 1) / 2)
    else heap

def pqAdd (cmp : α → α → Int) (heap : List α) (data : α) : List α :=
  heapifyBottomUp cmp heap.length (heap ++ [data]) heap.length

/-- `largest`, or the child if it has to be above it. -/
def chooseLargest (cmp : α → α → Int) (heap : List α) (largest child : Nat) : Nat :=
  if child < heap.length ∧ comesAfter cmp heap largest child then child else largest

def heapifyUpBottom (cmp : α → α → Int) : (fuel : Nat) → List α → (root : Nat) → List α
  | 0, heap, _ => heap
  | fuel + 1, heap, root =>
    let largest := chooseLargest cmp heap (chooseLargest cmp heap root (root * 2 + 1)) (root * 2 + 2)
    if largest ≠ root then
      -- move largest child to the root
      heapifyUpBottom cmp fuel (swap heap root largest) largest
    else heap

/-- The first element and the queue without it; `none` is `OUT_OF_BOUNDS`. -/
def pqPop (cmp : α → α → Int) (heap : List α) : Option (α × List α) :=
  match heap[0]?, heap.getLast? with
  | some first, some last =>
    -- move last element to the begining
    some (first, heapifyUpBottom cmp heap.length (heap.dropLast.set 0 last) 0)
  | _, _ => none

inductive QueueCall (α : Type u) where
  | add (data : α)
  | pop

/-- The queue with the places of its array, and what it has given out, the newest first. -/
structure PriorityQueue (α : Type u) where
  heap : List α
  capacity : Nat
  /-- An element had no place in the array: it was stored behind the end, or, in an array without
      any place, dropped, as `realloc` gives no array of zero bytes. What `heap` says from there on
      is not what the program sees. -/
  outside : Bool
  popped : List α

def createPQueue (sizeToReserve : Nat) : PriorityQueue α := ⟨[], sizeToReserve, false, []⟩

def PriorityQueue.call (cmp : α → α → Int) (pq : PriorityQueue α) : QueueCall α → PriorityQueue α
  | .add data =>
    -- `pq->capacity *= realloc_factor`, which is 1.5
    let capacity := if pq.heap.length = pq.capacity then pq.capacity * 3 / 2 else pq.capacity
    { pq with
      heap := pqAdd cmp pq.heap data
      capacity := capacity
      outside := pq.outside || decide (capacity ≤ pq.heap.length) }
  | .pop =>
    match pqPop cmp pq.heap with
    | some (first, heap) => { pq with heap := heap, popped := first :: pq.popped }
    | none => pq

def runCalls (cmp : α → α → Int) (sizeToReserve : Nat) (calls : List (QueueCall α)) : PriorityQueue α :=
  calls.foldl (PriorityQueue.call cmp) (createPQueue sizeToReserve)

end

/-- The exit codes of both programs behind the validation of the input. -/
inductive ExitCode where
  | noSpanningTree
  | outOfBounds
  | outOfRange
deriving DecidableEq

/-- A line of the input: two vertices from 1 on, and a length. -/
structure InputEdge where
  u : Nat
  v : Nat
  length : Nat
deriving DecidableEq

namespace Prim

/-- An adjacency matrix. -/
structure Graph (n : Nat) where
  /-- `-1` means no edge between vertices. -/
  adjMatrix : Fin (n + 1) → Fin (n + 1) → Int

def createGraph (n : Nat) : Graph n where
  adjMatrix := fun _ _ => -1

def addEdge {n : Nat} (graph : Graph n) (u v length : Nat) : Except ExitCode (Graph n) :=
  if h : u < n + 1 ∧ v < n + 1 then
    let set (matrix : Fin (n + 1) → Fin (n + 1) → Int) (u v : Fin (n + 1)) :=
      Function.update matrix u (Function.update (matrix u) v (length : Int))
    .ok { adjMatrix := set (set graph.adjMatrix ⟨u, h.1⟩ ⟨v, h.2⟩) ⟨v, h.2⟩ ⟨u, h.1⟩ }
  else .error .outOfBounds

/-- The reading loop of `main`. -/
def readGraph {n : Nat} (graph : Graph n) : List InputEdge → Except ExitCode (Graph n)
  | [] => .ok graph
  | e :: es => do
      -- make numeration start from zero
      let graph ← addEdge graph (e.u - 1) (e.v - 1) e.length
      readGraph graph es

/-- The far end of an edge, and its length. -/
structure Edge (n : Nat) where
  vertex : Fin (n + 1)
  length : Nat
deriving DecidableEq

def hasEdge {n : Nat} (graph : Graph n) (u v : Fin (n + 1)) : Bool := graph.adjMatrix u v ≠ -1

/-- What `nextEdge` yields, one after the other. -/
def edgesOf {n : Nat} (graph : Graph n) (u : Fin (n + 1)) : List (Edge n) :=
  ((List.finRange (n + 1)).filter (hasEdge graph u)).map fun v => ⟨v, (graph.adjMatrix u v).toNat⟩

def edgeCompare {n : Nat} (a b : Edge n) : Int :=
  if a.length < b.length then 1 else if a.length = b.length then 0 else -1

def uint32Max : Nat := 2 ^ 32 - 1

/-- The variables of the search. -/
structure State (n : Nat) where
  verticesInMST : Fin (n + 1) → Bool
  minDistance : Fin (n + 1) → Nat
  spanningTreeParents : Fin (n + 1) → Option (Fin (n + 1))
  queue : List (Edge n)
  spanningVertices : Nat

def initial (n : Nat) : State n where
  verticesInMST := fun _ => false
  minDistance := fun _ => uint32Max
  spanningTreeParents := fun _ => none
  queue := pqAdd edgeCompare [] ⟨0, 0⟩
  spanningVertices := 0

/-- The body of the loop over the edges of the vertex that was entered. -/
def relax {n : Nat} (vertex : Fin (n + 1)) (s : State n) (e : Edge n) : State n :=
  if !s.verticesInMST e.vertex ∧ e.length < s.minDistance e.vertex then
    { s with
      minDistance := Function.update s.minDistance e.vertex e.length
      spanningTreeParents := Function.update s.spanningTreeParents e.vertex (some vertex)
      queue := pqAdd edgeCompare s.queue ⟨e.vertex, e.length⟩ }
  else s

/-- The vertex gets into the tree. -/
def enter {n : Nat} (graph : Graph n) (vertex : Fin (n + 1)) (s : State n) : State n :=
  let s := { s with verticesInMST := Function.update s.verticesInMST vertex true }
  let s := (edgesOf graph vertex).foldl (relax vertex) s
  { s with spanningVertices := s.spanningVertices + 1 }

/-- The loop of `findSpanningTree`; `none` if the fuel does not suffice. -/
def loop {n : Nat} (graph : Graph n) : (fuel : Nat) → State n → Option (State n)
  | 0, s => if s.queue = [] then some s else none
  | fuel + 1, s =>
    match pqPop edgeCompare s.queue with
    | none => some s
    | some (bestEdge, queue) =>
      if s.verticesInMST bestEdge.vertex then loop graph fuel { s with queue }
      else loop graph fuel (enter graph bestEdge.vertex { s with queue })

def findSpanningTree {n : Nat} (graph : Graph n) :
    Option (Except ExitCode (Fin (n + 1) → Option (Fin (n + 1)))) :=
  (loop graph (1 + (n + 1) * (n + 1)) (initial n)).map fun s =>
    if s.spanningVertices < n + 1 then .error .noSpanningTree else .ok s.spanningTreeParents

/-- The lengths of the edges that `main` prints; `none` if a parent that it prints was never set. -/
def totalLength {n : Nat} (graph : Graph n) (parents : Fin (n + 1) → Option (Fin (n + 1))) : Option Nat :=
  ((List.finRange n).mapM fun i => (parents i.succ).map fun p => (graph.adjMatrix p i.succ).toNat).map
    List.sum

end Prim

/-- What a program reports: an exit code, or the total length of the edges that it has chosen. -/
abbrev Report := Except ExitCode Nat

/-- `none` if the program does not get to its end. -/
def Prim.run (n : Nat) (edges : List InputEdge) : Option Report :=
  match Prim.readGraph (Prim.createGraph n) edges with
  | .error code => some (.error code)
  | .ok graph =>
    (Prim.findSpanningTree graph).bind fun
      | .error code => some (.error code)
      | .ok parents => (Prim.totalLength graph parents).map .ok

namespace Kruskal

abbrev Edge (n : Nat) := Lib.WEdge (Fin (n + 1))

def addEdge {n : Nat} (edges : List (Edge n)) (u v length : Nat) : Except ExitCode (List (Edge n)) :=
  if h : u ≥ n + 1 ∨ v ≥ n + 1 then .error .outOfRange
  else .ok (edges ++ [⟨⟨u, Nat.lt_of_not_ge fun hu => h (.inl hu)⟩,
    ⟨v, Nat.lt_of_not_ge fun hv => h (.inr hv)⟩, length⟩])

/-- The reading loop of `main`. -/
def readGraph {n : Nat} (edges : List (Edge n)) : List InputEdge → Except ExitCode (List (Edge n))
  | [] => .ok edges
  | e :: es => do
      -- make numeration start from zero
      let edges ← addEdge edges (e.u - 1) (e.v - 1) e.length
      readGraph edges es

/-! ### Disjoint sets -/

abbrev DSU (n : Nat) := Fin (n + 1) → Fin (n + 1)

def createDSU (n : Nat) : DSU n := fun i => i

def findLoop {n : Nat} (link : DSU n) : (fuel : Nat) → Fin (n + 1) → Option (Fin (n + 1))
  | 0, a => if link a ≠ a then none else some a
  | fuel + 1, a => if link a ≠ a then findLoop link fuel (link a) else some a

def find {n : Nat} (link : DSU n) (a : Fin (n + 1)) : Option (Fin (n + 1)) := findLoop link (n + 1) a

def unite {n : Nat} (link : DSU n) (a b : Fin (n + 1)) (doSwap : Bool) : Option (DSU n) := do
  let a ← find link a
  let b ← find link b
  -- random heuristics
  let (a, b) := if doSwap then (b, a) else (a, b)
  return Function.update link a b

/-! ### The spanning tree -/

def edgeComapre {n : Nat} (a b : Edge n) : Int := if a.length > b.length then 1 else 0

def qsort {n : Nat} (edges : List (Edge n)) : List (Edge n) :=
  edges.insertionSort fun a b => edgeComapre a b ≤ 0

/-- The loop of `findSpanningTree` over the sorted edges; the chosen ones with the newest first. -/
def loop {n : Nat} (rand : Nat → Bool) : List (Edge n) → DSU n → List (Edge n) → Option (List (Edge n))
  | [], _, spanningTree => some spanningTree
  | curEdge :: edges, subsets, spanningTree => do
      let uRoot ← find subsets curEdge.u
      let vRoot ← find subsets curEdge.v
      if uRoot ≠ vRoot then
        (unite subsets uRoot vRoot (rand spanningTree.length)).bind fun subsets =>
          if (curEdge :: spanningTree).length = n then some (curEdge :: spanningTree)
          else loop rand edges subsets (curEdge :: spanningTree)
      else loop rand edges subsets spanningTree

/-- `findSpanningTree` with any sorting function in the place of `qsort`. -/
def findSpanningTreeWith {n : Nat} (qsort : List (Edge n) → List (Edge n)) (rand : Nat → Bool)
    (edges : List (Edge n)) : Option (Except ExitCode (List (Edge n))) :=
  (loop rand (qsort edges) (createDSU n) []).map fun spanningTree =>
    if spanningTree.length < n then .error .noSpanningTree else .ok spanningTree

def findSpanningTree {n : Nat} (rand : Nat → Bool) (edges : List (Edge n)) :
    Option (Except ExitCode (List (Edge n))) :=
  findSpanningTreeWith qsort rand edges

end Kruskal

/-- `none` if the program does not get to its end. -/
def Kruskal.run (rand : Nat → Bool) (n : Nat) (edges : List InputEdge) : Option Report :=
  match Kruskal.readGraph ([] : List (Kruskal.Edge n)) edges with
  | .error code => some (.error code)
  | .ok edges =>
    (Kruskal.findSpanningTree rand edges).map fun
      | .error code => .error code
      | .ok spanningTree => .ok (Lib.total spanningTree)

end NsuLabs.SpanningTree
