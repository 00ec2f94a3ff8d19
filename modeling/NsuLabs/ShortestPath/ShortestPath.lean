/-
Module: NsuLabs.ShortestPath.ShortestPath
Purpose: `C-Labs/Shortest_path_Dijkstra_algo/src` (graph.c, shortest_path.c and the checks of main.c) for a
  graph with `n + 1` vertices. priority_queue.c is the file of the Prim program, and graph.c is too but for
  the type of a parameter. Distances are `uint64_t`, so sums wrap around, and `UINT64_MAX` is the distance of
  a vertex that was not reached; as a parent it is `none`. The main loop takes fuel: the queue gets at most
  one element for every pair.
Trusted boundary: The matrix and all else could be allocated. The `int` that counts long
  distances wraps around
Main exports: findShortestPath, validate_indices_iff
-/
import NsuLabs.SpanningTree.Proofs.Prim

namespace NsuLabs.ShortestPath

open SpanningTree (pqAdd pqPop)
open SpanningTree.Prim (edgesOf)

/-! ### The graph -/

def intMax : Nat := 2 ^ 31 - 1

/-- A matrix of `int32_t` that fits into the memory. -/
structure Graph (n : Nat) extends SpanningTree.Prim.Graph n where
  allocated : 4 * ((n + 1) * (n + 1)) < 2 ^ 64
  lengths : ∀ u v, adjMatrix u v = -1 ∨ (0 ≤ adjMatrix u v ∧ adjMatrix u v ≤ intMax)

inductive ExitCode where
  | outOfBounds
  | noPath
  | overflow
  | badNumberOfVertices
  | badVertex
  | badNumberOfEdges
deriving DecidableEq

def createGraph (n : Nat) : Option (Graph n) :=
  if h : 4 * ((n + 1) * (n + 1)) < 2 ^ 64 then
    some { adjMatrix := fun _ _ => -1, allocated := h, lengths := fun _ _ => .inl rfl }
  else none

def setEntry {n : Nat} (graph : Graph n) (u v : Fin (n + 1)) (length : Nat) (hlength : length ≤ intMax) :
    Graph n where
  adjMatrix := Function.update graph.adjMatrix u (Function.update (graph.adjMatrix u) v (length : Int))
  allocated := graph.allocated
  lengths := by
    intro u' v'
    by_cases hu : u' = u
    · rw [hu, Function.update_self, Function.update_apply]
      split
      · exact .inr ⟨Int.natCast_nonneg _, Int.ofNat_le.mpr hlength⟩
      · exact graph.lengths u v'
    · rw [Function.update_of_ne hu]
      exact graph.lengths u' v'

/-- `addEdge`, for the lengths that `validateVertexLength` lets through. -/
def addEdge {n : Nat} (graph : Graph n) (u v length : Nat) (hlength : length ≤ intMax) :
    Except ExitCode (Graph n) :=
  if hu : u ≥ n + 1 then .error .outOfBounds
  else if hv : v ≥ n + 1 then .error .outOfBounds
  else
    let u : Fin (n + 1) := ⟨u, Nat.lt_of_not_ge hu⟩
    let v : Fin (n + 1) := ⟨v, Nat.lt_of_not_ge hv⟩
    .ok (setEntry (setEntry graph u v length hlength) v u length hlength)

/-! ### The search -/

def uint64Max : Nat := 2 ^ 64 - 1

/-- A vertex in the queue, with a distance. -/
structure DijkstraNode (n : Nat) where
  vertex : Fin (n + 1)
  dist : Nat
deriving DecidableEq

def nodeCompare {n : Nat} (a b : DijkstraNode n) : Int :=
  if a.dist < b.dist then 1 else if a.dist = b.dist then 0 else -1

/-- The variables of the search. -/
structure State (n : Nat) where
  visited : Fin (n + 1) → Bool
  parents : Fin (n + 1) → Option (Fin (n + 1))
  distances : Fin (n + 1) → Nat
  queue : List (DijkstraNode n)
  overflowCount : Int

def initial {n : Nat} (start : Fin (n + 1)) : State n where
  visited := fun _ => false
  parents := fun _ => none
  distances := Function.update (fun _ => uint64Max) start 0
  queue := pqAdd nodeCompare [] ⟨start, 0⟩
  overflowCount := 0

/-- The body of the loop over the edges of the vertex that is visited. -/
def relax {n : Nat} (curNode : DijkstraNode n) (s : State n) (e : SpanningTree.Prim.Edge n) : State n :=
  let newLength := (curNode.dist + e.length) % 2 ^ 64
  if !s.visited e.vertex ∧ newLength < s.distances e.vertex then
    { s with
      overflowCount := if newLength ≥ intMax then (s.overflowCount + 1).bmod (2 ^ 32) else s.overflowCount
      parents := Function.update s.parents e.vertex (some curNode.vertex)
      distances := Function.update s.distances e.vertex newLength
      queue := pqAdd nodeCompare s.queue ⟨e.vertex, newLength⟩ }
  else s

/-- The vertex is marked, and its edges are looked at. -/
def visit {n : Nat} (graph : Graph n) (curNode : DijkstraNode n) (s : State n) : State n :=
  (edgesOf graph.toGraph curNode.vertex).foldl (relax curNode)
    { s with visited := Function.update s.visited curNode.vertex true }

/-- The loop of `findShortestPath`; `none` if the fuel does not suffice. -/
def loop {n : Nat} (graph : Graph n) : (fuel : Nat) → State n → Option (State n)
  | 0, s => if s.queue = [] then some s else none
  | fuel + 1, s =>
    match pqPop nodeCompare s.queue with
    | none => some s
    | some (curNode, queue) =>
      if s.visited curNode.vertex then loop graph fuel { s with queue }
      else loop graph fuel (visit graph curNode { s with queue })

/-- The path that is written up to the vertex; `none` if it does not fit into the array of `n + 1`
    places, or if the recursion does not end within the fuel. -/
def convertToPath {n : Nat} (parents : Fin (n + 1) → Option (Fin (n + 1))) :
    (fuel : Nat) → (vertex : Option (Fin (n + 1))) → Option (List (Fin (n + 1)))
  | _, none => some []
  | 0, some _ => none
  | fuel + 1, some vertex => do
      let path ← convertToPath parents fuel (parents vertex)
      if path.length < n + 1 then some (path ++ [vertex]) else none

/-- The exit code, or the path on success, and the distances. -/
def findShortestPath {n : Nat} (graph : Graph n) (start finish : Fin (n + 1)) :
    Option (Except ExitCode (List (Fin (n + 1))) × (Fin (n + 1) → Nat)) := do
  let s ← loop graph (1 + (n + 1) * (n + 1)) (initial start)
  if s.distances finish = uint64Max then some (.error .noPath, s.distances)
  else if s.overflowCount > 2 ∧ s.distances finish > intMax then some (.error .overflow, s.distances)
  else do
    let path ← convertToPath s.parents (n + 1) (some finish)
    some (.ok path, s.distances)

/-! ### The checks of the first line -/

/-- A `size_t` that is passed as an `int`. -/
def toInt (x : UInt64) : Int := (x.toNat : Int).bmod (2 ^ 32)

def validateVerticesNumber (vertN : Int) : Bool := 0 ≤ vertN ∧ vertN ≤ 5000

def validateEdgesNumber (vertN edgesN : Int) : Bool :=
  let maxEdgesN := vertN * (vertN - 1) / 2
  0 ≤ edgesN ∧ edgesN ≤ maxEdgesN

def validateVertexIndex (vertN idx : Int) : Bool := 1 ≤ idx ∧ idx ≤ vertN

/-- What `main` does between reading the first line and creating the graph. -/
def validate (vertN start finish edgesN : UInt64) : Except ExitCode Unit :=
  if !validateVerticesNumber (toInt vertN) then .error .badNumberOfVertices
  else if !validateVertexIndex (toInt vertN) (toInt start) || !validateVertexIndex (toInt vertN)
    (toInt finish) then
    .error .badVertex
  else if !validateEdgesNumber (toInt vertN) (toInt edgesN) then .error .badNumberOfEdges
  else .ok ()

open Lib

section

open SpanningTree (pqAdd pqPop pqAdd_perm pqPop_spec Orders HeapOrdered heapOrdered_nil heapOrdered_pqAdd)
open SpanningTree.Prim (edgesOf hasEdge mem_edgesOf length_edgesOf_le)
open Function List Option

variable {n : Nat}
  {u v : Fin (n + 1)} {q : SpanningTree.Prim.Edge n} {k : Nat} {queue : List (DijkstraNode n)}

/-! ### Lengths -/

/-- The length of the edge between two vertices, if there is one. -/
def edgeLength (graph : Graph n) (u v : Fin (n + 1)) : Option Nat :=
  if hasEdge graph.toGraph u v then some (graph.adjMatrix u v).toNat else none

theorem mem_edgesOf_iff {graph : Graph n} :
    q ∈ edgesOf graph.toGraph u ↔ edgeLength graph u q.vertex = some q.length := by
  rw [mem_edgesOf, edgeLength, hasEdge]
  by_cases hedge : graph.adjMatrix u q.vertex = -1
  · simp [hedge]
  · simp [hedge, eq_comm]

theorem edgeLength_le (graph : Graph n) (h : edgeLength graph u v = some k) :
    k ≤ intMax := by
  rw [edgeLength] at h
  split at h
  · cases h
    rcases graph.lengths u v with hnone | ⟨-, hle⟩
    · rw [hnone]
      exact Nat.zero_le _
    · exact Int.toNat_le.mpr hle
  · cases h

/-- No walk that passes every vertex at most once gets as long as `UINT64_MAX`. -/
theorem Graph.bound (graph : Graph n) : (n + 1) * intMax < uint64Max := by
  have hsmall : n + 1 < 2 ^ 31 := by
    by_contra hlarge
    have := Nat.mul_le_mul (not_lt.mp hlarge) (not_lt.mp hlarge)
    have := graph.allocated
    omega
  calc (n + 1) * intMax < 2 ^ 31 * intMax := Nat.mul_lt_mul_of_pos_right hsmall (by decide)
    _ < uint64Max := by decide

/-- The nearer a node, the greater it is in the queue. -/
def priority (q : DijkstraNode n) : Natᵒᵈ := .toDual q.dist

theorem nodeCompare_orders : Orders (nodeCompare (n := n)) priority := by
  intro a b
  simp only [nodeCompare, priority, OrderDual.toDual_le_toDual]
  split_ifs <;> omega

/-! ### The invariant -/

/-- What holds while the edges between the pairs in `looked` have been looked at. -/
structure Searching (graph : Graph n) (start : Fin (n + 1)) (looked : Set (Fin (n + 1) × Fin (n + 1)))
    (s : State n) : Prop where
  origin : s.visited start = false → s.distances start = 0
  settled : ∀ v, s.visited v = true → IsDistance (edgeLength graph) start v (s.distances v)
  traced : ∀ v, s.visited v = true → ∃ path, Traces s.parents v path ∧
    Walk (edgeLength graph) start v path (s.distances v) ∧ path.Nodup ∧ ∀ x ∈ path, s.visited x = true
  near : ∀ u v k, (u, v) ∈ looked → s.visited u = true → s.visited v = false →
    edgeLength graph u v = some k → s.distances v ≤ s.distances u + k
  known : ∀ v, s.visited v = false → s.distances v = uint64Max ∨
    (⟨v, s.distances v⟩ ∈ s.queue ∧
      (v = start ∧ s.distances v = 0 ∧ s.parents v = none ∨
        ∃ p k, s.visited p = true ∧ s.parents v = some p ∧ edgeLength graph p v = some k ∧
          s.distances v = s.distances p + k))
  queued : ∀ q ∈ s.queue, s.visited q.vertex = false → s.distances q.vertex ≤ q.dist ∧ q.dist < uint64Max
  heap : HeapOrdered priority s.queue

variable {graph : Graph n} {start : Fin (n + 1)} {looked : Set (Fin (n + 1) × Fin (n + 1))} {s : State n}
  {curNode : DijkstraNode n}

/-- One edge can be added to the distance of a visited vertex. -/
theorem Searching.distance_add_lt (h : Searching graph start looked s) (hu : s.visited u = true)
    (hk : k ≤ intMax) : s.distances u + k < uint64Max := by
  obtain ⟨path, -, hwalk, hnodup, -⟩ := h.traced u hu
  have hlength : path.length ≤ n + 1 := hnodup.length_le_card.trans_eq (Fintype.card_fin _)
  calc s.distances u + k ≤ s.distances u + intMax := Nat.add_le_add_left hk _
    _ ≤ path.length * intMax := hwalk.total_le fun u v k => edgeLength_le graph
    _ ≤ (n + 1) * intMax := Nat.mul_le_mul_right _ hlength
    _ < uint64Max := graph.bound

/-- Looking at one more edge. -/
theorem Searching.relax (h : Searching graph start looked s) (hvisited : s.visited curNode.vertex = true)
    (hdist : s.distances curNode.vertex = curNode.dist) (hq : q ∈ edgesOf graph.toGraph curNode.vertex) :
    Searching graph start (insert (curNode.vertex, q.vertex) looked) (relax curNode s q) := by
  rw [mem_edgesOf_iff] at hq
  have hlt : curNode.dist + q.length < uint64Max := by
    rw [← hdist]
    exact h.distance_add_lt hvisited (edgeLength_le graph hq)
  have hnowrap : (curNode.dist + q.length) % 2 ^ 64 = curNode.dist + q.length :=
    Nat.mod_eq_of_lt (hlt.trans (by decide))
  rw [ShortestPath.relax, hnowrap]
  split
  case isFalse hcond =>
    refine { h with near := ?_ }
    rintro u v k (heq | hlooked) hu hv hk
    -- the distance is known to be as short
    · cases heq
      by_contra hfar
      rw [hq, some.injEq] at hk
      rw [← hk, hdist] at hfar
      exact hcond ⟨by rw [hv]; rfl, not_le.mp hfar⟩
    · exact h.near u v k hlooked hu hv hk
  case isTrue hcond =>
    have hopen : s.visited q.vertex = false := by simpa using hcond.1
    have hperm := pqAdd_perm nodeCompare s.queue ⟨q.vertex, curNode.dist + q.length⟩
    have hne : ∀ {v}, s.visited v = true → v ≠ q.vertex := by
      rintro v hv rfl
      rw [hopen] at hv
      cases hv
    have hsame : ∀ {v}, s.visited v = true →
        Function.update s.distances q.vertex (curNode.dist + q.length) v = s.distances v :=
      fun hv => update_of_ne (hne hv) ..
    have hle : ∀ v, Function.update s.distances q.vertex (curNode.dist + q.length) v ≤ s.distances v := by
      intro v
      by_cases hv : v = q.vertex
      · rw [hv, update_self]
        exact hcond.2.le
      · rw [update_of_ne hv]
    constructor
    case origin => exact fun hv => Nat.le_zero.mp ((hle start).trans (h.origin hv).le)
    case settled =>
      intro v hv
      dsimp only
      rw [hsame hv]
      exact h.settled v hv
    case traced =>
      intro v hv
      obtain ⟨path, htrace, hwalk, hnodup, hall⟩ := h.traced v hv
      refine ⟨path, htrace.congr fun x hx => update_of_ne (hne (hall x hx)) .., ?_, hnodup, hall⟩
      dsimp only
      rwa [hsame hv]
    case near =>
      rintro u v k (heq | hlooked) hu hv hk
      · cases heq
        rw [hq, some.injEq] at hk
        dsimp only
        rw [update_self, hsame hu, hdist, hk]
      · dsimp only
        rw [hsame hu]
        exact (hle v).trans (h.near u v k hlooked hu hv hk)
    case known =>
      intro v hv
      by_cases hvq : v = q.vertex
      · subst hvq
        simp only [update_self]
        refine .inr ⟨hperm.mem_iff.mpr mem_cons_self, .inr ⟨_, _, hvisited, rfl, hq, ?_⟩⟩
        rw [hsame hvisited, hdist]
      · simp only [update_of_ne hvq]
        refine (h.known v hv).imp_right fun hknown => ⟨hperm.mem_iff.mpr (mem_cons_of_mem _ hknown.1), ?_⟩
        refine hknown.2.imp_right ?_
        rintro ⟨p, k, hp, hparent, hk, heq⟩
        exact ⟨p, k, hp, hparent, hk, heq.trans (by rw [hsame hp])⟩
    case queued =>
      intro q' hq' hv
      rcases mem_cons.mp (hperm.mem_iff.mp hq') with rfl | hq'
      · exact ⟨(update_self ..).le, hlt⟩
      · exact ⟨(hle _).trans (h.queued q' hq' hv).1, (h.queued q' hq' hv).2⟩
    case heap => exact heapOrdered_pqAdd nodeCompare_orders h.heap _

theorem visited_relax (curNode : DijkstraNode n) (s : State n) (q : SpanningTree.Prim.Edge n) :
    (relax curNode s q).visited = s.visited := by
  rw [relax]
  split <;> rfl

theorem distances_relax (q : SpanningTree.Prim.Edge n) (hv : s.visited v = true) :
    (relax curNode s q).distances v = s.distances v := by
  rw [relax]
  split
  case isTrue hcond =>
    apply update_of_ne
    rintro rfl
    rw [hv] at hcond
    exact absurd hcond.1 (by decide)
  case isFalse => rfl

theorem length_queue_relax_le (curNode : DijkstraNode n) (s : State n) (q : SpanningTree.Prim.Edge n) :
    (relax curNode s q).queue.length ≤ s.queue.length + 1 := by
  rw [relax]
  split
  · exact (pqAdd_perm nodeCompare s.queue _).length_eq.le
  · exact Nat.le_succ _

/-- Looking at all edges of a list. -/
theorem Searching.foldl_relax (edges : List (SpanningTree.Prim.Edge n))
    (hedges : edges ⊆ edgesOf graph.toGraph curNode.vertex) (h : Searching graph start looked s)
    (hvisited : s.visited curNode.vertex = true) (hdist : s.distances curNode.vertex = curNode.dist) :
    Searching graph start (looked ∪ {pair | ∃ q ∈ edges, pair = (curNode.vertex, q.vertex)})
        (edges.foldl (ShortestPath.relax curNode) s) ∧
      (edges.foldl (ShortestPath.relax curNode) s).visited = s.visited ∧
      (edges.foldl (ShortestPath.relax curNode) s).queue.length ≤ s.queue.length + edges.length := by
  induction edges generalizing s looked with
  | nil =>
    refine ⟨{ h with near := ?_ }, rfl, le_rfl⟩
    rintro u v k (hlooked | ⟨q, hq, -⟩)
    · exact h.near u v k hlooked
    · cases hq
  | cons q edges ih =>
    obtain ⟨hq, hedges⟩ := cons_subset.mp hedges
    have hsame := visited_relax curNode s q
    obtain ⟨hsearching, hvisited', hlen⟩ :=
      ih hedges (h.relax hvisited hdist hq) (by rw [hsame]; exact hvisited)
      ((distances_relax q hvisited).trans hdist)
    refine ⟨{ hsearching with near := ?_ }, hvisited'.trans hsame, ?_⟩
    · rintro u v k (hlooked | ⟨q', hq', hpair⟩)
      · exact hsearching.near u v k (.inl (.inr hlooked))
      · rcases mem_cons.mp hq' with rfl | hq'
        · exact hsearching.near u v k (.inl (.inl hpair))
        · exact hsearching.near u v k (.inr ⟨q', hq', hpair⟩)
    · have := length_queue_relax_le curNode s q
      rw [foldl_cons, length_cons]
      omega

/-! ### The loop -/

/-- The distances that have been found. -/
def label (s : State n) (v : Fin (n + 1)) : Option Nat :=
  if s.distances v = uint64Max then none else some (s.distances v)

theorem label_eq (h : s.distances v < uint64Max) : label s v = some (s.distances v) := by
  rw [label, if_neg h.ne]

theorem Searching.labelled (h : Searching graph start Set.univ s) :
    Labelled (edgeLength graph) start {v | s.visited v = true} (label s) where
  origin := by
    intro hstart
    have hzero := h.origin (Bool.eq_false_iff.mpr hstart)
    rw [label_eq (by rw [hzero]; decide), hzero]
  distance := fun v hv => ⟨_, label_eq (h.distance_add_lt hv (Nat.zero_le _)), h.settled v hv⟩
  edges := by
    intro u hu v hv d k hd hk
    have hnear := h.near u v k trivial hu (Bool.eq_false_iff.mpr hv) hk
    have hlt := h.distance_add_lt hu (edgeLength_le graph hk)
    rw [label_eq (h.distance_add_lt hu (Nat.zero_le _)), some.injEq] at hd
    subst hd
    exact ⟨_, label_eq (hnear.trans_lt hlt), hnear⟩

/-- An element of a vertex that was visited already is dropped. -/
theorem Searching.skip (h : Searching graph start looked s) (hperm : s.queue.Perm (curNode :: queue))
    (hheap : HeapOrdered priority queue) (hold : s.visited curNode.vertex = true) :
    Searching graph start looked { s with queue } := by
  refine { h with known := ?_, queued := ?_, heap := hheap }
  · intro v hv
    refine (h.known v hv).imp_right fun hknown => ⟨?_, hknown.2⟩
    rcases mem_cons.mp (hperm.mem_iff.mp hknown.1) with rfl | hmem
    · exact absurd hold (Bool.eq_false_iff.mp hv)
    · exact hmem
  · exact fun q hq => h.queued q (hperm.mem_iff.mpr (mem_cons_of_mem curNode hq))

/-- The first element of the queue has the distance of its vertex, and the parents lead to the
    start. -/
theorem Searching.first (h : Searching graph start Set.univ s) (hmem : curNode ∈ s.queue)
    (hfirst : ∀ q ∈ s.queue, curNode.dist ≤ q.dist) (hnew : s.visited curNode.vertex = false) :
    s.distances curNode.vertex = curNode.dist ∧
      IsDistance (edgeLength graph) start curNode.vertex curNode.dist ∧
      ∃ path, Traces s.parents curNode.vertex path ∧
        Walk (edgeLength graph) start curNode.vertex path curNode.dist ∧
        path.Nodup ∧ ∀ x ∈ path, x ≠ curNode.vertex → s.visited x = true := by
  obtain ⟨hle, hlt⟩ := h.queued curNode hmem hnew
  obtain ⟨hqueue, horigin⟩ := (h.known curNode.vertex hnew).resolve_left (hle.trans_lt hlt).ne
  have heq : s.distances curNode.vertex = curNode.dist := le_antisymm hle (hfirst _ hqueue)
  have hpath : ∃ path, Traces s.parents curNode.vertex path ∧
      Walk (edgeLength graph) start curNode.vertex path curNode.dist ∧
        path.Nodup ∧ ∀ x ∈ path, x ≠ curNode.vertex → s.visited x = true := by
    rw [heq] at horigin
    rcases horigin with ⟨hstart, hzero, hparent⟩ | ⟨p, k, hp, hparent, hk, hsum⟩
    · rw [hzero, hstart] at *
      refine ⟨[start], .root hparent, .nil, nodup_singleton _, ?_⟩
      exact fun x hx hne => absurd (mem_singleton.mp hx) hne
    · obtain ⟨path, htrace, hwalk, hnodup, hall⟩ := h.traced p hp
      rw [hsum]
      refine ⟨path ++ [curNode.vertex], .child hparent htrace, hwalk.snoc hk, ?_, ?_⟩
      · refine hnodup.append (nodup_singleton _) (disjoint_singleton.mpr fun hvisited => ?_)
        exact absurd (hall _ hvisited) (Bool.eq_false_iff.mp hnew)
      · intro x hx hne
        exact hall x ((mem_append.mp hx).resolve_right fun hx => hne (mem_singleton.mp hx))
  refine ⟨heq, ?_, hpath⟩
  obtain ⟨path, -, hwalk, -⟩ := hpath
  refine h.labelled.isDistance (Bool.eq_false_iff.mp hnew) hwalk fun x hx d hd => ?_
  rw [label] at hd
  split at hd
  case isTrue => cases hd
  case isFalse hmax =>
    cases hd
    exact hfirst _ ((h.known x (Bool.eq_false_iff.mpr hx)).resolve_left hmax).1

/-- The vertex is marked, before its edges are looked at. -/
theorem Searching.mark (h : Searching graph start Set.univ s) (hperm : s.queue.Perm (curNode :: queue))
    (hheap : HeapOrdered priority queue) (hfirst : ∀ q ∈ s.queue, curNode.dist ≤ q.dist)
    (hnew : s.visited curNode.vertex = false) :
    Searching graph start {pair | pair.1 ≠ curNode.vertex}
      { s with queue, visited := Function.update s.visited curNode.vertex true } := by
  obtain ⟨heq, hdistance, path, htrace, hwalk, hnodup, hall⟩ :=
    h.first (hperm.mem_iff.mpr mem_cons_self) hfirst hnew
  have hvisited : ∀ {v}, Function.update s.visited curNode.vertex true v = true ↔
      v = curNode.vertex ∨ s.visited v = true := by
    intro v
    by_cases hv : v = curNode.vertex
    · simp [hv]
    · simp [hv]
  have hopen : ∀ {v}, Function.update s.visited curNode.vertex true v = false →
      v ≠ curNode.vertex ∧ s.visited v = false := by
    intro v hv
    rw [Bool.eq_false_iff, ne_eq, hvisited, not_or] at hv
    exact ⟨hv.1, Bool.eq_false_iff.mpr hv.2⟩
  constructor
  case origin => exact fun hv => h.origin (hopen hv).2
  case settled =>
    intro v hv
    rcases hvisited.mp hv with rfl | hv
    · simpa only [heq] using hdistance
    · exact h.settled v hv
  case traced =>
    intro v hv
    rcases hvisited.mp hv with rfl | hv
    · refine ⟨path, htrace, by simpa only [heq] using hwalk, hnodup, fun x hx => hvisited.mpr ?_⟩
      exact or_iff_not_imp_left.mpr (hall x hx)
    · obtain ⟨path, htrace, hwalk, hnodup, hall⟩ := h.traced v hv
      exact ⟨path, htrace, hwalk, hnodup, fun x hx => hvisited.mpr (.inr (hall x hx))⟩
  case near =>
    intro u v k hlooked hu hv hk
    exact h.near u v k trivial ((hvisited.mp hu).resolve_left hlooked) (hopen hv).2 hk
  case known =>
    intro v hv
    refine (h.known v (hopen hv).2).imp_right ?_
    rintro ⟨hmem, horigin⟩
    constructor
    · rcases mem_cons.mp (hperm.mem_iff.mp hmem) with rfl | hmem
      · exact absurd rfl (hopen hv).1
      · exact hmem
    · refine horigin.imp_right ?_
      rintro ⟨p, k, hp, hrest⟩
      exact ⟨p, k, hvisited.mpr (.inr hp), hrest⟩
  case queued =>
    exact fun q hq hv => h.queued q (hperm.mem_iff.mpr (mem_cons_of_mem curNode hq)) (hopen hv).2
  case heap => exact hheap

/-- All edges of the marked vertex are looked at. -/
theorem Searching.visit (h : Searching graph start {pair | pair.1 ≠ curNode.vertex}
      { s with visited := Function.update s.visited curNode.vertex true })
    (hdist : s.distances curNode.vertex = curNode.dist) :
    Searching graph start Set.univ (visit graph curNode s) ∧
      (visit graph curNode s).visited = Function.update s.visited curNode.vertex true ∧
      (visit graph curNode s).queue.length ≤ s.queue.length + (n + 1) := by
  obtain ⟨hsearching, hvisited, hlen⟩ := h.foldl_relax (edgesOf graph.toGraph curNode.vertex) (Subset.refl _)
    (update_self ..) hdist
  refine ⟨{ hsearching with near := ?_ }, hvisited,
    hlen.trans (Nat.add_le_add_left (length_edgesOf_le graph.toGraph curNode.vertex) _)⟩
  intro u v k _ hu hv hk
  refine hsearching.near u v k ?_ hu hv hk
  by_cases hcur : u = curNode.vertex
  · subst hcur
    exact .inr ⟨⟨v, k⟩, mem_edgesOf_iff.mpr hk, rfl⟩
  · exact .inl hcur

/-- The number of vertices that are not visited yet. -/
def openCount (visited : Fin (n + 1) → Bool) : Nat := (Finset.univ.filter fun v => visited v = false).card

theorem openCount_update {visited : Fin (n + 1) → Bool} (hv : visited v = false) :
    openCount visited = openCount (Function.update visited v true) + 1 := by
  have herase : (Finset.univ.filter fun x => Function.update visited v true x = false) =
      (Finset.univ.filter fun x => visited x = false).erase v := by
    ext x
    by_cases hx : x = v
    · simp [hx]
    · simp [hx]
  rw [openCount, openCount, herase, Finset.card_erase_add_one]
  simpa using hv

/-- The loop ends, with an empty queue. -/
theorem loop_spec (fuel : Nat) : ∀ {s : State n}, Searching graph start Set.univ s →
    s.queue.length + openCount s.visited * (n + 1) ≤ fuel →
    ∃ s', loop graph fuel s = some s' ∧ Searching graph start Set.univ s' ∧ s'.queue = [] := by
  induction fuel with
  | zero =>
    intro s h hfuel
    have hqueue : s.queue = [] := length_eq_zero_iff.mp (by omega)
    rw [loop, if_pos hqueue]
    exact ⟨s, rfl, h, hqueue⟩
  | succ fuel ih =>
    intro s h hfuel
    by_cases hqueue : s.queue = []
    · have hpop : pqPop nodeCompare s.queue = none := by
        rw [hqueue]
        rfl
      rw [loop, hpop]
      exact ⟨s, rfl, h, hqueue⟩
    · obtain ⟨curNode, queue, hpop, hperm, hheap, hfirst⟩ := pqPop_spec nodeCompare_orders h.heap hqueue
      have hlen : s.queue.length = queue.length + 1 := hperm.length_eq
      rw [loop, hpop]
      cases hold : s.visited curNode.vertex with
      | true =>
        simp only [hold, if_true]
        exact ih (h.skip hperm hheap hold) (by simp only; omega)
      | false =>
        have hdist := (h.first (hperm.mem_iff.mpr mem_cons_self) hfirst hold).1
        obtain ⟨hsearching, hvisited, hlen'⟩ :=
          Searching.visit (s := { s with queue }) (h.mark hperm hheap hfirst hold) hdist
        have hcount := openCount_update hold
        simp only [hold, Bool.false_eq_true, if_false]
        apply ih hsearching
        rw [hvisited]
        rw [hcount, Nat.succ_mul] at hfuel
        simp only at hlen' ⊢
        omega

theorem distances_initial (start v : Fin (n + 1)) :
    (initial start).distances v = if v = start then 0 else uint64Max := by
  dsimp only [initial]
  rw [update_apply]

theorem searching_initial (graph : Graph n) (start : Fin (n + 1)) :
    Searching graph start Set.univ (initial start) := by
  have hqueue : (initial start).queue = [⟨start, 0⟩] :=
    perm_singleton.mp (pqAdd_perm nodeCompare [] ⟨start, 0⟩)
  have hzero : (initial start).distances start = 0 := (distances_initial start start).trans (if_pos rfl)
  constructor
  case origin => exact fun _ => hzero
  case settled =>
    intro v hv
    cases hv
  case traced =>
    intro v hv
    cases hv
  case near =>
    intro u v k _ hu
    cases hu
  case known =>
    intro v _
    by_cases hv : v = start
    · rw [hv, hqueue, hzero]
      exact .inr ⟨mem_singleton_self _, .inl ⟨rfl, rfl, rfl⟩⟩
    · exact .inl ((distances_initial start v).trans (if_neg hv))
  case queued =>
    intro q hq _
    rw [hqueue, mem_singleton] at hq
    subst hq
    exact ⟨hzero.le, Nat.succ_pos _⟩
  case heap => exact heapOrdered_pqAdd nodeCompare_orders (heapOrdered_nil priority) _

/-- The whole search. -/
theorem search_spec (graph : Graph n) (start : Fin (n + 1)) :
    ∃ s, loop graph (1 + (n + 1) * (n + 1)) (initial start) = some s ∧ Searching graph start Set.univ s ∧
      s.queue = [] := by
  apply loop_spec _ (searching_initial graph start)
  have hqueue : (initial start).queue.length = 1 := (pqAdd_perm nodeCompare [] ⟨start, 0⟩).length_eq
  have hcount : openCount (initial start).visited ≤ n + 1 :=
    (Finset.card_le_univ _).trans_eq (Fintype.card_fin _)
  rw [hqueue]
  exact Nat.add_le_add_left (Nat.mul_le_mul_right _ hcount) 1

/-! ### The results -/

/-- The path is that of the parents, as long as it fits. -/
theorem convertToPath_spec {parents : Fin (n + 1) → Option (Fin (n + 1))} {path : List (Fin (n + 1))}
    (h : Traces parents v path) : ∀ {fuel : Nat}, path.length ≤ fuel → path.length ≤ n + 1 →
      convertToPath parents fuel (some v) = some path := by
  induction h with
  | root h =>
    intro fuel hfuel _
    obtain ⟨fuel, rfl⟩ := Nat.exists_eq_succ_of_ne_zero (Nat.ne_of_gt hfuel)
    rw [convertToPath, h, convertToPath]
    rfl
  | @child v p path h trace ih =>
    intro fuel hfuel hfits
    rw [length_append, length_singleton] at hfuel hfits
    obtain ⟨fuel, rfl⟩ := Nat.exists_eq_succ_of_ne_zero (Nat.ne_of_gt (Nat.zero_lt_of_lt hfuel))
    rw [convertToPath, h, ih (Nat.le_of_succ_le_succ hfuel) (Nat.le_of_succ_le hfits)]
    exact if_pos hfits

/-- The distance of a vertex at the end says whether the vertex can be reached. -/
theorem Searching.finished (h : Searching graph start Set.univ s) (hqueue : s.queue = []) (v : Fin (n + 1)) :
    s.visited v = false ∧ s.distances v = uint64Max ∧
      (∀ path total, ¬ Walk (edgeLength graph) start v path total) ∨
      s.visited v = true ∧ s.distances v < uint64Max ∧
        IsDistance (edgeLength graph) start v (s.distances v) := by
  have hmax : ∀ x, s.visited x = false → s.distances x = uint64Max := by
    intro x hx
    refine (h.known x hx).resolve_right fun hknown => ?_
    rw [hqueue] at hknown
    exact absurd hknown.1 not_mem_nil
  cases hv : s.visited v with
  | true => exact .inr ⟨rfl, h.distance_add_lt hv (Nat.zero_le _), h.settled v hv⟩
  | false =>
    refine .inl ⟨rfl, hmax v hv, h.labelled.not_walk (Bool.eq_false_iff.mp hv) fun x hx => ?_⟩
    rw [label, if_pos (hmax x (Bool.eq_false_iff.mpr hx))]

/-- The distances are those of shortest walks, and the path that is returned is one of them. -/
theorem findShortestPath_shortest (graph : Graph n) (start finish : Fin (n + 1)) :
    ∃ exit distances, findShortestPath graph start finish = some (exit, distances) ∧
      (∀ v, distances v = uint64Max ∧ (∀ path total, ¬ Walk (edgeLength graph) start v path total) ∨
        distances v < uint64Max ∧ IsDistance (edgeLength graph) start v (distances v)) ∧
      (exit = .error .noPath ↔ ∀ path total, ¬ Walk (edgeLength graph) start finish path total) ∧
      ∀ path, exit = .ok path →
        Walk (edgeLength graph) start finish path (distances finish) ∧ path.length ≤ n + 1 := by
  obtain ⟨s, hloop, hsearching, hqueue⟩ := search_spec graph start
  have hall : ∀ v, s.distances v = uint64Max ∧ (∀ path total, ¬ Walk (edgeLength graph) start v path total) ∨
      s.distances v < uint64Max ∧ IsDistance (edgeLength graph) start v (s.distances v) :=
    fun v => (hsearching.finished hqueue v).imp (fun h => h.2) (fun h => h.2)
  rw [findShortestPath, hloop]
  dsimp only [bind_eq_bind, bind_some]
  rcases hsearching.finished hqueue finish with ⟨-, hmax, hnone⟩ | ⟨hvisited, hlt, -⟩
  · rw [if_pos hmax]
    exact ⟨_, _, rfl, hall, iff_of_true rfl hnone, by rintro _ ⟨⟩⟩
  · obtain ⟨path, htrace, hwalk, hnodup, -⟩ := hsearching.traced finish hvisited
    have hreached : ¬ ∀ path total, ¬ Walk (edgeLength graph) start finish path total := fun h =>
      h path _ hwalk
    have hfits : path.length ≤ n + 1 := hnodup.length_le_card.trans_eq (Fintype.card_fin _)
    rw [if_neg hlt.ne]
    by_cases hoverflow : s.overflowCount > 2 ∧ s.distances finish > intMax
    · rw [if_pos hoverflow]
      exact ⟨_, _, rfl, hall, iff_of_false (by rintro ⟨⟩) hreached, by rintro _ ⟨⟩⟩
    · rw [if_neg hoverflow, convertToPath_spec htrace hfits hfits]
      refine ⟨_, _, rfl, hall, iff_of_false (by rintro ⟨⟩) hreached, ?_⟩
      rintro _ ⟨⟩
      exact ⟨hwalk, hfits⟩

end

/-! ### The first line -/

/-- The numbers that get past the checks can be used as indices. -/
def IndicesValid (vertN start finish edgesN : UInt64) : Prop :=
  validate vertN start finish edgesN = .ok () → vertN.toNat ≤ 5000 ∧ start - 1 < vertN ∧ finish - 1 < vertN

theorem validate_eq_ok {vertN start finish edgesN : UInt64}
    (h : validate vertN start finish edgesN = .ok ()) :
    (0 ≤ toInt vertN ∧ toInt vertN ≤ 5000) ∧ (1 ≤ toInt start ∧ toInt start ≤ toInt vertN) ∧
      1 ≤ toInt finish ∧ toInt finish ≤ toInt vertN := by
  rw [validate] at h
  split at h
  · cases h
  case isFalse hvertices =>
    split at h
    · cases h
    case isFalse hvertex =>
      simp only [Bool.not_eq_true', Bool.or_eq_true, not_or, Bool.not_eq_false, validateVerticesNumber,
        validateVertexIndex, decide_eq_true_eq] at hvertices hvertex
      exact ⟨hvertices, hvertex⟩

theorem toInt_eq (x : UInt64) :
    toInt x = if (x.toNat : Int) % 4294967296 < 2147483648 then (x.toNat : Int) % 4294967296
      else (x.toNat : Int) % 4294967296 - 4294967296 := by
  unfold toInt
  simp only [Int.bmod_def, Nat.reducePow, Nat.cast_ofNat, Int.reduceAdd, Int.reduceDiv]

/-- A number is cut down to itself, or is too large for 32 bits. -/
theorem toNat_eq_toInt {x : UInt64} (hx : x.toNat < 2 ^ 32) (hpos : 0 ≤ toInt x) :
    (x.toNat : Int) = toInt x := by
  rw [toInt_eq] at *
  omega

/-- The checks are enough just for numbers of 32 bits. -/
theorem validate_indices_iff (vertN start finish edgesN : UInt64) :
    IndicesValid vertN start finish edgesN ↔
      (validate vertN start finish edgesN = .ok () →
        vertN.toNat < 2 ^ 32 ∧ start.toNat < 2 ^ 32 ∧ finish.toNat < 2 ^ 32) := by
  have hpred : ∀ {x : UInt64}, 0 < x.toNat → (x - 1).toNat = x.toNat - 1 := by
    intro x hx
    exact UInt64.toNat_sub_of_le _ _ (UInt64.le_iff_toNat_le.mpr hx)
  have hnonzero : ∀ {x : UInt64}, 1 ≤ toInt x → 0 < x.toNat := by
    intro x hx
    rw [toInt_eq] at hx
    omega
  rw [IndicesValid]
  refine forall_congr' fun hok => ?_
  obtain ⟨⟨hnonneg, hmax⟩, ⟨hstart, hstart'⟩, hfinish, hfinish'⟩ := validate_eq_ok hok
  rw [UInt64.lt_iff_toNat_lt, UInt64.lt_iff_toNat_lt, hpred (hnonzero hstart), hpred (hnonzero hfinish)]
  have hspos := hnonzero hstart
  have hfpos := hnonzero hfinish
  constructor
  · rintro ⟨hvert, hs, hf⟩
    omega
  · rintro ⟨hvert, hs, hf⟩
    have hvert := toNat_eq_toInt hvert hnonneg
    have hs := toNat_eq_toInt hs (hstart.trans' (by decide))
    have hf := toNat_eq_toInt hf (hfinish.trans' (by decide))
    omega

/-- The start `2 ^ 32 + 1` is checked as if it were 1. -/
theorem largeStart_not_valid : ¬ IndicesValid 3 4294967297 1 0 := by
  intro h
  have hvalid := h (by decide +kernel)
  exact absurd hvalid.2.1 (by decide +kernel)

end NsuLabs.ShortestPath
