/-
Module: NsuLabs.TopologicalSort.TopSort
Purpose: `C-Labs/Topological_sort/src/Graph.c` and `TopSort` and `TopSortImpl` in `main.c`, and which graphs
  are sorted. The edges are a bit matrix with 32 bits in an `int`. The recursion takes fuel for its depth,
  and the loop over the edges for its passes. `none` is a failed `assert`, an access outside an array, or the
  end of the fuel.
Trusted boundary: Every allocation succeeds, so the length of a row does not overflow.
  `0x1 << 31` is the entry with the highest bit set
Main exports: Graph, topSort_iff_acyclic
-/
import NsuLabs.Lib.Arrays
import NsuLabs.Lib.Graphs

namespace NsuLabs.TopologicalSort

open Lib

/-! ### The graph -/

/-- Edges as rows of bits. -/
structure Graph where
  vertCount : Nat
  edges : List (List (BitVec 32))
deriving DecidableEq

def bitsPerEntry : Nat := 32

def createGraph (vertexCount : Nat) : Option Graph :=
  if vertexCount > 0 then
    let stringLen := (vertexCount + bitsPerEntry - 1) / bitsPerEntry
    some ⟨vertexCount, List.replicate vertexCount (List.replicate stringLen 0)⟩
  else none

def addEdge (graph : Graph) (u v : Nat) : Option Graph :=
  if u < graph.vertCount ∧ v < graph.vertCount then
    graph.edges[u]?.bind fun row => row[v / bitsPerEntry]?.bind fun entry =>
      (store row (v / bitsPerEntry) (entry ||| (1 : BitVec 32) <<< (v % bitsPerEntry))).bind fun row =>
        (store graph.edges u row).map fun edges => { graph with edges }
  else none

def hasEdge (graph : Graph) (u v : Nat) : Option Bool :=
  if u < graph.vertCount ∧ v < graph.vertCount then
    graph.edges[u]?.bind fun row => row[v / bitsPerEntry]?.map fun entry =>
      entry &&& (1 : BitVec 32) <<< (v % bitsPerEntry) ≠ 0
  else none

/-- The reading of the graph in `main`, without the input. -/
def addEdges (graph : Graph) : List (Nat × Nat) → Option Graph
  | [] => some graph
  | (u, v) :: edges => (addEdge graph u v).bind fun graph => addEdges graph edges

/-- The edges of a node, one after another. -/
structure EdgeIterator where
  graph : Graph
  nodeIdx : Nat
  curChildIdx : Int
deriving DecidableEq

def constructEdgeIterator (graph : Graph) (nodeIdx : Nat) : EdgeIterator := ⟨graph, nodeIdx, -1⟩

/-- The loop of `NextEdge`, with `count` vertices to go. -/
def nextEdgeFrom (graph : Graph) (nodeIdx : Nat) : (count i : Nat) → Option (Option Nat)
  | 0, _ => some none
  | count + 1, i =>
    (hasEdge graph nodeIdx i).bind fun has => if has then some (some i)
      else nextEdgeFrom graph nodeIdx count (i + 1)

def nextEdge (it : EdgeIterator) : Option (Int × EdgeIterator) :=
  let i := (it.curChildIdx + 1).toNat
  (nextEdgeFrom it.graph it.nodeIdx (it.graph.vertCount - i) i).map fun
    | some i => (i, { it with curChildIdx := i })
    | none => (-1, { it with curChildIdx := -1 })

/-! ### The search -/

inductive Color where
  | white
  | gray
  | black
deriving DecidableEq

/-- The colours and the order so far. -/
structure TopSortData where
  sortedResult : List Int
  color : List Color
  count : Int
deriving DecidableEq

/-- `data->sortedResult[data->count--] = u; data->color[u] = BLACK;` -/
def finish (u : Nat) (data : TopSortData) : Option TopSortData :=
  if data.count < 0 then none
  else
    (store data.sortedResult data.count.toNat (u : Int)).bind fun sortedResult =>
      (store data.color u .black).map fun color => ⟨sortedResult, color, data.count - 1⟩

/-- The loop of `TopSortImpl` over the edges, where `impl` is its call for a vertex. -/
def edgeLoop (impl : Nat → TopSortData → Option (Bool × TopSortData)) :
    (fuel : Nat) → EdgeIterator → TopSortData → Option (Bool × TopSortData)
  | 0, _, _ => none
  | fuel + 1, it, data =>
    (nextEdge it).bind fun (v, it) =>
      if v ≥ 0 then
        (impl v.toNat data).bind fun (success, data) =>
          if success then edgeLoop impl fuel it data else some (false, data)
      else some (true, data)

def topSortImpl (graph : Graph) : (fuel u : Nat) → TopSortData → Option (Bool × TopSortData)
  | 0, _, _ => none
  | fuel + 1, u, data =>
    data.color[u]?.bind fun
      | .gray => some (false, data)
      | .black => some (true, data)
      | .white =>
        (store data.color u .gray).bind fun color =>
          (edgeLoop (topSortImpl graph fuel) (graph.vertCount + 1) (constructEdgeIterator graph u)
            { data with color }).bind fun (success, data) =>
              if success then (finish u data).map fun data => (true, data) else some (false, data)

/-- The loop of `TopSort` over the vertices from `u` on. -/
def topSortFrom (graph : Graph) : (count u : Nat) → TopSortData → Option (Bool × TopSortData)
  | 0, _, data => some (true, data)
  | count + 1, u, data =>
    data.color[u]?.bind fun color =>
      if color = .white then
        (topSortImpl graph (graph.vertCount + 1) u data).bind fun (success, data) =>
          if success then topSortFrom graph count (u + 1) data else some (false, data)
      else topSortFrom graph count (u + 1) data

/-- The result of `TopSort` and what is in `result` afterwards. -/
def topSort (graph : Graph) (result : List Int) : Option (Bool × List Int) :=
  let data : TopSortData := ⟨result, List.replicate graph.vertCount .white, (graph.vertCount : Int) - 1⟩
  (topSortFrom graph graph.vertCount 0 data).map fun (success, data) => (success, data.sortedResult)

section

open List
open Option hiding or_assoc

/-! ### Bits of an entry -/

theorem bit_eq_twoPow (k : Nat) : (1 : BitVec 32) <<< k = BitVec.twoPow 32 k := (BitVec.twoPow_eq 32 k).symm

theorem and_bit_ne_zero_iff (entry : BitVec 32) {k : Nat} (hk : k < 32) :
    entry &&& (1 : BitVec 32) <<< k ≠ 0 ↔ entry.getLsbD k = true := by
  have hne : BitVec.twoPow 32 k ≠ 0 := fun h => by simpa [hk] using congrArg (BitVec.getLsbD · k) h
  rw [bit_eq_twoPow, BitVec.and_twoPow]
  split <;> simp_all

theorem getLsbD_or_bit_iff (entry : BitVec 32) {j k : Nat} (hj : j < 32) :
    (entry ||| (1 : BitVec 32) <<< k).getLsbD j = true ↔ entry.getLsbD j = true ∨ j = k := by
  rw [bit_eq_twoPow]
  simp [hj]

/-! ### The matrix -/

/-- The entry of the matrix with the bit of an edge. -/
def entryOf (graph : Graph) (u v : Nat) : Option (BitVec 32) :=
  graph.edges[u]?.bind fun row => row[v / bitsPerEntry]?

/-- The graph has `n` vertices, and the bits of its matrix are the edges. -/
structure HoldsEdges (graph : Graph) (n : Nat) (edge : Nat → Nat → Prop) : Prop where
  vertCount : graph.vertCount = n
  bits : ∀ u < n, ∀ v < n, ∃ entry, entryOf graph u v = some entry ∧
    (entry.getLsbD (v % bitsPerEntry) = true ↔ edge u v)
  inside : ∀ u v, edge u v → u < n ∧ v < n

variable {graph : Graph} {n u v : Nat} {edge : Nat → Nat → Prop}

theorem mod_bitsPerEntry_lt (v : Nat) : v % bitsPerEntry < 32 := Nat.mod_lt v (by decide)

theorem HoldsEdges.hasEdge_eq (hholds : HoldsEdges graph n edge) (hu : u < n) (hv : v < n) :
    ∃ has, hasEdge graph u v = some has ∧ (has = true ↔ edge u v) := by
  obtain ⟨entry, hentry, hbit⟩ := hholds.bits u hu v hv
  obtain ⟨row, hrow, hentry⟩ := bind_eq_some_iff.mp hentry
  refine ⟨decide (entry &&& (1 : BitVec 32) <<< (v % bitsPerEntry) ≠ 0), ?_, ?_⟩
  · rw [hasEdge, hholds.vertCount, if_pos ⟨hu, hv⟩, hrow, bind_some, hentry, map_some]
  · rw [decide_eq_true_iff, and_bit_ne_zero_iff entry (mod_bitsPerEntry_lt v), hbit]

theorem createGraph_holds (hn : 0 < n) :
    ∃ graph, createGraph n = some graph ∧ HoldsEdges graph n fun _ _ => False := by
  refine ⟨_, if_pos hn, rfl, fun u hu v hv => ⟨0, ?_, ?_⟩, fun u v hedge => hedge.elim⟩
  · have hentry : v / bitsPerEntry < (n + bitsPerEntry - 1) / bitsPerEntry := by
      rw [bitsPerEntry]
      omega
    rw [entryOf, getElem?_replicate_of_lt hu, bind_some, getElem?_replicate_of_lt hentry]
  · simp

/-- `AddEdge` sets the bit of the edge and no other. -/
theorem addEdge_holds (hholds : HoldsEdges graph n edge) (hu : u < n) (hv : v < n) :
    ∃ graph', addEdge graph u v = some graph' ∧
      HoldsEdges graph' n fun a b => edge a b ∨ (a, b) = (u, v) := by
  obtain ⟨entry, hentry, -⟩ := hholds.bits u hu v hv
  obtain ⟨row, hrow, hcell⟩ := bind_eq_some_iff.mp hentry
  obtain ⟨edges, hstore, hset⟩ := store_store hrow hcell (entry ||| (1 : BitVec 32) <<< (v % bitsPerEntry))
  refine ⟨⟨n, edges⟩, ?_, rfl, fun a ha b hb => ?_, fun a b hedge => ?_⟩
  · have hmap := congrArg (Option.map (Graph.mk n)) hstore
    rw [Option.map_bind] at hmap
    rw [addEdge, hholds.vertCount, if_pos ⟨hu, hv⟩, hrow, bind_some, hcell, bind_some]
    exact hmap
  · obtain ⟨old, hold, hbit⟩ := hholds.bits a ha b hb
    rw [entryOf, hset]
    by_cases hsame : a = u ∧ b / bitsPerEntry = v / bitsPerEntry
    · obtain ⟨rfl, hdiv⟩ := hsame
      obtain rfl : old = entry := by
        rw [entryOf, hrow, bind_some, hdiv, hcell] at hold
        exact (some.inj hold).symm
      refine ⟨_, if_pos ⟨rfl, hdiv⟩, ?_⟩
      rw [getLsbD_or_bit_iff old (mod_bitsPerEntry_lt b), hbit]
      refine or_congr_right ⟨fun hmod => ?_, fun heq => by rw [(Prod.mk.inj heq).2]⟩
      rw [← Nat.div_add_mod b bitsPerEntry, ← Nat.div_add_mod v bitsPerEntry, hdiv, hmod]
    · refine ⟨old, (if_neg hsame).trans hold, hbit.trans (or_iff_left fun heq => hsame ?_).symm⟩
      obtain ⟨rfl, rfl⟩ := Prod.mk.inj heq
      exact ⟨rfl, rfl⟩
  · rcases hedge with hedge | heq
    · exact hholds.inside a b hedge
    · obtain ⟨rfl, rfl⟩ := Prod.mk.inj heq
      exact ⟨hu, hv⟩

theorem addEdges_holds (edges : List (Nat × Nat)) :
    ∀ {graph : Graph} {edge : Nat → Nat → Prop}, HoldsEdges graph n edge → (∀ e ∈ edges, e.1 < n ∧ e.2 < n) →
      ∃ graph', addEdges graph edges = some graph' ∧ HoldsEdges graph' n fun a b => edge a b ∨
        (a, b) ∈ edges := by
  induction edges with
  | nil =>
    intro graph edge hholds _
    refine ⟨graph, rfl, ?_⟩
    simpa using hholds
  | cons e edges ih =>
    intro graph edge hholds hinside
    obtain ⟨u, v⟩ := e
    obtain ⟨hu, hv⟩ := hinside (u, v) mem_cons_self
    obtain ⟨graph₁, hadd, hholds₁⟩ := addEdge_holds hholds hu hv
    obtain ⟨graph₂, hrest, hholds₂⟩ := ih hholds₁ fun e he => hinside e (mem_cons_of_mem _ he)
    refine ⟨graph₂, by rw [addEdges, hadd, bind_some, hrest], ?_⟩
    simpa only [mem_cons, or_assoc] using hholds₂

/-! ### The successors of a vertex -/

theorem nextEdgeFrom_spec (hholds : HoldsEdges graph n edge) (hu : u < n) (count : Nat) :
    ∀ i, i + count = n → ∃ r, nextEdgeFrom graph u count i = some r ∧ (∀ v ∈ r, i ≤ v ∧ edge u v) ∧
      ∀ w, i ≤ w → (∀ v ∈ r, w < v) → ¬ edge u w := by
  induction count with
  | zero =>
    intro i hi
    refine ⟨none, rfl, by simp, fun w hw _ hedge => ?_⟩
    have := (hholds.inside u w hedge).2
    omega
  | succ count ih =>
    intro i hi
    obtain ⟨has, heq, hiff⟩ := hholds.hasEdge_eq hu (by omega : i < n)
    rw [nextEdgeFrom, heq, bind_some]
    by_cases hedge : edge u i
    · rw [if_pos (hiff.mpr hedge)]
      exact ⟨some i, rfl, by simpa using hedge, fun w hle hlt => absurd (hlt i rfl) (Nat.not_lt.mpr hle)⟩
    · rw [if_neg (mt hiff.mp hedge)]
      obtain ⟨r, hrun, hfound, hnone⟩ := ih (i + 1) (by omega)
      refine ⟨r, hrun, fun v hv => (hfound v hv).imp_left Nat.le_of_succ_le, fun w hle hbefore hw => ?_⟩
      rcases hle.eq_or_lt with rfl | hlt
      · exact hedge hw
      · exact hnone w hlt hbefore hw

/-- From the iterator that has passed the vertices below `i`, `NextEdge` finds the next successor,
    or there is none. -/
theorem nextEdge_spec (hholds : HoldsEdges graph n edge) (hu : u < n) {i : Nat} (hi : i ≤ n) :
    (∃ v : Nat, nextEdge ⟨graph, u, (i : Int) - 1⟩ =
      some ((v : Int), ⟨graph, u, ((v + 1 : Nat) : Int) - 1⟩) ∧
      i ≤ v ∧ edge u v ∧ ∀ w, i ≤ w → w < v → ¬ edge u w) ∨
      ((∃ it, nextEdge ⟨graph, u, (i : Int) - 1⟩ = some (-1, it)) ∧ ∀ w, i ≤ w → ¬ edge u w) := by
  have hstart : ((i : Int) - 1 + 1).toNat = i := by omega
  have hcount : i + (graph.vertCount - i) = n := by
    rw [hholds.vertCount]
    omega
  rw [nextEdge]
  dsimp only
  rw [hstart]
  obtain ⟨_ | v, hrun, hfound, hnone⟩ := nextEdgeFrom_spec hholds hu _ i hcount
  · exact .inr ⟨⟨_, by rw [hrun, map_some]⟩, fun w hw => hnone w hw (by simp)⟩
  · refine .inl ⟨v, ?_, (hfound v rfl).1, (hfound v rfl).2, fun w hle hlt =>
      hnone w hle (by simpa using hlt)⟩
    rw [hrun, map_some, Nat.cast_succ, add_sub_cancel_right]

end

open Relation List Option

/-! ### The arrays -/

/-- The colours and the result where the search is inside of and has left these vertices. -/
structure Stands (n : Nat) (data : TopSortData) (inside left : List Nat) : Prop where
  color : ∀ x < n, data.color[x]? = some (if x ∈ left then .black else if x ∈ inside then .gray else .white)
  colorLength : data.color.length = n
  result : ∃ front, data.sortedResult = front ++ left.map Nat.cast ∧ (front.length : Int) = data.count + 1
  resultLength : data.sortedResult.length = n
  below : ∀ x ∈ inside ++ left, x < n

variable {n u v : Nat} {data data' : TopSortData} {inside left left' : List Nat} {edge : Nat → Nat → Prop}

theorem Stands.length_le (hstands : Stands n data inside left) (hsearch : Searching edge inside left) :
    inside.length + left.length ≤ n := by
  have hsub : inside ++ left ⊆ List.range n := fun x hx => mem_range.mpr (hstands.below x hx)
  have hle := (subperm_of_subset hsearch.nodup hsub).length_le
  rwa [length_append, length_range] at hle

/-- The vertex becomes grey. -/
theorem Stands.enter (hstands : Stands n data inside left) (hu : u < n) (hleft : u ∉ left) :
    ∃ color, store data.color u .gray = some color ∧ Stands n { data with color } (u :: inside) left := by
  refine ⟨_, if_pos (hstands.colorLength ▸ hu), fun x hx => ?_, ?_, hstands.result,
    hstands.resultLength, fun x hx => ?_⟩
  · rw [getElem?_set]
    by_cases hxu : u = x
    · subst hxu
      rw [if_pos rfl, if_pos (hstands.colorLength ▸ hu), if_neg hleft, if_pos mem_cons_self]
    · rw [if_neg hxu, hstands.color x hx]
      have hmem : x ∈ inside ↔ x ∈ u :: inside := by
        rw [mem_cons, or_iff_right (Ne.symm hxu)]
      simp only [hmem]
  · exact length_set.trans hstands.colorLength
  · rcases mem_cons.mp hx with rfl | hx
    · exact hu
    · exact hstands.below x hx

/-- The vertex becomes black and goes in front of the vertices that were left before. -/
theorem finish_spec (hstands : Stands n data (u :: inside) left)
    (hsearch : Searching edge (u :: inside) left) :
    ∃ data', finish u data = some data' ∧ Stands n data' inside (u :: left) := by
  have hu : u < n := hstands.below u mem_cons_self
  have hlength := hstands.length_le hsearch
  obtain ⟨hnot, -⟩ := nodup_cons.mp hsearch.nodup
  obtain ⟨front, hresult, hcount⟩ := hstands.result
  have htotal := hstands.resultLength
  rw [hresult, length_append, length_map] at htotal
  rw [length_cons] at hlength
  -- there is a place in front of the vertices that were left
  obtain ⟨front', z, rfl⟩ : ∃ front' z, front = front' ++ [z] := by
    rcases eq_nil_or_concat front with rfl | hconcat
    · rw [length_nil] at htotal
      omega
    · obtain ⟨front', z, hfront⟩ := hconcat
      exact ⟨front', z, hfront.trans concat_eq_append⟩
  rw [length_append, length_singleton] at hcount htotal
  have hstore : store data.sortedResult data.count.toNat (u : Int) =
      some (front' ++ (u : Int) :: left.map Nat.cast) := by
    have hidx : data.count.toNat = front'.length := by omega
    rw [hresult, hidx, append_assoc, singleton_append, store_append]
  refine ⟨⟨front' ++ (u : Int) :: left.map Nat.cast, data.color.set u .black, data.count - 1⟩, ?_,
    fun x hx => ?_, ?_, ⟨front', rfl, by dsimp only; omega⟩, ?_, fun x hx => ?_⟩
  · rw [finish, if_neg (by omega), hstore, bind_some, store, if_pos (hstands.colorLength ▸ hu), map_some]
  · rw [getElem?_set]
    by_cases hxu : u = x
    · subst hxu
      rw [if_pos rfl, if_pos (hstands.colorLength ▸ hu), if_pos mem_cons_self]
    · rw [if_neg hxu, hstands.color x hx]
      have hmem : ∀ xs : List Nat, x ∈ u :: xs ↔ x ∈ xs := by
        intro xs
        rw [mem_cons, or_iff_right (Ne.symm hxu)]
      simp only [hmem]
  · exact length_set.trans hstands.colorLength
  · simp only [length_append, length_cons, length_map]
    omega
  · exact hstands.below x (perm_middle.mem_iff.mp hx)

/-! ### The search -/

/-- How a call for the vertex ends: with a cycle, or with the vertex left. -/
def Ends (n : Nat) (edge : Nat → Nat → Prop) (u : Nat) (inside left : List Nat)
    (r : Option (Bool × TopSortData)) : Prop :=
  (∃ data', r = some (false, data') ∧ ∃ x, TransGen edge x x) ∨
    ∃ data' left', r = some (true, data') ∧ Stands n data' inside left' ∧ Searching edge inside left' ∧
      left <:+ left' ∧ u ∈ left'

/-- The calls that go no deeper than the number of vertices that are still white. -/
def Visits (n : Nat) (edge : Nat → Nat → Prop) (impl : Nat → TopSortData → Option (Bool × TopSortData))
    (depth : Nat) : Prop :=
  ∀ u < n, ∀ data inside left, Stands n data inside left → Searching edge inside left →
    (∀ x ∈ inside, TransGen edge x u) → n < depth + (inside.length + left.length) →
    Ends n edge u inside left (impl u data)

variable {graph : Graph}

/-- The loop has visited the successors below `i`. -/
theorem edgeLoop_spec (hholds : HoldsEdges graph n edge)
    {impl : Nat → TopSortData → Option (Bool × TopSortData)} {depth : Nat}
    (hvisits : Visits n edge impl depth) (hreach : ∀ x ∈ inside, TransGen edge x u) (fuel : Nat) :
    ∀ (i : Nat) (data : TopSortData) (left : List Nat), i ≤ n → n < fuel + i →
      Stands n data (u :: inside) left →
      Searching edge (u :: inside) left → (∀ w < i, edge u w → w ∈ left) →
      n < depth + ((u :: inside).length + left.length) →
      (∃ data', edgeLoop impl fuel ⟨graph, u, (i : Int) - 1⟩ data = some (false, data') ∧
        ∃ x, TransGen edge x x) ∨
        ∃ data' left', edgeLoop impl fuel ⟨graph, u, (i : Int) - 1⟩ data = some (true, data') ∧
          Stands n data' (u :: inside) left' ∧ Searching edge (u :: inside) left' ∧ left <:+ left' ∧
          ∀ w, edge u w → w ∈ left' := by
  induction fuel with
  | zero => exact fun i _ _ hi hfuel => absurd hfuel (by omega)
  | succ fuel ih =>
    intro i data left hi hfuel hstands hsearch hbefore hdepth
    have hu : u < n := hstands.below u mem_cons_self
    rcases nextEdge_spec hholds hu hi with ⟨v, hnext, hiv, hedge, hbetween⟩ | ⟨⟨it, hnext⟩, hnone⟩
    · have hv : v < n := (hholds.inside u v hedge).2
      have hreach' : ∀ x ∈ u :: inside, TransGen edge x v := by
        intro x hx
        rcases mem_cons.mp hx with rfl | hx
        · exact TransGen.single hedge
        · exact (hreach x hx).tail hedge
      rw [edgeLoop, hnext, bind_some]
      dsimp only
      rw [if_pos (Int.natCast_nonneg v), Int.toNat_natCast]
      rcases hvisits v hv data (u :: inside) left hstands hsearch hreach' hdepth with
        ⟨data₁, hrun, hcycle⟩ | ⟨data₁, left₁, hrun, hstands₁, hsearch₁, hsuffix₁, hmem⟩
      · exact .inl ⟨data₁, by rw [hrun]; rfl, hcycle⟩
      · rw [hrun, bind_some]
        dsimp only
        rw [if_pos rfl]
        -- no successor between `i` and `v` was passed over
        have hbefore₁ : ∀ w < v + 1, edge u w → w ∈ left₁ := by
          intro w hw huw
          rcases Nat.lt_or_ge w i with hlt | hge
          · exact hsuffix₁.subset (hbefore w hlt huw)
          · rcases Nat.lt_succ_iff_lt_or_eq.mp hw with hwv | rfl
            · exact absurd huw (hbetween w hge hwv)
            · exact hmem
        have hlength := hsuffix₁.length_le
        rcases ih (v + 1) data₁ left₁ hv (by omega) hstands₁ hsearch₁ hbefore₁ (by omega) with
          hcycle | ⟨data₂, left₂, hrun₂, hstands₂, hsearch₂, hsuffix₂, hall⟩
        · exact .inl hcycle
        · exact .inr ⟨data₂, left₂, hrun₂, hstands₂, hsearch₂, hsuffix₁.trans hsuffix₂, hall⟩
    · refine .inr ⟨data, left, ?_, hstands, hsearch, suffix_rfl, fun w hw => ?_⟩
      · rw [edgeLoop, hnext, bind_some]
        rfl
      · rcases Nat.lt_or_ge w i with hlt | hge
        · exact hbefore w hlt hw
        · exact absurd hw (hnone w hge)

theorem topSortImpl_spec (hholds : HoldsEdges graph n edge) (fuel : Nat) :
    Visits n edge (topSortImpl graph fuel) fuel := by
  induction fuel with
  | zero =>
    intro u hu data inside left hstands hsearch hreach hfuel
    have := hstands.length_le hsearch
    omega
  | succ fuel ih =>
    intro u hu data inside left hstands hsearch hreach hfuel
    have hcolor := hstands.color u hu
    rw [topSortImpl]
    by_cases hleft : u ∈ left
    · rw [if_pos hleft] at hcolor
      rw [hcolor, bind_some]
      exact .inr ⟨data, left, rfl, hstands, hsearch, suffix_rfl, hleft⟩
    · rw [if_neg hleft] at hcolor
      by_cases hinside : u ∈ inside
      · rw [if_pos hinside] at hcolor
        rw [hcolor, bind_some]
        exact .inl ⟨data, rfl, u, hreach u hinside⟩
      · rw [if_neg hinside] at hcolor
        rw [hcolor, bind_some]
        dsimp only
        obtain ⟨color, hstore, hstands₁⟩ := hstands.enter hu hleft
        have hsearch₁ := hsearch.enter hinside hleft
        rw [hstore, bind_some, hholds.vertCount]
        rcases edgeLoop_spec hholds ih hreach (n + 1) 0 { data with color } left (Nat.zero_le n)
          (by omega) hstands₁
            hsearch₁ (fun w hw => absurd hw (Nat.not_lt_zero w)) (by rw [length_cons]; omega) with
          ⟨data₂, hrun, hcycle⟩ | ⟨data₂, left₂, hrun, hstands₂, hsearch₂, hsuffix, hall⟩
        · refine .inl ⟨data₂, ?_, hcycle⟩
          rw [constructEdgeIterator, ← zero_sub, ← Nat.cast_zero, hrun]
          rfl
        · obtain ⟨data₃, hfinish, hstands₃⟩ := finish_spec hstands₂ hsearch₂
          refine .inr ⟨data₃, u :: left₂, ?_, hstands₃, hsearch₂.leave hall,
            hsuffix.trans (suffix_cons u left₂), mem_cons_self⟩
          rw [constructEdgeIterator, ← zero_sub, ← Nat.cast_zero, hrun, bind_some]
          dsimp only
          rw [if_pos rfl, hfinish, map_some]

/-- The loop of `TopSort`, with the vertices below `u` done. -/
theorem topSortFrom_spec (hholds : HoldsEdges graph n edge) (count : Nat) :
    ∀ (u : Nat) (data : TopSortData) (left : List Nat), u + count = n → Stands n data [] left →
      Searching edge [] left → (∀ x < u, x ∈ left) →
      (∃ data', topSortFrom graph count u data = some (false, data') ∧ ∃ x, TransGen edge x x) ∨
        ∃ data' left', topSortFrom graph count u data = some (true, data') ∧ Stands n data' [] left' ∧
          Searching edge [] left' ∧ ∀ x < n, x ∈ left' := by
  induction count with
  | zero =>
    intro u data left hu hstands hsearch hbefore
    exact .inr ⟨data, left, rfl, hstands, hsearch, fun x hx => hbefore x (by omega)⟩
  | succ count ih =>
    intro u data left hu hstands hsearch hbefore
    have hbelow : ∀ {left'}, left <:+ left' → u ∈ left' → ∀ x < u + 1, x ∈ left' := by
      intro left' hsuffix hmem x hx
      rcases Nat.lt_succ_iff_lt_or_eq.mp hx with hlt | rfl
      · exact hsuffix.subset (hbefore x hlt)
      · exact hmem
    rw [topSortFrom, hstands.color u (by omega), bind_some, if_neg not_mem_nil]
    by_cases hleft : u ∈ left
    · rw [if_pos hleft, if_neg (by decide)]
      exact ih (u + 1) data left (by omega) hstands hsearch (hbelow suffix_rfl hleft)
    · rw [if_neg hleft, if_pos rfl, hholds.vertCount]
      rcases topSortImpl_spec hholds (n + 1) u (by omega) data [] left hstands hsearch
          (fun x hx => absurd hx not_mem_nil) (by omega) with
        ⟨data₁, hrun, hcycle⟩ | ⟨data₁, left₁, hrun, hstands₁, hsearch₁, hsuffix, hmem⟩
      · exact .inl ⟨data₁, by rw [hrun]; rfl, hcycle⟩
      · rw [hrun, bind_some]
        dsimp only
        rw [if_pos rfl]
        exact ih (u + 1) data₁ left₁ (by omega) hstands₁ hsearch₁ (hbelow hsuffix hmem)

theorem stands_start {result : List Int} (hresult : result.length = n) :
    Stands n ⟨result, List.replicate n .white, (n : Int) - 1⟩ [] [] := by
  refine ⟨fun x hx => ?_, length_replicate, ⟨result, by simp, ?_⟩, hresult,
    fun x hx => absurd hx not_mem_nil⟩
  · rw [getElem?_replicate_of_lt hx, if_neg not_mem_nil, if_neg not_mem_nil]
  · dsimp only
    omega

/-- The array is filled when all vertices are left. -/
theorem Stands.sorted (hstands : Stands n data [] left) (hsearch : Searching edge [] left)
    (hall : ∀ x < n, x ∈ left) : data.sortedResult = left.map Nat.cast ∧ left.Perm (List.range n) := by
  have hperm : left.Perm (List.range n) := by
    refine (perm_ext_iff_of_nodup hsearch.topological.nodup nodup_range).mpr fun x => ?_
    rw [mem_range]
    exact ⟨fun hx => hstands.below x hx, hall x⟩
  obtain ⟨front, hresult, -⟩ := hstands.result
  have hlength := hstands.resultLength
  rw [hresult, length_append, length_map, hperm.length_eq, length_range] at hlength
  have hnil : front = [] := length_eq_zero_iff.mp (by omega)
  exact ⟨by rw [hresult, hnil, nil_append], hperm⟩

/-- `TopSort` returns true exactly if the graph has no cycle. Then the result is a permutation of
    the vertices in which every edge leads to a later vertex. -/
theorem topSort_iff_acyclic (hn : 1 ≤ n) {edges : List (Nat × Nat)} (hedges : ∀ e ∈ edges, e.1 < n ∧ e.2 < n)
    {result : List Int} (hresult : result.length = n) :
    ∃ graph success result', ((createGraph n).bind fun graph => addEdges graph edges) = some graph ∧
      topSort graph result = some (success, result') ∧
      (success = true ↔ ∀ x, ¬ TransGen (fun a b => (a, b) ∈ edges) x x) ∧
      (success = true → ∃ order : List Nat, result' = order.map Nat.cast ∧ order.Perm (List.range n) ∧
        ∀ e ∈ edges, order.idxOf e.1 < order.idxOf e.2) := by
  obtain ⟨empty, hcreate, hempty⟩ := createGraph_holds hn
  obtain ⟨graph, hadd, hholds⟩ := addEdges_holds edges hempty hedges
  simp only [false_or] at hholds
  have hstart := stands_start hresult
  have hsearch : Searching (fun a b => (a, b) ∈ edges) ([] : List Nat) [] := ⟨trivial, nodup_nil⟩
  have hbuilt : ((createGraph n).bind fun graph => addEdges graph edges) = some graph := by
    rw [hcreate, bind_some, hadd]
  rcases topSortFrom_spec hholds n 0 _ [] (Nat.zero_add n) hstart hsearch
      (fun x hx => absurd hx (Nat.not_lt_zero x)) with
    ⟨data', hrun, x, hcycle⟩ | ⟨data', left', hrun, hstands', hsearch', hall⟩
  · refine ⟨graph, false, data'.sortedResult, hbuilt, ?_, ?_, fun hfalse => absurd hfalse (by decide)⟩
    · rw [topSort, hholds.vertCount, hrun, map_some]
    · exact iff_of_false (by decide) fun hacyclic => hacyclic x hcycle
  · obtain ⟨hsorted, hperm⟩ := hstands'.sorted hsearch' hall
    refine ⟨graph, true, data'.sortedResult, hbuilt, ?_, iff_of_true rfl fun x hcycle => ?_, fun _ =>
      ⟨left', hsorted, hperm, fun e he => ?_⟩⟩
    · rw [topSort, hholds.vertCount, hrun, map_some]
    · -- a vertex on a cycle has an edge, and so it is one of the sorted vertices
      obtain ⟨y, hedge, -⟩ := TransGen.head'_iff.mp hcycle
      exact hsearch'.topological.acyclic (hall x (hedges _ hedge).1) hcycle
    · exact (hsearch'.topological.idxOf_lt (hall _ (hedges e he).1) he).2

/-- Edges across the border of an entry: a graph without a cycle. -/
theorem topSort_iff_acyclic_forty :
    ∃ graph success result',
        ((createGraph 40).bind fun graph => addEdges graph [(39, 31), (31, 32), (39, 0)]) = some graph ∧
      topSort graph (List.replicate 40 7) = some (success, result') ∧
      (success = true ↔ ∀ x, ¬ TransGen (fun a b => (a, b) ∈ [(39, 31), (31, 32), (39, 0)]) x x) ∧
      (success = true → ∃ order : List Nat, result' = order.map Nat.cast ∧ order.Perm (List.range 40) ∧
        ∀ e ∈ [(39, 31), (31, 32), (39, 0)], order.idxOf e.1 < order.idxOf e.2) :=
  topSort_iff_acyclic (by decide) (by decide) length_replicate

end NsuLabs.TopologicalSort
