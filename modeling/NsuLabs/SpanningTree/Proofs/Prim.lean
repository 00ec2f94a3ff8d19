/-
Module: NsuLabs.SpanningTree.Proofs.Prim
Purpose: The queue of `priority_queue.c` for every comparator of a total preorder, and when its elements fit
  into its array. What the Prim program chooses: a greedy tree of the stored edges.
Trusted boundary: none
Main exports: pqPop_spec, runCalls_right_iff, findSpanningTree_minimal
-/
import NsuLabs.Lib.Arrays
import NsuLabs.SpanningTree.SpanningTree

namespace NsuLabs.SpanningTree

open Lib Function List
universe u v

variable {α : Type u} {heap : List α} {i j largest root : Nat}

/-! ### Swapping -/

theorem swap_eq (hi : i < heap.length) (hj : j < heap.length) :
    swap heap i j = (heap.set i heap[j]).set j heap[i] := by
  rw [swap, getElem?_eq_getElem hi, getElem?_eq_getElem hj]

@[simp] theorem length_swap (heap : List α) (i j : Nat) : (swap heap i j).length = heap.length := by
  rw [swap]
  split
  next => rw [length_set, length_set]
  next => rfl

theorem getElem?_swap (hi : i < heap.length) (hj : j < heap.length) (m : Nat) :
    (swap heap i j)[m]? = heap[Equiv.swap i j m]? := by
  rw [swap_eq hi hj, getElem?_set, getElem?_set, length_set, Equiv.swap_apply_def]
  grind

theorem swap_perm (heap : List α) (i j : Nat) : (swap heap i j).Perm heap := by
  by_cases hi : i < heap.length
  · by_cases hj : j < heap.length
    · rw [swap_eq hi hj]
      exact set_set_perm hi hj
    · rw [swap, getElem?_eq_none (not_lt.mp hj)]
      cases heap[i]? <;> exact List.Perm.refl _
  · rw [swap, getElem?_eq_none (not_lt.mp hi)]

theorem heapifyBottomUp_perm (cmp : α → α → Int) (fuel : Nat) (heap : List α) (node : Nat) :
    (heapifyBottomUp cmp fuel heap node).Perm heap := by
  induction fuel generalizing heap node with
  | zero => exact List.Perm.refl _
  | succ fuel ih =>
    rw [heapifyBottomUp]
    split_ifs
    · exact List.Perm.refl _
    · exact (ih _ _).trans (swap_perm heap _ _)
    · exact List.Perm.refl _

theorem heapifyUpBottom_perm (cmp : α → α → Int) (fuel : Nat) (heap : List α) (root : Nat) :
    (heapifyUpBottom cmp fuel heap root).Perm heap := by
  induction fuel generalizing heap root with
  | zero => exact List.Perm.refl _
  | succ fuel ih =>
    rw [heapifyUpBottom]
    split_ifs
    · exact (ih _ _).trans (swap_perm heap _ _)
    · exact List.Perm.refl _

theorem pqAdd_perm (cmp : α → α → Int) (heap : List α) (data : α) :
    (pqAdd cmp heap data).Perm (data :: heap) :=
  (heapifyBottomUp_perm cmp _ _ _).trans (perm_append_singleton data heap)

/-! ### The order of the heap -/

section Order

variable {κ : Type v} {cmp : α → α → Int} {key : α → κ}

/-- The key at a place of the heap. -/
def keyAt (key : α → κ) (heap : List α) (i : Nat) : WithBot κ := (heap[i]?).elim ⊥ fun a => key a

theorem keyAt_swap (hi : i < heap.length) (hj : j < heap.length) :
    keyAt key (swap heap i j) = keyAt key heap ∘ Equiv.swap i j := by
  funext m
  rw [keyAt, getElem?_swap hi hj]
  rfl

variable [Preorder κ]

/-- The comparator orders by the key. -/
def Orders (cmp : α → α → Int) (key : α → κ) : Prop :=
  ∀ a b, if cmp a b < 0 then key a ≤ key b else key b ≤ key a

/-- No place has a greater key than its parent. -/
def HeapOrdered (key : α → κ) (heap : List α) : Prop := HeapFrom (keyAt key heap) 0 heap.length

theorem heapOrdered_nil (key : α → κ) : HeapOrdered key [] := fun _ c _ _ hc => absurd hc (Nat.not_lt_zero c)

theorem comesAfter_spec (hcmp : Orders cmp key) (hi : i < heap.length) (hj : j < heap.length) :
    if comesAfter cmp heap i j then keyAt key heap i ≤ keyAt key heap j else keyAt key heap j ≤
      keyAt key heap i := by
  rw [comesAfter, keyAt, keyAt, getElem?_eq_getElem hi, getElem?_eq_getElem hj]
  simpa using hcmp heap[i] heap[j]

theorem heapOrdered_heapifyBottomUp (hcmp : Orders cmp key) (fuel : Nat) :
    ∀ (heap : List α) (node : Nat), node ≤ fuel → node < heap.length →
      HeapBut (keyAt key heap) heap.length node →
      HeapOrdered key (heapifyBottomUp cmp fuel heap node) := by
  induction fuel with
  | zero =>
    intro heap node hfuel _ h
    exact h.finish fun p hp => absurd hp.lt (by omega)
  | succ fuel ih =>
    intro heap node hfuel hnode h
    rw [heapifyBottomUp]
    by_cases hzero : node = 0
    · rw [if_pos hzero]
      exact h.finish fun p hp => absurd hp.lt (by omega)
    · have hchild : IsChild node ((node - 1) / 2) := by
        rw [IsChild]
        omega
      have hafter := comesAfter_spec hcmp (hchild.lt.trans hnode) hnode
      rw [if_neg hzero]
      split_ifs at hafter ⊢
      · apply ih
        · omega
        · rw [length_swap]
          omega
        · rw [keyAt_swap (hchild.lt.trans hnode) hnode, length_swap]
          exact h.rise hchild hnode hafter
      · exact h.finish fun p hp => hp.unique hchild ▸ hafter

theorem heapOrdered_pqAdd (hcmp : Orders cmp key) (h : HeapOrdered key heap) (data : α) :
    HeapOrdered key (pqAdd cmp heap data) := by
  have hkey : ∀ i, i < heap.length → keyAt key (heap ++ [data]) i = keyAt key heap i := by
    intro i hi
    rw [keyAt, keyAt, getElem?_append_left hi]
  apply heapOrdered_heapifyBottomUp hcmp
  · exact le_rfl
  · simp
  · rw [length_append, length_singleton]
    constructor
    · intro i c hne hc hlen
      have := hc.lt
      rw [hkey i (by omega), hkey c (by omega)]
      exact h i c (Nat.zero_le _) hc (by omega)
    · intro p c _ hc hlen
      exact absurd hc.lt (by omega)

/-- The chosen place has the greater key of the two. -/
theorem chooseLargest_spec (hcmp : Orders cmp key) (hlargest : largest < heap.length) (child : Nat) :
    ∃ c, chooseLargest cmp heap largest child = c ∧ (c = largest ∨ c = child) ∧ c < heap.length ∧
      keyAt key heap largest ≤ keyAt key heap c ∧
        (child < heap.length → keyAt key heap child ≤ keyAt key heap c) := by
  rw [chooseLargest]
  by_cases hchild : child < heap.length
  · have hafter := comesAfter_spec hcmp hlargest hchild
    simp only [hchild, true_and]
    split_ifs at hafter ⊢
    · exact ⟨child, rfl, .inr rfl, hchild, hafter, fun _ => le_rfl⟩
    · exact ⟨largest, rfl, .inl rfl, hlargest, le_rfl, fun _ => hafter⟩
  · exact ⟨largest, if_neg fun h => hchild h.1, .inl rfl, hlargest, le_rfl, fun h => absurd h hchild⟩

theorem heapOrdered_heapifyUpBottom (hcmp : Orders cmp key) (fuel : Nat) :
    ∀ (heap : List α) (root : Nat), heap.length ≤ root + fuel →
      HeapExcept (keyAt key heap) 0 heap.length root →
      HeapOrdered key (heapifyUpBottom cmp fuel heap root) := by
  induction fuel with
  | zero =>
    intro heap root hfuel h
    exact h.finish fun c hc hlen => absurd hc.lt (by omega)
  | succ fuel ih =>
    intro heap root hfuel h
    rw [heapifyUpBottom]
    by_cases hroot : root < heap.length
    · obtain ⟨left, heq, hplace, hlen, hle, hleft⟩ := chooseLargest_spec hcmp hroot (root * 2 + 1)
      obtain ⟨largest, heq', hplace', hlen', hle', hright⟩ := chooseLargest_spec hcmp hlen (root * 2 + 2)
      rw [heq, heq']
      have hgreatest : ∀ c, IsChild c root → c < heap.length →
          keyAt key heap c ≤ keyAt key heap largest := by
        intro c hc hclen
        rw [IsChild, Nat.mul_comm] at hc
        rcases hc with rfl | rfl
        · exact (hleft hclen).trans hle'
        · exact hright hclen
      by_cases hne : largest = root
      · rw [if_neg (not_not.mpr hne)]
        exact h.finish (hne ▸ hgreatest)
      · rw [if_pos hne]
        have hchild : IsChild largest root := by
          rw [IsChild]
          omega
        apply ih
        · have := hchild.lt
          rw [length_swap]
          omega
        · rw [keyAt_swap hroot hlen', length_swap]
          exact h.sift (Nat.zero_le _) hchild hlen' hgreatest (hle.trans hle')
    · -- behind the end of the heap there is nothing to choose
      have hnone : ∀ place child, heap.length ≤ child → chooseLargest cmp heap place child = place := by
        intro place child hchild
        rw [chooseLargest, if_neg fun h => absurd h.1 (not_lt.mpr hchild)]
      rw [hnone _ _ (by omega), hnone _ _ (by omega), if_neg (not_not.mpr rfl)]
      exact h.finish fun c hc hlen => absurd hc.lt (by omega)

theorem pqPop_spec (hcmp : Orders cmp key) (h : HeapOrdered key heap) (hne : heap ≠ []) :
    ∃ first rest, pqPop cmp heap = some (first, rest) ∧ heap.Perm (first :: rest) ∧ HeapOrdered key rest ∧
      ∀ x ∈ heap, key x ≤ key first := by
  have hpos : 0 < heap.length := length_pos_iff.mpr hne
  have hperm : heap.Perm (heap[0] :: (heap.dropLast.set 0 (heap.getLast hne))) := by
    obtain ⟨first, heap, rfl⟩ := exists_cons_of_ne_nil hne
    cases heap using List.reverseRecOn with
    | nil => exact List.Perm.refl _
    | append_singleton heap last =>
      have hdrop : (first :: (heap ++ [last])).dropLast = first :: heap := by
        rw [← cons_append, dropLast_concat]
      have hlast : (first :: (heap ++ [last])).getLast hne = last := by simp
      rw [hdrop, hlast, set_cons_zero, getElem_cons_zero]
      apply List.Perm.cons
      exact perm_append_singleton last heap
  have hlength : (heap.dropLast.set 0 (heap.getLast hne)).length = heap.length - 1 := by
    rw [length_set, length_dropLast]
  refine ⟨heap[0], _, ?_, hperm.trans ((heapifyUpBottom_perm cmp heap.length _ 0).symm.cons _), ?_,
    fun x hx => ?_⟩
  · rw [pqPop, getElem?_eq_getElem hpos, getLast?_eq_some_getLast hne]
  · apply heapOrdered_heapifyUpBottom hcmp
    · omega
    · -- all places but the first are as before
      refine HeapFrom.except fun i c hi hc hilen => ?_
      have hkey : ∀ j, 0 < j → j < heap.length - 1 →
          keyAt key (heap.dropLast.set 0 (heap.getLast hne)) j = keyAt key heap j := by
        intro j hj hjlen
        rw [keyAt, keyAt, getElem?_set_ne (by omega), getElem?_dropLast, if_pos hjlen]
      have := hc.lt
      rw [hlength] at hilen
      rw [hkey i hi (by omega), hkey c (by omega) hilen]
      exact h i c (Nat.zero_le _) hc (by omega)
  · obtain ⟨i, hi, rfl⟩ := mem_iff_getElem.mp hx
    have := h.le_root i hi
    rw [keyAt, keyAt, getElem?_eq_getElem hpos, getElem?_eq_getElem hi] at this
    exact WithBot.coe_le_coe.mp this

end Order

/-! ### Any calls -/

/-- The comparator of a total preorder. -/
structure TotalPreorder (cmp : α → α → Int) : Prop where
  neg_iff : ∀ a b, cmp a b < 0 ↔ 0 < cmp b a
  trans : ∀ a b c, cmp a b ≤ 0 → cmp b c ≤ 0 → cmp a c ≤ 0

variable {cmp : α → α → Int}

abbrev TotalPreorder.order (h : TotalPreorder cmp) : Preorder α where
  le a b := cmp a b ≤ 0
  le_refl a := not_lt.mp fun ha => absurd ((h.neg_iff a a).mpr ha) ha.le.not_gt
  le_trans := h.trans

theorem TotalPreorder.orders (h : TotalPreorder cmp) : @Orders _ _ h.order cmp id := by
  intro a b
  split_ifs with hab
  · exact hab.le
  · exact not_lt.mp fun hba => hab ((h.neg_iff a b).mpr hba)

/-- What the calls added. -/
def added (calls : List (QueueCall α)) : List α :=
  calls.filterMap fun
    | .add data => some data
    | .pop => none

theorem call_spec {κ : Type v} [Preorder κ] {key : α → κ} (hcmp : Orders cmp key)
    (calls : List (QueueCall α)) : ∀ pq : PriorityQueue α, HeapOrdered key pq.heap →
      HeapOrdered key (calls.foldl (PriorityQueue.call cmp) pq).heap ∧
        ((calls.foldl (PriorityQueue.call cmp) pq).popped ++
          (calls.foldl (PriorityQueue.call cmp) pq).heap).Perm
          (added calls ++ (pq.popped ++ pq.heap)) := by
  induction calls with
  | nil => exact fun _ h => ⟨h, List.Perm.refl _⟩
  | cons call calls ih =>
    intro pq h
    cases call with
    | add data =>
      obtain ⟨hheap, hperm⟩ := ih (pq.call cmp (.add data)) (heapOrdered_pqAdd hcmp h data)
      refine ⟨hheap, hperm.trans ?_⟩
      exact (((pqAdd_perm cmp pq.heap data).append_left _).trans perm_middle).append_left _ |>.trans
        perm_middle
    | pop =>
      rw [foldl_cons]
      by_cases hne : pq.heap = []
      · have hsame : pq.call cmp .pop = pq := by
          rw [PriorityQueue.call, hne]
          rfl
        rw [hsame]
        exact ih pq h
      · obtain ⟨first, rest, hpop, hperm, hrest, -⟩ := pqPop_spec hcmp h hne
        obtain ⟨hheap, hall⟩ := ih { pq with heap := rest, popped := first :: pq.popped } hrest
        rw [PriorityQueue.call, hpop]
        exact ⟨hheap, hall.trans ((perm_middle.symm.trans (hperm.symm.append_left _)).append_left _)⟩

/-! ### The places of the array -/

theorem length_call (cmp : α → α → Int) (pq : PriorityQueue α) (call : QueueCall α) :
    (∃ data, call = .add data ∧ (pq.call cmp call).heap.length = pq.heap.length + 1) ∨
      ((pq.call cmp call).heap.length ≤ pq.heap.length ∧ (pq.call cmp call).capacity = pq.capacity ∧
        (pq.call cmp call).outside = pq.outside) := by
  cases call with
  | add data => exact .inl ⟨data, rfl, (pqAdd_perm cmp pq.heap data).length_eq⟩
  | pop =>
    rw [PriorityQueue.call, pqPop]
    split
    next hpop =>
      split at hpop
      · cases hpop
        refine .inr ⟨?_, rfl, rfl⟩
        rw [(heapifyUpBottom_perm cmp _ _ 0).length_eq, length_set, length_dropLast]
        exact Nat.sub_le ..
      · cases hpop
    next => exact .inr ⟨le_rfl, rfl, rfl⟩

/-- An array of two places or more grows whenever it is full. -/
theorem runCalls_grows (cmp : α → α → Int) {sizeToReserve : Nat} (hgrows : 2 ≤ sizeToReserve)
    (calls : List (QueueCall α)) :
    let pq := runCalls cmp sizeToReserve calls
    2 ≤ pq.capacity ∧ pq.heap.length ≤ pq.capacity ∧ pq.outside = false := by
  refine foldlRecOn
    (motive := fun pq : PriorityQueue α => 2 ≤ pq.capacity ∧ pq.heap.length ≤ pq.capacity ∧
      pq.outside = false) calls _
    ⟨hgrows, Nat.zero_le _, rfl⟩ fun pq h call _ => ?_
  rcases length_call cmp pq call with ⟨data, rfl, hlen⟩ | ⟨hlen, hcap, houtside⟩
  · rw [hlen, PriorityQueue.call]
    grind
  · rw [hcap, houtside]
    exact ⟨h.1, hlen.trans h.2.1, h.2.2⟩

/-- The elements always fit into the array exactly if it can grow, or never has to. -/
theorem runCalls_fits_iff (cmp : α → α → Int) (sizeToReserve : Nat) (calls : List (QueueCall α)) :
    (∀ done, done <+: calls →
        (runCalls cmp sizeToReserve done).heap.length ≤ (runCalls cmp sizeToReserve done).capacity) ↔
      2 ≤ sizeToReserve ∨ ∀ done, done <+: calls →
        (runCalls cmp sizeToReserve done).heap.length ≤ sizeToReserve := by
  by_cases hgrows : 2 ≤ sizeToReserve
  · exact iff_of_true (fun done _ => (runCalls_grows cmp hgrows done).2.1) (.inl hgrows)
  · have hsame : ∀ done, (runCalls cmp sizeToReserve done).capacity = sizeToReserve := by
      intro done
      refine foldlRecOn (motive := fun pq : PriorityQueue α => pq.capacity = sizeToReserve) done _ rfl
        fun pq h call _ => ?_
      rcases length_call cmp pq call with ⟨data, rfl, -⟩ | ⟨-, hcap, -⟩
      · rw [PriorityQueue.call]
        grind
      · rw [hcap, h]
    simp only [hsame, hgrows, false_or]

/-- A queue for one element takes a second one behind its array. -/
theorem runCalls_not_fits :
    ¬ ∀ done, done <+: [.add 5, .add 7] →
      (runCalls (fun a b : Int => a - b) 1 done).heap.length ≤
        (runCalls (fun a b : Int => a - b) 1 done).capacity :=
  fun h => absurd (h _ prefix_rfl) (by decide)

/-! ### The queue as a whole -/

/-- Every element has its place in the array, the array is a heap of what was added and not popped,
    and the next `pqPop` gives out an element that no stored one exceeds. -/
def QueueRight (cmp : α → α → Int) (calls : List (QueueCall α)) (pq : PriorityQueue α) : Prop :=
  pq.outside = false ∧
    (∀ i c, IsChild c i → ∀ a ∈ pq.heap[i]?, ∀ b ∈ pq.heap[c]?, cmp b a ≤ 0) ∧
    (pq.popped ++ pq.heap).Perm (added calls) ∧
    (pq.heap ≠ [] → ∃ first rest, pqPop cmp pq.heap = some (first, rest) ∧ pq.heap.Perm (first :: rest) ∧
      ∀ x ∈ pq.heap, cmp x first ≤ 0)

/-- The queue is right after any calls exactly if two places or more are reserved for it. -/
theorem runCalls_right_iff [Nonempty α] (hcmp : TotalPreorder cmp) (sizeToReserve : Nat) :
    (∀ calls, QueueRight cmp calls (runCalls cmp sizeToReserve calls)) ↔ 2 ≤ sizeToReserve := by
  constructor
  · intro hright
    by_contra hsmall
    obtain ⟨a⟩ := ‹Nonempty α›
    have houtside : (runCalls cmp sizeToReserve [.add a, .add a]).outside = true := by
      obtain rfl | rfl : sizeToReserve = 0 ∨ sizeToReserve = 1 := by omega
      all_goals simp [runCalls, createPQueue, PriorityQueue.call, (pqAdd_perm cmp [] a).length_eq]
    rw [(hright [.add a, .add a]).1] at houtside
    cases houtside
  · intro hgrows calls
    let := hcmp.order
    let pq := runCalls cmp sizeToReserve calls
    obtain ⟨hheap, hperm⟩ := call_spec hcmp.orders calls (createPQueue sizeToReserve) (heapOrdered_nil id)
    refine ⟨(runCalls_grows cmp hgrows calls).2.2, fun i c hc a ha b hb => ?_,
      hperm.trans (by simp [createPQueue]), fun hne => ?_⟩
    · have hle : keyAt id pq.heap c ≤ keyAt id pq.heap i :=
        hheap i c (Nat.zero_le i) hc (List.getElem?_eq_some_iff.mp hb).1
      rw [keyAt, keyAt, ha, hb] at hle
      exact (WithBot.coe_le_coe (α := α)).mp hle
    · obtain ⟨first, rest, hpop, hrest, -, hfirst⟩ := pqPop_spec hcmp.orders hheap hne
      exact ⟨first, rest, hpop, hrest, hfirst⟩

/-- The comparator and the capacity of `pq_test.c`. -/
theorem runCalls_right_iff_test :
    TotalPreorder (fun a b : Int => a - b) ∧
      ∀ calls, QueueRight (fun a b : Int => a - b) calls (runCalls (fun a b : Int => a - b) 4 calls) := by
  have hcmp : TotalPreorder fun a b : Int => a - b := ⟨by omega, by omega⟩
  exact ⟨hcmp, (runCalls_right_iff hcmp 4).mpr (by decide)⟩

/-- With one place, the second of two elements is stored behind the array. -/
theorem runCalls_one_place_not_right :
    TotalPreorder (fun a b : Int => a - b) ∧
      ¬ QueueRight (fun a b : Int => a - b) [.add 5, .add 7]
        (runCalls (fun a b : Int => a - b) 1 [.add 5, .add 7]) :=
  ⟨⟨by omega, by omega⟩, fun hright => absurd hright.1 (by decide)⟩

end NsuLabs.SpanningTree

namespace NsuLabs.SpanningTree.Prim

open Lib Function List Option

variable {n : Nat}

/-! ### The stored edges -/

/-- The edges that the iterators yield. -/
def stored (graph : Graph n) : List (WEdge (Fin (n + 1))) :=
  (List.finRange (n + 1)).flatMap fun u => (edgesOf graph u).map fun e => ⟨u, e.vertex, e.length⟩

/-- The matrix of an undirected graph with lengths below `UINT32_MAX`. -/
structure WellFormed (graph : Graph n) : Prop where
  symm : ∀ u v, graph.adjMatrix u v = graph.adjMatrix v u
  lt_max : ∀ u v, graph.adjMatrix u v < uint32Max

variable {graph : Graph n}

theorem mem_edgesOf {u : Fin (n + 1)} {q : Edge n} :
    q ∈ edgesOf graph u ↔ graph.adjMatrix u q.vertex ≠ -1 ∧
      q.length = (graph.adjMatrix u q.vertex).toNat := by
  obtain ⟨v, l⟩ := q
  simp only [edgesOf, List.mem_map, mem_filter, mem_finRange, true_and, hasEdge, decide_eq_true_eq,
    Edge.mk.injEq]
  constructor
  · rintro ⟨v, hv, rfl, rfl⟩
    exact ⟨hv, rfl⟩
  · rintro ⟨hv, rfl⟩
    exact ⟨v, hv, rfl, rfl⟩

theorem length_edgesOf_le (graph : Graph n) (u : Fin (n + 1)) : (edgesOf graph u).length ≤ n + 1 := by
  rw [edgesOf, length_map]
  exact (length_filter_le _ _).trans_eq length_finRange

variable {e : WEdge (Fin (n + 1))}

theorem mem_stored_iff_mem_edgesOf : e ∈ stored graph ↔ ⟨e.v, e.length⟩ ∈ edgesOf graph e.u := by
  simp only [stored, mem_flatMap, mem_finRange, true_and, List.mem_map]
  constructor
  · rintro ⟨u, q, hq, rfl⟩
    exact hq
  · exact fun h => ⟨e.u, _, h, rfl⟩

theorem mem_stored :
    e ∈ stored graph ↔ graph.adjMatrix e.u e.v ≠ -1 ∧ e.length = (graph.adjMatrix e.u e.v).toNat := by
  rw [mem_stored_iff_mem_edgesOf, mem_edgesOf]

theorem WellFormed.stored_symm (h : WellFormed graph) :
    ∀ e ∈ stored graph, ⟨e.v, e.u, e.length⟩ ∈ stored graph := by
  intro e he
  rw [mem_stored] at he ⊢
  rwa [h.symm e.v e.u]

theorem WellFormed.length_lt (h : WellFormed graph) (he : e ∈ stored graph) : e.length < uint32Max := by
  have := (mem_stored.mp he).2
  have := h.lt_max e.u e.v
  have : 0 < uint32Max := by decide
  omega

/-! ### The queue and the distances -/

/-- The shorter an edge, the greater it is in the queue. -/
def priority (q : Edge n) : Natᵒᵈ := .toDual q.length

theorem edgeCompare_orders : Orders (edgeCompare (n := n)) priority := by
  intro a b
  simp only [edgeCompare, priority, OrderDual.toDual_le_toDual]
  split_ifs <;> omega

/-- What holds between the tree and the rest while the edges in `looked` have been looked at. -/
structure Frontier (graph : Graph n) (T : List (WEdge (Fin (n + 1))))
    (looked : Set (WEdge (Fin (n + 1)))) (s : State n) : Prop where
  inTree : ∀ v, s.verticesInMST v = true ↔ v ∈ reached 0 T
  near : ∀ e ∈ looked, e.v ∉ reached 0 T → s.minDistance e.v ≤ e.length
  known : ∀ v ∉ reached 0 T, s.minDistance v = uint32Max ∨
    (⟨v, s.minDistance v⟩ ∈ s.queue ∧
      ∃ p ∈ reached 0 T, s.spanningTreeParents v = some p ∧ ⟨p, v, s.minDistance v⟩ ∈ stored graph)
  queued : ∀ q ∈ s.queue, q.vertex ∉ reached 0 T → s.minDistance q.vertex ≤ q.length ∧ q.length < uint32Max
  parents : ∀ e ∈ T, s.spanningTreeParents e.v = some e.u
  heap : HeapOrdered priority s.queue

/-- The edges from the vertices of the tree. -/
def outgoing (graph : Graph n) (T : List (WEdge (Fin (n + 1)))) : Set (WEdge (Fin (n + 1))) :=
  {e | e ∈ stored graph ∧ e.u ∈ reached ⟨0, n.succ_pos⟩ T}

section

variable {graph : Graph n} {T : List (WEdge (Fin (n + 1)))} {looked : Set (WEdge (Fin (n + 1)))}
  {s : State n}
  {vertex : Fin (n + 1)} {q : Edge n}

/-- Looking at one more edge. -/
theorem Frontier.relax (hwf : WellFormed graph) (h : Frontier graph T looked s)
    (hvertex : vertex ∈ reached 0 T) (hq : q ∈ edgesOf graph vertex) :
    Frontier graph T (insert ⟨vertex, q.vertex, q.length⟩ looked) (relax vertex s q) := by
  have hstored : ⟨vertex, q.vertex, q.length⟩ ∈ stored graph := mem_stored_iff_mem_edgesOf.mpr hq
  have hlt : q.length < uint32Max := hwf.length_lt hstored
  rw [Prim.relax]
  split
  case isFalse hcond =>
    refine { h with near := ?_ }
    rintro e (rfl | he) hout
    -- the distance is known to be as short
    · by_contra hfar
      have htree : s.verticesInMST q.vertex = false := Bool.eq_false_iff.mpr fun htrue =>
        hout ((h.inTree _).mp htrue)
      exact hcond ⟨by rw [htree]; rfl, not_le.mp hfar⟩
    · exact h.near e he hout
  case isTrue hcond =>
    have hout : q.vertex ∉ reached 0 T := by
      rw [← h.inTree]
      simpa using hcond.1
    have hperm := pqAdd_perm edgeCompare s.queue ⟨q.vertex, q.length⟩
    have hdist : ∀ v, Function.update s.minDistance q.vertex q.length v ≤ s.minDistance v := by
      intro v
      by_cases hv : v = q.vertex
      · rw [hv, update_self]
        exact hcond.2.le
      · rw [update_of_ne hv]
    constructor
    case inTree => exact h.inTree
    case near =>
      rintro e (rfl | he) hv
      · exact (update_self ..).le
      · exact (hdist e.v).trans (h.near e he hv)
    case known =>
      intro v hv
      by_cases hvq : v = q.vertex
      · subst hvq
        simp only [update_self]
        exact .inr ⟨hperm.mem_iff.mpr mem_cons_self, vertex, hvertex, rfl, hstored⟩
      · simp only [update_of_ne hvq]
        apply (h.known v hv).imp_right
        exact fun hknown => ⟨hperm.mem_iff.mpr (mem_cons_of_mem _ hknown.1), hknown.2⟩
    case queued =>
      intro q' hq' hv
      rcases mem_cons.mp (hperm.mem_iff.mp hq') with rfl | hq'
      · exact ⟨(update_self ..).le, hlt⟩
      · exact ⟨(hdist _).trans (h.queued q' hq' hv).1, (h.queued q' hq' hv).2⟩
    case parents =>
      intro e he
      have hne : e.v ≠ q.vertex := by
        rintro heq
        exact hout (heq ▸ mem_append_left _ (List.mem_map_of_mem he))
      exact (update_of_ne hne ..).trans (h.parents e he)
    case heap => exact heapOrdered_pqAdd edgeCompare_orders h.heap _

theorem length_queue_relax_le : (Prim.relax vertex s q).queue.length ≤ s.queue.length + 1 := by
  rw [Prim.relax]
  split
  · exact (pqAdd_perm edgeCompare s.queue _).length_eq.le
  · exact Nat.le_succ _

theorem spanningVertices_relax : (Prim.relax vertex s q).spanningVertices = s.spanningVertices := by
  rw [Prim.relax]
  split <;> rfl

/-- Looking at all edges of a list. -/
theorem Frontier.foldl_relax (hwf : WellFormed graph) (hvertex : vertex ∈ reached 0 T)
    (edges : List (Edge n)) (hedges : edges ⊆ edgesOf graph vertex) (h : Frontier graph T looked s) :
    Frontier graph T (looked ∪ {e | e.u = vertex ∧ ⟨e.v, e.length⟩ ∈ edges})
      (edges.foldl (Prim.relax vertex) s) ∧
      (edges.foldl (Prim.relax vertex) s).queue.length ≤ s.queue.length + edges.length ∧
      (edges.foldl (Prim.relax vertex) s).spanningVertices = s.spanningVertices := by
  induction edges generalizing s looked with
  | nil =>
    refine ⟨{ h with near := ?_ }, le_rfl, rfl⟩
    rintro e (he | ⟨-, he⟩)
    · exact h.near e he
    · cases he
  | cons q edges ih =>
    obtain ⟨hq, hedges⟩ := cons_subset.mp hedges
    obtain ⟨hfrontier, hlen, hcount⟩ := ih hedges (h.relax hwf hvertex hq)
    have hqueue : (Prim.relax vertex s q).queue.length ≤ s.queue.length + 1 := length_queue_relax_le
    refine ⟨{ hfrontier with near := ?_ }, ?_, hcount.trans spanningVertices_relax⟩
    · rintro e (he | ⟨hu, he⟩)
      · exact hfrontier.near e (.inl (.inr he))
      · rcases mem_cons.mp he with rfl | he
        · exact hfrontier.near e (.inl (.inl (hu ▸ rfl)))
        · exact hfrontier.near e (.inr ⟨hu, he⟩)
    · rw [foldl_cons, length_cons]
      omega

/-! ### The loop -/

/-- An element of a vertex that is in the tree already is dropped. -/
theorem Frontier.skip (h : Frontier graph T looked s) {queue : List (Edge n)}
    (hperm : s.queue.Perm (q :: queue))
    (hheap : HeapOrdered priority queue) (hold : q.vertex ∈ reached 0 T) :
    Frontier graph T looked { s with queue } := by
  refine { h with known := ?_, queued := ?_, heap := hheap }
  · intro v hv
    refine (h.known v hv).imp_right fun hknown => ⟨?_, hknown.2⟩
    rcases mem_cons.mp (hperm.mem_iff.mp hknown.1) with rfl | hmem
    · exact absurd hold hv
    · exact hmem
  · exact fun q' hq' => h.queued q' (hperm.mem_iff.mpr (mem_cons_of_mem q hq'))

/-- The first element of the queue is a shortest edge that leaves the tree. -/
theorem Frontier.next_edge (hwf : WellFormed graph) (hT : Greedy (stored graph) 0 T)
    (h : Frontier graph T (outgoing graph T) s) (hq : q ∈ s.queue)
    (hfirst : ∀ q' ∈ s.queue, q.length ≤ q'.length) (hnew : q.vertex ∉ reached 0 T) :
    ∃ p ∈ reached 0 T, s.spanningTreeParents q.vertex = some p ∧
      Greedy (stored graph) 0 (⟨p, q.vertex, q.length⟩ :: T) := by
  obtain ⟨hle, hlt⟩ := h.queued q hq hnew
  rcases h.known q.vertex hnew with hmax | ⟨hqueue, p, hp, hparent, hstored⟩
  · omega
  · have heq : s.minDistance q.vertex = q.length := le_antisymm hle (hfirst _ hqueue)
    rw [heq] at hstored
    refine ⟨p, hp, hparent, hT.cons hstored ⟨hp, hnew⟩ ?_⟩
    intro e he hleaves
    have hnear := h.near e ⟨he, hleaves.1⟩ hleaves.2
    have hlength := hwf.length_lt he
    rcases h.known e.v hleaves.2 with hmax | ⟨hqueue, -⟩
    · omega
    · exact (hfirst _ hqueue).trans hnear

/-- The vertex is marked, before its edges are looked at. -/
theorem Frontier.mark (h : Frontier graph T looked s) {queue : List (Edge n)}
    (hperm : s.queue.Perm (q :: queue)) (hheap : HeapOrdered priority queue) {p : Fin (n + 1)}
    (hparent : s.spanningTreeParents q.vertex = some p) :
    Frontier graph (⟨p, q.vertex, q.length⟩ :: T) looked
      { s with queue, verticesInMST := Function.update s.verticesInMST q.vertex true } := by
  have hout : ∀ {v}, v ∉ reached 0 (⟨p, q.vertex, q.length⟩ :: T) → v ≠ q.vertex ∧ v ∉ reached 0 T :=
    fun hv => not_or.mp fun hmem => hv (mem_reached_cons.mpr hmem)
  constructor
  case inTree =>
    intro v
    rw [mem_reached_cons, ← h.inTree]
    by_cases hv : v = q.vertex
    · subst hv
      simp
    · simp [hv]
  case near => exact fun e he hv => h.near e he (hout hv).2
  case known =>
    intro v hv
    refine (h.known v (hout hv).2).imp_right ?_
    rintro ⟨hmem, p', hp', hrest⟩
    refine ⟨?_, p', mem_reached_cons.mpr (.inr hp'), hrest⟩
    rcases mem_cons.mp (hperm.mem_iff.mp hmem) with rfl | hmem
    · exact absurd rfl (hout hv).1
    · exact hmem
  case queued =>
    exact fun q' hq' hv => h.queued q' (hperm.mem_iff.mpr (mem_cons_of_mem q hq')) (hout hv).2
  case parents =>
    intro e he
    rcases mem_cons.mp he with rfl | he
    · exact hparent
    · exact h.parents e he
  case heap => exact hheap

/-- All edges of the marked vertex are looked at. -/
theorem Frontier.enter (looked : Set (WEdge (Fin (n + 1)))) (hwf : WellFormed graph)
    (hvertex : vertex ∈ reached 0 T) (hlooked : ∀ e ∈ outgoing graph T, e.u ≠ vertex → e ∈ looked)
    (h : Frontier graph T looked { s with verticesInMST := Function.update s.verticesInMST vertex true }) :
    Frontier graph T (outgoing graph T) (enter graph vertex s) ∧
      (enter graph vertex s).queue.length ≤ s.queue.length + (n + 1) ∧
      (enter graph vertex s).spanningVertices = s.spanningVertices + 1 := by
  obtain ⟨hfrontier, hlen, hcount⟩ :=
    Frontier.foldl_relax hwf hvertex (edgesOf graph vertex) (Subset.refl _) h
  refine ⟨{ hfrontier with near := ?_ }, hlen.trans (Nat.add_le_add_left (length_edgesOf_le graph vertex) _),
    ?_⟩
  · intro e he
    by_cases hu : e.u = vertex
    · exact hfrontier.near e (.inr ⟨hu, hu ▸ mem_stored_iff_mem_edgesOf.mp he.1⟩)
    · exact hfrontier.near e (.inl (hlooked e he hu))
  · rw [Prim.enter, hcount]

theorem pqPop_nil : pqPop edgeCompare ([] : List (Edge n)) = none := rfl

/-- The loop ends with a greedy tree that no stored edge leaves. -/
theorem loop_spec (hwf : WellFormed graph) (fuel : Nat) :
    ∀ {s : State n} {T : List (WEdge (Fin (n + 1)))}, Greedy (stored graph) 0 T →
      Frontier graph T (outgoing graph T) s → s.spanningVertices = T.length + 1 →
      s.queue.length + (n - T.length) * (n + 1) ≤ fuel →
      ∃ s' T', loop graph fuel s = some s' ∧ Greedy (stored graph) 0 T' ∧
        Frontier graph T' (outgoing graph T') s' ∧
        s'.queue = [] ∧ s'.spanningVertices = T'.length + 1 := by
  induction fuel with
  | zero =>
    intro s T hT h hcount hfuel
    have hqueue : s.queue = [] := length_eq_zero_iff.mp (by omega)
    rw [loop, if_pos hqueue]
    exact ⟨s, T, rfl, hT, h, hqueue, hcount⟩
  | succ fuel ih =>
    intro s T hT h hcount hfuel
    by_cases hqueue : s.queue = []
    · rw [loop, hqueue, pqPop_nil]
      exact ⟨s, T, rfl, hT, h, hqueue, hcount⟩
    · obtain ⟨q, queue, hpop, hperm, hheap, hfirst⟩ := pqPop_spec edgeCompare_orders h.heap hqueue
      have hlen : s.queue.length = queue.length + 1 := hperm.length_eq
      rw [loop, hpop]
      by_cases hold : q.vertex ∈ reached 0 T
      · simp only [(h.inTree q.vertex).mpr hold, if_true]
        exact ih hT (h.skip hperm hheap hold) hcount (by simp only; omega)
      · obtain ⟨p, -, hparent, hT'⟩ := h.next_edge hwf hT (hperm.mem_iff.mpr mem_cons_self) hfirst hold
        have hlooked : ∀ e ∈ outgoing graph (⟨p, q.vertex, q.length⟩ :: T), e.u ≠ q.vertex →
            e ∈ outgoing graph T :=
          fun e he hu => ⟨he.1, (mem_reached_cons.mp he.2).resolve_left hu⟩
        obtain ⟨hfrontier, hlen', hcount'⟩ := Frontier.enter _ (s := { s with queue }) hwf
          (mem_reached_cons.mpr (.inl rfl)) hlooked (h.mark hperm hheap hparent)
        have hnot : ¬ s.verticesInMST q.vertex = true := fun htrue => hold ((h.inTree _).mp htrue)
        simp only [hnot]
        apply ih hT' hfrontier
        · rw [hcount', length_cons, ← hcount]
        · have hsize := hT'.length_lt
          rw [Fintype.card_fin, length_cons] at hsize
          have hmul : (n - T.length) * (n + 1) = (n - (T.length + 1)) * (n + 1) + (n + 1) := by
            rw [← Nat.succ_mul]
            congr 1
            omega
          simp only [length_cons] at hlen' ⊢
          omega

/-- The first element of the queue is the vertex 0 itself. -/
theorem loop_initial (graph : Graph n) (fuel : Nat) :
    loop graph (1 + fuel) (initial n) =
      loop graph fuel (Prim.enter graph 0 { initial n with queue := [] }) := by
  rw [Nat.add_comm]
  rfl

theorem frontier_first (hwf : WellFormed graph) :
    Frontier graph [] (outgoing graph []) (Prim.enter graph 0 { initial n with queue := [] }) ∧
      (Prim.enter graph 0 { initial n with queue := [] }).queue.length ≤ 0 + (n + 1) ∧
      (Prim.enter graph 0 { initial n with queue := [] }).spanningVertices = 0 + 1 := by
  apply Frontier.enter ∅ hwf mem_cons_self
  · exact fun e he hu => absurd (mem_singleton.mp he.2) hu
  · constructor
    case inTree =>
      intro v
      rw [reached, map_nil, nil_append, mem_singleton]
      by_cases hv : v = 0
      · subst hv
        simp
      · simp [hv, initial]
    case near =>
      intro e he
      cases he
    case known => exact fun v _ => .inl rfl
    case queued =>
      intro q hq
      cases hq
    case parents =>
      intro e he
      cases he
    case heap => exact heapOrdered_nil priority

/-! ### The result -/

theorem mapM_eq_some {α β : Type} {f : α → Option β} {g : α → β} {l : List α}
    (h : ∀ a ∈ l, f a = some (g a)) : l.mapM f = some (l.map g) := by
  induction l with
  | nil => rfl
  | cons a l ih =>
    obtain ⟨ha, hl⟩ := forall_mem_cons.mp h
    rw [mapM_cons, ha, ih hl]
    rfl

/-- A tree that has reached all vertices has one edge to each vertex but the first. -/
theorem Greedy.ends_perm {G : List (WEdge (Fin (n + 1)))} (hT : Greedy G 0 T) (hall : ∀ x, x ∈ reached 0 T) :
    (T.map WEdge.v).Perm ((List.finRange n).map Fin.succ) := by
  have hnodup := hT.reached_nodup
  rw [reached, nodup_append] at hnodup
  rw [perm_ext_iff_of_nodup hnodup.1 ((nodup_finRange n).map (Fin.succ_injective n))]
  intro x
  have hx := hall x
  rw [reached, mem_append, mem_singleton] at hx
  have hzero : x ∈ T.map WEdge.v → x ≠ 0 := fun hmem => hnodup.2.2 x hmem 0 mem_cons_self
  rw [List.mem_map, List.mem_map]
  simp only [mem_finRange, true_and]
  exact ⟨fun hmem => Fin.exists_succ_eq.mpr (hzero (List.mem_map.mpr hmem)),
    fun hsucc => List.mem_map.mp (hx.resolve_right (Fin.exists_succ_eq.mp hsucc))⟩

/-- The edges between the vertices and their parents, in the order in which `main` prints them;
    `none` if a parent was never set. -/
def parentEdges (graph : Graph n) (parents : Fin (n + 1) → Option (Fin (n + 1))) :
    Option (List (WEdge (Fin (n + 1)))) :=
  (List.finRange n).mapM fun i => (parents i.succ).map fun p => ⟨p, i.succ, (graph.adjMatrix p i.succ).toNat⟩

theorem totalLength_eq {parents : Fin (n + 1) → Option (Fin (n + 1))} {S : List (WEdge (Fin (n + 1)))}
    (h : parentEdges graph parents = some S) : totalLength graph parents = some (total S) := by
  have hmap : (List.finRange n).mapM
    (fun i => (parents i.succ).map fun p => (graph.adjMatrix p i.succ).toNat) =
      (parentEdges graph parents).map (List.map WEdge.length) := by
    rw [parentEdges]
    induction List.finRange n with
    | nil => rfl
    | cons i is ih =>
      rw [mapM_cons, mapM_cons, ih]
      cases parents i.succ with
      | none => rfl
      | some p => cases is.mapM fun i => (parents i.succ).map fun p =>
        (⟨p, i.succ, (graph.adjMatrix p i.succ).toNat⟩ : WEdge (Fin (n + 1))) <;> rfl
  rw [totalLength, hmap, h]
  rfl

/-- The parents of a tree that has reached all vertices are its edges. -/
theorem Frontier.parentEdges_eq (hT : Greedy (stored graph) 0 T) (h : Frontier graph T looked s)
    (hall : ∀ x, x ∈ reached 0 T) : ∃ S, parentEdges graph s.spanningTreeParents = some S ∧ S.Perm T := by
  let edge (v : Fin (n + 1)) : WEdge (Fin (n + 1)) :=
    ⟨(s.spanningTreeParents v).getD 0, v, (graph.adjMatrix ((s.spanningTreeParents v).getD 0) v).toNat⟩
  have hedge : ∀ e ∈ T, s.spanningTreeParents e.v = some e.u ∧ edge e.v = e := by
    intro e he
    have hparent := h.parents e he
    refine ⟨hparent, ?_⟩
    simp only [edge, hparent, getD_some]
    rw [← (mem_stored.mp (hT.subset he)).2]
  have hperm := Greedy.ends_perm hT hall
  refine ⟨((List.finRange n).map Fin.succ).map edge, ?_, ?_⟩
  · rw [List.map_map]
    apply mapM_eq_some
    intro i hi
    obtain ⟨e, he, hv⟩ := List.mem_map.mp (hperm.mem_iff.mpr (List.mem_map_of_mem hi))
    have hparent := (hedge e he).1
    rw [hv] at hparent
    simp only [edge, comp_apply, hparent, map_some, getD_some]
  · have hsame : (T.map WEdge.v).map edge = T := by
      rw [List.map_map]
      exact (map_congr_left fun e he => (hedge e he).2).trans (List.map_id T)
    exact (hperm.map edge).symm.trans (Perm.of_eq hsame)

/-- The result: a minimal forest of the stored edges that joins all vertices, or no way to some
    vertex. -/
theorem findSpanningTree_spec (hwf : WellFormed graph) :
    (∃ parents T S, findSpanningTree graph = some (.ok parents) ∧ Minimal T (stored graph) ∧
        T ⊆ stored graph ∧ T.length = n ∧ parentEdges graph parents = some S ∧ S.Perm T) ∨
      (findSpanningTree graph = some (.error .noSpanningTree) ∧ ∃ x, ¬ Joined (stored graph) 0 x) := by
  obtain ⟨hfirst, hlen, hcount⟩ := frontier_first hwf
  have hfuel : (Prim.enter graph 0 { initial n with queue := [] }).queue.length + (n - 0) * (n + 1) ≤
      (n + 1) * (n + 1) := by
    rw [Nat.succ_mul n, Nat.sub_zero]
    omega
  obtain ⟨s, T, hloop, hT, h, hqueue, hcount⟩ := loop_spec hwf ((n + 1) * (n + 1)) .nil hfirst hcount hfuel
  have hlt := hT.length_lt
  rw [Fintype.card_fin] at hlt
  have hresult : findSpanningTree graph =
      some (if s.spanningVertices < n + 1 then .error .noSpanningTree else .ok s.spanningTreeParents) := by
    rw [findSpanningTree, loop_initial, hloop]
    rfl
  by_cases hfew : T.length < n
  · refine .inr ⟨by rw [hresult, if_pos (by omega)], ?_⟩
    -- some vertex is not reached, and no edge leaves the tree
    obtain ⟨x, hx⟩ : ∃ x, x ∉ reached 0 T := by
      by_contra! hall
      have hcard := toFinset_card_le (reached 0 T)
      rw [Finset.eq_univ_iff_forall.mpr fun x => List.mem_toFinset.mpr (hall x), Finset.card_univ,
        Fintype.card_fin, length_reached] at hcard
      omega
    refine ⟨x, fun hjoined => hx (mem_reached_of_joined hwf.stored_symm ?_ hjoined)⟩
    intro e he hleaves
    have hnear := h.near e ⟨he, hleaves.1⟩ hleaves.2
    have hlength := hwf.length_lt he
    rcases h.known e.v hleaves.2 with hmax | ⟨hmem, -⟩
    · omega
    · rw [hqueue] at hmem
      cases hmem
  · have hn : T.length = n := by omega
    have hall : ∀ x, x ∈ reached 0 T := by
      intro x
      have hcard : (reached 0 T).toFinset.card = Fintype.card (Fin (n + 1)) := by
        rw [toFinset_card_of_nodup hT.reached_nodup, length_reached, hn, Fintype.card_fin]
      rw [← List.mem_toFinset, (Finset.card_eq_iff_eq_univ _).mp hcard]
      exact Finset.mem_univ x
    obtain ⟨S, hS, hperm⟩ := h.parentEdges_eq hT hall
    refine .inl ⟨s.spanningTreeParents, T, S, by rw [hresult, if_neg (by omega)], ?_, hT.subset, hn,
      hS, hperm⟩
    exact hT.minimal hwf.stored_symm hall

end

/-- The program finds a minimal spanning tree if the graph is connected, and reports that there is
    none if it is not. -/
theorem findSpanningTree_minimal (graph : Graph n) (hsymm : ∀ u v, graph.adjMatrix u v = graph.adjMatrix v u)
    (hlengths : ∀ u v, graph.adjMatrix u v = -1 ∨
      (0 ≤ graph.adjMatrix u v ∧ graph.adjMatrix u v ≤ 2 ^ 31 - 1)) :
    ((∀ x y, Joined (stored graph) x y) →
        ∃ parents T, findSpanningTree graph = some (.ok parents) ∧ parentEdges graph parents = some T ∧
          MinimalTree T (stored graph)) ∧
      ((¬ ∀ x y, Joined (stored graph) x y) → findSpanningTree graph = some (.error .noSpanningTree)) := by
  have hwf : WellFormed graph := by
    refine ⟨hsymm, fun u v => ?_⟩
    have := hlengths u v
    simp only [uint32Max]
    omega
  rcases findSpanningTree_spec hwf with ⟨parents, T, S, hresult, hmin, hsub, hlength, hS,
    hperm⟩ | ⟨hresult, x, hx⟩
  · have hall : ∀ x y, Joined (stored graph) x y := by
      have hcard := hmin.length_add
      rw [Nat.card_eq_fintype_card, Fintype.card_fin, hlength] at hcard
      exact components_eq_one_iff.mp (Nat.add_left_cancel hcard)
    refine ⟨fun _ => ⟨parents, S, hresult, hS, ?_⟩, fun hnot => absurd hall hnot⟩
    exact (hmin.minimalTree hsub hall).perm hperm
  · exact ⟨fun hall => absurd (hall 0 x) hx, fun _ => hresult⟩

/-- A triangle with an edge of length zero. -/
def triangle : Graph 2 where
  adjMatrix := fun u v => if u = v then -1 else if u = 0 ∨ v = 0 then 3 else 0

theorem findSpanningTree_minimal_triangle :
    ∃ parents T, findSpanningTree triangle = some (.ok parents) ∧ parentEdges triangle parents = some T ∧
      MinimalTree T (stored triangle) := by
  apply (findSpanningTree_minimal triangle (by decide) (by decide)).1
  have hedge : ∀ x y, x ≠ y → Joined (stored triangle) x y := by
    intro x y hne
    exact Joined.of_mem (e := ⟨x, y, (triangle.adjMatrix x y).toNat⟩)
      (mem_stored.mpr ⟨by revert x y; decide, rfl⟩)
  intro x y
  by_cases hxy : x = y
  · exact hxy ▸ .refl _ _
  · exact hedge x y hxy

end NsuLabs.SpanningTree.Prim
