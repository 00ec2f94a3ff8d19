/-
Module: NsuLabs.BTreeInsertion.Proofs.Nodes
Purpose: What the functions of `b_tree.c` do to single nodes, the B-tree invariants as a predicate on the
  heap, by the level of the node above the leaves, and the two splits.
Trusted boundary: none
Main exports: NodeIs, Subtree
-/
import NsuLabs.BTreeInsertion.BTree
import NsuLabs.Lib.OrderedList

namespace NsuLabs.BTreeInsertion

open Lib

section

open Function List Option

variable {a b i : Nat} {q : NodePtr} {values low high : List Int} {c : Option NodePtr}
  {cs ds : List (Option NodePtr)}
  {m : Int}

/-- The half-degrees for which the capacities do not wrap. -/
structure HalfDegree (t : Nat) : Prop where
  one_le : 1 ≤ t
  fits : t < 2 ^ 63

/-! ### `size_t` without wrapping -/

theorem sizeAdd_eq (h : a + b < 2 ^ 64) : sizeAdd a b = a + b := Nat.mod_eq_of_lt h

theorem sizeSub_eq (hba : b ≤ a) (ha : a < 2 ^ 64) : sizeSub a b = a - b := by
  rw [sizeSub, Nat.mod_eq_of_lt (hba.trans_lt ha)]
  omega

theorem sizeMul_eq (h : a * b < 2 ^ 64) : sizeMul a b = a * b := Nat.mod_eq_of_lt h

namespace HalfDegree

variable {t : Nat}

theorem maxSize (ht : HalfDegree t) : sizeSub (sizeMul t 2) 1 = 2 * t - 1 := by
  have := ht.one_le
  have := ht.fits
  rw [sizeMul_eq (by omega), sizeSub_eq (by omega) (by omega), Nat.mul_comm]

theorem minSize (ht : HalfDegree t) : sizeSub t 1 = t - 1 := by
  have := ht.one_le
  have := ht.fits
  exact sizeSub_eq (by omega) (by omega)

end HalfDegree

/-! ### The heap -/

@[simp] theorem Heap.write_nodes_same (h : Heap) (p : NodePtr) (node : BTreeNode) :
    (h.write p node).nodes p = some node := update_self ..

theorem Heap.write_nodes_of_ne {h : Heap} {p : NodePtr} {node : BTreeNode} (hne : q ≠ p) :
    (h.write p node).nodes q = h.nodes q := update_of_ne hne ..

@[simp] theorem Heap.write_next (h : Heap) (p : NodePtr) (node : BTreeNode) :
    (h.write p node).next = h.next := rfl

@[simp] theorem Heap.write_missing (h : Heap) (p : NodePtr) (node : BTreeNode) :
    (h.write p node).missing = h.missing := rfl

@[simp] theorem Heap.write_write (h : Heap) (p : NodePtr) (node node' : BTreeNode) :
    (h.write p node).write p node' = h.write p node' := by
  rw [write, write, write, update_idem]

section Access

variable {h : Heap} {p : NodePtr} {node : BTreeNode}

theorem Heap.setSize_eq (hp : h.nodes p = some node) (size : Nat) :
    h.setSize p size = some (h.write p { node with size }) := by
  rw [setSize, hp, map_some]

@[simp] theorem Heap.setSize_write (h : Heap) (p : NodePtr) (node : BTreeNode) (size : Nat) :
    (h.write p node).setSize p size = some (h.write p { node with size }) := by
  rw [setSize_eq (write_nodes_same h p node), write_write]

@[simp] theorem Heap.storeValue_write (h : Heap) (p : NodePtr) (node : BTreeNode) (i : Nat) (value : Int) :
    (h.write p node).storeValue p i value = (store node.values i value).map fun values =>
      h.write p { node with values } := by
  simp only [storeValue, write_nodes_same, bind_eq_bind, bind_some, write_write]
  cases store node.values i value <;> rfl

@[simp] theorem Heap.storeChild_write (h : Heap) (p : NodePtr) (node : BTreeNode) (i : Nat)
    (child : Option NodePtr) :
    (h.write p node).storeChild p i child = (store node.children i child).map fun children =>
      h.write p { node with children } := by
  simp only [storeChild, write_nodes_same, bind_eq_bind, bind_some, write_write]
  cases store node.children i child <;> rfl

theorem Heap.value_eq (hp : h.nodes p = some node) (i : Nat) : h.value p i = node.values[i]? := by
  simp only [value, hp, bind_eq_bind, bind_some]

theorem Heap.value_write_of_ne (hne : q ≠ p) (i : Nat) : (h.write p node).value q i = h.value q i := by
  rw [value, value, write_nodes_of_ne hne]

theorem Heap.child_eq (hp : h.nodes p = some node) (i : Nat) : h.child p i = node.children[i]? := by
  simp only [child, hp, bind_eq_bind, bind_some]

end Access

/-- The node that `createNode` makes. -/
def emptyNode (t : Nat) : BTreeNode where
  values := List.replicate (2 * t - 1) 0
  children := List.replicate (2 * t) none
  size := 0

theorem createNode_eq {t : Nat} (ht : HalfDegree t) (h : Heap) :
    createNode t h = (h.next, { h with next := h.next + 1 }.write h.next (emptyNode t)) := by
  have := ht.one_le
  have := ht.fits
  rw [createNode, sizeMul_eq (by omega), sizeSub_eq (by omega) (by omega), emptyNode]
  rfl

/-! ### The arrays of a node -/

/-- The node has these keys and child pointers; behind them, its arrays hold anything. -/
structure NodeIs (t : Nat) (node : BTreeNode) (keys : List Int) (kids : List (Option NodePtr)) : Prop where
  size : node.size = keys.length
  values : ∃ rest, node.values = keys ++ rest
  children : ∃ rest, node.children = kids ++ rest
  valuesLength : node.values.length = 2 * t - 1
  childrenLength : node.children.length = 2 * t
  arity : kids.length = keys.length + 1

namespace NodeIs

variable {t : Nat} {node : BTreeNode} {keys : List Int} {kids : List (Option NodePtr)}

theorem length_le (hnode : NodeIs t node keys kids) : keys.length ≤ 2 * t - 1 := by
  obtain ⟨rest, hvalues⟩ := hnode.values
  rw [← hnode.valuesLength, hvalues, length_append]
  exact Nat.le_add_right _ _

theorem isFull_iff (ht : HalfDegree t) (hnode : NodeIs t node keys kids) :
    isFull t node = true ↔ keys.length = 2 * t - 1 := by
  rw [isFull, ht.maxSize, hnode.size, decide_eq_true_iff]

theorem child_eq (hnode : NodeIs t node keys kids) (hc : kids[i]? = some c) :
    node.children[i]? = some c := by
  obtain ⟨rest, hchildren⟩ := hnode.children
  obtain ⟨hi, -⟩ := List.getElem?_eq_some_iff.mp hc
  rw [hchildren, getElem?_append_left hi, hc]

end NodeIs

/-! ### The binary search -/

/-- The loop stays between the keys below the value and the others. -/
theorem findChildIdxLoop_spec (value : Int) {keys rest : List Int} (hsorted : keys.Pairwise (· ≤ ·))
    (fuel : Nat) :
    ∀ l r, l ≤ r → r ≤ keys.length → r - l ≤ fuel → (∀ x ∈ keys.take l, x < value) →
      (∀ x ∈ keys.drop r, value ≤ x) →
      ∃ i ≤ keys.length, findChildIdxLoop (keys ++ rest) value fuel l r = some i ∧
        (∀ x ∈ keys.take i, x < value) ∧ ∀ x ∈ keys.drop i, value ≤ x := by
  induction fuel with
  | zero =>
    intro l r hlr hr hfuel hbelow habove
    obtain rfl : l = r := by omega
    exact ⟨l, hr, by rw [findChildIdxLoop, if_neg (lt_irrefl l)], hbelow, habove⟩
  | succ fuel ih =>
    intro l r hlr hr hfuel hbelow habove
    rw [findChildIdxLoop]
    by_cases hlt : l < r
    · rw [if_pos hlt]
      generalize hmid : l + (r - l) / 2 = mid
      have hbound : mid < keys.length := by omega
      rw [getElem?_append_left hbound, getElem?_eq_getElem hbound, bind_some]
      -- the keys are in order, so the key in the middle speaks for one side
      rw [← take_append_drop mid keys, drop_eq_getElem_cons hbound, pairwise_append,
        pairwise_cons] at hsorted
      by_cases hvalue : value ≤ keys[mid]
      · rw [if_pos hvalue]
        apply ih l mid (by omega) hbound.le (by omega) hbelow
        rw [drop_eq_getElem_cons hbound, forall_mem_cons]
        exact ⟨hvalue, fun x hx => hvalue.trans (hsorted.2.1.1 x hx)⟩
      · rw [if_neg hvalue]
        apply ih (mid + 1) r (by omega) hr (by omega) _ habove
        rw [← take_append_getElem hbound, forall_mem_append, forall_mem_singleton]
        exact ⟨fun x hx => (hsorted.2.2 x hx _ mem_cons_self).trans_lt (not_le.mp hvalue), not_le.mp hvalue⟩
    · obtain rfl : l = r := by omega
      exact ⟨l, hr, if_neg hlt, hbelow, habove⟩

/-- The search cuts the keys into those below the value and the others. -/
theorem findChildIdx_spec {t : Nat} {node : BTreeNode} {keys : List Int} {kids : List (Option NodePtr)}
    (hnode : NodeIs t node keys kids) (hsorted : keys.Pairwise (· ≤ ·)) (value : Int) :
    ∃ low high, keys = low ++ high ∧ findChildIdx node value = some low.length ∧ (∀ x ∈ low, x < value) ∧
      ∀ x ∈ high, value ≤ x := by
  obtain ⟨rest, hvalues⟩ := hnode.values
  obtain ⟨i, hi, hfind, hbelow, habove⟩ :=
    @findChildIdxLoop_spec value keys rest hsorted keys.length 0 keys.length
    (Nat.zero_le _) le_rfl (Nat.sub_le _ _) (by simp) (by simp)
  refine ⟨keys.take i, keys.drop i, (take_append_drop i keys).symm, ?_, hbelow, habove⟩
  rw [length_take, min_eq_left hi, findChildIdx, hnode.size, hvalues, hfind]

/-! ### Moving tails -/

section Moves

variable {t : Nat} {h : Heap} {p : NodePtr} {node : BTreeNode}

/-- A gap in a node with room: the child at the gap stands on both its sides, and the node is filled
    by a key and a child for the gap. -/
theorem moveTail_gap (ht : HalfDegree t) (hp : h.nodes p = some node)
    (hnode : NodeIs t node (low ++ high) (cs ++ c :: ds)) (hcs : cs.length = low.length)
    (hroom : (low ++ high).length < 2 * t - 1) :
    ∃ w rest crest, moveTail h p low.length p (sizeAdd low.length 1) =
        some (h.write p { node with
          values := low ++ w :: (high ++ rest)
          children := cs ++ c :: c :: (ds ++ crest) }) ∧
      (∀ x d, NodeIs t ⟨low ++ x :: (high ++ rest), cs ++ c :: d :: (ds ++ crest), sizeAdd node.size 1⟩
        (low ++ x :: high) (cs ++ c :: d :: ds)) ∧
      ∀ x ∈ crest, x ∈ node.children := by
  have hfits := ht.fits
  obtain ⟨vrest, hvalues⟩ := hnode.values
  obtain ⟨chrest, hchildren⟩ := hnode.children
  have hvlen := hnode.valuesLength
  have hclen := hnode.childrenLength
  have harity := hnode.arity
  have hsize := hnode.size
  simp only [length_append, length_cons] at hroom harity hsize
  rw [hvalues] at hvlen
  rw [hchildren] at hclen
  simp only [length_append, length_cons] at hvlen hclen
  have hds : ds.length = high.length := by omega
  -- there is a free place at the end of each array
  match vrest, chrest, hvlen, hclen with
  | v :: vrest, cr :: crest, hvlen, hclen =>
    obtain ⟨w, -, hw⟩ := memmove_shift low high vrest v
    obtain ⟨d, hd, hmove⟩ := memmove_shift cs (c :: ds) crest cr
    obtain rfl : c = d := some.inj hd
    have hsub : sizeSub node.size low.length = high.length := by
      rw [sizeSub_eq (by omega) (by omega)]
      omega
    have hcount : sizeAdd high.length 1 = (c :: ds).length := by
      rw [sizeAdd_eq (by omega), length_cons, hds]
    rw [append_assoc] at hvalues
    rw [append_assoc] at hchildren
    rw [length_cons] at hvlen hclen
    refine ⟨w, vrest, crest, ?_, fun x d => ?_, ?_⟩
    · rw [moveTail, hp]
      simp only [bind_eq_bind, bind_some, hsub, hcount]
      rw [sizeAdd_eq (by omega), hvalues, hw, hchildren, bind_some, ← hcs, hmove]
      rfl
    · refine ⟨?_, ⟨vrest, by simp⟩, ⟨crest, by simp⟩, ?_, ?_, ?_⟩
      · rw [sizeAdd_eq (by omega), hsize, length_append, length_cons]
        rfl
      all_goals
        simp only [length_append, length_cons]
        omega
    · intro x hx
      rw [hchildren]
      simp [hx]
  | [], _, hvlen, _ =>
    simp only [length_nil] at hvlen
    omega
  | _ :: _, [], hvlen, hclen =>
    simp only [length_cons, length_nil] at hvlen hclen
    omega

/-- The upper half of a full node, in a fresh one. -/
def upperNode (t : Nat) (high : List Int) (ds : List (Option NodePtr)) : BTreeNode where
  values := high ++ List.replicate t 0
  children := ds ++ List.replicate t none
  size := 0

theorem moveTail_half (ht : HalfDegree t) (hp : h.nodes p = some node) (hq : h.nodes q = some (emptyNode t))
    (hnode : NodeIs t node (low ++ m :: high) (cs ++ ds)) (hlow : low.length = t - 1)
    (hhigh : high.length = t - 1)
    (hcs : cs.length = t) : moveTail h p t q 0 = some (h.write q (upperNode t high ds)) := by
  have hone := ht.one_le
  have hfits := ht.fits
  obtain ⟨vrest, hvalues⟩ := hnode.values
  obtain ⟨chrest, hchildren⟩ := hnode.children
  have hvlen := hnode.valuesLength
  have hclen := hnode.childrenLength
  have harity := hnode.arity
  have hsize := hnode.size
  simp only [length_append, length_cons] at harity hsize
  rw [hvalues] at hvlen
  rw [hchildren] at hclen
  simp only [length_append, length_cons] at hvlen hclen
  -- a full node has nothing behind its keys and children
  obtain rfl : vrest = [] := eq_nil_of_length_eq_zero (by omega)
  obtain rfl : chrest = [] := eq_nil_of_length_eq_zero (by omega)
  have hds : ds.length = t := by omega
  have hsub : sizeSub node.size t = high.length := by
    rw [sizeSub_eq (by omega) (by omega)]
    omega
  have hcount : sizeAdd high.length 1 = ds.length := by
    rw [sizeAdd_eq (by omega)]
    omega
  have hmoveValues : memmove (emptyNode t).values 0 node.values t high.length =
      some (high ++ List.replicate t 0) := by
    have hlen : (low ++ [m]).length = t := by
      simp only [length_append, length_singleton]
      omega
    have hsplit : node.values = (low ++ [m]) ++ high := by simp [hvalues]
    rw [hsplit, ← hlen, memmove_tail _ _ _ (by simp [emptyNode]; omega), emptyNode]
    simp only [drop_replicate, hlen]
    congr 3
    omega
  have hmoveChildren : memmove (emptyNode t).children 0 node.children t ds.length =
      some (ds ++ List.replicate t none) := by
    rw [hchildren, append_nil, ← hcs, memmove_tail _ _ _ (by simp [emptyNode]; omega), emptyNode]
    simp only [drop_replicate, hcs]
    congr 3
    omega
  rw [moveTail, hp, hq]
  simp only [bind_eq_bind, bind_some, hsub, hcount, hmoveValues, hmoveChildren]
  rfl

theorem nodeIs_lower (hnode : NodeIs t node (low ++ m :: high) (cs ++ ds))
    (hcs : cs.length = low.length + 1) : NodeIs t { node with size := low.length } low cs where
  size := rfl
  values := by
    obtain ⟨rest, hvalues⟩ := hnode.values
    exact ⟨m :: high ++ rest, by rw [hvalues, append_assoc]⟩
  children := by
    obtain ⟨rest, hchildren⟩ := hnode.children
    exact ⟨ds ++ rest, by rw [hchildren, append_assoc]⟩
  valuesLength := hnode.valuesLength
  childrenLength := hnode.childrenLength
  arity := hcs

theorem nodeIs_upper (hhigh : high.length = t - 1) (ht : 1 ≤ t) (hds : ds.length = t) :
    NodeIs t { upperNode t high ds with size := t - 1 } high ds where
  size := hhigh.symm
  values := ⟨_, rfl⟩
  children := ⟨_, rfl⟩
  valuesLength := by
    simp only [upperNode, length_append, length_replicate]
    omega
  childrenLength := by
    simp only [upperNode, length_append, length_replicate]
    omega
  arity := by omega

/-- The upper half of a full node goes to a fresh one. The sizes of the two are set in the one order
    or in the other. -/
theorem moveTail_halve (ht : HalfDegree t) (hp : h.nodes p = some node) (hq : h.nodes q = some (emptyNode t))
    (hne : p ≠ q) (hnode : NodeIs t node (low ++ m :: high) (cs ++ ds)) (hlow : low.length = t - 1)
    (hhigh : high.length = t - 1) (hcs : cs.length = t) :
    ∃ h₁ h₂ h₃ h', moveTail h p t q 0 = some h₁ ∧ h₁.setSize p (t - 1) = some h₂ ∧
      h₂.setSize q (t - 1) = some h' ∧ h₁.setSize q (t - 1) = some h₃ ∧ h₃.setSize p (t - 1) = some h' ∧
      h'.nodes p = some { node with size := t - 1 } ∧
        h'.nodes q = some { upperNode t high ds with size := t - 1 } ∧
      h'.value p (t - 1) = some m ∧ (∀ x, x ≠ p → x ≠ q → h'.nodes x = h.nodes x) ∧ h'.next = h.next ∧
      h'.missing = h.missing := by
  have hp₁ : ∀ node', (h.write q node').nodes p = some node := fun node' =>
    (Heap.write_nodes_of_ne hne).trans hp
  have hp' : ((h.write q { upperNode t high ds with size := t - 1 }).write p
      { node with size := t - 1 }).nodes p = _ :=
    Heap.write_nodes_same ..
  refine ⟨_, _, _, _, moveTail_half ht hp hq hnode hlow hhigh hcs, Heap.setSize_eq (hp₁ _) _, ?_,
    Heap.setSize_write .., Heap.setSize_eq (hp₁ _) _, hp', ?_, ?_, fun x hxp hxq => ?_, rfl, rfl⟩
  · rw [Heap.setSize_eq ((Heap.write_nodes_of_ne hne.symm).trans (Heap.write_nodes_same ..))]
    simp only [Heap.write, update_comm hne, update_idem]
  · rw [Heap.write_nodes_of_ne hne.symm, Heap.write_nodes_same]
  · obtain ⟨rest, hvalues⟩ := hnode.values
    rw [Heap.value_eq hp']
    simp [hvalues, ← hlow]
  · rw [Heap.write_nodes_of_ne hxp, Heap.write_nodes_of_ne hxq]

end Moves

end

open List Option

variable {kids ls rs : List Summary} {ptrs : List NodePtr} {p : NodePtr} {keys low high : List Int}
  {c : Summary}
  {node : BTreeNode} {m : Int} {cs ds : List (Option NodePtr)} {tree : BTree}

/-- What a subtree holds: the address of its root, its keys from left to right, and the addresses of
    all its nodes. -/
structure Summary where
  p : NodePtr
  keys : List Int
  ptrs : List NodePtr

/-- The child pointers of a node with these subtrees. -/
def childPtrs (kids : List Summary) : List (Option NodePtr) := kids.map fun kid => some kid.p

def kidKeys (kids : List Summary) : List (List Int) := kids.map Summary.keys

def kidPtrs (kids : List Summary) : List NodePtr := kids.flatMap Summary.ptrs

/-- A subtree whose leaves are all `level` levels below its root. The root has at least `least`
    keys, every other node at least `t - 1`, and none has more than `2 * t - 1`. A node above the
    leaves has one child more than it has keys. -/
inductive Subtree (h : Heap) (t : Nat) : (level least : Nat) → Summary → Prop where
  | leaf {least : Nat} {s : Summary} {node : BTreeNode} {cs : List (Option NodePtr)}
      (hp : h.nodes s.p = some node)
      (hnode : NodeIs t node s.keys cs) (hleast : least ≤ s.keys.length) (hmost : s.keys.length ≤ 2 * t - 1)
      (hnull : ∀ c ∈ node.children, c = none) (hptrs : s.ptrs = [s.p]) : Subtree h t 0 least s
  | inner {level least : Nat} {s : Summary} {node : BTreeNode} {keys : List Int} {kids : List Summary}
      (hp : h.nodes s.p = some node) (hnode : NodeIs t node keys (childPtrs kids))
      (hleast : least ≤ keys.length)
      (hmost : keys.length ≤ 2 * t - 1)
      (hkids : ∀ kid ∈ kids, Subtree h t level (t - 1) kid) (hkeys : s.keys = interleave (kidKeys kids) keys)
      (hptrs : s.ptrs = s.p :: kidPtrs kids) : Subtree h t (level + 1) least s

variable {h h' : Heap} {t level least : Nat} {s : Summary}

theorem mem_kidPtrs {kid : Summary} (hkid : kid ∈ kids) {q : NodePtr} (hq : q ∈ kid.ptrs) :
    q ∈ kidPtrs kids := mem_flatMap.mpr ⟨kid, hkid, hq⟩

theorem Subtree.root_mem (hsub : Subtree h t level least s) : s.p ∈ s.ptrs := by
  cases hsub with
  | leaf hp hnode hleast hmost hnull hptrs | inner hp hnode hleast hmost hkids hkeys hptrs => simp [hptrs]

/-- A subtree does not depend on the rest of the heap. -/
theorem Subtree.congr (hsub : Subtree h t level least s) (hframe : ∀ q ∈ s.ptrs, h'.nodes q = h.nodes q) :
    Subtree h' t level least s := by
  induction hsub with
  | leaf hp hnode hleast hmost hnull hptrs =>
    exact .leaf ((hframe _ (by simp [hptrs])).trans hp) hnode hleast hmost hnull hptrs
  | inner hp hnode hleast hmost hkids hkeys hptrs ih =>
    refine .inner ((hframe _ (by simp [hptrs])).trans hp) hnode hleast hmost (fun kid hkid => ?_) hkeys hptrs
    apply ih kid hkid
    intro q hq
    apply hframe
    rw [hptrs]
    exact mem_cons_of_mem _ (mem_kidPtrs hkid hq)

/-! ### Addresses -/

/-- The nodes are all distinct and allocated. -/
structure Tidy (h : Heap) (ptrs : List NodePtr) : Prop where
  nodup : ptrs.Nodup
  below : ∀ p ∈ ptrs, p < h.next

/-- The second heap has the second nodes in place of the first, with some fresh ones, and is the
    same elsewhere. -/
structure Grown (h : Heap) (ptrs : List NodePtr) (h' : Heap) (ptrs' : List NodePtr) : Prop where
  tidy : Tidy h' ptrs'
  fresh : ∀ p ∈ ptrs', p ∈ ptrs ∨ h.next ≤ p
  next_le : h.next ≤ h'.next
  frame : ∀ p, p < h.next → p ∉ ptrs → h'.nodes p = h.nodes p
  missing : h'.missing = h.missing

theorem Grown.trans {h₁ h₂ : Heap} {ptrs₁ ptrs₂ : List NodePtr} (first : Grown h ptrs h₁ ptrs₁)
    (second : Grown h₁ ptrs₁ h₂ ptrs₂) : Grown h ptrs h₂ ptrs₂ where
  tidy := second.tidy
  fresh := by
    intro p hp
    rcases second.fresh p hp with hp | hp
    · exact first.fresh p hp
    · exact .inr (first.next_le.trans hp)
  next_le := first.next_le.trans second.next_le
  frame := by
    intro p hlt hp
    have hp₁ : p ∉ ptrs₁ := fun hmem => (first.fresh p hmem).elim hp (not_le.mpr hlt)
    rw [second.frame p (hlt.trans_le first.next_le) hp₁, first.frame p hlt hp]
  missing := second.missing.trans first.missing

/-- Growth of one part of a larger structure. -/
theorem Grown.within {as cs cs' bs : List NodePtr} (hgrown : Grown h cs h' cs')
    (htidy : Tidy h (as ++ (cs ++ bs))) : Grown h (as ++ (cs ++ bs)) h' (as ++ (cs' ++ bs)) := by
  obtain ⟨has, hcb, hacb⟩ := nodup_append'.mp htidy.nodup
  obtain ⟨-, hbs, hcbs⟩ := nodup_append'.mp hcb
  have hold : ∀ p ∈ cs', p < h.next → p ∈ cs := fun p hp hlt =>
    (hgrown.fresh p hp).resolve_right (not_le.mpr hlt)
  have hbelow : ∀ p ∈ as ++ (cs ++ bs), p < h'.next := fun p hp => (htidy.below p hp).trans_le hgrown.next_le
  refine ⟨⟨nodup_append'.mpr ⟨has, nodup_append'.mpr ⟨hgrown.tidy.nodup, hbs, ?_⟩, ?_⟩, ?_⟩, ?_,
    hgrown.next_le, ?_, hgrown.missing⟩
  · intro p hp hpb
    exact hcbs (hold p hp (htidy.below p (by simp [hpb]))) hpb
  · intro p hpa hp
    rcases mem_append.mp hp with hp | hp
    · exact hacb hpa (mem_append_left _ (hold p hp (htidy.below p (by simp [hpa]))))
    · exact hacb hpa (mem_append_right _ hp)
  · intro p hp
    simp only [mem_append] at hp
    rcases hp with hp | hp | hp
    · exact hbelow p (by simp [hp])
    · exact hgrown.tidy.below p hp
    · exact hbelow p (by simp [hp])
  · intro p hp
    simp only [mem_append] at hp ⊢
    rcases hp with hp | hp | hp
    · exact .inl (.inl hp)
    · exact (hgrown.fresh p hp).imp_left fun hp => .inr (.inl hp)
    · exact .inl (.inr (.inr hp))
  · intro p hlt hp
    simp only [mem_append, not_or] at hp
    exact hgrown.frame p hlt hp.2.1

/-- Some fresh nodes beside the old ones. -/
theorem Grown.of_perm {ptrs' new : List NodePtr} (htidy : Tidy h ptrs) (hperm : ptrs'.Perm (new ++ ptrs))
    (hnew : new.Nodup) (hfresh : ∀ p ∈ new, h.next ≤ p ∧ p < h'.next) (hnext : h.next ≤ h'.next)
    (hframe : ∀ p, p < h.next → p ∉ ptrs → h'.nodes p = h.nodes p) (hmissing : h'.missing = h.missing) :
    Grown h ptrs h' ptrs' := by
  refine ⟨⟨?_, fun p hp => ?_⟩, fun p hp => ?_, hnext, hframe, hmissing⟩
  · apply hperm.nodup_iff.mpr
    apply nodup_append'.mpr
    exact ⟨hnew, htidy.nodup, fun p hp hold => (hfresh p hp).1.not_gt (htidy.below p hold)⟩
  · rcases mem_append.mp (hperm.mem_iff.mp hp) with hp | hp
    · exact (hfresh p hp).2
    · exact (htidy.below p hp).trans_le hnext
  · rcases mem_append.mp (hperm.mem_iff.mp hp) with hp | hp
    · exact .inr (hfresh p hp).1
    · exact .inl hp

/-! ### A node with its children -/

/-- The node at `p` has these keys and subtrees. -/
structure InnerAt (h : Heap) (t level : Nat) (p : NodePtr) (keys : List Int) (kids : List Summary) :
    Prop where
  node : ∃ node, h.nodes p = some node ∧ NodeIs t node keys (childPtrs kids)
  kids : ∀ kid ∈ kids, Subtree h t level (t - 1) kid

/-- The node has room for one more key. -/
def Room (h : Heap) (t : Nat) (p : NodePtr) : Prop := ∃ node, h.nodes p = some node ∧ node.size < 2 * t - 1

theorem InnerAt.arity (hinner : InnerAt h t level p keys kids) :
    kids.length = keys.length + 1 := by
  obtain ⟨node, -, hnode⟩ := hinner.node
  rw [← hnode.arity, childPtrs, length_map]

theorem InnerAt.child (hinner : InnerAt h t level p keys (ls ++ c :: rs)) :
    h.child p ls.length = some (some c.p) := by
  obtain ⟨node, hp, hnode⟩ := hinner.node
  rw [Heap.child_eq hp]
  apply hnode.child_eq
  simp [childPtrs]

/-- One subtree has grown; the node and the other subtrees are as before. -/
theorem InnerAt.enter {c' : Summary} (hinner : InnerAt h t level p keys (ls ++ c :: rs))
    (htidy : Tidy h (p :: kidPtrs (ls ++ c :: rs))) (hp : c'.p = c.p) (hsub : Subtree h' t level (t - 1) c')
    (hgrown : Grown h c.ptrs h' c'.ptrs) :
    InnerAt h' t level p keys (ls ++ c' :: rs) ∧
      Grown h (p :: kidPtrs (ls ++ c :: rs)) h' (p :: kidPtrs (ls ++ c' :: rs)) := by
  have hsplit : ∀ d : Summary, p :: kidPtrs (ls ++ d :: rs) =
      (p :: kidPtrs ls) ++ (d.ptrs ++ kidPtrs rs) := by
    intro d
    simp [kidPtrs]
  rw [hsplit] at htidy
  obtain ⟨-, hcr, hdisjoint⟩ := nodup_append'.mp htidy.nodup
  obtain ⟨-, -, hcr⟩ := nodup_append'.mp hcr
  have hkeep : ∀ q ∈ p :: kidPtrs ls ++ kidPtrs rs, h'.nodes q = h.nodes q := by
    intro q hq
    rcases mem_append.mp hq with hq | hq
    · apply hgrown.frame q (htidy.below q (mem_append_left _ hq))
      exact fun hc => hdisjoint hq (mem_append_left _ hc)
    · apply hgrown.frame q (htidy.below q (mem_append_right _ (mem_append_right _ hq)))
      exact fun hc => hcr hc hq
  refine ⟨⟨?_, fun kid hkid => ?_⟩, ?_⟩
  · obtain ⟨node, hnode⟩ := hinner.node
    refine ⟨node, (hkeep p (by simp)).trans hnode.1, ?_⟩
    have hptrs : childPtrs (ls ++ c' :: rs) = childPtrs (ls ++ c :: rs) := by simp [childPtrs, hp]
    rw [hptrs]
    exact hnode.2
  · simp only [mem_append, mem_cons] at hkid
    rcases hkid with hkid | rfl | hkid
    · apply (hinner.kids kid (by simp [hkid])).congr
      exact fun q hq => hkeep q (by simp [mem_kidPtrs hkid hq])
    · exact hsub
    · apply (hinner.kids kid (by simp [hkid])).congr
      exact fun q hq => hkeep q (by simp [mem_kidPtrs hkid hq])
  · rw [hsplit, hsplit]
    exact hgrown.within htidy

/-! ### The halves of a full subtree -/

/-- A list cut at one of its places. -/
theorem exists_cut {α : Type} {xs : List α} {i : Nat} (hi : i < xs.length) :
    ∃ as x bs, xs = as ++ x :: bs ∧ as.length = i := by
  refine ⟨xs.take i, xs[i], xs.drop (i + 1), ?_, length_take_of_le hi.le⟩
  rw [getElem_cons_drop, take_append_drop]

/-- A list with an odd number of elements around its middle. -/
theorem exists_median (ht : 1 ≤ t) (hlen : keys.length = 2 * t - 1) :
    ∃ low m high, keys = low ++ m :: high ∧ low.length = t - 1 ∧ high.length = t - 1 := by
  obtain ⟨low, m, high, rfl, hlow⟩ := @exists_cut _ keys (t - 1) (by omega)
  rw [length_append, length_cons] at hlen
  exact ⟨low, m, high, rfl, hlow, by omega⟩

theorem exists_halves {α : Type} {xs : List α} (hlen : xs.length = 2 * t) :
    ∃ cs ds, xs = cs ++ ds ∧ cs.length = t ∧ ds.length = t :=
  ⟨xs.take t, xs.drop t, (take_append_drop t xs).symm, by simp; omega, by simp; omega⟩

/-- The node of a full subtree, and the two subtrees that it gives when its upper half goes to `q`. -/
theorem Subtree.halves (ht : HalfDegree t) (hsub : Subtree h t level least s) (hnodup : s.ptrs.Nodup)
    (hfull : ∀ node, h.nodes s.p = some node → isFull t node = true) :
    ∃ node low m high cs ds, h.nodes s.p = some node ∧ NodeIs t node (low ++ m :: high) (cs ++ ds) ∧
      low.length = t - 1 ∧ high.length = t - 1 ∧ cs.length = t ∧
      ∀ (h' : Heap) (q : NodePtr), h'.nodes s.p = some { node with size := t - 1 } →
        h'.nodes q = some { upperNode t high ds with size := t - 1 } →
        (∀ p ∈ s.ptrs, p ≠ s.p → h'.nodes p = h.nodes p) →
        ∃ s₁ s₂ : Summary, s₁.p = s.p ∧ s₂.p = q ∧ Subtree h' t level (t - 1) s₁ ∧
          Subtree h' t level (t - 1) s₂ ∧
          s.keys = s₁.keys ++ m :: s₂.keys ∧ (s₁.ptrs ++ s₂.ptrs).Perm (q :: s.ptrs) := by
  have hone := ht.one_le
  cases hsub with
  | @leaf _ _ node cs hp hnode hleast hmost hnull hptrs =>
    have hlen := (hnode.isFull_iff ht).mp (hfull node hp)
    obtain ⟨low, m, high, hkeys, hlow, hhigh⟩ := exists_median (by omega) hlen
    obtain ⟨cs, ds, rfl, hcs, hds⟩ := exists_halves (t := t) (hnode.arity.trans (by omega))
    rw [hkeys] at hnode
    refine ⟨node, low, m, high, cs, ds, hp, hnode, hlow, hhigh, hcs, fun h' q hp' hq' _ => ?_⟩
    have hlower := nodeIs_lower hnode (by omega)
    rw [hlow] at hlower
    refine ⟨⟨s.p, low, [s.p]⟩, ⟨q, high, [q]⟩, rfl, rfl, .leaf hp' hlower hlow.ge hlower.length_le hnull rfl,
      ?_, hkeys, ?_⟩
    · have hupper := nodeIs_upper hhigh (by omega) hds
      refine .leaf hq' hupper hhigh.ge hupper.length_le (fun c hc => ?_) rfl
      rcases mem_append.mp hc with hc | hc
      · obtain ⟨rest, hchildren⟩ := hnode.children
        exact hnull c (by simp [hchildren, hc])
      · exact (mem_replicate.mp hc).2
    · rw [hptrs]
      exact List.Perm.swap q s.p []
  | @inner level _ _ node keys kids hp hnode hleast hmost hkids hkeys hptrs =>
    have hlen := (hnode.isFull_iff ht).mp (hfull node hp)
    obtain ⟨low, m, high, rfl, hlow, hhigh⟩ := exists_median (by omega) hlen
    have harity := hnode.arity
    rw [childPtrs, length_map] at harity
    obtain ⟨cs, ds, rfl, hcs, hds⟩ := exists_halves (t := t) (harity.trans (by omega))
    have hnode' : NodeIs t node (low ++ m :: high) (childPtrs cs ++ childPtrs ds) := by
      rw [childPtrs, childPtrs, ← map_append]
      exact hnode
    have hclen : (childPtrs cs).length = t := by rw [childPtrs, length_map, hcs]
    have hdlen : (childPtrs ds).length = t := by rw [childPtrs, length_map, hds]
    refine ⟨node, low, m, high, childPtrs cs, childPtrs ds, hp, hnode', hlow, hhigh, hclen,
      fun h' q hp' hq' hrest => ?_⟩
    have hlower := nodeIs_lower hnode' (by omega)
    rw [hlow] at hlower
    -- the root is not among the nodes below it, so these are as before
    rw [hptrs] at hnodup
    have hkids' : ∀ kid ∈ cs ++ ds, Subtree h' t level (t - 1) kid := by
      intro kid hkid
      apply (hkids kid hkid).congr
      intro r hr
      have hmem := mem_kidPtrs hkid hr
      apply hrest r
      · rw [hptrs]
        exact mem_cons_of_mem _ hmem
      · rintro rfl
        exact (nodup_cons.mp hnodup).1 hmem
    refine ⟨⟨s.p, interleave (kidKeys cs) low, s.p :: kidPtrs cs⟩,
      ⟨q, interleave (kidKeys ds) high, q :: kidPtrs ds⟩, rfl, rfl, ?_, ?_, ?_, ?_⟩
    · exact .inner hp' hlower hlow.ge hlower.length_le (fun kid hkid => hkids' kid (mem_append_left _ hkid))
        rfl rfl
    · have hupper := nodeIs_upper hhigh (by omega) hdlen
      exact .inner hq' hupper hhigh.ge hupper.length_le
        (fun kid hkid => hkids' kid (mem_append_right _ hkid)) rfl rfl
    · rw [hkeys, kidKeys, map_append]
      apply interleave_append
      rw [length_map]
      omega
    · rw [hptrs]
      have hmap : kidPtrs (cs ++ ds) = kidPtrs cs ++ kidPtrs ds := by simp [kidPtrs]
      rw [hmap, cons_append]
      apply (List.Perm.cons s.p perm_middle).trans
      exact List.Perm.swap q s.p _

/-! ### `halveChild` -/

/-- The three nodes that `halveChild` writes to. -/
theorem halveChild_nodes (ht : HalfDegree t) {c : NodePtr} {cnode : BTreeNode} {clow chigh : List Int}
    {as bs : List (Option NodePtr)} (hp : h.nodes p = some node)
    (hnode : NodeIs t node (low ++ high) (as ++ some c :: bs)) (has : as.length = low.length)
    (hroom : (low ++ high).length < 2 * t - 1) (hc : h.nodes c = some cnode)
    (hcnode : NodeIs t cnode (clow ++ m :: chigh) (cs ++ ds)) (hclow : clow.length = t - 1)
    (hchigh : chigh.length = t - 1) (hcs : cs.length = t) (hpc : p ≠ c) (hpq : p ≠ h.next)
    (hcq : c ≠ h.next) : ∃ h' node', halveChild t h p low.length = some h' ∧ h'.nodes p = some node' ∧
      NodeIs t node' (low ++ m :: high) (as ++ some c :: some h.next :: bs) ∧
      h'.nodes c = some { cnode with size := t - 1 } ∧
      h'.nodes h.next = some { upperNode t chigh ds with size := t - 1 } ∧
      (∀ x, x ≠ p → x ≠ c → x ≠ h.next → h'.nodes x = h.nodes x) ∧ h'.next = h.next + 1 ∧
      h'.missing = h.missing := by
  have hfits := ht.fits
  have hidx : sizeAdd low.length 1 = low.length + 1 := by
    apply sizeAdd_eq
    rw [length_append] at hroom
    omega
  have hchild : h.child p low.length = some (some c) := by
    rw [Heap.child_eq hp]
    apply hnode.child_eq
    rw [← has, getElem?_append_right le_rfl, Nat.sub_self]
    rfl
  -- the upper half of the child goes to the new one
  have hnew : ∀ x, x ≠ h.next → ({ h with next := h.next + 1 }.write h.next (emptyNode t)).nodes x =
      h.nodes x :=
    fun x hx => Heap.write_nodes_of_ne hx
  obtain ⟨h₁, h₂, -, h₃, hmove, hsize₁, hsize₂, -, -, hc₃, hq₃, hmedian, hsame₃, hnext, hmissing⟩ :=
    moveTail_halve ht ((hnew c hcq).trans hc) (Heap.write_nodes_same ..) hcq hcnode hclow hchigh hcs
  -- the median and the new child go to the node
  obtain ⟨w, rest, crest, hgap, hnode', -⟩ :=
    moveTail_gap ht (((hsame₃ p hpc hpq).trans (hnew p hpq)).trans hp) hnode has hroom
  rw [hidx] at hgap
  have hchildren : store (as ++ some c :: some c :: (bs ++ crest)) (low.length + 1) (some h.next) =
      some (as ++ some c :: some h.next :: (bs ++ crest)) := by
    have := store_append (as ++ [some c]) (bs ++ crest) (some c) (some h.next)
    rw [length_append, has] at this
    simpa using this
  refine ⟨_, _, ?_, Heap.write_nodes_same h₃ p _, hnode' m (some h.next), ?_, ?_, ?_, hnext, hmissing⟩
  · simp only [halveChild, hchild, join_some, bind_eq_bind, bind_some, createNode_eq ht, hmove,
      ht.minSize, hsize₁, hsize₂,
      hidx, hgap, Heap.value_write_of_ne hpc.symm, hmedian, Heap.storeValue_write, store_append, map_some,
      Heap.storeChild_write, hchildren, Heap.write_nodes_same, Heap.setSize_write]
  · rw [Heap.write_nodes_of_ne hpc.symm, hc₃]
  · rw [Heap.write_nodes_of_ne hpq.symm, hq₃]
  · intro x hxp hxc hxq
    rw [Heap.write_nodes_of_ne hxp, hsame₃ x hxc hxq, hnew x hxq]

/-- The full child gives two, with its median between them among the keys of the node. -/
theorem halveChild_spec (ht : HalfDegree t) (hinner : InnerAt h t level p (low ++ high) (ls ++ c :: rs))
    (hls : ls.length = low.length) (hroom : Room h t p) (htidy : Tidy h (p :: kidPtrs (ls ++ c :: rs)))
    (hfull : ∀ node, h.nodes c.p = some node → isFull t node = true) :
    ∃ h' m c₁ c₂, halveChild t h p low.length = some h' ∧
      InnerAt h' t level p (low ++ m :: high) (ls ++ c₁ :: c₂ :: rs) ∧ h'.value p low.length = some m ∧
      c.keys = c₁.keys ++ m :: c₂.keys ∧ Room h' t c₁.p ∧ Room h' t c₂.p ∧
      Grown h (p :: kidPtrs (ls ++ c :: rs)) h' (p :: kidPtrs (ls ++ c₁ :: c₂ :: rs)) := by
  have hone := ht.one_le
  obtain ⟨node, hp, hnode⟩ := hinner.node
  have hc := hinner.kids c (by simp)
  have hsplit : p :: kidPtrs (ls ++ c :: rs) = (p :: kidPtrs ls) ++ (c.ptrs ++ kidPtrs rs) := by
    simp [kidPtrs]
  have hnodup := htidy.nodup
  rw [hsplit] at hnodup
  obtain ⟨-, hcr, hdisjoint⟩ := nodup_append'.mp hnodup
  obtain ⟨hcnodup, -, hcr⟩ := nodup_append'.mp hcr
  obtain ⟨cnode, clow, m, chigh, cs, ds, hcp, hcnode, hlow, hhigh, hcs, hhalves⟩ :=
    hc.halves ht hcnodup hfull
  have hcmem : c.p ∈ p :: kidPtrs (ls ++ c :: rs) := by
    rw [hsplit]
    exact mem_append_right _ (mem_append_left _ hc.root_mem)
  have hpc : p ≠ c.p := by
    intro heq
    exact hdisjoint mem_cons_self (mem_append_left _ (heq ▸ hc.root_mem))
  have hlen : (low ++ high).length < 2 * t - 1 := by
    obtain ⟨node', hp', hlt⟩ := hroom
    rw [hp] at hp'
    rw [← hnode.size, some.inj hp']
    exact hlt
  have hptrs : childPtrs (ls ++ c :: rs) = childPtrs ls ++ some c.p :: childPtrs rs := by simp [childPtrs]
  rw [hptrs] at hnode
  obtain ⟨h', node', hrun, hp', hnode', hc', hq', hsame, hnext, hmissing⟩ :=
    halveChild_nodes ht hp hnode (by rw [childPtrs, length_map, hls]) hlen hcp hcnode hlow hhigh hcs hpc
      (htidy.below p mem_cons_self).ne (htidy.below c.p hcmem).ne
  -- away from the three nodes, the heap is as before
  have hold : ∀ q ∈ p :: kidPtrs (ls ++ c :: rs), q ≠ p → q ≠ c.p → h'.nodes q = h.nodes q :=
    fun q hq hqp hqc => hsame q hqp hqc (htidy.below q hq).ne
  obtain ⟨c₁, c₂, hp₁, hp₂, hsub₁, hsub₂, hkeys, hperm⟩ := hhalves h' h.next hc' hq' fun q hq hqc => by
    apply hold q _ _ hqc
    · rw [hsplit]
      exact mem_append_right _ (mem_append_left _ hq)
    · rintro rfl
      exact hdisjoint mem_cons_self (mem_append_left _ hq)
  have hside : ∀ kid ∈ ls ++ rs, Subtree h' t level (t - 1) kid := by
    intro kid hkid
    have hmem : kid ∈ ls ++ c :: rs := by
      rcases mem_append.mp hkid with hkid | hkid <;> simp [hkid]
    apply (hinner.kids kid hmem).congr
    intro q hq
    have hqmem := mem_kidPtrs hmem hq
    apply hold q (mem_cons_of_mem p hqmem)
    · rintro rfl
      exact (nodup_cons.mp htidy.nodup).1 hqmem
    · rintro rfl
      rcases mem_append.mp hkid with hkid | hkid
      · exact hdisjoint (mem_cons_of_mem p (mem_kidPtrs hkid hq)) (mem_append_left _ hc.root_mem)
      · exact hcr hc.root_mem (mem_kidPtrs hkid hq)
  refine ⟨h', m, c₁, c₂, hrun, ⟨⟨node', hp', ?_⟩, fun kid hkid => ?_⟩, ?_, hkeys, ?_, ?_, ?_⟩
  · have hptrs' : childPtrs (ls ++ c₁ :: c₂ :: rs) = childPtrs ls ++ some c.p :: some h.next ::
        childPtrs rs := by
      simp [childPtrs, hp₁, hp₂]
    rw [hptrs']
    exact hnode'
  · simp only [mem_append, mem_cons] at hkid
    rcases hkid with hkid | rfl | rfl | hkid
    · exact hside kid (mem_append_left _ hkid)
    · exact hsub₁
    · exact hsub₂
    · exact hside kid (mem_append_right _ hkid)
  · obtain ⟨rest, hvalues⟩ := hnode'.values
    rw [Heap.value_eq hp', hvalues]
    simp
  · exact ⟨_, hp₁ ▸ hc', by simp only; omega⟩
  · exact ⟨_, hp₂ ▸ hq', by simp only; omega⟩
  · have hsplit' : p :: kidPtrs (ls ++ c₁ :: c₂ :: rs) =
        (p :: kidPtrs ls) ++ ((c₁.ptrs ++ c₂.ptrs) ++ kidPtrs rs) := by simp [kidPtrs]
    have hgrow : (p :: kidPtrs (ls ++ c₁ :: c₂ :: rs)).Perm
        ([h.next] ++ (p :: kidPtrs (ls ++ c :: rs))) := by
      rw [hsplit', hsplit]
      exact ((hperm.append_right _).append_left _).trans perm_middle
    apply Grown.of_perm htidy hgrow (nodup_singleton _)
    · intro q hq
      rw [mem_singleton.mp hq, hnext]
      exact ⟨le_rfl, Nat.lt_succ_self _⟩
    · rw [hnext]
      exact Nat.le_succ _
    · intro q hlt hq
      apply hsame q _ _ hlt.ne
      · rintro rfl
        exact hq mem_cons_self
      · rintro rfl
        exact hq hcmem
    · exact hmissing

/-! ### `halveRoot` -/

/-- The three nodes that `halveRoot` writes to. -/
theorem halveRoot_nodes (ht : HalfDegree tree.t) (hroot : tree.root = some p) (hp : h.nodes p = some node)
    (hnode : NodeIs tree.t node (low ++ m :: high) (cs ++ ds)) (hlow : low.length = tree.t - 1)
    (hhigh : high.length = tree.t - 1) (hcs : cs.length = tree.t) (hlt : p < h.next) :
    ∃ h' root, halveRoot tree h = some ({ tree with root := some h.next, height := tree.height + 1 }, h') ∧
      h'.nodes h.next = some root ∧ NodeIs tree.t root [m] [some p, some (h.next + 1)] ∧
      h'.nodes p = some { node with size := tree.t - 1 } ∧
      h'.nodes (h.next + 1) = some { upperNode tree.t high ds with size := tree.t - 1 } ∧
      (∀ x, x ≠ p → x < h.next → h'.nodes x = h.nodes x) ∧ h'.next = h.next + 2 ∧
        h'.missing = h.missing := by
  have hone := ht.one_le
  have hpr : p ≠ h.next := hlt.ne
  have hpq : p ≠ h.next + 1 := (hlt.trans (Nat.lt_succ_self _)).ne
  have hrq : h.next ≠ h.next + 1 := (Nat.lt_succ_self _).ne
  -- the new root and the new child
  obtain ⟨h₀, hh₀⟩ : ∃ h₀, h₀ = (createNode tree.t (createNode tree.t h).2).2 := ⟨_, rfl⟩
  have hcreate : createNode tree.t (createNode tree.t h).2 = (h.next + 1, h₀) := by
    rw [hh₀, createNode_eq ht, createNode_eq ht]
    rfl
  have hr₀ : h₀.nodes h.next = some (emptyNode tree.t) := by
    rw [hh₀, createNode_eq ht, createNode_eq ht]
    exact (Heap.write_nodes_of_ne hrq).trans (Heap.write_nodes_same ..)
  have hq₀ : h₀.nodes (h.next + 1) = some (emptyNode tree.t) := by
    rw [hh₀, createNode_eq ht, createNode_eq ht]
    exact Heap.write_nodes_same ..
  have hsame₀ : ∀ x, x < h.next → h₀.nodes x = h.nodes x := by
    intro x hx
    rw [hh₀, createNode_eq ht, createNode_eq ht]
    exact (Heap.write_nodes_of_ne (hx.trans (Nat.lt_succ_self _)).ne).trans (Heap.write_nodes_of_ne hx.ne)
  -- the upper half of the old root goes to the new child
  obtain ⟨h₁, -, h₂, h₃, hmove, -, -, hsize₁, hsize₂, hp₃, hq₃, hmedian, hsame₃, hnext, hmissing⟩ :=
    moveTail_halve ht ((hsame₀ p hlt).trans hp) hq₀ hpq hnode hlow hhigh hcs
  have hr₃ := (hsame₃ h.next hpr.symm hrq).trans hr₀
  -- the median and the two children go to the new root
  obtain ⟨k, hk⟩ : ∃ k, tree.t = k + 1 := ⟨tree.t - 1, by omega⟩
  have hempty : emptyNode tree.t =
      ⟨0 :: List.replicate (2 * k) 0, none :: none :: List.replicate (2 * k) none, 0⟩ := by
    rw [emptyNode, hk]
    rfl
  rw [hempty] at hr₃
  have hvalue := store_append [] (List.replicate (2 * k) 0) 0 m
  have hchild₁ := store_append [] (none :: List.replicate (2 * k) none) none (some p)
  have hchild₂ := store_append [some p] (List.replicate (2 * k) none) none (some (h.next + 1))
  simp only [nil_append, length_nil, length_singleton, cons_append] at hvalue hchild₁ hchild₂
  refine ⟨_, _, ?_, Heap.write_nodes_same h₃ h.next
    ⟨m :: List.replicate (2 * k) 0, some p :: some (h.next + 1) :: List.replicate (2 * k) none, 1⟩,
      ?_, ?_, ?_, ?_, ?_⟩
  · have hfirst : (createNode tree.t h).1 = h.next := rfl
    simp only [halveRoot, hroot, bind_eq_bind, bind_some, hcreate, hfirst, hmove, ht.minSize, hsize₁, hsize₂,
      hmedian, Heap.storeValue, hr₃, hvalue, Heap.storeChild_write, hchild₁, hchild₂, map_some,
        Heap.setSize_write,
      Option.pure_def]
  · refine ⟨rfl, ⟨_, rfl⟩, ⟨_, rfl⟩, ?_, ?_, rfl⟩
    · simp only [length_cons, length_replicate]
      omega
    · simp only [length_cons, length_replicate]
      omega
  · rw [Heap.write_nodes_of_ne hpr, hp₃]
  · rw [Heap.write_nodes_of_ne hrq.symm, hq₃]
  · intro x hxp hx
    rw [Heap.write_nodes_of_ne hx.ne, hsame₃ x hxp (hx.trans (Nat.lt_succ_self _)).ne, hsame₀ x hx]
  · rw [Heap.write_next, Heap.write_missing, hnext, hmissing, hh₀, createNode_eq ht, createNode_eq ht]
    exact ⟨rfl, rfl⟩

/-- The full root gives two nodes under a new root with one key. -/
theorem halveRoot_spec (ht : HalfDegree tree.t) (htwo : 2 ≤ tree.t) (hroot : tree.root = some s.p)
    (hsub : Subtree h tree.t level least s) (htidy : Tidy h s.ptrs)
    (hfull : ∀ node, h.nodes s.p = some node → isFull tree.t node = true) :
    ∃ h' s', halveRoot tree h = some ({ tree with root := some s'.p, height := tree.height + 1 }, h') ∧
      Subtree h' tree.t (level + 1) 1 s' ∧ s'.keys = s.keys ∧ Room h' tree.t s'.p ∧
        Grown h s.ptrs h' s'.ptrs := by
  obtain ⟨node, low, m, high, cs, ds, hp, hnode, hlow, hhigh, hcs, hhalves⟩ :=
    hsub.halves ht htidy.nodup hfull
  have hlt := htidy.below s.p hsub.root_mem
  obtain ⟨h', root, hrun, hr', hroot', hp', hq', hsame, hnext, hmissing⟩ :=
    halveRoot_nodes ht hroot hp hnode hlow hhigh hcs hlt
  obtain ⟨s₁, s₂, hp₁, hp₂, hsub₁, hsub₂, hkeys, hperm⟩ :=
    hhalves h' (h.next + 1) hp' hq' fun q hq hqp => hsame q hqp (htidy.below q hq)
  refine ⟨h', ⟨h.next, interleave (kidKeys [s₁, s₂]) [m], h.next :: kidPtrs [s₁, s₂]⟩, hrun, ?_, ?_, ?_, ?_⟩
  · refine @Subtree.inner h' tree.t level 1 _ root [m] [s₁, s₂] hr' ?_ le_rfl hroot'.length_le
      (fun kid hkid => ?_) rfl rfl
    · simpa [childPtrs, hp₁, hp₂] using hroot'
    · rcases mem_pair.mp hkid with rfl | rfl
      · exact hsub₁
      · exact hsub₂
  · rw [hkeys]
    rfl
  · refine ⟨root, hr', ?_⟩
    rw [hroot'.size, length_singleton]
    omega
  · have hgrow : (h.next :: kidPtrs [s₁, s₂]).Perm ([h.next, h.next + 1] ++ s.ptrs) := by
      have : kidPtrs [s₁, s₂] = s₁.ptrs ++ s₂.ptrs := by simp [kidPtrs]
      rw [this]
      exact hperm.cons h.next
    apply Grown.of_perm htidy hgrow
    · simp
    · intro q hq
      rw [hnext]
      rcases mem_pair.mp hq with rfl | rfl
      · exact ⟨le_rfl, Nat.lt_add_of_pos_right Nat.two_pos⟩
      · exact ⟨Nat.le_succ _, Nat.lt_succ_self _⟩
    · rw [hnext]
      exact Nat.le_add_right _ 2
    · intro q hq hmem
      apply hsame q _ hq
      rintro rfl
      exact hmem hsub.root_mem
    · exact hmissing

end NsuLabs.BTreeInsertion
