/-
Module: NsuLabs.HashMap.Proofs.AvlOrder
Purpose: The AVL tree is an ordered set.
Trusted boundary: none
Main exports: Restored, avlRun_refines_orderedSet
-/
import NsuLabs.Lib.OrderedList
import NsuLabs.HashMap.HashMap

namespace NsuLabs.HashMap

open Lib AVLNode List
open Option hiding or_assoc toList

universe u v

variable {α : Type u}

/-- Every stored `depth` is the true height of its subtree. -/
def DepthsExact : AVLNode α → Prop
  | null => True
  | node _ leftChild rightChild depth =>
    depth = ((max leftChild.height rightChild.height + 1 : Nat) : Int) ∧
      DepthsExact leftChild ∧ DepthsExact rightChild

/-- The node over two subtrees whose stored depth is exact. -/
def ofChildren (data : α) (l r : AVLNode α) : AVLNode α :=
  node data l r ((max l.height r.height + 1 : Nat) : Int)

@[simp] theorem height_ofChildren (data : α) (l r : AVLNode α) :
    (ofChildren data l r).height = max l.height r.height + 1 := rfl

@[simp] theorem toList_ofChildren (data : α) (l r : AVLNode α) :
    (ofChildren data l r).toList = l.toList ++ data :: r.toList := rfl

@[simp] theorem depthsExact_ofChildren {data : α} {l r : AVLNode α} :
    DepthsExact (ofChildren data l r) ↔ DepthsExact l ∧ DepthsExact r := by
  simp [ofChildren, DepthsExact]

variable {t : AVLNode α}

theorem getDepth_eq_height (h : DepthsExact t) : getDepth t = t.height := by
  cases t with
  | null => rfl
  | node data l r depth => exact h.1

/-- A nonempty subtree with exact depths is `ofChildren` of its parts. -/
theorem exists_ofChildren (h : DepthsExact t) (ht : 0 < t.height) :
    ∃ data l r, t = ofChildren data l r ∧ DepthsExact l ∧ DepthsExact r := by
  cases t with
  | null => simp [height] at ht
  | node data l r depth =>
    obtain ⟨hdepth, hl, hr⟩ := h
    exact ⟨data, l, r, by rw [ofChildren, hdepth], hl, hr⟩

variable {depth : Int}

theorem updateDepth_node {data : α} {l r : AVLNode α} (hl : DepthsExact l) (hr : DepthsExact r) :
    updateDepth (node data l r depth) = some (ofChildren data l r) := by
  have hmax : 1 + max2 (getDepth l) (getDepth r) = ((max l.height r.height + 1 : Nat) : Int) := by
    rw [getDepth_eq_height hl, getDepth_eq_height hr, max2]
    split <;> omega
  rw [updateDepth, ofChildren, hmax]

/-! ### What restoring a node can do -/

/-- The five outcomes of `updateDepth` followed by `rebalance` on a node with data `x` over subtrees
    `l` and `r`, with the heights that select each. -/
inductive Restored (x : α) (l r : AVLNode α) : AVLNode α → Prop where
  | keep (hl : l.height ≤ r.height + 1) (hr : r.height ≤ l.height + 1) :
      Restored x l r (ofChildren x l r)
  | rotateRight (b : α) (bl br : AVLNode α) (hb : l = ofChildren b bl br)
      (heavy : r.height + 1 < l.height) (outer : br.height < bl.height) :
      Restored x l r (ofChildren b bl (ofChildren x br r))
  | rotateLeftRight (b c : α) (bl cl cr : AVLNode α) (hb : l = ofChildren b bl (ofChildren c cl cr))
      (heavy : r.height + 1 < l.height) (inner : bl.height ≤ (ofChildren c cl cr).height) :
      Restored x l r (ofChildren c (ofChildren b bl cl) (ofChildren x cr r))
  | rotateLeft (b : α) (bl br : AVLNode α) (hb : r = ofChildren b bl br)
      (heavy : l.height + 1 < r.height) (outer : bl.height < br.height) :
      Restored x l r (ofChildren b (ofChildren x l bl) br)
  | rotateRightLeft (b c : α) (cl cr br : AVLNode α) (hb : r = ofChildren b (ofChildren c cl cr) br)
      (heavy : l.height + 1 < r.height) (inner : br.height ≤ (ofChildren c cl cr).height) :
      Restored x l r (ofChildren c (ofChildren x l cl) (ofChildren b cr br))

theorem getBalanceFactor_ofChildren (data : α) {l r : AVLNode α}
    (hl : DepthsExact l) (hr : DepthsExact r) :
    getBalanceFactor (ofChildren data l r) = (r.height : Int) - l.height := by
  rw [ofChildren, getBalanceFactor, getDepth_eq_height hl, getDepth_eq_height hr]

variable {x : α}

/-- `rotateRight` reads only the children of its argument, not its stored depth. -/
theorem rotateRight_node {b : α} {bl br r : AVLNode α}
    (hbl : DepthsExact bl) (hbr : DepthsExact br) (hr : DepthsExact r) :
    rotateRight (node x (ofChildren b bl br) r depth) =
      some (ofChildren b bl (ofChildren x br r)) := by
  simp only [ofChildren, HashMap.rotateRight]
  rw [updateDepth_node hbr hr, bind_eq_bind, bind_some]
  exact updateDepth_node hbl (depthsExact_ofChildren.2 ⟨hbr, hr⟩)

theorem rotateLeft_node {b : α} {l bl br : AVLNode α}
    (hl : DepthsExact l) (hbl : DepthsExact bl) (hbr : DepthsExact br) :
    rotateLeft (node x l (ofChildren b bl br) depth) =
      some (ofChildren b (ofChildren x l bl) br) := by
  simp only [ofChildren, HashMap.rotateLeft]
  rw [updateDepth_node hl hbl, bind_eq_bind, bind_some]
  exact updateDepth_node (depthsExact_ofChildren.2 ⟨hl, hbl⟩) hbr

/-- On exact children the true heights choose the rotation. -/
theorem restore_node {l r : AVLNode α} (hl : DepthsExact l) (hr : DepthsExact r) :
    restore (node x l r depth) =
      let cur := ofChildren x l r
      if r.height + 1 < l.height then if getBalanceFactor l < 0 then rotateRight cur else rotateLeftRight cur
      else if l.height + 1 < r.height then if getBalanceFactor r > 0 then rotateLeft cur
        else rotateRightLeft cur
      else some cur := by
  have hfactor := getBalanceFactor_ofChildren x hl hr
  rw [restore, updateDepth_node hl hr, bind_eq_bind, bind_some]
  rw [ofChildren] at hfactor ⊢
  simp only [rebalance, hfactor]
  exact if_congr (by omega) rfl (if_congr (by omega) rfl rfl)

/-- On exact children `restore` never fails and its result is one of the five of `Restored`. -/
theorem restore_spec (x : α) (depth : Int) {l r : AVLNode α} (hl : DepthsExact l) (hr : DepthsExact r) :
    ∃ t, restore (node x l r depth) = some t ∧ Restored x l r t := by
  rw [restore_node hl hr]
  dsimp only
  split_ifs with hleft houter hright houter
  · obtain ⟨b, bl, br, rfl, hbl, hbr⟩ := exists_ofChildren hl (by omega)
    rw [getBalanceFactor_ofChildren b hbl hbr] at houter
    exact ⟨_, rotateRight_node hbl hbr hr, .rotateRight b bl br rfl hleft (by omega)⟩
  · obtain ⟨b, bl, br, rfl, hbl, hbr⟩ := exists_ofChildren hl (by omega)
    rw [getBalanceFactor_ofChildren b hbl hbr] at houter
    -- the heavy child is balanced or leans inwards: its inner child is a node
    obtain ⟨c, cl, cr, rfl, hcl, hcr⟩ := exists_ofChildren hbr (by rw [height_ofChildren] at hleft; omega)
    refine ⟨_, ?_, .rotateLeftRight b c bl cl cr rfl hleft (by omega)⟩
    rw [ofChildren, HashMap.rotateLeftRight, ofChildren, rotateLeft_node hbl hcl hcr, bind_eq_bind,
      bind_some]
    exact rotateRight_node (depthsExact_ofChildren.2 ⟨hbl, hcl⟩) hcr hr
  · obtain ⟨b, bl, br, rfl, hbl, hbr⟩ := exists_ofChildren hr (by omega)
    rw [getBalanceFactor_ofChildren b hbl hbr] at houter
    exact ⟨_, rotateLeft_node hl hbl hbr, .rotateLeft b bl br rfl hright (by omega)⟩
  · obtain ⟨b, bl, br, rfl, hbl, hbr⟩ := exists_ofChildren hr (by omega)
    rw [getBalanceFactor_ofChildren b hbl hbr] at houter
    obtain ⟨c, cl, cr, rfl, hcl, hcr⟩ := exists_ofChildren hbl (by rw [height_ofChildren] at hright; omega)
    refine ⟨_, ?_, .rotateRightLeft b c cl cr br rfl hright (by omega)⟩
    rw [ofChildren, HashMap.rotateRightLeft, ofChildren, rotateRight_node hcl hcr hbr, bind_eq_bind,
      bind_some]
    exact rotateLeft_node hl hcl (depthsExact_ofChildren.2 ⟨hcr, hbr⟩)
  · exact ⟨_, rfl, .keep (by omega) (by omega)⟩

theorem restored_of_restore {l r : AVLNode α} (hl : DepthsExact l) (hr : DepthsExact r)
    (h : restore (node x l r depth) = some t) : Restored x l r t := by
  obtain ⟨t', hrun, hrestored⟩ := restore_spec x depth hl hr
  exact some.inj (hrun.symm.trans h) ▸ hrestored

namespace Restored

variable {x : α} {l r t : AVLNode α}

theorem toList_eq (h : Restored x l r t) : t.toList = l.toList ++ x :: r.toList := by
  cases h with
  | keep => rfl
  | rotateRight b bl br hb | rotateLeftRight b c bl cl cr hb | rotateLeft b bl br hb => simp [hb]
  | rotateRightLeft b c cl cr br hb => simp [hb]

theorem depthsExact (h : Restored x l r t) (hl : DepthsExact l) (hr : DepthsExact r) :
    DepthsExact t := by
  cases h with
  | keep => simp [hl, hr]
  | rotateRight b bl br hb | rotateLeftRight b c bl cl cr hb =>
    simp only [hb, depthsExact_ofChildren] at hl
    simp [hl, hr]
  | rotateLeft b bl br hb | rotateRightLeft b c cl cr br hb =>
    simp only [hb, depthsExact_ofChildren] at hr
    simp [hl, hr]

end Restored

/-- The two facts every caller of `restore` needs about the traversal and the depths. -/
theorem restore_toList (x : α) (depth : Int) {l r : AVLNode α} (hl : DepthsExact l) (hr : DepthsExact r) :
    ∃ t, restore (node x l r depth) = some t ∧ DepthsExact t ∧ t.toList = l.toList ++ x :: r.toList := by
  obtain ⟨t, ht, hrestored⟩ := restore_spec x depth hl hr
  exact ⟨t, ht, hrestored.depthsExact hl hr, hrestored.toList_eq⟩

/-! ### The three operations on the traversal -/

variable {cmp : α → α → Int}

/-- The parts of a strictly increasing traversal around the data of a node. -/
theorem strictlyIncreasing_node {l r : List α} (h : StrictlyIncreasing cmp (l ++ x :: r)) :
    StrictlyIncreasing cmp l ∧ StrictlyIncreasing cmp r ∧
      (∀ z ∈ l, cmp z x < 0) ∧ (∀ z ∈ r, cmp x z < 0) := by
  obtain ⟨hl, hxr, hcross⟩ := pairwise_append.1 h
  obtain ⟨hx, hr⟩ := pairwise_cons.1 hxr
  exact ⟨hl, hr, fun z hz => hcross z hz x (by simp), hx⟩

section Operations

variable {cmp : α → α → Int} (h : LawfulComparator cmp)

include h

theorem insertImpl_spec (x : α) (t : AVLNode α) (hexact : DepthsExact t)
    (hsorted : StrictlyIncreasing cmp t.toList) :
    ∃ t', insertImpl cmp true x t = some (t', (lookupBy cmp x t.toList).isNone) ∧
      DepthsExact t' ∧ t'.toList = insertBy cmp x t.toList := by
  induction t with
  | null => exact ⟨ofChildren x null null, rfl, ⟨rfl, trivial, trivial⟩, rfl⟩
  | node y l r depth ihl ihr =>
    obtain ⟨hdepth, hl, hr⟩ := hexact
    obtain ⟨hsl, hsr, hly, hyr⟩ := strictlyIncreasing_node hsorted
    rw [insertImpl]
    split_ifs with hlt hgt
    · obtain ⟨l', hrun, hl', hlist⟩ := ihl hl hsl
      obtain ⟨t', hrestore, ht', htlist⟩ := restore_toList y depth hl' hr
      refine ⟨t', ?_, ht', ?_⟩
      · simp [hrun, hrestore, toList, lookupBy_pivot_lt hlt]
      · rw [htlist, hlist, toList, insertBy_pivot_lt hlt]
    · obtain ⟨r', hrun, hr', hlist⟩ := ihr hr hsr
      obtain ⟨t', hrestore, ht', htlist⟩ := restore_toList y depth hl hr'
      have hskip := gt_of_lt_pivot h hly (by omega : 0 ≤ cmp x y)
      refine ⟨t', ?_, ht', ?_⟩
      · simp [hrun, hrestore, toList, lookupBy_skip hskip, lookupBy, hlt, hgt]
      · rw [htlist, hlist, toList, insertBy_skip hskip, insertBy, if_neg hlt, if_pos hgt]
    · have hskip := gt_of_lt_pivot h hly (by omega : 0 ≤ cmp x y)
      refine ⟨node x l r depth, ?_, ⟨hdepth, hl, hr⟩, ?_⟩
      · simp [toList, lookupBy_skip hskip, lookupBy, hlt, hgt]
      · rw [toList, toList, insertBy_skip hskip, insertBy, if_neg hlt, if_neg hgt]

theorem findFrom_eq_lookupBy (x : α) (t : AVLNode α) (hsorted : StrictlyIncreasing cmp t.toList) :
    findFrom cmp x t = lookupBy cmp x t.toList := by
  induction t with
  | null => rfl
  | node y l r depth ihl ihr =>
    obtain ⟨hsl, hsr, hly, hyr⟩ := strictlyIncreasing_node hsorted
    rw [findFrom, toList]
    split_ifs with hlt hgt
    · rw [ihl hsl, lookupBy_pivot_lt hlt]
    · have hskip := gt_of_lt_pivot h hly (by omega : 0 ≤ cmp x y)
      rw [ihr hsr, lookupBy_skip hskip, lookupBy, if_neg hlt, if_pos hgt]
    · have hskip := gt_of_lt_pivot h hly (by omega : 0 ≤ cmp x y)
      rw [lookupBy_skip hskip, lookupBy, if_neg hlt, if_neg hgt]

end Operations

/-! ### Removing the leftmost node

After the swap, `removeImpl` is called on the right subtree with a value that is below all of it and is
stored in its leftmost node. The search therefore runs down the left spine; `removeMinimal` is that run
without the comparisons. -/

def removeMinimal : AVLNode α → Option (AVLNode α)
  | null => none
  | node _ null null _ => some null
  | node _ null (node data l r depth) _ => restore (node data l r depth)
  | node x (node data l r depth) rightChild depth' => do
      let leftChild ← removeMinimal (node data l r depth)
      restore (node x leftChild rightChild depth')

theorem findMinimalNode_eq_head? (t : AVLNode α) : findMinimalNode t = t.toList.head? := by
  fun_induction findMinimalNode t with
  | case1 => rfl
  | case2 data r depth => rfl
  | case3 data l r depth hne ih =>
    rw [ih, toList]
    cases l with
    | null => exact absurd rfl hne
    | node y ll lr d => cases hll : ll.toList <;> simp [toList, hll]

theorem removeMinimal_spec (t : AVLNode α) (hexact : DepthsExact t) (hne : t ≠ null) :
    ∃ t', removeMinimal t = some t' ∧ DepthsExact t' ∧ t'.toList = t.toList.tail := by
  fun_induction removeMinimal t with
  | case1 => exact absurd rfl hne
  | case2 x depth => exact ⟨null, rfl, trivial, rfl⟩
  | case3 x data l r depth depth' =>
    obtain ⟨-, -, -, hl, hr⟩ := hexact
    obtain ⟨t', hrestore, ht', hlist⟩ := restore_toList data depth hl hr
    exact ⟨t', hrestore, ht', by simp [hlist, toList]⟩
  | case4 x data l r depth right depth' ih =>
    obtain ⟨-, hleft, hright⟩ := hexact
    obtain ⟨l', hrun, hl', hllist⟩ := ih hleft (by simp)
    obtain ⟨t', hrestore, ht', hlist⟩ := restore_toList x depth' hl' hright
    refine ⟨t', by simp [hrun, hrestore], ht', ?_⟩
    have hsplit : (node data l r depth).toList ≠ [] := by simp [toList]
    rw [hlist, hllist, toList]
    exact (tail_append_of_ne_nil hsplit).symm

variable {y : α}

theorem removeImpl_lt (hlt : cmp x y < 0) (l r : AVLNode α) (depth : Int) :
    removeImpl cmp x (node y l r depth) =
      (removeImpl cmp x l).bind fun p => (restore (node y p.1 r depth)).bind fun cur => some (cur, p.2) := by
  rw [removeImpl.eq_def]
  simp [hlt]

theorem removeImpl_gt (hgt : cmp x y > 0) (l r : AVLNode α) (depth : Int) :
    removeImpl cmp x (node y l r depth) =
      (removeImpl cmp x r).bind fun p => (restore (node y l p.1 depth)).bind fun cur => some (cur, p.2) := by
  rw [removeImpl.eq_def]
  simp [hgt, show ¬ cmp x y < 0 by omega]

/-- The call on the right subtree in the two-children branch of `removeImpl`. -/
theorem removeImpl_setMinimalNode (h : LawfulComparator cmp) (x : α)
    (t : AVLNode α) (hne : t ≠ null) (habove : ∀ z ∈ t.toList, cmp x z < 0) :
    removeImpl cmp x (setMinimalNode x t) = (removeMinimal t).map fun t' => (t', some x) := by
  fun_induction removeMinimal t with
  | case1 => exact absurd rfl hne
  | case2 y depth => simp [setMinimalNode, removeImpl, h.self]
  | case3 y data l r depth depth' =>
    simp [setMinimalNode, removeImpl, h.self, map_eq_bind]
  | case4 y data l r depth right depth' ih =>
    have hy : cmp x y < 0 := habove y (by simp [toList])
    have hrec := ih (by simp) fun z hz => habove z (by rw [toList]; exact mem_append_left _ hz)
    rw [setMinimalNode, removeImpl_lt hy, hrec]
    · cases removeMinimal (node data l r depth) with
      | none => rfl
      | some l' => simp [map_eq_bind]
    · simp

/-- `removeImpl` on the matching node is the removal of one occurrence from the traversal. -/
theorem removeImpl_match (h : LawfulComparator cmp) (hzero : cmp x y = 0)
    (l r : AVLNode α) (depth : Int) (hl : DepthsExact l) (hr : DepthsExact r)
    (habove : ∀ z ∈ r.toList, cmp y z < 0) :
    ∃ t', removeImpl cmp x (node y l r depth) = some (t', some y) ∧
      DepthsExact t' ∧ t'.toList = l.toList ++ r.toList := by
  have hmatch : ¬ cmp x y < 0 ∧ ¬ cmp x y > 0 := by omega
  match l, r with
  | null, null => exact ⟨null, by simp [removeImpl, hmatch], trivial, rfl⟩
  | null, node d rl rr depth' =>
    obtain ⟨-, hrl, hrr⟩ := hr
    obtain ⟨t', hrestore, ht', hlist⟩ := restore_toList d depth' hrl hrr
    exact ⟨t', by simp [removeImpl, hmatch, hrestore], ht', by simp [hlist, toList]⟩
  | node d ll lr depth', null =>
    obtain ⟨-, hll, hlr⟩ := hl
    obtain ⟨t', hrestore, ht', hlist⟩ := restore_toList d depth' hll hlr
    exact ⟨t', by simp [removeImpl, hmatch, hrestore], ht', by simp [hlist, toList]⟩
  | node d ll lr depth', node d' rl rr depth'' =>
    obtain ⟨r', hmin, hr', hrlist⟩ := removeMinimal_spec (node d' rl rr depth'') hr (by simp)
    have hcall := removeImpl_setMinimalNode h y (node d' rl rr depth'') (by simp) habove
    have hne : (node d' rl rr depth'').toList ≠ [] := by simp [toList]
    obtain ⟨successor, rest, hcons⟩ := exists_cons_of_ne_nil hne
    have hfind : findMinimalNode (node d' rl rr depth'') = some successor := by
      rw [findMinimalNode_eq_head?, hcons, head?_cons]
    obtain ⟨t', hrestore, ht', hlist⟩ := restore_toList successor depth hl hr'
    refine ⟨t', ?_, ht', ?_⟩
    · rw [hmin] at hcall
      simp [removeImpl, hmatch, hfind, hcall, hrestore]
    · rw [hlist, hrlist, hcons, tail_cons]

theorem removeImpl_spec (h : LawfulComparator cmp) (x : α) (t : AVLNode α)
    (hexact : DepthsExact t) (hsorted : StrictlyIncreasing cmp t.toList) :
    ∃ t', removeImpl cmp x t = some (t', lookupBy cmp x t.toList) ∧
      DepthsExact t' ∧ t'.toList = eraseBy cmp x t.toList := by
  induction t with
  | null => exact ⟨null, by simp [removeImpl, toList, lookupBy], trivial, rfl⟩
  | node y l r depth ihl ihr =>
    obtain ⟨-, hl, hr⟩ := hexact
    obtain ⟨hsl, hsr, hly, hyr⟩ := strictlyIncreasing_node hsorted
    rcases Int.lt_trichotomy (cmp x y) 0 with hlt | hzero | hgt
    · obtain ⟨l', hrun, hl', hlist⟩ := ihl hl hsl
      obtain ⟨t', hrestore, ht', htlist⟩ := restore_toList y depth hl' hr
      refine ⟨t', ?_, ht', ?_⟩
      · rw [removeImpl_lt hlt]
        simp [hrun, hrestore, toList, lookupBy_pivot_lt hlt]
      · rw [htlist, hlist, toList, eraseBy_pivot_lt hlt]
    · have hskip := gt_of_lt_pivot h hly (by omega : 0 ≤ cmp x y)
      obtain ⟨t', hrun, ht', hlist⟩ := removeImpl_match h hzero l r depth hl hr hyr
      refine ⟨t', ?_, ht', ?_⟩
      · rw [hrun, toList, lookupBy_skip hskip]
        simp [lookupBy, hzero]
      · rw [hlist, toList, eraseBy_skip hskip]
        simp [eraseBy, hzero]
    · have hskip := gt_of_lt_pivot h hly (by omega : 0 ≤ cmp x y)
      have hnlt : ¬ cmp x y < 0 := by omega
      obtain ⟨r', hrun, hr', hlist⟩ := ihr hr hsr
      obtain ⟨t', hrestore, ht', htlist⟩ := restore_toList y depth hl hr'
      refine ⟨t', ?_, ht', ?_⟩
      · rw [removeImpl_gt hgt]
        simp [hrun, hrestore, toList, lookupBy_skip hskip, lookupBy, hnlt, hgt]
      · rw [htlist, hlist, toList, eraseBy_skip hskip, eraseBy, if_neg hnlt, if_pos hgt]

/-! ### Only the comparisons that are made matter

Two comparators that agree on the searched data and the stored data give the same run of each operation,
whatever laws the first one lacks elsewhere. -/

section Congruence

variable {cmp cmp' : α → α → Int}

theorem insertImpl_congr {malloc : Bool} (hagree : ∀ y ∈ t.toList, cmp x y = cmp' x y) :
    insertImpl cmp malloc x t = insertImpl cmp' malloc x t := by
  induction t with
  | null => rfl
  | node y l r depth ihl ihr =>
    have hl := ihl fun z hz => hagree z (by simp [toList, hz])
    have hr := ihr fun z hz => hagree z (by simp [toList, hz])
    rw [insertImpl, insertImpl, hl, hr, hagree y (by simp [toList])]

theorem findFrom_congr (hagree : ∀ y ∈ t.toList, cmp x y = cmp' x y) :
    findFrom cmp x t = findFrom cmp' x t := by
  induction t with
  | null => rfl
  | node y l r depth ihl ihr =>
    have hl := ihl fun z hz => hagree z (by simp [toList, hz])
    have hr := ihr fun z hz => hagree z (by simp [toList, hz])
    rw [findFrom, findFrom, hl, hr, hagree y (by simp [toList])]

theorem mem_setMinimalNode (hy : y ∈ (setMinimalNode x t).toList) : y = x ∨ y ∈ t.toList := by
  fun_induction setMinimalNode x t with
  | case1 => exact .inr hy
  | case2 z r depth => simpa [toList, or_assoc] using Or.imp_right .inr (by simpa [toList] using hy)
  | case3 z l r depth hne ih =>
    simp only [toList, mem_append, mem_cons] at hy ⊢
    rcases hy with hy | hy | hy
    · exact (ih hy).imp_right .inl
    · exact .inr (.inr (.inl hy))
    · exact .inr (.inr (.inr hy))

/-- The removal also compares stored data with stored data, after the swap with the successor. -/
theorem removeImpl_congr
    (hagree : ∀ y ∈ x :: t.toList, ∀ z ∈ t.toList, cmp y z = cmp' y z) :
    removeImpl cmp x t = removeImpl cmp' x t := by
  induction hn : t.nodeCount using Nat.strong_induction_on generalizing x t with
  | _ n ih =>
    subst hn
    cases t with
    | null => rw [removeImpl, removeImpl]
    | node y l r depth =>
      have hxy : cmp x y = cmp' x y := hagree x (by simp) y (by simp [toList])
      rcases Int.lt_trichotomy (cmp x y) 0 with hlt | hzero | hgt
      · have hl : removeImpl cmp x l = removeImpl cmp' x l := by
          refine ih l.nodeCount (by rw [nodeCount]; omega) ?_ rfl
          intro a ha z hz
          have hsub : l.toList ⊆ (node y l r depth).toList := subset_append_left _ _
          exact hagree a (cons_subset_cons x hsub ha) z (hsub hz)
        rw [removeImpl_lt hlt, removeImpl_lt (hxy ▸ hlt), hl]
      · have hzero' : cmp' x y = 0 := hxy ▸ hzero
        rcases l with _ | ⟨d, ll, lr, depth'⟩ <;> rcases r with _ | ⟨d', rl, rr, depth''⟩
        · simp [removeImpl, hzero, hzero']
        · simp [removeImpl, hzero, hzero']
        · simp [removeImpl, hzero, hzero']
        · -- the swapped-out data and the changed right subtree hold stored data only
          have hr : removeImpl cmp y (setMinimalNode y (node d' rl rr depth'')) =
              removeImpl cmp' y (setMinimalNode y (node d' rl rr depth'')) := by
            refine ih _ (by rw [nodeCount_setMinimalNode]; simp only [nodeCount]; omega) ?_ rfl
            have hsub : ∀ a ∈ (setMinimalNode y (node d' rl rr depth'')).toList,
                a ∈ (node y (node d ll lr depth') (node d' rl rr depth'') depth).toList := by
              intro a ha
              rw [toList, mem_append, mem_cons]
              exact .inr (mem_setMinimalNode ha)
            intro a ha z hz
            refine hagree a (mem_cons_of_mem _ ?_) z (hsub z hz)
            rcases mem_cons.1 ha with rfl | ha
            · simp [toList]
            · exact hsub a ha
          simp [removeImpl, hzero, hzero', hr]
      · have hr : removeImpl cmp x r = removeImpl cmp' x r := by
          refine ih r.nodeCount (by rw [nodeCount]; omega) ?_ rfl
          intro a ha z hz
          have hsub : r.toList ⊆ (node y l r depth).toList :=
            subset_append_of_subset_right _ (subset_cons_self y _)
          exact hagree a (cons_subset_cons x hsub ha) z (hsub hz)
        rw [removeImpl_gt hgt, removeImpl_gt (hxy ▸ hgt), hr]

end Congruence

/-! ### Runs refine the abstract ordered set -/

/-- `avl_foreach` visits the data in traversal order. -/
theorem foreachImpl_eq_foldlM {σ : Type v} (func : α → σ → Option σ) (t : AVLNode α) (context : σ) :
    foreachImpl func t context = t.toList.foldlM (fun context data => func data context) context := by
  induction t generalizing context with
  | null => rfl
  | node data l r depth ihl ihr =>
    simp [foreachImpl, toList, foldlM_append, ihl, ihr]

theorem length_toList (t : AVLNode α) : t.toList.length = t.nodeCount := by
  induction t with
  | null => rfl
  | node data l r depth ihl ihr =>
    simp [toList, nodeCount, ihl, ihr]
    omega

/-- What holds of a tree between two calls. -/
structure AvlInvariant (cmp : α → α → Int) (tree : AVLTree α) : Prop where
  exact : DepthsExact tree.head
  sorted : StrictlyIncreasing cmp tree.head.toList
  size : tree.size = tree.head.nodeCount

theorem AvlInvariant.create (cmp : α → α → Int) : AvlInvariant cmp avlCreateTree :=
  ⟨trivial, List.Pairwise.nil, rfl⟩

section Steps

variable {cmp : α → α → Int} (h : LawfulComparator cmp) {tree : AVLTree α}

include h

theorem avlInsert_spec (hinv : AvlInvariant cmp tree) (x : α) :
    ∃ tree', avlInsert cmp true tree x = some (tree', (lookupBy cmp x tree.head.toList).isNone) ∧
      AvlInvariant cmp tree' ∧ tree'.head.toList = insertBy cmp x tree.head.toList := by
  obtain ⟨head, hrun, hexact, hlist⟩ := insertImpl_spec h x tree.head hinv.exact hinv.sorted
  refine ⟨_, by rw [avlInsert, hrun]; rfl, ⟨hexact, ?_, ?_⟩, hlist⟩
  · rw [hlist]
    exact hinv.sorted.insertBy h
  · have hlen := length_insertBy cmp x tree.head.toList
    rw [← hlist, length_toList, length_toList] at hlen
    cases hlook : lookupBy cmp x tree.head.toList <;> simp [hlook, hinv.size] at hlen ⊢ <;> omega

theorem avlRemove_spec (hinv : AvlInvariant cmp tree) (x : α) :
    ∃ tree', avlRemove cmp tree x = some (tree', lookupBy cmp x tree.head.toList) ∧
      AvlInvariant cmp tree' ∧ tree'.head.toList = eraseBy cmp x tree.head.toList := by
  obtain ⟨head, hrun, hexact, hlist⟩ := removeImpl_spec h x tree.head hinv.exact hinv.sorted
  refine ⟨_, by rw [avlRemove, hrun]; rfl, ⟨hexact, ?_, ?_⟩, hlist⟩
  · rw [hlist]
    exact hinv.sorted.eraseBy
  · have hlen := length_eraseBy cmp x tree.head.toList
    rw [← hlist, length_toList, length_toList] at hlen
    cases hlook : lookupBy cmp x tree.head.toList <;> simp [hlook, hinv.size] at hlen ⊢ <;> omega

end Steps

/-- The abstract ordered set after a call: an insertion replaces the equivalent element. -/
def absStep (cmp : α → α → Int) (s : Set α) : AvlOp α → Set α
  | .insert x => insert x {y ∈ s | cmp x y ≠ 0}
  | .remove x => {y ∈ s | cmp x y ≠ 0}
  | .find _ => s

/-- The answer the abstract ordered set gives to a call. -/
def AbsAnswer (cmp : α → α → Int) (s : Set α) : AvlOp α → AvlResult α → Prop
  | .insert x, .inserted flag => flag = true ↔ ∀ y ∈ s, cmp x y ≠ 0
  | .remove x, .pointer data => ∀ y, data = some y ↔ y ∈ s ∧ cmp x y = 0
  | .find x, .pointer data => ∀ y, data = some y ↔ y ∈ s ∧ cmp x y = 0
  | _, _ => False

/-- The answers to a whole sequence of calls, each given by the set its predecessors left. -/
def AbsAnswers (cmp : α → α → Int) : Set α → List (AvlOp α) → List (AvlResult α) → Prop
  | _, [], [] => True
  | s, op :: ops, result :: results =>
    AbsAnswer cmp s op result ∧ AbsAnswers cmp (absStep cmp s op) ops results
  | _, _, _ => False

/-- One call from a tree that represents `s` answers as `s` does and leaves a tree for the next set. -/
theorem avlStep_refines (h : LawfulComparator cmp) {tree : AVLTree α}
    (hinv : AvlInvariant cmp tree) {s : Set α} (hs : ∀ y, y ∈ tree.head.toList ↔ y ∈ s) (op : AvlOp α) :
    ∃ tree' result, avlStep cmp tree op = some (tree', result) ∧ AbsAnswer cmp s op result ∧
      AvlInvariant cmp tree' ∧ ∀ y, y ∈ tree'.head.toList ↔ y ∈ absStep cmp s op := by
  cases op with
  | insert x =>
    obtain ⟨tree', hrun, hinv', hlist⟩ := avlInsert_spec h hinv x
    refine ⟨tree', _, by rw [avlStep, hrun]; rfl, ?_, hinv', ?_⟩
    · rw [AbsAnswer, isNone_iff_eq_none, lookupBy_eq_none_iff h hinv.sorted]
      simp only [hs]
    · intro y
      rw [hlist, mem_insertBy h hinv.sorted, hs]
      rfl
  | remove x =>
    obtain ⟨tree', hrun, hinv', hlist⟩ := avlRemove_spec h hinv x
    refine ⟨tree', _, by rw [avlStep, hrun]; rfl, ?_, hinv', ?_⟩
    · intro y
      rw [lookupBy_eq_some_iff h hinv.sorted, hs]
    · intro y
      rw [hlist, mem_eraseBy h hinv.sorted, hs]
      rfl
  | find x =>
    refine ⟨tree, _, rfl, ?_, hinv, hs⟩
    intro y
    rw [avlFind, findFrom_eq_lookupBy h x tree.head hinv.sorted, lookupBy_eq_some_iff h hinv.sorted, hs]

/-- A whole run from a tree that represents `s`. -/
theorem avlRun_refines (h : LawfulComparator cmp) (ops : List (AvlOp α)) :
    ∀ {tree : AVLTree α} {s : Set α}, AvlInvariant cmp tree → (∀ y, y ∈ tree.head.toList ↔ y ∈ s) →
      ∃ tree' results, avlRun cmp tree ops = some (tree', results) ∧ AbsAnswers cmp s ops results ∧
        AvlInvariant cmp tree' ∧ ∀ y, y ∈ tree'.head.toList ↔ y ∈ ops.foldl (absStep cmp) s := by
  induction ops with
  | nil =>
    intro tree s hinv hs
    exact ⟨tree, [], rfl, trivial, hinv, hs⟩
  | cons op ops ih =>
    intro tree s hinv hs
    obtain ⟨tree₁, result, hstep, hanswer, hinv₁, hs₁⟩ := avlStep_refines h hinv hs op
    obtain ⟨tree₂, results, hrun, hanswers, hinv₂, hs₂⟩ := ih hinv₁ hs₁
    refine ⟨tree₂, result :: results, ?_, ⟨hanswer, hanswers⟩, hinv₂, hs₂⟩
    simp [avlRun, hstep, hrun]

/-- Every run on a fresh tree goes through, and afterwards `avl_foreach` visits a strictly
    increasing sequence, which holds exactly the elements of the abstract ordered set; every call
    answered as that set does, and `size` counts the nodes. -/
theorem avlRun_refines_orderedSet {cmp : α → α → Int} (h : LawfulComparator cmp) (ops : List (AvlOp α)) :
    ∃ tree results visited, avlRun cmp avlCreateTree ops = some (tree, results) ∧
      avlForeach tree (fun data visited => some (visited ++ [data])) [] = some visited ∧
      StrictlyIncreasing cmp visited ∧
      (∀ y, y ∈ visited ↔ y ∈ ops.foldl (absStep cmp) ∅) ∧
      AbsAnswers cmp ∅ ops results ∧
      avlGetSize tree = tree.head.nodeCount := by
  obtain ⟨tree, results, hrun, hanswers, hinv, hmem⟩ :=
    avlRun_refines h ops (AvlInvariant.create cmp) (s := ∅) (by simp [avlCreateTree, toList])
  have hvisit : ∀ xs visited : List α,
      xs.foldlM (fun visited data => some (visited ++ [data])) visited = some (visited ++ xs) := by
    intro xs
    induction xs with
    | nil => simp
    | cons x xs ih => simp [ih]
  refine ⟨tree, results, tree.head.toList, hrun, ?_, hinv.sorted, hmem, hanswers, hinv.size⟩
  rw [avlForeach, foreachImpl_eq_foldlM, hvisit, nil_append]

/-- Subtraction compares integers, so the refinement applies to integer trees. -/
theorem lawful_int_sub : LawfulComparator (fun a b : Int => a - b) where
  swap := by intros; omega
  trans := by intros; omega

/-- A rotation, the removal of a node with two children, and a removal that finds nothing. -/
theorem avlRun_refines_orderedSet_int :
    ∃ tree results visited,
      avlRun (fun a b : Int => a - b) avlCreateTree
        [.insert 1, .insert 2, .insert 3, .remove 2, .find 3, .remove 7] = some (tree, results) ∧
      avlForeach tree (fun data visited => some (visited ++ [data])) [] = some visited ∧
      StrictlyIncreasing (fun a b : Int => a - b) visited ∧
      (∀ y, y ∈ visited ↔ y ∈ [.insert 1, .insert 2, .insert 3, .remove 2, .find 3, .remove 7].foldl
        (absStep fun a b : Int => a - b) ∅) ∧
      AbsAnswers (fun a b : Int => a - b) ∅
        [.insert 1, .insert 2, .insert 3, .remove 2, .find 3, .remove 7] results ∧
      avlGetSize tree = tree.head.nodeCount :=
  avlRun_refines_orderedSet lawful_int_sub _

end NsuLabs.HashMap
