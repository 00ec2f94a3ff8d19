/-
Module: NsuLabs.AvlInsertion.AvlTree
Purpose: `C-Labs/AVL_tree_insertion/src/main.c`. Nodes, depths and rotations are those of
  `C-Homework/HashMap/src/avl_tree.c` and are taken from there; `getBalanceFactor` asserts that there is a
  node, which is so at its one call. `Insert` sends equal values to the left and chooses the rotation by the
  inserted value. `none` is the dereference of a null pointer or a failed `assert`.
Trusted boundary: The `int8_t` depth is an integer; the theorems bound the heights
Main exports: rebalance, insertAll_avl
-/
import NsuLabs.HashMap.Proofs.AvlBalance

namespace NsuLabs.AvlInsertion

open HashMap (AVLNode getDepth updateDepth getBalanceFactor rotateLeft rotateRight rotateLeftRight
  rotateRightLeft)

/-- The macro `BST_TO_LEFT`. -/
def bstToLeft (val nodeVal : Int) : Bool := val ≤ nodeVal

def makeNode (value : Int) : AVLNode Int := .node value .null .null 1

/-- `node->value`. -/
def valueOf : AVLNode Int → Option Int
  | .null => none
  | .node value _ _ _ => some value

def leftChildOf : AVLNode Int → Option (AVLNode Int)
  | .null => none
  | .node _ leftChild _ _ => some leftChild

def rightChildOf : AVLNode Int → Option (AVLNode Int)
  | .null => none
  | .node _ _ rightChild _ => some rightChild

/-- The branch of `Insert` for a left child that is too high. -/
def rotateFromLeft (value : Int) (node : AVLNode Int) : Option (AVLNode Int) :=
  (leftChildOf node).bind fun leftChild => (valueOf leftChild).bind fun nodeVal =>
    if bstToLeft value nodeVal then rotateRight node else rotateLeftRight node

/-- The branch of `Insert` for a right child that is too high. -/
def rotateFromRight (value : Int) (node : AVLNode Int) : Option (AVLNode Int) :=
  (rightChildOf node).bind fun rightChild => (valueOf rightChild).bind fun nodeVal =>
    if bstToLeft value nodeVal then rotateRightLeft node else rotateLeft node

/-- `Insert` behind its `updateDepth`. The second test still reads the factor from before the first
    rotation. -/
def rebalance (value : Int) (node : AVLNode Int) : Option (AVLNode Int) :=
  let balanceFactor := getBalanceFactor node
  (if balanceFactor < -1 then rotateFromLeft value node else some node).bind fun node =>
    if balanceFactor > 1 then rotateFromRight value node else some node

def insert (value : Int) : AVLNode Int → Option (AVLNode Int)
  | .null => some (makeNode value)
  | .node current leftChild rightChild depth =>
    if bstToLeft value current then do
      let leftChild ← insert value leftChild
      let node ← updateDepth (.node current leftChild rightChild depth)
      rebalance value node
    else do
      let rightChild ← insert value rightChild
      let node ← updateDepth (.node current leftChild rightChild depth)
      rebalance value node

/-- The loop of `main`. -/
def insertAll (root : AVLNode Int) : List Int → Option (AVLNode Int)
  | [] => some root
  | val :: values => do
      let root ← insert val root
      insertAll root values

open Lib
open HashMap (DepthsExact Grown Restored ofChildren mirror depthsExact_ofChildren getBalanceFactor_ofChildren
  height_ofChildren)
open HashMap.AVLNode

universe u

/-! ### Which side of a subtree got higher -/

section

variable {α : Type u} {P : α → Prop} {x : α} {l l' r r' t t' : AVLNode α} {depth : Int}

/-- The height is the same, or one more. A nonempty subtree that got higher leans to the left if its
    root has the property, and to the right otherwise. -/
def Leans (P : α → Prop) (t t' : AVLNode α) : Prop :=
  t'.height = t.height ∨
    (t'.height = t.height + 1 ∧
      (t.height = 0 ∨ ∃ data l r, t' = ofChildren data l r ∧ (P data → r.height < l.height) ∧
        (¬ P data → l.height < r.height)))

theorem Leans.grown (h : Leans P t t') : Grown t t' := by
  rcases h with hsame | ⟨hraised, hzero | ⟨data, l, r, heq, hleft, hright⟩⟩
  · exact .inl hsame
  · exact .inr ⟨hraised, .inl hzero⟩
  · refine .inr ⟨hraised, .inr ⟨data, l, r, heq, ?_⟩⟩
    by_cases hdata : P data
    · exact (hleft hdata).ne'
    · exact (hright hdata).ne

theorem Leans.mirror (h : Leans P t t') : Leans (fun x => ¬ P x) (mirror t) (mirror t') := by
  rcases h with hsame | ⟨hraised, hzero | ⟨data, l, r, heq, hleft, hright⟩⟩
  · exact .inl (by simpa using hsame)
  · exact .inr ⟨by simpa using hraised, .inl (by simpa using hzero)⟩
  · refine .inr ⟨by simpa using hraised, .inr ⟨data, HashMap.mirror r, HashMap.mirror l, ?_, ?_, ?_⟩⟩
    · rw [heq, HashMap.mirror_ofChildren]
    · simpa using hright
    · simpa using hleft

/-- A child that got too high is a node, and its root tells which of its sides is the higher one. -/
theorem Leans.heavy (h : Leans P l l') (hl : l.height ≤ r.height + 1) (hheavy : r.height + 1 < l'.height) :
    l'.height = l.height + 1 ∧ ∃ b bl br, l' = ofChildren b bl br ∧ (P b → br.height < bl.height) ∧
      (¬ P b → bl.height < br.height) := by
  rcases h with hsame | ⟨hraised, hzero | hlean⟩
  · omega
  · omega
  · exact ⟨hraised, hlean⟩

/-- A node above a left child that got higher leans to the left if it got higher itself: a rotation
    takes the new level back. -/
theorem leans_left (hx : P x) (hl : l.height ≤ r.height + 1) (hr : r.height ≤ l.height + 1)
    (hleans : Leans P l l') (hrestored : Restored x l' r t') (hgrown : Grown (.node x l r depth) t') :
    Leans P (.node x l r depth) t' := by
  rcases hgrown with hsame | ⟨hraised, -⟩
  · exact .inl hsame
  · refine .inr ⟨hraised, .inr ?_⟩
    have hle : l.height ≤ l'.height ∧ l'.height ≤ l.height + 1 := by
      rcases hleans with hsame | ⟨hraised, -⟩
      · omega
      · omega
    cases hrestored with
    | keep hkl hkr =>
      refine ⟨x, l', r, rfl, fun _ => ?_, fun hnot => absurd hx hnot⟩
      simp only [height_ofChildren, height] at hraised
      omega
    | rotateRight b bl br hb heavy outer =>
      subst hb
      simp only [height_ofChildren, height] at hraised hle heavy
      omega
    | rotateLeftRight b c bl cl cr hb heavy inner =>
      obtain ⟨-, b', bl', br', hb', hleft, hright⟩ := hleans.heavy hl heavy
      have hstrict : bl.height < (ofChildren c cl cr).height := by
        rw [hb] at hb'
        obtain ⟨rfl, rfl, rfl, -⟩ := node.inj hb'
        by_cases hdata : P b
        · exact absurd (hleft hdata) (not_lt.mpr inner)
        · exact hright hdata
      subst hb
      simp only [height_ofChildren, height] at hraised hle heavy hstrict
      omega
    | rotateLeft b bl br hb heavy outer => omega
    | rotateRightLeft b c cl cr br hb heavy inner => omega

theorem leans_right (hx : ¬ P x) (hl : l.height ≤ r.height + 1) (hr : r.height ≤ l.height + 1)
    (hleans : Leans P r r') (hrestored : Restored x l r' t') (hgrown : Grown (.node x l r depth) t') :
    Leans P (.node x l r depth) t' := by
  have hleft := @leans_left _ (fun x => ¬ P x) _ _ _ _ _ depth hx (by simpa using hr) (by simpa using hl)
    hleans.mirror hrestored.mirror hgrown.mirror
  have hback := hleft.mirror
  simpa [HashMap.mirror] using hback

end

/-! ### The choice of the rotation -/

variable {value : Int}

@[simp] theorem bstToLeft_iff {val nodeVal : Int} : bstToLeft val nodeVal = true ↔ val ≤ nodeVal :=
  decide_eq_true_iff

/-- The value of a heavy child tells which of its sides is the higher one. -/
def Tells (value : Int) (l r : AVLNode Int) : Prop :=
  (r.height + 1 < l.height → ∃ b bl br, l = ofChildren b bl br ∧ (value ≤ b ↔ br.height < bl.height)) ∧
    (l.height + 1 < r.height → ∃ b bl br, r = ofChildren b bl br ∧ (value ≤ b ↔ ¬ bl.height < br.height))

/-- Then the rotation is the one that the balance factor of the child would choose. -/
theorem rebalance_eq {y : Int} {l r : AVLNode Int} (hl : DepthsExact l) (hr : DepthsExact r)
    (htells : Tells value l r) :
    rebalance value (ofChildren y l r) = HashMap.rebalance (ofChildren y l r) := by
  have hfactor := getBalanceFactor_ofChildren y hl hr
  rw [rebalance, ofChildren, HashMap.rebalance, ← ofChildren, hfactor]
  by_cases hleft : r.height + 1 < l.height
  · obtain ⟨b, bl, br, rfl, hside⟩ := htells.1 hleft
    obtain ⟨hbl, hbr⟩ := depthsExact_ofChildren.mp hl
    have hiff : bstToLeft value b = true ↔ getBalanceFactor (ofChildren b bl br) < 0 := by
      rw [bstToLeft_iff, hside, getBalanceFactor_ofChildren b hbl hbr]
      omega
    have hright : ¬ ((r.height : Int) - (ofChildren b bl br).height > 1) := by omega
    rw [if_pos (by omega), if_pos (by omega)]
    simp only [if_neg hright, Option.bind_fun_some]
    exact if_congr hiff rfl rfl
  · rw [if_neg (by omega), if_neg (by omega), Option.bind_some]
    by_cases hright : l.height + 1 < r.height
    · obtain ⟨b, bl, br, rfl, hside⟩ := htells.2 hright
      obtain ⟨hbl, hbr⟩ := depthsExact_ofChildren.mp hr
      have hiff : bstToLeft value b = true ↔ ¬ getBalanceFactor (ofChildren b bl br) > 0 := by
        rw [bstToLeft_iff, hside, getBalanceFactor_ofChildren b hbl hbr]
        omega
      rw [if_pos (by omega), if_pos (by omega), ← ite_not]
      exact if_congr hiff rfl rfl
    · rw [if_neg (by omega), if_neg (by omega)]

theorem updateDepth_rebalance {y depth : Int} {l r : AVLNode Int} (hl : DepthsExact l) (hr : DepthsExact r)
    (htells : Tells value l r) :
    ((updateDepth (.node y l r depth)).bind fun node => rebalance value node) =
      HashMap.restore (.node y l r depth) := by
  rw [HashMap.restore, HashMap.updateDepth_node hl hr, Option.bind_some, Option.bind_eq_bind,
    Option.bind_some]
  exact rebalance_eq hl hr htells

/-- Where the value went down to the left, its left subtree tells. -/
theorem Leans.tells_left {l l' r : AVLNode Int} (hleans : Leans (fun x => value ≤ x) l l')
    (hl : l.height ≤ r.height + 1) (hr : r.height ≤ l.height + 1) : Tells value l' r := by
  refine ⟨fun hheavy => ?_, fun hheavy => ?_⟩
  · obtain ⟨-, b, bl, br, heq, hleft, hright⟩ := hleans.heavy hl hheavy
    refine ⟨b, bl, br, heq, hleft, fun hlt => ?_⟩
    by_contra hnot
    exact absurd (hright hnot) (by omega)
  · rcases hleans.grown with hsame | ⟨hraised, -⟩ <;> omega

theorem Leans.tells_right {l r r' : AVLNode Int} (hleans : Leans (fun x => value ≤ x) r r')
    (hl : l.height ≤ r.height + 1) (hr : r.height ≤ l.height + 1) : Tells value l r' := by
  refine ⟨fun hheavy => ?_, fun hheavy => ?_⟩
  · rcases hleans.grown with hsame | ⟨hraised, -⟩ <;> omega
  · obtain ⟨-, b, bl, br, heq, hleft, hright⟩ := hleans.heavy hr hheavy
    refine ⟨b, bl, br, heq, fun hle => ?_, fun hnot => ?_⟩
    · have := hleft hle
      omega
    · by_contra hle
      exact hnot (hright hle)

/-! ### Insertion -/

/-- What an insertion makes of a subtree. -/
structure Inserted (value : Int) (t t' : AVLNode Int) : Prop where
  exact : DepthsExact t'
  balanced : HashMap.Balanced t'
  leans : Leans (fun x => value ≤ x) t t'
  inserted : InsertedAt value t.toList t'.toList

theorem insert_spec (value : Int) (t : AVLNode Int) (hexact : DepthsExact t) (hbalanced : HashMap.Balanced t)
    (hsorted : t.toList.Pairwise (· ≤ ·)) : ∃ t', insert value t = some t' ∧ Inserted value t t' := by
  induction t with
  | null =>
    refine ⟨makeNode value, rfl, ⟨rfl, trivial, trivial⟩, ?_, .inr ⟨rfl, .inl rfl⟩, [], [], rfl, rfl, ?_, ?_⟩
    · simp [makeNode, HashMap.Balanced, height]
    · simp
    · simp
  | node y l r depth ihl ihr =>
    obtain ⟨hdepth, hl, hr⟩ := hexact
    obtain ⟨hlr, hrl, hbl, hbr⟩ := hbalanced
    rw [toList] at hsorted
    obtain ⟨hsortedl, hrest, hbetween⟩ := List.pairwise_append.mp hsorted
    obtain ⟨hyr, hsortedr⟩ := List.pairwise_cons.mp hrest
    rw [insert]
    by_cases hvalue : value ≤ y
    · obtain ⟨l', hrun, hl', hbl', hleans, hinserted⟩ := ihl hl hbl hsortedl
      obtain ⟨t', hrestore, hrestored⟩ := HashMap.restore_spec y depth hl' hr
      obtain ⟨hbalanced, hgrown⟩ := HashMap.restored_grown_left depth hlr hrl hbr hbl' hleans.grown hrestored
      refine ⟨t', ?_, hrestored.depthsExact hl' hr, hbalanced,
        leans_left hvalue hlr hrl hleans hrestored hgrown, ?_⟩
      · rw [if_pos (bstToLeft_iff.mpr hvalue), hrun, ← hrestore]
        exact updateDepth_rebalance hl' hr (hleans.tells_left hlr hrl)
      · have hafter : ∀ b ∈ y :: r.toList, value ≤ b := by
          intro b hb
          rcases List.mem_cons.mp hb with rfl | hb
          · exact hvalue
          · exact hvalue.trans (hyr b hb)
        rw [hrestored.toList_eq]
        exact hinserted.between (fun a ha => absurd ha List.not_mem_nil) hafter
    · obtain ⟨r', hrun, hr', hbr', hleans, hinserted⟩ := ihr hr hbr hsortedr
      obtain ⟨t', hrestore, hrestored⟩ := HashMap.restore_spec y depth hl hr'
      obtain ⟨hbalanced, hgrown⟩ : HashMap.Balanced t' ∧ Grown (.node y l r depth) t' :=
        HashMap.restored_grown_right hlr hrl hbl hbr' hleans.grown hrestored
      refine ⟨t', ?_, hrestored.depthsExact hl hr', hbalanced,
        leans_right hvalue hlr hrl hleans hrestored hgrown, ?_⟩
      · rw [if_neg (mt bstToLeft_iff.mp hvalue), hrun, ← hrestore]
        exact updateDepth_rebalance hl hr' (hleans.tells_right hlr hrl)
      · have hle : y ≤ value := (not_le.mp hvalue).le
        have hbefore : ∀ a ∈ l.toList ++ [y], a ≤ value := by
          intro a ha
          rcases List.mem_append.mp ha with ha | ha
          · exact (hbetween a ha y List.mem_cons_self).trans hle
          · exact (List.mem_singleton.mp ha).le.trans hle
        rw [hrestored.toList_eq]
        simpa [toList] using hinserted.between hbefore fun b hb => absurd hb List.not_mem_nil

theorem insertAll_spec (values : List Int) : ∀ (root : AVLNode Int), DepthsExact root →
    HashMap.Balanced root → root.toList.Pairwise (· ≤ ·) →
    ∃ root', insertAll root values = some root' ∧ DepthsExact root' ∧ HashMap.Balanced root' ∧
      root'.toList.Pairwise (· ≤ ·) ∧ root'.toList.Perm (values ++ root.toList) := by
  induction values with
  | nil => exact fun root hexact hbalanced hsorted =>
      ⟨root, rfl, hexact, hbalanced, hsorted, List.Perm.refl _⟩
  | cons val values ih =>
    intro root hexact hbalanced hsorted
    obtain ⟨root₁, hrun, hinserted⟩ := insert_spec val root hexact hbalanced hsorted
    obtain ⟨root₂, hrun₂, hexact₂, hbalanced₂, hsorted₂, hperm⟩ :=
      ih root₁ hinserted.exact hinserted.balanced (hinserted.inserted.sorted hsorted)
    refine ⟨root₂, ?_, hexact₂, hbalanced₂, hsorted₂, ?_⟩
    · rw [insertAll, hrun, Option.bind_eq_bind, Option.bind_some, hrun₂]
    · exact (hperm.trans (hinserted.inserted.perm.append_left values)).trans List.perm_middle

/-- Any values, in any order and with duplicates, give a balanced tree whose stored depths are the
    heights and whose traversal is the sorted sequence of the values. The height is so far below
    what an `int8_t` holds that no depth wraps in a tree of fewer than `2 ^ 62` nodes. -/
theorem insertAll_avl (values : List Int) :
    ∃ root, insertAll .null values = some root ∧ HashMap.Balanced root ∧ DepthsExact root ∧
      getDepth root = root.height ∧ root.toList.Pairwise (· ≤ ·) ∧ root.toList.Perm values ∧
      2 ^ (root.height / 2) ≤ values.length + 1 := by
  obtain ⟨root, hrun, hexact, hbalanced, hsorted, hperm⟩ :=
    insertAll_spec values .null trivial trivial List.Pairwise.nil
  rw [toList, List.append_nil] at hperm
  refine ⟨root, hrun, hbalanced, hexact, HashMap.getDepth_eq_height hexact, hsorted, hperm, ?_⟩
  rw [← hperm.length_eq, HashMap.length_toList]
  exact HashMap.pow_half_height_le root hbalanced

end NsuLabs.AvlInsertion
