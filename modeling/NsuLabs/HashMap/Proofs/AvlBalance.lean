/-
Module: NsuLabs.HashMap.Proofs.AvlBalance
Purpose: Which runs keep the tree AVL-balanced.
Trusted boundary: none
Main exports: avlRun_balanced_iff
-/
import NsuLabs.HashMap.Proofs.AvlOrder

namespace NsuLabs.HashMap

open Lib AVLNode Option

universe u

variable {α : Type u} {r t t' r' : AVLNode α} {cmp : α → α → Int} {miss low : Bool}

/-- The heights of the two subtrees of every node differ by at most one. -/
def Balanced : AVLNode α → Prop
  | null => True
  | node _ l r _ => l.height ≤ r.height + 1 ∧ r.height ≤ l.height + 1 ∧ Balanced l ∧ Balanced r

instance decidableBalanced : (t : AVLNode α) → Decidable (Balanced t)
  | null => .isTrue trivial
  | node _ l r _ =>
    have := decidableBalanced l
    have := decidableBalanced r
    inferInstanceAs (Decidable (_ ∧ _ ∧ _ ∧ _))

variable {l : AVLNode α}

@[simp] theorem balanced_ofChildren {data : α} :
    Balanced (ofChildren data l r) ↔
      l.height ≤ r.height + 1 ∧ r.height ≤ l.height + 1 ∧ Balanced l ∧ Balanced r := Iff.rfl

/-! ### The stored depth fits an `int8_t`

A balanced tree of height `h` has at least `2 ^ (h / 2) - 1` nodes, so a depth above 127 needs more nodes
than a 64-bit address space holds. -/

theorem pow_half_height_le (t : AVLNode α) (h : Balanced t) : 2 ^ (t.height / 2) ≤ t.nodeCount + 1 := by
  induction t with
  | null => simp [height, nodeCount]
  | node data l r depth ihl ihr =>
    obtain ⟨hlr, hrl, hl, hr⟩ := h
    have ihl := ihl hl
    have ihr := ihr hr
    rw [height, nodeCount]
    by_cases hsmall : max l.height r.height = 0
    · simp [hsmall]
    · -- both subtrees reach at least the height of the whole less two
      have hhalf : (max l.height r.height + 1) / 2 = (max l.height r.height - 1) / 2 + 1 := by omega
      have hpowl : 2 ^ ((max l.height r.height - 1) / 2) ≤ 2 ^ (l.height / 2) :=
        Nat.pow_le_pow_right (by omega) (by omega)
      have hpowr : 2 ^ ((max l.height r.height - 1) / 2) ≤ 2 ^ (r.height / 2) :=
        Nat.pow_le_pow_right (by omega) (by omega)
      rw [hhalf, Nat.pow_succ]
      omega

theorem balanced_depth_le (t : AVLNode α) (hexact : DepthsExact t) (hbalanced : Balanced t)
    (hcount : t.nodeCount + 1 < 2 ^ 64) : getDepth t ≤ 127 := by
  have hpow := pow_half_height_le t hbalanced
  have hlt : t.height / 2 < 64 := (Nat.pow_lt_pow_iff_right (a := 2) (by omega)).1 (by omega)
  rw [getDepth_eq_height hexact]
  omega

/-! ### Mirror images

The code treats the two sides alike, so each fact about the left side carries over to the right one. -/

def mirror : AVLNode α → AVLNode α
  | null => null
  | node data l r depth => node data (mirror r) (mirror l) depth

@[simp] theorem mirror_mirror (t : AVLNode α) : mirror (mirror t) = t := by
  induction t with
  | null => rfl
  | node data l r depth ihl ihr => simp [mirror, ihl, ihr]

@[simp] theorem height_mirror (t : AVLNode α) : (mirror t).height = t.height := by
  induction t with
  | null => rfl
  | node data l r depth ihl ihr => simp [mirror, height, ihl, ihr, Nat.max_comm]

@[simp] theorem getDepth_mirror (t : AVLNode α) : getDepth (mirror t) = getDepth t := by
  cases t <;> rfl

theorem mirror_ofChildren (data : α) (l r : AVLNode α) :
    mirror (ofChildren data l r) = ofChildren data (mirror r) (mirror l) := by
  simp [ofChildren, mirror, Nat.max_comm]

@[simp] theorem depthsExact_mirror (t : AVLNode α) : DepthsExact (mirror t) ↔ DepthsExact t := by
  induction t with
  | null => rfl
  | node data l r depth ihl ihr =>
    simp only [mirror, DepthsExact, height_mirror, ihl, ihr, Nat.max_comm]
    tauto

@[simp] theorem balanced_mirror (t : AVLNode α) : Balanced (mirror t) ↔ Balanced t := by
  induction t with
  | null => rfl
  | node data l r depth ihl ihr =>
    simp only [mirror, Balanced, height_mirror, ihl, ihr]
    tauto

variable {x : α}

theorem Restored.mirror (h : Restored x l r t) : Restored x (mirror r) (mirror l) (mirror t) := by
  cases h with
  | keep hl hr =>
    rw [mirror_ofChildren]
    exact .keep (by simpa using hr) (by simpa using hl)
  | rotateRight b bl br hb heavy outer =>
    rw [mirror_ofChildren, mirror_ofChildren]
    exact .rotateLeft b _ _ (by rw [hb, mirror_ofChildren]) (by simpa using heavy) (by simpa using outer)
  | rotateLeftRight b c bl cl cr hb heavy inner =>
    rw [mirror_ofChildren, mirror_ofChildren, mirror_ofChildren]
    exact .rotateRightLeft b c _ _ _ (by rw [hb, mirror_ofChildren, mirror_ofChildren])
      (by simpa using heavy) (by simpa [Nat.max_comm] using inner)
  | rotateLeft b bl br hb heavy outer =>
    rw [mirror_ofChildren, mirror_ofChildren]
    exact .rotateRight b _ _ (by rw [hb, mirror_ofChildren]) (by simpa using heavy) (by simpa using outer)
  | rotateRightLeft b c cl cr br hb heavy inner =>
    rw [mirror_ofChildren, mirror_ofChildren, mirror_ofChildren]
    exact .rotateLeftRight b c _ _ _ (by rw [hb, mirror_ofChildren, mirror_ofChildren])
      (by simpa using heavy) (by simpa [Nat.max_comm] using inner)

/-! ### Insertion -/

/-- An insertion leaves the height or raises it by one; a raised nonempty tree leans to one side. -/
def Grown (t t' : AVLNode α) : Prop :=
  t'.height = t.height ∨
    (t'.height = t.height + 1 ∧
      (t.height = 0 ∨ ∃ data l r, t' = ofChildren data l r ∧ l.height ≠ r.height))

variable {l' : AVLNode α}

theorem restored_grown_left (depth : Int) (hl : l.height ≤ r.height + 1)
    (hr : r.height ≤ l.height + 1) (hbr : Balanced r) (hbl' : Balanced l') (hgrown : Grown l l')
    (hrestored : Restored x l' r t') :
    Balanced t' ∧ Grown (node x l r depth) t' := by
  cases hrestored with
  | keep hkl hkr =>
    refine ⟨⟨hkl, hkr, hbl', hbr⟩, ?_⟩
    rcases hgrown with hsame | ⟨hraised, -⟩
    · exact .inl (by simp [height, hsame])
    · by_cases hne : l'.height = r.height
      · exact .inl (by simp only [height_ofChildren, height]; omega)
      · by_cases hlow : r.height < l'.height
        · refine .inr ⟨by simp only [height_ofChildren, height]; omega, .inr ⟨x, l', r, rfl, hne⟩⟩
        · exact .inl (by simp only [height_ofChildren, height]; omega)
  | rotateRight b bl br hb heavy outer =>
    subst hb
    obtain ⟨h1, h2, hbbl, hbbr⟩ := hbl'
    rcases hgrown with hsame | ⟨hraised, -⟩ <;> rw [height_ofChildren] at *
    · omega
    · refine ⟨?_, .inl ?_⟩
      · simp only [balanced_ofChildren, height_ofChildren]
        exact ⟨by omega, by omega, hbbl, by omega, by omega, hbbr, hbr⟩
      · simp only [height_ofChildren, height]
        omega
  | rotateLeftRight b c bl cl cr hb heavy inner =>
    subst hb
    obtain ⟨h1, h2, hbbl, h3, h4, hbcl, hbcr⟩ := hbl'
    rcases hgrown with hsame | ⟨hraised, hlean⟩
    · omega
    · -- the grown heavy child leans, and it does not lean outwards
      have hstrict : bl.height < (ofChildren c cl cr).height := by
        rcases hlean with hzero | ⟨data, l₁, r₁, heq, hne⟩
        · omega
        · simp only [ofChildren, node.injEq] at heq
          obtain ⟨-, rfl, rfl, -⟩ := heq
          exact Nat.lt_of_le_of_ne inner hne
      clear hlean
      simp only [height_ofChildren] at *
      refine ⟨?_, .inl ?_⟩
      · simp only [balanced_ofChildren, height_ofChildren]
        exact ⟨by omega, by omega, ⟨by omega, by omega, hbbl, hbcl⟩, by omega, by omega, hbcr, hbr⟩
      · simp only [height_ofChildren, height]
        omega
  | rotateLeft b bl br hb heavy outer | rotateRightLeft b c cl cr br hb heavy inner =>
    rcases hgrown with hsame | ⟨hraised, -⟩ <;> omega

theorem Grown.mirror (h : Grown t t') : Grown (mirror t) (mirror t') := by
  rcases h with hsame | ⟨hraised, hlean⟩
  · exact .inl (by simpa using hsame)
  · refine .inr ⟨by simpa using hraised, ?_⟩
    rcases hlean with hzero | ⟨data, l, r, heq, hne⟩
    · exact .inl (by simpa using hzero)
    · exact .inr ⟨data, HashMap.mirror r, HashMap.mirror l, by rw [heq, mirror_ofChildren],
        by simpa using hne.symm⟩

variable {depth : Int}

theorem restored_grown_right (hl : l.height ≤ r.height + 1)
    (hr : r.height ≤ l.height + 1) (hbl : Balanced l) (hbr' : Balanced r') (hgrown : Grown r r')
    (hrestored : Restored x l r' t') :
    Balanced t' ∧ Grown (node x l r depth) t' := by
  have hleft := restored_grown_left depth (by simpa using hr) (by simpa using hl)
    ((balanced_mirror l).2 hbl) ((balanced_mirror r').2 hbr') hgrown.mirror hrestored.mirror
  refine ⟨(balanced_mirror t').1 hleft.1, ?_⟩
  have hback := hleft.2.mirror
  simpa [mirror] using hback

/-- Insertion into a balanced tree with exact depths keeps it balanced. -/
theorem insertImpl_balanced {inserted : Bool} (hexact : DepthsExact t) (hbalanced : Balanced t)
    (hrun : insertImpl cmp true x t = some (t', inserted)) :
    DepthsExact t' ∧ Balanced t' ∧ Grown t t' := by
  induction t generalizing t' inserted with
  | null =>
    simp only [insertImpl, createNode, if_true, some.injEq, Prod.mk.injEq] at hrun
    obtain ⟨rfl, -⟩ := hrun
    exact ⟨⟨rfl, trivial, trivial⟩, by simp [Balanced, height], .inr ⟨rfl, .inl rfl⟩⟩
  | node y l r depth ihl ihr =>
    obtain ⟨hdepth, hl, hr⟩ := hexact
    obtain ⟨hlr, hrl, hbl, hbr⟩ := hbalanced
    rw [insertImpl] at hrun
    split_ifs at hrun with hlt hgt
    · simp only [bind_eq_bind, bind_eq_some_iff] at hrun
      obtain ⟨⟨l', flag⟩, hcall, cur, hrestore, hpair⟩ := hrun
      obtain ⟨hl', hbl', hgrown⟩ := ihl hl hbl hcall
      obtain ⟨rfl, -⟩ := Prod.mk.inj (some.inj hpair)
      have hrestored := restored_of_restore hl' hr hrestore
      exact ⟨hrestored.depthsExact hl' hr, restored_grown_left depth hlr hrl hbr hbl' hgrown hrestored⟩
    · simp only [bind_eq_bind, bind_eq_some_iff] at hrun
      obtain ⟨⟨r', flag⟩, hcall, cur, hrestore, hpair⟩ := hrun
      obtain ⟨hr', hbr', hgrown⟩ := ihr hr hbr hcall
      obtain ⟨rfl, -⟩ := Prod.mk.inj (some.inj hpair)
      have hrestored := restored_of_restore hl hr' hrestore
      exact ⟨hrestored.depthsExact hl hr', restored_grown_right hlr hrl hbl hbr' hgrown hrestored⟩
    · simp only [some.injEq, Prod.mk.injEq] at hrun
      obtain ⟨rfl, -⟩ := hrun
      exact ⟨⟨hdepth, hl, hr⟩, ⟨hlr, hrl, hbl, hbr⟩, .inl rfl⟩

/-! ### Removal

The removed node is reached by a path of sides: down to the matching node, and on to the leftmost node of
its right subtree when it has two children. -/

inductive Side where
  | left
  | right
deriving DecidableEq

/-- The path to the leftmost node. -/
def minimalPath : AVLNode α → List Side
  | null => []
  | node _ null _ _ => []
  | node _ leftChild _ _ => .left :: minimalPath leftChild

/-- The path from the root to the node that a removal of `data` takes out of the tree. -/
def removalPath (cmp : α → α → Int) (data : α) : AVLNode α → Option (List Side)
  | null => none
  | node current leftChild rightChild _ =>
    if cmp data current < 0 then (removalPath cmp data leftChild).map (.left :: ·)
    else if cmp data current > 0 then (removalPath cmp data rightChild).map (.right :: ·)
    else
      match leftChild, rightChild with
      | null, _ => some []
      | _, null => some []
      | _, rightChild => some (.right :: minimalPath rightChild)

def childAt : Side → AVLNode α → AVLNode α
  | .left, node _ leftChild _ _ => leftChild
  | .right, node _ _ rightChild _ => rightChild
  | _, null => null

/-- The balance factor as seen from a side: positive when the other side is the taller one. -/
def factorAgainst : Side → AVLNode α → Int
  | .left, t => getBalanceFactor t
  | .right, t => -getBalanceFactor t

def Side.other : Side → Side
  | .left => .right
  | .right => .left

/-- Given that the child on `side` gets one level lower, whether the whole subtree does: it was the
    taller child, or the other child is and leans to one side. -/
def lowersAfter (side : Side) (t : AVLNode α) : Bool :=
  factorAgainst side t < 0 ||
    (factorAgainst side t > 0 && getBalanceFactor (childAt side.other t) ≠ 0)

/-- Given that the child on `side` gets one level lower, whether `rebalance` misses: the other child
    is the taller one and perfectly balanced, and its inner child leans towards `side`. -/
def misrotatesAfter (side : Side) (t : AVLNode α) : Bool :=
  factorAgainst side t > 0 && getBalanceFactor (childAt side.other t) = 0 &&
    factorAgainst side (childAt side (childAt side.other t)) < 0

/-- Whether taking out the node at the end of the path makes the subtree one level lower. -/
def lowers : List Side → AVLNode α → Bool
  | _, null => false
  | [], node _ _ _ _ => true
  | side :: path, t => lowers path (childAt side t) && lowersAfter side t

/-- Whether taking out the node at the end of the path meets a node where `rebalance` misses. -/
def misrotates : List Side → AVLNode α → Bool
  | _, null => false
  | [], node _ _ _ _ => false
  | side :: path, t =>
    misrotates path (childAt side t) || (lowers path (childAt side t) && misrotatesAfter side t)

/-- What a removal along a path leaves, in terms of the tree before it. -/
structure Shrunk (low miss : Bool) (t t' : AVLNode α) : Prop where
  exact : DepthsExact t'
  height : t'.height + low.toNat = t.height
  balanced : Balanced t' ↔ miss = false
  kept : miss = true → low = false

theorem lowersAfter_iff (side : Side) (t : AVLNode α) :
    lowersAfter side t = true ↔
      factorAgainst side t < 0 ∨
        (factorAgainst side t > 0 ∧ getBalanceFactor (childAt side.other t) ≠ 0) := by
  rw [lowersAfter, Bool.or_eq_true, Bool.and_eq_true, decide_eq_true_iff, decide_eq_true_iff,
    decide_eq_true_iff]

theorem misrotatesAfter_iff (side : Side) (t : AVLNode α) :
    misrotatesAfter side t = true ↔
      factorAgainst side t > 0 ∧ getBalanceFactor (childAt side.other t) = 0 ∧
        factorAgainst side (childAt side (childAt side.other t)) < 0 := by
  rw [misrotatesAfter, Bool.and_eq_true, Bool.and_eq_true, decide_eq_true_iff, decide_eq_true_iff,
    decide_eq_true_iff, and_assoc]

theorem factorAgainst_left (y : α) (depth : Int) (hl : DepthsExact l) (hr : DepthsExact r) :
    factorAgainst .left (node y l r depth) = (r.height : Int) - l.height :=
  getBalanceFactor_ofChildren y hl hr

theorem lowersAfter_left (y : α) (depth : Int) (hl : DepthsExact l) (hr : DepthsExact r) :
    lowersAfter .left (node y l r depth) = true ↔
      r.height < l.height ∨ (l.height < r.height ∧ getBalanceFactor r ≠ 0) := by
  rw [lowersAfter_iff, factorAgainst_left y depth hl hr, Side.other, childAt]
  omega

theorem misrotatesAfter_left (y : α) (depth : Int) (hl : DepthsExact l) (hr : DepthsExact r) :
    misrotatesAfter .left (node y l r depth) = true ↔
      l.height < r.height ∧ getBalanceFactor r = 0 ∧ getBalanceFactor (childAt .left r) < 0 := by
  rw [misrotatesAfter_iff, factorAgainst_left y depth hl hr, Side.other, childAt, factorAgainst]
  omega

variable {y : α}

/-- A subtree that keeps its height is only rebuilt into its parent. -/
theorem shrunk_kept_left {other other' : Bool} (hr : DepthsExact r)
    (hbalanced : Balanced (node y l r depth)) (hl' : Shrunk false miss l l')
    (hrestored : Restored x l' r t') :
    Shrunk (false && other) (miss || (false && other')) (node y l r depth) t' := by
  obtain ⟨hlr, hrl, hbl, hbr⟩ := hbalanced
  have hexact' := hrestored.depthsExact hl'.exact hr
  have hheight : l'.height = l.height := hl'.height
  have hkeep : t' = ofChildren x l' r := by
    cases hrestored <;> first | rfl | omega
  subst hkeep
  refine ⟨hexact', by simp [AVLNode.height, hheight], ?_, by simp⟩
  rw [balanced_ofChildren, hl'.balanced, hheight]
  simp [hlr, hrl, hbr]

/-! The left subtree got lower than its taller sibling by two levels, and a rotation follows. -/

section LoweredLeft

variable {x y b c : α} {l l' bl br cl cr : AVLNode α} {depth : Int}

/-- The taller child leans outwards: a single rotation, and the subtree gets lower. -/
theorem shrunk_rotateLeft (hlow : l'.height + 1 = l.height) (hl' : DepthsExact l') (hbl' : Balanced l')
    (hr : DepthsExact (ofChildren b bl br)) (hbr : Balanced (ofChildren b bl br))
    (hrl : (ofChildren b bl br).height ≤ l.height + 1) (heavy : l'.height + 1 < (ofChildren b bl br).height)
    (outer : bl.height < br.height) :
    Shrunk true false (node y l (ofChildren b bl br) depth) (ofChildren b (ofChildren x l' bl) br) := by
  obtain ⟨h1, h2, hbbl, hbbr⟩ := hbr
  obtain ⟨hbl₁, hbr₁⟩ := depthsExact_ofChildren.1 hr
  rw [height_ofChildren] at hrl heavy
  refine ⟨depthsExact_ofChildren.2 ⟨depthsExact_ofChildren.2 ⟨hl', hbl₁⟩, hbr₁⟩, ?_, iff_of_true ?_ rfl,
    fun hmiss => absurd hmiss Bool.false_ne_true⟩
  · simp only [height_ofChildren, AVLNode.height, Bool.toNat_true]
    omega
  · simp only [balanced_ofChildren, height_ofChildren]
    exact ⟨by omega, by omega, ⟨by omega, by omega, hbl', hbbl⟩, hbbr⟩

/-- The taller child does not lean outwards: a double rotation. The subtree gets lower unless that
    child is perfectly balanced; then the balance is kept only if the inner grandchild does not lean
    towards the lowered side. -/
theorem shrunk_rotateRightLeft (hlow : l'.height + 1 = l.height) (hl' : DepthsExact l') (hbl' : Balanced l')
    (hr : DepthsExact (ofChildren b (ofChildren c cl cr) br))
    (hbr : Balanced (ofChildren b (ofChildren c cl cr) br))
    (hrl : (ofChildren b (ofChildren c cl cr) br).height ≤ l.height + 1)
    (heavy : l'.height + 1 < (ofChildren b (ofChildren c cl cr) br).height)
    (inner : br.height ≤ (ofChildren c cl cr).height) :
    Shrunk (decide (br.height ≠ (ofChildren c cl cr).height))
      (decide (br.height = (ofChildren c cl cr).height ∧ cr.height < cl.height))
      (node y l (ofChildren b (ofChildren c cl cr) br) depth)
      (ofChildren c (ofChildren x l' cl) (ofChildren b cr br)) := by
  obtain ⟨h1, h2, ⟨h3, h4, hbcl, hbcr⟩, hbbr⟩ := hbr
  obtain ⟨hc₁, hbr₁⟩ := depthsExact_ofChildren.1 hr
  obtain ⟨hcl₁, hcr₁⟩ := depthsExact_ofChildren.1 hc₁
  have hc : (ofChildren c cl cr).height = max cl.height cr.height + 1 := height_ofChildren c cl cr
  rw [height_ofChildren] at hrl heavy
  -- the inner grandchild is as high as the lowered subtree
  have hinner : (ofChildren c cl cr).height = l'.height + 1 := by omega
  constructor
  case exact =>
    exact depthsExact_ofChildren.2
      ⟨depthsExact_ofChildren.2 ⟨hl', hcl₁⟩, depthsExact_ofChildren.2 ⟨hcr₁, hbr₁⟩⟩
  case height =>
    by_cases hflat : br.height = (ofChildren c cl cr).height
    · rw [decide_eq_false (not_not.mpr hflat), Bool.toNat_false]
      simp only [height_ofChildren, AVLNode.height]
      omega
    · rw [decide_eq_true hflat, Bool.toNat_true]
      simp only [height_ofChildren, AVLNode.height]
      omega
  case balanced =>
    rw [decide_eq_false_iff_not, balanced_ofChildren, balanced_ofChildren, balanced_ofChildren,
      height_ofChildren, height_ofChildren]
    simp only [hbl', hbcl, hbcr, hbbr, and_true]
    omega
  case kept =>
    intro hmiss
    exact decide_eq_false (not_not.mpr (of_decide_eq_true hmiss).1)

end LoweredLeft

/-- The step of a removal at a node whose left subtree was shrunk. -/
theorem shrunk_left (hexact : DepthsExact (node y l r depth))
    (hbalanced : Balanced (node y l r depth)) (hl' : Shrunk low miss l l') (hrestored : Restored x l' r t') :
    Shrunk (low && lowersAfter .left (node y l r depth))
      (miss || (low && misrotatesAfter .left (node y l r depth))) (node y l r depth) t' := by
  obtain ⟨-, hl, hr⟩ := hexact
  cases low with
  | false => exact shrunk_kept_left hr hbalanced hl' hrestored
  | true =>
    obtain ⟨hlr, hrl, hbl, hbr⟩ := hbalanced
    have hheight : l'.height + 1 = l.height := hl'.height
    have hexact' := hrestored.depthsExact hl'.exact hr
    obtain rfl : miss = false := by
      cases hm : miss with
      | false => rfl
      | true => exact absurd (hl'.kept hm) (by simp)
    have hbl' : Balanced l' := hl'.balanced.2 rfl
    rw [Bool.true_and, Bool.true_and, Bool.false_or]
    cases hrestored with
    | keep hkl hkr =>
      have hmis : misrotatesAfter .left (node y l r depth) = false := by
        rw [Bool.eq_false_iff, Ne, misrotatesAfter_left y depth hl hr]
        omega
      have hlow : lowersAfter .left (node y l r depth) = decide (r.height < l.height) := by
        rw [Bool.eq_iff_iff, lowersAfter_left y depth hl hr, decide_eq_true_iff]
        omega
      rw [hmis, hlow]
      refine ⟨hexact', ?_, iff_of_true ⟨hkl, hkr, hbl', hbr⟩ rfl,
        fun hmiss => absurd hmiss Bool.false_ne_true⟩
      simp only [height_ofChildren, AVLNode.height]
      by_cases hlt : r.height < l.height
      · rw [decide_eq_true hlt, Bool.toNat_true]
        omega
      · rw [decide_eq_false hlt, Bool.toNat_false]
        omega
    | rotateRight b bl br hb heavy outer => omega
    | rotateLeftRight b c bl cl cr hb heavy inner => omega
    | rotateLeft b bl br hb heavy outer =>
      subst hb
      obtain ⟨hbl₁, hbr₁⟩ := depthsExact_ofChildren.1 hr
      have hfactor := getBalanceFactor_ofChildren b hbl₁ hbr₁
      have hlow : lowersAfter .left (node y l (ofChildren b bl br) depth) = true := by
        rw [lowersAfter_left y depth hl hr, hfactor]
        omega
      have hmis : misrotatesAfter .left (node y l (ofChildren b bl br) depth) = false := by
        rw [Bool.eq_false_iff, Ne, misrotatesAfter_left y depth hl hr, hfactor]
        omega
      rw [hlow, hmis]
      exact shrunk_rotateLeft hheight hl'.exact hbl' hr hbr hrl heavy outer
    | rotateRightLeft b c cl cr br hb heavy inner =>
      subst hb
      obtain ⟨hc₁, hbr₁⟩ := depthsExact_ofChildren.1 hr
      obtain ⟨hcl₁, hcr₁⟩ := depthsExact_ofChildren.1 hc₁
      have hfactor := getBalanceFactor_ofChildren b hc₁ hbr₁
      have hinner : getBalanceFactor (childAt .left (ofChildren b (ofChildren c cl cr) br)) =
          (cr.height : Int) - cl.height := getBalanceFactor_ofChildren c hcl₁ hcr₁
      have hlow : lowersAfter .left (node y l (ofChildren b (ofChildren c cl cr) br) depth) =
          decide (br.height ≠ (ofChildren c cl cr).height) := by
        rw [Bool.eq_iff_iff, lowersAfter_left y depth hl hr, hfactor, decide_eq_true_iff]
        omega
      have hmis : misrotatesAfter .left (node y l (ofChildren b (ofChildren c cl cr) br) depth) =
          decide (br.height = (ofChildren c cl cr).height ∧ cr.height < cl.height) := by
        rw [Bool.eq_iff_iff, misrotatesAfter_left y depth hl hr, hfactor, hinner, decide_eq_true_iff]
        omega
      rw [hlow, hmis]
      exact shrunk_rotateRightLeft hheight hl'.exact hbl' hr hbr hrl heavy inner

theorem getBalanceFactor_mirror (t : AVLNode α) : getBalanceFactor (mirror t) = -getBalanceFactor t := by
  cases t with
  | null => rfl
  | node data l r depth =>
    simp only [mirror, getBalanceFactor, getDepth_mirror]
    omega

theorem childAt_mirror (side : Side) (t : AVLNode α) :
    childAt side (mirror t) = mirror (childAt side.other t) := by
  cases t <;> cases side <;> rfl

theorem factorAgainst_mirror (side : Side) (t : AVLNode α) :
    factorAgainst side (mirror t) = factorAgainst side.other t := by
  cases side <;> simp [factorAgainst, Side.other, getBalanceFactor_mirror]

theorem lowersAfter_mirror (t : AVLNode α) : lowersAfter .left (mirror t) = lowersAfter .right t := by
  rw [Bool.eq_iff_iff, lowersAfter_iff, lowersAfter_iff]
  simp only [factorAgainst_mirror, childAt_mirror, getBalanceFactor_mirror, Side.other]
  omega

theorem misrotatesAfter_mirror (t : AVLNode α) :
    misrotatesAfter .left (mirror t) = misrotatesAfter .right t := by
  rw [Bool.eq_iff_iff, misrotatesAfter_iff, misrotatesAfter_iff]
  simp only [factorAgainst_mirror, childAt_mirror, getBalanceFactor_mirror, Side.other]
  omega

theorem Shrunk.mirror (h : Shrunk low miss t t') :
    Shrunk low miss (mirror t) (mirror t') :=
  ⟨(depthsExact_mirror t').2 h.exact, by simpa using h.height, by simpa using h.balanced, h.kept⟩

/-- The step of a removal at a node whose right subtree was shrunk. -/
theorem shrunk_right (hexact : DepthsExact (node y l r depth))
    (hbalanced : Balanced (node y l r depth)) (hr' : Shrunk low miss r r') (hrestored : Restored x l r' t') :
    Shrunk (low && lowersAfter .right (node y l r depth))
      (miss || (low && misrotatesAfter .right (node y l r depth))) (node y l r depth) t' := by
  have hleft := shrunk_left
    ((depthsExact_mirror (node y l r depth)).2 hexact) ((balanced_mirror (node y l r depth)).2 hbalanced)
    hr'.mirror hrestored.mirror
  have hback := hleft.mirror
  rw [← lowersAfter_mirror, ← misrotatesAfter_mirror]
  simpa [HashMap.mirror] using hback

/-- A balanced node with one child has a single leaf below it, so the child replaces it one level
    lower. -/
theorem shrunk_onlyChild {d : α} (hl : DepthsExact l) (hr : DepthsExact r)
    (hsmall : (node d l r depth).height ≤ 1) (hheight : t.height = (node d l r depth).height + 1)
    (hrestore : restore (node d l r depth) = some t') :
    Shrunk true false t t' := by
  have hzero : l.height = 0 ∧ r.height = 0 := by
    rw [AVLNode.height] at hsmall
    omega
  have hrestored := restored_of_restore hl hr hrestore
  have hexact' := hrestored.depthsExact hl hr
  have hleaf : ∀ u : AVLNode α, u.height = 0 → Balanced u := by
    intro u hu
    cases u with
    | null => trivial
    | node => simp [AVLNode.height] at hu
  have hkeep : t' = ofChildren d l r := by
    cases hrestored <;> first | rfl | omega
  subst hkeep
  refine ⟨hexact', by rw [hheight]; rfl, ?_, by simp⟩
  simp [hzero, hleaf l hzero.1, hleaf r hzero.2]

theorem removeMinimal_shrunk (t t' : AVLNode α) (hexact : DepthsExact t) (hbalanced : Balanced t)
    (hrun : removeMinimal t = some t') :
    Shrunk (lowers (minimalPath t) t) (misrotates (minimalPath t) t) t t' := by
  fun_induction removeMinimal t generalizing t' with
  | case1 => cases hrun
  | case2 x depth =>
    cases hrun
    exact ⟨trivial, rfl, by simp [Balanced, minimalPath, misrotates], by simp [minimalPath, misrotates]⟩
  | case3 x data l r depth depth' =>
    obtain ⟨-, -, -, hl, hr⟩ := hexact
    obtain ⟨-, hsmall, -, -⟩ := hbalanced
    exact shrunk_onlyChild hl hr (by simpa [AVLNode.height] using hsmall)
      (by simp [AVLNode.height]) hrun
  | case4 x data l r depth right depth' ih =>
    simp only [bind_eq_bind, bind_eq_some_iff] at hrun
    obtain ⟨l', hcall, hrestore⟩ := hrun
    have hl' := ih l' hexact.2.1 hbalanced.2.2.1 hcall
    exact shrunk_left hexact hbalanced hl' (restored_of_restore hl'.exact hexact.2.2 hrestore)

theorem removalPath_lt (hlt : cmp x y < 0) :
    removalPath cmp x (node y l r depth) = (removalPath cmp x l).map (.left :: ·) := by
  cases l <;> cases r <;> simp [removalPath, hlt]

theorem removalPath_gt (hgt : cmp x y > 0) :
    removalPath cmp x (node y l r depth) = (removalPath cmp x r).map (.right :: ·) := by
  have hlt : ¬ cmp x y < 0 := by omega
  cases l <;> cases r <;> simp [removalPath, hlt, hgt]

/-- A removal from a balanced tree with exact depths: the height afterwards, and that the result is
    balanced exactly when the removal does not misrotate. -/
theorem removeImpl_balanced (h : LawfulComparator cmp) (t : AVLNode α) :
    ∀ {t' : AVLNode α} {removedData : Option α}, DepthsExact t → Balanced t →
      StrictlyIncreasing cmp t.toList → removeImpl cmp x t = some (t', removedData) →
      Shrunk ((removalPath cmp x t).elim false (lowers · t))
        ((removalPath cmp x t).elim false (misrotates · t)) t t' := by
  induction t with
  | null =>
    intro t' removedData _ _ _ hrun
    rw [removeImpl] at hrun
    cases hrun
    exact ⟨trivial, rfl, by simp [Balanced, removalPath], by simp [removalPath]⟩
  | node y l r depth ihl ihr =>
    intro t' removedData hexact hbalanced hsorted hrun
    obtain ⟨hsl, hsr, hly, hyr⟩ := strictlyIncreasing_node hsorted
    rcases Int.lt_trichotomy (cmp x y) 0 with hlt | hzero | hgt
    · rw [removeImpl_lt hlt] at hrun
      simp only [bind_eq_some_iff] at hrun
      obtain ⟨⟨l', removed⟩, hcall, cur, hrestore, hpair⟩ := hrun
      have hl' := ihl hexact.2.1 hbalanced.2.2.1 hsl hcall
      obtain ⟨rfl, -⟩ := Prod.mk.inj (some.inj hpair)
      have hstep := shrunk_left hexact hbalanced hl' (restored_of_restore hl'.exact hexact.2.2 hrestore)
      rw [removalPath_lt hlt]
      cases hpath : removalPath cmp x l with
      | none => simpa [hpath] using hstep
      | some path =>
        rw [hpath] at hstep
        exact hstep
    · have hcmp : ¬ cmp x y < 0 ∧ ¬ cmp x y > 0 := by omega
      rcases l with _ | ⟨d, ll, lr, depth'⟩ <;> rcases r with _ | ⟨d', rl, rr, depth''⟩
      · simp only [removeImpl, if_neg hcmp.1, if_neg hcmp.2, some.injEq, Prod.mk.injEq] at hrun
        obtain ⟨rfl, -⟩ := hrun
        rw [removalPath, if_neg hcmp.1, if_neg hcmp.2]
        exact ⟨trivial, rfl, by simp [Balanced, misrotates], by simp [misrotates]⟩
      · simp only [removeImpl, if_neg hcmp.1, if_neg hcmp.2, bind_eq_bind,
          bind_eq_some_iff] at hrun
        obtain ⟨cur, hrestore, hpair⟩ := hrun
        obtain ⟨rfl, -⟩ := Prod.mk.inj (some.inj hpair)
        rw [removalPath, if_neg hcmp.1, if_neg hcmp.2]
        exact shrunk_onlyChild hexact.2.2.2.1 hexact.2.2.2.2
          (by simpa [AVLNode.height] using hbalanced.2.1) (by simp [AVLNode.height]) hrestore
      · simp only [removeImpl, if_neg hcmp.1, if_neg hcmp.2, bind_eq_bind,
          bind_eq_some_iff] at hrun
        obtain ⟨cur, hrestore, hpair⟩ := hrun
        obtain ⟨rfl, -⟩ := Prod.mk.inj (some.inj hpair)
        have hpath : removalPath cmp x (node y (node d ll lr depth') null depth) = some [] := by
          simp [removalPath, hzero]
        rw [hpath]
        exact shrunk_onlyChild hexact.2.1.2.1 hexact.2.1.2.2
          (by simpa [AVLNode.height] using hbalanced.1) (by simp [AVLNode.height]) hrestore
      · -- the swapped-out value runs down the left spine of the right subtree
        have hcall := removeImpl_setMinimalNode h y (node d' rl rr depth'') (by simp) hyr
        simp only [removeImpl, if_neg hcmp.1, if_neg hcmp.2, bind_eq_bind, hcall,
          bind_eq_some_iff, map_eq_some_iff] at hrun
        obtain ⟨successor, -, ⟨r', removed⟩, ⟨r₁, hmin, hr₁⟩, cur, hrestore, hpair⟩ := hrun
        obtain ⟨rfl, -⟩ := Prod.mk.inj hr₁
        obtain ⟨rfl, -⟩ := Prod.mk.inj (some.inj hpair)
        have hr' := removeMinimal_shrunk _ r₁ hexact.2.2 hbalanced.2.2.2 hmin
        have hpath : removalPath cmp x (node y (node d ll lr depth') (node d' rl rr depth'') depth) =
            some (.right :: minimalPath (node d' rl rr depth'')) := by
          simp [removalPath, hzero]
        rw [hpath]
        exact shrunk_right hexact hbalanced hr' (restored_of_restore hexact.2.1 hr'.exact hrestore)
    · rw [removeImpl_gt hgt] at hrun
      simp only [bind_eq_some_iff] at hrun
      obtain ⟨⟨r', removed⟩, hcall, cur, hrestore, hpair⟩ := hrun
      have hr' := ihr hexact.2.2 hbalanced.2.2.2 hsr hcall
      obtain ⟨rfl, -⟩ := Prod.mk.inj (some.inj hpair)
      have hstep := shrunk_right hexact hbalanced hr' (restored_of_restore hexact.2.1 hr'.exact hrestore)
      rw [removalPath_gt hgt]
      cases hpath : removalPath cmp x r with
      | none => simpa [hpath] using hstep
      | some path =>
        rw [hpath] at hstep
        exact hstep

/-! ### Runs -/

/-- The tree between two calls is balanced and its stored depths are its true heights. -/
def AvlShape (tree : AVLTree α) : Prop := Balanced tree.head ∧ DepthsExact tree.head

/-- The removal in this call, if it is one, does not misrotate. -/
def NoMisrotation (cmp : α → α → Int) (tree : AVLTree α) : AvlOp α → Prop
  | .remove data => ∀ path, removalPath cmp data tree.head = some path → misrotates path tree.head = false
  | _ => True

/-- No call of the sequence misrotates in the state it is made in. -/
def NoMisrotations (cmp : α → α → Int) : AVLTree α → List (AvlOp α) → Prop
  | _, [] => True
  | tree, op :: ops =>
    NoMisrotation cmp tree op ∧
      ∀ tree' result, avlStep cmp tree op = some (tree', result) → NoMisrotations cmp tree' ops

theorem avlStep_balanced_iff (h : LawfulComparator cmp) {tree tree' : AVLTree α} {op : AvlOp α}
    {result : AvlResult α} (hinv : AvlInvariant cmp tree) (hbalanced : Balanced tree.head)
    (hstep : avlStep cmp tree op = some (tree', result)) :
    Balanced tree'.head ↔ NoMisrotation cmp tree op := by
  cases op with
  | insert x =>
    simp only [avlStep, avlInsert, bind_eq_bind, bind_eq_some_iff] at hstep
    obtain ⟨⟨tree₁, flag⟩, ⟨⟨head, inserted⟩, hrun, htree⟩, hpair⟩ := hstep
    obtain rfl : head = tree'.head := by grind
    simp [NoMisrotation, (insertImpl_balanced hinv.exact hbalanced hrun).2.1]
  | remove x =>
    simp only [avlStep, avlRemove, bind_eq_bind, bind_eq_some_iff] at hstep
    obtain ⟨⟨tree₁, removed⟩, ⟨⟨head, removedData⟩, hrun, htree⟩, hpair⟩ := hstep
    obtain rfl : head = tree'.head := by grind
    rw [(removeImpl_balanced h tree.head hinv.exact hbalanced hinv.sorted hrun).balanced, NoMisrotation]
    cases removalPath cmp x tree.head <;> simp
  | find x =>
    simp only [avlStep, some.injEq, Prod.mk.injEq] at hstep
    obtain ⟨rfl, -⟩ := hstep
    simp [NoMisrotation, hbalanced]

theorem avlRun_balanced_iff_from (h : LawfulComparator cmp) (ops : List (AvlOp α)) :
    ∀ {tree : AVLTree α}, AvlInvariant cmp tree → Balanced tree.head →
      ((∀ pre, pre <+: ops → ∃ tree' results, avlRun cmp tree pre = some (tree', results) ∧ AvlShape tree') ↔
        NoMisrotations cmp tree ops) := by
  induction ops with
  | nil =>
    intro tree hinv hbalanced
    simp [NoMisrotations, avlRun, AvlShape, hbalanced, hinv.exact]
  | cons op ops ih =>
    intro tree hinv hbalanced
    obtain ⟨tree₁, result, hstep, -, hinv₁, -⟩ :=
      avlStep_refines h hinv (s := {y | y ∈ tree.head.toList}) (fun y => Iff.rfl) op
    have hone := avlStep_balanced_iff h hinv hbalanced hstep
    have hcons : ∀ pre, (∃ tree' results, avlRun cmp tree (op :: pre) = some (tree', results) ∧
      AvlShape tree') ↔
        ∃ tree' results, avlRun cmp tree₁ pre = some (tree', results) ∧ AvlShape tree' := by
      intro pre
      simp only [avlRun, hstep, bind_eq_bind, bind_some]
      rcases avlRun cmp tree₁ pre with _ | ⟨tree', results⟩ <;> simp
    simp only [NoMisrotations, hstep]
    constructor
    · intro hall
      have hall₁ := fun pre hpre => (hcons pre).1 (hall _ (List.cons_prefix_cons.2 ⟨rfl, hpre⟩))
      -- the state behind the first call is balanced, so the call is safe
      obtain ⟨tree', results, hrun, hshape⟩ := hall₁ [] List.nil_prefix
      cases hrun
      refine ⟨hone.1 hshape.1, ?_⟩
      rintro _ _ ⟨⟩
      exact (ih hinv₁ hshape.1).1 hall₁
    · rintro ⟨hsafe, hrest⟩ pre hpre
      rcases List.prefix_cons_iff.1 hpre with rfl | ⟨pre, rfl, hrestpre⟩
      · exact ⟨tree, [], rfl, hbalanced, hinv.exact⟩
      · exact (hcons pre).2 ((ih hinv₁ (hone.2 hsafe)).2 (hrest _ _ rfl) pre hrestpre)

/-- Along a run on a fresh tree every state is balanced with exact stored depths if and only if no
    removal of the run misrotates in the state it is made in. -/
theorem avlRun_balanced_iff {cmp : α → α → Int} (h : LawfulComparator cmp) (ops : List (AvlOp α)) :
    (∀ pre, pre <+: ops →
      ∃ tree results, avlRun cmp avlCreateTree pre = some (tree, results) ∧ AvlShape tree) ↔
      NoMisrotations cmp avlCreateTree ops :=
  avlRun_balanced_iff_from h ops (AvlInvariant.create cmp) trivial

/-- A rotation for an insertion and one for a removal. -/
theorem avlRun_balanced_iff_int :
    ∃ tree results, avlRun (fun a b : Int => a - b) avlCreateTree
      [.insert 1, .insert 2, .insert 3, .insert 4, .remove 1] = some (tree, results) ∧ AvlShape tree := by
  refine (avlRun_balanced_iff lawful_int_sub _).mpr ?_ _ List.prefix_rfl
  refine ⟨trivial, ?_⟩
  iterate 3
    rintro _ _ ⟨⟩
    refine ⟨trivial, ?_⟩
  rintro _ _ ⟨⟩
  refine ⟨?_, fun _ _ _ => trivial⟩
  rintro _ ⟨⟩
  rfl

/-- Eight insertions and one removal after which the node of 3 has a left subtree of height two and
    no right child. -/
theorem avlRun_unbalanced :
    ¬ ∃ tree results,
      avlRun (fun a b : Int => a - b) avlCreateTree
        [.insert 6, .insert 3, .insert 7, .insert 1, .insert 4, .insert 8, .insert 2, .insert 5,
          .remove 6] = some (tree, results) ∧ AvlShape tree := by
  have hrun : (avlRun (fun a b : Int => a - b) avlCreateTree
      [.insert 6, .insert 3, .insert 7, .insert 1, .insert 4, .insert 8, .insert 2, .insert 5,
        .remove 6]).map (fun p => decide (Balanced p.1.head)) = some false := by
    decide +kernel
  rintro ⟨tree, results, heq, hbalanced, -⟩
  rw [heq] at hrun
  simp [hbalanced] at hrun

end NsuLabs.HashMap
