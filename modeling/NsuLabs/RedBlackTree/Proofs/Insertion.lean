/-
Module: NsuLabs.RedBlackTree.Proofs.Insertion
Purpose: What the functions on single nodes do to a red-black tree in memory, seen from one of its nodes: the
  tests of the shape read the sides of the path above it, and a rotation turns the tree over. `RBTreeBalance`
  makes a tree red-black that is so but for one red node; inserted values give a red-black tree with their
  sorted list.
Trusted boundary: none
Main exports: Holds, insertAll_redBlack
-/
import NsuLabs.RedBlackTree.RedBlackTree

namespace NsuLabs.RedBlackTree

open Lib Function List Option

abbrev RBTree := PTree RBData

abbrev RBPath := Path RBData

/-- The memory holds the tree at the end of the path and the rest of the tree around it, and no two
    of their nodes are one. -/
structure Holds (m : RBMemory) (path : RBPath) (t : RBTree) : Prop where
  rep : Rep m t
  above : PathRep m path t.root
  nodup : (t.ptrs ++ Path.ptrs path).Nodup

section

variable {m : RBMemory} {path : RBPath} {t : RBTree} {f g : Frame RBData} {side : Side} {p : Ptr}
  {data : RBData}
  {near far : RBTree}

theorem holds_up : Holds m (f :: path) t ↔ Holds m path (f.fill t) := by
  have hnodup : (t.ptrs ++ Path.ptrs (f :: path)).Nodup ↔ ((f.fill t).ptrs ++ Path.ptrs path).Nodup := by
    rw [← (ptrs_plug_perm (f :: path) t).nodup_iff, ← (ptrs_plug_perm path (f.fill t)).nodup_iff, plug]
  constructor
  · rintro ⟨hrep, hpath, hnd⟩
    obtain ⟨hrep', hpath'⟩ := pathRep_up.mp ⟨hrep, hpath⟩
    exact ⟨hrep', hpath', hnodup.mp hnd⟩
  · rintro ⟨hrep, hpath, hnd⟩
    obtain ⟨hrep', hpath'⟩ := pathRep_up.mpr ⟨hrep, hpath⟩
    exact ⟨hrep', hpath', hnodup.mpr hnd⟩

theorem nodup_make : ((PTree.make side p data near far).ptrs ++ Path.ptrs path).Nodup ↔
    (p :: (near.ptrs ++ far.ptrs ++ Path.ptrs path)).Nodup :=
  ((PTree.ptrs_make_perm side p data near far).append_right _).nodup_iff

/-- The addresses below and above a node are other ones. -/
theorem Holds.fresh (h : Holds m path (.make side p data near far)) :
    p ∉ near.ptrs ∧ p ∉ far.ptrs ∧ p ∉ Path.ptrs path := by
  have hfresh := (nodup_cons.mp (nodup_make.mp h.nodup)).1
  simp only [mem_append, not_or] at hfresh
  exact ⟨hfresh.1.1, hfresh.1.2, hfresh.2⟩

theorem Holds.cell (h : Holds m path (.make side p data near far)) :
    m p = some (Cell.make side near.root far.root data) :=
  (rep_make.mp h.rep).1

theorem setColor_spec (h : Holds m path (.make side p data near far)) (color : Color) :
    ∃ m', setColor m p color = some m' ∧ Holds m' path (.make side p { data with color } near far) := by
  obtain ⟨hcell, hnear, hfar⟩ := rep_make.mp h.rep
  obtain ⟨hpnear, hpfar, hppath⟩ := h.fresh
  have hset : ({ Cell.make side near.root far.root data with
      data := { (Cell.make side near.root far.root data).data with color } } : RBNode) =
      Cell.make side near.root far.root { data with color } := by
    cases side <;> rfl
  refine ⟨_, by rw [setColor, hcell, map_some, hset], ?_⟩
  constructor
  case rep => exact rep_make.mpr ⟨update_self .., (rep_update hpnear).mpr hnear, (rep_update hpfar).mpr hfar⟩
  case above =>
    rw [PTree.root_make]
    exact (pathRep_update hppath).mpr (PTree.root_make side p data near far ▸ h.above)
  case nodup => exact nodup_make.mpr (nodup_make.mp h.nodup)

/-! ### Tests of the shape -/

/-- A node is the child of the one above it on the side of the path, and only there. -/
theorem isChild_spec (h : Holds m (f :: path) (.make side p data near far)) (other : Side) :
    isChild m other p (some f.p) = some (decide (other = f.side)) := by
  have hcell := h.above.1
  obtain ⟨-, -, hppath⟩ := h.fresh
  rw [PTree.root_make] at hcell
  rw [isChild, hcell, map_some]
  by_cases hside : other = f.side
  · rw [hside, Cell.child_make]
    simp
  · have hother : other = f.side.other := by
      revert hside
      cases other <;> cases f.side <;> decide
    have hsibling : f.sibling.root ≠ some p := by
      intro hroot
      apply hppath
      obtain ⟨d, x, y, hmake⟩ := PTree.eq_make hroot .left
      simp [Path.ptrs, hmake]
    rw [hother, Cell.child_other_make]
    simp [hsibling]

theorem isLined_spec (h : Holds m (f :: g :: path) (.make side p data near far)) :
    isLined m p f.p g.p = some (decide (f.side = g.side)) := by
  have hparent : ∀ other, isChild m other f.p (some g.p) = some (decide (other = g.side)) :=
    isChild_spec (holds_up.mp h)
  rw [isLined, isLeftChild, isLeftChild, isRightChild, isRightChild, isChild_spec h, isChild_spec h,
    hparent, hparent]
  cases f.side <;> cases g.side <;> rfl

theorem getUncle_spec (h : Holds m (f :: g :: path) t) : getUncle m f.p g.p = some g.sibling.root := by
  have hup : Holds m (g :: path) (f.fill t) := holds_up.mp h
  have hcell := hup.above.1
  rw [getUncle, isLeftChild, isChild_spec hup, hcell]
  cases g.side <;> rfl

/-- The colour of the root of a tree; the null pointers are black. -/
def rootColor : RBTree → Color
  | .nil => .black
  | .node _ data _ _ => data.color

theorem isRed_spec (h : Rep m t) : isRed m t.root = some (decide (rootColor t = .red)) := by
  cases t with
  | nil => rfl
  | node q d l r => rw [PTree.root, isRed, h.1, map_some, rootColor]

/-! ### Rotations -/

variable {a b : Ptr} {dataA dataB : RBData} {outer inner : RBTree}

theorem ptrs_turn_perm {dataA' dataB' : RBData} :
    (PTree.make side a dataA (.make side b dataB outer inner) far).ptrs.Perm
    (PTree.make side b dataB' outer (.make side a dataA' inner far)).ptrs := by
  apply perm_iff_count.mpr
  intro q
  cases side <;> simp only [PTree.make, PTree.ptrs, count_cons, count_append] <;> omega

theorem relink_of_child {q : Ptr} {cell : RBNode} (hcell : m q = some cell)
    (hchild : cell.child side = some a) (child : Option Ptr) :
    relink m side a (some q) child = some (Function.update m q (some (cell.setChild side child))) := by
  simp [relink, isChild, setChild, hcell, hchild]

theorem relink_of_not_child {q : Ptr} {cell : RBNode} (hcell : m q = some cell)
    (hchild : cell.child side ≠ some a)
    (child : Option Ptr) : relink m side a (some q) child = some m := by
  simp [relink, isChild, hcell, hchild]

/-- The pointer of the node above is turned from `a` to `child`, on the side where it is. -/
theorem relink_spec (habove : PathRep m path (some a)) (hnodup : (a :: Path.ptrs path).Nodup)
    (child : Option Ptr) : ∃ m₁ m₂, relink m .left a (Path.stack path).head? child = some m₁ ∧
      relink m₁ .right a (Path.stack path).head? child = some m₂ ∧
      PathRep m₂ path child ∧ ∀ q ∉ Path.ptrs path, m₂ q = m q := by
  cases path with
  | nil => exact ⟨m, m, rfl, rfl, trivial, fun _ _ => rfl⟩
  | cons f path =>
    obtain ⟨hcell, hsibling, habove⟩ := habove
    simp only [Path.ptrs, flatMap_cons, cons_append, nodup_cons, mem_cons, mem_append,
      not_or] at hnodup
    obtain ⟨⟨-, haSibling, -⟩, ⟨hpSibling, hpPath⟩, -⟩ := hnodup
    have hroot : f.sibling.root ≠ some a := by
      intro hroot
      obtain ⟨d, x, y, hmake⟩ := PTree.eq_make hroot .left
      apply haSibling
      simp [hmake]
    let m' := Function.update m f.p (some (Cell.make f.side child f.sibling.root f.data))
    have hcell' : m' f.p = some (Cell.make f.side child f.sibling.root f.data) := update_self ..
    have habove' : PathRep m' (f :: path) child :=
      ⟨hcell', (rep_update hpSibling).mpr hsibling, (pathRep_update hpPath).mpr habove⟩
    have hsame : ∀ q ∉ Path.ptrs (f :: path), m' q = m q := by
      intro q hq
      apply update_of_ne
      intro heq
      apply hq
      simp [Path.ptrs, heq]
    -- the pointer is on one side; the other side points to the sibling, before and after
    have hhere : relink m f.side a (some f.p) child = some m' := by
      rw [relink_of_child hcell (Cell.child_make ..), Cell.setChild_make]
    have hthere : ∀ (m₀ : RBMemory) (hole : Option Ptr),
        m₀ f.p = some (Cell.make f.side hole f.sibling.root f.data) →
        relink m₀ f.side.other a (some f.p) child = some m₀ := by
      intro m₀ hole hm₀
      apply relink_of_not_child hm₀
      rw [Cell.child_other_make]
      exact hroot
    have hbefore := hthere m (some a) hcell
    have hafter := hthere m' child hcell'
    cases hside : f.side with
    | left =>
      rw [hside] at hhere hafter
      exact ⟨m', m', hhere, hafter, habove', hsame⟩
    | right =>
      rw [hside] at hhere hbefore
      exact ⟨m, m', hbefore, hhere, habove', hsame⟩

/-- `a` goes down and `b`, its child on `side`, takes its place. -/
theorem rotate_spec (h : Holds m path (.make side a dataA (.make side b dataB outer inner) far)) :
    ∃ m', rotate m side.other a (Path.stack path).head? = some m' ∧
      Holds m' path (.make side b dataB outer (.make side a dataA inner far)) := by
  obtain ⟨hcellA, hrepB, hrepFar⟩ := rep_make.mp h.rep
  obtain ⟨hcellB, hrepOuter, hrepInner⟩ := rep_make.mp hrepB
  rw [PTree.root_make] at hcellA
  -- which addresses are apart
  obtain ⟨haB, haFar, haPath⟩ := h.fresh
  simp only [PTree.mem_ptrs_make, not_or] at haB
  obtain ⟨hab, haOuter, haInner⟩ := haB
  have hbHolds : Holds m (⟨a, dataA, side, far⟩ :: path) (.make side b dataB outer inner) := holds_up.mpr h
  obtain ⟨hbOuter, hbInner, hbAbove⟩ := hbHolds.fresh
  simp only [Path.ptrs, flatMap_cons, cons_append, mem_cons, mem_append, not_or] at hbAbove
  obtain ⟨-, hbFar, hbPath⟩ := hbAbove
  have hapart : ∀ t : RBTree, t.ptrs ⊆ (PTree.make side a dataA (.make side b dataB outer inner) far).ptrs →
      ∀ q ∈ t.ptrs, q ∉ Path.ptrs path :=
    fun t hsub q hq hpath => (nodup_append.mp h.nodup).2.2 q (hsub hq) q hpath rfl
  -- the node above, then the two nodes
  have hnodup : (a :: Path.ptrs path).Nodup :=
    nodup_cons.mpr ⟨haPath, (nodup_append.mp h.nodup).2.1⟩
  obtain ⟨m₁, m₂, hlink₁, hlink₂, habove, hsame⟩ :=
    relink_spec (PTree.root_make .. ▸ h.above) hnodup (some b)
  have hcellA₂ := (hsame a haPath).trans hcellA
  have hcellB₂ := (hsame b hbPath).trans hcellB
  let m₃ := Function.update m₂ a (some (Cell.make side inner.root far.root dataA))
  let m₄ := Function.update m₃ b (some (Cell.make side outer.root (some a) dataB))
  have hset₃ : setChild m₂ side a inner.root = some m₃ := by
    rw [setChild, hcellA₂, map_some, Cell.setChild_make]
  have hset₄ : setChild m₃ side.other b (some a) = some m₄ := by
    have hcellB₃ : m₃ b = some (Cell.make side outer.root inner.root dataB) :=
      (update_of_ne (Ne.symm hab) ..).trans hcellB₂
    rw [setChild, hcellB₃, map_some, Cell.setChild_other_make]
  refine ⟨m₄, ?_, ?_⟩
  · simp only [rotate, hcellA, bind_eq_bind, bind_some, Side.other_other, Cell.child_make, hlink₁, hlink₂,
      hcellB₂, Cell.child_other_make, hset₃, hset₄]
  · have hkeep : ∀ t : RBTree, t.ptrs ⊆ (PTree.make side a dataA (.make side b dataB outer inner) far).ptrs →
        a ∉ t.ptrs → b ∉ t.ptrs → Rep m t → Rep m₄ t := by
      intro t hsub ha hb hrep
      apply (rep_update hb).mpr
      apply (rep_update ha).mpr
      exact rep_congr (fun q hq => hsame q (hapart t hsub q hq)) hrep
    constructor
    case rep =>
      apply rep_make.mpr
      refine ⟨?_, ?_, rep_make.mpr ⟨?_, ?_, ?_⟩⟩
      · rw [PTree.root_make]
        exact update_self ..
      · exact hkeep outer (fun q hq => by simp [hq]) haOuter hbOuter hrepOuter
      · exact (update_of_ne hab ..).trans (update_self ..)
      · exact hkeep inner (fun q hq => by simp [hq]) haInner hbInner hrepInner
      · exact hkeep far (fun q hq => by simp [hq]) haFar hbFar hrepFar
    case above =>
      rw [PTree.root_make]
      apply (pathRep_update hbPath).mpr
      exact (pathRep_update haPath).mpr habove
    case nodup => exact (ptrs_turn_perm.append_right _).nodup_iff.mp h.nodup

end

/-! ### The invariant -/

/-- No red node has a red child, and every path to a null pointer has the same number of black
    nodes; the colour is the one of the root. -/
inductive RB : RBTree → Color → Nat → Prop
  | nil : RB .nil .black 0
  | red {p v l r n} : RB l .black n → RB r .black n → RB (.node p ⟨.red, v⟩ l r) .red n
  | black {p v l r cl cr n} : RB l cl n → RB r cr n → RB (.node p ⟨.black, v⟩ l r) .black (n + 1)

/-- A tree of this colour and black height in the hole makes a red-black tree with a black root. -/
inductive PathRB : RBPath → Color → Nat → Prop
  | root {n} : PathRB [] .black n
  | red {p v side sibling path n} : RB sibling .black n → PathRB path .red n →
      PathRB (⟨p, ⟨.red, v⟩, side, sibling⟩ :: path) .black n
  | black {p v side sibling path c c' n} : RB sibling c' n → PathRB path .black (n + 1) →
      PathRB (⟨p, ⟨.black, v⟩, side, sibling⟩ :: path) c n

section

variable {m m' : RBMemory} {path : RBPath} {t t' : RBTree} {f g : Frame RBData} {side : Side} {p a b : Ptr}
  {data dataA dataB : RBData} {near far outer inner : RBTree} {c c' : Color} {n : Nat} {v : Int}

theorem RB.make_red (hnear : RB near .black n) (hfar : RB far .black n) :
    RB (.make side p ⟨.red, v⟩ near far) .red n := by
  cases side with
  | left => exact RB.red hnear hfar
  | right => exact RB.red hfar hnear

theorem RB.make_black (hnear : RB near c n) (hfar : RB far c' n) :
    RB (.make side p ⟨.black, v⟩ near far) .black (n + 1) := by
  cases side with
  | left => exact RB.black hnear hfar
  | right => exact RB.black hfar hnear

/-- A red tree, seen from either side. -/
theorem RB.eq_make (h : RB t .red n) (side : Side) : ∃ p v near far, t = .make side p ⟨.red, v⟩ near far ∧
    RB near .black n ∧ RB far .black n := by
  cases h with
  | red hl hr =>
    cases side with
    | left => exact ⟨_, _, _, _, rfl, hl, hr⟩
    | right => exact ⟨_, _, _, _, rfl, hr, hl⟩

theorem RB.rootColor_eq (h : RB t c n) : rootColor t = c := by
  cases h <;> rfl

theorem RB.plug (h : RB t c n) (hpath : PathRB path c n) : ∃ n', RB (plug path t) .black n' := by
  induction hpath generalizing t with
  | root => exact ⟨_, h⟩
  | red hsibling _ ih => exact ih (RB.make_red h hsibling)
  | black hsibling _ ih => exact ih (RB.make_black h hsibling)

/-! ### What balancing keeps -/

/-- The values in the order of an in-order traversal. -/
def values (t : RBTree) : List Int := t.toList.map RBData.value

theorem values_plug (path : RBPath) (h : values t = values t') :
    values (plug path t) = values (plug path t') := by
  rw [values, values, toList_plug, toList_plug, map_append, map_append, map_append, map_append]
  rw [values, values] at h
  rw [h]

theorem values_recolor :
    values (.make side p { data with color := c } near far) = values (.make side p data near far) := by
  cases side <;> simp [values, PTree.make, PTree.toList]

theorem values_turn {cA cA' cB cB' : Color} {vA vB : Int} :
    values (.make side a ⟨cA, vA⟩ (.make side b ⟨cB, vB⟩ outer inner) far) =
      values (.make side b ⟨cB', vB⟩ outer (.make side a ⟨cA', vA⟩ inner far)) := by
  cases side <;> simp [values, PTree.make, PTree.toList]

/-- What has become of the tree `before`. -/
structure Balanced (m' : RBMemory) (newRoot : Option Ptr) (before after : RBTree) : Prop where
  holds : Holds m' [] after
  redBlack : ∃ n, RB after .black n
  values : values after = values before
  ptrs : after.ptrs.Perm before.ptrs
  root : newRoot.or before.root = after.root

theorem holds_plug : Holds m path t ↔ Holds m [] (plug path t) := by
  induction path generalizing t with
  | nil => exact Iff.rfl
  | cons f path ih => exact holds_up.trans ih

/-! ### The cases of `RBTreeBalance` -/

/-- A black node ends the balancing; at the root it is the new root. -/
theorem rbTreeBalance_black (h : Holds m path (.make side p data near far)) (hcolor : data.color = .black) :
    ∃ m', rbTreeBalance m p (Path.stack path) = some (m', if path = [] then some p else none) ∧
      Holds m' path (.make side p data near far) := by
  have hcell := h.cell
  match path with
  | [] =>
    obtain ⟨m', hset, hholds⟩ := setColor_spec h .black
    have hsame : { data with color := .black } = data := by rw [← hcolor]
    rw [hsame] at hholds
    refine ⟨m', ?_, hholds⟩
    simp only [Path.stack, map_nil, rbTreeBalance, hset, bind_eq_bind, bind_some]
    rfl
  | [f] =>
    refine ⟨m, ?_, h⟩
    simp only [Path.stack, map_cons, map_nil, rbTreeBalance, hcell, bind_eq_bind, bind_some,
      Cell.data_make, hcolor]
    rfl
  | f :: g :: path =>
    refine ⟨m, ?_, h⟩
    simp only [Path.stack, map_cons, rbTreeBalance, getUncle_spec h, hcell, bind_eq_bind,
      bind_some, Cell.data_make, hcolor]
    rfl

/-- A black parent ends the balancing. -/
theorem rbTreeBalance_blackParent (h : Holds m (f :: path) (.make side p data near far))
    (hcolor : data.color = .red)
    (hparent : f.data.color = .black) : rbTreeBalance m p (Path.stack (f :: path)) = some (m, none) := by
  have hcell := h.cell
  have hcellParent := h.above.1
  match path with
  | [] =>
    simp only [Path.stack, map_cons, map_nil, rbTreeBalance, hcell, hcellParent, bind_eq_bind,
      bind_some, Cell.data_make, hcolor, hparent]
    rfl
  | g :: path =>
    simp only [Path.stack, map_cons, rbTreeBalance, getUncle_spec h, hcell, hcellParent, bind_eq_bind,
      bind_some, Cell.data_make, hcolor, hparent]
    rfl

theorem rbTreeBalance_redUncle (h : Holds m (f :: g :: path) (.make side p data near far))
    (hcolor : data.color = .red) (hparent : f.data.color = .red) (huncle : rootColor g.sibling = .red) :
    rbTreeBalance m p (Path.stack (f :: g :: path)) =
      (g.sibling.root.bind fun uncle => setColor m uncle .black).bind fun m =>
        (setColor m f.p .black).bind fun m =>
          (setColor m g.p .red).bind fun m => rbTreeBalance m g.p (Path.stack path) := by
  have hcell := h.cell
  have hcellParent := h.above.1
  have hred := isRed_spec h.above.2.2.2.1
  simp only [Path.stack, map_cons, rbTreeBalance, getUncle_spec h, hcell, hcellParent, bind_eq_bind,
    bind_some, Cell.data_make, hcolor, hparent, hred, huncle]
  rfl

/-- The end of case 2.2, in front of the last call. -/
def turn (m : RBMemory) (node parent grandparent : Ptr) (above : Option Ptr) : Option RBMemory := do
  let m ← setColor m parent .black
  let m ← setColor m grandparent .red
  if ← isLeftChild m node (some parent) then rotateRight m grandparent above
  else rotateLeft m grandparent above

theorem ite_bind {β γ : Type} (cond : Prop) [Decidable cond] (x y : Option β) (k : β → Option γ) :
    (if cond then x else y).bind k = if cond then x.bind k else y.bind k := by
  split_ifs <;> rfl

theorem rbTreeBalance_blackUncle (h : Holds m (f :: g :: path) (.make side p data near far))
    (hcolor : data.color = .red)
    (hparent : f.data.color = .red) (huncle : rootColor g.sibling = .black) :
    rbTreeBalance m p (Path.stack (f :: g :: path)) =
      if f.side = g.side then
        (turn m p f.p g.p (Path.stack path).head?).bind fun m => rbTreeBalance m f.p (Path.stack path)
      else
        (makeLined m p f.p g.p).bind fun m =>
          (turn m f.p p g.p (Path.stack path).head?).bind fun m => rbTreeBalance m p (Path.stack path) := by
  have hcell := h.cell
  have hcellParent := h.above.1
  have hred := isRed_spec h.above.2.2.2.1
  have hlined := isLined_spec h
  simp only [Path.stack, map_cons, rbTreeBalance, getUncle_spec h, hcell, hcellParent, bind_eq_bind,
    bind_some, Cell.data_make, hcolor, hparent, hred, huncle, hlined, turn]
  by_cases hside : f.side = g.side <;> simp [hside, bind_assoc, ite_bind]

/-- A rotation away from the side of a node. -/
theorem rotate_away (h : Holds m (f :: path) (.make side p data near far)) (nodeA : Ptr)
    (above : Option Ptr) :
    (do if ← isLeftChild m p (some f.p) then rotateRight m nodeA above else rotateLeft m nodeA above) =
      rotate m f.side.other nodeA above := by
  rw [isLeftChild, isChild_spec h]
  cases f.side <;> rfl

theorem turn_spec {node parent grandparent : Ptr} {dataN dataP dataG : RBData} {x y uncle : RBTree}
    {side' : Side} (h : Holds m path (.make side grandparent dataG
      (.make side parent dataP (.make side' node dataN x y) far) uncle)) :
    ∃ m', turn m node parent grandparent (Path.stack path).head? = some m' ∧
      Holds m' path (.make side parent { dataP with color := .black } (.make side' node dataN x y)
        (.make side grandparent { dataG with color := .red } far uncle)) := by
  have hparent : Holds m (⟨grandparent, dataG, side, uncle⟩ :: path) _ := holds_up.mpr h
  obtain ⟨m₁, hset₁, h₁⟩ := setColor_spec hparent .black
  obtain ⟨m₂, hset₂, h₂⟩ := setColor_spec (holds_up.mp h₁) .red
  obtain ⟨m₃, hrotate, h₃⟩ := rotate_spec h₂
  have hgrand : Holds m₂ (⟨grandparent, { dataG with color := .red }, side, uncle⟩ :: path) _ :=
    holds_up.mpr h₂
  have hnode : Holds m₂ (⟨parent, { dataP with color := .black }, side, far⟩ :: _) _ := holds_up.mpr hgrand
  refine ⟨m₃, ?_, h₃⟩
  have haway := rotate_away hnode grandparent (Path.stack path).head?
  simp only [turn, hset₁, hset₂, bind_eq_bind, bind_some]
  exact haway.trans hrotate

/-- A triangle becomes a line. -/
theorem makeLined_spec (h : Holds m (f :: g :: path) (.make f.side p data near far)) :
    ∃ m', makeLined m p f.p g.p = some m' ∧
      Holds m' (g :: path) (.make f.side p data near (.make f.side f.p f.data far f.sibling)) := by
  have hup : Holds m (g :: path) (.make f.side f.p f.data (.make f.side p data near far) f.sibling) :=
    holds_up.mp h
  obtain ⟨m', hrotate, hholds⟩ := rotate_spec hup
  refine ⟨m', ?_, hholds⟩
  exact (rotate_away h f.p (some g.p)).trans hrotate

/-! ### Whole runs of `RBTreeBalance` -/

theorem ptrs_plug_congr (path : RBPath) (h : t.ptrs.Perm t'.ptrs) :
    (plug path t).ptrs.Perm (plug path t').ptrs :=
  (ptrs_plug_perm path t).trans ((h.append_right _).trans (ptrs_plug_perm path t').symm)

/-- The tree below a black node is balanced, and so is the tree around it. -/
theorem balanced_of_black (h : Holds m path (.make side p data near far)) (hcolor : data.color = .black)
    (hrb : RB (.make side p data near far) .black n) (hpath : PathRB path .black n) {old : RBTree}
    (hvalues : values (.make side p data near far) = values old)
    (hptrs : (PTree.make side p data near far).ptrs.Perm old.ptrs) :
    ∃ m' newRoot after, rbTreeBalance m p (Path.stack path) = some (m', newRoot) ∧
      Balanced m' newRoot (plug path old) after := by
  obtain ⟨m', hbalance, hholds⟩ := rbTreeBalance_black h hcolor
  refine ⟨m', _, plug path (.make side p data near far), hbalance, ?_⟩
  constructor
  case holds => exact holds_plug.mp hholds
  case redBlack => exact hrb.plug hpath
  case values => exact values_plug path hvalues
  case ptrs => exact ptrs_plug_congr path hptrs
  case root =>
    by_cases hnil : path = []
    · rw [if_pos hnil, hnil]
      exact (PTree.root_make side p data near far).symm
    · rw [if_neg hnil]
      exact root_plug path (.inl hnil)

/-- A tree that is balanced already. -/
theorem Balanced.refl (h : Holds m path t) (hrb : RB t c n) (hpath : PathRB path c n) :
    Balanced m none (plug path t) (plug path t) :=
  ⟨holds_plug.mp h, hrb.plug hpath, rfl, List.Perm.refl _, rfl⟩

theorem Balanced.congr {newRoot : Option Ptr} {before before' after : RBTree}
    (h : Balanced m' newRoot before after)
    (hvalues : RedBlackTree.values before = RedBlackTree.values before')
    (hptrs : before.ptrs.Perm before'.ptrs)
    (hroot : before.root = before'.root) : Balanced m' newRoot before' after :=
  ⟨h.holds, h.redBlack, h.values.trans hvalues, h.ptrs.trans hptrs, hroot ▸ h.root⟩

/-- Case 2.1: the colours of the uncle, the parent and the grandparent change. -/
theorem recolor_spec {u : Ptr} {dataU : RBData} (h : Holds m (f :: g :: path) t)
    (huncle : g.sibling = .make .left u dataU near far) :
    ∃ m₁ m₂ m₃, setColor m u .black = some m₁ ∧ setColor m₁ f.p .black = some m₂ ∧
      setColor m₂ g.p .red = some m₃ ∧ Holds m₃ path (.make g.side g.p { g.data with color := .red }
        (.make f.side f.p { f.data with color := .black } t f.sibling)
        (.make .left u { dataU with color := .black } near far)) := by
  have hgrand : Holds m path (g.fill (f.fill t)) := holds_up.mp (holds_up.mp h)
  rw [Frame.fill, huncle, ← PTree.make_other] at hgrand
  have huncleHolds : Holds m (⟨g.p, g.data, g.side.other, f.fill t⟩ :: path) _ := holds_up.mpr hgrand
  obtain ⟨m₁, hset₁, h₁⟩ := setColor_spec huncleHolds .black
  have hgrand₁ := holds_up.mp h₁
  rw [Frame.fill, PTree.make_other] at hgrand₁
  have hparent : Holds m₁
    (⟨g.p, g.data, g.side, .make .left u { dataU with color := .black } near far⟩ :: path)
      (.make f.side f.p f.data t f.sibling) := holds_up.mpr hgrand₁
  obtain ⟨m₂, hset₂, h₂⟩ := setColor_spec hparent .black
  obtain ⟨m₃, hset₃, h₃⟩ := setColor_spec (holds_up.mp h₂) .red
  exact ⟨m₁, m₂, m₃, hset₁, hset₂, hset₃, h₃⟩

/-- Case 2.2: with a black uncle one rotation, or two, end the balancing. -/
theorem blackUncle_spec {P G : Ptr} {vP vG : Int} {fside gside : Side} {sibling uncle : RBTree}
    (h : Holds m (⟨P, ⟨.red, vP⟩, fside, sibling⟩ :: ⟨G, ⟨.black, vG⟩, gside, uncle⟩ :: path) t)
    (hrb : RB t .red n)
    (hroot : t.root = some p) (hsibling : RB sibling .black n) (huncle : RB uncle .black n)
    (hpath : PathRB path .black (n + 1)) :
    ∃ m' newRoot after,
      rbTreeBalance m p (Path.stack
        (⟨P, ⟨.red, vP⟩, fside, sibling⟩ :: ⟨G, ⟨.black, vG⟩, gside, uncle⟩ :: path)) =
        some (m', newRoot) ∧
      Balanced m' newRoot (plug (⟨P, ⟨.red, vP⟩, fside, sibling⟩ :: ⟨G, ⟨.black, vG⟩, gside, uncle⟩ :: path)
        t) after := by
  obtain ⟨q, v, outer, inner, rfl, houter, hinner⟩ := hrb.eq_make fside
  cases (PTree.root_make ..).symm.trans hroot
  have hequation := rbTreeBalance_blackUncle h rfl rfl huncle.rootColor_eq
  by_cases hside : fside = gside
  · -- a line: the parent takes the place of the grandparent
    subst hside
    have hgrand : Holds m path (.make fside G ⟨.black, vG⟩ (.make fside P ⟨.red, vP⟩ _ sibling) uncle) :=
      holds_up.mp (holds_up.mp h)
    obtain ⟨m₁, hturn, h₁⟩ := turn_spec hgrand
    rw [hequation, if_pos rfl, hturn, bind_some]
    exact balanced_of_black h₁ rfl (RB.make_black hrb (RB.make_red hsibling huncle)) hpath values_turn.symm
      ptrs_turn_perm.symm
  · -- a triangle: the node comes over its parent first, and then takes the place of the grandparent
    have hother : fside = gside.other := by
      revert hside
      cases fside <;> cases gside <;> decide
    obtain ⟨m₁, hlined, h₁⟩ := makeLined_spec h
    have hgrand := holds_up.mp h₁
    rw [Frame.fill, hother, PTree.make_other] at hgrand
    obtain ⟨m₂, hturn, h₂⟩ := turn_spec hgrand
    rw [hequation, if_neg hside, hlined, bind_some, hturn, bind_some]
    apply balanced_of_black h₂ rfl (RB.make_black (RB.make_red hinner hsibling) (RB.make_red houter huncle))
      hpath
    · rw [hother]
      cases gside <;> simp [Frame.fill, values, PTree.make, PTree.toList, Side.other]
    · rw [hother]
      apply perm_iff_count.mpr
      intro q
      cases gside <;>
        simp only [Frame.fill, PTree.make, PTree.ptrs, Side.other, count_cons, count_append] <;> omega

theorem rbTreeBalance_spec (h : Holds m path t) (hrb : RB t .red n) (hpath : PathRB path .black n)
    (hroot : t.root = some p) :
    ∃ m' newRoot after, rbTreeBalance m p (Path.stack path) = some (m', newRoot) ∧
      Balanced m' newRoot (plug path t) after := by
  induction path using List.twoStepInduction generalizing m t n p with
  | nil =>
    obtain ⟨q, v, x, y, rfl, hx, hy⟩ := hrb.eq_make .left
    cases hroot
    obtain ⟨m', hset, hholds⟩ := setColor_spec h .black
    refine ⟨m', some p, _, ?_, hholds, ⟨n + 1, RB.make_black hx hy⟩, values_recolor, List.Perm.refl _, rfl⟩
    simp only [Path.stack, map_nil, rbTreeBalance, hset, bind_eq_bind, bind_some]
    rfl
  | singleton f =>
    obtain ⟨q, v, x, y, rfl, hx, hy⟩ := hrb.eq_make .left
    cases hroot
    cases hpath with
    | red _ hnone => cases hnone
    | black hsibling hrest =>
      exact ⟨m, none, _, rbTreeBalance_blackParent h rfl rfl,
        Balanced.refl h hrb (PathRB.black hsibling hrest)⟩
  | cons_cons f g path ih _ =>
    cases hpath with
    | black hsibling hrest =>
      obtain ⟨q, v, x, y, rfl, hx, hy⟩ := hrb.eq_make .left
      cases hroot
      exact ⟨m, none, _, rbTreeBalance_blackParent h rfl rfl,
        Balanced.refl h hrb (PathRB.black hsibling hrest)⟩
    | @red P vP fside sibling _ _ hsibling hrest =>
      cases hrest with
      | @black G vG gside uncle _ _ c _ huncle hrest =>
        cases c with
        | red =>
          -- the grandparent is the next red node
          obtain ⟨u, vU, un, uf, rfl, hun, huf⟩ := huncle.eq_make .left
          obtain ⟨m₁, m₂, m₃, hset₁, hset₂, hset₃, h₃⟩ := recolor_spec h rfl
          obtain ⟨m', newRoot, after, hbalance, hbalanced⟩ :=
            ih h₃ (RB.make_red (RB.make_black hrb hsibling) (RB.make_black hun huf)) hrest
              (PTree.root_make ..)
          refine ⟨m', newRoot, after, ?_, hbalanced.congr ?_ ?_ ?_⟩
          · obtain ⟨q, v, x, y, rfl, -, -⟩ := hrb.eq_make .left
            cases hroot
            rw [rbTreeBalance_redUncle h rfl rfl rfl]
            simp only [PTree.root_make, bind_some, hset₁, hset₂, hset₃, hbalance]
          · apply values_plug
            cases gside <;> cases fside <;> simp [Frame.fill, values, PTree.make, PTree.toList]
          · apply ptrs_plug_congr
            cases gside <;> cases fside <;> exact List.Perm.refl _
          · apply root_plug
            rw [Frame.fill, PTree.root_make, PTree.root_make]
            exact .inr rfl
        | black => exact blackUncle_spec h hrb hroot hsibling huncle hrest

end

variable {fuel n : Nat} {placeholder : Ptr} {root : Option Ptr} {c : Color}

/-! ### The place of a value -/

/-- The path goes where the value belongs. -/
structure Directed (value : Int) (path : RBPath) : Prop where
  before : ∀ x ∈ Path.before path, x.value ≤ value
  after : ∀ x ∈ Path.after path, value < x.value
  sides : ∀ f ∈ path, f.side = bstToLeft value f.data.value

section

variable {m : RBMemory} {path : RBPath} {t : RBTree} {value : Int} {p : Ptr} {data : RBData} {l r : RBTree}

/-- The values of a tree are in order, and so are those of its subtrees around the root. -/
theorem sorted_node (h : (values (plug path (.node p data l r))).Pairwise (· ≤ ·)) :
    (∀ x ∈ l.toList, x.value ≤ data.value) ∧ ∀ x ∈ r.toList, data.value ≤ x.value := by
  rw [values, toList_plug, map_append, map_append] at h
  have hnode := (pairwise_append.mp (pairwise_append.mp h).1).2.1
  rw [PTree.toList, map_append, map_cons] at hnode
  obtain ⟨-, hright, hleft⟩ := pairwise_append.mp hnode
  constructor
  · exact fun x hx => hleft _ (List.mem_map_of_mem hx) _ mem_cons_self
  · exact fun x hx => (pairwise_cons.mp hright).1 _ (List.mem_map_of_mem hx)

theorem Directed.left (h : Directed value path) (hlt : value < data.value)
    (hr : ∀ x ∈ r.toList, data.value ≤ x.value) : Directed value (⟨p, data, .left, r⟩ :: path) := by
  constructor
  case before => exact h.before
  case after =>
    intro x hx
    rcases mem_append.mp hx with hx | hx
    · rcases mem_cons.mp hx with rfl | hx
      · exact hlt
      · exact lt_of_lt_of_le hlt (hr x hx)
    · exact h.after x hx
  case sides => exact forall_mem_cons.mpr ⟨(if_pos hlt).symm, h.sides⟩

theorem Directed.right (h : Directed value path) (hle : data.value ≤ value)
    (hl : ∀ x ∈ l.toList, x.value ≤ data.value) : Directed value (⟨p, data, .right, l⟩ :: path) := by
  constructor
  case before =>
    intro x hx
    rcases mem_append.mp hx with hx | hx
    · exact h.before x hx
    · rcases mem_append.mp hx with hx | hx
      · exact (hl x hx).trans hle
      · exact mem_singleton.mp hx ▸ hle
  case after => exact h.after
  case sides => exact forall_mem_cons.mpr ⟨(if_neg (not_lt.mpr hle)).symm, h.sides⟩

/-- The loop of `Insert` finds the null pointer where the value belongs. -/
theorem descend_spec (hrep : Rep m t) (hfuel : t.ptrs.length < fuel) (hdirected : Directed value path)
    (hsorted : (values (plug path t)).Pairwise (· ≤ ·)) :
    ∃ path', descend m value fuel t.root (Path.stack path) = some (Path.stack path') ∧
      plug path' .nil = plug path t ∧ Directed value path' := by
  induction t generalizing path fuel with
  | nil =>
    obtain ⟨fuel, rfl⟩ := Nat.exists_eq_add_of_lt hfuel
    exact ⟨path, rfl, rfl, hdirected⟩
  | node p data l r ihl ihr =>
    cases fuel with
    | zero => cases hfuel
    | succ fuel =>
      obtain ⟨hcell, hl, hr⟩ := hrep
      simp only [PTree.ptrs, length_cons, length_append] at hfuel
      obtain ⟨hleft, hright⟩ := sorted_node hsorted
      have hfuelL : l.ptrs.length < fuel := by omega
      have hfuelR : r.ptrs.length < fuel := by omega
      by_cases hlt : value < data.value
      · obtain ⟨path', hdescend, hplug, hpath'⟩ := ihl hl hfuelL (hdirected.left hlt hright) hsorted
        refine ⟨path', ?_, hplug, hpath'⟩
        simp only [PTree.root, descend, hcell, bstToLeft, if_pos hlt, bind_eq_bind, bind_some]
        exact hdescend
      · obtain ⟨path', hdescend, hplug, hpath'⟩ :=
          ihr hr hfuelR (hdirected.right (not_lt.mp hlt) hleft) hsorted
        refine ⟨path', ?_, hplug, hpath'⟩
        simp only [PTree.root, descend, hcell, bstToLeft, if_neg hlt, bind_eq_bind, bind_some]
        exact hdescend

/-- What stands on the path of a red-black tree. -/
theorem pathRB_of_plug {n' : Nat} (h : RB (plug path t) .black n') : ∃ c n, RB t c n ∧ PathRB path c n := by
  induction path generalizing t with
  | nil => exact ⟨.black, n', h, PathRB.root⟩
  | cons f path ih =>
    obtain ⟨c, n, hfill, hpath⟩ := ih h
    obtain ⟨q, ⟨color, v⟩, side, sibling⟩ := f
    cases side with
    | left =>
      cases hfill with
      | red ht hsibling => exact ⟨.black, n, ht, PathRB.red hsibling hpath⟩
      | black ht hsibling => exact ⟨_, _, ht, PathRB.black hsibling hpath⟩
    | right =>
      cases hfill with
      | red hsibling ht => exact ⟨.black, n, ht, PathRB.red hsibling hpath⟩
      | black hsibling ht => exact ⟨_, _, ht, PathRB.black hsibling hpath⟩

/-- The new node, as `MakeNode` makes it. -/
def leaf (value : Int) (placeholder : Ptr) : RBTree := .node placeholder ⟨.red, value⟩ .nil .nil

theorem sorted_leaf (hdirected : Directed value path)
    (hsorted : (values (plug path .nil)).Pairwise (· ≤ ·)) :
    (values (plug path (leaf value placeholder))).Pairwise (· ≤ ·) ∧
      (values (plug path (leaf value placeholder))).Perm (value :: values (plug path .nil)) := by
  have hvalues : values (plug path (leaf value placeholder)) =
      (Path.before path).map RBData.value ++ value :: (Path.after path).map RBData.value := by
    simp [values, toList_plug, leaf, PTree.toList]
  have hvalues' : values (plug path .nil) =
      (Path.before path).map RBData.value ++ (Path.after path).map RBData.value := by
    simp [values, toList_plug, PTree.toList]
  rw [hvalues'] at hsorted ⊢
  rw [hvalues]
  refine ⟨?_, perm_middle⟩
  obtain ⟨hbefore, hafter, hacross⟩ := pairwise_append.mp hsorted
  refine pairwise_append.mpr ⟨hbefore, pairwise_cons.mpr ⟨?_, hafter⟩, ?_⟩
  · intro x hx
    obtain ⟨y, hy, rfl⟩ := List.mem_map.mp hx
    exact (hdirected.after y hy).le
  · intro x hx y hy
    rcases mem_cons.mp hy with rfl | hy
    · obtain ⟨z, hz, rfl⟩ := List.mem_map.mp hx
      exact hdirected.before z hz
    · exact hacross x hx y hy

/-! ### `Insert` -/

/-- The new node hangs below its parent. -/
theorem holds_leaf {f : Frame RBData} (h : Holds m (f :: path) .nil)
    (hfresh : placeholder ∉ Path.ptrs (f :: path)) :
    ∃ m', setChild (makeNode m value placeholder) f.side f.p (some placeholder) = some m' ∧
      Holds m' (f :: path) (leaf value placeholder) := by
  obtain ⟨hcell, hsibling, habove⟩ := h.above
  have hnodup : (Path.ptrs (f :: path)).Nodup := h.nodup
  have hnodupLeaf : ((leaf value placeholder).ptrs ++ Path.ptrs (f :: path)).Nodup :=
    nodup_cons.mpr ⟨hfresh, hnodup⟩
  simp only [Path.ptrs, flatMap_cons, cons_append, nodup_cons, mem_cons, mem_append,
    not_or] at hnodup hfresh
  obtain ⟨⟨hpSibling, hpPath⟩, -⟩ := hnodup
  obtain ⟨hne, hfSibling, hfPath⟩ := hfresh
  have hcell₁ : makeNode m value placeholder f.p = some (Cell.make f.side none f.sibling.root f.data) :=
    (update_of_ne (Ne.symm hne) ..).trans hcell
  refine ⟨_, by rw [setChild, hcell₁, map_some, Cell.setChild_make], ?_⟩
  constructor
  case rep =>
    refine ⟨?_, trivial, trivial⟩
    exact (update_of_ne hne ..).trans (update_self ..)
  case above =>
    refine ⟨update_self .., ?_, ?_⟩
    · exact (rep_update hpSibling).mpr ((rep_update hfSibling).mpr hsibling)
    · exact (pathRep_update hpPath).mpr ((pathRep_update hfPath).mpr habove)
  case nodup => exact hnodupLeaf

/-- What a sequence of insertions keeps. -/
structure TreeAt (m : RBMemory) (root : Option Ptr) (t : RBTree) : Prop where
  holds : Holds m [] t
  root : root = t.root
  redBlack : ∃ n, RB t .black n
  sorted : (values t).Pairwise (· ≤ ·)

/-- The path to the place of the value, and the new node in it. -/
theorem insert_eq (h : TreeAt m root t) (hfuel : t.ptrs.length < fuel)
    (hfresh : placeholder ∉ t.ptrs) (value : Int) : ∃ path m', insert fuel m root value placeholder =
        (rbTreeBalance m' placeholder (Path.stack path)).map
          (fun r => (r.1, r.2.or (plug path (leaf value placeholder)).root)) ∧
      plug path .nil = t ∧ Directed value path ∧ Holds m' path (leaf value placeholder) := by
  have hdirected : Directed value ([] : RBPath) := ⟨nofun, nofun, nofun⟩
  obtain ⟨path, hdescend, hplug, hpath⟩ := descend_spec h.holds.rep hfuel hdirected h.sorted
  rw [← h.root] at hdescend
  have hstack : Path.stack ([] : RBPath) = [] := rfl
  rw [hstack] at hdescend
  have hnil : Holds m path .nil := holds_plug.mpr (hplug.symm ▸ h.holds)
  cases path with
  | nil =>
    refine ⟨[], makeNode m value placeholder, ?_, hplug, hpath,
      ⟨⟨update_self .., trivial, trivial⟩, trivial, ?_⟩⟩
    · simp only [insert, hdescend, hstack, head?_nil, bind_eq_bind, bind_some]
      cases rbTreeBalance (makeNode m value placeholder) placeholder [] <;> rfl
    · exact nodup_singleton placeholder
  | cons f path =>
    have hroot : root = (plug (f :: path) (leaf value placeholder)).root :=
      h.root.trans ((congrArg PTree.root hplug.symm).trans
        (root_plug (f :: path) (.inl (cons_ne_nil f path))))
    have hptrs : t.ptrs.Perm (Path.ptrs (f :: path)) :=
      (Perm.of_eq (congrArg PTree.ptrs hplug.symm)).trans (ptrs_plug_perm (f :: path) .nil)
    have hfresh' : placeholder ∉ Path.ptrs (f :: path) := fun hmem => hfresh (hptrs.mem_iff.mpr hmem)
    obtain ⟨m', hset, hholds⟩ := holds_leaf hnil hfresh'
    refine ⟨f :: path, m', ?_, hplug, hpath, hholds⟩
    have hne : f.p ≠ placeholder := by
      rintro rfl
      exact hfresh' (by simp [Path.ptrs])
    have hcell : makeNode m value placeholder f.p = some (Cell.make f.side none f.sibling.root f.data) :=
      (update_of_ne hne ..).trans hnil.above.1
    have hhead : (Path.stack (f :: path)).head? = some f.p := rfl
    rw [hpath.sides f mem_cons_self] at hset
    simp only [insert, hdescend, hhead, hcell, Cell.data_make, hset, bind_eq_bind, bind_some,
      map_some]
    rw [← hroot]
    cases rbTreeBalance m' placeholder (Path.stack (f :: path)) <;> rfl

theorem insert_spec (h : TreeAt m root t) (hfuel : t.ptrs.length < fuel)
    (hfresh : placeholder ∉ t.ptrs) (value : Int) :
    ∃ m' root' t', insert fuel m root value placeholder = some (m', root') ∧ TreeAt m' root' t' ∧
      t'.ptrs.Perm (placeholder :: t.ptrs) ∧ (values t').Perm (value :: values t) := by
  obtain ⟨path, m', hinsert, rfl, hdirected, hholds⟩ := insert_eq h hfuel hfresh value
  obtain ⟨n, hredBlack⟩ := h.redBlack
  obtain ⟨c, n, hnil, hpath⟩ := pathRB_of_plug hredBlack
  cases hnil
  obtain ⟨m'', newRoot, after, hbalance, hbalanced⟩ :=
    rbTreeBalance_spec hholds (RB.red RB.nil RB.nil) hpath rfl
  obtain ⟨hsorted, hperm⟩ := sorted_leaf hdirected h.sorted
  rw [hbalance, map_some] at hinsert
  refine ⟨m'', _, after, hinsert, ⟨hbalanced.holds, hbalanced.root, hbalanced.redBlack, ?_⟩, ?_, ?_⟩
  · exact hbalanced.values ▸ hsorted
  · apply hbalanced.ptrs.trans
    apply (ptrs_plug_perm path (leaf value placeholder)).trans
    exact (ptrs_plug_perm path .nil).symm.cons placeholder
  · exact hbalanced.values ▸ hperm

/-- The nodes of the tree are the first `i` places of the array. -/
theorem insertAll_spec {i : Nat} (xs : List Int) (h : TreeAt m root t) (hcount : t.ptrs.length = i)
    (hbelow : ∀ q ∈ t.ptrs, q < i) :
    ∃ m' root' t', insertAll m root i xs = some (m', root') ∧ TreeAt m' root' t' ∧
      t'.ptrs.length = i + xs.length ∧ (values t').Perm (xs ++ values t) := by
  induction xs generalizing m root t i with
  | nil => exact ⟨m, root, t, rfl, h, hcount, List.Perm.refl _⟩
  | cons x xs ih =>
    have hfresh : i ∉ t.ptrs := fun hmem => Nat.lt_irrefl i (hbelow i hmem)
    have hfuel : t.ptrs.length < i + 1 := hcount ▸ Nat.lt_succ_self _
    obtain ⟨m₁, root₁, t₁, hinsert, h₁, hptrs, hvalues⟩ := insert_spec h hfuel hfresh x
    have hcount₁ : t₁.ptrs.length = i + 1 := by rw [hptrs.length_eq, length_cons, hcount]
    have hbelow₁ : ∀ q ∈ t₁.ptrs, q < i + 1 := by
      intro q hq
      rcases mem_cons.mp (hptrs.mem_iff.mp hq) with rfl | hq
      · exact Nat.lt_succ_self _
      · exact Nat.lt_succ_of_lt (hbelow q hq)
    obtain ⟨m₂, root₂, t₂, hinsertAll, h₂, hcount₂, hvalues₂⟩ := ih h₁ hcount₁ hbelow₁
    refine ⟨m₂, root₂, t₂, ?_, h₂, ?_, ?_⟩
    · rw [insertAll, hinsert]
      exact hinsertAll
    · rw [hcount₂, length_cons]
      omega
    · apply hvalues₂.trans
      apply (hvalues.append_left xs).trans
      exact perm_middle

/-! ### `CalculateBlackHeight` -/

/-- The number of black nodes on each path from the root to a null pointer. -/
def blackCounts : RBTree → List Nat
  | .nil => [0]
  | .node _ data l r => (blackCounts l ++ blackCounts r).map (· + if data.color = .black then 1 else 0)

theorem blackCounts_eq (h : RB t c n) : ∀ k ∈ blackCounts t, k = n := by
  induction h with
  | nil => exact fun k hk => mem_singleton.mp hk
  | red _ _ ihl ihr =>
    intro k hk
    obtain ⟨k', hk', rfl⟩ := List.mem_map.mp hk
    exact (mem_append.mp hk').elim (ihl k') (ihr k')
  | black _ _ ihl ihr =>
    intro k hk
    obtain ⟨k', hk', rfl⟩ := List.mem_map.mp hk
    exact congrArg (· + 1) ((mem_append.mp hk').elim (ihl k') (ihr k'))

theorem calculateBlackHeight_spec (hrep : Rep m t) (h : RB t c n) (hfuel : t.ptrs.length ≤ fuel) :
    calculateBlackHeight m fuel t.root = some (n + 1) := by
  induction h generalizing fuel with
  | nil => cases fuel <;> rfl
  | red _ _ ihl ihr | black _ _ ihl ihr =>
    obtain ⟨hcell, hl, hr⟩ := hrep
    simp only [PTree.ptrs, length_cons, length_append] at hfuel
    obtain ⟨fuel, rfl⟩ := Nat.exists_eq_add_of_le' (Nat.le_trans (Nat.le_add_left 1 _) hfuel)
    have hheightL := ihl hl (Nat.le_trans (Nat.le_add_right _ _) (Nat.le_of_succ_le_succ hfuel))
    have hheightR := ihr hr (Nat.le_trans (Nat.le_add_left _ _) (Nat.le_of_succ_le_succ hfuel))
    rw [PTree.root, calculateBlackHeight, hcell]
    simp only [bind_eq_bind, bind_some, hheightL, hheightR, max_self]
    rfl

end

theorem treeAt_empty : TreeAt (fun _ => none) none .nil :=
  ⟨⟨trivial, trivial, nodup_nil⟩, rfl, ⟨0, RB.nil⟩, List.Pairwise.nil⟩

/-- After every list of insertions the memory holds one red-black tree below the returned pointer,
    its in-order traversal is the sorted list of the values, and `CalculateBlackHeight` returns one
    more than the number of black nodes on each of its paths. -/
theorem insertAll_redBlack (xs : List Int) :
    ∃ m root t, insertAll (fun _ => none) none 0 xs = some (m, root) ∧ Rep m t ∧ t.ptrs.Nodup ∧
      root = t.root ∧ (∃ n, RB t .black n) ∧ (values t).Pairwise (· ≤ ·) ∧ (values t).Perm xs ∧
      ∃ height, calculateBlackHeight m xs.length root = some height ∧ ∀ k ∈ blackCounts t,
        height = k + 1 := by
  obtain ⟨m, root, t, hinsertAll, h, hcount, hvalues⟩ := insertAll_spec xs treeAt_empty rfl nofun
  obtain ⟨n, hrb⟩ := h.redBlack
  refine ⟨m, root, t, hinsertAll, h.holds.rep, ?_, h.root, ⟨n, hrb⟩, h.sorted, ?_, n + 1, ?_, ?_⟩
  · exact (append_nil t.ptrs) ▸ h.holds.nodup
  · exact (append_nil xs) ▸ hvalues
  · rw [h.root]
    exact calculateBlackHeight_spec h.holds.rep hrb (hcount.trans (Nat.zero_add _)).le
  · exact fun k hk => congrArg (· + 1) (blackCounts_eq hrb k hk).symm

end NsuLabs.RedBlackTree
