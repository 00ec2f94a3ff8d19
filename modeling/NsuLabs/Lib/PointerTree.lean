/-
Module: NsuLabs.Lib.PointerTree
Purpose: Binary trees laid out in a memory of cells with two child pointers.
Trusted boundary: none
Main exports: Side, Cell, Memory
-/
import Mathlib

namespace NsuLabs.Lib

open List

universe u

/-- The address of a cell. -/
abbrev Ptr := Nat

inductive Side where
  | left
  | right
deriving DecidableEq

def Side.other : Side → Side
  | left => right
  | right => left

@[simp] theorem Side.other_other (side : Side) : side.other.other = side := by cases side <;> rfl

@[simp] theorem Side.other_ne (side : Side) : side.other ≠ side := by cases side <;> decide

/-- What the memory holds of a node. -/
structure Cell (α : Type u) where
  leftChild : Option Ptr
  rightChild : Option Ptr
  data : α
deriving DecidableEq

variable {α : Type u}

def Cell.child (cell : Cell α) : Side → Option Ptr
  | .left => cell.leftChild
  | .right => cell.rightChild

def Cell.setChild (cell : Cell α) (side : Side) (p : Option Ptr) : Cell α :=
  match side with
  | .left => { cell with leftChild := p }
  | .right => { cell with rightChild := p }

/-- The cell with one child on the given side and one on the other. -/
def Cell.make (side : Side) (near far : Option Ptr) (data : α) : Cell α :=
  match side with
  | .left => ⟨near, far, data⟩
  | .right => ⟨far, near, data⟩

@[simp] theorem Cell.child_make (side : Side) (near far : Option Ptr) (data : α) :
    (Cell.make side near far data).child side = near := by
  cases side <;> rfl

@[simp] theorem Cell.child_other_make (side : Side) (near far : Option Ptr) (data : α) :
    (Cell.make side near far data).child side.other = far := by
  cases side <;> rfl

@[simp] theorem Cell.data_make (side : Side) (near far : Option Ptr) (data : α) :
    (Cell.make side near far data).data = data := by
  cases side <;> rfl

@[simp] theorem Cell.setChild_make (side : Side) (near far near' : Option Ptr) (data : α) :
    (Cell.make side near far data).setChild side near' = Cell.make side near' far data := by
  cases side <;> rfl

@[simp] theorem Cell.setChild_other_make (side : Side) (near far far' : Option Ptr) (data : α) :
    (Cell.make side near far data).setChild side.other far' = Cell.make side near far' data := by
  cases side <;> rfl

/-- What is stored at each address; `none` where nothing is. -/
abbrev Memory (α : Type u) := Ptr → Option (Cell α)

/-- A tree with the address of each node. -/
inductive PTree (α : Type u) where
  | nil
  | node (p : Ptr) (data : α) (leftChild rightChild : PTree α)
deriving DecidableEq

variable {t : PTree α} {p : Ptr}

namespace PTree

/-- The pointer to the tree. -/
def root : PTree α → Option Ptr
  | nil => none
  | node p _ _ _ => some p

def ptrs : PTree α → List Ptr
  | nil => []
  | node p _ l r => p :: (l.ptrs ++ r.ptrs)

/-- The data in the order of an in-order traversal. -/
def toList : PTree α → List α
  | nil => []
  | node _ data l r => l.toList ++ data :: r.toList

/-- The node with one subtree on the given side and one on the other. -/
def make (side : Side) (p : Ptr) (data : α) (near far : PTree α) : PTree α :=
  match side with
  | .left => node p data near far
  | .right => node p data far near

theorem make_other (side : Side) (p : Ptr) (data : α) (near far : PTree α) :
    make side.other p data near far = make side p data far near := by
  cases side <;> rfl

@[simp] theorem root_make (side : Side) (p : Ptr) (data : α) (near far : PTree α) :
    (make side p data near far).root = some p := by
  cases side <;> rfl

@[simp] theorem mem_ptrs_make {side : Side} {q : Ptr} {data : α} {near far : PTree α} :
    q ∈ (make side p data near far).ptrs ↔ q = p ∨ q ∈ near.ptrs ∨ q ∈ far.ptrs := by
  cases side <;> simp [make, ptrs, or_comm]

theorem ptrs_make_perm (side : Side) (p : Ptr) (data : α) (near far : PTree α) :
    (make side p data near far).ptrs.Perm (p :: (near.ptrs ++ far.ptrs)) := by
  cases side with
  | left => exact List.Perm.refl _
  | right => exact perm_append_comm.cons p

theorem eq_make (h : t.root = some p) (side : Side) : ∃ data near far, t = make side p data near far := by
  cases t with
  | nil => cases h
  | node q data l r =>
    cases h
    cases side with
    | left => exact ⟨data, l, r, rfl⟩
    | right => exact ⟨data, r, l, rfl⟩

end PTree

/-! ### Trees in memory -/

/-- The memory holds the tree. -/
def Rep (m : Memory α) : PTree α → Prop
  | .nil => True
  | .node p data l r => m p = some ⟨l.root, r.root, data⟩ ∧ Rep m l ∧ Rep m r

variable {m : Memory α}

theorem rep_make {side : Side} {data : α} {near far : PTree α} :
    Rep m (.make side p data near far) ↔
      m p = some (Cell.make side near.root far.root data) ∧ Rep m near ∧ Rep m far := by
  cases side with
  | left => exact Iff.rfl
  | right => exact and_congr_right fun _ => and_comm

/-- A write elsewhere. -/
theorem rep_update {cell : Option (Cell α)} (hp : p ∉ t.ptrs) : Rep (Function.update m p cell) t ↔
    Rep m t := by
  induction t with
  | nil => exact Iff.rfl
  | node q data l r ihl ihr =>
    simp only [PTree.ptrs, mem_cons, mem_append, not_or] at hp
    rw [Rep, Rep, Function.update_of_ne (Ne.symm hp.1), ihl hp.2.1, ihr hp.2.2]

theorem rep_congr {m' : Memory α} (h : ∀ q ∈ t.ptrs, m' q = m q) (hrep : Rep m t) : Rep m' t := by
  induction t with
  | nil => trivial
  | node p data l r ihl ihr =>
    obtain ⟨hcell, hl, hr⟩ := hrep
    refine ⟨(h p mem_cons_self).trans hcell, ihl (fun q hq => ?_) hl, ihr (fun q hq => ?_) hr⟩
    · exact h q (mem_cons_of_mem p (mem_append_left _ hq))
    · exact h q (mem_cons_of_mem p (mem_append_right _ hq))

/-- A node above the hole: its address and data, the side that the hole is on, and the subtree on
    the other side. -/
structure Frame (α : Type u) where
  p : Ptr
  data : α
  side : Side
  sibling : PTree α
deriving DecidableEq

/-- A tree with a hole, from the hole upwards. -/
abbrev Path (α : Type u) := List (Frame α)

/-- The subtree of the lowest frame. -/
def Frame.fill (f : Frame α) (t : PTree α) : PTree α := .make f.side f.p f.data t f.sibling

/-- The tree with the hole filled. -/
def plug : Path α → PTree α → PTree α
  | [], t => t
  | f :: path, t => plug path (f.fill t)

/-- The addresses of the nodes above the hole, as a stack. -/
def Path.stack (path : Path α) : List Ptr := path.map Frame.p

def Path.ptrs (path : Path α) : List Ptr := path.flatMap fun f => f.p :: f.sibling.ptrs

theorem ptrs_plug_perm (path : Path α) (t : PTree α) :
    (plug path t).ptrs.Perm (t.ptrs ++ Path.ptrs path) := by
  induction path generalizing t with
  | nil =>
    rw [Path.ptrs, flatMap_nil, append_nil]
    exact List.Perm.refl _
  | cons f path ih =>
    have hfill : (f.fill t).ptrs.Perm (t.ptrs ++ (f.p :: f.sibling.ptrs)) :=
      (PTree.ptrs_make_perm f.side f.p f.data t f.sibling).trans perm_middle.symm
    apply (ih (f.fill t)).trans
    rw [Path.ptrs, Path.ptrs, flatMap_cons, ← append_assoc]
    exact hfill.append_right _

/-- The root of a tree with a hole does not depend on what fills it. -/
theorem root_plug (path : Path α) {t' : PTree α} (h : path ≠ [] ∨ t.root = t'.root) :
    (plug path t).root = (plug path t').root := by
  induction path generalizing t t' with
  | nil => exact h.resolve_left fun hne => hne rfl
  | cons f path ih =>
    apply ih
    right
    rw [Frame.fill, Frame.fill, PTree.root_make, PTree.root_make]

/-- The memory holds the nodes of the path and the subtrees beside it; `hole` is what the lowest
    node points to. -/
def PathRep (m : Memory α) : Path α → Option Ptr → Prop
  | [], _ => True
  | f :: path, hole =>
    m f.p = some (Cell.make f.side hole f.sibling.root f.data) ∧ Rep m f.sibling ∧ PathRep m path (some f.p)

/-- The hole goes one node up. -/
theorem pathRep_up {f : Frame α} {path : Path α} :
    Rep m t ∧ PathRep m (f :: path) t.root ↔ Rep m (f.fill t) ∧ PathRep m path (f.fill t).root := by
  rw [Frame.fill, rep_make, PTree.root_make, PathRep]
  constructor
  · rintro ⟨ht, hp, hsibling, hpath⟩
    exact ⟨⟨hp, ht, hsibling⟩, hpath⟩
  · rintro ⟨⟨hp, ht, hsibling⟩, hpath⟩
    exact ⟨ht, hp, hsibling, hpath⟩

theorem pathRep_update {cell : Option (Cell α)} {path : Path α} {hole : Option Ptr}
    (hp : p ∉ Path.ptrs path) : PathRep (Function.update m p cell) path hole ↔ PathRep m path hole := by
  induction path generalizing hole with
  | nil => exact Iff.rfl
  | cons f path ih =>
    simp only [Path.ptrs, flatMap_cons, mem_append, mem_cons, not_or] at hp
    rw [PathRep, PathRep, Function.update_of_ne (Ne.symm hp.1.1), rep_update hp.1.2, ih hp.2]

/-! ### The order of the data -/

/-- The data on the left of the hole. -/
def Path.before : Path α → List α
  | [] => []
  | f :: path =>
    match f.side with
    | .left => Path.before path
    | .right => Path.before path ++ (f.sibling.toList ++ [f.data])

/-- The data on the right of the hole. -/
def Path.after : Path α → List α
  | [] => []
  | f :: path =>
    match f.side with
    | .left => f.data :: f.sibling.toList ++ Path.after path
    | .right => Path.after path

theorem toList_plug (path : Path α) (t : PTree α) :
    (plug path t).toList = Path.before path ++ t.toList ++ Path.after path := by
  induction path generalizing t with
  | nil => rw [plug, Path.before, Path.after, append_nil, nil_append]
  | cons f path ih =>
    rw [plug, ih, Frame.fill, Path.before, Path.after]
    cases f.side with
    | left => simp only [PTree.make, PTree.toList, append_assoc, cons_append]
    | right => simp only [PTree.make, PTree.toList, append_assoc, cons_append, nil_append]

end NsuLabs.Lib
