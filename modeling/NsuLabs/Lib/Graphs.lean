/-
Module: NsuLabs.Lib.Graphs
Purpose: Filling what is joined to a point. Topological orders and the depth-first search that builds one
  from its end. Walks with lengths that are not negative, and label-setting search: where settled labels are
  distances and no edge to an open vertex could lower a label, the least open label is a distance too.
  Weighted edges, the classes of vertices they join, forests, and a tree that grows by a shortest edge to a
  vertex outside it.
Trusted boundary: none
Main exports: Topological, Walk, Labelled, Joined, Greedy.forest
-/
import Mathlib

namespace NsuLabs.Lib

universe u

section

open Relation

variable {α : Type u} {adj : α → α → Prop} {U R C : Set α} {s p q : α}

/-- The points are joined by a path through neighbours that does not leave the set. -/
def Linked (adj : α → α → Prop) (U : Set α) (s q : α) : Prop :=
  s ∈ U ∧ ReflTransGen (fun p q => adj p q ∧ q ∈ U) s q

namespace Linked

theorem refl (h : s ∈ U) : Linked adj U s s := ⟨h, .refl⟩

theorem step (h : Linked adj U s p) (hadj : adj p q) (hq : q ∈ U) : Linked adj U s q :=
  ⟨h.1, h.2.tail ⟨hadj, hq⟩⟩

theorem trans (h : Linked adj U s p) (h' : Linked adj U p q) : Linked adj U s q :=
  ⟨h.1, h.2.trans h'.2⟩

theorem mem_right (h : Linked adj U s q) : q ∈ U := by
  obtain ⟨hs, hpath⟩ := h
  cases hpath with
  | refl => exact hs
  | tail _ hlast => exact hlast.2

theorem symm (hsymm : ∀ p q, adj p q → adj q p) (h : Linked adj U s q) : Linked adj U q s := by
  obtain ⟨hs, hpath⟩ := h
  induction hpath with
  | refl => exact refl hs
  | tail hpath hlast ih =>
    have hp : Linked adj U s _ := ⟨hs, hpath⟩
    exact ((refl hlast.2).step (hsymm _ _ hlast.1) hp.mem_right).trans ih

/-- A path to a point outside of `R` either avoids `R`, or leaves it for the last time somewhere. -/
theorem leave (h : Linked adj U s q) (hq : q ∉ R) :
    (s ∉ R ∧ Linked adj (U \ R) s q) ∨ ∃ r ∈ R, ∃ v, adj r v ∧ Linked adj (U \ R) v q := by
  obtain ⟨hs, hpath⟩ := h
  induction hpath with
  | refl => exact .inl ⟨hq, refl ⟨hs, hq⟩⟩
  | @tail p q hpath hlast ih =>
    by_cases hp : p ∈ R
    · exact .inr ⟨p, hp, q, hlast.1, refl ⟨hlast.2, hq⟩⟩
    · rcases ih hp with ⟨hsR, havoid⟩ | ⟨r, hr, v, hadj, hrest⟩
      · exact .inl ⟨hsR, havoid.step hlast.1 ⟨hlast.2, hq⟩⟩
      · exact .inr ⟨r, hr, v, hadj, hrest.step hlast.1 ⟨hlast.2, hq⟩⟩

end Linked

/-- What of `C` is still in `U` is joined to a waiting point inside of `U`. -/
def Pending (adj : α → α → Prop) (C U : Set α) (waiting : List α) : Prop :=
  ∀ q ∈ C, q ∈ U → ∃ s ∈ waiting, Linked adj U s q

namespace Pending

theorem seed (s : α) : Pending adj {q | Linked adj U s q} U [s] :=
  fun _ hq _ => ⟨s, List.mem_singleton_self s, hq⟩

theorem notMem_of_nil (h : Pending adj C U []) : ∀ q ∈ C, q ∉ U := by
  intro q hq hU
  obtain ⟨s, hs, -⟩ := h q hq hU
  cases hs

/-- A waiting point is taken and the points of `R` are visited, the waiting point among them unless
    it was visited before. -/
theorem visit {waiting waiting' : List α} (h : Pending adj C U (p :: waiting)) (hp : p ∈ U → p ∈ R)
    (hkept : ∀ s ∈ waiting, s ∈ waiting')
    (hnext : ∀ r ∈ R, ∀ v ∈ U \ R, adj r v → ∃ s ∈ waiting', Linked adj (U \ R) s v) :
    Pending adj C (U \ R) waiting' := by
  intro q hqC hqU
  obtain ⟨s, hs, hlinked⟩ := h q hqC hqU.1
  rcases hlinked.leave hqU.2 with ⟨hsR, havoid⟩ | ⟨r, hr, v, hadj, hrest⟩
  · rcases List.mem_cons.mp hs with rfl | hs
    · exact absurd (hp hlinked.1) hsR
    · exact ⟨s, hkept s hs, havoid⟩
  · obtain ⟨s', hs', hfirst⟩ := hnext r hr v hrest.1 hadj
    exact ⟨s', hs', hfirst.trans hrest⟩

end Pending

end

section

open List

variable {α : Type u} {edge : α → α → Prop} {x y : α} {xs : List α}

open Relation

/-! ### Topological orders -/

/-- No element is repeated, and the edges from an element go to later ones. -/
def Topological (edge : α → α → Prop) : List α → Prop
  | [] => True
  | x :: xs => x ∉ xs ∧ (∀ y, edge x y → y ∈ xs) ∧ Topological edge xs

namespace Topological

theorem nodup (h : Topological edge xs) : xs.Nodup := by
  induction xs with
  | nil => exact nodup_nil
  | cons x xs ih => exact nodup_cons.mpr ⟨h.1, ih h.2.2⟩

/-- An edge from an element goes to a later element. -/
theorem idxOf_lt [DecidableEq α] (h : Topological edge xs) (hx : x ∈ xs) (hedge : edge x y) :
    y ∈ xs ∧ xs.idxOf x < xs.idxOf y := by
  induction xs with
  | nil => exact absurd hx not_mem_nil
  | cons z xs ih =>
    obtain ⟨hz, hedges, hrest⟩ := h
    rcases mem_cons.mp hx with rfl | hx
    · have hy := hedges y hedge
      have hne : x ≠ y := fun heq => hz (heq ▸ hy)
      refine ⟨mem_cons_of_mem x hy, ?_⟩
      rw [idxOf_cons_self, idxOf_cons_ne xs hne]
      exact Nat.succ_pos _
    · obtain ⟨hy, hlt⟩ := ih hrest hx
      have hzx : z ≠ x := fun heq => hz (heq ▸ hx)
      have hzy : z ≠ y := fun heq => hz (heq ▸ hy)
      refine ⟨mem_cons_of_mem z hy, ?_⟩
      rw [idxOf_cons_ne xs hzx, idxOf_cons_ne xs hzy]
      exact Nat.succ_lt_succ hlt

theorem idxOf_lt_of_transGen [DecidableEq α] (h : Topological edge xs) (hx : x ∈ xs)
    (hpath : TransGen edge x y) : y ∈ xs ∧ xs.idxOf x < xs.idxOf y := by
  induction hpath with
  | single hedge => exact h.idxOf_lt hx hedge
  | tail _ hedge ih =>
    obtain ⟨hmem, hlt⟩ := h.idxOf_lt ih.1 hedge
    exact ⟨hmem, ih.2.trans hlt⟩

theorem acyclic (h : Topological edge xs) (hx : x ∈ xs) : ¬ TransGen edge x x := by
  classical
  exact fun hpath => lt_irrefl _ (h.idxOf_lt_of_transGen hx hpath).2

end Topological

/-! ### The search -/

/-- The search is inside of the vertices `inside` and has left the vertices `left`. -/
structure Searching (edge : α → α → Prop) (inside left : List α) : Prop where
  topological : Topological edge left
  nodup : (inside ++ left).Nodup

namespace Searching

variable {inside left : List α}

theorem enter (h : Searching edge inside left) (hinside : x ∉ inside) (hleft : x ∉ left) :
    Searching edge (x :: inside) left := by
  refine ⟨h.topological, nodup_cons.mpr ⟨fun hx => ?_, h.nodup⟩⟩
  exact (mem_append.mp hx).elim hinside hleft

theorem leave (h : Searching edge (x :: inside) left) (hedges : ∀ y, edge x y → y ∈ left) :
    Searching edge inside (x :: left) := by
  obtain ⟨hx, -⟩ := nodup_cons.mp h.nodup
  exact ⟨⟨fun hmem => hx (mem_append_right inside hmem), hedges, h.topological⟩,
    (perm_middle.nodup_iff).mpr h.nodup⟩

end Searching

end

open List

variable {V : Type u} {length : V → V → Option Nat} {start : V}

/-- There is a walk from the start through these vertices, the last one included, of this total
    length. -/
inductive Walk (length : V → V → Option Nat) (start : V) : V → List V → Nat → Prop
  | nil : Walk length start start [start] 0
  | snoc {u v : V} {vertices : List V} {total k : Nat} (walk : Walk length start u vertices total)
      (edge : length u v = some k) : Walk length start v (vertices ++ [v]) (total + k)

/-- The total length of a shortest walk. -/
def IsDistance (length : V → V → Option Nat) (start v : V) (d : Nat) : Prop :=
  (∃ vertices, Walk length start v vertices d) ∧ ∀ vertices total, Walk length start v vertices total →
    d ≤ total

theorem IsDistance.unique {v : V} {d d' : Nat} (h : IsDistance length start v d)
    (h' : IsDistance length start v d') : d = d' := by
  obtain ⟨vertices, hwalk⟩ := h.1
  obtain ⟨vertices', hwalk'⟩ := h'.1
  exact le_antisymm (h.2 _ _ hwalk') (h'.2 _ _ hwalk)

variable {vertices : List V}

theorem Walk.total_le {v : V} {total bound : Nat} (h : Walk length start v vertices total)
    (hbound : ∀ u v k, length u v = some k → k ≤ bound) : total + bound ≤ vertices.length * bound := by
  induction h with
  | nil => simp
  | @snoc u v vertices total k walk edge ih =>
    have := hbound u v k edge
    rw [length_append, length_singleton, Nat.succ_mul]
    omega

/-! ### Labels -/

/-- The settled vertices have their distances, and labels of the open ones that no edge from a
    settled one could lower. -/
structure Labelled (length : V → V → Option Nat) (start : V) (settled : Set V) (label : V → Option Nat) :
    Prop where
  origin : start ∉ settled → label start = some 0
  distance : ∀ v ∈ settled, ∃ d, label v = some d ∧ IsDistance length start v d
  edges : ∀ u ∈ settled, ∀ v ∉ settled, ∀ d k, label u = some d → length u v = some k →
    ∃ d', label v = some d' ∧ d' ≤ d + k

namespace Labelled

variable {settled : Set V} {label : V → Option Nat} {v : V}

/-- A walk to an open vertex passes one with a label that is not greater than its length. -/
theorem exists_le (h : Labelled length start settled label) {total : Nat}
    (walk : Walk length start v vertices total) (hv : v ∉ settled) :
    ∃ x ∉ settled, ∃ d, label x = some d ∧ d ≤ total := by
  induction walk with
  | nil => exact ⟨start, hv, 0, h.origin hv, le_rfl⟩
  | @snoc u v vertices total k walk edge ih =>
    by_cases hu : u ∈ settled
    · obtain ⟨d, hd, hdistance⟩ := h.distance u hu
      obtain ⟨d', hd', hle⟩ := h.edges u hu v hv d k hd edge
      exact ⟨v, hv, d', hd', hle.trans (Nat.add_le_add_right (hdistance.2 _ _ walk) k)⟩
    · obtain ⟨x, hx, d, hd, hle⟩ := ih hu
      exact ⟨x, hx, d, hd, hle.trans (Nat.le_add_right _ _)⟩

theorem isDistance (h : Labelled length start settled label) (hv : v ∉ settled) {d : Nat}
    (hwalk : Walk length start v vertices d)
    (hleast : ∀ x ∉ settled, ∀ d', label x = some d' → d ≤ d') : IsDistance length start v d := by
  refine ⟨⟨vertices, hwalk⟩, fun vertices' total hwalk' => ?_⟩
  obtain ⟨x, hx, d', hd', hle⟩ := h.exists_le hwalk' hv
  exact (hleast x hx d' hd').trans hle

theorem not_walk (h : Labelled length start settled label) (hv : v ∉ settled)
    (hnone : ∀ x ∉ settled, label x = none) (vertices : List V) (total : Nat) :
    ¬ Walk length start v vertices total := by
  intro walk
  obtain ⟨x, hx, d, hd, -⟩ := h.exists_le walk hv
  rw [hnone x hx] at hd
  cases hd

end Labelled

/-! ### Parents -/

/-- The vertices that the parents lead through, back to one without a parent. -/
inductive Traces (parents : V → Option V) : V → List V → Prop
  | root {v : V} (h : parents v = none) : Traces parents v [v]
  | child {v p : V} {vertices : List V} (h : parents v = some p) (trace : Traces parents p vertices) :
      Traces parents v (vertices ++ [v])

/-- Only the parents of the vertices on the way matter. -/
theorem Traces.congr {parents parents' : V → Option V} {v : V} (h : Traces parents v vertices)
    (hsame : ∀ x ∈ vertices, parents' x = parents x) : Traces parents' v vertices := by
  induction h with
  | root h => exact .root ((hsame _ mem_cons_self).trans h)
  | child h _ ih =>
    refine .child ((hsame _ (by simp)).trans h) (ih fun x hx => hsame x (mem_append_left _ hx))

section

/-- An edge with its length. -/
structure WEdge (V : Type u) where
  u : V
  v : V
  length : Nat
deriving DecidableEq

variable {V : Type u}

/-! ### Joined vertices -/

/-- The edges join the two vertices, directly or through others. -/
def Joined (edges : List (WEdge V)) : V → V → Prop :=
  Relation.EqvGen fun x y => ∃ e ∈ edges, e.u = x ∧ e.v = y

variable {e : WEdge V}

namespace Joined

variable {S T : List (WEdge V)} {x y z : V}

theorem refl (T : List (WEdge V)) (x : V) : Joined T x x := Relation.EqvGen.refl x

theorem symm (h : Joined T x y) : Joined T y x := Relation.EqvGen.symm x y h

theorem trans (h₁ : Joined T x y) (h₂ : Joined T y z) : Joined T x z := Relation.EqvGen.trans x y z h₁ h₂

theorem of_mem (he : e ∈ T) : Joined T e.u e.v := .rel _ _ ⟨e, he, rfl, rfl⟩

/-- What is the same at both ends of every edge is the same at joined vertices. -/
theorem map_eq {β : Sort*} {f : V → β} (hf : ∀ e ∈ T, f e.u = f e.v) (h : Joined T x y) : f x = f y :=
  congrArg (Quot.lift f (by rintro _ _ ⟨e, he, rfl, rfl⟩; exact hf e he)) (Quot.eqvGen_sound h)

/-- Edges whose ends are joined by others can be left out. -/
theorem of_forall (hjoined : ∀ e ∈ S, Joined T e.u e.v) (h : Joined S x y) : Joined T x y :=
  Quot.eqvGen_exact (h.map_eq fun e he => Quot.eqvGen_sound (hjoined e he))

theorem mono (hsub : S ⊆ T) (h : Joined S x y) : Joined T x y := of_forall (fun _ he => of_mem (hsub he)) h

end Joined

/-- The classes of joined vertices. -/
def classes (T : List (WEdge V)) : Setoid V where
  r := Joined T
  iseqv := ⟨Joined.refl T, Joined.symm, Joined.trans⟩

theorem joined_nil_iff {x y : V} : Joined ([] : List (WEdge V)) x y ↔ x = y :=
  ⟨fun h => h.map_eq (f := id) (by rintro e ⟨⟩), fun h => h ▸ .refl _ _⟩

variable {T : List (WEdge V)}

/-- One edge more joins the two classes of its ends. -/
theorem joined_cons_iff {x y : V} :
    Joined (e :: T) x y ↔
      Joined T x y ∨ (Joined T x e.u ∧ Joined T e.v y) ∨ (Joined T x e.v ∧ Joined T e.u y) := by
  classical
  constructor
  · intro h
    let q : V → Quotient (classes T) := Quotient.mk (classes T)
    have hq : ∀ x y, q x = q y ↔ Joined T x y := fun x y => Quotient.eq (r := classes T)
    -- the class of the first end becomes the one of the second
    have hmerged := h.map_eq (f := fun x => if q x = q e.u then q e.v else q x) <| by
      rw [forall_mem_cons]
      refine ⟨by grind, fun e he => ?_⟩
      rw [(hq _ _).mpr (.of_mem he)]
    grind
  · have hmono : ∀ {x y}, Joined T x y → Joined (e :: T) x y := Joined.mono (subset_cons_self e T)
    have hedge : Joined (e :: T) e.u e.v := .of_mem mem_cons_self
    rintro (h | ⟨h₁, h₂⟩ | ⟨h₁, h₂⟩)
    · exact hmono h
    · exact ((hmono h₁).trans hedge).trans (hmono h₂)
    · exact ((hmono h₁).trans hedge.symm).trans (hmono h₂)

/-! ### Classes and forests -/

noncomputable def components (T : List (WEdge V)) : Nat := Nat.card (Quotient (classes T))

/-- Every edge joins two classes of the edges behind it in the list. -/
def Forest : List (WEdge V) → Prop
  | [] => True
  | e :: T => ¬ Joined T e.u e.v ∧ Forest T

variable {S : List (WEdge V)}

theorem Forest.sublist (hsub : S.Sublist T) (hT : Forest T) : Forest S := by
  induction hsub with
  | slnil => exact hT
  | cons e _ ih => exact ih hT.2
  | cons_cons e hsub ih => exact ⟨fun h => hT.1 (h.mono hsub.subset), ih hT.2⟩

theorem components_nil : components ([] : List (WEdge V)) = Nat.card V := by
  apply (Nat.card_eq_of_bijective (Quotient.mk (classes [])) ⟨fun x y h => ?_, Quotient.mk_surjective⟩).symm
  exact joined_nil_iff.mp (Quotient.exact h)

section Counting

variable [Finite V]

theorem components_cons (hnew : ¬ Joined T e.u e.v) : components (e :: T) + 1 = components T := by
  classical
  -- the classes behind the edge are those before it, without the class of its second end
  let q : V → Quotient (classes T) := Quotient.mk (classes T)
  have hmk : ∀ x y, q x = q y ↔ Joined T x y := fun x y => Quotient.eq (r := classes T)
  let join : {c : Quotient (classes T) // c ≠ q e.v} → Quotient (classes (e :: T)) := fun c =>
    Quotient.lift (fun x => Quotient.mk (classes (e :: T)) x)
      (fun _ _ h => Quotient.sound (s := classes (e :: T)) (joined_cons_iff.mpr (.inl h))) c.1
  have hjoin : Function.Bijective join := by
    constructor
    · rintro ⟨c, hc⟩ ⟨d, hd⟩ heq
      induction c using Quotient.ind with
      | _ x =>
        induction d using Quotient.ind with
        | _ y =>
          have hxy : Joined (e :: T) x y := Quotient.exact heq
          rcases joined_cons_iff.mp hxy with h | ⟨-, h⟩ | ⟨h, -⟩
          · exact Subtype.ext ((hmk x y).mpr h)
          · exact absurd ((hmk y e.v).mpr h.symm) hd
          · exact absurd ((hmk x e.v).mpr h) hc
    · intro c
      induction c using Quotient.ind with
      | _ x =>
        by_cases hx : Joined T x e.v
        · refine ⟨⟨q e.u, fun h => hnew ((hmk _ _).mp h)⟩, Quotient.sound (s := classes (e :: T)) ?_⟩
          exact joined_cons_iff.mpr (.inr (.inl ⟨.refl T _, hx.symm⟩))
        · exact ⟨⟨q x, fun h => hx ((hmk _ _).mp h)⟩, rfl⟩
  have := Fintype.ofFinite (Quotient (classes T))
  have hpos : 0 < Fintype.card (Quotient (classes T)) := Fintype.card_pos_iff.mpr ⟨q e.v⟩
  rw [components, components, ← Nat.card_eq_of_bijective join hjoin, Nat.card_eq_fintype_card,
    Nat.card_eq_fintype_card]
  have hcard : Fintype.card {c // c ≠ q e.v} = Fintype.card (Quotient (classes T)) - 1 :=
    Set.card_ne_eq (q e.v)
  omega

/-- Every edge of a forest saves one class. -/
theorem forest_length (hT : Forest T) : T.length + components T = Nat.card V := by
  induction T with
  | nil => rw [length_nil, Nat.zero_add, components_nil]
  | cons e T ih =>
    have hrest := ih hT.2
    have hcons := components_cons hT.1
    rw [length_cons]
    omega

/-- Fewer vertices joined, more classes; and as many classes only if the same vertices are joined. -/
theorem components_le (hsub : ∀ x y, Joined S x y → Joined T x y) :
    components T ≤ components S ∧ (components S = components T → ∀ x y, Joined T x y → Joined S x y) := by
  let coarsen : Quotient (classes S) → Quotient (classes T) :=
    Quotient.lift (Quotient.mk (classes T)) fun x y h => Quotient.sound (hsub x y h)
  have hsurj : Function.Surjective coarsen := by
    intro c
    induction c using Quotient.ind with
    | _ x => exact ⟨Quotient.mk _ x, rfl⟩
  refine ⟨Nat.card_le_card_of_surjective coarsen hsurj, fun hcard x y hxy => ?_⟩
  have hbij : Function.Bijective coarsen :=
    (Nat.bijective_iff_surjective_and_card coarsen).mpr ⟨hsurj, hcard⟩
  have heq : coarsen (Quotient.mk _ x) = coarsen (Quotient.mk _ y) := Quotient.sound hxy
  exact Quotient.exact (hbij.1 heq)

theorem components_congr (h : ∀ x y, Joined S x y ↔ Joined T x y) : components S = components T :=
  le_antisymm (components_le fun x y => (h x y).mpr).1 (components_le fun x y => (h x y).mp).1

/-- An edge between joined vertices saves no class. -/
theorem components_le_cons (h : Joined T e.u e.v) : components T ≤ components (e :: T) := by
  refine (components_le fun x y hxy => ?_).1
  exact hxy.of_forall (forall_mem_cons.mpr ⟨h, fun _ he => .of_mem he⟩)

theorem card_le_length_add (T : List (WEdge V)) : Nat.card V ≤ T.length + components T := by
  induction T with
  | nil => rw [length_nil, Nat.zero_add, components_nil]
  | cons e T ih =>
    rw [length_cons]
    by_cases hjoined : Joined T e.u e.v
    · have := components_le_cons hjoined
      omega
    · have := components_cons hjoined
      omega

/-- Forests are known by the number of their edges. -/
theorem forest_of_length (h : T.length + components T = Nat.card V) : Forest T := by
  induction T with
  | nil => trivial
  | cons e T ih =>
    rw [length_cons] at h
    have hcard := card_le_length_add T
    have hnew : ¬ Joined T e.u e.v := by
      intro hjoined
      have := components_le_cons hjoined
      omega
    have := components_cons hnew
    exact ⟨hnew, ih (by omega)⟩

end Counting

theorem components_pos [Finite V] [Nonempty V] (T : List (WEdge V)) : 0 < components T := by
  have : Nonempty (Quotient (classes T)) := ⟨Quotient.mk (classes T) (Classical.arbitrary V)⟩
  exact Nat.card_pos

theorem components_eq_one_iff [Nonempty V] : components T = 1 ↔ ∀ x y, Joined T x y := by
  rw [components, Nat.card_eq_one_iff_unique]
  constructor
  · intro h x y
    exact Quotient.exact (s := classes T) (h.1.elim _ _)
  · intro h
    refine ⟨⟨fun a b => ?_⟩, ⟨Quotient.mk (classes T) (Classical.arbitrary V)⟩⟩
    induction a using Quotient.inductionOn with
    | _ x =>
      induction b using Quotient.inductionOn with
      | _ y => exact Quotient.sound (s := classes T) (h x y)

/-! ### Lengths -/

/-- The edges that are not longer. -/
def upTo (l : Nat) (T : List (WEdge V)) : List (WEdge V) := T.filter fun e => e.length ≤ l

theorem mem_upTo {l : Nat} : e ∈ upTo l T ↔ e ∈ T ∧ e.length ≤ l := by
  rw [upTo, mem_filter, decide_eq_true_iff]

theorem upTo_subset {l m : Nat} (hlm : l ≤ m) (hsub : S ⊆ T) : upTo l S ⊆ upTo m T := by
  intro e he
  obtain ⟨hS, hl⟩ := mem_upTo.mp he
  exact mem_upTo.mpr ⟨hsub hS, hl.trans hlm⟩

/-- The edges of `T` join the ends of every edge of `G` without a longer edge. -/
def Spans (T G : List (WEdge V)) : Prop := ∀ e ∈ G, Joined (upTo e.length T) e.u e.v

variable {G : List (WEdge V)}

theorem Spans.joined (h : Spans T G) {l : Nat} {x y : V} (hxy : Joined (upTo l G) x y) :
    Joined (upTo l T) x y := by
  apply hxy.of_forall
  intro e he
  obtain ⟨hG, hl⟩ := mem_upTo.mp he
  exact (h e hG).mono (upTo_subset hl (Subset.refl T))

theorem Spans.joined_all (h : Spans T G) {x y : V} (hxy : Joined G x y) : Joined T x y := by
  apply hxy.of_forall
  intro e he
  exact (h e he).mono filter_sublist.subset

theorem Spans.mono (hsub : S ⊆ T) (h : Spans S G) : Spans T G :=
  fun e he => (h e he).mono (upTo_subset le_rfl hsub)

theorem Spans.append_singleton (h : Spans T G) (he : Joined (upTo e.length T) e.u e.v) :
    Spans T (G ++ [e]) := by
  intro e' he'
  rcases mem_append.mp he' with he' | he'
  · exact h e' he'
  · rw [mem_singleton.mp he']
    exact he

theorem Spans.of_subset (h : G ⊆ T) : Spans T G :=
  fun _ he => .of_mem (mem_upTo.mpr ⟨h he, le_rfl⟩)

/-- A minimal spanning forest of the graph. -/
structure Minimal (T G : List (WEdge V)) : Prop where
  forest : Forest T
  spans : Spans T G
  spanned : Spans G T

def total (T : List (WEdge V)) : Nat := (T.map WEdge.length).sum

/-- The total, told by how many edges there are up to each length. -/
theorem total_add_sum {bound : Nat} (hT : ∀ e ∈ T, e.length ≤ bound) :
    total T + ∑ l ∈ Finset.range bound, (upTo l T).length = bound * T.length := by
  induction T with
  | nil => simp [total, upTo]
  | cons e T ih =>
    have hrest := ih fun e' he' => hT e' (mem_cons_of_mem e he')
    have he : e.length ≤ bound := hT e mem_cons_self
    have hcount : ∀ l, (upTo l (e :: T)).length = (upTo l T).length + if e.length ≤ l then 1 else 0 := by
      intro l
      by_cases hl : e.length ≤ l <;> simp [upTo, hl]
    have hfirst : e.length + ∑ l ∈ Finset.range bound, (if e.length ≤ l then 1 else 0) = bound := by
      have hfilter : (Finset.range bound).filter (e.length ≤ ·) = Finset.Ico e.length bound := by
        ext l
        simp [and_comm]
      rw [← Finset.card_filter, hfilter, Nat.card_Ico]
      omega
    simp only [hcount, Finset.sum_add_distrib]
    rw [total, map_cons, sum_cons, length_cons, Nat.mul_succ, ← hrest, total]
    omega

theorem exists_bound (T : List (WEdge V)) : ∃ bound, ∀ e ∈ T, e.length < bound := by
  refine ⟨(T.map WEdge.length).sum + 1, fun e he => Nat.lt_succ_of_le ?_⟩
  exact single_le_sum (fun _ _ => Nat.zero_le _) _ (List.mem_map_of_mem he)

section Minimal

variable [Finite V] {T G : List (WEdge V)}

/-- How many edges of a minimal forest there are up to a length. -/
theorem Minimal.length_upTo (h : Minimal T G) (l : Nat) :
    (upTo l T).length + components (upTo l G) = Nat.card V := by
  rw [components_congr fun x y => ⟨h.spans.joined, h.spanned.joined⟩]
  exact forest_length (h.forest.sublist filter_sublist)

theorem Minimal.length_add (h : Minimal T G) : T.length + components G = Nat.card V := by
  rw [components_congr fun x y => ⟨h.spans.joined_all, h.spanned.joined_all⟩]
  exact forest_length h.forest

/-- Minimal forests of two graphs, of which the second joins all that the first does at every
    length. -/
theorem total_eq_total_iff {T₁ G₁ T₂ G₂ : List (WEdge V)} (h₁ : Minimal T₁ G₁) (h₂ : Minimal T₂ G₂)
    (hsub : Spans G₂ G₁) (hlen : T₁.length = T₂.length) : total T₁ = total T₂ ↔ Spans G₁ G₂ := by
  obtain ⟨bound, hbound⟩ := exists_bound (T₁ ++ (T₂ ++ G₂))
  simp only [mem_append] at hbound
  have htotal₁ := total_add_sum fun e he => (hbound e (.inl he)).le
  have htotal₂ := total_add_sum fun e he => (hbound e (.inr (.inl he))).le
  have hcomponents := fun l => components_le fun x y => hsub.joined (l := l) (x := x) (y := y)
  have hle : ∀ l ∈ Finset.range bound, (upTo l T₁).length ≤ (upTo l T₂).length := by
    intro l _
    have := h₁.length_upTo l
    have := h₂.length_upTo l
    have := (hcomponents l).1
    omega
  have hsum : total T₁ = total T₂ ↔
      ∑ l ∈ Finset.range bound, (upTo l T₁).length = ∑ l ∈ Finset.range bound, (upTo l T₂).length := by
    rw [hlen] at htotal₁
    omega
  rw [hsum, Finset.sum_eq_sum_iff_of_le hle]
  constructor
  · intro h e he
    -- as many classes at the length of the edge, so the same vertices are joined there
    have heq := h e.length (Finset.mem_range.mpr (hbound e (.inr (.inr he))))
    have := h₁.length_upTo e.length
    have := h₂.length_upTo e.length
    apply (hcomponents e.length).2 (by omega)
    exact .of_mem (mem_upTo.mpr ⟨he, le_rfl⟩)
  · intro h l _
    have := h₁.length_upTo l
    have := h₂.length_upTo l
    have := components_congr fun x y => ⟨hsub.joined (l := l) (x := x) (y := y), h.joined⟩
    omega

end Minimal

/-! ### Spanning trees -/

/-- Edges of the graph that join all vertices, one less than there are vertices. -/
structure SpanningTree (T G : List (WEdge V)) : Prop where
  subset : T ⊆ G
  joined : ∀ x y, Joined T x y
  length : T.length + 1 = Nat.card V

/-- No spanning tree of the graph has a smaller total. -/
structure MinimalTree (T G : List (WEdge V)) : Prop extends SpanningTree T G where
  total_le : ∀ S, SpanningTree S G → total T ≤ total S

variable [Finite V] [Nonempty V] {S T G : List (WEdge V)}

theorem SpanningTree.forest (h : SpanningTree T G) : Forest T := by
  apply forest_of_length
  rw [components_eq_one_iff.mpr h.joined, h.length]

/-- A spanning tree has at no length more edges up to it than a minimal forest. -/
theorem SpanningTree.length_upTo_le (h : SpanningTree S G) (hT : Minimal T G) (l : Nat) :
    (upTo l S).length ≤ (upTo l T).length := by
  have hS := forest_length (h.forest.sublist (S := upTo l S) filter_sublist)
  have hclasses : components (upTo l G) ≤ components (upTo l S) :=
    (components_le fun x y hxy => hxy.mono (upTo_subset le_rfl h.subset)).1
  have := hT.length_upTo l
  omega

theorem Minimal.minimalTree (h : Minimal T G) (hsub : T ⊆ G) (hall : ∀ x y, Joined G x y) :
    MinimalTree T G := by
  have hlength := h.length_add
  rw [components_eq_one_iff.mpr hall] at hlength
  refine ⟨⟨hsub, fun x y => h.spans.joined_all (hall x y), hlength⟩, fun S hS => ?_⟩
  obtain ⟨bound, hbound⟩ := exists_bound (S ++ T)
  have htotalS := total_add_sum fun e he => (hbound e (mem_append_left T he)).le
  have htotalT := total_add_sum fun e he => (hbound e (mem_append_right S he)).le
  have hsum : ∑ l ∈ Finset.range bound, (upTo l S).length ≤ ∑ l ∈ Finset.range bound, (upTo l T).length :=
    Finset.sum_le_sum fun l _ => hS.length_upTo_le h l
  have hsame : S.length = T.length := by
    have := hS.length
    omega
  rw [hsame] at htotalS
  omega

omit [Finite V] [Nonempty V] in
/-- The order of the edges does not matter. -/
theorem MinimalTree.perm (hperm : S.Perm T) (h : MinimalTree T G) : MinimalTree S G where
  subset := Subset.trans hperm.subset h.subset
  joined := fun x y => (h.joined x y).mono hperm.symm.subset
  length := by rw [hperm.length_eq, h.length]
  total_le := by
    have htotal : total S = total T := (hperm.map WEdge.length).sum_eq
    rw [htotal]
    exact h.total_le

end

variable {V : Type u}

/-- The vertices of the tree, the newest first. -/
def reached (start : V) (T : List (WEdge V)) : List V := T.map WEdge.v ++ [start]

/-- The edge leaves the tree. -/
def Leaves (start : V) (T : List (WEdge V)) (e : WEdge V) : Prop :=
  e.u ∈ reached start T ∧ e.v ∉ reached start T

/-- Every edge of the tree was a shortest one that left the tree of the edges behind it in the list. -/
inductive Greedy (G : List (WEdge V)) (start : V) : List (WEdge V) → Prop where
  | nil : Greedy G start []
  | cons {T : List (WEdge V)} {e : WEdge V} (hT : Greedy G start T) (he : e ∈ G) (hleaves : Leaves start T e)
      (hshortest : ∀ e' ∈ G, Leaves start T e' → e.length ≤ e'.length) : Greedy G start (e :: T)

variable {G : List (WEdge V)} {start : V} {T : List (WEdge V)} {e : WEdge V} {x y : V} {l m : Nat}

theorem mem_reached_cons : x ∈ reached start (e :: T) ↔ x = e.v ∨ x ∈ reached start T := by
  rw [reached, map_cons, cons_append, mem_cons, reached]

theorem Greedy.subset (hT : Greedy G start T) : T ⊆ G := by
  induction hT with
  | nil => exact nil_subset G
  | cons _ he _ _ ih => exact cons_subset.mpr ⟨he, ih⟩

/-- Both ends of an edge of the tree are reached. -/
theorem Greedy.ends_mem (hT : Greedy G start T) :
    ∀ e ∈ T, e.u ∈ reached start T ∧ e.v ∈ reached start T := by
  induction hT with
  | nil => nofun
  | cons _ _ hleaves _ ih =>
    intro e' he'
    rcases mem_cons.mp he' with rfl | he'
    · exact ⟨mem_reached_cons.mpr (.inr hleaves.1), mem_reached_cons.mpr (.inl rfl)⟩
    · obtain ⟨hu, hv⟩ := ih e' he'
      exact ⟨mem_reached_cons.mpr (.inr hu), mem_reached_cons.mpr (.inr hv)⟩

theorem Greedy.mem_reached_iff (hT : Greedy G start T) (hxy : Joined T x y) :
    x ∈ reached start T ↔ y ∈ reached start T := by
  rw [hxy.map_eq (f := (· ∈ reached start T)) fun e he => ?_]
  exact propext (iff_of_true (hT.ends_mem e he).1 (hT.ends_mem e he).2)

theorem Greedy.forest (hT : Greedy G start T) : Forest T := by
  induction hT with
  | nil => trivial
  | cons hT _ hleaves _ ih =>
      exact ⟨fun hjoined => hleaves.2 ((hT.mem_reached_iff hjoined).mp hleaves.1), ih⟩

theorem Greedy.reached_nodup (hT : Greedy G start T) : (reached start T).Nodup := by
  induction hT with
  | nil => exact nodup_singleton start
  | cons _ _ hleaves _ ih => exact nodup_cons.mpr ⟨hleaves.2, ih⟩

theorem length_reached (start : V) (T : List (WEdge V)) : (reached start T).length = T.length + 1 := by
  rw [reached, length_append, length_map, length_singleton]

theorem Greedy.length_lt [Fintype V] (hT : Greedy G start T) : T.length < Fintype.card V := by
  have := hT.reached_nodup.length_le_card
  rwa [length_reached] at this

/-! ### When a vertex was reached -/

/-- All edges that were added after the vertex was reached are not longer than `l`. -/
def ShortAfter (l : Nat) (x : V) : List (WEdge V) → Prop
  | [] => True
  | e :: T => x = e.v ∨ (e.length ≤ l ∧ ShortAfter l x T)

theorem ShortAfter.mono (hlm : l ≤ m) (h : ShortAfter l x T) : ShortAfter m x T := by
  induction T with
  | nil => trivial
  | cons e T ih => exact h.imp_right fun hrest => ⟨hrest.1.trans hlm, ih hrest.2⟩

/-- As long as an edge leaves the tree, no longer one is added. -/
theorem Greedy.shortAfter (hT : Greedy G start T) (he : e ∈ G) (hleaves : Leaves start T e) :
    ShortAfter e.length e.u T := by
  induction hT with
  | nil => trivial
  | cons _ _ _ hshortest ih =>
    have hv := fun hmem => hleaves.2 (mem_reached_cons.mpr (.inr hmem))
    rcases mem_reached_cons.mp hleaves.1 with hu | hu
    · exact .inl hu
    · exact .inr ⟨hshortest e he ⟨hu, hv⟩, ih ⟨hu, hv⟩⟩

/-- The vertex that was reached last. -/
def newest (start : V) : List (WEdge V) → V
  | [] => start
  | e :: _ => e.v

/-- A vertex since which no longer edge was added is joined with the newest one. -/
theorem Greedy.joined_newest (hT : Greedy G start T) (hx : x ∈ reached start T) (hshort : ShortAfter l x T) :
    Joined (upTo l T) (newest start T) x := by
  induction hT generalizing x with
  | nil =>
    rw [mem_singleton.mp hx]
    exact .refl _ _
  | @cons T e hT he hleaves _ ih =>
    rcases hshort with rfl | ⟨hl, hshort⟩
    · exact .refl _ _
    · rcases mem_reached_cons.mp hx with rfl | hx
      · exact .refl _ _
      · have hmono : ∀ {a b}, Joined (upTo l T) a b → Joined (upTo l (e :: T)) a b :=
          Joined.mono (upTo_subset le_rfl (subset_cons_self e T))
        have hedge : Joined (upTo l (e :: T)) e.u e.v := .of_mem (mem_upTo.mpr ⟨mem_cons_self, hl⟩)
        -- the other end of the newest edge is joined with the vertex that was newest before
        have hu := ih hleaves.1 ((hT.shortAfter he hleaves).mono hl)
        exact hedge.symm.trans ((hmono hu).symm.trans (hmono (ih hx hshort)))

/-- An edge of the graph between two vertices of the tree has a way in the tree that is not longer. -/
theorem Greedy.joined_of_mem (hT : Greedy G start T) (hsymm : ∀ e ∈ G, ⟨e.v, e.u, e.length⟩ ∈ G) (he : e ∈ G)
    (hu : e.u ∈ reached start T) (hv : e.v ∈ reached start T) : Joined (upTo e.length T) e.u e.v := by
  induction hT generalizing e with
  | nil =>
    rw [mem_singleton.mp hu, mem_singleton.mp hv]
    exact .refl _ _
  | @cons T e₀ hT he₀ hleaves hshortest ih =>
    have hmono : ∀ {a b}, Joined (upTo e.length T) a b → Joined (upTo e.length (e₀ :: T)) a b :=
      Joined.mono (upTo_subset le_rfl (subset_cons_self e₀ T))
    -- an edge to the newest vertex was leaving the tree just before
    have hnew : ∀ e ∈ G, e.u ∈ reached start T → e.v = e₀.v → Joined (upTo e.length (e₀ :: T)) e₀.v e.u := by
      intro e he hu hv
      have hleaves' : Leaves start T e := ⟨hu, hv ▸ hleaves.2⟩
      apply (hT.cons he₀ hleaves hshortest).joined_newest (mem_reached_cons.mpr (.inr hu))
      exact .inr ⟨hshortest e he hleaves', hT.shortAfter he hleaves'⟩
    rcases mem_reached_cons.mp hu with hu | hu
    · rcases mem_reached_cons.mp hv with hv | hv
      · rw [hu, hv]
        exact .refl _ _
      · have := hnew _ (hsymm e he) hv hu
        rwa [← hu] at this
    · rcases mem_reached_cons.mp hv with hv | hv
      · have := (hnew e he hu hv).symm
        rwa [← hv] at this
      · exact hmono (ih he hu hv)

/-- A tree that has reached every vertex is a minimal forest. -/
theorem Greedy.minimal (hT : Greedy G start T) (hsymm : ∀ e ∈ G, ⟨e.v, e.u, e.length⟩ ∈ G)
    (hall : ∀ x, x ∈ reached start T) : Minimal T G where
  forest := hT.forest
  spans := fun e he => hT.joined_of_mem hsymm he (hall e.u) (hall e.v)
  spanned := Spans.of_subset hT.subset

/-- If no edge leaves the tree, it has reached all that is joined with its start. -/
theorem mem_reached_of_joined (hsymm : ∀ e ∈ G, ⟨e.v, e.u, e.length⟩ ∈ G)
    (hclosed : ∀ e ∈ G, ¬ Leaves start T e) (hx : Joined G start x) : x ∈ reached start T := by
  have hiff : ∀ {a b}, Joined G a b → (a ∈ reached start T ↔ b ∈ reached start T) := by
    intro a b hab
    induction hab with
    | rel a b hab =>
      obtain ⟨e, he, rfl, rfl⟩ := hab
      constructor
      · exact fun hu => not_not.mp fun hv => hclosed e he ⟨hu, hv⟩
      · exact fun hv => not_not.mp fun hu => hclosed _ (hsymm e he) ⟨hv, hu⟩
    | refl a => exact Iff.rfl
    | symm a b _ ih => exact ih.symm
    | trans a b c _ _ ih₁ ih₂ => exact ih₁.trans ih₂
  exact (hiff hx).mp (mem_append_right _ (mem_singleton_self start))

end NsuLabs.Lib
