/-
Module: NsuLabs.Lib.OptimalCodes
Purpose: Binary trees as prefix codes, and code trees of least cost, the sum of weight times depth over the
  leaves.
Trusted boundary: none
Main exports: CodeTree, sum_codes
-/
import Mathlib

namespace NsuLabs.Lib

open List
universe u

/-- A binary tree with its values in the leaves. -/
inductive CodeTree (α : Type u) where
  | leaf (value : α)
  | branch (left right : CodeTree α)
deriving DecidableEq

namespace CodeTree

variable {α : Type u}

def leaves : CodeTree α → List α
  | leaf value => [value]
  | branch left right => left.leaves ++ right.leaves

def height : CodeTree α → Nat
  | leaf _ => 0
  | branch left right => max left.height right.height + 1

/-- The leaves with the paths to them. -/
def codes : CodeTree α → List (α × List Bool)
  | leaf value => [(value, [])]
  | branch left right =>
    left.codes.map (fun c => (c.1, false :: c.2)) ++ right.codes.map (fun c => (c.1, true :: c.2))

/-- The leaf at the end of the path and the bits behind it; `none` if the bits end too early. -/
def decode : CodeTree α → List Bool → Option (α × List Bool)
  | leaf value, bits => some (value, bits)
  | branch _ _, [] => none
  | branch left _, false :: bits => left.decode bits
  | branch _ right, true :: bits => right.decode bits

/-- A leaf is a `true` and its symbol, a branch a `false` and its two subtrees. -/
def serialize (symbol : α → List Bool) : CodeTree α → List Bool
  | leaf value => true :: symbol value
  | branch left right => false :: (left.serialize symbol ++ right.serialize symbol)

theorem map_fst_codes (t : CodeTree α) : t.codes.map Prod.fst = t.leaves := by
  induction t with
  | leaf value => rfl
  | branch left right ihl ihr =>
    rw [codes, map_append, List.map_map, List.map_map, leaves, ← ihl, ← ihr]
    rfl

theorem decode_append {t : CodeTree α} {value : α} {code : List Bool} (h : (value, code) ∈ t.codes)
    (rest : List Bool) : t.decode (code ++ rest) = some (value, rest) := by
  induction t generalizing code with
  | leaf v =>
    obtain ⟨rfl, rfl⟩ := Prod.mk.inj (mem_singleton.mp h)
    rfl
  | branch left right ihl ihr =>
    rcases mem_append.mp h with h | h
    · obtain ⟨⟨v, path⟩, hpath, heq⟩ := List.mem_map.mp h
      obtain ⟨rfl, rfl⟩ := Prod.mk.inj heq
      exact ihl hpath
    · obtain ⟨⟨v, path⟩, hpath, heq⟩ := List.mem_map.mp h
      obtain ⟨rfl, rfl⟩ := Prod.mk.inj heq
      exact ihr hpath

/-- The walk along a part of a code does not reach a leaf. -/
theorem decode_eq_none {t : CodeTree α} {value : α} {bits more : List Bool}
    (h : (value, bits ++ more) ∈ t.codes) (hmore : more ≠ []) : t.decode bits = none := by
  induction t generalizing bits with
  | leaf v =>
    have hnil := (Prod.mk.inj (mem_singleton.mp h)).2
    exact absurd (append_eq_nil_iff.mp hnil).2 hmore
  | branch left right ihl ihr =>
    rcases bits with _ | ⟨bit, bits⟩
    · rfl
    · rcases mem_append.mp h with h | h
      · obtain ⟨⟨v, path⟩, hpath, heq⟩ := List.mem_map.mp h
        obtain ⟨rfl, rfl, rfl⟩ : v = value ∧ false = bit ∧ path = bits ++ more := by simpa using heq
        exact ihl hpath
      · obtain ⟨⟨v, path⟩, hpath, heq⟩ := List.mem_map.mp h
        obtain ⟨rfl, rfl, rfl⟩ : v = value ∧ true = bit ∧ path = bits ++ more := by simpa using heq
        exact ihr hpath

/-- If the end of a symbol can be told, the end of a written tree can be told. -/
theorem serialize_append_inj {symbol : α → List Bool}
    (hsymbol : ∀ {a b : α} {x y : List Bool}, symbol a ++ x = symbol b ++ y → a = b ∧ x = y)
    {t t' : CodeTree α}
    {x y : List Bool} (h : t.serialize symbol ++ x = t'.serialize symbol ++ y) : t = t' ∧ x = y := by
  induction t generalizing t' x y with
  | leaf v =>
    cases t' with
    | leaf v' =>
      obtain ⟨rfl, rfl⟩ := hsymbol (cons.inj h).2
      exact ⟨rfl, rfl⟩
    | branch left right => exact absurd (cons.inj h).1 (by decide)
  | branch left right ihl ihr =>
    cases t' with
    | leaf v' => exact absurd (cons.inj h).1 (by decide)
    | branch left' right' =>
      rw [serialize, serialize, cons_append, cons_append, append_assoc, append_assoc] at h
      obtain ⟨rfl, hrest⟩ := ihl (cons.inj h).2
      obtain ⟨rfl, rfl⟩ := ihr hrest
      exact ⟨rfl, rfl⟩

/-- A tree that is deep has many leaves. -/
theorem height_lt_length_leaves (t : CodeTree α) : t.height < t.leaves.length := by
  induction t with
  | leaf value => exact Nat.one_pos
  | branch left right ihl ihr =>
    rw [height, leaves, length_append]
    omega

end CodeTree

end NsuLabs.Lib

namespace NsuLabs.Lib.CodeTree

open List
universe u v

variable {α : Type u} {β : Type v}

/-! ### Weight and cost -/

def weight (w : α → Nat) (t : CodeTree α) : Nat := (t.leaves.map w).sum

/-- Every leaf counts with its weight once for each branch above it. -/
def cost (w : α → Nat) : CodeTree α → Nat
  | leaf _ => 0
  | branch left right => left.cost w + right.cost w + (left.weight w + right.weight w)

theorem weight_branch (w : α → Nat) (left right : CodeTree α) :
    (branch left right).weight w = left.weight w + right.weight w := by
  rw [weight, leaves, map_append, sum_append]
  rfl

/-- The cost, as the sum of weight times depth. -/
theorem sum_codes (w : α → Nat) (t : CodeTree α) :
    (t.codes.map fun c => w c.1 * c.2.length).sum = t.cost w := by
  -- one level deeper, every leaf counts once more
  have hdeeper (t : CodeTree α) (bit : Bool) :
      ((t.codes.map fun c => (c.1, bit :: c.2)).map fun c => w c.1 * c.2.length).sum =
        (t.codes.map fun c => w c.1 * c.2.length).sum + t.weight w := by
    rw [weight, ← map_fst_codes, List.map_map, List.map_map, ← sum_map_add]
    exact congrArg List.sum (map_congr_left fun c _ => Nat.mul_succ _ _)
  induction t with
  | leaf value => rfl
  | branch left right ihl ihr =>
    rw [codes, map_append, sum_append, hdeeper, hdeeper, ihl, ihr, cost]
    omega

def map (f : α → β) : CodeTree α → CodeTree β
  | leaf value => leaf (f value)
  | branch left right => branch (left.map f) (right.map f)

theorem leaves_map (f : α → β) (t : CodeTree α) : (t.map f).leaves = t.leaves.map f := by
  induction t with
  | leaf value => rfl
  | branch left right ihl ihr => rw [map, leaves, leaves, ihl, ihr, map_append]

/-- Only the weights of the leaves matter. -/
theorem cost_map (w : α → Nat) (t : CodeTree α) : (t.map w).cost id = t.cost w := by
  induction t with
  | leaf value => rfl
  | branch left right ihl ihr =>
    rw [map, cost, cost, ihl, ihr, weight, weight, leaves_map, leaves_map, List.map_id, List.map_id]
    rfl

theorem weight_id (t : CodeTree Nat) : t.weight id = t.leaves.sum := by
  rw [weight, List.map_id]

/-! ### Trees over weights -/

theorem eq_leaf_of_height {t : CodeTree α} (h : t.height = 0) : ∃ value, t = leaf value := by
  cases t with
  | leaf value => exact ⟨value, rfl⟩
  | branch left right => cases h

/-- The order of the subtrees does not matter. -/
theorem height_swap (left right : CodeTree α) : (branch left right).height = (branch right left).height :=
  congrArg Nat.succ (max_comm _ _)

theorem cost_swap (w : α → Nat) (left right : CodeTree α) :
    (branch left right).cost w = (branch right left).cost w := by
  rw [cost, cost]
  omega

/-- One leaf gets another weight. -/
theorem relabel (t : CodeTree Nat) {a : Nat} (ha : a ∈ t.leaves) (x : Nat) :
    ∃ t' : CodeTree Nat, ∃ k ≤ t.height, t'.height = t.height ∧ (a :: t'.leaves).Perm (x :: t.leaves) ∧
      t'.cost id + a * k = t.cost id + x * k := by
  induction t with
  | leaf value =>
    obtain rfl := mem_singleton.mp ha
    exact ⟨leaf x, 0, le_rfl, rfl, List.Perm.swap _ _ _, rfl⟩
  | branch left right ihl ihr =>
    rw [leaves, mem_append] at ha
    wlog hleft : a ∈ left.leaves generalizing left right
    · obtain ⟨t', k, hk, hheight, hperm, hcost⟩ := this right left ihr ihl ha.symm (ha.resolve_left hleft)
      rw [height_swap] at hk hheight
      rw [cost_swap] at hcost
      exact ⟨t', k, hk, hheight, hperm.trans (perm_append_comm.cons x), hcost⟩
    obtain ⟨left', k, hk, hheight, hperm, hcost⟩ := ihl hleft
    have hweight := hperm.sum_eq
    rw [sum_cons, sum_cons, ← weight_id, ← weight_id] at hweight
    refine ⟨branch left' right, k + 1, ?_, ?_, hperm.append_right right.leaves, ?_⟩
    · rw [height]
      omega
    · rw [height, height, hheight]
    · rw [cost, cost, Nat.mul_succ, Nat.mul_succ]
      omega

/-- A deepest pair of leaves is replaced by one leaf, of any weight. -/
theorem collapse (t : CodeTree Nat) {h : Nat} (hheight : t.height = h + 1) :
    ∃ x y rest, t.leaves.Perm (x :: y :: rest) ∧ ∀ s, ∃ c : CodeTree Nat, c.leaves.Perm (s :: rest) ∧
      c.height ≤ h + 1 ∧ c.cost id + (x + y) * (h + 1) = t.cost id + s * h := by
  induction t generalizing h with
  | leaf value => cases hheight
  | branch left right ihl ihr =>
    wlog hdeep : right.height ≤ left.height generalizing left right
    · rw [height_swap] at hheight
      rw [cost_swap]
      obtain ⟨x, y, rest, hleaves, hcollapse⟩ := this right left ihr ihl hheight (le_of_not_ge hdeep)
      exact ⟨x, y, rest, perm_append_comm.trans hleaves, hcollapse⟩
    have hmax : left.height = h := (max_eq_left hdeep).symm.trans (Nat.succ.inj hheight)
    cases h with
    | zero =>
      obtain ⟨x, rfl⟩ := eq_leaf_of_height hmax
      obtain ⟨y, rfl⟩ := eq_leaf_of_height (Nat.le_zero.mp (hdeep.trans hmax.le))
      refine ⟨x, y, [], List.Perm.refl _, fun s => ⟨leaf s, List.Perm.refl _, Nat.zero_le _, ?_⟩⟩
      simp [cost, weight, leaves]
    | succ h =>
      obtain ⟨x, y, rest, hleaves, hcollapse⟩ := ihl hmax
      have hweight := hleaves.sum_eq
      simp only [sum_cons, ← weight_id] at hweight
      refine ⟨x, y, rest ++ right.leaves, hleaves.append_right right.leaves, fun s => ?_⟩
      obtain ⟨c, hc, hch, hcost⟩ := hcollapse s
      have hweight' := hc.sum_eq
      simp only [sum_cons, ← weight_id] at hweight'
      refine ⟨branch c right, hc.append_right right.leaves, ?_, ?_⟩
      · rw [height]
        omega
      · rw [cost, cost, Nat.mul_succ (x + y), Nat.mul_succ s]
        omega

/-- A weight outside of the tree changes places with a smaller one inside, which goes to the
    greatest depth. -/
theorem exchange {c : CodeTree Nat} {rest : List Nat} {s p z h : Nat} (hleaves : c.leaves.Perm (s :: rest))
    (hheight : c.height ≤ h) (hz : z ∈ rest) (hle : z ≤ p) :
    ∃ c' : CodeTree Nat, c'.leaves.Perm (s :: p :: rest.erase z) ∧ c'.height ≤ h ∧
      c'.cost id + z * h ≤ c.cost id + p * h := by
  obtain ⟨c', k, hk, hsame, hperm, hcost⟩ := c.relabel (hleaves.mem_iff.mpr (mem_cons_of_mem s hz)) p
  refine ⟨c', ?_, hsame.trans_le hheight, ?_⟩
  · have herase : rest.Perm (z :: rest.erase z) := perm_cons_erase hz
    have hall : (z :: c'.leaves).Perm (z :: s :: p :: rest.erase z) := by
      apply hperm.trans
      apply (hleaves.cons p).trans
      apply ((herase.cons s).cons p).trans
      apply ((List.Perm.swap z s _).cons p).trans
      exact (List.Perm.swap z p _).trans ((List.Perm.swap s p _).cons z)
    exact hall.cons_inv
  · obtain ⟨j, rfl⟩ := Nat.exists_eq_add_of_le (hk.trans hheight)
    have := Nat.mul_le_mul_right j hle
    rw [Nat.mul_add, Nat.mul_add]
    omega

/-- The two smallest weights of a tree can be joined into one leaf. -/
theorem merge_least (t : CodeTree Nat) {a b : Nat} {rest : List Nat}
    (hleaves : t.leaves.Perm (a :: b :: rest)) (hab : a ≤ b) (hrest : ∀ z ∈ rest, b ≤ z) :
    ∃ t' : CodeTree Nat, t'.leaves.Perm ((a + b) :: rest) ∧ t'.cost id + (a + b) ≤ t.cost id := by
  have hleast : ∀ z ∈ a :: b :: rest, a ≤ z :=
    forall_mem_cons.mpr ⟨le_rfl, forall_mem_cons.mpr ⟨hab, fun z hz => hab.trans (hrest z hz)⟩⟩
  obtain ⟨h, hheight⟩ : ∃ h, t.height = h + 1 := by
    apply Nat.exists_eq_succ_of_ne_zero
    intro hzero
    obtain ⟨value, rfl⟩ := eq_leaf_of_height hzero
    cases hleaves.length_eq
  obtain ⟨x, y, rest₀, hperm, hcollapse⟩ := t.collapse hheight
  obtain ⟨c, hc, hch, hcost⟩ := hcollapse (a + b)
  have hpair := hperm.symm.trans hleaves
  -- the smallest weight goes to the deepest pair
  obtain ⟨c₁, q, rest₁, hc₁, hch₁, hpair₁, hcost₁⟩ : ∃ (c₁ : CodeTree Nat) (q : Nat) (rest₁ : List Nat),
      c₁.leaves.Perm ((a + b) :: rest₁) ∧ c₁.height ≤ h + 1 ∧ (a :: q :: rest₁).Perm (a :: b :: rest) ∧
        c₁.cost id + (a + q) * (h + 1) ≤ c.cost id + (x + y) * (h + 1) := by
    by_cases hx : x = a
    · subst hx
      exact ⟨c, y, rest₀, hc, hch, hpair, le_rfl⟩
    · by_cases hy : y = a
      · subst hy
        exact ⟨c, x, rest₀, hc, hch, (List.Perm.swap x y rest₀).trans hpair, by rw [Nat.add_comm y x]⟩
      · have ha : a ∈ rest₀ := by
          have := hpair.mem_iff.mpr (mem_cons_self (a := a))
          simpa [Ne.symm hx, Ne.symm hy] using this
        have hax : a ≤ x := hleast x (hpair.mem_iff.mp mem_cons_self)
        obtain ⟨c₁, hc₁, hch₁, hcost₁⟩ := exchange hc hch ha hax
        refine ⟨c₁, y, x :: rest₀.erase a, hc₁, hch₁, ?_, by rw [Nat.add_mul, Nat.add_mul]; omega⟩
        apply List.Perm.trans _ hpair
        apply List.Perm.trans _ (((perm_cons_erase ha).symm.cons y).cons x)
        exact (List.Perm.swap y a _).trans (((List.Perm.swap x a _).cons y).trans (List.Perm.swap x y _))
  have hpair₂ := hpair₁.cons_inv
  -- then the second smallest one
  obtain ⟨c₂, hc₂, hcost₂⟩ : ∃ c₂ : CodeTree Nat, c₂.leaves.Perm ((a + b) :: rest) ∧
      c₂.cost id + (a + b) * (h + 1) ≤ c₁.cost id + (a + q) * (h + 1) := by
    by_cases hq : q = b
    · subst hq
      exact ⟨c₁, hc₁.trans (hpair₂.cons_inv.cons _), le_rfl⟩
    · have hb : b ∈ rest₁ := by
        have := hpair₂.mem_iff.mpr (mem_cons_self (a := b))
        exact (mem_cons.mp this).resolve_left (Ne.symm hq)
      have hbq : b ≤ q := hrest q ((mem_cons.mp (hpair₂.mem_iff.mp mem_cons_self)).resolve_left hq)
      obtain ⟨c₂, hc₂, -, hcost₂⟩ := exchange hc₁ hch₁ hb hbq
      refine ⟨c₂, hc₂.trans (List.Perm.cons _ ?_), by rw [Nat.add_mul, Nat.add_mul]; omega⟩
      have hall : (b :: q :: rest₁.erase b).Perm (b :: rest) :=
        (List.Perm.swap q b _).trans (((perm_cons_erase hb).symm.cons q).trans hpair₂)
      exact hall.cons_inv
  refine ⟨c₂, hc₂, ?_⟩
  rw [Nat.mul_succ (a + b)] at hcost₂
  omega

/-! ### Joining the smallest trees of a forest -/

def forestCost (w : α → Nat) (forest : List (CodeTree α)) : Nat := (forest.map (cost w)).sum

/-- Whatever tree there is over the given weights, the forest can be completed to one that costs no
    more. -/
def Promising (w : α → Nat) (weights : List Nat) (forest : List (CodeTree α)) : Prop :=
  ∀ t : CodeTree Nat, t.leaves.Perm weights →
    ∃ t' : CodeTree Nat, t'.leaves.Perm (forest.map (weight w)) ∧ forestCost w forest + t'.cost id ≤
      t.cost id

namespace Promising

variable {w : α → Nat} {weights : List Nat} {forest forest' : List (CodeTree α)}

theorem leaves (w : α → Nat) (values : List α) : Promising w (values.map w) (values.map leaf) := by
  intro t ht
  have hweights : (values.map leaf).map (weight w) = values.map w := by
    rw [List.map_map]
    exact map_congr_left fun value _ => sum_singleton
  have hcost : forestCost w (values.map leaf) = 0 := by
    rw [forestCost, List.map_map]
    exact sum_eq_zero fun c hc => by
      obtain ⟨value, -, rfl⟩ := List.mem_map.mp hc
      rfl
  refine ⟨t, ?_, ?_⟩
  · rw [hweights]
    exact ht
  · rw [hcost, Nat.zero_add]

theorem perm (hperm : forest.Perm forest') (h : Promising w weights forest) :
    Promising w weights forest' := by
  intro t ht
  obtain ⟨t', ht', hcost⟩ := h t ht
  refine ⟨t', ht'.trans (hperm.map _), ?_⟩
  rwa [forestCost, ← (hperm.map (cost w)).sum_eq]

/-- Two trees that are not heavier than any other are joined. -/
theorem merge {a b : CodeTree α} (h : Promising w weights (a :: b :: forest)) (hab : a.weight w ≤ b.weight w)
    (hrest : ∀ z ∈ forest, b.weight w ≤ z.weight w) : Promising w weights (branch b a :: forest) := by
  intro t ht
  obtain ⟨t₁, ht₁, hcost₁⟩ := h t ht
  obtain ⟨t', ht', hcost'⟩ := t₁.merge_least ht₁ hab fun z hz => by
    obtain ⟨tree, htree, rfl⟩ := List.mem_map.mp hz
    exact hrest tree htree
  refine ⟨t', ?_, ?_⟩
  · rw [map_cons, weight_branch, Nat.add_comm]
    exact ht'
  · simp only [forestCost, map_cons, sum_cons, cost] at hcost₁ ⊢
    omega

theorem optimal {t t' : CodeTree α} (h : Promising w weights [t]) (ht' : (t'.leaves.map w).Perm weights) :
    t.cost w ≤ t'.cost w := by
  obtain ⟨last, -, hcost⟩ := h (t'.map w) (by rw [leaves_map]; exact ht')
  rw [cost_map, forestCost, map_singleton, sum_singleton] at hcost
  omega

end Promising

end NsuLabs.Lib.CodeTree
