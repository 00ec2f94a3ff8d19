/-
Module: NsuLabs.BTreeInsertion.Proofs.Insertion
Purpose: Every sequence of `btree_insert` calls builds a B-tree of the inserted values, and a call that
  returns `ALLOCATION_ERROR` leaves one with the keys it had.
Trusted boundary: none
Main exports: insertAll_bTree, btreeInsert_allocationError
-/
import NsuLabs.BTreeInsertion.Proofs.Nodes

namespace NsuLabs.BTreeInsertion

open Lib Function List Option

variable {code : ExitCode}

section

variable {node : BTreeNode} {keys : List Int} {kids : List Summary} {h₂ : Heap} {c' : Summary} {tree : BTree}

variable {h h' : Heap} {t level least : Nat} {s : Summary} {value : Int}

/-! ### The leaf -/

theorem isLeaf_of_null (ht : HalfDegree t) {kids : List (Option NodePtr)} (hnode : NodeIs t node keys kids)
    (hnull : ∀ c ∈ node.children, c = none) : isLeaf node = some true := by
  have hlen := hnode.childrenLength
  have hone := ht.one_le
  match hchildren : node.children, hlen with
  | c :: cs, _ =>
    obtain rfl : c = none := hnull c (by simp [hchildren])
    rw [isLeaf, hchildren]
    rfl
  | [], hlen =>
    simp only [length_nil] at hlen
    omega

/-- A leaf with room gets the value. -/
theorem insertValue_spec (ht : HalfDegree t) (hsub : Subtree h t 0 least s) (htidy : Tidy h s.ptrs)
    (hroom : Room h t s.p) (hsorted : s.keys.Pairwise (· ≤ ·)) (value : Int) :
    ∃ h' s', insertValue h s.p value = some h' ∧ s'.p = s.p ∧ Subtree h' t 0 least s' ∧
      InsertedAt value s.keys s'.keys ∧ Grown h s.ptrs h' s'.ptrs := by
  have hfits := ht.fits
  cases hsub with
  | @leaf _ _ node cs hp hnode hleast hmost hnull hptrs =>
    obtain ⟨low, high, hkeys, hfind, hlow, hhigh⟩ := findChildIdx_spec hnode hsorted value
    have hlen : (low ++ high).length < 2 * t - 1 := by
      obtain ⟨node', hp', hlt⟩ := hroom
      rw [hp] at hp'
      rw [← hkeys, ← hnode.size, some.inj hp']
      exact hlt
    -- the null pointers are cut where the keys are
    have hcut : low.length < cs.length := by
      rw [hnode.arity, hkeys, length_append]
      omega
    obtain ⟨as, c, bs, rfl, has⟩ := exists_cut hcut
    rw [hkeys] at hnode
    obtain ⟨w, rest, crest, hgap, hnode', hcrest⟩ := moveTail_gap ht hp hnode has hlen
    refine ⟨_, ⟨s.p, low ++ value :: high, [s.p]⟩, ?_, rfl,
      .leaf (Heap.write_nodes_same h s.p _) (hnode' value c) ?_ (hnode' value c).length_le
        (fun x hx => ?_) rfl, ?_, ?_⟩
    · simp only [insertValue, hp, hfind, hgap, Heap.storeValue_write, store_append, map_some,
        Heap.write_nodes_same, Heap.setSize_write, bind_eq_bind, bind_some]
    · rw [hkeys] at hleast
      simp only [length_append, length_cons] at hleast ⊢
      omega
    · obtain ⟨old, hchildren⟩ := hnode.children
      apply hnull
      simp only [mem_append, mem_cons] at hx
      rw [hchildren]
      rcases hx with hx | rfl | rfl | hx | hx
      · simp [hx]
      · simp
      · simp
      · simp [hx]
      · exact hchildren ▸ hcrest x hx
    · exact ⟨low, high, hkeys, rfl, fun x hx => (hlow x hx).le, hhigh⟩
    · rw [hptrs] at htidy ⊢
      refine ⟨⟨htidy.nodup, htidy.below⟩, fun p hp => .inl hp, le_rfl, fun p _ hp => ?_, rfl⟩
      exact Heap.write_nodes_of_ne fun heq => hp (mem_singleton.mpr heq)

/-! ### Above the leaves -/

/-- A node that is not full has room. -/
theorem Subtree.node_room (ht : HalfDegree t) (hsub : Subtree h t level least s) :
    ∃ node, h.nodes s.p = some node ∧ (isFull t node ≠ true → Room h t s.p) := by
  have hroom : ∀ {node : BTreeNode} {keys : List Int} {kids : List (Option NodePtr)},
      h.nodes s.p = some node → NodeIs t node keys kids → isFull t node ≠ true → Room h t s.p := by
    intro node keys kids hp hnode hfull
    refine ⟨node, hp, ?_⟩
    rw [hnode.size]
    exact lt_of_le_of_ne hnode.length_le fun heq => hfull ((hnode.isFull_iff ht).mpr heq)
  cases hsub with
  | leaf hp hnode hleast hmost hnull hptrs => exact ⟨_, hp, hroom hp hnode⟩
  | inner hp hnode hleast hmost hkids hkeys hptrs => exact ⟨_, hp, hroom hp hnode⟩

theorem childPtrs_head (hne : kids ≠ []) : ∃ p, (childPtrs kids)[0]? = some (some p) := by
  cases kids with
  | nil => exact absurd rfl hne
  | cons kid kids => exact ⟨kid.p, rfl⟩

variable {p : NodePtr}

theorem InnerAt.isLeaf_eq (hinner : InnerAt h t level p keys kids) (hp : h.nodes p = some node) :
    isLeaf node = some false := by
  obtain ⟨node', hp', hnode⟩ := hinner.node
  obtain rfl : node' = node := some.inj (hp'.symm.trans hp)
  have hne : kids ≠ [] := by
    rintro rfl
    have := hinner.arity
    simp at this
  obtain ⟨q, hq⟩ := childPtrs_head hne
  rw [isLeaf, hnode.child_eq hq]
  rfl

theorem kidKeys_middle {ls rs : List Summary} {low high : List Int} (c : Summary)
    (hls : ls.length = low.length) (hrs : rs.length = high.length) :
    interleave (kidKeys (ls ++ c :: rs)) (low ++ high) =
      lefts (kidKeys ls) low ++ (c.keys ++ rights high (kidKeys rs)) := by
  rw [kidKeys, map_append, map_cons]
  apply interleave_middle
  · rw [length_map, hls]
  · rw [length_map, hrs]

/-- What a call makes of the keys: without memory they stay. -/
def After (value : Int) (xs ys : List Int) : ExitCode → Prop
  | .success => InsertedAt value xs ys
  | .allocationError => ys = xs

variable {xs : List Int}

theorem After.sorted {ys : List Int} (hafter : After value xs ys code)
    (hsorted : xs.Pairwise (· ≤ ·)) : ys.Pairwise (· ≤ ·) := by
  cases code with
  | success => exact InsertedAt.sorted hafter hsorted
  | allocationError => exact hafter ▸ hsorted

/-- `btree_insert` behind its loop. -/
def insertBehind (value : Int) (h : Heap) (leaf : NodePtr) : ExitCode → Option Heap
  | .success => insertValue h leaf value
  | .allocationError => some h

/-- The subtree that the value belongs to. -/
structure Chosen (h : Heap) (t level : Nat) (value : Int) (p : NodePtr) (low high : List Int)
    (ls : List Summary) (c : Summary) (rs : List Summary) : Prop where
  inner : InnerAt h t level p (low ++ high) (ls ++ c :: rs)
  place : ls.length = low.length
  tidy : Tidy h (p :: kidPtrs (ls ++ c :: rs))
  sorted : (interleave (kidKeys (ls ++ c :: rs)) (low ++ high)).Pairwise (· ≤ ·)
  low_le : ∀ x ∈ low, x ≤ value
  le_high : ∀ x ∈ high, value ≤ x

namespace Chosen

variable {p : NodePtr} {low high : List Int} {ls rs : List Summary} {c : Summary}

theorem place_right (hchosen : Chosen h t level value p low high ls c rs) : rs.length = high.length := by
  have harity := hchosen.inner.arity
  have hplace := hchosen.place
  simp only [length_append, length_cons] at harity
  omega

theorem kid_sorted (hchosen : Chosen h t level value p low high ls c rs) : c.keys.Pairwise (· ≤ ·) := by
  have hsorted := hchosen.sorted
  rw [kidKeys_middle c hchosen.place hchosen.place_right] at hsorted
  exact (pairwise_append.mp (pairwise_append.mp hsorted).2.1).1

theorem kid_tidy (hchosen : Chosen h t level value p low high ls c rs) : Tidy h c.ptrs := by
  have hsub : c.ptrs.Sublist (p :: kidPtrs (ls ++ c :: rs)) := by
    rw [kidPtrs, flatMap_append, flatMap_cons]
    exact ((sublist_append_left _ _).trans (sublist_append_right _ _)).cons p
  exact ⟨hchosen.tidy.nodup.sublist hsub, fun q hq => hchosen.tidy.below q (hsub.subset hq)⟩

/-- What becomes of the chosen subtree becomes of the whole. -/
theorem inserts (hchosen : Chosen h t level value p low high ls c rs) (hleast : least ≤ (low ++ high).length)
    (hp : c'.p = c.p) (hsub : Subtree h₂ t level (t - 1) c') (hafter : After value c.keys c'.keys code)
    (hgrown : Grown h c.ptrs h₂ c'.ptrs) :
    ∃ s', s'.p = p ∧ Subtree h₂ t (level + 1) least s' ∧
      After value (interleave (kidKeys (ls ++ c :: rs)) (low ++ high)) s'.keys code ∧
      Grown h (p :: kidPtrs (ls ++ c :: rs)) h₂ s'.ptrs := by
  obtain ⟨hinner, hgrown'⟩ := hchosen.inner.enter hchosen.tidy hp hsub hgrown
  obtain ⟨node, hnode⟩ := hinner.node
  refine ⟨⟨p, interleave (kidKeys (ls ++ c' :: rs)) (low ++ high), p :: kidPtrs (ls ++ c' :: rs)⟩, rfl,
    .inner hnode.1 hnode.2 hleast hnode.2.length_le hinner.kids rfl rfl, ?_, hgrown'⟩
  have hsorted := hchosen.sorted
  have hls : (kidKeys ls).length = low.length := by rw [kidKeys, length_map, hchosen.place]
  have hrs : (kidKeys rs).length = high.length := by rw [kidKeys, length_map, hchosen.place_right]
  rw [kidKeys_middle c hchosen.place hchosen.place_right] at hsorted ⊢
  rw [kidKeys_middle c' hchosen.place hchosen.place_right]
  cases code with
  | success =>
    obtain ⟨hleft, hright, -⟩ := pairwise_append.mp hsorted
    apply InsertedAt.between hafter
    · exact lefts_le hls hleft hchosen.low_le
    · exact le_rights hrs (pairwise_append.mp hright).2.1 hchosen.le_high
  | allocationError =>
    exact congrArg (fun keys => lefts (kidKeys ls) low ++ (keys ++ rights high (kidKeys rs))) hafter

end Chosen

variable {allocs : Allocs}

/-- Which subtree is entered, after a split if it was full; without memory for the split nothing is
    written. -/
theorem splitFull_spec (ht : HalfDegree t) {low high : List Int} {ls rs : List Summary} {c : Summary}
    (hchosen : Chosen h t level value p low high ls c rs) (hroom : Room h t p) (allocs : Allocs) :
    (allocs 0 = false ∧ ∃ rest, splitFull t value allocs h p low.length =
      some (.allocationError, h, low.length, rest)) ∨
    ∃ h' low' high' ls' c' rs' rest, (rest = allocs ∨ rest = allocs.rest) ∧
      splitFull t value allocs h p low.length = some (.success, h', low'.length, rest) ∧
      Chosen h' t level value p low' high' ls' c' rs' ∧ Room h' t c'.p ∧
      (low ++ high).length ≤ (low' ++ high').length ∧
      interleave (kidKeys (ls' ++ c' :: rs')) (low' ++ high') =
        interleave (kidKeys (ls ++ c :: rs)) (low ++ high) ∧
      Grown h (p :: kidPtrs (ls ++ c :: rs)) h' (p :: kidPtrs (ls' ++ c' :: rs')) := by
  have hfits := ht.fits
  have hchild := hchosen.inner.child
  rw [hchosen.place] at hchild
  have hc := hchosen.inner.kids c (by simp)
  obtain ⟨cnode, hcp, hcroom⟩ := hc.node_room ht
  by_cases hfull : isFull t cnode = true
  · cases hgranted : allocs 0 with
    | false =>
      refine .inl ⟨rfl, allocs.rest, ?_⟩
      simp only [splitFull, hchild, join_some, bind_eq_bind, bind_some, hcp, hfull, if_true,
        splitChild, hgranted]
      rfl
    | true =>
    have hidx : sizeAdd low.length 1 = low.length + 1 := by
      apply sizeAdd_eq
      obtain ⟨node, -, hnode⟩ := hchosen.inner.node
      have := hnode.length_le
      rw [length_append] at this
      omega
    obtain ⟨h', m, c₁, c₂, hrun, hinner, hvalue, hkeys, hroom₁, hroom₂, hgrown⟩ :=
      halveChild_spec ht hchosen.inner hchosen.place hroom hchosen.tidy fun node hnode => by
        obtain rfl : cnode = node := some.inj (hcp.symm.trans hnode)
        exact hfull
    have hrs := hchosen.place_right
    -- the two halves and the median read as the full subtree did
    have hsame : interleave (kidKeys (ls ++ c₁ :: c₂ :: rs)) (low ++ m :: high) =
        interleave (kidKeys (ls ++ c :: rs)) (low ++ high) := by
      rw [kidKeys_middle c₁ hchosen.place (by rw [length_cons, length_cons, hrs]),
        kidKeys_middle c hchosen.place hrs, hkeys, kidKeys, kidKeys, map_cons, rights_cons]
      simp [kidKeys]
    have hsplit : splitFull t value allocs h p low.length =
        some (.success, h', if value > m then low.length + 1 else low.length, allocs.rest) := by
      simp only [splitFull, hchild, join_some, bind_eq_bind, bind_some, hcp, hfull, if_true,
        splitChild, hgranted, hrun, hvalue, map_some, hidx]
    by_cases hm : value > m
    · -- the right half
      have hls : ls ++ c₁ :: c₂ :: rs = (ls ++ [c₁]) ++ c₂ :: rs := by simp
      have hlows : low ++ m :: high = (low ++ [m]) ++ high := by simp
      rw [hls] at hsame hinner hgrown
      rw [hlows] at hsame hinner
      refine .inr ⟨h', low ++ [m], high, ls ++ [c₁], c₂, rs, _, .inr rfl, ?_,
        ⟨hinner, ?_, hgrown.tidy, hsame ▸ hchosen.sorted, ?_,
        hchosen.le_high⟩, hroom₂, ?_, hsame, hgrown⟩
      · rw [hsplit, if_pos hm, length_append, length_singleton]
      · rw [length_append, length_append, hchosen.place, length_singleton, length_singleton]
      · intro x hx
        rcases mem_append.mp hx with hx | hx
        · exact hchosen.low_le x hx
        · exact mem_singleton.mp hx ▸ hm.le
      · simp only [length_append]
        omega
    · -- the left half
      refine .inr ⟨h', low, m :: high, ls, c₁, c₂ :: rs, _, .inr rfl, ?_,
        ⟨hinner, hchosen.place, hgrown.tidy, hsame ▸ hchosen.sorted,
        hchosen.low_le, ?_⟩, hroom₁, ?_, hsame, hgrown⟩
      · rw [hsplit, if_neg hm]
      · intro x hx
        rcases mem_cons.mp hx with rfl | hx
        · exact not_lt.mp hm
        · exact hchosen.le_high x hx
      · simp only [length_append, length_cons]
        omega
  · refine .inr ⟨h, low, high, ls, c, rs, allocs, .inl rfl, ?_, hchosen, hcroom hfull, le_rfl, rfl, ?_⟩
    · simp only [splitFull, hchild, join_some, bind_eq_bind, bind_some, hcp, hfull]
      rfl
    · exact ⟨hchosen.tidy, fun q hq => .inl hq, le_rfl, fun _ _ _ => rfl, rfl⟩

/-- The search in a node above the leaves finds the subtree that the value belongs to, and it is not
    missing. -/
theorem Subtree.choose (hsub : Subtree h t (level + 1) least s) (htidy : Tidy h s.ptrs)
    (hsorted : s.keys.Pairwise (· ≤ ·)) (value : Int) :
    ∃ node low high ls c rs, h.nodes s.p = some node ∧ isLeaf node = some false ∧
      findChildIdx node value = some low.length ∧ h.child s.p low.length = some (some c.p) ∧
      Chosen h t level value s.p low high ls c rs ∧ least ≤ (low ++ high).length ∧
      s.keys = interleave (kidKeys (ls ++ c :: rs)) (low ++ high) ∧
        s.ptrs = s.p :: kidPtrs (ls ++ c :: rs) := by
  cases hsub with
  | @inner _ _ _ node keys kids hp hnode hleast hmost hkids hkeys hptrs =>
    have hinner : InnerAt h t level s.p keys kids := ⟨⟨node, hp, hnode⟩, hkids⟩
    rw [hptrs] at htidy
    rw [hkeys] at hsorted
    have harity := hinner.arity
    have hkeysSorted : keys.Pairwise (· ≤ ·) := by
      apply Pairwise.sublist (seps_sublist_interleave _) hsorted
      rw [kidKeys, length_map, harity]
    -- the search cuts the keys, and with them the children
    obtain ⟨low, high, rfl, hfind, hlow, hhigh⟩ := findChildIdx_spec hnode hkeysSorted value
    have hcut : low.length < kids.length := by
      rw [harity, length_append]
      omega
    obtain ⟨ls, c, rs, rfl, hls⟩ := exists_cut hcut
    exact ⟨node, low, high, ls, c, rs, hp, hinner.isLeaf_eq hp, hfind, hls ▸ hinner.child,
      ⟨hinner, hls, htidy, hsorted, fun x hx => (hlow x hx).le, hhigh⟩, hleast, hkeys, hptrs⟩

theorem Grown.refl {ptrs : List NodePtr} (htidy : Tidy h ptrs) : Grown h ptrs h ptrs :=
  ⟨htidy, fun _ hp => .inl hp, le_rfl, fun _ _ _ => rfl, rfl⟩

/-- The loop of `btree_insert` from a node with room ends without memory and has kept the keys, or
    at a leaf that takes the value. -/
theorem descend_spec (ht : HalfDegree t) (value : Int) (level : Nat) :
    ∀ fuel allocs h least s, level < fuel → Subtree h t level least s → Tidy h s.ptrs → Room h t s.p →
      s.keys.Pairwise (· ≤ ·) →
      ∃ code h₁ leaf h₂ s', descend t value fuel allocs h s.p = some (code, h₁, leaf) ∧
        insertBehind value h₁ leaf code = some h₂ ∧ s'.p = s.p ∧ Subtree h₂ t level least s' ∧
        After value s.keys s'.keys code ∧ (allocs = granted → code = .success) ∧
          Grown h s.ptrs h₂ s'.ptrs := by
  induction level with
  | zero =>
    intro fuel allocs h least s hfuel hsub htidy hroom hsorted
    obtain ⟨h', s', hrun, hp', hsub', hins, hgrown⟩ := insertValue_spec ht hsub htidy hroom hsorted value
    refine ⟨.success, h, s.p, h', s', ?_, hrun, hp', hsub', hins, fun _ => rfl, hgrown⟩
    cases hsub with
    | leaf hp hnode hleast hmost hnull hptrs =>
      obtain ⟨fuel, rfl⟩ : ∃ n, fuel = n + 1 := ⟨fuel - 1, by omega⟩
      simp only [descend, hp, isLeaf_of_null ht hnode hnull, bind_eq_bind, bind_some, if_true]
  | succ level ih =>
    intro fuel allocs h least s hfuel hsub htidy hroom hsorted
    obtain ⟨fuel, rfl⟩ : ∃ n, fuel = n + 1 := ⟨fuel - 1, by omega⟩
    obtain ⟨node, low, high, ls, c, rs, hp, hleaf, hfind, hfirst, hchosen, hleast, hkeys, hptrs⟩ :=
      hsub.choose htidy hsorted value
    have hmissing : createMissing t allocs h s.p low.length = some (.success, h, allocs) := by
      rw [createMissing, hfirst, bind_some]
    rcases splitFull_spec ht hchosen hroom allocs with ⟨hdenied, rest, hsplit⟩ |
      ⟨h₁, low', high', ls', c', rs', rest, hrest, hsplit, hchosen', hroom', hlen, hsame, hgrown⟩
    · refine ⟨.allocationError, h, s.p, h, s, ?_, rfl, rfl, hsub, rfl, ?_, Grown.refl htidy⟩
      · simp only [descend, hp, hleaf, bind_eq_bind, bind_some, hfind, hmissing, hsplit]
        rfl
      · rintro rfl
        cases hdenied
    · have hchild := hchosen'.inner.child
      rw [hchosen'.place] at hchild
      obtain ⟨code, h₂, leaf, h₃, c'', hdescend, hinsert, hp'', hsub'', hafter, hcode, hgrown''⟩ :=
        ih fuel rest h₁ (t - 1) c' (by omega) (hchosen'.inner.kids c' (by simp)) hchosen'.kid_tidy hroom'
          hchosen'.kid_sorted
      -- the splits above keep the keys
      obtain ⟨s', hps, hsubs, hafters, hgrowns⟩ :=
        hchosen'.inserts (hleast.trans hlen) hp'' hsub'' hafter hgrown''
      refine ⟨code, h₂, leaf, h₃, s', ?_, hinsert, hps, hsubs, ?_, ?_, ?_⟩
      · simp only [descend, hp, hleaf, bind_eq_bind, bind_some, hfind, hmissing, hsplit, hchild,
          join_some, ← hdescend]
        rfl
      · rw [hkeys, ← hsame]
        exact hafters
      · rintro rfl
        rcases hrest with rfl | rfl <;> exact hcode rfl
      · rw [hptrs]
        exact hgrown.trans hgrowns

/-! ### The whole tree -/

/-- The tree is a B-tree with these keys from left to right, and all its leaves are at depth
    `tree->height`. -/
def Holds (tree : BTree) (h : Heap) (xs : List Int) : Prop :=
  match tree.root with
  | none => tree.height = 0 ∧ xs = []
  | some root =>
    ∃ level s, Subtree h tree.t level 1 s ∧ s.p = root ∧ s.keys = xs ∧ tree.height = level + 1 ∧
      Tidy h s.ptrs

/-- The first value makes the root. -/
theorem btreeInsert_first (ht : HalfDegree tree.t) (hroot : tree.root = none)
    (hfirst : allocs 0 = true) (h : Heap)
    (value : Int) : ∃ tree' h', btreeInsert allocs tree h value = some (.success, tree', h') ∧
      tree'.t = tree.t ∧ Holds tree' h' [value] ∧ h'.missing = h.missing := by
  have hone := ht.one_le
  obtain ⟨k, hk⟩ : ∃ k, tree.t = k + 1 := ⟨tree.t - 1, by omega⟩
  have hempty : emptyNode tree.t = ⟨0 :: List.replicate (2 * k) 0, List.replicate (2 * tree.t) none, 0⟩ := by
    rw [emptyNode, hk]
    rfl
  have hvalue := store_append [] (List.replicate (2 * k) 0) 0 value
  simp only [nil_append, length_nil] at hvalue
  have hnode : NodeIs tree.t ⟨value :: List.replicate (2 * k) 0, List.replicate (2 * tree.t) none, 1⟩ [value]
      (List.replicate 2 none) := by
    refine ⟨rfl, ⟨_, rfl⟩, ⟨List.replicate (2 * tree.t - 2) none, ?_⟩, ?_, length_replicate, rfl⟩
    · have hsum : 2 + (2 * tree.t - 2) = 2 * tree.t := by omega
      rw [replicate_append_replicate, hsum]
    · simp only [length_cons, length_replicate]
      omega
  refine ⟨{ tree with root := some h.next, height := 1 }, { h with next := h.next + 1 }.write h.next _, ?_,
    rfl,
    ⟨0, ⟨h.next, [value], [h.next]⟩, .leaf (Heap.write_nodes_same ..) hnode le_rfl hnode.length_le ?_ rfl,
      rfl, rfl, rfl, ?_⟩, rfl⟩
  · simp only [btreeInsert, hroot, hfirst, if_true, createNode_eq ht, hempty, Heap.storeValue_write,
      hvalue, map_some, Heap.setSize_write, bind_eq_bind, bind_some, Option.pure_def]
  · exact fun c hc => (mem_replicate.mp hc).2
  · exact ⟨nodup_singleton _, fun p hp => mem_singleton.mp hp ▸ Nat.lt_succ_self _⟩

/-! ### One call -/

/-- The descent and the insertion from a root with room. -/
theorem insertBelow_spec (ht : HalfDegree tree.t) (hroot : tree.root = some s.p)
    (hheight : tree.height = level + 1) (hsub : Subtree h tree.t level 1 s) (htidy : Tidy h s.ptrs)
    (hroom : Room h tree.t s.p) (hsorted : s.keys.Pairwise (· ≤ ·)) (allocs : Allocs) (value : Int) :
    ∃ code h' ys, insertBelow allocs tree h value = some (code, tree, h') ∧ Holds tree h' ys ∧
      After value s.keys ys code ∧ (allocs = granted → code = .success) ∧ h'.missing = h.missing := by
  obtain ⟨code, h₁, leaf, h', s', hdescend, hinsert, hp, hsub', hafter, hcode, hgrown⟩ :=
    descend_spec ht value level tree.height allocs h 1 s (by omega) hsub htidy hroom hsorted
  refine ⟨code, h', s'.keys, ?_, ?_, hafter, hcode, hgrown.missing⟩
  · rw [insertBelow, hroot, bind_some, hdescend, bind_some]
    cases code with
    | success => exact congrArg (Option.map fun h => (ExitCode.success, tree, h)) hinsert
    | allocationError => exact congrArg (Option.map fun h => (ExitCode.allocationError, tree, h)) hinsert
  · rw [Holds, hroot]
    exact ⟨level, s', hsub', hp, rfl, hheight, hgrown.tidy⟩

/-- The new root of a split that fails is given back. -/
theorem Holds.free_new (ht : HalfDegree tree.t) (hholds : Holds tree h xs) :
    Holds tree ((createNode tree.t h).2.free (createNode tree.t h).1) xs := by
  rw [createNode_eq ht]
  rw [Holds] at hholds ⊢
  cases hroot : tree.root with
  | none =>
    rw [hroot] at hholds
    exact hholds
  | some root =>
    rw [hroot] at hholds
    obtain ⟨level, s, hsub, hp, hkeys, hheight, htidy⟩ := hholds
    refine ⟨level, s, hsub.congr fun q hq => ?_, hp, hkeys, hheight, htidy.nodup, fun q hq => ?_⟩
    · have hne := (htidy.below q hq).ne
      exact (update_of_ne hne ..).trans (Heap.write_nodes_of_ne hne)
    · exact (htidy.below q hq).trans (Nat.lt_succ_self _)

/-- The root is full, and there is memory to split it. -/
def Splits (allocs : Allocs) (tree : BTree) (h : Heap) : Prop :=
  ∃ root node, tree.root = some root ∧ h.nodes root = some node ∧ isFull tree.t node = true ∧
    allocs 0 = true ∧ allocs.rest 0 = true

/-- A call that does not split the root returns, and the tree stays a B-tree. -/
theorem btreeInsert_unsplit (ht : HalfDegree tree.t) (hholds : Holds tree h xs)
    (hsorted : xs.Pairwise (· ≤ ·)) (allocs : Allocs) (value : Int) (hsplit : ¬ Splits allocs tree h) :
    ∃ code tree' h' ys, btreeInsert allocs tree h value = some (code, tree', h') ∧ tree'.t = tree.t ∧
      Holds tree' h' ys ∧ After value xs ys code ∧ (allocs = granted → code = .success) ∧
        h'.missing = h.missing := by
  cases hroot : tree.root with
  | none =>
    cases hfirst : allocs 0 with
    | true =>
      rw [Holds, hroot] at hholds
      obtain ⟨-, rfl⟩ := hholds
      obtain ⟨tree', h', hrun, ht', hholds', hmissing⟩ := btreeInsert_first ht hroot hfirst h value
      exact ⟨.success, tree', h', [value], hrun, ht', hholds', ⟨[], [], rfl, rfl, nofun, nofun⟩,
        fun _ => rfl, hmissing⟩
    | false =>
      refine ⟨.allocationError, tree, h, xs, ?_, rfl, hholds, rfl, ?_, rfl⟩
      · rw [btreeInsert, hroot]
        dsimp only
        rw [hfirst, if_neg Bool.false_ne_true]
      · rintro rfl
        cases hfirst
  | some root =>
    have hstart := hholds
    rw [Holds, hroot] at hholds
    obtain ⟨level, s, hsub, rfl, rfl, hheight, htidy⟩ := hholds
    obtain ⟨node, hp, hroom⟩ := hsub.node_room ht
    rw [btreeInsert, hroot]
    dsimp only
    rw [hp, bind_some]
    by_cases hfull : isFull tree.t node = true
    · rw [if_pos hfull, splitRoot]
      cases hfirst : allocs 0 with
      | false =>
        rw [if_neg Bool.false_ne_true]
        refine ⟨.allocationError, tree, h, _, rfl, rfl, hstart, rfl, ?_, rfl⟩
        rintro rfl
        cases hfirst
      | true =>
        rw [if_pos rfl]
        cases hsecond : allocs.rest 0 with
        | false =>
          rw [if_neg Bool.false_ne_true]
          refine ⟨.allocationError, tree, _, _, rfl, rfl, hstart.free_new ht, rfl, ?_, rfl⟩
          rintro rfl
          cases hsecond
        | true => exact absurd ⟨s.p, node, hroot, hp, hfull, hfirst, hsecond⟩ hsplit
    · rw [if_neg hfull]
      obtain ⟨code, h', ys, hrun, hholds', hafter, hcode, hmissing⟩ :=
        insertBelow_spec ht hroot hheight hsub htidy (hroom hfull) hsorted allocs value
      exact ⟨code, tree, h', ys, hrun, rfl, hholds', hafter, hcode, hmissing⟩

/-- A call of `btree_insert` returns, and the tree stays a B-tree. -/
theorem btreeInsert_spec (ht : HalfDegree tree.t) (htwo : 2 ≤ tree.t) (hholds : Holds tree h xs)
    (hsorted : xs.Pairwise (· ≤ ·)) (allocs : Allocs) (value : Int) :
    ∃ code tree' h' ys, btreeInsert allocs tree h value = some (code, tree', h') ∧ tree'.t = tree.t ∧
      Holds tree' h' ys ∧ After value xs ys code ∧ (allocs = granted → code = .success) ∧
        h'.missing = h.missing := by
  by_cases hsplit : Splits allocs tree h
  · obtain ⟨root, node, hroot, hp, hfull, hfirst, hsecond⟩ := hsplit
    rw [Holds, hroot] at hholds
    obtain ⟨level, s, hsub, rfl, rfl, hheight, htidy⟩ := hholds
    -- the tree gets one level more, and the new root has room
    obtain ⟨h₁, s₁, hrun₁, hsub₁, hkeys₁, hroom₁, hgrown₁⟩ :=
      halveRoot_spec ht htwo hroot hsub htidy fun node' hp' => some.inj (hp.symm.trans hp') ▸ hfull
    obtain ⟨code, h', ys, hrun, hholds', hafter, hcode, hmissing⟩ :=
      @insertBelow_spec { tree with root := some s₁.p, height := tree.height + 1 } h₁ (level + 1) s₁ ht rfl
        (by rw [hheight]) hsub₁ hgrown₁.tidy hroom₁ (hkeys₁ ▸ hsorted) allocs.rest.rest value
    rw [btreeInsert, hroot]
    dsimp only
    rw [hp, bind_some, if_pos hfull, splitRoot, if_pos hfirst, if_pos hsecond, hrun₁, map_some, bind_some]
    exact ⟨code, _, h', ys, hrun, rfl, hholds', hkeys₁ ▸ hafter, fun hall => hcode (by rw [hall]; rfl),
      hmissing.trans hgrown₁.missing⟩
  · exact btreeInsert_unsplit ht hholds hsorted allocs value hsplit

/-! ### Sequences of calls -/

theorem insertAll_spec (values : List Int) :
    ∀ (tree : BTree) (h : Heap) (xs : List Int), HalfDegree tree.t → 2 ≤ tree.t → Holds tree h xs →
      xs.Pairwise (· ≤ ·) →
      ∃ tree' h' ys, insertAll tree h values = some (tree', h') ∧ tree'.t = tree.t ∧ Holds tree' h' ys ∧
        ys.Pairwise (· ≤ ·) ∧ ys.Perm (values ++ xs) ∧ h'.missing = h.missing := by
  induction values with
  | nil =>
    intro tree h xs _ _ hholds hsorted
    exact ⟨tree, h, xs, rfl, rfl, hholds, hsorted, List.Perm.refl _, rfl⟩
  | cons value values ih =>
    intro tree h xs ht htwo hholds hsorted
    obtain ⟨code, tree₁, h₁, ys, hrun, ht₁, hholds₁, hafter, hcode, hmissing₁⟩ :=
      btreeInsert_spec ht htwo hholds hsorted granted value
    obtain rfl := hcode rfl
    have hins : InsertedAt value xs ys := hafter
    obtain ⟨tree₂, h₂, zs, hrun₂, ht₂, hholds₂, hsorted₂, hperm, hmissing₂⟩ :=
      ih tree₁ h₁ ys (ht₁ ▸ ht) (ht₁ ▸ htwo) hholds₁ (hins.sorted hsorted)
    refine ⟨tree₂, h₂, zs, ?_, ht₂.trans ht₁, hholds₂, hsorted₂, ?_, hmissing₂.trans hmissing₁⟩
    · simp only [insertAll, hrun, bind_eq_bind, bind_some, hrun₂]
    · exact (hperm.trans (hins.perm.append_left values)).trans perm_middle

/-- For a half-degree whose capacities do not wrap, any values, in any order and with duplicates,
    give a B-tree with the sorted sequence of the values, and no child was ever missing. -/
theorem insertAll_bTree (t : Nat) (htwo : 2 ≤ t) (hfits : t < 2 ^ 63) (values : List Int) :
    ∃ tree h xs, insertAll (btreeCreate t) .empty values = some (tree, h) ∧ tree.t = t ∧ Holds tree h xs ∧
      xs.Pairwise (· ≤ ·) ∧ xs.Perm values ∧ h.missing = 0 := by
  obtain ⟨tree, h, xs, hrun, ht, hholds, hsorted, hperm, hmissing⟩ :=
    insertAll_spec values (btreeCreate t) .empty [] ⟨one_le_two.trans htwo, hfits⟩ htwo ⟨rfl, rfl⟩ .nil
  rw [append_nil] at hperm
  exact ⟨tree, h, xs, hrun, ht, hholds, hsorted, hperm, hmissing⟩

/-- With half-degree 2, the fourth of these values splits the root and the eighth a leaf. -/
theorem insertAll_bTree_eight :
    (2 ≤ 2 ∧ 2 < 2 ^ 63) ∧
      ∃ tree h xs, insertAll (btreeCreate 2) .empty [5, 3, 5, 9, 1, 2, 8, 4] = some (tree, h) ∧ tree.t = 2 ∧
        Holds tree h xs ∧ xs.Pairwise (· ≤ ·) ∧ xs.Perm [5, 3, 5, 9, 1, 2, 8, 4] ∧ h.missing = 0 :=
  ⟨by decide, insertAll_bTree 2 (by decide) (by decide) [5, 3, 5, 9, 1, 2, 8, 4]⟩

/-- With half-degree `2 ^ 63 + 2`, `2 * t - 1` wraps to 3: the fourth value splits a root with 3
    keys at position `t`, far outside its arrays. -/
theorem insertAll_wraps : insertAll (btreeCreate (2 ^ 63 + 2)) .empty [1, 2, 3, 4] = none := by
  apply isNone_iff_eq_none.mp
  decide +kernel

end

variable {tree tree' : BTree} {allocs : Allocs} {code : ExitCode} {node : BTreeNode} {xs : List Int}
  {p : NodePtr}

variable {h h' : Heap} {t level least : Nat} {s : Summary} {value : Int}

/-! ### Half-degrees whose capacities wrap

From `2 ^ 63` on, the nodes have the capacities of the half-degree that is `2 ^ 63` less, but are split at
the place of the large one. -/

/-- A split reads behind the values of the node. -/
theorem moveTail_eq_none {q : NodePtr} (hp : h.nodes p = some node) (hlt : node.values.length < t) :
    moveTail h p t q 0 = none := by
  simp only [moveTail, hp, bind_eq_bind, bind_some]
  cases h.nodes q with
  | none => rfl
  | some destNode =>
    have hbounds : memmove destNode.values 0 node.values t (sizeSub node.size t) = none :=
      if_neg fun hbound => absurd hbound.1 (by omega)
    rw [bind_some, hbounds]
    rfl

theorem halveRoot_eq_none {root : NodePtr} (hroot : tree.root = some root) (hlt : root < h.next)
    (hp : h.nodes root = some node) (hvalues : node.values.length < tree.t) : halveRoot tree h = none := by
  have hp' : (createNode tree.t (createNode tree.t h).2).2.nodes root = some node :=
    ((Heap.write_nodes_of_ne (hlt.trans (Nat.lt_succ_self _)).ne).trans
      (Heap.write_nodes_of_ne hlt.ne)).trans hp
  simp only [halveRoot, hroot, bind_eq_bind, bind_some, moveTail_eq_none hp' hvalues]
  rfl

/-- A call that returns on a tree of at most one node does what it does with the half-degree that
    the capacities are of, without a split. -/
theorem btreeInsert_small {d : Nat} (hd : HalfDegree d) (ht : tree.t = 2 ^ 63 + d)
    (hholds : Holds { tree with t := d } h xs)
    (hheight : tree.height ≤ 1) (hrun : btreeInsert allocs tree h value = some (code, tree', h')) :
    ¬ Splits allocs { tree with t := d } h ∧
      btreeInsert allocs { tree with t := d } h value = some (code, { tree' with t := d }, h') ∧
      tree'.t = tree.t ∧ tree'.height ≤ 1 := by
  have hfits := hd.fits
  have hcreate : createNode d h = createNode tree.t h := by
    have : sizeMul 2 d = sizeMul 2 tree.t := by
      rw [sizeMul, sizeMul, ht]
      omega
    simp only [createNode, this]
  obtain ⟨root, t, height⟩ := tree
  rw [btreeInsert] at hrun ⊢
  dsimp only at ht hheight hcreate hholds hrun ⊢
  cases root with
  | none =>
    dsimp only at hrun ⊢
    refine ⟨by rintro ⟨_, _, ⟨⟩, -⟩, ?_⟩
    rw [hcreate]
    split_ifs at hrun ⊢ with hfirst
    · simp only [bind_eq_bind, bind_eq_some_iff, Option.pure_def, some.injEq, Prod.mk.injEq] at hrun
      obtain ⟨h₁, hstore, h₂, hsize, rfl, rfl, rfl⟩ := hrun
      simp only [hstore, hsize, bind_eq_bind, bind_some, Option.pure_def]
      exact ⟨trivial, trivial, le_rfl⟩
    · cases hrun
      exact ⟨rfl, rfl, hheight⟩
  | some root =>
    obtain ⟨level, s, hsub, rfl, -, hlevel, htidy⟩ := hholds
    obtain rfl : level = 0 := by
      dsimp only at hlevel
      omega
    have hlt := htidy.below s.p hsub.root_mem
    cases hsub with
    | @leaf _ _ node cs hp hnode _ _ hnull _ =>
      have hvalues : node.values.length < t := by
        rw [hnode.valuesLength, ht]
        dsimp only
        omega
      have hfull : isFull d node = isFull t node := by
        rw [isFull, isFull, sizeMul, sizeMul, ht]
        congr 3
        omega
      dsimp only at hrun ⊢
      rw [hp, bind_some] at hrun ⊢
      by_cases hsplit : Splits allocs ⟨some s.p, d, height⟩ h
      · obtain ⟨root', node', hroot', hp', hfull', hfirst, hsecond⟩ := hsplit
        cases hroot'
        cases hp.symm.trans hp'
        rw [← hfull, if_pos hfull', splitRoot, if_pos hfirst, if_pos hsecond,
          halveRoot_eq_none rfl hlt hp hvalues] at hrun
        cases hrun
      · refine ⟨hsplit, ?_⟩
        rw [hfull]
        split_ifs at hrun ⊢ with hfull'
        · rw [splitRoot] at hrun ⊢
          dsimp only at hrun ⊢
          rw [hcreate]
          split_ifs at hrun ⊢ with hfirst hsecond
          · exact absurd ⟨s.p, node, rfl, hp, hfull.trans hfull', hfirst, hsecond⟩ hsplit
          all_goals
            cases hrun
            exact ⟨rfl, rfl, hheight⟩
        · have hleaf := isLeaf_of_null hd hnode hnull
          cases hlevel
          simp only [insertBelow, descend, hp, hleaf, bind_eq_bind, bind_some, if_true, map_eq_some_iff,
            Prod.mk.injEq] at hrun ⊢
          obtain ⟨h₁, hinsert, rfl, rfl, rfl⟩ := hrun
          exact ⟨⟨h₁, hinsert, rfl, rfl, rfl⟩, rfl, hheight⟩

/-- The tree of half-degree `2 ^ 63` is empty, or its root has one key and no place for a child. -/
def OneKey (tree : BTree) (h : Heap) (xs : List Int) : Prop :=
  (tree.root = none ∧ tree.height = 0 ∧ xs = []) ∨
    ∃ root values x, tree.root = some root ∧ tree.height = 1 ∧ h.nodes root = some ⟨x :: values, [], 1⟩ ∧
      xs = [x]

/-- Only the first value is inserted: the search for the leaf of the second one reads a child that
    is not there. -/
theorem OneKey.btreeInsert (ht : tree.t = 2 ^ 63) (hone : OneKey tree h xs)
    (hrun : btreeInsert allocs tree h value = some (code, tree', h')) :
    tree'.t = tree.t ∧ ∃ ys, OneKey tree' h' ys ∧ After value xs ys code := by
  rcases hone with ⟨hroot, hheight, rfl⟩ | ⟨root, values, x, hroot, hheight, hp, rfl⟩
  · have hcreate : createNode tree.t h = (h.next, { h with next := h.next + 1 }.write h.next
        ⟨0 :: List.replicate (2 ^ 64 - 2) 0, [], 0⟩) := by
      rw [createNode, ht]
      rfl
    have hvalue := store_append [] (List.replicate (2 ^ 64 - 2) 0) 0 value
    rw [BTreeInsertion.btreeInsert, hroot] at hrun
    dsimp only at hrun
    split_ifs at hrun with hfirst
    · simp only [nil_append, length_nil] at hvalue
      simp only [hcreate, Heap.storeValue_write, hvalue, map_some, Heap.setSize_write, bind_eq_bind,
        bind_some, Option.pure_def, some.injEq, Prod.mk.injEq] at hrun
      obtain ⟨rfl, rfl, rfl⟩ := hrun
      exact ⟨rfl, [value], .inr ⟨_, _, value, rfl, rfl, Heap.write_nodes_same .., rfl⟩, [], [], rfl,
        rfl, by simp, by simp⟩
    · cases hrun
      exact ⟨rfl, [], .inl ⟨hroot, hheight, rfl⟩, rfl⟩
  · have hfull : isFull tree.t ⟨x :: values, [], 1⟩ = false := by
      rw [isFull, ht, decide_eq_false_iff_not]
      exact of_decide_eq_true rfl
    rw [BTreeInsertion.btreeInsert, hroot] at hrun
    dsimp only at hrun
    rw [hp, bind_some, hfull, if_neg Bool.false_ne_true, insertBelow, hroot, bind_some, hheight,
      descend] at hrun
    simp [hp, isLeaf] at hrun

/-! ### Every half-degree -/

/-- The subtree has its keys and nodes, and its leaves are `level` levels below it. A node has at
    least `least` keys, the nodes below it at least `t - 1`, and none more than `2 * t - 1`. -/
inductive IsSubtree (h : Heap) (t : Nat) : (level least : Nat) → Summary → Prop where
  | leaf {least : Nat} {s : Summary} {node : BTreeNode} (hp : h.nodes s.p = some node)
      (hsize : node.size = s.keys.length) (hkeys : s.keys <+: node.values) (hleast : least ≤ s.keys.length)
      (hmost : s.keys.length ≤ 2 * t - 1) (hnull : ∀ c ∈ node.children, c = none) (hptrs : s.ptrs = [s.p]) :
      IsSubtree h t 0 least s
  | inner {level least : Nat} {s : Summary} {node : BTreeNode} {keys : List Int} {kids : List Summary}
      (hp : h.nodes s.p = some node) (hsize : node.size = keys.length) (hvalues : keys <+: node.values)
      (hchildren : childPtrs kids <+: node.children) (harity : kids.length = keys.length + 1)
      (hleast : least ≤ keys.length) (hmost : keys.length ≤ 2 * t - 1)
      (hkids : ∀ kid ∈ kids, IsSubtree h t level (t - 1) kid)
      (hkeys : s.keys = interleave (kidKeys kids) keys)
      (hptrs : s.ptrs = s.p :: kidPtrs kids) : IsSubtree h t (level + 1) least s

/-- The tree is a B-tree with these keys from left to right, in order, and all its leaves are at
    depth `tree->height`. -/
def IsBTree (tree : BTree) (h : Heap) (xs : List Int) : Prop :=
  xs.Pairwise (· ≤ ·) ∧
    match tree.root with
    | none => tree.height = 0 ∧ xs = []
    | some root =>
      ∃ level s, IsSubtree h tree.t level 1 s ∧ s.p = root ∧ s.keys = xs ∧ tree.height = level + 1 ∧
        s.ptrs.Nodup

/-- The half-degree of the nodes may be less than the one of the tree if there is one level only. -/
theorem Subtree.isSubtree {d : Nat} (hsub : Subtree h d level least s) (hle : d ≤ t)
    (hlevel : d = t ∨ level = 0) : IsSubtree h t level least s := by
  induction hsub with
  | leaf hp hnode hleast hmost hnull hptrs =>
    obtain ⟨rest, hvalues⟩ := hnode.values
    exact .leaf hp hnode.size ⟨rest, hvalues.symm⟩ hleast (by omega) hnull hptrs
  | @inner level least s node keys kids hp hnode hleast hmost hkids hkeys hptrs ih =>
    obtain ⟨rest, hvalues⟩ := hnode.values
    obtain ⟨crest, hchildren⟩ := hnode.children
    obtain rfl := hlevel.resolve_right (Nat.succ_ne_zero level)
    have harity := hnode.arity
    rw [childPtrs, length_map] at harity
    exact .inner hp hnode.size ⟨rest, hvalues.symm⟩ ⟨crest, hchildren.symm⟩ harity hleast hmost
      (fun kid hkid => ih kid hkid (.inl rfl)) hkeys hptrs

theorem Holds.isBTree {d : Nat} (hholds : Holds { tree with t := d } h xs) (hsorted : xs.Pairwise (· ≤ ·))
    (hle : d ≤ tree.t) (hheight : d = tree.t ∨ tree.height ≤ 1) : IsBTree tree h xs := by
  refine ⟨hsorted, ?_⟩
  rw [Holds] at hholds
  dsimp only at hholds
  cases hroot : tree.root with
  | none =>
    rw [hroot] at hholds
    exact hholds
  | some root =>
    rw [hroot] at hholds
    obtain ⟨level, s, hsub, hp, hkeys, hlevel, htidy⟩ := hholds
    exact ⟨level, s, hsub.isSubtree hle (hheight.imp_right fun hone => by omega), hp, hkeys, hlevel,
      htidy.nodup⟩

/-- The states after any calls of `btree_insert` that returned, whatever they returned. -/
inductive Reachable (t : Nat) : BTree → Heap → Prop where
  | create : Reachable t (btreeCreate t) .empty
  | insert {tree tree' : BTree} {h h' : Heap} (hreach : Reachable t tree h) (allocs : Allocs) (value : Int)
      {code : ExitCode} (hrun : btreeInsert allocs tree h value = some (code, tree', h')) :
        Reachable t tree' h'

/-- What the calls keep, with capacities that wrap or not. -/
def Kept (tree : BTree) (h : Heap) (xs : List Int) : Prop :=
  xs.Pairwise (· ≤ ·) ∧
    ((HalfDegree tree.t ∧ 2 ≤ tree.t ∧ Holds tree h xs) ∨ (tree.t = 2 ^ 63 ∧ OneKey tree h xs) ∨
      ∃ d, HalfDegree d ∧ tree.t = 2 ^ 63 + d ∧ tree.height ≤ 1 ∧ Holds { tree with t := d } h xs)

theorem Kept.isBTree (hkept : Kept tree h xs) : IsBTree tree h xs := by
  obtain ⟨hsorted, ⟨-, -, hholds⟩ | ⟨ht, hone⟩ | ⟨d, -, ht, hheight, hholds⟩⟩ := hkept
  · exact hholds.isBTree hsorted le_rfl (.inl rfl)
  · refine ⟨hsorted, ?_⟩
    rcases hone with ⟨hroot, hheight, rfl⟩ | ⟨root, values, x, hroot, hheight, hp, rfl⟩
    · rw [hroot]
      exact ⟨hheight, rfl⟩
    · rw [hroot]
      exact ⟨0, ⟨root, [x], [root]⟩, .leaf hp rfl ⟨values, rfl⟩ le_rfl (by simp [ht]) nofun rfl,
        rfl, rfl, hheight, nodup_singleton root⟩
  · exact hholds.isBTree hsorted (ht ▸ Nat.le_add_left _ _) (.inr hheight)

theorem Kept.btreeInsert (hkept : Kept tree h xs)
    (hrun : btreeInsert allocs tree h value = some (code, tree', h')) :
    tree'.t = tree.t ∧ ∃ ys, Kept tree' h' ys ∧ After value xs ys code := by
  obtain ⟨hsorted, ⟨ht, htwo, hholds⟩ | ⟨ht, hone⟩ | ⟨d, hd, ht, hheight, hholds⟩⟩ := hkept
  · obtain ⟨code₁, tree₁, h₁, ys, hrun₁, ht', hholds', hafter, -⟩ :=
      btreeInsert_spec ht htwo hholds hsorted allocs value
    cases hrun₁.symm.trans hrun
    rw [← ht'] at ht htwo
    exact ⟨ht', ys, ⟨hafter.sorted hsorted, .inl ⟨ht, htwo, hholds'⟩⟩, hafter⟩
  · obtain ⟨ht', ys, hone', hafter⟩ := hone.btreeInsert ht hrun
    exact ⟨ht', ys, ⟨hafter.sorted hsorted, .inr (.inl ⟨ht'.trans ht, hone'⟩)⟩, hafter⟩
  · obtain ⟨hsplit, hrun', ht', hheight'⟩ := btreeInsert_small hd ht hholds hheight hrun
    obtain ⟨code₁, tree₁, h₁, ys, hrun₁, -, hholds', hafter, -⟩ :=
      btreeInsert_unsplit hd hholds hsorted allocs value hsplit
    cases hrun₁.symm.trans hrun'
    exact ⟨ht', ys, ⟨hafter.sorted hsorted, .inr (.inr ⟨d, hd, ht'.trans ht, hheight', hholds'⟩)⟩, hafter⟩

theorem Reachable.kept (htwo : 2 ≤ t) (hfits : t < 2 ^ 64) (hreach : Reachable t tree h) :
    tree.t = t ∧ ∃ xs, Kept tree h xs := by
  induction hreach with
  | create =>
    refine ⟨rfl, [], List.Pairwise.nil, ?_⟩
    rcases Nat.lt_trichotomy t (2 ^ 63) with hlt | heq | hgt
    · exact .inl ⟨⟨one_le_two.trans htwo, hlt⟩, htwo, rfl, rfl⟩
    · exact .inr (.inl ⟨heq, .inl ⟨rfl, rfl, rfl⟩⟩)
    · exact .inr (.inr ⟨t - 2 ^ 63, ⟨by omega, by omega⟩, by simp only [btreeCreate]; omega,
        Nat.zero_le 1, rfl, rfl⟩)
  | @insert tree tree' h h' hreach allocs value code hrun ih =>
    obtain ⟨ht, xs, hkept⟩ := ih
    obtain ⟨ht', ys, hkept', -⟩ := hkept.btreeInsert hrun
    exact ⟨ht'.trans ht, ys, hkept'⟩

/-- The trees built with memory for every node are among them. -/
theorem Reachable.insertAll (values : List Int) : ∀ {tree tree' : BTree} {h h' : Heap}, Reachable t tree h →
    insertAll tree h values = some (tree', h') → Reachable t tree' h' := by
  induction values with
  | nil =>
    intro tree tree' h h' hreach hrun
    rw [BTreeInsertion.insertAll, some.injEq, Prod.mk.injEq] at hrun
    exact hrun.1 ▸ hrun.2 ▸ hreach
  | cons value values ih =>
    intro tree tree' h h' hreach hrun
    simp only [BTreeInsertion.insertAll, bind_eq_bind, bind_eq_some_iff] at hrun
    obtain ⟨⟨code, tree₁, h₁⟩, hfirst, hrest⟩ := hrun
    exact ih (hreach.insert granted value hfirst) hrest

/-- From any reachable tree, a `btree_insert` that returns `ALLOCATION_ERROR` leaves a B-tree with
    the same keys. -/
theorem btreeInsert_allocationError (htwo : 2 ≤ t) (hfits : t < 2 ^ 64) {tree tree' : BTree} {h h' : Heap}
    (hreach : Reachable t tree h) {allocs : Allocs} {value : Int}
    (hrun : btreeInsert allocs tree h value = some (.allocationError, tree', h')) :
    ∃ xs, IsBTree tree h xs ∧ IsBTree tree' h' xs := by
  obtain ⟨-, xs, hkept⟩ := hreach.kept htwo hfits
  obtain ⟨-, ys, hkept', rfl⟩ := hkept.btreeInsert hrun
  exact ⟨ys, hkept.isBTree, hkept'.isBTree⟩

/-- The root and then a leaf are full. The root is split and the tree gets its third level, but
    there is no memory to split the leaf. -/
theorem btreeInsert_allocationError_third :
    ∃ tree h tree' h', Reachable 2 tree h ∧
      btreeInsert (fun i => decide (i < 2)) tree h 3 = some (.allocationError, tree', h') ∧
      tree.height = 2 ∧ tree'.height = 3 ∧ ∃ xs, IsBTree tree h xs ∧ IsBTree tree' h' xs := by
  have hrun : ((BTreeInsertion.insertAll (btreeCreate 2) .empty [10, 20, 30, 40, 50, 60, 70, 1, 2, 80]).bind
    fun r =>
      (btreeInsert (fun i => decide (i < 2)) r.1 r.2 3).map fun r' => (r'.1, r.1.height, r'.2.1.height)) =
        some (.allocationError, 2, 3) := by
    decide +kernel
  obtain ⟨⟨tree, h⟩, hbuilt, hrun⟩ := bind_eq_some_iff.mp hrun
  obtain ⟨⟨code, tree', h'⟩, hinsert, hcode⟩ := map_eq_some_iff.mp hrun
  obtain ⟨rfl, hbefore, hafter⟩ : code = .allocationError ∧ tree.height = 2 ∧ tree'.height = 3 := by
    simpa using hcode
  have hreach : Reachable 2 tree h := Reachable.create.insertAll _ hbuilt
  exact ⟨tree, h, tree', h', hreach, hinsert, hbefore, hafter,
    btreeInsert_allocationError (by decide) (by decide) hreach hinsert⟩

end NsuLabs.BTreeInsertion
