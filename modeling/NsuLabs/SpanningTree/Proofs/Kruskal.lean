/-
Module: NsuLabs.SpanningTree.Proofs.Kruskal
Purpose: What the Kruskal program chooses is a minimal forest of the listed edges, and a minimal spanning
  tree if there is one; when the Prim and the Kruskal program report the same.
Trusted boundary: none
Main exports: findSpanningTreeWith_minimal, reports_agree_iff
-/
import NsuLabs.SpanningTree.Proofs.Prim

namespace NsuLabs.SpanningTree.Kruskal

open Lib Function List Option

variable {n : Nat}

/-! ### Disjoint sets -/

/-- The vertices that are not roots. -/
def linked (link : DSU n) : Finset (Fin (n + 1)) := {x | link x ≠ x}

/-- The links lead every vertex to the root of its class, and the classes are those of the edges. -/
structure Represents (link : DSU n) (T : List (Edge n)) (root : Fin (n + 1) → Fin (n + 1))
    (depth : Fin (n + 1) → Nat) : Prop where
  root_eq : ∀ x, link x = x → root x = x ∧ depth x = 0
  root_link : ∀ x, link x ≠ x → root (link x) = root x ∧ depth (link x) < depth x
  link_root : ∀ x, link (root x) = root x
  depth_le : ∀ x, depth x ≤ (linked link).card
  root_eq_iff : ∀ x y, root x = root y ↔ Joined T x y

section

variable {link : DSU n} {T : List (Edge n)} {root : Fin (n + 1) → Fin (n + 1)} {depth : Fin (n + 1) → Nat}

theorem represents_createDSU (n : Nat) : Represents (createDSU n) [] (fun x => x) (fun _ => 0) where
  root_eq := fun _ _ => ⟨rfl, rfl⟩
  root_link := fun _ h => absurd rfl h
  link_root := fun _ => rfl
  depth_le := fun _ => Nat.zero_le _
  root_eq_iff := fun _ _ => joined_nil_iff.symm

theorem Represents.findLoop_eq (h : Represents link T root depth) {fuel : Nat} {a : Fin (n + 1)}
    (hfuel : depth a ≤ fuel) : findLoop link fuel a = some (root a) := by
  induction fuel generalizing a with
  | zero =>
    have hroot : link a = a := by
      by_contra hlink
      have := (h.root_link a hlink).2
      omega
    rw [findLoop, if_neg (not_not.mpr hroot), (h.root_eq a hroot).1]
  | succ fuel ih =>
    by_cases hlink : link a = a
    · rw [findLoop, if_neg (not_not.mpr hlink), (h.root_eq a hlink).1]
    · obtain ⟨hroot, hdepth⟩ := h.root_link a hlink
      rw [findLoop, if_pos hlink, ih (by omega), hroot]

theorem Represents.find_eq (h : Represents link T root depth) (a : Fin (n + 1)) :
    find link a = some (root a) :=
  h.findLoop_eq ((h.depth_le a).trans (card_finset_fin_le (linked link)))

/-- A root gets a link to another root; the edge has its ends in the classes of the two. -/
theorem Represents.link_update (h : Represents link T root depth) {a b : Fin (n + 1)} {e : Edge n}
    (ha : link a = a) (hb : link b = b) (hab : a ≠ b)
    (he : (root e.u = a ∧ root e.v = b) ∨ (root e.u = b ∧ root e.v = a)) :
    Represents (Function.update link a b) (e :: T) (fun x => if root x = a then b else root x)
      (fun x => if root x = a then depth x + 1 else depth x) := by
  have hroota := h.root_eq a ha
  have hrootb := h.root_eq b hb
  constructor
  case root_eq =>
    intro x hx
    by_cases hxa : x = a
    · rw [hxa, update_self] at hx
      exact absurd hx.symm hab
    · rw [update_of_ne hxa] at hx
      obtain ⟨hroot, hdepth⟩ := h.root_eq x hx
      have hne : root x ≠ a := by rwa [hroot]
      rw [if_neg hne, if_neg hne]
      exact ⟨hroot, hdepth⟩
  case root_link =>
    intro x hx
    by_cases hxa : x = a
    · subst hxa
      rw [update_self, hrootb.1, hroota.1, if_neg hab.symm, if_pos rfl, if_neg hab.symm, if_pos rfl,
        hrootb.2]
      exact ⟨rfl, Nat.succ_pos _⟩
    · rw [update_of_ne hxa] at hx ⊢
      obtain ⟨hroot, hdepth⟩ := h.root_link x hx
      rw [hroot]
      refine ⟨rfl, ?_⟩
      split
      · exact Nat.succ_lt_succ hdepth
      · exact hdepth
  case link_root =>
    intro x
    by_cases hxa : root x = a
    · rw [if_pos hxa, update_of_ne hab.symm, hb]
    · rw [if_neg hxa, update_of_ne hxa, h.link_root x]
  case depth_le =>
    intro x
    have hmore : linked (Function.update link a b) = insert a (linked link) := by
      ext y
      by_cases hy : y = a <;> simp [linked, hy, hab.symm]
    have := h.depth_le x
    rw [hmore, Finset.card_insert_of_notMem (by simp [linked, ha])]
    split <;> omega
  case root_eq_iff =>
    intro x y
    rw [joined_cons_iff, ← h.root_eq_iff, ← h.root_eq_iff, ← h.root_eq_iff, ← h.root_eq_iff, ← h.root_eq_iff]
    rcases he with ⟨hu, hv⟩ | ⟨hu, hv⟩ <;> rw [hu, hv] <;> grind

/-- Any vertices of the classes of its ends stand for an edge; nothing changes if the ends are
    joined already. -/
theorem Represents.unite_eq (h : Represents link T root depth) {a b : Fin (n + 1)} {e : Edge n}
    (ha : root a = root e.u) (hb : root b = root e.v) (doSwap : Bool) :
    ∃ link' root' depth', unite link a b doSwap = some link' ∧ Represents link' (e :: T) root' depth' := by
  have hu := h.link_root e.u
  have hv := h.link_root e.v
  have hunite : unite link a b doSwap =
      some (if doSwap then Function.update link (root e.v) (root e.u)
        else Function.update link (root e.u) (root e.v)) := by
    rw [unite, h.find_eq, h.find_eq, ha, hb]
    cases doSwap <;> rfl
  rw [hunite]
  by_cases hne : root e.u = root e.v
  · have hsame : Function.update link (root e.v) (root e.v) = link := update_eq_self_iff.mpr hv.symm
    rw [hne, hsame, ite_self]
    have hjoined := (h.root_eq_iff _ _).mp hne
    refine ⟨link, root, depth, rfl, { h with root_eq_iff := fun x y => (h.root_eq_iff x y).trans ?_ }⟩
    exact ⟨.mono (subset_cons_self e T), .of_forall (forall_mem_cons.mpr ⟨hjoined, fun _ => .of_mem⟩)⟩
  · cases doSwap with
    | false => exact ⟨_, _, _, rfl, h.link_update hu hv hne (.inl ⟨rfl, rfl⟩)⟩
    | true => exact ⟨_, _, _, rfl, h.link_update hv hu (Ne.symm hne) (.inr ⟨rfl, rfl⟩)⟩

/-- A call of `unite`, with what `rand() % 2` is in it. -/
structure Call (n : Nat) where
  a : Fin (n + 1)
  b : Fin (n + 1)
  doSwap : Bool

theorem Represents.unites (h : Represents link T root depth) (calls : List (Call n)) :
    ∃ link' root' depth', calls.foldlM (fun link c => unite link c.a c.b c.doSwap) link = some link' ∧
      Represents link' ((calls.map fun c => ⟨c.a, c.b, 0⟩).reverse ++ T) root' depth' := by
  induction calls generalizing link T root depth with
  | nil => exact ⟨link, root, depth, rfl, h⟩
  | cons c calls ih =>
    obtain ⟨link', root', depth', hunite, h'⟩ := h.unite_eq (e := ⟨c.a, c.b, 0⟩) rfl rfl c.doSwap
    rw [foldlM_cons, hunite, map_cons, reverse_cons, append_assoc]
    exact ih h'

end

/-- After any calls of `unite`, whatever the random numbers, `find` ends at every vertex, and at the
    same root for two vertices exactly if the calls united them. -/
theorem find_unites (calls : List (Call n)) :
    ∃ link, calls.foldlM (fun link c => unite link c.a c.b c.doSwap) (createDSU n) = some link ∧
      (∀ x, (find link x).isSome) ∧
      ∀ x y, find link x = find link y ↔
        Relation.EqvGen (fun a b => ∃ c ∈ calls, c.a = a ∧ c.b = b) x y := by
  obtain ⟨link, root, depth, hcalls, h⟩ := (represents_createDSU n).unites calls
  refine ⟨link, hcalls, fun x => by rw [h.find_eq, isSome_some], fun x y => ?_⟩
  rw [h.find_eq, h.find_eq, some_inj, h.root_eq_iff]
  simp [Lib.Joined]

/-! ### The loop over the sorted edges -/

/-- Edges up to the length of a later one are all the chosen ones. -/
theorem upTo_eq_self {T : List (Edge n)} {l : Nat} (h : ∀ e ∈ T, e.length ≤ l) : upTo l T = T :=
  filter_eq_self.mpr fun e he => decide_eq_true (h e he)

/-- The forest of `n` edges joins all vertices. -/
theorem joined_of_length {T : List (Edge n)} (hT : Forest T) (hlen : T.length = n) (x y : Fin (n + 1)) :
    Joined T x y := by
  have hcard := forest_length hT
  rw [Nat.card_eq_fintype_card, Fintype.card_fin, hlen] at hcard
  exact components_eq_one_iff.mp (by omega) x y

theorem loop_spec (rand : Nat → Bool) (edges done : List (Edge n))
    (hsorted : (done ++ edges).Pairwise (·.length ≤ ·.length)) :
    ∀ {link : DSU n} {T : List (Edge n)} {root depth}, Represents link T root depth → Forest T →
      T ⊆ done → Spans T done →
      ∃ T', loop rand edges link T = some T' ∧ Forest T' ∧ T' ⊆ done ++ edges ∧
        Spans T' (done ++ edges) := by
  induction edges generalizing done with
  | nil =>
    intro link T root depth _ hT hsub hspans
    rw [append_nil]
    exact ⟨T, rfl, hT, hsub, hspans⟩
  | cons e edges ih =>
    intro link T root depth h hT hsub hspans
    have hlater : ∀ a ∈ done, ∀ b ∈ e :: edges, a.length ≤ b.length := (pairwise_append.mp hsorted).2.2
    have hTe : ∀ a ∈ T, a.length ≤ e.length := fun a ha => hlater a (hsub ha) e mem_cons_self
    have hrest : ∀ b ∈ edges, e.length ≤ b.length :=
      (pairwise_cons.mp (pairwise_append.mp hsorted).2.1).1
    rw [append_cons] at hsorted ⊢
    rw [loop, h.find_eq, h.find_eq, bind_eq_bind, bind_some, bind_some]
    by_cases hroot : root e.u = root e.v
    -- the ends are joined already, by edges that are not longer
    · have hspans' : Spans T (done ++ [e]) := by
        apply hspans.append_singleton
        rw [upTo_eq_self hTe]
        exact (h.root_eq_iff _ _).mp hroot
      rw [if_neg (not_not.mpr hroot)]
      exact ih (done ++ [e]) hsorted h hT (subset_append_of_subset_left _ hsub) hspans'
    · have hT' : Forest (e :: T) := ⟨fun hjoined => hroot ((h.root_eq_iff _ _).mpr hjoined), hT⟩
      have hsub' : e :: T ⊆ done ++ [e] :=
        cons_subset.mpr ⟨mem_append_right _ mem_cons_self, subset_append_of_subset_left _ hsub⟩
      have hspans' : Spans (e :: T) (done ++ [e]) := by
        apply (hspans.mono (subset_cons_self e T)).append_singleton
        exact .of_mem (mem_upTo.mpr ⟨mem_cons_self, le_rfl⟩)
      obtain ⟨link', root', depth', hunite, h'⟩ := h.unite_eq (h.root_eq _ (h.link_root e.u)).1
        (h.root_eq _ (h.link_root e.v)).1 (rand T.length)
      rw [if_pos hroot, hunite, bind_some]
      by_cases hlen : (e :: T).length = n
      · rw [if_pos hlen]
        refine ⟨e :: T, rfl, hT', subset_append_of_subset_left _ hsub', ?_⟩
        intro b hb
        rcases mem_append.mp hb with hb | hb
        · exact hspans' b hb
        -- the edges that are left are not shorter than a chosen one, and all is joined
        · have hshort : ∀ a ∈ e :: T, a.length ≤ b.length := by
            rw [forall_mem_cons]
            exact ⟨hrest b hb, fun a ha => hlater a (hsub ha) b (mem_cons_of_mem e hb)⟩
          rw [upTo_eq_self hshort]
          exact joined_of_length hT' hlen b.u b.v
      · rw [if_neg hlen]
        exact ih (done ++ [e]) hsorted h' hT' hsub' hspans'

/-! ### The sorted edges -/

theorem edgeComapre_le_zero {a b : Edge n} : edgeComapre a b ≤ 0 ↔ a.length ≤ b.length := by
  rw [edgeComapre]
  split <;> omega

theorem qsort_pairwise (edges : List (Edge n)) : (qsort edges).Pairwise (·.length ≤ ·.length) := by
  have htotal : Std.Total fun a b : Edge n => edgeComapre a b ≤ 0 :=
    ⟨fun a b => by simpa only [edgeComapre_le_zero] using le_total a.length b.length⟩
  have htrans : IsTrans (Edge n) fun a b => edgeComapre a b ≤ 0 :=
    ⟨fun a b c => by simpa only [edgeComapre_le_zero] using le_trans⟩
  exact (pairwise_insertionSort (fun a b : Edge n => edgeComapre a b ≤ 0) edges).imp edgeComapre_le_zero.mp

theorem qsort_perm (edges : List (Edge n)) : (qsort edges).Perm edges := perm_insertionSort _ edges

/-- What is known about `qsort`: it rearranges the edges so that their lengths ascend. -/
structure Sorts (sort : List (Edge n) → List (Edge n)) : Prop where
  perm : ∀ edges, (sort edges).Perm edges
  pairwise : ∀ edges, (sort edges).Pairwise (·.length ≤ ·.length)

theorem qsort_sorts : Sorts (qsort (n := n)) := ⟨qsort_perm, qsort_pairwise⟩

/-- The chosen edges are a minimal forest, which is returned if it joins all vertices. -/
theorem findSpanningTreeWith_spec {sort : List (Edge n) → List (Edge n)} (hsort : Sorts sort)
    (rand : Nat → Bool) (edges : List (Edge n)) :
    ∃ T, Minimal T edges ∧ T ⊆ edges ∧
      findSpanningTreeWith sort rand edges =
        some (if T.length < n then .error .noSpanningTree else .ok T) := by
  obtain ⟨T, hloop, hforest, hsub, hspans⟩ := loop_spec rand (sort edges) [] (hsort.pairwise edges)
    (represents_createDSU n) trivial (nil_subset _) nofun
  have hperm := hsort.perm edges
  have hsub' : T ⊆ edges := fun e he => hperm.subset (hsub he)
  refine ⟨T, ⟨hforest, ?_, Spans.of_subset hsub'⟩, hsub', ?_⟩
  · exact fun e he => hspans e (hperm.mem_iff.mpr he)
  · rw [findSpanningTreeWith, hloop]
    rfl

/-- Whatever the random numbers and the order of edges of one length: the program finds a minimal
    spanning tree if the graph is connected, and reports that there is none if it is not. -/
theorem findSpanningTreeWith_minimal {sort : List (Edge n) → List (Edge n)} (hsort : Sorts sort)
    (rand : Nat → Bool) (edges : List (Edge n)) :
    ((∀ x y, Joined edges x y) →
        ∃ T, findSpanningTreeWith sort rand edges = some (.ok T) ∧ T.length = n ∧ MinimalTree T edges) ∧
      ((¬ ∀ x y, Joined edges x y) →
        findSpanningTreeWith sort rand edges = some (.error .noSpanningTree)) := by
  obtain ⟨T, hmin, hsub, hresult⟩ := findSpanningTreeWith_spec hsort rand edges
  have hcard := hmin.length_add
  rw [Nat.card_eq_fintype_card, Fintype.card_fin] at hcard
  constructor
  · intro hall
    rw [components_eq_one_iff.mpr hall] at hcard
    have hlength : T.length = n := Nat.succ.inj hcard
    exact ⟨T, by rw [hresult, if_neg hlength.not_lt], hlength, hmin.minimalTree hsub hall⟩
  · intro hnot
    have hone : components edges ≠ 1 := fun hone => hnot (components_eq_one_iff.mp hone)
    have hpos := components_pos edges
    rw [hresult, if_pos (by omega)]

/-- Three vertices, of which one has an edge to itself and two have two edges between them. -/
theorem findSpanningTreeWith_minimal_repeated :
    ∃ T, findSpanningTreeWith (n := 2) qsort (fun _ => true) [⟨0, 0, 1⟩, ⟨0, 1, 7⟩, ⟨1, 0, 4⟩, ⟨2, 1, 4⟩] =
        some (.ok T) ∧
      T.length = 2 ∧ MinimalTree T [⟨0, 0, 1⟩, ⟨0, 1, 7⟩, ⟨1, 0, 4⟩, ⟨2, 1, 4⟩] := by
  apply (findSpanningTreeWith_minimal qsort_sorts (fun _ => true) _).1
  have hone : Joined [⟨0, 0, 1⟩, ⟨0, 1, 7⟩, ⟨1, 0, 4⟩, (⟨2, 1, 4⟩ : Edge 2)] 1 0 :=
    Joined.of_mem (e := (⟨1, 0, 4⟩ : Edge 2)) (by decide)
  have htwo : Joined [⟨0, 0, 1⟩, ⟨0, 1, 7⟩, ⟨1, 0, 4⟩, (⟨2, 1, 4⟩ : Edge 2)] 2 1 :=
    Joined.of_mem (e := (⟨2, 1, 4⟩ : Edge 2)) (by decide)
  have hzero : ∀ x, Joined [⟨0, 0, 1⟩, ⟨0, 1, 7⟩, ⟨1, 0, 4⟩, (⟨2, 1, 4⟩ : Edge 2)] x 0 := by
    intro x
    fin_cases x
    · exact .refl _ _
    · exact hone
    · exact htwo.trans hone
  exact fun x y => (hzero x).trans (hzero y).symm

end NsuLabs.SpanningTree.Kruskal

namespace NsuLabs.SpanningTree

open Lib List Option

/-- The inputs for `n + 1` vertices that both programs admit. -/
structure Admitted (n : Nat) (edges : List InputEdge) : Prop where
  ends : ∀ e ∈ edges, (1 ≤ e.u ∧ e.u ≤ n + 1) ∧ (1 ≤ e.v ∧ e.v ≤ n + 1)
  lengths : ∀ e ∈ edges, e.length ≤ 2 ^ 31 - 1
  count : edges.length ≤ (n + 1) * n / 2

/-- The edge that a line of the input lists. -/
def InputEdge.toEdge (n : Nat) (e : InputEdge) : WEdge (Fin (n + 1)) :=
  ⟨⟨(e.u - 1) % (n + 1), Nat.mod_lt _ n.succ_pos⟩, ⟨(e.v - 1) % (n + 1), Nat.mod_lt _ n.succ_pos⟩, e.length⟩

def listed (n : Nat) (edges : List InputEdge) : List (WEdge (Fin (n + 1))) := edges.map (InputEdge.toEdge n)

theorem listed_cons (n : Nat) (e : InputEdge) (edges : List InputEdge) :
    listed n (e :: edges) = e.toEdge n :: listed n edges := rfl

section

variable {V : Type} [DecidableEq V]

/-- The edge is between the two vertices, in one direction or the other. -/
def Between (e : WEdge V) (u v : V) : Prop := (e.u = u ∧ e.v = v) ∨ (e.u = v ∧ e.v = u)

instance (e : WEdge V) (u v : V) : Decidable (Between e u v) := by
  unfold Between
  infer_instance

/-- The edges behind which no other one between the same vertices is listed. -/
def lastListed : List (WEdge V) → List (WEdge V)
  | [] => []
  | e :: es => if ∃ e' ∈ es, Between e' e.u e.v then lastListed es else e :: lastListed es

end

/-- Both programs report that there is no spanning tree, or both have found one of the same length. -/
def Agree (prim kruskal : Report) : Prop :=
  (prim = .error .noSpanningTree ∧ kruskal = .error .noSpanningTree) ∨ ∃ total, prim = .ok total ∧
    kruskal = .ok total

/-! ### What the matrix keeps -/

section

variable {V : Type} {e : WEdge V} {u v : V}

theorem between_comm : Between e u v ↔ Between e v u := or_comm

theorem Between.joined {T : List (WEdge V)} (h : Between e u v) (he : e ∈ T) : Joined T u v := by
  rcases h with ⟨rfl, rfl⟩ | ⟨rfl, rfl⟩
  · exact .of_mem he
  · exact (Joined.of_mem he).symm

theorem Between.trans {e' : WEdge V} (h : Between e u v) (h' : Between e' u v) : Between e' e.u e.v := by
  rcases h with ⟨rfl, rfl⟩ | ⟨rfl, rfl⟩
  · exact h'
  · exact between_comm.mp h'

variable [DecidableEq V]

/-- The length of the last edge between two vertices. -/
def entry (u v : V) : List (WEdge V) → Option Nat
  | [] => none
  | e :: es => (entry u v es).or (if Between e u v then some e.length else none)

theorem entry_comm (u v : V) (es : List (WEdge V)) : entry u v es = entry v u es := by
  induction es with
  | nil => rfl
  | cons e es ih => rw [entry, entry, ih, if_congr between_comm rfl rfl]

theorem entry_eq_none_iff {es : List (WEdge V)} : entry u v es = none ↔ ∀ e ∈ es, ¬ Between e u v := by
  induction es with
  | nil => exact iff_of_true rfl nofun
  | cons e es ih =>
    rw [entry, or_eq_none_iff, ih, forall_mem_cons, and_comm]
    by_cases h : Between e u v <;> simp [h]

/-- The last edges are those whose length is kept. -/
theorem entry_eq_some_iff {es : List (WEdge V)} {l : Nat} :
    entry u v es = some l ↔ ∃ e ∈ lastListed es, Between e u v ∧ e.length = l := by
  induction es with
  | nil => exact iff_of_false nofun nofun
  | cons e es ih =>
    rw [entry, lastListed]
    by_cases hagain : ∃ e' ∈ es, Between e' e.u e.v
    · rw [if_pos hagain, ← ih]
      by_cases hbetween : Between e u v
      -- the edge is between the same vertices as a later one, whose length stays
      · obtain ⟨e', he', hsame⟩ := hagain
        have hkept : entry u v es ≠ none := by
          intro hnone
          apply entry_eq_none_iff.mp hnone e' he'
          rcases hbetween with ⟨rfl, rfl⟩ | ⟨rfl, rfl⟩
          · exact hsame
          · exact between_comm.mp hsame
        obtain ⟨m, hm⟩ := ne_none_iff_exists'.mp hkept
        rw [hm, some_or]
      · rw [if_neg hbetween, or_none]
    · rw [if_neg hagain]
      by_cases hbetween : Between e u v
      · have hnone : entry u v es = none :=
          entry_eq_none_iff.mpr fun e' he' hsame => hagain ⟨e', he', hbetween.trans hsame⟩
        have hno : ¬ ∃ e' ∈ lastListed es, Between e' u v ∧ e'.length = l := by
          rw [← ih, hnone]
          nofun
        rw [hnone, if_pos hbetween, none_or, some_inj]
        constructor
        · exact fun hl => ⟨e, mem_cons_self, hbetween, hl⟩
        · rintro ⟨e', he', hrest⟩
          rcases mem_cons.mp he' with rfl | he'
          · exact hrest.2
          · exact absurd ⟨e', he', hrest⟩ hno
      · rw [if_neg hbetween, or_none, ih]
        constructor
        · rintro ⟨e', he', hrest⟩
          exact ⟨e', mem_cons_of_mem e he', hrest⟩
        · rintro ⟨e', he', hrest⟩
          rcases mem_cons.mp he' with rfl | he'
          · exact absurd hrest.1 hbetween
          · exact ⟨e', he', hrest⟩

theorem lastListed_subset (es : List (WEdge V)) : lastListed es ⊆ es := by
  induction es with
  | nil => exact nil_subset _
  | cons e es ih =>
    rw [lastListed]
    split
    · exact subset_cons_of_subset e ih
    · exact cons_subset_cons e ih

end

/-! ### Reading the input -/

variable {n : Nat}

theorem Admitted.toEdge_val {e : InputEdge} (h : (1 ≤ e.u ∧ e.u ≤ n + 1) ∧ (1 ≤ e.v ∧ e.v ≤ n + 1)) :
    ∃ (hu : e.u - 1 < n + 1) (hv : e.v - 1 < n + 1),
      e.toEdge n = ⟨⟨e.u - 1, hu⟩, ⟨e.v - 1, hv⟩, e.length⟩ := by
  have hu : e.u - 1 < n + 1 := by omega
  have hv : e.v - 1 < n + 1 := by omega
  refine ⟨hu, hv, ?_⟩
  rw [InputEdge.toEdge, WEdge.mk.injEq]
  exact ⟨Fin.ext (Nat.mod_eq_of_lt hu), Fin.ext (Nat.mod_eq_of_lt hv), rfl⟩

variable {edges : List InputEdge}

/-- The edge list holds all that was listed. -/
theorem Kruskal.readGraph_eq
    (h : ∀ e ∈ edges, (1 ≤ e.u ∧ e.u ≤ n + 1) ∧ (1 ≤ e.v ∧ e.v ≤ n + 1)) (graph : List (Kruskal.Edge n)) :
    Kruskal.readGraph graph edges = .ok (graph ++ listed n edges) := by
  induction edges generalizing graph with
  | nil => rw [Kruskal.readGraph, listed, map_nil, append_nil]
  | cons e edges ih =>
    obtain ⟨he, hedges⟩ := forall_mem_cons.mp h
    obtain ⟨hu, hv, hedge⟩ := Admitted.toEdge_val he
    have hadd : Kruskal.addEdge graph (e.u - 1) (e.v - 1) e.length = .ok (graph ++ [e.toEdge n]) := by
      rw [Kruskal.addEdge, dif_neg (by omega), hedge]
    rw [Kruskal.readGraph, hadd, listed_cons, append_cons graph (e.toEdge n) (listed n edges)]
    exact ih hedges _

/-- What `addEdge` does to the matrix. -/
theorem Prim.addEdge_eq (graph : Prim.Graph n) {e : InputEdge}
    (h : (1 ≤ e.u ∧ e.u ≤ n + 1) ∧ (1 ≤ e.v ∧ e.v ≤ n + 1)) :
    ∃ graph', Prim.addEdge graph (e.u - 1) (e.v - 1) e.length = .ok graph' ∧
      ∀ u v, graph'.adjMatrix u v = if Between (e.toEdge n) u v then (e.length : Int)
        else graph.adjMatrix u v := by
  obtain ⟨hu, hv, hedge⟩ := Admitted.toEdge_val h
  rw [Prim.addEdge, dif_pos ⟨hu, hv⟩, hedge]
  refine ⟨_, rfl, fun u v => ?_⟩
  simp only [Between, Function.update_apply]
  grind

/-- The matrix holds the length of the last edge between two vertices. -/
theorem Prim.readGraph_eq
    (h : ∀ e ∈ edges, (1 ≤ e.u ∧ e.u ≤ n + 1) ∧ (1 ≤ e.v ∧ e.v ≤ n + 1)) (graph : Prim.Graph n) :
    ∃ graph', Prim.readGraph graph edges = .ok graph' ∧
      ∀ u v, graph'.adjMatrix u v =
        match entry u v (listed n edges) with
        | some l => (l : Int)
        | none => graph.adjMatrix u v := by
  induction edges generalizing graph with
  | nil => exact ⟨graph, rfl, fun _ _ => rfl⟩
  | cons e edges ih =>
    obtain ⟨he, hedges⟩ := forall_mem_cons.mp h
    obtain ⟨graph₁, hadd, hmatrix₁⟩ := Prim.addEdge_eq graph he
    obtain ⟨graph', hread, hmatrix⟩ := ih hedges graph₁
    refine ⟨graph', by rw [Prim.readGraph, hadd]; exact hread, fun u v => ?_⟩
    rw [hmatrix, hmatrix₁, listed_cons, entry]
    cases entry u v (listed n edges) with
    | some l => rfl
    | none =>
      rw [none_or]
      by_cases hbetween : Between (e.toEdge n) u v
      · rw [if_pos hbetween, if_pos hbetween]
        rfl
      · rw [if_neg hbetween, if_neg hbetween]

theorem Admitted.length_le (h : Admitted n edges) {e : WEdge (Fin (n + 1))}
    (he : e ∈ listed n edges) : e.length ≤ 2 ^ 31 - 1 := by
  obtain ⟨line, hline, rfl⟩ := List.mem_map.mp he
  exact h.lengths line hline

/-- The graph that the Prim program works on. -/
theorem Admitted.prim_readGraph (h : Admitted n edges) :
    ∃ graph, Prim.readGraph (Prim.createGraph n) edges = .ok graph ∧ Prim.WellFormed graph ∧
      ∀ e, e ∈ Prim.stored graph ↔ entry e.u e.v (listed n edges) = some e.length := by
  obtain ⟨graph, hread, hmatrix⟩ := Prim.readGraph_eq h.ends (Prim.createGraph n)
  refine ⟨graph, hread, ⟨?_, ?_⟩, ?_⟩
  · intro u v
    rw [hmatrix, hmatrix, entry_comm]
    rfl
  · intro u v
    rw [hmatrix]
    cases hentry : entry u v (listed n edges) with
    | none => exact Int.negSucc_lt_zero 0 |>.trans (by decide)
    | some l =>
      obtain ⟨e, he, -, rfl⟩ := entry_eq_some_iff.mp hentry
      have := h.length_le (lastListed_subset _ he)
      simp only [Prim.uint32Max]
      omega
  · intro e
    rw [Prim.mem_stored, hmatrix]
    cases entry e.u e.v (listed n edges) with
    | none => exact iff_of_false (fun hstored => hstored.1 rfl) (some_ne_none e.length).symm
    | some l =>
      rw [some_inj, Int.toNat_natCast]
      constructor
      · exact fun hstored => hstored.2.symm
      · exact fun hl => ⟨by simp only; omega, hl.symm⟩

/-! ### Agreement -/

section

variable {V : Type} {S T E : List (WEdge V)}

/-- Edges that another list has in one direction or the other. -/
theorem joined_of_between {x y : V} (h : ∀ e ∈ S, ∃ e' ∈ T, Between e' e.u e.v) (hxy : Joined S x y) :
    Joined T x y :=
  Joined.of_forall (fun e he => (h e he).elim fun _ he' => he'.2.joined he'.1) hxy

theorem spans_of_between (h : ∀ e ∈ S, ∃ e' ∈ T, Between e' e.u e.v ∧ e'.length = e.length)
    (hS : Spans S E) : Spans T E := by
  intro e he
  refine joined_of_between (fun e' he' => ?_) (hS e he)
  obtain ⟨hmem, hle⟩ := mem_upTo.mp he'
  obtain ⟨e'', he'', hbetween, hlength⟩ := h e' hmem
  exact ⟨e'', mem_upTo.mpr ⟨he'', hlength.trans_le hle⟩, hbetween⟩

end

section

variable {edges : List InputEdge} {graph : Prim.Graph n}

/-- The last listed edges and the stored ones join the same at every length. -/
theorem spans_stored_iff (hstored : ∀ e, e ∈ Prim.stored graph ↔
    entry e.u e.v (listed n edges) = some e.length) :
    Spans (Prim.stored graph) (listed n edges) ↔ Spans (lastListed (listed n edges)) (listed n edges) := by
  constructor
  · exact spans_of_between fun e he => entry_eq_some_iff.mp ((hstored e).mp he)
  · refine spans_of_between fun e he => ⟨e, (hstored e).mpr ?_, .inl ⟨rfl, rfl⟩, rfl⟩
    exact entry_eq_some_iff.mpr ⟨e, he, .inl ⟨rfl, rfl⟩, rfl⟩

/-- What is stored was listed. -/
theorem spans_listed_stored (hstored : ∀ e, e ∈ Prim.stored graph ↔
    entry e.u e.v (listed n edges) = some e.length) : Spans (listed n edges) (Prim.stored graph) := by
  intro e he
  obtain ⟨e', he', hbetween, hlength⟩ := entry_eq_some_iff.mp ((hstored e).mp he)
  exact hbetween.joined (mem_upTo.mpr ⟨lastListed_subset _ he', hlength.le⟩)

/-- For every listed edge one between the same vertices is stored. -/
theorem joined_stored_iff (hstored : ∀ e, e ∈ Prim.stored graph ↔
    entry e.u e.v (listed n edges) = some e.length)
    {x y : Fin (n + 1)} : Joined (Prim.stored graph) x y ↔ Joined (listed n edges) x y := by
  constructor
  · exact (spans_listed_stored hstored).joined_all
  · apply joined_of_between
    intro e he
    have hkept : entry e.u e.v (listed n edges) ≠ none := fun hnone =>
      entry_eq_none_iff.mp hnone e he (.inl ⟨rfl, rfl⟩)
    obtain ⟨l, hl⟩ := ne_none_iff_exists'.mp hkept
    exact ⟨⟨e.u, e.v, l⟩, (hstored ⟨e.u, e.v, l⟩).mpr hl, .inl ⟨rfl, rfl⟩⟩

end

/-- Both programs come to a report. The reports agree exactly if the listed edges do not join all
    vertices, or if for every listed edge the last listed ones of the vertex pairs have a way
    between its ends over edges that are not longer. -/
theorem reports_agree_iff (rand : Nat → Bool) {edges : List InputEdge} (h : Admitted n edges) :
    ∃ prim kruskal, Prim.run n edges = some prim ∧ Kruskal.run rand n edges = some kruskal ∧
      (Agree prim kruskal ↔
        (¬ ∀ x y, Joined (listed n edges) x y) ∨ Spans (lastListed (listed n edges)) (listed n edges)) := by
  obtain ⟨graph, hread, hwf, hstored⟩ := h.prim_readGraph
  obtain ⟨T₂, hmin₂, -, hkruskal⟩ :=
    Kruskal.findSpanningTreeWith_spec Kruskal.qsort_sorts rand (listed n edges)
  have hcard := hmin₂.length_add
  rw [Nat.card_eq_fintype_card, Fintype.card_fin] at hcard
  rw [Prim.run, hread, Kruskal.run, Kruskal.readGraph_eq h.ends [], nil_append]
  simp only [Kruskal.findSpanningTree, hkruskal]
  rcases Prim.findSpanningTree_spec hwf with ⟨parents, T₁, S, hprim, hmin₁, -, hlen₁, hS,
    hperm⟩ | ⟨hprim, x, hx⟩
  · have htotal : Prim.totalLength graph parents = some (total T₁) := by
      rw [Prim.totalLength_eq hS, total, (hperm.map WEdge.length).sum_eq, total]
    have hall : ∀ x y, Joined (listed n edges) x y := fun x y =>
      (joined_stored_iff hstored).mp
        (hmin₁.spanned.joined_all (Kruskal.joined_of_length hmin₁.forest hlen₁ x y))
    rw [components_eq_one_iff.mpr hall] at hcard
    have hlen₂ : T₂.length = n := by omega
    refine ⟨.ok (total T₁), .ok (total T₂), ?_, ?_, ?_⟩
    · simp only [hprim, bind_some, htotal, map_some]
    · rw [if_neg hlen₂.not_lt, map_some]
    · rw [← spans_stored_iff hstored,
        ← total_eq_total_iff hmin₁ hmin₂ (spans_listed_stored hstored) (hlen₁.trans hlen₂.symm)]
      simp [Agree, hall, eq_comm]
  · have hnot : ¬ ∀ x y, Joined (listed n edges) x y := fun hall =>
      hx ((joined_stored_iff hstored).mpr (hall 0 x))
    have hcomponents : components (listed n edges) ≠ 1 := fun hone => hnot (components_eq_one_iff.mp hone)
    have hpos : 0 < components (listed n edges) := components_pos _
    refine ⟨.error .noSpanningTree, .error .noSpanningTree, ?_, ?_, ?_⟩
    · rw [hprim, bind_some]
    · rw [if_pos (by omega), map_some]
    · exact iff_of_true (.inl ⟨rfl, rfl⟩) (.inl hnot)

/-- Two edges between the vertices 2 and 3. -/
theorem reports_agree_iff_repeated :
    ∃ prim kruskal, Prim.run 2 [⟨1, 2, 5⟩, ⟨2, 3, 4⟩, ⟨2, 3, 1⟩] = some prim ∧
      Kruskal.run (fun _ => true) 2 [⟨1, 2, 5⟩, ⟨2, 3, 4⟩, ⟨2, 3, 1⟩] = some kruskal ∧
        Agree prim kruskal := by
  obtain ⟨prim, kruskal, hprim, hkruskal, hagree⟩ :=
    @reports_agree_iff 2 (fun _ => true) [⟨1, 2, 5⟩, ⟨2, 3, 4⟩, ⟨2, 3, 1⟩] ⟨by decide, by decide, by decide⟩
  have hlast : Joined (upTo 4 (lastListed (listed 2 [⟨1, 2, 5⟩, ⟨2, 3, 4⟩, ⟨2, 3, 1⟩]))) 1 2 :=
    @Joined.of_mem _ ⟨1, 2, 1⟩ _ (by decide)
  refine ⟨prim, kruskal, hprim, hkruskal,
    hagree.mpr (.inr (forall_mem_cons.mpr ⟨?_, forall_mem_cons.mpr ⟨?_, ?_⟩⟩))⟩
  · exact .of_mem (by decide)
  · exact hlast
  · exact forall_mem_singleton.mpr (.of_mem (by decide))

/-- The edge of length 1 between the vertices 1 and 2 is listed again with length 9: the Prim
    program takes another way. -/
theorem reports_differ :
    Admitted 3 [⟨1, 2, 1⟩, ⟨1, 2, 9⟩, ⟨2, 3, 2⟩, ⟨1, 3, 3⟩, ⟨3, 4, 1⟩] ∧
      Prim.run 3 [⟨1, 2, 1⟩, ⟨1, 2, 9⟩, ⟨2, 3, 2⟩, ⟨1, 3, 3⟩, ⟨3, 4, 1⟩] = some (.ok 6) ∧
      Kruskal.run (fun _ => false) 3 [⟨1, 2, 1⟩, ⟨1, 2, 9⟩, ⟨2, 3, 2⟩, ⟨1, 3, 3⟩, ⟨3, 4, 1⟩] = some (.ok 4) ∧
      ¬ Agree (.ok 6) (.ok 4) := by
  refine ⟨⟨by decide, by decide, by decide⟩, by decide +kernel, by decide +kernel, ?_⟩
  rintro (⟨h, -⟩ | ⟨total, h₁, h₂⟩)
  · cases h
  · cases h₁
    cases h₂

end NsuLabs.SpanningTree
