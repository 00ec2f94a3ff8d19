/-
Module: NsuLabs.HashMap.Proofs.FailedAllocations
Purpose: What is left of a tree and of a hash map when an allocation fails, and what `resize` keeps.
Trusted boundary: none
Main exports: resize_unchanged_iff, insert_consistent_iff, keptByResize_iff
-/
import NsuLabs.HashMap.Proofs.MapRefinement

namespace NsuLabs.HashMap

open Lib AVLNode List
open Option hiding toList
universe u

section

variable {α : Type u} {δ : Type u}
  {malloc : Bool} {found : Option α} {x y : α} {l r t' : AVLNode α} {depth : Int} {tree : AVLTree α}
  {cmp : α → α → Int} {e : HashMapEntry δ}

/-! ### The tree under any comparator and any allocation -/

/-- What `insertImpl` makes of `t`, where `found` is the element that the search for `x` ends at. -/
structure InsertedInto (malloc : Bool) (found : Option α) (x : α) (t t' : AVLNode α) : Prop where
  exact : DepthsExact t'
  length : t'.toList.length = t.toList.length + if found.isNone && malloc then 1 else 0
  mem : ∀ y ∈ t'.toList, y = x ∨ y ∈ t.toList
  kept : found = none → malloc = false → t'.toList = t.toList

/-- The insertion into a subtree, seen from the tree. -/
theorem InsertedInto.within {s s' t : AVLNode α} (h : InsertedInto malloc found x s s') (as bs : List α)
    (hexact : DepthsExact t') (ht : t.toList = as ++ (s.toList ++ bs))
    (ht' : t'.toList = as ++ (s'.toList ++ bs)) : InsertedInto malloc found x t t' where
  exact := hexact
  length := by
    have := h.length
    simp only [ht, ht', length_append]
    omega
  mem := by
    intro z hz
    simp only [ht, ht', mem_append] at hz ⊢
    rcases hz with hz | hz | hz
    · exact .inr (.inl hz)
    · exact (h.mem z hz).imp_right fun hs => .inr (.inl hs)
    · exact .inr (.inr (.inr hz))
  kept := fun hfound hfail => by rw [ht', h.kept hfound hfail, ht]

/-- The flag says that the search found nothing; whether the node was allocated does not enter it. -/
theorem insertImpl_any (cmp : α → α → Int) (malloc : Bool) (x : α) (t : AVLNode α) (hexact : DepthsExact t) :
    ∃ t', insertImpl cmp malloc x t = some (t', (findFrom cmp x t).isNone) ∧
      InsertedInto malloc (findFrom cmp x t) x t t' := by
  induction t with
  | null =>
    refine ⟨createNode malloc x, rfl, ?_⟩
    cases malloc with
    | false => exact ⟨trivial, rfl, fun y hy => .inr hy, fun _ _ => rfl⟩
    | true => exact ⟨⟨rfl, trivial, trivial⟩, rfl, fun y hy => .inl (by simpa [createNode, toList] using hy),
        fun _ h => absurd h (by decide)⟩
  | node y l r depth ihl ihr =>
    obtain ⟨hdepth, hl, hr⟩ := hexact
    rw [insertImpl, findFrom]
    split_ifs with hlt hgt
    · obtain ⟨l', hrun, hins⟩ := ihl hl
      obtain ⟨t', hrestore, ht', hlist⟩ := restore_toList y depth hins.exact hr
      exact ⟨t', by simp [hrun, hrestore], hins.within [] (y :: r.toList) ht' rfl hlist⟩
    · obtain ⟨r', hrun, hins⟩ := ihr hr
      obtain ⟨t', hrestore, ht', hlist⟩ := restore_toList y depth hl hins.exact
      exact ⟨t', by simp [hrun, hrestore],
        hins.within (l.toList ++ [y]) [] ht' (by simp [toList]) (by simp [hlist])⟩
    · refine ⟨node x l r depth, rfl, ⟨hdepth, hl, hr⟩, by simp [toList], ?_, fun h => absurd h (by simp)⟩
      intro z hz
      simp only [toList, mem_append, mem_cons] at hz ⊢
      tauto

theorem depthsExact_setMinimalNode (x : α) (t : AVLNode α) :
    (setMinimalNode x t).height = t.height ∧ (DepthsExact t → DepthsExact (setMinimalNode x t)) := by
  fun_induction setMinimalNode x t with
  | case1 => exact ⟨rfl, id⟩
  | case2 y r depth => exact ⟨rfl, id⟩
  | case3 y l r depth hne ih =>
    refine ⟨by rw [height, height, ih.1], ?_⟩
    rintro ⟨hdepth, hl, hr⟩
    exact ⟨by rw [ih.1]; exact hdepth, ih.2 hl, hr⟩

/-- A removal never dereferences a null pointer, and what is left in the tree was in it. -/
theorem removeImpl_any (cmp : α → α → Int) (x : α) (t : AVLNode α) (hexact : DepthsExact t) :
    ∃ t' removed, removeImpl cmp x t = some (t', removed) ∧ DepthsExact t' ∧ ∀ y ∈ t'.toList,
      y ∈ t.toList := by
  induction hn : t.nodeCount using Nat.strong_induction_on generalizing x t with
  | _ n ih =>
    subst hn
    cases t with
    | null => exact ⟨null, none, by rw [removeImpl], trivial, fun y hy => hy⟩
    | node y l r depth =>
      obtain ⟨hdepth, hl, hr⟩ := hexact
      rcases Int.lt_trichotomy (cmp x y) 0 with hlt | hzero | hgt
      · obtain ⟨l', removed, hrun, hl', hmem⟩ := ih l.nodeCount (by rw [nodeCount]; omega) x l hl rfl
        obtain ⟨t', hrestore, ht', hlist⟩ := restore_toList y depth hl' hr
        refine ⟨t', removed, by rw [removeImpl_lt hlt, hrun]; simp [hrestore], ht', ?_⟩
        intro z hz
        simp only [hlist, toList, mem_append] at hz ⊢
        exact hz.imp_left (hmem z)
      · rcases l with _ | ⟨d, ll, lr, depth'⟩ <;> rcases r with _ | ⟨d', rl, rr, depth''⟩
        · exact ⟨null, some y, by simp [removeImpl, hzero], trivial, fun z hz => by simp [toList] at hz⟩
        · obtain ⟨t', hrestore, ht', hlist⟩ := restore_toList d' depth'' hr.2.1 hr.2.2
          refine ⟨t', some y, by simp [removeImpl, hzero, hrestore], ht', ?_⟩
          intro z hz
          rw [hlist] at hz
          simp only [toList, nil_append, mem_cons]
          exact .inr hz
        · obtain ⟨t', hrestore, ht', hlist⟩ := restore_toList d depth' hl.2.1 hl.2.2
          refine ⟨t', some y, by simp [removeImpl, hzero, hrestore], ht', ?_⟩
          intro z hz
          rw [hlist] at hz
          exact mem_append_left _ hz
        · -- the successor goes up, the removed data goes to the leftmost node and is removed there
          have hset := (depthsExact_setMinimalNode y (node d' rl rr depth'')).2 hr
          obtain ⟨r', removed, hrun, hr', hmem⟩ :=
            ih _ (by rw [nodeCount_setMinimalNode]; simp only [nodeCount]; omega) y _ hset rfl
          obtain ⟨s, hs⟩ : ∃ s, findMinimalNode (node d' rl rr depth'') = some s := by
            rw [findMinimalNode_eq_head?, ← isSome_iff_exists, isSome_head?]
            simp [toList]
          have hsmem : s ∈ (node d' rl rr depth'').toList := by
            rw [findMinimalNode_eq_head?] at hs
            exact mem_of_mem_head? hs
          obtain ⟨t', hrestore, ht', hlist⟩ := restore_toList s depth hl hr'
          refine ⟨t', removed, by simp [removeImpl, hzero, hs, hrun, hrestore], ht', ?_⟩
          intro z hz
          rw [hlist] at hz
          rw [toList, mem_append, mem_cons]
          rcases mem_append.1 hz with hz | hz
          · exact .inl hz
          · rcases mem_cons.1 hz with rfl | hz
            · exact .inr (.inr hsmem)
            · exact .inr (mem_setMinimalNode (hmem z hz))
      · obtain ⟨r', removed, hrun, hr', hmem⟩ := ih r.nodeCount (by rw [nodeCount]; omega) x r hr rfl
        obtain ⟨t', hrestore, ht', hlist⟩ := restore_toList y depth hl hr'
        refine ⟨t', removed, by rw [removeImpl_gt hgt, hrun]; simp [hrestore], ht', ?_⟩
        intro z hz
        simp only [hlist, toList, mem_append, mem_cons] at hz ⊢
        exact hz.imp_right (Or.imp_right (hmem z))

/-- The trees that calls of the interface lead to, whatever the allocations do. -/
inductive AvlReachable (cmp : α → α → Int) : AVLTree α → Prop where
  | create : AvlReachable cmp avlCreateTree
  | insert {tree tree' : AVLTree α} {malloc inserted : Bool} {x : α} (before : AvlReachable cmp tree)
      (run : avlInsert cmp malloc tree x = some (tree', inserted)) : AvlReachable cmp tree'
  | remove {tree tree' : AVLTree α} {removed : Option α} {x : α} (before : AvlReachable cmp tree)
      (run : avlRemove cmp tree x = some (tree', removed)) : AvlReachable cmp tree'

theorem avlInsert_any (cmp : α → α → Int) (hexact : DepthsExact tree.head) (malloc : Bool) (x : α) :
    ∃ head, avlInsert cmp malloc tree x =
        some (⟨head, if (avlFind cmp tree x).isNone then tree.size + 1 else tree.size⟩,
          (avlFind cmp tree x).isNone) ∧
      InsertedInto malloc (avlFind cmp tree x) x tree.head head := by
  obtain ⟨head, hrun, hins⟩ := insertImpl_any cmp malloc x tree.head hexact
  exact ⟨head, by rw [avlInsert, hrun]; rfl, hins⟩

theorem avlRemove_any (cmp : α → α → Int) (hexact : DepthsExact tree.head) (x : α) :
    ∃ tree' removed, avlRemove cmp tree x = some (tree', removed) ∧ DepthsExact tree'.head ∧
      ∀ y ∈ tree'.head.toList, y ∈ tree.head.toList := by
  obtain ⟨head, removed, hrun, hexact', hmem⟩ := removeImpl_any cmp x tree.head hexact
  exact ⟨⟨head, _⟩, removed, by rw [avlRemove, hrun]; rfl, hexact', hmem⟩

theorem AvlReachable.exact (h : AvlReachable cmp tree) :
    DepthsExact tree.head := by
  induction h with
  | create => trivial
  | @insert tree tree' malloc inserted x _ run ih =>
    obtain ⟨head, hrun, hins⟩ := avlInsert_any cmp ih malloc x
    rw [run] at hrun
    cases hrun
    exact hins.exact
  | @remove tree tree' removed x _ run ih =>
    obtain ⟨tree₁, removed₁, hrun, hexact, -⟩ := avlRemove_any cmp ih x
    rw [run] at hrun
    cases hrun
    exact hexact

/-! ### Entries in the buckets of their hashes -/

/-- An entry as `hm_put` makes it. -/
structure HashMapEntry.Stored (e : HashMapEntry δ) : Prop where
  hashed : e.Hashed
  data : e.data.isSome

theorem stored_entryOf (key : List UInt8) (data : δ) : (entryOf key data).Stored := ⟨rfl, rfl⟩

/-- Every bucket exists, and each entry is in the bucket of its hash. -/
structure PlacedIn (capacity : Nat) (buckets : List (AVLTree (HashMapEntry δ))) : Prop where
  nonempty : 0 < capacity
  length : buckets.length = capacity
  placed : ∀ {i : Nat} {tree}, buckets[i]? = some tree →
    ∀ e ∈ tree.head.toList, e.Stored ∧ e.hash.toNat % capacity = i

/-- Buckets with their entries in place and with exact depths. -/
structure BucketsKept (capacity : Nat) (buckets : List (AVLTree (HashMapEntry δ))) : Prop
    extends PlacedIn capacity buckets where
  exact : ∀ tree ∈ buckets, DepthsExact tree.head

section Buckets

variable {capacity : Nat} {buckets : List (AVLTree (HashMapEntry δ))}

theorem PlacedIn.bucket (h : PlacedIn capacity buckets) (hash : UInt64) :
    ∃ tree, buckets[hash.toNat % capacity]? = some tree :=
  ⟨_, getElem?_eq_getElem (by rw [h.length]; exact Nat.mod_lt _ h.nonempty)⟩

theorem BucketsKept.replicate (hpos : 0 < capacity) :
    BucketsKept capacity (List.replicate capacity (avlCreateTree : AVLTree (HashMapEntry δ))) := by
  refine ⟨⟨hpos, length_replicate, ?_⟩, ?_⟩
  · intro i tree htree e he
    obtain ⟨-, rfl⟩ := by simpa [getElem?_replicate] using htree
    exact absurd he (by simp [avlCreateTree, toList])
  · intro tree htree
    obtain rfl := eq_of_mem_replicate htree
    trivial

/-- One bucket replaced by a tree whose entries belong there. -/
theorem BucketsKept.set (h : BucketsKept capacity buckets) (hash : UInt64) {tree : AVLTree (HashMapEntry δ)}
    (hexact : DepthsExact tree.head)
    (hmem : ∀ e ∈ tree.head.toList, e.Stored ∧ e.hash.toNat % capacity = hash.toNat % capacity) :
    BucketsKept capacity (buckets.set (hash.toNat % capacity) tree) := by
  refine ⟨⟨h.nonempty, by rw [length_set, h.length], ?_⟩, ?_⟩
  · intro i tree' htree' e he
    rw [getElem?_set] at htree'
    split_ifs at htree' with hi hlen
    · cases htree'
      rw [← hi]
      exact hmem e he
    · exact h.placed htree' e he
  · intro tree' htree'
    rcases mem_or_eq_of_mem_set htree' with hold | rfl
    · exact h.exact tree' hold
    · exact hexact

/-- `avl_insert` into the bucket of an entry, whatever the allocation does. -/
theorem BucketsKept.insert (h : BucketsKept capacity buckets) (malloc : Bool) (he : e.Stored) :
    ∃ tree tree', buckets[e.hash.toNat % capacity]? = some tree ∧
      avlInsert entryCompare malloc tree e = some (tree', (avlFind entryCompare tree e).isNone) ∧
      BucketsKept capacity (buckets.set (e.hash.toNat % capacity) tree') := by
  obtain ⟨tree, htree⟩ := h.bucket e.hash
  obtain ⟨head, hrun, hins⟩ :=
    avlInsert_any entryCompare (h.exact tree (mem_of_getElem? htree)) malloc e
  refine ⟨tree, _, htree, hrun, h.set e.hash hins.exact ?_⟩
  intro y hy
  rcases hins.mem y hy with rfl | hold
  · exact ⟨he, rfl⟩
  · exact h.placed htree y hold

end Buckets

/-! ### The maps that calls lead to -/

/-- All entries, bucket by bucket, in the order in which `resize` visits them. -/
def storedEntries (hm : HashMapT δ) : List (HashMapEntry δ) :=
  hm.buckets.flatMap fun tree => tree.head.toList

/-- `hm_put` from the insertion of the allocated entry to the comparison with the threshold. -/
def hmPutEntry (node : Bool) (hm : HashMapT δ) (key : List UInt8) (data : δ) : Option (HashMapT δ × Bool) :=
  do
  let bucketIndex := (djb2Hash key).toNat % hm.capacity
  let bucket ← hm.buckets[bucketIndex]?
  let (bucket, inserted) ← avlInsert entryCompare node bucket (entryOf key data)
  some ({ hm with
    buckets := hm.buckets.set bucketIndex bucket
    size := if inserted then hm.size + 1 else hm.size }, inserted)

theorem hmPut_eq (mallocs : Mallocs) (hm : HashMapT δ) (key : List UInt8) (data : δ) :
    hmPut mallocs hm (some key) (some data) =
      if mallocs.entry then (hmPutEntry mallocs.node hm key data).bind fun p =>
        if p.2 = true ∧ p.1.threshold ≤ p.1.size then (resize mallocs p.1).map fun hm =>
          (hm, true) else some p
      else some (hm, false) := by
  simp only [hmPut, hmPutEntry, bind_eq_bind]
  refine if_congr Iff.rfl ?_ rfl
  rw [bind_assoc]
  refine congrArg _ (funext fun bucket => ?_)
  rw [bind_assoc]
  refine congrArg₂ Option.bind rfl (funext fun p => ?_)
  obtain ⟨tree, inserted⟩ := p
  cases inserted with
  | false => rfl
  | true =>
    simp only [if_true, true_and, bind_some]
    refine if_congr Iff.rfl ?_ rfl
    rw [map_eq_bind]
    rfl

/-- The maps that calls of the interface lead to, whatever the allocations do, with the maps that
    `hm_put` hands to `resize`. -/
inductive HmReachable : HashMapT δ → Prop where
  | create : HmReachable hmCreate
  | setLoadFactor {hm : HashMapT δ} (before : HmReachable hm) (loadFactor : Rat) :
      HmReachable (hmSetLoadFactor hm loadFactor)
  | put {hm hm' : HashMapT δ} {mallocs : Mallocs} {key : Option (List UInt8)} {data : Option δ}
      {inserted : Bool}
      (before : HmReachable hm) (run : hmPut mallocs hm key data = some (hm', inserted)) : HmReachable hm'
  | resizing {hm hm' : HashMapT δ} {node : Bool} {key : List UInt8} {data : δ}
      (before : HmReachable hm) (run : hmPutEntry node hm key data = some (hm', true))
      (full : hm'.threshold ≤ hm'.size) : HmReachable hm'
  | remove {hm hm' : HashMapT δ} {key : List UInt8} {data : Option δ}
      (before : HmReachable hm) (run : hmRemove hm key = some (hm', data)) : HmReachable hm'

/-- The map that `resize` has made once its capacity and threshold are changed. -/
def doubled (hm : HashMapT δ) : HashMapT δ :=
  calculateThreshold { hm with capacity := hm.capacity * capacityExpandFactor }

/-- The map that `resize` fills. -/
def emptied (hm : HashMapT δ) : HashMapT δ :=
  { doubled hm with buckets := List.replicate (doubled hm).capacity avlCreateTree }

/-- The bucket array and all its trees could be allocated. -/
def newBucketsAllocated (mallocs : Mallocs) (hm : HashMapT δ) : Bool :=
  mallocs.buckets && (List.range (doubled hm).capacity).all mallocs.tree

theorem resize_eq (mallocs : Mallocs) (hm : HashMapT δ) :
    resize mallocs hm =
      if newBucketsAllocated mallocs hm then
        ((storedEntries hm).foldlM (fun context e => entryTransferVisitor mallocs.transfer e context)
          (emptied hm, 0)).map Prod.fst
      else some { hm with threshold := (doubled hm).threshold } := by
  rw [storedEntries, ← foldlM_avlForeach, map_eq_bind]
  rfl

section Invariant

variable {hm : HashMapT δ}

/-- The transfer of entries, whatever the allocations do. -/
theorem transfer_any (malloc : Nat → Bool) (entries : List (HashMapEntry δ))
    (hentries : ∀ e ∈ entries, e.Stored) :
    ∀ (hm : HashMapT δ) (count : Nat), BucketsKept hm.capacity hm.buckets →
      ∃ buckets, entries.foldlM (fun context e => entryTransferVisitor malloc e context) (hm, count) =
          some ({ hm with buckets := buckets }, count + entries.length) ∧
        BucketsKept hm.capacity buckets := by
  induction entries with
  | nil =>
    intro hm count h
    exact ⟨hm.buckets, rfl, h⟩
  | cons e entries ih =>
    intro hm count h
    obtain ⟨tree, tree', htree, hrun, hkept⟩ := h.insert (malloc count) (hentries e (by simp))
    obtain ⟨buckets, hrest, hfinal⟩ := ih (fun e he => hentries e (by simp [he]))
      { hm with buckets := hm.buckets.set (e.hash.toNat % hm.capacity) tree' } (count + 1) hkept
    refine ⟨buckets, ?_, hfinal⟩
    have hvisit : entryTransferVisitor malloc e (hm, count) =
        some ({ hm with buckets := hm.buckets.set (e.hash.toNat % hm.capacity) tree' }, count + 1) := by
      simp only [entryTransferVisitor, htree, bind_eq_bind, bind_some, hrun]
    rw [foldlM_cons, hvisit]
    simpa [Nat.add_assoc, Nat.add_comm 1] using hrest

theorem PlacedIn.stored (h : PlacedIn hm.capacity hm.buckets) (he : e ∈ storedEntries hm) :
    e.Stored := by
  obtain ⟨tree, htree, he⟩ := mem_flatMap.1 he
  obtain ⟨i, hi⟩ := mem_iff_getElem?.1 htree
  exact (h.placed hi e he).1

theorem doubled_pos (h : 0 < hm.capacity) : 0 < (doubled hm).capacity := Nat.mul_pos h (by decide)

/-- With its buckets allocated `resize` fills them, otherwise only the threshold changes. -/
theorem resize_any (mallocs : Mallocs) (h : BucketsKept hm.capacity hm.buckets) :
    ∃ hm', resize mallocs hm = some hm' ∧ BucketsKept hm'.capacity hm'.buckets ∧
      hm'.capacity = if newBucketsAllocated mallocs hm then (doubled hm).capacity else hm.capacity := by
  rw [resize_eq]
  split_ifs
  · obtain ⟨buckets, hrun, hkept⟩ := transfer_any mallocs.transfer (storedEntries hm)
      (fun e he => h.stored he) (emptied hm) 0 (BucketsKept.replicate (doubled_pos h.nonempty))
    exact ⟨{ emptied hm with buckets := buckets }, by rw [hrun]; rfl, hkept, rfl⟩
  · exact ⟨{ hm with threshold := (doubled hm).threshold }, rfl, h, rfl⟩

theorem hmPutEntry_any (node : Bool) (h : BucketsKept hm.capacity hm.buckets) (key : List UInt8) (data : δ) :
    ∃ bucket hm', hm.buckets[(djb2Hash key).toNat % hm.capacity]? = some bucket ∧
      hmPutEntry node hm key data = some (hm', (avlFind entryCompare bucket (entryOf key data)).isNone) ∧
      BucketsKept hm'.capacity hm'.buckets := by
  obtain ⟨tree, tree', htree, hrun, hkept⟩ := h.insert node (stored_entryOf key data)
  replace htree : hm.buckets[(djb2Hash key).toNat % hm.capacity]? = some tree := htree
  refine ⟨tree, { hm with
    buckets := hm.buckets.set ((djb2Hash key).toNat % hm.capacity) tree'
    size := if (avlFind entryCompare tree (entryOf key data)).isNone then hm.size + 1 else hm.size },
    htree, ?_, hkept⟩
  rw [hmPutEntry]
  simp only [htree, bind_eq_bind, bind_some, hrun]

theorem hmPut_any (mallocs : Mallocs) (h : BucketsKept hm.capacity hm.buckets) (key : Option (List UInt8))
    (data : Option δ) :
    ∃ hm' inserted, hmPut mallocs hm key data = some (hm', inserted) ∧
      BucketsKept hm'.capacity hm'.buckets := by
  rcases key with _ | key
  · exact ⟨hm, false, rfl, h⟩
  rcases data with _ | data
  · exact ⟨hm, false, rfl, h⟩
  rw [hmPut_eq]
  split_ifs
  · obtain ⟨bucket, hm₁, -, hentry, hkept⟩ := hmPutEntry_any mallocs.node h key data
    rw [hentry, bind_some]
    split_ifs
    · obtain ⟨hm', hresize, hkept', -⟩ := resize_any mallocs hkept
      exact ⟨hm', true, by rw [hresize]; rfl, hkept'⟩
    · exact ⟨hm₁, _, rfl, hkept⟩
  · exact ⟨hm, false, rfl, h⟩

theorem hmRemove_any (h : BucketsKept hm.capacity hm.buckets) (key : List UInt8) :
    ∃ hm' data, hmRemove hm key = some (hm', data) ∧ BucketsKept hm'.capacity hm'.buckets := by
  obtain ⟨tree, htree⟩ := h.bucket (djb2Hash key)
  obtain ⟨tree', removed, hrun, hexact, hmem⟩ :=
    avlRemove_any entryCompare (h.exact tree (mem_of_getElem? htree)) (entryToFind key)
  have hkept := h.set (djb2Hash key) hexact fun e he => h.placed htree e (hmem e he)
  rw [hmRemove]
  simp only [htree, bind_eq_bind, bind_some, hrun]
  cases removed with
  | none | some e => exact ⟨_, _, rfl, hkept⟩

/-- No call of the interface crashes, and none takes an entry out of the bucket of its hash. -/
theorem HmReachable.kept (h : HmReachable hm) : BucketsKept hm.capacity hm.buckets := by
  induction h with
  | create => exact BucketsKept.replicate (show 0 < startCapacity by decide)
  | setLoadFactor _ loadFactor ih => exact ih
  | @put hm hm' mallocs key data inserted _ run ih =>
    obtain ⟨hm₁, inserted₁, hrun, hkept⟩ := hmPut_any mallocs ih key data
    rw [run] at hrun
    cases hrun
    exact hkept
  | @resizing hm hm' node key data _ run _ ih =>
    obtain ⟨bucket, hm₁, -, hrun, hkept⟩ := hmPutEntry_any node ih key data
    rw [run, some.injEq, Prod.mk.injEq] at hrun
    rw [hrun.1]
    exact hkept
  | @remove hm hm' key data _ run ih =>
    obtain ⟨hm₁, data₁, hrun, hkept⟩ := hmRemove_any ih key
    rw [run] at hrun
    cases hrun
    exact hkept

end Invariant

/-! ### A failed resize -/

/-- The node of some transferred entry cannot be allocated. -/
def TransferNodeFails (malloc : Nat → Bool) (hm : HashMapT δ) : Prop :=
  ∃ before e after context bucket, storedEntries hm = before ++ e :: after ∧
    before.foldlM (fun context e => entryTransferVisitor malloc e context) (emptied hm, 0) = some context ∧
    context.1.buckets[e.hash.toNat % context.1.capacity]? = some bucket ∧
    avlFind entryCompare bucket e = none ∧ malloc context.2 = false

/-- Some allocation inside `resize` fails. -/
def ResizeAllocationFails (mallocs : Mallocs) (hm : HashMapT δ) : Prop :=
  newBucketsAllocated mallocs hm = false ∨ TransferNodeFails mallocs.transfer hm

/-- A `resize` in which an allocation fails leaves the map as it was exactly if the failure comes
    before the transfer and the threshold already was the one of the doubled capacity, as after an
    earlier failure. -/
theorem resize_unchanged_iff {hm : HashMapT δ} (hreach : HmReachable hm) (mallocs : Mallocs) :
    (ResizeAllocationFails mallocs hm → resize mallocs hm = some hm) ↔
      (ResizeAllocationFails mallocs hm →
        newBucketsAllocated mallocs hm = false ∧ hm.threshold = (doubled hm).threshold) := by
  refine imp_congr_right fun _ => ?_
  cases hnew : newBucketsAllocated mallocs hm with
  | true =>
    refine iff_of_false ?_ (by simp)
    intro hsame
    obtain ⟨hm', hrun, -, hcapacity⟩ := resize_any mallocs hreach.kept
    rw [hsame] at hrun
    cases hrun
    rw [hnew, if_pos rfl] at hcapacity
    have hpos := hreach.kept.nonempty
    have hdouble : (doubled hm).capacity = hm.capacity * 2 := rfl
    omega
  | false =>
    rw [resize_eq, hnew, if_neg (by simp), some.injEq]
    constructor
    · intro hsame
      exact ⟨rfl, (congrArg HashMapT.threshold hsame).symm⟩
    · rintro ⟨-, hthreshold⟩
      rw [← hthreshold]

theorem HmReachable.run (ops : List (HmOp δ)) :
    ∀ {hm hm' : HashMapT δ} {results : List (HmResult δ × Nat)}, HmReachable hm →
      hmRun hm ops = some (hm', results) → HmReachable hm' := by
  induction ops with
  | nil =>
    intro hm hm' results h hrun
    cases hrun
    exact h
  | cons op ops ih =>
    intro hm hm' results h hrun
    simp only [hmRun, bind_eq_bind, bind_eq_some_iff] at hrun
    obtain ⟨⟨hm₁, result⟩, hstep, ⟨hm₂, rest⟩, hrest, heq⟩ := hrun
    cases heq
    refine ih ?_ hrest
    cases op with
    | put key data =>
      simp only [hmStep, bind_eq_bind, bind_eq_some_iff] at hstep
      obtain ⟨⟨hm₃, inserted⟩, hput, heq⟩ := hstep
      cases heq
      exact h.put hput
    | remove key =>
      simp only [hmStep, bind_eq_bind, bind_eq_some_iff] at hstep
      obtain ⟨⟨hm₃, data⟩, hremove, heq⟩ := hstep
      cases heq
      exact h.remove hremove
    | get key =>
      simp only [hmStep, bind_eq_bind, bind_eq_some_iff] at hstep
      obtain ⟨data, -, heq⟩ := hstep
      cases heq
      exact h

/-- A fresh map after six puts; the next one reaches the threshold. -/
def sixEntries : Option (HashMapT Nat × List (HmResult Nat × Nat)) :=
  hmRun hmCreate [.put [1] 1, .put [2] 2, .put [3] 3, .put [4] 4, .put [5] 5, .put [6] 6]

/-- No memory for a bucket array. -/
def noBuckets : Mallocs := { Mallocs.succeed with buckets := false }

/-- The capacity, the threshold and the threshold that `resize` sets. -/
def thresholds (hm : HashMapT δ) : Nat × Nat × Nat := (hm.capacity, hm.threshold, (doubled hm).threshold)

theorem noBuckets_fails (hm : HashMapT δ) : ResizeAllocationFails noBuckets hm := .inl rfl

/-- With the seventh entry in its bucket `resize` is called; without memory for the buckets it
    leaves ten buckets and the threshold of twenty. -/
theorem resize_not_unchanged :
    ∃ hm : HashMapT Nat, HmReachable hm ∧ thresholds hm = (10, 7, 15) ∧
      ¬ (ResizeAllocationFails noBuckets hm → resize noBuckets hm = some hm) := by
  have hrun : ((sixEntries.bind fun p => hmPutEntry true p.1 [7] 7).map fun p =>
      (thresholds p.1, p.2, decide (p.1.threshold ≤ p.1.size))) = some ((10, 7, 15), true, true) := by
    decide +kernel
  obtain ⟨⟨hm, inserted⟩, hseven, hvalues⟩ := map_eq_some_iff.1 hrun
  simp only [Prod.mk.injEq, decide_eq_true_eq] at hvalues
  obtain ⟨hthresholds, rfl, hfull⟩ := hvalues
  obtain ⟨⟨hm₁, results⟩, hsix, hseven⟩ := bind_eq_some_iff.1 hseven
  refine ⟨hm, (HmReachable.create.run _ hsix).resizing hseven hfull, hthresholds, ?_⟩
  intro hsame
  have hsame := hsame (noBuckets_fails hm)
  rw [resize_eq, show newBucketsAllocated noBuckets hm = false from rfl, if_neg (by decide),
    some.injEq] at hsame
  have hequal := congrArg HashMapT.threshold hsame
  simp only [thresholds, Prod.mk.injEq] at hthresholds
  simp only [hthresholds] at hequal
  omega

/-- After that put the threshold is already the one of twenty buckets: the next failure changes
    nothing. -/
theorem resize_unchanged_seven :
    ∃ hm : HashMapT Nat, HmReachable hm ∧ thresholds hm = (10, 15, 15) ∧
      (ResizeAllocationFails noBuckets hm → resize noBuckets hm = some hm) := by
  have hrun : ((sixEntries.bind fun p => hmPut noBuckets p.1 (some [7]) (some 7)).map fun p =>
      thresholds p.1) = some (10, 15, 15) := by
    decide +kernel
  obtain ⟨⟨hm, inserted⟩, hseven, hvalues⟩ := map_eq_some_iff.1 hrun
  obtain ⟨⟨hm₁, results⟩, hsix, hseven⟩ := bind_eq_some_iff.1 hseven
  have hreach := (HmReachable.create.run _ hsix).put hseven
  refine ⟨hm, hreach, hvalues, (resize_unchanged_iff hreach noBuckets).2 ?_⟩
  intro _
  simp only [thresholds, Prod.mk.injEq] at hvalues
  exact ⟨rfl, by rw [hvalues.2.1, hvalues.2.2]⟩

/-! ### A node that was not allocated -/

/-- `avl_insert` keeps the size equal to the number of nodes, and when the node it needs cannot be
    allocated it returns false and leaves the elements and the size as they were. -/
def InsertConsistent (cmp : α → α → Int) (malloc : Bool) (tree : AVLTree α) (x : α) : Prop :=
  ∃ tree' inserted, avlInsert cmp malloc tree x = some (tree', inserted) ∧
    (tree.size = tree.head.nodeCount → tree'.size = tree'.head.nodeCount) ∧
    (avlFind cmp tree x = none → malloc = false →
      inserted = false ∧ tree'.head.toList = tree.head.toList ∧ tree'.size = tree.size)

/-- The entry of `hm_put` was allocated, its tree node is needed and was not. -/
def PutNodeFails (mallocs : Mallocs) (hm : HashMapT δ) (key : List UInt8) (data : δ) : Prop :=
  mallocs.entry = true ∧ mallocs.node = false ∧
    ∃ bucket, hm.buckets[(djb2Hash key).toNat % hm.capacity]? = some bucket ∧
      avlFind entryCompare bucket (entryOf key data) = none

/-- `hm_put` without its tree node returns false and leaves the size as it was. -/
def PutConsistent (mallocs : Mallocs) (hm : HashMapT δ) (key : List UInt8) (data : δ) : Prop :=
  PutNodeFails mallocs hm key data →
    ∃ hm', hmPut mallocs hm (some key) (some data) = some (hm', false) ∧ hm'.size = hm.size

theorem insertConsistent_iff (hexact : DepthsExact tree.head) (malloc : Bool) (x : α) :
    InsertConsistent cmp malloc tree x ↔ malloc = true ∨ avlFind cmp tree x ≠ none := by
  obtain ⟨head, hrun, hins⟩ := avlInsert_any cmp hexact malloc x
  have hlength := hins.length
  rw [length_toList, length_toList] at hlength
  constructor
  · rintro ⟨tree', inserted, hrun', -, hfail⟩
    rw [hrun'] at hrun
    cases hrun
    by_contra hneither
    rw [not_or, not_not] at hneither
    have hflag := (hfail hneither.2 (Bool.eq_false_iff.2 hneither.1)).1
    rw [hneither.2] at hflag
    exact absurd hflag (by simp)
  · intro hallocated
    refine ⟨_, _, hrun, ?_, ?_⟩
    · intro hsize
      dsimp only
      rw [hlength, hsize]
      rcases hallocated with rfl | hfound
      · cases avlFind cmp tree x <;> rfl
      · obtain ⟨y, hy⟩ := ne_none_iff_exists'.1 hfound
        rw [hy]
        rfl
    · intro hnone hfail
      rcases hallocated with htrue | hfound
      · exact absurd (htrue.symm.trans hfail) (by decide)
      · exact absurd hnone hfound

/-- Without its tree node `hm_put` returns true, if it returns. -/
theorem hmPut_node_fails {hm hm' : HashMapT δ} (hreach : HmReachable hm) {mallocs : Mallocs}
    {key : List UInt8} {data : δ} {inserted : Bool} (hfail : PutNodeFails mallocs hm key data)
    (hrun : hmPut mallocs hm (some key) (some data) = some (hm', inserted)) : inserted = true := by
  obtain ⟨hentry, -, bucket, hbucket, hfind⟩ := hfail
  obtain ⟨bucket', hm₁, hbucket', hput, -⟩ := hmPutEntry_any mallocs.node hreach.kept key data
  rw [hbucket] at hbucket'
  cases hbucket'
  rw [hmPut_eq, if_pos hentry, hput, hfind, bind_some] at hrun
  split_ifs at hrun
  · obtain ⟨hm₂, -, heq⟩ := map_eq_some_iff.1 hrun
    exact (congrArg Prod.snd heq).symm
  · exact (congrArg Prod.snd (some.inj hrun)).symm

/-- The size, the elements and the answer are consistent exactly if no node that is needed fails to
    be allocated: the flag is raised before the allocation. -/
theorem insert_consistent_iff {cmp : α → α → Int} {tree : AVLTree α} (htree : AvlReachable cmp tree)
    (malloc : Bool)
    (x : α) {hm : HashMapT δ} (hmap : HmReachable hm) (mallocs : Mallocs) (key : List UInt8) (data : δ) :
    InsertConsistent cmp malloc tree x ∧ PutConsistent mallocs hm key data ↔
      (malloc = true ∨ avlFind cmp tree x ≠ none) ∧ ¬ PutNodeFails mallocs hm key data := by
  refine and_congr (insertConsistent_iff htree.exact malloc x) ⟨?_, fun hno hfail => absurd hfail hno⟩
  intro hconsistent hfail
  obtain ⟨hm', hrun, -⟩ := hconsistent hfail
  exact absurd (hmPut_node_fails hmap hfail hrun) (by decide)

/-- A value that the tree holds already, without memory for a node, and a second key of a map. -/
theorem insert_consistent_second :
    ∃ tree hm, avlInsert (fun a b : Int => a - b) true avlCreateTree 5 = some (tree, true) ∧
      (∃ inserted, hmPut Mallocs.succeed (hmCreate : HashMapT Nat) (some [1]) (some 1) =
        some (hm, inserted)) ∧
      InsertConsistent (fun a b : Int => a - b) false tree 5 ∧ PutConsistent Mallocs.succeed hm [2] 2 := by
  have hinsert : avlInsert (fun a b : Int => a - b) true avlCreateTree 5 = some (_, true) := rfl
  obtain ⟨⟨hm, inserted⟩, hput⟩ := isSome_iff_exists.mp
    (by decide +kernel : (hmPut Mallocs.succeed (hmCreate : HashMapT Nat) (some [1]) (some 1)).isSome)
  refine ⟨_, hm, hinsert, ⟨inserted, hput⟩, ?_⟩
  exact (insert_consistent_iff (.insert .create hinsert) false 5 (.put .create hput) Mallocs.succeed
    [2] 2).mpr ⟨.inr (by decide), fun hfail => absurd hfail.2.1 (by decide)⟩

/-- No memory for a tree node. -/
def noNode : Mallocs := { Mallocs.succeed with node := false }

/-- The empty tree counts an element it does not hold, and so does the empty map. -/
theorem insert_not_consistent :
    ¬ InsertConsistent (fun a b : Int => a - b) false avlCreateTree 5 ∧
      ¬ PutConsistent noNode (hmCreate : HashMapT Nat) [1] 1 := by
  constructor
  · rintro ⟨tree', inserted, hrun, -, hfail⟩
    have hflag := (hfail rfl rfl).1
    have hvalue : (avlInsert (fun a b : Int => a - b) false avlCreateTree 5).map Prod.snd = some true := rfl
    rw [hrun, hflag] at hvalue
    exact absurd hvalue (by simp)
  · intro hconsistent
    have hvalue : ((hmPut noNode (hmCreate : HashMapT Nat) (some [1]) (some 1)).map Prod.snd) =
        some true := by
      decide +kernel
    have hempty : (hmCreate : HashMapT Nat).buckets[(djb2Hash [1]).toNat % startCapacity]? =
        some avlCreateTree := by
      decide +kernel
    obtain ⟨hm', hrun, -⟩ := hconsistent ⟨rfl, rfl, avlCreateTree, hempty, rfl⟩
    rw [hrun] at hvalue
    exact absurd hvalue (by simp)

end

variable {α : Type u} {δ : Type u}
  {cmp : α → α → Int} {x : α} {tree : AVLTree (HashMapEntry δ)} {e : HashMapEntry δ}

/-! ### A tree in which everything is found is a search tree -/

theorem findFrom_mem {y : α} {t : AVLNode α} (h : findFrom cmp x t = some y) :
    y ∈ t.toList ∧ cmp x y = 0 := by
  induction t with
  | null => exact absurd h (by simp [findFrom])
  | node z l r depth ihl ihr =>
    rw [findFrom] at h
    rw [toList, mem_append, mem_cons]
    split_ifs at h with hlt hgt
    · exact (ihl h).imp_left .inl
    · exact (ihr h).imp_left fun hr => .inr (.inr hr)
    · cases h
      exact ⟨.inr (.inl rfl), by omega⟩

/-- The search reads the sought element through the comparator only. -/
theorem findFrom_congr_left {x' : α} (h : ∀ y, cmp x y = cmp x' y) (t : AVLNode α) :
    findFrom cmp x t = findFrom cmp x' t := by
  induction t with
  | null => rfl
  | node y l r depth ihl ihr => rw [findFrom, findFrom, h y, ihl, ihr]

theorem findable_iff_sorted (h : LawfulComparator cmp) (t : AVLNode α)
    (hapart : t.toList.Pairwise fun a b => cmp a b ≠ 0) :
    (∀ x ∈ t.toList, findFrom cmp x t = some x) ↔ StrictlyIncreasing cmp t.toList := by
  constructor
  · intro hfind
    induction t with
    | null => exact List.Pairwise.nil
    | node y l r depth ihl ihr =>
      rw [toList] at hapart
      obtain ⟨hl, hyr, hcross⟩ := pairwise_append.1 hapart
      obtain ⟨hy, hr⟩ := pairwise_cons.1 hyr
      -- nothing equivalent stands on both sides, so each search takes the side of its element
      have hleft : ∀ x ∈ l.toList, cmp x y < 0 ∧ findFrom cmp x l = some x := by
        intro x hx
        have hx' := hfind x (mem_append_left _ hx)
        rw [findFrom] at hx'
        split_ifs at hx' with hlt hgt
        · exact ⟨hlt, hx'⟩
        · exact absurd (h.self x) (hcross x hx x (mem_cons_of_mem _ (findFrom_mem hx').1))
        · exact absurd (show cmp x y = 0 by omega) (hcross x hx y mem_cons_self)
      have hright : ∀ x ∈ r.toList, cmp y x < 0 ∧ findFrom cmp x r = some x := by
        intro x hx
        have hx' := hfind x (mem_append_right _ (mem_cons_of_mem _ hx))
        rw [findFrom] at hx'
        split_ifs at hx' with hlt hgt
        · exact absurd (h.self x) (hcross x (findFrom_mem hx').1 x (mem_cons_of_mem _ hx))
        · exact ⟨(h.swap y x).2 hgt, hx'⟩
        · exact absurd (h.zero_symm (show cmp x y = 0 by omega)) (hy x hx)
      refine pairwise_append.2 ⟨ihl hl fun x hx => (hleft x hx).2, ?_, ?_⟩
      · exact pairwise_cons.2 ⟨fun x hx => (hright x hx).1, ihr hr fun x hx => (hright x hx).2⟩
      · intro a ha b hb
        rcases mem_cons.1 hb with rfl | hb
        · exact (hleft a ha).1
        · exact h.lt_of_lt_of_le (hleft a ha).1 (hright b hb).1.le
  · intro hsorted x hx
    rw [findFrom_eq_lookupBy h x t hsorted, lookupBy_eq_some_iff h hsorted]
    exact ⟨hx, h.self x⟩

/-! ### Resizing -/

/-- Every bucket is a search tree. -/
def SearchTrees (hm : HashMapT δ) : Prop :=
  ∀ tree ∈ hm.buckets, StrictlyIncreasing entryCompare tree.head.toList

instance (hm : HashMapT δ) : Decidable (SearchTrees hm) :=
  inferInstanceAs (Decidable
    (∀ tree ∈ hm.buckets, tree.head.toList.Pairwise fun a b => entryCompare a b < 0))

/-- `resize` ends with the same entries, each in the bucket of its hash under the doubled capacity,
    and `hm_get` gives the answer it gave before for every stored key. -/
def KeptByResize (hm : HashMapT δ) : Prop :=
  ∃ hm', resize Mallocs.succeed hm = some hm' ∧ (storedEntries hm').Perm (storedEntries hm) ∧
    hm'.capacity = hm.capacity * capacityExpandFactor ∧ PlacedIn hm'.capacity hm'.buckets ∧
    ∀ e ∈ storedEntries hm, hmGet hm' e.key = hmGet hm e.key

section Resizing

variable {hm : HashMapT δ} (hplaced : PlacedIn hm.capacity hm.buckets)
  (hdistinct : ((storedEntries hm).map HashMapEntry.hash).Nodup)

theorem mem_storedEntries (htree : tree ∈ hm.buckets) (he : e ∈ tree.head.toList) : e ∈ storedEntries hm :=
  mem_flatMap.2 ⟨tree, htree, he⟩

include hplaced hdistinct

theorem apart_of_distinct : Apart {e | e ∈ storedEntries hm} := by
  have hinj : ∀ e ∈ storedEntries hm, ∀ e' ∈ storedEntries hm, e.hash = e'.hash → e = e' := by
    intro e he e' he' hhash
    exact inj_on_of_nodup_map hdistinct he he' hhash
  refine ⟨fun e he => (hplaced.stored he).hashed, ?_, ?_⟩
  · intro e he e' he' hkey
    refine hinj e he e' he' ?_
    rw [(hplaced.stored he).hashed, (hplaced.stored he').hashed, hkey]
  · rintro e he e' he' ⟨hne, -, hhash⟩
    refine hne (congrArg HashMapEntry.key (hinj e he e' he' ?_))
    rw [(hplaced.stored he).hashed, (hplaced.stored he').hashed, hhash]

/-- Among the stored entries `entryCompare` is the order of the keys. -/
theorem entryCompare_stored {a b : HashMapEntry δ} (ha : a ∈ storedEntries hm) (hb : b ∈ storedEntries hm) :
    entryCompare a b = keyCompare a b :=
  have hs := apart_of_distinct hplaced hdistinct
  entryCompare_eq_keyCompare (hs.hashed a ha) (hs.hashed b hb) (hs.free a ha b hb)

/-- `hm_get` finds a stored entry exactly if the search in its bucket ends at it. -/
theorem hmGet_stored (htree : tree ∈ hm.buckets) (he : e ∈ tree.head.toList) :
    hmGet hm e.key = some e.data ↔ findFrom keyCompare e tree.head = some e := by
  have hstored := hplaced.stored (mem_storedEntries htree he)
  have hs := apart_of_distinct hplaced hdistinct
  obtain ⟨i, hi⟩ := mem_iff_getElem?.1 htree
  have hindex : (djb2Hash e.key).toNat % hm.capacity = i := by
    rw [← hstored.hashed]
    exact (hplaced.placed hi e he).2
  have hsearch : avlFind entryCompare tree (entryToFind e.key) = findFrom keyCompare e tree.head := by
    have hkey : ∀ y, entryCompare (entryToFind e.key) y = entryCompare e y := by
      intro y
      rw [entryCompare, entryCompare, show (entryToFind e.key : HashMapEntry δ).hash = e.hash from
        hstored.hashed.symm]
      rfl
    rw [avlFind, findFrom_congr_left hkey]
    exact findFrom_congr fun y hy =>
      entryCompare_stored hplaced hdistinct (mem_storedEntries htree he) (mem_storedEntries htree hy)
  simp only [hmGet, hindex, hi, bind_eq_bind, bind_some, hsearch]
  cases hfound : findFrom keyCompare e tree.head with
  | none =>
    obtain ⟨data, hdata⟩ := isSome_iff_exists.1 hstored.data
    simp [hdata]
  | some y =>
    obtain ⟨hy, hzero⟩ := findFrom_mem hfound
    obtain rfl : e = y := hs.unique e (mem_storedEntries htree he) y (mem_storedEntries htree hy)
      (keyCompare_eq_zero_iff.1 hzero)
    simp

theorem apart_bucket (htree : tree ∈ hm.buckets) :
    tree.head.toList.Pairwise fun a b => keyCompare a b ≠ 0 := by
  have hsub : tree.head.toList.Sublist (storedEntries hm) := by
    rw [storedEntries, flatMap_def]
    exact sublist_flatten_of_mem (List.mem_map_of_mem htree)
  have hhash : tree.head.toList.Pairwise fun a b => a.hash ≠ b.hash :=
    (pairwise_map.1 hdistinct).sublist hsub
  refine hhash.imp_of_mem ?_
  intro a b ha hb hne hzero
  refine hne ?_
  rw [(hplaced.stored (hsub.subset ha)).hashed, (hplaced.stored (hsub.subset hb)).hashed,
    keyCompare_eq_zero_iff.1 hzero]

/-- The buckets are search trees exactly if every stored entry is found. -/
theorem searchTrees_iff : SearchTrees hm ↔ ∀ e ∈ storedEntries hm, hmGet hm e.key = some e.data := by
  have hbucket : ∀ tree ∈ hm.buckets, StrictlyIncreasing entryCompare tree.head.toList ↔
      ∀ e ∈ tree.head.toList, hmGet hm e.key = some e.data := by
    intro tree htree
    have horder : StrictlyIncreasing entryCompare tree.head.toList ↔
        StrictlyIncreasing keyCompare tree.head.toList := by
      refine Pairwise.iff_of_mem ?_
      intro a b ha hb
      rw [entryCompare_stored hplaced hdistinct (mem_storedEntries htree ha) (mem_storedEntries htree hb)]
    rw [horder, ← findable_iff_sorted keyCompare_lawful _ (apart_bucket hplaced hdistinct htree)]
    exact forall₂_congr fun e he => (hmGet_stored hplaced hdistinct htree he).symm
  constructor
  · intro htrees e he
    obtain ⟨tree, htree, he⟩ := mem_flatMap.1 he
    exact (hbucket tree htree).1 (htrees tree htree) e he
  · intro hfound tree htree
    exact (hbucket tree htree).2 fun e he => hfound e (mem_storedEntries htree he)

omit hplaced hdistinct in
/-- Buckets that hold a set list each of its entries once. -/
theorem Holds.nodup {buckets : List (AVLTree (HashMapEntry δ))} {s : Set (HashMapEntry δ)}
    (h : Holds buckets s) : (buckets.flatMap fun tree => tree.head.toList).Nodup := by
  rw [nodup_flatMap]
  constructor
  · intro tree htree
    obtain ⟨i, hi⟩ := mem_iff_getElem?.1 htree
    refine (h.invariant hi).sorted.imp ?_
    rintro a b hlt rfl
    have := keyCompare_lawful.self a
    omega
  · rw [pairwise_iff_getElem]
    intro i j hi hj hij e hei hej
    have hei := ((h.mem_iff (getElem?_eq_getElem hi) e).1 hei).2
    have hej := ((h.mem_iff (getElem?_eq_getElem hj) e).1 hej).2
    omega

/-- After `resize` every entry is in place and is found. -/
theorem resize_answers :
    ∃ hm', resize Mallocs.succeed hm = some hm' ∧ (storedEntries hm').Perm (storedEntries hm) ∧
      hm'.capacity = hm.capacity * capacityExpandFactor ∧ PlacedIn hm'.capacity hm'.buckets ∧
      ∀ e ∈ storedEntries hm, hmGet hm' e.key = some e.data := by
  have hs := apart_of_distinct hplaced hdistinct
  obtain ⟨hm', hrun, -, hcapacity, hlen, hholds⟩ := resize_transfers hs hplaced.nonempty fun e => Iff.rfl
  have hplaced' : PlacedIn hm'.capacity hm'.buckets := by
    refine ⟨hlen ▸ hholds.nonempty, hlen, ?_⟩
    intro i tree htree e he
    obtain ⟨hmem, hmod⟩ := (hholds.mem_iff htree e).1 he
    exact ⟨hplaced.stored hmem, hlen ▸ hmod⟩
  have hmem : ∀ e, e ∈ storedEntries hm' ↔ e ∈ storedEntries hm := hholds.mem_entries
  have hperm : (storedEntries hm').Perm (storedEntries hm) :=
    (perm_ext_iff_of_nodup hholds.nodup (Nodup.of_map _ hdistinct)).2 hmem
  refine ⟨hm', hrun, hperm, hcapacity, hplaced', ?_⟩
  intro e he
  have hdistinct' : ((storedEntries hm').map HashMapEntry.hash).Nodup := (hperm.map _).nodup_iff.2 hdistinct
  refine (searchTrees_iff hplaced' hdistinct').1 ?_ e ((hmem e).2 he)
  intro tree htree
  obtain ⟨i, hi⟩ := mem_iff_getElem?.1 htree
  refine (hholds.invariant hi).sorted.imp_of_mem ?_
  intro a b ha hb hlt
  rw [entryCompare_stored hplaced' hdistinct' (mem_storedEntries htree ha) (mem_storedEntries htree hb)]
  exact hlt

/-- On a map with different hashes, each entry in the bucket of its hash, `resize` keeps the
    entries, their places and the answers exactly if the buckets were search trees. -/
theorem keptByResize_iff : KeptByResize hm ↔ SearchTrees hm := by
  obtain ⟨hm', hrun, hperm, hcapacity, hplaced', hget⟩ := resize_answers hplaced hdistinct
  rw [searchTrees_iff hplaced hdistinct]
  constructor
  · rintro ⟨hm₁, hrun₁, -, -, -, hsame⟩ e he
    rw [hrun] at hrun₁
    cases hrun₁
    rw [← hsame e he, hget e he]
  · intro hbefore
    refine ⟨hm', hrun, hperm, hcapacity, hplaced', ?_⟩
    intro e he
    rw [hget e he, hbefore e he]

end Resizing

/-- Two entries of one bucket in the order of their keys. -/
theorem keptByResize_pair :
    ∃ hm results, hmRun hmCreate [.put [1] 1, .put [11] (2 : Nat)] = some (hm, results) ∧
      KeptByResize hm := by
  have hvalues : ((hmRun hmCreate [.put [1] 1, .put [11] (2 : Nat)]).map fun p =>
      (decide ((storedEntries p.1).map HashMapEntry.hash).Nodup, decide (SearchTrees p.1))) =
      some (true, true) := by
    decide +kernel
  obtain ⟨⟨hm, results⟩, hrun, hvalue⟩ := map_eq_some_iff.1 hvalues
  simp only [Prod.mk.injEq, decide_eq_true_eq] at hvalue
  have hplaced := (HmReachable.create.run _ hrun).kept.toPlacedIn
  exact ⟨hm, results, hrun, (keptByResize_iff hplaced hvalue.1).2 hvalue.2⟩

/-- `"Ab"` and `"BA"` have one hash and `"Al"` is between them in the same bucket. The put of `"BA"`
    takes the place of `"Ab"` above `"Al"`, which `hm_get` then misses until `resize` moves it. -/
theorem not_keptByResize_collision :
    ∃ hm results, hmRun hmCreate [.put [65, 98] 1, .put [65, 108] 2, .put [66, 65] (3 : Nat)] =
      some (hm, results) ∧
      PlacedIn hm.capacity hm.buckets ∧ ((storedEntries hm).map HashMapEntry.hash).Nodup ∧
        ¬ KeptByResize hm := by
  have hvalues : ((hmRun hmCreate [.put [65, 98] 1, .put [65, 108] 2, .put [66, 65] (3 : Nat)]).map fun p =>
      (decide ((storedEntries p.1).map HashMapEntry.hash).Nodup,
        decide (entryOf [65, 108] 2 ∈ storedEntries p.1), hmGet p.1 [65, 108])) =
      some (true, true, some none) := by
    decide +kernel
  obtain ⟨⟨hm, results⟩, hrun, hvalue⟩ := map_eq_some_iff.1 hvalues
  simp only [Prod.mk.injEq, decide_eq_true_eq] at hvalue
  obtain ⟨hdistinct, hmem, hget⟩ := hvalue
  have hplaced := (HmReachable.create.run _ hrun).kept.toPlacedIn
  refine ⟨hm, results, hrun, hplaced, hdistinct, ?_⟩
  rintro ⟨hm', hresize, -, -, -, hsame⟩
  obtain ⟨hm₁, hresize₁, -, -, -, hget₁⟩ := resize_answers hplaced hdistinct
  rw [hresize] at hresize₁
  cases hresize₁
  have hafter : some (some 2) = hmGet hm [65, 108] := (hget₁ _ hmem).symm.trans (hsame _ hmem)
  rw [hget] at hafter
  exact absurd hafter (by decide)

end NsuLabs.HashMap
