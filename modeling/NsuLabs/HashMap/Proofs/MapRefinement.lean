/-
Module: NsuLabs.HashMap.Proofs.MapRefinement
Purpose: The hash map against a finite map from byte strings to data.
Trusted boundary: none
Main exports: hmRun_refines_map
-/
import NsuLabs.HashMap.Proofs.AvlOrder

namespace NsuLabs.HashMap

open Lib AVLNode List
open Option hiding toList

universe u

variable {δ : Type u} {xs ys key' : List UInt8} {a b : HashMapEntry δ} {s' : Set (HashMapEntry δ)}
  {tree : AVLTree (HashMapEntry δ)}

/-! ### The order on keys -/

theorem memcmp_swap (hlen : xs.length = ys.length) : memcmp ys xs = - memcmp xs ys := by
  induction xs generalizing ys with
  | nil =>
    obtain rfl : ys = [] := length_eq_zero_iff.1 hlen.symm
    rfl
  | cons a as ih =>
    cases ys with
    | nil => simp at hlen
    | cons b bs =>
      have hrest := @ih bs (by simpa using hlen)
      simp only [memcmp, UInt8.lt_iff_toNat_lt]
      split_ifs <;> omega

theorem memcmp_eq_zero_iff (hlen : xs.length = ys.length) :
    memcmp xs ys = 0 ↔ xs = ys := by
  induction xs generalizing ys with
  | nil =>
    obtain rfl : ys = [] := length_eq_zero_iff.1 hlen.symm
    simp [memcmp]
  | cons a as ih =>
    cases ys with
    | nil => simp at hlen
    | cons b bs =>
      rw [memcmp, cons.injEq, ← ih (by simpa using hlen), ← UInt8.toNat_inj]
      simp only [UInt8.lt_iff_toNat_lt]
      split_ifs with hlt hgt
      · exact iff_of_false (by decide) (by omega)
      · exact iff_of_false (by decide) (by omega)
      · exact ⟨fun h => ⟨by omega, h⟩, fun h => h.2⟩

theorem memcmp_cons_nonpos_iff {a b : UInt8} {as bs : List UInt8} :
    memcmp (a :: as) (b :: bs) ≤ 0 ↔ a.toNat < b.toNat ∨ (a.toNat = b.toNat ∧ memcmp as bs ≤ 0) := by
  simp only [memcmp, UInt8.lt_iff_toNat_lt]
  split_ifs <;> omega

theorem memcmp_trans {zs : List UInt8} (hxy : xs.length = ys.length) (hyz : ys.length = zs.length)
    (h₁ : memcmp xs ys ≤ 0) (h₂ : memcmp ys zs ≤ 0) : memcmp xs zs ≤ 0 := by
  induction xs generalizing ys zs with
  | nil => simp [memcmp]
  | cons a as ih =>
    cases ys with
    | nil => simp at hxy
    | cons b bs =>
      cases zs with
      | nil => simp at hyz
      | cons c cs =>
        rw [memcmp_cons_nonpos_iff] at h₁ h₂ ⊢
        rcases h₁ with h₁ | ⟨hab, h₁⟩
        · omega
        · rcases h₂ with h₂ | ⟨hbc, h₂⟩
          · omega
          · exact .inr ⟨by omega, ih (by simpa using hxy) (by simpa using hyz) h₁ h₂⟩

/-- `entryCompare` without the shortcut through the hash. -/
def keyCompare (a b : HashMapEntry δ) : Int :=
  if a.keySize < b.keySize then -1
  else if a.keySize > b.keySize then 1
  else memcmp a.key b.key

theorem keyCompare_eq_zero_iff : keyCompare a b = 0 ↔ a.key = b.key := by
  rw [keyCompare]
  split_ifs with hlt hgt
  · exact iff_of_false (by decide) fun h => by simp [HashMapEntry.keySize, h] at hlt
  · exact iff_of_false (by decide) fun h => by simp [HashMapEntry.keySize, h] at hgt
  · exact memcmp_eq_zero_iff (by rw [HashMapEntry.keySize, HashMapEntry.keySize] at *; omega)

theorem keyCompare_lawful : LawfulComparator (keyCompare : HashMapEntry δ → HashMapEntry δ → Int) := by
  constructor
  · intro a b
    simp only [keyCompare]
    rcases Nat.lt_trichotomy a.keySize b.keySize with hlt | heq | hgt
    · simp [hlt, Nat.lt_asymm hlt]
    · have hswap := @memcmp_swap a.key b.key heq
      simp only [heq, lt_irrefl, if_false, hswap]
      omega
    · simp [hgt, Nat.lt_asymm hgt]
  · intro a b c hab hbc
    simp only [keyCompare] at hab hbc ⊢
    split_ifs at hab hbc ⊢ <;> try omega
    exact memcmp_trans (by simp only [HashMapEntry.keySize] at *; omega)
      (by simp only [HashMapEntry.keySize] at *; omega) hab hbc

/-! ### Collisions -/

/-- Two different keys that `entryCompare` takes for one. -/
def Collides (key key' : List UInt8) : Prop :=
  key ≠ key' ∧ key.length = key'.length ∧ djb2Hash key = djb2Hash key'

instance (key key' : List UInt8) : Decidable (Collides key key') :=
  inferInstanceAs (Decidable (_ ∧ _ ∧ _))

/-- The `hash` field is the hash of the key. -/
def HashMapEntry.Hashed (entry : HashMapEntry δ) : Prop := entry.hash = djb2Hash entry.key

theorem entryCompare_eq_keyCompare (ha : a.Hashed) (hb : b.Hashed) (hfree : ¬ Collides a.key b.key) :
    entryCompare a b = keyCompare a b := by
  rw [entryCompare, keyCompare]
  split_ifs with hlt hgt hhash
  · rfl
  · rfl
  · have hlen : a.key.length = b.key.length := by
      simp only [HashMapEntry.keySize] at hlt hgt
      omega
    have hkey : a.key = b.key := by
      by_contra hne
      exact hfree ⟨hne, hlen, by rw [← ha, ← hb, hhash]⟩
    exact ((memcmp_eq_zero_iff hlen).2 hkey).symm
  · rfl

/-- Hashed entries, at most one for each key, no two of which collide. -/
structure Apart (s : Set (HashMapEntry δ)) : Prop where
  hashed : ∀ e ∈ s, e.Hashed
  unique : ∀ e ∈ s, ∀ e' ∈ s, e.key = e'.key → e = e'
  free : ∀ e ∈ s, ∀ e' ∈ s, ¬ Collides e.key e'.key

variable {s : Set (HashMapEntry δ)}

theorem Apart.subset (hs : Apart s) (hsub : s' ⊆ s) : Apart s' :=
  ⟨fun e he => hs.hashed e (hsub he), fun e he e' he' => hs.unique e (hsub he) e' (hsub he'),
    fun e he e' he' => hs.free e (hsub he) e' (hsub he')⟩

/-! ### Buckets that hold a set of entries -/

/-- Every bucket is an ordered set for `keyCompare`, and bucket `i` holds the entries of `s` whose
    hash is `i` modulo the number of buckets. -/
structure Holds (buckets : List (AVLTree (HashMapEntry δ))) (s : Set (HashMapEntry δ)) : Prop where
  nonempty : 0 < buckets.length
  invariant : ∀ {i : Nat} {tree}, buckets[i]? = some tree → AvlInvariant keyCompare tree
  mem_iff : ∀ {i : Nat} {tree}, buckets[i]? = some tree →
    ∀ e, e ∈ tree.head.toList ↔ e ∈ s ∧ e.hash.toNat % buckets.length = i

theorem Holds.replicate {n : Nat} (hn : 0 < n) :
    Holds (List.replicate n avlCreateTree) (∅ : Set (HashMapEntry δ)) := by
  refine ⟨by simpa using hn, ?_, ?_⟩
  · intro i tree htree
    obtain ⟨-, rfl⟩ := by simpa [getElem?_replicate] using htree
    exact AvlInvariant.create keyCompare
  · intro i tree htree e
    obtain ⟨-, rfl⟩ := by simpa [getElem?_replicate] using htree
    simp [avlCreateTree, toList]

section Buckets

variable {buckets : List (AVLTree (HashMapEntry δ))} {s : Set (HashMapEntry δ)} {x : HashMapEntry δ}

/-- The bucket of an entry exists. -/
theorem Holds.bucket (hb : Holds buckets s) (hash : UInt64) :
    ∃ tree, buckets[hash.toNat % buckets.length]? = some tree :=
  ⟨_, getElem?_eq_getElem (Nat.mod_lt _ hb.nonempty)⟩

/-- The entries of all buckets together. -/
theorem Holds.mem_entries (hb : Holds buckets s) (e : HashMapEntry δ) :
    (e ∈ buckets.flatMap fun tree => tree.head.toList) ↔ e ∈ s := by
  rw [mem_flatMap]
  constructor
  · rintro ⟨tree, htree, he⟩
    obtain ⟨i, hi⟩ := mem_iff_getElem?.1 htree
    exact ((hb.mem_iff hi e).1 he).1
  · intro he
    obtain ⟨tree, htree⟩ := hb.bucket e.hash
    exact ⟨tree, mem_of_getElem? htree, (hb.mem_iff htree e).2 ⟨he, rfl⟩⟩

/-- In the bucket of a key that collides with nothing stored, `entryCompare` is `keyCompare`. -/
theorem Holds.agree (hb : Holds buckets s) (hs : Apart s) (hx : x.Hashed)
    (hfree : ∀ e ∈ s, ¬ Collides x.key e.key) {i : Nat} (htree : buckets[i]? = some tree) :
    ∀ y ∈ x :: tree.head.toList, ∀ z ∈ tree.head.toList, entryCompare y z = keyCompare y z := by
  have hmem : ∀ z ∈ tree.head.toList, z ∈ s := fun z hz => ((hb.mem_iff htree z).1 hz).1
  intro y hy z hz
  rcases mem_cons.1 hy with rfl | hy
  · exact entryCompare_eq_keyCompare hx (hs.hashed z (hmem z hz)) (hfree z (hmem z hz))
  · exact entryCompare_eq_keyCompare (hs.hashed y (hmem y hy)) (hs.hashed z (hmem z hz))
      (hs.free y (hmem y hy) z (hmem z hz))

theorem Apart.hash_eq (hs : Apart s) (hx : x.Hashed) {e : HashMapEntry δ} (he : e ∈ s)
    (hkey : e.key = x.key) : e.hash = x.hash := by
  rw [hs.hashed e he, hx, hkey]

/-- What is found in the bucket of `x` has its key. -/
theorem Holds.found_iff (hb : Holds buckets s) (hs : Apart s) (hx : x.Hashed)
    (htree : buckets[x.hash.toNat % buckets.length]? = some tree) (e : HashMapEntry δ) :
    e ∈ tree.head.toList ∧ keyCompare x e = 0 ↔ e ∈ s ∧ e.key = x.key := by
  rw [hb.mem_iff htree, keyCompare_eq_zero_iff]
  constructor
  · rintro ⟨⟨he, -⟩, hkey⟩
    exact ⟨he, hkey.symm⟩
  · rintro ⟨he, hkey⟩
    exact ⟨⟨he, by rw [hs.hash_eq hx he hkey]⟩, hkey.symm⟩

/-- Replacing the bucket of `x` by one that differs in the entries with the key of `x` only. -/
theorem Holds.set (hb : Holds buckets s) (hinv : AvlInvariant keyCompare tree)
    (hmem : ∀ e, e ∈ tree.head.toList ↔
      e ∈ s' ∧ e.hash.toNat % buckets.length = x.hash.toNat % buckets.length)
    (hother : ∀ e, e.hash.toNat % buckets.length ≠ x.hash.toNat % buckets.length → (e ∈ s' ↔ e ∈ s)) :
    Holds (buckets.set (x.hash.toNat % buckets.length) tree) s' := by
  refine ⟨by simpa using hb.nonempty, ?_, ?_⟩
  · intro i tree' htree'
    rw [getElem?_set] at htree'
    split_ifs at htree' with hi hlen
    · cases htree'
      exact hinv
    · exact hb.invariant htree'
  · intro i tree' htree' e
    rw [length_set]
    rw [getElem?_set] at htree'
    split_ifs at htree' with hi hlen
    · cases htree'
      rw [hmem, hi]
    · rw [hb.mem_iff htree' e]
      constructor
      · rintro ⟨he, rfl⟩
        exact ⟨(hother e (Ne.symm hi)).2 he, rfl⟩
      · rintro ⟨he, rfl⟩
        exact ⟨(hother e (Ne.symm hi)).1 he, rfl⟩

/-- `avl_insert` into the bucket of an entry. -/
theorem Holds.insert (hb : Holds buckets s) (hs : Apart s) (hx : x.Hashed)
    (hfree : ∀ e ∈ s, ¬ Collides x.key e.key) :
    ∃ tree tree' inserted, buckets[x.hash.toNat % buckets.length]? = some tree ∧
      avlInsert entryCompare true tree x = some (tree', inserted) ∧
      (inserted = true ↔ ∀ e ∈ s, e.key ≠ x.key) ∧
      Holds (buckets.set (x.hash.toNat % buckets.length) tree') (insert x {e ∈ s | e.key ≠ x.key}) := by
  obtain ⟨tree, htree⟩ := hb.bucket x.hash
  have hinv := hb.invariant htree
  obtain ⟨tree', hrun, hinv', hlist⟩ := avlInsert_spec keyCompare_lawful hinv x
  have hagree := hb.agree hs hx hfree htree
  have hcode : avlInsert entryCompare true tree x = avlInsert keyCompare true tree x := by
    rw [avlInsert, avlInsert, insertImpl_congr fun y hy => hagree x (by simp) y hy]
  refine ⟨tree, tree', _, htree, hcode.trans hrun, ?_, hb.set hinv' ?_ ?_⟩
  · rw [isNone_iff_eq_none, lookupBy_eq_none_iff keyCompare_lawful hinv.sorted]
    have hfound := hb.found_iff hs hx htree
    grind
  · intro e
    rw [hlist, mem_insertBy keyCompare_lawful hinv.sorted, hb.mem_iff htree, Set.mem_insert_iff, ne_eq,
      keyCompare_eq_zero_iff]
    constructor
    · rintro (rfl | ⟨⟨he, hi⟩, hne⟩)
      · exact ⟨.inl rfl, rfl⟩
      · exact ⟨.inr ⟨he, Ne.symm hne⟩, hi⟩
    · rintro ⟨rfl | ⟨he, hne⟩, hi⟩
      · exact .inl rfl
      · exact .inr ⟨⟨he, hi⟩, Ne.symm hne⟩
  · intro e hi
    rw [Set.mem_insert_iff]
    constructor
    · rintro (rfl | he)
      · exact absurd rfl hi
      · exact he.1
    · exact fun he => .inr ⟨he, fun hkey => hi (by rw [hs.hash_eq hx he hkey])⟩

/-- `avl_remove` from the bucket of a key. -/
theorem Holds.remove (hb : Holds buckets s) (hs : Apart s) (hx : x.Hashed)
    (hfree : ∀ e ∈ s, ¬ Collides x.key e.key) :
    ∃ tree tree' removed, buckets[x.hash.toNat % buckets.length]? = some tree ∧
      avlRemove entryCompare tree x = some (tree', removed) ∧
      (∀ e, removed = some e ↔ e ∈ s ∧ e.key = x.key) ∧
      Holds (buckets.set (x.hash.toNat % buckets.length) tree') {e ∈ s | e.key ≠ x.key} := by
  obtain ⟨tree, htree⟩ := hb.bucket x.hash
  have hinv := hb.invariant htree
  obtain ⟨tree', hrun, hinv', hlist⟩ := avlRemove_spec keyCompare_lawful hinv x
  have hagree := hb.agree hs hx hfree htree
  have hcode : avlRemove entryCompare tree x = avlRemove keyCompare tree x := by
    rw [avlRemove, avlRemove, removeImpl_congr hagree]
  refine ⟨tree, tree', _, htree, hcode.trans hrun, ?_, hb.set hinv' ?_ ?_⟩
  · exact fun e => (lookupBy_eq_some_iff keyCompare_lawful hinv.sorted).trans (hb.found_iff hs hx htree e)
  · intro e
    rw [hlist, mem_eraseBy keyCompare_lawful hinv.sorted, hb.mem_iff htree, ne_eq, keyCompare_eq_zero_iff]
    constructor
    · rintro ⟨⟨he, hi⟩, hne⟩
      exact ⟨⟨he, Ne.symm hne⟩, hi⟩
    · rintro ⟨⟨he, hne⟩, hi⟩
      exact ⟨⟨he, hi⟩, Ne.symm hne⟩
  · intro e hi
    constructor
    · exact fun he => he.1
    · exact fun he => ⟨he, fun hkey => hi (by rw [hs.hash_eq hx he hkey])⟩

/-- `avl_find` in the bucket of a key. -/
theorem Holds.find (hb : Holds buckets s) (hs : Apart s) (hx : x.Hashed)
    (hfree : ∀ e ∈ s, ¬ Collides x.key e.key) :
    ∃ tree, buckets[x.hash.toNat % buckets.length]? = some tree ∧
      ∀ e, avlFind entryCompare tree x = some e ↔ e ∈ s ∧ e.key = x.key := by
  obtain ⟨tree, htree⟩ := hb.bucket x.hash
  have hinv := hb.invariant htree
  have hagree := hb.agree hs hx hfree htree
  refine ⟨tree, htree, ?_⟩
  intro e
  rw [avlFind, findFrom_congr fun y hy => hagree x (by simp) y hy,
    findFrom_eq_lookupBy keyCompare_lawful x tree.head hinv.sorted,
    lookupBy_eq_some_iff keyCompare_lawful hinv.sorted, hb.found_iff hs hx htree]

end Buckets

/-! ### Resizing -/

/-- Transferring a list of entries of `s` into buckets that hold a part of `s`. -/
theorem transfer_holds (hs : Apart s) (entries : List (HashMapEntry δ))
    (hentries : ∀ e ∈ entries, e ∈ s) :
    ∀ (hm : HashMapT δ) (count : Nat) {done : Set (HashMapEntry δ)}, hm.buckets.length = hm.capacity →
      Holds hm.buckets done → done ⊆ s →
      ∃ buckets count',
        entries.foldlM (fun context e => entryTransferVisitor Mallocs.succeed.transfer e context)
          (hm, count) = some ({ hm with buckets := buckets }, count') ∧
        buckets.length = hm.capacity ∧ Holds buckets (done ∪ {e | e ∈ entries}) := by
  induction entries with
  | nil =>
    intro hm count done hlen hholds hdone
    exact ⟨hm.buckets, count, rfl, hlen, by simpa using hholds⟩
  | cons x xs ih =>
    intro hm count done hlen hholds hdone
    have hx : x ∈ s := hentries x (by simp)
    obtain ⟨tree, tree', inserted, htree, hrun, -, hholds'⟩ :=
      hholds.insert (hs.subset hdone) (hs.hashed x hx) fun e he => hs.free x hx e (hdone he)
    -- an entry with the key of `x` is `x`, so nothing is lost
    have hset : insert x {e ∈ done | e.key ≠ x.key} = insert x done := by
      ext e
      simp only [Set.mem_insert_iff, Set.mem_ofPred_eq]
      constructor
      · exact Or.imp_right And.left
      · rintro (he | he)
        · exact .inl he
        · by_cases hkey : e.key = x.key
          · exact .inl (hs.unique e (hdone he) x hx hkey)
          · exact .inr ⟨he, hkey⟩
    rw [hset, hlen] at hholds'
    rw [hlen] at htree
    obtain ⟨buckets, count', hrest, hlen', hfinal⟩ :=
      ih (fun e he => hentries e (by simp [he]))
        { hm with buckets := hm.buckets.set (x.hash.toNat % hm.capacity) tree' }
        (count + 1) (by simpa using hlen) hholds' (Set.insert_subset hx hdone)
    refine ⟨buckets, count', ?_, hlen', ?_⟩
    · have hvisit : entryTransferVisitor Mallocs.succeed.transfer x (hm, count) =
          some ({ hm with buckets := hm.buckets.set (x.hash.toNat % hm.capacity) tree' }, count + 1) := by
        simp only [entryTransferVisitor, htree, Mallocs.succeed]
        simp [hrun]
      rw [foldlM_cons, hvisit]
      exact hrest
    · have hunion : done ∪ {e | e ∈ x :: xs} = insert x done ∪ {e | e ∈ xs} := by
        ext e
        simp only [Set.mem_union, Set.mem_ofPred_eq, mem_cons, Set.mem_insert_iff]
        tauto
      rw [hunion]
      exact hfinal

theorem foldlM_avlForeach {σ : Type u} (func : HashMapEntry δ → σ → Option σ)
    (trees : List (AVLTree (HashMapEntry δ))) (context : σ) :
    trees.foldlM (fun context tree => avlForeach tree func context) context =
      (trees.flatMap fun tree => tree.head.toList).foldlM (fun context e => func e context) context := by
  induction trees generalizing context with
  | nil => rfl
  | cons tree trees ih =>
    rw [foldlM_cons, flatMap_cons, foldlM_append, avlForeach, foreachImpl_eq_foldlM]
    exact bind_congr fun context' => ih context'

variable {hm : HashMapT δ}

/-- `resize` moves entries that are apart, however the old buckets are ordered. -/
theorem resize_transfers (hs : Apart s) (hpos : 0 < hm.capacity)
    (hmem : ∀ e, (e ∈ hm.buckets.flatMap fun tree => tree.head.toList) ↔ e ∈ s) :
    ∃ hm', resize Mallocs.succeed hm = some hm' ∧ hm'.size = hm.size ∧
      hm'.capacity = hm.capacity * capacityExpandFactor ∧ hm'.buckets.length = hm'.capacity ∧
      Holds hm'.buckets s := by
  obtain ⟨buckets, count, hrun, hlen', hfinal⟩ :=
    transfer_holds hs (hm.buckets.flatMap fun tree => tree.head.toList) (fun e he => (hmem e).1 he)
      { calculateThreshold { hm with capacity := hm.capacity * capacityExpandFactor } with
        buckets := List.replicate (hm.capacity * capacityExpandFactor) avlCreateTree }
      0 (by simp [calculateThreshold]) (Holds.replicate (Nat.mul_pos hpos (by decide))) (Set.empty_subset s)
  have hset : (∅ : Set (HashMapEntry δ)) ∪ {e | e ∈ hm.buckets.flatMap fun tree => tree.head.toList} =
      s := by
    ext e
    rw [Set.empty_union]
    exact hmem e
  rw [hset] at hfinal
  refine ⟨{ calculateThreshold { hm with capacity := hm.capacity * capacityExpandFactor } with
    buckets := buckets }, ?_, rfl, rfl, hlen', hfinal⟩
  rw [resize, if_pos (by simp [Mallocs.succeed])]
  rw [← foldlM_avlForeach] at hrun
  simp only [calculateThreshold] at hrun ⊢
  rw [hrun]
  rfl

/-- `resize` keeps the set of entries. -/
theorem resize_holds (hs : Apart s)
    (hlen : hm.buckets.length = hm.capacity) (hholds : Holds hm.buckets s) :
    ∃ hm', resize Mallocs.succeed hm = some hm' ∧ hm'.size = hm.size ∧
      hm'.buckets.length = hm'.capacity ∧ Holds hm'.buckets s := by
  obtain ⟨hm', hrun, hsize, -, hlen', hholds'⟩ :=
    resize_transfers hs (hlen ▸ hholds.nonempty) hholds.mem_entries
  exact ⟨hm', hrun, hsize, hlen', hholds'⟩

/-! ### The finite map -/

/-- Finite maps from byte strings to data. -/
abbrev ByteMap (δ : Type u) := AList fun _ : List UInt8 => δ

/-- The entry that `hm_put` stores. -/
def entryOf (key : List UInt8) (data : δ) : HashMapEntry δ :=
  { key := key, data := some data, hash := djb2Hash key }

def entriesOf (m : ByteMap δ) : Set (HashMapEntry δ) :=
  {e | ∃ data, m.lookup e.key = some data ∧ e = entryOf e.key data}

/-- What the finite map becomes by a call. -/
def mapStep (m : ByteMap δ) : HmOp δ → ByteMap δ
  | .put key data => m.insert key data
  | .remove key => m.erase key
  | .get _ => m

/-- What the finite map answers to a call. -/
def mapResult (m : ByteMap δ) : HmOp δ → HmResult δ
  | .put key _ => .inserted (m.lookup key).isNone
  | .remove key => .pointer (m.lookup key)
  | .get key => .pointer (m.lookup key)

/-- The answers of the finite map, each with the number of keys after the call. -/
def mapRun (m : ByteMap δ) : List (HmOp δ) → List (HmResult δ × Nat)
  | [] => []
  | op :: ops => (mapResult m op, (mapStep m op).keys.length) :: mapRun (mapStep m op) ops

def HmOp.key : HmOp δ → List UInt8
  | .put key _ => key
  | .remove key => key
  | .get key => key

/-- The key of the call collides with no key of the map. -/
def NoCollision (m : ByteMap δ) (op : HmOp δ) : Prop := ∀ key ∈ m.keys, ¬ Collides op.key key

/-- No call of the sequence is made with a key that collides with a key present at that time. -/
def NoCollisions : ByteMap δ → List (HmOp δ) → Prop
  | _, [] => True
  | m, op :: ops => NoCollision m op ∧ NoCollisions (mapStep m op) ops

instance decidableNoCollisions : (m : ByteMap δ) → (ops : List (HmOp δ)) → Decidable (NoCollisions m ops)
  | _, [] => isTrue trivial
  | m, op :: ops =>
    let _ := decidableNoCollisions (mapStep m op) ops
    inferInstanceAs (Decidable ((∀ key ∈ m.keys, ¬ Collides op.key key) ∧ NoCollisions (mapStep m op) ops))

theorem entriesOf_empty : entriesOf (∅ : ByteMap δ) = ∅ := by
  ext e
  simp [entriesOf]

theorem entriesOf_insert (m : ByteMap δ) (key : List UInt8) (data : δ) :
    entriesOf (m.insert key data) = insert (entryOf key data) {e ∈ entriesOf m | e.key ≠ key} := by
  ext e
  rw [Set.mem_insert_iff]
  by_cases hkey : e.key = key
  · subst hkey
    simp only [entriesOf, Set.mem_ofPred_eq, AList.lookup_insert, some.injEq]
    simp
  · have hne : e ≠ entryOf key data := fun h => hkey (by rw [h, entryOf])
    simp [entriesOf, AList.lookup_insert_ne hkey, hkey, hne]

theorem entriesOf_erase (m : ByteMap δ) (key : List UInt8) :
    entriesOf (m.erase key) = {e ∈ entriesOf m | e.key ≠ key} := by
  ext e
  by_cases hkey : e.key = key
  · subst hkey
    simp [entriesOf]
  · simp [entriesOf, AList.lookup_erase_ne hkey, hkey]

/-- The state of the hash map stands for a finite map without colliding keys. -/
structure Represents (hm : HashMapT δ) (m : ByteMap δ) : Prop where
  length : hm.buckets.length = hm.capacity
  holds : Holds hm.buckets (entriesOf m)
  size : hm.size = m.keys.length
  free : ∀ key ∈ m, ∀ key' ∈ m, ¬ Collides key key'

variable {m : ByteMap δ}

theorem mem_of_mem_entriesOf {e : HashMapEntry δ} (he : e ∈ entriesOf m) : e.key ∈ m := by
  obtain ⟨data, hlookup, -⟩ := he
  exact AList.lookup_isSome.1 (by rw [hlookup]; rfl)

/-- The entry with a key is the one that was put. -/
theorem mem_entriesOf_key {key : List UInt8} {e : HashMapEntry δ} :
    e ∈ entriesOf m ∧ e.key = key ↔ (m.lookup key).map (entryOf key) = some e := by
  rw [map_eq_some_iff]
  constructor
  · rintro ⟨⟨data, hlookup, heq⟩, rfl⟩
    exact ⟨data, hlookup, heq.symm⟩
  · rintro ⟨data, hlookup, rfl⟩
    exact ⟨⟨data, hlookup, rfl⟩, rfl⟩

theorem Represents.apart (h : Represents hm m) : Apart (entriesOf m) := by
  refine ⟨?_, ?_, ?_⟩
  · rintro e ⟨data, -, heq⟩
    rw [heq]
    rfl
  · rintro e ⟨data, hlookup, heq⟩ e' ⟨data', hlookup', heq'⟩ hkey
    rw [hkey, hlookup'] at hlookup
    cases hlookup
    rw [heq, heq', hkey]
  · exact fun e he e' he' => h.free _ (mem_of_mem_entriesOf he) _ (mem_of_mem_entriesOf he')

theorem represents_create : Represents (hmCreate : HashMapT δ) ∅ := by
  refine ⟨by simp [hmCreate, hmSetLoadFactor, calculateThreshold], ?_, rfl, ?_⟩
  · rw [entriesOf_empty]
    exact Holds.replicate (show 0 < startCapacity by decide)
  · intro key hkey
    exact absurd hkey (AList.notMem_empty key)

/-! ### Calls and runs -/

theorem Collides.symm {key : List UInt8} (h : Collides key key') : Collides key' key :=
  ⟨h.1.symm, h.2.1.symm, h.2.2.symm⟩

theorem length_keys_insert (m : ByteMap δ) (key : List UInt8) (data : δ) :
    (m.insert key data).keys.length = if (m.lookup key).isNone then m.keys.length + 1
      else m.keys.length := by
  have hiff : (m.lookup key).isNone ↔ key ∉ m.keys := by
    rw [isNone_iff_eq_none, AList.lookup_eq_none, AList.mem_keys]
  rw [AList.keys_insert, length_cons]
  by_cases hmem : key ∈ m.keys
  · have hpos := length_pos_of_mem hmem
    rw [if_neg (by simpa [hiff] using hmem), @length_erase_of_mem _ instBEqOfDecidableEq _ _ _ hmem]
    omega
  · rw [if_pos (hiff.2 hmem), @erase_of_not_mem _ instBEqOfDecidableEq _ _ _ hmem]

theorem length_keys_erase (m : ByteMap δ) (key : List UInt8) :
    (m.erase key).keys.length = if (m.lookup key).isSome then m.keys.length - 1 else m.keys.length := by
  have hiff : (m.lookup key).isSome ↔ key ∈ m.keys := by
    rw [AList.lookup_isSome, AList.mem_keys]
  rw [AList.keys_erase]
  by_cases hmem : key ∈ m.keys
  · rw [if_pos (hiff.2 hmem), @length_erase_of_mem _ instBEqOfDecidableEq _ _ _ hmem]
  · rw [if_neg (fun h => hmem (hiff.1 h)), @erase_of_not_mem _ instBEqOfDecidableEq _ _ _ hmem]

section Calls

variable {hm : HashMapT δ} {m : ByteMap δ} (h : Represents hm m) (key : List UInt8)
  (hfree : ∀ key' ∈ m, ¬ Collides key key')

include h hfree

theorem hmPut_refines (data : δ) :
    ∃ hm', hmPut Mallocs.succeed hm (some key) (some data) = some (hm', (m.lookup key).isNone) ∧
      Represents hm' (m.insert key data) := by
  obtain ⟨tree, tree', inserted, htree, hrun, hflag, hholds⟩ :=
    h.holds.insert h.apart (show (entryOf key data).Hashed from rfl) fun e he =>
      hfree _ (mem_of_mem_entriesOf he)
  have hinserted : inserted = (m.lookup key).isNone := by
    rw [Bool.eq_iff_iff, hflag, isNone_iff_eq_none, AList.lookup_eq_none]
    constructor
    · intro hall hmem
      obtain ⟨old, hold⟩ := isSome_iff_exists.1 (AList.lookup_isSome.2 hmem)
      exact hall (entryOf key old) ⟨old, hold, rfl⟩ rfl
    · intro habsent e he hkey
      have hmem := mem_of_mem_entriesOf he
      rw [hkey] at hmem
      exact habsent hmem
  have hsize := length_keys_insert m key data
  have hnew : ∀ k ∈ m.insert key data, ∀ k' ∈ m.insert key data, ¬ Collides k k' := by
    intro k hk k' hk'
    rw [AList.mem_insert] at hk hk'
    rcases hk with rfl | hk <;> rcases hk' with rfl | hk'
    · exact fun hc => hc.1 rfl
    · exact hfree k' hk'
    · exact fun hc => hfree k hk hc.symm
    · exact h.free k hk k' hk'
  have hset : Holds (hm.buckets.set ((djb2Hash key).toNat % hm.capacity) tree')
      (entriesOf (m.insert key data)) := by
    rw [entriesOf_insert, ← h.length]
    exact hholds
  have htree' : hm.buckets[(djb2Hash key).toNat % hm.capacity]? = some tree := h.length ▸ htree
  have hrun' : avlInsert entryCompare Mallocs.succeed.node tree
      { key := key, data := some data, hash := djb2Hash key } = some (tree', inserted) := hrun
  have hmiddle : Represents { hm with
      buckets := hm.buckets.set ((djb2Hash key).toNat % hm.capacity) tree',
      size := if inserted then hm.size + 1 else hm.size } (m.insert key data) := by
    refine ⟨by simpa using h.length, hset, ?_, hnew⟩
    rw [hsize, ← hinserted, h.size]
  rw [← hinserted]
  simp only [hmPut, show Mallocs.succeed.entry = true from rfl, htree', hrun', if_true,
    bind_eq_bind, bind_some]
  cases inserted with
  | false => exact ⟨_, rfl, by simpa using hmiddle⟩
  | true =>
    simp only [if_true] at hmiddle ⊢
    split_ifs with hthreshold
    · obtain ⟨hm', hresize, hsize', hlen', hholds'⟩ :=
        resize_holds hmiddle.apart hmiddle.length hmiddle.holds
      refine ⟨hm', ?_, ⟨hlen', hholds', by rw [hsize', hmiddle.size], hnew⟩⟩
      rw [hresize, bind_some]
    · exact ⟨_, rfl, hmiddle⟩

theorem hmRemove_refines :
    ∃ hm', hmRemove hm key = some (hm', m.lookup key) ∧ Represents hm' (m.erase key) := by
  obtain ⟨tree, tree', removed, htree, hrun, hremoved, hholds⟩ :=
    h.holds.remove h.apart (show (entryToFind key).Hashed from rfl) fun e he =>
      hfree _ (mem_of_mem_entriesOf he)
  have hset : Holds (hm.buckets.set ((djb2Hash key).toNat % hm.capacity) tree')
      (entriesOf (m.erase key)) := by
    rw [entriesOf_erase, ← h.length]
    exact hholds
  have htree' : hm.buckets[(djb2Hash key).toNat % hm.capacity]? = some tree := h.length ▸ htree
  have hold : ∀ k ∈ m.erase key, ∀ k' ∈ m.erase key, ¬ Collides k k' := by
    intro k hk k' hk'
    exact h.free k (AList.mem_erase.1 hk).2 k' (AList.mem_erase.1 hk').2
  have hsize := length_keys_erase m key
  have hfound : removed = (m.lookup key).map (entryOf key) :=
    Option.ext fun e => (hremoved e).trans mem_entriesOf_key
  simp only [hmRemove, htree', bind_eq_bind, bind_some, hrun, hfound]
  cases hlookup : m.lookup key with
  | none =>
    refine ⟨_, rfl, ⟨by simpa using h.length, hset, ?_, hold⟩⟩
    rw [hsize, hlookup]
    exact h.size
  | some data =>
    refine ⟨_, rfl, ⟨by simpa using h.length, hset, ?_, hold⟩⟩
    rw [hsize, hlookup]
    simp [h.size]

theorem hmGet_refines : hmGet hm key = some (m.lookup key) := by
  obtain ⟨tree, htree, hfind⟩ :=
    h.holds.find h.apart (show (entryToFind key).Hashed from rfl) fun e he =>
      hfree _ (mem_of_mem_entriesOf he)
  have htree' : hm.buckets[(djb2Hash key).toNat % hm.capacity]? = some tree := h.length ▸ htree
  have hfound : avlFind entryCompare tree (entryToFind key) = (m.lookup key).map (entryOf key) :=
    Option.ext fun e => (hfind e).trans mem_entriesOf_key
  simp only [hmGet, htree', bind_eq_bind, bind_some, hfound]
  cases m.lookup key with
  | none => rfl
  | some data => rfl

end Calls

/-- One call from a represented map answers as the map does and leaves a state for the next map. -/
theorem hmStep_refines (h : Represents hm m) {op : HmOp δ} (hfree : NoCollision m op) :
    ∃ hm', hmStep hm op = some (hm', mapResult m op) ∧ Represents hm' (mapStep m op) := by
  cases op with
  | put key data =>
    obtain ⟨hm', hrun, hrep⟩ := hmPut_refines h key hfree data
    exact ⟨hm', by rw [hmStep, hrun]; rfl, hrep⟩
  | remove key =>
    obtain ⟨hm', hrun, hrep⟩ := hmRemove_refines h key hfree
    exact ⟨hm', by rw [hmStep, hrun]; rfl, hrep⟩
  | get key => exact ⟨hm, by rw [hmStep, hmGet_refines h key hfree]; rfl, h⟩

theorem hmRun_refines_from (ops : List (HmOp δ)) :
    ∀ {hm : HashMapT δ} {m : ByteMap δ}, Represents hm m → NoCollisions m ops →
      ∃ hm', hmRun hm ops = some (hm', mapRun m ops) := by
  induction ops with
  | nil =>
    intro hm m h _
    exact ⟨hm, rfl⟩
  | cons op ops ih =>
    intro hm m h hfree
    obtain ⟨hm₁, hstep, hrep⟩ := hmStep_refines h hfree.1
    obtain ⟨hm', hrun⟩ := ih hrep hfree.2
    refine ⟨hm', ?_⟩
    simp only [hmRun, hstep, hrun, mapRun, hmGetSize, hrep.size, bind_eq_bind, bind_some]

/-- A run on a fresh hash map in which no call is made with a key that collides with a key then
    present: it answers every call as the finite map does, and the size after every call is the
    number of keys. -/
theorem hmRun_refines_map (ops : List (HmOp δ)) (hfree : NoCollisions ∅ ops) :
    ∃ hm, hmRun hmCreate ops = some (hm, mapRun ∅ ops) :=
  hmRun_refines_from ops represents_create hfree

/-- Three of the keys share a bucket, and two of them still do when the map has grown. -/
def growingRun : List (HmOp UInt8) :=
  ([0, 10, 20, 1, 2, 3, 4, 5, 6].map fun byte => .put [byte] byte) ++ [.get [20], .remove [10], .get [10]]

theorem hmRun_refines_map_growingRun :
    ∃ hm, hmRun hmCreate growingRun = some (hm, mapRun ∅ growingRun) ∧
      (mapRun ∅ growingRun).drop 9 =
        [(.pointer (some 20), 9), (.pointer (some 10), 8), (.pointer none, 8)] := by
  obtain ⟨hm, hrun⟩ := hmRun_refines_map growingRun (by decide +kernel)
  exact ⟨hm, hrun, by decide +kernel⟩

/-- Any two colliding keys are confused: after the first was put, a lookup of the second finds its
    data. -/
theorem hmGet_collision {key : List UInt8} (hcollides : Collides key key') (data : δ) :
    ∃ hm, hmRun hmCreate [.put key data, .get key'] =
      some (hm, [(.inserted true, 1), (.pointer (some data), 1)]) := by
  obtain ⟨-, hlen, hhash⟩ := hcollides
  obtain ⟨hm, hput, hrep⟩ :=
    hmPut_refines represents_create key (fun k hk => absurd hk (AList.notMem_empty k)) data
  obtain ⟨tree, htree⟩ := hrep.holds.bucket (djb2Hash key')
  rw [hrep.length] at htree
  have hget : hmGet hm key' = some (some data) := by
    have hmem := hrep.holds.mem_iff htree
    rw [entriesOf_insert, entriesOf_empty] at hmem
    -- the bucket of `key'` is the bucket of `key`, and the entry put is alone in it
    have hentry : entryOf key data ∈ tree.head.toList :=
      (hmem _).2 ⟨Set.mem_insert _ _, by rw [hrep.length, ← hhash]; rfl⟩
    have honly : ∀ e ∈ tree.head.toList, e = entryOf key data := by
      intro e he
      simpa using ((hmem e).1 he).1
    simp only [hmGet, htree, bind_eq_bind, bind_some, avlFind]
    cases hhead : tree.head with
    | null => simp [hhead, toList] at hentry
    | node e l r depth =>
      obtain rfl := honly e (by simp [hhead, toList])
      have hzero : entryCompare (entryToFind key') (entryOf key data) = 0 := by
        simp [entryCompare, entryToFind, entryOf, HashMapEntry.keySize, hlen, hhash]
      simp only [findFrom, hzero, lt_irrefl, if_false]
      rfl
  refine ⟨hm, ?_⟩
  simp only [hmRun, hmStep, hput, hget, hmGetSize, hrep.size, bind_eq_bind, bind_some]
  rfl

/-- `"Ez"` and `"FY"` have one length and one hash: the data put under the first is returned for the
    second, which the finite map does not hold. -/
theorem hmRun_not_refines_map :
    ¬ ∃ hm, hmRun hmCreate [.put [69, 122] 1, .get [70, 89]] =
      some (hm, mapRun ∅ [.put [69, 122] (1 : Nat), .get [70, 89]]) := by
  rintro ⟨hm, hrun⟩
  obtain ⟨hm', hrun'⟩ := hmGet_collision (show Collides [69, 122] [70, 89] by decide +kernel) 1
  rw [hrun'] at hrun
  simp only [some.injEq, Prod.mk.injEq] at hrun
  exact absurd hrun.2 (by decide +kernel)

end NsuLabs.HashMap
