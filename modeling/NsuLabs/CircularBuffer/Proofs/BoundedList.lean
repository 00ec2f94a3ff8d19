/-
Module: NsuLabs.CircularBuffer.Proofs.BoundedList
Purpose: A circular buffer is a list of bounded length. What the operations leave behind the last item is a
  second list; `back` and `rotate` reach for it, and copies leave it out.
Trusted boundary: none
Main exports: behaves_as_boundedList_iff, accessRight_iff, copiedRight_iff
-/
import NsuLabs.CircularBuffer.CircularBuffer
import NsuLabs.Lib.Runs

namespace NsuLabs.CircularBuffer

open Lib List Option

variable {α : Type}

/-! ### What a circular buffer is for -/

/-- A list that never holds more than `capacity` items. -/
@[ext]
structure BoundedList (α : Type) where
  capacity : Nat
  items : List α
  fits : items.length ≤ capacity

namespace BoundedList

/-- No items yet, or as many copies of one as there is room for. -/
def make (capacity : Nat) (elem : Option α) : BoundedList α where
  capacity := capacity
  items := elem.elim [] fun elem => List.replicate capacity elem
  fits := by cases elem <;> simp

/-- A full list drops its first item for the new one. -/
def pushBack (l : BoundedList α) (item : α) : BoundedList α where
  capacity := l.capacity
  items :=
    if l.capacity = 0 then l.items
    else if l.items.length < l.capacity then l.items ++ [item]
    else l.items.tail ++ [item]
  fits := by
    have := l.fits
    split_ifs <;> simp <;> omega

/-- A full list drops its last item for the new one. -/
def pushFront (l : BoundedList α) (item : α) : BoundedList α where
  capacity := l.capacity
  items :=
    if l.capacity = 0 then l.items
    else if l.items.length < l.capacity then item :: l.items
    else item :: l.items.dropLast
  fits := by
    have := l.fits
    split_ifs <;> simp <;> omega

def popBack (l : BoundedList α) : Option (BoundedList α) :=
  if l.items = [] then none else some ⟨l.capacity, l.items.dropLast, by have := l.fits; simp; omega⟩

def popFront (l : BoundedList α) : Option (BoundedList α) :=
  if l.items = [] then none else some ⟨l.capacity, l.items.tail, by have := l.fits; simp; omega⟩

/-- The first `newSize` items, or all of them and copies of `item`; the capacity grows where it has
    to. -/
def resize (l : BoundedList α) (newSize : Nat) (item : α) : BoundedList α where
  capacity := if newSize ≤ l.items.length then l.capacity else max l.capacity newSize
  items :=
    if newSize ≤ l.items.length then l.items.take newSize
    else l.items ++ List.replicate (newSize - l.items.length) item
  fits := by
    have := l.fits
    split_ifs <;> simp <;> omega

def setCapacity (l : BoundedList α) (newCapacity : Nat) : BoundedList α :=
  ⟨newCapacity, l.items.take newCapacity, by simp⟩

def clear (l : BoundedList α) : BoundedList α := ⟨l.capacity, [], by simp⟩

def write (l : BoundedList α) (i : Nat) (item : α) : Option (BoundedList α) :=
  if i < l.items.length then some ⟨l.capacity, l.items.set i item, by have := l.fits; simpa⟩ else none

/-- The item that an argument stands for. -/
def read (l : BoundedList α) : Item α → Option α
  | .value item => some item
  | .element i => l.items[i]?

/-- The operations on the list. Nothing is popped off an empty list, and only an item that is there
    is written or referred to. -/
def step (l : BoundedList α) : Op α → Option (BoundedList α)
  | .pushBack item => (l.read item).map l.pushBack
  | .pushFront item => (l.read item).map l.pushFront
  | .popBack => l.popBack
  | .popFront => l.popFront
  | .resize newSize item => (l.read item).map (l.resize newSize)
  | .setCapacity newCapacity => some (l.setCapacity newCapacity)
  | .clear => some l.clear
  | .linearize => some l
  | .write i item => l.write i item

end BoundedList

/-- What an operation leaves behind the last item, from there around to the first one: nothing was
    written there yet, or it belonged to the list once. -/
def restAfter (l : BoundedList α) (rest : List (Option α)) : Op α → List (Option α)
  | .pushBack _ => rest.tail
  | .pushFront _ => rest.dropLast
  | .popBack => l.items.getLast? :: rest
  | .popFront => rest ++ [l.items.head?]
  | .resize newSize _ => (l.items.drop newSize).map some ++ rest.drop (newSize - l.items.length)
  | .setCapacity newCapacity => List.replicate (newCapacity - l.items.length) none
  | .clear => l.items.map some ++ rest
  | .linearize | .write _ _ => rest

/-- The list with what stands behind it. -/
abbrev Ring (α : Type) := BoundedList α × List (Option α)

def Ring.make (capacity : Nat) (elem : Option α) : Ring α :=
  (.make capacity elem, elem.elim (List.replicate capacity none) fun _ => [])

def Ring.step (r : Ring α) (op : Op α) : Option (Ring α) :=
  (r.1.step op).map fun l => (l, restAfter r.1 r.2 op)

/-! ### The list in the raw array -/

/-- The items of `l` and the rest stand in the raw array `cells` of `b`, from its first element on
    and around its end. -/
structure Holds (b : CircularBuffer α) (cells : List (Option α)) (l : BoundedList α)
    (rest : List (Option α)) : Prop where
  buffer : b.buffer = some cells
  length : cells.length = l.capacity
  capacity : b.capacity = l.capacity
  size : b.size = l.items.length
  start : b.bufferStart < l.capacity ∨ l.capacity = 0 ∧ b.bufferStart = 0
  total : l.items.length + rest.length = l.capacity
  ring : ∀ i < l.capacity, cells[(b.bufferStart + i) % l.capacity]? = (l.items.map some ++ rest)[i]?

/-- The buffer `b` stands for the list `l`, with the rest behind it. -/
def Represents (b : CircularBuffer α) (l : BoundedList α) (rest : List (Option α)) : Prop :=
  ∃ cells, Holds b cells l rest

theorem wrap_eq {i capacity : Nat} (h : 0 < capacity) : wrap i capacity = some (i % capacity) :=
  if_neg (by omega)

theorem start_zero (capacity : Nat) : 0 < capacity ∨ capacity = 0 ∧ 0 = 0 :=
  (Nat.eq_zero_or_pos capacity).symm.imp_right fun h => ⟨h, rfl⟩

variable {b : CircularBuffer α} {cells rest : List (Option α)} {l l' : BoundedList α}

namespace Holds

theorem start_le (h : Holds b cells l rest) : b.bufferStart ≤ cells.length := by
  have := h.start
  have := h.length
  omega

/-- One cell written, `k` places after the place the array is read from. -/
theorem exists_store (h : Holds b cells l rest) (start : Nat) {k : Nat} (hk : k < l.capacity)
    (x : Option α) :
    ∃ cells', store cells ((start + k) % l.capacity) x = some cells' ∧ cells'.length = l.capacity ∧
      ∀ i < l.capacity, cells'[(start + i) % l.capacity]? =
        if i = k then some x else cells[(start + i) % l.capacity]? := by
  rw [← h.length] at hk ⊢
  have hplace : (start + k) % cells.length < cells.length := Nat.mod_lt _ (by omega)
  refine ⟨_, if_pos hplace, length_set, fun i hi => ?_⟩
  simp only [getElem?_set, add_mod_inj start hk hi, if_pos hplace, eq_comm]

/-- Every cell, counted from the first element around the array as often as it takes. -/
theorem cell (h : Holds b cells l rest) (hpos : 0 < l.capacity) (i : Nat) :
    cells[(b.bufferStart + i) % l.capacity]? = (l.items.map some ++ rest)[i % l.capacity]? := by
  rw [← h.ring _ (Nat.mod_lt i hpos), Nat.add_mod_mod]

theorem get (h : Holds b cells l rest) (hpos : 0 < l.capacity) (i : Nat) :
    b.get i = (l.items.map some ++ rest)[i % l.capacity]? := by
  rw [← h.cell hpos, CircularBuffer.get, h.buffer, h.capacity, wrap_eq hpos]
  rfl

theorem get_eq (h : Holds b cells l rest) {i : Nat} (hi : i < l.items.length) :
    b.get i = (l.items[i]?).map some := by
  have := l.fits
  rw [h.get (by omega), Nat.mod_eq_of_lt (by omega), getElem?_append_left (by simpa using hi), getElem?_map]

end Holds

/-! ### One operation -/

theorem read_eq (h : Represents b l rest) {item : Item α} {x : α} (hread : l.read item = some x) :
    b.read item = some x := by
  obtain ⟨cells, h⟩ := h
  cases item with
  | value item => exact hread
  | element i =>
    have hread : l.items[i]? = some x := hread
    rw [CircularBuffer.read, h.get_eq (List.getElem?_eq_some_iff.mp hread).1, hread]
    rfl

theorem setCapacity_represents (h : Represents b l rest) (newCapacity : Nat) :
    ∃ b', b.setCapacity newCapacity = some b' ∧
      Represents b' (l.setCapacity newCapacity) (List.replicate (newCapacity - l.items.length) none) := by
  obtain ⟨cells, h⟩ := h
  have hfits := l.fits
  have hlen := h.length
  obtain ⟨cells', hmove, hlen', hget⟩ := memmove_window (List.replicate newCapacity none) cells b.bufferStart
    (min b.size newCapacity) h.start_le (by rw [h.size]; omega) (by simp)
  rw [hlen, ← h.capacity] at hmove
  refine ⟨_, by rw [CircularBuffer.setCapacity, h.buffer]; simp only [hmove]; rfl, cells', rfl,
    hlen'.trans length_replicate, rfl, ?_, start_zero newCapacity, ?_, fun i hi => ?_⟩
  · simp [BoundedList.setCapacity, h.size, Nat.min_comm]
  · simp [BoundedList.setCapacity]
    omega
  · -- the items that stay stand first in what is copied
    simp only [BoundedList.setCapacity] at hi ⊢
    rw [Nat.zero_add, Nat.mod_eq_of_lt hi, hget, h.size, hlen]
    split
    · rw [h.ring i (by omega)]
      grind
    · grind

theorem pushBack_represents (h : Represents b l rest) (item : α) :
    ∃ b', b.pushBack item = some b' ∧ Represents b' (l.pushBack item) rest.tail := by
  obtain ⟨cells, h⟩ := h
  have hfits := l.fits
  have hrest := h.total
  by_cases hzero : l.capacity = 0
  · have hsame : l.pushBack item = l := BoundedList.ext rfl (if_pos hzero)
    obtain rfl : rest = [] := length_eq_zero_iff.mp (by omega)
    rw [CircularBuffer.pushBack, if_pos (h.capacity.trans hzero), hsame]
    exact ⟨b, rfl, cells, h⟩
  have hpos : 0 < l.capacity := Nat.pos_of_ne_zero hzero
  rw [CircularBuffer.pushBack, if_neg (by rwa [h.capacity]), h.buffer, h.capacity, h.size,
    wrap_eq hpos, wrap_eq hpos]
  simp only [bind_eq_bind, bind_some]
  by_cases hroom : l.items.length < l.capacity
  · have hitems : (l.pushBack item).items = l.items ++ [item] := by simp [BoundedList.pushBack, hzero, hroom]
    obtain ⟨cells', hstore, hlen', hcells'⟩ := h.exists_store b.bufferStart hroom (some item)
    rw [hstore]
    simp only [bind_some, if_pos hroom.ne]
    refine ⟨_, rfl, cells', rfl, hlen', rfl, by simp [hitems], h.start, ?_, fun i hi => ?_⟩
    · rw [hitems, length_append, length_singleton, length_tail, show (l.pushBack item).capacity =
        l.capacity from rfl]
      omega
    · obtain ⟨x, rest, rfl⟩ := exists_cons_of_length_pos (l := rest) (by omega)
      rw [hitems, map_append, append_assoc]
      refine (hcells' i hi).trans ?_
      rw [h.ring i hi]
      clear hcells' hstore
      grind
  · -- the cell after the last one is that of the first element, which is overwritten and becomes the last
    have hfull : l.items.length = l.capacity := by omega
    obtain rfl : rest = [] := length_eq_zero_iff.mp (by omega)
    have hitems : (l.pushBack item).items = l.items.tail ++ [item] := by
      simp [BoundedList.pushBack, hzero, hroom]
    obtain ⟨cells', hstore, hlen', hcells'⟩ :=
      h.exists_store (b.bufferStart + 1) (Nat.sub_one_lt hzero) (some item)
    rw [Nat.add_assoc, Nat.add_sub_cancel' hpos] at hstore
    rw [hfull, hstore]
    simp only [bind_some, ne_eq, not_true_eq_false, if_false]
    refine ⟨_, rfl, cells', rfl, hlen', rfl, by simp [hitems]; omega, .inl (Nat.mod_lt _ hpos), ?_,
      fun i hi => ?_⟩
    · rw [hitems, length_append, length_tail, length_singleton, show (l.pushBack item).capacity =
        l.capacity from rfl]
      simp
      omega
    · have hi : i < l.capacity := hi
      rw [hitems]
      refine (congrArg (cells'[·]?) (Nat.mod_add_mod _ _ _)).trans ((hcells' i hi).trans ?_)
      rw [Nat.add_assoc, Nat.add_comm 1]
      have := h.ring (i + 1)
      grind

theorem pushFront_represents (h : Represents b l rest) (item : α) :
    ∃ b', b.pushFront item = some b' ∧ Represents b' (l.pushFront item) rest.dropLast := by
  obtain ⟨cells, h⟩ := h
  have hfits := l.fits
  have hrest := h.total
  by_cases hzero : l.capacity = 0
  · have hsame : l.pushFront item = l := BoundedList.ext rfl (if_pos hzero)
    obtain rfl : rest = [] := length_eq_zero_iff.mp (by omega)
    rw [CircularBuffer.pushFront, if_pos (h.capacity.trans hzero), hsame]
    exact ⟨b, rfl, cells, h⟩
  have hpos : 0 < l.capacity := Nat.pos_of_ne_zero hzero
  have hlast : (b.bufferStart + l.capacity - 1) % l.capacity < l.capacity := Nat.mod_lt _ hpos
  obtain ⟨cells', hstore, hlen', hcells'⟩ := h.exists_store (b.bufferStart + l.capacity - 1) hpos (some item)
  rw [CircularBuffer.pushFront, if_neg (by rwa [h.capacity]), h.buffer, h.capacity, h.size, wrap_eq hpos]
  simp only [bind_eq_bind, bind_some]
  rw [← Nat.add_zero (b.bufferStart + l.capacity - 1), hstore, Nat.add_zero]
  have hlength : (l.pushFront item).items.length = min (l.items.length + 1) l.capacity := by
    simp only [BoundedList.pushFront, if_neg hzero]
    split <;> simp <;> omega
  have hrest' : (l.pushFront item).items.length + rest.dropLast.length = (l.pushFront item).capacity := by
    rw [hlength, length_dropLast, show (l.pushFront item).capacity = l.capacity from rfl]
    omega
  -- what stands after the new element is what stood from the first one on
  have hring : ∀ i < l.capacity, cells'[((b.bufferStart + l.capacity - 1) % l.capacity + i) % l.capacity]? =
      ((l.pushFront item).items.map some ++ rest.dropLast)[i]? := by
    intro i hi
    rw [Nat.mod_add_mod, hcells' i hi]
    simp only [BoundedList.pushFront, if_neg hzero]
    cases i with
    | zero =>
      rw [if_pos rfl]
      split <;> rfl
    | succ i =>
      have hplace : b.bufferStart + l.capacity - 1 + (i + 1) = b.bufferStart + i + l.capacity := by omega
      rw [if_neg (Nat.succ_ne_zero i), hplace, Nat.add_mod_right, h.ring i (by omega)]
      grind
  by_cases hroom : l.items.length < l.capacity
  · simp only [bind_some, if_pos hroom.ne]
    exact ⟨_, rfl, cells', rfl, hlen', rfl, (hlength.trans (Nat.min_eq_left hroom)).symm,
      .inl hlast, hrest', hring⟩
  · have hfull : l.items.length = l.capacity := by omega
    simp only [bind_some, hfull, ne_eq, not_true_eq_false, if_false]
    exact ⟨_, rfl, cells', rfl, hlen', rfl, (hlength.trans (Nat.min_eq_right (by omega))).symm,
      .inl hlast, hrest', hring⟩

theorem popBack_represents (h : Represents b l rest) (hl : l.popBack = some l') :
    ∃ b', b.popBack = some b' ∧ Represents b' l' (l.items.getLast? :: rest) := by
  obtain ⟨cells, h⟩ := h
  rw [BoundedList.popBack, ite_none_left_eq_some, some_inj] at hl
  obtain ⟨hne, rfl⟩ := hl
  have hrest := h.total
  have hsize : b.size ≠ 0 := by rwa [h.size, ne_eq, length_eq_zero_iff]
  have hring : l.items.dropLast.map some ++ l.items.getLast? :: rest = l.items.map some ++ rest := by
    conv_rhs => rw [← dropLast_append_getLast hne]
    rw [getLast?_eq_some_getLast hne, map_append, append_assoc]
    rfl
  refine ⟨_, if_neg hsize, cells, h.buffer, h.length, h.capacity, by simp [h.size], h.start, ?_,
    fun i hi => ?_⟩
  · have := h.size
    simp
    omega
  · rw [hring]
    exact h.ring i hi

theorem popFront_represents (h : Represents b l rest) (hl : l.popFront = some l') :
    ∃ b', b.popFront = some b' ∧ Represents b' l' (rest ++ [l.items.head?]) := by
  obtain ⟨cells, h⟩ := h
  rw [BoundedList.popFront, ite_none_left_eq_some, some_inj] at hl
  obtain ⟨hne, rfl⟩ := hl
  have hrest := h.total
  have hsize : b.size ≠ 0 := by rwa [h.size, ne_eq, length_eq_zero_iff]
  have hpos : 0 < l.capacity := by
    have := h.size
    omega
  rw [CircularBuffer.popFront, CircularBuffer.shrink, if_neg hsize]
  simp only [bind_eq_bind, bind_some, h.capacity, wrap_eq hpos]
  refine ⟨_, rfl, cells, h.buffer, h.length, rfl, by simp [h.size], .inl (Nat.mod_lt _ hpos), ?_,
    fun i hi => ?_⟩
  · have := h.size
    simp
    omega
  · have hi : i < l.capacity := hi
    obtain ⟨x, items, hitems⟩ := exists_cons_of_ne_nil hne
    rw [Nat.mod_add_mod, Nat.add_assoc, Nat.add_comm 1, h.cell hpos, mod_eq_ite (by omega)]
    simp only [hitems, tail_cons, head?_cons, length_cons] at hrest ⊢
    grind

theorem fillUp_represents (h : Represents b l rest) (newSize : Nat) (hmore : l.items.length < newSize)
    (hroom : newSize ≤ l.capacity) (item : α) :
    ∃ b', b.fillUp newSize item = some b' ∧
      Represents b' (l.resize newSize item) (rest.drop (newSize - l.items.length)) := by
  obtain ⟨cells, h⟩ := h
  have hlen := h.length
  have hstart := h.start
  have hrest := h.total
  have hcapacity : (l.resize newSize item).capacity = l.capacity :=
    (if_neg (by omega)).trans (Nat.max_eq_left hroom)
  have hitems : (l.resize newSize item).items = l.items ++ List.replicate (newSize - l.items.length) item :=
    if_neg (by omega)
  obtain ⟨cells', hfill, hlen', hcells'⟩ := fill_window cells b.bufferStart l.items.length
    (newSize - l.items.length) (some item) (by omega) (by omega)
  rw [hlen] at hfill hcells' hlen'
  rw [CircularBuffer.fillUp, h.buffer, h.capacity, h.size, wrap_eq (by omega)]
  simp only [bind_eq_bind, bind_some, hfill]
  refine ⟨_, rfl, cells', rfl, hlen'.trans hcapacity.symm, hcapacity.symm, ?_, hcapacity ▸ hstart,
    ?_, fun i hi => ?_⟩
  · simp [hitems]
    omega
  · simp [hitems, hcapacity]
    omega
  · -- the cells after the items are filled
    rw [hcapacity] at hi
    rw [hcapacity, hitems, hcells' i hi, h.ring i hi]
    clear hcells' hfill
    simp only [map_append, map_replicate, getElem?_append, length_append, length_map,
      length_replicate, getElem?_drop]
    grind

theorem resize_shrink {newSize : Nat} (hless : newSize ≤ l.items.length) (h : Represents b l rest)
    (item : α) : Represents { b with size := newSize } (l.resize newSize item)
      ((l.items.drop newSize).map some ++ rest.drop (newSize - l.items.length)) := by
  obtain ⟨cells, h⟩ := h
  have hrest := h.total
  have hitems : (l.resize newSize item).items = l.items.take newSize := if_pos hless
  have hcapacity : (l.resize newSize item).capacity = l.capacity := if_pos hless
  refine ⟨cells, h.buffer, h.length.trans hcapacity.symm, h.capacity.trans hcapacity.symm, ?_,
    hcapacity ▸ h.start, ?_, fun i hi => ?_⟩
  · rw [hitems, length_take_of_le hless]
  · simp [hitems, hcapacity]
    omega
  · rw [hcapacity] at hi
    rw [hcapacity, hitems, Nat.sub_eq_zero_of_le hless, drop_zero, ← append_assoc, ← map_append,
      take_append_drop]
    exact h.ring i hi

/-- A `resize` that grows is safe if its item is not in the array that is deleted for it. -/
def Op.Safe (l : BoundedList α) : Op α → Prop
  | .resize newSize (.element _) => newSize ≤ l.capacity
  | _ => True

theorem resize_represents (h : Represents b l rest) (newSize : Nat) {item : Item α} {x : α}
    (hread : l.read item = some x) :
    (∃ b', b.resize newSize item = some b' ∧
        Represents b' (l.resize newSize x)
          ((l.items.drop newSize).map some ++ rest.drop (newSize - l.items.length))) ∧
      Op.Safe l (.resize newSize item) ∨
    b.resize newSize item = none ∧ ¬ Op.Safe l (.resize newSize item) := by
  have hfits := l.fits
  obtain ⟨cells, hcells⟩ := h
  have hrest := hcells.total
  by_cases hless : newSize ≤ l.items.length
  · refine .inl ⟨⟨_, if_pos (hcells.size ▸ hless), resize_shrink hless ⟨cells, hcells⟩ x⟩, ?_⟩
    cases item with
    | value => trivial
    | element => exact hless.trans hfits
  have hdrop : l.items.drop newSize = [] := drop_eq_nil_of_le (by omega)
  unfold CircularBuffer.resize
  rw [hcells.size, hcells.capacity, if_neg hless, hdrop, map_nil, nil_append]
  by_cases hgrow : newSize > l.capacity
  · rw [if_pos hgrow]
    cases item with
    | element i => exact .inr ⟨rfl, not_le.mpr hgrow⟩
    | value item =>
      obtain rfl : item = x := some.inj hread
      obtain ⟨b₁, hb₁, h₁⟩ := setCapacity_represents ⟨cells, hcells⟩ newSize
      have hall : (l.setCapacity newSize).items = l.items := take_of_length_le (by omega)
      obtain ⟨b₂, hb₂, h₂⟩ := fillUp_represents h₁ newSize (by rw [hall]; omega) le_rfl item
      have hsame : (l.setCapacity newSize).resize newSize item = l.resize newSize item := by
        apply BoundedList.ext
        · simp only [BoundedList.resize, hall, if_neg hless]
          exact (Nat.max_self newSize).trans (Nat.max_eq_right (by omega)).symm
        · simp only [BoundedList.resize, hall]
      rw [hall, hsame, drop_eq_nil_of_le (by simp)] at h₂
      rw [drop_eq_nil_of_le (by omega)]
      exact .inl ⟨⟨b₂, by simp only [hb₁, bind_some, hb₂], h₂⟩, trivial⟩
  · rw [if_neg hgrow, read_eq ⟨cells, hcells⟩ hread, bind_some]
    refine .inl ⟨fillUp_represents ⟨cells, hcells⟩ newSize (by omega) (by omega) x, ?_⟩
    cases item with
    | value => trivial
    | element => exact not_lt.mp hgrow

theorem linearize_represents (h : Represents b l rest) : Represents b.linearize l rest := by
  obtain ⟨cells, h⟩ := h
  have hbuffer : b.linearize.buffer = some (cells.rotate b.bufferStart) := by
    rw [CircularBuffer.linearize, h.buffer]
    rfl
  refine ⟨_, hbuffer, (length_rotate ..).trans h.length, h.capacity, h.size, start_zero l.capacity,
    h.total, fun i hi => ?_⟩
  change (cells.rotate b.bufferStart)[(0 + i) % l.capacity]? = _
  rw [Nat.zero_add, Nat.mod_eq_of_lt hi, getElem?_rotate (h.length ▸ hi), h.length, Nat.add_comm,
    h.ring i hi]

theorem write_represents (h : Represents b l rest) {i : Nat} {item : α}
    (hl : l.write i item = some l') : ∃ b', b.write i item = some b' ∧ Represents b' l' rest := by
  obtain ⟨cells, h⟩ := h
  rw [BoundedList.write, ite_none_right_eq_some, some_inj] at hl
  obtain ⟨hi, rfl⟩ := hl
  have hfits := l.fits
  obtain ⟨cells', hstore, hlen', hcells'⟩ := h.exists_store b.bufferStart (hi.trans_le hfits) (some item)
  rw [CircularBuffer.write, h.buffer, h.capacity, wrap_eq (by omega)]
  simp only [bind_eq_bind, bind_some, hstore]
  refine ⟨_, rfl, cells', rfl, hlen', rfl, by simp [h.size], h.start, by simpa using h.total, fun j hj => ?_⟩
  refine (hcells' j hj).trans ?_
  have := h.ring j hj
  grind

theorem clear_represents (h : Represents b l rest) :
    Represents b.clear l.clear (l.items.map some ++ rest) := by
  obtain ⟨cells, h⟩ := h
  exact ⟨cells, h.buffer, h.length, h.capacity, rfl, h.start, by simpa [BoundedList.clear] using h.total,
    h.ring⟩

/-- Every operation that is safe goes through and does to the list what it says, any other has no
    result. -/
theorem step_represents (b : CircularBuffer α) (r : Ring α) (op : Op α) (r' : Ring α)
    (h : Represents b r.1 r.2) (hr : Ring.step r op = some r') :
    (∃ b', b.step op = some b' ∧ Represents b' r'.1 r'.2) ∧ op.Safe r.1 ∨ b.step op = none ∧
      ¬ op.Safe r.1 := by
  obtain ⟨l, hl, rfl⟩ := map_eq_some_iff.mp hr
  cases op with
  | pushBack item =>
    obtain ⟨x, hread, rfl⟩ := map_eq_some_iff.mp hl
    rw [CircularBuffer.step, read_eq h hread]
    exact .inl ⟨pushBack_represents h x, trivial⟩
  | pushFront item =>
    obtain ⟨x, hread, rfl⟩ := map_eq_some_iff.mp hl
    rw [CircularBuffer.step, read_eq h hread]
    exact .inl ⟨pushFront_represents h x, trivial⟩
  | popBack => exact .inl ⟨popBack_represents h hl, trivial⟩
  | popFront => exact .inl ⟨popFront_represents h hl, trivial⟩
  | resize newSize item =>
    obtain ⟨x, hread, rfl⟩ := map_eq_some_iff.mp hl
    exact resize_represents h newSize hread
  | setCapacity newCapacity => exact .inl ⟨some_inj.mp hl ▸ setCapacity_represents h newCapacity, trivial⟩
  | clear => exact .inl ⟨some_inj.mp hl ▸ ⟨_, rfl, clear_represents h⟩, trivial⟩
  | linearize => exact .inl ⟨some_inj.mp hl ▸ ⟨_, rfl, linearize_represents h⟩, trivial⟩
  | write i item => exact .inl ⟨write_represents h hl, trivial⟩

/-! ### Whole runs -/

theorem construct_represents (capacity : Nat) (elem : Option α) :
    ∃ b, construct capacity elem = some b ∧
      Represents b (Ring.make capacity elem).1 (Ring.make capacity elem).2 := by
  have hempty : Represents
    { buffer := some (List.replicate capacity none), bufferStart := 0, capacity, size := 0 }
      (BoundedList.make (α := α) capacity none) (List.replicate capacity none) := by
    refine ⟨_, rfl, length_replicate, rfl, rfl, start_zero capacity, by simp [BoundedList.make],
      fun i hi => ?_⟩
    rw [Nat.zero_add, Nat.mod_eq_of_lt hi]
    rfl
  cases elem with
  | none => exact ⟨_, rfl, hempty⟩
  | some elem =>
    obtain ⟨⟨b, hb, h⟩, -⟩ := (resize_represents hempty capacity
      (show BoundedList.read _ (.value elem) = some elem from rfl)).resolve_right
      fun hstuck => hstuck.2 trivial
    have hsame : (BoundedList.make capacity none).resize capacity elem =
        BoundedList.make capacity (some elem) := by
      apply BoundedList.ext
      · simp [BoundedList.resize, BoundedList.make]
      · simp only [BoundedList.resize, BoundedList.make, elim_none, elim_some, length_nil]
        cases capacity <;> simp
    rw [hsame] at h
    exact ⟨b, hb, by simpa [Ring.make, BoundedList.make] using h⟩

/-- The run of a buffer from its construction on. -/
def use (capacity : Nat) (elem : Option α) (ops : List (Op α)) : Option (CircularBuffer α) :=
  (construct capacity elem).bind fun b => run step b ops

/-- What a caller sees of a buffer that behaves as the list: its capacity and its size, the items
    under `[]`, and where they stand after `linearize`. -/
structure Behaves (b : CircularBuffer α) (l : BoundedList α) : Prop where
  capacity : b.capacity = l.capacity
  size : b.size = l.items.length
  size_le : b.size ≤ b.capacity
  start : 0 < b.capacity → b.bufferStart < b.capacity
  get : ∀ i < b.size, b.get i = (l.items[i]?).map some
  linearize : ∃ cells, b.linearize.buffer = some cells ∧ cells.take b.linearize.size = l.items.map some

theorem behaves_of_represents (h : Represents b l rest) : Behaves b l := by
  obtain ⟨cells', hlinear⟩ := linearize_represents h
  obtain ⟨cells, hcells⟩ := h
  have hfits := l.fits
  refine ⟨hcells.capacity, hcells.size, ?_, ?_, fun i hi => hcells.get_eq (hcells.size ▸ hi),
    cells', hlinear.buffer, ?_⟩
  · rw [hcells.size, hcells.capacity]
    exact hfits
  · have := hcells.start
    rw [hcells.capacity]
    omega
  · apply ext_getElem?
    intro i
    rw [hlinear.size, getElem?_map, getElem?_take]
    split
    · have hitem := hlinear.ring i (by omega)
      rw [show b.linearize.bufferStart = 0 from rfl, Nat.zero_add, Nat.mod_eq_of_lt (by omega),
        getElem?_append_left (by simpa), getElem?_map] at hitem
      exact hitem
    · rw [getElem?_eq_none (by omega), map_none]

/-- However a buffer is used, it behaves as the list exactly if every `resize` is safe: otherwise an
    item is read from an array that is deleted. -/
theorem behaves_as_boundedList_iff (capacity : Nat) (elem : Option α) (ops : List (Op α)) (l : BoundedList α)
    (h : run BoundedList.step (.make capacity elem) ops = some l) :
    (∃ b, use capacity elem ops = some b ∧ Behaves b l) ↔
      EveryStep BoundedList.step (fun l op => op.Safe l) (.make capacity elem) ops := by
  obtain ⟨b₀, hb₀, h₀⟩ := construct_represents capacity elem
  have hstep : ∀ (b : CircularBuffer α) l op l', (∃ rest, Represents b l rest) → l.step op = some l' →
      (∃ b', b.step op = some b' ∧ ∃ rest, Represents b' l' rest) ∧ op.Safe l ∨ b.step op = none ∧
        ¬ op.Safe l := by
    rintro b l op l' ⟨rest, h⟩ hl
    refine (step_represents b (l, rest) op _ h (by rw [Ring.step, hl]; rfl)).imp_left (And.imp_left ?_)
    rintro ⟨b', hb', h'⟩
    exact ⟨b', hb', _, h'⟩
  rw [use, hb₀, bind_some]
  rcases run_simulation hstep ⟨_, h₀⟩ h with ⟨⟨b, hb, rest, hrep⟩, hsafe⟩ | ⟨hstuck, hunsafe⟩
  · exact iff_of_true ⟨b, hb, behaves_of_represents hrep⟩ hsafe
  · refine iff_of_false ?_ hunsafe
    rintro ⟨b, hb, -⟩
    cases hstuck.symm.trans hb

/-- A buffer of four characters, used until they run around the end of the array; one is pushed a
    second time by reference. -/
theorem behaves_as_boundedList_iff_wrapped :
    ∃ b, use 4 (some 'a') [.popFront, .pushBack (.value 'b'), .pushBack (.element 3),
      .pushFront (.value 'd'),
        .write 1 'e', .linearize] = some b ∧ Behaves b ⟨4, ['d', 'e', 'a', 'b'], by decide⟩ := by
  refine (behaves_as_boundedList_iff 4 (some 'a') _ _ rfl).mpr ?_
  simp [EveryStep, BoundedList.step, Op.Safe]

/-- `resize(5, buffer[0])` on a buffer of one character. -/
theorem resize_own_element :
    use 1 (some 'a') [.resize 5 (.element 0)] = none ∧
      run BoundedList.step (.make 1 (some 'a')) [.resize 5 (.element 0)] =
        some ⟨5, ['a', 'a', 'a', 'a', 'a'], by decide⟩ :=
  ⟨rfl, rfl⟩

/-! ### The two ends and rotations -/

/-- `front` and `back` are the ends of the list, and a rotation brings its element at `k` to the
    front. -/
structure AccessRight (b : CircularBuffer α) (l : BoundedList α) : Prop where
  front : b.front = some l.items.head?
  back : b.back = some l.items.getLast?
  rotate : ∀ k < l.items.length, ∀ i < l.items.length,
    (b.rotate k).get i = some l.items[(k + i) % l.items.length]?

theorem Holds.get_rotate (h : Holds b cells l rest) (hpos : 0 < l.capacity) (k i : Nat) :
    (b.rotate k).get i = b.get (k + i) := by
  rw [h.get hpos, ← h.cell hpos, CircularBuffer.get, CircularBuffer.rotate, h.buffer, h.capacity,
    wrap_eq hpos]
  refine (getElem?_rotate (by rw [h.length]; exact Nat.mod_lt _ hpos)).trans ?_
  rw [h.length, Nat.mod_add_mod, Nat.add_assoc, Nat.add_comm i]

/-- The cells behind the last item: first the rest, then the items again. -/
theorem Holds.get_behind (h : Holds b cells l rest) {i : Nat} (hi : i < l.items.length) :
    b.get (l.items.length + i) = (rest ++ l.items.map some)[i]? := by
  have htotal := h.total
  rw [h.get (by omega), mod_eq_ite (by omega)]
  split
  · rw [getElem?_append_right (by simp), getElem?_append_left (by omega), length_map,
      Nat.add_sub_cancel_left]
  · rw [getElem?_append_left (by simp; omega), getElem?_append_right (by omega)]
    congr 1
    omega

/-- `back` and `rotate` are right exactly if what the operations have left behind the last item,
    with the items again behind that, begins with the last item and with all items but the last. -/
theorem accessRight_iff {capacity : Nat} {elem : Option α} {ops : List (Op α)}
    (hrun : run Ring.step (Ring.make capacity elem) ops = some (l, rest))
    (hb : use capacity elem ops = some b) (hne : l.items ≠ []) :
    AccessRight b l ↔ (rest ++ l.items.map some).head? = some l.items.getLast? ∧
      ∀ i, i + 1 < l.items.length → (rest ++ l.items.map some)[i]? = some l.items[i]? := by
  obtain ⟨b₀, hb₀, h₀⟩ := construct_represents capacity elem
  rw [use, hb₀, bind_some] at hb
  obtain ⟨⟨b', hb', cells, h⟩, -⟩ := (run_simulation step_represents h₀ hrun).resolve_right fun hstuck => by
    cases hstuck.1.symm.trans hb
  cases hb.symm.trans hb'
  have h : Holds b cells l rest := h
  have hfits := l.fits
  have hlength : 0 < l.items.length := length_pos_iff.mpr hne
  have hpos : 0 < l.capacity := hlength.trans_le hfits
  have hget (i : Nat) (hi : i < l.items.length) : b.get i = some l.items[i]? := by
    rw [h.get_eq hi, getElem?_eq_getElem hi]
    rfl
  have hfront : b.front = some l.items.head? := by
    rw [head?_eq_getElem?, ← hget 0 hlength, h.get hpos, ← h.cell hpos, CircularBuffer.front,
      h.buffer, Nat.add_zero, Nat.mod_eq_of_lt (by have := h.start; omega)]
    rfl
  have hback : b.back = (rest ++ l.items.map some).head? := by
    rw [head?_eq_getElem?, ← h.get_behind hlength, Nat.add_zero, CircularBuffer.back, h.size]
  constructor
  · rintro ⟨-, hlast, hrotated⟩
    refine ⟨hback.symm.trans hlast, fun i hi => ?_⟩
    have hlast := hrotated (l.items.length - 1) (by omega) (i + 1) hi
    rwa [h.get_rotate hpos, show l.items.length - 1 + (i + 1) = l.items.length + i by omega,
      Nat.add_mod_left, Nat.mod_eq_of_lt (by omega), h.get_behind (by omega)] at hlast
  · rintro ⟨hlast, hbehind⟩
    refine ⟨hfront, hback.trans hlast, fun k hk i hi => ?_⟩
    rw [h.get_rotate hpos]
    by_cases hlt : k + i < l.items.length
    · rw [Nat.mod_eq_of_lt hlt, hget _ hlt]
    · -- behind the last item
      obtain ⟨j, hj⟩ := Nat.exists_eq_add_of_le (Nat.le_of_not_lt hlt)
      rw [hj, Nat.add_mod_left, Nat.mod_eq_of_lt (by omega), h.get_behind (by omega), hbehind j (by omega)]

/-- A full buffer of three items that run around the end of the array, the first one equal to the
    last. -/
theorem accessRight_iff_wrapped :
    ∃ b, use 3 (some 'a') [.pushBack (.value 'b'), .pushBack (.value 'a')] = some b ∧ b.bufferStart = 2 ∧
      AccessRight b ⟨3, ['a', 'b', 'a'], by decide⟩ := by
  have hrun : run Ring.step (Ring.make 3 (some 'a')) [.pushBack (.value 'b'), .pushBack (.value 'a')] =
      some (⟨3, ['a', 'b', 'a'], by decide⟩, []) := rfl
  have hb : use 3 (some 'a') [.pushBack (.value 'b'), .pushBack (.value 'a')] =
      some ⟨some [some 'b', some 'a', some 'a'], 2, 3, 3⟩ := rfl
  refine ⟨_, hb, rfl, (accessRight_iff hrun hb (by simp)).mpr ⟨rfl, fun i hi => ?_⟩⟩
  have hi : i < 2 := Nat.lt_of_succ_lt_succ hi
  interval_cases i <;> rfl

/-- The element pushed into a new buffer of two cells is not the one that `back` refers to. -/
theorem back_pushed : ∃ b, use 2 none [.pushBack (.value 'a')] = some b ∧
    ¬AccessRight b ⟨2, ['a'], by decide⟩ :=
  ⟨_, rfl, fun h => absurd h.back (by decide)⟩

/-! ### Copies -/

/-- What a caller sees of a buffer. -/
def observe (b : CircularBuffer α) : Nat × Nat × List (Option (Option α)) :=
  (b.capacity, b.size, (range b.size).map b.get)

/-- The copy equals the buffer and behaves like it. -/
structure CopiedRight [DecidableEq α] (b copy : CircularBuffer α) : Prop where
  equals : copy.equals b = some true
  capacity : copy.capacity = b.capacity
  owned : copy.buffer.map length = some b.capacity
  behaves : ∀ ops, (run step copy ops).map observe = (run step b ops).map observe

theorem allM_eq_true {β : Type} {xs : List β} {p : β → Option Bool} (h : ∀ x ∈ xs, p x = some true) :
    xs.allM p = some true := by
  induction xs with
  | nil => rfl
  | cons x xs ih =>
    rw [allM, h x mem_cons_self]
    exact ih fun y hy => h y (mem_cons_of_mem x hy)

/-- The copy of a buffer without an array has an empty one. No operation makes a difference between
    the two. -/
theorem step_emptyArray (op : Op α) : step ⟨some [], 0, 0, 0⟩ op = step empty op ∨
    step ⟨some [], 0, 0, 0⟩ op = some ⟨some [], 0, 0, 0⟩ ∧
      step empty op = some (empty : CircularBuffer α) := by
  have hcapacity (n : Nat) : setCapacity (α := α) ⟨some [], 0, 0, 0⟩ n = setCapacity empty n := by
    simp [setCapacity, memmove, empty]
  cases op with
  | pushBack item | pushFront item =>
    cases item with
    | value => exact .inr ⟨rfl, rfl⟩
    | element => exact .inl rfl
  | popBack | popFront => exact .inl rfl
  | resize newSize item =>
    cases newSize with
    | zero => exact .inr ⟨rfl, rfl⟩
    | succ n =>
      left
      cases item with
      | value item =>
        rw [step, step, resize, resize, hcapacity]
        rfl
      | element => rfl
  | setCapacity n => exact .inl (hcapacity n)
  | clear | linearize => exact .inr ⟨rfl, rfl⟩
  | write => exact .inl rfl

theorem run_emptyArray (ops : List (Op α)) :
    (run step ⟨some [], 0, 0, 0⟩ ops).map observe =
      (run step (empty : CircularBuffer α) ops).map observe := by
  induction ops with
  | nil => rfl
  | cons op ops ih =>
    rw [run, run]
    rcases step_emptyArray op with hsame | ⟨hcopy, hempty⟩
    · rw [hsame]
    · rw [hcopy, hempty]
      exact ih

/-- A copy has an array of as many cells as there are elements, so it is right if there is no other
    cell. -/
theorem copiedRight_iff [DecidableEq α] (h : b = empty ∨ ∃ rest, Represents b l rest) :
    ∃ copy, b.copy = some copy ∧ (CopiedRight b copy ↔ b.size = b.capacity) := by
  obtain rfl | ⟨rest, cells, h⟩ := h
  · exact ⟨_, rfl, iff_of_true ⟨rfl, rfl, rfl, run_emptyArray⟩ rfl⟩
  have hroom : b.size ≤ cells.length := by
    rw [h.size, h.length]
    exact l.fits
  have hcopy : b.copy = some { b with buffer := some (cells.take b.size) } := by
    rw [CircularBuffer.copy, h.buffer, memmove, if_pos (by simpa using hroom)]
    simp
  refine ⟨_, hcopy, fun hright => ?_, fun hfull => ?_⟩
  · have howned := some.inj hright.owned
    rwa [length_take_of_le hroom] at howned
  · have hsame : ({ b with buffer := some (cells.take b.size) } : CircularBuffer α) = b := by
      rw [take_of_length_le (by rw [h.length, ← h.capacity, hfull]), ← h.buffer]
    rw [hsame]
    refine ⟨?_, rfl, by rw [h.buffer, map_some, h.length, h.capacity], fun _ => rfl⟩
    rw [CircularBuffer.equals, if_neg (not_not.mpr rfl)]
    refine allM_eq_true fun i hi => ?_
    have hi : i < l.items.length := h.size ▸ mem_range.mp hi
    rw [h.get_eq hi, getElem?_eq_getElem hi]
    simp

/-- The copy of a full buffer of three items that run around the end of the array. -/
theorem copiedRight_iff_wrapped :
    ∃ copy, CircularBuffer.copy ⟨some ['b', 'a', 'c'], 2, 3, 3⟩ = some copy ∧
      CopiedRight ⟨some [some 'b', some 'a', some 'c'], 2, 3, 3⟩ copy := by
  have h : Represents ⟨some [some 'b', some 'a', some 'c'], 2, 3, 3⟩ ⟨3, ['c', 'b', 'a'], le_rfl⟩ [] := by
    refine ⟨_, rfl, rfl, rfl, rfl, .inl (by decide), rfl, fun i hi => ?_⟩
    have hi : i < 3 := hi
    interval_cases i <;> rfl
  obtain ⟨copy, hcopy, hright⟩ := copiedRight_iff (.inr ⟨[], h⟩)
  exact ⟨copy, hcopy, hright.mpr rfl⟩

/-- The copy of a new buffer of one cell has no cell: pushing an element writes behind its array. -/
theorem copy_not_owned : ∃ b copy, construct 1 (none : Option Char) = some b ∧ b.copy = some copy ∧
    copy.pushBack 'a' = none ∧ ¬CopiedRight b copy :=
  ⟨_, _, rfl, rfl, rfl, fun h => absurd h.owned (by decide)⟩

end NsuLabs.CircularBuffer
