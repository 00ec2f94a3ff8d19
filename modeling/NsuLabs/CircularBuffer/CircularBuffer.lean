/-
Module: NsuLabs.CircularBuffer.CircularBuffer
Purpose: The circular buffer of the first C++ lab. Copies and fills that run around the end of the array are
  done in two parts, as in the source. An item is passed by reference and may be an element of the buffer
  itself. What leaves the array, reads through the null pointer or a reference into a deleted array, or
  divides by zero has no result.
Trusted boundary: Allocations succeed, so a capacity stays below 2^63 and sums of two sizes do not wrap
  around
Main exports: step, copy
-/
import NsuLabs.Lib.Arrays

namespace NsuLabs

open NsuLabs.Lib

/-- `class CircularBuffer`. A cell of the raw array that nothing was written to yet is `none`, the
    null pointer is `buffer = none`. -/
structure CircularBuffer (α : Type) where
  buffer : Option (List (Option α))
  bufferStart : Nat
  capacity : Nat
  size : Nat
deriving DecidableEq

namespace CircularBuffer

/-- An argument `const value_type &item`: some value, or `buffer[i]`. -/
inductive Item (α : Type) where
  | value (item : α)
  | element (i : Nat)
deriving DecidableEq

/-- What a caller can do with a buffer once it is constructed. -/
inductive Op (α : Type) where
  | pushBack (item : Item α)
  | pushFront (item : Item α)
  | popBack
  | popFront
  | resize (newSize : Nat) (item : Item α)
  | setCapacity (newCapacity : Nat)
  | clear
  | linearize
  | write (i : Nat) (item : α)
deriving DecidableEq

variable {α : Type}

/-- `i % capacity`, undefined for a capacity of zero. -/
def wrap (i capacity : Nat) : Option Nat := if capacity = 0 then none else some (i % capacity)

/-- `CircularBuffer()`. -/
def empty : CircularBuffer α := { buffer := none, bufferStart := 0, capacity := 0, size := 0 }

/-- `operator[]`, the cell that `i` refers to. -/
def get (b : CircularBuffer α) (i : Nat) : Option (Option α) := do
  let buffer ← b.buffer
  let place ← wrap (b.bufferStart + i) b.capacity
  buffer[place]?

/-- The value that the reference is to. -/
def read (b : CircularBuffer α) : Item α → Option α
  | .value item => some item
  | .element i => (b.get i).join

/-- `set_capacity`. -/
def setCapacity (b : CircularBuffer α) (newCapacity : Nat) : Option (CircularBuffer α) := do
  let newSize := min b.size newCapacity
  let newBuffer := List.replicate newCapacity none
  let newBuffer ← match b.buffer with
    | none => some newBuffer
    | some buffer =>
      let firstPartSize := min newSize (b.capacity - b.bufferStart)
      (memmove newBuffer 0 buffer b.bufferStart firstPartSize).bind fun newBuffer =>
        if firstPartSize < newSize then memmove newBuffer firstPartSize buffer 0 (newSize - firstPartSize)
        else some newBuffer
  return { buffer := some newBuffer, bufferStart := 0, capacity := newCapacity, size := newSize }

/-- `resize`: the part after the early return, once there is room for `newSize` elements. -/
def fillUp (b : CircularBuffer α) (newSize : Nat) (item : α) : Option (CircularBuffer α) := do
  let buffer ← b.buffer
  let fillBegin ← wrap (b.bufferStart + b.size) b.capacity
  let fillQuantity := newSize - b.size
  let firstPartSize := min fillQuantity (b.capacity - fillBegin)
  let buffer ← (fill buffer fillBegin firstPartSize (some item)).bind fun buffer =>
    if firstPartSize < fillQuantity then fill buffer 0 (fillQuantity - firstPartSize) (some item)
    else some buffer
  return { b with buffer := some buffer, size := newSize }

/-- `resize`. -/
def resize (b : CircularBuffer α) (newSize : Nat) (item : Item α) : Option (CircularBuffer α) :=
  if newSize ≤ b.size then some { b with size := newSize }
  else if newSize > b.capacity then
    match item with
    | .value item => (b.setCapacity newSize).bind fun b => b.fillUp newSize item
    -- `set_capacity` deletes the array of the element before `fill_n` reads it
    | .element _ => none
  else (b.read item).bind fun item => b.fillUp newSize item

/-- `CircularBuffer(capacity)` and `CircularBuffer(capacity, elem)`. -/
def construct (capacity : Nat) (elem : Option α) : Option (CircularBuffer α) := do
  let b ← empty.setCapacity capacity
  match elem with
  | none => return b
  | some elem => b.resize capacity (.value elem)

/-- `push_back`. A full buffer loses its first element. -/
def pushBack (b : CircularBuffer α) (item : α) : Option (CircularBuffer α) :=
  if b.capacity = 0 then some b
  else do
    let buffer ← store (← b.buffer) (← wrap (b.bufferStart + b.size) b.capacity) (some item)
    if b.size ≠ b.capacity then return { b with buffer := some buffer, size := b.size + 1 }
    else return { b with buffer := some buffer, bufferStart := ← wrap (b.bufferStart + 1) b.capacity }

/-- `push_front`. The element before the first one of a full buffer is its last. -/
def pushFront (b : CircularBuffer α) (item : α) : Option (CircularBuffer α) :=
  if b.capacity = 0 then some b
  else do
    let place ← wrap (b.bufferStart + b.capacity - 1) b.capacity
    let buffer ← store (← b.buffer) place (some item)
    if b.size ≠ b.capacity then
      return { b with buffer := some buffer, bufferStart := place, size := b.size + 1 }
    else return { b with buffer := some buffer, bufferStart := place }

/-- `--size_`, which has no predecessor in an empty buffer. -/
def shrink (b : CircularBuffer α) : Option (CircularBuffer α) :=
  if b.size = 0 then none else some { b with size := b.size - 1 }

/-- `pop_back`. -/
def popBack (b : CircularBuffer α) : Option (CircularBuffer α) := b.shrink

/-- `pop_front`. -/
def popFront (b : CircularBuffer α) : Option (CircularBuffer α) := do
  let b ← b.shrink
  return { b with bufferStart := ← wrap (b.bufferStart + 1) b.capacity }

/-- `clear`. -/
def clear (b : CircularBuffer α) : CircularBuffer α := { b with size := 0 }

/-- `linearize`: `std::rotate` brings the first element to the front of the array. -/
def linearize (b : CircularBuffer α) : CircularBuffer α :=
  { b with buffer := b.buffer.map fun buffer => buffer.rotate b.bufferStart, bufferStart := 0 }

/-- `front`, a reference to the first cell. -/
def front (b : CircularBuffer α) : Option (Option α) := b.buffer.bind fun buffer => buffer[b.bufferStart]?

/-- `back`, which adds the whole size to the place of the first element. -/
def back (b : CircularBuffer α) : Option (Option α) := b.get b.size

/-- `rotate`: `std::rotate` of the whole array, wherever the first element stands in it. -/
def rotate (b : CircularBuffer α) (newBegin : Nat) : CircularBuffer α :=
  { b with buffer := b.buffer.map fun buffer => buffer.rotate newBegin }

/-- `CircularBuffer(other)`, which assignment swaps its object with: the cells at the front of the
    array, as many as there are elements. -/
def copy (other : CircularBuffer α) : Option (CircularBuffer α) := do
  let buffer ← memmove (List.replicate other.size none) 0 (other.buffer.getD []) 0 other.size
  return { other with buffer := some buffer }

/-- `operator==`. -/
def equals [DecidableEq α] (a b : CircularBuffer α) : Option Bool :=
  if a.size ≠ b.size then some false
  else (List.range a.size).allM fun i => do return decide ((← a.get i) = (← b.get i))

/-- `buffer[i] = item`, through the reference that `operator[]` returns. -/
def write (b : CircularBuffer α) (i : Nat) (item : α) : Option (CircularBuffer α) := do
  let buffer ← store (← b.buffer) (← wrap (b.bufferStart + i) b.capacity) (some item)
  return { b with buffer := some buffer }

def step (b : CircularBuffer α) : Op α → Option (CircularBuffer α)
  | .pushBack item => (b.read item).bind b.pushBack
  | .pushFront item => (b.read item).bind b.pushFront
  | .popBack => b.popBack
  | .popFront => b.popFront
  | .resize newSize item => b.resize newSize item
  | .setCapacity newCapacity => b.setCapacity newCapacity
  | .clear => some b.clear
  | .linearize => some b.linearize
  | .write i item => b.write i item

end CircularBuffer

end NsuLabs
