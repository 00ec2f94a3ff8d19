/-
Module: NsuLabs.FindSubstring.FindSubstring
Purpose: `C-Labs/Find_substring_KMP`, `C-Labs/Find_substring_Boyer-Moore` and
  `C-Labs/Find_substring_Rabin-Karp`. They move a window over the text, with a buffer that is filled up when
  the window reaches its end; the three copies of that code differ in three parameters. Each iteration of
  `findSubstring` leaves behind where it was, which positions it has printed and what `isMatch` returned. The
  loop over the prefixes takes fuel.
Trusted boundary: A file is read to its end without errors, and `malloc` succeeds and
  gives memory with any contents. The buffer is a function of the index; the places from `size + 1` on are
  behind its end. Positions fit into a `size_t`. The powers of 3 that `pow` computes are exact, and an `int`
  of the hashes is an integer
Main exports: SearchWindow, searchLoop
-/
import Mathlib

namespace NsuLabs.FindSubstring

def substringMaxSize : Nat := 16

/-- The strings that `main` passes on as `substring`. -/
structure Pattern where
  bytes : List UInt8
  nonempty : bytes ≠ []
  length_le : bytes.length ≤ substringMaxSize
  noNul : 0 ∉ bytes

/-- A string in the memory, with a NUL at its end. -/
def cString (bytes : List UInt8) (i : Nat) : UInt8 := bytes.getD i 0

abbrev Buffer := Nat → UInt8

/-- The bytes that are read, and what is left of the stream. -/
def fread (stream : List UInt8) (count : Nat) : List UInt8 × List UInt8 :=
  (stream.take count, stream.drop count)

/-- The buffer after the bytes have been written from this place on. -/
def Buffer.write (buffer : Buffer) (whereTo : Nat) (bytes : List UInt8) : Buffer :=
  fun i => if whereTo ≤ i ∧ i < whereTo + bytes.length then bytes.getD (i - whereTo) 0 else buffer i

/-- `memmove` of so many bytes to the front. -/
def memmove (buffer : Buffer) (source count : Nat) : Buffer :=
  fun i => if i < count then buffer (source + i) else buffer i

/-- `strcpy` to the front. A byte is copied if there is no NUL before it. Where there is none in the
    buffer at all, the copy is followed up to the end of the buffer. -/
def strcpy (size : Nat) (buffer : Buffer) (source : Nat) : Buffer :=
  fun i => if source + i ≤ size ∧ ∀ j < i, buffer (source + j) ≠ 0 then buffer (source + i) else buffer i

/-- The part of the text that is in memory. -/
structure SearchWindow where
  inputStream : List UInt8
  textBuffer : Buffer
  textLen : Nat
  curIndex : Nat
  globalIndex : Nat
  isEmpty : Bool

namespace SearchWindow

/-- `initSearchWindow`, with the test for an empty window, on a buffer that has not been written to. -/
def init (size : Nat) (testEmpty : (textLen : Nat) → Bool) (memory : Buffer) (stream : List UInt8) :
    SearchWindow :=
  let (bytes, rest) := fread stream size
  { inputStream := rest
    textBuffer := memory.write 0 bytes
    textLen := bytes.length
    curIndex := 0
    globalIndex := 0
    isEmpty := testEmpty bytes.length }

/-- Read a new chunk of text. The last `behind` bytes before the window are kept. -/
def refill (size behind : Nat) (copy : Buffer → (source : Nat) → Buffer) (window : SearchWindow) :
    SearchWindow :=
  let textBuffer := copy window.textBuffer (window.curIndex - behind)
  let remainedTextLen := size - window.curIndex + behind
  let (bytes, rest) := fread window.inputStream (size - remainedTextLen)
  { window with
    inputStream := rest
    textBuffer := textBuffer.write remainedTextLen bytes
    textLen := remainedTextLen + bytes.length
    curIndex := behind }

/-- `moveForward` after the shift has been calculated. -/
def moveForward (size behind : Nat) (copy : Buffer → (source : Nat) → Buffer) (substrLen shift : Nat)
    (window : SearchWindow) : SearchWindow :=
  let window := { window with
    curIndex := window.curIndex + shift, globalIndex := window.globalIndex + shift }
  let window := if window.curIndex + substrLen > size then window.refill size behind copy else window
  -- check if the end of whole text is reached
  if window.curIndex + substrLen > window.textLen then { window with isEmpty := true } else window

end SearchWindow

/-- A loop that compares at these positions, one after the other, up to the first difference: the
    positions that were compared, and whether there was no difference. -/
def comparePositions (equal : Nat → Bool) : List Nat → List Nat × Bool
  | [] => ([], true)
  | pos :: rest =>
    if equal pos then
      let (compared, result) := comparePositions equal rest
      (pos :: compared, result)
    else ([pos], false)

/-- The loop of `findSubstring`: what each iteration leaves behind. `none` if an iteration fails, or
    if the fuel does not suffice. -/
def searchLoop {σ ρ : Type} (isEmpty : σ → Bool) (iteration : σ → Option (ρ × σ)) :
    (fuel : Nat) → σ → Option (List ρ)
  | 0, s => if isEmpty s then some [] else none
  | fuel + 1, s =>
    if isEmpty s then some []
    else do
      let (r, s) ← iteration s
      let rs ← searchLoop isEmpty iteration fuel s
      some (r :: rs)

end NsuLabs.FindSubstring

namespace NsuLabs.FindSubstring.RabinKarp

def bufferSize : Nat := 1024

/-- `(uchar_t)c % 3` -/
def digit (c : UInt8) : Int := (c.toNat % 3 : Nat)

def hash (str : Nat → UInt8) (sz : Nat) : Int :=
  (List.range sz).foldl (fun sum i => sum + digit (str i) * 3 ^ i) 0

/-- The pattern and its hash. -/
structure SearchState where
  substring : List UInt8
  hash : Int
  hashMultiplyer : Int

def initSearchState (substring : List UInt8) : SearchState where
  substring := substring
  hash := hash (cString substring) substring.length
  hashMultiplyer := 3 ^ (substring.length - 1)

/-- A window with its hash. -/
structure Window extends SearchWindow where
  curHash : Int

def initSearchWindow (memory : Buffer) (stream : List UInt8) (state : SearchState) : Window :=
  let window := SearchWindow.init bufferSize (fun textLen => !decide (textLen > 0)) memory stream
  { window with curHash := hash window.textBuffer state.substring.length }

/-- The indices that are printed, and the result. -/
def isMatch (window : Window) (state : SearchState) : List Nat × Bool :=
  if window.curHash ≠ state.hash then ([], false)
  else
    let equal := fun i => cString state.substring i = window.textBuffer (window.curIndex + i)
    let (compared, result) := comparePositions (equal ·) (List.range state.substring.length)
    (compared.map (window.globalIndex + · + 1), result)

def updateHash (window : Window) (state : SearchState) : Window :=
  let curHash := window.curHash - digit (window.textBuffer (window.curIndex - 1))
  let curHash := curHash.tdiv 3
  let nextCharIdx := window.curIndex + state.substring.length - 1
  { window with curHash := curHash + digit (window.textBuffer nextCharIdx) * state.hashMultiplyer }

def moveForward (window : Window) (state : SearchState) : Window :=
  let moved := window.toSearchWindow.moveForward bufferSize 1 (strcpy bufferSize) state.substring.length 1
  updateHash { moved with curHash := window.curHash } state

/-- What one iteration leaves behind. -/
structure Visit where
  globalIndex : Nat
  curHash : Int
  printed : List Nat
  isMatch : Bool
deriving DecidableEq

def iteration (state : SearchState) (window : Window) : Option (Visit × Window) :=
  let (printed, isMatch) := isMatch window state
  some ({ globalIndex := window.globalIndex, curHash := window.curHash, printed, isMatch },
    moveForward window state)

/-- The hash of the substring, which is printed, and the iterations. -/
def findSubstring (memory : Buffer) (substring stream : List UInt8) : Option (Int × List Visit) := do
  let state := initSearchState substring
  let visits ← searchLoop (fun window => window.isEmpty) (iteration state) (stream.length + 1)
    (initSearchWindow memory stream state)
  some (state.hash, visits)

end NsuLabs.FindSubstring.RabinKarp

namespace NsuLabs.FindSubstring.BoyerMoore

def bufferSize : Nat := 64

/-- The pattern and its shifts. -/
structure SearchState where
  substring : List UInt8
  shiftTable : UInt8 → Nat

/-- The body of the second loop of `initShiftTable`. -/
def setShift (substring : List UInt8) (table : UInt8 → Nat) (pos : Nat) : UInt8 → Nat :=
  if table (cString substring pos) = substring.length then
    Function.update table (cString substring pos) (substring.length - pos - 1)
  else table

def initShiftTable (substring : List UInt8) : UInt8 → Nat :=
  (List.range (substring.length - 1)).reverse.foldl (setShift substring) fun _ => substring.length

def initSearchState (substring : List UInt8) : SearchState :=
  { substring, shiftTable := initShiftTable substring }

def initSearchWindow (memory : Buffer) (stream : List UInt8) : SearchWindow :=
  SearchWindow.init bufferSize (fun textLen => !decide (textLen > 0)) memory stream

/-- The indices that are printed, and the result. -/
def isMatch (window : SearchWindow) (state : SearchState) : List Nat × Bool :=
  let equal := fun pos => window.textBuffer (window.curIndex + pos) = cString state.substring pos
  let (compared, result) := comparePositions (equal ·) (List.range state.substring.length).reverse
  (compared.map (window.globalIndex + · + 1), result)

def calculateShift (window : SearchWindow) (state : SearchState) : Nat :=
  state.shiftTable (window.textBuffer (window.curIndex + state.substring.length - 1))

def moveForward (window : SearchWindow) (state : SearchState) : SearchWindow :=
  window.moveForward bufferSize 0 (strcpy bufferSize) state.substring.length (calculateShift window state)

/-- What one iteration leaves behind. -/
structure Visit where
  globalIndex : Nat
  printed : List Nat
  isMatch : Bool
deriving DecidableEq

def iteration (state : SearchState) (window : SearchWindow) : Option (Visit × SearchWindow) :=
  let (printed, isMatch) := isMatch window state
  some ({ globalIndex := window.globalIndex, printed, isMatch }, moveForward window state)

def findSubstring (memory : Buffer) (substring stream : List UInt8) : Option (List Visit) :=
  let state := initSearchState substring
  searchLoop SearchWindow.isEmpty (iteration state) (stream.length + 1) (initSearchWindow memory stream)

end NsuLabs.FindSubstring.BoyerMoore

namespace NsuLabs.FindSubstring.KnuthMorrisPratt

def bufferSize : Nat := 1024

/-- An entry of the table as a `size_t`. -/
def toSize (entry : Int32) : Nat := (entry.toInt % 2 ^ 64).toNat

/-- The inner loop of `initPrefixTable`. It has no result if it reads behind the string. -/
def fallBack (substring : List UInt8) (table : List Int32) (i : Nat) : (fuel k : Nat) → Option Nat
  | 0, _ => none
  | fuel + 1, k =>
    if substring.length < k then none
    else if k > 0 ∧ cString substring i ≠ cString substring k then do
      let entry ← table[k - 1]?
      fallBack substring table i fuel (toSize entry)
    else some k

/-- The body of the outer loop: the entry at `i`, to which the `size_t` is converted. -/
def nextPrefix (substring : List UInt8) (table : List Int32) (i : Nat) : Option (List Int32) := do
  let entry ← table[i - 1]?
  let k ← fallBack substring table i i (toSize entry)
  some (table ++ [.ofNat (if cString substring i = cString substring k then k + 1 else k)])

def initPrefixTable (substring : List UInt8) : Option (List Int32) :=
  (List.range' 1 (substring.length - 1)).foldlM (nextPrefix substring) [0]

/-- The pattern, its table and the match so far. -/
structure SearchState where
  substring : List UInt8
  table : List Int32
  matchCount : Nat

def initSearchState (substring : List UInt8) : Option SearchState := do
  let table ← initPrefixTable substring
  some { substring, table, matchCount := 0 }

def initSearchWindow (memory : Buffer) (input : List UInt8) (substrLen : Nat) : SearchWindow :=
  SearchWindow.init bufferSize (fun textLen => decide (textLen < substrLen)) memory input

def isMatch (window : SearchWindow) (state : SearchState) : Bool × SearchState :=
  let positions := List.range' state.matchCount (state.substring.length - state.matchCount)
  match positions.find? fun pos => window.textBuffer (window.curIndex + pos) ≠
    cString state.substring pos with
  | some pos => (false, { state with matchCount := pos })
  | none => (true, { state with matchCount := state.substring.length })

/-- The shift, and the state with the number of characters that are known to match after it. -/
def calculateShift (state : SearchState) : Option (Nat × SearchState) :=
  if state.matchCount = 0 then some (1, state)
  else do
    let entry ← state.table[state.matchCount - 1]?
    -- a `size_t` less an `int`, which becomes a `size_t`
    some ((state.matchCount + (2 ^ 64 - toSize entry)) % 2 ^ 64, { state with matchCount := toSize entry })

def moveForward (window : SearchWindow) (state : SearchState) : Option (SearchWindow × SearchState) := do
  let (shift, state) ← calculateShift state
  let copy := fun buffer source => memmove buffer source (bufferSize - source)
  some (window.moveForward bufferSize 0 copy state.substring.length shift, state)

/-- What an iteration prints, and the state after it. -/
def iteration (s : SearchWindow × SearchState) : Option (List (Nat × Nat) × SearchWindow × SearchState) := do
  let (window, state) := s
  let (_, state) := isMatch window state
  let printed := if state.matchCount ≠ 0 then [(window.globalIndex + 1, state.matchCount)] else []
  some (printed, ← moveForward window state)

/-- The table, and the positions with the lengths of the prefixes that stand there. -/
def findSubstring (memory : Buffer) (substring input : List UInt8) :
    Option (List Int32 × List (Nat × Nat)) := do
  let state ← initSearchState substring
  let window := initSearchWindow memory input substring.length
  let printed ← searchLoop (fun s => s.1.isEmpty) iteration (input.length + 1) (window, state)
  some (state.table, printed.flatten)

end NsuLabs.FindSubstring.KnuthMorrisPratt
