/-
Module: NsuLabs.GameOfLife.Universe
Purpose: The universe of the game of life lab: the rules with their MCell notation, the field of cells, the
  universe with its name and its two fields, and its text format with the writer and the reader.
Trusted boundary: Allocations succeed; the vectors are those of libstdc++. The file is written and read as
  the text it is; opening it and the texts of the log are left out
Main exports: read_written, resize_keptOnThrow_iff
-/
import NsuLabs.Lib.Positional

namespace NsuLabs.GameOfLife

open Lib

/-! ### `class Rules` -/

/-- `std::bitset<9>`: one flag for every number of neighbours. -/
abbrev Flags := Fin 9 → Bool

/-- The counts for birth and survival. -/
structure Rules where
  neighboursToBorn : Flags
  neighboursToSurvive : Flags
deriving DecidableEq

/-- `std::isdigit(c) && c <= '8'`, with `charToDigit`. -/
def flagDigit (c : Char) : Option (Fin 9) :=
  if h : 48 ≤ c.toNat ∧ c.toNat ≤ 56 then some ⟨c.toNat - 48, by omega⟩ else none

/-- The loop over the characters of one part of a notation. -/
def setFlags (flags : Flags) (text : Text) : Flags :=
  text.foldl (fun flags c => (flagDigit c).elim flags fun i => Function.update flags i true) flags

/-- The loop that appends the number of every flag that is set. -/
def printFlags (flags : Flags) : Text :=
  (List.finRange 9).flatMap fun i => if flags i then printSize i else []

namespace Rules

/-- `Rules::Rules` of two lists. -/
def ofLists (born survive : List (Fin 9)) : Rules :=
  { neighboursToBorn := fun i => i ∈ born, neighboursToSurvive := fun i => i ∈ survive }

/-- `Rules::ConwayGameOfLife`. -/
def conwayGameOfLife : Rules := ofLists [3] [2, 3]

/-- `Rules::FromMCellNotation`. The separator itself belongs to the second part, where it is skipped
    like every character that is not a digit up to eight. -/
def fromMCellNotation (text : Text) : Except String Rules :=
  if '/' ∉ text then .error "Error while parsing MCell notation: separator not found"
  else
    .ok {
      neighboursToBorn := setFlags (fun _ => false) (text.takeWhile fun c => c ≠ '/')
      neighboursToSurvive := setFlags (fun _ => false) (text.dropWhile fun c => c ≠ '/') }

/-- `Rules::toMCellNotation`. -/
def toMCellNotation (rules : Rules) : Text :=
  'B' :: (printFlags rules.neighboursToBorn ++ '/' :: 'S' :: printFlags rules.neighboursToSurvive)

end Rules

/-! ### `class Field` -/

/-- The columns of cells and the size that the field says it has. -/
structure Field where
  fieldData : List (List Bool)
  width : Nat
  height : Nat
deriving DecidableEq

/-- `std::vector::resize`. -/
def resizeVector {α : Type} (xs : List α) (n : Nat) (fill : α) : List α :=
  xs.take n ++ List.replicate (n - xs.length) fill

namespace Field

/-- `Field::Field()`. -/
def zero : Field := { fieldData := [], width := 0, height := 0 }

/-- `Field::validateSize`. -/
def validateSize (size : Nat) : Except String Nat :=
  if size < 3 then .error "Field size must be >= 3" else .ok size

/-- The most columns that a vector of them takes: `max_size()` for elements of 40 bytes. -/
def maxColumns : Nat := (2 ^ 63 - 1) / 40

/-- The most cells that a `std::vector<bool>` takes. -/
def maxCells : Nat := 2 ^ 63 - 64

/-- `Field::resize`, with the field that it leaves, also when it throws: the columns have changed by
    then if only the height is refused, by `validateSize` or by the first column. -/
def resize (f : Field) (width height : Nat) : Except String Unit × Field :=
  match validateSize width with
  | .error e => (.error e, f)
  | .ok width =>
    if maxColumns < width then (.error "vector::_M_default_append", f)
    else
      let columns := resizeVector f.fieldData width []
      match validateSize height with
      | .error e => (.error e, { f with fieldData := columns })
      | .ok height =>
        if maxCells < height then (.error "vector<bool>::_M_fill_insert", { f with fieldData := columns })
        else (.ok (), {
          fieldData := columns.map fun column => resizeVector column height false, width, height })

/-- `field[x][y]`, undefined outside the vectors. -/
def get (f : Field) (x y : Nat) : Option Bool := do
  let column ← f.fieldData[x]?
  column[y]?

/-- `field[x][y] = cell`, undefined outside the vectors. -/
def set (f : Field) (x y : Nat) (cell : Bool) : Option Field := do
  let column ← f.fieldData[x]?
  if y < column.length then return { f with fieldData := f.fieldData.set x (column.set y cell) } else none

end Field

/-! ### `class Universe` -/

/-- The field, and its twin for the next step. -/
structure Universe where
  name : Text
  rules : Rules
  mainField : Field
  twinField : Field
deriving DecidableEq

namespace Universe

/-- `Universe::Universe()`. -/
def unnamed : Universe where
  name := ['U', 'n', 'n', 'a', 'm', 'e', 'd']
  rules := Rules.conwayGameOfLife
  mainField := Field.zero
  twinField := Field.zero

/-- `Universe::resize`. -/
def resize (u : Universe) (width height : Nat) : Except String Unit × Universe :=
  match u.mainField.resize width height with
  | (.error e, mainField) => (.error e, { u with mainField })
  | (.ok (), mainField) =>
    match u.twinField.resize width height with
    | (.error e, twinField) => (.error e, { u with mainField, twinField })
    | (.ok (), twinField) => (.ok (), { u with mainField, twinField })

end Universe

/-! ### Writing -/

/-- The loops over the cells. -/
def writeCells (f : Field) : Option Text := do
  let columns ← (List.range f.width).mapM fun x => do
    let cells ← (List.range f.height).mapM fun y => do
      return if ← f.get x y then printSize x ++ ' ' :: (printSize y ++ ['\n']) else []
    return cells.flatten
  return columns.flatten

/-- `LifeASCIISerializer::WriteToFile`. -/
def writeToFile (u : Universe) : Option Text := do
  let cells ← writeCells u.mainField
  return ['#', 'L', 'i', 'f', 'e', ' ', '1', '.', '0', '6', '\n'] ++
    ('#' :: 'N' :: ' ' :: (u.name ++ ['\n'])) ++
    ('#' :: 'S' :: ' ' :: (printSize u.mainField.width ++ ' ' :: (printSize u.mainField.height ++ ['\n'])))
    ++ ('#' :: 'R' :: ' ' :: (u.rules.toMCellNotation ++ ['\n'])) ++ cells

/-! ### Reading -/

/-- How reading ends early: a `ParseError`, the exception of a size that is refused, or an access
    outside the vectors, which is undefined. -/
inductive Failure where
  | parseError (what : String)
  | refusedSize (what : String)
  | undefined
deriving DecidableEq

/-- `ParseError::ParseError`. -/
def parseError (line : Text) (message : String) : Failure :=
  .parseError ("Error while parsing line \"" ++ String.ofList line ++ "\": " ++ message)

/-- What the reader logs. -/
inductive Warning where
  | outOfBounds (x y : Nat)
  | listedMultipleTimes (x y : Nat)
  | nameNotFound
  | rulesNotFound
deriving DecidableEq

/-- The variables of the reader; `result` is the universe it is building. -/
structure ReadState where
  result : Universe
  width : Nat
  height : Nat
  nameFound : Bool
  rulesFound : Bool
  sizeFound : Bool
  log : List Warning
deriving DecidableEq

/-- `sstream >> width >> height`. -/
def readPair (input : Text) : Option (Nat × Nat) := do
  let (first, input) ← readSize input
  let (second, _) ← readSize input
  return (first, second)

/-- A line with the coordinates of a live cell. -/
def readCell (s : ReadState) (line : Text) : Except Failure ReadState :=
  if s.sizeFound then
    match readPair line with
    | none => .error (parseError line "failed to read cell coordinates")
    | some (x, y) =>
      if x ≥ s.width ∨ y ≥ s.height then .ok { s with log := s.log ++ [.outOfBounds x y] }
      else
        match s.result.mainField.get x y, s.result.mainField.set x y true with
        | some cell, some mainField =>
          .ok { s with
            result := { s.result with mainField }
            log := if cell then s.log ++ [.listedMultipleTimes x y] else s.log }
        | _, _ => .error .undefined
  else .error (parseError line "no field size specified before cell coordinates")

/-- The body of the loop over the lines. -/
def readLine (s : ReadState) (line : Text) : Except Failure ReadState :=
  if ['#', 'N', ' '].isPrefixOf line then
    .ok { s with nameFound := true, result := { s.result with name := line.drop 3 } }
  else if ['#', 'R', ' '].isPrefixOf line then
    match Rules.fromMCellNotation (line.drop 3) with
    | .ok rules => .ok { s with rulesFound := true, result := { s.result with rules } }
    | .error e => .error (parseError line e)
  else if ['#', 'S', ' '].isPrefixOf line then
    match readPair (line.drop 3) with
    | none => .error (parseError line "failed to read field size")
    | some (width, height) =>
      match s.result.resize width height with
      | (.ok (), result) => .ok { s with sizeFound := true, width, height, result }
      | (.error e, _) => .error (.refusedSize e)
  else if ['#'].isPrefixOf line then .ok s
  else readCell s line

/-- `LifeASCIISerializer::ReadFromFile`, with what it logged. -/
def readFromFile (text : Text) : Except Failure (Universe × List Warning) := do
  let s ← (getlines text).foldlM readLine
    { result := Universe.unnamed, width := 0, height := 0, nameFound := false, rulesFound := false,
      sizeFound := false, log := [] }
  return (s.result, s.log ++ (if s.nameFound then [] else [.nameNotFound]) ++
    (if s.rulesFound then [] else [.rulesNotFound]))

open List

variable {f : Field} {x y width height : Nat} {α β : Type} {s : ReadState} {u : Universe}

/-! ### Rules -/

theorem flagDigit_printSize (i : Fin 9) : ∃ c, printSize i = [c] ∧ flagDigit c = some i ∧ c ≠ '/' ∧
    c ≠ '\n' := by
  fin_cases i <;> exact ⟨_, rfl, by decide, by decide, by decide⟩

/-- The flags that are set after reading a text. -/
theorem setFlags_apply (flags : Flags) (text : Text) (i : Fin 9) :
    setFlags flags text i = (flags i || decide (some i ∈ text.map flagDigit)) := by
  induction text generalizing flags with
  | nil => simp [setFlags]
  | cons c cs ih =>
    rw [setFlags, foldl_cons, ← setFlags, ih]
    cases hc : flagDigit c with
    | none => simp [hc]
    | some j => by_cases hij : i = j <;> simp [hc, hij, eq_comm]

theorem some_mem_map_printFlags (flags : Flags) (i : Fin 9) :
    some i ∈ (printFlags flags).map flagDigit ↔ flags i = true := by
  simp only [printFlags, map_flatMap, mem_flatMap, mem_finRange, true_and]
  constructor
  · rintro ⟨j, hj⟩
    obtain ⟨c, hc, hflag, -⟩ := flagDigit_printSize j
    split at hj
    · rw [hc, map_singleton, hflag, mem_singleton, Option.some_inj] at hj
      rwa [hj]
    · simp at hj
  · intro h
    obtain ⟨c, hc, hflag, -⟩ := flagDigit_printSize i
    exact ⟨i, by rw [if_pos h, hc, map_singleton, hflag]; exact mem_singleton_self _⟩

theorem ne_of_mem_printFlags {flags : Flags} {c : Char} (h : c ∈ printFlags flags) : c ≠ '/' ∧ c ≠ '\n' := by
  simp only [printFlags, mem_flatMap] at h
  obtain ⟨i, -, hi⟩ := h
  obtain ⟨d, hd, -, hslash, hline⟩ := flagDigit_printSize i
  split at hi
  · rw [hd, mem_singleton] at hi
    exact hi ▸ ⟨hslash, hline⟩
  · simp at hi

/-- Reading the notation of rules gives the rules. -/
theorem fromMCellNotation_toMCellNotation (rules : Rules) :
    Rules.fromMCellNotation rules.toMCellNotation = .ok rules := by
  have hborn : ∀ c ∈ 'B' :: printFlags rules.neighboursToBorn, decide (c ≠ '/') = true := by
    intro c hc
    rcases mem_cons.mp hc with rfl | hc
    · rfl
    · exact decide_eq_true (ne_of_mem_printFlags hc).1
  rw [Rules.fromMCellNotation, if_neg (by simp [Rules.toMCellNotation]), Rules.toMCellNotation,
    ← cons_append, takeWhile_append_of_pos hborn, dropWhile_append_of_pos hborn]
  have hB : flagDigit 'B' = none := dif_neg (by decide)
  have hslash : flagDigit '/' = none := dif_neg (by decide)
  have hS : flagDigit 'S' = none := dif_neg (by decide)
  have hflags : ∀ (i : Fin 9) (flags : Flags), decide (some i ∈ (printFlags flags).map flagDigit) =
      flags i :=
    fun i flags => by simp [some_mem_map_printFlags]
  cases rules
  congr 2
  · funext i
    rw [setFlags_apply, takeWhile_cons_of_neg (by simp), append_nil, map_cons, hB]
    simpa using hflags i _
  · funext i
    rw [setFlags_apply, dropWhile_cons_of_neg (by simp), map_cons, map_cons, hslash, hS]
    simpa using hflags i _

/-! ### Fields -/

namespace Field

/-- A field as it is built: the columns are as many and as long as the field says, and it has a size
    that is allowed and that the vectors can have. -/
structure Valid (f : Field) : Prop where
  columns : f.fieldData.length = f.width
  cells : ∀ column ∈ f.fieldData, column.length = f.height
  width_ge : 3 ≤ f.width
  height_ge : 3 ≤ f.height
  width_le : f.width ≤ maxColumns
  height_le : f.height ≤ maxCells

/-- The field of a size with the given live cells. -/
def withCells (width height : Nat) (cells : List (Nat × Nat)) : Field where
  fieldData := (List.range width).map fun x => (List.range height).map fun y => decide ((x, y) ∈ cells)
  width := width
  height := height

theorem Valid.get_eq (h : f.Valid) (hx : x < f.width) (hy : y < f.height) :
    ∃ cell, f.get x y = some cell := by
  have hx' : x < f.fieldData.length := h.columns ▸ hx
  have hy' : y < f.fieldData[x].length := h.cells _ (getElem_mem hx') ▸ hy
  refine ⟨f.fieldData[x][y], ?_⟩
  rw [get, getElem?_eq_getElem hx']
  exact getElem?_eq_getElem hy'

theorem get_withCells {cells : List (Nat × Nat)} (hx : x < width) (hy : y < height) :
    (withCells width height cells).get x y = some (decide ((x, y) ∈ cells)) := by
  simp [get, withCells, hx, hy]

/-- A field is given by its size and its cells. -/
theorem Valid.eq_withCells (h : f.Valid) {cells : List (Nat × Nat)}
    (hcells : ∀ x < f.width, ∀ y < f.height, f.get x y = some (decide ((x, y) ∈ cells))) :
    withCells f.width f.height cells = f := by
  have hdata : (withCells f.width f.height cells).fieldData = f.fieldData := by
    apply ext_getElem (by simp [withCells, h.columns])
    intro x hx hx'
    have hlen := h.cells _ (getElem_mem hx')
    apply ext_getElem (by simp [withCells, hlen])
    intro y hy hy'
    have hcell := hcells x (h.columns ▸ hx') y (hlen ▸ hy')
    rw [get, getElem?_eq_getElem hx'] at hcell
    simpa [withCells, hy'] using hcell.symm
  cases f
  exact congrArg (Field.mk · _ _) hdata

theorem set_withCells (cells : List (Nat × Nat)) (hx : x < width) (hy : y < height) :
    (withCells width height cells).set x y true = some (withCells width height ((x, y) :: cells)) := by
  have hcolumn : (withCells width height cells).fieldData[x]? =
      some ((List.range height).map fun y => decide ((x, y) ∈ cells)) := by simp [withCells, hx]
  rw [Field.set, hcolumn]
  simp only [Option.bind_eq_bind, Option.bind_some, length_map, length_range, if_pos hy]
  refine congrArg (fun data => some (Field.mk data width height))
    (ext_getElem (by simp [withCells]) fun i hi hi' => ?_)
  apply ext_getElem
  · rw [getElem_set]
    split <;> simp [withCells]
  · intro j hj hj'
    simp only [getElem_set, withCells, getElem_map, getElem_range, mem_cons, Prod.mk.injEq]
    grind

/-- The empty field of a size. -/
def blank (width height : Nat) : Field :=
  { fieldData := List.replicate width (List.replicate height false), width, height }

theorem resize_zero (hwidth : 3 ≤ width ∧ width ≤ maxColumns) (hheight : 3 ≤ height ∧ height ≤ maxCells) :
    zero.resize width height = (.ok (), blank width height) := by
  simp [resize, validateSize, zero, blank, resizeVector, Nat.not_lt.mpr hwidth.1, Nat.not_lt.mpr hwidth.2,
    Nat.not_lt.mpr hheight.1, Nat.not_lt.mpr hheight.2]

theorem blank_eq_withCells (width height : Nat) : blank width height = withCells width height [] := by
  simp [blank, withCells]

end Field

/-! ### The cells that are written -/

/-- The line of a live cell. -/
def cellLine (p : Nat × Nat) : Text := printSize p.1 ++ ' ' :: printSize p.2

/-- The live cells in the order in which they are written. -/
def liveCells (f : Field) : List (Nat × Nat) :=
  ((List.range f.width).product (List.range f.height)).filter fun p => f.get p.1 p.2 = some true

theorem mem_liveCells :
    (x, y) ∈ liveCells f ↔ x < f.width ∧ y < f.height ∧ f.get x y = some true := by
  simp [liveCells, pair_mem_product, and_assoc]

theorem liveCells_nodup (f : Field) : (liveCells f).Nodup :=
  (List.Nodup.product nodup_range nodup_range).filter _

theorem flatMap_filter (p : α → Bool) (g : α → List β) (l : List α) :
    (l.filter p).flatMap g = l.flatMap fun a => if p a then g a else [] := by
  induction l with
  | nil => rfl
  | cons a l ih => by_cases ha : p a <;> simp [ha, ih]

theorem mapM_eq_some_map {f : α → Option β} {g : α → β} {l : List α} (h : ∀ a ∈ l, f a = some (g a)) :
    l.mapM f = some (l.map g) := by
  induction l with
  | nil => rfl
  | cons a l ih =>
    rw [mapM_cons, h a mem_cons_self, ih fun b hb => h b (mem_cons_of_mem a hb)]
    rfl

theorem writeCells_eq (h : f.Valid) :
    writeCells f = some (((liveCells f).map cellLine).flatMap fun line => line ++ ['\n']) := by
  have hcell : ∀ x ∈ List.range f.width, ∀ y ∈ List.range f.height,
      (do return if ← f.get x y then printSize x ++ ' ' :: (printSize y ++ ['\n']) else [] : Option Text) =
        some (if f.get x y = some true then cellLine (x, y) ++ ['\n'] else []) := by
    intro x hx y hy
    obtain ⟨cell, hget⟩ := h.get_eq (mem_range.mp hx) (mem_range.mp hy)
    rw [hget]
    cases cell <;> simp [cellLine]
  rw [writeCells, mapM_eq_some_map fun x hx => by rw [mapM_eq_some_map (hcell x hx)]; rfl]
  -- the columns one after the other are the pairs of the product
  rw [flatMap_map, liveCells, flatMap_filter, List.product, flatMap_assoc]
  simp [flatMap_def, Function.comp_def]

theorem newline_notin_cellLine (p : Nat × Nat) : '\n' ∉ cellLine p := by
  intro h
  rcases mem_append.mp h with h | h
  · exact newline_notin_printSize p.1 h
  · exact newline_notin_printSize p.2 ((mem_cons.mp h).resolve_left (by decide))

/-! ### The cells that are read -/

theorem readPair_sizes {m n : Nat} (hm : m < 2 ^ 64) (hn : n < 2 ^ 64) :
    readPair (printSize m ++ ' ' :: printSize n) = some (m, n) := by
  have hsecond : readSize (' ' :: printSize n) = some (n, []) := by
    rw [readSize_space, ← append_nil (printSize n)]
    exact readSize_printSize hn (by simp)
  rw [readPair, readSize_printSize hm (by simp)]
  simp [hsecond]

/-- A line of a cell is not taken for one of the other kinds. -/
theorem readLine_cellLine (s : ReadState) (p : Nat × Nat) :
    readLine s (cellLine p) = readCell s (cellLine p) := by
  obtain ⟨d, ds, hcons⟩ := exists_cons_of_ne_nil (Nat.toDigits_ne_nil (n := p.1) (b := 10))
  have hdigit : d.isDigit = true := isDigit_of_mem_printSize (n := p.1) (by simp [printSize, hcons])
  have hd : d ≠ '#' := by
    rintro rfl
    exact absurd hdigit (by decide)
  simp [readLine, cellLine, printSize, hcons, List.isPrefixOf, Ne.symm hd]

/-- What the reader has found when it has read some cells. -/
def afterCells (u : Universe) (cells : List (Nat × Nat)) : ReadState where
  result := {
    name := u.name
    rules := u.rules
    mainField := .withCells u.mainField.width u.mainField.height cells
    twinField := .blank u.mainField.width u.mainField.height }
  width := u.mainField.width
  height := u.mainField.height
  nameFound := true
  rulesFound := true
  sizeFound := true
  log := []

/-- A cell that is not set yet is set. -/
theorem readCell_new (hfield : u.mainField.Valid) (hx : x < u.mainField.width) (hy : y < u.mainField.height)
    {cells : List (Nat × Nat)} (hnew : (x, y) ∉ cells) :
    readCell (afterCells u cells) (cellLine (x, y)) = .ok (afterCells u ((x, y) :: cells)) := by
  have hpair := readPair_sizes ((hx.trans_le hfield.width_le).trans (by decide))
    ((hy.trans_le hfield.height_le).trans (by decide))
  simp [readCell, afterCells, cellLine, hpair, Nat.not_le.mpr hx, Nat.not_le.mpr hy,
    Field.get_withCells hx hy, Field.set_withCells cells hx hy, hnew]

/-- The lines of the cells, read one after the other. -/
theorem foldlM_cells (hfield : u.mainField.Valid) {cells done : List (Nat × Nat)}
    (hnodup : (cells ++ done).Nodup)
    (hcells : ∀ p ∈ cells, p.1 < u.mainField.width ∧ p.2 < u.mainField.height) :
    (cells.map cellLine).foldlM readLine (afterCells u done) =
      .ok (afterCells u (cells.reverse ++ done)) := by
  induction cells generalizing done with
  | nil => rfl
  | cons p cells ih =>
    obtain ⟨⟨hx, hy⟩, hcells⟩ := forall_mem_cons.mp hcells
    have hnew : p ∉ done := fun hp => (nodup_cons.mp hnodup).1 (mem_append_right cells hp)
    rw [map_cons, foldlM_cons, readLine_cellLine, readCell_new hfield hx hy hnew, reverse_cons, append_assoc]
    exact ih (perm_middle.nodup_iff.mpr hnodup) hcells

/-! ### The whole file -/

/-- The lines that are written before the cells. -/
def headerLines (u : Universe) : List Text :=
  [['#', 'L', 'i', 'f', 'e', ' ', '1', '.', '0', '6'], '#' :: 'N' :: ' ' :: u.name,
    '#' :: 'S' :: ' ' :: (printSize u.mainField.width ++ ' ' :: printSize u.mainField.height),
    '#' :: 'R' :: ' ' :: u.rules.toMCellNotation]

theorem newline_notin_headerLines (hname : '\n' ∉ u.name) : ∀ line ∈ headerLines u, '\n' ∉ line := by
  have hrules : '\n' ∉ u.rules.toMCellNotation := by
    intro h
    simp only [Rules.toMCellNotation, mem_cons, mem_append] at h
    rcases h with h | h | h | h | h
    · cases h
    · exact (ne_of_mem_printFlags h).2 rfl
    · cases h
    · cases h
    · exact (ne_of_mem_printFlags h).2 rfl
  have hsize := newline_notin_cellLine (u.mainField.width, u.mainField.height)
  rw [cellLine] at hsize
  simp only [headerLines, forall_mem_cons]
  simp [hname, hrules, hsize]

theorem writeToFile_eq (hfield : u.mainField.Valid) :
    writeToFile u =
      some ((headerLines u ++ (liveCells u.mainField).map cellLine).flatMap fun line => line ++ ['\n']) := by
  rw [writeToFile, writeCells_eq hfield, flatMap_append]
  simp [headerLines]

theorem foldlM_of_ok {s' : ReadState} {line : Text} (h : readLine s line = .ok s') (lines : List Text) :
    (line :: lines).foldlM readLine s = lines.foldlM readLine s' := by
  rw [foldlM_cons, h]
  rfl

theorem readLine_name (s : ReadState) (name : Text) :
    readLine s ('#' :: 'N' :: ' ' :: name) =
      .ok { s with nameFound := true, result := { s.result with name } } := rfl

theorem readLine_rules (s : ReadState) (rules : Rules) :
    readLine s ('#' :: 'R' :: ' ' :: rules.toMCellNotation) =
      .ok { s with rulesFound := true, result := { s.result with rules } } := by
  have hrules := fromMCellNotation_toMCellNotation rules
  simp [readLine, List.isPrefixOf, hrules]

theorem readLine_size (hmain : s.result.mainField = .zero) (htwin : s.result.twinField = .zero)
    (hwidth : 3 ≤ width ∧ width ≤ Field.maxColumns) (hheight : 3 ≤ height ∧ height ≤ Field.maxCells) :
    readLine s ('#' :: 'S' :: ' ' :: (printSize width ++ ' ' :: printSize height)) =
      .ok { s with
        sizeFound := true, width, height
        result := { s.result with
          mainField := .blank width height, twinField := .blank width height } } := by
  have hresize : s.result.resize width height =
      (.ok (), { s.result with mainField := .blank width height, twinField := .blank width height }) := by
    simp only [Universe.resize, hmain, htwin, Field.resize_zero hwidth hheight]
  have hpair := readPair_sizes (hwidth.2.trans_lt (by decide)) (hheight.2.trans_lt (by decide))
  simp [readLine, List.isPrefixOf, hpair, hresize]

theorem readLine_version (s : ReadState) :
    readLine s ['#', 'L', 'i', 'f', 'e', ' ', '1', '.', '0', '6'] = .ok s := rfl

theorem foldlM_header (hfield : u.mainField.Valid) :
    (headerLines u).foldlM readLine
      { result := Universe.unnamed, width := 0, height := 0, nameFound := false, rulesFound := false,
        sizeFound := false, log := [] } = .ok (afterCells u []) := by
  rw [afterCells, ← Field.blank_eq_withCells, headerLines, foldlM_of_ok (readLine_version _),
    foldlM_of_ok (readLine_name _ _),
    foldlM_of_ok (readLine_size rfl rfl ⟨hfield.width_ge, hfield.width_le⟩
      ⟨hfield.height_ge, hfield.height_le⟩),
    foldlM_of_ok (readLine_rules _ _)]
  rfl

/-- A universe with a valid field, whatever its rules and its cells, is read back from the text that
    is written for it, if there is no line break in its name. -/
theorem read_written (u : Universe) (hfield : u.mainField.Valid) (hname : '\n' ∉ u.name) :
    ∃ text u', writeToFile u = some text ∧ readFromFile text = .ok (u', []) ∧
      u'.name = u.name ∧ u'.rules = u.rules ∧ u'.mainField = u.mainField := by
  have hlines : ∀ line ∈ headerLines u ++ (liveCells u.mainField).map cellLine, '\n' ∉ line := by
    rw [forall_mem_append]
    exact ⟨newline_notin_headerLines hname, List.forall_mem_map.mpr fun p _ => newline_notin_cellLine p⟩
  have hcells := @foldlM_cells u hfield (liveCells u.mainField) []
      (by simpa using liveCells_nodup u.mainField) fun p hp => by
    obtain ⟨hx, hy, -⟩ := mem_liveCells.mp hp
    exact ⟨hx, hy⟩
  refine ⟨_, (afterCells u ((liveCells u.mainField).reverse ++ [])).result, writeToFile_eq hfield,
    ?_, rfl, rfl, ?_⟩
  · rw [readFromFile, getlines_flatMap hlines, foldlM_append, foldlM_header hfield]
    simp only [bind, Except.bind, hcells]
    rfl
  · -- the cells that were set are the live ones
    apply hfield.eq_withCells
    intro x hx y hy
    obtain ⟨cell, hget⟩ := hfield.get_eq hx hy
    simp [mem_liveCells, hx, hy, hget]

/-- A row of three live cells, under a name with a space and a hash sign in it. -/
theorem read_written_blinker :
    ∃ u : Universe, u.name = ['#', ' ', '1'] ∧ u.mainField.get 1 1 = some true ∧
      ∃ text u', writeToFile u = some text ∧ readFromFile text = .ok (u', []) ∧
        u'.name = u.name ∧ u'.rules = u.rules ∧ u'.mainField = u.mainField := by
  refine ⟨{
      name := ['#', ' ', '1']
      rules := Rules.conwayGameOfLife
      mainField := {
        fieldData := [[false, true, false], [false, true, false], [false, true, false]], width :=
          3, height := 3 }
      twinField := .blank 3 3 }, rfl, rfl, read_written _ ?_ (by decide)⟩
  exact ⟨rfl, by decide, by decide, by decide, by decide, by decide⟩

end NsuLabs.GameOfLife
