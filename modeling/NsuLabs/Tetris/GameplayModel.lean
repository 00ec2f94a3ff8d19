/-
Module: NsuLabs.Tetris.GameplayModel
Purpose: The gameplay model of the Tetris lab: the figures with their rotations, the field of landed blocks,
  the falling figure, the score with its levels, and the calls that the controller and the timer make. What
  the source draws at random is an argument. An exception ends a call early; a loop that runs longer than
  `fuel` has no result yet.
Trusted boundary: Colours, the listeners and the speed that they are told are left out. The coordinates of a
  figure stay within the field, so only score and level are reduced to 32 bits.
Main exports: Model, step
-/
import Mathlib

namespace NsuLabs.Tetris

/-- `record Vec2i`. -/
structure Vec2i where
  x : Int
  y : Int
deriving DecidableEq

/-- `Vec2i.add(other_x, other_y)`. -/
def Vec2i.add (p : Vec2i) (x y : Int) : Vec2i := ⟨p.x + x, p.y + y⟩

/-- `int[][]`: the columns of blocks of one rotation, zero where there is none. -/
abbrev Blocks := List (List Int)

/-- The blocks that the loops over `blocks[i][j]` find, with their offsets, in the order of the
    loops. -/
def occupied (blocks : Blocks) : List (Nat × Nat × Int) :=
  (List.range blocks.length).flatMap fun i =>
    (List.range (blocks.headD []).length).filterMap fun j =>
      let block := (blocks.getD i []).getD j 0
      if block ≠ 0 then some (i, j, block) else none

/-- The figures in the list of the `FigureFactory`. -/
inductive Figure where
  | figO
  | figI
  | figJ
  | figL
  | figS
  | figZ
  | figT
deriving DecidableEq

instance : Fintype Figure where
  elems := {.figO, .figI, .figJ, .figL, .figS, .figZ, .figT}
  complete := by rintro (_ | _ | _ | _ | _ | _ | _) <;> decide

/-- The rotations that the factory gives to a figure. -/
def rotations : Figure → List Blocks
  | .figO => [[[1, 1], [1, 1]]]
  | .figI => [[[1, 1, 1, 1]], [[1], [1], [1], [1]]]
  | .figJ => [[[1, 1, 1], [0, 0, 1]], [[0, 1], [0, 1], [1, 1]], [[1, 0, 0], [1, 1, 1]],
    [[1, 1], [1, 0], [1, 0]]]
  | .figL => [[[0, 0, 1], [1, 1, 1]], [[1, 0], [1, 0], [1, 1]], [[1, 1, 1], [1, 0, 0]],
    [[1, 1], [0, 1], [0, 1]]]
  | .figS => [[[0, 1, 1], [1, 1, 0]], [[1, 0], [1, 1], [0, 1]], [[0, 1, 1], [1, 1, 0]],
    [[1, 0], [1, 1], [0, 1]]]
  | .figZ => [[[1, 1, 0], [0, 1, 1]], [[0, 1], [1, 1], [1, 0]], [[1, 1, 0], [0, 1, 1]],
    [[0, 1], [1, 1], [1, 0]]]
  | .figT => [[[0, 1, 0], [1, 1, 1]], [[1, 0], [1, 1], [1, 0]], [[1, 1, 1], [0, 1, 0]],
    [[0, 1], [1, 1], [0, 1]]]

/-- What a figure stores. The factory hands out the same seven objects again and again, so a figure
    that is not falling still has its last rotation and position; one that was never spawned has no
    position. -/
structure TetrisFigure where
  curRotation : Nat
  position : Option Vec2i
deriving DecidableEq

/-- `getRotation`. -/
def getRotation (figure : Figure) (rotation : Nat) : Blocks :=
  (rotations figure).getD (rotation % (rotations figure).length) []

namespace TetrisFigure

/-- `getBlocks`. -/
def getBlocks (f : TetrisFigure) (figure : Figure) : Blocks := (rotations figure).getD f.curRotation []

/-- `getNextRotation`. -/
def getNextRotation (f : TetrisFigure) (figure : Figure) : Blocks := getRotation figure (f.curRotation + 1)

/-- `spawn`. -/
def spawn (figure : Figure) (pos : Vec2i) (rotation : Nat) : TetrisFigure :=
  { curRotation := rotation % (rotations figure).length, position := some pos }

/-- `move`. -/
def move (f : TetrisFigure) (newPosition : Vec2i) : TetrisFigure := { f with position := some newPosition }

/-- `rotate`. -/
def rotate (f : TetrisFigure) (figure : Figure) : TetrisFigure :=
  { f with curRotation := (f.curRotation + 1) % (rotations figure).length }

end TetrisFigure

/-- How a call can end without returning. -/
inductive Stop where
  | nullPointer
  | arrayIndexOutOfBounds
  | runtimeException (message : String)
  | outOfFuel
deriving DecidableEq

/-! ### The field -/

/-- `int[DIMENSIONS.x()][DIMENSIONS.y()]`. -/
abbrev Grid := Fin 10 → Fin 20 → Int

/-- `checkPositionWithinField`. -/
def checkPositionWithinField (pos : Vec2i) : Bool := 0 ≤ pos.x ∧ pos.x < 10 ∧ 0 ≤ pos.y ∧ pos.y < 20

namespace Grid

/-- `landedBlocks[pos.x()][pos.y()]`, if there is such a place. -/
def cell? (g : Grid) (pos : Vec2i) : Option Int :=
  if h : 0 ≤ pos.x ∧ pos.x < 10 ∧ 0 ≤ pos.y ∧ pos.y < 20 then
    some (g ⟨pos.x.toNat, by omega⟩ ⟨pos.y.toNat, by omega⟩)
  else none

/-- `landedBlocks[pos.x()][pos.y()] = block`. -/
def put (g : Grid) (pos : Vec2i) (block : Int) : Except Stop Grid :=
  if h : 0 ≤ pos.x ∧ pos.x < 10 ∧ 0 ≤ pos.y ∧ pos.y < 20 then
    .ok fun x y => if x = ⟨pos.x.toNat, by omega⟩ ∧ y = ⟨pos.y.toNat, by omega⟩ then block else g x y
  else .error .arrayIndexOutOfBounds

/-- `checkLineFilled`. -/
def checkLineFilled (g : Grid) (line : Fin 20) : Bool := ∀ x, g x line ≠ 0

/-- The loop over `x` that copies a line downwards. -/
def moveLine (g : Grid) (line : Fin 20) (linesCleared : Nat) : Except Stop Grid :=
  if h : line + linesCleared < 20 then
    .ok fun x y => if y = ⟨line + linesCleared, h⟩ then g x line else g x y
  else .error .arrayIndexOutOfBounds

/-- The loop of `clearFilledLines` over the lines below `lines`, the last one first. -/
def clearLines (g : Grid) (linesCleared : Nat) : (lines : Nat) → lines ≤ 20 → Except Stop (Nat × Grid)
  | 0, _ => .ok (linesCleared, g)
  | line + 1, h =>
    if g.checkLineFilled ⟨line, h⟩ then clearLines g (linesCleared + 1) line (by omega)
    else if linesCleared ≠ 0 then
      match g.moveLine ⟨line, h⟩ linesCleared with
      | .ok g => clearLines g linesCleared line (by omega)
      | .error e => .error e
    else clearLines g linesCleared line (by omega)

/-- `clearFilledLines`: the number of filled lines and the field without them. The lines at the top,
    from which others were copied, keep their blocks. -/
def clearFilledLines (g : Grid) : Except Stop (Nat × Grid) := g.clearLines 0 20 le_rfl

/-- `checkCollision`. -/
def checkCollision (g : Grid) (blocks : Blocks) (pos : Vec2i) : Bool :=
  (occupied blocks).any fun (i, j, _) =>
    !checkPositionWithinField (pos.add i j) || g.cell? (pos.add i j) != some 0

/-- `addToLandedBlocks`. -/
def addToLandedBlocks (g : Grid) (blocks : Blocks) (pos : Vec2i) : Except Stop Grid :=
  (occupied blocks).foldlM (fun g (i, j, block) => g.put (pos.add i j) block) g

/-- The loop of `fastFall`. -/
def fall (g : Grid) (blocks : Blocks) : (fuel : Nat) → Vec2i → Except Stop Vec2i
  | 0, _ => .error .outOfFuel
  | fuel + 1, pos =>
    if g.checkCollision blocks (pos.add 0 1) then .ok pos else fall g blocks fuel (pos.add 0 1)

end Grid

/-- The fields of `GameplayModelImpl` that describe the field and the figures. -/
@[ext]
structure Board where
  landedBlocks : Grid
  figures : Figure → TetrisFigure
  fallingFigure : Option Figure
deriving DecidableEq

namespace Board

/-- The falling figure and `fallingFigure.getPosition()`. -/
def falling (b : Board) : Except Stop (Figure × Vec2i) :=
  match b.fallingFigure with
  | none => .error .nullPointer
  | some figure =>
    match (b.figures figure).position with
    | none => .error .nullPointer
    | some pos => .ok (figure, pos)

def getBlocks (b : Board) (figure : Figure) : Blocks := (b.figures figure).getBlocks figure

def setFigure (b : Board) (figure : Figure) (f : TetrisFigure) : Board :=
  { b with figures := Function.update b.figures figure f }

/-- The body of `moveLeft` and `moveRight`, and the first branch of `nextStep`: the figure is moved
    if it can be; the result says whether it was. -/
def tryMove (b : Board) (x y : Int) : Except Stop (Bool × Board) := do
  let (figure, pos) ← b.falling
  if b.landedBlocks.checkCollision (b.getBlocks figure) (pos.add x y) then return (false, b)
  else return (true, b.setFigure figure ((b.figures figure).move (pos.add x y)))

/-- The body of `rotate`. -/
def rotate (b : Board) : Except Stop Board := do
  let (figure, pos) ← b.falling
  if b.landedBlocks.checkCollision ((b.figures figure).getNextRotation figure) pos then return b
  else return b.setFigure figure ((b.figures figure).rotate figure)

/-- The figure moved to where it falls to. -/
def drop (b : Board) (fuel : Nat) : Except Stop Board := do
  let (figure, pos) ← b.falling
  let newPos ← b.landedBlocks.fall (b.getBlocks figure) fuel pos
  return b.setFigure figure ((b.figures figure).move newPos)

/-- `addToLandedBlocks` and `clearFilledLines`. -/
def land (b : Board) : Except Stop (Nat × Board) := do
  let (figure, pos) ← b.falling
  let landedBlocks ← b.landedBlocks.addToLandedBlocks (b.getBlocks figure) pos
  let (linesCleared, landedBlocks) ← landedBlocks.clearFilledLines
  return (linesCleared, { b with landedBlocks })

/-- `spawnNewFigure`. A figure that does not fit is the falling one all the same, where it was last. -/
def spawnNewFigure (b : Board) (figure : Figure) (rotation : Fin 4) : Bool × Board :=
  let b := { b with fallingFigure := some figure }
  if b.landedBlocks.checkCollision (getRotation figure rotation) ⟨4, 0⟩ then (false, b)
  else (true, b.setFigure figure (.spawn figure ⟨4, 0⟩ rotation))

end Board

/-! ### The score -/

/-- The value of an `int` after an operation. -/
def int32 (n : Int) : Int := n.bmod (2 ^ 32)

/-- `class GameplayState`. -/
structure GameplayState where
  curLevel : Int
  curScore : Int
  isGameRunning : Bool
deriving DecidableEq

namespace GameplayState

/-- The loop of `checkNextLevel`. -/
def checkNextLevel : (fuel : Nat) → GameplayState → Except Stop GameplayState
  | 0, _ => .error .outOfFuel
  | fuel + 1, s =>
    if s.curScore ≥ int32 (300 * (s.curLevel + 1)) then
      checkNextLevel fuel { s with curLevel := int32 (s.curLevel + 1) }
    else .ok s

/-- The cases of `addScore`. -/
def points : Nat → Option Int
  | 0 => some 0
  | 1 => some 40
  | 2 => some 100
  | 3 => some 300
  | 4 => some 1200
  | _ => none

/-- `addScore`. -/
def addScore (fuel : Nat) (s : GameplayState) (linesCleared : Nat) : Except Stop GameplayState :=
  match points linesCleared with
  | none => .error (.runtimeException "Unexpected situation: more than 4 lines can't be cleared at once!")
  | some points => checkNextLevel fuel { s with curScore := int32 (s.curScore + points) }

/-- `setGameOver`. -/
def setGameOver (s : GameplayState) : Except Stop GameplayState :=
  if s.isGameRunning then .ok { s with isGameRunning := false }
  else .error (.runtimeException "Already in gameover state")

end GameplayState

/-! ### The calls -/

/-- `class GameplayModelImpl`. -/
structure Model where
  gameState : GameplayState
  board : Board
deriving DecidableEq

/-- `GameplayModelImpl()`. -/
def Model.new : Model where
  gameState := { curLevel := 0, curScore := 0, isGameRunning := false }
  board := {
    landedBlocks := fun _ _ => 0
    figures := fun _ => { curRotation := 0, position := none }
    fallingFigure := none }

namespace Model

/-- `restart`, with the figure and the rotation that are drawn. Whether the figure fits is not
    looked at. -/
def restart (m : Model) (figure : Figure) (rotation : Fin 4) : Model where
  gameState := { curLevel := 0, curScore := 0, isGameRunning := true }
  board := ({ m.board with landedBlocks := fun _ _ => 0, fallingFigure := none }.spawnNewFigure
    figure rotation).2

/-- `handleFigureLanding`. -/
def handleFigureLanding (fuel : Nat) (m : Model) (figure : Figure) (rotation : Fin 4) : Except Stop Model :=
  do
  let (linesCleared, board) ← m.board.land
  let gameState ← m.gameState.addScore fuel linesCleared
  let (spawned, board) := board.spawnNewFigure figure rotation
  if spawned then return { gameState, board }
  else return { gameState := ← gameState.setGameOver, board }

/-- `nextStep`. -/
def nextStep (fuel : Nat) (m : Model) (figure : Figure) (rotation : Fin 4) : Except Stop Model :=
  if m.gameState.isGameRunning then do
    let (moved, board) ← m.board.tryMove 0 1
    if moved then return { m with board } else m.handleFigureLanding fuel figure rotation
  else return m

/-- `moveLeft`. -/
def moveLeft (m : Model) : Except Stop Model := do return { m with board := (← m.board.tryMove (-1) 0).2 }

/-- `moveRight`. -/
def moveRight (m : Model) : Except Stop Model := do return { m with board := (← m.board.tryMove 1 0).2 }

/-- `rotate`. -/
def rotate (m : Model) : Except Stop Model := do return { m with board := ← m.board.rotate }

/-- `fastFall`. -/
def fastFall (fuel : Nat) (m : Model) (figure : Figure) (rotation : Fin 4) : Except Stop Model := do
  let board ← m.board.drop fuel
  { m with board }.handleFigureLanding fuel figure rotation

end Model

/-- The calls, with the figure and the rotation that are drawn if a figure lands. -/
inductive Action where
  | nextStep (figure : Figure) (rotation : Fin 4)
  | moveLeft
  | moveRight
  | rotate
  | fastFall (figure : Figure) (rotation : Fin 4)
deriving DecidableEq

def step (fuel : Nat) (m : Model) : Action → Except Stop Model
  | .nextStep figure rotation => m.nextStep fuel figure rotation
  | .moveLeft => m.moveLeft
  | .moveRight => m.moveRight
  | .rotate => m.rotate
  | .fastFall figure rotation => m.fastFall fuel figure rotation

end NsuLabs.Tetris
