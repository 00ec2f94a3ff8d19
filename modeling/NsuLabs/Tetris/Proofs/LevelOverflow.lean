/-
Module: NsuLabs.Tetris.Proofs.LevelOverflow
Purpose: A game in which dropping a figure never ends.
Trusted boundary: none
Main exports: fastFall_never_returns
-/
import NsuLabs.Tetris.Proofs.FallingFigure

namespace NsuLabs.Tetris

open Lib List Option

variable {m : Model} {a : Action} {b b' : Board} {points : List Int} {total : Int} {actions : List Action}

/-! ### The board of a game, without its score -/

/-- What a move or a drop does to the board, with the points if a figure lands. The next figure has
    to fit. -/
def boardStep (b : Board) : Action → Option (Board × List Int)
  | .moveLeft => (b.tryMove (-1) 0).toOption.map fun (_, b) => (b, [])
  | .moveRight => (b.tryMove 1 0).toOption.map fun (_, b) => (b, [])
  | .fastFall figure rotation => do
    let b ← (b.drop 20).toOption
    let (linesCleared, b) ← b.land.toOption
    let points ← GameplayState.points linesCleared
    let (spawned, b) := b.spawnNewFigure figure rotation
    if spawned then some (b, [points]) else none
  | _ => none

def boardRun (b : Board) : List Action → Option (Board × List Int)
  | [] => some (b, [])
  | a :: actions => do
    let (b, points) ← boardStep b a
    let (b, points') ← boardRun b actions
    return (b, points ++ points')

theorem toOption_eq_some {ε α : Type} {e : Except ε α} {x : α} : e.toOption = some x ↔ e = .ok x := by
  cases e <;> simp [Except.toOption]

/-- A step of a game goes as that of its board, as long as the level loop ends; `total` is the score
    without overflow. -/
theorem playStep_of_boardStep (hsafe : m.Safe) (hrunning : m.gameState.isGameRunning = true)
    (htotal : m.gameState.curScore = int32 total) (hb : boardStep m.board a = some (b, points))
    (hscore : int32 (total + points.sum) < GameplayState.lastBound) :
    ∃ m', m.playStep (2 ^ 32) a = some m' ∧ m'.gameState.isGameRunning = true ∧ m'.board = b ∧
      m'.gameState.curScore = int32 (total + points.sum) := by
  have hmove : ∀ x, (m.board.tryMove x 0).toOption.map (fun (_, b) => (b, [])) = some (b, points) →
      (do return { m with board := (← m.board.tryMove x 0).2 } : Except Stop Model) =
        .ok { m with board := b } ∧ points = [] := by
    intro x hx
    obtain ⟨⟨moved, b'⟩, htry, heq⟩ := map_eq_some_iff.mp hx
    obtain ⟨rfl, rfl⟩ := Prod.mk.inj heq
    rw [toOption_eq_some.mp htry]
    exact ⟨rfl, rfl⟩
  rw [Model.playStep, if_pos hrunning]
  cases a with
  | nextStep figure rotation => cases hb
  | rotate => cases hb
  | moveLeft =>
    obtain ⟨hmoved, rfl⟩ := hmove (-1) hb
    exact ⟨{ m with board := b }, toOption_eq_some.mpr hmoved, hrunning, rfl, by simpa using htotal⟩
  | moveRight =>
    obtain ⟨hmoved, rfl⟩ := hmove 1 hb
    exact ⟨{ m with board := b }, toOption_eq_some.mpr hmoved, hrunning, rfl, by simpa using htotal⟩
  | fastFall figure rotation =>
    simp only [boardStep, bind_eq_bind, bind_eq_some_iff, toOption_eq_some,
      ite_none_right_eq_some, some_inj] at hb
    obtain ⟨b₁, hdrop, ⟨c, b₂⟩, hland, p, hp, hspawned, hb⟩ := hb
    obtain ⟨rfl, rfl⟩ := Prod.mk.inj hb
    obtain ⟨falling, pos, hplaying⟩ := hsafe hrunning
    obtain ⟨b₁', pos', hplaying', hdrop'⟩ := hplaying.drop
    have hends : ∀ {fuel}, 20 ≤ fuel → m.board.drop fuel = .ok b₁' := fun hle =>
      (hdrop' _).resolve_right fun hout => not_lt.mpr hle hout.2
    obtain rfl : b₁' = b₁ := Except.ok.inj ((hends le_rfl).symm.trans hdrop)
    have hcount : int32 (m.gameState.curScore + p) = int32 (total + [p].sum) := by
      rw [htotal, sum_singleton]
      exact Int.bmod_add_bmod
    obtain ⟨s', hs'⟩ := GameplayState.checkNextLevel_returns
      (s := { m.gameState with curScore := int32 (m.gameState.curScore + p) }) (hcount ▸ hscore) le_rfl
    obtain ⟨level, rfl⟩ : ∃ level, s' =
        { m.gameState with curLevel := level, curScore := int32 (m.gameState.curScore + p) } := by
      rcases GameplayState.checkNextLevel_cases (2 ^ 32)
          { m.gameState with curScore := int32 (m.gameState.curScore + p) } with ⟨level, hlevel⟩ | hfuel
      · exact ⟨level, Except.ok.inj (hs'.symm.trans hlevel)⟩
      · rw [hfuel] at hs'
        cases hs'
    refine ⟨⟨{ m.gameState with curLevel := level, curScore := int32 (m.gameState.curScore + p) },
      (b₂.spawnNewFigure figure rotation).2⟩, toOption_eq_some.mpr ?_, hrunning, rfl, hcount⟩
    rw [step, Model.fastFall, hends (by norm_num : 20 ≤ 2 ^ 32)]
    simp only [bind, Except.bind]
    rw [Model.handleFigureLanding_eq (m := { m with board := b₁' }) hland hp, hs']
    exact if_pos hspawned

/-- A game goes as its board does, as long as no score on the way is too high for the level loop. -/
theorem run_of_boardRun (hsafe : m.Safe) (hrunning : m.gameState.isGameRunning = true)
    (htotal : m.gameState.curScore = int32 total) (hb : boardRun m.board actions = some (b, points))
    (hscore : ∀ counted, counted <+: points → int32 (total + counted.sum) < GameplayState.lastBound) :
    ∃ m', run (Model.playStep (2 ^ 32)) m actions = some m' ∧ m'.gameState.isGameRunning = true ∧
      m'.board = b ∧ m'.gameState.curScore = int32 (total + points.sum) := by
  induction actions generalizing m total points with
  | nil =>
    obtain ⟨rfl, rfl⟩ := Prod.mk.inj (some_inj.mp hb)
    exact ⟨m, rfl, hrunning, rfl, by simpa using htotal⟩
  | cons a actions ih =>
    simp only [boardRun, bind_eq_bind, bind_eq_some_iff] at hb
    obtain ⟨⟨b₁, first⟩, hfirst, ⟨b₂, rest⟩, hrest, heq⟩ := hb
    obtain ⟨rfl, rfl⟩ := Prod.mk.inj (some_inj.mp heq)
    obtain ⟨m₁, hm₁, hrunning₁, rfl, htotal₁⟩ :=
      playStep_of_boardStep hsafe hrunning htotal hfirst (hscore first (prefix_append first rest))
    have hone : run (Model.playStep (2 ^ 32)) m [a] = some m₁ := by
      rw [run, hm₁]
      rfl
    have hsafe₁ : m₁.Safe := Model.run_safe hsafe hone
    have hscore₁ : ∀ counted, counted <+: rest →
        int32 (total + first.sum + counted.sum) < GameplayState.lastBound := by
      intro counted hcounted
      rw [add_assoc, ← sum_append]
      exact hscore _ ((prefix_append_right_inj first).mpr hcounted)
    obtain ⟨m', hm', hrunning', hb', htotal'⟩ := ih hsafe₁ hrunning₁ htotal₁ hrest hscore₁
    refine ⟨m', ?_, hrunning', hb', ?_⟩
    · rw [run, hm₁]
      exact hm'
    · rw [htotal', sum_append, add_assoc]

/-! ### A game without end -/

/-- A figure moved by `n` places and dropped, and the figure that is drawn next. -/
def turn (n : Int) (figure : Figure) (rotation : Fin 4) : List Action :=
  List.replicate n.natAbs (if n < 0 then .moveLeft else .moveRight) ++ [.fastFall figure rotation]

/-- A square at the right border and two bars beside it: one line is cleared, and half of the square
    is left over. -/
def single : List Action := turn 4 .figI 1 ++ turn (-4) .figI 1 ++ turn 0 .figO 0

/-- A square on top of what is left over, three squares beside it and a fourth that is over its
    place. -/
def doubleStart : List Action :=
  turn 4 .figO 0 ++ turn (-4) .figO 0 ++ turn (-2) .figO 0 ++ turn 0 .figO 0 ++ [.moveRight, .moveRight]

/-- The board after the first line is cleared. -/
def cycleBoard : Board where
  landedBlocks := fun x y => if 8 ≤ x.val ∧ y.val = 19 then 1 else 0
  figures := fun
    | .figI => { curRotation := 1, position := some ⟨4, 19⟩ }
    | .figO => { curRotation := 0, position := some ⟨4, 0⟩ }
    | _ => { curRotation := 0, position := none }
  fallingFigure := some .figO

/-- The board with the fourth square over its place. -/
def lastDropBoard : Board :=
  { cycleBoard.setFigure .figO ⟨0, some ⟨6, 0⟩⟩ with
    landedBlocks := fun x y => if 8 ≤ x.val ∧ 17 ≤ y.val ∨ x.val < 6 ∧ 18 ≤ y.val then 1 else 0 }

/-- To run a board comes down to comparing it place by place. -/
theorem boardRun_eq (h : (boardRun b actions).map (fun p => (p.2, p.1.fallingFigure,
      decide (∀ x y, p.1.landedBlocks x y = b'.landedBlocks x y),
        decide (∀ f, p.1.figures f = b'.figures f))) =
        some (points, b'.fallingFigure, true, true)) : boardRun b actions = some (b', points) := by
  obtain ⟨⟨b₁, points₁⟩, hrun, heq⟩ := map_eq_some_iff.mp h
  simp only [Prod.mk.injEq, decide_eq_true_eq] at heq
  obtain ⟨rfl, hfalling, hlanded, hfigures⟩ := heq
  rw [hrun, Board.ext (funext fun x => funext (hlanded x)) (funext hfigures) hfalling]

theorem boardRun_single :
    boardRun (Model.new.restart .figO 0).board single = some (cycleBoard, [0, 0, 40]) :=
  boardRun_eq (by decide +kernel)

/-- Two lines are cleared, and the board is what it was. -/
theorem boardRun_double :
    boardRun cycleBoard (doubleStart ++ [.fastFall .figO 0]) = some (cycleBoard, [0, 0, 0, 0, 100]) :=
  boardRun_eq (by decide +kernel)

theorem boardRun_doubleStart : boardRun cycleBoard doubleStart = some (lastDropBoard, [0, 0, 0, 0]) :=
  boardRun_eq (by decide +kernel)

/-- The score that the last drop brings. -/
theorem scoreAfterFall_lastDrop (h : m.board = lastDropBoard) :
    m.scoreAfterFall = some (int32 (m.gameState.curScore + 100)) := by
  have hlines : ((lastDropBoard.drop 20).toOption.bind fun b => b.falling.toOption.bind fun p =>
      (b.landedBlocks.addToLandedBlocks (b.getBlocks p.1) p.2).toOption).map
        (·.lines.countP Grid.isFilled) = some 2 := by decide +kernel
  obtain ⟨g, hlanded, hcount⟩ := map_eq_some_iff.mp hlines
  obtain ⟨b, hdrop, hlanded⟩ := bind_eq_some_iff.mp hlanded
  obtain ⟨⟨figure, pos⟩, hfalling, hadd⟩ := bind_eq_some_iff.mp hlanded
  rw [Model.scoreAfterFall, h, hdrop]
  simp [Model.scoreAfterLanding, hfalling, hadd, hcount, GameplayState.points]

theorem int32_lt_lastBound {n : Nat} (hn : n ≤ 64424508) :
    int32 (40 + 100 * n) < GameplayState.lastBound := by
  obtain ⟨⟨k, hk⟩, -, hlt⟩ := int32_spec (40 + 100 * n)
  rw [hk] at hlt ⊢
  clear hk
  by_contra hge
  rw [GameplayState.lastBound, not_lt] at hge
  -- the score has not gone round, or it has gone round once
  have hround : k = 0 ∨ k = -1 := by omega
  rcases hround with rfl | rfl <;> omega

/-- The partial sums of points that are zero before the last landing. -/
theorem sum_of_prefix (points : List Int) {counted : List Int} {last : Int} (hzero : ∀ p ∈ points, p = 0)
    (h : counted <+: points ++ [last]) : counted.sum = 0 ∨ counted.sum = last := by
  have hsum : points.sum = 0 := sum_eq_zero hzero
  rcases prefix_concat_iff.mp h with rfl | h
  · exact .inr (by simp [hsum])
  · exact .inl (sum_eq_zero fun p hp => hzero p (h.subset hp))

/-- The board with its score, after one line and `n` times two lines. -/
theorem run_doubles (n : Nat) (hn : n ≤ 64424508) :
    ∃ actions m, run (Model.playStep (2 ^ 32)) (Model.new.restart .figO 0) actions = some m ∧
      m.gameState.isGameRunning = true ∧ m.board = cycleBoard ∧
        m.gameState.curScore = int32 (40 + 100 * n) := by
  induction n with
  | zero =>
    have hscores : ∀ counted, counted <+: [0, 0, 40] →
        int32 (0 + counted.sum) < GameplayState.lastBound := by
      intro counted hcounted
      rcases sum_of_prefix [0, 0] (by simp) hcounted with h | h <;> rw [h] <;> decide
    obtain ⟨m, hrun, hrunning, hboard, hscore⟩ :=
      run_of_boardRun (Model.restart_safe Model.new .figO 0) rfl rfl boardRun_single hscores
    exact ⟨single, m, hrun, hrunning, hboard, hscore⟩
  | succ n ih =>
    obtain ⟨actions, m, hrun, hrunning, hboard, hscore⟩ := ih (by omega)
    have hsafe := Model.run_safe (Model.restart_safe Model.new .figO 0) hrun
    have hscores : ∀ counted, counted <+: [0, 0, 0, 0, 100] →
        int32 (40 + 100 * n + counted.sum) < GameplayState.lastBound := by
      intro counted hcounted
      rcases sum_of_prefix [0, 0, 0, 0] (by simp) hcounted with h | h
      · rw [h, add_zero]
        exact int32_lt_lastBound (by omega)
      · have hnext := int32_lt_lastBound hn
        rw [h]
        push_cast at hnext
        rwa [mul_add, mul_one, ← add_assoc] at hnext
    have hdouble := boardRun_double
    rw [← hboard] at hdouble
    obtain ⟨m', hrun', hrunning', hboard', hscore'⟩ := run_of_boardRun hsafe hrunning hscore hdouble hscores
    refine ⟨actions ++ (doubleStart ++ [.fastFall .figO 0]), m', ?_, hrunning', hboard'.trans hboard, ?_⟩
    · rw [run_append, hrun, bind_some, hrun']
    · have htotal : (40 + 100 * (n + 1 : Nat) : Int) = 40 + 100 * n + List.sum [0, 0, 0, 0, 100] := by
        simp only [sum_cons, sum_nil]
        omega
      rw [hscore', htotal]

/-- A game that is running, in which the falling figure is never put down once it is dropped. -/
theorem fastFall_never_returns :
    ∃ actions m, run (Model.playStep (2 ^ 32)) (Model.new.restart .figO 0) actions = some m ∧
      m.gameState.isGameRunning = true ∧
      ∀ fuel figure rotation, m.fastFall fuel figure rotation = .error .outOfFuel := by
  obtain ⟨actions, m, hrun, hrunning, hboard, hscore⟩ := run_doubles 64424508 le_rfl
  have hsafe := Model.run_safe (Model.restart_safe Model.new .figO 0) hrun
  have hscores : ∀ counted, counted <+: [0, 0, 0, 0] →
      int32 (40 + 100 * (64424508 : Nat) + counted.sum) < GameplayState.lastBound := by
    intro counted hcounted
    have hzero : counted.sum = 0 := sum_eq_zero fun q hq => by simpa using hcounted.subset hq
    rw [hzero, add_zero]
    exact int32_lt_lastBound le_rfl
  -- two more lines, but for the last drop
  have hstart := boardRun_doubleStart
  rw [← hboard] at hstart
  obtain ⟨m', hrun', hrunning', hboard', hscore'⟩ := run_of_boardRun hsafe hrunning hscore hstart hscores
  refine ⟨actions ++ doubleStart, m', ?_, hrunning', fun fuel figure rotation => ?_⟩
  · rw [run_append, hrun, bind_some, hrun']
  obtain ⟨falling, pos, hplaying⟩ := Model.run_safe hsafe hrun' hrunning'
  obtain ⟨score, hafter, hfall⟩ := Model.fastFall_spec hplaying hrunning'
  have hhigh : score = GameplayState.lastBound := by
    rw [scoreAfterFall_lastDrop hboard', hscore'] at hafter
    rw [← some_inj.mp hafter]
    decide
  rcases hfall figure rotation fuel with ⟨-, -, -, hlt⟩ | ⟨hfuel, -⟩
  · exact absurd hlt (by rw [hhigh]; exact lt_irrefl _)
  · exact hfuel

end NsuLabs.Tetris
