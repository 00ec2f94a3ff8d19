/-
Module: NsuLabs.Tetris.Proofs.FallingFigure
Purpose: `clearFilledLines` removes the filled lines, and what it leaves in the lines at the top. While the
  game runs, the falling figure lies inside the field and on free places.
Trusted boundary: none
Main exports: clearFilledLines_clears_iff, falling_figure_safe_iff
-/
import NsuLabs.Tetris.GameplayModel
import NsuLabs.Lib.Runs

namespace NsuLabs.Tetris

open Lib List Option

variable {v : Int} {line : Fin 20} {linesCleared fuel : Nat} {s : GameplayState} {m : Model}
  {b board : Board}
  {falling figure : Figure} {g g' : Grid} {blocks : Blocks} {pos : Vec2i}

namespace Grid

/-! ### Clearing the filled lines -/

/-- The lines of the field from the top. -/
def lines (g : Grid) : List (Fin 10 → Int) := ofFn fun y x => g x y

/-- A line without a free place. -/
def isFilled (line : Fin 10 → Int) : Bool := ∀ x, line x ≠ 0

/-- The filled lines are gone, the others have moved down, and empty lines come in at the top. -/
def Clears (g : Grid) : Prop :=
  ∃ g', g.clearFilledLines = .ok (g.lines.countP isFilled, g') ∧
    g'.lines = replicate (g.lines.countP isFilled) (fun _ => 0) ++ g.lines.filter fun line => !isFilled line

theorem length_lines (g : Grid) : g.lines.length = 20 := length_ofFn

theorem getElem_lines {y : Nat} (hy : y < g.lines.length) :
    g.lines[y] = fun x => g x ⟨y, g.length_lines ▸ hy⟩ :=
  List.getElem_ofFn hy

theorem moveLine_lines {line : Fin 20} {linesCleared : Nat} (h : line + linesCleared < 20) :
    ∃ g', g.moveLine line linesCleared = .ok g' ∧
      g'.lines = g.lines.set (line + linesCleared) fun x => g x line := by
  refine ⟨_, dif_pos h, ext_getElem (by rw [length_set, length_lines, length_lines]) fun y hy _ => ?_⟩
  rw [getElem_lines, getElem_set, getElem_lines]
  by_cases hmoved : line + linesCleared = y
  · simp [hmoved]
  · simp [hmoved, Ne.symm hmoved]

theorem set_take_append {α : Type} {l t : List α} {n : Nat} (h : n < l.length) (a : α) :
    (l.take (n + 1) ++ t).set n a = l.take n ++ a :: t := by
  have hlength : (l.take n).length = n := length_take_of_le h.le
  rw [take_succ_eq_append_getElem h, append_assoc, set_append_right _ _ hlength.le, hlength, Nat.sub_self,
    singleton_append, set_cons_zero]

/-- The loop over the lines below `n`, when `l` were the lines at the start: from `n + linesCleared`
    on there are the unfilled ones of the lines from `n` on, and no other line has changed. -/
theorem clearLines_lines {l : List (Fin 10 → Int)} (hlength : l.length = 20) (n : Nat) (hn : n ≤ 20)
    (g : Grid) (linesCleared : Nat) (hcleared : (l.drop n).countP isFilled = linesCleared)
    (hlines : g.lines = l.take (n + linesCleared) ++ (l.drop n).filter fun line => !isFilled line) :
    ∃ g', g.clearLines linesCleared n hn = .ok (l.countP isFilled, g') ∧
      g'.lines = l.take (l.countP isFilled) ++ l.filter fun line => !isFilled line := by
  induction n generalizing g linesCleared with
  | zero =>
    rw [drop_zero] at hcleared hlines
    exact ⟨g, by rw [clearLines, hcleared], by rw [hlines, hcleared, Nat.zero_add]⟩
  | succ n ih =>
    have hroom : linesCleared ≤ 20 - (n + 1) := by
      rw [← hcleared, ← hlength, ← length_drop]
      exact countP_le_length
    have hrow : (fun x => g x ⟨n, hn⟩) = l[n] := by
      rw [← getElem_lines (g.length_lines.symm ▸ hn)]
      simp only [hlines]
      rw [getElem_append_left (by rw [length_take]; omega), getElem_take]
    have hdrop : l.drop n = l[n] :: l.drop (n + 1) := drop_eq_getElem_cons (by omega)
    have hfilled : g.checkLineFilled ⟨n, hn⟩ = isFilled l[n] := congrArg isFilled hrow
    rw [clearLines, hfilled]
    rw [Nat.add_right_comm] at hlines
    cases hline : isFilled l[n] with
    | true =>
      rw [if_pos rfl]
      apply ih
      · rw [hdrop, countP_cons_of_pos hline, hcleared]
      · rw [hlines, hdrop, filter_cons_of_neg (by simp [hline]), Nat.add_assoc]
    | false =>
      -- the line comes in front of those that have moved
      have hcount : (l.drop n).countP isFilled = linesCleared := by
        rw [hdrop, countP_cons_of_neg (by simp [hline]), hcleared]
      have hnext := fun g' => ih (by omega) g' linesCleared hcount
      rw [hdrop, filter_cons_of_pos (by simp [hline])] at hnext
      rw [if_neg Bool.false_ne_true]
      split
      · obtain ⟨g', hmove, hlines'⟩ := @moveLine_lines g ⟨n, hn⟩ linesCleared (by simp only; omega)
        rw [hmove]
        exact hnext g' (by rw [hlines', hrow, hlines, set_take_append (by omega)])
      · rename_i hzero
        obtain rfl := not_not.mp hzero
        refine hnext g ?_
        rw [hlines, Nat.add_zero, take_succ_eq_append_getElem (by omega), append_assoc]
        rfl

theorem clearFilledLines_lines (g : Grid) :
    ∃ g', g.clearFilledLines = .ok (g.lines.countP isFilled, g') ∧
      g'.lines = g.lines.take (g.lines.countP isFilled) ++ g.lines.filter fun line => !isFilled line := by
  have hnone : g.lines.drop 20 = [] := drop_of_length_le g.length_lines.le
  apply clearLines_lines g.length_lines
  · rw [hnone, countP_nil]
  · rw [hnone, take_of_length_le g.length_lines.le]
    exact (append_nil _).symm

theorem clears_iff_take (g : Grid) :
    g.Clears ↔ g.lines.take (g.lines.countP isFilled) = replicate (g.lines.countP isFilled) fun _ => 0 := by
  obtain ⟨g', hclear, hlines⟩ := g.clearFilledLines_lines
  rw [Clears, hclear, ← append_left_inj, ← hlines]
  constructor
  · rintro ⟨g'', heq, h⟩
    cases heq
    exact h
  · exact fun h => ⟨g', rfl, h⟩

/-- The filled lines are cleared as they should be if and only if as many lines at the top are
    empty. -/
theorem clearFilledLines_clears_iff (g : Grid) :
    g.Clears ↔ ∀ y : Fin 20, (y : Nat) < g.lines.countP isFilled → ∀ x, g x y = 0 := by
  have hcount : g.lines.countP isFilled ≤ g.lines.length := countP_le_length
  rw [clears_iff_take, eq_replicate_iff, length_take, min_eq_left hcount, and_iff_right rfl]
  constructor
  · intro h y hy x
    exact congrFun (h _ (mem_take_iff_getElem.mpr ⟨y, by omega, getElem_lines _⟩)) x
  · intro h line hline
    obtain ⟨y, hy, rfl⟩ := mem_take_iff_getElem.mp hline
    rw [getElem_lines]
    exact funext (h ⟨y, g.length_lines ▸ (by omega)⟩ (by simp only; omega))

/-- With a block in the first line and a filled last line the block is there twice afterwards. -/
theorem clearFilledLines_copies_top : ¬ Clears fun x y => if y = 19 ∨ x = 0 ∧ y = 0 then 1 else 0 := by
  rw [clears_iff_take]
  decide +kernel

/-! ### Places of the field -/

@[simp] theorem cell?_mk (x : Fin 10) (y : Fin 20) : g.cell? ⟨x, y⟩ = some (g x y) := by
  have hin : 0 ≤ (x : Int) ∧ (x : Int) < 10 ∧ 0 ≤ (y : Int) ∧ (y : Int) < 20 := by omega
  exact dif_pos hin

/-- A position is a place of the field, or there is no block at it. -/
theorem place_cases (pos : Vec2i) : (∃ x y, pos = ⟨(x : Fin 10), (y : Fin 20)⟩) ∨ ∀ g :
    Grid, g.cell? pos = none := by
  by_cases h : 0 ≤ pos.x ∧ pos.x < 10 ∧ 0 ≤ pos.y ∧ pos.y < 20
  · refine .inl ⟨⟨pos.x.toNat, by omega⟩, ⟨pos.y.toNat, by omega⟩, ?_⟩
    obtain ⟨hx, -, hy, -⟩ := h
    cases pos
    simp_all
  · exact .inr fun g => dif_neg h

theorem exists_of_cell? (h : g.cell? pos = some v) : ∃ x y, pos = ⟨(x : Fin 10), (y : Fin 20)⟩ ∧
    g x y = v := by
  rcases place_cases pos with ⟨x, y, rfl⟩ | hnone
  · exact ⟨x, y, rfl, by simpa using h⟩
  · simp [hnone] at h

/-- One block written. -/
theorem put_ok (h : g.cell? pos = some v) (block : Int) :
    ∃ g', g.put pos block = .ok g' ∧ ∀ q, g'.cell? q = if q = pos then some block else g.cell? q := by
  obtain ⟨x, y, rfl, -⟩ := exists_of_cell? h
  have hin : 0 ≤ (x : Int) ∧ (x : Int) < 10 ∧ 0 ≤ (y : Int) ∧ (y : Int) < 20 := by omega
  refine ⟨_, dif_pos hin, fun q => ?_⟩
  rcases place_cases q with ⟨x', y', rfl⟩ | hnone
  · rw [cell?_mk, cell?_mk]
    by_cases hq : x' = x ∧ y' = y
    · simp [hq]
    · have hne : (⟨x', y'⟩ : Vec2i) ≠ ⟨x, y⟩ := fun heq => hq (by simpa [Fin.ext_iff] using heq)
      rw [if_neg hne]
      exact congrArg some (if_neg hq)
  · rw [hnone, hnone, if_neg]
    rintro rfl
    simpa using hnone g

/-- The blocks of a figure at a position all lie on free places of the field. -/
def Free (g : Grid) (blocks : Blocks) (pos : Vec2i) : Prop :=
  ∀ c ∈ occupied blocks, g.cell? (pos.add c.1 c.2.1) = some 0

theorem checkCollision_eq_false : g.checkCollision blocks pos = false ↔ g.Free blocks pos := by
  rw [checkCollision, List.any_eq_false]
  constructor
  · intro h c hc
    have hfree := h c hc
    simp only [Bool.not_eq_true, Bool.or_eq_false_iff, bne_eq_false_iff_eq] at hfree
    exact hfree.2
  · intro h c hc
    have hcell := h c hc
    obtain ⟨x, y, hpos, hzero⟩ := exists_of_cell? hcell
    simp [hpos, hzero, checkPositionWithinField]

/-- `addToLandedBlocks`, if every block has to find its place free. -/
def addToFreePlaces (g : Grid) (blocks : Blocks) (pos : Vec2i) : Option Grid :=
  (occupied blocks).foldlM
    (fun g (i, j, block) => if g.cell? (pos.add i j) = some 0 then (g.put (pos.add i j) block).toOption
      else none) g

/-- Blocks at different places, all of them free, are put down one after the other. -/
theorem foldlM_put {l : List (Nat × Nat × Int)} (hnodup : (l.map fun c => (c.1, c.2.1)).Nodup)
    (hfree : ∀ c ∈ l, g.cell? (pos.add c.1 c.2.1) = some 0) :
    ∃ g', l.foldlM (fun g (i, j, block) => g.put (pos.add i j) block) g = .ok g' ∧
      l.foldlM (fun g (i, j, block) =>
        if g.cell? (pos.add i j) = some 0 then (g.put (pos.add i j) block).toOption else none) g = some g' ∧
      ∀ x y, g' x y ≠ g x y → ∃ c ∈ l, pos.add c.1 c.2.1 = ⟨x, y⟩ := by
  induction l generalizing g with
  | nil => exact ⟨g, rfl, rfl, fun x y h => absurd rfl h⟩
  | cons c l ih =>
    obtain ⟨i, j, block⟩ := c
    have hcell : g.cell? (pos.add i j) = some 0 := hfree (i, j, block) mem_cons_self
    obtain ⟨g₁, hput, hg₁⟩ := put_ok hcell block
    rw [map_cons, nodup_cons] at hnodup
    have hrest : ∀ c ∈ l, g₁.cell? (pos.add c.1 c.2.1) = some 0 := by
      intro c hc
      rw [hg₁, if_neg, hfree c (mem_cons_of_mem _ hc)]
      -- another block of the figure has another offset
      intro heq
      apply hnodup.1
      simp only [Vec2i.add, Vec2i.mk.injEq, Int.add_right_inj, Int.natCast_inj] at heq
      exact List.mem_map.mpr ⟨c, hc, Prod.ext heq.1 heq.2⟩
    obtain ⟨g', hok, hsome, hchanged⟩ := ih hnodup.2 hrest
    refine ⟨g', ?_, ?_, ?_⟩
    · simp only [foldlM_cons, hput]
      exact hok
    · simp only [foldlM_cons, if_pos hcell, hput]
      exact hsome
    · intro x y hxy
      by_cases hsame : g₁ x y = g x y
      · obtain ⟨c, hc, hpos⟩ := hchanged x y (hsame ▸ hxy)
        exact ⟨c, mem_cons_of_mem _ hc, hpos⟩
      · refine ⟨(i, j, block), mem_cons_self, ?_⟩
        have hxy₁ := hg₁ ⟨x, y⟩
        rw [cell?_mk, cell?_mk] at hxy₁
        by_contra hne
        rw [if_neg (Ne.symm hne)] at hxy₁
        exact hsame (some_inj.mp hxy₁)

/-! ### Filled lines -/

theorem checkLineFilled_iff : g.checkLineFilled line = true ↔ ∀ x, g x line ≠ 0 :=
  decide_eq_true_iff

/-- A line with a free place is not filled. -/
theorem ne_of_checkLineFilled (h : g.checkLineFilled line = true) (hcell : g.cell? pos = some 0) :
    pos.y ≠ line := by
  obtain ⟨x, y, rfl, hzero⟩ := exists_of_cell? hcell
  intro hy
  obtain rfl : y = line := by
    apply Fin.ext
    simpa using hy
  exact checkLineFilled_iff.mp h x hzero

/-- If the filled lines lie in a block of four, then at most four lines are cleared, and only lines
    from which others were copied can be filled afterwards. -/
theorem clearFilledLines_spec {first : Nat}
    (hblock : ∀ y : Fin 20, g.checkLineFilled y = true → first ≤ y ∧ (y : Nat) < first + 4) :
    ∃ c g', g.clearFilledLines = .ok (c, g') ∧ c ≤ 4 ∧ ∀ y : Fin 20, g'.checkLineFilled y = true →
      (y : Nat) < c := by
  obtain ⟨g', hclear, hlines⟩ := g.clearFilledLines_lines
  refine ⟨_, g', hclear, ?_, fun y hy => ?_⟩
  · have hcount : g.lines.countP isFilled =
        (((finRange 20).filter g.checkLineFilled).map Fin.val).length := by
      rw [lines, ofFn_eq_map, countP_map, countP_eq_length_filter, length_map]
      rfl
    have hnodup : (((finRange 20).filter g.checkLineFilled).map Fin.val).Nodup :=
      ((nodup_finRange 20).filter _).map Fin.val_injective
    have hsub : ((finRange 20).filter g.checkLineFilled).map Fin.val ⊆ range' first 4 := by
      intro n hn
      obtain ⟨y, hy, rfl⟩ := mem_map.mp hn
      have := hblock y (mem_filter.mp hy).2
      exact mem_range'_1.mpr this
    rw [hcount]
    exact (hnodup.subperm hsub).length_le.trans_eq length_range'
  · by_contra hge
    have hmem : (fun x => g' x y) ∈ g.lines.filter fun line => !isFilled line := by
      have hcount : g.lines.countP isFilled ≤ g.lines.length := countP_le_length
      rw [← getElem_lines (g'.length_lines.symm ▸ y.isLt)]
      simp only [hlines]
      rw [getElem_append_right (by rw [length_take]; omega)]
      exact getElem_mem _
    have hunfilled := (mem_filter.mp hmem).2
    rw [Bool.not_eq_true'] at hunfilled
    exact Bool.false_ne_true (hunfilled.symm.trans hy)

end Grid

/-! ### The shapes of the figures -/

/-- What all rotations have in common: no gap between their lines, the first of which is not empty,
    at most four lines, and every block at an offset of its own. -/
structure Shape (blocks : Blocks) : Prop where
  top : ∃ c ∈ occupied blocks, c.2.1 = 0
  lines : ∀ c ∈ occupied blocks, c.2.1 < 4 ∧ ∀ j < c.2.1, ∃ c' ∈ occupied blocks, c'.2.1 = j
  offsets : ((occupied blocks).map fun c => (c.1, c.2.1)).Nodup

theorem rotations_shape (figure : Figure) : ∀ blocks ∈ rotations figure, Shape blocks := by
  have h : ∀ figure, ∀ blocks ∈ rotations figure, (∃ c ∈ occupied blocks, c.2.1 = 0) ∧
      (∀ c ∈ occupied blocks, c.2.1 < 4 ∧ ∀ j < c.2.1, ∃ c' ∈ occupied blocks, c'.2.1 = j) ∧
      ((occupied blocks).map fun c => (c.1, c.2.1)).Nodup := by decide +kernel
  exact fun blocks hblocks =>
    ⟨(h figure blocks hblocks).1, (h figure blocks hblocks).2.1, (h figure blocks hblocks).2.2⟩

theorem rotations_pos (figure : Figure) : 0 < (rotations figure).length := by cases figure <;> decide

theorem getD_shape {figure : Figure} {rotation : Nat} (h : rotation < (rotations figure).length) :
    Shape ((rotations figure).getD rotation []) := by
  rw [getD_eq_getElem _ _ h]
  exact rotations_shape figure _ (getElem_mem h)

/-! ### The falling figure -/

/-- A figure is falling: it has a position, all its blocks lie on free places, and it is above the
    filled lines, which can only be among the first four. -/
structure Playing (b : Board) (figure : Figure) (pos : Vec2i) : Prop where
  falling : b.fallingFigure = some figure
  position : (b.figures figure).position = some pos
  rotation : (b.figures figure).curRotation < (rotations figure).length
  free : b.landedBlocks.Free (b.getBlocks figure) pos
  filled : ∀ y : Fin 20, b.landedBlocks.checkLineFilled y = true → (y : Nat) < 4 ∧ pos.y < y

/-- The highest block of a figure on free places is in the line of its position. -/
theorem Grid.Free.top (h : g.Free blocks pos) (hshape : Shape blocks) :
    0 ≤ pos.y ∧ pos.y < 20 ∧ ∀ y : Fin 20, g.checkLineFilled y = true → pos.y ≠ y := by
  obtain ⟨c, hc, hzero⟩ := hshape.top
  have hcell := h c hc
  obtain ⟨x, y, hpos, -⟩ := Grid.exists_of_cell? hcell
  have hy : pos.y = y := by simpa [Vec2i.add, hzero] using congrArg Vec2i.y hpos
  refine ⟨by omega, by omega, fun y' hy' => ?_⟩
  simpa [Vec2i.add, hzero] using Grid.ne_of_checkLineFilled hy' hcell

/-- The loop of `fastFall` ends after at most one iteration for every line of the field, and any
    number of iterations that is enough leads to the same position. The figure is on free places
    then, and it has not passed a filled line. -/
theorem Grid.Free.fall (h : g.Free blocks pos) (hshape : Shape blocks) :
    ∃ newPos, g.Free blocks newPos ∧ (∀ y : Fin 20, g.checkLineFilled y = true → pos.y < y → newPos.y < y) ∧
      ∀ fuel : Nat, g.fall blocks fuel pos = .ok newPos ∨
        (g.fall blocks fuel pos = .error .outOfFuel ∧ fuel + pos.y < 20) := by
  have htop := h.top hshape
  induction hn : (20 - pos.y).toNat generalizing pos with
  | zero => omega
  | succ n ih =>
    by_cases hcollision : g.checkCollision blocks (pos.add 0 1) = true
    · refine ⟨pos, h, fun y _ hy => hy, ?_⟩
      rintro (_ | fuel)
      · exact .inr ⟨rfl, by omega⟩
      · exact .inl (if_pos hcollision)
    · have hnext := Grid.checkCollision_eq_false.mp (Bool.eq_false_of_not_eq_true hcollision)
      have hline : (pos.add 0 1).y = pos.y + 1 := rfl
      obtain ⟨newPos, hfree, hbelow, hfall⟩ := ih hnext (hnext.top hshape) (by omega)
      refine ⟨newPos, hfree, fun y hy hlt => hbelow y hy ?_, ?_⟩
      · have hne := (hnext.top hshape).2.2 y hy
        omega
      · rintro (_ | fuel)
        · exact .inr ⟨rfl, by omega⟩
        · rw [Grid.fall, if_neg hcollision]
          exact (hfall fuel).imp_right fun hout => ⟨hout.1, by omega⟩

namespace Playing

theorem falling_eq (h : Playing b figure pos) : b.falling = .ok (figure, pos) := by
  rw [Board.falling, h.falling]
  simp only [h.position]

theorem shape (h : Playing b figure pos) : Shape (b.getBlocks figure) := getD_shape h.rotation

/-- The figure with another position or rotation, in which it does not collide either. -/
theorem setFigure (h : Playing b figure pos) {f : TetrisFigure} {newPos : Vec2i}
    (hposition : f.position = some newPos) (hrotation : f.curRotation < (rotations figure).length)
    (hfree : b.landedBlocks.Free (f.getBlocks figure) newPos)
    (hbelow : ∀ y : Fin 20, b.landedBlocks.checkLineFilled y = true → pos.y < y → newPos.y ≠ y →
    newPos.y < y) : Playing (b.setFigure figure f) figure newPos := by
  have hsame : (b.setFigure figure f).figures figure = f := Function.update_self ..
  refine ⟨h.falling, ?_, ?_, ?_, fun y hy => ⟨(h.filled y hy).1, ?_⟩⟩
  · rw [hsame, hposition]
  · rwa [hsame]
  · rw [Board.getBlocks, hsame]
    exact hfree
  · exact hbelow y hy (h.filled y hy).2 ((hfree.top (getD_shape hrotation)).2.2 y hy)

theorem tryMove (h : Playing b figure pos) {x y : Int} (hy : y ≤ 1) :
    ∃ moved b' pos', b.tryMove x y = .ok (moved, b') ∧ Playing b' figure pos' := by
  rw [Board.tryMove, h.falling_eq]
  simp only [bind, Except.bind]
  by_cases hcollision : b.landedBlocks.checkCollision (b.getBlocks figure) (pos.add x y) = true
  · rw [if_pos hcollision]
    exact ⟨false, b, pos, rfl, h⟩
  · rw [if_neg hcollision]
    refine ⟨true, _, pos.add x y, rfl, h.setFigure rfl h.rotation ?_ ?_⟩
    · exact Grid.checkCollision_eq_false.mp (Bool.eq_false_of_not_eq_true hcollision)
    · intro line _ hline hne
      simp only [Vec2i.add] at hne ⊢
      omega

theorem rotate (h : Playing b figure pos) : ∃ b', b.rotate = .ok b' ∧ Playing b' figure pos := by
  rw [Board.rotate, h.falling_eq]
  simp only [bind, Except.bind]
  by_cases hcollision :
      b.landedBlocks.checkCollision ((b.figures figure).getNextRotation figure) pos = true
  · rw [if_pos hcollision]
    exact ⟨b, rfl, h⟩
  · rw [if_neg hcollision]
    refine ⟨_, rfl, h.setFigure h.position (Nat.mod_lt _ (rotations_pos figure)) ?_ fun y _ hy _ => hy⟩
    exact Grid.checkCollision_eq_false.mp (Bool.eq_false_of_not_eq_true hcollision)

/-! ### Dropping a figure -/

/-- Where the falling figure is dropped to, however long the loop is let run. -/
theorem drop (h : Playing b figure pos) :
    ∃ b' pos', Playing b' figure pos' ∧
      ∀ fuel, b.drop fuel = .ok b' ∨ (b.drop fuel = .error .outOfFuel ∧ fuel < 20) := by
  have htop := h.free.top h.shape
  obtain ⟨newPos, hfree, hbelow, hfall⟩ := h.free.fall h.shape
  have hdrop : ∀ fuel, b.drop fuel = (b.landedBlocks.fall (b.getBlocks figure) fuel pos).map fun newPos =>
      b.setFigure figure ((b.figures figure).move newPos) := by
    intro fuel
    rw [Board.drop, h.falling_eq]
    simp only [bind, Except.bind]
    cases b.landedBlocks.fall (b.getBlocks figure) fuel pos <;> rfl
  refine ⟨b.setFigure figure ((b.figures figure).move newPos), newPos, ?_, fun fuel => ?_⟩
  · exact h.setFigure rfl h.rotation hfree fun y hy hlt _ => hbelow y hy hlt
  · rw [hdrop]
    exact (hfall fuel).imp (congrArg _) fun hout => ⟨congrArg _ hout.1, by omega⟩

/-- The dropped figure becomes part of the landed blocks. At most four lines are cleared, and lines
    that are filled after that are among the first four. -/
theorem land (h : Playing b figure pos) :
    ∃ g c b', b.landedBlocks.addToLandedBlocks (b.getBlocks figure) pos = .ok g ∧
      b.landedBlocks.addToFreePlaces (b.getBlocks figure) pos = some g ∧ b.land = .ok (c, b') ∧
      c = g.lines.countP Grid.isFilled ∧ c ≤ 4 ∧ ∀ y : Fin 20, b'.landedBlocks.checkLineFilled y = true →
        (y : Nat) < 4 := by
  obtain ⟨g, hok, hsome, hchanged⟩ := Grid.foldlM_put h.shape.offsets h.free
  -- a line that the figure fills is one of its lines
  have hnew : ∀ y : Fin 20, g.checkLineFilled y = true → b.landedBlocks.checkLineFilled y = false →
      ∃ c ∈ occupied (b.getBlocks figure), pos.y + c.2.1 = y := by
    intro y hy hy'
    obtain ⟨x, hx⟩ := not_forall.mp (mt Grid.checkLineFilled_iff.mpr (Bool.eq_false_iff.mp hy'))
    obtain ⟨c, hc, hpos⟩ := hchanged x y fun heq =>
      Grid.checkLineFilled_iff.mp hy x (heq.trans (not_not.mp hx))
    exact ⟨c, hc, congrArg Vec2i.y hpos⟩
  have htop := h.free.top h.shape
  have hblock : ∃ first : Nat, ∀ y : Fin 20, g.checkLineFilled y = true →
      first ≤ y ∧ (y : Nat) < first + 4 := by
    by_cases hleft : ∃ y₀ : Fin 20, b.landedBlocks.checkLineFilled y₀ = true
    · -- the figure is above the line that is filled already
      obtain ⟨y₀, hy₀⟩ := hleft
      have ⟨hfour, habove⟩ := h.filled y₀ hy₀
      refine ⟨0, fun y hy => ⟨Nat.zero_le _, ?_⟩⟩
      cases hold : b.landedBlocks.checkLineFilled y with
      | true => exact (h.filled y hold).1
      | false =>
        obtain ⟨c, hc, hcy⟩ := hnew y hy hold
        by_contra hge
        obtain ⟨c', hc', hline⟩ : ∃ c' ∈ occupied (b.getBlocks figure), pos.y + c'.2.1 = y₀ := by
          rcases Nat.lt_or_ge ((y₀ : Int) - pos.y).toNat c.2.1 with hlt | hge'
          · obtain ⟨c', hc', hj⟩ := (h.shape.lines c hc).2 _ hlt
            exact ⟨c', hc', by omega⟩
          · exact ⟨c, hc, by omega⟩
        exact Grid.ne_of_checkLineFilled hy₀ (h.free c' hc') hline
    · refine ⟨pos.y.toNat, fun y hy => ?_⟩
      obtain ⟨c, hc, hcy⟩ := hnew y hy (Bool.eq_false_iff.mpr fun hy' => hleft ⟨y, hy'⟩)
      have := (h.shape.lines c hc).1
      omega
  obtain ⟨first, hblock⟩ := hblock
  obtain ⟨c, g', hclear, hc, hfilled⟩ := Grid.clearFilledLines_spec hblock
  have hcount : c = g.lines.countP Grid.isFilled := by
    obtain ⟨_, hlines, -⟩ := g.clearFilledLines_lines
    cases hclear.symm.trans hlines
    rfl
  refine ⟨g, c, { b with landedBlocks := g' }, hok, hsome, ?_, hcount, hc,
    fun y hy => (hfilled y hy).trans_le hc⟩
  have hadd : b.landedBlocks.addToLandedBlocks (b.getBlocks figure) pos = .ok g := hok
  rw [Board.land, h.falling_eq]
  simp only [bind, Except.bind, hadd, hclear]
  rfl

end Playing

/-- A new figure that fits is above the lines that are filled. -/
theorem spawnNewFigure_playing {b b' : Board} {figure : Figure} {rotation : Fin 4}
    (hfilled : ∀ y : Fin 20, b.landedBlocks.checkLineFilled y = true → (y : Nat) < 4)
    (h : b.spawnNewFigure figure rotation = (true, b')) : Playing b' figure ⟨4, 0⟩ := by
  rw [Board.spawnNewFigure] at h
  simp only at h
  split at h
  · simp at h
  · rename_i hcollision
    obtain rfl : _ = b' := (Prod.mk.inj h).2
    have hrotation : (rotation : Nat) % (rotations figure).length < (rotations figure).length :=
      Nat.mod_lt _ (rotations_pos figure)
    have hfree : b.landedBlocks.Free (getRotation figure rotation) ⟨4, 0⟩ :=
      Grid.checkCollision_eq_false.mp (Bool.eq_false_of_not_eq_true hcollision)
    have hsame : ∀ b₀ : Board, (b₀.setFigure figure (.spawn figure ⟨4, 0⟩ rotation)).figures figure =
        .spawn figure ⟨4, 0⟩ rotation := fun b₀ => Function.update_self ..
    refine ⟨rfl, ?_, ?_, ?_, fun y hy => ⟨hfilled y hy, ?_⟩⟩
    · rw [hsame]
      rfl
    · rw [hsame]
      exact hrotation
    · rw [Board.getBlocks, hsame]
      exact hfree
    · have hne := (hfree.top (getD_shape hrotation)).2.2 y hy
      simp only at hne ⊢
      omega

/-! ### The levels -/

theorem int32_spec (n : Int) :
    (∃ k : Int, int32 n = n + 4294967296 * k) ∧ -2147483648 ≤ int32 n ∧ int32 n < 2147483648 := by
  rw [int32, Int.bmod_def]
  norm_num
  split
  · exact ⟨⟨-(n / 4294967296), by omega⟩, by omega, by omega⟩
  · exact ⟨⟨-(n / 4294967296) - 1, by omega⟩, by omega, by omega⟩

namespace GameplayState

/-- The highest number that the level loop can compare a score with: what it computes is a multiple
    of four. -/
def lastBound : Int := 2147483644

theorem int32_le_lastBound (n : Int) : int32 (300 * n) ≤ lastBound := by
  obtain ⟨⟨k, hk⟩, -, hlt⟩ := int32_spec (300 * n)
  simp only [lastBound]
  omega

/-- The level loop gets to that number after some iterations. -/
theorem exists_lastBound (level : Int) : ∃ n :
    Nat, n < 2 ^ 32 ∧ int32 (300 * (level + n + 1)) = lastBound := by
  -- a solution of `300 * x = lastBound` modulo `2 ^ 32`
  let x : Int := 164640413
  refine ⟨((x - level - 1) % 4294967296).toNat, by omega, ?_⟩
  obtain ⟨⟨k, hk⟩, hge, hlt⟩ := int32_spec (300 * (level + ((x - level - 1) % 4294967296).toNat + 1))
  simp only [lastBound, x] at *
  omega

theorem checkNextLevel_of_bound {n : Nat} (hfuel : n < fuel)
    (h : s.curScore < int32 (300 * (s.curLevel + n + 1))) : ∃ s', checkNextLevel fuel s = .ok s' := by
  induction fuel generalizing s n with
  | zero => omega
  | succ fuel ih =>
    rw [checkNextLevel]
    split
    · rename_i hnow
      cases n with
      | zero =>
        simp only [Nat.cast_zero, add_zero] at h
        omega
      | succ n =>
        apply ih (Nat.lt_of_succ_lt_succ hfuel)
        obtain ⟨⟨k, hk⟩, -, -⟩ := int32_spec (s.curLevel + 1)
        obtain ⟨⟨k₁, hk₁⟩, hge₁, hlt₁⟩ := int32_spec (300 * (int32 (s.curLevel + 1) + n + 1))
        obtain ⟨⟨k₂, hk₂⟩, hge₂, hlt₂⟩ := int32_spec (300 * (s.curLevel + ↑(n + 1) + 1))
        push_cast at *
        omega
    · exact ⟨s, rfl⟩

/-- A lower score is exceeded before the level has gone round once. -/
theorem checkNextLevel_returns (h : s.curScore < lastBound) (hfuel : 2 ^ 32 ≤ fuel) :
    ∃ s', checkNextLevel fuel s = .ok s' := by
  obtain ⟨n, hlt, hn⟩ := exists_lastBound s.curLevel
  exact checkNextLevel_of_bound (hlt.trans_le hfuel) (hn ▸ h)

/-- The level loop ends unless the score has reached the highest number it is compared with. -/
theorem checkNextLevel_returns_iff (s : GameplayState) :
    (∃ fuel s', checkNextLevel fuel s = .ok s') ↔ s.curScore < lastBound := by
  constructor
  · rintro ⟨fuel, s', h⟩
    by_contra hge
    induction fuel generalizing s with
    | zero => cases h
    | succ fuel ih =>
      rw [checkNextLevel, if_pos ((int32_le_lastBound _).trans (not_lt.mp hge))] at h
      exact ih _ h hge
  · intro h
    exact ⟨2 ^ 32, checkNextLevel_returns h le_rfl⟩

theorem checkNextLevel_cases (fuel : Nat) (s : GameplayState) :
    (∃ level, checkNextLevel fuel s = .ok { s with curLevel := level }) ∨
      checkNextLevel fuel s = .error .outOfFuel := by
  induction fuel generalizing s with
  | zero => exact .inr rfl
  | succ fuel ih =>
    rw [checkNextLevel]
    split
    · exact ih { s with curLevel := int32 (s.curLevel + 1) }
    · exact .inl ⟨s.curLevel, rfl⟩

theorem points_isSome (h : linesCleared ≤ 4) : ∃ p, points linesCleared = some p := by
  interval_cases linesCleared <;> exact ⟨_, rfl⟩

end GameplayState

/-! ### The calls -/

namespace Model

/-- The score once the falling figure has landed where it is, by the lines that are filled then. -/
def scoreAfterLanding (m : Model) : Option Int := do
  let (figure, pos) ← m.board.falling.toOption
  let g ← (m.board.landedBlocks.addToLandedBlocks (m.board.getBlocks figure) pos).toOption
  let points ← GameplayState.points (g.lines.countP Grid.isFilled)
  return int32 (m.gameState.curScore + points)

/-- The score once the falling figure has been dropped. -/
def scoreAfterFall (m : Model) : Option Int := do
  let board ← (m.board.drop 20).toOption
  { m with board }.scoreAfterLanding

/-- While the game runs, a figure is falling. -/
def Safe (m : Model) : Prop := m.gameState.isGameRunning = true → ∃ figure pos, Playing m.board figure pos

/-- A call that returns with a safe model, or whose loops are not done yet. -/
def Returns (result : Except Stop Model) : Prop :=
  (∃ m, result = .ok m ∧ m.Safe) ∨ result = .error .outOfFuel

/-- What `handleFigureLanding` does once the score is counted. -/
def spawnOrEnd (board : Board) (figure : Figure) (rotation : Fin 4) (gameState : GameplayState) :
    Except Stop Model :=
  if (board.spawnNewFigure figure rotation).1 then
    .ok { gameState, board := (board.spawnNewFigure figure rotation).2 }
  else gameState.setGameOver.map fun gameState =>
    { gameState, board := (board.spawnNewFigure figure rotation).2 }

theorem handleFigureLanding_eq {points : Int} (hland : m.board.land = .ok (linesCleared, board))
    (hpoints : GameplayState.points linesCleared = some points) (fuel : Nat) (figure : Figure)
    (rotation : Fin 4) : m.handleFigureLanding fuel figure rotation =
      (GameplayState.checkNextLevel fuel
        { m.gameState with curScore := int32 (m.gameState.curScore + points) }).bind (spawnOrEnd
          board figure rotation) := by
  rw [handleFigureLanding, hland]
  simp only [bind, Except.bind, GameplayState.addScore, hpoints]
  split
  · rfl
  · rw [spawnOrEnd]
    split
    · rfl
    · rename_i gameState _ _
      cases gameState.setGameOver <;> rfl

/-- A new figure is falling then, or the game is over. -/
theorem spawnOrEnd_safe (hfilled : ∀ y : Fin 20, board.landedBlocks.checkLineFilled y = true → (y : Nat) < 4)
    (figure : Figure) (rotation : Fin 4) (gameState : GameplayState)
    (hrunning : gameState.isGameRunning = true) :
    ∃ m, spawnOrEnd board figure rotation gameState = .ok m ∧ m.Safe := by
  rw [spawnOrEnd]
  split
  · rename_i hspawned
    exact ⟨_, rfl, fun _ => ⟨figure, ⟨4, 0⟩, spawnNewFigure_playing hfilled (Prod.ext hspawned rfl)⟩⟩
  · rw [GameplayState.setGameOver, if_pos hrunning]
    exact ⟨_, rfl, fun hover => by cases hover⟩

/-- A call that counts a score leaves a safe model if the level loop can exceed the score, and does
    not return otherwise. -/
def ReturnsBelow (score : Int) (call : Nat → Except Stop Model) : Prop :=
  ∀ fuel, (∃ m, call fuel = .ok m ∧ m.Safe ∧ score < GameplayState.lastBound) ∨
    (call fuel = .error .outOfFuel ∧ (2 ^ 32 ≤ fuel → GameplayState.lastBound ≤ score))

theorem ReturnsBelow.returns {score : Int} {call : Nat → Except Stop Model}
    (h : ReturnsBelow score call) (fuel : Nat) : Returns (call fuel) := by
  rcases h fuel with ⟨m, hm, hsafe, -⟩ | ⟨hfuel, -⟩
  · exact .inl ⟨m, hm, hsafe⟩
  · exact .inr hfuel

/-- A figure lands. -/
theorem handleFigureLanding_spec (h : Playing m.board falling pos)
    (hrunning : m.gameState.isGameRunning = true) :
    ∃ score, m.scoreAfterLanding = some score ∧ ∀ figure rotation,
      ReturnsBelow score fun fuel => m.handleFigureLanding fuel figure rotation := by
  obtain ⟨g, c, board, hadd, -, hland, hcount, hc, hfilled⟩ := h.land
  obtain ⟨points, hpoints⟩ := GameplayState.points_isSome hc
  refine ⟨int32 (m.gameState.curScore + points), ?_, fun figure rotation => ?_⟩
  · rw [scoreAfterLanding, h.falling_eq]
    simp [Except.toOption, hadd, ← hcount, hpoints]
  set scored : GameplayState := { m.gameState with curScore := int32 (m.gameState.curScore + points) }
  intro fuel
  dsimp only
  rw [handleFigureLanding_eq hland hpoints]
  rcases GameplayState.checkNextLevel_cases fuel scored with ⟨level, hlevel⟩ | hfuel
  · obtain ⟨m', hm', hsafe⟩ :=
      spawnOrEnd_safe hfilled figure rotation { scored with curLevel := level } hrunning
    rw [hlevel]
    exact .inl ⟨m', hm', hsafe, (GameplayState.checkNextLevel_returns_iff scored).mp ⟨fuel, _, hlevel⟩⟩
  · rw [hfuel]
    refine .inr ⟨rfl, fun hle => not_lt.mp fun hlt => ?_⟩
    obtain ⟨gameState, hlevel⟩ := GameplayState.checkNextLevel_returns (s := scored) hlt hle
    cases hfuel.symm.trans hlevel

/-- The figure is dropped. -/
theorem fastFall_spec (h : Playing m.board falling pos) (hrunning : m.gameState.isGameRunning = true) :
    ∃ score, m.scoreAfterFall = some score ∧ ∀ figure rotation,
      ReturnsBelow score fun fuel => m.fastFall fuel figure rotation := by
  obtain ⟨b, pos', hplaying, hdrop⟩ := h.drop
  obtain ⟨score, hscore, hland⟩ := handleFigureLanding_spec (m := { m with board := b }) hplaying hrunning
  refine ⟨score, ?_, fun figure rotation fuel => ?_⟩
  · rw [scoreAfterFall, (hdrop 20).resolve_right fun hout => Nat.lt_irrefl 20 hout.2]
    exact hscore
  · dsimp only
    rw [fastFall]
    rcases hdrop fuel with hfuel | ⟨hfuel, hlt⟩
    · rw [hfuel]
      exact hland figure rotation fuel
    · rw [hfuel]
      exact .inr ⟨rfl, fun hle => by omega⟩

theorem nextStep_returns (h : Playing m.board falling pos) (hrunning : m.gameState.isGameRunning = true)
    (fuel : Nat) (figure : Figure) (rotation : Fin 4) :
    Returns (m.nextStep fuel figure rotation) := by
  obtain ⟨moved, b, pos', hmove, hplaying⟩ := h.tryMove (x := 0) (y := 1) le_rfl
  rw [nextStep, if_pos hrunning, hmove]
  cases moved with
  | true => exact .inl ⟨_, rfl, fun _ => ⟨falling, pos', hplaying⟩⟩
  | false =>
    obtain ⟨_, -, hland⟩ := handleFigureLanding_spec h hrunning
    exact (hland figure rotation).returns fuel

theorem tryMove_returns (h : Playing m.board falling pos) (x : Int) :
    Returns (do return { m with board := (← m.board.tryMove x 0).2 }) := by
  obtain ⟨moved, b, pos', hmove, hplaying⟩ := h.tryMove (x := x) (y := 0) (by omega)
  rw [hmove]
  exact .inl ⟨_, rfl, fun _ => ⟨falling, pos', hplaying⟩⟩

theorem rotate_returns (h : Playing m.board falling pos) : Returns m.rotate := by
  obtain ⟨b, hrotate, hplaying⟩ := h.rotate
  rw [rotate, hrotate]
  exact .inl ⟨_, rfl, fun _ => ⟨falling, pos, hplaying⟩⟩

/-- No call throws while the game runs, and it stays safe. -/
theorem step_returns (hrunning : m.gameState.isGameRunning = true) (h : m.Safe) (fuel : Nat) (a : Action) :
    Returns (step fuel m a) := by
  obtain ⟨falling, pos, hplaying⟩ := h hrunning
  cases a with
  | nextStep figure rotation => exact nextStep_returns hplaying hrunning fuel figure rotation
  | moveLeft => exact tryMove_returns hplaying (-1)
  | moveRight => exact tryMove_returns hplaying 1
  | rotate => exact rotate_returns hplaying
  | fastFall figure rotation =>
    obtain ⟨_, -, hfall⟩ := fastFall_spec hplaying hrunning
    exact (hfall figure rotation).returns fuel

/-! ### Whole games -/

/-- In an empty field every figure fits, whatever its rotation. -/
theorem restart_safe (m : Model) (figure : Figure) (rotation : Fin 4) :
    (m.restart figure rotation).Safe := by
  have hfits : ∀ (figure : Figure) (rotation : Fin 4),
      Grid.checkCollision (fun _ _ => 0) (getRotation figure rotation) ⟨4, 0⟩ = false := by decide +kernel
  intro _
  have hspawn : { m.board with landedBlocks := fun _ _ => 0, fallingFigure := none }.spawnNewFigure
      figure rotation = (true, (m.restart figure rotation).board) := by
    rw [restart, Board.spawnNewFigure]
    simp [hfits]
  exact ⟨figure, ⟨4, 0⟩,
    spawnNewFigure_playing (fun y hy => absurd rfl (Grid.checkLineFilled_iff.mp hy 0)) hspawn⟩

/-- A call made while the game is running. -/
def playStep (fuel : Nat) (m : Model) (a : Action) : Option Model :=
  if m.gameState.isGameRunning then (step fuel m a).toOption else none

theorem run_safe {m' : Model} {actions : List Action} (h : m.Safe)
    (hrun : run (playStep fuel) m actions = some m') : m'.Safe := by
  apply run_preserves _ h hrun
  intro m a m₁ hm hstep
  rw [playStep, ite_none_right_eq_some] at hstep
  obtain ⟨hrunning, hstep⟩ := hstep
  rcases step_returns hrunning hm fuel a with ⟨m₂, hm₂, hsafe⟩ | hfuel
  · rw [hm₂] at hstep
    exact some_inj.mp hstep ▸ hsafe
  · rw [hfuel] at hstep
    cases hstep

end Model

/-- In every state of a game that is running, the falling figure lies inside the field and on free
    places, there and where it falls to, its blocks are added at free places only, and no call
    throws. Dropping it ends exactly if the score is then below the highest number that the level
    loop compares it with. -/
theorem falling_figure_safe_iff (m₀ : Model) (first : Figure) (rotation : Fin 4) (fuel : Nat)
    (actions : List Action)
    (m : Model) (hrun : run (Model.playStep fuel) (m₀.restart first rotation) actions = some m)
    (hrunning : m.gameState.isGameRunning = true) :
    ∃ figure pos score, m.board.falling = .ok (figure, pos) ∧
      (∀ c ∈ occupied (m.board.getBlocks figure), m.board.landedBlocks.cell? (pos.add c.1 c.2.1) = some 0) ∧
      (∃ g, m.board.landedBlocks.addToLandedBlocks (m.board.getBlocks figure) pos = .ok g ∧
        m.board.landedBlocks.addToFreePlaces (m.board.getBlocks figure) pos = some g) ∧
      (∃ b pos' g, m.board.drop 20 = .ok b ∧ b.falling = .ok (figure, pos') ∧
        b.landedBlocks.addToLandedBlocks (b.getBlocks figure) pos' = .ok g ∧
        b.landedBlocks.addToFreePlaces (b.getBlocks figure) pos' = some g) ∧
      (∀ fuel a e, step fuel m a = .error e → e = .outOfFuel) ∧
      m.scoreAfterFall = some score ∧
      ∀ figure rotation, (∃ fuel m', m.fastFall fuel figure rotation = .ok m') ↔ score < 2147483644 := by
  have hsafe := Model.run_safe (Model.restart_safe m₀ first rotation) hrun
  obtain ⟨figure, pos, h⟩ := hsafe hrunning
  obtain ⟨g, -, -, hok, hfree, -⟩ := h.land
  obtain ⟨b, pos', hdropped, hdrop⟩ := h.drop
  have hends := (hdrop 20).resolve_right fun hout => Nat.lt_irrefl 20 hout.2
  obtain ⟨g', -, -, hok', hfree', -⟩ := hdropped.land
  obtain ⟨score, hscore, hfall⟩ := Model.fastFall_spec h hrunning
  refine ⟨figure, pos, score, h.falling_eq, h.free, ⟨g, hok, hfree⟩,
    ⟨b, pos', g', hends, hdropped.falling_eq, hok', hfree'⟩, ?_, hscore, fun f r => ⟨?_, ?_⟩⟩
  · intro fuel a e he
    rcases Model.step_returns hrunning hsafe fuel a with ⟨m', hm', -⟩ | hfuel
    · rw [hm'] at he
      cases he
    · rw [hfuel] at he
      exact (Except.error.inj he).symm
  · rintro ⟨fuel, m', hm'⟩
    rcases hfall f r fuel with ⟨-, -, -, hlt⟩ | ⟨hfuel, -⟩
    · exact hlt
    · cases hm'.symm.trans hfuel
  · intro hlt
    rcases hfall f r (2 ^ 32) with ⟨m', hm', -⟩ | ⟨-, hge⟩
    · exact ⟨2 ^ 32, m', hm'⟩
    · exact absurd hlt (not_lt.mpr (hge le_rfl))

/-- A game in which the first figure was moved and dropped. -/
theorem falling_figure_safe_iff_dropped :
    ∃ m, run (Model.playStep 25) (Model.new.restart .figT 3)
      [.moveLeft, .rotate, .nextStep .figO 0, .fastFall .figI 1] =
        some m ∧ m.gameState.isGameRunning = true ∧ m.scoreAfterFall = some 0 ∧
      ∃ fuel m', m.fastFall fuel .figO 0 = .ok m' := by
  have hsome : (run (Model.playStep 25) (Model.new.restart .figT 3)
      [.moveLeft, .rotate, .nextStep .figO 0, .fastFall .figI 1]).map
        (fun m => (m.gameState.isGameRunning, m.scoreAfterFall)) = some (true, some 0) := by decide +kernel
  obtain ⟨m, hrun, hm⟩ := map_eq_some_iff.mp hsome
  obtain ⟨hrunning, hscore⟩ := Prod.mk.inj hm
  obtain ⟨-, -, score, -, -, -, -, -, hscore', hfall⟩ :=
    falling_figure_safe_iff Model.new .figT 3 25 _ m hrun hrunning
  obtain rfl : 0 = score := some_inj.mp (hscore.symm.trans hscore')
  exact ⟨m, hrun, hrunning, hscore, (hfall .figO 0).mpr (by decide)⟩

end NsuLabs.Tetris
