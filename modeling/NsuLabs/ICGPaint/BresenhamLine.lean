/-
Module: NsuLabs.ICGPaint.BresenhamLine
Purpose: `BresenhamLine::Draw` in `Graphics/1-ICGPaint/src/BresenhamLine.cpp`, and which lines of width 1 are
  drawn right. The offset of a painted point is computed as an `int`, as for span filling.
Trusted boundary: Twice a coordinate fits an `int`
Main exports: draw, drawnRight_iff
-/
import NsuLabs.ICGPaint.FillTool

namespace NsuLabs.ICGPaint

open Lib List

/-- The loop of a branch, where `u` is the coordinate on the longer axis: its values with those of
    `v` in each pass. -/
def passes (du dv stepU stepV : Int) : (count : Nat) → (u v err : Int) → List (Int × Int)
  | 0, _, _, _ => []
  | count + 1, u, v, err =>
    if err + 2 * dv > 0 then
      (u + stepU, v + stepV) :: passes du dv stepU stepV count (u + stepU) (v + stepV)
        (err + 2 * dv - 2 * du)
    else (u + stepU, v) :: passes du dv stepU stepV count (u + stepU) v (err + 2 * dv)

/-- The points of one pass, across the line. -/
def brush (width : Nat) (across : Int → QPoint) : List QPoint :=
  (range width).map fun i : Nat => across (i - ↑(width / 2))

def step (x y : Int) : Int := if x < y then 1 else -1

/-- The points that `setcolor` is called with, in their order. -/
def linePoints (a b : QPoint) (width : Nat) : List QPoint :=
  let dx := |b.x - a.x|
  let dy := |b.y - a.y|
  let stepX := step a.x b.x
  let stepY := step a.y b.y
  if dy < dx then
    (passes dx dy stepX stepY dx.toNat a.x a.y (-2 * dy - dx)).flatMap fun (x, y) => brush width (⟨x, y + ·⟩)
  else
    (passes dy dx stepY stepX dy.toNat a.y a.x (-2 * dx - dy)).flatMap fun (y, x) => brush width (⟨x + ·, y⟩)

/-- The calls of `setcolor`, with the points that they paint: those of the image, whose offsets are
    computed. -/
def setcolors (image : QImage) : List QPoint → Outcome Fault (List QPoint)
  | [] => .done []
  | p :: ps =>
    if image.Contains p then do
      let _ ← image.offset p
      let painted ← setcolors image ps
      .done (p :: painted)
    else setcolors image ps

/-- The points that `Draw` paints, in their order. -/
def draw (image : QImage) (a b : QPoint) (width : Nat) : Outcome Fault (List QPoint) :=
  setcolors image (linePoints a b width)

/-- The line from `a` to `b` as it should be drawn. -/
structure DrawnRight (a b : QPoint) (pixels : List QPoint) : Prop where
  /-- There is one pixel for each step along the longer axis. -/
  steps : pixels.length = max |b.x - a.x| |b.y - a.y| ∧
    ∀ (i : Nat) p, pixels[i]? = some p → max |p.x - a.x| |p.y - a.y| = i + 1
  neighbours : ∀ (i : Nat) p q, pixels[i]? = some p → pixels[i + 1]? = some q →
    max |q.x - p.x| |q.y - p.y| = 1
  /-- Along the shorter axis a pixel is at most half a pixel away from the segment. -/
  near : ∀ p ∈ pixels, 2 * |(p.x - a.x) * (b.y - a.y) - (p.y - a.y) * (b.x - a.x)| ≤
    max |b.x - a.x| |b.y - a.y|
  last : pixels.getLast? = some b

variable {image : QImage} {a b : QPoint} {du dv stepU stepV u v err : Int} {n count : Nat}

/-- While the error stays below zero the shorter axis is left alone. -/
theorem passes_straight (hdv : 0 ≤ dv) (hlt : n < count) (herr : err + 2 * dv * (n + 1) ≤ 0) :
    (passes du dv stepU stepV count u v err)[n]? = some (u + (n + 1) * stepU, v) := by
  induction n generalizing count u err with
  | zero =>
    obtain ⟨count, rfl⟩ := Nat.exists_eq_add_one.mpr hlt
    rw [passes, if_neg (by simpa using herr)]
    simp
  | succ n ih =>
    obtain ⟨count, rfl⟩ := Nat.exists_eq_add_one.mpr (n.succ_pos.trans hlt)
    have hmul : 0 ≤ dv * (n + 1) := by positivity
    push_cast at herr
    rw [passes, if_neg (by linarith), getElem?_cons_succ, ih (by omega) (by linarith)]
    push_cast
    ring_nf

theorem brush_one (across : Int → QPoint) : brush 1 across = [across 0] := by
  simp [brush]

/-- The offset of every point of the image is computed, and then the point is painted. -/
theorem setcolors_eq_done_iff {ps pixels : List QPoint} :
    setcolors image ps = .done pixels ↔
      (∀ p ∈ ps, image.Contains p → image.Fits p) ∧ pixels = ps.filter (image.Contains ·) := by
  induction ps generalizing pixels with
  | nil => simp [setcolors, eq_comm]
  | cons p ps ih =>
    by_cases hp : image.Contains p
    · by_cases hfits : image.Fits p
      · obtain ⟨i, hi, -⟩ := (QImage.offset_ends hp id).exists_done (not_not.mpr hfits)
        have hbind : setcolors image (p :: ps) =
            (setcolors image ps >>= fun painted => .done (p :: painted)) := by
          rw [setcolors, if_pos hp, hi]
          rfl
        rw [hbind, forall_mem_cons, filter_cons_of_pos (by simpa using hp)]
        constructor
        · intro h
          obtain ⟨painted, hrest, hlast⟩ := Outcome.bind_eq_done h
          obtain ⟨hall, rfl⟩ := ih.mp hrest
          cases hlast
          exact ⟨⟨fun _ => hfits, hall⟩, rfl⟩
        · rintro ⟨⟨-, hall⟩, rfl⟩
          rw [ih.mpr ⟨hall, rfl⟩]
          rfl
      · refine iff_of_false (fun h => ?_) fun h => hfits (h.1 p mem_cons_self hp)
        rw [setcolors, if_pos hp] at h
        obtain ⟨i, hi, -⟩ := Outcome.bind_eq_done h
        have hends := QImage.offset_ends (R := True) hp fun _ => trivial
        rw [hi] at hends
        exact hfits hends.2
    · rw [setcolors, if_neg hp, ih, forall_mem_cons, filter_cons_of_neg (by simpa using hp)]
      simp [hp]

/-! ### Lines along an axis -/

theorem passes_level (herr : err ≤ 0) :
    passes du 0 stepU stepV count u v err = (range count).map fun i : Nat => (u + (i + 1) * stepU, v) := by
  induction count generalizing u err with
  | zero => rfl
  | succ count ih =>
    rw [passes, if_neg (by omega), ih (by omega), range_succ_eq_map, map_cons, map_map]
    congr 1
    · simp
    · refine map_congr_left fun i _ => ?_
      simp only [Function.comp_apply, Nat.succ_eq_add_one]
      push_cast
      ring_nf

/-- The first `n` points behind `a` in one of the eight directions. -/
theorem drawnRight_direction {dx dy : Int} (hunit : max |dx| |dy| = 1) (hn : 0 < n) :
    DrawnRight a ⟨a.x + n * dx, a.y + n * dy⟩
      ((range n).map fun i : Nat => ⟨a.x + (i + 1) * dx, a.y + (i + 1) * dy⟩) := by
  have hmax (k : Int) : max |k * dx| |k * dy| = |k| := by
    rw [abs_mul, abs_mul, ← mul_max_of_nonneg _ _ (abs_nonneg k), hunit, mul_one]
  have hget (i : Nat) (p : QPoint) (hp : ((range n).map fun i : Nat =>
      (⟨a.x + (i + 1) * dx, a.y + (i + 1) * dy⟩ : QPoint))[i]? = some p) :
      p = ⟨a.x + (i + 1) * dx, a.y + (i + 1) * dy⟩ := by
    rw [getElem?_map] at hp
    obtain ⟨j, hj, rfl⟩ := Option.map_eq_some_iff.mp hp
    obtain ⟨_, rfl⟩ := List.getElem?_eq_some_iff.mp hj
    rw [getElem_range]
  constructor
  case steps =>
    simp only [length_map, length_range, add_sub_cancel_left, hmax]
    refine ⟨(Nat.abs_cast n).symm, fun i p hp => ?_⟩
    rw [hget i p hp, add_sub_cancel_left, add_sub_cancel_left, hmax]
    exact abs_of_nonneg (by omega)
  case neighbours =>
    intro i p q hp hq
    rw [hget i p hp, hget (i + 1) q hq, ← hunit]
    push_cast
    ring_nf
  case near =>
    intro p hp
    obtain ⟨i, _, rfl⟩ := mem_map.mp hp
    simp only [add_sub_cancel_left, hmax]
    ring_nf
    simp
  case last =>
    obtain ⟨n, rfl⟩ := Nat.exists_eq_add_one.mpr hn
    rw [range_succ, map_append, map_singleton, getLast?_concat]
    simp

theorem abs_mul_step (x y : Int) : |y - x| * step x y = y - x := by
  unfold step
  split_ifs with hlt
  · rw [abs_of_pos (by omega), mul_one]
  · rw [abs_of_nonpos (by omega)]
    ring

theorem abs_step (x y : Int) : |step x y| = 1 := by
  unfold step
  split_ifs <;> rfl

/-- A coordinate between those of `a` and `b`. -/
theorem between {x y k : Int} (hk : 0 ≤ k) (hle : k ≤ |y - x|) : x + k * step x y ∈ Set.uIcc x y := by
  rw [Set.mem_uIcc, step]
  obtain h | h := abs_cases (y - x) <;> split_ifs <;> omega

/-- The point is in the rectangle between `a` and `b`. -/
def Between (a b p : QPoint) : Prop := p.x ∈ Set.uIcc a.x b.x ∧ p.y ∈ Set.uIcc a.y b.y

theorem Between.contains (ha : image.Contains a) (hb : image.Contains b) {p : QPoint} (h : Between a b p) :
    image.Contains p := by
  rw [Between, Set.mem_uIcc, Set.mem_uIcc] at h
  rw [QImage.Contains] at ha hb ⊢
  omega

/-- The points of a line along the axis of `u`. -/
theorem flatMap_level {w : Int} {point : Int × Int → Int → QPoint} :
    ((passes |w - u| 0 (step u w) stepV |w - u|.toNat u v (-|w - u|)).flatMap fun p => brush 1 (point p)) =
      (range |w - u|.toNat).map fun i : Nat => point (u + (i + 1) * step u w, v) 0 := by
  rw [passes_level (by have := abs_nonneg (w - u); omega), flatMap_map, ← flatMap_pure_eq_map]
  exact flatMap_congr fun i hi => brush_one _

/-- A line along an axis goes from `a` in one direction. -/
theorem linePoints_axis (hne : a ≠ b) (h : a.x = b.x ∨ a.y = b.y) :
    ∃ (n : Nat) (dx dy : Int), 0 < n ∧ max |dx| |dy| = 1 ∧ (dx = 0 ∨ dy = 0) ∧
      b = ⟨a.x + n * dx, a.y + n * dy⟩ ∧
      linePoints a b 1 = (range n).map fun i : Nat => ⟨a.x + (i + 1) * dx, a.y + (i + 1) * dy⟩ := by
  obtain ⟨ax, ay⟩ := a
  obtain ⟨bx, bY⟩ := b
  unfold linePoints
  by_cases hx : ax = bx
  · subst hx
    have hpos : 0 < |bY - ay| := abs_pos.mpr (by grind)
    refine ⟨|bY - ay|.toNat, 0, step ay bY, by omega, (max_eq_right (by simp)).trans (abs_step ay bY),
      .inl rfl, ?_, ?_⟩
    · simp [Int.toNat_of_nonneg hpos.le, abs_mul_step]
    · simp only [sub_self, abs_zero, mul_zero, zero_sub]
      rw [if_neg hpos.le.not_gt, flatMap_level]
  · obtain rfl : ay = bY := h.resolve_left hx
    have hpos : 0 < |bx - ax| := abs_pos.mpr (by omega)
    refine ⟨|bx - ax|.toNat, step ax bx, 0, by omega, (max_eq_left (by simp)).trans (abs_step ax bx),
      .inr rfl, ?_, ?_⟩
    · simp [Int.toNat_of_nonneg hpos.le, abs_mul_step]
    · simp only [sub_self, abs_zero, mul_zero, zero_sub]
      rw [if_pos hpos, flatMap_level]

/-- The points of a line along an axis are those between `a` and `b` but `a`. -/
theorem mem_linePoints_iff (hne : a ≠ b) (h : a.x = b.x ∨ a.y = b.y) {p : QPoint} :
    p ∈ linePoints a b 1 ↔ p ≠ a ∧ Between a b p := by
  obtain ⟨n, dx, dy, hn, hunit, hzero, rfl, hpoints⟩ := linePoints_axis hne h
  obtain ⟨ax, ay⟩ := a
  obtain ⟨px, py⟩ := p
  have hdirection : dx = 0 ∧ (dy = 1 ∨ dy = -1) ∨ dy = 0 ∧ (dx = 1 ∨ dx = -1) := by grind
  rw [hpoints, mem_map, Between, Set.mem_uIcc, Set.mem_uIcc]
  simp only [mem_range, QPoint.mk.injEq, ne_eq]
  constructor
  · rintro ⟨i, hi, rfl, rfl⟩
    rcases hdirection with ⟨rfl, rfl | rfl⟩ | ⟨rfl, rfl | rfl⟩ <;> omega
  · intro hp
    rcases hdirection with ⟨rfl, rfl | rfl⟩ | ⟨rfl, rfl | rfl⟩
    · exact ⟨(py - ay).toNat - 1, by omega, by omega, by omega⟩
    · exact ⟨(ay - py).toNat - 1, by omega, by omega, by omega⟩
    · exact ⟨(px - ax).toNat - 1, by omega, by omega, by omega⟩
    · exact ⟨(ax - px).toNat - 1, by omega, by omega, by omega⟩

/-! ### Other lines -/

/-- The shorter axis is left alone for one pass too long. -/
theorem passes_far (hdv : 0 < dv) (hle : dv ≤ du) : ∃ n : Nat, n + 1 ≤ du ∧ du < 2 * dv * (n + 1) ∧
    (u + (n + 1) * stepU, v) ∈ passes du dv stepU stepV du.toNat u v (-2 * dv - du) := by
  have hdiv := Int.mul_ediv_add_emod du (2 * dv)
  have hmod := Int.emod_lt_of_pos du (show 0 < 2 * dv by omega)
  have hmod0 := Int.emod_nonneg du (show 2 * dv ≠ 0 by omega)
  have hq : 0 ≤ du / (2 * dv) := Int.ediv_nonneg (by omega) (by omega)
  obtain ⟨n, hn⟩ := Int.eq_ofNat_of_zero_le hq
  rw [hn] at hdiv
  have hlt : n + 1 ≤ du := by nlinarith
  refine ⟨n, hlt, by linarith, mem_of_getElem? (passes_straight hdv.le (by omega) (by linarith))⟩

theorem not_drawnRight (ha : image.Contains a) (hb : image.Contains b) (hx : a.x ≠ b.x) (hy : a.y ≠ b.y) :
    ¬DrawnRight a b ((linePoints a b 1).filter (image.Contains ·)) := by
  intro h
  have hnear : ∀ p ∈ linePoints a b 1, Between a b p →
      2 * |(p.x - a.x) * (b.y - a.y) - (p.y - a.y) * (b.x - a.x)| ≤ max |b.x - a.x| |b.y - a.y| :=
    fun p hp hbetween => h.near p (mem_filter.mpr ⟨hp, by simpa using hbetween.contains ha hb⟩)
  have hdx : 0 < |b.x - a.x| := abs_pos.mpr (by omega)
  have hdy : 0 < |b.y - a.y| := abs_pos.mpr (by omega)
  rw [linePoints] at hnear
  by_cases hlt : |b.y - a.y| < |b.x - a.x|
  · obtain ⟨n, hn, hfar, hmem⟩ := @passes_far _ _ (step a.x b.x) (step a.y b.y) a.x a.y hdy hlt.le
    rw [if_pos hlt] at hnear
    have hfail := hnear ⟨a.x + (n + 1) * step a.x b.x, a.y⟩ (mem_flatMap.mpr ⟨_, hmem, by simp [brush_one]⟩)
      ⟨between (by omega) hn, Set.left_mem_uIcc⟩
    simp only [add_sub_cancel_left, sub_self, zero_mul, sub_zero, abs_mul, abs_step,
      max_eq_left hlt.le] at hfail
    rw [abs_of_nonneg (by omega)] at hfail
    linarith
  · obtain ⟨n, hn, hfar, hmem⟩ := @passes_far _ _ (step a.y b.y) (step a.x b.x) a.y a.x hdx (not_lt.mp hlt)
    rw [if_neg hlt] at hnear
    have hfail := hnear ⟨a.x, a.y + (n + 1) * step a.y b.y⟩ (mem_flatMap.mpr ⟨_, hmem, by simp [brush_one]⟩)
      ⟨Set.left_mem_uIcc, between (by omega) hn⟩
    simp only [add_sub_cancel_left, sub_self, zero_mul, zero_sub, abs_neg, abs_mul, abs_step,
      max_eq_right (not_lt.mp hlt)] at hfail
    rw [abs_of_nonneg (by omega)] at hfail
    linarith

/-- `Draw` gets to its end and paints the line right iff the line runs along an axis and the offsets
    of its points behind `a` are `int`. -/
theorem drawnRight_iff {a b : QPoint} (ha : image.Contains a) (hb : image.Contains b) (hne : a ≠ b) :
    (∃ pixels, draw image a b 1 = .done pixels ∧ DrawnRight a b pixels) ↔
      (a.x = b.x ∨ a.y = b.y) ∧ ∀ p ≠ a, Between a b p → image.Fits p := by
  simp only [draw, setcolors_eq_done_iff]
  by_cases haxis : a.x = b.x ∨ a.y = b.y
  · have hall : ∀ p ∈ linePoints a b 1, image.Contains p :=
      fun p hp => ((mem_linePoints_iff hne haxis).mp hp).2.contains ha hb
    constructor
    · rintro ⟨-, ⟨hfits, -⟩, -⟩
      refine ⟨haxis, fun p hpa hp => ?_⟩
      exact hfits p ((mem_linePoints_iff hne haxis).mpr ⟨hpa, hp⟩) (hp.contains ha hb)
    · rintro ⟨-, hfits⟩
      refine ⟨_, ⟨fun p hp _ => ?_, rfl⟩, ?_⟩
      · obtain ⟨hpa, hbetween⟩ := (mem_linePoints_iff hne haxis).mp hp
        exact hfits p hpa hbetween
      · rw [filter_eq_self.mpr fun p hp => by simpa using hall p hp]
        obtain ⟨n, dx, dy, hn, hunit, -, rfl, hpoints⟩ := linePoints_axis hne haxis
        rw [hpoints]
        exact drawnRight_direction hunit hn
  · refine iff_of_false ?_ fun h => haxis h.1
    rintro ⟨-, ⟨-, rfl⟩, hright⟩
    rw [not_or] at haxis
    exact not_drawnRight ha hb haxis.1 haxis.2 hright

theorem drawnRight_iff_level :
    ∃ pixels, draw ⟨3, 1, fun _ => 0⟩ ⟨0, 0⟩ ⟨2, 0⟩ 1 = .done pixels ∧ DrawnRight ⟨0, 0⟩ ⟨2, 0⟩ pixels := by
  refine (drawnRight_iff (by decide) (by decide) (by decide)).mpr ⟨by decide, fun p _ hp => ?_⟩
  have hlt := @QImage.offset_lt ⟨3, 1, fun _ => 0⟩ p (hp.contains (by decide) (by decide))
  exact hlt.trans (by decide)

/-- The line to (1, 1) ends in (0, 1). -/
theorem draw_diagonal :
    ¬∃ pixels, draw ⟨2, 2, fun _ => 0⟩ ⟨0, 0⟩ ⟨1, 1⟩ 1 = .done pixels ∧ DrawnRight ⟨0, 0⟩ ⟨1, 1⟩ pixels := by
  rintro ⟨pixels, hdraw, hright⟩
  have hpainted : draw ⟨2, 2, fun _ => 0⟩ ⟨0, 0⟩ ⟨1, 1⟩ 1 = .done [⟨0, 1⟩] := by decide
  cases hdraw.symm.trans hpainted
  exact absurd hright.last (by decide)

end NsuLabs.ICGPaint
