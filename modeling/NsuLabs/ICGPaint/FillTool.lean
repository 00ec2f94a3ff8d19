/-
Module: NsuLabs.ICGPaint.FillTool
Purpose: `FillTool::doSpanFilling` in `Graphics/1-ICGPaint/src/tool/FillTool.cpp`. The pixels of an image are
  one array, row after row. Offsets are computed as 32-bit `int`: one that does not fit, and an access
  outside of the array, are faults. All loops share the fuel.
Trusted boundary: Width and height are `int`, so coordinates up to them do not overflow.
  The stack grows as needed. Repainting the canvas is left out
Main exports: QImage, doSpanFilling_fills_iff
-/
import NsuLabs.Lib.Runs
import NsuLabs.Lib.Graphs

namespace NsuLabs.ICGPaint

open Lib

abbrev QRgb := UInt32

/-- The place of a pixel. -/
structure QPoint where
  x : Int
  y : Int
deriving DecidableEq

inductive Fault where
  | signedOverflow
  | outOfBounds
deriving DecidableEq

/-- The result of an `int` operation. -/
def toInt (value : Int) : Outcome Fault Int :=
  if -2 ^ 31 ≤ value ∧ value < 2 ^ 31 then .done value else .panic .signedOverflow

/-! ### Images -/

/-- An image over its pixel data. -/
structure QImage where
  width : Nat
  height : Nat
  /-- What `bits` points to. -/
  pixelData : Nat → QRgb

namespace QImage

/-- `rect().contains(x, y)`. -/
def Contains (image : QImage) (p : QPoint) : Prop :=
  0 ≤ p.x ∧ p.x < image.width ∧ 0 ≤ p.y ∧ p.y < image.height

instance (image : QImage) (p : QPoint) : Decidable (image.Contains p) :=
  inferInstanceAs (Decidable (_ ∧ _))

/-- The offset `y * image.width() + x`, which an access to the array follows. -/
def offset (image : QImage) (p : QPoint) : Outcome Fault Nat := do
  let row ← toInt (p.y * image.width)
  let i ← toInt (row + p.x)
  if 0 ≤ i ∧ i < image.width * image.height then .done i.toNat else .panic .outOfBounds

def read (image : QImage) (p : QPoint) : Outcome Fault QRgb := do
  let i ← image.offset p
  .done (image.pixelData i)

def write (image : QImage) (p : QPoint) (color : QRgb) : Outcome Fault QImage := do
  let i ← image.offset p
  .done { image with pixelData := fun j => if j = i then color else image.pixelData j }

end QImage

/-! ### Span filling -/

/-- The lambda `inside`. -/
def inside (image : QImage) (areaColor : QRgb) (p : QPoint) : Outcome Fault Bool :=
  if image.Contains p then do
    let pixel ← image.read p
    .done (pixel == areaColor)
  else .done false

/-- The loop of the lambda `scan`, over the next `count` points of the row. -/
def scanFrom (image : QImage) (areaColor : QRgb) (y : Int) :
    (count : Nat) → (x : Int) → (spanAdded : Bool) → List QPoint → Outcome Fault (List QPoint)
  | 0, _, _, stack => .done stack
  | count + 1, x, spanAdded, stack => do
      if !(← inside image areaColor ⟨x, y⟩) then scanFrom image areaColor y count (x + 1) false stack
      else if !spanAdded then scanFrom image areaColor y count (x + 1) true (⟨x, y⟩ :: stack)
      else scanFrom image areaColor y count (x + 1) spanAdded stack

/-- The lambda `scan`. -/
def scan (image : QImage) (areaColor : QRgb) (lx rx y : Int) (stack : List QPoint) :
    Outcome Fault (List QPoint) :=
  scanFrom image areaColor y (rx - lx).toNat lx false stack

/-- Fills the points of a row from `x` on, in steps of `dx`, and yields the first point that is not
    inside. -/
def fillRun (areaColor color : QRgb) (dx y : Int) : (fuel : Nat) → QImage → (x : Int) →
    Outcome Fault (QImage × Int)
  | 0, _, _ => .outOfFuel
  | fuel + 1, image, x => do
      if ← inside image areaColor ⟨x, y⟩ then
        let image ← image.write ⟨x, y⟩ color
        fillRun areaColor color dx y fuel image (x + dx)
      else .done (image, x)

/-- The body of the main loop, for the point that was taken from the stack. -/
def fillSpan (fuel : Nat) (areaColor color : QRgb) (image : QImage) (seed : QPoint) (stack : List QPoint) :
    Outcome Fault (QImage × List QPoint) := do
  -- `lx` is the point behind the one that is looked at
  let (image, left) ← fillRun areaColor color (-1) seed.y fuel image (seed.x - 1)
  let lx := left + 1
  let (image, rx) ← fillRun areaColor color 1 seed.y fuel image seed.x
  let stack ← scan image areaColor lx rx (seed.y + 1) stack
  let stack ← scan image areaColor lx rx (seed.y - 1) stack
  .done (image, stack)

/-- The main loop. -/
def fillLoop (areaColor color : QRgb) : (fuel : Nat) → QImage → List QPoint → Outcome Fault QImage
  | 0, _, _ => .outOfFuel
  | _ + 1, image, [] => .done image
  | fuel + 1, image, seed :: stack => do
      let (image, stack) ← fillSpan fuel areaColor color image seed stack
      fillLoop areaColor color fuel image stack

/-- `doSpanFilling`. The colour of the options is compared, the parameter is what the area is filled
    with; the one call in `mousePressEvent` passes the colour of the options. -/
def doSpanFilling (fuel : Nat) (optionsColor : QRgb) (image : QImage) (seed : QPoint) (color : QRgb) :
    Outcome Fault QImage := do
  let areaColor ← image.read seed
  if areaColor = optionsColor then .done image else fillLoop areaColor color fuel image [seed]

open List

/-! ### What filling is for -/

/-- The points share a side. -/
def Beside (p q : QPoint) : Prop :=
  (p.y = q.y ∧ (q.x = p.x + 1 ∨ q.x = p.x - 1)) ∨ (p.x = q.x ∧ (q.y = p.y + 1 ∨ q.y = p.y - 1))

theorem Beside.symm {p q : QPoint} (h : Beside p q) : Beside q p := by
  rw [Beside] at h ⊢
  omega

namespace QImage

def pixel (image : QImage) (p : QPoint) : QRgb := image.pixelData (p.y * image.width + p.x).toNat

/-- The points of the image with this colour. -/
def area (image : QImage) (areaColor : QRgb) : Set QPoint :=
  {p | image.Contains p ∧ image.pixel p = areaColor}

/-- The offset of the point is an `int`. -/
def Fits (image : QImage) (p : QPoint) : Prop := p.y * image.width + p.x < 2 ^ 31

end QImage

/-- The region of the seed. -/
def region (image : QImage) (seed : QPoint) : Set QPoint :=
  {p | Linked Beside (image.area (image.pixel seed)) seed p}

/-- The region of the seed has the colour, all other points are as they were. -/
structure Recoloured (image image' : QImage) (seed : QPoint) (color : QRgb) : Prop where
  width : image'.width = image.width
  height : image'.height = image.height
  painted : ∀ p ∈ region image seed, image'.pixel p = color
  kept : ∀ p ∉ region image seed, image.Contains p → image'.pixel p = image.pixel p
  same : image.pixel seed = color → image' = image

/-- The fill returns, and does what it is for. -/
def FillsRegion (image : QImage) (seed : QPoint) (color : QRgb) : Prop :=
  ∃ bound, ∀ fuel ≥ bound, ∃ image', doSpanFilling fuel color image seed color = .done image' ∧
    Recoloured image image' seed color

/-- The offsets of the seed, and of the points that are filled and their neighbours, are `int`. -/
def OffsetsFit (image : QImage) (seed : QPoint) (color : QRgb) : Prop :=
  image.Fits seed ∧ (image.pixel seed ≠ color →
    ∀ p ∈ region image seed, ∀ q, q = p ∨ Beside p q → image.Contains q → image.Fits q)

/-! ### Accesses -/

variable {R : Prop}

section

variable {image original : QImage} {p q : QPoint} {color areaColor : QRgb} {F : Set QPoint}

theorem QImage.offset_nonneg (h : image.Contains p) :
    0 ≤ p.y * image.width ∧ p.y * image.width ≤ p.y * image.width + p.x := by
  have hrow : 0 ≤ p.y * (image.width : Int) := Int.mul_nonneg h.2.2.1 (Int.natCast_nonneg _)
  exact ⟨hrow, Int.le_add_of_nonneg_right h.1⟩

theorem QImage.offset_lt (h : image.Contains p) : p.y * image.width + p.x < image.width * image.height := by
  obtain ⟨-, hx, -, hy⟩ := h
  calc p.y * image.width + p.x < p.y * image.width + image.width := by omega
    _ = (p.y + 1) * image.width := by ring
    _ ≤ image.height * image.width := Int.mul_le_mul_of_nonneg_right (by omega) (Int.natCast_nonneg _)
    _ = image.width * image.height := mul_comm _ _

/-- Points of the image have offsets of their own. -/
theorem QImage.offset_injective (hp : image.Contains p) (hq : image.Contains q)
    (h : (p.y * image.width + p.x).toNat = (q.y * image.width + q.x).toNat) : p = q := by
  have hp0 := QImage.offset_nonneg hp
  have hq0 := QImage.offset_nonneg hq
  have heq : p.y * image.width + p.x = q.y * image.width + q.x := by omega
  have hdiv {r : QPoint} (hr : image.Contains r) : (r.y * image.width + r.x) / image.width = r.y := by
    have hwidth : (image.width : Int) ≠ 0 := by
      have := hr.1.trans_lt hr.2.1
      omega
    rw [add_comm, Int.add_mul_ediv_right _ _ hwidth, Int.ediv_eq_zero_of_lt hr.1 hr.2.1, zero_add]
  have hy : p.y = q.y := by rw [← hdiv hp, heq, hdiv hq]
  rw [hy] at heq
  cases p
  cases q
  simp_all

theorem QImage.offset_ends (h : image.Contains p) (hR : ¬image.Fits p → R) :
    (image.offset p).Ends (fun i => i = (p.y * image.width + p.x).toNat ∧ image.Fits p) R := by
  have hnonneg := QImage.offset_nonneg h
  have hlt := QImage.offset_lt h
  by_cases hfits : image.Fits p
  · rw [QImage.offset, toInt, if_pos (by rw [QImage.Fits] at hfits; omega), Outcome.done_bind, toInt,
      if_pos ⟨by omega, hfits⟩, Outcome.done_bind, if_pos (by omega)]
    exact ⟨rfl, hfits⟩
  · rw [QImage.offset, toInt]
    split
    · rw [Outcome.done_bind, toInt, if_neg fun hin => hfits hin.2]
      exact hR hfits
    · exact hR hfits

theorem QImage.read_ends (h : image.Contains p) (hR : ¬image.Fits p → R) :
    (image.read p).Ends (fun pixel => pixel = image.pixel p ∧ image.Fits p) R :=
  (QImage.offset_ends h hR).bind fun _ hi => ⟨hi.1 ▸ rfl, hi.2⟩

/-- The image is the original with the points of `F` painted. -/
structure Painted (original image : QImage) (color : QRgb) (F : Set QPoint) : Prop where
  width : image.width = original.width
  height : image.height = original.height
  painted : ∀ p ∈ F, original.Contains p → image.pixel p = color
  kept : ∀ p ∉ F, original.Contains p → image.pixel p = original.pixel p

theorem Painted.refl (image : QImage) (color : QRgb) : Painted image image color ∅ where
  width := rfl
  height := rfl
  painted := fun _ hp => absurd hp (Set.notMem_empty _)
  kept := fun _ _ _ => rfl

namespace Painted

variable (h : Painted original image color F)
include h

theorem contains_iff : image.Contains p ↔ original.Contains p := by
  rw [QImage.Contains, QImage.Contains, h.width, h.height]

theorem fits_iff : image.Fits p ↔ original.Fits p := by
  rw [QImage.Fits, QImage.Fits, h.width]

/-- The points that have the old colour still are those that are not painted. -/
theorem mem_area_iff (hne : areaColor ≠ color) : p ∈ image.area areaColor ↔
    p ∈ original.area areaColor \ F := by
  change image.Contains p ∧ image.pixel p = areaColor ↔
    (original.Contains p ∧ original.pixel p = areaColor) ∧ p ∉ F
  rw [h.contains_iff, and_assoc]
  apply and_congr_right
  intro hp
  by_cases hF : p ∈ F
  · rw [h.painted p hF hp]
    exact ⟨fun heq => absurd heq.symm hne, fun hboth => absurd hF hboth.2⟩
  · rw [h.kept p hF hp]
    exact (and_iff_left hF).symm

theorem write_ends (hp : original.Contains p) (hR : ¬original.Fits p → R) :
    (image.write p color).Ends (fun image' => Painted original image' color (insert p F)) R := by
  have hpi := h.contains_iff.mpr hp
  refine (QImage.offset_ends hpi (hR ∘ mt h.fits_iff.mpr)).bind ?_
  rintro _ ⟨rfl, -⟩
  have hpixel (q : QPoint) (hq : original.Contains q) :
      QImage.pixel ⟨image.width, image.height, fun j => if j = (p.y * image.width + p.x).toNat then color
        else image.pixelData j⟩ q = if q = p then color else image.pixel q := by
    rw [QImage.pixel]
    by_cases hqp : q = p
    · rw [if_pos hqp, hqp]
      exact if_pos rfl
    · rw [if_neg hqp]
      exact if_neg fun hoffset => hqp (QImage.offset_injective (h.contains_iff.mpr hq) hpi hoffset)
  constructor
  case width => exact h.width
  case height => exact h.height
  case painted =>
    intro q hq hcontains
    rw [hpixel q hcontains]
    split
    case isTrue => rfl
    case isFalse hqp => exact h.painted q (Set.mem_of_mem_insert_of_ne hq hqp) hcontains
  case kept =>
    intro q hq hcontains
    have hqp : q ≠ p := fun heq => hq (heq ▸ Set.mem_insert p F)
    rw [hpixel q hcontains, if_neg hqp]
    exact h.kept q (fun hmem => hq (Set.mem_insert_of_mem p hmem)) hcontains

/-- What `inside` says, and what it has computed. -/
theorem inside_ends (hne : areaColor ≠ color) (hR : original.Contains p → ¬original.Fits p → R) :
    (inside image areaColor p).Ends
      (fun answer => (answer = true ↔ p ∈ original.area areaColor \ F) ∧
        (original.Contains p → original.Fits p)) R := by
  simp only [← h.mem_area_iff hne, ← h.contains_iff, ← h.fits_iff] at hR ⊢
  rw [inside]
  split
  case isTrue hp =>
    refine (QImage.read_ends hp (hR hp)).bind ?_
    rintro _ ⟨rfl, hfits⟩
    exact ⟨beq_iff_eq.trans (and_iff_right hp).symm, fun _ => hfits⟩
  case isFalse hp => exact ⟨iff_of_false Bool.false_ne_true fun hmem => hp hmem.1, fun hcontains =>
      absurd hcontains hp⟩

end Painted

end

/-! ### Rows -/

/-- The points of a row from `lx` up to `rx`. -/
def span (lx rx y : Int) : Set QPoint := {p | p.y = y ∧ lx ≤ p.x ∧ p.x < rx}

theorem span_ncard (lx rx y : Int) : (span lx rx y).Finite ∧ (span lx rx y).ncard = (rx - lx).toNat := by
  have himage : span lx rx y = (fun x => (⟨x, y⟩ : QPoint)) '' Set.Ico lx rx := by
    ext p
    constructor
    · rintro ⟨rfl, hx⟩
      exact ⟨p.x, hx, rfl⟩
    · rintro ⟨x, hx, rfl⟩
      exact ⟨rfl, hx⟩
  have hinjective : Function.Injective fun x => (⟨x, y⟩ : QPoint) := fun _ _ heq => congrArg QPoint.x heq
  rw [himage, Set.ncard_image_of_injective _ hinjective, Set.ncard_eq_toFinset_card' (Set.Ico lx rx),
    Set.toFinset_Ico, Int.card_Ico]
  exact ⟨(Set.finite_Ico lx rx).image _, rfl⟩

/-- Points of a row are joined if all points between them belong to the set. -/
theorem linked_row {U : Set QPoint} {y x : Int} (n : Nat) (h : ∀ z, x ≤ z → z ≤ x + n → ⟨z, y⟩ ∈ U) :
    Linked Beside U ⟨x, y⟩ ⟨x + n, y⟩ := by
  induction n with
  | zero =>
    rw [Int.natCast_zero, add_zero]
    exact .refl (h x le_rfl (by simp))
  | succ n ih =>
    apply (ih fun z hz hle => h z hz (by omega)).step
    · exact .inl ⟨rfl, .inl (by push_cast; ring)⟩
    · exact h _ (by omega) le_rfl

section

variable {original image image' : QImage} {color areaColor : QRgb} {F : Set QPoint} {y : Int}

/-! ### Filling a run -/

/-- The points that a run of the length `k` fills. -/
def runFrom (x dx y : Int) (k : Nat) : Set QPoint := {p | ∃ i < k, p = ⟨x + dx * i, y⟩}

theorem runFrom_zero (x dx y : Int) : runFrom x dx y 0 = ∅ :=
  Set.eq_empty_of_forall_notMem fun _ ⟨_, hi, _⟩ => Nat.not_lt_zero _ hi

theorem runFrom_succ (x dx y : Int) (k : Nat) :
    runFrom x dx y (k + 1) = insert ⟨x, y⟩ (runFrom (x + dx) dx y k) := by
  have hnext (i : Nat) : x + dx + dx * i = x + dx * ((i + 1 : Nat) : Int) := by
    push_cast
    ring
  ext p
  constructor
  · rintro ⟨i, hi, rfl⟩
    cases i with
    | zero => exact .inl (by simp)
    | succ i => exact .inr ⟨i, Nat.lt_of_succ_lt_succ hi, by rw [hnext]⟩
  · rintro (rfl | ⟨i, hi, rfl⟩)
    · exact ⟨0, Nat.succ_pos k, by simp⟩
    · exact ⟨i + 1, Nat.succ_lt_succ hi, by rw [hnext]⟩

variable {fuel : Nat}

/-- A run fills points of the area up to the first one that is not in it, and has looked at that one
    too. It needs fuel until the end of the row, and the offsets of these points. -/
theorem fillRun_ends (hne : areaColor ≠ color) {dx : Int} {x : Int} (h : Painted original image color F)
    (hfuel : 0 < fuel ∧ ∀ i : Nat, original.Contains ⟨x + dx * i, y⟩ → i + 1 < fuel)
    (hR : ∀ k : Nat, runFrom x dx y k ⊆ original.area areaColor →
      original.Contains ⟨x + dx * k, y⟩ → ¬original.Fits ⟨x + dx * k, y⟩ → R) :
    (fillRun areaColor color dx y fuel image x).Ends (fun r => ∃ k : Nat, r.2 = x + dx * k ∧
      runFrom x dx y k ⊆ original.area areaColor \ F ∧ Painted original r.1 color (F ∪ runFrom x dx y k) ∧
      ⟨r.2, y⟩ ∉ original.area areaColor \ (F ∪ runFrom x dx y k) ∧
      ∀ p ∈ runFrom x dx y (k + 1), original.Contains p → original.Fits p) R := by
  induction fuel generalizing image F x with
  | zero => exact absurd hfuel.1 (lt_irrefl 0)
  | succ fuel ih =>
    have hx : x + dx * ((0 : Nat) : Int) = x := by simp
    have hfirst := hR 0 (by rw [runFrom_zero]; exact Set.empty_subset _)
    rw [hx] at hfirst
    refine (h.inside_ends hne hfirst).bind fun answer hanswer => ?_
    cases answer with
    | false =>
      refine ⟨0, hx.symm, ?_⟩
      rw [runFrom_succ, runFrom_zero, runFrom_zero, Set.union_empty]
      refine ⟨Set.empty_subset _, h, fun hmem => Bool.false_ne_true (hanswer.1.mpr hmem), ?_⟩
      rintro p (rfl | hp)
      · exact hanswer.2
      · cases hp
    | true =>
      have hmem := hanswer.1.mp rfl
      have hnext (i : Nat) : x + dx + dx * i = x + dx * ((i + 1 : Nat) : Int) := by
        push_cast
        ring
      refine (h.write_ends hmem.1.1 fun hfits => absurd (hanswer.2 hmem.1.1) hfits).bind fun image₁ h₁ => ?_
      refine (ih h₁ ⟨?_, fun i hi => ?_⟩ fun k hsub => ?_).imp ?_
      · have := hfuel.2 0 (by rw [hx]; exact hmem.1.1)
        omega
      · rw [hnext] at hi
        have := hfuel.2 (i + 1) hi
        omega
      · rw [hnext]
        apply hR
        rw [runFrom_succ]
        exact Set.insert_subset hmem.1 hsub
      · rintro ⟨image', x'⟩ ⟨k, rfl, hsub, hpainted, hend, hfits⟩
        refine ⟨k + 1, hnext k, ?_⟩
        rw [runFrom_succ x dx y k, Set.union_insert, ← Set.insert_union]
        refine ⟨?_, hpainted, hend, ?_⟩
        · rintro p (rfl | hp)
          · exact hmem
          · exact ⟨(hsub hp).1, fun hF => (hsub hp).2 (Set.mem_insert_of_mem _ hF)⟩
        · rw [runFrom_succ]
          rintro p (rfl | hp)
          · exact hanswer.2
          · exact hfits p hp

/-! ### Scanning a row -/

/-- What a scan over a row leaves on the stack. Before it has pushed a point, the points up to one
    that it does not push may continue a run that was pushed before. -/
structure Scanned (original : QImage) (U : Set QPoint) (lx rx y : Int) (spanAdded : Bool)
    (stack stack' : List QPoint) : Prop where
  kept : ∀ s ∈ stack, s ∈ stack'
  pushed : ∀ s ∈ stack', s ∈ stack ∨ (s ∈ span lx rx y ∧ s ∈ U)
  length : stack'.length ≤ stack.length + (rx - lx).toNat
  linked : ∀ v ∈ span lx rx y, v ∈ U →
    (∃ s ∈ stack', Linked Beside U s v) ∨ (spanAdded = true ∧ ∀ z, lx ≤ z → z ≤ v.x → ⟨z, y⟩ ∈ U)
  fits : ∀ v ∈ span lx rx y, original.Contains v → original.Fits v

theorem mem_span_succ {lx rx : Int} {v : QPoint} (hv : v ∈ span lx rx y) :
    v = ⟨lx, y⟩ ∨ v ∈ span (lx + 1) rx y := by
  obtain ⟨rfl, hle, hlt⟩ := hv
  by_cases heq : v.x = lx
  · exact .inl (by rw [← heq])
  · exact .inr ⟨rfl, by omega, hlt⟩

theorem span_succ_subset {lx rx : Int} : span (lx + 1) rx y ⊆ span lx rx y :=
  fun _ hv => ⟨hv.1, by have := hv.2.1; omega, hv.2.2⟩

section

variable {U : Set QPoint} {lx rx : Int} {stack stack' : List QPoint} {spanAdded : Bool}

theorem Scanned.outside (h : Scanned original U (lx + 1) rx y false stack stack') (hx : ⟨lx, y⟩ ∉ U)
    (hfits : original.Contains ⟨lx, y⟩ → original.Fits ⟨lx, y⟩) :
    Scanned original U lx rx y spanAdded stack stack' where
  kept := h.kept
  pushed := fun s hs => (h.pushed s hs).imp_right fun hnew => ⟨span_succ_subset hnew.1, hnew.2⟩
  length := h.length.trans (by omega)
  linked := by
    intro v hv hU
    rcases mem_span_succ hv with rfl | hv
    · exact absurd hU hx
    · rcases h.linked v hv hU with hlinked | ⟨hadded, -⟩
      · exact .inl hlinked
      · cases hadded
  fits := by
    intro v hv
    rcases mem_span_succ hv with rfl | hv
    · exact hfits
    · exact h.fits v hv

theorem Scanned.push (h : Scanned original U (lx + 1) rx y true (⟨lx, y⟩ :: stack) stack') (hlt : lx < rx)
    (hx : ⟨lx, y⟩ ∈ U) (hfits : original.Contains ⟨lx, y⟩ → original.Fits ⟨lx, y⟩) :
    Scanned original U lx rx y spanAdded stack stack' where
  kept := fun s hs => h.kept s (mem_cons_of_mem _ hs)
  pushed := by
    intro s hs
    rcases h.pushed s hs with hold | hnew
    · rcases mem_cons.mp hold with rfl | hold
      · exact .inr ⟨⟨rfl, le_rfl, hlt⟩, hx⟩
      · exact .inl hold
    · exact .inr ⟨span_succ_subset hnew.1, hnew.2⟩
  length := by
    have hlength := h.length
    rw [length_cons] at hlength
    omega
  linked := by
    have hpushed : ⟨lx, y⟩ ∈ stack' := h.kept _ mem_cons_self
    intro v hv hU
    rcases mem_span_succ hv with rfl | hv
    · exact .inl ⟨_, hpushed, .refl hx⟩
    · rcases h.linked v hv hU with hlinked | ⟨-, hrow⟩
      · exact .inl hlinked
      · -- the run of the point that was pushed reaches this one
        obtain ⟨n, hn⟩ := Int.le.dest (hv.2.1.trans' (Int.le_add_of_nonneg_right Int.one_nonneg))
        have hlinked := linked_row (U := U) (y := y) (x := lx) n fun z hle hz => by
          by_cases heq : z = lx
          · exact heq ▸ hx
          · exact hrow z (by omega) (by omega)
        rw [hn, ← hv.1] at hlinked
        exact .inl ⟨_, hpushed, hv.1 ▸ hlinked⟩
  fits := by
    intro v hv
    rcases mem_span_succ hv with rfl | hv
    · exact hfits
    · exact h.fits v hv

theorem Scanned.continue (h : Scanned original U (lx + 1) rx y true stack stack') (hx : ⟨lx, y⟩ ∈ U)
    (hfits : original.Contains ⟨lx, y⟩ → original.Fits ⟨lx, y⟩) :
      Scanned original U lx rx y true stack stack' where
  kept := h.kept
  pushed := fun s hs => (h.pushed s hs).imp_right fun hnew => ⟨span_succ_subset hnew.1, hnew.2⟩
  length := h.length.trans (by omega)
  linked := by
    have hrow {v : QPoint} (hrest : ∀ z, lx + 1 ≤ z → z ≤ v.x → ⟨z, y⟩ ∈ U) (z : Int) (hle : lx ≤ z)
        (hz : z ≤ v.x) : ⟨z, y⟩ ∈ U := by
      by_cases heq : z = lx
      · exact heq ▸ hx
      · exact hrest z (by omega) hz
    intro v hv hU
    rcases mem_span_succ hv with rfl | hv
    · exact .inr ⟨rfl, hrow fun z hle hz => absurd (hle.trans hz) (by simp)⟩
    · exact (h.linked v hv hU).imp_right fun hrest => ⟨rfl, hrow hrest.2⟩
  fits := by
    intro v hv
    rcases mem_span_succ hv with rfl | hv
    · exact hfits
    · exact h.fits v hv

theorem scanFrom_ends (hne : areaColor ≠ color) (h : Painted original image color F) {count : Nat} {x : Int}
    (hR : ∀ v ∈ span x (x + count) y, original.Contains v → ¬original.Fits v → R) :
    (scanFrom image areaColor y count x spanAdded stack).Ends
      (Scanned original (original.area areaColor \ F) x (x + count) y spanAdded stack) R := by
  induction count generalizing x spanAdded stack with
  | zero =>
    have hempty (v : QPoint) : v ∉ span x (x + (0 : Nat)) y := fun hv => by
      have := hv.2
      omega
    exact ⟨fun _ hs => hs, fun _ hs => .inl hs, Nat.le_add_right _ _, fun v hv => absurd hv (hempty v),
      fun v hv => absurd hv (hempty v)⟩
  | succ count ih =>
    have hend : x + ((count + 1 : Nat) : Int) = x + 1 + count := by
      push_cast
      ring
    rw [hend] at hR ⊢
    refine (h.inside_ends hne (hR _ ⟨rfl, le_rfl, by simp only; omega⟩)).bind fun answer ⟨hmem, hfits⟩ => ?_
    have ih {stack : List QPoint} {spanAdded : Bool} := @ih stack spanAdded (x + 1) fun v hv =>
      hR v (span_succ_subset hv)
    cases answer with
    | false => exact ih.imp fun _ hrest => hrest.outside (fun hx => Bool.false_ne_true (hmem.mpr hx)) hfits
    | true =>
      cases spanAdded with
      | false => exact ih.imp fun _ hrest => hrest.push (by omega) (hmem.mp rfl) hfits
      | true => exact ih.imp fun _ hrest => hrest.continue (hmem.mp rfl) hfits

end

/-! ### Filling a span -/

theorem runFrom_left (x y : Int) (k : Nat) : runFrom (x - 1) (-1) y k = span (x - k) x y := by
  ext p
  constructor
  · rintro ⟨i, hi, rfl⟩
    exact ⟨rfl, by simp only; omega, by simp only; omega⟩
  · rintro ⟨rfl, hle, hlt⟩
    refine ⟨(x - 1 - p.x).toNat, by omega, ?_⟩
    rw [Int.toNat_of_nonneg (by omega)]
    cases p
    simp only [QPoint.mk.injEq, and_true]
    omega

theorem runFrom_right (x y : Int) (k : Nat) : runFrom x 1 y k = span x (x + k) y := by
  ext p
  constructor
  · rintro ⟨i, hi, rfl⟩
    exact ⟨rfl, by simp only; omega, by simp only; omega⟩
  · rintro ⟨rfl, hle, hlt⟩
    refine ⟨(p.x - x).toNat, by omega, ?_⟩
    rw [Int.toNat_of_nonneg (by omega)]
    cases p
    simp only [QPoint.mk.injEq, and_true]
    omega

theorem span_union {lx x rx : Int} (hleft : lx ≤ x) (hright : x ≤ rx) :
    span lx x y ∪ span x rx y = span lx rx y := by
  ext p
  constructor
  · rintro (⟨hy, hle, hlt⟩ | ⟨hy, hle, hlt⟩)
    · exact ⟨hy, hle, by omega⟩
    · exact ⟨hy, by omega, hlt⟩
  · rintro ⟨hy, hle, hlt⟩
    by_cases hx : p.x < x
    · exact .inl ⟨hy, hle, hx⟩
    · exact .inr ⟨hy, by omega, hlt⟩

/-- What the body of the main loop does: it fills the run around the point, from `lx` up to `rx`,
    and scans the rows above and below. -/
structure FilledSpan (original image : QImage) (areaColor color : QRgb) (F : Set QPoint) (p : QPoint)
    (stack stack' : List QPoint) (lx rx : Int) : Prop where
  left : lx ≤ p.x
  right : p.x ≤ rx
  filled : span lx rx p.y ⊆ original.area areaColor \ F
  painted : Painted original image color (F ∪ span lx rx p.y)
  before : ⟨lx - 1, p.y⟩ ∉ original.area areaColor \ (F ∪ span lx rx p.y)
  behind : ⟨rx, p.y⟩ ∉ original.area areaColor \ (F ∪ span lx rx p.y)
  row : ∀ z, lx - 1 ≤ z → z ≤ rx → original.Contains ⟨z, p.y⟩ → original.Fits ⟨z, p.y⟩
  scans : ∃ stack₁,
    Scanned original (original.area areaColor \ (F ∪ span lx rx p.y)) lx rx (p.y + 1) false stack stack₁ ∧
    Scanned original (original.area areaColor \ (F ∪ span lx rx p.y)) lx rx (p.y - 1) false stack₁ stack'

/-! ### The main loop -/

variable {seed p : QPoint} {stack stack' : List QPoint}

theorem mem_area_of_mem_region (hp : p ∈ region original seed) : p ∈ original.area (original.pixel seed) :=
  Linked.mem_right hp

/-- A run of the area through a point of the region belongs to the region. -/
theorem span_subset_region {lx rx : Int} (hp : p ∈ region original seed)
    (hsub : span lx rx p.y ⊆ original.area (original.pixel seed)) (hleft : lx ≤ p.x) (hright : p.x ≤ rx) :
    span lx rx p.y ⊆ region original seed := by
  have harea : ∀ z, lx ≤ z → z < rx ∨ z = p.x → ⟨z, p.y⟩ ∈ original.area (original.pixel seed) := by
    rintro z hle (hlt | rfl)
    · exact hsub ⟨rfl, hle, hlt⟩
    · exact mem_area_of_mem_region hp
  rintro ⟨x, y⟩ ⟨rfl, hle, hlt⟩
  change lx ≤ x at hle
  change x < rx at hlt
  apply Linked.trans hp
  rcases Int.le_total x p.x with hx | hx
  · obtain ⟨n, hn⟩ := Int.le.dest hx
    have hrow := linked_row n fun z hz hzn => harea z (hle.trans hz) (by omega)
    rw [hn] at hrow
    exact hrow.symm fun _ _ => Beside.symm
  · obtain ⟨n, rfl⟩ := Int.le.dest hx
    exact linked_row n fun z hz hzn => harea z (hleft.trans hz) (.inl (by omega))

/-- The state of a fill of the region, with the points that are filled so far. -/
structure Filling (original : QImage) (seed : QPoint) (color : QRgb) (F : Set QPoint) (image : QImage)
    (stack : List QPoint) : Prop where
  painted : Painted original image color F
  sound : F ⊆ region original seed
  waiting : ∀ s ∈ stack, s ∈ region original seed
  pending : Pending Beside (region original seed) (original.area (original.pixel seed) \ F) stack
  looked : ∀ p ∈ F, ∀ q, q = p ∨ Beside p q → original.Contains q → original.Fits q

theorem Filling.start (hseed : original.Contains seed) : Filling original seed color ∅ original [seed] where
  painted := Painted.refl original color
  sound := Set.empty_subset _
  waiting := by
    intro s hs
    rw [mem_singleton.mp hs]
    exact Linked.refl ⟨hseed, rfl⟩
  pending := by
    rw [Set.sdiff_empty]
    exact Pending.seed seed
  looked := fun p hp => absurd hp (Set.notMem_empty p)

namespace Filling

/-- The body of the main loop keeps the state. -/
theorem filledSpan {lx rx : Int} (h : Filling original seed color F image (p :: stack))
    (hspan : FilledSpan original image' (original.pixel seed) color F p stack stack' lx rx) :
    Filling original seed color (F ∪ span lx rx p.y) image' stack' := by
  obtain ⟨stack₁, hup, hdown⟩ := hspan.scans
  have hp := h.waiting p mem_cons_self
  have hregion : span lx rx p.y ⊆ region original seed :=
    span_subset_region hp (hspan.filled.trans Set.sdiff_subset) hspan.left hspan.right
  -- what a scan pushes lies next to the run
  have hpushed {s : QPoint} (hs : s ∈ span lx rx (p.y + 1) ∨ s ∈ span lx rx (p.y - 1))
      (hU : s ∈ original.area (original.pixel seed)) : s ∈ region original seed := by
    have hin : (⟨s.x, p.y⟩ : QPoint) ∈ span lx rx p.y := hs.elim (fun hs => ⟨rfl, hs.2⟩) fun hs =>
      ⟨rfl, hs.2⟩
    apply Linked.step (hregion hin) _ hU
    exact .inr ⟨rfl, hs.imp And.left And.left⟩
  constructor
  case painted => exact hspan.painted
  case sound => exact Set.union_subset h.sound hregion
  case waiting =>
    intro s hs
    rcases hdown.pushed s hs with hs | ⟨hrow, hU⟩
    · rcases hup.pushed s hs with hs | ⟨hrow, hU⟩
      · exact h.waiting s (mem_cons_of_mem p hs)
      · exact hpushed (.inl hrow) hU.1
    · exact hpushed (.inr hrow) hU.1
  case pending =>
    have hleft : (original.area (original.pixel seed) \ F) \ span lx rx p.y =
        original.area (original.pixel seed) \ (F ∪ span lx rx p.y) := sdiff_sdiff_left
    rw [← hleft]
    apply h.pending.visit
    · intro hU
      by_contra hnot
      have hx : p.x = rx := by
        by_contra hne
        exact hnot ⟨rfl, hspan.left, lt_of_le_of_ne hspan.right hne⟩
      have hp : (⟨rx, p.y⟩ : QPoint) = p := by rw [← hx]
      have hbehind := hspan.behind
      rw [hp] at hbehind
      exact hbehind ⟨hU.1, fun hmem => hmem.elim hU.2 hnot⟩
    · exact fun s hs => hdown.kept s (hup.kept s hs)
    · rw [hleft]
      rintro ⟨x, y⟩ ⟨rfl, hle, hlt⟩ ⟨x', y'⟩ hv (⟨rfl, hx⟩ | ⟨rfl, rfl | rfl⟩)
      · -- the run cannot be continued to either side
        exfalso
        have hout : x' < lx ∨ rx ≤ x' := by
          by_contra hin
          exact hv.2 (.inr ⟨rfl, by simp only; omega, by simp only; omega⟩)
        have hend : x' = lx - 1 ∨ x' = rx := by
          simp only at hle hlt hx
          omega
        rcases hend with rfl | rfl
        · exact hspan.before hv
        · exact hspan.behind hv
      · rcases hup.linked ⟨x, p.y + 1⟩ ⟨rfl, hle, hlt⟩ hv with ⟨s, hs, hlinked⟩ | ⟨hfalse, -⟩
        · exact ⟨s, hdown.kept s hs, hlinked⟩
        · cases hfalse
      · rcases hdown.linked ⟨x, p.y - 1⟩ ⟨rfl, hle, hlt⟩ hv with hlinked | ⟨hfalse, -⟩
        · exact hlinked
        · cases hfalse
  case looked =>
    rintro r (hr | ⟨hy, hle, hlt⟩) q hq
    · exact h.looked r hr q hq
    · obtain ⟨x, y⟩ := r
      obtain rfl : y = p.y := hy
      rcases hq with rfl | ⟨hrow, hx⟩ | ⟨rfl, hrow⟩
      · exact hspan.row x (by simp only at hle; omega) hlt.le
      · obtain ⟨x', y'⟩ := q
        obtain rfl : p.y = y' := hrow
        simp only at hle hlt hx
        exact hspan.row x' (by omega) (by omega)
      · rcases hrow with hrow | hrow
        · exact hup.fits q ⟨hrow, hle, hlt⟩
        · exact hdown.fits q ⟨hrow, hle, hlt⟩

/-- A fill that has ended. -/
theorem recoloured (hne : original.pixel seed ≠ color) (h : Filling original seed color F image []) :
    Recoloured original image seed color ∧
      ∀ p ∈ region original seed, ∀ q, q = p ∨ Beside p q → original.Contains q → original.Fits q := by
  have hall : F = region original seed := by
    apply h.sound.antisymm
    intro q hq
    by_contra hF
    exact h.pending.notMem_of_nil q hq ⟨mem_area_of_mem_region hq, hF⟩
  rw [← hall]
  refine ⟨?_, h.looked⟩
  constructor
  case width => exact h.painted.width
  case height => exact h.painted.height
  case painted =>
    intro p hp
    exact h.painted.painted p (hall ▸ hp) (mem_area_of_mem_region hp).1
  case kept =>
    intro p hp
    exact h.painted.kept p (hall ▸ hp)
  case same => exact fun heq => absurd heq hne

/-- What is left to do: the points on the stack, and for every point of the area that is not filled
    the two that its span may push. -/
noncomputable def work (original : QImage) (seed : QPoint) (F : Set QPoint) (stack : List QPoint) : Nat :=
  stack.length + 2 * (original.area (original.pixel seed) \ F).ncard

theorem finite_area (image : QImage) (areaColor : QRgb) : (image.area areaColor).Finite := by
  have hfinite : ((fun p : Int × Int => (⟨p.1, p.2⟩ : QPoint)) ''
      (Set.Ico (0 : Int) image.width ×ˢ Set.Ico (0 : Int) image.height)).Finite :=
    ((Set.finite_Ico _ _).prod (Set.finite_Ico _ _)).image _
  apply hfinite.subset
  rintro p ⟨⟨hx, hx', hy, hy'⟩, -⟩
  exact ⟨(p.x, p.y), ⟨⟨hx, hx'⟩, hy, hy'⟩, rfl⟩

theorem work_lt {lx rx : Int}
    (hspan : FilledSpan original image' (original.pixel seed) color F p stack stack' lx rx) :
    work original seed (F ∪ span lx rx p.y) stack' < work original seed F (p :: stack) := by
  obtain ⟨stack₁, hup, hdown⟩ := hspan.scans
  have hleft : (original.area (original.pixel seed) \ F) \ span lx rx p.y =
      original.area (original.pixel seed) \ (F ∪ span lx rx p.y) := sdiff_sdiff_left
  have hcard := Set.ncard_sdiff_add_ncard_of_subset hspan.filled ((finite_area original _).sdiff)
  rw [hleft, (span_ncard lx rx p.y).2] at hcard
  have hlength := hup.length
  have hlength' := hdown.length
  rw [work, work, length_cons]
  omega

end Filling

/-- Some point next to the region has an offset that does not fit. -/
def Unfit (original : QImage) (seed : QPoint) : Prop :=
  ∃ p ∈ region original seed, ∃ q, (q = p ∨ Beside p q) ∧ original.Contains q ∧ ¬original.Fits q

theorem fillSpan_ends (hne : original.pixel seed ≠ color) (h : Painted original image color F)
    (hp : p ∈ region original seed) (hfuel : original.width + 1 < fuel) :
    (fillSpan fuel (original.pixel seed) color image p stack).Ends
      (fun r => ∃ lx rx, FilledSpan original r.1 (original.pixel seed) color F p stack r.2 lx rx)
      (Unfit original seed) := by
  have hcontains := (mem_area_of_mem_region hp).1
  refine Outcome.Ends.bind (fillRun_ends hne h ⟨by omega, fun i hi => ?_⟩ fun k hsub hin hfits => ?_) ?_
  · have hx := hi.1
    have hwidth := hcontains.2.1
    simp only at hx
    omega
  · -- the point that is looked at lies beside the last one of the run
    rw [runFrom_left] at hsub
    have hlast : ⟨p.x - k, p.y⟩ ∈ region original seed := by
      cases k with
      | zero => simpa using hp
      | succ k => exact span_subset_region hp hsub (by omega) le_rfl ⟨rfl, le_rfl, by simp only; omega⟩
    exact ⟨_, hlast, ⟨p.x - 1 + -1 * k, p.y⟩, .inr (.inl ⟨rfl, .inr (by simp only; ring)⟩), hin, hfits⟩
  rintro ⟨image₁, left⟩ ⟨k, rfl, hsubL, hpaintedL, hendL, hfitsL⟩
  refine Outcome.Ends.bind (fillRun_ends hne hpaintedL ⟨by omega, fun i hi => ?_⟩ fun m hsub hin hfits => ?_)
    ?_
  · have hx := hi.2.1
    have hpos := hcontains.1
    simp only at hx
    omega
  · rw [runFrom_right] at hsub
    cases m with
    | zero => exact ⟨p, hp, _, .inl (by simp), hin, hfits⟩
    | succ m =>
      have hlast : ⟨p.x + m, p.y⟩ ∈ region original seed :=
        span_subset_region hp hsub le_rfl (by omega) ⟨rfl, by simp only; omega, by push_cast; omega⟩
      exact ⟨_, hlast, ⟨p.x + 1 * (m + 1 : Nat), p.y⟩, .inr (.inl ⟨rfl, .inl (by push_cast; ring)⟩),
        hin, hfits⟩
  rintro ⟨image₂, rx⟩ ⟨m, rfl, hsubR, hpaintedR, hendR, hfitsR⟩
  have hwhole := @span_union p.y (p.x - k) p.x (p.x + m) (by omega) (by omega)
  have hlx : p.x - 1 + -1 * (k : Int) + 1 = p.x - k := by ring
  rw [runFrom_left] at hsubL hpaintedL hendL hfitsL
  rw [runFrom_left, runFrom_right, Set.union_assoc, hwhole] at hpaintedR hendR
  rw [runFrom_right, runFrom_left] at hsubR
  rw [runFrom_right] at hfitsR
  simp only [hlx, one_mul] at hendR ⊢
  have hfilled : span (p.x - k) (p.x + m) p.y ⊆ original.area (original.pixel seed) \ F := by
    rw [← hwhole]
    exact Set.union_subset hsubL fun q hq => ⟨(hsubR hq).1, fun hF => (hsubR hq).2 (.inl hF)⟩
  have hregion := span_subset_region hp (hfilled.trans Set.sdiff_subset) (by omega) (by omega)
  have hscan (y : Int) (hy : y = p.y + 1 ∨ y = p.y - 1) (stack : List QPoint) :
      (scan image₂ (original.pixel seed) (p.x - k) (p.x + m) y stack).Ends (Scanned original
        (original.area (original.pixel seed) \ (F ∪ span (p.x - k) (p.x + m) p.y)) (p.x - k)
          (p.x + m) y false stack)
        (Unfit original seed) := by
    refine Outcome.Ends.imp (scanFrom_ends hne hpaintedR fun v hv hin hfits => ?_) fun stack' hscanned => ?_
    · rw [Int.toNat_of_nonneg (by omega), add_sub_cancel] at hv
      exact ⟨⟨v.x, p.y⟩, hregion ⟨rfl, hv.2⟩, v, .inr (.inr ⟨rfl, hv.1 ▸ hy⟩), hin, hfits⟩
    · rwa [Int.toNat_of_nonneg (by omega), add_sub_cancel] at hscanned
  refine (hscan _ (.inl rfl) stack).bind fun stack₁ hup =>
    (hscan _ (.inr rfl) stack₁).bind fun stack₂ hdown => ?_
  refine ⟨p.x - k, p.x + m, ?_⟩
  constructor
  case left => omega
  case right => omega
  case filled => exact hfilled
  case painted => exact hpaintedR
  case before =>
    have hx : p.x - 1 + -1 * (k : Int) = p.x - k - 1 := by ring
    rw [hx] at hendL
    rw [← hwhole, ← Set.union_assoc]
    exact fun hmem => hendL ⟨hmem.1, fun hL => hmem.2 (.inl hL)⟩
  case behind => exact hendR
  case row =>
    intro z hle hlt
    by_cases hz : z < p.x
    · exact hfitsL _ ⟨rfl, by push_cast; omega, hz⟩
    · exact hfitsR _ ⟨rfl, by simp only; omega, by push_cast; omega⟩
  case scans => exact ⟨stack₁, hup, hdown⟩

theorem fillLoop_ends (hne : original.pixel seed ≠ color) (h : Filling original seed color F image stack)
    (hfuel : original.width + 2 + Filling.work original seed F stack < fuel) :
    (fillLoop (original.pixel seed) color fuel image stack).Ends
      (fun image' => ∃ F', Filling original seed color F' image' []) (Unfit original seed) := by
  induction fuel generalizing F image stack with
  | zero => exact absurd hfuel (Nat.not_lt_zero _)
  | succ fuel ih =>
    cases stack with
    | nil => exact ⟨F, h⟩
    | cons p stack =>
      refine (fillSpan_ends hne h.painted (h.waiting p mem_cons_self) (by omega)).bind ?_
      rintro ⟨image₁, stack₁⟩ ⟨lx, rx, hfilled⟩
      have hless : Filling.work original seed _ stack₁ < _ := Filling.work_lt hfilled
      exact ih (h.filledSpan hfilled) (by omega)

/-! ### The result -/

/-- Nothing to fill. -/
theorem Recoloured.refl (h : image.pixel seed = color) : Recoloured image image seed color where
  width := rfl
  height := rfl
  painted := fun _ hp => (mem_area_of_mem_region hp).2.trans h
  kept := fun _ _ _ => rfl
  same := fun _ => rfl

end

/-- Span filling ends and recolours the region of the seed, and nothing else, if and only if all
    offsets it computes fit into an `int`. -/
theorem doSpanFilling_fills_iff (image : QImage) (seed : QPoint) (color : QRgb)
    (hseed : image.Contains seed) : FillsRegion image seed color ↔ OffsetsFit image seed color := by
  constructor
  · rintro ⟨bound, hfill⟩
    obtain ⟨fuel, hfuel, henough⟩ :
        ∃ fuel ≥ bound, image.width + 2 + Filling.work image seed ∅ [seed] < fuel :=
      ⟨bound + (image.width + 3 + Filling.work image seed ∅ [seed]), by omega, by omega⟩
    obtain ⟨image', hdone, -⟩ := hfill fuel hfuel
    obtain ⟨areaColor, hread, hrest⟩ := Outcome.bind_eq_done hdone
    have hends := QImage.read_ends hseed id
    rw [hread] at hends
    obtain ⟨rfl, hfits⟩ := hends
    refine ⟨hfits, fun hne => ?_⟩
    rw [if_neg hne] at hrest
    have hloop := fillLoop_ends hne (Filling.start hseed) henough
    rw [hrest] at hloop
    obtain ⟨F, hend⟩ := hloop
    exact (hend.recoloured hne).2
  · rintro ⟨hseedFits, hfits⟩
    obtain ⟨_, hread, rfl, -⟩ := (QImage.read_ends hseed id).exists_done (not_not.mpr hseedFits)
    refine ⟨image.width + 2 + Filling.work image seed ∅ [seed] + 1, fun fuel hfuel => ?_⟩
    rw [doSpanFilling, hread, Outcome.done_bind]
    split
    case isTrue heq => exact ⟨image, rfl, .refl heq⟩
    case isFalse hne =>
      have hfit : ¬Unfit image seed := fun ⟨p, hp, q, hq, hin, hout⟩ => hout (hfits hne p hp q hq hin)
      obtain ⟨image', hloop, F, hend⟩ := (fillLoop_ends hne (Filling.start hseed) hfuel).exists_done hfit
      exact ⟨image', hloop, (hend.recoloured hne).1⟩

/-- A white square of two by two points. -/
def blankSquare : QImage := ⟨2, 2, fun _ => 0xFFFFFFFF⟩

theorem doSpanFilling_fills_blankSquare : FillsRegion blankSquare ⟨1, 0⟩ 0xFF000000 := by
  have hfits (p : QPoint) (hp : blankSquare.Contains p) : blankSquare.Fits p := by
    have hlt := QImage.offset_lt hp
    change p.y * 2 + p.x < 2 * 2 at hlt
    change p.y * 2 + p.x < 2 ^ 31
    omega
  exact (doSpanFilling_fills_iff blankSquare ⟨1, 0⟩ 0xFF000000 (by decide)).mpr
    ⟨hfits _ (by decide), fun _ _ _ q _ hq => hfits q hq⟩

/-- A white image with more than 2^31 points. -/
def largeImage : QImage := ⟨65536, 32769, fun _ => 0xFFFFFFFF⟩

/-- The first point of the last row has the offset 2^31. -/
theorem largeImage_read : largeImage.read ⟨0, 32768⟩ = .panic .signedOverflow := by
  have hoverflow : ¬ (-2 ^ 31 ≤ (32768 : Int) * (65536 : Nat) ∧ (32768 : Int) * (65536 : Nat) < 2 ^ 31) := by
    omega
  rw [QImage.read, QImage.offset, toInt, largeImage, if_neg hoverflow]
  rfl

theorem largeImage_not_filled :
    largeImage.Contains ⟨0, 32768⟩ ∧
      doSpanFilling 1 0xFF000000 largeImage ⟨0, 32768⟩ 0xFF000000 = .panic .signedOverflow ∧
      ¬ FillsRegion largeImage ⟨0, 32768⟩ 0xFF000000 := by
  have hpanic (fuel : Nat) :
      doSpanFilling fuel 0xFF000000 largeImage ⟨0, 32768⟩ 0xFF000000 = .panic .signedOverflow := by
    rw [doSpanFilling, largeImage_read]
    rfl
  refine ⟨by decide, hpanic 1, ?_⟩
  rintro ⟨bound, hfill⟩
  obtain ⟨image', hdone, -⟩ := hfill bound le_rfl
  rw [hpanic] at hdone
  cases hdone

end NsuLabs.ICGPaint
