/-
Module: NsuLabs.ConvexHull.ConvexHull
Purpose: `C-Labs/Minimal_convex_hull_Graham_algo/src/convex_hull.c`. The doubles are integers, as all results
  are: one that needs more than 53 bits is rounded to the nearest that does not, ties to even. The stack of
  the scan is the front of the array. `none` is an access outside the array.
Trusted boundary: `qsort_r` is a parameter; what is assumed of it is stated with the
  theorems
Main exports: findConvexHull, findConvexHull_isHull
-/
import NsuLabs.Lib.Arrays
import NsuLabs.Lib.ConvexPosition
import NsuLabs.Lib.Runs

namespace NsuLabs.ConvexHull

open Lib

/-- `Vec2i_t`. -/
structure Vec2i where
  x : Int
  y : Int
deriving DecidableEq

/-! ### Doubles -/

/-- The double nearest to an integer: all bits behind the first 53 are rounded away. -/
def toDouble (n : Int) : Int :=
  let unit := 2 ^ (n.natAbs.log2 - 52)
  let quotient := n.natAbs / unit
  let remainder := n.natAbs % unit
  let up := 2 * remainder > unit ∨ (2 * remainder = unit ∧ quotient % 2 = 1)
  n.sign * ((if up then quotient + 1 else quotient) * unit : Nat)

def doubleSub (a b : Int) : Int := toDouble (a - b)

def doubleMul (a b : Int) : Int := toDouble (a * b)

def doubleAdd (a b : Int) : Int := toDouble (a + b)

/-! ### The functions of the hull -/

/-- One pass of the loop of `findStartingPoint`. -/
def startingStep (points : List Vec2i) (starting i : Nat) : Option Nat := do
  let point ← points[i]?
  let lowest ← points[starting]?
  if point.y < lowest.y then return i
  else if point.y = lowest.y then
    if point.x < lowest.x then return i else return starting
  else return starting

def findStartingPoint (points : List Vec2i) : Option Nat :=
  (List.range points.length).foldlM (startingStep points) 0

/-- `swapVec2i` on two elements of the array. -/
def swapVec2i (points : List Vec2i) (i j : Nat) : Option (List Vec2i) := do
  let a ← points[i]?
  let b ← points[j]?
  let points ← store points i b
  store points j a

def cmp (origin a b : Vec2i) : Int :=
  let oaX := doubleSub a.x origin.x
  let oaY := doubleSub a.y origin.y
  let obX := doubleSub b.x origin.x
  let obY := doubleSub b.y origin.y
  let prod := doubleSub (doubleMul oaX obY) (doubleMul oaY obX)
  if prod > 0 then -1
  else if prod < 0 then 1
  else
    let oaLen := doubleAdd (doubleMul oaX oaX) (doubleMul oaY oaY)
    let obLen := doubleAdd (doubleMul obX obX) (doubleMul obY obY)
    if oaLen < obLen then -1 else if oaLen > obLen then 1 else 0

def checkRotation (o a b : Vec2i) : Int :=
  let oaX := doubleSub a.x o.x
  let oaY := doubleSub a.y o.y
  let abX := doubleSub b.x a.x
  let abY := doubleSub b.y a.y
  doubleSub (doubleMul oaX abY) (doubleMul oaY abX)

/-- The `while` loop for the point at `i`, from the variables `stackTop`, `a` and `b`. -/
def popLoop (points : List Vec2i) (i : Nat) (c : Vec2i) : (stackTop : Nat) → (a b : Vec2i) → Option Nat
  | 0, _, _ => some 0
  | stackTop + 1, a, b =>
    if checkRotation a b c ≤ 0 then
      if stackTop = 0 then do
        let a ← points[stackTop]?
        let b ← points[i]?
        popLoop points i c stackTop a b
      else do
        let a ← points[stackTop - 1]?
        let b ← points[stackTop]?
        popLoop points i c stackTop a b
    else some (stackTop + 1)

/-- One pass of the scan: the array and `stackTop` are the state. -/
def scanStep : List Vec2i × Nat → (i : Nat) → Option (List Vec2i × Nat)
  | (_, 0), _ => none
  | (points, stackTop + 1), i => do
      let a ← points[stackTop]?
      let b ← points[stackTop + 1]?
      let c ← points[i]?
      let stackTop ← popLoop points i c (stackTop + 1) a b
      let points ← store points (stackTop + 1) (← points[i]?)
      return (points, stackTop + 1)

/-- The size of the hull and the array. The parameter is `qsort_r` on the elements behind the first
    one. -/
def findConvexHull (qsort : (Vec2i → Vec2i → Int) → List Vec2i → List Vec2i) (points : List Vec2i) :
    Option (Nat × List Vec2i) :=
  let pointsCount := points.length
  if pointsCount < 2 then some (pointsCount, points)
  else do
    let starting ← findStartingPoint points
    let points ← swapVec2i points 0 starting
    let origin ← points[0]?
    let points := origin :: qsort (cmp origin) points.tail
    let (points, stackTop) ← (List.range' 2 (pointsCount - 2)).foldlM scanStep (points, 1)
    return (stackTop + 1, points)

open List Option

/-! ### Doubles -/

theorem toDouble_eq {n : Int} (h : |n| < 2 ^ 53) : toDouble n = n := by
  rw [Int.abs_eq_natAbs] at h
  have hlog : n.natAbs.log2 - 52 = 0 := by
    rcases Nat.eq_zero_or_pos n.natAbs with hzero | hpos
    · rw [hzero]
      rfl
    · have hlt : n.natAbs.log2 < 53 := (Nat.log2_lt hpos.ne').mpr (by omega)
      omega
  rw [toDouble, hlog]
  simp only [pow_zero, Nat.mod_one, Nat.div_one, mul_zero]
  rw [if_neg (by omega), mul_one, Int.sign_mul_natAbs]

/-- The coordinates for which no operation rounds. -/
def Small (p : Vec2i) : Prop := |p.x| ≤ 2 ^ 24 ∧ |p.y| ≤ 2 ^ 24

theorem doubleSub_eq {a b : Int} (ha : |a| ≤ 2 ^ 24) (hb : |b| ≤ 2 ^ 24) :
    doubleSub a b = a - b ∧ |a - b| ≤ 2 ^ 25 := by
  have hle : |a - b| ≤ 2 ^ 25 := by
    rw [abs_le] at *
    omega
  exact ⟨toDouble_eq (by omega), hle⟩

theorem doubleMul_eq {a b : Int} (ha : |a| ≤ 2 ^ 25) (hb : |b| ≤ 2 ^ 25) :
    doubleMul a b = a * b ∧ |a * b| ≤ 2 ^ 50 := by
  have hle : |a * b| ≤ 2 ^ 50 := by
    rw [abs_mul]
    exact (mul_le_mul ha hb (abs_nonneg b) (by positivity)).trans (by norm_num)
  exact ⟨toDouble_eq (by omega), hle⟩

/-- The expression of `cmp` and of `checkRotation`. -/
theorem doubleSub_mul_eq {a b c d : Int} (ha : |a| ≤ 2 ^ 25) (hb : |b| ≤ 2 ^ 25) (hc : |c| ≤ 2 ^ 25)
    (hd : |d| ≤ 2 ^ 25) : doubleSub (doubleMul a b) (doubleMul c d) = a * b - c * d := by
  obtain ⟨hab, hab'⟩ := doubleMul_eq ha hb
  obtain ⟨hcd, hcd'⟩ := doubleMul_eq hc hd
  rw [hab, hcd]
  apply toDouble_eq
  rw [abs_le] at hab' hcd'
  rw [abs_lt]
  omega

theorem doubleAdd_mul_eq {a b : Int} (ha : |a| ≤ 2 ^ 25) (hb : |b| ≤ 2 ^ 25) :
    doubleAdd (doubleMul a a) (doubleMul b b) = a * a + b * b := by
  obtain ⟨haa, haa'⟩ := doubleMul_eq ha ha
  obtain ⟨hbb, hbb'⟩ := doubleMul_eq hb hb
  rw [haa, hbb]
  apply toDouble_eq
  rw [abs_le] at haa' hbb'
  rw [abs_lt]
  omega

/-! ### The plane -/

/-- The point in the real plane. -/
def toPlane (p : Vec2i) : ℝ × ℝ := (p.x, p.y)

theorem toPlane_injective : Function.Injective toPlane := by
  intro p q h
  obtain ⟨hx, hy⟩ := Prod.mk.inj h
  cases p
  cases q
  rw [Vec2i.mk.injEq]
  exact ⟨Int.cast_injective hx, Int.cast_injective hy⟩

theorem cross_toPlane (o a b : Vec2i) : cross (toPlane o) (toPlane a) (toPlane b) =
    (((a.x - o.x) * (b.y - o.y) - (a.y - o.y) * (b.x - o.x) : Int) : ℝ) := by
  simp only [cross, toPlane]
  push_cast
  rfl

theorem sqDist_toPlane (o a : Vec2i) : sqDist (toPlane o) (toPlane a) =
    (((a.x - o.x) * (a.x - o.x) + (a.y - o.y) * (a.y - o.y) : Int) : ℝ) := by
  simp only [sqDist, toPlane]
  push_cast
  rfl

variable {points : List Vec2i}

section

variable {o a b c : Vec2i}

theorem checkRotation_eq (ho : Small o) (ha : Small a) (hb : Small b) :
    (checkRotation o a b : ℝ) = cross (toPlane o) (toPlane a) (toPlane b) := by
  obtain ⟨hoaX, hoaX'⟩ := doubleSub_eq ha.1 ho.1
  obtain ⟨hoaY, hoaY'⟩ := doubleSub_eq ha.2 ho.2
  obtain ⟨habX, habX'⟩ := doubleSub_eq hb.1 ha.1
  obtain ⟨habY, habY'⟩ := doubleSub_eq hb.2 ha.2
  rw [checkRotation, hoaX, hoaY, habX, habY, doubleSub_mul_eq hoaX' habY' hoaY' habX', cross_toPlane]
  congr 1
  ring

/-- `cmp` by the exact values of its products. -/
theorem cmp_eq (ho : Small o) (ha : Small a) (hb : Small b) :
    cmp o a b =
      if 0 < cross (toPlane o) (toPlane a) (toPlane b) then -1
      else if cross (toPlane o) (toPlane a) (toPlane b) < 0 then 1
      else if sqDist (toPlane o) (toPlane a) < sqDist (toPlane o) (toPlane b) then -1
      else if sqDist (toPlane o) (toPlane b) < sqDist (toPlane o) (toPlane a) then 1 else 0 := by
  obtain ⟨hoaX, hoaX'⟩ := doubleSub_eq ha.1 ho.1
  obtain ⟨hoaY, hoaY'⟩ := doubleSub_eq ha.2 ho.2
  obtain ⟨hobX, hobX'⟩ := doubleSub_eq hb.1 ho.1
  obtain ⟨hobY, hobY'⟩ := doubleSub_eq hb.2 ho.2
  rw [cmp, hoaX, hoaY, hobX, hobY, doubleSub_mul_eq hoaX' hobY' hoaY' hobX', doubleAdd_mul_eq hoaX' hoaY',
    doubleAdd_mul_eq hobX' hobY', cross_toPlane, sqDist_toPlane, sqDist_toPlane]
  simp only [Int.cast_pos, Int.cast_lt_zero, Int.cast_lt, gt_iff_lt]

theorem cmp_le_zero_iff (ho : Small o) (ha : Small a) (hb : Small b) :
    cmp o a b ≤ 0 ↔ Before (toPlane o) (toPlane a) (toPlane b) := by
  rw [cmp_eq ho ha hb, Before]
  rcases lt_trichotomy (cross (toPlane o) (toPlane a) (toPlane b)) 0 with hneg | hzero | hpos
  · simp [hneg, hneg.not_gt, hneg.ne]
  · rcases lt_trichotomy (sqDist (toPlane o) (toPlane a))
      (sqDist (toPlane o) (toPlane b)) with hlt | heq | hgt
    · simp [hzero, hlt, hlt.le]
    · simp [hzero, heq]
    · simp [hzero, hgt, hgt.not_gt, hgt.not_ge]
  · simp [hpos]

theorem cmp_swap (ho : Small o) (ha : Small a) (hb : Small b) : cmp o b a = -cmp o a b := by
  have hswap : cross (toPlane o) (toPlane b) (toPlane a) = -cross (toPlane o) (toPlane a) (toPlane b) := by
    rw [cross, cross]
    ring
  rw [cmp_eq ho ha hb, cmp_eq ho hb ha, hswap]
  rcases lt_trichotomy (cross (toPlane o) (toPlane a) (toPlane b)) 0 with hneg | hzero | hpos
  · simp [hneg, hneg.le]
  · rcases lt_trichotomy (sqDist (toPlane o) (toPlane a))
      (sqDist (toPlane o) (toPlane b)) with hlt | heq | hgt
    · simp [hzero, hlt, hlt.le]
    · simp [hzero, heq]
    · simp [hzero, hgt, hgt.le]
  · simp [hpos, hpos.le]

/-! ### The pivot -/

/-- The point is not lower than the other one, and not to its left at the same height. -/
def Lowest (o p : Vec2i) : Prop := o.y < p.y ∨ (o.y = p.y ∧ o.x ≤ p.x)

theorem Lowest.above (h : Lowest o a) : Above (toPlane o) (toPlane a) := by
  rcases h with hlt | ⟨heq, hle⟩
  · exact .inl (Int.cast_lt.mpr hlt)
  · exact .inr ⟨congrArg Int.cast heq, Int.cast_le.mpr hle⟩

theorem Lowest.trans (hab : Lowest a b) (hbc : Lowest b c) : Lowest a c := by
  rw [Lowest] at *
  omega

theorem Lowest.refl (p : Vec2i) : Lowest p p := .inr ⟨rfl, le_rfl⟩

/-- What `qsort_r` needs of a comparator on the elements of an array. -/
structure IsComparator {α : Type} (cmp : α → α → Int) (xs : List α) : Prop where
  swap : ∀ a ∈ xs, ∀ b ∈ xs, (cmp a b < 0 ↔ 0 < cmp b a)
  trans : ∀ a ∈ xs, ∀ b ∈ xs, ∀ c ∈ xs, cmp a b ≤ 0 → cmp b c ≤ 0 → cmp a c ≤ 0

/-- Around the lowest point `cmp` is a comparator. -/
theorem cmp_isComparator (ho : Small o) (hsmall : ∀ p ∈ points, Small p)
    (hlowest : ∀ p ∈ points, Lowest o p) : IsComparator (cmp o) points := by
  refine ⟨fun a ha b hb => ?_, fun a ha b hb c hc hab hbc => ?_⟩
  · rw [cmp_swap ho (hsmall a ha) (hsmall b hb)]
    omega
  · rw [cmp_le_zero_iff ho (hsmall a ha) (hsmall b hb)] at hab
    rw [cmp_le_zero_iff ho (hsmall b hb) (hsmall c hc)] at hbc
    rw [cmp_le_zero_iff ho (hsmall a ha) (hsmall c hc)]
    exact Before.trans (hlowest a ha).above (hlowest b hb).above (hlowest c hc).above hab hbc

/-- The point at `starting` is the lowest of the first `i` points. -/
def StartsAt (points : List Vec2i) (i starting : Nat) : Prop :=
  ∃ o, points[starting]? = some o ∧ ∀ j < i, ∀ p, points[j]? = some p → Lowest o p

theorem startingStep_spec {i starting : Nat} (hi : i < points.length)
    (hstarts : StartsAt points i starting) :
    ∃ starting', startingStep points starting i = some starting' ∧ StartsAt points (i + 1) starting' := by
  obtain ⟨o, ho, hlowest⟩ := hstarts
  have hpoint : points[i]? = some points[i] := getElem?_eq_getElem hi
  generalize points[i] = point at hpoint
  -- the lowest of the first points is compared with the next one
  have hnext {place : Nat} {low : Vec2i} (hlow : points[place]? = some low) (hold : Lowest low o)
      (hnew : Lowest low point) : StartsAt points (i + 1) place := by
    refine ⟨low, hlow, fun j hj p hp => ?_⟩
    rcases Nat.lt_succ_iff_lt_or_eq.mp hj with hlt | rfl
    · exact hold.trans (hlowest j hlt p hp)
    · exact some.inj (hpoint.symm.trans hp) ▸ hnew
  have hkeep := hnext ho (.refl o)
  have htake := fun hle => hnext hpoint hle (.refl point)
  simp only [startingStep, hpoint, ho, bind_eq_bind, bind_some, Option.pure_def]
  rcases lt_trichotomy point.y o.y with hlt | heq | hgt
  · rw [if_pos hlt]
    exact ⟨i, rfl, htake (.inl hlt)⟩
  · rw [if_neg heq.not_lt, if_pos heq]
    by_cases hx : point.x < o.x
    · rw [if_pos hx]
      exact ⟨i, rfl, htake (.inr ⟨heq, hx.le⟩)⟩
    · rw [if_neg hx]
      exact ⟨starting, rfl, hkeep (.inr ⟨heq.symm, not_lt.mp hx⟩)⟩
  · rw [if_neg hgt.not_gt, if_neg hgt.ne']
    exact ⟨starting, rfl, hkeep (.inl hgt)⟩

/-- `findStartingPoint` finds the place of the lowest point. -/
theorem findStartingPoint_spec (hne : points ≠ []) :
    ∃ starting o, findStartingPoint points = some starting ∧ points[starting]? = some o ∧
      ∀ p ∈ points, Lowest o p := by
  have hstart : StartsAt points 0 0 :=
    ⟨_, getElem?_eq_getElem (length_pos_iff.mpr hne), fun j hj => absurd hj (Nat.not_lt_zero j)⟩
  obtain ⟨starting, hrun, o, ho, hlowest⟩ :=
    foldlM_range_rule (StartsAt points) points.length hstart fun i hi _ => startingStep_spec hi
  refine ⟨starting, o, hrun, ho, fun p hp => ?_⟩
  obtain ⟨j, hj, rfl⟩ := getElem_of_mem hp
  exact hlowest j hj _ (getElem?_eq_getElem hj)

/-- The lowest point comes to the front. -/
theorem swapVec2i_spec {starting : Nat} (ho : points[starting]? = some o) :
    ∃ rest, swapVec2i points 0 starting = some (o :: rest) ∧ (o :: rest).Perm points := by
  cases points with
  | nil => exact absurd ho (by simp)
  | cons first points =>
    cases starting with
    | zero =>
      obtain rfl : first = o := some.inj ho
      exact ⟨points, rfl, List.Perm.refl _⟩
    | succ k =>
      rw [getElem?_cons_succ] at ho
      obtain ⟨hk, hget⟩ := List.getElem?_eq_some_iff.mp ho
      have hsplit : points = points.take k ++ o :: points.drop (k + 1) := by
        rw [← hget, getElem_cons_drop, take_append_drop]
      have hlength : (points.take k).length = k := length_take_of_le hk.le
      generalize points.take k = front at hsplit hlength
      generalize points.drop (k + 1) = back at hsplit
      subst hsplit
      subst hlength
      refine ⟨front ++ first :: back, ?_, ?_⟩
      · simp [swapVec2i, store]
      · refine (List.Perm.cons o perm_middle).trans ((List.Perm.swap first o _).trans ?_)
        exact List.Perm.cons first perm_middle.symm

end

/-- The points of a list in the real plane. -/
def planeSet (points : List Vec2i) : Set (ℝ × ℝ) := toPlane '' {p | p ∈ points}

theorem setOf_mem_map (points : List Vec2i) : {q | q ∈ points.map toPlane} = planeSet points := by
  ext q
  exact List.mem_map

theorem mem_planeSet {p : Vec2i} (hp : p ∈ points) : toPlane p ∈ planeSet points := ⟨p, hp, rfl⟩

theorem planeSet_mono {points' : List Vec2i} (h : points ⊆ points') : planeSet points ⊆ planeSet points' :=
  Set.image_mono h

theorem planeSet_perm {points' : List Vec2i} (h : points.Perm points') :
    planeSet points = planeSet points' :=
  Set.Subset.antisymm (planeSet_mono h.subset) (planeSet_mono h.symm.subset)

/-- Points of a size that is computed exactly, sorted around the lowest of them. -/
structure SortedAround (o : Vec2i) (sorted : List Vec2i) : Prop where
  small : ∀ p ∈ sorted, Small p
  lowest : ∀ p ∈ sorted, Lowest o p
  pairwise : sorted.Pairwise fun a b => Before (toPlane o) (toPlane a) (toPlane b)

section

variable {o c : Vec2i} {sorted points : List Vec2i} {i stackTop : Nat}

/-! ### The inner loop -/

/-- What the scan knows of the points of the stack when it comes to the next point. -/
structure Reached (o c p : Vec2i) : Prop where
  small : Small p
  above : Above (toPlane o) (toPlane p)
  before : Before (toPlane o) (toPlane p) (toPlane c)

theorem getElem?_below {a : Vec2i} {low rest : List Vec2i} (h : points = (a :: low).reverse ++ rest) :
    points[low.length]? = some a := by
  rw [h, reverse_cons, append_assoc, getElem?_append_right length_reverse.le,
    length_reverse, Nat.sub_self]
  rfl

/-- After a pop the two points at the top are read again. With the pivot alone they are not used. -/
theorem popLoop_pop {a₀ b₀ a : Vec2i} {low rest : List Vec2i} (hc : points[i]? = some c)
    (hpoints : points = (a :: low).reverse ++ rest) (hle : checkRotation a₀ b₀ c ≤ 0) :
    ∃ a' b', popLoop points i c (low.length + 1) a₀ b₀ = popLoop points i c low.length a' b' ∧
      ∀ x y low', a :: low = x :: y :: low' → a' = y ∧ b' = x := by
  have ha := getElem?_below hpoints
  rw [popLoop, if_pos hle]
  cases low with
  | nil =>
    refine ⟨a, c, ?_, fun x y low' heq => absurd (cons.inj heq).2 (by simp)⟩
    rw [if_pos length_nil, ha, hc]
    rfl
  | cons y low =>
    have hy : points[low.length]? = some y := by
      refine @getElem?_below points y low (a :: rest) ?_
      rw [hpoints, reverse_cons, append_assoc, singleton_append]
    refine ⟨y, a, ?_, fun x y' low' heq => ?_⟩
    · rw [length_cons] at ha ⊢
      rw [if_neg (Nat.succ_ne_zero _), Nat.add_sub_cancel, hy, ha]
      rfl
    · obtain ⟨hx, htail⟩ := cons.inj heq
      exact ⟨(cons.inj htail).1, hx⟩

/-- The loop pops the points that are inside of the hull of the others, and stops where the new
    point can be pushed. -/
theorem popLoop_spec (hc : points[i]? = some c) (hsmall : Small c) (habove : Above (toPlane o) (toPlane c))
    (stack : List Vec2i) :
    ∀ (a b : Vec2i) (rest : List Vec2i), points = stack.reverse ++ rest →
      ScanStack (toPlane o) (stack.map toPlane) → (∀ p ∈ stack, Reached o c p) →
      (∀ x y low, stack = x :: y :: low → a = y ∧ b = x) →
      ∃ popped stack', stack = popped ++ stack' ∧ stack' ≠ [] ∧
        popLoop points i c (stack.length - 1) a b = some (stack'.length - 1) ∧
        ScanStack (toPlane o) ((c :: stack').map toPlane) ∧
        planeSet (c :: stack) ⊆ convexHull ℝ (planeSet (c :: stack')) := by
  induction stack with
  | nil =>
    intro a b rest _ hscan
    obtain ⟨upper, hupper⟩ := hscan.bottom
    exact absurd hupper (by simp)
  | cons x stack ih =>
    intro a b rest hpoints hscan hreached hab
    cases stack with
    | nil =>
      obtain ⟨upper, hupper⟩ := hscan.bottom
      have hx : toPlane x = toPlane o := by
        cases upper with
        | nil => exact (cons.inj hupper).1
        | cons z upper => exact absurd (congrArg List.length hupper) (by simp)
      refine ⟨[], [x], rfl, cons_ne_nil _ _, rfl, ⟨⟨[toPlane c], ?_⟩, ?_⟩, subset_convexHull ℝ _⟩
      · rw [map_cons, map_cons, map_nil, hx]
        rfl
      · exact triplewise_pair _ _ _
    | cons y low =>
      obtain ⟨rfl, rfl⟩ := hab x y low rfl
      have hxr := hreached b mem_cons_self
      have hyr := hreached a (mem_cons_of_mem b mem_cons_self)
      have hturn := checkRotation_eq hyr.small hxr.small hsmall
      have hlength : (b :: a :: low).length - 1 = low.length + 1 := rfl
      rw [hlength]
      by_cases hle : checkRotation a b c ≤ 0
      · -- the point at the top is popped
        have hcross : cross (toPlane a) (toPlane b) (toPlane c) ≤ 0 := by
          rw [← hturn]
          exact Int.cast_nonpos.mpr hle
        have hpopped := hscan.popped_mem hxr.above habove hxr.before hcross
        have hrest : planeSet (c :: b :: a :: low) ⊆ convexHull ℝ (planeSet (c :: a :: low)) := by
          rintro - ⟨p, hp, rfl⟩
          rcases mem_cons.mp hp with rfl | hp
          · exact subset_convexHull ℝ _ (mem_planeSet mem_cons_self)
          · rcases mem_cons.mp hp with rfl | hp
            · rw [← setOf_mem_map]
              exact hpopped
            · exact subset_convexHull ℝ _ (mem_planeSet (mem_cons_of_mem c hp))
        have hpoints' : points = (a :: low).reverse ++ b :: rest := by
          rw [hpoints, reverse_cons, append_assoc, singleton_append]
        obtain ⟨a', b', hpop, hab'⟩ := popLoop_pop hc hpoints' hle
        obtain ⟨popped, stack', hsplit, hne, hrun, hscan', hcovers⟩ :=
          ih a' b' (b :: rest) hpoints' hscan.pop (fun p hp => hreached p (mem_cons_of_mem b hp)) hab'
        refine ⟨b :: popped, stack', congrArg (b :: ·) hsplit, hne, ?_, hscan', ?_⟩
        · rw [hpop]
          exact hrun
        · exact hrest.trans (convexHull_min hcovers (convex_convexHull ℝ _))
      · have hcross : 0 < cross (toPlane a) (toPlane b) (toPlane c) := by
          rw [← hturn]
          exact Int.cast_pos.mpr (not_le.mp hle)
        refine ⟨[], b :: a :: low, rfl, cons_ne_nil _ _, ?_, ?_, subset_convexHull ℝ _⟩
        · rw [popLoop, if_neg hle]
          rfl
        · exact hscan.push (List.forall_mem_map.mpr fun p hp => (hreached p hp).above) habove
            (List.forall_mem_map.mpr fun p hp => (hreached p hp).before) hcross

/-! ### The scan -/

theorem SortedAround.reached (h : SortedAround o sorted) (hc : sorted[i]? = some c) {p : Vec2i}
    (hp : p ∈ sorted.take i) : Reached o c p := by
  have hpairwise := h.pairwise
  rw [← take_append_drop i sorted] at hpairwise
  have hmem : c ∈ sorted.drop i := by
    refine mem_of_getElem? (i := 0) ?_
    rw [getElem?_drop, Nat.add_zero, hc]
  have hsorted : p ∈ sorted := mem_of_mem_take hp
  exact ⟨h.small p hsorted, (h.lowest p hsorted).above, (pairwise_append.mp hpairwise).2.2 p hp c hmem⟩

/-- The state before the point at `i` is scanned. The stack is the front of the array, with its top
    first. -/
structure ScanAt (o : Vec2i) (sorted : List Vec2i) (i : Nat) (state : List Vec2i × Nat)
    (stack : List Vec2i) : Prop where
  length : state.1.length = sorted.length
  unscanned : state.1.drop i = sorted.drop i
  front : ∃ rest, state.1 = stack.reverse ++ rest
  height : stack.length = state.2 + 1
  two : 2 ≤ stack.length
  fits : stack.length ≤ i
  scan : ScanStack (toPlane o) (stack.map toPlane)
  top : stack.head? = sorted[i - 1]?
  mem : ∀ p ∈ stack, p ∈ sorted.take i
  covers : planeSet (sorted.take i) ⊆ convexHull ℝ (planeSet stack)

theorem ScanAt.start {q : Vec2i} {rest : List Vec2i} :
    ScanAt o (o :: q :: rest) 2 (o :: q :: rest, 1) [q, o] where
  length := rfl
  unscanned := rfl
  front := ⟨rest, rfl⟩
  height := rfl
  two := le_rfl
  fits := le_rfl
  scan := ⟨⟨[toPlane q], rfl⟩, triplewise_pair _ _ _⟩
  top := rfl
  mem := fun _ hp => (List.Perm.swap o q []).mem_iff.mp hp
  covers := (planeSet_mono (List.Perm.swap q o []).subset).trans (subset_convexHull ℝ _)

variable {stack : List Vec2i}

/-- The new point is stored right above the points that the loop left on the stack. -/
theorem ScanAt.store {popped kept : List Vec2i} (h : ScanAt o sorted i (points, stackTop) stack)
    (hi : i < sorted.length) (hc : sorted[i]? = some c) (hsplit : stack = popped ++ kept) (hne : kept ≠ [])
    (hscan : ScanStack (toPlane o) ((c :: kept).map toPlane))
    (hcovers : planeSet (c :: stack) ⊆ convexHull ℝ (planeSet (c :: kept))) :
    ∃ points', NsuLabs.Lib.store points kept.length c = some points' ∧
      ScanAt o sorted (i + 1) (points', kept.length) (c :: kept) := by
  obtain ⟨rest, hrest⟩ := h.front
  obtain ⟨above, habove⟩ : ∃ above, points = kept.reverse ++ above := by
    refine ⟨popped.reverse ++ rest, ?_⟩
    rw [← append_assoc, ← reverse_append, ← hsplit]
    exact hrest
  have hfits : kept.length ≤ i := by
    have hle := h.fits
    rw [hsplit, length_append] at hle
    omega
  have hlength : points.length = sorted.length := h.length
  have hunscanned : points.drop i = sorted.drop i := h.unscanned
  obtain ⟨w, above', rfl⟩ : ∃ w above', above = w :: above' := by
    refine exists_cons_of_length_pos ?_
    rw [habove, length_append, length_reverse] at hlength
    omega
  subst habove
  refine ⟨kept.reverse ++ c :: above', ?_, ?_⟩
  · have hstore := store_append kept.reverse above' w c
    rwa [length_reverse] at hstore
  have htake : sorted.take (i + 1) = sorted.take i ++ [c] := by
    rw [take_add_one, hc]
    rfl
  constructor
  case length =>
    rw [← hlength]
    simp
  case unscanned =>
    have hdrop : sorted.drop (i + 1) = (kept.reverse ++ w :: above').drop (i + 1) := by
      rw [← drop_drop, ← drop_drop, hunscanned]
    obtain ⟨k, rfl⟩ : ∃ k, i = kept.reverse.length + k := ⟨i - kept.reverse.length, by simp; omega⟩
    rw [hdrop, Nat.add_assoc, drop_length_add_append, drop_length_add_append]
    rfl
  case front => exact ⟨above', by rw [reverse_cons, append_assoc, singleton_append]⟩
  case height => rfl
  case two => exact Nat.succ_le_succ (length_pos_iff.mpr hne)
  case fits => exact Nat.succ_le_succ hfits
  case scan => exact hscan
  case top => exact hc.symm
  case mem =>
    intro p hp
    rw [htake]
    rcases mem_cons.mp hp with rfl | hp
    · exact mem_append_right _ (mem_singleton_self p)
    · exact mem_append_left _ (h.mem p (hsplit ▸ mem_append_right popped hp))
  case covers =>
    have hhull : convexHull ℝ (planeSet stack) ⊆ convexHull ℝ (planeSet (c :: kept)) :=
      convexHull_min ((planeSet_mono (subset_cons_self c stack)).trans hcovers) (convex_convexHull ℝ _)
    rw [htake]
    rintro - ⟨p, hp, rfl⟩
    rcases mem_append.mp hp with hp | hp
    · exact hhull (h.covers (mem_planeSet hp))
    · exact subset_convexHull ℝ _ (mem_planeSet (mem_singleton.mp hp ▸ mem_cons_self))

/-- One pass of the scan takes in the next point. -/
theorem scanStep_spec {state : List Vec2i × Nat} (hsorted : SortedAround o sorted)
    (hi : i < sorted.length) (h : ScanAt o sorted i state stack) :
    ∃ state' stack', scanStep state i = some state' ∧ ScanAt o sorted (i + 1) state' stack' := by
  obtain ⟨points, stackTop⟩ := state
  obtain ⟨c, hc⟩ : ∃ c, sorted[i]? = some c := ⟨_, getElem?_eq_getElem hi⟩
  have hpoint : points[i]? = some c := by
    have hdrop := congrArg (·[0]?) h.unscanned
    simpa only [getElem?_drop, Nat.add_zero, hc] using hdrop
  obtain ⟨rest, hfront⟩ : ∃ rest, points = stack.reverse ++ rest := h.front
  obtain ⟨b, a, low, rfl⟩ := exists_cons_cons h.two
  obtain rfl : low.length + 1 = stackTop := Nat.succ.inj h.height
  have hfront' : points = (a :: low).reverse ++ b :: rest := by
    rw [hfront, reverse_cons, append_assoc, singleton_append]
  have hb : points[low.length + 1]? = some b := getElem?_below hfront
  have hmem : c ∈ sorted := mem_of_getElem? hc
  obtain ⟨popped, kept, hsplit, hne, hrun, hscan, hcovers⟩ := popLoop_spec hpoint (hsorted.small c hmem)
    (hsorted.lowest c hmem).above (b :: a :: low) a b rest hfront h.scan
    (fun p hp => hsorted.reached hc (h.mem p hp)) (fun x y low' heq => by simp_all)
  obtain ⟨points', hstore, hscanAt⟩ := h.store hi hc hsplit hne hscan hcovers
  refine ⟨_, _, ?_, hscanAt⟩
  have htop : kept.length - 1 + 1 = kept.length := Nat.sub_add_cancel (length_pos_iff.mpr hne)
  have hrun' : popLoop points i c (low.length + 1) a b = some (kept.length - 1) := hrun
  simp only [scanStep, getElem?_below hfront', hb, hpoint, hrun', bind_eq_bind, bind_some, htop, hstore,
    Option.pure_def]

theorem scan_spec {q : Vec2i} {rest : List Vec2i} (hsorted : SortedAround o (o :: q :: rest)) :
    ∃ state stack, (List.range' 2 rest.length).foldlM scanStep (o :: q :: rest, 1) = some state ∧
      ScanAt o (o :: q :: rest) (rest.length + 2) state stack := by
  obtain ⟨state, hrun, stack, hscan⟩ := foldlM_range'_rule
    (fun i state => ∃ stack, ScanAt o (o :: q :: rest) i state stack) rest.length ⟨[q, o], ScanAt.start⟩ (by
      rintro i - hlt state ⟨stack, hscan⟩
      obtain ⟨state', stack', hstep, hscan'⟩ :=
        scanStep_spec hsorted (by simp only [length_cons]; omega) hscan
      exact ⟨state', hstep, stack', hscan'⟩)
  rw [Nat.add_comm] at hscan
  exact ⟨state, stack, hrun, hscan⟩

/-! ### The hull -/

/-- The convex hull of the points: its extreme points, each once and counter-clockwise from the
    leftmost of the lowest ones, with every point inside or on the border. -/
structure IsHull (points hull : List Vec2i) : Prop where
  nodup : hull.Nodup
  extreme : planeSet hull = (convexHull ℝ (planeSet points)).extremePoints ℝ
  counterClockwise : Ccw (hull.map toPlane)
  starts : ∃ o, hull.head? = some o ∧ o ∈ points ∧ ∀ p ∈ points, Lowest o p
  inside : planeSet points ⊆ convexHull ℝ (planeSet hull)

theorem IsHull.of_perm {points' hull : List Vec2i} (hperm : points.Perm points') (h : IsHull points hull) :
    IsHull points' hull := by
  have hset := planeSet_perm hperm
  obtain ⟨p, hhead, hp, hlowest⟩ := h.starts
  exact
    { nodup := h.nodup
      extreme := hset ▸ h.extreme
      counterClockwise := h.counterClockwise
      starts := ⟨p, hhead, hperm.mem_iff.mp hp, fun q hq => hlowest q (hperm.mem_iff.mpr hq)⟩
      inside := hset ▸ h.inside }

/-- The last point of the order is not the pivot, when there is another point. -/
theorem SortedAround.last_ne (h : SortedAround o sorted) {last : Vec2i}
    (hlast : sorted[sorted.length - 1]? = some last) (hne : ∃ p ∈ sorted, p ≠ o) : last ≠ o := by
  rintro rfl
  obtain ⟨p, hp, hne⟩ := hne
  have hsplit : sorted.take (sorted.length - 1) ++ [last] = sorted := by
    rw [← dropLast_eq_take]
    refine dropLast_append_getLast? last ?_
    rw [getLast?_eq_getElem?]
    exact hlast
  rw [← hsplit] at hp
  rcases mem_append.mp hp with hp | hp
  · exact hne (toPlane_injective (h.reached hlast hp).before.eq_pivot)
  · exact hne (mem_singleton.mp hp)

/-- The stack at the end of the scan, from its bottom, is the hull. -/
theorem ScanAt.isHull {state : List Vec2i × Nat} (hsorted : SortedAround o sorted)
    (h : ScanAt o sorted sorted.length state stack) (hmem : o ∈ sorted) (hne : ∃ p ∈ sorted, p ≠ o) :
    IsHull sorted stack.reverse := by
  have hreverse := planeSet_perm stack.reverse_perm
  have hcovers := h.covers
  have hstack := h.mem
  rw [take_length] at hcovers hstack
  have hhull : convexHull ℝ (planeSet sorted) = convexHull ℝ (planeSet stack) :=
    Set.Subset.antisymm (convexHull_min hcovers (convex_convexHull ℝ _))
      (convexHull_mono (planeSet_mono hstack))
  obtain ⟨b, a, low, rfl⟩ := exists_cons_cons h.two
  have hlast : b ≠ o := hsorted.last_ne h.top.symm hne
  obtain ⟨hnodup, hextreme⟩ := h.scan.extremePoints_eq (toPlane_injective.ne hlast)
  constructor
  case nodup => exact nodup_reverse.mpr (Nodup.of_map toPlane hnodup)
  case extreme =>
    rw [hreverse, hhull, ← setOf_mem_map]
    exact hextreme.symm
  case counterClockwise =>
    rw [map_reverse]
    exact h.scan.ccw
  case starts =>
    obtain ⟨upper, hupper⟩ := h.scan.bottom
    have hhead : (b :: a :: low).reverse.head?.map toPlane = some (toPlane o) := by
      rw [← head?_map, map_reverse, hupper, reverse_append]
      rfl
    obtain ⟨first, hfirst, heq⟩ := map_eq_some_iff.mp hhead
    rw [toPlane_injective heq] at hfirst
    exact ⟨o, hfirst, hmem, hsorted.lowest⟩
  case inside =>
    rw [hreverse]
    exact hcovers

end

/-- What is assumed of `qsort_r`: by a comparator the elements are sorted, and none is lost. -/
def SortsBy (qsort : (Vec2i → Vec2i → Int) → List Vec2i → List Vec2i) : Prop :=
  ∀ cmp points, IsComparator cmp points →
    (qsort cmp points).Perm points ∧ (qsort cmp points).Pairwise fun a b => cmp a b ≤ 0

theorem SortsBy.sortedAround {qsort : (Vec2i → Vec2i → Int) → List Vec2i → List Vec2i}
    (hqsort : SortsBy qsort) {o : Vec2i} {rest : List Vec2i} (hsmall : ∀ p ∈ o :: rest, Small p)
    (hlowest : ∀ p ∈ o :: rest, Lowest o p) :
    (o :: qsort (cmp o) rest).Perm (o :: rest) ∧ SortedAround o (o :: qsort (cmp o) rest) := by
  have ho := hsmall o mem_cons_self
  obtain ⟨hperm, hpairwise⟩ := hqsort (cmp o) rest (cmp_isComparator ho
    (fun p hp => hsmall p (mem_cons_of_mem o hp)) fun p hp => hlowest p (mem_cons_of_mem o hp))
  have hperm' := hperm.cons o
  refine ⟨hperm', fun p hp => hsmall p (hperm'.mem_iff.mp hp), fun p hp => hlowest p (hperm'.mem_iff.mp hp),
    pairwise_cons.mpr ⟨fun p _ => before_self_left _ _, ?_⟩⟩
  refine Pairwise.imp_of_mem (fun {a b} ha hb hle => ?_) hpairwise
  exact (cmp_le_zero_iff ho (hsmall a (mem_cons_of_mem o (hperm.mem_iff.mp ha)))
    (hsmall b (mem_cons_of_mem o (hperm.mem_iff.mp hb)))).mp hle

/-- On points with two different ones among them, whose coordinates are at most `2 ^ 24`, the first
    `h` points of the array are the convex hull. -/
theorem findConvexHull_isHull {qsort : (Vec2i → Vec2i → Int) → List Vec2i → List Vec2i}
    (hqsort : SortsBy qsort)
    {points : List Vec2i} (hsmall : ∀ p ∈ points, Small p) (hne : ∃ p ∈ points, ∃ q ∈ points, p ≠ q) :
    ∃ h points', findConvexHull qsort points = some (h, points') ∧ h ≤ points'.length ∧
      IsHull points (points'.take h) := by
  obtain ⟨p, hp, q, hq, hpq⟩ := hne
  obtain ⟨starting, o, hstarting, ho, hlowest⟩ := findStartingPoint_spec (ne_nil_of_mem hp)
  obtain ⟨rest, hswap, hperm⟩ := swapVec2i_spec ho
  obtain ⟨hperm', hsorted⟩ := hqsort.sortedAround (fun r hr => hsmall r (hperm.mem_iff.mp hr))
    fun r hr => hlowest r (hperm.mem_iff.mp hr)
  have hpoints := hperm'.trans hperm
  have hother : ∃ r ∈ o :: qsort (cmp o) rest, r ≠ o := by
    by_cases hpo : p = o
    · exact ⟨q, hpoints.mem_iff.mpr hq, fun hqo => hpq (hpo.trans hqo.symm)⟩
    · exact ⟨p, hpoints.mem_iff.mpr hp, hpo⟩
  obtain ⟨s, rest', htail⟩ : ∃ s rest', qsort (cmp o) rest = s :: rest' := by
    obtain ⟨r, hr, hro⟩ := hother
    exact exists_cons_of_ne_nil (ne_nil_of_mem ((mem_cons.mp hr).resolve_left hro))
  rw [htail] at hpoints hsorted hother
  obtain ⟨⟨points', stackTop⟩, stack, hrun, hscan⟩ := scan_spec hsorted
  obtain ⟨above, habove⟩ : ∃ above, points' = stack.reverse ++ above := hscan.front
  have hheight : stack.reverse.length = stackTop + 1 := length_reverse.trans hscan.height
  have hlength : points.length = rest'.length + 2 := hpoints.length_eq.symm
  refine ⟨stackTop + 1, points', ?_, ?_, ?_⟩
  · rw [findConvexHull]
    simp only [hlength, hstarting, hswap, htail, hrun, bind_eq_bind, bind_some, getElem?_cons_zero,
      tail_cons, Nat.add_sub_cancel, Option.pure_def]
    exact if_neg (by omega)
  · rw [habove, ← hheight, length_append]
    exact Nat.le_add_right _ _
  · rw [habove, ← hheight, take_left]
    exact (hscan.isHull hsorted mem_cons_self hother).of_perm hpoints

/-- A sort as `qsort_r` is assumed to be. -/
def sortByMerging (cmp : Vec2i → Vec2i → Int) (points : List Vec2i) : List Vec2i :=
  (points.attach.mergeSort fun a b => decide (cmp a.1 b.1 ≤ 0)).map Subtype.val

theorem sortByMerging_sortsBy : SortsBy sortByMerging := by
  intro cmp points hcmp
  constructor
  · have hperm := (mergeSort_perm points.attach fun a b => decide (cmp a.1 b.1 ≤ 0)).map Subtype.val
    rwa [List.attach_map_subtype_val] at hperm
  · refine pairwise_map.mpr ?_
    have htrans : ∀ a b c : {p // p ∈ points}, decide (cmp a.1 b.1 ≤ 0) = true →
      decide (cmp b.1 c.1 ≤ 0) = true →
        decide (cmp a.1 c.1 ≤ 0) = true := by
      intro a b c hab hbc
      exact decide_eq_true (hcmp.trans a a.2 b b.2 c c.2 (of_decide_eq_true hab) (of_decide_eq_true hbc))
    have htotal : ∀ a b : {p // p ∈ points}, (decide (cmp a.1 b.1 ≤ 0) || decide (cmp b.1 a.1 ≤ 0)) =
        true := by
      intro a b
      have hswap := hcmp.swap b b.2 a a.2
      rw [Bool.or_eq_true, decide_eq_true_iff, decide_eq_true_iff]
      omega
    exact (pairwise_mergeSort htrans htotal points.attach).imp fun hle => of_decide_eq_true hle

/-- A square with the lower left corner twice, points on two sides and one inside. -/
theorem findConvexHull_isHull_square :
    ∃ h points', findConvexHull sortByMerging
      [⟨1, 1⟩, ⟨2, 0⟩, ⟨0, 0⟩, ⟨2, 2⟩, ⟨1, 0⟩, ⟨0, 2⟩, ⟨0, 1⟩, ⟨0, 0⟩] =
        some (h, points') ∧ h ≤ points'.length ∧
      IsHull [⟨1, 1⟩, ⟨2, 0⟩, ⟨0, 0⟩, ⟨2, 2⟩, ⟨1, 0⟩, ⟨0, 2⟩, ⟨0, 1⟩, ⟨0, 0⟩] (points'.take h) :=
  findConvexHull_isHull sortByMerging_sortsBy (by simp [Small])
    ⟨⟨1, 1⟩, by decide, ⟨2, 0⟩, by decide, by decide⟩

end NsuLabs.ConvexHull
