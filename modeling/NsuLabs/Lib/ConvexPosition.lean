/-
Module: NsuLabs.Lib.ConvexPosition
Purpose: Points of the plane in strictly convex position, and the scan that finds them among points sorted by
  the angle around a pivot.
Trusted boundary: none
Main exports: cross, Above, Before
-/
import Mathlib

namespace NsuLabs.Lib

open List

universe u v

variable {𝕜 : Type u}

/-! ### Turns -/

section

variable [Field 𝕜]

/-- Twice the signed area of the triangle: positive if `o`, `a`, `b` make a left turn. -/
def cross (o a b : 𝕜 × 𝕜) : 𝕜 := (a.1 - o.1) * (b.2 - o.2) - (a.2 - o.2) * (b.1 - o.1)

theorem cross_rotate (a b c : 𝕜 × 𝕜) : cross b c a = cross a b c := by
  rw [cross, cross]
  ring

theorem cross_self_left (o b : 𝕜 × 𝕜) : cross o o b = 0 := by
  rw [cross]
  ring

theorem cross_self_right (o a : 𝕜 × 𝕜) : cross o a o = 0 := by
  rw [cross]
  ring

theorem cross_self (o a : 𝕜 × 𝕜) : cross o a a = 0 := by
  rw [cross]
  ring

theorem ne_of_cross_ne_zero {o a b : 𝕜 × 𝕜} (h : cross o a b ≠ 0) : a ≠ o ∧ b ≠ o := by
  constructor
  · rintro rfl
    exact h (cross_self_left a b)
  · rintro rfl
    exact h (cross_self_right b a)

/-- A triangle from its areas as seen from `o`. -/
theorem cross_eq_add (o a b c : 𝕜 × 𝕜) : cross a b c = cross o a b + cross o b c - cross o a c := by
  simp only [cross]
  ring

theorem cross_mul_cross (o a b c d : 𝕜 × 𝕜) :
    cross o a c * cross o b d = cross o a b * cross o c d + cross o a d * cross o b c := by
  simp only [cross]
  ring

/-- The square of the distance. -/
def sqDist (o a : 𝕜 × 𝕜) : 𝕜 := (a.1 - o.1) * (a.1 - o.1) + (a.2 - o.2) * (a.2 - o.2)

end

variable [Field 𝕜] [LinearOrder 𝕜] {o a b c x : 𝕜 × 𝕜}

section

variable [IsStrictOrderedRing 𝕜]

/-- Left turns at two neighbouring triples of four points that are sorted around `o`. -/
theorem leftTurn_trans (hxa : 0 < cross o x a) (hab : 0 < cross o a b) (hbc : 0 < cross o b c)
    (hxb : 0 < cross o x b)
    (hac : 0 < cross o a c) (hleft : 0 < cross x a b) (hright : 0 < cross a b c) :
    0 < cross x a c ∧ 0 < cross x b c := by
  rw [cross_eq_add o x a b] at hleft
  rw [cross_eq_add o a b c] at hright
  rw [cross_eq_add o x a c, cross_eq_add o x b c]
  have hproduct := cross_mul_cross o x a b c
  constructor
  · refine pos_of_mul_pos_left ?_ hab.le
    have hsum := add_pos (mul_pos hxa hright) (mul_pos hac hleft)
    refine hsum.trans_eq ?_
    linear_combination - hproduct
  · refine pos_of_mul_pos_left ?_ hab.le
    have hsum := add_pos (mul_pos hbc hleft) (mul_pos hxb hright)
    refine hsum.trans_eq ?_
    linear_combination - hproduct

theorem sqDist_nonneg (o a : 𝕜 × 𝕜) : 0 ≤ sqDist o a := add_nonneg (mul_self_nonneg _) (mul_self_nonneg _)

theorem sqDist_eq_zero : sqDist o a = 0 ↔ a = o := by
  rw [sqDist, mul_self_add_mul_self_eq_zero, sub_eq_zero, sub_eq_zero, Prod.ext_iff]

theorem eq_of_sqDist_le (h : sqDist o a ≤ sqDist o o) : a = o := by
  rw [sqDist_eq_zero.mpr rfl] at h
  exact sqDist_eq_zero.mp (le_antisymm h (sqDist_nonneg o a))

end

/-! ### The order around the lowest point -/

/-- The point is above the pivot, or to the right of it at the same height. -/
def Above (o a : 𝕜 × 𝕜) : Prop := o.2 < a.2 ∨ (o.2 = a.2 ∧ o.1 ≤ a.1)

/-- The smaller angle around the pivot comes first, and the nearer point at the same angle. -/
def Before (o a b : 𝕜 × 𝕜) : Prop := 0 < cross o a b ∨ (cross o a b = 0 ∧ sqDist o a ≤ sqDist o b)

theorem Before.cross_nonneg (h : Before o a b) : 0 ≤ cross o a b := by
  rcases h with h | ⟨h, -⟩
  · exact h.le
  · exact h.ge

section

variable [IsStrictOrderedRing 𝕜]

theorem before_self_left (o a : 𝕜 × 𝕜) : Before o o a := by
  refine .inr ⟨cross_self_left o a, ?_⟩
  rw [sqDist_eq_zero.mpr rfl]
  exact sqDist_nonneg o a

/-- Only the pivot itself comes before the pivot. -/
theorem Before.eq_pivot (h : Before o a o) : a = o := by
  rcases h with h | ⟨-, h⟩
  · exact absurd (cross_self_right o a) h.ne'
  · exact eq_of_sqDist_le h

theorem Above.height_nonneg (h : Above o a) : 0 ≤ a.2 - o.2 := by
  rcases h with hlt | ⟨heq, -⟩
  · exact (sub_pos.mpr hlt).le
  · exact (sub_eq_zero.mpr heq.symm).ge

theorem Above.strict (h : Above o a) (hne : a ≠ o) : 0 < a.2 - o.2 ∨ (a.2 - o.2 = 0 ∧ 0 < a.1 - o.1) := by
  rcases h with hlt | ⟨heq, hle⟩
  · exact .inl (sub_pos.mpr hlt)
  · refine .inr ⟨sub_eq_zero.mpr heq.symm, sub_pos.mpr (lt_of_le_of_ne hle fun h => hne ?_)⟩
    exact Prod.ext h.symm heq.symm

/-- The angles of the points above the pivot are ordered: their turns do not close up. -/
theorem cross_nonneg_trans (ha : Above o a) (hb : Above o b) (hc : Above o c) (hao : a ≠ o)
    (hbo : b ≠ o) (hco : c ≠ o) (hab : 0 ≤ cross o a b) (hbc : 0 ≤ cross o b c) :
    0 ≤ cross o a c ∧ (cross o a c = 0 → cross o a b = 0 ∧ cross o b c = 0) := by
  have hheight : (b.2 - o.2) * cross o a c = (a.2 - o.2) * cross o b c + (c.2 - o.2) * cross o a b := by
    simp only [cross]
    ring
  have hleft : 0 ≤ (a.2 - o.2) * cross o b c := mul_nonneg ha.height_nonneg hbc
  have hright : 0 ≤ (c.2 - o.2) * cross o a b := mul_nonneg hc.height_nonneg hab
  rcases hb.strict hbo with hbpos | ⟨hbzero, hbpos⟩
  · have hcpos : 0 < c.2 - o.2 := by
      rcases hc.strict hco with hcpos | ⟨hczero, hcpos⟩
      · exact hcpos
      · rw [cross, hczero, mul_zero, zero_sub, Left.nonneg_neg_iff] at hbc
        exact absurd (mul_pos hbpos hcpos) (not_lt.mpr hbc)
    refine ⟨nonneg_of_mul_nonneg_right (hheight ▸ add_nonneg hleft hright) hbpos, fun hzero => ?_⟩
    rw [hzero, mul_zero, eq_comm, add_eq_zero_iff_of_nonneg hleft hright] at hheight
    have hab' : cross o a b = 0 := (mul_eq_zero.mp hheight.2).resolve_left hcpos.ne'
    refine ⟨hab', (mul_eq_zero.mp hheight.1).resolve_left fun hazero => ?_⟩
    rcases ha.strict hao with hapos | ⟨-, hapos⟩
    · exact hapos.ne' hazero
    · rw [cross, hazero, zero_mul, sub_zero] at hab'
      exact (mul_pos hapos hbpos).ne' hab'
  · -- then `a` is to the right of the pivot as well
    have hazero : a.2 - o.2 = 0 := by
      rw [cross, hbzero, mul_zero, zero_sub, Left.nonneg_neg_iff] at hab
      exact le_antisymm (nonpos_of_mul_nonpos_left hab hbpos) ha.height_nonneg
    have hapos : 0 < a.1 - o.1 := by
      rcases ha.strict hao with hapos | ⟨-, hapos⟩
      · exact absurd hazero hapos.ne'
      · exact hapos
    have hac : cross o a c = (a.1 - o.1) * (c.2 - o.2) := by rw [cross, hazero, zero_mul, sub_zero]
    rw [hac]
    refine ⟨mul_nonneg hapos.le hc.height_nonneg, fun hzero => ?_⟩
    have hczero := (mul_eq_zero.mp hzero).resolve_left hapos.ne'
    rw [cross, cross, hazero, hbzero, hczero]
    simp

theorem cross_pos_trans (ha : Above o a) (hb : Above o b) (hc : Above o c) (hab : 0 < cross o a b)
    (hbc : 0 < cross o b c) : 0 < cross o a c := by
  obtain ⟨hao, hbo⟩ := ne_of_cross_ne_zero hab.ne'
  obtain ⟨-, hco⟩ := ne_of_cross_ne_zero hbc.ne'
  obtain ⟨hnonneg, hzero⟩ := cross_nonneg_trans ha hb hc hao hbo hco hab.le hbc.le
  exact lt_of_le_of_ne hnonneg fun h => hab.ne' (hzero h.symm).1

theorem Before.trans (ha : Above o a) (hb : Above o b) (hc : Above o c) (hab : Before o a b)
    (hbc : Before o b c) : Before o a c := by
  by_cases hao : a = o
  · rw [hao]
    exact before_self_left o c
  · have hbo : b ≠ o := fun h => hao (h ▸ hab).eq_pivot
    have hco : c ≠ o := fun h => hbo (h ▸ hbc).eq_pivot
    obtain ⟨hnonneg, hzero⟩ := cross_nonneg_trans ha hb hc hao hbo hco hab.cross_nonneg hbc.cross_nonneg
    rcases hnonneg.lt_or_eq with hpos | heq
    · exact .inl hpos
    · obtain ⟨hab', hbc'⟩ := hzero heq.symm
      refine .inr ⟨heq.symm, ?_⟩
      rcases hab with hpos | ⟨-, hle⟩
      · exact absurd hab' hpos.ne'
      · rcases hbc with hpos | ⟨-, hle'⟩
        · exact absurd hbc' hpos.ne'
        · exact hle.trans hle'

/-- A point on the way to one that is farther away at the same angle. -/
theorem exists_smul_of_before (hb : Above o b) (hc : Above o c) (hcross : cross o b c = 0)
    (hle : sqDist o b ≤ sqDist o c) :
    ∃ t, 0 ≤ t ∧ t ≤ 1 ∧ b.1 - o.1 = t * (c.1 - o.1) ∧ b.2 - o.2 = t * (c.2 - o.2) := by
  by_cases hco : c = o
  · subst hco
    obtain rfl := eq_of_sqDist_le hle
    exact ⟨0, le_rfl, zero_le_one, by simp, by simp⟩
  · rw [cross, sub_eq_zero] at hcross
    obtain ⟨t, ht, hx, hy⟩ : ∃ t, 0 ≤ t ∧ b.1 - o.1 = t * (c.1 - o.1) ∧ b.2 - o.2 = t * (c.2 - o.2) := by
      rcases hc.strict hco with hcpos | ⟨hczero, hcpos⟩
      · refine ⟨(b.2 - o.2) / (c.2 - o.2), div_nonneg hb.height_nonneg hcpos.le, ?_, ?_⟩
        · rw [div_mul_eq_mul_div, eq_div_iff hcpos.ne', hcross]
        · rw [div_mul_cancel₀ _ hcpos.ne']
      · rw [hczero, mul_zero, eq_comm, mul_eq_zero] at hcross
        have hbzero : b.2 - o.2 = 0 := hcross.resolve_right hcpos.ne'
        refine ⟨(b.1 - o.1) / (c.1 - o.1), div_nonneg ?_ hcpos.le, ?_, ?_⟩
        · rcases hb with hlt | ⟨-, hle⟩
          · exact absurd hbzero (sub_pos.mpr hlt).ne'
          · exact sub_nonneg.mpr hle
        · rw [div_mul_cancel₀ _ hcpos.ne']
        · rw [hbzero, hczero, mul_zero]
    refine ⟨t, ht, ?_, hx, hy⟩
    by_contra hlt
    have hpos : 0 < sqDist o c := lt_of_le_of_ne (sqDist_nonneg o c) fun h => hco (sqDist_eq_zero.mp h.symm)
    have hsq : sqDist o b = t * t * sqDist o c := by
      rw [sqDist, hx, hy, sqDist]
      ring
    have hgrows : 1 < t * t := one_lt_mul_of_lt_of_le (not_le.mp hlt) (not_le.mp hlt).le
    rw [hsq] at hle
    exact absurd hle (not_le.mpr (lt_mul_of_one_lt_left hpos hgrows))

/-! ### Points inside of a triangle or on a side -/

theorem mem_segment_of_before (hb : Above o b) (hc : Above o c) (hcross : cross o b c = 0)
    (hle : sqDist o b ≤ sqDist o c) : b ∈ segment 𝕜 o c := by
  obtain ⟨t, hzero, hone, hx, hy⟩ := exists_smul_of_before hb hc hcross hle
  refine ⟨1 - t, t, sub_nonneg.mpr hone, hzero, sub_add_cancel 1 t, Prod.ext ?_ ?_⟩
  · rw [Prod.fst_add, Prod.smul_fst, Prod.smul_fst, smul_eq_mul, smul_eq_mul]
    linear_combination -hx
  · rw [Prod.snd_add, Prod.smul_snd, Prod.smul_snd, smul_eq_mul, smul_eq_mul]
    linear_combination -hy

/-- A point between two sides of a triangle that is not beyond the third one. -/
theorem mem_convexHull_of_turns (hab : 0 < cross o a b) (hbc : 0 ≤ cross o b c) (hturn : cross a b c ≤ 0)
    {s : Set (𝕜 × 𝕜)} (ho : o ∈ s) (ha : a ∈ s) (hc : c ∈ s) : b ∈ convexHull 𝕜 s := by
  have hpos : 0 < -cross a b c + cross o b c + cross o a b := by linarith
  have hweight : ∀ i : Fin 3, 0 ≤ ![-cross a b c, cross o b c, cross o a b] i := by
    intro i
    fin_cases i
    · exact neg_nonneg.mpr hturn
    · exact hbc
    · exact hab.le
  have hmem : ∀ i : Fin 3, ![o, a, c] i ∈ s := by
    intro i
    fin_cases i <;> assumption
  have hcenter := Finset.univ.centerMass_mem_convexHull (fun i _ => hweight i)
    (by simpa [Fin.sum_univ_three] using hpos) fun i _ => hmem i
  simp only [Finset.centerMass, Fin.sum_univ_three, Matrix.cons_val_zero, Matrix.cons_val_one,
    Matrix.cons_val] at hcenter
  have hb : (-cross a b c + cross o b c + cross o a b)⁻¹ •
      (-cross a b c • o + cross o b c • a + cross o a b • c) = b := by
    rw [inv_smul_eq_iff₀ hpos.ne']
    refine Prod.ext ?_ ?_
    · simp only [Prod.fst_add, Prod.smul_fst, smul_eq_mul, cross]
      ring
    · simp only [Prod.snd_add, Prod.smul_snd, smul_eq_mul, cross]
      ring
  rwa [hb] at hcenter

end

/-! ### Extreme points -/

/-- A point where a linear function is smaller than at all other points of the set is an extreme
    point of their hull. -/
theorem mem_extremePoints_of_lt [IsStrictOrderedRing 𝕜] {E : Type v} [AddCommGroup E] [Module 𝕜 E]
    {s : Set E} {p : E} (hp : p ∈ s) (f : E →ₗ[𝕜] 𝕜) (hf : ∀ q ∈ s, q ≠ p → f p < f q) :
      p ∈ (convexHull 𝕜 s).extremePoints 𝕜 := by
  -- the function is smaller at `p` than at all other points of the hull as well
  have hconvex : Convex 𝕜 {q | q ≠ p → f p < f q} := by
    refine convex_iff_forall_pos.mpr fun q hq r hr α β hα hβ hone hne => ?_
    have hsum : f (α • q + β • r) - f p = α * (f q - f p) + β * (f r - f p) := by
      rw [map_add, map_smul, map_smul, smul_eq_mul, smul_eq_mul]
      linear_combination f p * hone
    rw [← sub_pos, hsum]
    by_cases hrp : r = p
    · have hqp : q ≠ p := by
        rintro rfl
        exact hne (by rw [hrp, ← add_smul, hone, one_smul])
      rw [hrp, sub_self, mul_zero, add_zero]
      exact mul_pos hα (sub_pos.mpr (hq hqp))
    · refine add_pos_of_nonneg_of_pos (mul_nonneg hα.le (sub_nonneg.mpr ?_))
        (mul_pos hβ (sub_pos.mpr (hr hrp)))
      by_cases hqp : q = p
      · rw [hqp]
      · exact (hq hqp).le
  have hhull : convexHull 𝕜 s \ {p} = convexHull 𝕜 s ∩ {q | f p < f q} := by
    ext q
    refine and_congr_right fun hq => ⟨convexHull_min hf hconvex hq, ?_⟩
    rintro hlt rfl
    exact lt_irrefl _ hlt
  rw [(convex_convexHull 𝕜 s).mem_extremePoints_iff_convex_sdiff, hhull]
  exact ⟨subset_convexHull 𝕜 s hp, (convex_convexHull 𝕜 s).inter (convex_halfSpace_gt f.isLinear (f p))⟩

/-! ### Convex position -/

theorem exists_cons_cons {α : Type u} {l : List α} (h : 2 ≤ l.length) : ∃ a b rest, l = a :: b :: rest := by
  obtain ⟨a, tail, rfl⟩ := exists_cons_of_length_pos (Nat.zero_lt_of_lt h)
  obtain ⟨b, rest, rfl⟩ := exists_cons_of_length_pos (Nat.lt_of_succ_lt_succ h)
  exact ⟨a, b, rest, rfl⟩

/-- All triples of the list make a left turn. -/
def Ccw (l : List (𝕜 × 𝕜)) : Prop := l.Triplewise fun a b c => 0 < cross a b c

namespace Ccw

variable {l l₁ l₂ : List (𝕜 × 𝕜)}

/-- The list may start at any of its points. -/
theorem swap (h : Ccw (l₁ ++ l₂)) : Ccw (l₂ ++ l₁) := by
  obtain ⟨h₁, h₂, hfirst, hlast⟩ := triplewise_append.mp h
  refine triplewise_append.mpr ⟨h₂, h₁, fun b hb => ?_, fun a ha => ?_⟩
  · refine (hlast b hb).imp fun hpos => ?_
    rwa [cross_rotate] at hpos
  · refine (hfirst a ha).imp fun hpos => ?_
    rwa [cross_rotate]

theorem nodup (h : Ccw l) (hlength : 3 ≤ l.length) : l.Nodup := by
  have hne : ∀ {a b c : 𝕜 × 𝕜}, 0 < cross a b c → a ≠ b ∧ a ≠ c ∧ b ≠ c := by
    intro a b c hpos
    refine ⟨fun heq => (ne_of_cross_ne_zero hpos.ne').1 heq.symm,
      fun heq => (ne_of_cross_ne_zero hpos.ne').2 heq.symm, ?_⟩
    rw [← cross_rotate] at hpos
    exact fun heq => (ne_of_cross_ne_zero hpos.ne').1 heq.symm
  obtain ⟨a, b, rest, rfl⟩ := exists_cons_cons (by omega : 2 ≤ l.length)
  obtain ⟨c, rest, rfl⟩ :=
    exists_cons_of_length_pos (Nat.lt_of_succ_lt_succ (Nat.lt_of_succ_lt_succ hlength))
  obtain ⟨hfirst, -⟩ := triplewise_cons.mp h
  refine nodup_cons.mpr ⟨fun hmem => ?_, hfirst.imp fun hpos => (hne hpos).2.2⟩
  obtain ⟨hsecond, -⟩ := pairwise_cons.mp hfirst
  rcases mem_cons.mp hmem with rfl | hmem
  · exact (hne (hsecond c mem_cons_self)).1 rfl
  · exact (hne (hsecond a hmem)).2.1 rfl

variable [IsStrictOrderedRing 𝕜]

/-- The first point is an extreme point: the others are to the left of the sides that meet there. -/
theorem head_mem_extremePoints {p : 𝕜 × 𝕜} (h : Ccw (p :: l)) (hlength : 2 ≤ l.length) {s : Set (𝕜 × 𝕜)}
    (hs : ∀ q, q ∈ s ↔ q ∈ p :: l) : p ∈ (convexHull 𝕜 s).extremePoints 𝕜 := by
  obtain ⟨next, middle, last, rfl⟩ : ∃ next middle last, l = next :: (middle ++ [last]) := by
    obtain ⟨next, second, rest, rfl⟩ := exists_cons_cons hlength
    have hne : second :: rest ≠ [] := cons_ne_nil second rest
    exact ⟨next, (second :: rest).dropLast, (second :: rest).getLast hne, by rw [dropLast_append_getLast]⟩
  obtain ⟨hfirst, -⟩ := triplewise_cons.mp h
  obtain ⟨hnext, hrest⟩ := pairwise_cons.mp hfirst
  obtain ⟨-, -, hlast⟩ := pairwise_append.mp hrest
  have hlast' : ∀ q ∈ middle, 0 < cross p q last := fun q hq => hlast q hq last mem_cons_self
  have hsides : 0 < cross p next last := hnext last (by simp)
  let f : 𝕜 × 𝕜 →ₗ[𝕜] 𝕜 :=
    (next.1 - last.1) • LinearMap.snd 𝕜 𝕜 𝕜 - (next.2 - last.2) • LinearMap.fst 𝕜 𝕜 𝕜
  have hf : ∀ q, f q - f p = cross p next q + cross p q last := by
    intro q
    simp only [f, LinearMap.sub_apply, LinearMap.smul_apply, LinearMap.snd_apply,
      LinearMap.fst_apply, smul_eq_mul, cross]
    ring
  refine mem_extremePoints_of_lt ((hs p).mpr mem_cons_self) f fun q hq hne => ?_
  rw [← sub_pos, hf q]
  rcases mem_cons.mp ((hs q).mp hq) with heq | hq
  · exact absurd heq hne
  · rcases mem_cons.mp hq with rfl | hq
    · rw [cross_self, zero_add]
      exact hsides
    · rcases mem_append.mp hq with hq | hq
      · exact add_pos (hnext q (mem_append_left _ hq)) (hlast' q hq)
      · rw [mem_singleton.mp hq, cross_self, add_zero]
        exact hsides

/-- The points of the list are the extreme points of their hull. -/
theorem extremePoints_eq (h : Ccw l) (hlength : 3 ≤ l.length) :
    (convexHull 𝕜 {p | p ∈ l}).extremePoints 𝕜 = {p | p ∈ l} := by
  refine Set.Subset.antisymm extremePoints_convexHull_subset fun p hp => ?_
  obtain ⟨l₁, l₂, rfl⟩ := append_of_mem hp
  have hrotated : Ccw (p :: (l₂ ++ l₁)) := h.swap
  refine hrotated.head_mem_extremePoints ?_ fun q => ?_
  · simp only [length_append, length_cons] at hlength ⊢
    omega
  · simp only [Set.mem_ofPred_eq, mem_append, mem_cons]
    tauto

end Ccw

theorem left_mem_extremePoints_pair [IsStrictOrderedRing 𝕜] (hne : a ≠ b) :
    a ∈ (convexHull 𝕜 {a, b}).extremePoints 𝕜 := by
  let f : 𝕜 × 𝕜 →ₗ[𝕜] 𝕜 := (b.1 - a.1) • LinearMap.fst 𝕜 𝕜 𝕜 + (b.2 - a.2) • LinearMap.snd 𝕜 𝕜 𝕜
  refine mem_extremePoints_of_lt (Set.mem_insert a {b}) f fun q hq hqa => ?_
  obtain rfl : q = b := hq.resolve_left hqa
  have hf : f q - f a = sqDist a q := by
    simp only [f, LinearMap.add_apply, LinearMap.smul_apply, LinearMap.snd_apply,
      LinearMap.fst_apply, smul_eq_mul, sqDist]
    ring
  rw [← sub_pos, hf]
  exact lt_of_le_of_ne (sqDist_nonneg a q) fun hzero => hqa (sqDist_eq_zero.mp hzero.symm)

theorem extremePoints_convexHull_pair [IsStrictOrderedRing 𝕜] (hne : a ≠ b) :
    (convexHull 𝕜 {a, b}).extremePoints 𝕜 = {a, b} := by
  refine Set.Subset.antisymm extremePoints_convexHull_subset fun q hq => ?_
  rcases hq with rfl | hq
  · exact left_mem_extremePoints_pair hne
  · rw [Set.mem_singleton_iff.mp hq, Set.pair_comm]
    exact left_mem_extremePoints_pair hne.symm

/-! ### The stack of the scan -/

/-- A stack, its top first, that stands on the pivot and has left turns only. -/
structure ScanStack (o : 𝕜 × 𝕜) (stack : List (𝕜 × 𝕜)) : Prop where
  bottom : ∃ upper, stack = upper ++ [o]
  turns : stack.Triplewise fun c b a => 0 < cross a b c

namespace ScanStack

variable {stack low : List (𝕜 × 𝕜)}

theorem start : ScanStack o [o] := ⟨⟨[], rfl⟩, triplewise_singleton _ _⟩

theorem ccw (h : ScanStack o stack) : Ccw stack.reverse := triplewise_reverse.mpr h.turns

theorem pop (h : ScanStack o (b :: a :: low)) : ScanStack o (a :: low) := by
  obtain ⟨upper, hupper⟩ := h.bottom
  refine ⟨?_, (triplewise_cons.mp h.turns).2⟩
  cases upper with
  | nil => exact absurd (congrArg List.length hupper) (by simp)
  | cons x upper => exact ⟨upper, (cons.inj hupper).2⟩

/-- The points between the top of the stack and the pivot. -/
theorem cases (h : ScanStack o (b :: a :: low)) : (a = o ∧ low = []) ∨ ∃ low', low = low' ++ [o] := by
  obtain ⟨upper, hupper⟩ := h.pop.bottom
  cases upper with
  | nil =>
    obtain ⟨rfl, rfl⟩ := cons.inj hupper
    exact .inl ⟨rfl, rfl⟩
  | cons x upper => exact .inr ⟨upper, (cons.inj hupper).2⟩

variable [IsStrictOrderedRing 𝕜]

/-- What is popped lies in the hull of what is left and the new point. -/
theorem popped_mem (h : ScanStack o (b :: a :: low)) (hb : Above o b) (hc : Above o c) (hbc : Before o b c)
    (hturn : cross a b c ≤ 0) : b ∈ convexHull 𝕜 {p | p ∈ c :: a :: low} := by
  have hcmem : c ∈ {p | p ∈ c :: a :: low} := mem_cons_self
  have hamem : a ∈ {p | p ∈ c :: a :: low} := mem_cons_of_mem c mem_cons_self
  rcases h.cases with ⟨rfl, rfl⟩ | ⟨low', rfl⟩
  · rcases hbc with hpos | ⟨hzero, hle⟩
    · exact absurd hturn (not_le.mpr hpos)
    · exact segment_subset_convexHull hamem hcmem (mem_segment_of_before hb hc hzero hle)
  · obtain ⟨hfirst, -⟩ := triplewise_cons.mp h.turns
    have hab : 0 < cross o a b := (pairwise_cons.mp hfirst).1 o (by simp)
    exact mem_convexHull_of_turns hab hbc.cross_nonneg hturn (by simp) hamem hcmem

/-- Beyond the point at the top, the new point has a larger angle than it: otherwise it would be no
    left turn. -/
theorem cross_pos_of_turn (hb : Above o b) (hc : Above o c) (hac : Before o a c) (hbc : Before o b c)
    (hturn : 0 < cross a b c) : 0 < cross o b c := by
  rcases hbc with hpos | ⟨hzero, hle⟩
  · exact hpos
  · obtain ⟨t, -, hone, hx, hy⟩ := exists_smul_of_before hb hc hzero hle
    have hscaled : cross o a b = t * cross o a c := by
      rw [cross, cross, hx, hy]
      ring
    have hshorter : cross o a b ≤ cross o a c := by
      rw [hscaled]
      exact mul_le_of_le_one_left hac.cross_nonneg hone
    rw [cross_eq_add o, hzero, add_zero, sub_pos] at hturn
    exact absurd hturn (not_lt.mpr hshorter)

/-- A left turn at the top of the stack is one with every two points of it. -/
theorem push (h : ScanStack o (b :: a :: low)) (habove : ∀ p ∈ b :: a :: low, Above o p) (hc : Above o c)
    (hbefore : ∀ p ∈ b :: a :: low, Before o p c) (hturn : 0 < cross a b c) :
      ScanStack o (c :: b :: a :: low) := by
  obtain ⟨upper, hupper⟩ := h.bottom
  refine ⟨⟨c :: upper, by rw [hupper, cons_append]⟩, triplewise_cons.mpr ⟨?_, h.turns⟩⟩
  rcases h.cases with ⟨rfl, rfl⟩ | ⟨low', rfl⟩
  · exact pairwise_pair.mpr hturn
  · -- `mid` are the points between the top and the pivot, seen from the pivot and from the top
    obtain ⟨mid, hmid⟩ : ∃ mid, mid = a :: low' := ⟨_, rfl⟩
    have hstack : a :: (low' ++ [o]) = mid ++ [o] := by rw [hmid, cons_append]
    have hturns := h.turns
    rw [hstack] at hturns habove hbefore ⊢
    obtain ⟨hfirst, hrest⟩ := triplewise_cons.mp hturns
    obtain ⟨hpairs, -, hpivot⟩ := pairwise_append.mp hfirst
    obtain ⟨-, -, -, hsorted⟩ := triplewise_append.mp hrest
    have hyb : ∀ y ∈ mid, 0 < cross o y b := fun y hy => hpivot y hy o mem_cons_self
    have hyx : mid.Pairwise fun y x => 0 < cross o x y := hsorted o mem_cons_self
    have hamid : a ∈ mid := hmid ▸ mem_cons_self
    have hmem : ∀ y ∈ mid, y ∈ b :: (mid ++ [o]) := fun y hy => mem_cons_of_mem b (mem_append_left [o] hy)
    have hb : Above o b := habove b mem_cons_self
    have hbc : 0 < cross o b c :=
      cross_pos_of_turn hb hc (hbefore a (hmem a hamid)) (hbefore b mem_cons_self) hturn
    have hyc : ∀ y ∈ mid, 0 < cross o y c := fun y hy =>
      cross_pos_trans (habove y (hmem y hy)) hb hc (hyb y hy) hbc
    have hybc : ∀ y ∈ mid, 0 < cross y b c := by
      intro y hy
      rw [hmid] at hy hyx hpairs
      rcases mem_cons.mp hy with rfl | hy'
      · exact hturn
      · have hya := (pairwise_cons.mp hyx).1 y hy'
        have hyab := (pairwise_cons.mp hpairs).1 y hy'
        exact (leftTurn_trans hya (hyb a hamid) hbc (hyb y (hmid ▸ hy)) (hyc a hamid) hyab hturn).2
    have hxyc : mid.Pairwise fun y x => 0 < cross x y c := by
      refine (hyx.and hpairs).imp_of_mem fun {y x} hy hx hyx => ?_
      exact (leftTurn_trans hyx.1 (hyb y hy) hbc (hyb x hx) (hyc y hy) hyx.2 (hybc y hy)).1
    refine pairwise_cons.mpr ⟨fun y hy => ?_, pairwise_append.mpr ⟨hxyc, pairwise_singleton _ _, ?_⟩⟩
    · rcases mem_append.mp hy with hy | hy
      · exact hybc y hy
      · rw [mem_singleton.mp hy]
        exact hbc
    · intro y hy p hp
      rw [mem_singleton.mp hp]
      exact hyc y hy

/-- The points of the stack are the extreme points of their hull. -/
theorem extremePoints_eq (h : ScanStack o (b :: a :: low)) (hne : b ≠ o) :
    (b :: a :: low).Nodup ∧
      (convexHull 𝕜 {p | p ∈ b :: a :: low}).extremePoints 𝕜 = {p | p ∈ b :: a :: low} := by
  rcases h.cases with ⟨rfl, rfl⟩ | ⟨low', rfl⟩
  · refine ⟨nodup_cons.mpr ⟨fun hmem => hne (mem_singleton.mp hmem), nodup_singleton a⟩, ?_⟩
    have hpair : {p | p ∈ [b, a]} = ({b, a} : Set (𝕜 × 𝕜)) := by
      ext p
      simp
    rw [hpair, extremePoints_convexHull_pair hne]
  · have hlength : 3 ≤ (b :: a :: (low' ++ [o])).reverse.length := by simp
    have hset : {p | p ∈ (b :: a :: (low' ++ [o])).reverse} = {p | p ∈ b :: a :: (low' ++ [o])} := by
      ext p
      exact mem_reverse
    refine ⟨nodup_reverse.mp (h.ccw.nodup hlength), ?_⟩
    rw [← hset, h.ccw.extremePoints_eq hlength]

end ScanStack

end NsuLabs.Lib
