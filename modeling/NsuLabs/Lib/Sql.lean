/-
Module: NsuLabs.Lib.Sql
Purpose: Conditions over nullable values and statements that may be rejected, as SQL has them, and exclusion
  constraints over a family of tables: no two different rows, of one table or of two, clash.
Trusted boundary: the definitions
Main exports: Truth.and, Truth.or, Free.keep, Free.replace
-/
import Mathlib

namespace NsuLabs.Lib.Sql

universe u

variable {α : Type u}

/-- A truth value of SQL; `none` is unknown. -/
abbrev Truth := Option Bool

def Truth.and : Truth → Truth → Truth
  | some false, _ | _, some false => some false
  | some true, some true => some true
  | _, _ => none

def Truth.or : Truth → Truth → Truth
  | some true, _ | _, some true => some true
  | some false, some false => some false
  | _, _ => none

/-- A comparison is unknown if one of its sides is `NULL`. -/
def compare (rel : α → α → Bool) : Option α → Option α → Truth
  | some a, some b => some (rel a b)
  | _, _ => none

def isNull (x : Option α) : Truth := some x.isNone

/-- What a `WHERE` or an `IF` asks for. -/
def Truth.Holds (t : Truth) : Prop := t = some true

/-- What a `CHECK` asks for. -/
def Truth.Passes (t : Truth) : Prop := t ≠ some false

instance (t : Truth) : Decidable t.Holds := inferInstanceAs (Decidable (t = some true))

instance (t : Truth) : Decidable t.Passes := inferInstanceAs (Decidable (t ≠ some false))

@[simp] theorem holds_and (s t : Truth) : (s.and t).Holds ↔ s.Holds ∧ t.Holds := by
  rcases s with - | - | - <;> rcases t with - | - | - <;> decide

@[simp] theorem holds_or (s t : Truth) : (s.or t).Holds ↔ s.Holds ∨ t.Holds := by
  rcases s with - | - | - <;> rcases t with - | - | - <;> decide

@[simp] theorem holds_compare_some (rel : α → α → Bool) (a b : α) :
    (compare rel (some a) (some b)).Holds ↔ rel a b = true :=
  Option.some_inj

@[simp] theorem holds_isNull (x : Option α) : (isNull x).Holds ↔ x = none := by
  cases x with
  | none => exact iff_of_true rfl rfl
  | some a => exact iff_of_false nofun nofun

/-! ### Statements that may be rejected -/

variable {σ ε β : Type}

/-- A rejected statement has no effect. -/
def attempt (result : Except ε σ) (s : σ) : σ :=
  match result with
  | .ok s' => s'
  | .error _ => s

theorem attempt_keeps {result : Except ε σ} {s : σ} {P : σ → Prop} (hs : P s)
    (h : ∀ s', result = .ok s' → P s') : P (attempt result s) := by
  cases result with
  | ok s' => exact h s' rfl
  | error e => exact hs

theorem bind_ok {x : Except ε σ} {f : σ → Except ε β} {b : β} (h : (x >>= f) = .ok b) :
    ∃ a, x = .ok a ∧ f a = .ok b := by
  cases x with
  | error e => cases h
  | ok a => exact ⟨a, rfl, h⟩

/-- A row of checks raises nothing if none of them does. -/
theorem forM_ok_iff {f : σ → Except ε Unit} {xs : List σ} : forM xs f = .ok () ↔ ∀ a ∈ xs, f a = .ok () := by
  induction xs with
  | nil => exact iff_of_true rfl nofun
  | cons x xs ih =>
    rw [List.forM_cons, List.forall_mem_cons, ← ih]
    cases f x with
    | error e => exact iff_of_false nofun fun h => nomatch h.1
    | ok u => exact (and_iff_right rfl).symm

end NsuLabs.Lib.Sql

namespace NsuLabs.Lib

open Function List

universe u v

variable {τ : Type u} {ρ : Type v} {clash : τ → ρ → τ → ρ → Prop} {db : τ → List ρ}

/-- No two rows clash; the rows of one table are taken in pairs. -/
structure Free (clash : τ → ρ → τ → ρ → Prop) (db : τ → List ρ) : Prop where
  within : ∀ t, (db t).Pairwise fun r s => ¬ clash t r t s
  between : ∀ t t', t ≠ t' → ∀ r ∈ db t, ∀ s ∈ db t', ¬ clash t r t' s

/-- Rows are taken out. -/
theorem Free.keep {db' : τ → List ρ} (h : Free clash db) (hsub : ∀ t, (db' t).Sublist (db t)) :
    Free clash db' :=
  ⟨fun t => (h.within t).sublist (hsub t),
    fun t t' hne r hr s hs => h.between t t' hne r ((hsub t).subset hr) s ((hsub t').subset hs)⟩

/-- A row comes into a table of which the rows `others` stay. -/
theorem Free.replace [DecidableEq τ] (h : Free clash db)
    (hsymm : ∀ t r t' s, clash t r t' s → clash t' s t r) {t : τ}
    {others : List ρ} {row : ρ} (hsub : others.Sublist (db t)) (hown : ∀ s ∈ others, ¬ clash t row t s)
    (hrest : ∀ t', t' ≠ t → ∀ s ∈ db t', ¬ clash t row t' s) :
    Free clash (Function.update db t (others ++ [row])) := by
  constructor
  · intro t₁
    by_cases ht : t₁ = t
    · rw [ht, update_self]
      apply pairwise_append.mpr
      refine ⟨(h.within t).sublist hsub, pairwise_singleton _ row, ?_⟩
      intro s hs r hr hclash
      rw [mem_singleton.mp hr] at hclash
      exact hown s hs (hsymm _ _ _ _ hclash)
    · rw [update_of_ne ht]
      exact h.within t₁
  · intro t₁ t₂ hne r hr s hs hclash
    -- one of the two tables may be the one that has changed
    by_cases h₁ : t₁ = t
    · rw [h₁, update_self] at hr
      rw [update_of_ne (fun heq => hne (h₁.trans heq.symm))] at hs
      rcases mem_append.mp hr with hr | hr
      · exact h.between t₁ t₂ hne r (h₁ ▸ hsub.subset hr) s hs hclash
      · rw [mem_singleton.mp hr, h₁] at hclash
        exact hrest t₂ (fun heq => hne (h₁.trans heq.symm)) s hs hclash
    · rw [update_of_ne h₁] at hr
      by_cases h₂ : t₂ = t
      · rw [h₂, update_self] at hs
        rcases mem_append.mp hs with hs | hs
        · exact h.between t₁ t₂ hne r hr s (h₂ ▸ hsub.subset hs) hclash
        · rw [mem_singleton.mp hs, h₂] at hclash
          exact hrest t₁ h₁ r hr (hsymm _ _ _ _ hclash)
      · rw [update_of_ne h₂] at hs
        exact h.between t₁ t₂ hne r hr s hs hclash

/-- At most one row has a property that any two different rows exclude. -/
theorem countP_le_one {rows : List ρ} {apart : ρ → ρ → Prop} (h : rows.Pairwise apart) {p : ρ → Bool}
    (hp : ∀ r s, p r → p s → ¬ apart r s) : rows.countP p ≤ 1 := by
  induction rows with
  | nil => exact Nat.zero_le 1
  | cons r rows ih =>
    obtain ⟨hr, hrows⟩ := pairwise_cons.mp h
    by_cases hpr : p r
    · have hnone : rows.countP p = 0 := countP_eq_zero.mpr fun s hs hps => hp r s hpr hps (hr s hs)
      rw [countP_cons_of_pos hpr, hnone]
    · rw [countP_cons_of_neg hpr]
      exact ih hrows

end NsuLabs.Lib
