/-
Module: NsuLabs.Lib.Runs
Purpose: Runs of a system whose step takes an action and may be disabled, and conservation laws over them.
  Counting loops whose counter may wrap around, with `continue`, `break` and a body that may panic.
Trusted boundary: none
Main exports: run_invariant, run_balance, conserved_iff, Outcome, forLoop
-/
import Mathlib

namespace NsuLabs.Lib

section

open List Option
universe u v

variable {σ : Type u} {α : Type v}
  {step : σ → α → Option σ} {s s' : σ} {actions : List α} {admissible cond : σ → α → Prop} {inv P : σ → Prop}

/-- The state after the actions, or `none` if one of them is not enabled where it is taken. -/
def run (step : σ → α → Option σ) : σ → List α → Option σ
  | s, [] => some s
  | s, a :: actions => (step s a).bind fun s' => run step s' actions

/-- Every action of the run is admissible in the state it is taken in. -/
def EveryStep (step : σ → α → Option σ) (admissible : σ → α → Prop) : σ → List α → Prop
  | _, [] => True
  | s, a :: actions => admissible s a ∧ ∀ s', step s a = some s' → EveryStep step admissible s' actions

/-- The property holds in every state of the run. -/
def EveryState (step : σ → α → Option σ) (P : σ → Prop) : σ → List α → Prop
  | s, [] => P s
  | s, a :: actions => P s ∧ ∀ s', step s a = some s' → EveryState step P s' actions

theorem everyStep_cons {a : α} (h : step s a = some s') :
    EveryStep step admissible s (a :: actions) ↔ admissible s a ∧ EveryStep step admissible s' actions := by
  simp only [EveryStep, h, some.injEq, forall_eq']

/-- Whether a run is admissible can be found out by running it. -/
instance decidableEveryStep (step : σ → α → Option σ) (admissible : σ → α → Prop)
    [∀ s a, Decidable (admissible s a)] : (s : σ) → (actions : List α) →
      Decidable (EveryStep step admissible s actions)
  | _, [] => isTrue trivial
  | s, a :: actions =>
    match h : step s a with
    | none => decidable_of_iff (admissible s a)
      ⟨fun ha => ⟨ha, fun s' hs' => by rw [h] at hs'; cases hs'⟩, And.left⟩
    | some s1 =>
      have := decidableEveryStep step admissible s1 actions
      decidable_of_iff _ (everyStep_cons h).symm

theorem run_cons {a : α} (h : run step s (a :: actions) = some s') :
    ∃ s1, step s a = some s1 ∧ run step s1 actions = some s' :=
  bind_eq_some_iff.mp h

theorem run_append (actions actions' : List α) :
    run step s (actions ++ actions') = (run step s actions).bind fun s' => run step s' actions' := by
  induction actions generalizing s with
  | nil => rfl
  | cons a actions ih =>
    rw [cons_append, run, run, bind_assoc]
    exact congrArg _ (funext fun s' => ih)

/-- The invariant rule. -/
theorem run_invariant (hstep : ∀ s a s', inv s → admissible s a → step s a = some s' → inv s') (hs : inv s)
    (hadmissible : EveryStep step admissible s actions) (hrun : run step s actions = some s') :
    inv s' := by
  induction actions generalizing s with
  | nil =>
    cases hrun
    exact hs
  | cons a actions ih =>
    obtain ⟨s1, hfirst, hrest⟩ := run_cons hrun
    exact ih (hstep s a s1 hs hadmissible.1 hfirst) (hadmissible.2 s1 hfirst) hrest

theorem everyStep_of_forall (h : ∀ a ∈ actions, ∀ s, admissible s a) (s : σ) :
    EveryStep step admissible s actions := by
  induction actions generalizing s with
  | nil => trivial
  | cons a actions ih =>
    exact ⟨h a mem_cons_self s, fun s' _ => ih (fun b hb => h b (mem_cons_of_mem a hb)) s'⟩

/-- The invariant rule where every step is admissible. -/
theorem run_preserves (hstep : ∀ s a s', inv s → step s a = some s' → inv s') (hs : inv s)
    (hrun : run step s actions = some s') : inv s' := by
  have hall : EveryStep step (fun _ _ => True) s actions := everyStep_of_forall (fun _ _ _ => trivial) s
  exact run_invariant (fun s a s' hinv _ h => hstep s a s' hinv h) hs hall hrun

/-- The invariant rule where the invariant enables every step: no run gets stuck. -/
theorem run_total (hstep : ∀ s a, inv s → ∃ s', step s a = some s' ∧ inv s') (actions : List α)
    (hs : inv s) : ∃ s', run step s actions = some s' ∧ inv s' := by
  induction actions generalizing s with
  | nil => exact ⟨s, rfl, hs⟩
  | cons a actions ih =>
    obtain ⟨s1, hfirst, hs1⟩ := hstep s a hs
    obtain ⟨s', hrest, hs'⟩ := ih hs1
    exact ⟨s', by rw [run, hfirst, bind_some, hrest], hs'⟩

theorem EveryState.head (h : EveryState step P s actions) : P s := by
  cases actions with
  | nil => exact h
  | cons a actions => exact h.1

/-- A property that an admissible step keeps under a condition, and loses without it, holds
    throughout an admissible run if and only if all steps meet the condition. -/
theorem everyState_iff_everyStep (hinv : ∀ s a s', inv s → admissible s a → step s a = some s' → inv s')
    (hstep : ∀ s a s', inv s → P s → admissible s a → step s a = some s' → (P s' ↔ cond s a))
    (hs : inv s) (hP : P s)
    (hadmissible : EveryStep step admissible s actions) (hrun : run step s actions = some s') :
    EveryState step P s actions ↔ EveryStep step cond s actions := by
  induction actions generalizing s with
  | nil => exact ⟨fun _ => trivial, fun _ => hP⟩
  | cons a actions ih =>
    obtain ⟨s1, hfirst, hrest⟩ := run_cons hrun
    rw [everyStep_cons hfirst] at hadmissible
    obtain ⟨ha, hadmissible⟩ := hadmissible
    have hs1 := hinv s a s1 hs ha hfirst
    rw [everyStep_cons hfirst, ← hstep s a s1 hs hP ha hfirst]
    constructor
    · intro hall
      have hmore := hall.2 s1 hfirst
      exact ⟨hmore.head, (ih hs1 hmore.head hadmissible hrest).mp hmore⟩
    · rintro ⟨hkept, hmore⟩
      refine ⟨hP, fun s2 h2 => ?_⟩
      cases hfirst.symm.trans h2
      exact (ih hs1 hkept hadmissible hrest).mpr hmore

/-- Where an admissible step is enabled exactly under a condition, an admissible run gets to its end
    exactly if all steps meet the condition. -/
theorem exists_run_iff_everyStep (hinv : ∀ s a s', inv s → step s a = some s' → inv s')
    (henabled : ∀ s a, inv s → admissible s a → ((∃ s', step s a = some s') ↔ cond s a)) (hs : inv s)
    (hadmissible : EveryStep step admissible s actions) :
    (∃ s', run step s actions = some s') ↔ EveryStep step cond s actions := by
  induction actions generalizing s with
  | nil => exact ⟨fun _ => trivial, fun _ => ⟨s, rfl⟩⟩
  | cons a actions ih =>
    constructor
    · rintro ⟨s', hrun⟩
      obtain ⟨s1, hfirst, hrest⟩ := run_cons hrun
      rw [everyStep_cons hfirst] at hadmissible ⊢
      exact ⟨(henabled s a hs hadmissible.1).mp ⟨s1, hfirst⟩,
        (ih (hinv s a s1 hs hfirst) hadmissible.2).mp ⟨s', hrest⟩⟩
    · rintro ⟨hcond, hmore⟩
      obtain ⟨s1, hfirst⟩ := (henabled s a hs hadmissible.1).mpr hcond
      obtain ⟨s', hrest⟩ := (ih (hinv s a s1 hs hfirst) (hadmissible.2 s1 hfirst)).mpr (hmore s1 hfirst)
      exact ⟨s', by rw [run, hfirst, bind_some, hrest]⟩

/-- The simulation rule: a run that the other system has is matched step by step up to the first
    step that is not safe, where it gets stuck. -/
theorem run_simulation {τ : Type*} {step' : τ → α → Option τ} {R : σ → τ → Prop} {safe : τ → α → Prop}
    (hstep : ∀ s t a t', R s t → step' t a = some t' →
      (∃ s', step s a = some s' ∧ R s' t') ∧ safe t a ∨ step s a = none ∧ ¬ safe t a)
    {t t' : τ} (h : R s t) (hrun : run step' t actions = some t') :
    (∃ s', run step s actions = some s' ∧ R s' t') ∧ EveryStep step' safe t actions ∨
      run step s actions = none ∧ ¬ EveryStep step' safe t actions := by
  induction actions generalizing s t with
  | nil =>
    cases hrun
    exact .inl ⟨⟨s, rfl, h⟩, trivial⟩
  | cons a actions ih =>
    obtain ⟨t1, hfirst, hrest⟩ := run_cons hrun
    rw [everyStep_cons hfirst, run]
    rcases hstep s t a t1 h hfirst with ⟨⟨s1, hs1, h1⟩, hsafe⟩ | ⟨hstuck, hunsafe⟩
    · rw [hs1, bind_some]
      exact (ih h1 hrest).imp (And.imp_right fun hmore => ⟨hsafe, hmore⟩)
        (And.imp_right fun hmore hall => hmore hall.2)
    · rw [hstuck]
      exact .inr ⟨rfl, fun hall => hunsafe hall.1⟩

end

open List
universe u v w

variable {σ : Type u} {α : Type v} {M : Type w}
  {step : σ → α → Option σ} {lost : σ → α → M} {s s' : σ} {held made : σ → M} {actions : List α}

/-- What the steps of a run lose together. -/
def lostAlong [AddCommMonoid M] (step : σ → α → Option σ) (lost : σ → α → M) : σ → List α → M
  | _, [] => 0
  | s, a :: actions =>
    lost s a + match step s a with
      | some s' => lostAlong step lost s' actions
      | none => 0

theorem lostAlong_cons [AddCommMonoid M] {a : α} (h : step s a = some s') (actions : List α) :
    lostAlong step lost s (a :: actions) = lost s a + lostAlong step lost s' actions := by
  rw [lostAlong, h]

/-- Each step balances what is held, lost and made; so does the run. -/
theorem run_balance [AddCancelCommMonoid M]
    (hstep : ∀ s a s', step s a = some s' → held s' + lost s a + made s = held s + made s')
    (hrun : run step s actions = some s') :
    held s' + lostAlong step lost s actions + made s = held s + made s' := by
  induction actions generalizing s with
  | nil =>
    cases hrun
    rw [lostAlong, add_zero]
  | cons a actions ih =>
    obtain ⟨s1, hfirst, hrest⟩ := run_cons hrun
    rw [lostAlong_cons hfirst]
    have hone := hstep s a s1 hfirst
    have hmore := ih hrest
    -- what the first step leaves is on both sides
    apply add_right_cancel (b := held s1 + made s1)
    calc held s' + (lost s a + lostAlong step lost s1 actions) + made s + (held s1 + made s1)
        = (held s1 + lost s a + made s) + (held s' + lostAlong step lost s1 actions + made s1) := by abel
      _ = (held s + made s1) + (held s1 + made s') := by rw [hone, hmore]
      _ = held s + made s' + (held s1 + made s1) := by abel

theorem lostAlong_eq_zero_iff [AddCommMonoid M] [PartialOrder M] [CanonicallyOrderedAdd M]
    (hrun : run step s actions = some s') :
    lostAlong step lost s actions = 0 ↔ EveryStep step (fun s a => lost s a = 0) s actions := by
  induction actions generalizing s with
  | nil => exact ⟨fun _ => trivial, fun _ => rfl⟩
  | cons a actions ih =>
    obtain ⟨s1, hfirst, hrest⟩ := run_cons hrun
    rw [lostAlong_cons hfirst, add_eq_zero, ih hrest, everyStep_cons hfirst]

/-- A run that starts balanced ends balanced if and only if none of its steps loses anything. -/
theorem conserved_iff [AddCancelCommMonoid M] [PartialOrder M] [CanonicallyOrderedAdd M]
    (hstep : ∀ s a s', step s a = some s' → held s' + lost s a + made s = held s + made s')
    (hstart : held s = made s) (hrun : run step s actions = some s') :
    held s' = made s' ↔ EveryStep step (fun s a => lost s a = 0) s actions := by
  rw [← lostAlong_eq_zero_iff hrun]
  have hbalance : held s' + lostAlong step lost s actions = made s' := by
    have h := run_balance hstep hrun
    rw [hstart, add_comm (made s)] at h
    exact add_right_cancel h
  constructor
  · intro h
    rw [← h] at hbalance
    exact add_eq_left.mp hbalance
  · intro h
    rwa [h, add_zero] at hbalance

/-- One entry of a list changes, and the sum with it. -/
theorem sum_map_set [AddCommMonoid M] {β : Type v} (f : β → M) {xs : List β} {i : Nat} {x : β} (y : β)
    (h : xs[i]? = some x) : ((xs.set i y).map f).sum + f x = (xs.map f).sum + f y := by
  induction xs generalizing i with
  | nil => cases h
  | cons z xs ih =>
    cases i with
    | zero =>
      cases h
      rw [set_cons_zero, map_cons, map_cons, sum_cons, sum_cons]
      abel
    | succ i =>
      rw [set_cons_succ, map_cons, map_cons, sum_cons, sum_cons, add_assoc, ih h,
        add_assoc]

/-- A step that balances for one part of the system and what is shared balances for the whole:
    `held` and `made` are sums over all parts, `x` and `y` the entries of the part that changes. -/
theorem balance_of_part [AddCancelCommMonoid M] {held held' made made' x x' y y' shared shared' lost : M}
    (hheld : held' + x = held + x') (hmade : made' + y = made + y')
    (hpart : x' + shared' + lost + y = x + shared + y') :
    held' + shared' + lost + made = held + shared + made' := by
  apply add_right_cancel (b := x + y)
  calc held' + shared' + lost + made + (x + y)
      = (held' + x) + shared' + lost + y + made := by abel
    _ = held + (x' + shared' + lost + y) + made := by rw [hheld]; abel
    _ = held + x + shared + (made + y') := by rw [hpart]; abel
    _ = held + shared + made' + (x + y) := by rw [← hmade]; abel

/-- How a computation ends. -/
inductive Outcome (ε : Type u) (α : Type v) where
  | done (value : α)
  | panic (reason : ε)
  | outOfFuel
deriving DecidableEq

namespace Outcome

variable {ε : Type u} {α β : Type v}

def bind (x : Outcome ε α) (f : α → Outcome ε β) : Outcome ε β :=
  match x with
  | done value => f value
  | panic reason => panic reason
  | outOfFuel => outOfFuel

instance : Monad (Outcome ε) where
  pure := done
  bind := bind

@[simp] theorem done_bind (value : α) (f : α → Outcome ε β) : (done value >>= f) = f value := rfl

theorem bind_eq_done {x : Outcome ε α} {f : α → Outcome ε β} {b : β} (h : (x >>= f) = done b) :
    ∃ a, x = done a ∧ f a = done b := by
  cases x with
  | done a => exact ⟨a, rfl, h⟩
  | panic reason => cases h
  | outOfFuel => cases h

/-- The computation ends: with a result that has the property `Q`, or with a panic, which needs `R`. -/
def Ends (Q : α → Prop) (R : Prop) : Outcome ε α → Prop
  | done value => Q value
  | panic _ => R
  | outOfFuel => False

namespace Ends

variable {x : Outcome ε α} {Q Q' : α → Prop} {R : Prop}

theorem bind {f : α → Outcome ε β} {P : β → Prop} (h : x.Ends Q R) (hf : ∀ a, Q a → (f a).Ends P R) :
    (x >>= f).Ends P R := by
  cases x with
  | done a => exact hf a h
  | panic reason => exact h
  | outOfFuel => exact h

theorem imp (h : x.Ends Q R) (hQ : ∀ a, Q a → Q' a) : x.Ends Q' R := by
  cases x with
  | done a => exact hQ a h
  | panic reason => exact h
  | outOfFuel => exact h

theorem exists_done (h : x.Ends Q R) (hR : ¬R) : ∃ a, x = done a ∧ Q a := by
  cases x with
  | done a => exact ⟨a, rfl, h⟩
  | panic reason => exact absurd h hR
  | outOfFuel => exact h.elim

end Ends

end Outcome

/-- How one pass through a loop body ends: by its end or a `continue`, or by a `break`. -/
inductive Flow (σ : Type v) where
  | next (state : σ)
  | leave (state : σ)
deriving DecidableEq

def Flow.state {σ : Type v} : Flow σ → σ
  | next state => state
  | leave state => state

variable {ε : Type u} {κ : Type w} {σ : Type v}

def forLoop (cond : κ → Bool) (next : κ → κ) (body : κ → σ → Outcome ε (Flow σ)) :
    Nat → κ → σ → Outcome ε σ
  | 0, _, _ => .outOfFuel
  | fuel + 1, i, state =>
    if cond i then do
      match ← body i state with
      | .next state => forLoop cond next body fuel (next i) state
      | .leave state => .done state
    else .done state

section Rule

variable {cond : κ → Bool} {next : κ → κ} {body : κ → σ → Outcome ε (Flow σ)}

/-- What every pass that ends keeps holds when the loop ends. -/
theorem forLoop_invariant (inv : σ → Prop) (hbody : ∀ i s flow, inv s → body i s = .done flow →
    inv flow.state)
    {fuel : Nat} {i : κ} {s s' : σ} (hs : inv s) (h : forLoop cond next body fuel i s = .done s') :
      inv s' := by
  induction fuel generalizing i s with
  | zero => cases h
  | succ fuel ih =>
    rw [forLoop] at h
    split at h
    · obtain ⟨flow, hflow, hrest⟩ := Outcome.bind_eq_done h
      have hkept := hbody i s flow hs hflow
      cases flow with
      | next state => exact ih hkept hrest
      | leave state =>
        cases hrest
        exact hkept
    · cases h
      exact hs

/-- The passes are numbered from zero and `counter j` is the counter of pass `j`. Before pass `j`
    the invariant `inv j` holds; a pass before the last keeps it or leaves with the postcondition;
    at the last one the condition fails or the body leaves. -/
theorem forLoop_rule (inv : Nat → σ → Prop) (post : σ → Prop) (counter : Nat → κ) (n : Nat)
    (hnext : ∀ j < n, next (counter j) = counter (j + 1))
    (hstep : ∀ j < n, ∀ s, inv j s → cond (counter j) = true ∧
      ((∃ s', body (counter j) s = .done (.next s') ∧ inv (j + 1) s') ∨
        ∃ s', body (counter j) s = .done (.leave s') ∧ post s'))
    (hlast : ∀ s, inv n s → (cond (counter n) = false ∧ post s) ∨
      (cond (counter n) = true ∧ ∃ s', body (counter n) s = .done (.leave s') ∧ post s'))
    {fuel : Nat} (hfuel : n < fuel) {s : σ} (hs : inv 0 s) :
    ∃ s', forLoop cond next body fuel (counter 0) s = .done s' ∧ post s' := by
  -- from pass `j` on, with fuel for the remaining passes
  have hfrom : ∀ k j fuel s, j + k = n → k < fuel → inv j s →
      ∃ s', forLoop cond next body fuel (counter j) s = .done s' ∧ post s' := by
    intro k
    induction k with
    | zero =>
      intro j fuel s hj hfuel hinv
      obtain ⟨fuel, rfl⟩ := Nat.exists_eq_add_of_lt hfuel
      obtain rfl : j = n := by omega
      rcases hlast s hinv with ⟨hcond, hpost⟩ | ⟨hcond, s', hbody, hpost⟩
      · exact ⟨s, by simp [forLoop, hcond], hpost⟩
      · exact ⟨s', by simp [forLoop, hcond, hbody], hpost⟩
    | succ k ih =>
      intro j fuel s hj hfuel hinv
      obtain ⟨fuel, rfl⟩ : ∃ m, fuel = m + 1 := ⟨fuel - 1, by omega⟩
      obtain ⟨hcond, hpass⟩ := hstep j (by omega) s hinv
      rcases hpass with ⟨s₁, hbody, hinv₁⟩ | ⟨s', hbody, hpost⟩
      · obtain ⟨s', hrun, hpost⟩ := ih (j + 1) fuel s₁ (by omega) (by omega) hinv₁
        refine ⟨s', ?_, hpost⟩
        rw [← hnext j (by omega)] at hrun
        simp [forLoop, hcond, hbody, hrun]
      · exact ⟨s', by simp [forLoop, hcond, hbody], hpost⟩
  exact hfrom n 0 fuel s (by omega) hfuel hs

/-- A loop without `break` that computes `value n` in `n` passes. -/
theorem forLoop_eq_done (counter : Nat → κ) (value : Nat → σ) (n : Nat)
    (hnext : ∀ j < n, next (counter j) = counter (j + 1))
    (hcond : ∀ j < n, cond (counter j) = true) (hstop : cond (counter n) = false)
    (hbody : ∀ j < n, body (counter j) (value j) = .done (.next (value (j + 1))))
    {fuel : Nat} (hfuel : n < fuel) :
    forLoop cond next body fuel (counter 0) (value 0) = .done (value n) := by
  obtain ⟨s', hrun, hs'⟩ := forLoop_rule (fun j s => s = value j) (fun s => s = value n)
    counter n hnext (fun j hj s hs => ⟨hcond j hj, .inl ⟨value (j + 1), hs ▸ hbody j hj, rfl⟩⟩)
    (fun s hs => .inl ⟨hstop, hs⟩) hfuel rfl
  rw [hrun, hs']

end Rule

/-! ### Loops over a range

A loop that neither leaves early nor changes its counter is a fold over the numbers it counts through. -/

/-- Before the pass with counter `i` the invariant `inv i` holds. -/
theorem foldlM_range'_rule {body : σ → Nat → Option σ} (inv : Nat → σ → Prop) (n : Nat) :
    ∀ {start : Nat} {s : σ}, inv start s →
      (∀ i, start ≤ i → i < start + n → ∀ s, inv i s → ∃ s', body s i = some s' ∧ inv (i + 1) s') →
      ∃ s', (List.range' start n).foldlM body s = some s' ∧ inv (start + n) s' := by
  induction n with
  | zero => exact fun {start s} hs _ => ⟨s, rfl, hs⟩
  | succ n ih =>
    intro start s hs hstep
    obtain ⟨s₁, hbody, hs₁⟩ := hstep start le_rfl (by omega) s hs
    obtain ⟨s', hrun, hs'⟩ := ih hs₁ fun i hle hlt => hstep i (by omega) (by omega)
    refine ⟨s', ?_, ?_⟩
    · rw [range'_succ, foldlM_cons, hbody]
      exact hrun
    · rwa [Nat.add_right_comm, Nat.add_assoc] at hs'

theorem foldlM_range_rule {body : σ → Nat → Option σ} (inv : Nat → σ → Prop) (n : Nat) {s : σ} (hs : inv 0 s)
    (hstep : ∀ i < n, ∀ s, inv i s → ∃ s', body s i = some s' ∧ inv (i + 1) s') :
    ∃ s', (List.range n).foldlM body s = some s' ∧ inv n s' := by
  have hrule := foldlM_range'_rule inv n hs fun i _ hlt => hstep i (by omega)
  rwa [Nat.zero_add, ← range_eq_range'] at hrule

end NsuLabs.Lib
