/-
Module: NsuLabs.DiningPhilosophers.Stepwise
Purpose: The stepwise simulation in `CSharpLabs/DiningPhilosophersProblem` (StepwiseFork.cs,
  StepwisePhilosopher.cs, StepwiseTableManager.cs, the step loop of StepwiseSimulation.cs and the two
  strategies), for a table with `n + 2` seats and without a coordinator. A violated `Debug.Assert` is `none`;
  what `random` yields is a parameter.
Trusted boundary: The counters of the metrics do not overflow
Main exports: simulation_safe, simulation_not_deadlock
-/
import NsuLabs.Lib.Runs

namespace NsuLabs.DiningPhilosophers

/-- A seat of the table, which is also the index of a philosopher and of a fork. -/
abbrev Seat (n : Nat) := Fin (n + 2)

/-! ### Forks -/

inductive ForkState where
  | available
  | taken
  | inUse
deriving DecidableEq

/-- A fork and its times in each state. -/
structure Fork (n : Nat) where
  state : ForkState := .available
  takenBy : Option (Seat n) := none
  availableTime : Nat := 0
  takenTime : Nat := 0
  inUseTime : Nat := 0
deriving DecidableEq

namespace Fork

variable {n : Nat}

def isAvailable (fork : Fork n) : Bool := fork.state = .available

def take (fork : Fork n) (philosopher : Seat n) : Option (Fork n) :=
  if fork.state = .available ∧ fork.takenBy = none then
    some { fork with takenBy := some philosopher, state := .taken }
  else none

def use (fork : Fork n) (philosopher : Seat n) : Option (Fork n) :=
  if fork.state = .taken ∧ fork.takenBy = some philosopher then some { fork with state := .inUse } else none

def put (fork : Fork n) : Option (Fork n) :=
  if fork.takenBy ≠ none ∧ (fork.state = .inUse ∨ fork.state = .taken) then
    some { fork with takenBy := none, state := .available }
  else none

def nextStep (fork : Fork n) : Fork n :=
  match fork.state with
  | .available => { fork with availableTime := fork.availableTime + 1 }
  | .taken => { fork with takenTime := fork.takenTime + 1 }
  | .inUse => { fork with inUseTime := fork.inUseTime + 1 }

end Fork

/-! ### Philosophers -/

inductive State where
  | thinking
  | hungry
  | eating
  | waitingLeftFork
  | waitingRightFork
  | takingLeftFork
  | takingRightFork
deriving DecidableEq

inductive Side where
  | left
  | right
deriving DecidableEq

def State.waiting : Side → State
  | .left => .waitingLeftFork
  | .right => .waitingRightFork

def State.taking : Side → State
  | .left => .takingLeftFork
  | .right => .takingRightFork

/-- A philosopher, with flags for the forks. -/
structure Philosopher where
  currentState : State
  stepsTillStateChange : Int := 0
  waitingTime : Nat := 0
  eaten : Nat := 0
  hasLeftFork : Bool := false
  hasRightFork : Bool := false
deriving DecidableEq

def Philosopher.hasFork (p : Philosopher) : Side → Bool
  | .left => p.hasLeftFork
  | .right => p.hasRightFork

def Philosopher.setFork (p : Philosopher) (has : Bool) : Side → Philosopher
  | .left => { p with hasLeftFork := has }
  | .right => { p with hasRightFork := has }

/-- What the random numbers of a call are, if it draws them. -/
structure Draws where
  /-- `random.Next(3, 11)` is 3 more. -/
  thinking : Fin 8
  /-- `random.Next(4, 6)` is 4 more. -/
  eating : Fin 2
deriving DecidableEq

/-- The forks and those who sit between them. -/
structure Table (n : Nat) where
  forks : Seat n → Fork n
  philosophers : Seat n → Philosopher

section

variable {n : Nat}

/-- The fork at a side of the seat. -/
def forkOf (side : Side) (i : Seat n) : Seat n :=
  match side with
  | .left => i
  | .right => i + 1

def Table.setPhilosopher (t : Table n) (i : Seat n) (p : Philosopher) : Table n :=
  { t with philosophers := Function.update t.philosophers i p }

def Table.setFork (t : Table n) (f : Seat n) (fork : Fork n) : Table n :=
  { t with forks := Function.update t.forks f fork }

def Philosopher.becomeThinking (p : Philosopher) (draws : Draws) : Option Philosopher :=
  if p.stepsTillStateChange ≤ 0 then
    some { p with stepsTillStateChange := 3 + draws.thinking, currentState := .thinking }
  else none

def becomeEating (t : Table n) (i : Seat n) (draws : Draws) : Option (Table n) :=
  let p := t.philosophers i
  if p.stepsTillStateChange ≤ 0 then do
    let t := t.setPhilosopher i
      { p with stepsTillStateChange := 4 + draws.eating, currentState := .eating, eaten := p.eaten + 1 }
    let leftFork ← (t.forks (forkOf .left i)).use i
    let t := t.setFork (forkOf .left i) leftFork
    let rightFork ← (t.forks (forkOf .right i)).use i
    return t.setFork (forkOf .right i) rightFork
  else none

def Philosopher.becomeHungry (p : Philosopher) : Option Philosopher :=
  if p.stepsTillStateChange ≤ 0 then some { p with currentState := .hungry } else none

def takeFork (side : Side) (t : Table n) (i : Seat n) : Option (Table n) :=
  let p := t.philosophers i
  if p.currentState = .hungry ∨ p.currentState = .waiting side then
    if (t.forks (forkOf side i)).isAvailable then do
      let t := t.setPhilosopher i
        { p with currentState := .taking side, stepsTillStateChange := 2, waitingTime := p.waitingTime + 2 }
      let fork ← (t.forks (forkOf side i)).take i
      return t.setFork (forkOf side i) fork
    else some (t.setPhilosopher i { p with currentState := .waiting side, stepsTillStateChange := 0 })
  else none

def takeLeftFork : Table n → Seat n → Option (Table n) := takeFork .left

def takeRightFork : Table n → Seat n → Option (Table n) := takeFork .right

def putFork (side : Side) (t : Table n) (i : Seat n) : Option (Table n) :=
  let p := t.philosophers i
  if (p.currentState = .hungry ∨ p.currentState = .eating) ∧ ¬ (t.forks (forkOf side i)).isAvailable then do
    let fork ← (t.forks (forkOf side i)).put
    let t := t.setFork (forkOf side i) fork
    return t.setPhilosopher i { p.setFork false side with
      currentState := .hungry, stepsTillStateChange := 0 }
  else none

def putLeftFork : Table n → Seat n → Option (Table n) := putFork .left

def putRightFork : Table n → Seat n → Option (Table n) := putFork .right

/-! ### Strategies -/

inductive Strategy where
  | naive
  | resourceHierarchy
deriving DecidableEq

def takeLeftRight (t : Table n) (i : Seat n) : Option (Table n) :=
  if !(t.philosophers i).hasLeftFork then takeLeftFork t i
  else if (t.philosophers i).hasRightFork then some t
  else takeRightFork t i

def takeRightLeft (t : Table n) (i : Seat n) : Option (Table n) :=
  if !(t.philosophers i).hasRightFork then takeRightFork t i
  else if (t.philosophers i).hasLeftFork then some t
  else takeLeftFork t i

def Strategy.doAction (strategy : Strategy) (t : Table n) (i : Seat n) : Option (Table n) :=
  match strategy with
  | .naive =>
    if !(t.philosophers i).hasLeftFork then takeLeftFork t i
    else if !(t.philosophers i).hasRightFork then takeRightFork t i
    else some t
  | .resourceHierarchy => if i = 0 then takeLeftRight t i else takeRightLeft t i

/-! ### Steps -/

/-- The metrics of a call that finds the philosopher without a fork that it needs. -/
def Table.countWaiting (t : Table n) (i : Seat n) : Table n :=
  t.setPhilosopher i { t.philosophers i with waitingTime := (t.philosophers i).waitingTime + 1 }

/-- The `switch` of `NextStep`. -/
def changeState (strategy : Strategy) (t : Table n) (i : Seat n) (draws : Draws) : Option (Table n) :=
  let p := t.philosophers i
  match p.currentState with
  | .thinking => p.becomeHungry.map (t.setPhilosopher i)
  | .hungry =>
    if p.hasLeftFork && p.hasRightFork then becomeEating (t.countWaiting i) i draws
    else strategy.doAction (t.countWaiting i) i
  | .waitingLeftFork => takeLeftFork (t.countWaiting i) i
  | .waitingRightFork => takeRightFork (t.countWaiting i) i
  | .takingLeftFork => ({ p with hasLeftFork := true }.becomeHungry).map (t.setPhilosopher i)
  | .takingRightFork => ({ p with hasRightFork := true }.becomeHungry).map (t.setPhilosopher i)
  | .eating => do
      let t ← putLeftFork t i
      let t ← putRightFork t i
      let p ← (t.philosophers i).becomeThinking draws
      return t.setPhilosopher i p

/-- `NextStep` of the philosopher. -/
def nextStep (strategy : Strategy) (t : Table n) (i : Seat n) (draws : Draws) : Option (Table n) :=
  let stepsTillStateChange := (t.philosophers i).stepsTillStateChange - 1
  let t := t.setPhilosopher i { t.philosophers i with stepsTillStateChange }
  -- state unchanged
  if stepsTillStateChange > 0 then some t
  else changeState strategy t i draws

/-- The simulation between two calls: the table, and the philosopher who is next in the step, if one
    is. -/
structure Simulation (n : Nat) where
  table : Table n
  next : Option (Seat n)
  currentStep : Nat

/-- The table as the table manager sets it up. -/
def Simulation.create (draws : Seat n → Draws) : Option (Simulation n) :=
  let philosopher (i : Seat n) : Option Philosopher :=
    Philosopher.becomeThinking { currentState := .thinking } (draws i)
  if h : ∀ i, (philosopher i).isSome then
    some {
      table := { forks := fun _ => {}, philosophers := fun i => (philosopher i).get (h i) }
      next := some 0
      currentStep := 0 }
  else none

/-- The next call of the step loop: `NextStep` of the philosophers one after the other, then of all
    forks. -/
def Simulation.step (strategy : Strategy) (s : Simulation n) (draws : Draws) : Option (Simulation n) :=
  match s.next with
  | some i => do
      let table ← nextStep strategy s.table i draws
      return { s with table, next := if i = Fin.last (n + 1) then none else some (i + 1) }
  | none =>
    some {
      table := { s.table with forks := fun f => (s.table.forks f).nextStep }
      next := some 0
      currentStep := s.currentStep + 1 }

end

open Lib

section

open Function Option

variable {n : Nat} {side side' : Side} {p : Philosopher}

/-! ### Sides and forks -/

def Side.other : Side → Side
  | .left => .right
  | .right => .left

@[simp]
theorem Side.eq_other_iff : side' = side.other ↔ side' ≠ side := by
  cases side <;> cases side' <;> decide

theorem forkOf_injective (i : Seat n) (h : forkOf side i = forkOf side' i) : side = side' := by
  have hne : i ≠ i + 1 := by simp
  cases side <;> cases side'
  · rfl
  · exact absurd h hne
  · exact absurd h.symm hne
  · rfl

/-- The side at which the strategy takes its first fork. -/
def Strategy.first (strategy : Strategy) (i : Seat n) : Side :=
  match strategy with
  | .naive => .left
  | .resourceHierarchy => if i.val = 0 then .left else .right

theorem Strategy.first_zero : Strategy.resourceHierarchy.first (0 : Seat n) = .left := rfl

theorem Strategy.first_of_ne_zero {i : Seat n} (hi : i ≠ 0) : Strategy.resourceHierarchy.first i = .right :=
  if_neg fun hval => hi (Fin.ext hval)

/-- Both strategies take the fork at the first side, then the other one. -/
theorem Strategy.doAction_eq (strategy : Strategy) (t : Table n) (i : Seat n) :
    strategy.doAction t i =
      if (t.philosophers i).hasFork (strategy.first i) = false then takeFork (strategy.first i) t i
      else if (t.philosophers i).hasFork (strategy.first i).other = false then
        takeFork (strategy.first i).other t i
      else some t := by
  cases strategy with
  | naive =>
    simp only [Strategy.doAction, takeLeftFork, takeRightFork, Strategy.first, Side.other,
      Philosopher.hasFork]
    grind
  | resourceHierarchy =>
    rw [Strategy.doAction]
    by_cases hi : i = 0
    · subst hi
      simp only [Strategy.first_zero, takeLeftRight, takeLeftFork, takeRightFork, Side.other,
        Philosopher.hasFork]
      grind
    · simp only [if_neg hi, Strategy.first_of_ne_zero hi, takeRightLeft, takeLeftFork,
        takeRightFork, Side.other, Philosopher.hasFork]
      grind

@[simp]
theorem setPhilosopher_self (t : Table n) (i : Seat n) (p : Philosopher) :
    (t.setPhilosopher i p).philosophers i = p :=
  update_self ..

/-! ### Invariants -/

/-- The philosopher has the fork, or is taking it. -/
def Philosopher.Holds (p : Philosopher) (side : Side) : Prop :=
  p.hasFork side = true ∨ p.currentState = .taking side

theorem Philosopher.holds_iff (h : p.currentState ≠ .taking side) :
    p.Holds side ↔ p.hasFork side = true := or_iff_left h

theorem State.taking_ne_other (side : Side) : State.taking side ≠ .taking side.other := by
    cases side <;> nofun

theorem State.waiting_ne_taking (side side' : Side) : State.waiting side ≠ .taking side' := by
  cases side <;> cases side' <;> nofun

/-- What the state of a philosopher says about the flags, if the forks are taken in the order that
    starts with `first`. -/
structure Philosopher.Consistent (first : Side) (p : Philosopher) : Prop where
  eating : p.currentState = .eating → ∀ side, p.hasFork side = true
  thinking : p.currentState = .thinking → ∀ side, p.hasFork side = false
  waiting : ∀ side, p.currentState = .waiting side → p.hasFork side = false
  taking : ∀ side, p.currentState = .taking side → p.hasFork side = false
  ordered : (p.Holds first.other ∨ p.currentState = .waiting first.other) → p.hasFork first = true

theorem Philosopher.Consistent.of_hungry {first : Side} (hstate : p.currentState = .hungry)
    (hordered : p.hasFork first.other = true → p.hasFork first = true) : p.Consistent first := by
  refine ⟨?_, ?_, ?_, ?_, ?_⟩ <;> rw [hstate]
  · nofun
  · nofun
  · rintro ⟨⟩ ⟨⟩
  · rintro ⟨⟩ ⟨⟩
  · rintro (hholds | hwaiting)
    · rw [Philosopher.holds_iff (by rw [hstate]; cases first <;> nofun)] at hholds
      exact hordered hholds
    · cases first <;> cases hwaiting

theorem Philosopher.Consistent.of_thinking (first : Side) (hstate : p.currentState = .thinking)
    (hnone : ∀ side, p.hasFork side = false) : p.Consistent first := by
  refine ⟨?_, fun _ => hnone, ?_, ?_, ?_⟩ <;> rw [hstate]
  · nofun
  · rintro ⟨⟩ ⟨⟩
  · rintro ⟨⟩ ⟨⟩
  · rintro (hholds | hwaiting)
    · rw [Philosopher.holds_iff (by rw [hstate]; cases first <;> nofun), hnone] at hholds
      cases hholds
    · cases first <;> cases hwaiting

theorem Philosopher.Consistent.of_eating (first : Side) (hstate : p.currentState = .eating)
    (hboth : ∀ side, p.hasFork side = true) : p.Consistent first := by
  refine ⟨fun _ => hboth, ?_, ?_, ?_, fun _ => hboth first⟩ <;> rw [hstate]
  · nofun
  · rintro ⟨⟩ ⟨⟩
  · rintro ⟨⟩ ⟨⟩

/-- The state of the forks that the philosopher holds. -/
def Philosopher.forkState (p : Philosopher) : ForkState :=
  if p.currentState = .eating then .inUse else .taken

/-- Who has taken which fork. -/
structure Ownership (first : Seat n → Side) (t : Table n) : Prop where
  consistent : ∀ i, (t.philosophers i).Consistent (first i)
  held : ∀ i side, (t.philosophers i).Holds side →
    (t.forks (forkOf side i)).takenBy = some i ∧ (t.forks (forkOf side i)).state =
      (t.philosophers i).forkState
  taken : ∀ f i, (t.forks f).takenBy = some i → ∃ side, f = forkOf side i ∧ (t.philosophers i).Holds side
  free : ∀ f, (t.forks f).takenBy = none → (t.forks f).state = .available

/-- What becomes of the fork at a side of a philosopher. -/
inductive Passes (i : Seat n) (p p' : Philosopher) (side : Side) (fork fork' : Fork n) : Prop where
  | held (hnew : p'.Holds side) (hold : p.Holds side ∨ fork.takenBy = none) (htaken : fork'.takenBy = some i)
      (hstate : fork'.state = p'.forkState)
  | freed (hnew : ¬ p'.Holds side) (hold : p.Holds side) (htaken : fork'.takenBy = none)
      (hstate : fork'.state = .available)
  | kept (hnew : ¬ p'.Holds side) (hold : ¬ p.Holds side) (hsame : fork' = fork)

section

variable {first : Seat n → Side} {t t' : Table n} {i : Seat n}

theorem Ownership.holds_iff (h : Ownership first t) (i : Seat n) (side : Side) :
    (t.philosophers i).Holds side ↔ (t.forks (forkOf side i)).takenBy = some i := by
  refine ⟨fun hholds => (h.held i side hholds).1, fun htaken => ?_⟩
  obtain ⟨side', hfork, hholds⟩ := h.taken _ i htaken
  exact forkOf_injective i hfork ▸ hholds

theorem Ownership.available_iff (h : Ownership first t) (f : Seat n) :
    (t.forks f).state = .available ↔ (t.forks f).takenBy = none := by
  refine ⟨fun havailable => eq_none_iff_forall_ne_some.mpr fun i htaken => ?_, h.free f⟩
  obtain ⟨side, rfl, hholds⟩ := h.taken f i htaken
  rw [(h.held i side hholds).2, Philosopher.forkState] at havailable
  split_ifs at havailable

/-- A call of philosopher `i` keeps the ownership, if the philosopher stays consistent. -/
theorem Ownership.moves (h : Ownership first t)
    (hphilosophers : t'.philosophers = Function.update t.philosophers i p)
    (hfar : ∀ f, (∀ side, f ≠ forkOf side i) → t'.forks f = t.forks f)
    (hforks : ∀ side, Passes i (t.philosophers i) p side (t.forks (forkOf side i))
    (t'.forks (forkOf side i))) (hconsistent : p.Consistent (first i)) : Ownership first t' := by
  have hself : t'.philosophers i = p := by rw [hphilosophers, update_self]
  have hothers : ∀ j, j ≠ i → t'.philosophers j = t.philosophers j := fun j hj => by
    rw [hphilosophers, update_of_ne hj]
  have hcases : ∀ f, (∃ side, f = forkOf side i) ∨ ∀ side, f ≠ forkOf side i := fun f => by
    rw [← not_exists]
    exact Classical.em _
  constructor
  case consistent =>
    intro j
    by_cases hj : j = i
    · rw [hj, hself]
      exact hconsistent
    · rw [hothers j hj]
      exact h.consistent j
  case held =>
    intro j side hholds
    by_cases hj : j = i
    · subst hj
      rw [hself] at hholds ⊢
      cases hforks side with
      | held _ _ htaken hstate => exact ⟨htaken, hstate⟩
      | freed hnew | kept hnew => exact absurd hholds hnew
    · rw [hothers j hj] at hholds ⊢
      obtain ⟨htaken, hstate⟩ := h.held j side hholds
      rcases hcases (forkOf side j) with ⟨side', hfork⟩ | hf
      · -- the fork of another philosopher is not touched
        rw [hfork] at htaken hstate ⊢
        have hnot : ¬ (t.philosophers i).Holds side' := fun hholds' =>
          hj (some.inj (htaken.symm.trans (h.held i side' hholds').1))
        cases hforks side' with
        | held _ hold => exact absurd (hold.resolve_left hnot) (by rw [htaken]; nofun)
        | freed _ hold => exact absurd hold hnot
        | kept _ _ hsame => exact hsame ▸ ⟨htaken, hstate⟩
      · exact (hfar _ hf).symm ▸ ⟨htaken, hstate⟩
  case taken =>
    intro f j htaken
    have hsame : (t.forks f).takenBy = some j → j ≠ i →
        ∃ side, f = forkOf side j ∧ (t'.philosophers j).Holds side := fun hold hj =>
      hothers j hj ▸ h.taken f j hold
    rcases hcases f with ⟨side, rfl⟩ | hf
    · cases hforks side with
      | held hnew _ htaken' =>
        cases htaken'.symm.trans htaken
        exact ⟨side, rfl, hself.symm ▸ hnew⟩
      | freed _ _ htaken' => cases htaken'.symm.trans htaken
      | kept _ hold hfork =>
        rw [hfork] at htaken
        exact hsame htaken fun hj => hold ((h.holds_iff i side).mpr (hj ▸ htaken))
    · rw [hfar f hf] at htaken
      refine hsame htaken ?_
      rintro rfl
      obtain ⟨side, hfork, -⟩ := h.taken f j htaken
      exact hf side hfork
  case free =>
    intro f hnone
    rcases hcases f with ⟨side, rfl⟩ | hf
    · cases hforks side with
      | held _ _ htaken => cases htaken.symm.trans hnone
      | freed _ _ _ hstate => exact hstate
      | kept _ _ hfork => exact hfork ▸ h.free _ (hfork ▸ hnone)
    · exact hfar f hf ▸ h.free f (hfar f hf ▸ hnone)

/-! ### The branches of a call -/

/-- The fork stays with the philosopher, or with whoever has it. -/
theorem Ownership.passes (h : Ownership first t) (hholds : p.Holds side ↔ (t.philosophers i).Holds side)
    (hstate : p.forkState = (t.philosophers i).forkState) :
    Passes i (t.philosophers i) p side (t.forks (forkOf side i)) (t.forks (forkOf side i)) := by
  by_cases hnew : p.Holds side
  · have hold := hholds.mp hnew
    exact .held hnew (.inl hold) (h.held i side hold).1 (hstate ▸ (h.held i side hold).2)
  · exact .kept hnew (fun hold => hnew (hholds.mpr hold)) rfl

/-- The philosopher changes, but holds what it has held. -/
theorem Ownership.setPhilosopher (h : Ownership first t)
    (hholds : ∀ side, p.Holds side ↔ (t.philosophers i).Holds side)
    (hstate : p.forkState = (t.philosophers i).forkState) (hp : p.Consistent (first i)) :
    Ownership first (t.setPhilosopher i p) :=
  h.moves rfl (fun _ _ => rfl) (fun side => h.passes (hholds side) hstate) hp

/-- Only the time of the philosopher changes. -/
theorem Ownership.setTimes (h : Ownership first t) (stepsTillStateChange : Int) (waitingTime : Nat) :
    Ownership first (t.setPhilosopher i { t.philosophers i with stepsTillStateChange, waitingTime }) := by
  obtain ⟨heating, hthinking, hwaiting, htaking, hordered⟩ := h.consistent i
  exact h.setPhilosopher (fun _ => Iff.rfl) rfl ⟨heating, hthinking, hwaiting, htaking, hordered⟩

/-- A philosopher that is waiting or taking is consistent if it has none of the fork, and the first
    fork before the other. -/
theorem Philosopher.Consistent.turn {first : Side} (hp : p.Consistent first) (hno : p.hasFork side = false)
    (hturn : side = first ∨ p.hasFork first = true) {state : State}
    (hstate : state = .waiting side ∨ state = .taking side) (stepsTillStateChange : Int)
    (waitingTime : Nat) :
    Philosopher.Consistent first { p with currentState := state, stepsTillStateChange, waitingTime } := by
  have hflags : ∀ side',
    Philosopher.hasFork { p with currentState := state, stepsTillStateChange, waitingTime } side' =
      p.hasFork side' := fun side' => by cases side' <;> rfl
  have hside : ∀ side', state = .waiting side' ∨ state = .taking side' → side' = side := by
    intro side' hside'
    rcases hstate with rfl | rfl <;> cases side <;> cases side' <;>
      first | rfl | rcases hside' with h | h <;> cases h
  constructor
  case eating => rcases hstate with rfl | rfl <;> cases side <;> nofun
  case thinking => rcases hstate with rfl | rfl <;> cases side <;> nofun
  case waiting => exact fun side' hside' => by rw [hflags, hside side' (.inl hside'), hno]
  case taking => exact fun side' hside' => by rw [hflags, hside side' (.inr hside'), hno]
  case ordered =>
    simp only [Philosopher.Holds, hflags]
    intro hsecond
    rcases hturn with rfl | hfirst
    · have hhas : p.hasFork side.other = true := by
        rcases hstate with rfl | rfl <;> cases side <;>
          simpa [State.taking, State.waiting, Side.other] using hsecond
      exact hp.ordered (.inl (.inl hhas))
    · exact hfirst

/-- Trying to take a fork that the philosopher does not have. -/
theorem takeFork_owned (h : Ownership first t)
    (hstate : (t.philosophers i).currentState = .hungry ∨ (t.philosophers i).currentState = .waiting side)
    (hno : (t.philosophers i).hasFork side = false)
    (hturn : side = first i ∨ (t.philosophers i).hasFork (first i) = true) :
    ∃ t', takeFork side t i = some t' ∧ Ownership first t' := by
  have hnotTaking : ∀ side', (t.philosophers i).currentState ≠ .taking side' := by
    rcases hstate with hstate | hstate <;> rw [hstate] <;> cases side <;> rintro ⟨⟩ <;> nofun
  have hforkState : (t.philosophers i).forkState = .taken := by
    rcases hstate with hstate | hstate <;> rw [Philosopher.forkState, hstate] <;> cases side <;> rfl
  rw [takeFork, if_pos hstate]
  by_cases havailable : (t.forks (forkOf side i)).isAvailable = true
  · have hfree : (t.forks (forkOf side i)).state = .available := of_decide_eq_true havailable
    have hnone := (h.available_iff _).mp hfree
    have htake : (t.forks (forkOf side i)).take i =
        some { t.forks (forkOf side i) with takenBy := some i, state := .taken } := if_pos ⟨hfree, hnone⟩
    rw [if_pos havailable]
    refine ⟨_, by simp only [Table.setPhilosopher, htake]; rfl, ?_⟩
    refine h.moves rfl (fun f hf => update_of_ne (hf side) ..) (fun side' => ?_)
      ((h.consistent i).turn hno hturn (.inr rfl) _ _)
    by_cases hside : side' = side
    · subst hside
      refine .held (.inr rfl) (.inr hnone) ?_ ?_ <;> simp only [Table.setFork, update_self]
      cases side' <;> rfl
    · have hne : forkOf side' i ≠ forkOf side i := fun hfork => hside (forkOf_injective i hfork)
      simp only [Table.setFork, update_of_ne hne]
      rw [Side.eq_other_iff.mpr hside]
      refine h.passes ?_ (by rw [hforkState]; cases side <;> rfl)
      rw [Philosopher.holds_iff (hnotTaking _), Philosopher.holds_iff (State.taking_ne_other side)]
      exact Iff.rfl
  · rw [if_neg havailable]
    refine ⟨_, rfl, h.setPhilosopher (fun side' => ?_) ?_ ((h.consistent i).turn hno hturn (.inl rfl) _ _)⟩
    · rw [Philosopher.holds_iff (hnotTaking _), Philosopher.holds_iff (State.waiting_ne_taking side side')]
      exact Iff.rfl
    · rw [hforkState]
      cases side <;> rfl

/-- The two forks of a philosopher are replaced. -/
theorem forks_setForks {forks : Seat n → Fork n} (new : Side → Fork n) (side : Side) :
    Function.update (Function.update forks (forkOf .left i) (new .left)) (forkOf .right i) (new .right)
      (forkOf side i) = new side := by
  cases side with
  | left =>
    have hne : forkOf .left i ≠ forkOf .right i := fun heq => by cases forkOf_injective i heq
    rw [update_of_ne hne, update_self]
  | right => rw [update_self]

/-- Beginning to eat with both forks. -/
theorem becomeEating_owned (h : Ownership first t) (hstate : (t.philosophers i).currentState = .hungry)
    (hhas : ∀ side, (t.philosophers i).hasFork side = true)
    (hsteps : (t.philosophers i).stepsTillStateChange ≤ 0)
    (draws : Draws) : ∃ t', becomeEating t i draws = some t' ∧ Ownership first t' := by
  have hforkState : (t.philosophers i).forkState = .taken := by
    rw [Philosopher.forkState, hstate]
    rfl
  have huse : ∀ side, (t.forks (forkOf side i)).use i =
      some { t.forks (forkOf side i) with state := .inUse } := by
    intro side
    obtain ⟨htaken, hfork⟩ := h.held i side (.inl (hhas side))
    exact if_pos ⟨hfork.trans hforkState, htaken⟩
  have hne : forkOf .right i ≠ forkOf .left i := fun heq => by cases forkOf_injective i heq
  apply Exists.intro
  constructor
  · rw [becomeEating, if_pos hsteps]
    simp only [Table.setPhilosopher, Table.setFork, huse .left, update_of_ne hne, huse .right,
      bind_eq_bind, bind_some]
    rfl
  · refine h.moves rfl (fun f hf => ?_) (fun side => ?_) (.of_eating _ rfl hhas)
    · exact (update_of_ne (hf .right) ..).trans (update_of_ne (hf .left) ..)
    · have hold : (t.philosophers i).Holds side := .inl (hhas side)
      simp only [forks_setForks (fun side => { t.forks (forkOf side i) with state := .inUse }) side]
      exact .held (.inl (hhas side)) (.inl hold) (h.held i side hold).1 rfl

/-- Putting both forks back and thinking again. -/
theorem finish_owned (h : Ownership first t) (hstate : (t.philosophers i).currentState = .eating)
    (draws : Draws) : ∃ t', (do
      let t ← putLeftFork t i
      let t ← putRightFork t i
      let p ← (t.philosophers i).becomeThinking draws
      return t.setPhilosopher i p) = some t' ∧ Ownership first t' := by
  have hold : ∀ side, (t.philosophers i).Holds side := fun side => .inl ((h.consistent i).eating hstate side)
  have hforkState : ∀ side, (t.forks (forkOf side i)).state = .inUse := fun side => by
    rw [(h.held i side (hold side)).2, Philosopher.forkState, if_pos hstate]
  have hput : ∀ side, (t.forks (forkOf side i)).put =
      some { t.forks (forkOf side i) with takenBy := none, state := .available } := by
    intro side
    refine if_pos ⟨?_, .inl (hforkState side)⟩
    rw [(h.held i side (hold side)).1]
    nofun
  have hbusy : ∀ side, (t.forks (forkOf side i)).isAvailable = false := fun side => by
    rw [Fork.isAvailable, hforkState]
    rfl
  have hne : forkOf .right i ≠ forkOf .left i := fun heq => by cases forkOf_injective i heq
  apply Exists.intro
  constructor
  · simp only [putLeftFork, putRightFork, putFork, hstate, hbusy, hput, Table.setPhilosopher, Table.setFork,
      update_self, update_of_ne hne, Philosopher.becomeThinking, update_idem,
      Philosopher.setFork, le_refl, if_true, reduceCtorEq, or_true, true_or, Bool.false_eq_true,
        not_false_eq_true,
      and_self, bind_eq_bind, bind_some, Option.pure_def]
    rfl
  · refine h.moves rfl (fun f hf => ?_) (fun side => ?_) (.of_thinking _ rfl (by rintro ⟨⟩ <;> rfl))
    · exact (update_of_ne (hf .right) ..).trans (update_of_ne (hf .left) ..)
    · simp only [forks_setForks
        (fun side => { t.forks (forkOf side i) with takenBy := none, state := .available }) side]
      refine .freed ?_ (hold side) rfl rfl
      rintro (hside | hside) <;> cases side <;> cases hside

/-- The fork is in the hands of the philosopher. -/
theorem taken_owned (h : Ownership first t) (side : Side)
    (hstate : (t.philosophers i).currentState = .taking side) (stepsTillStateChange : Int) :
    Ownership first (t.setPhilosopher i
      { (t.philosophers i).setFork true side with currentState := .hungry, stepsTillStateChange }) := by
  have hhas : ∀ side', Philosopher.hasFork
      { (t.philosophers i).setFork true side with currentState := .hungry, stepsTillStateChange } side' =
        true ↔ (t.philosophers i).Holds side' := by
    intro side'
    rw [Philosopher.Holds, hstate]
    cases side <;> cases side' <;> simp [Philosopher.hasFork, Philosopher.setFork, State.taking]
  refine h.setPhilosopher (fun side' => ?_) ?_ (.of_hungry rfl fun hsecond => ?_)
  · rw [Philosopher.holds_iff (by cases side' <;> nofun)]
    exact hhas side'
  · rw [Philosopher.forkState, Philosopher.forkState, hstate]
    cases side <;> rfl
  · rw [hhas] at hsecond ⊢
    exact .inl ((h.consistent i).ordered (.inl hsecond))

/-! ### Calls and runs -/

theorem Ownership.countWaiting (h : Ownership first t) (i : Seat n) :
    Ownership first (t.countWaiting i) := h.setTimes _ _

@[simp]
theorem countWaiting_self (t : Table n) (i : Seat n) : (t.countWaiting i).philosophers i =
    { t.philosophers i with waitingTime := (t.philosophers i).waitingTime + 1 } := update_self ..

/-- The philosopher gets hungry and has no fork yet. -/
theorem becomeHungry_owned (h : Ownership first t) (hstate : (t.philosophers i).currentState = .thinking) :
    Ownership first (t.setPhilosopher i { t.philosophers i with currentState := .hungry }) := by
  have hnone := (h.consistent i).thinking hstate
  have hflags : ∀ side, Philosopher.hasFork { t.philosophers i with currentState := .hungry } side =
      (t.philosophers i).hasFork side := fun side => by cases side <;> rfl
  refine h.setPhilosopher (fun side => ?_) ?_ (.of_hungry rfl fun hsecond => ?_)
  · rw [Philosopher.holds_iff (by cases side <;> nofun),
      Philosopher.holds_iff (by rw [hstate]; cases side <;> nofun), hflags]
  · rw [Philosopher.forkState, Philosopher.forkState, hstate]
    rfl
  · rw [hflags, hnone] at hsecond
    cases hsecond

/-- No change of state violates an assertion, and every one keeps the ownership. -/
theorem changeState_owned (strategy : Strategy) (h : Ownership strategy.first t)
    (hsteps : (t.philosophers i).stepsTillStateChange ≤ 0) (draws : Draws) :
    ∃ t', changeState strategy t i draws = some t' ∧ Ownership strategy.first t' := by
  have hp := h.consistent i
  have hwaiting := h.countWaiting i
  -- a fork for which the philosopher waits may be taken
  have hretry : ∀ side, (t.philosophers i).currentState = .waiting side →
      ∃ t', takeFork side (t.countWaiting i) i = some t' ∧ Ownership strategy.first t' := by
    intro side hstate
    apply takeFork_owned hwaiting
    · rw [countWaiting_self]
      exact .inr hstate
    · rw [countWaiting_self]
      exact hp.waiting side hstate
    · rw [countWaiting_self]
      by_cases hside : side = strategy.first i
      · exact .inl hside
      · rw [Side.eq_other_iff.mpr hside] at hstate
        exact .inr (hp.ordered (.inr hstate))
  rw [changeState]
  cases hstate : (t.philosophers i).currentState with
  | thinking =>
    simp only [Philosopher.becomeHungry, if_pos hsteps]
    exact ⟨_, rfl, becomeHungry_owned h hstate⟩
  | hungry =>
    by_cases hboth : ((t.philosophers i).hasLeftFork && (t.philosophers i).hasRightFork) = true
    · simp only [if_pos hboth]
      apply becomeEating_owned hwaiting
      · rw [countWaiting_self]
        exact hstate
      · rw [countWaiting_self]
        rw [Bool.and_eq_true] at hboth
        exact fun side => by cases side <;> [exact hboth.1; exact hboth.2]
      · rw [countWaiting_self]
        exact hsteps
    · have hhungry : ((t.countWaiting i).philosophers i).currentState = .hungry := by
        rw [countWaiting_self]
        exact hstate
      simp only [if_neg hboth, Strategy.doAction_eq]
      split
      case isTrue hno => exact takeFork_owned hwaiting (.inl hhungry) hno (.inl rfl)
      case isFalse hhas =>
        split
        case isTrue hno =>
          exact takeFork_owned hwaiting (.inl hhungry) hno (.inr (Bool.eq_true_of_not_eq_false hhas))
        case isFalse => exact ⟨_, rfl, hwaiting⟩
  | waitingLeftFork => exact hretry .left hstate
  | waitingRightFork => exact hretry .right hstate
  | takingLeftFork =>
    simp only [Philosopher.becomeHungry, if_pos hsteps]
    exact ⟨_, rfl, taken_owned h .left hstate _⟩
  | takingRightFork =>
    simp only [Philosopher.becomeHungry, if_pos hsteps]
    exact ⟨_, rfl, taken_owned h .right hstate _⟩
  | eating => exact finish_owned h hstate draws

/-- No call violates an assertion, and every call keeps the ownership. -/
theorem nextStep_owned (strategy : Strategy) (h : Ownership strategy.first t) (i : Seat n) (draws : Draws) :
    ∃ t', nextStep strategy t i draws = some t' ∧ Ownership strategy.first t' := by
  have hticked := h.setTimes (i := i) ((t.philosophers i).stepsTillStateChange - 1)
    (t.philosophers i).waitingTime
  simp only [nextStep]
  split
  case isTrue => exact ⟨_, rfl, hticked⟩
  case isFalse hsteps =>
    apply changeState_owned strategy hticked
    rw [setPhilosopher_self]
    exact not_lt.mp hsteps

/-- The forks count their time. -/
theorem Ownership.countForks (h : Ownership first t) :
    Ownership first { t with forks := fun f => (t.forks f).nextStep } := by
  have hsame : ∀ f, (t.forks f).nextStep.takenBy = (t.forks f).takenBy ∧
      (t.forks f).nextStep.state = (t.forks f).state := fun f => by
    rw [Fork.nextStep]
    split <;> exact ⟨rfl, rfl⟩
  constructor
  case consistent => exact h.consistent
  case held => simpa only [hsame] using h.held
  case taken => simpa only [hsame] using h.taken
  case free => simpa only [hsame] using h.free

theorem step_owned (strategy : Strategy) (s : Simulation n) (draws : Draws)
    (h : Ownership strategy.first s.table) :
    ∃ s', s.step strategy draws = some s' ∧ Ownership strategy.first s'.table := by
  rw [Simulation.step]
  cases s.next with
  | some i =>
    obtain ⟨t', hstep, ht'⟩ := nextStep_owned strategy h i draws
    simp only [hstep]
    exact ⟨_, rfl, ht'⟩
  | none => exact ⟨_, rfl, h.countForks⟩

theorem create_owned (first : Seat n → Side) (draws : Seat n → Draws) :
    ∃ s, Simulation.create draws = some s ∧ Ownership first s.table := by
  have hall : ∀ i, (Philosopher.becomeThinking { currentState := .thinking } (draws i)).isSome = true :=
    fun _ => rfl
  refine ⟨_, dif_pos hall, fun i => .of_thinking _ rfl (by rintro ⟨⟩ <;> rfl), ?_, nofun, fun _ _ => rfl⟩
  rintro i side (hside | hside) <;> cases side <;> cases hside

/-- The simulation is created and no run of it violates an assertion. -/
theorem run_owned (strategy : Strategy) (initial : Seat n → Draws) (draws : List Draws) :
    ∃ s₀ s, Simulation.create initial = some s₀ ∧ run (Simulation.step strategy) s₀ draws = some s ∧
      Ownership strategy.first s.table := by
  obtain ⟨s₀, hcreate, hs₀⟩ := create_owned strategy.first initial
  obtain ⟨s, hrun, hs⟩ := run_total (fun s draws => step_owned strategy s draws) draws hs₀
  exact ⟨s₀, s, hcreate, hrun, hs⟩

/-! ### Safety -/

end

/-- What the philosophers and the forks say about each other. -/
structure Table.Safe (t : Table n) : Prop where
  /-- A fork is held by at most one philosopher. -/
  exclusive : ∀ f i j side side', forkOf side i = f → forkOf side' j = f →
    (t.philosophers i).Holds side → (t.philosophers j).Holds side' → i = j
  left_taken : ∀ i, (t.philosophers i).hasLeftFork = true → (t.forks (forkOf .left i)).takenBy = some i
  right_taken : ∀ i, (t.philosophers i).hasRightFork = true → (t.forks (forkOf .right i)).takenBy = some i
  /-- Who eats has both forks and uses them. -/
  eating : ∀ i, (t.philosophers i).currentState = .eating →
    (t.philosophers i).hasLeftFork = true ∧ (t.philosophers i).hasRightFork = true ∧
      ∀ side, (t.forks (forkOf side i)).takenBy = some i ∧ (t.forks (forkOf side i)).state = .inUse
  neighbours : ∀ i : Seat n,
    ¬ ((t.philosophers i).currentState = .eating ∧ (t.philosophers (i + 1)).currentState = .eating)

theorem Ownership.safe {first : Seat n → Side} {t : Table n} (h : Ownership first t) : t.Safe := by
  have hexclusive : ∀ f i j side side', forkOf side i = f → forkOf side' j = f →
      (t.philosophers i).Holds side → (t.philosophers j).Holds side' → i = j := by
    rintro f i j side side' rfl hf hi hj
    have hi := (h.holds_iff i side).mp hi
    have hj := (h.holds_iff j side').mp hj
    rw [hf, hi] at hj
    exact some.inj hj
  have hholds : ∀ i, (t.philosophers i).currentState = .eating → ∀ side, (t.philosophers i).Holds side :=
    fun i heating side => .inl ((h.consistent i).eating heating side)
  constructor
  case exclusive => exact hexclusive
  case left_taken => exact fun i hi => (h.holds_iff i .left).mp (.inl hi)
  case right_taken => exact fun i hi => (h.holds_iff i .right).mp (.inl hi)
  case eating =>
    intro i heating
    have hhas := (h.consistent i).eating heating
    refine ⟨hhas .left, hhas .right, fun side => ⟨(h.holds_iff i side).mp (hholds i heating side), ?_⟩⟩
    rw [(h.held i side (hholds i heating side)).2, Philosopher.forkState, if_pos heating]
  case neighbours =>
    rintro i ⟨hi, hnext⟩
    have heq := hexclusive (i + 1) i (i + 1) .right .left rfl rfl (hholds i hi .right)
      (hholds (i + 1) hnext .left)
    simp at heq

/-- For every number of philosophers, either strategy and all random durations: no assertion is
    violated, and whatever call of the simulation was made last, the forks and the philosophers are
    safe. -/
theorem simulation_safe (strategy : Strategy) (initial : Seat n → Draws) (draws : List Draws) :
    ∃ s₀ s, Simulation.create initial = some s₀ ∧ run (Simulation.step strategy) s₀ draws = some s ∧
      s.table.Safe := by
  obtain ⟨s₀, s, hcreate, hrun, h⟩ := run_owned strategy initial draws
  exact ⟨s₀, s, hcreate, hrun, h.safe⟩

end

variable {n : Nat}

/-- Every philosopher waits for a fork that is not available. -/
def Deadlock (t : Table n) : Prop :=
  ∀ i, ∃ side, (t.philosophers i).currentState = .waiting side ∧
    ¬ (t.forks (forkOf side i)).isAvailable = true

section

variable {first : Seat n → Side} {t : Table n}

/-- A philosopher that waits has at most its first fork, and then waits for the other one. -/
theorem Ownership.has_first_of_waiting (h : Ownership first t) {i : Seat n} {side side' : Side}
    (hwaiting : (t.philosophers i).currentState = .waiting side) (hholds : (t.philosophers i).Holds side') :
    side' = first i ∧ side = (first i).other := by
  have hp := h.consistent i
  have hno := hp.waiting side hwaiting
  have hhas : (t.philosophers i).hasFork side' = true :=
    (Philosopher.holds_iff (by rw [hwaiting]; exact State.waiting_ne_taking side side')).mp hholds
  have hne : side' ≠ side := by
    rintro rfl
    rw [hno] at hhas
    cases hhas
  by_cases hfirst : side' = first i
  · exact ⟨hfirst, Side.eq_other_iff.mpr fun hside => hne (hfirst.trans hside.symm)⟩
  -- with the other fork in hand it would have the first one, for which it does not wait then
  · have hother := Side.eq_other_iff.mpr hfirst
    have hhasFirst := hp.ordered (.inl (hother ▸ hholds))
    have hside : side = first i := by
      by_contra hside
      exact hne (hother.trans (Side.eq_other_iff.mpr hside).symm)
    rw [← hside, hno] at hhasFirst
    cases hhasFirst

/-- In a deadlock somebody has taken the fork, as its first one. -/
theorem Ownership.first_taker (h : Ownership first t) (hdeadlock : Deadlock t) {f : Seat n}
    (hf : ¬ (t.forks f).isAvailable = true) :
    ∃ j, f = forkOf (first j) j ∧ (t.philosophers j).Holds (first j) ∧
      (t.philosophers j).currentState = .waiting (first j).other := by
  have htaken : (t.forks f).takenBy ≠ none := fun hnone =>
    hf (decide_eq_true ((h.available_iff f).mpr hnone))
  obtain ⟨j, hj⟩ := Option.ne_none_iff_exists'.mp htaken
  obtain ⟨side', rfl, hholds⟩ := h.taken f j hj
  obtain ⟨side, hwaiting, -⟩ := hdeadlock j
  obtain ⟨hfirst, hother⟩ := h.has_first_of_waiting hwaiting hholds
  exact ⟨j, by rw [hfirst], hfirst ▸ hholds, hother ▸ hwaiting⟩

end

section

variable {t : Table n}

/-- Fork 1 is nobody's first fork. -/
theorem forkOf_first_ne_one (j : Seat n) : forkOf (Strategy.resourceHierarchy.first j) j ≠ 1 := by
  by_cases hj : j = 0
  · rw [hj, Strategy.first_zero]
    simp [forkOf]
  · rw [Strategy.first_of_ne_zero hj]
    intro heq
    exact hj (add_eq_right.mp heq)

/-- Fork 1 is available in a deadlock. -/
theorem Ownership.one_available (h : Ownership Strategy.resourceHierarchy.first t) (hdeadlock : Deadlock t) :
    (t.forks 1).isAvailable = true := by
  by_contra hf
  obtain ⟨j, hj, -⟩ := h.first_taker hdeadlock hf
  exact forkOf_first_ne_one j hj.symm

theorem forkOf_of_waiting (hdeadlock : Deadlock t) {i : Seat n} {side : Side}
    (hwaiting : (t.philosophers i).currentState = .waiting side) :
      ¬ (t.forks (forkOf side i)).isAvailable = true := by
  obtain ⟨side', hwaiting', hf⟩ := hdeadlock i
  rw [hwaiting] at hwaiting'
  cases side <;> cases side' <;> first | exact hf | cases hwaiting'

/-- Nobody but philosopher 0 waits for its left fork: the one before it has taken that fork, and
    waits for its left one. -/
theorem Ownership.not_waiting_left (h : Ownership Strategy.resourceHierarchy.first t)
    (hdeadlock : Deadlock t) (k : Nat)
    (hk : k + 1 < n + 2) : (t.philosophers ⟨k + 1, hk⟩).currentState ≠ .waiting .left := by
  induction k with
  | zero => exact fun hwaiting => forkOf_of_waiting hdeadlock hwaiting (h.one_available hdeadlock)
  | succ k ih =>
    intro hwaiting
    obtain ⟨j, hj, -, hbefore⟩ := h.first_taker hdeadlock (forkOf_of_waiting hdeadlock hwaiting)
    by_cases hzero : j = 0
    · rw [hzero] at hj
      exact absurd (congrArg Fin.val hj) (Nat.succ_ne_zero _)
    · have hprevious : j = ⟨k + 1, Nat.lt_of_succ_lt hk⟩ := by
        rw [Strategy.first_of_ne_zero hzero] at hj
        have hsucc : (⟨k + 1, Nat.lt_of_succ_lt hk⟩ : Seat n) + 1 = ⟨k + 1 + 1, hk⟩ := by
          apply Fin.ext
          rw [Fin.val_add, Fin.val_one, Nat.mod_eq_of_lt hk]
        exact add_right_cancel (hj.symm.trans hsucc.symm)
      rw [Strategy.first_of_ne_zero hzero, hprevious] at hbefore
      exact ih (Nat.lt_of_succ_lt hk) hbefore

theorem Ownership.not_deadlock (h : Ownership Strategy.resourceHierarchy.first t) : ¬ Deadlock t := by
  intro hdeadlock
  obtain ⟨side, hwaiting, hf⟩ := hdeadlock 0
  cases side with
  | right => exact hf (by simpa [forkOf] using h.one_available hdeadlock)
  | left =>
    obtain ⟨j, hj, -, hbefore⟩ := h.first_taker hdeadlock hf
    by_cases hzero : j = 0
    · rw [hzero, hwaiting, Strategy.first_zero] at hbefore
      cases hbefore
    · rw [Strategy.first_of_ne_zero hzero] at hbefore
      obtain ⟨k, hk⟩ := Nat.exists_eq_succ_of_ne_zero fun hval => hzero (Fin.ext hval)
      obtain ⟨j, hlt⟩ := j
      subst hk
      exact h.not_waiting_left hdeadlock k hlt hbefore

end

/-- For every number of philosophers and all random durations: whatever call of the simulation with
    the resource hierarchy was made last, the state is no deadlock. -/
theorem simulation_not_deadlock (initial : Seat n → Draws) (draws : List Draws) :
    ∃ s₀ s, Simulation.create initial = some s₀ ∧
      run (Simulation.step .resourceHierarchy) s₀ draws = some s ∧ ¬ Deadlock s.table := by
  obtain ⟨s₀, s, hcreate, hrun, h⟩ := run_owned .resourceHierarchy initial draws
  exact ⟨s₀, s, hcreate, hrun, h.not_deadlock⟩

end NsuLabs.DiningPhilosophers
