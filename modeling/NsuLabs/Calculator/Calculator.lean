/-
Module: NsuLabs.Calculator.Calculator
Purpose: `C-Labs/Calculator/src/main.c` and its `stack.c`, which `C-Labs/Red-black_tree` has too. `int` is
  `Int32` and wraps around where C leaves overflow undefined; a quotient out of range traps. Behind the stack
  of blocks the stacks are lists, top first; that of operators holds nothing but operators and opening
  brackets. Then the evaluator without its arithmetic, and how it reads the strings of the grammar.
Trusted boundary: Every allocation succeeds; reading the line in `main` is left out
Main exports: Stack.lifo, readTrees_render
-/
import Mathlib

namespace NsuLabs.Calculator

universe u

variable {T : Type u}

def blockSize : Nat := 32

/-- A stack in blocks of 32 elements. -/
structure Stack (T : Type u) where
  /-- `curBlock->data`, unset until it is written. -/
  data : Nat → Option T
  /-- The `data` of the blocks to which `prevBlock` leads, the nearest first. -/
  prevBlocks : List (Nat → Option T)
  curIndex : Nat

namespace Stack

open Function List Option

def makeStack : Stack T := ⟨fun _ => none, [], 0⟩

def isEmpty (stack : Stack T) : Bool := stack.curIndex == 0 && stack.prevBlocks.isEmpty

def push (stack : Stack T) (value : T) : Stack T :=
  -- allocate new block
  let stack := if stack.curIndex = blockSize then ⟨fun _ => none, stack.data :: stack.prevBlocks, 0⟩
    else stack
  { stack with data := update stack.data stack.curIndex (some value), curIndex := stack.curIndex + 1 }

/-- `none` if the assertion fails, or the value was never written. -/
def pop (stack : Stack T) : Option (T × Stack T) :=
  if stack.curIndex = 0 then none
  else (stack.data (stack.curIndex - 1)).map fun value =>
    match stack.curIndex - 1, stack.prevBlocks with
    -- go back to the previous block
    | 0, block :: prevBlocks => (value, ⟨block, prevBlocks, blockSize⟩)
    | curIndex, _ => (value, { stack with curIndex })

def getTop (stack : Stack T) : Option T :=
  if stack.curIndex = 0 then none else stack.data (stack.curIndex - 1)

/-- What calls can lead to, with the values that were pushed and not popped, the last one first. -/
inductive Reaches : List T → Stack T → Prop where
  | makeStack : Reaches [] makeStack
  | push {values : List T} {stack : Stack T} (value : T) :
      Reaches values stack → Reaches (value :: values) (stack.push value)
  | pop {values : List T} {value : T} {stack stack' : Stack T} :
      Reaches values stack → stack.isEmpty = false → stack.pop = some (value, stack') →
        Reaches values.tail stack'

/-- The first `i` values of a block, the last one first. -/
def top (data : Nat → Option T) : Nat → List (Option T)
  | 0 => []
  | i + 1 => data i :: top data i

theorem top_update (data : Nat → Option T) (value : Option T) {i j : Nat} (h : i ≤ j) :
    top (update data j value) i = top data i := by
  induction i with
  | zero => rfl
  | succ i ih => rw [top, top, ih (Nat.le_of_succ_le h), update_of_ne (Nat.ne_of_lt h)]

/-- The blocks hold the values. -/
structure Holds (values : List T) (stack : Stack T) : Prop where
  contents : top stack.data stack.curIndex ++ stack.prevBlocks.flatMap (top · blockSize) = values.map some
  le : stack.curIndex ≤ blockSize
  first : stack.curIndex = 0 → stack.prevBlocks = []

variable {values : List T} {value : T} {stack : Stack T}

theorem Holds.push (h : Holds values stack) (value : T) : Holds (value :: values) (stack.push value) := by
  obtain ⟨data, prevBlocks, curIndex⟩ := stack
  obtain ⟨hcontents, hle, -⟩ := h
  rw [Stack.push]
  split
  case isTrue hfull =>
    refine ⟨?_, Nat.le_of_ble_eq_true rfl, by rintro ⟨⟩⟩
    obtain rfl : curIndex = blockSize := hfull
    exact congrArg (some value :: ·) hcontents
  case isFalse hfull =>
    refine ⟨?_, lt_of_le_of_ne hle hfull, by rintro ⟨⟩⟩
    dsimp only
    rw [top, update_self, top_update _ _ le_rfl]
    exact congrArg (some value :: ·) hcontents

/-- A value is on top, and the rest remains behind it. -/
theorem Holds.pop (h : Holds (value :: values) stack) :
    stack.getTop = some value ∧ ∃ stack', stack.pop = some (value, stack') ∧ Holds values stack' := by
  obtain ⟨data, prevBlocks, curIndex⟩ := stack
  obtain ⟨hcontents, hle, hfirst⟩ := h
  cases curIndex with
  | zero =>
    obtain rfl := hfirst rfl
    cases hcontents
  | succ i =>
    obtain ⟨(hvalue : data i = some value), hrest⟩ := cons_eq_cons.mp hcontents
    refine ⟨hvalue, ?_⟩
    simp only [Stack.pop, Nat.succ_ne_zero, if_false, Nat.add_sub_cancel, hvalue, map_some]
    split
    next block prevBlocks => exact ⟨⟨block, prevBlocks, blockSize⟩, rfl, hrest, le_rfl, by rintro ⟨⟩⟩
    next hback =>
      refine ⟨⟨data, prevBlocks, i⟩, rfl, hrest, Nat.le_of_succ_le hle, ?_⟩
      rintro rfl
      cases prevBlocks with
      | nil => rfl
      | cons block prevBlocks => exact absurd rfl (hback block prevBlocks rfl)

theorem Holds.isEmpty_iff (h : Holds values stack) : stack.isEmpty = true ↔ values = [] := by
  rw [isEmpty, Bool.and_eq_true, beq_iff_eq, List.isEmpty_iff]
  constructor
  · rintro ⟨hzero, hnil⟩
    have hcontents := h.contents
    rw [hzero, hnil] at hcontents
    exact map_eq_nil_iff.mp hcontents.symm
  · rintro rfl
    have hzero : stack.curIndex = 0 := by
      obtain ⟨data, prevBlocks, _ | i⟩ := stack
      · rfl
      · cases h.contents
    exact ⟨hzero, h.first hzero⟩

theorem Reaches.holds (h : Reaches values stack) : Holds values stack := by
  induction h with
  | makeStack => exact ⟨rfl, Nat.zero_le _, fun _ => rfl⟩
  | push value _ ih => exact ih.push value
  | @pop values _ stack _ _ hempty hpop ih =>
    cases values with
    | nil => exact absurd (ih.isEmpty_iff.mpr rfl) (ne_true_of_eq_false hempty)
    | cons value values =>
      obtain ⟨-, stack', hpop', hholds⟩ := ih.pop
      cases hpop.symm.trans hpop'
      exact hholds

/-- The blocks behave as the list of the values, across every block boundary. -/
theorem lifo (h : Reaches values stack) :
    (stack.isEmpty = true ↔ values = []) ∧
      (stack.isEmpty = false → stack.getTop = values.head? ∧ stack.pop.map Prod.fst = values.head?) ∧
      (stack.curIndex = 0 → stack.prevBlocks = []) := by
  refine ⟨h.holds.isEmpty_iff, fun hempty => ?_, h.holds.first⟩
  cases values with
  | nil => exact absurd (h.holds.isEmpty_iff.mpr rfl) (ne_true_of_eq_false hempty)
  | cons value values =>
    obtain ⟨htop, stack', hpop, -⟩ := h.holds.pop
    rw [htop, hpop]
    exact ⟨rfl, rfl⟩

theorem reaches_pushes (h : Reaches values stack) (more : List T) :
    Reaches (more.reverse ++ values) (more.foldl push stack) := by
  induction more generalizing values stack with
  | nil => exact h
  | cons value more ih =>
    rw [reverse_cons, append_assoc]
    exact ih (.push value h)

/-- The first value of a second block. -/
theorem lifo_second_block :
    ((range 33).foldl push makeStack).prevBlocks.length = 1 ∧
      ((range 33).foldl push makeStack).getTop = some 32 :=
  ⟨by decide, ((lifo (reaches_pushes .makeStack (range 33))).2.1 (by decide)).1⟩

end Stack

/-- How a computation ends without a result. -/
inductive Exit where
  | syntaxError
  | divisionByZero
  /-- The quotient of `INT_MIN` and -1 is out of range, and the division stops the program. -/
  | trap
deriving DecidableEq

/-- What `ExitWithMessage` prints. -/
def Exit.message : Exit → Option String
  | syntaxError => some "syntax error"
  | divisionByZero => some "division by zero"
  | trap => none

/-- The characters of `"*/+-"`. -/
inductive Operation where
  | add
  | sub
  | mul
  | div
deriving DecidableEq

/-- What the operator stack holds: `'('` or an operator. -/
inductive StackSymbol where
  | bracket
  | operation (op : Operation)
deriving DecidableEq

/-- What `getNext` delivers: an operand, or one of the characters of `"+-*/()"`. -/
inductive Element where
  | operand (value : Int32)
  | operation (op : Operation)
  | openBracket
  | closeBracket
deriving DecidableEq

/-! ### Operators -/

/-- The `switch` of `ApplyOperator` on `o1` and `o2`. -/
def arithmetic (operator : Operation) (o1 o2 : Int32) : Except Exit Int32 :=
  match operator with
  | .add => .ok (o1 + o2)
  | .sub => .ok (o1 - o2)
  | .mul => .ok (o1 * o2)
  | .div =>
    if o2 = 0 then .error .divisionByZero
    else if o1 = Int32.minValue ∧ o2 = -1 then .error .trap
    else .ok (o1 / o2)

/-- An empty stack at either of the two pops is a syntax error. -/
def applyOperator (operands : List Int32) (operator : Operation) : Except Exit (List Int32) :=
  match operands with
  | o2 :: o1 :: operands => do
      let result ← arithmetic operator o1 o2
      .ok (result :: operands)
  | _ => .error .syntaxError

/-- Applies one operator from the stack if it is among `typesToApply`. -/
def applyTopOperator (operands : List Int32) (operators : List StackSymbol) (typesToApply : List Operation) :
    Except Exit (List Int32 × List StackSymbol) :=
  match operators with
  | .operation op :: rest =>
    if op ∈ typesToApply then do
      let operands ← applyOperator operands op
      .ok (operands, rest)
    else .ok (operands, operators)
  | _ => .ok (operands, operators)

def applyBrackets (operands : List Int32) :
    List StackSymbol → Except Exit (List Int32 × List StackSymbol)
  | .bracket :: operators => .ok (operands, operators)
  | .operation op :: operators => do
      let operands ← applyOperator operands op
      applyBrackets operands operators
  | [] => .error .syntaxError

/-! ### Lexical elements -/

def charToDigit (ch : Char) : Int32 := Int32.ofNat (ch.toNat - '0'.toNat)

/-- The loop over the digits of a number; `value` is what was read before. -/
def readDigits (value : Int32) : List Char → Int32 × List Char
  | ch :: rest =>
    if ch.isDigit then readDigits (value * 10 + charToDigit ch) rest else (value, ch :: rest)
  | [] => (value, [])

/-- The characters that are not digits and not errors. -/
def symbolOf (ch : Char) : Option Element :=
  if ch = '+' then some (.operation .add)
  else if ch = '-' then some (.operation .sub)
  else if ch = '*' then some (.operation .mul)
  else if ch = '/' then some (.operation .div)
  else if ch = '(' then some .openBracket
  else if ch = ')' then some .closeBracket
  else none

/-- The next element and the expression behind it, or `none` at the end. `"()"` is an error when its
    first character is reached. -/
def getNext : List Char → Except Exit (Option (Element × List Char))
  | [] => .ok none
  | ch :: rest =>
    if ch = '(' ∧ rest.head? = some ')' then .error .syntaxError
    else if ch.isDigit then
      let (value, rest) := readDigits 0 (ch :: rest)
      .ok (some (.operand value, rest))
    else
      match symbolOf ch with
      | some element => .ok (some (element, rest))
      | none => .error .syntaxError

theorem length_readDigits (value : Int32) (expr : List Char) :
    (readDigits value expr).2.length ≤ expr.length := by
  induction expr generalizing value with
  | nil => exact Nat.le_refl _
  | cons ch rest ih =>
    rw [readDigits]
    split
    · exact Nat.le_succ_of_le (ih _)
    · exact Nat.le_refl _

theorem length_getNext {expr rest : List Char} {element : Element}
    (h : getNext expr = .ok (some (element, rest))) : rest.length < expr.length := by
  cases expr with
  | nil => simp [getNext] at h
  | cons ch cs =>
    rw [getNext] at h
    split at h
    · cases h
    · split at h
      · rename_i hdigit
        simp only [readDigits, hdigit, if_true, Except.ok.injEq, Option.some.injEq, Prod.mk.injEq] at h
        obtain ⟨-, rfl⟩ := h
        exact Nat.lt_succ_of_le (length_readDigits _ cs)
      · split at h
        · simp only [Except.ok.injEq, Option.some.injEq, Prod.mk.injEq] at h
          obtain ⟨-, rfl⟩ := h
          exact Nat.lt_succ_self _
        · cases h

/-! ### The main loop -/

/-- The body of the loop of `CalculateExpression`. -/
def processElement (operands : List Int32) (operators : List StackSymbol) :
    Element → Except Exit (List Int32 × List StackSymbol)
  | .operand value => .ok (value :: operands, operators)
  | .operation op => do
      -- the pending operator is applied when it has the same or a higher priority
      let (operands, operators) ← applyTopOperator operands operators
        (match op with
          | .mul | .div => [.mul, .div]
          | .add | .sub => [.add, .sub, .mul, .div])
      .ok (operands, .operation op :: operators)
  | .openBracket => .ok (operands, .bracket :: operators)
  | .closeBracket => applyBrackets operands operators

def readExpression (expr : List Char) (operands : List Int32) (operators : List StackSymbol) :
    Except Exit (List Int32 × List StackSymbol) :=
  match _h : getNext expr with
  | .error exit => .error exit
  | .ok none => .ok (operands, operators)
  | .ok (some (element, rest)) =>
    match processElement operands operators element with
    | .error exit => .error exit
    | .ok (operands, operators) => readExpression rest operands operators
termination_by expr.length
decreasing_by exact length_getNext _h

/-- The operators that remain at the end; an opening bracket among them is an error. -/
def applyRemaining (operands : List Int32) : List StackSymbol → Except Exit (List Int32)
  | [] => .ok operands
  | .bracket :: _ => .error .syntaxError
  | .operation op :: operators => do
      let operands ← applyOperator operands op
      applyRemaining operands operators

/-- The result is the top operand; an expression that leaves none is an error. -/
def finalOperand : List Int32 → Except Exit Int32
  | [] => .error .syntaxError
  | result :: _ => .ok result

def calculateExpression (expr : List Char) : Except Exit Int32 := do
  let (operands, operators) ← readExpression expr [] []
  let operands ← applyRemaining operands operators
  finalOperand operands

/-! ### Lexemes -/

/-- An element of the expression, or the place where `getNext` exits. -/
inductive Lexeme where
  | element (element : Element)
  | fault
deriving DecidableEq

def lexemes (expr : List Char) : List Lexeme :=
  match _h : getNext expr with
  | .error _ => [.fault]
  | .ok none => []
  | .ok (some (element, rest)) => .element element :: lexemes rest
termination_by expr.length
decreasing_by exact length_getNext _h

/-- The main loop over lexemes instead of characters. -/
def readLexemes : List Lexeme → List Int32 → List StackSymbol → Except Exit (List Int32 × List StackSymbol)
  | [], operands, operators => .ok (operands, operators)
  | .fault :: _, _, _ => .error .syntaxError
  | .element element :: rest, operands, operators => do
      let (operands, operators) ← processElement operands operators element
      readLexemes rest operands operators

theorem getNext_error {expr : List Char} {exit : Exit} (h : getNext expr = .error exit) :
    exit = .syntaxError := by
  cases expr with
  | nil => simp [getNext] at h
  | cons ch rest =>
    rw [getNext] at h
    split at h
    · cases h
      rfl
    · split at h
      · cases h
      · split at h <;> cases h
        rfl

/-- The equation of `lexemes` without the proof that its match carries for the recursion. -/
theorem lexemes_eq (expr : List Char) :
    lexemes expr =
      match getNext expr with
      | .error _ => [.fault]
      | .ok none => []
      | .ok (some (element, rest)) => .element element :: lexemes rest := by
  rw [lexemes]
  split <;> simp [*]

theorem readExpression_eq (expr : List Char) (operands : List Int32) (operators : List StackSymbol) :
    readExpression expr operands operators =
      match getNext expr with
      | .error exit => .error exit
      | .ok none => .ok (operands, operators)
      | .ok (some (element, rest)) =>
        processElement operands operators element >>= fun p => readExpression rest p.1 p.2 := by
  rw [readExpression]
  split <;> simp only [*]
  cases processElement operands operators _ <;> rfl

theorem readExpression_eq_readLexemes (expr : List Char) :
    ∀ (operands : List Int32) (operators : List StackSymbol),
      readExpression expr operands operators = readLexemes (lexemes expr) operands operators := by
  induction hn : expr.length using Nat.strong_induction_on generalizing expr with
  | _ n ih =>
    subst hn
    intro operands operators
    rw [readExpression_eq, lexemes_eq]
    match hnext : getNext expr with
    | .error exit =>
      obtain rfl := getNext_error hnext
      rfl
    | .ok none => rfl
    | .ok (some (element, rest)) =>
      dsimp only
      rw [readLexemes]
      cases processElement operands operators element with
      | error exit => rfl
      | ok pair => exact ih rest.length (length_getNext hnext) rest rfl pair.1 pair.2

/-! ### Trees in place of values -/

inductive Tree where
  | number (value : Int32)
  | node (op : Operation) (left right : Tree)
deriving DecidableEq

/-- The value, or the first failure of a division. -/
def Tree.value : Tree → Except Exit Int32
  | number value => .ok value
  | node op left right => do
      let o1 ← left.value
      let o2 ← right.value
      arithmetic op o1 o2

/-- The values of a stack of trees; a tree lower in the stack was complete before one above it was
    begun. -/
def values : List Tree → Except Exit (List Int32)
  | [] => .ok []
  | tree :: trees => do
      let rest ← values trees
      let value ← tree.value
      .ok (value :: rest)

/-- A fault carries the trees built before it. -/
def treeApply (trees : List Tree) (operator : Operation) : Except (List Tree) (List Tree) :=
  match trees with
  | right :: left :: trees => .ok (.node operator left right :: trees)
  | _ => .error trees

def treeApplyTop (trees : List Tree) (operators : List StackSymbol) (typesToApply : List Operation) :
    Except (List Tree) (List Tree × List StackSymbol) :=
  match operators with
  | .operation op :: rest =>
    if op ∈ typesToApply then do
      let trees ← treeApply trees op
      .ok (trees, rest)
    else .ok (trees, operators)
  | _ => .ok (trees, operators)

def treeBrackets (trees : List Tree) : List StackSymbol → Except (List Tree) (List Tree × List StackSymbol)
  | .bracket :: operators => .ok (trees, operators)
  | .operation op :: operators => do
      let trees ← treeApply trees op
      treeBrackets trees operators
  | [] => .error trees

def treeProcess (trees : List Tree) (operators : List StackSymbol) :
    Element → Except (List Tree) (List Tree × List StackSymbol)
  | .operand value => .ok (.number value :: trees, operators)
  | .operation op => do
      let (trees, operators) ← treeApplyTop trees operators
        (match op with
          | .mul | .div => [.mul, .div]
          | .add | .sub => [.add, .sub, .mul, .div])
      .ok (trees, .operation op :: operators)
  | .openBracket => .ok (trees, .bracket :: operators)
  | .closeBracket => treeBrackets trees operators

def treeRead : List Lexeme → List Tree → List StackSymbol → Except (List Tree) (List Tree × List StackSymbol)
  | [], trees, operators => .ok (trees, operators)
  | .fault :: _, trees, _ => .error trees
  | .element element :: rest, trees, operators => do
      let (trees, operators) ← treeProcess trees operators element
      treeRead rest trees operators

def treeRemaining (trees : List Tree) : List StackSymbol → Except (List Tree) (List Tree)
  | [] => .ok trees
  | .bracket :: _ => .error trees
  | .operation op :: operators => do
      let trees ← treeApply trees op
      treeRemaining trees operators

/-- The tree of the result, and those that are left under it. -/
def treeFinish (trees : List Tree) (operators : List StackSymbol) : Except (List Tree) (Tree × List Tree) :=
  do
  match ← treeRemaining trees operators with
  | [] => .error []
  | tree :: trees => .ok (tree, trees)

/-- The reading of a whole expression; a fault carries the trees built before it. -/
def readTrees (expr : List Char) : Except (List Tree) (Tree × List Tree) := do
  let (trees, operators) ← treeRead (lexemes expr) [] []
  treeFinish trees operators

/-! ### The evaluator computes the values of the trees -/

section

variable {β γ : Type}

/-- What the evaluator does behind a stage of the reading: a fault is reported if no division has
    failed before. -/
def observe (result : Except (List Tree) β) (k : β → Except Exit γ) : Except Exit γ :=
  match result with
  | .ok x => k x
  | .error trees => values trees >>= fun _ => .error .syntaxError

theorem observe_bind {β' : Type} (result : Except (List Tree) β) (f : β → Except (List Tree) β')
    (k : β' → Except Exit γ) : observe (result >>= f) k = observe result fun x => observe (f x) k := by
  cases result <;> rfl

/-- One operator, and then the rest of the evaluation. -/
theorem values_applyOperator (trees : List Tree) (op : Operation) (k : List Int32 → Except Exit γ) :
    (values trees >>= fun operands => applyOperator operands op >>= k) =
      observe (treeApply trees op) fun trees => values trees >>= k := by
  match trees with
  | [] => rfl
  | [tree] =>
    change _ = values [tree] >>= fun _ => _
    simp only [values]
    cases tree.value <;> rfl
  | right :: left :: rest =>
    change _ = values (.node op left right :: rest) >>= k
    simp only [values, Tree.value, bind_assoc]
    cases values rest with
    | error exit => rfl
    | ok operands =>
      cases left.value with
      | error exit => rfl
      | ok o1 =>
        cases right.value with
        | error exit => rfl
        | ok o2 => exact bind_assoc (arithmetic op o1 o2) _ k

theorem values_applyTopOperator (trees : List Tree) (operators : List StackSymbol)
    (typesToApply : List Operation) (k : List Int32 × List StackSymbol → Except Exit γ) :
    (values trees >>= fun operands => applyTopOperator operands operators typesToApply >>= k) =
      observe (treeApplyTop trees operators typesToApply) fun p => values p.1 >>= fun operands =>
        k (operands, p.2) := by
  cases operators with
  | nil => rfl
  | cons symbol rest =>
    cases symbol with
    | bracket => rfl
    | operation op =>
      by_cases hmem : op ∈ typesToApply
      · simp only [applyTopOperator, treeApplyTop, if_pos hmem, bind_assoc, observe_bind,
          values_applyOperator]
        rfl
      · simp only [applyTopOperator, treeApplyTop, if_neg hmem]
        rfl

theorem values_applyBrackets (trees : List Tree) (operators : List StackSymbol)
    (k : List Int32 × List StackSymbol → Except Exit γ) :
    (values trees >>= fun operands => applyBrackets operands operators >>= k) =
      observe (treeBrackets trees operators) fun p => values p.1 >>= fun operands => k (operands, p.2) := by
  induction operators generalizing trees with
  | nil => rfl
  | cons symbol rest ih =>
    cases symbol with
    | bracket => rfl
    | operation op =>
      simp only [applyBrackets, treeBrackets, bind_assoc, observe_bind, values_applyOperator, ih]

theorem values_applyRemaining (trees : List Tree) (operators : List StackSymbol)
    (k : List Int32 → Except Exit γ) :
    (values trees >>= fun operands => applyRemaining operands operators >>= k) =
      observe (treeRemaining trees operators) fun trees => values trees >>= k := by
  induction operators generalizing trees with
  | nil => rfl
  | cons symbol rest ih =>
    cases symbol with
    | bracket => rfl
    | operation op =>
      simp only [applyRemaining, treeRemaining, bind_assoc, observe_bind, values_applyOperator, ih]

theorem values_processElement (trees : List Tree) (operators : List StackSymbol) (element : Element)
    (k : List Int32 × List StackSymbol → Except Exit γ) :
    (values trees >>= fun operands => processElement operands operators element >>= k) =
      observe (treeProcess trees operators element) fun p => values p.1 >>= fun operands =>
        k (operands, p.2) := by
  cases element with
  | operand value =>
    change _ = values (.number value :: trees) >>= fun _ => _
    simp only [values, Tree.value]
    cases values trees <;> rfl
  | operation op =>
    simp only [processElement, treeProcess, bind_assoc, observe_bind, values_applyTopOperator]
    rfl
  | openBracket => rfl
  | closeBracket => exact values_applyBrackets trees operators k

theorem values_readLexemes (input : List Lexeme) (trees : List Tree) (operators : List StackSymbol)
    (k : List Int32 × List StackSymbol → Except Exit γ) :
    (values trees >>= fun operands => readLexemes input operands operators >>= k) =
      observe (treeRead input trees operators) fun p => values p.1 >>= fun operands =>
        k (operands, p.2) := by
  induction input generalizing trees operators with
  | nil => rfl
  | cons lexeme rest ih =>
    cases lexeme with
    | fault => rfl
    | element element =>
      simp only [readLexemes, treeRead, bind_assoc, observe_bind, values_processElement, ih]

end

/-- `CalculateExpression` ends with the first failure of a division in the trees of the reading;
    otherwise its result is the value of the first tree, or a syntax error at a fault. -/
theorem calculateExpression_eq (expr : List Char) :
    calculateExpression expr = observe (readTrees expr) fun p => values (p.1 :: p.2) >>= finalOperand := by
  rw [calculateExpression, readExpression_eq_readLexemes, readTrees]
  apply (values_readLexemes (lexemes expr) [] [] fun p => applyRemaining p.1 p.2 >>= finalOperand).trans
  cases treeRead (lexemes expr) [] [] with
  | error trees => rfl
  | ok pair =>
    apply (values_applyRemaining pair.1 pair.2 finalOperand).trans
    change _ = observe (treeFinish pair.1 pair.2) _
    rw [treeFinish, observe_bind]
    match treeRemaining pair.1 pair.2 with
    | .error trees => rfl
    | .ok [] => rfl
    | .ok (tree :: trees) => rfl

open List

variable {expr rest : List Char}

/-! ### The grammar -/

inductive AddOp where
  | plus
  | minus
deriving DecidableEq

inductive MulOp where
  | times
  | dividedBy
deriving DecidableEq

mutual

/-- `expr ::= term (('+'|'-') term)*`, grouped to the left. -/
inductive Expr where
  | term (t : Term)
  | add (e : Expr) (op : AddOp) (t : Term)

/-- `term ::= factor (('*'|'/') factor)*`, grouped to the left. -/
inductive Term where
  | factor (f : Factor)
  | mul (t : Term) (op : MulOp) (f : Factor)

/-- `factor ::= digits | '(' expr ')'`; a number is a first digit and the digits behind it. -/
inductive Factor where
  | digits (first : Fin 10) (rest : List (Fin 10))
  | paren (e : Expr)

end

def digitChar (digit : Fin 10) : Char := Nat.digitChar digit

def AddOp.operation : AddOp → Operation
  | plus => .add
  | minus => .sub

def MulOp.operation : MulOp → Operation
  | times => .mul
  | dividedBy => .div

def Operation.char : Operation → Char
  | add => '+'
  | sub => '-'
  | mul => '*'
  | div => '/'

mutual

/-- The string of a derivation. -/
def Expr.render : Expr → List Char
  | .term t => t.render
  | .add e op t => e.render ++ op.operation.char :: t.render

def Term.render : Term → List Char
  | .factor f => f.render
  | .mul t op f => t.render ++ op.operation.char :: f.render

def Factor.render : Factor → List Char
  | .digits first rest => digitChar first :: rest.map digitChar
  | .paren e => '(' :: (e.render ++ [')'])

end

/-! ### The lexemes of a derivable string -/

def numberValue (digits : List (Fin 10)) : Int32 :=
  digits.foldl (fun value (digit : Fin 10) => value * 10 + Int32.ofNat digit.val) 0

mutual

def Expr.elements : Expr → List Element
  | .term t => t.elements
  | .add e op t => e.elements ++ .operation op.operation :: t.elements

def Term.elements : Term → List Element
  | .factor f => f.elements
  | .mul t op f => t.elements ++ .operation op.operation :: f.elements

def Factor.elements : Factor → List Element
  | .digits first rest => [.operand (numberValue (first :: rest))]
  | .paren e => .openBracket :: (e.elements ++ [.closeBracket])

end

/-- A number ends where the next character is not a digit. -/
def NoDigitFirst (expr : List Char) : Prop := ∀ ch ∈ expr.head?, ch.isDigit = false

theorem isDigit_digitChar (digit : Fin 10) : (digitChar digit).isDigit = true := by
  revert digit
  decide

theorem charToDigit_digitChar (digit : Fin 10) : charToDigit (digitChar digit) = Int32.ofNat digit.val := by
  revert digit
  decide

theorem noDigitFirst_operation (op : Operation) (rest : List Char) : NoDigitFirst (op.char :: rest) := by
  intro ch hch
  cases hch
  cases op <;> rfl

theorem lexemes_of_getNext {element : Element} (h : getNext expr = .ok (some (element, rest))) :
    lexemes expr = .element element :: lexemes rest := by
  rw [lexemes_eq, h]

theorem lexemes_nil : lexemes [] = [] := by
  rw [lexemes_eq]
  rfl

theorem lexemes_operation (op : Operation) (rest : List Char) :
    lexemes (op.char :: rest) = .element (.operation op) :: lexemes rest := by
  apply lexemes_of_getNext
  cases op <;> rfl

theorem lexemes_closeBracket (rest : List Char) :
    lexemes (')' :: rest) = .element .closeBracket :: lexemes rest :=
  lexemes_of_getNext rfl

theorem lexemes_openBracket {rest : List Char} (hrest : rest.head? ≠ some ')') :
    lexemes ('(' :: rest) = .element .openBracket :: lexemes rest := by
  apply lexemes_of_getNext
  rw [getNext, if_neg fun h => hrest h.2]
  rfl

theorem readDigits_of_noDigitFirst (value : Int32) (hrest : NoDigitFirst rest) :
    readDigits value rest = (value, rest) := by
  cases rest with
  | nil => rfl
  | cons ch rest => rw [readDigits, hrest ch rfl, if_neg Bool.false_ne_true]

theorem readDigits_digits (digits : List (Fin 10)) (hrest : NoDigitFirst rest) (value : Int32) :
    readDigits value (digits.map digitChar ++ rest) =
      (digits.foldl (fun value (digit : Fin 10) => value * 10 + Int32.ofNat digit.val) value, rest) := by
  induction digits generalizing value with
  | nil => exact readDigits_of_noDigitFirst value hrest
  | cons digit digits ih =>
    rw [map_cons, cons_append, readDigits, isDigit_digitChar, if_pos rfl, ih, charToDigit_digitChar,
      foldl_cons]

theorem lexemes_digits (first : Fin 10) (digits : List (Fin 10)) (hrest : NoDigitFirst rest) :
    lexemes (digitChar first :: (digits.map digitChar ++ rest)) =
      .element (.operand (numberValue (first :: digits))) :: lexemes rest := by
  apply lexemes_of_getNext
  have hbracket : digitChar first ≠ '(' := by
    revert first
    decide
  have hread := readDigits_digits (first :: digits) hrest 0
  rw [map_cons, cons_append] at hread
  rw [getNext, if_neg fun h => hbracket h.1, isDigit_digitChar, if_pos rfl, hread]
  rfl

mutual

/-- No derivable string starts with a closing bracket, so that `"()"` does not occur. -/
theorem Expr.render_head : ∀ (e : Expr) (rest : List Char), (e.render ++ rest).head? ≠ some ')'
  | .term t, rest => t.render_head rest
  | .add e op t, rest => by
      rw [Expr.render, append_assoc]
      exact e.render_head _

theorem Term.render_head : ∀ (t : Term) (rest : List Char), (t.render ++ rest).head? ≠ some ')'
  | .factor f, rest => f.render_head rest
  | .mul t op f, rest => by
      rw [Term.render, append_assoc]
      exact t.render_head _

theorem Factor.render_head : ∀ (f : Factor) (rest : List Char), (f.render ++ rest).head? ≠ some ')'
  | .digits first digits, rest => by
      rw [Factor.render, cons_append, head?_cons]
      revert first
      decide
  | .paren e, rest => by
      rw [Factor.render]
      simp

end

mutual

theorem Expr.lexemes_render : ∀ (e : Expr) {rest : List Char}, NoDigitFirst rest →
    lexemes (e.render ++ rest) = e.elements.map .element ++ lexemes rest
  | .term t, _, hrest => t.lexemes_render hrest
  | .add e op t, rest, hrest => by
      rw [Expr.render, Expr.elements, append_assoc, cons_append,
        e.lexemes_render (noDigitFirst_operation _ _), lexemes_operation, t.lexemes_render hrest]
      simp

theorem Term.lexemes_render : ∀ (t : Term) {rest : List Char}, NoDigitFirst rest →
    lexemes (t.render ++ rest) = t.elements.map .element ++ lexemes rest
  | .factor f, _, hrest => f.lexemes_render hrest
  | .mul t op f, rest, hrest => by
      rw [Term.render, Term.elements, append_assoc, cons_append,
        t.lexemes_render (noDigitFirst_operation _ _), lexemes_operation, f.lexemes_render hrest]
      simp

theorem Factor.lexemes_render : ∀ (f : Factor) {rest : List Char}, NoDigitFirst rest →
    lexemes (f.render ++ rest) = f.elements.map .element ++ lexemes rest
  | .digits first digits, rest, hrest => by
      rw [Factor.render, Factor.elements, cons_append, lexemes_digits first digits hrest]
      rfl
  | .paren e, rest, _ => by
      have hclose : NoDigitFirst (')' :: rest) := by
        intro ch hch
        cases hch
        rfl
      rw [Factor.render, Factor.elements, cons_append, append_assoc, singleton_append,
        lexemes_openBracket (e.render_head _), e.lexemes_render hclose, lexemes_closeBracket]
      simp

end

/-! ### The tree of a derivation

The stacks after an expression has been read: the operators that are still pending, each with its left
operand, the last one first, and the operand on top. -/

abbrev Pending := List (Tree × Operation)

/-- A new `+` or `-` applies one pending operator. -/
def reduceTop : Pending × Tree → Pending × Tree
  | ([], top) => ([], top)
  | ((left, op) :: pending, top) => (pending, .node op left top)

/-- A closing bracket, or the end, applies all of them, the last one first. -/
def collapse : Pending → Tree → Tree
  | [], top => top
  | (left, op) :: pending, top => collapse pending (.node op left top)

mutual

def Expr.load : Expr → Pending × Tree
  | .term t => t.load
  | .add e op t =>
    let (pending, left) := reduceTop e.load
    (t.load.1 ++ (left, op.operation) :: pending, t.load.2)

def Term.load : Term → Pending × Tree
  | .factor f => ([], f.tree)
  | .mul t op f => ([(t.tree, op.operation)], f.tree)

def Term.tree : Term → Tree
  | .factor f => f.tree
  | .mul t op f => .node op.operation t.tree f.tree

def Factor.tree : Factor → Tree
  | .digits first rest => .number (numberValue (first :: rest))
  | .paren e => collapse e.load.1 e.load.2

end

def Expr.tree (e : Expr) : Tree := collapse e.load.1 e.load.2

/-- The pending operators on top of the two stacks. -/
def Pending.trees (pending : Pending) : List Tree := pending.map Prod.fst

def Pending.operators (pending : Pending) : List StackSymbol := pending.map fun p => .operation p.2

theorem treeBrackets_pending (pending : Pending) (top : Tree) (trees : List Tree)
    (operators : List StackSymbol) :
    treeBrackets (top :: (pending.trees ++ trees)) (pending.operators ++ .bracket :: operators) =
      .ok (collapse pending top :: trees, operators) := by
  induction pending generalizing top with
  | nil => rfl
  | cons p pending ih => exact ih (.node p.2 p.1 top)

theorem treeRemaining_pending (pending : Pending) (top : Tree) (trees : List Tree) :
    treeRemaining (top :: (pending.trees ++ trees)) pending.operators =
      .ok (collapse pending top :: trees) := by
  induction pending generalizing top with
  | nil => rfl
  | cons p pending ih => exact ih (.node p.2 p.1 top)

/-- The operators under an expression: none, or an opening bracket. -/
def GroupStart (operators : List StackSymbol) : Prop :=
  operators = [] ∨ ∃ rest, operators = .bracket :: rest

/-- The operators under a term: nothing that a `*` or `/` would apply. -/
def TermStart (operators : List StackSymbol) : Prop :=
  ∀ trees, treeApplyTop trees operators [.mul, .div] = .ok (trees, operators)

variable {operators : List StackSymbol}

theorem GroupStart.treeApplyTop (h : GroupStart operators) (trees : List Tree)
    (typesToApply : List Operation) : treeApplyTop trees operators typesToApply =
      .ok (trees, operators) := by
  obtain rfl | ⟨rest, rfl⟩ := h <;> rfl

theorem GroupStart.termStart (h : GroupStart operators) : TermStart operators :=
  fun trees => h.treeApplyTop trees _

theorem termStart_addOp (op : AddOp) (operators : List StackSymbol) :
    TermStart (.operation op.operation :: operators) := by
  intro trees
  cases op <;> rfl

/-- A `+` or `-` behind an expression. -/
theorem treeRead_addOp (op : AddOp) (rest : List Lexeme) (load : Pending × Tree) (trees : List Tree)
    (h : GroupStart operators) :
    treeRead (.element (.operation op.operation) :: rest) (load.2 :: (load.1.trees ++ trees))
        (load.1.operators ++ operators) =
      treeRead rest ((reduceTop load).2 :: ((reduceTop load).1.trees ++ trees))
        (.operation op.operation :: ((reduceTop load).1.operators ++ operators)) := by
  obtain ⟨pending, top⟩ := load
  cases pending with
  | nil =>
    cases op <;>
    · change (treeApplyTop _ operators _ >>= _) >>= _ = _
      rw [h.treeApplyTop]
      rfl
  | cons p pending =>
    obtain ⟨left, pendingOp⟩ := p
    cases op <;> cases pendingOp <;> rfl

/-- A `*` or `/` behind a term. -/
theorem treeRead_mulOp (op : MulOp) (rest : List Lexeme) (t : Term) (trees : List Tree)
    (h : TermStart operators) :
    treeRead (.element (.operation op.operation) :: rest) (t.load.2 :: (t.load.1.trees ++ trees))
        (t.load.1.operators ++ operators) =
      treeRead rest (t.tree :: trees) (.operation op.operation :: operators) := by
  cases t with
  | factor f =>
    cases op <;>
    · change (treeApplyTop _ operators [.mul, .div] >>= _) >>= _ = _
      rw [h]
      rfl
  | mul t op' f => cases op <;> cases op' <;> rfl

mutual

theorem Expr.treeRead_elements : ∀ (e : Expr) (rest : List Lexeme) (trees : List Tree)
    {operators : List StackSymbol}, GroupStart operators →
    treeRead (e.elements.map .element ++ rest) trees operators =
      treeRead rest (e.load.2 :: (e.load.1.trees ++ trees)) (e.load.1.operators ++ operators)
  | .term t, rest, trees, _, h => t.treeRead_elements rest trees h.termStart
  | .add e op t, rest, trees, operators, h => by
      have helements : (Expr.add e op t).elements.map Lexeme.element ++ rest =
          e.elements.map .element ++ .element (.operation op.operation) ::
            (t.elements.map .element ++ rest) := by
        simp [Expr.elements]
      rw [helements, e.treeRead_elements _ trees h, treeRead_addOp op _ e.load trees h,
        t.treeRead_elements rest _ (termStart_addOp op _)]
      simp [Expr.load, Pending.trees, Pending.operators]

theorem Term.treeRead_elements : ∀ (t : Term) (rest : List Lexeme) (trees : List Tree)
    {operators : List StackSymbol}, TermStart operators →
    treeRead (t.elements.map .element ++ rest) trees operators =
      treeRead rest (t.load.2 :: (t.load.1.trees ++ trees)) (t.load.1.operators ++ operators)
  | .factor f, rest, trees, operators, _ => f.treeRead_elements rest trees operators
  | .mul t op f, rest, trees, operators, h => by
      have helements : (Term.mul t op f).elements.map Lexeme.element ++ rest =
          t.elements.map .element ++ .element (.operation op.operation) ::
            (f.elements.map .element ++ rest) := by
        simp [Term.elements]
      rw [helements, t.treeRead_elements _ trees h, treeRead_mulOp op _ t trees h, f.treeRead_elements]
      rfl

theorem Factor.treeRead_elements : ∀ (f : Factor) (rest : List Lexeme) (trees : List Tree)
    (operators : List StackSymbol),
    treeRead (f.elements.map .element ++ rest) trees operators = treeRead rest (f.tree :: trees) operators
  | .digits first digits, rest, trees, operators => rfl
  | .paren e, rest, trees, operators => by
      have helements : (Factor.paren e).elements.map Lexeme.element ++ rest =
          .element .openBracket :: (e.elements.map .element ++ .element .closeBracket :: rest) := by
        simp [Factor.elements]
      have hgroup : GroupStart (.bracket :: operators) := .inr ⟨operators, rfl⟩
      rw [helements]
      change treeRead (e.elements.map .element ++ .element .closeBracket :: rest) trees
        (.bracket :: operators) = _
      rw [e.treeRead_elements _ trees hgroup, treeRead, treeProcess, treeBrackets_pending]
      rfl

end

theorem Expr.lexemes_eq (e : Expr) : lexemes e.render = e.elements.map .element := by
  have h := @Expr.lexemes_render e [] (by intro ch hch; cases hch)
  rwa [append_nil, lexemes_nil, append_nil] at h

/-- Every derivable string is read without a fault. -/
theorem readTrees_render (e : Expr) : readTrees e.render = .ok (e.tree, []) := by
  have hread := @Expr.treeRead_elements e [] [] [] (.inl rfl)
  rw [append_nil, append_nil, append_nil] at hread
  have hremaining := treeRemaining_pending e.load.1 e.load.2 []
  rw [append_nil] at hremaining
  rw [readTrees, e.lexemes_eq, hread, treeRead]
  change treeFinish _ _ = _
  rw [treeFinish, hremaining]
  rfl

end NsuLabs.Calculator
