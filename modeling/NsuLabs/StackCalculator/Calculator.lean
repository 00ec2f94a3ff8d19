/-
Module: NsuLabs.StackCalculator.Calculator
Purpose: `Java-Labs/StackCalculator` (CalcContext, the commands, CommandFactory with its mappings and the
  execution loop of StackCalculator). A command runs in a monad that keeps the changes of the context when an
  exception is thrown. A `double` is its bits; the comparisons with zero are exact, and arithmetic, parsing
  and the class of a character are parameters.
Trusted boundary: the definitions
Main exports: Command.exec, execLine_restores_iff
-/
import Mathlib

namespace NsuLabs.StackCalculator

/-- The bits of a `double`. -/
abbrev Double := BitVec 64

/-- `value < 0`: the sign is set, and the value is neither negative zero nor a NaN. -/
def Double.isNegative (value : Double) : Bool :=
  0x8000000000000000#64 < value && value ≤ 0xFFF0000000000000#64

/-- `value == 0`: either of the zeros. -/
def Double.isZero (value : Double) : Bool := value = 0x0000000000000000#64 || value = 0x8000000000000000#64

/-- What the commands take from the Java library. -/
structure Library where
  add : Double → Double → Double
  subtract : Double → Double → Double
  multiply : Double → Double → Double
  divide : Double → Double → Double
  sqrt : Double → Double
  parseDouble : String → Option Double
  isLetter : Char → Bool

/-! ### The context -/

/-- What `print` has written. -/
inductive Printed where
  | stackIsEmpty
  | topOfTheStack (value : Double)
deriving DecidableEq

/-- What the commands work on. -/
structure CalcContext where
  parameters : String → Option Double
  /-- The top of the stack is the first element. -/
  stack : List Double
  outputCLIStream : List Printed

inductive CommandException where
  | emptyStack
  | undefinedParameter (name : String)
  | execute (rawCommandText : String) (line : Nat) (reason : String)
  | notEnoughOperands (rawCommandText : String) (line : Nat)
  | argumentsCountMismatch (rawCommandText : String) (line : Nat) (expected actual : Nat)
  | wrongArgumentsFormat (rawCommandText : String) (line : Nat) (reason : String)
  | unknownCommand (commandName : String)
deriving DecidableEq

/-- A thrown exception leaves the context as it is. -/
abbrev Exec := ExceptT CommandException (StateM CalcContext)

namespace CalcContext

def pushValue (val : Double) : Exec Unit :=
  modify fun context => { context with stack := val :: context.stack }

def popValue : Exec Double := do
  match (← get).stack with
  | [] => throw .emptyStack
  | val :: stack =>
    modify fun context => { context with stack }
    return val

def stackSize : Exec Nat := return (← get).stack.length

def isStackEmpty : Exec Bool := return (← get).stack.isEmpty

def peekValue : Exec Double := do
  match (← get).stack with
  | [] => throw .emptyStack
  | val :: _ => return val

def println (text : Printed) : Exec Unit :=
  modify fun context => { context with outputCLIStream := context.outputCLIStream ++ [text] }

def getParameter (name : String) : Exec Double := do
  match (← get).parameters name with
  | none => throw (.undefinedParameter name)
  | some value => return value

/-- Returns the value that the parameter had before. -/
def addParameter (name : String) (value : Double) : Exec (Option Double) := do
  let old := (← get).parameters name
  modify fun context =>
    { context with parameters := fun other => if other = name then some value else context.parameters other }
  return old

end CalcContext

/-! ### Commands -/

/-- `CommandParser.Data`. -/
structure Data where
  name : String
  args : List String
  rawCommandText : String
  line : Nat
deriving DecidableEq

inductive Command where
  | push (rawCommandText : String) (lineNumber : Nat) (value : Double) (parameterName : Option String)
  | pop (rawCommandText : String) (lineNumber : Nat)
  | sum (rawCommandText : String) (lineNumber : Nat)
  | subtract (rawCommandText : String) (lineNumber : Nat)
  | multiply (rawCommandText : String) (lineNumber : Nat)
  | divide (rawCommandText : String) (lineNumber : Nat)
  | sqrt (rawCommandText : String) (lineNumber : Nat)
  | define (name : String) (value : Double)
  | print
deriving DecidableEq

section

open CalcContext

variable (lib : Library)

/-- The constructor of `PushCommand`. -/
def PushCommand.new (data : Data) : Except CommandException Command :=
  match data.args with
  | [] => .error (.argumentsCountMismatch data.rawCommandText data.line 1 0)
  | arg :: _ =>
    if arg.toList.all lib.isLetter then .ok (.push data.rawCommandText data.line 0 (some arg))
    else
      match lib.parseDouble arg with
      | none => .error (.wrongArgumentsFormat data.rawCommandText data.line
          "failed to parse floating point value")
      | some value => .ok (.push data.rawCommandText data.line value none)

/-- The constructor of `DefineCommand`. -/
def DefineCommand.new (data : Data) : Except CommandException Command :=
  match data.args with
  | name :: text :: _ =>
    if !name.toList.all lib.isLetter then
      .error (.wrongArgumentsFormat data.rawCommandText data.line
        "parameter name must contain only letter symbols")
    else
      match lib.parseDouble text with
      | none => .error (.wrongArgumentsFormat data.rawCommandText data.line
          "failed to parse floating point value")
      | some value => .ok (.define name value)
  | args => .error (.argumentsCountMismatch data.rawCommandText data.line 2 args.length)

/-- `create` with the mappings of commandMappings.properties. -/
def CommandFactory.create (data : Data) : Except CommandException Command :=
  match data.name with
  | "+" => .ok (.sum data.rawCommandText data.line)
  | "-" => .ok (.subtract data.rawCommandText data.line)
  | "*" => .ok (.multiply data.rawCommandText data.line)
  | "/" => .ok (.divide data.rawCommandText data.line)
  | "SQRT" => .ok (.sqrt data.rawCommandText data.line)
  | "PUSH" => PushCommand.new lib data
  | "PRINT" => .ok .print
  | "DEFINE" => DefineCommand.new lib data
  | "POP" => .ok (.pop data.rawCommandText data.line)
  | name => .error (.unknownCommand name)

def PushCommand.exec (rawCommandText : String) (lineNumber : Nat) (value : Double)
    (parameterName : Option String) : Exec Unit := do
  match parameterName with
  | none => pushValue value
  | some parameterName =>
    let value ← tryCatch (getParameter parameterName) fun _ =>
      throw (.execute rawCommandText lineNumber ("Parameter \"" ++ parameterName ++ "\" is undefined"))
    pushValue value

def PopCommand.exec (rawCommandText : String) (lineNumber : Nat) : Exec Unit := do
  if ← isStackEmpty then throw (.execute rawCommandText lineNumber "stack is empty")
  let _ ← popValue

/-- The commands that combine the two upper values, whatever they are. -/
def binaryExec (operation : Double → Double → Double) (rawCommandText : String) (lineNumber : Nat) :
    Exec Unit := do
  if (← stackSize) < 2 then throw (.notEnoughOperands rawCommandText lineNumber)
  let o1 ← popValue
  let o2 ← popValue
  pushValue (operation o1 o2)

def SumCommand.exec : String → Nat → Exec Unit := binaryExec lib.add

def SubtractCommand.exec : String → Nat → Exec Unit := binaryExec lib.subtract

def MultiplyCommand.exec : String → Nat → Exec Unit := binaryExec lib.multiply

def DivideCommand.exec (rawCommandText : String) (lineNumber : Nat) : Exec Unit := do
  if (← stackSize) < 2 then throw (.notEnoughOperands rawCommandText lineNumber)
  let o1 ← popValue
  let o2 ← popValue
  if o2.isZero then
    pushValue o2
    pushValue o1
    throw (.execute rawCommandText lineNumber "division by zero")
  pushValue (lib.divide o1 o2)

def SqrtCommand.exec (rawCommandText : String) (lineNumber : Nat) : Exec Unit := do
  if (← stackSize) < 1 then throw (.notEnoughOperands rawCommandText lineNumber)
  let o1 ← popValue
  if o1.isNegative then
    throw (.execute rawCommandText lineNumber "taking square root of negative value is impossible")
  pushValue (lib.sqrt o1)

def DefineCommand.exec (name : String) (value : Double) : Exec Unit := do
  let _ ← addParameter name value

def PrintCommand.exec : Exec Unit := do
  if ← isStackEmpty then println .stackIsEmpty
  else println (.topOfTheStack (← peekValue))

def Command.exec : Command → Exec Unit
  | .push rawCommandText lineNumber value parameterName =>
    PushCommand.exec rawCommandText lineNumber value parameterName
  | .pop rawCommandText lineNumber => PopCommand.exec rawCommandText lineNumber
  | .sum rawCommandText lineNumber => SumCommand.exec lib rawCommandText lineNumber
  | .subtract rawCommandText lineNumber => SubtractCommand.exec lib rawCommandText lineNumber
  | .multiply rawCommandText lineNumber => MultiplyCommand.exec lib rawCommandText lineNumber
  | .divide rawCommandText lineNumber => DivideCommand.exec lib rawCommandText lineNumber
  | .sqrt rawCommandText lineNumber => SqrtCommand.exec lib rawCommandText lineNumber
  | .define name value => DefineCommand.exec name value
  | .print => PrintCommand.exec

/-! ### The execution loop -/

/-- The body of the `try`. -/
def execLine (data : Data) : Exec Unit := do
  let command ← ExceptT.mk (pure (CommandFactory.create lib data))
  command.exec lib

/-- The context behind all lines, and the exceptions that were logged. -/
def execLines : List Data → CalcContext → CalcContext × List CommandException
  | [], context => (context, [])
  | data :: lines, context =>
    match (execLine lib data).run.run context with
    | (.ok (), context) => execLines lines context
    | (.error exception, context) =>
      let (context, exceptions) := execLines lines context
      (context, exception :: exceptions)

end

open CalcContext

/-! ### Running a command -/

section

variable {α β : Type} {context : CalcContext}

theorem run_bind (x : Exec α) (f : α → Exec β) (context : CalcContext) :
    (x >>= f).run.run context =
      match x.run.run context with
      | (.ok a, context') => (f a).run.run context'
      | (.error e, context') => (.error e, context') := by
  simp only [ExceptT.run_bind, StateT.run_bind]
  rcases x.run.run context with ⟨_ | _, context'⟩ <;> rfl

theorem run_throw (e : CommandException) (context : CalcContext) :
    (throw e : Exec α).run.run context = (.error e, context) := rfl

theorem run_tryCatch (x : Exec α) (handler : CommandException → Exec α) (context : CalcContext) :
    (tryCatch x handler).run.run context =
      match x.run.run context with
      | (.ok a, context') => (.ok a, context')
      | (.error e, context') => (handler e).run.run context' := by
  have htry : tryCatch x handler = ExceptT.tryCatch x handler := rfl
  have hrun : StateT.run x context = x.run.run context := rfl
  rw [htry, ExceptT.tryCatch, ExceptT.run_mk, StateT.run_bind, hrun]
  rcases x.run.run context with ⟨_ | _, context'⟩ <;> rfl

theorem run_ite (c : Prop) [Decidable c] (x y : Exec α) (context : CalcContext) :
    (if c then x else y).run.run context = if c then x.run.run context else y.run.run context := by
  split <;> rfl

theorem run_stackSize (context : CalcContext) :
    stackSize.run.run context = (.ok context.stack.length, context) := rfl

theorem run_pushValue (val : Double) (context : CalcContext) :
    (pushValue val).run.run context = (.ok (), { context with stack := val :: context.stack }) := rfl

theorem run_popValue (parameters : String → Option Double) (val : Double) (stack : List Double)
    (outputCLIStream : List Printed) :
    popValue.run.run ⟨parameters, val :: stack, outputCLIStream⟩ =
      (.ok val, ⟨parameters, stack, outputCLIStream⟩) := rfl

end

/-! ### What the commands do -/

section

variable (lib : Library) (rawCommandText : String) (lineNumber : Nat) (parameters : String → Option Double)
  (stack : List Double) (outputCLIStream : List Printed)

theorem run_push (value : Double) (parameterName : Option String) :
    (PushCommand.exec rawCommandText lineNumber value parameterName).run.run
      ⟨parameters, stack, outputCLIStream⟩ =
      match parameterName with
      | none => (.ok (), ⟨parameters, value :: stack, outputCLIStream⟩)
      | some name =>
        match parameters name with
        | none => (.error (.execute rawCommandText lineNumber ("Parameter \"" ++ name ++ "\" is undefined")),
            ⟨parameters, stack, outputCLIStream⟩)
        | some value => (.ok (), ⟨parameters, value :: stack, outputCLIStream⟩) := by
  cases parameterName with
  | none => rfl
  | some name =>
    have hget : (getParameter name).run.run ⟨parameters, stack, outputCLIStream⟩ =
        match parameters name with
        | none => (.error (.undefinedParameter name), ⟨parameters, stack, outputCLIStream⟩)
        | some value => (.ok value, ⟨parameters, stack, outputCLIStream⟩) := by
      have hrun : (getParameter name).run.run ⟨parameters, stack, outputCLIStream⟩ =
          (match parameters name with
          | none => (throw (CommandException.undefinedParameter name) : Exec Double)
          | some value => return value).run.run ⟨parameters, stack, outputCLIStream⟩ := rfl
      rw [hrun]
      cases parameters name <;> rfl
    simp only [PushCommand.exec, run_bind, run_tryCatch, hget]
    cases parameters name <;> rfl

theorem run_pop :
    (PopCommand.exec rawCommandText lineNumber).run.run ⟨parameters, stack, outputCLIStream⟩ =
      match stack with
      | [] => (.error (.execute rawCommandText lineNumber "stack is empty"),
        ⟨parameters, [], outputCLIStream⟩)
      | _ :: rest => (.ok (), ⟨parameters, rest, outputCLIStream⟩) := by
  cases stack <;> rfl

theorem run_binary (operation : Double → Double → Double) :
    (binaryExec operation rawCommandText lineNumber).run.run ⟨parameters, stack, outputCLIStream⟩ =
      match stack with
      | o1 :: o2 :: rest => (.ok (), ⟨parameters, operation o1 o2 :: rest, outputCLIStream⟩)
      | stack => (.error (.notEnoughOperands rawCommandText lineNumber),
        ⟨parameters, stack, outputCLIStream⟩) := by
  match stack with
  | [] | [_] => rfl
  | o1 :: o2 :: rest =>
    have hsize : ¬ (o1 :: o2 :: rest).length < 2 := by simp
    simp only [binaryExec, run_bind, run_stackSize, if_neg hsize, run_popValue, run_pushValue]

theorem run_divide :
    (DivideCommand.exec lib rawCommandText lineNumber).run.run ⟨parameters, stack, outputCLIStream⟩ =
      match stack with
      | o1 :: o2 :: rest =>
        if o2.isZero then
          (.error (.execute rawCommandText lineNumber "division by zero"),
            ⟨parameters, o1 :: o2 :: rest, outputCLIStream⟩)
        else (.ok (), ⟨parameters, lib.divide o1 o2 :: rest, outputCLIStream⟩)
      | stack => (.error (.notEnoughOperands rawCommandText lineNumber),
        ⟨parameters, stack, outputCLIStream⟩) := by
  match stack with
  | [] | [_] => rfl
  | o1 :: o2 :: rest =>
    have hsize : ¬ (o1 :: o2 :: rest).length < 2 := by simp
    simp only [DivideCommand.exec, run_bind, run_stackSize, run_ite, if_neg hsize, run_popValue,
      run_pushValue, run_throw]

theorem run_sqrt :
    (SqrtCommand.exec lib rawCommandText lineNumber).run.run ⟨parameters, stack, outputCLIStream⟩ =
      match stack with
      | o1 :: rest =>
        if o1.isNegative then
          (.error (.execute rawCommandText lineNumber "taking square root of negative value is impossible"),
            ⟨parameters, rest, outputCLIStream⟩)
        else (.ok (), ⟨parameters, lib.sqrt o1 :: rest, outputCLIStream⟩)
      | [] => (.error (.notEnoughOperands rawCommandText lineNumber),
        ⟨parameters, [], outputCLIStream⟩) := by
  match stack with
  | [] => rfl
  | o1 :: rest =>
    have hsize : ¬ (o1 :: rest).length < 1 := by simp
    simp only [SqrtCommand.exec, run_bind, run_stackSize, run_ite, if_neg hsize, run_popValue,
      run_pushValue, run_throw]

theorem run_print :
    ∃ printed, PrintCommand.exec.run.run ⟨parameters, stack, outputCLIStream⟩ =
      (.ok (), ⟨parameters, stack, outputCLIStream ++ [printed]⟩) := by
  cases stack with
  | nil => exact ⟨.stackIsEmpty, rfl⟩
  | cons value rest => exact ⟨.topOfTheStack value, rfl⟩

end

/-! ### Exceptions -/

/-- If the command throws, the stack and the parameters are as before. -/
def Restores (command : Exec Unit) (context : CalcContext) : Prop :=
  ∀ exception context', command.run.run context = (.error exception, context') →
    context'.stack = context.stack ∧ context'.parameters = context.parameters

/-- The command takes the square root of a negative value. -/
def Command.TakesOperand (command : Command) (context : CalcContext) : Prop :=
  match command with
  | .sqrt _ _ => ∃ o1 rest, context.stack = o1 :: rest ∧ o1.isNegative = true
  | _ => False

section

variable (lib : Library) {context context' : CalcContext} {exception : CommandException}

theorem binary_error {operation : Double → Double → Double} {rawCommandText : String} {lineNumber : Nat}
    (h : (binaryExec operation rawCommandText lineNumber).run.run context = (.error exception, context')) :
    context' = context := by
  obtain ⟨parameters, stack, outputCLIStream⟩ := context
  rw [run_binary] at h
  split at h
  · cases h
  · exact (Prod.mk.inj h).2.symm

/-- All other exceptions leave the whole context as it was. -/
theorem Command.exec_error (command : Command) (htakes : ¬ command.TakesOperand context)
    (h : (command.exec lib).run.run context = (.error exception, context')) : context' = context := by
  obtain ⟨parameters, stack, outputCLIStream⟩ := context
  cases command with
  | push rawCommandText lineNumber value parameterName =>
    rw [Command.exec, run_push] at h
    split at h
    · cases h
    · split at h
      · exact (Prod.mk.inj h).2.symm
      · cases h
  | pop rawCommandText lineNumber =>
    rw [Command.exec, run_pop] at h
    split at h
    · exact (Prod.mk.inj h).2.symm
    · cases h
  | sum rawCommandText lineNumber | subtract rawCommandText lineNumber => exact binary_error h
  | multiply rawCommandText lineNumber => exact binary_error h
  | divide rawCommandText lineNumber =>
    rw [Command.exec, run_divide] at h
    split at h
    -- both operands were pushed back
    · split at h
      · exact (Prod.mk.inj h).2.symm
      · cases h
    · exact (Prod.mk.inj h).2.symm
  | sqrt rawCommandText lineNumber =>
    rw [Command.exec, run_sqrt] at h
    split at h
    · split at h
      case isTrue hnegative => exact absurd ⟨_, _, rfl, hnegative⟩ htakes
      case isFalse => cases h
    · exact (Prod.mk.inj h).2.symm
  | define name value => cases h
  | print =>
    obtain ⟨printed, hprint⟩ := run_print parameters stack outputCLIStream
    rw [Command.exec, hprint] at h
    cases h

/-- The square root of a negative value leaves the stack without that value. -/
theorem Command.exec_takes (command : Command) (htakes : command.TakesOperand context) :
    ∃ exception context', (command.exec lib).run.run context = (.error exception, context') ∧
      context'.stack.length + 1 = context.stack.length := by
  obtain ⟨parameters, stack, outputCLIStream⟩ := context
  cases command with
  | sqrt rawCommandText lineNumber =>
    obtain ⟨o1, rest, hstack, hnegative⟩ := htakes
    cases hstack
    refine ⟨_, _, (run_sqrt ..).trans (if_pos hnegative), rfl⟩
  | _ => exact htakes.elim

/-! ### Lines -/

theorem run_execLine (data : Data) (context : CalcContext) :
    (execLine lib data).run.run context =
      match CommandFactory.create lib data with
      | .error exception => (.error exception, context)
      | .ok command => (command.exec lib).run.run context := by
  rw [execLine, run_bind]
  cases CommandFactory.create lib data <;> rfl

/-- The line takes the square root of a negative value. -/
def Data.TakesOperand (data : Data) (context : CalcContext) : Prop :=
  data.name = "SQRT" ∧ ∃ o1 rest, context.stack = o1 :: rest ∧ o1.isNegative = true

theorem create_takesOperand {data : Data} {command : Command}
    (h : CommandFactory.create lib data = .ok command) :
    command.TakesOperand context ↔ data.TakesOperand context := by
  have hpush : PushCommand.new lib data = .ok command → ¬ command.TakesOperand context := by
    intro h
    rw [PushCommand.new] at h
    split at h
    · cases h
    · split at h
      · cases h
        exact id
      · split at h <;> cases h
        exact id
  have hdefine : DefineCommand.new lib data = .ok command → ¬ command.TakesOperand context := by
    intro h
    rw [DefineCommand.new] at h
    split at h
    · split at h
      · cases h
      · split at h <;> cases h
        exact id
    · cases h
  have hother : data.name ≠ "SQRT" → ¬ command.TakesOperand context →
      (command.TakesOperand context ↔ data.TakesOperand context) :=
    fun hname hcommand => iff_of_false hcommand fun htakes => hname htakes.1
  rw [CommandFactory.create] at h
  split at h
  case h_5 hname =>
    cases h
    exact ⟨fun htakes => ⟨hname, htakes⟩, And.right⟩
  case h_6 hname => exact hother (by rw [hname]; decide) (hpush h)
  case h_8 hname => exact hother (by rw [hname]; decide) (hdefine h)
  case h_10 => cases h
  all_goals
    rename_i hname
    cases h
    exact hother (by rw [hname]; decide) id

/-- A line leaves the stack and the parameters as they were when it throws, for every line and every
    context, exactly if it does not take the square root of a negative value. -/
theorem execLine_restores_iff (data : Data) (context : CalcContext) :
    Restores (execLine lib data) context ↔ ¬ data.TakesOperand context := by
  rw [Restores, run_execLine]
  cases hcreate : CommandFactory.create lib data with
  | error exception =>
    refine iff_of_true ?_ ?_
    · intro exception' context' h
      cases h
      exact ⟨rfl, rfl⟩
    · rintro ⟨hname, -⟩
      rw [CommandFactory.create, hname] at hcreate
      cases hcreate
  | ok command =>
    rw [← create_takesOperand lib hcreate]
    constructor
    · intro hrestores htakes
      obtain ⟨exception, context', hrun, hlength⟩ := command.exec_takes lib htakes
      rw [(hrestores exception context' hrun).1] at hlength
      omega
    · intro htakes exception context' hrun
      rw [command.exec_error lib htakes hrun]
      exact ⟨rfl, rfl⟩

/-- Arithmetic for a run that calls none of it. -/
def idleLibrary : Library where
  add := fun _ _ => 0
  subtract := fun _ _ => 0
  multiply := fun _ _ => 0
  divide := fun _ _ => 0
  sqrt := fun _ => 0
  parseDouble := fun _ => none
  isLetter := fun _ => false

/-- The stack holds -1 and the line is `SQRT`: the stack is empty behind the exception. -/
theorem sqrt_loses_operand :
    (execLine idleLibrary ⟨"SQRT", [], "SQRT", 2⟩).run.run ⟨fun _ => none, [0xBFF0000000000000#64], []⟩ =
        (.error (.execute "SQRT" 2 "taking square root of negative value is impossible"),
          ⟨fun _ => none, [], []⟩) ∧
      ¬ Restores (execLine idleLibrary ⟨"SQRT", [], "SQRT", 2⟩)
        ⟨fun _ => none, [0xBFF0000000000000#64], []⟩ := by
  refine ⟨rfl, fun hrestores => ?_⟩
  cases (hrestores _ _ rfl).1

/-! ### Sessions -/

/-- The lines that do not throw where they are executed. -/
def survivors : List Data → CalcContext → List Data
  | [], _ => []
  | data :: lines, context =>
    match (execLine lib data).run.run context with
    | (.ok (), context') => data :: survivors lines context'
    | (.error _, context') => survivors lines context'

/-- No line of the session takes the square root of a negative value. -/
def NeverTakesOperand : List Data → CalcContext → Prop
  | [], _ => True
  | data :: lines, context =>
    ¬ data.TakesOperand context ∧ NeverTakesOperand lines ((execLine lib data).run.run context).2

/-- A session goes on behind a failed line as if that line had not been there. -/
theorem execLines_eq_survivors (lines : List Data) (context : CalcContext)
    (h : NeverTakesOperand lib lines context) :
    execLines lib (survivors lib lines context) context = ((execLines lib lines context).1, []) := by
  induction lines generalizing context with
  | nil => rfl
  | cons data lines ih =>
    obtain ⟨hdata, hlines⟩ := h
    rcases hrun : (execLine lib data).run.run context with ⟨exception | ⟨⟩, context'⟩
    · have hcontext : context' = context := by
        rw [run_execLine] at hrun
        cases hcreate : CommandFactory.create lib data with
        | error exception =>
          rw [hcreate] at hrun
          exact (Prod.mk.inj hrun).2.symm
        | ok command =>
          rw [hcreate] at hrun
          rw [← create_takesOperand lib hcreate] at hdata
          exact command.exec_error lib hdata hrun
      rw [hrun, hcontext] at hlines
      rw [survivors, execLines, hrun, hcontext]
      exact ih context hlines
    · rw [hrun] at hlines
      simp only [survivors, execLines, hrun]
      exact ih context' hlines

end

/-- Reads the two numbers of the session below. -/
def readingLibrary : Library :=
  { idleLibrary with
    parseDouble := fun text =>
      if text = "0" then some 0 else if text = "15" then some 0x402E000000000000#64 else none }

/-- `PUSH 0`, `PUSH 15`, `/`, `PRINT`: the division by zero puts its operands back, and 15 is
    printed. -/
def divisionSession : List Data :=
  [⟨"PUSH", ["0"], "PUSH 0", 1⟩, ⟨"PUSH", ["15"], "PUSH 15", 2⟩, ⟨"/", [], "/", 3⟩,
    ⟨"PRINT", [], "PRINT", 4⟩]

theorem execLines_eq_survivors_division :
    survivors readingLibrary divisionSession ⟨fun _ => none, [], []⟩ =
        [⟨"PUSH", ["0"], "PUSH 0", 1⟩, ⟨"PUSH", ["15"], "PUSH 15", 2⟩, ⟨"PRINT", [], "PRINT", 4⟩] ∧
      execLines readingLibrary (survivors readingLibrary divisionSession ⟨fun _ => none, [], []⟩)
          ⟨fun _ => none, [], []⟩ =
        (⟨fun _ => none, [0x402E000000000000#64, 0], [.topOfTheStack 0x402E000000000000#64]⟩, []) := by
  have hlines : NeverTakesOperand readingLibrary divisionSession ⟨fun _ => none, [], []⟩ := by
    refine ⟨?_, ?_, ?_, ?_, trivial⟩
    all_goals
      intro htakes
      exact absurd htakes.1 (by decide)
  exact ⟨rfl, execLines_eq_survivors readingLibrary divisionSession _ hlines⟩

end NsuLabs.StackCalculator
