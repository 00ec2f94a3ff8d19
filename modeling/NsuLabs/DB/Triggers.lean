/-
Module: NsuLabs.DB.Triggers
Purpose: Tables of DB/script/01-ddl.sql with the triggers of DB/script/02-triggers.sql that check them: those
  that assign people and machines for a period, and `object` and `work_schedule` with their dates. A
  statement changes one row; the triggers see the tables before it, and a rejected statement changes nothing.
Trusted boundary: The foreign keys to other tables, which only reject further
  statements, are left out
Main exports: Database, step
-/
import NsuLabs.Lib.Sql

namespace NsuLabs.DB

open NsuLabs.Lib.Sql

/-- A row of one of the tables. -/
structure Assignment (δ : Type) where
  /-- The primary key. -/
  id : Int
  /-- `brigade_id`, `site_id` or `department_id`. -/
  place : Int
  /-- `worker_id`, `specialist_id` or `machine_id`. -/
  holder : Int
  startDate : δ
  endDate : Option δ
deriving DecidableEq

/-- The row `NEW` of a trigger, before `NOT NULL` is checked. -/
structure NewAssignment (δ : Type) where
  id : Option Int
  place : Option Int
  holder : Option Int
  startDate : Option δ
  endDate : Option δ
deriving DecidableEq

inductive Table where
  | brigadier
  | brigadeWorker
  | siteSupervisor
  | siteSpecialist
  | departmentSupervisor
  | siteMachine
deriving DecidableEq

abbrev Database (δ : Type) := Table → List (Assignment δ)

/-- Why a statement is rejected. -/
inductive Violation (δ : Type) where
  /-- `RAISE EXCEPTION` with its text, the ids in it and the period in it. -/
  | raised (text : String) (ids : List (Option Int)) (period : Option (δ × Option δ))
  /-- The parameters of a `RAISE EXCEPTION` name a column that `NEW` does not have. -/
  | noField (name : String)
  | notNull
  | check
  | primaryKey
deriving DecidableEq

section

variable {δ : Type} [LinearOrder δ]

/-! ### The conditions of the triggers -/

/-- `(end_date IS NULL OR end_date > NEW.start_date) AND (NEW.end_date IS NULL OR start_date <
    NEW.end_date)`; some triggers have `>=` in the place of `>`. -/
def overlaps (endsAfter : δ → δ → Bool) (row : Assignment δ) (new : NewAssignment δ) : Truth :=
  ((isNull row.endDate).or (compare endsAfter row.endDate new.startDate)).and
    ((isNull new.endDate).or (compare (· < ·) (some row.startDate) new.endDate))

/-- `id != COALESCE(NEW.id, -1)`, for the primary key or another id. -/
def differs (id : Int) (newId : Option Int) : Truth := compare (· ≠ ·) (some id) (some (newId.getD (-1)))

def sameId (id : Int) (newId : Option Int) : Truth := compare (· = ·) (some id) newId

/-- `SELECT * INTO existing …; IF FOUND THEN RAISE EXCEPTION`. -/
def raiseIfFound (rows : List (Assignment δ)) (condition : Assignment δ → Truth)
    (violation : Assignment δ → Violation δ) : Except (Violation δ) Unit :=
  match rows.find? fun row => (condition row).Holds with
  | some existing => .error (violation existing)
  | none => .ok ()

/-- `SELECT COUNT(*) INTO count …; IF count > 0 THEN RAISE EXCEPTION`. -/
def raiseIfCounted (rows : List (Assignment δ)) (condition : Assignment δ → Truth)
    (violation : Violation δ) : Except (Violation δ) Unit :=
  if rows.countP (fun row => (condition row).Holds) > 0 then .error violation else .ok ()

/-! ### The trigger functions -/

/-- The place has another active holder; what tells rows apart is the primary key or the holder. -/
def checkSinglePlace (rows : List (Assignment δ)) (new : NewAssignment δ) (differs : Assignment δ → Truth)
    (text : String) : Except (Violation δ) Unit :=
  raiseIfFound rows
    (fun row => (differs row).and ((sameId row.place new.place).and (overlaps (· > ·) row new)))
    (fun existing => .raised text [new.place, some existing.holder]
      (some (existing.startDate, existing.endDate)))

def checkSingleBrigadier (db : Database δ) (new : NewAssignment δ) : Except (Violation δ) Unit :=
  checkSinglePlace (db .brigadier) new (fun row => differs row.id new.id)
    "Brigade % already has an active brigadier (worker ID: %) for the period % to %"

def checkSingleSiteSupervisor (db : Database δ) (new : NewAssignment δ) : Except (Violation δ) Unit :=
  checkSinglePlace (db .siteSupervisor) new (fun row => differs row.holder new.holder)
    "Site % already has an active supervisor (ID: %) for the period % to %"

def checkSingleDepartmentSupervisor (db : Database δ) (new : NewAssignment δ) : Except (Violation δ) Unit :=
  checkSinglePlace (db .departmentSupervisor) new (fun row => differs row.holder new.holder)
    "department % already has an active supervisor (ID: %) for the period % to %"

/-- The holder is at another place. -/
def checkOtherPlace (rows : List (Assignment δ)) (new : NewAssignment δ) (text : String) :
    Except (Violation δ) Unit :=
  raiseIfCounted rows
    (fun row => (sameId row.holder new.holder).and ((overlaps (· ≥ ·) row new).and
      ((differs row.id new.id).and (compare (· ≠ ·) (some row.place) new.place))))
    (.raised text [new.holder] none)

def checkWorkerSingleBrigade (db : Database δ) (new : NewAssignment δ) : Except (Violation δ) Unit :=
  checkOtherPlace (db .brigadeWorker) new
    "Worker ID % is already assigned to another brigade during this time period"

def checkSpecialistSingleSite (db : Database δ) (new : NewAssignment δ) : Except (Violation δ) Unit :=
  checkOtherPlace (db .siteSpecialist) new
    "Specialist ID % is already assigned to another site during this time period"

/-- The holder has the other role. -/
def checkOtherRole (rows : List (Assignment δ)) (new : NewAssignment δ) (text : String) :
    Except (Violation δ) Unit :=
  raiseIfFound rows (fun row => (sameId row.holder new.holder).and (overlaps (· > ·) row new))
    (fun _ => .raised text [new.holder] none)

def checkBrigadierNoBrigadeWorker (db : Database δ) (new : NewAssignment δ) : Except (Violation δ) Unit :=
  checkOtherRole (db .brigadeWorker) new
    "Worker ID % cannot be both a brigadier and a brigade worker during the same time period"

def checkBrigadeWorkerNoBrigadier (db : Database δ) (new : NewAssignment δ) : Except (Violation δ) Unit :=
  checkOtherRole (db .brigadier) new
    "Worker ID % cannot be both a brigadier and a brigade worker during the same time period"

def checkSiteSupervisorNoSiteSpecialist (db : Database δ) (new : NewAssignment δ) :
    Except (Violation δ) Unit :=
  checkOtherRole (db .siteSpecialist) new
    "Specialist ID % cannot be both a supervisor and a site specialist during the same time period"

def checkSiteSpecialistNoSiteSupervisor (db : Database δ) (new : NewAssignment δ) :
    Except (Violation δ) Unit :=
  checkOtherRole (db .siteSupervisor) new
    "Specialist ID % cannot be both a supervisor and a site specialist during the same time period"

/-- The holder has another row of the table. -/
def checkSingleHolder (rows : List (Assignment δ)) (new : NewAssignment δ) (violation : Violation δ) :
    Except (Violation δ) Unit :=
  raiseIfCounted rows
    (fun row => (sameId row.holder new.holder).and ((overlaps (· ≥ ·) row new).and (differs row.id new.id)))
    violation

def checkWorkerSingleBrigadier (db : Database δ) (new : NewAssignment δ) : Except (Violation δ) Unit :=
  checkSingleHolder (db .brigadier) new
    (.raised "Worker ID % is already a brigadier for another brigade during this period" [new.holder] none)

-- the text of the next two asks for NEW.worker_id, which their tables do not have
def checkSpecialistSingleSiteSupervisor (db : Database δ) (new : NewAssignment δ) :
    Except (Violation δ) Unit :=
  checkSingleHolder (db .siteSupervisor) new (.noField "worker_id")

def checkSpecialistSingleDepartmentSupervisor (db : Database δ) (new : NewAssignment δ) :
    Except (Violation δ) Unit :=
  checkSingleHolder (db .departmentSupervisor) new (.noField "worker_id")

def checkMachineSingleSiteAssignment (db : Database δ) (new : NewAssignment δ) : Except (Violation δ) Unit :=
  checkSingleHolder (db .siteMachine) new
    (.raised "Machine ID % is already assigned for site during this period" [new.holder] none)

/-- The triggers before an insert or an update of a row, in the order of their names. -/
def triggers : Table → List (Database δ → NewAssignment δ → Except (Violation δ) Unit)
  | .brigadier => [checkBrigadierNoBrigadeWorker, checkSingleBrigadier, checkWorkerSingleBrigadier]
  | .brigadeWorker => [checkBrigadeWorkerNoBrigadier, checkWorkerSingleBrigade]
  | .siteSupervisor =>
    [checkSingleSiteSupervisor, checkSiteSupervisorNoSiteSpecialist, checkSpecialistSingleSiteSupervisor]
  | .siteSpecialist => [checkSiteSpecialistNoSiteSupervisor, checkSpecialistSingleSite]
  | .departmentSupervisor => [checkSingleDepartmentSupervisor, checkSpecialistSingleDepartmentSupervisor]
  | .siteMachine => [checkMachineSingleSiteAssignment]

def fireTriggers (db : Database δ) (table : Table) (new : NewAssignment δ) : Except (Violation δ) Unit :=
  forM (triggers table) fun check => check db new

/-! ### Statements -/

/-- The row, if all columns but `end_date` have a value. -/
def NewAssignment.row (new : NewAssignment δ) : Option (Assignment δ) := do
  return { id := ← new.id, place := ← new.place, holder := ← new.holder, startDate := ← new.startDate,
           endDate := new.endDate }

/-- The `CHECK` of the table: `start_date < end_date` for brigadiers and `start_date <= end_date`
    for the others. -/
def checkPeriod (table : Table) (row : Assignment δ) : Truth :=
  match table with
  | .brigadier => compare (· < ·) (some row.startDate) row.endDate
  | _ => compare (· ≤ ·) (some row.startDate) row.endDate

/-- The constraints of the table; `others` are the rows that stay. -/
def checkConstraints (table : Table) (others : List (Assignment δ)) (new : NewAssignment δ) :
    Except (Violation δ) (Assignment δ) :=
  match new.row with
  | none => .error .notNull
  | some row =>
    if ¬ (checkPeriod table row).Passes then .error .check
    else if ∃ other ∈ others, other.id = row.id then .error .primaryKey
    else .ok row

inductive Statement (δ : Type) where
  | insert (table : Table) (new : NewAssignment δ)
  /-- The row with the given primary key becomes `new`. -/
  | update (table : Table) (id : Int) (new : NewAssignment δ)
  | delete (table : Table) (id : Int)
deriving DecidableEq

def execute (db : Database δ) : Statement δ → Except (Violation δ) (Database δ)
  | .insert table new => do
      fireTriggers db table new
      let row ← checkConstraints table (db table) new
      return Function.update db table (db table ++ [row])
  | .update table id new =>
    if ∃ row ∈ db table, row.id = id then do
      let others := (db table).filter (·.id ≠ id)
      fireTriggers db table new
      let row ← checkConstraints table others new
      return Function.update db table (others ++ [row])
    else return db
  | .delete table id => return Function.update db table ((db table).filter (·.id ≠ id))

def step (db : Database δ) (statement : Statement δ) : Database δ := attempt (execute db statement) db

def emptyDatabase : Database δ := fun _ => []

end

/-- The four dates that an object and a schedule have; each may be `NULL`. -/
structure Dates (δ : Type) where
  plannedStart : Option δ
  plannedEnd : Option δ
  actualStart : Option δ
  actualEnd : Option δ
deriving DecidableEq

/-- A building object. -/
structure ObjectRow (δ : Type) where
  objectId : Int
  name : String
  dates : Dates δ
deriving DecidableEq

/-- The row `NEW` of `object`, before `NOT NULL` is checked. -/
structure NewObject (δ : Type) where
  objectId : Option Int
  name : Option String
  dates : Dates δ
deriving DecidableEq

/-- A work schedule of an object. -/
structure ScheduleRow (δ : Type) where
  workScheduleId : Int
  objectId : Int
  dates : Dates δ
deriving DecidableEq

/-- The row `NEW` of `work_schedule`, before `NOT NULL` is checked. -/
structure NewSchedule (δ : Type) where
  workScheduleId : Option Int
  objectId : Option Int
  dates : Dates δ
deriving DecidableEq

/-- Which of the four dates a trigger complains of. -/
inductive DateField where
  | plannedStart
  | plannedEnd
  | actualStart
  | actualEnd
deriving DecidableEq

/-- Why a statement is rejected. -/
inductive Refusal (δ : Type) where
  /-- `RAISE EXCEPTION` of `check_work_schedule_dates`, with the values in its text. -/
  | scheduleOutside (text : String) (workScheduleId : Option Int) (name : Option String)
      (objectId : Option Int) (date objectDate : Option δ)
  /-- `RAISE EXCEPTION` of `check_object_date_constraints`, with the value in its text. -/
  | objectExcludes (text : String) (workScheduleId : Int)
  | notNull
  | check
  | primaryKey
  | foreignKey
deriving DecidableEq

def scheduleText : DateField → String
  | .plannedStart => "Work schedule ID % for object \"%\" (ID: %) has planned start date (%) earlier than object planned start date (%)"
  | .plannedEnd => "Work schedule ID % for object \"%\" (ID: %) has planned end date (%) later than object planned end date (%)"
  | .actualStart => "Work schedule ID % for object \"%\" (ID: %) has actual start date (%) earlier than object actual start date (%)"
  | .actualEnd => "Work schedule ID % for object \"%\" (ID: %) has actual end date (%) later than object actual end date (%)"

def objectText : DateField → String
  | .plannedStart =>
    "Cannot update object: work schedule ID % has planned start date earlier than new object planned start date"
  | .plannedEnd => "Cannot update object: work schedule ID % has planned end date later than new object planned end date"
  | .actualStart =>
    "Cannot update object: work schedule ID % has actual start date earlier than new object actual start date"
  | .actualEnd => "Cannot update object: work schedule ID % has actual end date later than new object actual end date"

variable {δ : Type} [LinearOrder δ]

/-! ### The trigger functions -/

/-- `IF x IS NOT NULL AND y IS NOT NULL THEN IF x … y THEN RAISE EXCEPTION`. -/
def raiseIf (wrong : δ → δ → Bool) (x y : Option δ) (refusal : Refusal δ) : Except (Refusal δ) Unit :=
  if x ≠ none ∧ y ≠ none then
    if (compare wrong x y).Holds then .error refusal else .ok ()
  else .ok ()

/-- The four comparisons of a schedule with an object. -/
def compareDates (schedule object : Dates δ) (refusal : DateField → Option δ → Option δ → Refusal δ) :
    Except (Refusal δ) Unit := do
  raiseIf (· < ·) schedule.plannedStart object.plannedStart
    (refusal .plannedStart schedule.plannedStart object.plannedStart)
  raiseIf (· > ·) schedule.plannedEnd object.plannedEnd
    (refusal .plannedEnd schedule.plannedEnd object.plannedEnd)
  raiseIf (· < ·) schedule.actualStart object.actualStart
    (refusal .actualStart schedule.actualStart object.actualStart)
  raiseIf (· > ·) schedule.actualEnd object.actualEnd
    (refusal .actualEnd schedule.actualEnd object.actualEnd)

/-- `SELECT … INTO … FROM object WHERE object_id = NEW.object_id` leaves `NULL` everywhere if there
    is no such row. -/
def checkWorkScheduleDates (objects : List (ObjectRow δ)) (new : NewSchedule δ) : Except (Refusal δ) Unit :=
  match objects.find? fun object => (compare (· = ·) (some object.objectId) new.objectId).Holds with
  | some object =>
    compareDates new.dates object.dates fun field =>
      .scheduleOutside (scheduleText field) new.workScheduleId (some object.name) new.objectId
  | none =>
    compareDates new.dates ⟨none, none, none, none⟩ fun field =>
      .scheduleOutside (scheduleText field) new.workScheduleId none new.objectId

/-- The schedules of the object are only looked at if one of its dates `IS DISTINCT FROM` the old
    one. -/
def checkObjectDateConstraints (schedules : List (ScheduleRow δ)) (old : ObjectRow δ) (new : NewObject δ) :
    Except (Refusal δ) Unit :=
  if new.dates.plannedStart ≠ old.dates.plannedStart ∨ new.dates.plannedEnd ≠ old.dates.plannedEnd ∨
      new.dates.actualStart ≠ old.dates.actualStart ∨ new.dates.actualEnd ≠ old.dates.actualEnd then
    forM (schedules.filter fun ws => (compare (· = ·) (some ws.objectId) new.objectId).Holds) fun ws =>
      compareDates ws.dates new.dates fun field _ _ => .objectExcludes (objectText field) ws.workScheduleId
  else .ok ()

/-! ### Statements -/

/-- `CHECK (planned_start_date <= planned_end_date), CHECK (actual_start_date <= actual_end_date)`. -/
def Dates.InOrder (dates : Dates δ) : Prop :=
  (compare (· ≤ ·) dates.plannedStart dates.plannedEnd).Passes ∧
    (compare (· ≤ ·) dates.actualStart dates.actualEnd).Passes

instance (dates : Dates δ) : Decidable dates.InOrder := by
  unfold Dates.InOrder
  infer_instance

/-- The two tables. -/
structure Project (δ : Type) where
  objects : List (ObjectRow δ)
  schedules : List (ScheduleRow δ)
deriving DecidableEq

/-- The constraints of `object`; `others` are the objects that stay. -/
def checkObject (others : List (ObjectRow δ)) (new : NewObject δ) : Except (Refusal δ) (ObjectRow δ) :=
  match new.objectId, new.name with
  | some objectId, some name =>
    if ¬ new.dates.InOrder then .error .check
    else if ∃ other ∈ others, other.objectId = objectId then .error .primaryKey
    else .ok { objectId, name, dates := new.dates }
  | _, _ => .error .notNull

/-- The constraints of `work_schedule`; `others` are the schedules that stay. -/
def checkSchedule (objects : List (ObjectRow δ)) (others : List (ScheduleRow δ)) (new : NewSchedule δ) :
    Except (Refusal δ) (ScheduleRow δ) :=
  match new.workScheduleId, new.objectId with
  | some workScheduleId, some objectId =>
    if ¬ new.dates.InOrder then .error .check
    else if ∃ other ∈ others, other.workScheduleId = workScheduleId then .error .primaryKey
    else if ∃ object ∈ objects, object.objectId = objectId then
      .ok { workScheduleId, objectId, dates := new.dates }
    else .error .foreignKey
  | _, _ => .error .notNull

inductive ProjectStatement (δ : Type) where
  | insertObject (new : NewObject δ)
  /-- The row with the given primary key becomes `new`. -/
  | updateObject (objectId : Int) (new : NewObject δ)
  | deleteObject (objectId : Int)
  | insertSchedule (new : NewSchedule δ)
  | updateSchedule (workScheduleId : Int) (new : NewSchedule δ)
  | deleteSchedule (workScheduleId : Int)
deriving DecidableEq

def Project.execute (p : Project δ) : ProjectStatement δ → Except (Refusal δ) (Project δ)
  | .insertObject new => do
      let object ← checkObject p.objects new
      return { p with objects := p.objects ++ [object] }
  | .updateObject objectId new =>
    match p.objects.find? (·.objectId = objectId) with
    | none => return p
    | some old => do
        let others := p.objects.filter (·.objectId ≠ objectId)
        checkObjectDateConstraints p.schedules old new
        let object ← checkObject others new
        -- ON UPDATE NO ACTION: the key of an object that has schedules cannot change
        if object.objectId ≠ objectId ∧ ∃ ws ∈ p.schedules, ws.objectId = objectId then .error .foreignKey
        else return { p with objects := others ++ [object] }
  | .deleteObject objectId =>
    -- ON DELETE CASCADE
    return { objects := p.objects.filter (·.objectId ≠ objectId)
             schedules := p.schedules.filter (·.objectId ≠ objectId) }
  | .insertSchedule new => do
      checkWorkScheduleDates p.objects new
      let ws ← checkSchedule p.objects p.schedules new
      return { p with schedules := p.schedules ++ [ws] }
  | .updateSchedule workScheduleId new =>
    if ∃ ws ∈ p.schedules, ws.workScheduleId = workScheduleId then do
      let others := p.schedules.filter (·.workScheduleId ≠ workScheduleId)
      checkWorkScheduleDates p.objects new
      let ws ← checkSchedule p.objects others new
      return { p with schedules := others ++ [ws] }
    else return p
  | .deleteSchedule workScheduleId =>
    return { p with schedules := p.schedules.filter (·.workScheduleId ≠ workScheduleId) }

def Project.step (p : Project δ) (statement : ProjectStatement δ) : Project δ :=
  attempt (p.execute statement) p

end NsuLabs.DB
