/-
Module: NsuLabs.DB.Proofs.Exclusivity
Purpose: At every date each place has at most one leader, each person and each machine at most one place in
  each role, and nobody two roles that exclude each other. Which pairs of assignments are accepted in one
  order only.
Trusted boundary: none
Main exports: assignments_lawful, orderFree_iff
-/
import NsuLabs.DB.Triggers

namespace NsuLabs.DB

open NsuLabs.Lib NsuLabs.Lib.Sql List

variable {δ : Type} [LinearOrder δ] {condition : Assignment δ → Truth} {violation : Violation δ} {d : δ}
  {text : String} {db : Database δ} {table : Table} {others : List (Assignment δ)}

/-! ### What the tables are meant to exclude -/

/-- The row is active from its start date until the day before its end date. -/
def Assignment.ActiveOn (row : Assignment δ) (d : δ) : Prop := row.startDate ≤ d ∧ ∀ e ∈ row.endDate, d < e

instance (row : Assignment δ) (d : δ) : Decidable (row.ActiveOn d) := by
  unfold Assignment.ActiveOn
  infer_instance

/-- Two rows that must not be active on one day. -/
def Excludes : Table → Table → Assignment δ → Assignment δ → Prop
  | .brigadier, .brigadier | .siteSupervisor, .siteSupervisor | .departmentSupervisor,
    .departmentSupervisor =>
    fun r s => r.place = s.place ∨ r.holder = s.holder
  | .brigadeWorker, .brigadeWorker | .siteSpecialist, .siteSpecialist =>
    fun r s => r.holder = s.holder ∧ r.place ≠ s.place
  | .siteMachine, .siteMachine
  | .brigadier, .brigadeWorker | .brigadeWorker, .brigadier
  | .siteSupervisor, .siteSpecialist | .siteSpecialist, .siteSupervisor => fun r s => r.holder = s.holder
  | _, _ => fun _ _ => False

def Clash (t : Table) (r : Assignment δ) (t' : Table) (s : Assignment δ) : Prop :=
  Excludes t t' r s ∧ ∃ d, r.ActiveOn d ∧ s.ActiveOn d

theorem clash_symm (t : Table) (r : Assignment δ) (t' : Table) (s : Assignment δ) (h : Clash t r t' s) :
    Clash t' s t r := by
  obtain ⟨hexcludes, d, hr, hs⟩ := h
  refine ⟨?_, d, hs, hr⟩
  cases t <;> cases t' <;> first
    | exact hexcludes.elim
    | exact hexcludes.imp Eq.symm Eq.symm
    | exact ⟨hexcludes.1.symm, hexcludes.2.symm⟩
    | exact Eq.symm hexcludes

/-! ### What the triggers find -/

/-- The row as it is inserted. -/
@[simps]
def Assignment.new (row : Assignment δ) : NewAssignment δ :=
  ⟨some row.id, some row.place, some row.holder, some row.startDate, row.endDate⟩

def Overlap (r s : Assignment δ) : Prop :=
  (∀ e ∈ r.endDate, s.startDate < e) ∧ ∀ e ∈ s.endDate, r.startDate < e

/-- The first row ends on the day the second one starts. -/
def EndsAt (r s : Assignment δ) : Prop := r.endDate = some s.startDate ∧ ∀ e ∈ s.endDate, r.startDate < e

section

variable {rows : List (Assignment δ)} {row s : Assignment δ} {new : NewAssignment δ}

omit [LinearOrder δ] in
/-- The row that passes `NOT NULL` has the values of `NEW`. -/
theorem row_eq_some (h : new.row = some row) : new = row.new := by
  obtain ⟨id, place, holder, startDate, endDate⟩ := new
  cases id <;> cases place <;> cases holder <;> cases startDate <;> cases h
  rfl

omit [LinearOrder δ] in
theorem raiseIfFound_ok_iff {violation : Assignment δ → Violation δ} :
    raiseIfFound rows condition violation = .ok () ↔ ∀ s ∈ rows, ¬ (condition s).Holds := by
  rw [raiseIfFound]
  split
  case h_1 existing hfound =>
    exact iff_of_false nofun fun h =>
      h existing (mem_of_find?_eq_some hfound) (by simpa using find?_some hfound)
  case h_2 hnone => exact iff_of_true rfl (by simpa using hnone)

omit [LinearOrder δ] in
theorem raiseIfCounted_ok_iff :
    raiseIfCounted rows condition violation = .ok () ↔ ∀ s ∈ rows, ¬ (condition s).Holds := by
  simp [raiseIfCounted, countP_pos_iff]

/-- Rows that are active on one day overlap. -/
theorem overlap_of_active (hs : s.ActiveOn d) (hrow : row.ActiveOn d) : Overlap s row :=
  ⟨fun e he => lt_of_le_of_lt hrow.1 (hs.2 e he), fun e he => lt_of_le_of_lt hs.1 (hrow.2 e he)⟩

theorem holds_overlaps_gt : (overlaps (· > ·) s row.new).Holds ↔ Overlap s row := by
  cases hs : s.endDate <;> cases hrow : row.endDate <;> simp [overlaps, Overlap, hs, hrow]

/-- The triggers with `>=` also count a row that ends on the day the new one starts. -/
theorem holds_overlaps_ge : (overlaps (· ≥ ·) s row.new).Holds ↔ Overlap s row ∨ EndsAt s row := by
  cases hs : s.endDate <;> cases hrow : row.endDate <;>
    simp [overlaps, Overlap, EndsAt, hs, hrow] <;> grind

@[simp] theorem holds_sameId (a b : Int) : (sameId a (some b)).Holds ↔ a = b := by
  rw [sameId, holds_compare_some, decide_eq_true_iff]

@[simp] theorem holds_differs (a b : Int) : (differs a (some b)).Holds ↔ a ≠ b := by
  rw [differs, holds_compare_some, decide_eq_true_iff, Option.getD_some]

theorem checkSingleHolder_ok_iff : checkSingleHolder rows row.new violation = .ok () ↔
    ∀ s ∈ rows, s.holder = row.holder → Overlap s row ∨ EndsAt s row → s.id = row.id := by
  simp [checkSingleHolder, raiseIfCounted_ok_iff, holds_overlaps_ge]

theorem checkSinglePlace_ok_iff {differs : Assignment δ → Truth} :
    checkSinglePlace rows row.new differs text = .ok () ↔
    ∀ s ∈ rows, (differs s).Holds → s.place = row.place → ¬ Overlap s row := by
  simp [checkSinglePlace, raiseIfFound_ok_iff, holds_overlaps_gt]

theorem checkOtherPlace_ok_iff : checkOtherPlace rows row.new text = .ok () ↔
    ∀ s ∈ rows, s.holder = row.holder →
    Overlap s row ∨ EndsAt s row → s.id ≠ row.id → s.place = row.place := by
  simp [checkOtherPlace, raiseIfCounted_ok_iff, holds_overlaps_ge]

theorem checkOtherRole_ok_iff : checkOtherRole rows row.new text = .ok () ↔
    ∀ s ∈ rows, s.holder = row.holder → ¬ Overlap s row := by
  simp [checkOtherRole, raiseIfFound_ok_iff, holds_overlaps_gt]

end

variable {new : NewAssignment δ} {row : Assignment δ}

/-- The triggers of a table leave no row that the new one clashes with, but the one with its primary
    key. -/
theorem not_clash_of_fireTriggers {t : Table} {s : Assignment δ}
    (hfire : fireTriggers db table new = .ok ()) (hnew : new.row = some row) (hs : s ∈ db t)
    (hid : t = table → s.id ≠ row.id) : ¬ Clash table row t s := by
  rintro ⟨hexcludes, d, hrow, hsd⟩
  obtain rfl := row_eq_some hnew
  have hoverlap := overlap_of_active hsd hrow
  have hall := forM_ok_iff.mp hfire
  -- what a check for one row of a holder says, and one for the other role
  have hholder {violation : Violation δ} (ht : t = table)
      (h : checkSingleHolder (db t) row.new violation = .ok ()) : row.holder ≠ s.holder :=
    fun heq => hid ht (checkSingleHolder_ok_iff.mp h s hs heq.symm (.inl hoverlap))
  have hrole {text : String} (h : checkOtherRole (db t) row.new text = .ok ()) : row.holder ≠ s.holder :=
    fun heq => checkOtherRole_ok_iff.mp h s hs heq.symm hoverlap
  have hplace {text : String} (ht : t = table) (h : checkOtherPlace (db t) row.new text = .ok ()) :
      ¬ (row.holder = s.holder ∧ row.place ≠ s.place) :=
    fun heq => heq.2 (checkOtherPlace_ok_iff.mp h s hs heq.1.symm (.inl hoverlap) (hid ht)).symm
  -- where rows are told apart by their holder, those of one holder are left to the trigger for holders
  have hlead {text : String} {violation : Violation δ} (ht : t = table)
      (h : checkSinglePlace (db t) row.new (fun other => differs other.holder row.new.holder) text = .ok ())
      (h' : checkSingleHolder (db t) row.new violation = .ok ()) :
        ¬ (row.place = s.place ∨ row.holder = s.holder) := by
    rintro (heq | heq)
    · exact checkSinglePlace_ok_iff.mp h s hs ((holds_differs _ _).mpr (hholder ht h').symm)
        heq.symm hoverlap
    · exact hholder ht h' heq
  cases table <;> simp only [triggers, forall_mem_cons] at hall
  case brigadier =>
    cases t with
    | brigadier =>
      rcases hexcludes with heq | heq
      · exact checkSinglePlace_ok_iff.mp hall.2.1 s hs ((holds_differs _ _).mpr (hid rfl)) heq.symm hoverlap
      · exact hholder rfl hall.2.2.1 heq
    | brigadeWorker => exact hrole hall.1 hexcludes
    | _ => exact hexcludes
  case brigadeWorker =>
    cases t with
    | brigadier => exact hrole hall.1 hexcludes
    | brigadeWorker => exact hplace rfl hall.2.1 hexcludes
    | _ => exact hexcludes
  case siteSupervisor =>
    cases t with
    | siteSupervisor => exact hlead rfl hall.1 hall.2.2.1 hexcludes
    | siteSpecialist => exact hrole hall.2.1 hexcludes
    | _ => exact hexcludes
  case siteSpecialist =>
    cases t with
    | siteSupervisor => exact hrole hall.1 hexcludes
    | siteSpecialist => exact hplace rfl hall.2.1 hexcludes
    | _ => exact hexcludes
  case departmentSupervisor =>
    cases t with
    | departmentSupervisor => exact hlead rfl hall.1 hall.2.1 hexcludes
    | _ => exact hexcludes
  case siteMachine =>
    cases t with
    | siteMachine => exact hholder rfl hall.1 hexcludes
    | _ => exact hexcludes

/-! ### Statements -/

theorem checkConstraints_ok
    (h : checkConstraints table others new = .ok row) : new.row = some row ∧
      ∀ s ∈ others, s.id ≠ row.id := by
  rw [checkConstraints] at h
  split at h
  case h_1 => cases h
  case h_2 row' hnew =>
    split_ifs at h with hcheck hkey
    cases h
    exact ⟨hnew, fun s hs heq => hkey ⟨s, hs, heq⟩⟩

/-- A row that has passed the triggers and the constraints comes into its table. -/
theorem free_store (h : Free Clash db) (hsub : others.Sublist (db table))
    (hfire : fireTriggers db table new = .ok ()) (hrow : checkConstraints table others new = .ok row) :
    Free Clash (Function.update db table (others ++ [row])) := by
  obtain ⟨hnew, hkey⟩ := checkConstraints_ok hrow
  apply h.replace clash_symm hsub
  · exact fun s hs => not_clash_of_fireTriggers hfire hnew (hsub.subset hs) fun _ => hkey s hs
  · exact fun t ht s hs => not_clash_of_fireTriggers hfire hnew hs fun heq => absurd heq ht

theorem free_execute {db' : Database δ} {statement : Statement δ} (h : Free Clash db)
    (hexecute : execute db statement = .ok db') : Free Clash db' := by
  cases statement with
  | insert table new =>
    obtain ⟨⟨⟩, hfire, hrest⟩ := bind_ok hexecute
    obtain ⟨row, hrow, hdb⟩ := bind_ok hrest
    cases hdb
    exact free_store h (Sublist.refl _) hfire hrow
  | update table id new =>
    rw [execute] at hexecute
    split_ifs at hexecute
    · obtain ⟨⟨⟩, hfire, hrest⟩ := bind_ok hexecute
      obtain ⟨row, hrow, hdb⟩ := bind_ok hrest
      cases hdb
      exact free_store h filter_sublist hfire hrow
    · cases hexecute
      exact h
  | delete table id =>
    cases hexecute
    apply h.keep
    intro t
    by_cases ht : t = table
    · rw [ht, Function.update_self]
      exact filter_sublist
    · rw [Function.update_of_ne ht]

theorem free_step (db : Database δ) (statement : Statement δ) (h : Free Clash db) :
    Free Clash (step db statement) :=
  attempt_keeps h fun _ hexecute => free_execute h hexecute

theorem free_emptyDatabase : Free Clash (emptyDatabase : Database δ) :=
  ⟨fun _ => List.Pairwise.nil, fun _ _ _ _ hr => absurd hr not_mem_nil⟩

/-! ### The laws at a date -/

/-- At most one row of the table with the given value is active on the day. -/
def AtMostOne (rows : List (Assignment δ)) (value : Assignment δ → Int) (d : δ) : Prop :=
  ∀ v, rows.countP (fun r => value r = v ∧ r.ActiveOn d) ≤ 1

/-- The rows of one holder that are active on the day name one place. -/
def OnePlace (rows : List (Assignment δ)) (d : δ) : Prop :=
  ∀ r ∈ rows, ∀ s ∈ rows, r.ActiveOn d → s.ActiveOn d → r.holder = s.holder → r.place = s.place

/-- Nobody is in both tables on the day. -/
def Apart (rows rows' : List (Assignment δ)) (d : δ) : Prop :=
  ∀ r ∈ rows, ∀ s ∈ rows', r.ActiveOn d → s.ActiveOn d → r.holder ≠ s.holder

/-- The laws of the tables on the day `d`. -/
structure Lawful (db : Database δ) (d : δ) : Prop where
  brigade_brigadier : AtMostOne (db .brigadier) Assignment.place d
  site_supervisor : AtMostOne (db .siteSupervisor) Assignment.place d
  department_supervisor : AtMostOne (db .departmentSupervisor) Assignment.place d
  worker_brigade : OnePlace (db .brigadeWorker) d
  worker_leads : AtMostOne (db .brigadier) Assignment.holder d
  specialist_site : OnePlace (db .siteSpecialist) d
  specialist_supervises_site : AtMostOne (db .siteSupervisor) Assignment.holder d
  specialist_supervises_department : AtMostOne (db .departmentSupervisor) Assignment.holder d
  machine_site : AtMostOne (db .siteMachine) Assignment.holder d
  brigadier_or_worker : Apart (db .brigadier) (db .brigadeWorker) d
  supervisor_or_specialist : Apart (db .siteSupervisor) (db .siteSpecialist) d

theorem atMostOne_of_free (h : Free Clash db) (t : Table) (value : Assignment δ → Int)
    (hvalue : ∀ r s : Assignment δ, value r = value s → Excludes t t r s) (d : δ) :
      AtMostOne (db t) value d := by
  intro v
  apply countP_le_one (h.within t)
  intro r s hr hs hnot
  simp only [decide_eq_true_eq] at hr hs
  exact hnot ⟨hvalue r s (hr.1.trans hs.1.symm), d, hr.2, hs.2⟩

theorem onePlace_of_free (h : Free Clash db) (t : Table)
    (hvalue : ∀ r s : Assignment δ, r.holder = s.holder → r.place ≠ s.place → Excludes t t r s) (d : δ) :
    OnePlace (db t) d := by
  intro r hr s hs hrd hsd hholder
  by_contra hplace
  have hne : r ≠ s := fun heq => hplace (congrArg Assignment.place heq)
  have hsymm : Std.Symm fun r s : Assignment δ => ¬ Clash t r t s :=
    ⟨fun r s hnot hclash => hnot (clash_symm t s t r hclash)⟩
  exact (h.within t).forall hr hs hne ⟨hvalue r s hholder hplace, d, hrd, hsd⟩

/-- After every sequence of statements the tables are lawful at every date. -/
theorem assignments_lawful (statements : List (Statement δ)) (d : δ) :
    Lawful (statements.foldl step emptyDatabase) d := by
  have h : Free Clash (statements.foldl step (emptyDatabase : Database δ)) :=
    List.foldlRecOn statements step free_emptyDatabase fun db hdb statement _ => free_step db statement hdb
  constructor
  case brigade_brigadier => exact atMostOne_of_free h .brigadier _ (fun _ _ => .inl) d
  case site_supervisor => exact atMostOne_of_free h .siteSupervisor _ (fun _ _ => .inl) d
  case department_supervisor => exact atMostOne_of_free h .departmentSupervisor _ (fun _ _ => .inl) d
  case worker_brigade => exact onePlace_of_free h .brigadeWorker (fun _ _ => And.intro) d
  case worker_leads => exact atMostOne_of_free h .brigadier _ (fun _ _ => .inr) d
  case specialist_site => exact onePlace_of_free h .siteSpecialist (fun _ _ => And.intro) d
  case specialist_supervises_site => exact atMostOne_of_free h .siteSupervisor _ (fun _ _ => .inr) d
  case specialist_supervises_department =>
      exact atMostOne_of_free h .departmentSupervisor _ (fun _ _ => .inr) d
  case machine_site => exact atMostOne_of_free h .siteMachine _ (fun _ _ => id) d
  case brigadier_or_worker =>
    intro r hr s hs hrd hsd hholder
    exact h.between .brigadier .brigadeWorker nofun r hr s hs ⟨hholder, d, hrd, hsd⟩
  case supervisor_or_specialist =>
    intro r hr s hs hrd hsd hholder
    exact h.between .siteSupervisor .siteSpecialist nofun r hr s hs ⟨hholder, d, hrd, hsd⟩

/-! ### The order of two insertions -/

variable {r s : Assignment δ} {t t' : Table}

/-- Both rows are accepted, the row `r` of the table `t` first. -/
def Accepted (t : Table) (r : Assignment δ) (t' : Table) (s : Assignment δ) : Prop :=
  ∃ db db', execute emptyDatabase (.insert t r.new) = .ok db ∧ execute db (.insert t' s.new) = .ok db'

/-- The rows are those of one holder, as the triggers with `>=` look for them. -/
def SameHolder (t : Table) (r s : Assignment δ) : Prop :=
  r.id ≠ s.id ∧ r.holder = s.holder ∧ (t = .brigadeWorker ∨ t = .siteSpecialist → r.place ≠ s.place)

theorem execute_insert_iff {db' : Database δ} : execute db (.insert t r.new) = .ok db' ↔
    fireTriggers db t r.new = .ok () ∧ (checkPeriod t r).Passes ∧ (∀ s ∈ db t, s.id ≠ r.id) ∧
      Function.update db t (db t ++ [r]) = db' := by
  have hrow : r.new.row = some r := rfl
  rw [execute, checkConstraints, hrow]
  cases fireTriggers db t r.new with
  | error violation => exact iff_of_false (by rintro ⟨⟩) (by rintro ⟨⟨⟩, -⟩)
  | ok =>
    simp only [bind, Except.bind]
    split_ifs with hcheck hkey
    · obtain ⟨other, hother, heq⟩ := hkey
      exact iff_of_false (by rintro ⟨⟩) fun h => h.2.2.1 other hother heq
    · exact ⟨fun h => ⟨trivial, hcheck, fun s hs heq => hkey ⟨s, hs, heq⟩, Except.ok.inj h⟩,
        fun h => congrArg Except.ok h.2.2.2⟩
    · exact iff_of_false (by rintro ⟨⟩) fun h => hcheck h.2.1

theorem accepted_iff (hr : ∃ db, execute emptyDatabase (.insert t r.new) = .ok db)
    (hs : ∃ db, execute emptyDatabase (.insert t' s.new) = .ok db) :
    Accepted t r t' s ↔ fireTriggers (Function.update emptyDatabase t [r]) t' s.new = .ok () ∧
      (t' = t → r.id ≠ s.id) := by
  obtain ⟨db₁, hr⟩ := hr
  obtain ⟨-, -, -, hdb⟩ := execute_insert_iff.mp hr
  obtain ⟨db₂, hs⟩ := hs
  obtain ⟨-, hpasses, -⟩ := execute_insert_iff.mp hs
  subst hdb
  constructor
  · rintro ⟨db, db', hfirst, hsecond⟩
    cases hr.symm.trans hfirst
    obtain ⟨hfire, -, hkeys, -⟩ := execute_insert_iff.mp hsecond
    refine ⟨hfire, ?_⟩
    rintro rfl
    exact hkeys r (by simp)
  · rintro ⟨hfire, hids⟩
    refine ⟨_, _, hr, execute_insert_iff.mpr ⟨hfire, hpasses, fun x hx => ?_, rfl⟩⟩
    by_cases ht : t' = t
    · subst ht
      rw [Function.update_self] at hx
      rw [mem_singleton.mp hx]
      exact hids rfl
    · rw [Function.update_of_ne ht] at hx
      cases hx

/-- The order of the two rows makes no difference, unless they are of one holder and one of them
    ends on the day the other one starts. -/
theorem orderFree_iff (hr : ∃ db, execute emptyDatabase (.insert t r.new) = .ok db)
    (hs : ∃ db, execute emptyDatabase (.insert t' s.new) = .ok db) :
    (Accepted t r t' s ↔ Accepted t' s t r) ↔ ¬ (t = t' ∧ SameHolder t r s ∧ (EndsAt r s ∨ EndsAt s r)) := by
  have hcomm : Overlap r s ↔ Overlap s r := and_comm
  have hends (r s : Assignment δ) (h : EndsAt r s) : ¬ Overlap r s := fun hoverlap =>
    lt_irrefl _ (hoverlap.1 s.startDate h.1)
  have hboth (h : EndsAt r s) : ¬ EndsAt s r := fun h' => lt_irrefl _ (h.2 r.startDate h'.1)
  rw [accepted_iff hr hs, accepted_iff hs hr, fireTriggers, fireTriggers, forM_ok_iff, forM_ok_iff]
  cases t <;> cases t' <;> simp [triggers, checkBrigadierNoBrigadeWorker, checkSingleBrigadier,
    checkWorkerSingleBrigadier, checkBrigadeWorkerNoBrigadier, checkWorkerSingleBrigade,
      checkSingleSiteSupervisor,
    checkSiteSupervisorNoSiteSpecialist, checkSpecialistSingleSiteSupervisor,
      checkSiteSpecialistNoSiteSupervisor,
    checkSpecialistSingleSite, checkSingleDepartmentSupervisor, checkSpecialistSingleDepartmentSupervisor,
    checkMachineSingleSiteAssignment, checkSinglePlace_ok_iff, checkOtherPlace_ok_iff, checkOtherRole_ok_iff,
    checkSingleHolder_ok_iff, emptyDatabase, SameHolder]
  all_goals grind

theorem orderFree_iff_apart :
    Accepted .siteMachine ⟨1, 7, 5, 10, some (20 : Int)⟩ .siteMachine ⟨2, 7, 6, 20, none⟩ ↔
      Accepted .siteMachine ⟨2, 7, 6, 20, none⟩ .siteMachine ⟨1, 7, 5, 10, some (20 : Int)⟩ :=
  (orderFree_iff ⟨_, rfl⟩ ⟨_, rfl⟩).mpr fun h => absurd h.2.1.2.1 (by decide)

/-- A machine leaves a site on day 20 and comes to the next one. -/
theorem accepted_backwards :
    Accepted .siteMachine ⟨2, 8, 5, 20, none⟩ .siteMachine ⟨1, 7, 5, 10, some (20 : Int)⟩ ∧
      ¬ Accepted .siteMachine ⟨1, 7, 5, 10, some 20⟩ .siteMachine ⟨2, 8, 5, (20 : Int), none⟩ := by
  refine ⟨⟨_, _, rfl, rfl⟩, ?_⟩
  rintro ⟨db, db', hfirst, hsecond⟩
  cases hfirst
  cases hsecond

end NsuLabs.DB
