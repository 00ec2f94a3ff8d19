/-
Module: NsuLabs.DB.Proofs.Schedules
Purpose: The dates of every schedule are inside the dates of its object, as far as both are known.
Trusted boundary: none
Main exports: schedules_inside
-/
import NsuLabs.DB.Triggers

namespace NsuLabs.DB

open Lib Lib.Sql List

variable {δ : Type} [LinearOrder δ] {others objects : List (ObjectRow δ)} {new : NewObject δ}
  {object old : ObjectRow δ} {ws : ScheduleRow δ} {schedules : List (ScheduleRow δ)} {p : Project δ}

/-- The schedule does not start before the object and does not end after it, where both dates are
    known. -/
structure Inside (schedule object : Dates δ) : Prop where
  plannedStart : ∀ a ∈ schedule.plannedStart, ∀ b ∈ object.plannedStart, b ≤ a
  plannedEnd : ∀ a ∈ schedule.plannedEnd, ∀ b ∈ object.plannedEnd, a ≤ b
  actualStart : ∀ a ∈ schedule.actualStart, ∀ b ∈ object.actualStart, b ≤ a
  actualEnd : ∀ a ∈ schedule.actualEnd, ∀ b ∈ object.actualEnd, a ≤ b

/-! ### The comparisons of the triggers -/

omit [LinearOrder δ] in
theorem raiseIf_ok {wrong : δ → δ → Bool} {x y : Option δ} {refusal : Refusal δ}
    (h : raiseIf wrong x y refusal = .ok ()) : ∀ a ∈ x, ∀ b ∈ y, ¬ wrong a b := by
  rintro a rfl b rfl hwrong
  rw [raiseIf, if_pos ⟨nofun, nofun⟩, if_pos ((holds_compare_some wrong a b).mpr hwrong)] at h
  cases h

theorem inside_of_compareDates {schedule object : Dates δ}
    {refusal : DateField → Option δ → Option δ → Refusal δ}
    (h : compareDates schedule object refusal = .ok ()) : Inside schedule object := by
  obtain ⟨⟨⟩, hplannedStart, h⟩ := bind_ok h
  obtain ⟨⟨⟩, hplannedEnd, h⟩ := bind_ok h
  obtain ⟨⟨⟩, hactualStart, hactualEnd⟩ := bind_ok h
  exact ⟨by simpa using raiseIf_ok hplannedStart, by simpa using raiseIf_ok hplannedEnd,
    by simpa using raiseIf_ok hactualStart, by simpa using raiseIf_ok hactualEnd⟩

/-! ### The invariant -/

/-- Every schedule lies inside the dates of its object. -/
structure ProjectInv (p : Project δ) : Prop where
  keys : (p.objects.map ObjectRow.objectId).Nodup
  inside : ∀ ws ∈ p.schedules, ∃ object ∈ p.objects, object.objectId = ws.objectId ∧
    Inside ws.dates object.dates

theorem checkObject_ok (h : checkObject others new = .ok object) :
    new.objectId = some object.objectId ∧ object.dates = new.dates ∧ ∀ other ∈ others,
      other.objectId ≠ object.objectId := by
  rw [checkObject] at h
  split at h
  case h_1 objectId name hid hname =>
    split_ifs at h with hcheck hkey
    cases h
    exact ⟨hid, rfl, fun other hother heq => hkey ⟨other, hother, heq⟩⟩
  case h_2 => cases h

theorem checkSchedule_ok {others : List (ScheduleRow δ)} {new : NewSchedule δ}
    (h : checkSchedule objects others new = .ok ws) :
    new.objectId = some ws.objectId ∧ ws.dates = new.dates ∧ ∃ object ∈ objects, object.objectId =
      ws.objectId := by
  rw [checkSchedule] at h
  split at h
  case h_1 workScheduleId objectId hid hobject =>
    split_ifs at h with hcheck hkey hforeign
    cases h
    exact ⟨hobject, rfl, hforeign⟩
  case h_2 => cases h

/-- The trigger of `work_schedule` compares the new row with its object. -/
theorem inside_of_checkWorkScheduleDates (hkeys : (objects.map ObjectRow.objectId).Nodup)
    {new : NewSchedule δ} (h : checkWorkScheduleDates objects new = .ok ()) (hobject : object ∈ objects)
    (hid : new.objectId = some object.objectId) : Inside new.dates object.dates := by
  have hsame : ∀ other : ObjectRow δ, (compare (· = ·) (some other.objectId) new.objectId).Holds ↔
      other.objectId = object.objectId := by
    intro other
    rw [hid, holds_compare_some, decide_eq_true_iff]
  rw [checkWorkScheduleDates] at h
  split at h
  case h_1 found hfound =>
    have hholds := find?_some hfound
    have hfoundId : found.objectId = object.objectId := (hsame found).mp (of_decide_eq_true hholds)
    have hfoundEq : found = object :=
      inj_on_of_nodup_map hkeys (mem_of_find?_eq_some hfound) hobject hfoundId
    exact hfoundEq ▸ inside_of_compareDates h
  case h_2 hnone =>
    have hnot := find?_eq_none.mp hnone object hobject
    exact absurd (decide_eq_true ((hsame object).mpr rfl)) hnot

/-- The trigger of `object` compares the new row with its schedules, unless no date changes. -/
theorem inside_of_checkObjectDateConstraints (h : checkObjectDateConstraints schedules old new = .ok ())
    (hws : ws ∈ schedules) (hid : new.objectId = some ws.objectId) (hold : Inside ws.dates old.dates) :
    Inside ws.dates new.dates := by
  rw [checkObjectDateConstraints] at h
  split_ifs at h with hdistinct
  · have hmem : ws ∈ schedules.filter fun ws => (compare (· = ·) (some ws.objectId) new.objectId).Holds := by
      apply mem_filter.mpr
      refine ⟨hws, decide_eq_true ?_⟩
      rw [hid, holds_compare_some, decide_eq_true_iff]
    exact inside_of_compareDates (forM_ok_iff.mp h ws hmem)
  · have hsame : new.dates = old.dates := by
      simp only [not_or, not_not] at hdistinct
      obtain ⟨h₁, h₂, h₃, h₄⟩ := hdistinct
      calc new.dates
          = ⟨new.dates.plannedStart, new.dates.plannedEnd, new.dates.actualStart, new.dates.actualEnd⟩ := rfl
        _ = old.dates := by rw [h₁, h₂, h₃, h₄]
    exact hsame ▸ hold

/-! ### Statements -/

omit [LinearOrder δ] in
theorem nodup_keys_append (hkeys : (others.map ObjectRow.objectId).Nodup)
    (hkey : ∀ other ∈ others, other.objectId ≠ object.objectId) :
    ((others ++ [object]).map ObjectRow.objectId).Nodup := by
  rw [map_append, map_singleton]
  apply hkeys.append (nodup_singleton _)
  intro id hid hid'
  obtain ⟨other, hother, rfl⟩ := List.mem_map.mp hid
  exact hkey other hother (mem_singleton.mp hid')

theorem projectInv_insertObject (h : ProjectInv p) (hobject : checkObject p.objects new = .ok object) :
    ProjectInv { p with objects := p.objects ++ [object] } := by
  obtain ⟨-, -, hkey⟩ := checkObject_ok hobject
  refine ⟨nodup_keys_append h.keys hkey, fun ws hws => ?_⟩
  obtain ⟨o, ho, hinside⟩ := h.inside ws hws
  exact ⟨o, mem_append_left _ ho, hinside⟩

theorem projectInv_updateObject (h : ProjectInv p) {objectId : Int} (hold : old ∈ p.objects)
    (holdId : old.objectId = objectId) (htrigger : checkObjectDateConstraints p.schedules old new = .ok ())
    (hobject : checkObject (p.objects.filter (·.objectId ≠ objectId)) new = .ok object)
    (hforeign : object.objectId ≠ objectId → ∀ ws ∈ p.schedules, ws.objectId ≠ objectId) :
    ProjectInv { p with objects := p.objects.filter (·.objectId ≠ objectId) ++ [object] } := by
  obtain ⟨hnew, hdates, hkey⟩ := checkObject_ok hobject
  refine ⟨nodup_keys_append (h.keys.sublist (filter_sublist.map _)) hkey, fun ws hws => ?_⟩
  obtain ⟨o, ho, hid, hinside⟩ := h.inside ws hws
  by_cases hne : o.objectId = objectId
  · -- the object of a schedule keeps its key
    obtain rfl : o = old := inj_on_of_nodup_map h.keys ho hold (hne.trans holdId.symm)
    have hsame : object.objectId = ws.objectId := by
      by_contra hother
      exact hforeign (fun heq => hother (heq.trans (hne.symm.trans hid))) ws hws (hid.symm.trans hne)
    refine ⟨object, mem_append_right _ (mem_singleton_self object), hsame, ?_⟩
    rw [hdates]
    exact inside_of_checkObjectDateConstraints htrigger hws (hsame ▸ hnew) hinside
  · exact ⟨o, mem_append_left _ (mem_filter.mpr ⟨ho, decide_eq_true hne⟩), hid, hinside⟩

theorem projectInv_deleteObject (h : ProjectInv p) (objectId : Int) :
    ProjectInv { objects := p.objects.filter (·.objectId ≠ objectId)
                 schedules := p.schedules.filter (·.objectId ≠ objectId) } := by
  refine ⟨h.keys.sublist (filter_sublist.map _), fun ws hws => ?_⟩
  obtain ⟨hws, hne⟩ := mem_filter.mp hws
  obtain ⟨o, ho, hid, hinside⟩ := h.inside ws hws
  exact ⟨o, mem_filter.mpr ⟨ho, hid ▸ hne⟩, hid, hinside⟩

theorem ProjectInv.fewerSchedules (h : ProjectInv p) (hsub : schedules ⊆ p.schedules) :
    ProjectInv { p with schedules := schedules } :=
  ⟨h.keys, fun ws hws => h.inside ws (hsub hws)⟩

/-- A schedule comes in; the schedules `others` stay. -/
theorem projectInv_storeSchedule (h : ProjectInv p) {others : List (ScheduleRow δ)}
    (hsub : others ⊆ p.schedules)
    {new : NewSchedule δ} (htrigger : checkWorkScheduleDates p.objects new = .ok ())
    (hws : checkSchedule p.objects others new = .ok ws) :
    ProjectInv { p with schedules := others ++ [ws] } := by
  obtain ⟨hnew, hdates, object, hobject, hid⟩ := checkSchedule_ok hws
  refine ⟨h.keys, fun ws' hmem => ?_⟩
  rcases mem_append.mp hmem with hmem | hmem
  · exact h.inside ws' (hsub hmem)
  · rw [mem_singleton.mp hmem, hdates]
    exact ⟨object, hobject, hid, inside_of_checkWorkScheduleDates h.keys htrigger hobject (hid ▸ hnew)⟩

theorem projectInv_execute {p' : Project δ} {statement : ProjectStatement δ} (h : ProjectInv p)
    (hexecute : p.execute statement = .ok p') : ProjectInv p' := by
  cases statement with
  | insertObject new =>
    obtain ⟨object, hobject, hp⟩ := bind_ok hexecute
    cases hp
    exact projectInv_insertObject h hobject
  | updateObject objectId new =>
    rw [Project.execute] at hexecute
    split at hexecute
    case h_1 =>
      cases hexecute
      exact h
    case h_2 old hfound =>
      obtain ⟨⟨⟩, htrigger, hrest⟩ := bind_ok hexecute
      obtain ⟨object, hobject, hrest⟩ := bind_ok hrest
      split_ifs at hrest with hforeign
      cases hrest
      have holdId := find?_some hfound
      apply projectInv_updateObject h (mem_of_find?_eq_some hfound) (of_decide_eq_true holdId)
        htrigger hobject
      exact fun hne ws hws heq => hforeign ⟨hne, ws, hws, heq⟩
  | deleteObject objectId =>
    cases hexecute
    exact projectInv_deleteObject h objectId
  | insertSchedule new =>
    obtain ⟨⟨⟩, htrigger, hrest⟩ := bind_ok hexecute
    obtain ⟨ws, hws, hp⟩ := bind_ok hrest
    cases hp
    exact projectInv_storeSchedule h (Subset.refl _) htrigger hws
  | updateSchedule workScheduleId new =>
    rw [Project.execute] at hexecute
    split_ifs at hexecute
    · obtain ⟨⟨⟩, htrigger, hrest⟩ := bind_ok hexecute
      obtain ⟨ws, hws, hp⟩ := bind_ok hrest
      cases hp
      exact projectInv_storeSchedule h filter_sublist.subset htrigger hws
    · cases hexecute
      exact h
  | deleteSchedule workScheduleId =>
    cases hexecute
    exact h.fewerSchedules filter_sublist.subset

theorem projectInv_empty : ProjectInv (⟨[], []⟩ : Project δ) :=
  ⟨nodup_nil, nofun⟩

/-- After every sequence of statements, every schedule has its object, and its dates are inside the
    dates of it. -/
theorem schedules_inside (statements : List (ProjectStatement δ)) :
    ∀ ws ∈ (statements.foldl Project.step ⟨[], []⟩).schedules,
      (∃ object ∈ (statements.foldl Project.step ⟨[], []⟩).objects, object.objectId = ws.objectId) ∧
      ∀ object ∈ (statements.foldl Project.step ⟨[], []⟩).objects, object.objectId = ws.objectId →
        Inside ws.dates object.dates := by
  have h : ProjectInv (statements.foldl Project.step (⟨[], []⟩ : Project δ)) :=
    List.foldlRecOn statements Project.step projectInv_empty fun p hp statement _ =>
      attempt_keeps hp fun _ hexecute => projectInv_execute hp hexecute
  intro ws hws
  obtain ⟨object, hobject, hid, hinside⟩ := h.inside ws hws
  refine ⟨⟨object, hobject, hid⟩, fun other hother hid' => ?_⟩
  exact inj_on_of_nodup_map h.keys hother hobject (hid'.trans hid.symm) ▸ hinside

/-- The end of an object goes back to `NULL`; then it cannot come before the end of the schedule of
    the object, and the schedule cannot move to an object that is not there. -/
def bridgeRun : List (ProjectStatement Int) :=
  [.insertObject ⟨some 1, some "bridge", ⟨some 10, some 30, none, none⟩⟩,
    .insertSchedule ⟨some 1, some 1, ⟨some 12, some 25, none, none⟩⟩,
    .updateObject 1 ⟨some 1, some "bridge", ⟨some 10, none, none, none⟩⟩,
    .updateObject 1 ⟨some 1, some "bridge", ⟨some 10, some 20, none, none⟩⟩,
    .updateSchedule 1 ⟨some 1, some 2, ⟨some 12, some 25, none, none⟩⟩]

theorem schedules_inside_bridgeRun :
    bridgeRun.foldl Project.step ⟨[], []⟩ =
        ⟨[⟨1, "bridge", ⟨some 10, none, none, none⟩⟩], [⟨1, 1, ⟨some 12, some 25, none, none⟩⟩]⟩ ∧
      Inside (⟨some 12, some 25, none, none⟩ : Dates Int) ⟨some 10, none, none, none⟩ := by
  have hrun : bridgeRun.foldl Project.step ⟨[], []⟩ =
      ⟨[⟨1, "bridge", ⟨some 10, none, none, none⟩⟩], [⟨1, 1, ⟨some 12, some 25, none, none⟩⟩]⟩ := by decide
  have hws := schedules_inside bridgeRun ⟨1, 1, ⟨some 12, some 25, none, none⟩⟩ (hrun ▸ mem_singleton_self _)
  exact ⟨hrun, hws.2 ⟨1, "bridge", ⟨some 10, none, none, none⟩⟩ (hrun ▸ mem_singleton_self _) rfl⟩

end NsuLabs.DB
