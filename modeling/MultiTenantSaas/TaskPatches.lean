import MultiTenantSaas.Serial
import MultiTenantSaas.TaskVersions

/-!
What an accepted PATCH stores. One branch sets the fields, the other only the status.
-/

set_option autoImplicit false

namespace MultiTenantSaas

open Process

def TaskUpdate.applied (payload : TaskUpdate) (t : Task) : Task :=
  { t with
    title := (payload.title.map fun s => strip s.text).getD t.title
    description := payload.description.or t.description
    status := payload.status.getD t.status
    priority := payload.priority.getD t.priority
    assigneeId := payload.assigneeId.or t.assigneeId
    dueDate := payload.dueDate.or t.dueDate
    versionId := t.versionId + 1 }

def TaskUpdate.Applied (payload : TaskUpdate) (old new : Task) : Prop :=
  ∃ now, new = { payload.applied old with updatedAt := now }

/-- The fields besides the status are left out, or are as they are stored. -/
structure TaskUpdate.StatusOnly (payload : TaskUpdate) (t : Task) : Prop where
  title : ∀ s, payload.title = some s → strip s.text = t.title
  description : ∀ s, payload.description = some s → t.description = some s
  priority : ∀ p, payload.priority = some p → p = t.priority
  assigneeId : ∀ u, payload.assigneeId = some u → t.assigneeId = some u
  dueDate : ∀ d, payload.dueDate = some d → t.dueDate = some d

/-- What the branch that the payload takes stores. -/
def TaskUpdate.stored (payload : TaskUpdate) (t : Task) : Task :=
  match payload.status with
  | some status => setStatus status payload.expectedVersion.val t
  | none => payload.assign t

theorem Task.flush_assigned (t : Task) (payload : TaskUpdate) (now : Instant) :
    t.flush (payload.assign t) now t = { payload.assign t with updatedAt := now } := by
  simp [Task.flush, TaskUpdate.assign]

theorem Option.or_eq_right {α : Type} {a b : Option α} :
    a.or b = b ↔ ∀ x, a = some x → b = some x := by
  cases a <;> simp [eq_comm]

theorem Option.getD_eq_default {α : Type} {a : Option α} {b : α} :
    a.getD b = b ↔ ∀ x, a = some x → x = b := by
  cases a <;> simp

theorem TaskUpdate.statusOnly_iff {payload : TaskUpdate} {t : Task} :
    payload.StatusOnly t ↔
      (payload.title.map fun s => strip s.text).getD t.title = t.title ∧
      payload.description.or t.description = t.description ∧
      payload.priority.getD t.priority = t.priority ∧
      payload.assigneeId.or t.assigneeId = t.assigneeId ∧
      payload.dueDate.or t.dueDate = t.dueDate := by
  simp only [Option.or_eq_right, Option.getD_eq_default, Option.map_eq_some_iff]
  constructor
  · intro h
    refine ⟨?_, h.description, h.priority, h.assigneeId, h.dueDate⟩
    rintro x ⟨s, hs, rfl⟩
    exact h.title s hs
  · rintro ⟨htitle, hdescription, hpriority, hassignee, hdue⟩
    exact ⟨fun s hs => htitle _ ⟨s, hs, rfl⟩, hdescription, hpriority, hassignee, hdue⟩

/-- The branch of the status drops every other field. -/
theorem TaskUpdate.applied_iff {payload : TaskUpdate} {old new : Task} {now : Instant}
    (hversion : old.versionId = payload.expectedVersion.val)
    (hnew : new = { payload.stored old with updatedAt := now }) :
    payload.Applied old new ↔ payload.status = none ∨ payload.StatusOnly old := by
  subst hnew
  cases hstatus : payload.status with
  | none =>
    refine iff_of_true ⟨now, ?_⟩ (Or.inl rfl)
    simp [stored, applied, assign, hstatus]
  | some status =>
    rw [statusOnly_iff]
    simp only [Applied, stored, applied, setStatus, hstatus, hversion, Option.getD_some,
      Task.mk.injEq, reduceCtorEq, false_or, true_and, and_true]
    constructor
    · rintro ⟨now', hassignee, htitle, hdescription, hpriority, hdue, -⟩
      exact ⟨htitle.symm, hdescription.symm, hpriority.symm, hassignee.symm, hdue.symm⟩
    · rintro ⟨htitle, hdescription, hpriority, hassignee, hdue⟩
      exact ⟨now, hassignee.symm, htitle.symm, hdescription.symm, hpriority.symm, hdue.symm, rfl⟩

section

variable [Library] {calm : Table → Uuid → Prop} {db : Db} {es : List Entry} {taskId : Uuid}

theorem Request.Writes.stored {bearer : Token} {o : Uuid} {payload : TaskUpdate} {old new : Task}
    (hw : (Request.tenant bearer o (.updateTask taskId payload)).Writes calm db es)
    (hcalm : calm .tasks taskId) (hold : db.get .tasks taskId = some old)
    (hnew : (db.apply es).get .tasks taskId = some new) :
    ∃ now, new = { payload.stored old with updatedAt := now } := by
  have hread : ∀ row : Task, (⟨.tasks, row⟩ : Entry) ∈ es → row.id = taskId → new = row := by
    rintro row hmem rfl
    have hrow : (db.apply es).get .tasks row.id = some row := hw.readBack hmem
    exact Option.some.inj (hnew.symm.trans hrow)
  have hid : old.id = taskId := (Db.get_eq_some.mp hold).2
  obtain ⟨user, role, -, hw⟩ := hw
  cases hstatus : payload.status with
  | some status =>
    simp only [TenantRequest.Writes, hstatus] at hw
    obtain ⟨existing, current, now, now', auditId, -, -, -, hget, -, -, rfl, -⟩ := hw
    cases hget.symm.trans hold
    refine ⟨now, (hread _ List.mem_cons_self hid).trans ?_⟩
    simp [TaskUpdate.stored, hstatus]
  | none =>
    simp only [TenantRequest.Writes, hstatus] at hw
    obtain ⟨loaded, current, now, -, -, -, -, hov, rfl⟩ := hw
    cases hov.committed.symm.trans hold
    obtain rfl := hov.unchanged hcalm
    refine ⟨now, (hread _ List.mem_cons_self hid).trans ?_⟩
    rw [Task.flush_assigned]
    simp [TaskUpdate.stored, hstatus]

variable {c₀ c : AppConfig}

/-- An accepted PATCH applies its whole payload when it has no status or only a status. -/
theorem patch_applied (h₀ : Start c₀) (htask : (c₀.state.db.get .tasks taskId).isSome)
    (h : Reach app (Calm (covers .tasks taskId)) c₀ c) {i : Nat} {bearer : Token} {o : Uuid}
    {payload : TaskUpdate} {a : Response}
    (ht : c.thread i = some ⟨.tenant bearer o (.updateTask taskId payload), .done (.ok a)⟩) :
    ∃ x ∈ changes .tasks taskId c.state, x.writer = i ∧
      (∀ y ∈ changes .tasks taskId c.state, y.writer = i → y = x) ∧
      (payload.Applied x.before x.after ↔ payload.status = none ∨ payload.StatusOnly x.before) := by
  obtain ⟨start, hstart⟩ := Option.isSome_iff_exists.mp htask
  obtain ⟨last, -, hlinked⟩ := h₀.linked h hstart
  have hchecked := h₀.task_checked h
  have hexpected : expectedOf Request.taskVersion c i = some payload.expectedVersion.val := by
    simp [expectedOf, ht, Request.taskVersion]
  obtain ⟨x, hx, rfl⟩ := h₀.answered_change h ht trivial fun db es hw => hw.patched
  obtain ⟨db, es, r, k, ht', hw, -, hb, ha⟩ := h₀.changed h hx
  cases ht.symm.trans ht'
  obtain ⟨now, hstored⟩ := hw.stored ⟨rfl, rfl⟩ hb ha
  have hversion := ((hchecked x hx).expects _ hexpected).1
  refine ⟨x, hx, rfl, fun y hy hwriter => ?_, TaskUpdate.applied_iff hversion hstored⟩
  exact hlinked.unique hchecked hy hx (hwriter ▸ hexpected) hexpected

end

section

open scoped Ascii

theorem prioritized_applied : ∃ payload x,
    prioritize .high = asAnn (.updateTask (drawnId 17) payload) ∧
    x ∈ changes .tasks (drawnId 17) (runMoves apolloLaunch (solo 0 (prioritize .high))).state ∧
    payload.Applied x.before x.after := by
  have haccepted : accepted (runMoves apolloLaunch (solo 0 (prioritize .high))) 0 = true := by
    decide +kernel
  obtain ⟨r, a, ht, hr⟩ := runMoves_accepted start_apolloLaunch.idle haccepted
  obtain ⟨-, rfl⟩ := start_mem_solo.mp hr
  obtain ⟨x, hx, -, -, happlied⟩ := patch_applied start_apolloLaunch (by decide +kernel)
    (runMoves_calm start_apolloLaunch.idle) ht
  exact ⟨_, x, rfl, hx, happlied.mpr (Or.inl rfl)⟩

def renameAndStart : TaskUpdate :=
  ⟨some ⟨"Land".toList, by decide, by decide⟩, none, some .inProgress, none, none, none, .first⟩

/-- The title is dropped. -/
theorem patch_not_applied : ¬ ∀ c₀ c taskId, Start c₀ →
    (c₀.state.db.get .tasks taskId).isSome → Reach app OneAtATime c₀ c →
    ∀ i bearer o payload a,
      c.thread i = some ⟨.tenant bearer o (.updateTask taskId payload), .done (.ok a)⟩ →
      ∃ x ∈ changes .tasks taskId c.state, x.writer = i ∧ payload.Applied x.before x.after := by
  intro hall
  let moves := solo 0 (asAnn (.updateTask (drawnId 17) renameAndStart))
  have haccepted : accepted (runMoves apolloLaunch moves) 0 = true := by decide +kernel
  obtain ⟨r, a, ht, hr⟩ := runMoves_accepted start_apolloLaunch.idle haccepted
  obtain ⟨-, rfl⟩ := start_mem_solo.mp hr
  obtain ⟨x, hx, -, now, happlied⟩ := hall apolloLaunch (runMoves apolloLaunch moves) (drawnId 17)
    start_apolloLaunch (by decide +kernel) (runMoves_solo start_apolloLaunch.idle) 0 _ _ _ a ht
  have hdropped : ((changes .tasks (drawnId 17) (runMoves apolloLaunch moves).state).all fun x =>
      decide (Task.title x.after ≠ "Land".toList)) = true := by decide +kernel
  have htitle : strip "Land".toList = "Land".toList := by decide
  exact of_decide_eq_true (List.all_eq_true.mp hdropped x hx)
    ((congrArg Task.title happlied).trans htitle)

end

end MultiTenantSaas
