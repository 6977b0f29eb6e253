import MultiTenantSaas.Runs

/-!
Tasks and their projects. The organization of a task is that of the request, its
project is what the client sends; the foreign key only says that the project exists.
-/

set_option autoImplicit false

namespace MultiTenantSaas

open Process

/-- The project of each task is one of its own organization. -/
def Db.Tenanted (db : Db) : Prop :=
  ∀ task : Task, task ∈ db.rows .tasks → TenantHas db .projects task.organizationId task.projectId

/-- In this state, and a request for a task of a project that its tenant does not have
has been refused if it has been answered, and it has committed nothing. -/
structure TaskTenancy (c : AppConfig) : Prop where
  tenanted : c.state.db.Tenanted
  refused : ∀ i bearer o payload k, c.thread i = some ⟨.tenant bearer o (.createTask payload), k⟩ →
    ¬ TenantHas c.state.db .projects o payload.projectId →
    (∀ a, k ≠ .done (.ok a)) ∧ ∀ d ∈ c.state.commits, d.session ≠ i

/-- A new task does not name a project of another organization. -/
def ownProject : Request → Db → Bool
  | .tenant _ o (.createTask payload), db => (db.rows .projects).list.all
    fun (p : Project) => p.id ≠ payload.projectId || p.organizationId = o
  | _, _ => true

theorem Db.Closed.project {db : Db} (h : db.Closed) {task : Task} (ht : task ∈ db.rows .tasks) :
    ∃ project : Project, db.get .projects task.projectId = some project :=
  Db.refsExist_iff.mp (h .tasks task ht) (.projects, task.projectId) (by simp [Table.refs])

section

variable [Library] {calm : Table → Uuid → Prop} {db : Db} {es : List Entry}

/-- A task is inserted by `create_task` only. -/
theorem Request.Writes.newTask {r : Request} (hw : r.Writes calm db es) {task : Task}
    (hmem : (⟨.tasks, task⟩ : Entry) ∈ es) (hins : Inserted db ⟨.tasks, task⟩) :
    ∃ bearer o payload, r = .tenant bearer o (.createTask payload) ∧ task.organizationId = o ∧
      task.projectId = payload.projectId := by
  cases r with
  | register clientIp payload =>
    obtain ⟨hashed, slug, id, orgId, memberId, now, now', now'', rfl, -⟩ := hw
    simp at hmem
  | tenant bearer o req =>
    obtain ⟨user, role, -, hw⟩ := hw
    have htable := hw.table hmem
    cases req <;> simp only [TenantRequest.tables, List.mem_cons, List.not_mem_nil, reduceCtorEq,
      or_self] at htable
    case createTask payload =>
      obtain ⟨id, auditId, now, now', rfl, -⟩ := hw
      rcases List.mem_pair.mp hmem with he | he <;> cases he
      exact ⟨bearer, _, payload, rfl, rfl, rfl⟩
    case updateTask taskId payload =>
      cases hs : payload.status with
      | some status =>
        simp only [TenantRequest.Writes, hs] at hw
        obtain ⟨existing, current, now, now', auditId, -, -, -, hget, -, -, rfl, -⟩ := hw
        rcases List.mem_pair.mp hmem with he | he <;> cases he
        exact absurd hins (not_inserted hget rfl)
      | none =>
        simp only [TenantRequest.Writes, hs] at hw
        obtain ⟨loaded, current, now, -, -, -, -, hov, rfl⟩ := hw
        cases List.mem_singleton.mp hmem
        exact absurd hins (not_inserted hov.committed (Task.frozen_flush now _ _ _))
    case deleteTask taskId =>
      obtain ⟨current, now, hget, -, -, rfl⟩ := hw
      cases List.mem_singleton.mp hmem
      exact absurd hins (not_inserted hget (Task.frozen_markDeleted now current))
  | _ => exact hw.elim

theorem createTask_project {bearer : Token} {o : Uuid} {payload : TaskCreate}
    (hw : (Request.tenant bearer o (.createTask payload)).Writes calm db es)
    (hown : ownProject (.tenant bearer o (.createTask payload)) db = true)
    (hclosed : (db.apply es).Closed) : TenantHas (db.apply es) .projects o payload.projectId := by
  have hw' := hw
  have hrow := fun (project : Project) => hw.row (t := .projects) (x := project)
  obtain ⟨user, role, -, id, auditId, now, now', rfl, -⟩ := hw
  have hmem : newTask o payload.projectId user.id payload.assigneeId payload.title.text
      payload.description payload.priority id now ∈ (db.apply _).rows .tasks :=
    (Db.get_eq_some.mp (hw'.readBack (e := ⟨.tasks, _⟩) List.mem_cons_self)).1
  obtain ⟨project, hget⟩ := hclosed.project hmem
  obtain ⟨hmem, hid⟩ := Db.get_eq_some.mp hget
  refine ⟨project, hget, ?_⟩
  rcases hrow project hmem with ⟨old, hold, hf⟩ | ⟨hnew, -⟩
  · have hold' := List.all_eq_true.mp hown old hold
    have hoid : Project.id old = payload.projectId := (Table.id_of_frozen hf).symm.trans hid
    rw [Table.org_of_frozen hf]
    exact congrArg some (by simpa [hoid] using hold')
  · simp at hnew

theorem Db.Tenanted.writes {r : Request} (h : db.Tenanted) (hw : r.Writes calm db es)
    (hown : ownProject r db = true) (hclosed : (db.apply es).Closed) : (db.apply es).Tenanted := by
  intro task hmem
  rcases hw.row hmem with ⟨old, hold, hf⟩ | ⟨hnew, hins⟩
  · have horg := congrArg Task.organizationId hf
    have hproject := congrArg Task.projectId hf
    change task.organizationId = _ at horg
    change task.projectId = _ at hproject
    rw [horg, hproject]
    exact (h old hold).mono hw.extends
  · obtain ⟨bearer, o, payload, rfl, rfl, hproject⟩ := hw.newTask hnew hins
    rw [hproject]
    exact createTask_project hw hown hclosed

section run

variable {faults : Faults} {now : Instant} {c : AppConfig}

theorem ownProject_history (h : Reach app (Committing ownProject) (genesis faults now) c) :
    History (genesis faults now).state.db c.state.commits c.state.db ∧
    ∀ d ∈ c.state.commits, (d.before.apply d.written).Closed ∧
      ∃ r k, c.thread d.session = some ⟨r, k⟩ ∧ r.Writes uncovered d.before d.written ∧
        ownProject r d.before = true :=
  (start_genesis faults now).history (P := fun r db _ => ownProject r db = true)
    (fun c l _ => calm_uncovered c l) (fun _ _ r k hok ht => hok r k ht) h

theorem genesis_tenanted (h : Reach app (Committing ownProject) (genesis faults now) c) :
    c.state.db.Tenanted := by
  obtain ⟨hhist, hcommits⟩ := ownProject_history h
  refine hhist.invariant Db.Tenanted (fun task hm => absurd hm (Db.not_mem_empty _))
    fun d hd hI => ?_
  obtain ⟨hclosed, r, k, -, hw, hown⟩ := hcommits d hd
  exact hI.writes hw hown hclosed

/-- When no task is created in a project of another organization, every state of every
run keeps tasks and projects in agreement. -/
theorem tasks_tenanted (h : Reach app (Committing ownProject) (genesis faults now) c) :
    TaskTenancy c := by
  refine ⟨genesis_tenanted h, fun i bearer o payload k ht hno => ?_⟩
  obtain ⟨hhist, hcommits⟩ := ownProject_history h
  have hnone : ∀ d ∈ c.state.commits, d.session ≠ i := by
    rintro d hd rfl
    obtain ⟨hclosed, r, k', ht', hw, hown⟩ := hcommits d hd
    rw [ht] at ht'
    cases ht'
    refine hno ((createTask_project hw hown hclosed).mono (hhist.extends (fun e he => ?_) hd))
    obtain ⟨-, r, k, -, hw, -⟩ := hcommits e he
    exact hw.extends
  refine ⟨?_, hnone⟩
  rintro a rfl
  obtain ⟨d, hd, hi⟩ := ((start_genesis faults now).answered
    (h.mono fun c l _ => calm_uncovered c l) ht trivial).commit
  exact hnone d hd hi

end run

end

section

open scoped Ascii

theorem annsTask_tenanted : TaskTenancy
    (runMoves (genesis noFaults 0) (annsProject ++ solo 3 (asAnn apolloTask))) :=
  tasks_tenanted (runMoves_committing (by decide +kernel))

def bobsTask : AppConfig := runMoves (genesis noFaults 0) (annsProject ++ solo 3 (asBob apolloTask))

/-- A user creates a task in a project of another organization. -/
theorem tasks_not_tenanted :
    ¬ ∀ c, Reach app anySchedule (genesis noFaults 0) c → TaskTenancy c := by
  intro hall
  have hten := (hall bobsTask (runMoves_any fun _ => rfl)).tenanted
  have htask : (bobsTask.state.db.get .tasks (drawnId 17)).map
      (fun t : Task => (t.organizationId, t.projectId)) = some (drawnId 11, drawnId 15) := by
    decide +kernel
  have hproject : (bobsTask.state.db.get .projects (drawnId 15)).map Table.projects.org =
      some (some (drawnId 4)) := by decide +kernel
  obtain ⟨task, hget, heq⟩ := Option.map_eq_some_iff.mp htask
  obtain ⟨project, hget', horg⟩ := hten task (Db.get_eq_some.mp hget).1
  rw [(Prod.mk.inj heq).2] at hget'
  rw [hget', Option.map_some, horg, (Prod.mk.inj heq).1] at hproject
  exact absurd hproject (by decide +kernel)

end

end MultiTenantSaas
