import MultiTenantSaas.Cascade
import MultiTenantSaas.Runs

/-!
The sweep of the retention job. Its DELETE names the expired tasks, and the foreign keys
take along the comments, the attachments and the subtasks of each.
-/

set_option autoImplicit false

namespace MultiTenantSaas

/-- The rows that a row refers to by a foreign key with ON DELETE CASCADE. -/
def Table.cascades : (t : Table) → t.Row → List (Table × Uuid)
  | .users, _ => []
  | .organizations, _ => []
  | .organizationMembers, r =>
    [(.organizations, OrganizationMember.organizationId r), (.users, OrganizationMember.userId r)]
  | .teams, r => [(.organizations, Team.organizationId r)]
  | .teamMembers, r =>
    [(.organizations, TeamMember.organizationId r), (.teams, TeamMember.teamId r),
      (.users, TeamMember.userId r)]
  | .projects, r => [(.organizations, Project.organizationId r)]
  | .tasks, r =>
    [(.organizations, Task.organizationId r), (.projects, Task.projectId r)] ++
      optionalRef .tasks (Task.parentId r)
  | .comments, r =>
    [(.organizations, Comment.organizationId r), (.tasks, Comment.taskId r),
      (.users, Comment.authorId r)]
  | .attachments, r =>
    [(.organizations, Attachment.organizationId r), (.tasks, Attachment.taskId r)]
  | .auditLogs, r => [(.organizations, AuditLog.organizationId r)]

def Table.all : List Table :=
  [.users, .organizations, .organizationMembers, .teams, .teamMembers, .projects, .tasks, .comments,
    .attachments, .auditLogs]

theorem Table.mem_all (t : Table) : t ∈ all := by cases t <;> decide

def Entry.refers (e f : Entry) : Bool := decide (f.slot ∈ e.table.cascades e.row)

def Entry.isTask (criteria : Task → Bool) : Entry → Bool
  | ⟨.tasks, task⟩ => criteria task
  | _ => false

def Db.entries (db : Db) : List Entry :=
  Table.all.flatMap fun t => (db.rows t).list.map (Entry.mk t)

@[simp] theorem Db.mem_entries {db : Db} {e : Entry} :
    e ∈ db.entries ↔ e.row ∈ db.rows e.table := by
  obtain ⟨t, r⟩ := e
  constructor
  · intro h
    obtain ⟨t', -, h⟩ := List.mem_flatMap.mp h
    obtain ⟨r', hr, he⟩ := List.mem_map.mp h
    cases he
    exact hr
  · exact fun h => List.mem_flatMap.mpr ⟨t, t.mem_all, List.mem_map.mpr ⟨r, h, rfl⟩⟩

theorem Db.eq_of_slot {db : Db} {e f : Entry} (he : e.row ∈ db.rows e.table)
    (hf : f.row ∈ db.rows f.table) (h : e.slot = f.slot) : e = f := by
  obtain ⟨t, r⟩ := e
  obtain ⟨t', r'⟩ := f
  obtain rfl : t = t' := congrArg Prod.fst h
  exact congrArg (Entry.mk t) (Db.eq_of_id he hf (congrArg Prod.snd h))

/-- `DELETE FROM tasks WHERE criteria RETURNING id`. The ids are those of the rows that
meet the criteria, not of those that the foreign keys take along. -/
def Db.deleteTasks (criteria : Task → Bool) (db : Db) : List Uuid × Db :=
  let left := (Cascade.delete Entry.refers db.entries.length (Entry.isTask criteria)
    db.entries).map Entry.slot
  (((db.rows .tasks).list.filter criteria).map Task.id,
    ⟨fun t => (db.rows t).filter fun r => decide ((t, t.id r) ∈ left)⟩)

def day : Int := 86400 * second

def datetimeMin : Int := -62135596800 * second

def datetimeMax : Int := 253402300800 * second - 1

structure Datetime where
  instant : Instant
  min_le : datetimeMin ≤ instant
  le_max : instant ≤ datetimeMax

def Datetime.minusDays (self : Datetime) (days : Int) : Option Datetime :=
  if 999999999 < days.natAbs then none
  else if h : datetimeMin ≤ self.instant - days * day ∧ self.instant - days * day ≤ datetimeMax then
    some ⟨self.instant - days * day, h.1, h.2⟩
  else none

/-- `is_deleted IS TRUE AND deleted_at <= cutoff_time`; a NULL is no match. -/
def expired (cutoffTime : Instant) (task : Task) : Bool :=
  task.isDeleted && task.deletedAt.any fun deletedAt => decide (deletedAt ≤ cutoffTime)

def cleanupSoftDeletedTasksJob (now : Datetime) (daysThreshold : Int) (db : Db) :
    Option (Nat × Db) := do
  let cutoffTime ← now.minusDays daysThreshold
  let (deletedIds, db) := db.deleteTasks (expired cutoffTime.instant)
  pure (deletedIds.length, db)

/-- The task that a row goes with: the parent of a subtask, the task of a comment or an
attachment. -/
def Entry.owner : Entry → Option Uuid
  | ⟨.tasks, task⟩ => Task.parentId task
  | ⟨.comments, comment⟩ => some (Comment.taskId comment)
  | ⟨.attachments, attachment⟩ => some (Attachment.taskId attachment)
  | _ => none

/-- A task that meets the criteria, or has an ancestor that does. -/
def Db.Doomed (criteria : Task → Bool) (db : Db) : Task → Prop :=
  Cascade.Falls (fun task parent => decide (Task.parentId task = some parent.id)) criteria
    (db.rows .tasks).list

variable {db : Db} {criteria : Task → Bool} {e : Entry}

theorem Table.cascades_subset (t : Table) (r : t.Row) : t.cascades r ⊆ t.refs r := by
  cases t <;> simp [cascades, refs]
  case tasks => exact fun p hp => by simp [hp]

theorem Entry.owner_of_ref {taskId : Uuid} (h : (Table.tasks, taskId) ∈ e.table.refs e.row) :
    e.owner = some taskId := by
  obtain ⟨t, r⟩ := e
  cases t <;> simp [Table.refs, owner] at h ⊢
  case tasks =>
    cases hp : Task.parentId r <;> cases ha : Task.assigneeId r <;> simp_all [optionalRef]
  case projects => cases hp : Project.teamId r <;> simp_all [optionalRef]
  case auditLogs => cases hp : AuditLog.actorId r <;> simp_all [optionalRef]
  all_goals exact h.symm

theorem Entry.refers_task {task : Task} :
    e.refers ⟨.tasks, task⟩ = true ↔ e.owner = some task.id := by
  constructor
  · exact fun h => owner_of_ref (e.table.cascades_subset e.row (of_decide_eq_true h))
  · intro h
    refine decide_eq_true ?_
    obtain ⟨t, r⟩ := e
    cases t <;> simp [owner] at h <;> simp [Table.cascades, slot, id, Table.id, h, optionalRef]

theorem Entry.eq_task_of_ref {f : Entry} (h : f.slot ∈ e.table.refs e.row)
    (hf : f.isTask criteria = true ∨ f.owner ≠ none) : ∃ task : Task, f = ⟨.tasks, task⟩ := by
  obtain ⟨t, r⟩ := f
  cases t
  case tasks => exact ⟨r, rfl⟩
  case comments | attachments =>
    obtain ⟨t', r'⟩ := e
    cases t' <;> simp [Table.refs, slot] at h
    case tasks =>
      cases hp : Task.parentId r' <;> cases ha : Task.assigneeId r' <;> simp_all [optionalRef]
    case projects => cases hp : Project.teamId r' <;> simp_all [optionalRef]
    case auditLogs => cases hp : AuditLog.actorId r' <;> simp_all [optionalRef]
  all_goals simp [isTask, owner] at hf

theorem Db.Doomed.falls {task : Task} (h : db.Doomed criteria task) :
    Cascade.Falls Entry.refers (Entry.isTask criteria) db.entries ⟨.tasks, task⟩ := by
  induction h with
  | hit hx hhit => exact .hit (Db.mem_entries.mpr hx) hhit
  | refers hx href _ ih =>
    exact .refers (Db.mem_entries.mpr hx) (Entry.refers_task.mpr (of_decide_eq_true href)) ih

theorem Db.falls_iff : Cascade.Falls Entry.refers (Entry.isTask criteria) db.entries e ↔
    e.row ∈ db.rows e.table ∧
      (e.isTask criteria = true ∨ ∃ task, db.Doomed criteria task ∧ e.owner = some task.id) := by
  constructor
  · intro h
    induction h with
    | hit hx hhit => exact ⟨Db.mem_entries.mp hx, Or.inl hhit⟩
    | @refers e f hx href _ ih =>
      refine ⟨Db.mem_entries.mp hx, Or.inr ?_⟩
      obtain ⟨task, rfl⟩ := Entry.eq_task_of_ref
        (e.table.cascades_subset e.row (of_decide_eq_true href))
        (ih.2.imp_right fun ⟨_, _, ho⟩ => by simp [ho])
      refine ⟨task, ?_, Entry.refers_task.mp href⟩
      rcases ih with ⟨hmem, hhit | ⟨parent, hdoomed, hparent⟩⟩
      · exact .hit hmem hhit
      · exact .refers hmem (decide_eq_true hparent) hdoomed
  · rintro ⟨hmem, hhit | ⟨task, hdoomed, howner⟩⟩
    · exact .hit (Db.mem_entries.mpr hmem) hhit
    · exact .refers (Db.mem_entries.mpr hmem) (Entry.refers_task.mpr howner) hdoomed.falls

theorem Db.mem_deleteTasks : e.row ∈ (db.deleteTasks criteria).2.rows e.table ↔
    e.row ∈ db.rows e.table ∧
      ¬ Cascade.Falls Entry.refers (Entry.isTask criteria) db.entries e := by
  change e.row ∈ (db.rows e.table).filter _ ↔ _
  rw [Keyed.Rows.mem_filter, decide_eq_true_eq, List.mem_map]
  refine and_congr_right fun hmem => ?_
  constructor
  · rintro ⟨f, hf, hslot⟩
    obtain ⟨hfmem, hfalls⟩ := (Cascade.mem_delete (Nat.le_refl _)).mp hf
    rwa [← Db.eq_of_slot (Db.mem_entries.mp hfmem) hmem hslot]
  · exact fun hfalls => ⟨e, (Cascade.mem_delete (Nat.le_refl _)).mpr
      ⟨Db.mem_entries.mpr hmem, hfalls⟩, rfl⟩

theorem Db.Closed.deleteTasks (h : db.Closed) : (db.deleteTasks criteria).2.Closed := by
  intro t r hr
  let e : Entry := ⟨t, r⟩
  obtain ⟨hmem, hstays⟩ := (Db.mem_deleteTasks (e := e)).mp hr
  refine Db.refsExist_iff.mpr fun p href => ?_
  obtain ⟨z, hz⟩ := Db.refsExist_iff.mp (h t r hmem) p href
  obtain ⟨hzmem, hid⟩ := Db.get_eq_some.mp hz
  let f : Entry := ⟨p.1, z⟩
  have hslot : f.slot ∈ e.table.refs e.row := by
    rwa [show f.slot = p from Prod.ext rfl hid]
  have hkept : f.row ∈ (db.deleteTasks criteria).2.rows f.table := by
    refine Db.mem_deleteTasks.mpr ⟨hzmem, fun hfalls => hstays ?_⟩
    obtain ⟨-, hf⟩ := Db.falls_iff.mp hfalls
    obtain ⟨task, heq⟩ := Entry.eq_task_of_ref hslot (hf.imp_right fun ⟨_, _, ho⟩ => by simp [ho])
    rw [heq] at hslot hfalls
    exact .refers (Db.mem_entries.mpr hmem)
      (Entry.refers_task.mpr (Entry.owner_of_ref hslot)) hfalls
  exact ⟨z, Db.get_eq_some.mpr ⟨hkept, hid⟩⟩

theorem Db.mem_deleteTasks_task {task : Task} :
    task ∈ (db.deleteTasks criteria).2.rows .tasks ↔
      task ∈ db.rows .tasks ∧ ¬ db.Doomed criteria task := by
  refine (Db.mem_deleteTasks (e := ⟨.tasks, task⟩)).trans (and_congr_right fun hmem => not_congr ?_)
  refine ⟨fun h => ?_, Db.Doomed.falls⟩
  rcases (Db.falls_iff.mp h).2 with hhit | ⟨parent, hdoomed, howner⟩
  · exact .hit hmem hhit
  · exact .refers hmem (decide_eq_true howner) hdoomed

theorem Db.mem_deleteTasks_other (h : e.isTask criteria = false) :
    e.row ∈ (db.deleteTasks criteria).2.rows e.table ↔
      e.row ∈ db.rows e.table ∧ ∀ task, db.Doomed criteria task → e.owner ≠ some task.id := by
  rw [Db.mem_deleteTasks, Db.falls_iff]
  simp +contextual [h]

/-- The expired tasks go, with their comments and attachments and nothing else, and are
counted. -/
structure PurgesExpired (cutoffTime : Instant) (db : Db) (count : Nat) (db' : Db) : Prop where
  tasks : ∀ task : Task, task ∈ db'.rows .tasks ↔
    task ∈ db.rows .tasks ∧ expired cutoffTime task = false
  comments : ∀ comment : Comment, comment ∈ db'.rows .comments ↔
    comment ∈ db.rows .comments ∧
      ∀ task : Task, db.get .tasks comment.taskId = some task → expired cutoffTime task = false
  attachments : ∀ attachment : Attachment, attachment ∈ db'.rows .attachments ↔
    attachment ∈ db.rows .attachments ∧
      ∀ task : Task, db.get .tasks attachment.taskId = some task → expired cutoffTime task = false
  others : ∀ t : Table, t ∉ [.tasks, .comments, .attachments] → ∀ row : t.Row,
    row ∈ db'.rows t ↔ row ∈ db.rows t
  count : count = ((db.rows .tasks).list.filter fun task =>
    (db'.get .tasks (Task.id task)).isNone).length

/-- An expired task has no subtask that is not expired. -/
def SubtasksExpired (cutoffTime : Instant) (db : Db) : Prop :=
  ∀ task ∈ (db.rows .tasks).list, ∀ parent ∈ (db.rows .tasks).list,
    Task.parentId task = some (Task.id parent) → expired cutoffTime parent = true →
      expired cutoffTime task = true

theorem days_le {instant : Int} {days : Nat} (hmax : instant ≤ datetimeMax)
    (hmin : datetimeMin ≤ instant - days * day) :
    days ≤ 999999999 ∧ instant - days * day ≤ datetimeMax := by
  simp only [datetimeMin, datetimeMax, day, second] at hmin hmax ⊢
  omega

theorem Datetime.minusDays_isSome {now : Datetime} {days : Int} (hdays : 0 ≤ days) :
    (∃ cutoff, now.minusDays days = some cutoff) ↔ datetimeMin ≤ now.instant - days * day := by
  obtain ⟨n, rfl⟩ := Int.eq_ofNat_of_zero_le hdays
  constructor
  · rintro ⟨cutoff, h⟩
    unfold minusDays at h
    split at h
    · cases h
    · split at h
      · next hrange => exact hrange.1
      · cases h
  · intro h
    obtain ⟨hdays, hmax⟩ := days_le now.le_max h
    rw [minusDays, if_neg (by simpa using hdays), dif_pos ⟨h, hmax⟩]
    exact ⟨_, rfl⟩

theorem Datetime.minusDays_instant {now cutoff : Datetime} {days : Int}
    (h : now.minusDays days = some cutoff) : cutoff.instant = now.instant - days * day := by
  unfold minusDays at h
  split at h
  · cases h
  · split at h <;> cases h
    rfl

section

variable {cutoffTime : Instant}

theorem SubtasksExpired.doomed_iff (h : SubtasksExpired cutoffTime db) {task : Task} :
    db.Doomed (expired cutoffTime) task ↔
      task ∈ db.rows .tasks ∧ expired cutoffTime task = true := by
  constructor
  · refine fun hdoomed => ⟨hdoomed.mem, Cascade.falls_hit_iff.mpr ?_ task hdoomed⟩
    exact fun x hx y hy href hhit => h x hx y hy (of_decide_eq_true href) hhit
  · exact fun hexpired => .hit hexpired.1 hexpired.2

theorem SubtasksExpired.mem_task (h : SubtasksExpired cutoffTime db) {task : Task} :
    task ∈ (db.deleteTasks (expired cutoffTime)).2.rows .tasks ↔
      task ∈ db.rows .tasks ∧ expired cutoffTime task = false := by
  rw [Db.mem_deleteTasks_task, h.doomed_iff]
  exact and_congr_right fun hmem => by simp [hmem]

theorem SubtasksExpired.mem_other (h : SubtasksExpired cutoffTime db)
    (he : e.isTask (expired cutoffTime) = false) :
    e.row ∈ (db.deleteTasks (expired cutoffTime)).2.rows e.table ↔
      e.row ∈ db.rows e.table ∧ ∀ taskId, e.owner = some taskId → ∀ task : Task,
        db.get .tasks taskId = some task → expired cutoffTime task = false := by
  rw [Db.mem_deleteTasks_other he]
  refine and_congr_right fun _ => ?_
  constructor
  · intro hleft taskId howner task hget
    obtain ⟨hmem, rfl⟩ := Db.get_eq_some.mp hget
    exact Bool.eq_false_iff.mpr fun hexpired =>
      hleft task (h.doomed_iff.mpr ⟨hmem, hexpired⟩) howner
  · intro hleft task hdoomed howner
    obtain ⟨hmem, hexpired⟩ := h.doomed_iff.mp hdoomed
    simp [hleft _ howner task (Db.get_of_mem hmem)] at hexpired

theorem Db.mem_deleteTasks_rest {t : Table} (ht : t ∉ [.tasks, .comments, .attachments])
    (row : t.Row) : row ∈ (db.deleteTasks criteria).2.rows t ↔ row ∈ db.rows t := by
  have howner : (⟨t, row⟩ : Entry).owner = none ∧ Entry.isTask criteria ⟨t, row⟩ = false := by
    cases t <;> first | exact ⟨rfl, rfl⟩ | simp at ht
  exact (Db.mem_deleteTasks_other (e := ⟨t, row⟩) howner.2).trans (by simp [howner.1])

theorem SubtasksExpired.isNone (h : SubtasksExpired cutoffTime db) {task : Task}
    (hmem : task ∈ db.rows .tasks) : expired cutoffTime task =
      ((db.deleteTasks (expired cutoffTime)).2.get .tasks task.id).isNone := by
  cases hexpired : expired cutoffTime task with
  | false =>
    have hget : (db.deleteTasks (expired cutoffTime)).2.get .tasks task.id = some task :=
      Db.get_of_mem (h.mem_task.mpr ⟨hmem, hexpired⟩)
    rw [hget]
    rfl
  | true =>
    have hget : (db.deleteTasks (expired cutoffTime)).2.get .tasks task.id = none := by
      refine Db.get_eq_none.mpr fun left hleft hid => ?_
      obtain ⟨hold, hlive⟩ := h.mem_task.mp hleft
      rw [show left = task from Db.eq_of_id hold hmem hid, hexpired] at hlive
      cases hlive
    rw [hget]
    rfl

theorem purgesExpired_iff : PurgesExpired cutoffTime db
    (db.deleteTasks (expired cutoffTime)).1.length (db.deleteTasks (expired cutoffTime)).2 ↔
    SubtasksExpired cutoffTime db := by
  constructor
  · intro h task htask parent hparent hchild hexpired
    by_contra hlive
    have hkept := (h.tasks task).mpr ⟨htask, Bool.eq_false_iff.mpr hlive⟩
    exact (Db.mem_deleteTasks_task.mp hkept).2
      (.refers htask (decide_eq_true hchild) (.hit hparent hexpired))
  · intro h
    refine ⟨fun task => h.mem_task, fun comment => ?_, fun attachment => ?_,
      fun t => Db.mem_deleteTasks_rest, ?_⟩
    · exact (h.mem_other (e := ⟨.comments, comment⟩) rfl).trans (by simp [Entry.owner])
    · exact (h.mem_other (e := ⟨.attachments, attachment⟩) rfl).trans (by simp [Entry.owner])
    · have hcount : (db.deleteTasks (expired cutoffTime)).1.length =
          ((db.rows .tasks).list.filter (expired cutoffTime)).length := List.length_map _
      rw [hcount, List.filter_congr fun task hmem => h.isNone hmem]

end

/-- The job purges exactly the expired tasks, and returns how many, if and only if its
cutoff is a date and no expired task has a subtask that is not expired. -/
theorem job_purges_expired (now : Datetime) {daysThreshold : Int} (hdays : 0 ≤ daysThreshold)
    (db : Db) :
    (∃ count db', cleanupSoftDeletedTasksJob now daysThreshold db = some (count, db') ∧
      PurgesExpired (now.instant - daysThreshold * day) db count db') ↔
    datetimeMin ≤ now.instant - daysThreshold * day ∧
      SubtasksExpired (now.instant - daysThreshold * day) db := by
  rw [← Datetime.minusDays_isSome hdays, ← purgesExpired_iff]
  constructor
  · rintro ⟨count, db', hjob, hpurges⟩
    obtain ⟨cutoff, hcutoff, hret⟩ := Option.bind_eq_some_iff.mp hjob
    have hinstant := Datetime.minusDays_instant hcutoff
    rw [hinstant] at hret
    cases hret
    exact ⟨⟨cutoff, hcutoff⟩, hpurges⟩
  · rintro ⟨⟨cutoff, hcutoff⟩, hpurges⟩
    refine ⟨_, _, Option.bind_eq_some_iff.mpr ⟨cutoff, hcutoff, rfl⟩, ?_⟩
    rw [Datetime.minusDays_instant hcutoff]
    exact hpurges

/-- The organization `1` of the user `0`, with a project and two tasks: the task `3` was
deleted at the epoch, and its subtask `4`, which has a comment, at the given instant. -/
def household (deletedAt : Option Instant) : Db :=
  Db.empty.apply
    [⟨.users, ⟨drawnId 0, "ann@example.org".toList, [], "Ann".toList, none, true, true, 0, 0⟩⟩,
      ⟨.organizations, ⟨drawnId 1, "Ann's".toList, "anns".toList, none, true, 0, 0⟩⟩,
      ⟨.projects,
        ⟨drawnId 2, drawnId 1, none, "Apollo".toList, "APO".toList, none, false, 1, 0, 0⟩⟩,
      ⟨.tasks, ⟨drawnId 3, drawnId 1, drawnId 2, none, drawnId 0, none, "Launch".toList, none,
        .done, .low, none, 1, 0, 0, true, some 0⟩⟩,
      ⟨.tasks, ⟨drawnId 4, drawnId 1, drawnId 2, some (drawnId 3), drawnId 0, none,
        "Countdown".toList, none, .todo, .low, none, 1, 0, 0, deletedAt.isSome, deletedAt⟩⟩,
      ⟨.comments, ⟨drawnId 5, drawnId 1, drawnId 4, drawnId 0, "Ten".toList, false, 0, 0⟩⟩]

def day40 : Datetime := ⟨40 * day, by decide, by decide⟩

theorem household_purged : ∃ count db',
    cleanupSoftDeletedTasksJob day40 30 (household (some 5)) = some (count, db') ∧
      PurgesExpired (day40.instant - 30 * day) (household (some 5)) count db' := by
  refine (job_purges_expired day40 (by decide) (household (some 5))).mpr ⟨by decide, ?_⟩
  unfold SubtasksExpired
  decide +kernel

/-- A live subtask of an expired task goes, and is not counted. -/
theorem job_purges_more : ¬ ∀ (now : Datetime) (daysThreshold : Int) (db : Db), db.Closed →
    0 ≤ daysThreshold → datetimeMin ≤ now.instant - daysThreshold * day → ∃ count db',
      cleanupSoftDeletedTasksJob now daysThreshold db = some (count, db') ∧
        PurgesExpired (now.instant - daysThreshold * day) db count db' := by
  intro hall
  have hclosed : (household none).Closed := by
    intro t r hr
    have hrefs : (((household none).rows t).list.all fun r =>
        (household none).refsExist t r) = true := by
      cases t <;> decide +kernel
    exact List.all_eq_true.mp hrefs r hr
  obtain ⟨count, db', hjob, hpurges⟩ :=
    hall day40 30 (household none) hclosed (by decide) (by decide)
  have hlive : ((household none).rows .tasks).list.any (fun task =>
      decide (Task.id task = drawnId 4) &&
    !expired (day40.instant - 30 * day) task) = true := by decide +kernel
  have hgone : ((cleanupSoftDeletedTasksJob day40 30 (household none)).all fun x =>
    (x.2.get .tasks (drawnId 4)).isNone) = true := by decide +kernel
  obtain ⟨task, hmem, htask⟩ := List.any_eq_true.mp hlive
  simp only [Bool.and_eq_true, decide_eq_true_eq, Bool.not_eq_true'] at htask
  have hkept := (hpurges.tasks task).mpr ⟨hmem, htask.2⟩
  rw [hjob, Option.all_some, ← htask.1, show db'.get .tasks task.id = some task from
    Db.get_of_mem hkept] at hgone
  cases hgone

end MultiTenantSaas
