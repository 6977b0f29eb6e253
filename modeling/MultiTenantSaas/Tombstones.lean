import MultiTenantSaas.Readers

/-!
Soft-deleted tasks. The requests that look a task up before they touch it treat one
that is deleted as missing; its comments and attachments are reached past it.
-/

set_option autoImplicit false

namespace MultiTenantSaas

open Process

def Deleted (taskId : Uuid) (db : Db) : Prop :=
  ∃ task, db.get .tasks taskId = some task ∧ Task.isDeleted task = true

def Task.mark (t : Task) : Bool × Option Instant := (t.isDeleted, t.deletedAt)

def Marked (taskId : Uuid) (deletedAt : Option Instant) (db : Db) : Prop :=
  ∃ task, db.get .tasks taskId = some task ∧ Task.mark task = (true, deletedAt)

theorem deleted_iff_marked {taskId : Uuid} {db : Db} :
    Deleted taskId db ↔ ∃ at', Marked taskId at' db := by
  constructor
  · rintro ⟨task, hget, hdel⟩
    exact ⟨_, task, hget, Prod.ext hdel rfl⟩
  · rintro ⟨at', task, hget, hmark⟩
    exact ⟨task, hget, congrArg Prod.fst hmark⟩

def Table.ofTask (taskId : Uuid) : (t : Table) → t.Row → Prop
  | .tasks, r => Task.id r = taskId
  | .comments, r => Comment.taskId r = taskId
  | .attachments, r => Attachment.taskId r = taskId
  | _, _ => False

def Response.shown : Response → List (Table × Uuid)
  | .task x => [(.tasks, x.id)]
  | .taskPage page => page.items.map fun x => (.tasks, x.id)
  | .taskFeed page => page.items.map fun x => (.tasks, x.id)
  | .comment x => [(.comments, x.id)]
  | .commentFeed page => page.items.map fun x => (.comments, x.id)
  | .attachment x => [(.attachments, x.id)]
  | .attachments xs => xs.map fun x => (.attachments, x.id)
  | _ => []

def Response.Shows (taskId : Uuid) (db : Db) (a : Response) : Prop :=
  ∃ s ∈ a.shown, ∃ r, db.get s.1 s.2 = some r ∧ s.1.ofTask taskId r

def TenantRequest.OnTasks : TenantRequest → Prop
  | .getTask _ | .listTasksOffset _ _ _ _ _ _ _ _ | .listTasksFeed _ _ _ _ | .updateTask _ _
  | .deleteTask _ | .listComments _ _ _ | .createComment _ _ | .updateComment _ _ _
  | .listAttachments _ | .generateUploadUrl _ _ | .confirmAttachment _ _ => True
  | _ => False

def Request.OnTasks : Request → Prop
  | .tenant _ _ request => request.OnTasks
  | _ => False

/-- The three paths to a comment or an attachment of the task that do not look at the
task. -/
def TenantRequest.Bypasses [Library] (organizationId : Uuid) (user : User) (role : OrgRole)
    (taskId : Uuid) (db : Db) : TenantRequest → Prop
  | .listComments id cursor _ => id = taskId ∧ ∃ x : Comment, x ∈ db.rows .comments ∧
    x.organizationId = organizationId ∧ x.taskId = taskId ∧
    (cursorData cursor).all (fun k => decide (keyLt k x.feedKey)) = true
  | .listAttachments id => id = taskId ∧ ∃ x : Attachment, x ∈ db.rows .attachments ∧
    x.organizationId = organizationId ∧ x.taskId = taskId
  | .updateComment _ commentId _ => ∃ x : Comment, db.get .comments commentId = some x ∧
    x.organizationId = organizationId ∧ x.taskId = taskId ∧ x.MayEdit user role
  | _ => False

/-- A caller who is admitted comes to a row of the task by one of these paths. -/
def Request.Bypasses [Library] (taskId : Uuid) (db : Db) : Request → Prop
  | .tenant bearer organizationId request => ∃ user role,
    Admitted db bearer organizationId request.minRole user role ∧
    request.Bypasses organizationId user role taskId db
  | _ => False

def Request.Decodes (t t' : Instant) : Request → Prop
  | .tenant bearer _ _ => ∃ payload now, bearer.payload = some payload ∧ t ≤ now ∧ now ≤ t' ∧
    payload.Timely now
  | _ => True

theorem Table.ofTask_frozen {taskId : Uuid} {t : Table} {r s : t.Row} (h : t.frozen r = t.frozen s)
    (hr : t.ofTask taskId r) : t.ofTask taskId s := by
  cases t <;> try exact hr
  case tasks => exact (congrArg Task.id h.symm :).trans hr
  case comments => exact (congrArg Comment.taskId h.symm :).trans hr
  case attachments => exact (congrArg Attachment.taskId h.symm :).trans hr

section

variable [Library] {taskId : Uuid} {db db' : Db}

theorem TenantRequest.Bypasses.mono {o : Uuid} {user : User} {role : OrgRole} {q : TenantRequest}
    (h : q.Bypasses o user role taskId db) (he : Extends db db') :
    q.Bypasses o user role taskId db' := by
  cases q <;> try exact h
  case listComments id cursor limit =>
    obtain ⟨hid, x, hx, horg, htask, hpast⟩ := h
    obtain ⟨y, hy, hf⟩ := he.mem_frozen (t := .comments) hx
    have hkey : Comment.feedKey y = Comment.feedKey x :=
      Prod.ext (congrArg Comment.createdAt hf :) (congrArg Comment.id hf :)
    exact ⟨hid, y, hy, (congrArg Comment.organizationId hf :).trans horg,
      (congrArg Comment.taskId hf :).trans htask, by rw [hkey]; exact hpast⟩
  case listAttachments id =>
    obtain ⟨hid, x, hx, hrest⟩ := h
    exact ⟨hid, x, he.mem (t := .attachments) (fun _ => rfl) hx, hrest⟩
  case updateComment id commentId payload =>
    obtain ⟨x, hget, horg, htask, hedit⟩ := h
    obtain ⟨y, hy, hf⟩ := he .comments _ _ hget
    exact ⟨y, hy, (congrArg Comment.organizationId hf :).trans horg,
      (congrArg Comment.taskId hf :).trans htask,
      hedit.imp_left (congrArg Comment.authorId hf :).trans⟩

theorem Request.Bypasses.mono {r : Request} (h : r.Bypasses taskId db) (he : Extends db db') :
    r.Bypasses taskId db' := by
  cases r <;> try exact h
  case tenant bearer o q =>
    obtain ⟨user, role, hadm, hq⟩ := h
    exact ⟨user, role, hadm.mono he, hq.mono he⟩

/-- A committed task is new and not deleted, or it keeps the mark of the task it
overwrites, or it is the deletion of one that was not deleted. -/
theorem Request.Writes.mark {calm : Table → Uuid → Prop} {es : List Entry} {r : Request}
    (hw : r.Writes calm db es) {row : Task} (hmem : (⟨.tasks, row⟩ : Entry) ∈ es) :
    (db.get .tasks row.id = none ∧ row.mark = (false, none)) ∨
    ∃ old, db.get .tasks row.id = some old ∧ (row.mark = Task.mark old ∨
      (Task.isDeleted old = false ∧ ∃ now, row.mark = (true, some now))) := by
  cases r with
  | register clientIp payload =>
    obtain ⟨hashed, slug, id, orgId, memberId, now, now', now'', rfl, -⟩ := hw
    simp at hmem
  | tenant bearer o req =>
    obtain ⟨user, role, -, hw⟩ := hw
    have htable := hw.table hmem
    cases req <;> simp only [TenantRequest.tables, List.mem_cons, List.not_mem_nil, reduceCtorEq,
      or_self] at htable
    case createTask payload =>
      obtain ⟨id, auditId, now, now', rfl, hins⟩ := hw
      have hnone := hins _ hmem
      rcases List.mem_pair.mp hmem with he | he <;> cases he
      exact Or.inl ⟨hnone, rfl⟩
    case updateTask id payload =>
      cases hstatus : payload.status with
      | some status =>
        simp only [TenantRequest.Writes, hstatus] at hw
        obtain ⟨existing, current, now, now', auditId, -, -, -, hget, -, -, rfl, -⟩ := hw
        rcases List.mem_pair.mp hmem with he | he <;> cases he
        have hid : current.id = id := (Db.get_eq_some.mp hget).2
        exact Or.inr ⟨current, hid ▸ hget, Or.inl rfl⟩
      | none =>
        simp only [TenantRequest.Writes, hstatus] at hw
        obtain ⟨loaded, current, now, -, -, -, -, hov, rfl⟩ := hw
        cases List.mem_singleton.mp hmem
        have hid : current.id = id := (Db.get_eq_some.mp hov.committed).2
        exact Or.inr ⟨current, hid ▸ hov.committed, Or.inl rfl⟩
    case deleteTask id =>
      obtain ⟨current, now, hget, -, hdel, rfl⟩ := hw
      cases List.mem_singleton.mp hmem
      have hid : current.id = id := (Db.get_eq_some.mp hget).2
      exact Or.inr ⟨current, hid ▸ hget, Or.inr ⟨hdel, now, rfl⟩⟩
  | _ => exact hw.elim

theorem Request.Writes.marked {calm : Table → Uuid → Prop} {es : List Entry} {r : Request}
    (hw : r.Writes calm db es) {at' : Option Instant} (h : Marked taskId at' db) :
    Marked taskId at' (db.apply es) := by
  obtain ⟨old, hold, hmark⟩ := h
  by_cases hslot : ∃ e ∈ es, e.slot = (.tasks, taskId)
  case neg =>
    refine ⟨old, ?_, hmark⟩
    rw [Db.get_apply_of_ne _ fun e he hs => hslot ⟨e, he, hs.symm⟩]
    exact hold
  obtain ⟨⟨t, row⟩, hmem, hs⟩ := hslot
  obtain ⟨rfl, hid⟩ := Prod.mk.inj hs
  change Task.id row = taskId at hid
  refine ⟨row, hid ▸ hw.readBack hmem, ?_⟩
  rcases hw.mark hmem with ⟨hnone, -⟩ | ⟨old', hold', hkept | ⟨hlive, -⟩⟩
  · rw [hid, hold] at hnone
    cases hnone
  · rw [hid, hold] at hold'
    cases hold'
    exact hkept.trans hmark
  · rw [hid, hold] at hold'
    cases hold'
    exact absurd (hlive.symm.trans (congrArg Prod.fst hmark)) (by simp)

theorem Request.Writes.deleted {calm : Table → Uuid → Prop} {es : List Entry} {r : Request}
    (hw : r.Writes calm db es) (h : Deleted taskId db) : Deleted taskId (db.apply es) := by
  obtain ⟨at', hmarked⟩ := deleted_iff_marked.mp h
  exact deleted_iff_marked.mpr ⟨at', hw.marked hmarked⟩

variable {faults : Faults} {now : Instant} {c c' : AppConfig}

/-- A deleted task keeps its mark, whatever runs. -/
theorem reached_marked (h₀ : Reach app anySchedule (genesis faults now) c)
    (h : Reach app anySchedule c c') {at' : Option Instant} (hmark : Marked taskId at' c.state.db) :
    Marked taskId at' c'.state.db := by
  induction h with
  | refl => exact hmark
  | step hr _ hs ih =>
    rcases (start_genesis faults now).step_db
      ((h₀.trans hr).mono fun c l _ => calm_uncovered c l) hs
      with ⟨hdb, -⟩ | ⟨i, r, k, -, -, hw, hdb, -⟩
    · rw [hdb]
      exact ih
    · rw [hdb]
      exact hw.marked ih

theorem reached_deleted (h₀ : Reach app anySchedule (genesis faults now) c)
    (h : Reach app anySchedule c c') (hdel : Deleted taskId c.state.db) :
    Deleted taskId c'.state.db := by
  obtain ⟨at', hmark⟩ := deleted_iff_marked.mp hdel
  exact deleted_iff_marked.mpr ⟨at', reached_marked h₀ h hmark⟩

def TenantRequest.LooksUp (taskId : Uuid) : TenantRequest → Prop
  | .getTask id | .updateTask id _ | .deleteTask id | .createComment id _
  | .generateUploadUrl id _ | .confirmAttachment id _ => id = taskId
  | _ => False

variable {D : Db → Prop} {o : Uuid} {user : User} {role : OrgRole}

omit [Library] in
theorem finds_deleted {α : Type} (hD : ∀ db, D db → Deleted taskId db) {f : Option Task → Coro α}
    {e : Exn} {Q : α → Prop} (hf : f none = throw e) :
    Finds D ((getById .tasks o taskId : Coro (Option Task)) >>= f) Q := by
  refine finds_bind finds_getById fun x hx => ?_
  cases x with
  | none =>
    rw [hf]
    exact finds_throw
  | some task =>
    obtain ⟨db, hdb, hget, -, hlive⟩ := hx task rfl
    obtain ⟨task', hget', hdel⟩ := hD db hdb
    cases hget.symm.trans hget'
    exact absurd (hdel.symm.trans hlive) Bool.noConfusion

theorem finds_refused (hD : ∀ db, D db → Deleted taskId db) {q : TenantRequest}
    (hq : q.LooksUp taskId) : Finds D (q.endpoint ⟨user, o, role⟩) fun _ => False := by
  cases q <;> try exact hq.elim
  case getTask id =>
    cases hq
    exact finds_bind (finds_deleted hD rfl) fun _ => False.elim
  case updateTask id payload =>
    cases hq
    refine finds_bind (R := fun _ => False) ?_ fun _ => False.elim
    unfold Endpoints.updateTask
    split
    · exact finds_bind (finds_transaction (finds_deleted hD rfl)) fun _ => False.elim
    · exact finds_deleted hD rfl
  case deleteTask id =>
    cases hq
    exact finds_bind (finds_deleted hD rfl) fun _ => False.elim
  case createComment id payload =>
    cases hq
    exact finds_bind (finds_bind (finds_transaction (finds_deleted hD rfl)) fun _ => False.elim)
      fun _ => False.elim
  case generateUploadUrl id payload =>
    cases hq
    exact finds_bind (finds_deleted hD rfl) fun _ => False.elim
  case confirmAttachment id payload =>
    cases hq
    exact finds_bind (finds_deleted hD rfl) fun _ => False.elim

def TenantRequest.Lists : TenantRequest → Prop
  | .getTask _ | .listTasksOffset _ _ _ _ _ _ _ _ | .listTasksFeed _ _ _ _
  | .listComments _ _ _ | .listAttachments _ => True
  | _ => False

theorem finds_liveTasks {filters : TaskFilterParams} {offset limit : Nat} :
    Finds D (listTasksOffset o filters offset limit) fun answer => ∀ task ∈ answer.1,
      ∃ db, D db ∧ task ∈ db.rows .tasks ∧ Task.isDeleted task = false := by
  refine finds_bind (finds_withArguments finds_select) fun counted _ =>
    finds_bind (finds_withArguments finds_select) fun rows ⟨db, hdb, hperm⟩ =>
      finds_pure fun task hmem => ⟨db, hdb, ?_⟩
  have hsorted := List.mem_of_mem_drop (List.mem_of_mem_take hmem)
  have hrows : task ∈ rows := by
    split at hsorted <;> exact (List.mem_insertionSort _).mp hsorted
  have hin := mem_rowsWhere.mp (hperm.subset hrows)
  have hcrit := hin.2
  simp only [taskCriteria, Bool.and_eq_true, Bool.not_eq_true'] at hcrit
  exact ⟨hin.1, hcrit.1.1.1.1.1.1.2⟩

theorem finds_liveFeed {filters : TaskFilterParams} {cursor : Option (Instant × Uuid)}
    {limit : Nat} : Finds D (listTasksCursor o filters cursor limit) fun answer =>
      ∀ task ∈ answer.1, ∃ db, D db ∧ task ∈ db.rows .tasks ∧ Task.isDeleted task = false := by
  refine finds_bind (finds_withArguments finds_select) fun rows ⟨db, hdb, hperm⟩ =>
    finds_pure fun task hmem => ⟨db, hdb, ?_⟩
  have hsorted := List.mem_of_mem_take (List.mem_of_mem_take hmem)
  have hin := mem_rowsWhere.mp (hperm.subset ((List.mem_insertionSort _).mp hsorted))
  have hcrit := hin.2
  simp only [taskCriteria, Bool.and_eq_true, Bool.not_eq_true'] at hcrit
  exact ⟨hin.1, hcrit.1.1.1.1.1.1.1.2⟩

omit [Library] in
theorem finds_comments {id : Uuid} {cursor : Option (Instant × Uuid)} {limit : Nat} :
    Finds D (listCommentsCursor o id cursor limit) fun answer => ∀ x ∈ answer.1,
      ∃ db, D db ∧ x.1 ∈ db.rows .comments ∧ Comment.organizationId x.1 = o ∧
        Comment.taskId x.1 = id ∧ cursor.all (fun k => decide (keyLt k (Comment.feedKey x.1))) := by
  refine finds_bind (finds_withArguments finds_select) fun rows ⟨db, hdb, hperm⟩ =>
    finds_pure fun x hmem => ⟨db, hdb, ?_⟩
  have hsorted := List.mem_of_mem_take (List.mem_of_mem_take hmem)
  obtain ⟨row, hrow, rfl⟩ := List.mem_map.mp
    (hperm.subset ((List.mem_insertionSort _).mp hsorted))
  have hin := mem_rowsWhere.mp hrow
  simp only [Bool.and_eq_true, decide_eq_true_eq] at hin
  exact ⟨hin.1, hin.2.1.1, hin.2.1.2, hin.2.2⟩

omit [Library] in
theorem finds_attachments {id : Uuid} :
    Finds D (listByTask o id) fun xs => ∀ x ∈ xs, ∃ db, D db ∧ x ∈ db.rows .attachments ∧
      Attachment.organizationId x = o ∧ Attachment.taskId x = id := by
  refine finds_bind finds_select fun rows ⟨db, hdb, hperm⟩ =>
    finds_pure fun x hmem => ⟨db, hdb, ?_⟩
  have hin := mem_rowsWhere.mp (hperm.subset ((List.mem_insertionSort _).mp hmem))
  simp only [Bool.and_eq_true, decide_eq_true_eq] at hin
  exact ⟨hin.1, hin.2⟩

def FoundIn (D : Db → Prop) (t : Table) (taskId : Uuid) (P : Db → Prop) (a : Response) : Prop :=
  ∀ s ∈ a.shown, ∃ db row, D db ∧ row ∈ db.rows t ∧ s = (t, t.id row) ∧
    (t.ofTask taskId row → P db)

omit [Library] in
theorem FoundIn.shows {t : Table} {a : Response} {F : Db} {P : Db → Prop}
    (h : FoundIn D t taskId P a) (hD : ∀ db, D db → Extends db F)
    (hshows : a.Shows taskId F) : ∃ db, D db ∧ P db := by
  obtain ⟨s, hs, r, hr, htask⟩ := hshows
  obtain ⟨db, row, hdb, hrow, rfl, hP⟩ := h s hs
  obtain ⟨row', hrow', hf⟩ := hD db hdb t _ row (Db.get_of_mem hrow)
  cases hr.symm.trans hrow'
  exact ⟨db, hdb, hP (Table.ofTask_frozen hf htask)⟩

omit [Library] in
theorem foundIn_tasks {a : Response} {tasks : List Task} {P : Db → Prop}
    (hD : ∀ db, D db → Deleted taskId db)
    (htasks : ∀ task ∈ tasks, ∃ db, D db ∧ task ∈ db.rows .tasks ∧ Task.isDeleted task = false)
    (ha : ∀ s ∈ a.shown, ∃ task ∈ tasks, s = (.tasks, task.id)) : FoundIn D .tasks taskId P a := by
  intro s hs
  obtain ⟨task, hmem, rfl⟩ := ha s hs
  obtain ⟨db, hdb, hrow, hlive⟩ := htasks task hmem
  refine ⟨db, task, hdb, hrow, rfl, ?_⟩
  rintro rfl
  obtain ⟨task', hget, hdel⟩ := hD db hdb
  cases (Db.get_of_mem hrow).symm.trans hget
  exact absurd (hdel.symm.trans hlive) Bool.noConfusion

/-- What a listing has of a deleted task, it has from a path past the task. -/
theorem finds_listed (hD : ∀ db, D db → Deleted taskId db) {q : TenantRequest} (hq : q.Lists)
    (user' : User) (role' : OrgRole) : Finds D (q.endpoint ⟨user, o, role⟩) fun a =>
      ∃ t, FoundIn D t taskId (fun db => q.Bypasses o user' role' taskId db) a := by
  cases q <;> try exact hq.elim
  case getTask id =>
    refine finds_bind (finds_bind (Q := fun a => ∃ t, FoundIn D t taskId _ (.task a))
      finds_getById fun x hx => ?_) fun x hx => finds_pure hx
    cases x with
    | none => exact finds_throw
    | some task =>
      obtain ⟨db, hdb, hget, -, hlive⟩ := hx task rfl
      have htask : ∀ t ∈ [task], ∃ db, D db ∧ t ∈ db.rows .tasks ∧ Task.isDeleted t = false := by
        intro t ht
        cases List.mem_singleton.mp ht
        exact ⟨db, hdb, (Db.get_eq_some.mp hget).1, hlive⟩
      exact finds_pure ⟨.tasks, foundIn_tasks hD htask
        fun s hs => ⟨task, List.mem_cons_self, List.mem_singleton.mp hs⟩⟩
  case listTasksOffset projectId status priority assigneeId search sortBy page pageSize =>
    refine finds_bind (R := fun page => ∃ t, FoundIn D t taskId _ (.taskPage page))
      (finds_bind finds_liveTasks fun answer ha =>
        finds_pure ⟨.tasks, foundIn_tasks hD ha fun s hs => ?_⟩) fun x hx => finds_pure hx
    obtain ⟨x, hx, rfl⟩ := List.mem_map.mp hs
    obtain ⟨task, hmem, rfl⟩ := List.mem_map.mp hx
    exact ⟨task, hmem, rfl⟩
  case listTasksFeed projectId status cursor limit =>
    refine finds_bind (R := fun page => ∃ t, FoundIn D t taskId _ (.taskFeed page))
      (finds_bind finds_liveFeed fun answer ha =>
        finds_pure ⟨.tasks, foundIn_tasks hD ha fun s hs => ?_⟩) fun x hx => finds_pure hx
    obtain ⟨x, hx, rfl⟩ := List.mem_map.mp hs
    obtain ⟨task, hmem, rfl⟩ := List.mem_map.mp hx
    exact ⟨task, hmem, rfl⟩
  case listComments id cursor limit =>
    refine finds_bind (R := fun page => ∃ t, FoundIn D t taskId _ (.commentFeed page))
      (finds_bind finds_comments fun answer ha =>
        finds_pure ⟨.comments, fun s hs => ?_⟩) fun x hx => finds_pure hx
    obtain ⟨x, hx, rfl⟩ := List.mem_map.mp hs
    obtain ⟨y, hmem, rfl⟩ := List.mem_map.mp hx
    obtain ⟨db, hdb, hrow, horg, hid, hpast⟩ := ha y hmem
    refine ⟨db, y.1, hdb, hrow, rfl, fun htask => ?_⟩
    exact ⟨hid.symm.trans htask, y.1, hrow, horg, htask, hpast⟩
  case listAttachments id =>
    have hurl : ∀ {f : Str → AttachmentResponse} {Q : AttachmentResponse → Prop} (key : Str),
        (∀ url, Q (f url)) → Finds D (do pure (f (← generatePresignedDownloadUrl key))) Q :=
      fun key hQ => finds_bind (p := ask (.presignGet key 3600)) (R := fun _ => True)
        ⟨rfl, fun _ _ _ _ => trivial⟩ fun url _ => finds_pure (hQ url)
    refine finds_bind (R := fun xs => ∃ t, FoundIn D t taskId _ (.attachments xs))
      (finds_bind finds_attachments fun xs hxs =>
        (finds_forEach (R := fun x (y : AttachmentResponse) => y.id = Attachment.id x)
          fun x _ => hurl x.s3Key fun _ => rfl).mono fun a ha ys hys =>
        ⟨.attachments, fun s hs => ?_⟩) fun x hx => finds_pure hx
    obtain ⟨y, hy, rfl⟩ := List.mem_map.mp hs
    obtain ⟨x, hx, hyx⟩ := ha ys hys y hy
    obtain ⟨db, hdb, hrow, horg, hid⟩ := hxs x hx
    refine ⟨db, x, hdb, hrow, by rw [hyx]; rfl, fun htask => ?_⟩
    exact ⟨hid.symm.trans htask, x, hrow, horg, htask⟩

/-- A request that asks to write rows of the task by its key, or by a path past it. -/
theorem TenantRequest.Writes.ofTask {q : TenantRequest} {es : List Entry}
    (hw : q.Writes uncovered o user role db es) (hq : q.OnTasks) {e : Entry} (he : e ∈ es)
    (htask : e.table.ofTask taskId e.row) :
    q.LooksUp taskId ∨ q.Bypasses o user role taskId db := by
  cases q <;> try exact hq.elim
  case updateTask id payload =>
    cases hstatus : payload.status with
    | some status =>
      simp only [TenantRequest.Writes, hstatus] at hw
      obtain ⟨existing, current, now, now', auditId, -, -, -, hget, -, -, rfl, -⟩ := hw
      rcases List.mem_pair.mp he with rfl | rfl
      · exact Or.inl ((Db.get_eq_some.mp hget).2.symm.trans htask)
      · exact htask.elim
    | none =>
      simp only [TenantRequest.Writes, hstatus] at hw
      obtain ⟨loaded, current, now, -, -, -, -, hov, rfl⟩ := hw
      cases List.mem_singleton.mp he
      exact Or.inl ((Db.get_eq_some.mp hov.committed).2.symm.trans htask)
  case deleteTask id =>
    obtain ⟨current, now, hget, -, -, rfl⟩ := hw
    cases List.mem_singleton.mp he
    exact Or.inl ((Db.get_eq_some.mp hget).2.symm.trans htask)
  case createComment id payload =>
    obtain ⟨x, now, -, rfl, -⟩ := hw
    cases List.mem_singleton.mp he
    exact Or.inl htask
  case updateComment id commentId payload =>
    rcases hw with rfl | ⟨loaded, current, now, horg, hedit, hov, rfl⟩
    · cases he
    · cases List.mem_singleton.mp he
      exact Or.inr ⟨current, hov.committed,
        (congrArg Comment.organizationId hov.frozen :).trans horg,
        htask, hedit.imp_left (congrArg Comment.authorId hov.frozen :).trans⟩
  case confirmAttachment id payload =>
    obtain ⟨x, now, -, rfl, -⟩ := hw
    cases List.mem_singleton.mp he
    exact Or.inl htask
  all_goals exact hw.elim

theorem TenantRequest.Tells.ofTask {q : TenantRequest} {a : Response}
    (h : q.Tells o user role db a) (hq : q.OnTasks) (hlists : ¬ q.Lists)
    (hshows : a.Shows taskId db) : q.LooksUp taskId ∨ q.Bypasses o user role taskId db := by
  obtain ⟨s, hs, r, hr, htask⟩ := hshows
  cases q <;> try first | exact hq.elim | exact absurd trivial hlists
  case updateTask id payload =>
    obtain ⟨x, rfl, rfl⟩ := h
    cases List.mem_singleton.mp hs
    exact Or.inl ((Db.get_eq_some.mp hr).2.symm.trans htask)
  case deleteTask id =>
    cases h
    cases hs
  case createComment id payload =>
    obtain ⟨x, row, rfl, hrow, rfl⟩ := h
    cases List.mem_singleton.mp hs
    cases hr.symm.trans hrow
    exact Or.inl htask
  case updateComment id commentId payload =>
    obtain ⟨x, row, rfl, rfl, hrow, horg, hedit⟩ := h
    cases List.mem_singleton.mp hs
    cases hr.symm.trans hrow
    exact Or.inr ⟨row, hrow, horg, htask, hedit⟩
  case generateUploadUrl id payload =>
    obtain ⟨x, rfl⟩ := h
    cases hs
  case confirmAttachment id payload =>
    obtain ⟨x, row, rfl, hrow, rfl⟩ := h
    cases List.mem_singleton.mp hs
    cases hr.symm.trans hrow
    exact Or.inl htask

/-- With a token that is never accepted a tenant request answers nothing and commits nothing. -/
theorem reach_undecoded {i : Nat} {bearer : Token} {q : TenantRequest}
    (h₀ : Reach app anySchedule (genesis faults now) c) (hidle : c.thread i = none)
    (h : Reach app anySchedule (c.setThread i ⟨.tenant bearer o q,
      Request.handle (.tenant bearer o q)⟩ c.state) c')
    (hnever : ¬ Request.Decodes c.state.now c'.state.now (.tenant bearer o q)) :
    (∀ a, c'.thread i ≠ some ⟨.tenant bearer o q, .done (.ok a)⟩) ∧
      ∀ d ∈ c'.state.commits, d.session ≠ i := by
  let R : (o : Op) → Except Exn o.Resp → Prop
    | .clock, a => ∃ t, a = .ok t ∧ c.state.now ≤ t ∧ t ≤ c'.state.now
    | _, _ => True
  have hdecode : Prog.Returns (S := sig) R (fun o => Op.reads o = true) (decodeJwtToken bearer)
      fun _ => False := by
    unfold decodeJwtToken
    cases hpayload : bearer.payload with
    | none => exact Prog.returns_throw
    | some payload =>
      refine ⟨rfl, fun a ⟨t, ha, hle, hle'⟩ => ?_⟩
      subst ha
      change Prog.Returns (S := sig) _ _ (if payload.Timely t then pure payload else throw _) _
      rw [if_neg fun ht => hnever ⟨payload, t, hpayload, hle, hle', ht⟩]
      exact Prog.returns_throw
  have hsubject : Prog.Returns (S := sig) R (fun o => Op.reads o = true)
      (orCredentialsException (accessSubject bearer)) fun _ => False :=
    (hdecode.bind fun _ => False.elim).tryCatch fun e => by
      split <;> exact Prog.returns_throw
  have hhandle : Prog.Returns (S := sig) R (fun o => Op.reads o = true)
      (Request.handle (.tenant bearer o q)) fun _ => False :=
    returns_withDbSession rfl (((hsubject.bind fun _ => False.elim).bind
      fun _ => False.elim).bind fun _ => False.elim)
  obtain ⟨hanswer, hcommits⟩ := reach_reads h₀ hidle h (R := R) (fun d o b w' hcd hdc he => by
    cases o <;> try trivial
    case clock =>
      obtain ⟨rfl, -⟩ := he
      exact ⟨_, rfl, reached_now_le hcd, reached_now_le hdc⟩) (hhandle.weaken fun _ _ hb => hb.2)
  exact ⟨fun a ha => hanswer _ ha a rfl, hcommits⟩

/-- A request of thread `i` has returned no row of the task and written none. -/
structure Gone (taskId : Uuid) (i : Nat) (r : Request) (c : AppConfig) : Prop where
  answer : ∀ a, c.thread i = some ⟨r, .done (.ok a)⟩ → ¬ a.Shows taskId c.state.db
  writes : ∀ d ∈ c.state.commits, d.session = i → ∀ e ∈ d.written, ¬ e.table.ofTask taskId e.row

/-- A deleted task, its comments and its attachments are gone for every request that does
not come, with a token that is accepted, to one of them past the task. -/
theorem deleted_task_gone {i : Nat} {r : Request}
    (h₀ : Reach app anySchedule (genesis faults now) c) (hdel : Deleted taskId c.state.db)
    (hr : r.OnTasks) (hidle : c.thread i = none)
    (h : Reach app anySchedule (c.setThread i ⟨r, r.handle⟩ c.state) c')
    (hpast : r.Decodes c.state.now c'.state.now →
      ∀ db, Between c c' db → ¬ r.Bypasses taskId db) : Gone taskId i r c' := by
  have hpath : Reach app anySchedule c c' := (Reach.step .refl trivial (.start hidle)).trans h
  have hbetween : ∀ db, Between c c' db → Deleted taskId db ∧ Extends db c'.state.db := by
    rintro db ⟨d, hcd, hdc, rfl⟩
    exact ⟨reached_deleted h₀ hcd hdel, reached_extends (h₀.trans hcd) hdc⟩
  have hcalm : Reach app (Calm uncovered) (genesis faults now) c' :=
    (h₀.trans hpath).mono fun c l _ => calm_uncovered c l
  cases r <;> try exact hr.elim
  case tenant bearer o q =>
    by_cases hdecodes : Request.Decodes c.state.now c'.state.now (.tenant bearer o q)
    case neg =>
      obtain ⟨hanswer, hcommits⟩ := reach_undecoded h₀ hidle h hdecodes
      exact ⟨fun a ha => absurd ha (hanswer a), fun d hd hi => absurd hi (hcommits d hd)⟩
    have hlast : ¬ Request.Bypasses taskId c'.state.db (.tenant bearer o q) :=
      hpast hdecodes _ ⟨c', hpath, .refl, rfl⟩
    by_cases hlooks : q.LooksUp taskId
    case pos =>
      obtain ⟨hanswer, hcommits⟩ := reach_finds h₀ hidle h (Q := fun _ => False) fun D hD =>
        finds_handle fun user role =>
          finds_refused (fun db hdb => (hbetween db (hD db hdb)).1) hlooks
      exact ⟨fun a ha => (hanswer a ha).elim, fun d hd hi => absurd hi (hcommits d hd)⟩
    constructor
    case answer =>
      intro a ha hshows
      obtain ⟨user, role, hadm, htells⟩ := (start_genesis faults now).tells hcalm ha
      by_cases hlists : q.Lists
      · obtain ⟨t, hfound⟩ := (reach_finds h₀ hidle h (Q := fun a => ∃ t,
          FoundIn (Between c c') t taskId (fun db => q.Bypasses o user role taskId db) a)
          fun D hD => finds_handle fun _ _ => (finds_listed
            (fun db hdb => (hbetween db (hD db hdb)).1) hlists user role).mono
              fun x hx y hy => by
                obtain ⟨t, ht⟩ := hx y hy
                refine ⟨t, fun s hs => ?_⟩
                obtain ⟨db, row, hdb, hrest⟩ := ht s hs
                exact ⟨db, row, hD db hdb, hrest⟩).1 a ha
        obtain ⟨db, hdb, hbypass⟩ := hfound.shows (fun db hdb => (hbetween db hdb).2) hshows
        exact hlast ⟨user, role, hadm, hbypass.mono (hbetween db hdb).2⟩
      · rcases htells.ofTask hr hlists hshows with hl | hbypass
        · exact hlooks hl
        · exact hlast ⟨user, role, hadm, hbypass⟩
    case writes =>
      rintro d hd rfl e he htask
      obtain ⟨hhist, hcommits⟩ := (start_genesis faults now).history (P := fun _ _ _ => True)
        (fun _ _ hok => hok) (fun _ _ _ _ _ _ => trivial) hcalm
      obtain ⟨-, r', k, ht, hw, -⟩ := hcommits d hd
      obtain ⟨⟨_, k'⟩, ht', hreq⟩ := h.keeps_req (Config.thread_setThread _ _ _ _)
      cases hreq
      rw [ht] at ht'
      cases ht'
      have hext := (hw.extends).trans (hhist.extends (fun d hd => by
        obtain ⟨-, r, k, -, hw, -⟩ := hcommits d hd
        exact hw.extends) hd)
      obtain ⟨user, role, hadm, hw⟩ := hw
      rcases hw.ofTask hr he htask with hl | hbypass
      · exact hlooks hl
      · exact hlast ((Request.Bypasses.mono (r := .tenant bearer o q)
          ⟨user, role, hadm, hbypass⟩ hext))

end

section

open scoped Ascii

def launchDeleted : AppConfig :=
  runMoves (genesis noFaults 0) (annsProject ++ solo 3 (asAnn apolloTask) ++
    solo 4 (asAnn (.createComment (drawnId 17) ⟨⟨"Ready?".toList, by decide, by decide⟩⟩)) ++
    solo 5 (asAnn (.deleteTask (drawnId 17))))

theorem launchDeleted_reached : Reach app anySchedule (genesis noFaults 0) launchDeleted :=
  runMoves_any fun _ => rfl

theorem launchDeleted_deleted : Deleted (drawnId 17) launchDeleted.state.db := by
  have h : (launchDeleted.state.db.get .tasks (drawnId 17)).any Task.isDeleted = true := by
    decide +kernel
  exact (Option.any_eq_true _ _).mp h

def taskList : Request :=
  asAnn (.listTasksOffset none none none none none "created_at:desc".toList .first .usual)

theorem launch_gone : Gone (drawnId 17) 6 taskList (runMoves launchDeleted (solo 6 taskList)) := by
  obtain ⟨a, hserved, -⟩ := served_with (c := launchDeleted) (i := 6) (r := taskList)
    (p := fun a => a.shown.isEmpty) (by decide +kernel) (by decide +kernel)
  exact deleted_task_gone launchDeleted_reached launchDeleted_deleted trivial hserved.idle
    hserved.reach fun _ db _ ⟨_, _, _, h⟩ => h

def commentList : Request :=
  asAnn (.listComments (drawnId 17) none .usual)

/-- The comments of a deleted task are listed. -/
theorem deleted_task_not_gone : ¬ ∀ faults now c c' taskId i r,
    Reach app anySchedule (genesis faults now) c → Deleted taskId c.state.db → r.OnTasks →
    c.thread i = none → Reach app anySchedule (c.setThread i ⟨r, r.handle⟩ c.state) c' →
    Gone taskId i r c' := by
  intro hall
  obtain ⟨a, hserved, ha⟩ := served_with (c := launchDeleted) (i := 6) (r := commentList)
    (p := fun a => (Table.comments, drawnId 19) ∈ a.shown) (by decide +kernel) (by decide +kernel)
  have hgone := hall noFaults 0 launchDeleted _ (drawnId 17) 6 commentList launchDeleted_reached
    launchDeleted_deleted trivial hserved.idle hserved.reach
  have hrow : ((runMoves launchDeleted (solo 6 commentList)).state.db.get .comments
      (drawnId 19)).any (fun x => decide (Comment.taskId x = drawnId 17)) = true := by
    decide +kernel
  obtain ⟨x, hget, htask⟩ := (Option.any_eq_true _ _).mp hrow
  have htask : Comment.taskId x = drawnId 17 := of_decide_eq_true htask
  exact hgone.answer a hserved.answered ⟨_, of_decide_eq_true ha, x, hget, htask⟩

end

end MultiTenantSaas
