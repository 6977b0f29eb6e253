import MultiTenantSaas.Attribution
import MultiTenantSaas.TaskVersions

/-!
Where the contents of the rows come from: every row was inserted by one request, and from
then on each column holds what it held or what a later request has supplied for it.
-/

set_option autoImplicit false

namespace MultiTenantSaas

open Process

/-- A column keeps its value or takes the one that is given for it. -/
def Kept {β : Type} (given : Option β) (before after : β) : Prop :=
  after = before ∨ given = some after

theorem kept_flushed {β : Type} [DecidableEq β] (given : Option β) (loaded current : β) :
    Kept given current (flushed loaded (given.getD loaded) current) := by
  unfold flushed
  cases given with
  | none => exact Or.inl (if_pos rfl)
  | some x =>
    split
    · exact Or.inl rfl
    · exact Or.inr rfl

theorem flushed_succ (version current : Int) :
    flushed version (version + 1) current = version + 1 := if_neg (by omega)

theorem or_eq_getD {β : Type} (given loaded : Option β) :
    given.or loaded = (given.map some).getD loaded := by cases given <;> rfl

structure OrganizationUpdate.Edits (payload : OrganizationUpdate) (before after : Organization) :
    Prop where
  name : Kept (payload.name.map fun n => strip n.text) before.name after.name
  logoUrl : Kept (payload.logoUrl.map some) before.logoUrl after.logoUrl

structure ProjectUpdate.Edits (payload : ProjectUpdate) (before after : Project) : Prop where
  name : Kept (payload.name.map fun n => strip n.text) before.name after.name
  description : Kept (payload.description.map some) before.description after.description
  teamId : Kept (payload.teamId.map some) before.teamId after.teamId
  isArchived : Kept payload.isArchived before.isArchived after.isArchived
  versionId : after.versionId = payload.expectedVersion.val + 1

structure TaskUpdate.Edits (payload : TaskUpdate) (before after : Task) : Prop where
  title : Kept (payload.title.map fun s => strip s.text) before.title after.title
  description : Kept (payload.description.map some) before.description after.description
  status : Kept payload.status before.status after.status
  priority : Kept payload.priority before.priority after.priority
  assigneeId : Kept (payload.assigneeId.map some) before.assigneeId after.assigneeId
  dueDate : Kept (payload.dueDate.map some) before.dueDate after.dueDate
  versionId : after.versionId = payload.expectedVersion.val + 1
  isDeleted : after.isDeleted = before.isDeleted
  deletedAt : after.deletedAt = before.deletedAt

structure CommentUpdate.Edits (payload : CommentUpdate) (before after : Comment) : Prop where
  content : Kept (some (strip payload.content.text)) before.content after.content
  isEdited : Kept (some true) before.isEdited after.isEdited

/-- The change a request of the tenant makes to the row `id`; there are none to users,
memberships, teams, attachments and audit rows. -/
def TenantRequest.Edits (organizationId : Uuid) :
    TenantRequest → (t : Table) → Uuid → t.Row → t.Row → Prop
  | .updateCurrentOrganization payload, .organizations, id, before, after =>
    id = organizationId ∧ payload.Edits before after
  | .updateProject projectId payload, .projects, id, before, after =>
    id = projectId ∧ payload.Edits before after
  | .updateTask taskId payload, .tasks, id, before, after =>
    id = taskId ∧ payload.Edits before after
  | .deleteTask taskId, .tasks, id, before, after =>
    id = taskId ∧ Task.isDeleted before = false ∧ ∃ now, after = Task.markDeleted now before
  | .updateComment _ commentId payload, .comments, id, before, after =>
    id = commentId ∧ payload.Edits before after
  | _, _, _, _, _ => False

/-- The change is one that the request of an admitted member makes; the columns that no
request changes are as before. -/
def Request.Edits (db : Db) (t : Table) (id : Uuid) (before after : t.Row) : Request → Prop
  | .tenant bearer o q => (∃ user role, Admitted db bearer o q.minRole user role) ∧
    t.frozen after = t.frozen before ∧ q.Edits o t id before after
  | _ => False

theorem OrganizationUpdate.edits_flush (payload : OrganizationUpdate)
    (loaded current : Organization)
    (now : Instant) :
    payload.Edits current (loaded.flush (payload.assign loaded) now current) where
  name := kept_flushed _ _ _
  logoUrl := by
    rw [Organization.flush, assign, or_eq_getD]
    exact kept_flushed _ _ _

theorem ProjectUpdate.edits_flush (payload : ProjectUpdate) {loaded : Project} (current : Project)
    (now : Instant) (hversion : loaded.versionId = payload.expectedVersion.val) :
    payload.Edits current (loaded.flush (payload.assign loaded) now current) where
  name := kept_flushed _ _ _
  description := by
    rw [Project.flush, assign, or_eq_getD payload.description]
    exact kept_flushed _ _ _
  teamId := by
    rw [Project.flush, assign, or_eq_getD payload.teamId]
    exact kept_flushed _ _ _
  isArchived := kept_flushed _ _ _
  versionId := by
    rw [Project.flush, assign, flushed_succ, hversion]

theorem TaskUpdate.edits_flush (payload : TaskUpdate) {loaded : Task} (current : Task)
    (now : Instant) (hversion : loaded.versionId = payload.expectedVersion.val) :
    payload.Edits current (loaded.flush (payload.assign loaded) now current) where
  title := kept_flushed _ _ _
  description := by
    rw [Task.flush, assign, or_eq_getD payload.description]
    exact kept_flushed _ _ _
  status := Or.inl rfl
  priority := kept_flushed _ _ _
  assigneeId := by
    rw [Task.flush, assign, or_eq_getD payload.assigneeId]
    exact kept_flushed _ _ _
  dueDate := by
    rw [Task.flush, assign, or_eq_getD payload.dueDate]
    exact kept_flushed _ _ _
  versionId := by
    rw [Task.flush, assign, flushed_succ, hversion]
  isDeleted := rfl
  deletedAt := rfl

theorem TaskUpdate.edits_setStatus {payload : TaskUpdate} {status : TaskStatus}
    (hstatus : payload.status = some status) (current : Task) (now : Instant) :
    payload.Edits current
      { setStatus status payload.expectedVersion.val current with updatedAt := now } where
  title := Or.inl rfl
  description := Or.inl rfl
  status := Or.inr hstatus
  priority := Or.inl rfl
  assigneeId := Or.inl rfl
  dueDate := Or.inl rfl
  versionId := rfl
  isDeleted := rfl
  deletedAt := rfl

theorem CommentUpdate.edits_flush (payload : CommentUpdate) (loaded current : Comment)
    (now : Instant) :
    payload.Edits current (loaded.flush (strip payload.content.text) now current) where
  content := kept_flushed (some (strip payload.content.text)) _ _
  isEdited := kept_flushed (some true) _ _

section Writes

variable {calm : Table → Uuid → Prop} {db : Db} {es : List Entry}

theorem Inserted.not_written {t : Table} {row old : t.Row} (h : Inserted db ⟨t, row⟩)
    (hold : db.get t (t.id row) = some old) : False := by
  cases hold.symm.trans h

variable [Library]

theorem TenantRequest.Writes.edits {q : TenantRequest} {o : Uuid} {user : User} {role : OrgRole}
    (hw : q.Writes calm o user role db es) {t : Table} {row old : t.Row}
    (hmem : (⟨t, row⟩ : Entry) ∈ es) (hold : db.get t (t.id row) = some old) :
    q.Edits o t (t.id row) old row := by
  cases q <;> simp only [TenantRequest.Writes] at hw
  case updateCurrentOrganization payload =>
    obtain rfl | ⟨loaded, current, now, hov, rfl⟩ := hw
    · cases hmem
    · cases List.mem_singleton.mp hmem
      obtain rfl : Organization.id current = o := (Db.get_eq_some.mp hov.committed).2
      cases hov.committed.symm.trans hold
      exact ⟨rfl, payload.edits_flush loaded current now⟩
  case updateProject projectId payload =>
    obtain ⟨loaded, current, now, now', auditId, -, -, hversion, hov, rfl, hnone⟩ := hw
    rcases List.mem_pair.mp hmem with he | he <;> cases he
    · obtain rfl : Project.id current = projectId := (Db.get_eq_some.mp hov.committed).2
      cases hov.committed.symm.trans hold
      exact ⟨rfl, payload.edits_flush current now hversion⟩
    · cases hold.symm.trans hnone
  case updateTask taskId payload =>
    cases hstatus : payload.status with
    | some status =>
      simp only [hstatus] at hw
      obtain ⟨existing, current, now, now', auditId, -, -, -, hget, -, -, rfl, hnone⟩ := hw
      rcases List.mem_pair.mp hmem with he | he <;> cases he
      · obtain rfl : Task.id current = taskId := (Db.get_eq_some.mp hget).2
        cases hget.symm.trans hold
        exact ⟨rfl, TaskUpdate.edits_setStatus hstatus current now⟩
      · cases hold.symm.trans hnone
    | none =>
      simp only [hstatus] at hw
      obtain ⟨loaded, current, now, -, -, -, hversion, hov, rfl⟩ := hw
      cases List.mem_singleton.mp hmem
      obtain rfl : Task.id current = taskId := (Db.get_eq_some.mp hov.committed).2
      cases hov.committed.symm.trans hold
      exact ⟨rfl, payload.edits_flush current now hversion⟩
  case deleteTask taskId =>
    obtain ⟨current, now, hget, -, hlive, rfl⟩ := hw
    cases List.mem_singleton.mp hmem
    obtain rfl : Task.id current = taskId := (Db.get_eq_some.mp hget).2
    cases hget.symm.trans hold
    exact ⟨rfl, hlive, now, rfl⟩
  case updateComment taskId commentId payload =>
    obtain rfl | ⟨loaded, current, now, -, -, hov, rfl⟩ := hw
    · cases hmem
    · cases List.mem_singleton.mp hmem
      obtain rfl : Comment.id current = commentId := (Db.get_eq_some.mp hov.committed).2
      cases hov.committed.symm.trans hold
      exact ⟨rfl, payload.edits_flush loaded current now⟩
  case inviteMember payload =>
    obtain ⟨invited, id, now, -, -, -, hins⟩ := hw
    exact ((hins _ hmem).not_written hold).elim
  case createTeam payload =>
    obtain ⟨id, now, -, hins⟩ := hw
    exact ((hins _ hmem).not_written hold).elim
  case addTeamMember teamId payload =>
    obtain ⟨id, now, -, -, hins⟩ := hw
    exact ((hins _ hmem).not_written hold).elim
  case createProject payload =>
    obtain ⟨id, auditId, now, now', -, hins⟩ := hw
    exact ((hins _ hmem).not_written hold).elim
  case createTask payload =>
    obtain ⟨id, auditId, now, now', -, hins⟩ := hw
    exact ((hins _ hmem).not_written hold).elim
  case createComment taskId payload =>
    obtain ⟨id, now, -, -, hins⟩ := hw
    exact ((hins _ hmem).not_written hold).elim
  case confirmAttachment taskId payload =>
    obtain ⟨id, now, -, -, hins⟩ := hw
    exact ((hins _ hmem).not_written hold).elim

theorem Request.Writes.edits {r : Request} (hw : r.Writes calm db es) {t : Table}
    {row old : t.Row} (hmem : (⟨t, row⟩ : Entry) ∈ es) (hold : db.get t (t.id row) = some old) :
    r.Edits db t (t.id row) old row := by
  have hfrozen := hw.frozen _ hmem _ hold
  cases r with
  | register clientIp payload =>
    obtain ⟨hashed, slug, id, orgId, memberId, now, now', now'', -, hins⟩ := hw
    exact ((hins _ hmem).not_written hold).elim
  | tenant bearer o q =>
    obtain ⟨user, role, hadmitted, hw⟩ := hw
    exact ⟨⟨user, role, hadmitted⟩, hfrozen, hw.edits hmem hold⟩
  | _ => exact hw.elim

end Writes

theorem Request.Edits.mono {db db' : Db} {t : Table} {id : Uuid} {before after : t.Row}
    {r : Request} (h : r.Edits db t id before after) (hext : Extends db db') :
    r.Edits db' t id before after := by
  cases r with
  | tenant bearer o q =>
    obtain ⟨⟨user, role, hadmitted⟩, hedits⟩ := h
    exact ⟨⟨user, role, hadmitted.mono hext⟩, hedits⟩
  | _ => exact h

theorem Commit.change_unborn {d : Commit} {t : Table} {id : Uuid}
    (h : d.before.get t id = none) : d.change t id = none := by
  cases hx : d.change t id with
  | none => rfl
  | some x => cases h.symm.trans (Commit.change_eq_some hx).2.2.1

theorem History.unborn {db₀ db : Db} {ds : List Commit} (h : History db₀ ds db) {t : Table}
    {id : Uuid} (hnone : db.get t id = none) : ds.filterMap (Commit.change t id) = [] := by
  induction ds generalizing db with
  | nil => rfl
  | cons d ds ih =>
    obtain ⟨rfl, h⟩ := h
    have hbefore : d.before.get t id = none := by
      by_contra hsome
      have hkept := d.before.keeps_apply d.written t id (Option.isSome_iff_ne_none.mpr hsome)
      rw [hnone] at hkept
      cases hkept
    rw [List.filterMap_cons_none (Commit.change_unborn hbefore)]
    exact ih h hbefore

/-- A row that was not there at the start was inserted by one transaction, and the later
changes lead from there to what it is. -/
theorem History.born {db₀ db : Db} {ds : List Commit} (h : History db₀ ds db) {t : Table}
    {id : Uuid} {now : t.Row} (hnone : db₀.get t id = none) (hnow : db.get t id = some now) :
    ∃ d ∈ ds, ∃ start, d.before.get t id = none ∧
      (d.before.apply d.written).get t id = some start ∧
      Versioned.Linked start (ds.filterMap (Commit.change t id)) now := by
  induction ds generalizing db now with
  | nil => cases (h ▸ hnone).symm.trans hnow
  | cons d ds ih =>
    obtain ⟨rfl, h⟩ := h
    cases hbefore : d.before.get t id with
    | none =>
      refine ⟨d, List.mem_cons_self, now, hbefore, hnow, ?_⟩
      rw [List.filterMap_cons_none (Commit.change_unborn hbefore), h.unborn hbefore]
      rfl
    | some before =>
      obtain ⟨e, he, start, hborn, hstart, hlinked⟩ := ih h hbefore
      refine ⟨e, List.mem_cons_of_mem _ he, start, hborn, hstart, ?_⟩
      by_cases hw : ∃ x ∈ d.written, x.slot = (t, id)
      · obtain ⟨x, hx⟩ := Commit.change_isSome hw hbefore
        obtain ⟨-, -, hb, ha⟩ := Commit.change_eq_some hx
        rw [List.filterMap_cons_some hx]
        cases hb.symm.trans hbefore
        cases ha.symm.trans hnow
        exact ⟨rfl, hlinked⟩
      · have hchange : d.change t id = none := by
          cases hx : d.change t id with
          | none => rfl
          | some x => exact absurd (Commit.change_eq_some hx).1 hw
        have hsame : (d.before.apply d.written).get t id = d.before.get t id :=
          Db.get_apply_of_ne _ fun x hx hs => hw ⟨x, hx, hs.symm⟩
        rw [hsame, hbefore] at hnow
        cases hnow
        rw [List.filterMap_cons_none hchange]
        exact hlinked

section Runs

variable [Library] {c : AppConfig} {faults : Faults} {now : Instant}

/-- A row on its way through a run: the transaction of one request has inserted it, and each
later change was made, in turn, by a request whose edit it is. -/
structure Accounted (c : AppConfig) (t : Table) (id : Uuid) (row : t.Row) : Prop where
  born : ∃ d ∈ c.state.commits, ∃ start, (⟨t, start⟩ : Entry) ∈ d.written ∧
    d.before.get t id = none ∧ (∃ r k, c.thread d.session = some ⟨r, k⟩ ∧
      r.Writes uncovered d.before d.written) ∧
    Versioned.Linked start (changes t id c.state) row
  edited : ∀ x ∈ changes t id c.state, ∃ r k, c.thread x.writer = some ⟨r, k⟩ ∧
    r.Edits c.state.db t id x.before x.after

theorem rows_accounted (h : Reach app anySchedule (genesis faults now) c) {t : Table} {id : Uuid}
    {row : t.Row} (hrow : c.state.db.get t id = some row) : Accounted c t id row := by
  obtain ⟨hhist, hcommits⟩ := (start_genesis faults now).commits h
  constructor
  · have hempty : Db.empty.get t id = none := rfl
    obtain ⟨d, hd, start, hborn, hstart, hlinked⟩ := hhist.born hempty hrow
    obtain ⟨-, r, k, ht, hw⟩ := hcommits d hd
    obtain ⟨hmem, hid⟩ := Db.get_eq_some.mp hstart
    refine ⟨d, hd, start, ?_, hborn, ⟨r, k, ht, hw⟩, hlinked⟩
    refine (Db.mem_apply hmem).resolve_right fun hold => ?_
    cases hborn.symm.trans (hid ▸ Db.get_of_mem hold.1)
  · intro x hx
    obtain ⟨d, hd, hchange⟩ := List.mem_filterMap.mp hx
    obtain ⟨⟨⟨t', row'⟩, hmem, hslot⟩, hwriter, hbefore, hafter⟩ := Commit.change_eq_some hchange
    obtain ⟨hext, r, k, ht, hw⟩ := hcommits d hd
    obtain ⟨rfl, rfl⟩ := Prod.mk.inj hslot
    have hrow' : row' = x.after := Option.some.inj ((hw.readBack hmem).symm.trans hafter)
    refine ⟨r, k, hwriter ▸ ht, ?_⟩
    exact hrow' ▸ (hw.edits hmem hbefore).mono hext

end Runs

section Example

open scoped Ascii

def urgentLaunch : AppConfig := runMoves (genesis noFaults 0)
  (annsProject ++ solo 3 (asAnn apolloTask) ++ solo 4 (prioritize .high))

theorem urgentLaunch_reached : Reach app anySchedule (genesis noFaults 0) urgentLaunch :=
  runMoves_any fun _ => rfl

theorem urgentLaunch_accounted : (changes .tasks (drawnId 17) urgentLaunch.state).length = 1 ∧
    ∃ row, Accounted urgentLaunch .tasks (drawnId 17) row := by
  have hsome : (urgentLaunch.state.db.get .tasks (drawnId 17)).isSome := by decide +kernel
  obtain ⟨row, hrow⟩ := Option.isSome_iff_exists.mp hsome
  exact ⟨by decide +kernel, row, rows_accounted urgentLaunch_reached hrow⟩

end Example

end MultiTenantSaas
