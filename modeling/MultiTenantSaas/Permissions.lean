import MultiTenantSaas.Api
import MultiTenantSaas.Sessions

/-!
What a request may do, independent of how its endpoint does it: the rows it may
commit, the channels it may publish on, the objects it may presign and the rooms
it may join, in terms of the rows that are committed at that moment.
-/

set_option autoImplicit false

namespace MultiTenantSaas

structure Admitted (db : Db) (bearer : Token) (organizationId : Uuid) (minRole : OrgRole)
    (user : User) (role : OrgRole) : Prop where
  token : ∃ payload, bearer.payload = some payload ∧ payload.type = access ∧
    payload.sub = some user.id
  registered : user ∈ db.rows .users
  active : user.isActive = true
  member : ∃ m : OrganizationMember, m ∈ db.rows .organizationMembers ∧
    m.organizationId = organizationId ∧ m.userId = user.id ∧ m.role = role
  level : minRole.level ≤ role.level

theorem Admitted.mono {db db' : Db} {bearer : Token} {o : Uuid} {minRole role : OrgRole}
    {user : User} (h : Admitted db bearer o minRole user role) (he : Extends db db') :
    Admitted db' bearer o minRole user role := by
  obtain ⟨m, hm, hrest⟩ := h.member
  exact ⟨h.token, he.mem (t := .users) (fun _ => rfl) h.registered, h.active,
    ⟨m, he.mem (t := .organizationMembers) (fun _ => rfl) hm, hrest⟩, h.level⟩

def TenantHas (db : Db) (t : Table) (organizationId id : Uuid) : Prop :=
  ∃ r, db.get t id = some r ∧ t.org r = some organizationId

theorem TenantHas.mono {db db' : Db} {t : Table} {o id : Uuid} (h : TenantHas db t o id)
    (he : Extends db db') : TenantHas db' t o id := by
  obtain ⟨r, hr, ho⟩ := h
  obtain ⟨r', hr', hf⟩ := he t id r hr
  exact ⟨r', hr', by rw [Table.org_of_frozen hf, ho]⟩

def Inserted (db : Db) (e : Entry) : Prop := db.get e.table e.id = none

/-- A row that overwrites `current`; the session had loaded `loaded` earlier. When
`calm` covers the row, nothing was committed to it in between. -/
structure Overwrites (calm : Table → Uuid → Prop) (db : Db) (t : Table) (id : Uuid)
    (loaded current : t.Row) : Prop where
  committed : db.get t id = some current
  frozen : t.frozen current = t.frozen loaded
  unchanged : calm t id → current = loaded

/-- The rows a request of `user` with `role` in the tenant may commit. -/
def TenantRequest.Writes [Library] (calm : Table → Uuid → Prop) (organizationId : Uuid)
    (user : User) (role : OrgRole) (db : Db) (es : List Entry) : TenantRequest → Prop
  | .updateCurrentOrganization payload =>
    es = [] ∨ ∃ (loaded current : Organization) (now : Instant),
      Overwrites calm db .organizations organizationId loaded current ∧
      es = [⟨.organizations, loaded.flush (payload.assign loaded) now current⟩]
  | .inviteMember payload => ∃ (invited : User) (id : Uuid) (now : Instant),
    invited ∈ db.rows .users ∧ invited.email = normalizeEmail payload.email.text ∧
    es = [⟨.organizationMembers,
      newOrganizationMember organizationId invited.id payload.role id now⟩] ∧
    ∀ e ∈ es, Inserted db e
  | .createTeam payload => ∃ (id : Uuid) (now : Instant),
    es = [⟨.teams, newTeam organizationId payload id now⟩] ∧ ∀ e ∈ es, Inserted db e
  | .addTeamMember teamId payload => ∃ (id : Uuid) (now : Instant),
    TenantHas db .teams organizationId teamId ∧
    es = [⟨.teamMembers, newTeamMember organizationId teamId payload.userId id now⟩] ∧
    ∀ e ∈ es, Inserted db e
  | .createProject payload => ∃ (id auditId : Uuid) (now now' : Instant),
    es = [⟨.projects, newProject organizationId payload id now⟩,
      ⟨.auditLogs, newAuditLog organizationId none projectEntity id .create none
        (some (newProject organizationId payload id now).createdState) auditId now'⟩] ∧
    ∀ e ∈ es, Inserted db e
  | .updateProject projectId payload =>
    ∃ (loaded current : Project) (now now' : Instant) (auditId : Uuid),
      loaded.id = projectId ∧ loaded.organizationId = organizationId ∧
      loaded.versionId = payload.expectedVersion.val ∧
      Overwrites calm db .projects projectId loaded current ∧
      es = [⟨.projects, loaded.flush (payload.assign loaded) now current⟩,
        ⟨.auditLogs, newAuditLog organizationId none projectEntity projectId .update
          (some loaded.state) (some (payload.assign loaded).state) auditId now'⟩] ∧
      db.get .auditLogs auditId = none
  | .createTask payload => ∃ (id auditId : Uuid) (now now' : Instant),
    let task := newTask organizationId payload.projectId user.id payload.assigneeId
      payload.title.text payload.description payload.priority id now
    es = [⟨.tasks, task⟩,
      ⟨.auditLogs, newAuditLog organizationId (some user.id) taskEntity id .create none
        (some task.createdState) auditId now'⟩] ∧
    ∀ e ∈ es, Inserted db e
  | .updateTask taskId payload =>
    match payload.status with
    | some status => ∃ (existing current : Task) (now now' : Instant) (auditId : Uuid),
      let expected := payload.expectedVersion.val
      let updated := if statusCriteria organizationId expected existing then
        setStatus status expected existing else existing
      existing.id = taskId ∧ existing.organizationId = organizationId ∧
      existing.isDeleted = false ∧ db.get .tasks taskId = some current ∧
      Table.tasks.frozen current = Table.tasks.frozen existing ∧
      statusCriteria organizationId expected current = true ∧
      es = [⟨.tasks, { setStatus status expected current with updatedAt := now }⟩,
        ⟨.auditLogs, newAuditLog organizationId (some user.id) taskEntity taskId .update
          (some existing.statusState) (some updated.statusState) auditId now'⟩] ∧
      db.get .auditLogs auditId = none
    | none => ∃ (loaded current : Task) (now : Instant),
      loaded.id = taskId ∧ loaded.organizationId = organizationId ∧ loaded.isDeleted = false ∧
      loaded.versionId = payload.expectedVersion.val ∧
      Overwrites calm db .tasks taskId loaded current ∧
      es = [⟨.tasks, loaded.flush (payload.assign loaded) now current⟩]
  | .deleteTask taskId => ∃ (current : Task) (now : Instant),
    db.get .tasks taskId = some current ∧ current.organizationId = organizationId ∧
    current.isDeleted = false ∧
    es = [⟨.tasks, Task.markDeleted now current⟩]
  | .createComment taskId payload => ∃ (id : Uuid) (now : Instant),
    TenantHas db .tasks organizationId taskId ∧
    es = [⟨.comments,
      newComment organizationId taskId user.id (strip payload.content.text) id now⟩] ∧
    ∀ e ∈ es, Inserted db e
  | .updateComment _ commentId payload =>
    es = [] ∨ ∃ (loaded current : Comment) (now : Instant),
      loaded.organizationId = organizationId ∧
      (loaded.authorId = user.id ∨ role = .admin ∨ role = .owner) ∧
      Overwrites calm db .comments commentId loaded current ∧
      es = [⟨.comments, loaded.flush (strip payload.content.text) now current⟩]
  | .confirmAttachment taskId payload => ∃ (id : Uuid) (now : Instant),
    TenantHas db .tasks organizationId taskId ∧
    es = [⟨.attachments, newAttachment organizationId taskId user.id payload id now⟩] ∧
    ∀ e ∈ es, Inserted db e
  | _ => False

def TenantRequest.tables : TenantRequest → List Table
  | .updateCurrentOrganization _ => [.organizations]
  | .inviteMember _ => [.organizationMembers]
  | .createTeam _ => [.teams]
  | .addTeamMember _ _ => [.teamMembers]
  | .createProject _ | .updateProject _ _ => [.projects, .auditLogs]
  | .createTask _ | .updateTask _ _ => [.tasks, .auditLogs]
  | .deleteTask _ => [.tasks]
  | .createComment _ _ | .updateComment _ _ _ => [.comments]
  | .confirmAttachment _ _ => [.attachments]
  | _ => []

def Request.Writes [Library] (calm : Table → Uuid → Prop) (db : Db) (es : List Entry) :
    Request → Prop
  | .register _ payload => ∃ (hashed slug : Str) (id orgId memberId : Uuid)
      (now now' now'' : Instant),
    let user := newUser payload hashed id now
    es = [⟨.users, user⟩,
      ⟨.organizations, newOrganization (organizationName payload user) slug orgId now'⟩,
      ⟨.organizationMembers, newOrganizationMember orgId id .owner memberId now''⟩] ∧
    ∀ e ∈ es, Inserted db e
  | .tenant bearer organizationId request => ∃ user role,
    Admitted db bearer organizationId request.minRole user role ∧
    request.Writes calm organizationId user role db es
  | _ => False

def HasTaskFor (db : Db) (organizationId projectId : Uuid) : Prop :=
  ∃ task : Task, task ∈ db.rows .tasks ∧ task.organizationId = organizationId ∧
    task.projectId = projectId

theorem HasTaskFor.mono {db db' : Db} {o p : Uuid} (h : HasTaskFor db o p) (he : Extends db db') :
    HasTaskFor db' o p := by
  obtain ⟨task, hmem, ho, hp⟩ := h
  obtain ⟨task', hmem', hf⟩ := he.mem_frozen (t := .tasks) hmem
  exact ⟨task', hmem', (congrArg Task.organizationId hf).trans ho,
    (congrArg Task.projectId hf).trans hp⟩

/-- The channels a request may publish on: that of the project of a task of its
tenant. -/
def Request.Publishes (db : Db) (channel : Str) : Request → Prop
  | .tenant _ organizationId _ =>
    ∃ p, HasTaskFor db organizationId p ∧ channel = channelName p
  | _ => False

def Request.PresignsPut (db : Db) (key : Str) : Request → Prop
  | .tenant _ organizationId _ => ∃ taskId, TenantHas db .tasks organizationId taskId ∧
    fileKeyPrefix organizationId taskId <+: key
  | _ => False

/-- The objects a request may presign for download: those of its tenant's attachments. -/
def Request.PresignsGet (db : Db) (key : Str) : Request → Prop
  | .tenant _ organizationId _ => ∃ a : Attachment, a ∈ db.rows .attachments ∧
    a.organizationId = organizationId ∧ a.s3Key = key
  | _ => False

def Request.Joins (db : Db) (p : Uuid) : Request → Prop
  | .webSocket projectId token _ => p = projectId ∧ ∃ (payload : TokenPayload) (userId : Uuid)
      (project : Project) (m : OrganizationMember),
    token.payload = some payload ∧ payload.type = access ∧ payload.sub = some userId ∧
    project ∈ db.rows .projects ∧ project.id = projectId ∧ m ∈ db.rows .organizationMembers ∧
    m.organizationId = project.organizationId ∧ m.userId = userId
  | _ => False

/-- What a request may do with one operation. -/
def Request.Allows [Library] (calm : Table → Uuid → Prop) (r : Request) (i : Nat) (w : World) :
    Op → Prop
  | .commit => r.Writes calm w.db (w.rows i)
  | .publish channel _ _ => r.Publishes w.db channel
  | .presignPut key _ _ => r.PresignsPut w.db key
  | .presignGet key _ => r.PresignsGet w.db key
  | .hubConnect p => r.Joins w.db p
  | o => o.Freezes

def Request.Logs (db : Db) (r : Request) : Event → Prop
  | .publish m => r.Publishes db m.channel
  | .presignPut key => r.PresignsPut db key
  | .presignGet key => r.PresignsGet db key
  | _ => True

theorem Request.Logs.mono {db db' : Db} {r : Request} {e : Event} (h : r.Logs db e)
    (he : Extends db db') : r.Logs db' e := by
  cases e <;> cases r <;> try exact h
  case publish.tenant m bearer o req =>
    obtain ⟨p, hp, hc⟩ := h
    exact ⟨p, hp.mono he, hc⟩
  case presignPut.tenant key bearer o req =>
    obtain ⟨taskId, htask, hk⟩ := h
    exact ⟨taskId, htask.mono he, hk⟩
  case presignGet.tenant key bearer o req =>
    obtain ⟨a, hmem, ha⟩ := h
    exact ⟨a, he.mem (t := .attachments) (fun _ => rfl) hmem, ha⟩

def Comment.MayEdit (c : Comment) (user : User) (role : OrgRole) : Prop :=
  c.authorId = user.id ∨ role = .admin ∨ role = .owner

/-- What the answer to a tenant request tells: which task it is about, and which
committed row it shows. -/
def TenantRequest.Tells (organizationId : Uuid) (user : User) (role : OrgRole) (db : Db)
    (a : Response) : TenantRequest → Prop
  | .updateTask taskId _ => ∃ x, a = .task x ∧ x.id = taskId
  | .deleteTask _ => a = .noContent
  | .createComment taskId _ => ∃ (x : CommentResponse) (row : Comment), a = .comment x ∧
    db.get .comments x.id = some row ∧ row.taskId = taskId
  | .updateComment _ commentId _ => ∃ (x : CommentResponse) (row : Comment), a = .comment x ∧
    x.id = commentId ∧ db.get .comments commentId = some row ∧
    row.organizationId = organizationId ∧ row.MayEdit user role
  | .generateUploadUrl _ _ => ∃ x, a = .upload x
  | .confirmAttachment taskId _ => ∃ (x : AttachmentResponse) (row : Attachment),
    a = .attachment x ∧ db.get .attachments x.id = some row ∧ row.taskId = taskId
  | _ => True

def Token.Names (token : Token) (tokenType : Str) (userId : Uuid) : Prop :=
  ∃ payload, token.payload = some payload ∧ payload.type = tokenType ∧ payload.sub = some userId

structure TokenResponse.IssuedTo (tokens : TokenResponse) (userId : Uuid) : Prop where
  access : tokens.accessToken.Names access userId
  refresh : tokens.refreshToken.Names refreshType userId

/-- What an answer tells: that of a tenant request is for a member of the tenant, and a
token pair is for the user who registered, logged in or was the subject of the refresh
token. -/
def Request.Tells [Library] (db : Db) (a : Response) : Request → Prop
  | .register _ payload => ∃ headers tokens, ∃ user : User, ∃ salt, a = .tokens headers tokens ∧
    tokens.IssuedTo user.id ∧ user ∈ db.rows .users ∧
    user.email = normalizeEmail payload.email.text ∧
    user.hashedPassword = Library.hashPassword salt payload.password.text
  | .login _ payload => ∃ headers tokens, ∃ user : User, a = .tokens headers tokens ∧
    tokens.IssuedTo user.id ∧ user ∈ db.rows .users ∧
    user.email = normalizeEmail payload.email.text ∧
    Library.verifyPassword payload.password user.hashedPassword = true
  | .refresh token => ∃ headers tokens userId, a = .tokens headers tokens ∧
    tokens.IssuedTo userId ∧ token.Names refreshType userId
  | .tenant bearer organizationId request => ∃ user role,
    Admitted db bearer organizationId request.minRole user role ∧
    request.Tells organizationId user role db a
  | _ => True

theorem TenantRequest.Tells.mono {db db' : Db} {o : Uuid} {user : User} {role : OrgRole}
    {a : Response} {q : TenantRequest} (h : q.Tells o user role db a) (he : Extends db db') :
    q.Tells o user role db' a := by
  cases q <;> try exact h
  case createComment taskId payload =>
    obtain ⟨x, row, rfl, hget, htask⟩ := h
    obtain ⟨row', hget', hf⟩ := he .comments _ _ hget
    exact ⟨x, row', rfl, hget', (congrArg Comment.taskId hf).trans htask⟩
  case updateComment taskId commentId payload =>
    obtain ⟨x, row, rfl, hid, hget, horg, hedit⟩ := h
    obtain ⟨row', hget', hf⟩ := he .comments _ _ hget
    refine ⟨x, row', rfl, hid, hget', (congrArg Comment.organizationId hf).trans horg, ?_⟩
    exact hedit.imp_left (congrArg Comment.authorId hf).trans
  case confirmAttachment taskId payload =>
    obtain ⟨x, row, rfl, hget, htask⟩ := h
    obtain ⟨row', hget', hf⟩ := he .attachments _ _ hget
    exact ⟨x, row', rfl, hget', (congrArg Attachment.taskId hf).trans htask⟩

theorem Request.Tells.mono [Library] {db db' : Db} {a : Response} {r : Request}
    (h : r.Tells db a) (he : Extends db db') : r.Tells db' a := by
  cases r <;> try exact h
  case register clientIp payload =>
    obtain ⟨headers, tokens, user, salt, rfl, hissued, huser, hrest⟩ := h
    exact ⟨headers, tokens, user, salt, rfl, hissued, he.mem (fun _ => rfl) huser, hrest⟩
  case login clientIp payload =>
    obtain ⟨headers, tokens, user, rfl, hissued, huser, hrest⟩ := h
    exact ⟨headers, tokens, user, rfl, hissued, he.mem (fun _ => rfl) huser, hrest⟩
  case tenant bearer o q =>
    obtain ⟨user, role, hadm, hq⟩ := h
    exact ⟨user, role, hadm.mono he, hq.mono he⟩

/-- The tenant requests that end well only after a commit. -/
def TenantRequest.Commits : TenantRequest → Prop
  | .updateCurrentOrganization _ | .inviteMember _ | .createTeam _ | .addTeamMember _ _
  | .createProject _ | .updateProject _ _ | .createTask _ | .updateTask _ _ | .deleteTask _
  | .createComment _ _ | .updateComment _ _ _ | .confirmAttachment _ _ => True
  | _ => False

def Request.Commits : Request → Prop
  | .register _ _ => True
  | .tenant _ _ request => request.Commits
  | _ => False

theorem Inserted.frozen {db : Db} {e : Entry} (h : Inserted db e) :
    ∀ old, db.get e.table e.id = some old → e.table.frozen e.row = e.table.frozen old := by
  intro old hold
  rw [h] at hold
  cases hold

theorem frozen_of_get {db : Db} {t : Table} {id : Uuid} {current r : t.Row}
    (hget : db.get t id = some current) (hf : t.frozen r = t.frozen current) :
    ∀ old, db.get (Entry.mk t r).table (Entry.mk t r).id = some old →
      t.frozen (Entry.mk t r).row = t.frozen old := by
  intro old hold
  have hid : t.id r = id := by rw [Table.id_of_frozen hf]; exact (Db.get_eq_some.mp hget).2
  simp only [Entry.id, hid] at hold
  rw [hget] at hold
  rw [hf, Option.some.inj hold]

theorem not_inserted {db : Db} {t : Table} {id : Uuid} {current r : t.Row}
    (hget : db.get t id = some current) (hf : t.frozen r = t.frozen current) :
    ¬ Inserted db ⟨t, r⟩ := by
  intro hins
  have hid : t.id r = id := by rw [Table.id_of_frozen hf]; exact (Db.get_eq_some.mp hget).2
  simp only [Inserted, Entry.id, hid, hget] at hins
  cases hins

section frozen

variable (now : Instant)

theorem Organization.frozen_flush (loaded assigned current : Organization) :
    Table.organizations.frozen (loaded.flush assigned now current) =
      Table.organizations.frozen current := rfl

theorem Project.frozen_flush (loaded assigned current : Project) :
    Table.projects.frozen (loaded.flush assigned now current) = Table.projects.frozen current := rfl

theorem Task.frozen_flush (loaded assigned current : Task) :
    Table.tasks.frozen (loaded.flush assigned now current) = Table.tasks.frozen current := rfl

theorem Task.frozen_markDeleted (current : Task) :
    Table.tasks.frozen (current.markDeleted now) = Table.tasks.frozen current := rfl

theorem Comment.frozen_flush (loaded current : Comment) (content : Str) :
    Table.comments.frozen (loaded.flush content now current) = Table.comments.frozen current := rfl

end frozen

theorem TenantRequest.tables_nodup (r : TenantRequest) : r.tables.Nodup := by
  cases r <;> simp [tables]

variable [Library] {calm : Table → Uuid → Prop} {db : Db} {es : List Entry}

theorem TenantRequest.Writes.frozen {o : Uuid} {user : User} {role : OrgRole} {r : TenantRequest}
    (h : r.Writes calm o user role db es) : ∀ e ∈ es, ∀ old, db.get e.table e.id = some old →
      e.table.frozen e.row = e.table.frozen old := by
  cases r <;> simp only [TenantRequest.Writes] at h
  case updateCurrentOrganization payload =>
    rcases h with rfl | ⟨loaded, current, now, ho, rfl⟩
    · simp
    · simpa using frozen_of_get ho.committed (Organization.frozen_flush now _ _ _)
  case inviteMember payload =>
    obtain ⟨invited, id, now, -, -, -, hins⟩ := h
    exact fun e he => (hins e he).frozen
  case createTeam payload =>
    obtain ⟨id, now, -, hins⟩ := h
    exact fun e he => (hins e he).frozen
  case addTeamMember teamId payload =>
    obtain ⟨id, now, -, -, hins⟩ := h
    exact fun e he => (hins e he).frozen
  case createProject payload =>
    obtain ⟨id, auditId, now, now', -, hins⟩ := h
    exact fun e he => (hins e he).frozen
  case updateProject projectId payload =>
    obtain ⟨loaded, current, now, now', auditId, -, -, -, ho, rfl, hins⟩ := h
    intro e he
    rcases List.mem_pair.mp he with rfl | rfl
    · exact frozen_of_get ho.committed (Project.frozen_flush now _ _ _)
    · exact Inserted.frozen hins
  case createTask payload =>
    obtain ⟨id, auditId, now, now', -, hins⟩ := h
    exact fun e he => (hins e he).frozen
  case updateTask taskId payload =>
    cases hs : payload.status with
    | some status =>
      simp only [hs] at h
      obtain ⟨existing, current, now, now', auditId, -, -, -, hget, -, -, rfl, hins⟩ := h
      intro e he
      rcases List.mem_pair.mp he with rfl | rfl
      · exact frozen_of_get hget rfl
      · exact Inserted.frozen hins
    | none =>
      simp only [hs] at h
      obtain ⟨loaded, current, now, -, -, -, -, ho, rfl⟩ := h
      simpa using frozen_of_get ho.committed (Task.frozen_flush now _ _ _)
  case deleteTask taskId =>
    obtain ⟨current, now, hget, -, -, rfl⟩ := h
    simpa using frozen_of_get hget (Task.frozen_markDeleted now current)
  case createComment taskId payload =>
    obtain ⟨id, now, -, -, hins⟩ := h
    exact fun e he => (hins e he).frozen
  case updateComment taskId commentId payload =>
    rcases h with rfl | ⟨loaded, current, now, -, -, ho, rfl⟩
    · simp
    · simpa using frozen_of_get ho.committed (Comment.frozen_flush now _ _ _)
  case confirmAttachment taskId payload =>
    obtain ⟨id, now, -, -, hins⟩ := h
    exact fun e he => (hins e he).frozen

/-- A tenant request writes rows of its tenant, at most one in each of its tables. -/
theorem TenantRequest.Writes.confined {o : Uuid} {user : User} {role : OrgRole}
    {r : TenantRequest} (h : r.Writes calm o user role db es) :
    (es.map Entry.table).Sublist r.tables ∧ ∀ e ∈ es, e.table.org e.row = some o := by
  cases r <;> simp only [TenantRequest.Writes] at h
  case updateCurrentOrganization payload =>
    rcases h with rfl | ⟨loaded, current, now, hov, rfl⟩
    · simp
    · have hid : current.id = o := (Db.get_eq_some.mp hov.committed).2
      refine ⟨List.Sublist.refl _, fun e he => ?_⟩
      cases List.mem_singleton.mp he
      exact congrArg some hid
  case inviteMember payload =>
    obtain ⟨invited, id, now, -, -, rfl, -⟩ := h
    exact ⟨List.Sublist.refl _, by simp [Table.org, newOrganizationMember]⟩
  case createTeam payload =>
    obtain ⟨id, now, rfl, -⟩ := h
    exact ⟨List.Sublist.refl _, by simp [Table.org, newTeam]⟩
  case addTeamMember teamId payload =>
    obtain ⟨id, now, -, rfl, -⟩ := h
    exact ⟨List.Sublist.refl _, by simp [Table.org, newTeamMember]⟩
  case createProject payload =>
    obtain ⟨id, auditId, now, now', rfl, -⟩ := h
    exact ⟨List.Sublist.refl _, by simp [Table.org, newProject, newAuditLog]⟩
  case updateProject projectId payload =>
    obtain ⟨loaded, current, now, now', auditId, -, horg, -, hov, rfl, -⟩ := h
    have hcur : current.organizationId = o :=
      (congrArg Project.organizationId hov.frozen).trans horg
    exact ⟨List.Sublist.refl _, by simp [Table.org, Project.flush, newAuditLog, hcur]⟩
  case createTask payload =>
    obtain ⟨id, auditId, now, now', rfl, -⟩ := h
    exact ⟨List.Sublist.refl _, by simp [Table.org, newTask, newAuditLog]⟩
  case updateTask taskId payload =>
    cases hs : payload.status with
    | some status =>
      simp only [hs] at h
      obtain ⟨existing, current, now, now', auditId, -, horg, -, -, hf, -, rfl, -⟩ := h
      have hcur : current.organizationId = o := (congrArg Task.organizationId hf).trans horg
      exact ⟨List.Sublist.refl _, by simp [Table.org, setStatus, newAuditLog, hcur]⟩
    | none =>
      simp only [hs] at h
      obtain ⟨loaded, current, now, -, horg, -, -, hov, rfl⟩ := h
      have hcur : current.organizationId = o := (congrArg Task.organizationId hov.frozen).trans horg
      exact ⟨List.Sublist.cons_cons _ (List.nil_sublist _), by simp [Table.org, Task.flush, hcur]⟩
  case deleteTask taskId =>
    obtain ⟨current, now, -, horg, -, rfl⟩ := h
    exact ⟨List.Sublist.refl _, by simpa [Table.org, Task.markDeleted] using horg⟩
  case createComment taskId payload =>
    obtain ⟨id, now, -, rfl, -⟩ := h
    exact ⟨List.Sublist.refl _, by simp [Table.org, newComment]⟩
  case confirmAttachment taskId payload =>
    obtain ⟨id, now, -, rfl, -⟩ := h
    exact ⟨List.Sublist.refl _, by simp [Table.org, newAttachment]⟩
  case updateComment taskId commentId payload =>
    rcases h with rfl | ⟨loaded, current, now, horg, -, hov, rfl⟩
    · simp
    · have hcur : current.organizationId = o :=
        (congrArg Comment.organizationId hov.frozen).trans horg
      exact ⟨List.Sublist.refl _, by simpa [Table.org, Comment.flush] using hcur⟩

theorem TenantRequest.Writes.table {o : Uuid} {user : User} {role : OrgRole} {r : TenantRequest}
    (h : r.Writes calm o user role db es) {e : Entry} (he : e ∈ es) : e.table ∈ r.tables :=
  h.confined.1.subset (List.mem_map_of_mem he)

/-- Right after the commit the database answers with what was written. -/
theorem Request.Writes.readBack {r : Request} (h : r.Writes calm db es) {e : Entry}
    (he : e ∈ es) : (db.apply es).get e.table e.id = some e.row := by
  refine Db.get_apply_of_mem he ?_
  cases r <;> simp only [Request.Writes] at h
  case register clientIp payload =>
    obtain ⟨hashed, slug, id, orgId, memberId, now, now', now'', rfl, -⟩ := h
    simp
  case tenant bearer o request =>
    obtain ⟨user, role, -, hw⟩ := h
    exact hw.confined.1.nodup request.tables_nodup

theorem Request.Allows.logs {r : Request} {i : Nat} {o : Op} {w w' : World}
    {a : Except Exn o.Resp} (h : r.Allows calm i w o) (he : exec i o w a w') :
    w'.trace = w.trace ∨ ∃ e, w'.trace = (i, e) :: w.trace ∧ r.Logs w.db e := by
  cases o <;> simp only [exec] at he
  case insert t values =>
    rcases he with ⟨id, -, he⟩ | ⟨rfl, -⟩
    · rcases World.insert_cases he with ⟨e, -, rfl⟩ | ⟨-, rfl, -⟩ <;> exact Or.inl rfl
    · exact Or.inl rfl
  case flushUpdate t id set =>
    rcases he with he | ⟨rfl, -⟩
    · rcases World.flushUpdate_cases he with ⟨rfl, -⟩ | ⟨old, -, -, rfl, -⟩ <;> exact Or.inl rfl
    · exact Or.inl rfl
  case updateWhere t id criteria set =>
    rcases he with he | ⟨rfl, -⟩
    · rcases World.update_cases he with ⟨rfl, -⟩ | ⟨old, -, -, -, rfl, -⟩ <;> exact Or.inl rfl
    · exact Or.inl rfl
  case uuid4 => obtain ⟨u, -, -, rfl⟩ := he; exact Or.inl rfl
  case commit =>
    rcases he with ⟨-, rfl⟩ | ⟨rfl, -⟩
    · exact Or.inr ⟨_, rfl, trivial⟩
    · exact Or.inl rfl
  case rollback => obtain ⟨-, rfl⟩ := he; exact Or.inr ⟨_, rfl, trivial⟩
  case redisSet | redisExists | publish | presignPut | presignGet =>
    rcases he with ⟨-, rfl⟩ | ⟨rfl, -⟩
    · exact Or.inr ⟨_, rfl, h⟩
    · exact Or.inl rfl
  case redisDelete | slidingWindow =>
    rcases he with ⟨-, rfl⟩ | ⟨rfl, -⟩ <;> exact Or.inl rfl
  case clock | perfCounter | hubConnect | hubDisconnect =>
    obtain ⟨-, rfl⟩ := he; exact Or.inl rfl
  case select | redisGet | enqueue | wsAccept | wsClose | validateEmail | receiveText
      | receiveEnd =>
    obtain ⟨rfl, -⟩ := he; exact Or.inl rfl

theorem Request.Writes.frozen {r : Request} (h : r.Writes calm db es) :
    ∀ e ∈ es, ∀ old, db.get e.table e.id = some old →
      e.table.frozen e.row = e.table.frozen old := by
  cases r <;> simp only [Request.Writes] at h
  case register clientIp payload =>
    obtain ⟨hashed, slug, id, orgId, memberId, now, now', now'', -, hins⟩ := h
    exact fun e he => (hins e he).frozen
  case tenant bearer o request =>
    obtain ⟨user, role, -, hw⟩ := h
    exact hw.frozen

theorem Request.Writes.extends {r : Request} (h : r.Writes calm db es) :
    Extends db (db.apply es) := extends_apply h.frozen

theorem Request.Writes.row {r : Request} (h : r.Writes calm db es) {t : Table} {x : t.Row}
    (hx : x ∈ (db.apply es).rows t) :
    (∃ old, old ∈ db.rows t ∧ t.frozen x = t.frozen old) ∨
      ((⟨t, x⟩ : Entry) ∈ es ∧ Inserted db ⟨t, x⟩) := by
  rcases Db.mem_apply hx with hw | ⟨hold, -⟩
  · cases hget : db.get t (t.id x) with
    | none => exact Or.inr ⟨hw, hget⟩
    | some old => exact Or.inl ⟨old, (Db.get_eq_some.mp hget).1, h.frozen _ hw old hget⟩
  · exact Or.inl ⟨x, hold, rfl⟩

end MultiTenantSaas
