import MultiTenantSaas.Services

/-!
The endpoints, each with the tenant context its role guard gives it.
-/

set_option autoImplicit false

namespace MultiTenantSaas

def buildKey (keyspace : Str) (parts : List Str) : Str :=
  keyspace ++ ':' :: [':'].intercalate (parts.map strip)

def projectCacheKey (organizationId projectId : Uuid) : Str :=
  buildKey "tenant".toList [organizationId.str, "projects".toList, projectId.str]

/-- An exception of the service is logged, and the default stands in for the answer. -/
def orDefault {α : Type} (default : α) (body : Coro α) : Coro α :=
  tryCatch body fun _ => pure default

def CacheService.get (key : Str) : Coro (Option ProjectResponse) :=
  orDefault none do
    match ← ask (.redisGet key) with
    | some (.project p) => pure (some p)
    | _ => pure none

def CacheService.set (key : Str) (value : ProjectResponse) (ttlSeconds : Nat) : Coro Unit :=
  orDefault () (ask (.redisSet key (.project value) ttlSeconds))

def CacheService.delete (key : Str) : Coro Unit := orDefault () (ask (.redisDelete key))

def JobQueueService.enqueue (function : Str) (args : List Str) : Coro Unit :=
  orDefault () (ask (.enqueue function args))

def broadcastToRoom (projectId : Uuid) (eventType : Str) (data : JsonObject) : Coro Unit :=
  orDefault () (ask (.publish (channelName projectId) eventType data))

def fileKeyPrefix (organizationId taskId : Uuid) : Str :=
  organizationId.str ++ "/tasks/".toList ++ taskId.str ++ "/".toList

def generateFileKey (organizationId taskId : Uuid) (fileName : Str) : Coro Str := do
  let cleanName := fileName.map fun c => if c = ' ' then '_' else c
  let u ← ask .uuid4
  pure (fileKeyPrefix organizationId taskId ++ u.hexPrefix 8 ++ '_' :: cleanName)

def generatePresignedDownloadUrl (fileKey : Str) : Coro Str := ask (.presignGet fileKey 3600)

namespace Endpoints

def organizationEntity : Str := "Organization".toList

def getCurrentOrganization (ctx : TenantContext) : Coro OrganizationResponse := do
  match ← sessionGet .organizations ctx.organizationId with
  | none => throw (.entityNotFound organizationEntity ctx.organizationId.str)
  | some org => pure (.ofOrganization org)

end Endpoints

def OrganizationUpdate.assign (payload : OrganizationUpdate) (o : Organization) : Organization :=
  { o with
    name := (payload.name.map fun n => strip n.text).getD o.name
    logoUrl := payload.logoUrl.or o.logoUrl }

def Organization.flush (loaded assigned : Organization) (now : Instant) (current : Organization) :
    Organization :=
  { current with
    name := flushed loaded.name assigned.name current.name
    logoUrl := flushed loaded.logoUrl assigned.logoUrl current.logoUrl
    updatedAt := now }

namespace Endpoints

def updateCurrentOrganization (ctx : TenantContext) (payload : OrganizationUpdate) :
    Coro OrganizationResponse := do
  match ← sessionGet .organizations ctx.organizationId with
  | none => throw (.entityNotFound organizationEntity ctx.organizationId.str)
  | some (org : Organization) =>
    let assigned := payload.assign org
    -- a commit without changes emits no UPDATE
    if assigned ≠ org then
      ask (.flushUpdate .organizations org.id (org.flush assigned))
    ask .commit
    let org ← refresh .organizations org.id
    pure (.ofOrganization org)

/-- `OrgMemberDetailResponse(...)`, whose address is validated. -/
def memberDetail (m : OrganizationMember) (u : User) : Coro OrgMemberDetailResponse := do
  let email ← ask (.validateEmail u.email)
  pure ⟨m.id, m.userId, email, u.fullName, u.avatarUrl, m.role, m.createdAt⟩

def listOrganizationMembers (ctx : TenantContext) : Coro (List OrgMemberDetailResponse) := do
  let members ← ask (.select (joinedLoad .organizationMembers .users
    (fun (m : OrganizationMember) => some m.userId)
    fun (m : OrganizationMember) => m.organizationId = ctx.organizationId))
  let members ← requireJoined (members.insertionSort
    fun (a b : OrganizationMember × Option User) => a.1.createdAt ≤ b.1.createdAt)
  forEach (fun (m, u) => memberDetail m u) members

def inviteMember [Library] (ctx : TenantContext) (payload : OrgMemberInviteRequest) :
    Coro OrgMemberDetailResponse := do
  match ← getByEmail payload.email.text with
  | none => throw (.entityNotFound "User".toList payload.email.text)
  | some user =>
    let existing ← getMembership ctx.organizationId user.id
    if existing.isSome then
      throw (.entityConflict "User is already a member of this organization.".toList)
    let newMember ← create .organizationMembers
      (newOrganizationMember ctx.organizationId user.id payload.role)
    ask .commit
    let org ← sessionGet .organizations ctx.organizationId
    let orgName := match org with
      | some (o : Organization) => o.name
      | none => "Workspace".toList
    JobQueueService.enqueue "send_invitation_email".toList [user.email, orgName, ctx.user.fullName]
    memberDetail newMember user

def createTeam [Library] (ctx : TenantContext) (payload : TeamCreate) : Coro TeamResponse := do
  let team ← TeamService.createTeam ctx.organizationId payload
  TeamService.getTeamDetail ctx.organizationId (Team.id team)

def listTeams (ctx : TenantContext) : Coro (List TeamResponse) := do
  let teams ← listPaginated .teams ctx.organizationId 0 100
  forEach (fun (t : Team) => TeamService.getTeamDetail ctx.organizationId t.id) teams

def getTeam (ctx : TenantContext) (teamId : Uuid) : Coro TeamResponse :=
  TeamService.getTeamDetail ctx.organizationId teamId

def addTeamMember (ctx : TenantContext) (teamId : Uuid) (payload : TeamMemberAddRequest) :
    Coro Unit :=
  TeamService.addMember ctx.organizationId ctx.user teamId payload.userId

def createProject [Library] (ctx : TenantContext) (payload : ProjectCreate) :
    Coro ProjectResponse := do
  let project ← ProjectService.createProject ctx.organizationId payload none
  pure (.ofProject project)

def listProjects (ctx : TenantContext) : Coro (List ProjectResponse) := do
  let projects ← listPaginated .projects ctx.organizationId 0 100
  pure (projects.map ProjectResponse.ofProject)

def getProject (ctx : TenantContext) (projectId : Uuid) : Coro ProjectResponse := do
  let cacheKey := projectCacheKey ctx.organizationId projectId
  match ← CacheService.get cacheKey with
  | some cached => pure cached
  | none =>
    match ← getById .projects ctx.organizationId projectId with
    | none => throw (.entityNotFound projectEntity projectId.str)
    | some project =>
      let response := ProjectResponse.ofProject project
      CacheService.set cacheKey response 300
      pure response

def updateProject (ctx : TenantContext) (projectId : Uuid) (payload : ProjectUpdate) :
    Coro ProjectResponse := do
  let project ← ProjectService.updateProject ctx.organizationId projectId payload none
  CacheService.delete (projectCacheKey ctx.organizationId projectId)
  pure (.ofProject project)

def createTask (ctx : TenantContext) (payload : TaskCreate) : Coro TaskResponse := do
  let task ← TaskService.createTask ctx.organizationId payload.projectId ctx.user.id
    payload.title.text payload.description payload.priority payload.assigneeId
  broadcastToRoom payload.projectId "TASK_CREATED".toList
    [("task_id".toList, .str task.id.str), ("title".toList, .str task.title),
      ("priority".toList, .str task.priority.value), ("status".toList, .str task.status.value)]
  pure (.ofTask task)

def totalPages (total pageSize : Nat) : Nat := (total + pageSize - 1) / pageSize

def listTasksOffset [Library] (ctx : TenantContext) (projectId : Option Uuid)
    (status : Option TaskStatus) (priority : Option TaskPriority) (assigneeId : Option Uuid)
    (search : Option Str) (sortBy : Str) (page : Page) (pageSize : PageSize) :
    Coro (OffsetPageResponse TaskResponse) := do
  let filters : TaskFilterParams := ⟨projectId, status, priority, assigneeId, none, search, sortBy⟩
  let offset := (page.val - 1) * pageSize.val
  let (items, total) ←
    MultiTenantSaas.listTasksOffset ctx.organizationId filters offset pageSize.val
  pure ⟨items.map .ofTask, total, page.val, pageSize.val, totalPages total pageSize.val⟩

def listTasksFeed [Library] (ctx : TenantContext) (projectId : Option Uuid)
    (status : Option TaskStatus) (cursor : Option Str) (limit : PageSize) :
    Coro (CursorPageResponse TaskResponse) := do
  let filters : TaskFilterParams := { projectId, status, priority := none, assigneeId := none,
                                      reporterId := none, search := none }
  let (items, hasMore) ← listTasksCursor ctx.organizationId filters (cursorData cursor) limit.val
  let nextCursor :=
    if hasMore then items.getLast?.map fun t => encodeCursor t.createdAt t.id else none
  pure ⟨items.map .ofTask, nextCursor, hasMore⟩

def getTask (ctx : TenantContext) (taskId : Uuid) : Coro TaskResponse := do
  match ← getById .tasks ctx.organizationId taskId with
  | none => throw (.entityNotFound taskEntity taskId.str)
  | some task => pure (.ofTask task)

end Endpoints

def TaskUpdate.assign (payload : TaskUpdate) (t : Task) : Task :=
  { t with
    title := (payload.title.map fun s => strip s.text).getD t.title
    description := payload.description.or t.description
    priority := payload.priority.getD t.priority
    assigneeId := payload.assigneeId.or t.assigneeId
    dueDate := payload.dueDate.or t.dueDate
    versionId := t.versionId + 1 }

/-- The flush of an assigned task: only changed columns are in the UPDATE. -/
def Task.flush (loaded assigned : Task) (now : Instant) (current : Task) : Task :=
  { current with
    title := flushed loaded.title assigned.title current.title
    description := flushed loaded.description assigned.description current.description
    priority := flushed loaded.priority assigned.priority current.priority
    assigneeId := flushed loaded.assigneeId assigned.assigneeId current.assigneeId
    dueDate := flushed loaded.dueDate assigned.dueDate current.dueDate
    versionId := flushed loaded.versionId assigned.versionId current.versionId
    updatedAt := now }

namespace Endpoints

/-- `update_task` when the payload has a status. -/
def updateTaskStatus (ctx : TenantContext) (taskId : Uuid) (status : TaskStatus)
    (expectedVersion : Int) : Coro TaskResponse := do
  let updated ← TaskService.updateTaskStatusOcc ctx.organizationId taskId ctx.user.id status
    expectedVersion
  broadcastToRoom updated.projectId "TASK_UPDATED".toList
    [("task_id".toList, .str taskId.str), ("status".toList, .str updated.status.value),
      ("version_id".toList, .int updated.versionId)]
  pure (.ofTask updated)

/-- `update_task` when it has none. -/
def updateTaskFields (ctx : TenantContext) (taskId : Uuid) (payload : TaskUpdate) :
    Coro TaskResponse := do
  match ← getById .tasks ctx.organizationId taskId with
  | none => throw (.entityNotFound taskEntity taskId.str)
  | some (task : Task) =>
    if task.versionId ≠ payload.expectedVersion.val then
      throw (.entityConflict "Task was modified by another concurrent transaction.".toList)
    ask (.flushUpdate .tasks task.id (task.flush (payload.assign task)))
    ask .commit
    let task ← refresh .tasks task.id
    broadcastToRoom (Task.projectId task) "TASK_UPDATED".toList
      [("task_id".toList, .str taskId.str), ("title".toList, .str (Task.title task)),
        ("priority".toList, .str (Task.priority task).value),
        ("version_id".toList, .int (Task.versionId task))]
    pure (.ofTask task)

def updateTask (ctx : TenantContext) (taskId : Uuid) (payload : TaskUpdate) : Coro TaskResponse :=
  match payload.status with
  | some status => updateTaskStatus ctx taskId status payload.expectedVersion.val
  | none => updateTaskFields ctx taskId payload

def deleteTask (ctx : TenantContext) (taskId : Uuid) : Coro Unit := do
  match ← getById .tasks ctx.organizationId taskId with
  | none => throw (.entityNotFound taskEntity taskId.str)
  | some (task : Task) =>
    let success ← softDelete ctx.organizationId taskId
    if !success then throw (.entityNotFound taskEntity taskId.str)
    ask .commit
    broadcastToRoom task.projectId "TASK_DELETED".toList [("task_id".toList, .str taskId.str)]

/-- The answer of both comment endpoints: the caller as the author, and the task
of the path. -/
def commentAnswer (ctx : TenantContext) (taskId : Uuid) (comment : Comment) : CommentResponse :=
  { id := comment.id, organizationId := comment.organizationId, taskId,
    authorId := ctx.user.id, authorName := ctx.user.fullName,
    authorAvatarUrl := ctx.user.avatarUrl, content := comment.content,
    isEdited := comment.isEdited, createdAt := comment.createdAt }

/-- Broadcast to the room of the task's project, if the tenant has the task. -/
def broadcastForTask (ctx : TenantContext) (taskId : Uuid) (eventType : Str) (data : JsonObject) :
    Coro Unit := do
  match ← getById .tasks ctx.organizationId taskId with
  | none => pure ()
  | some (task : Task) => broadcastToRoom task.projectId eventType data

def createComment (ctx : TenantContext) (taskId : Uuid) (payload : CommentCreate) :
    Coro CommentResponse := do
  let comment ← CommentService.addComment ctx.organizationId taskId ctx.user.id payload
  broadcastForTask ctx taskId "COMMENT_ADDED".toList
    [("task_id".toList, .str taskId.str), ("comment_id".toList, .str comment.id.str),
      ("author".toList, .str ctx.user.fullName), ("content".toList, .str comment.content)]
  pure (commentAnswer ctx comment.taskId comment)

def listComments [Library] (ctx : TenantContext) (taskId : Uuid) (cursor : Option Str)
    (limit : PageSize) : Coro (CursorPageResponse CommentResponse) :=
  CommentService.listComments ctx.organizationId taskId cursor limit.val

def updateComment (ctx : TenantContext) (taskId commentId : Uuid) (payload : CommentUpdate) :
    Coro CommentResponse := do
  let comment ← CommentService.updateComment ctx.organizationId commentId ctx.user.id ctx.role
    payload
  broadcastForTask ctx taskId "COMMENT_UPDATED".toList
    [("task_id".toList, .str taskId.str), ("comment_id".toList, .str comment.id.str),
      ("content".toList, .str comment.content)]
  pure (commentAnswer ctx taskId comment)

def generateUploadUrl (ctx : TenantContext) (taskId : Uuid) (payload : PresignedUploadRequest) :
    Coro PresignedUploadResponse := do
  match ← getById .tasks ctx.organizationId taskId with
  | none => throw (.entityNotFound taskEntity taskId.str)
  | some _ =>
    let fileKey ← generateFileKey ctx.organizationId taskId payload.fileName.text
    let uploadUrl ← ask (.presignPut fileKey payload.contentType.text 300)
    pure ⟨uploadUrl, fileKey, 300⟩

end Endpoints

def newAttachment (organizationId taskId uploaderId : Uuid) (payload : AttachmentConfirmCreate)
    (id : Uuid) (now : Instant) : Attachment :=
  { id, organizationId, taskId, uploaderId, fileName := payload.fileName,
    fileSize := payload.fileSize, contentType := payload.contentType, s3Key := payload.s3Key,
    createdAt := now, updatedAt := now }

namespace Endpoints

def confirmAttachment (ctx : TenantContext) (taskId : Uuid) (payload : AttachmentConfirmCreate) :
    Coro AttachmentResponse := do
  match ← getById .tasks ctx.organizationId taskId with
  | none => throw (.entityNotFound taskEntity taskId.str)
  | some _ =>
    let attachment ← create .attachments
      (newAttachment ctx.organizationId taskId ctx.user.id payload)
    ask .commit
    let downloadUrl ← generatePresignedDownloadUrl (Attachment.s3Key attachment)
    pure (.ofAttachment attachment downloadUrl)

def listAttachments (ctx : TenantContext) (taskId : Uuid) : Coro (List AttachmentResponse) := do
  let attachments ← listByTask ctx.organizationId taskId
  forEach (fun a => do
    let downloadUrl ← generatePresignedDownloadUrl a.s3Key
    pure (AttachmentResponse.ofAttachment a downloadUrl)) attachments

def auditLogResponse (log : AuditLog) (actor : Option User) : AuditLogResponse :=
  { id := log.id, organizationId := log.organizationId, actorId := log.actorId,
    actorName := actor.map User.fullName, actorEmail := actor.map User.email,
    entityType := log.entityType, entityId := log.entityId, action := log.action,
    beforeState := log.beforeState, afterState := log.afterState, ipAddress := log.ipAddress,
    userAgent := log.userAgent, timestamp := log.timestamp }

def queryAuditLogs (ctx : TenantContext) (filters : AuditLogFilterParams) (page : Page)
    (pageSize : PageSize) : Coro (OffsetPageResponse AuditLogResponse) := do
  let offset := (page.val - 1) * pageSize.val
  let (items, total) ← listAuditLogs ctx.organizationId filters offset pageSize.val
  pure ⟨items.map fun (log, actor) => auditLogResponse log actor, total, page.val, pageSize.val,
    totalPages total pageSize.val⟩

def webSocketUser (token : Token) : Coro (Option Uuid) :=
  tryCatch (do
    let payload ← decodeJwtToken token
    if payload.type ≠ access then
      ask (.wsClose 1008)
      pure none
    else
      match payload.sub with
      | none => throw .valueError
      | some userId => pure (some userId))
    fun _ => do
      ask (.wsClose 1008)
      pure none

/-- Whether the user is a member of the project's organization; if not, the socket
is closed. -/
def webSocketAdmits (projectId userId : Uuid) : Coro Bool := do
  match ← sessionGet .projects projectId with
  | none =>
    ask (.wsClose 1008)
    pure false
  | some (project : Project) =>
    let membership ← getMembership project.organizationId userId
    if membership.isNone then
      ask (.wsClose 1008)
      pure false
    else pure true

/-- `while True: receive_text()` on what the client sends; the loop ends with an
exception only. -/
def receiveLoop : List Str → Coro Unit
  | [] => do
    let never ← ask .receiveEnd
    nomatch never
  | text :: texts => do
    ask (.receiveText text)
    receiveLoop texts

def projectRealtimeStream (projectId : Uuid) (token : Token) (texts : List Str) : Coro Unit := do
  match ← webSocketUser token with
  | none => pure ()
  | some userId =>
    let admitted ← withDbSession (webSocketAdmits projectId userId)
    if admitted then
      ask .wsAccept
      ask (.hubConnect projectId)
      tryCatch (receiveLoop texts) fun e =>
        if e = .webSocketDisconnect then ask (.hubDisconnect projectId) else throw e

end Endpoints

end MultiTenantSaas
