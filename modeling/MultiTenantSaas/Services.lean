import MultiTenantSaas.Security

/-!
The service layer: accounts and tokens, tasks, projects, comments and teams.
-/

set_option autoImplicit false

namespace MultiTenantSaas

def accessTokenExpireMinutes : Nat := 15

def refreshTokenExpireDays : Nat := 7

def isWord [Library] (c : Char) : Bool := c == '_' || Library.isAlnum c

/-- Each run of separators becomes one hyphen; `inRun` says that one was written. -/
def hyphenate (inRun : Bool) : Str → Str
  | [] => []
  | c :: cs =>
    if isSpace c || c == '_' || c == '-' then
      if inRun then hyphenate true cs else '-' :: hyphenate true cs
    else c :: hyphenate false cs

def slugify [Library] (text : Str) : Str :=
  hyphenate false ((strip (Library.lower text)).filter fun c => isWord c || isSpace c || c == '-')

def generateTokenPair (userId : Uuid) : Coro TokenResponse := do
  let accessToken ← createJwtToken userId access (accessTokenExpireMinutes * 60 * second)
  let refreshToken ← createJwtToken userId refreshType
    (refreshTokenExpireDays * 24 * 60 * 60 * second)
  pure { accessToken, refreshToken, expiresIn := accessTokenExpireMinutes * 60 }

def newUser [Library] (payload : UserRegisterRequest) (hashed : Str) (id : Uuid) (now : Instant) :
    User :=
  { id, email := normalizeEmail payload.email.text, hashedPassword := hashed,
    fullName := strip payload.fullName.text, avatarUrl := none, isActive := true,
    isVerified := false, createdAt := now, updatedAt := now }

def newOrganization (name slug : Str) (id : Uuid) (now : Instant) : Organization :=
  { id, name, slug, logoUrl := none, isActive := true, createdAt := now, updatedAt := now }

def newOrganizationMember (organizationId userId : Uuid) (role : OrgRole) (id : Uuid)
    (now : Instant) : OrganizationMember :=
  { id, organizationId, userId, role, createdAt := now, updatedAt := now }

def organizationName (payload : UserRegisterRequest) (user : User) : Str :=
  match payload.organizationName with
  | some name => name.text
  | none => user.fullName ++ "'s Workspace".toList

def AuthService.register [Library] (payload : UserRegisterRequest) : Coro TokenResponse :=
  transaction do
    let existingUser ← getByEmail payload.email.text
    if existingUser.isSome then
      throw (.entityConflict ("User with email '".toList ++ payload.email.text ++
        "' already exists.".toList))
    let hashed ← hashPassword payload.password.text
    let user ← create .users (newUser payload hashed)
    let orgName := organizationName payload user
    let baseSlug := slugify orgName
    let suffix ← ask .uuid4
    let org ← create .organizations
      (newOrganization orgName (baseSlug ++ '-' :: suffix.hexPrefix 6))
    let _ ← create .organizationMembers
      (newOrganizationMember (Organization.id org) (User.id user) .owner)
    generateTokenPair (User.id user)

def AuthService.authenticate [Library] (email password : Str) : Coro TokenResponse := do
  let invalid : Exn := .app "Invalid email or password credentials.".toList 401
    "Authentication Failed".toList "https://api.saas.platform/errors/invalid-credentials".toList
  match ← getByEmail email with
  | none => throw invalid
  | some user =>
    if !Library.verifyPassword password user.hashedPassword then throw invalid
    if !user.isActive then
      throw (.forbiddenOperation "This user account has been deactivated.".toList)
    generateTokenPair user.id

def invalidToken : Exn :=
  .app "Invalid or expired refresh token.".toList 401 "Invalid Token".toList Exn.aboutBlank

def invalidTokenType : Exn :=
  .app "Supplied token is not a refresh token.".toList 401 "Invalid Token Type".toList
    Exn.aboutBlank

def revokedToken : Exn :=
  .app "Refresh token has been revoked.".toList 401 "Revoked Token".toList Exn.aboutBlank

def inactiveAccount : Exn :=
  .app "User account is inactive or not found.".toList 401
    "Internal Application Error".toList Exn.aboutBlank

def AuthService.refreshTokens (refreshToken : Token) : Coro TokenResponse := do
  let payload ← tryCatch (decodeJwtToken refreshToken) fun e =>
    if e = .jwtError then throw invalidToken else throw e
  if payload.type ≠ refreshType then throw invalidTokenType
  if ← isTokenRevoked payload.jti then throw revokedToken
  match payload.sub with
  | none => throw .valueError
  | some userId =>
    match ← sessionGet .users userId with
    | none => throw inactiveAccount
    | some user =>
      if !User.isActive user then throw inactiveAccount
      revokeToken payload.jti (payload.exp * second)
      generateTokenPair (User.id user)

def AuthService.logout (refreshToken : Token) : Coro Unit :=
  tryCatch (do
    let payload ← decodeJwtToken refreshToken
    if payload.type = refreshType then revokeToken payload.jti (payload.exp * second))
    fun _ => pure ()

def AuthService.getUserProfile (userId : Uuid) : Coro UserResponse := do
  match ← sessionGet .users userId with
  | none =>
    throw (.app "User not found".toList 404 "Internal Application Error".toList Exn.aboutBlank)
  | some user =>
    let memberships ← ask (.select (joinedLoad .organizationMembers .organizations
      (fun (m : OrganizationMember) => some m.organizationId)
      fun (m : OrganizationMember) => m.userId = userId))
    let memberships ← requireJoined memberships
    let email ← ask (.validateEmail (User.email user))
    pure ⟨User.id user, email, User.fullName user, User.avatarUrl user,
      User.isActive user, User.isVerified user, User.createdAt user,
      memberships.map fun (m, o) =>
        ⟨OrganizationMember.organizationId m, Organization.name o, Organization.slug o,
          OrganizationMember.role m⟩⟩

def newTask (organizationId projectId reporterId : Uuid) (assigneeId : Option Uuid) (title : Str)
    (description : Option Str) (priority : TaskPriority) (id : Uuid) (now : Instant) : Task :=
  { id, organizationId, projectId, parentId := none, reporterId, assigneeId, title, description,
    status := .backlog, priority, dueDate := none, versionId := 1, createdAt := now,
    updatedAt := now, isDeleted := false, deletedAt := none }

def newAuditLog (organizationId : Uuid) (actorId : Option Uuid) (entityType : Str) (entityId : Uuid)
    (action : AuditAction) (beforeState afterState : Option JsonObject) (id : Uuid)
    (now : Instant) : AuditLog :=
  { id, organizationId, actorId, entityType, entityId, action, beforeState, afterState,
    ipAddress := none, userAgent := none, timestamp := now }

/-- `session.add(audit)`: the row is inserted when the commit flushes the session. -/
def addAuditLog (organizationId : Uuid) (actorId : Option Uuid) (entityType : Str)
    (entityId : Uuid) (action : AuditAction) (beforeState afterState : Option JsonObject) :
    Coro Unit := do
  let _ ← ask (.insert .auditLogs
    (newAuditLog organizationId actorId entityType entityId action beforeState afterState))

def taskEntity : Str := "Task".toList

def projectEntity : Str := "Project".toList

def Task.createdState (t : Task) : JsonObject :=
  [("title".toList, .str t.title), ("status".toList, .str t.status.value),
    ("priority".toList, .str t.priority.value)]

def Task.statusState (t : Task) : JsonObject :=
  [("status".toList, .str t.status.value), ("version_id".toList, .int t.versionId)]

def TaskService.createTask (organizationId projectId reporterId : Uuid) (title : Str)
    (description : Option Str) (priority : TaskPriority) (assigneeId : Option Uuid) : Coro Task :=
  transaction do
    let task ← create .tasks
      (newTask organizationId projectId reporterId assigneeId title description priority)
    addAuditLog organizationId (some reporterId) taskEntity (Task.id task) .create none
      (some (Task.createdState task))
    pure task

def statusCriteria (organizationId : Uuid) (expectedVersion : Int) (t : Task) : Bool :=
  t.organizationId = organizationId && t.versionId = expectedVersion && !t.isDeleted

def setStatus (newStatus : TaskStatus) (expectedVersion : Int) (t : Task) : Task :=
  { t with status := newStatus, versionId := expectedVersion + 1 }

def taskConflict (taskId : Uuid) (expectedVersion : Int) : Exn :=
  .entityConflict ("Conflict updating Task '".toList ++ taskId.str ++
    "'. Expected version ".toList ++
    intText expectedVersion ++
    ", but record was modified by another concurrent transaction.".toList)

def TaskService.updateTaskStatusOcc (organizationId taskId actorId : Uuid) (newStatus : TaskStatus)
    (expectedVersion : Int) : Coro Task :=
  transaction do
    match ← getById .tasks organizationId taskId with
    | none => throw (.entityNotFound taskEntity taskId.str)
    | some existing =>
      let matched ← ask (.updateWhere .tasks taskId (statusCriteria organizationId expectedVersion)
        fun now (t : Task) => { setStatus newStatus expectedVersion t with updatedAt := now })
      if matched.isNone then throw (taskConflict taskId expectedVersion)
      -- RETURNING gives the object that the session holds. Its attributes are set in
      -- memory only when the object itself meets the criteria.
      let updated := if statusCriteria organizationId expectedVersion existing then
        setStatus newStatus expectedVersion existing else existing
      addAuditLog organizationId (some actorId) taskEntity (Task.id updated) .update
        (some (Task.statusState existing)) (some (Task.statusState updated))
      pure updated

def newProject [Library] (organizationId : Uuid) (payload : ProjectCreate) (id : Uuid)
    (now : Instant) : Project :=
  { id, organizationId, teamId := payload.teamId, name := strip payload.name.text,
    key := strip (Library.upper payload.key.text), description := payload.description,
    isArchived := false, versionId := 1, createdAt := now, updatedAt := now }

def Project.createdState (p : Project) : JsonObject :=
  [("name".toList, .str p.name), ("key".toList, .str p.key)]

def Project.state (p : Project) : JsonObject :=
  [("name".toList, .str p.name), ("description".toList, .ofOption p.description),
    ("is_archived".toList, .bool p.isArchived), ("version_id".toList, .int p.versionId)]

def ProjectService.createProject [Library] (organizationId : Uuid) (payload : ProjectCreate)
    (actorId : Option Uuid) : Coro Project :=
  transaction do
    let cleanKey := strip (Library.upper payload.key.text)
    let existing ← getByKey organizationId cleanKey
    if existing.isSome then
      throw (.entityConflict ("Project with key '".toList ++ cleanKey ++
        "' already exists in this organization.".toList))
    let project ← create .projects (newProject organizationId payload)
    addAuditLog organizationId actorId projectEntity (Project.id project) .create none
      (some (Project.createdState project))
    pure project

def ProjectUpdate.assign (payload : ProjectUpdate) (p : Project) : Project :=
  { p with
    name := (payload.name.map fun n => strip n.text).getD p.name
    description := payload.description.or p.description
    teamId := payload.teamId.or p.teamId
    isArchived := payload.isArchived.getD p.isArchived
    versionId := p.versionId + 1 }

/-- The value a flush writes: that of the object if it differs from the loaded one. -/
def flushed {α : Type} [DecidableEq α] (loaded assigned current : α) : α :=
  if assigned = loaded then current else assigned

@[simp] theorem flushed_self {α : Type} [DecidableEq α] (loaded assigned : α) :
    flushed loaded assigned loaded = assigned := by
  unfold flushed
  split
  · next h => exact h.symm
  · rfl

/-- The flush of an assigned project: only changed columns are in the UPDATE. -/
def Project.flush (loaded assigned : Project) (now : Instant) (current : Project) : Project :=
  { current with
    name := flushed loaded.name assigned.name current.name
    description := flushed loaded.description assigned.description current.description
    teamId := flushed loaded.teamId assigned.teamId current.teamId
    isArchived := flushed loaded.isArchived assigned.isArchived current.isArchived
    versionId := flushed loaded.versionId assigned.versionId current.versionId
    updatedAt := now }

def projectConflict (projectId : Uuid) (expectedVersion currentVersion : Int) : Exn :=
  .entityConflict ("Conflict updating Project '".toList ++ projectId.str ++
    "'. Expected version ".toList ++ intText expectedVersion ++
    ", but record was modified by another concurrent transaction (current version: ".toList ++
    intText currentVersion ++ ").".toList)

def ProjectService.updateProject (organizationId projectId : Uuid) (payload : ProjectUpdate)
    (actorId : Option Uuid) : Coro Project :=
  transaction do
    match ← getById .projects organizationId projectId with
    | none => throw (.entityNotFound projectEntity projectId.str)
    | some (project : Project) =>
      if project.versionId ≠ payload.expectedVersion.val then
        throw (projectConflict projectId payload.expectedVersion.val project.versionId)
      let assigned := payload.assign project
      ask (.flushUpdate .projects project.id (project.flush assigned))
      addAuditLog organizationId actorId projectEntity project.id .update
        (some project.state) (some assigned.state)
      pure assigned

def newComment (organizationId taskId authorId : Uuid) (content : Str) (id : Uuid)
    (now : Instant) : Comment :=
  { id, organizationId, taskId, authorId, content, isEdited := false, createdAt := now,
    updatedAt := now }

def CommentService.addComment (organizationId taskId authorId : Uuid) (payload : CommentCreate) :
    Coro Comment :=
  transaction do
    match ← getById .tasks organizationId taskId with
    | none => throw (.entityNotFound taskEntity taskId.str)
    | some _ =>
      create .comments (newComment organizationId taskId authorId (strip payload.content.text))

def encodeCursor [Library] (createdAt : Instant) (entityId : Uuid) : Str :=
  Library.urlsafeB64encode (Library.dumpPair ("ts".toList, Library.isoformat createdAt)
    ("id".toList, entityId.str))

def decodeCursor [Library] (cursor : Str) : Option (Instant × Uuid) := do
  let raw ← Library.urlsafeB64decode cursor
  let payload ← Library.loadTexts raw
  let ts ← payload.lookup "ts".toList
  let ts ← Library.fromisoformat ts
  let id ← payload.lookup "id".toList
  let id ← Library.parseUuid id
  pure (ts.1, id)

def cursorData [Library] (cursor : Option Str) : Option (Instant × Uuid) :=
  cursor.bind fun c => if c.isEmpty then none else decodeCursor c

def CommentResponse.ofComment (c : Comment) (author : Option User) : CommentResponse :=
  { id := c.id, organizationId := c.organizationId, taskId := c.taskId, authorId := c.authorId,
    authorName := match author with
      | some u => u.fullName
      | none => "Unknown".toList
    authorAvatarUrl := author.bind User.avatarUrl
    content := c.content, isEdited := c.isEdited, createdAt := c.createdAt }

def CommentService.listComments [Library] (organizationId taskId : Uuid) (cursor : Option Str)
    (limit : Nat) : Coro (CursorPageResponse CommentResponse) := do
  let (items, hasMore) ← listCommentsCursor organizationId taskId (cursorData cursor) limit
  let nextCursor :=
    if hasMore then items.getLast?.map fun (c, _) => encodeCursor c.createdAt c.id else none
  pure ⟨items.map fun (c, author) => .ofComment c author, nextCursor, hasMore⟩

def Comment.flush (loaded : Comment) (content : Str) (now : Instant) (current : Comment) :
    Comment :=
  { current with
    content := flushed loaded.content content current.content
    isEdited := flushed loaded.isEdited true current.isEdited
    updatedAt := now }

def CommentService.updateComment (organizationId commentId userId : Uuid) (userRole : OrgRole)
    (payload : CommentUpdate) : Coro Comment :=
  transaction do
    match ← getById .comments organizationId commentId with
    | none => throw (.entityNotFound "Comment".toList commentId.str)
    | some (comment : Comment) =>
      if comment.authorId ≠ userId ∧ userRole ≠ .admin ∧ userRole ≠ .owner then
        throw (.forbiddenOperation "You are not allowed to edit this comment.".toList)
      let content := strip payload.content.text
      -- a flush without changes emits no statement
      if comment.content ≠ content ∨ comment.isEdited ≠ true then
        ask (.flushUpdate .comments comment.id (comment.flush content))
      pure { comment with content, isEdited := true }

def newTeam [Library] (organizationId : Uuid) (payload : TeamCreate) (id : Uuid) (now : Instant) :
    Team :=
  { id, organizationId, name := strip payload.name.text,
    slug := strip (Library.lower payload.slug.text), description := payload.description,
    createdAt := now, updatedAt := now }

def newTeamMember (organizationId teamId userId : Uuid) (id : Uuid) (now : Instant) : TeamMember :=
  { id, organizationId, teamId, userId, createdAt := now, updatedAt := now }

def TeamService.createTeam [Library] (organizationId : Uuid) (payload : TeamCreate) : Coro Team :=
  transaction (create .teams (newTeam organizationId payload))

/-- `session.get` of a user: the caller is already loaded in the session. -/
def sessionGetUser (caller : User) (userId : Uuid) : Coro (Option User) :=
  if userId = caller.id then pure (some caller) else sessionGet .users userId

def TeamService.addMember (organizationId : Uuid) (caller : User) (teamId userId : Uuid) :
    Coro Unit :=
  transaction do
    match ← getById .teams organizationId teamId with
    | none => throw (.entityNotFound "Team".toList teamId.str)
    | some _ =>
      match ← sessionGetUser caller userId with
      | none => throw (.entityNotFound "User".toList userId.str)
      | some _ =>
        let _ ← ask (.insert .teamMembers (newTeamMember organizationId teamId userId))

def TeamService.getTeamDetail (organizationId teamId : Uuid) : Coro TeamResponse := do
  match ← getTeamWithMembers organizationId teamId with
  | none => throw (.entityNotFound "Team".toList teamId.str)
  | some (team, members) =>
    let members ← requireJoined members
    pure ⟨team.id, team.organizationId, team.name, team.slug, team.description, team.createdAt,
      members.map fun (m, u) => ⟨m.id, m.userId, u.email, u.fullName, m.createdAt⟩⟩

end MultiTenantSaas
