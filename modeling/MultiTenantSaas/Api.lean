import MultiTenantSaas.Endpoints

/-!
The whole application: every request, the coroutine that serves it, and the
system in which any number of them run interleaved.
-/

set_option autoImplicit false

namespace MultiTenantSaas

inductive TenantRequest where
  | getCurrentOrganization
  | updateCurrentOrganization (payload : OrganizationUpdate)
  | listOrganizationMembers
  | inviteMember (payload : OrgMemberInviteRequest)
  | createTeam (payload : TeamCreate)
  | listTeams
  | getTeam (teamId : Uuid)
  | addTeamMember (teamId : Uuid) (payload : TeamMemberAddRequest)
  | createProject (payload : ProjectCreate)
  | listProjects
  | getProject (projectId : Uuid)
  | updateProject (projectId : Uuid) (payload : ProjectUpdate)
  | createTask (payload : TaskCreate)
  | listTasksOffset (projectId : Option Uuid) (status : Option TaskStatus)
      (priority : Option TaskPriority) (assigneeId : Option Uuid) (search : Option Str)
      (sortBy : Str) (page : Page) (pageSize : PageSize)
  | listTasksFeed (projectId : Option Uuid) (status : Option TaskStatus) (cursor : Option Str)
      (limit : PageSize)
  | getTask (taskId : Uuid)
  | updateTask (taskId : Uuid) (payload : TaskUpdate)
  | deleteTask (taskId : Uuid)
  | createComment (taskId : Uuid) (payload : CommentCreate)
  | listComments (taskId : Uuid) (cursor : Option Str) (limit : PageSize)
  | updateComment (taskId commentId : Uuid) (payload : CommentUpdate)
  | generateUploadUrl (taskId : Uuid) (payload : PresignedUploadRequest)
  | confirmAttachment (taskId : Uuid) (payload : AttachmentConfirmCreate)
  | listAttachments (taskId : Uuid)
  | queryAuditLogs (filters : AuditLogFilterParams) (page : Page) (pageSize : PageSize)

/-- A request as it arrives: tenant requests carry a bearer token and the
`X-Organization-ID` header. `texts` is what the client sends over the socket. -/
inductive Request where
  | register (clientIp : Option Str) (payload : UserRegisterRequest)
  | login (clientIp : Option Str) (payload : UserLoginRequest)
  | refresh (refreshToken : Token)
  | logout (refreshToken : Token)
  | getMe (bearer : Token)
  | tenant (bearer : Token) (organizationId : Uuid) (request : TenantRequest)
  | webSocket (projectId : Uuid) (token : Token) (texts : List Str)

inductive Response where
  | tokens (headers : Option RateLimitHeaders) (tokens : TokenResponse)
  | profile (user : UserResponse)
  | noContent
  | organization (organization : OrganizationResponse)
  | member (member : OrgMemberDetailResponse)
  | members (members : List OrgMemberDetailResponse)
  | team (team : TeamResponse)
  | teams (teams : List TeamResponse)
  | project (project : ProjectResponse)
  | projects (projects : List ProjectResponse)
  | task (task : TaskResponse)
  | taskPage (page : OffsetPageResponse TaskResponse)
  | taskFeed (page : CursorPageResponse TaskResponse)
  | comment (comment : CommentResponse)
  | commentFeed (page : CursorPageResponse CommentResponse)
  | upload (upload : PresignedUploadResponse)
  | attachment (attachment : AttachmentResponse)
  | attachments (attachments : List AttachmentResponse)
  | auditPage (page : OffsetPageResponse AuditLogResponse)

def TenantRequest.minRole : TenantRequest → OrgRole
  | .getCurrentOrganization | .listOrganizationMembers | .listTeams | .getTeam _ => .viewer
  | .updateCurrentOrganization _ | .inviteMember _ | .queryAuditLogs _ _ _ => .admin
  | .createTeam _ | .addTeamMember _ _ | .createProject _ | .updateProject _ _ => .manager
  | .listProjects | .getProject _ | .getTask _ | .listTasksFeed _ _ _ _ => .viewer
  | .listTasksOffset _ _ _ _ _ _ _ _ | .listComments _ _ _ | .listAttachments _ => .viewer
  | .createTask _ | .updateTask _ _ | .deleteTask _ | .createComment _ _ => .member
  | .updateComment _ _ _ | .generateUploadUrl _ _ | .confirmAttachment _ _ => .member

def TenantRequest.endpoint [Library] (ctx : TenantContext) : TenantRequest → Coro Response
  | .getCurrentOrganization => do
    pure (.organization (← Endpoints.getCurrentOrganization ctx))
  | .updateCurrentOrganization payload => do
    pure (.organization (← Endpoints.updateCurrentOrganization ctx payload))
  | .listOrganizationMembers => do
    pure (.members (← Endpoints.listOrganizationMembers ctx))
  | .inviteMember payload => do
    pure (.member (← Endpoints.inviteMember ctx payload))
  | .createTeam payload => do
    pure (.team (← Endpoints.createTeam ctx payload))
  | .listTeams => do
    pure (.teams (← Endpoints.listTeams ctx))
  | .getTeam teamId => do
    pure (.team (← Endpoints.getTeam ctx teamId))
  | .addTeamMember teamId payload => do
    Endpoints.addTeamMember ctx teamId payload
    pure .noContent
  | .createProject payload => do
    pure (.project (← Endpoints.createProject ctx payload))
  | .listProjects => do
    pure (.projects (← Endpoints.listProjects ctx))
  | .getProject projectId => do
    pure (.project (← Endpoints.getProject ctx projectId))
  | .updateProject projectId payload => do
    pure (.project (← Endpoints.updateProject ctx projectId payload))
  | .createTask payload => do
    pure (.task (← Endpoints.createTask ctx payload))
  | .listTasksOffset projectId status priority assigneeId search sortBy page pageSize => do
    pure (.taskPage (← Endpoints.listTasksOffset ctx projectId status priority assigneeId search
      sortBy page pageSize))
  | .listTasksFeed projectId status cursor limit => do
    pure (.taskFeed (← Endpoints.listTasksFeed ctx projectId status cursor limit))
  | .getTask taskId => do
    pure (.task (← Endpoints.getTask ctx taskId))
  | .updateTask taskId payload => do
    pure (.task (← Endpoints.updateTask ctx taskId payload))
  | .deleteTask taskId => do
    Endpoints.deleteTask ctx taskId
    pure .noContent
  | .createComment taskId payload => do
    pure (.comment (← Endpoints.createComment ctx taskId payload))
  | .listComments taskId cursor limit => do
    pure (.commentFeed (← Endpoints.listComments ctx taskId cursor limit))
  | .updateComment taskId commentId payload => do
    pure (.comment (← Endpoints.updateComment ctx taskId commentId payload))
  | .generateUploadUrl taskId payload => do
    pure (.upload (← Endpoints.generateUploadUrl ctx taskId payload))
  | .confirmAttachment taskId payload => do
    pure (.attachment (← Endpoints.confirmAttachment ctx taskId payload))
  | .listAttachments taskId => do
    pure (.attachments (← Endpoints.listAttachments ctx taskId))
  | .queryAuditLogs filters page pageSize => do
    pure (.auditPage (← Endpoints.queryAuditLogs ctx filters page pageSize))

/-- A tenant request: the role guard, then the endpoint, in one session. -/
def TenantRequest.handle [Library] (bearer : Token) (organizationId : Uuid)
    (request : TenantRequest) : Coro Response :=
  withDbSession do
    let ctx ← requireRole request.minRole bearer organizationId
    request.endpoint ctx

def Request.handle [Library] : Request → Coro Response
  | .register clientIp payload => withDbSession do
    let headers ← rateLimiter 3 60 clientIp "/api/v1/auth/register".toList
    let tokens ← AuthService.register payload
    pure (.tokens (some headers) tokens)
  | .login clientIp payload => withDbSession do
    let headers ← rateLimiter 5 60 clientIp "/api/v1/auth/login".toList
    let tokens ← AuthService.authenticate payload.email.text payload.password
    pure (.tokens (some headers) tokens)
  | .refresh refreshToken => withDbSession do
    let tokens ← AuthService.refreshTokens refreshToken
    pure (.tokens none tokens)
  | .logout refreshToken => withDbSession do
    AuthService.logout refreshToken
    pure .noContent
  | .getMe bearer => withDbSession do
    let currentUser ← getCurrentUser bearer
    let profile ← AuthService.getUserProfile currentUser.id
    pure (.profile profile)
  | .tenant bearer organizationId request => request.handle bearer organizationId
  | .webSocket projectId token texts => do
    Endpoints.projectRealtimeStream projectId token texts
    pure .noContent

/-- The application: any number of requests, interleaved at every operation. -/
def app [Library] : Process.System sig Exn Response Request World :=
  { machine with code := Request.handle }

abbrev AppConfig := Process.Config sig Exn Response Request World

abbrev AppLabel := Process.Label sig Request

end MultiTenantSaas
