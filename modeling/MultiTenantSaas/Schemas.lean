import MultiTenantSaas.Models

/-!
What requests carry and what they are answered with. A payload exists only when
it has passed its schema, so the bounds of a field come with the value.
-/

set_option autoImplicit false

namespace MultiTenantSaas

/-- `Field(min_length=lo, max_length=hi)`. -/
structure Bounded (lo hi : Nat) where
  text : Str
  min : lo ≤ text.length
  max : text.length ≤ hi

structure Version where
  val : Int
  ge : 1 ≤ val

def Version.first : Version := ⟨1, by decide⟩

structure Page where
  val : Nat
  ge : 1 ≤ val

def Page.first : Page := ⟨1, by decide⟩

/-- `Query(ge=1, le=100)`. -/
structure PageSize where
  val : Nat
  ge : 1 ≤ val
  le : val ≤ 100

def PageSize.single : PageSize := ⟨1, by decide, by decide⟩

def PageSize.usual : PageSize := ⟨20, by decide, by decide⟩

/-- `Field(gt=0, le=52428800)`. -/
structure FileSize where
  val : Int
  gt : 0 < val
  le : val ≤ 52428800

/-- The claims of a token, where a claim may be missing. The subject is `some none`
when the claim is there but is not the text of a UUID; a missing audience is empty. -/
structure Claims where
  sub : Option (Option Uuid)
  jti : Option Str
  type : Option Str
  exp : Option Int
  iat : Option Int
  nbf : Option Int := none
  aud : List Str := []
  deriving DecidableEq

/-- A token string: its payload, and whether its signature was made with the
server's key. -/
structure Token where
  signed : Bool
  claims : Claims
  deriving DecidableEq

structure UserRegisterRequest where
  email : EmailStr
  password : Bounded 8 128
  fullName : Bounded 2 100
  organizationName : Option (Bounded 2 100)

structure UserLoginRequest where
  email : EmailStr
  password : Str

structure TokenResponse where
  accessToken : Token
  refreshToken : Token
  tokenType : Str := "bearer".toList
  expiresIn : Nat
  deriving DecidableEq

structure OrgMembershipOut where
  organizationId : Uuid
  organizationName : Str
  organizationSlug : Str
  role : OrgRole
  deriving DecidableEq

structure UserResponse where
  id : Uuid
  email : EmailStr
  fullName : Str
  avatarUrl : Option Str
  isActive : Bool
  isVerified : Bool
  createdAt : Instant
  memberships : List OrgMembershipOut
  deriving DecidableEq

structure OrganizationUpdate where
  name : Option (Bounded 2 100)
  logoUrl : Option Str

structure OrganizationResponse where
  id : Uuid
  name : Str
  slug : Str
  logoUrl : Option Str
  isActive : Bool
  createdAt : Instant
  deriving DecidableEq

structure OrgMemberInviteRequest where
  email : EmailStr
  role : OrgRole := .member

structure OrgMemberDetailResponse where
  id : Uuid
  userId : Uuid
  email : EmailStr
  fullName : Str
  avatarUrl : Option Str
  role : OrgRole
  joinedAt : Instant
  deriving DecidableEq

structure TeamCreate where
  name : Bounded 2 100
  slug : Bounded 2 100
  description : Option Str

structure TeamMemberAddRequest where
  userId : Uuid

structure TeamMemberResponse where
  id : Uuid
  userId : Uuid
  email : Str
  fullName : Str
  joinedAt : Instant
  deriving DecidableEq

structure TeamResponse where
  id : Uuid
  organizationId : Uuid
  name : Str
  slug : Str
  description : Option Str
  createdAt : Instant
  members : List TeamMemberResponse
  deriving DecidableEq

structure ProjectCreate where
  name : Bounded 2 100
  key : Bounded 2 10
  description : Option Str
  teamId : Option Uuid

structure ProjectUpdate where
  name : Option (Bounded 2 100)
  description : Option Str
  teamId : Option Uuid
  isArchived : Option Bool
  expectedVersion : Version

structure ProjectResponse where
  id : Uuid
  organizationId : Uuid
  teamId : Option Uuid
  name : Str
  key : Str
  description : Option Str
  isArchived : Bool
  versionId : Int
  createdAt : Instant
  deriving DecidableEq

structure TaskCreate where
  projectId : Uuid
  title : Bounded 1 255
  description : Option Str
  priority : TaskPriority := .medium
  assigneeId : Option Uuid
  parentId : Option Uuid
  dueDate : Option Instant

structure TaskUpdate where
  title : Option (Bounded 1 255)
  description : Option Str
  status : Option TaskStatus
  priority : Option TaskPriority
  assigneeId : Option Uuid
  dueDate : Option Instant
  expectedVersion : Version

structure TaskResponse where
  id : Uuid
  organizationId : Uuid
  projectId : Uuid
  parentId : Option Uuid
  reporterId : Uuid
  assigneeId : Option Uuid
  title : Str
  description : Option Str
  status : TaskStatus
  priority : TaskPriority
  dueDate : Option Instant
  versionId : Int
  createdAt : Instant
  updatedAt : Instant
  deriving DecidableEq

structure TaskFilterParams where
  projectId : Option Uuid
  status : Option TaskStatus
  priority : Option TaskPriority
  assigneeId : Option Uuid
  reporterId : Option Uuid
  search : Option Str
  sortBy : Str := "created_at:desc".toList

structure CommentCreate where
  content : Bounded 1 10000

structure CommentUpdate where
  content : Bounded 1 10000

structure CommentResponse where
  id : Uuid
  organizationId : Uuid
  taskId : Uuid
  authorId : Uuid
  authorName : Str
  authorAvatarUrl : Option Str
  content : Str
  isEdited : Bool
  createdAt : Instant
  deriving DecidableEq

structure PresignedUploadRequest where
  fileName : Bounded 1 255
  fileSize : FileSize
  contentType : Bounded 3 100

structure PresignedUploadResponse where
  uploadUrl : Str
  fileKey : Str
  expiresIn : Nat
  deriving DecidableEq

structure AttachmentConfirmCreate where
  fileName : Str
  fileSize : Int
  contentType : Str
  s3Key : Str

structure AttachmentResponse where
  id : Uuid
  organizationId : Uuid
  taskId : Uuid
  uploaderId : Uuid
  fileName : Str
  fileSize : Int
  contentType : Str
  downloadUrl : Option Str
  createdAt : Instant
  deriving DecidableEq

structure AuditLogFilterParams where
  entityType : Option Str
  entityId : Option Uuid
  actorId : Option Uuid
  action : Option AuditAction
  startDate : Option Instant
  endDate : Option Instant

structure AuditLogResponse where
  id : Uuid
  organizationId : Uuid
  actorId : Option Uuid
  actorName : Option Str
  actorEmail : Option Str
  entityType : Str
  entityId : Uuid
  action : AuditAction
  beforeState : Option JsonObject
  afterState : Option JsonObject
  ipAddress : Option Str
  userAgent : Option Str
  timestamp : Instant
  deriving DecidableEq

structure OffsetPageResponse (α : Type) where
  items : List α
  total : Nat
  page : Nat
  pageSize : Nat
  totalPages : Nat
  deriving DecidableEq

structure CursorPageResponse (α : Type) where
  items : List α
  nextCursor : Option Str
  hasMore : Bool
  deriving DecidableEq

structure RateLimitHeaders where
  limit : Nat
  remaining : Nat
  reset : Int
  deriving DecidableEq

def OrganizationResponse.ofOrganization (o : Organization) : OrganizationResponse :=
  ⟨o.id, o.name, o.slug, o.logoUrl, o.isActive, o.createdAt⟩

def ProjectResponse.ofProject (p : Project) : ProjectResponse :=
  ⟨p.id, p.organizationId, p.teamId, p.name, p.key, p.description, p.isArchived, p.versionId,
    p.createdAt⟩

def TaskResponse.ofTask (t : Task) : TaskResponse :=
  ⟨t.id, t.organizationId, t.projectId, t.parentId, t.reporterId, t.assigneeId, t.title,
    t.description, t.status, t.priority, t.dueDate, t.versionId, t.createdAt, t.updatedAt⟩

def AttachmentResponse.ofAttachment (a : Attachment) (downloadUrl : Str) : AttachmentResponse :=
  ⟨a.id, a.organizationId, a.taskId, a.uploaderId, a.fileName, a.fileSize, a.contentType,
    some downloadUrl, a.createdAt⟩

/-- The exceptions that leave a handler. `app` is `AppException` and its subclasses,
`http` is `HTTPException`; the rest come from the libraries. -/
inductive Exn where
  | app (message : Str) (statusCode : Nat) (title typeUri : Str)
  | http (statusCode : Nat) (detail : Str) (headers : List (Str × Str))
  | integrityError
  | dataError
  | staleDataError
  | multipleResultsFound
  | invalidRequestError
  | jwtError
  | valueError
  | attributeError
  /-- A model of pydantic whose fields are not valid. -/
  | validationError
  /-- The parameters of a call of S3 that botocore refuses. -/
  | paramValidationError
  | webSocketDisconnect
  /-- A failed call of PostgreSQL, Redis, S3 or a socket. -/
  | unavailable
  deriving DecidableEq

namespace Exn

def aboutBlank : Str := "about:blank".toList

def entityNotFound (entityName identifier : Str) : Exn :=
  .app (entityName ++ " with identifier '".toList ++ identifier ++ "' was not found.".toList) 404
    "Entity Not Found".toList "https://api.saas.platform/errors/not-found".toList

def entityConflict (message : Str) : Exn :=
  .app message 409 "Resource Conflict".toList "https://api.saas.platform/errors/conflict".toList

def forbiddenOperation (message : Str) : Exn :=
  .app message 403 "Forbidden Operation".toList
    "https://api.saas.platform/errors/forbidden".toList

/-- The status the exception handlers of the application answer with. -/
def status : Exn → Nat
  | .app _ statusCode _ _ => statusCode
  | .http statusCode _ _ => statusCode
  | _ => 500

end Exn

end MultiTenantSaas
