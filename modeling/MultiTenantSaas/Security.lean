import MultiTenantSaas.Repositories

/-!
Tokens: signing, decoding and revocation, the rate limiter, and the dependencies
that admit a request.
-/

set_option autoImplicit false

namespace MultiTenantSaas

structure TokenPayload where
  sub : Option Uuid
  jti : Str
  type : Str
  exp : Int
  iat : Option Int
  nbf : Option Int
  deriving DecidableEq

/-- The payload of a token with a valid signature, the claims `exp`, `sub`, `jti` and
`type`, and no audience. -/
def Token.payload (token : Token) : Option TokenPayload :=
  if token.signed && token.claims.aud.isEmpty then
    match token.claims.sub, token.claims.jti, token.claims.type, token.claims.exp with
    | some sub, some jti, some type, some exp =>
      some ⟨sub, jti, type, exp, token.claims.iat, token.claims.nbf⟩
    | _, _, _, _ => none
  else none

/-- The times that PyJWT compares: `iat` and `nbf` are not to come, and `exp` is. -/
def TokenPayload.Timely (payload : TokenPayload) (now : Instant) : Prop :=
  (∀ iat ∈ payload.iat, iat * second ≤ now) ∧ (∀ nbf ∈ payload.nbf, nbf * second ≤ now) ∧
    now < payload.exp * second

instance (payload : TokenPayload) (now : Instant) : Decidable (payload.Timely now) :=
  inferInstanceAs (Decidable (_ ∧ _ ∧ _))

theorem TokenPayload.Timely.later {payload : TokenPayload} {t t' : Instant}
    (h : payload.Timely t) (hle : t ≤ t') (hexp : t' < payload.exp * second) : payload.Timely t' :=
  ⟨fun iat hiat => (h.1 iat hiat).trans hle, fun nbf hnbf => (h.2.1 nbf hnbf).trans hle, hexp⟩

def decodeJwtToken (token : Token) : Coro TokenPayload := do
  match token.payload with
  | none => throw .jwtError
  | some payload =>
    let now ← ask .clock
    if payload.Timely now then pure payload else throw .jwtError

/-- `create_jwt_token`; the encoder writes times in whole seconds. -/
def createJwtToken (subject : Uuid) (tokenType : Str) (expiresDelta : Int) : Coro Token := do
  let jti ← ask .uuid4
  let now ← ask .clock
  let issued ← ask .clock
  pure ⟨true, { sub := some (some subject), jti := some jti.str, type := some tokenType,
                exp := some ((now + expiresDelta) / second), iat := some (issued / second) }⟩

def hashPassword [Library] (password : Str) : Coro Str := do
  let salt ← ask .uuid4
  pure (Library.hashPassword salt password)

def blacklistKey (jti : Str) : Str := "token_blacklist:".toList ++ jti

/-- `int((expires_at - now).total_seconds())`: towards zero. -/
def remainingSeconds (expiresAt now : Instant) : Int := (expiresAt - now).tdiv second

def revokeToken (jti : Str) (expiresAt : Instant) : Coro Unit := do
  let now ← ask .clock
  let ttl := remainingSeconds expiresAt now
  if 0 < ttl then ask (.redisSet (blacklistKey jti) .revoked ttl) else pure ()

def isTokenRevoked (jti : Str) : Coro Bool := ask (.redisExists (blacklistKey jti))

def rateLimiter (requestsPerWindow windowSeconds : Nat) (clientIp : Option Str) (path : Str) :
    Coro RateLimitHeaders := do
  let currentTs ← ask .clock
  let windowStart := currentTs - windowSeconds * second
  let identifier := "rate_limit:".toList ++ clientIp.getD "unknown".toList ++ ":".toList ++ path
  let perf ← ask .perfCounter
  let requestCount ← ask (.slidingWindow identifier (currentTs, perf) windowStart currentTs
    windowSeconds)
  let remaining := requestsPerWindow - requestCount
  let resetTime := (currentTs + windowSeconds * second) / second
  if requestsPerWindow < requestCount then
    throw (.http 429
      ("Rate limit exceeded. Maximum ".toList ++ natText requestsPerWindow ++
        " requests per ".toList ++ natText windowSeconds ++ " seconds allowed.".toList)
      [("Retry-After".toList, natText windowSeconds),
        ("X-RateLimit-Limit".toList, natText requestsPerWindow),
        ("X-RateLimit-Remaining".toList, "0".toList),
        ("X-RateLimit-Reset".toList, intText resetTime)])
  else pure ⟨requestsPerWindow, remaining, resetTime⟩

def access : Str := "access".toList

def refreshType : Str := "refresh".toList

def credentialsException : Exn :=
  .http 401 "Could not validate authentication credentials".toList
    [("WWW-Authenticate".toList, "Bearer".toList)]

def inactiveUser : Exn := .http 401 "User account is inactive or not found".toList []

/-- `except (jwt.PyJWTError, ValueError, KeyError): raise credentials_exception`. -/
def orCredentialsException {α : Type} (body : Coro α) : Coro α :=
  tryCatch body fun e =>
    if e = .jwtError ∨ e = .valueError then throw credentialsException else throw e

def accessSubject (bearer : Token) : Coro Uuid := do
  let payload ← decodeJwtToken bearer
  if payload.type ≠ access then throw credentialsException
  match payload.sub with
  | none => throw .valueError
  | some userId => pure userId

def getCurrentUser (bearer : Token) : Coro User := do
  let userId ← orCredentialsException (accessSubject bearer)
  match ← sessionGet .users userId with
  | none => throw inactiveUser
  | some user => if User.isActive user then pure user else throw inactiveUser

def OrgRole.level : OrgRole → Nat
  | .viewer => 1
  | .member => 2
  | .manager => 3
  | .admin => 4
  | .owner => 5

structure TenantContext where
  user : User
  organizationId : Uuid
  role : OrgRole

def notAMember : Exn := .http 403 "You are not a member of the requested organization.".toList []

def insufficientRole (minRole : OrgRole) : Exn :=
  .http 403 ("Insufficient permissions. Requires '".toList ++ minRole.value ++
    "' role or higher.".toList) []

/-- `RequireRole(min_role)` on the bearer token and the `X-Organization-ID` header. -/
def requireRole (minRole : OrgRole) (bearer : Token) (xOrganizationId : Uuid) :
    Coro TenantContext := do
  let currentUser ← getCurrentUser bearer
  match ← getMembership xOrganizationId currentUser.id with
  | none => throw notAMember
  | some membership =>
    if membership.role.level < minRole.level then throw (insufficientRole minRole)
    else pure ⟨currentUser, xOrganizationId, membership.role⟩

end MultiTenantSaas
