import MultiTenantSaas.Conflicts
import MultiTenantSaas.Readers

/-!
The errors that each request may be answered with. What a request refuses of its own accord
is listed; it fails otherwise only when a service that it needs is down, or when it writes.
-/

set_option autoImplicit false

namespace MultiTenantSaas

open Process

def tooManyRequests (requestsPerWindow windowSeconds : Nat) (resetTime : Int) : Exn :=
  .http 429
    ("Rate limit exceeded. Maximum ".toList ++ natText requestsPerWindow ++
      " requests per ".toList ++ natText windowSeconds ++ " seconds allowed.".toList)
    [("Retry-After".toList, natText windowSeconds),
      ("X-RateLimit-Limit".toList, natText requestsPerWindow),
      ("X-RateLimit-Remaining".toList, "0".toList),
      ("X-RateLimit-Reset".toList, intText resetTime)]

def invalidCredentials : Exn :=
  .app "Invalid email or password credentials.".toList 401
    "Authentication Failed".toList "https://api.saas.platform/errors/invalid-credentials".toList

def deactivatedAccount : Exn :=
  .forbiddenOperation "This user account has been deactivated.".toList

def userNotFound : Exn :=
  .app "User not found".toList 404 "Internal Application Error".toList Exn.aboutBlank

def fieldConflict : Exn :=
  .entityConflict "Task was modified by another concurrent transaction.".toList

def teamEntity : Str := "Team".toList

def guardRefusals (minRole : OrgRole) : List Exn :=
  [credentialsException, inactiveUser, notAMember, insufficientRole minRole]

/-- What the endpoint of a tenant request refuses with. -/
def TenantRequest.Refuses [Library] (o : Uuid) : TenantRequest → Exn → Prop
  | .getCurrentOrganization, e | .updateCurrentOrganization _, e =>
    e = .entityNotFound Endpoints.organizationEntity o.str
  | .inviteMember payload, e => e = .entityNotFound "User".toList payload.email.text ∨
    e = .entityConflict "User is already a member of this organization.".toList
  | .createTeam _, e | .listTeams, e => ∃ teamId : Uuid, e = .entityNotFound teamEntity teamId.str
  | .getTeam teamId, e => e = .entityNotFound teamEntity teamId.str
  | .addTeamMember teamId payload, e => e = .entityNotFound teamEntity teamId.str ∨
    e = .entityNotFound "User".toList payload.userId.str
  | .createProject payload, e => e = .entityConflict ("Project with key '".toList ++
    strip (Library.upper payload.key.text) ++ "' already exists in this organization.".toList)
  | .getProject projectId, e => e = .entityNotFound projectEntity projectId.str
  | .updateProject projectId payload, e => e = .entityNotFound projectEntity projectId.str ∨
    ∃ currentVersion, e = projectConflict projectId payload.expectedVersion.val currentVersion
  | .getTask taskId, e | .deleteTask taskId, e | .createComment taskId _, e
  | .generateUploadUrl taskId _, e | .confirmAttachment taskId _, e =>
    e = .entityNotFound taskEntity taskId.str
  | .updateTask taskId payload, e => e = .entityNotFound taskEntity taskId.str ∨
    (payload.status.isSome = true ∧ e = taskConflict taskId payload.expectedVersion.val) ∨
    (payload.status = none ∧ e = fieldConflict)
  | .updateComment _ commentId _, e => e = .entityNotFound "Comment".toList commentId.str ∨
    e = .forbiddenOperation "You are not allowed to edit this comment.".toList
  | _, _ => False

def Request.Refuses [Library] : Request → Exn → Prop
  | .register _ payload, e => (∃ resetTime, e = tooManyRequests 3 60 resetTime) ∨
    e = .entityConflict ("User with email '".toList ++ payload.email.text ++
      "' already exists.".toList)
  | .login _ _, e => (∃ resetTime, e = tooManyRequests 5 60 resetTime) ∨
    e = invalidCredentials ∨ e = deactivatedAccount
  | .refresh _, e => e ∈ [invalidToken, invalidTokenType, revokedToken, inactiveAccount]
  | .getMe _, e => e ∈ [credentialsException, inactiveUser, userNotFound]
  | .tenant _ o q, e => e ∈ guardRefusals q.minRole ∨ q.Refuses o e
  | _, _ => False

def TenantRequest.stores : TenantRequest → Bool
  | .generateUploadUrl _ _ | .confirmAttachment _ _ | .listAttachments _ => true
  | _ => false

def TenantRequest.needs (faults : Faults) (q : TenantRequest) : Bool :=
  faults.database || (q.stores && faults.storage)

/-- A service that the request needs may fail. A logout needs none; a failure of the cache,
the queue or the rooms is not passed on. -/
def Request.needs (faults : Faults) : Request → Bool
  | .register _ _ | .login _ _ | .refresh _ => faults.database || faults.redis
  | .logout _ => false
  | .getMe _ => faults.database
  | .tenant _ _ q => q.needs faults
  | .webSocket _ _ _ => true

def Exn.OfWrite (e : Exn) : Prop :=
  e ∈ [.integrityError, .dataError, .staleDataError, .invalidRequestError]

def TenantRequest.arguments [Library] : TenantRequest → List Argument
  | .listTasksOffset projectId status priority assigneeId search sortBy page pageSize =>
    TaskFilterParams.arguments ⟨projectId, status, priority, assigneeId, none, search, sortBy⟩ ++
      [.bigint ((page.val - 1) * pageSize.val : Nat), .bigint pageSize.val]
  | .queryAuditLogs filters page pageSize =>
    filters.arguments ++ [.bigint ((page.val - 1) * pageSize.val : Nat), .bigint pageSize.val]
  | .listTasksFeed _ _ cursor _ | .listComments _ cursor _ => cursorArguments (cursorData cursor)
  | _ => []

/-- A request may stumble over what it asks for or what it has read: an argument that the
database does not take, an attachment without a key, an address that `EmailStr` refuses. -/
def TenantRequest.Stumbles [Library] (q : TenantRequest) (e : Exn) : Prop :=
  (e = .dataError ∧ q.arguments.all Argument.encodes = false) ∨
    match q with
    | .confirmAttachment _ _ | .listAttachments _ => e = .paramValidationError
    | .listOrganizationMembers | .inviteMember _ =>
      e = .validationError ∧ ∃ email, Library.validateEmail email = none
    | _ => False

def Request.Stumbles [Library] : Request → Exn → Prop
  | .getMe _, e => e = .validationError ∧ ∃ email, Library.validateEmail email = none
  | .tenant _ _ q, e => q.Stumbles e
  | _, _ => False

/-- How else a request may fail: a service that it needs is down, a statement of it is
refused, it stumbles over its data, or a refresh token has a subject that is no id. -/
def Request.Fails [Library] (faults : Faults) (r : Request) (e : Exn) : Prop :=
  (e = .unavailable ∧ r.needs faults = true) ∨ (r.Commits ∧ e.OfWrite) ∨ r.Stumbles e ∨
    ∃ token payload, r = .refresh token ∧ token.payload = some payload ∧ payload.sub = none ∧
      e = .valueError

def Exn.Lost (faulty : Bool) (e : Exn) : Prop := faulty = true ∧ e = .unavailable

def Op.Fails [Library] (faults : Faults) : Op → Exn → Prop
  | .select _, e | .commit, e => e.Lost faults.database
  | .insert _ _, e | .updateWhere _ _ _ _, e | .flushUpdate _ _ _, e =>
    e.Lost faults.database ∨ e.OfWrite
  | .redisGet _, e | .redisSet _ _ _, e | .redisExists _, e | .redisDelete _, e
  | .slidingWindow _ _ _ _ _, e | .publish _ _ _, e | .enqueue _ _, e => e.Lost faults.redis
  | .presignPut _ _ _, e => e.Lost faults.storage
  | .presignGet key _, e => e.Lost faults.storage ∨ (e = .paramValidationError ∧ key = [])
  | .validateEmail email, e => e = .validationError ∧ Library.validateEmail email = none
  | .wsAccept, e | .wsClose _, e => e.Lost faults.sockets
  | .receiveText _, e | .receiveEnd, e => e = .webSocketDisconnect ∨ e = .unavailable
  | _, _ => False

section Rules

variable [Library] {faults : Faults} {α β : Type} {E : Exn → Prop}

theorem replies_fails {o : Op} {a : Except Exn o.Resp} {e : Exn} (h : Replies faults o a)
    (ha : a = .error e) : o.Fails faults e := by
  obtain ⟨i, w, w', -, rfl, he⟩ := h
  subst ha
  cases o <;> simp only [exec, failed] at he <;> simp only [Op.Fails, Exn.Lost]
  case insert t values =>
    rcases he with ⟨id, -, h⟩ | ⟨-, hfaulty, he⟩
    · rcases insert_error h with ⟨rfl, -⟩ | rfl <;> simp [Exn.OfWrite]
    · cases he
      exact Or.inl ⟨hfaulty, rfl⟩
  case updateWhere =>
    rcases he with h | ⟨-, hfaulty, he⟩
    · rcases update_error h with rfl | rfl <;> simp [Exn.OfWrite]
    · cases he
      exact Or.inl ⟨hfaulty, rfl⟩
  case flushUpdate =>
    rcases he with h | ⟨-, hfaulty, he⟩
    · rcases flushUpdate_error h with rfl | rfl | rfl <;> simp [Exn.OfWrite]
    · cases he
      exact Or.inl ⟨hfaulty, rfl⟩
  all_goals
    simp only [Except.error.injEq, reduceCtorEq, false_and, and_false, exists_false, false_or]
      at he
  case receiveText | receiveEnd => exact he.2
  case presignGet => exact he.2.elim (fun h => Or.inr ⟨h.2, h.1⟩) fun h => Or.inl h
  case validateEmail => exact ⟨he.2.2, he.2.1⟩
  all_goals exact ⟨he.2.1, he.2.2⟩

theorem raises_call {o : Op} (h : ∀ e, o.Fails faults e → E e) :
    Raises (Replies faults) E (ask o) :=
  raises_ask fun _ ha _ he => h _ (replies_fails ha he)

theorem raises_still {o : Op} (h : ∀ e, ¬ o.Fails faults e) : Raises (Replies faults) E (ask o) :=
  raises_call fun e he => absurd he (h e)

theorem raises_when {b : Prop} [Decidable b] {p : Coro PUnit} {q : Coro α}
    (hp : Raises (Replies faults) E p) (hq : Raises (Replies faults) E q) :
    Raises (Replies faults) E (if b then p >>= fun _ => q else q) :=
  raises_ite (raises_bind hp fun _ => hq) hq

theorem raises_unless {b : Prop} [Decidable b] {e : Exn} {q : Coro α} (he : E e)
    (hq : Raises (Replies faults) E q) :
    Raises (Replies faults) E (if b then (throw e : Coro PUnit) >>= fun _ => q else q) :=
  raises_when (raises_throw he) hq

/-- A lookup, and what comes after it with a row and without one. -/
theorem raises_found {p : Coro (Option α)} {f : Option α → Coro β}
    (hp : Raises (Replies faults) E p) (hnone : Raises (Replies faults) E (f none))
    (hsome : ∀ a, Raises (Replies faults) E (f (some a))) : Raises (Replies faults) E (p >>= f) :=
  raises_bind hp fun found => by
    cases found with
    | none => exact hnone
    | some a => exact hsome a

theorem raises_any (p : Coro α) : Raises (Replies faults) (fun _ => True) p :=
  (Prog.ends_any p).mono fun _ _ _ _ => trivial

theorem raises_orDefault {d : α} {p : Coro α} : Raises (Replies faults) E (orDefault d p) :=
  raises_tryCatch (raises_any p) fun _ _ => raises_pure

theorem raises_sessionGet (hdown : ∀ e : Exn, e.Lost faults.database → E e) (t : Table)
    (id : Uuid) : Raises (Replies faults) E (sessionGet t id) :=
  raises_lookup hdown fun w i _ => by
    rw [rowsWhere_id]
    cases (w.view i).get t id <;> simp

theorem raises_getByEmail (hdown : ∀ e : Exn, e.Lost faults.database → E e) (email : Str) :
    Raises (Replies faults) E (getByEmail email) :=
  raises_lookup hdown fun w i hw => length_valued_le (hw.distinct.views i)
    (k := .userEmail (normalizeEmail email)) fun u hu => by
      simp only [decide_eq_true_eq] at hu
      simp [Table.uniqueKey, hu]

theorem raises_refresh (hdown : ∀ e : Exn, e.Lost faults.database → E e)
    (hwrite : ∀ e : Exn, e.OfWrite → E e) (t : Table) (id : Uuid) :
    Raises (Replies faults) E (refresh t id) :=
  raises_bind (raises_sessionGet hdown t id) fun row => by
    cases row with
    | none => exact raises_throw (hwrite _ (by simp [Exn.OfWrite]))
    | some row => exact raises_pure

theorem raises_insert (hdown : ∀ e : Exn, e.Lost faults.database → E e)
    (hwrite : ∀ e : Exn, e.OfWrite → E e) (t : Table) (values : Uuid → Instant → t.Row) :
    Raises (Replies faults) E (ask (.insert t values)) :=
  raises_call fun e he => he.elim (hdown e) (hwrite e)

theorem raises_create (hdown : ∀ e : Exn, e.Lost faults.database → E e)
    (hwrite : ∀ e : Exn, e.OfWrite → E e) (t : Table) (values : Uuid → Instant → t.Row) :
    Raises (Replies faults) E (create t values) :=
  raises_bind (raises_insert hdown hwrite t values) fun _ => raises_refresh hdown hwrite t _

theorem raises_flushUpdate (hdown : ∀ e : Exn, e.Lost faults.database → E e)
    (hwrite : ∀ e : Exn, e.OfWrite → E e) (t : Table) (id : Uuid)
    (set : Instant → t.Row → t.Row) : Raises (Replies faults) E (ask (.flushUpdate t id set)) :=
  raises_call fun e he => he.elim (hdown e) (hwrite e)

theorem raises_unit (hdown : ∀ e : Exn, e.Lost faults.database → E e) {p : Coro α}
    (hp : Raises (Replies faults) E p) : Raises (Replies faults) E (transaction p) :=
  raises_transaction (replies_commit hdown) replies_rollback hp

theorem raises_addAuditLog (hdown : ∀ e : Exn, e.Lost faults.database → E e)
    (hwrite : ∀ e : Exn, e.OfWrite → E e) (o : Uuid) (actorId : Option Uuid) (entityType : Str)
    (entityId : Uuid) (action : AuditAction) (beforeState afterState : Option JsonObject) :
    Raises (Replies faults) E
      (addAuditLog o actorId entityType entityId action beforeState afterState) :=
  raises_bind (raises_insert hdown hwrite _ _) fun _ => raises_pure

theorem raises_createJwtToken (userId : Uuid) (tokenType : Str) (delta : Int) :
    Raises (Replies faults) E (createJwtToken userId tokenType delta) :=
  raises_bind (raises_still fun _ h => h) fun _ => raises_bind (raises_still fun _ h => h)
    fun _ => raises_bind (raises_still fun _ h => h) fun _ => raises_pure

theorem raises_generateTokenPair (userId : Uuid) :
    Raises (Replies faults) E (generateTokenPair userId) :=
  raises_bind (raises_createJwtToken _ _ _) fun _ => raises_bind (raises_createJwtToken _ _ _)
    fun _ => raises_pure

theorem raises_rateLimiter {limit window : Nat}
    (hlost : ∀ e : Exn, e.Lost faults.redis → E e)
    (hmany : ∀ resetTime, E (tooManyRequests limit window resetTime)) (clientIp : Option Str)
    (path : Str) : Raises (Replies faults) E (rateLimiter limit window clientIp path) :=
  raises_bind (raises_still fun _ h => h) fun _ => raises_bind (raises_still fun _ h => h)
    fun _ => raises_bind (raises_call hlost) fun _ =>
      raises_ite (raises_throw (hmany _)) raises_pure

omit [Library] in
theorem raises_forEach {f : α → Coro β} {L : (o : Op) → Except Exn o.Resp → Prop}
    (hf : ∀ a, Raises L E (f a)) (as : List α) : Raises L E (forEach f as) := by
  induction as with
  | nil => exact raises_pure
  | cons a as ih => exact raises_bind (hf a) fun _ => raises_bind ih fun _ => raises_pure

theorem raises_withArguments {arguments : List Argument} {p : Coro α}
    (hrefused : arguments.all Argument.encodes = false → E .dataError)
    (hp : Raises (Replies faults) E p) :
    Raises (Replies faults) E (withArguments arguments p) := by
  unfold withArguments
  split
  · exact hp
  · next h => exact raises_throw (hrefused (Bool.not_eq_true _ ▸ h))

theorem raises_presign (hlost : ∀ e : Exn, e.Lost faults.storage → E e) {key : Str}
    (hkey : key = [] → E .paramValidationError) :
    Raises (Replies faults) E (generatePresignedDownloadUrl key) :=
  raises_call fun e he => he.elim (hlost e) fun ⟨he, h⟩ => he ▸ hkey h

/-- An address that `EmailStr` refuses may end the request, if there is any. -/
abbrev ToldInvalid (E : Exn → Prop) : Prop :=
  ∀ e, e = .validationError ∧ (∃ email, Library.validateEmail email = none) → E e

theorem raises_validateEmail (hinvalid : ToldInvalid E) (email : Str) :
    Raises (Replies faults) E (ask (.validateEmail email)) :=
  raises_call fun e he => hinvalid e ⟨he.1, email, he.2⟩

theorem raises_memberDetail (hinvalid : ToldInvalid E) (m : OrganizationMember) (u : User) :
    Raises (Replies faults) E (Endpoints.memberDetail m u) :=
  raises_bind (raises_validateEmail hinvalid _) fun _ => raises_pure

theorem raises_receiveLoop (texts : List Str) :
    Raises (Replies faults) (fun e => e = .webSocketDisconnect ∨ e = .unavailable)
      (Endpoints.receiveLoop texts) := by
  induction texts with
  | nil => exact raises_bind (raises_call fun _ he => he) fun never => never.elim
  | cons text texts ih => exact raises_bind (raises_call fun _ he => he) fun _ => ih

abbrev Concludes (L : (o : Op) → Except Exn o.Resp → Prop) (Q : α → Prop) (E : Exn → Prop)
    (p : Coro α) : Prop :=
  Prog.Ends (S := sig) L (fun a => (∀ x, a = .ok x → Q x) ∧ ∀ e, a = .error e → E e) p

section Concludes

omit [Library]

variable {L : (o : Op) → Except Exn o.Resp → Prop} {Q : α → Prop} {R : β → Prop}

theorem concludes_pure {x : α} (h : Q x) : Concludes L Q E (pure x) := by
  constructor
  · rintro _ ⟨⟩
    exact h
  · rintro _ ⟨⟩

theorem concludes_throw {e : Exn} (h : E e) : Concludes L Q E (throw e : Coro α) := by
  constructor
  · rintro _ ⟨⟩
  · rintro _ ⟨⟩
    exact h

theorem Concludes.tryCatch {E' : Exn → Prop} {p : Coro α} {g : Exn → Coro α}
    (hp : Concludes L Q E' p)
    (hg : ∀ e, E' e → Concludes L Q E (g e)) : Concludes L Q E (tryCatch p g) :=
  Prog.Ends.tryCatch (hp.mono fun a ha => by
    cases a with
    | ok x => exact concludes_pure (L := L) (ha.1 x rfl)
    | error e => exact hg e (ha.2 e rfl))

theorem Raises.concludes {p : Coro α} (h : Raises L E p) : Concludes L (fun _ => True) E p :=
  h.mono fun _ ha => ⟨fun _ _ => trivial, ha⟩

theorem Concludes.raises {p : Coro α} {f : α → Coro β} (hp : Concludes L Q E p)
    (hf : ∀ x, Q x → Raises L E (f x)) : Raises L E (p >>= f) :=
  Prog.Ends.bind (hp.mono fun a ha => by
    cases a with
    | ok x => exact hf x (ha.1 x rfl)
    | error e => exact fun e' he => ha.2 e' (by cases he; rfl))

theorem Concludes.bind {p : Coro α} {f : α → Coro β} (hp : Concludes L Q E p)
    (hf : ∀ x, Q x → Concludes L R E (f x)) : Concludes L R E (p >>= f) :=
  Prog.Ends.bind (hp.mono fun a ha => by
    cases a with
    | ok x => exact hf x (ha.1 x rfl)
    | error e =>
      refine ⟨fun y hy => ?_, fun e' he => ha.2 e' ?_⟩
      · cases hy
      · cases he
        rfl)

theorem raises_requireJoined {rows : List (α × Option β)} (h : ∀ x ∈ rows, x.2.isSome = true) :
    Raises L E (requireJoined rows) := by
  induction rows with
  | nil => exact raises_pure
  | cons row rows ih =>
    obtain ⟨a, b⟩ := row
    have hrow := h _ List.mem_cons_self
    cases b with
    | none => cases hrow
    | some b =>
        exact raises_bind (ih fun x hx => h x (List.mem_cons_of_mem _ hx)) fun _ => raises_pure

theorem concludes_withDbSession {p : Coro α}
    (hrollback : ∀ a, L .rollback a → ∀ e, a = .error e → E e) (hp : Concludes L Q E p) :
    Concludes L Q E (withDbSession p) :=
  (hp.tryCatch fun _ he => (raises_ask hrollback).concludes.bind fun _ _ =>
    concludes_throw he).bind fun _ hx => (raises_ask hrollback).concludes.bind fun _ _ =>
      concludes_pure hx

end Concludes

theorem concludes_joined (hdown : ∀ e : Exn, e.Lost faults.database → E e) {t u : Table}
    {ref : t.Row → Uuid} {p : t.Row → Bool} (href : ∀ r, (u, ref r) ∈ t.refs r) :
    Concludes (Replies faults) (fun rows => ∀ x ∈ rows, x.2.isSome = true) E
      (ask (.select (joinedLoad t u (fun r => some (ref r)) p))) := by
  rintro a ⟨i, w, w', hsound, rfl, -, ⟨rows, rfl, hperm⟩ | ⟨hfaulty, rfl⟩⟩
  · constructor
    · rintro _ ⟨⟩ x hx
      obtain ⟨r, hr, rfl⟩ := List.mem_map.mp (hperm.subset hx)
      have hrefs := List.all_eq_true.mp
        (hsound.wellFormed.view_closed i t r (mem_rowsWhere.mp hr).1)
      exact hrefs (u, ref r) (href r)
    · rintro _ ⟨⟩
  · constructor
    · rintro _ ⟨⟩
    · rintro _ ⟨⟩
      exact hdown _ ⟨hfaulty, rfl⟩

theorem raises_getTeamDetail (hdown : ∀ e : Exn, e.Lost faults.database → E e) {o teamId : Uuid}
    (hnone : E (.entityNotFound teamEntity teamId.str)) :
    Raises (Replies faults) E (TeamService.getTeamDetail o teamId) := by
  have hteam : Raises (Replies faults) E (selectOne (rowsWhere .teams fun t =>
      Team.id t = teamId && Team.organizationId t = o)) :=
    raises_lookup hdown fun w i _ => length_keyed_le .teams teamId _ _
  refine Concludes.raises (Q := fun found => ∀ x, found = some x → ∀ y ∈ x.2, y.2.isSome = true)
    (hteam.concludes.bind fun team _ => ?_) fun found hfound => ?_
  · cases team with
    | none => exact concludes_pure fun x hx => by cases hx
    | some team =>
      refine (concludes_joined hdown fun m => by simp [Table.refs]).bind fun rows hrows =>
        concludes_pure ?_
      rintro x ⟨⟩
      exact hrows
  · cases found with
    | none => exact raises_throw hnone
    | some x => exact raises_bind (raises_requireJoined (hfound x rfl)) fun _ => raises_pure

theorem raises_broadcastForTask (hdown : ∀ e : Exn, e.Lost faults.database → E e)
    (ctx : TenantContext) (taskId : Uuid) (eventType : Str) (data : JsonObject) :
    Raises (Replies faults) E (Endpoints.broadcastForTask ctx taskId eventType data) :=
  raises_bind (raises_getById hdown _ _ _) fun task => by
    cases task with
    | none => exact raises_pure
    | some task => exact raises_orDefault

end Rules

section Requests

variable [Library] {faults : Faults} {E : Exn → Prop}

section Endpoints

variable {ctx : TenantContext} (hdown : ∀ e : Exn, e.Lost faults.database → E e)

include hdown

theorem raises_commit : Raises (Replies faults) E (ask .commit) :=
  raises_ask (replies_commit hdown)

theorem raises_select {ρ : Type} (q : Db → List ρ) : Raises (Replies faults) E (ask (.select q)) :=
  raises_call hdown

theorem raises_listOrganizationMembers (hinvalid : ToldInvalid E) :
    Raises (Replies faults) E (Endpoints.listOrganizationMembers ctx) := by
  refine (concludes_joined hdown fun m => by simp [Table.refs]).raises fun rows hrows =>
    raises_bind (raises_requireJoined fun x hx => hrows x ?_) fun _ =>
      raises_forEach (fun row : OrganizationMember × User =>
        raises_memberDetail hinvalid row.1 row.2) _
  exact (List.perm_insertionSort _ _).subset hx

theorem raises_getProject {projectId : Uuid}
    (hrefuse : ∀ e, TenantRequest.Refuses ctx.organizationId (.getProject projectId) e → E e) :
    Raises (Replies faults) E (Endpoints.getProject ctx projectId) :=
  raises_found raises_orDefault
    (raises_found (raises_getById hdown _ _ _) (raises_throw (hrefuse _ rfl)) fun _ =>
      raises_bind raises_orDefault fun _ => raises_pure) fun _ => raises_pure

theorem raises_generateUploadUrl {taskId : Uuid} {payload : PresignedUploadRequest}
    (hstored : ∀ e : Exn, e.Lost faults.storage → E e) (hrefuse : ∀ e,
      TenantRequest.Refuses ctx.organizationId (.generateUploadUrl taskId payload) e → E e) :
    Raises (Replies faults) E (Endpoints.generateUploadUrl ctx taskId payload) :=
  raises_found (raises_getById hdown _ _ _) (raises_throw (hrefuse _ rfl)) fun _ =>
    raises_bind (raises_bind (raises_still fun _ h => h) fun _ => raises_pure) fun _ =>
      raises_bind (raises_call hstored) fun _ => raises_pure

variable (hwrite : ∀ e : Exn, e.OfWrite → E e)

include hwrite

theorem raises_updateCurrentOrganization {payload : OrganizationUpdate} (hrefuse : ∀ e,
      TenantRequest.Refuses ctx.organizationId (.updateCurrentOrganization payload) e → E e) :
    Raises (Replies faults) E (Endpoints.updateCurrentOrganization ctx payload) :=
  raises_found (raises_sessionGet hdown _ _) (raises_throw (hrefuse _ rfl)) fun _ =>
    raises_when (raises_flushUpdate hdown hwrite _ _ _) (raises_bind (raises_commit hdown)
      fun _ => raises_bind (raises_refresh hdown hwrite _ _) fun _ => raises_pure)

theorem raises_inviteMember {payload : OrgMemberInviteRequest} (hinvalid : ToldInvalid E)
    (hrefuse : ∀ e, TenantRequest.Refuses ctx.organizationId (.inviteMember payload) e → E e) :
    Raises (Replies faults) E (Endpoints.inviteMember ctx payload) :=
  raises_found (raises_getByEmail hdown _) (raises_throw (hrefuse _ (Or.inl rfl))) fun _ =>
    raises_bind (raises_lookup hdown fun _ i hw =>
        length_memberships_le (hw.distinct.views i) _ _) fun _ =>
      raises_unless (hrefuse _ (Or.inr rfl)) (raises_bind (raises_create hdown hwrite _ _)
        fun _ => raises_bind (raises_commit hdown) fun _ =>
          raises_bind (raises_sessionGet hdown _ _) fun _ => raises_bind raises_orDefault
            fun _ => raises_memberDetail hinvalid _ _)

theorem raises_addTeamMember {teamId : Uuid} {payload : TeamMemberAddRequest} (hrefuse : ∀ e,
      TenantRequest.Refuses ctx.organizationId (.addTeamMember teamId payload) e → E e) :
    Raises (Replies faults) E (Endpoints.addTeamMember ctx teamId payload) :=
  raises_unit hdown (raises_found (raises_getById hdown _ _ _)
    (raises_throw (hrefuse _ (Or.inl rfl))) fun _ =>
      raises_found (raises_ite raises_pure (raises_sessionGet hdown _ _))
        (raises_throw (hrefuse _ (Or.inr rfl))) fun _ =>
          raises_bind (raises_insert hdown hwrite _ _) fun _ => raises_pure)

theorem raises_createProject {payload : ProjectCreate} (hrefuse : ∀ e,
      TenantRequest.Refuses ctx.organizationId (.createProject payload) e → E e) :
    Raises (Replies faults) E (Endpoints.createProject ctx payload) := by
  let cleanKey := strip (Library.upper payload.key.text)
  refine raises_bind (raises_unit hdown (raises_bind ?_ fun existing => ?_)) fun _ => raises_pure
  · exact raises_lookup hdown fun w i hw => length_valued_le (hw.distinct.views i)
      (k := .projectOrgKey ctx.organizationId (strip (Library.upper cleanKey))) fun r hr => by
        simp only [Bool.and_eq_true, decide_eq_true_eq] at hr
        simp [Table.uniqueKey, hr, cleanKey]
  · exact raises_unless (hrefuse _ rfl) (raises_bind (raises_create hdown hwrite _ _) fun _ =>
      raises_bind (raises_addAuditLog hdown hwrite _ _ _ _ _ _ _) fun _ => raises_pure)

theorem raises_updateProject {projectId : Uuid} {payload : ProjectUpdate} (hrefuse : ∀ e,
      TenantRequest.Refuses ctx.organizationId (.updateProject projectId payload) e → E e) :
    Raises (Replies faults) E (Endpoints.updateProject ctx projectId payload) :=
  raises_bind (raises_unit hdown (raises_found (raises_getById hdown _ _ _)
    (raises_throw (hrefuse _ (Or.inl rfl))) fun _ =>
      raises_unless (hrefuse _ (Or.inr ⟨_, rfl⟩)) (raises_bind
        (raises_flushUpdate hdown hwrite _ _ _) fun _ =>
          raises_bind (raises_addAuditLog hdown hwrite _ _ _ _ _ _ _) fun _ => raises_pure)))
    fun _ => raises_bind raises_orDefault fun _ => raises_pure

theorem raises_createTask {payload : TaskCreate} :
    Raises (Replies faults) E (Endpoints.createTask ctx payload) :=
  raises_bind (raises_unit hdown (raises_bind (raises_create hdown hwrite _ _) fun _ =>
    raises_bind (raises_addAuditLog hdown hwrite _ _ _ _ _ _ _) fun _ => raises_pure)) fun _ =>
      raises_bind raises_orDefault fun _ => raises_pure

theorem raises_updateTaskStatus {taskId : Uuid} {status : TaskStatus} {expectedVersion : Int}
    (hnone : E (.entityNotFound taskEntity taskId.str))
    (hconflict : E (taskConflict taskId expectedVersion)) :
    Raises (Replies faults) E (Endpoints.updateTaskStatus ctx taskId status expectedVersion) :=
  raises_bind (raises_unit hdown (raises_found (raises_getById hdown _ _ _) (raises_throw hnone)
    fun _ => raises_bind (raises_call fun e he => he.elim (hdown e) (hwrite e)) fun _ =>
      raises_unless hconflict (raises_bind
        (raises_addAuditLog hdown hwrite _ _ _ _ _ _ _) fun _ => raises_pure)))
    fun _ => raises_bind raises_orDefault fun _ => raises_pure

theorem raises_updateTaskFields {taskId : Uuid} {payload : TaskUpdate}
    (hnone : E (.entityNotFound taskEntity taskId.str)) (hconflict : E fieldConflict) :
    Raises (Replies faults) E (Endpoints.updateTaskFields ctx taskId payload) :=
  raises_found (raises_getById hdown _ _ _) (raises_throw hnone) fun _ =>
    raises_unless hconflict (raises_bind (raises_flushUpdate hdown hwrite _ _ _) fun _ =>
      raises_bind (raises_commit hdown) fun _ => raises_bind (raises_refresh hdown hwrite _ _)
        fun _ => raises_bind raises_orDefault fun _ => raises_pure)

theorem raises_updateTask {taskId : Uuid} {payload : TaskUpdate} (hrefuse : ∀ e,
      TenantRequest.Refuses ctx.organizationId (.updateTask taskId payload) e → E e) :
    Raises (Replies faults) E (Endpoints.updateTask ctx taskId payload) := by
  have hnone := hrefuse _ (Or.inl rfl)
  unfold Endpoints.updateTask
  cases hstatus : payload.status with
  | some status =>
    exact raises_updateTaskStatus hdown hwrite hnone
      (hrefuse _ (Or.inr (Or.inl ⟨by rw [hstatus]; rfl, rfl⟩)))
  | none =>
    exact raises_updateTaskFields hdown hwrite hnone (hrefuse _ (Or.inr (Or.inr ⟨hstatus, rfl⟩)))

theorem raises_createComment {taskId : Uuid} {payload : CommentCreate} (hrefuse : ∀ e,
      TenantRequest.Refuses ctx.organizationId (.createComment taskId payload) e → E e) :
    Raises (Replies faults) E (Endpoints.createComment ctx taskId payload) :=
  raises_bind (raises_unit hdown (raises_found (raises_getById hdown _ _ _)
    (raises_throw (hrefuse _ rfl)) fun _ => raises_create hdown hwrite _ _)) fun _ =>
      raises_bind (raises_broadcastForTask hdown _ _ _ _) fun _ => raises_pure

theorem raises_updateComment {taskId commentId : Uuid} {payload : CommentUpdate} (hrefuse : ∀ e,
      TenantRequest.Refuses ctx.organizationId (.updateComment taskId commentId payload) e → E e) :
    Raises (Replies faults) E (Endpoints.updateComment ctx taskId commentId payload) :=
  raises_bind (raises_unit hdown (raises_found (raises_getById hdown _ _ _)
    (raises_throw (hrefuse _ (Or.inl rfl))) fun _ =>
      raises_unless (hrefuse _ (Or.inr rfl)) (raises_when
        (raises_flushUpdate hdown hwrite _ _ _) raises_pure))) fun _ =>
    raises_bind (raises_broadcastForTask hdown _ _ _ _) fun _ => raises_pure

theorem raises_confirmAttachment {taskId : Uuid} {payload : AttachmentConfirmCreate}
    (hstored : ∀ e : Exn, e.Lost faults.storage → E e) (hkey : E .paramValidationError)
    (hrefuse : ∀ e,
      TenantRequest.Refuses ctx.organizationId (.confirmAttachment taskId payload) e → E e) :
    Raises (Replies faults) E (Endpoints.confirmAttachment ctx taskId payload) :=
  raises_found (raises_getById hdown _ _ _) (raises_throw (hrefuse _ rfl)) fun _ =>
    raises_bind (raises_create hdown hwrite _ _) fun _ => raises_bind (raises_commit hdown)
      fun _ => raises_bind (raises_presign hstored fun _ => hkey) fun _ => raises_pure

end Endpoints

/-- The endpoint of a tenant request raises what it refuses with, unless a service that it
needs is down, a statement of it is refused or it stumbles over its data. -/
theorem raises_endpoint (q : TenantRequest) (ctx : TenantContext)
    (hrefuse : ∀ e, q.Refuses ctx.organizationId e → E e)
    (hneeds : q.needs faults = true → E .unavailable) (hstumble : ∀ e, q.Stumbles e → E e)
    (hwrite : q.Commits → ∀ e : Exn, e.OfWrite → E e) :
    Raises (Replies faults) E (q.endpoint ctx) := by
  have hdown : ∀ e : Exn, e.Lost faults.database → E e := by
    rintro e ⟨hfaulty, rfl⟩
    exact hneeds (by simp [TenantRequest.needs, hfaulty])
  have hstored : q.stores = true → ∀ e : Exn, e.Lost faults.storage → E e := by
    rintro hstores e ⟨hfaulty, rfl⟩
    exact hneeds (by simp [TenantRequest.needs, hfaulty, hstores])
  have hargument : ∀ arguments : List Argument, (arguments.all Argument.encodes = false →
      q.arguments.all Argument.encodes = false) → arguments.all Argument.encodes = false →
      E .dataError := fun _ hq h => hstumble _ (Or.inl ⟨rfl, hq h⟩)
  cases q <;> refine raises_bind ?_ fun _ => raises_pure
  case getCurrentOrganization =>
    exact raises_found (raises_sessionGet hdown _ _) (raises_throw (hrefuse _ rfl))
      fun _ => raises_pure
  case updateCurrentOrganization payload =>
    exact raises_updateCurrentOrganization hdown (hwrite trivial) hrefuse
  case listOrganizationMembers =>
    exact raises_listOrganizationMembers hdown fun e he => hstumble e (Or.inr he)
  case inviteMember payload =>
    exact raises_inviteMember hdown (hwrite trivial) (fun e he => hstumble e (Or.inr he)) hrefuse
  case createTeam payload =>
    exact raises_bind (raises_unit hdown (raises_create hdown (hwrite trivial) _ _)) fun team =>
      raises_getTeamDetail hdown (hrefuse _ ⟨_, rfl⟩)
  case listTeams =>
    exact raises_bind (raises_bind (raises_select hdown _) fun _ => raises_pure) fun _ =>
      raises_forEach (fun _ => raises_getTeamDetail hdown (hrefuse _ ⟨_, rfl⟩)) _
  case getTeam teamId => exact raises_getTeamDetail hdown (hrefuse _ rfl)
  case addTeamMember teamId payload => exact raises_addTeamMember hdown (hwrite trivial) hrefuse
  case createProject payload => exact raises_createProject hdown (hwrite trivial) hrefuse
  case listProjects =>
    exact raises_bind (raises_bind (raises_select hdown _) fun _ => raises_pure)
      fun _ => raises_pure
  case getProject projectId => exact raises_getProject hdown hrefuse
  case updateProject projectId payload => exact raises_updateProject hdown (hwrite trivial) hrefuse
  case createTask payload => exact raises_createTask hdown (hwrite trivial)
  case listTasksOffset projectId status priority assigneeId search sortBy page pageSize =>
    exact raises_bind (raises_bind (raises_withArguments (hargument _ fun h => by
      rw [TenantRequest.arguments, List.all_append, h]; rfl) (raises_select hdown _)) fun _ =>
        raises_bind (raises_withArguments (hargument _ id) (raises_select hdown _))
          fun _ => raises_pure) fun _ => raises_pure
  case listTasksFeed | listComments =>
    exact raises_bind (raises_bind (raises_withArguments (hargument _ id) (raises_select hdown _))
      fun _ => raises_pure) fun _ => raises_pure
  case getTask taskId =>
    exact raises_found (raises_getById hdown _ _ _) (raises_throw (hrefuse _ rfl))
      fun _ => raises_pure
  case updateTask taskId payload => exact raises_updateTask hdown (hwrite trivial) hrefuse
  case deleteTask taskId =>
    exact raises_found (raises_getById hdown _ _ _) (raises_throw (hrefuse _ rfl)) fun _ =>
      raises_bind (raises_softDelete hdown _ _) fun _ => raises_unless (hrefuse _ rfl)
        (raises_bind (raises_commit hdown) fun _ => raises_orDefault)
  case createComment taskId payload => exact raises_createComment hdown (hwrite trivial) hrefuse
  case updateComment taskId commentId payload =>
    exact raises_updateComment hdown (hwrite trivial) hrefuse
  case generateUploadUrl taskId payload =>
    exact raises_generateUploadUrl hdown (hstored rfl) hrefuse
  case confirmAttachment taskId payload =>
    exact raises_confirmAttachment hdown (hwrite trivial) (hstored rfl)
      (hstumble _ (Or.inr rfl)) hrefuse
  case listAttachments taskId =>
    have hurl : ∀ key, Raises (Replies faults) E (generatePresignedDownloadUrl key) := fun _ =>
      raises_presign (hstored rfl) fun _ => hstumble _ (Or.inr rfl)
    exact raises_bind (raises_bind (raises_select hdown _) fun _ => raises_pure) fun _ =>
      raises_forEach (fun _ => raises_bind (hurl _) fun _ => raises_pure) _
  case queryAuditLogs filters page pageSize =>
    exact raises_bind (raises_bind (raises_withArguments (hargument _ fun h => by
      rw [TenantRequest.arguments, List.all_append, h]; rfl) (raises_select hdown _)) fun _ =>
        raises_bind (raises_withArguments (hargument _ id) (raises_select hdown _))
          fun _ => raises_pure) fun _ => raises_pure

def Request.Errs (faults : Faults) (r : Request) (e : Exn) : Prop := r.Refuses e ∨ r.Fails faults e

theorem Request.errs_lost {r : Request} {faulty : Bool} (h : faulty = true → r.needs faults = true)
    {e : Exn} (he : e.Lost faulty) : r.Errs faults e := Or.inr (Or.inl ⟨he.2, h he.1⟩)

theorem Request.errs_write {r : Request} (h : r.Commits) {e : Exn} (he : e.OfWrite) :
    r.Errs faults e := Or.inr (Or.inr (Or.inl ⟨h, he⟩))

theorem raises_register (clientIp : Option Str) (payload : UserRegisterRequest) :
    Raises (Replies faults) (Request.Errs faults (.register clientIp payload))
      (Request.handle (.register clientIp payload)) := by
  have hdown : ∀ e : Exn, e.Lost faults.database →
      Request.Errs faults (.register clientIp payload) e := fun _ =>
    Request.errs_lost fun h => by simp [Request.needs, h]
  have hredis : ∀ e : Exn, e.Lost faults.redis →
      Request.Errs faults (.register clientIp payload) e := fun _ =>
    Request.errs_lost fun h => by simp [Request.needs, h]
  have hwrite : ∀ e : Exn, e.OfWrite → Request.Errs faults (.register clientIp payload) e :=
    fun _ => Request.errs_write (r := .register clientIp payload) trivial
  refine raises_withDbSession replies_rollback (raises_bind
    (raises_rateLimiter hredis (fun _ => Or.inl (Or.inl ⟨_, rfl⟩)) _ _) fun _ => raises_bind
      (raises_unit hdown (raises_bind (raises_getByEmail hdown _) fun existing => ?_)) fun _ =>
        raises_pure)
  exact raises_unless (Or.inl (Or.inr rfl)) (raises_bind
    (raises_bind (raises_still fun _ h => h) fun _ => raises_pure) fun _ =>
      raises_bind (raises_create hdown hwrite _ _) fun _ => raises_bind (raises_still fun _ h => h)
        fun _ => raises_bind (raises_create hdown hwrite _ _) fun _ =>
          raises_bind (raises_create hdown hwrite _ _) fun _ => raises_generateTokenPair _)

theorem raises_login (clientIp : Option Str) (payload : UserLoginRequest) :
    Raises (Replies faults) (Request.Errs faults (.login clientIp payload))
      (Request.handle (.login clientIp payload)) := by
  have hdown : ∀ e : Exn, e.Lost faults.database →
      Request.Errs faults (.login clientIp payload) e := fun _ =>
    Request.errs_lost fun h => by simp [Request.needs, h]
  have hredis : ∀ e : Exn, e.Lost faults.redis → Request.Errs faults (.login clientIp payload) e :=
    fun _ => Request.errs_lost fun h => by simp [Request.needs, h]
  refine raises_withDbSession replies_rollback (raises_bind
    (raises_rateLimiter hredis (fun _ => Or.inl (Or.inl ⟨_, rfl⟩)) _ _) fun _ => raises_bind
      (raises_bind (raises_getByEmail hdown _) fun user => ?_) fun _ => raises_pure)
  cases user with
  | none => exact raises_throw (Or.inl (Or.inr (Or.inl rfl)))
  | some user =>
    exact raises_unless (Or.inl (Or.inr (Or.inl rfl)))
      (raises_unless (Or.inl (Or.inr (Or.inr rfl))) (raises_generateTokenPair _))

theorem concludes_decodeJwtToken (token : Token) :
    Concludes (Replies faults) (fun payload => token.payload = some payload) (· = .jwtError)
      (decodeJwtToken token) := by
  unfold decodeJwtToken
  cases hpay : token.payload with
  | none => exact concludes_throw rfl
  | some payload =>
    refine (raises_still (o := .clock) fun _ h => h).concludes.bind fun now _ => ?_
    split
    · exact concludes_pure rfl
    · exact concludes_throw rfl

theorem raises_refreshTokens (token : Token) :
    Raises (Replies faults) (Request.Errs faults (.refresh token))
      (Request.handle (.refresh token)) := by
  have hdown : ∀ e : Exn, e.Lost faults.database → Request.Errs faults (.refresh token) e :=
    fun _ => Request.errs_lost fun h => by simp [Request.needs, h]
  have hredis : ∀ e : Exn, e.Lost faults.redis → Request.Errs faults (.refresh token) e :=
    fun _ => Request.errs_lost fun h => by simp [Request.needs, h]
  have hrefuse : ∀ e ∈ [invalidToken, invalidTokenType, revokedToken, inactiveAccount],
      Request.Errs faults (.refresh token) e := fun _ => Or.inl
  have hdecode : Concludes (Replies faults) (fun payload => token.payload = some payload)
      (Request.Errs faults (.refresh token)) (tryCatch (decodeJwtToken token) fun e =>
        if e = .jwtError then throw invalidToken else throw e) := by
    refine (concludes_decodeJwtToken token).tryCatch fun e he => ?_
    rw [if_pos he]
    exact concludes_throw (hrefuse _ (by simp))
  refine raises_withDbSession replies_rollback (raises_bind (hdecode.raises fun payload hpay => ?_)
    fun _ => raises_pure)
  refine raises_unless (hrefuse _ (by simp)) (raises_bind (raises_call hredis) fun revoked =>
    raises_unless (hrefuse _ (by simp)) ?_)
  cases hsub : payload.sub with
  | none =>
    exact raises_throw (Or.inr (Or.inr (Or.inr (Or.inr ⟨token, payload, rfl, hpay, hsub, rfl⟩))))
  | some userId =>
    refine raises_bind (raises_sessionGet hdown _ _) fun user => ?_
    cases user with
    | none => exact raises_throw (hrefuse _ (by simp))
    | some user =>
      exact raises_unless (hrefuse _ (by simp)) (raises_bind (raises_bind
        (raises_still fun _ h => h) fun _ => raises_ite (raises_call hredis) raises_pure) fun _ =>
          raises_generateTokenPair _)

theorem raises_logout (token : Token) :
    Raises (Replies faults) E (Request.handle (.logout token)) :=
  raises_withDbSession replies_rollback (raises_bind
    (raises_tryCatch (raises_any _) fun _ _ => raises_pure) fun _ => raises_pure)

theorem raises_getMe (bearer : Token) :
    Raises (Replies faults) (Request.Errs faults (.getMe bearer))
      (Request.handle (.getMe bearer)) := by
  have hdown : ∀ e : Exn, e.Lost faults.database → Request.Errs faults (.getMe bearer) e :=
    fun _ => Request.errs_lost fun h => by simp [Request.needs, h]
  have hclock : ∀ a, Replies faults .clock a → ∀ e, a = .error e →
      Request.Errs faults (.getMe bearer) e := fun a ha e he => (replies_fails ha he).elim
  refine raises_withDbSession replies_rollback (raises_bind (raises_getCurrentUser hclock
    (raises_sessionGet hdown _) (Or.inl (by simp [Request.Refuses]))
    (Or.inl (by simp [Request.Refuses])) bearer) fun caller => raises_bind
      (raises_bind (raises_sessionGet hdown _ _) fun user => ?_) fun _ => raises_pure)
  cases user with
  | none => exact raises_throw (Or.inl (by simp [Request.Refuses, userNotFound]))
  | some user =>
    exact (concludes_joined hdown fun m => by simp [Table.refs]).raises fun rows hrows =>
      raises_bind (raises_requireJoined hrows) fun _ => raises_bind (raises_validateEmail
        (fun _ he => Or.inr (Or.inr (Or.inr (Or.inl he)))) _) fun _ => raises_pure

theorem raises_tenant (bearer : Token) (o : Uuid) (q : TenantRequest) :
    Raises (Replies faults) (Request.Errs faults (.tenant bearer o q))
      (Request.handle (.tenant bearer o q)) := by
  have hdown : ∀ e : Exn, e.Lost faults.database → Request.Errs faults (.tenant bearer o q) e :=
    fun _ => Request.errs_lost fun h => by simp [Request.needs, TenantRequest.needs, h]
  refine raises_withDbSession replies_rollback (Concludes.raises (Q := fun ctx =>
    ctx.organizationId = o) (((requireRole_org _ _ _).and (raises_admission hdown
      (fun e he => Or.inl (Or.inl he)) bearer o))) fun ctx hctx => ?_)
  subst hctx
  exact raises_endpoint q ctx (fun e he => Or.inl (Or.inr he))
    (fun h => Or.inr (Or.inl ⟨rfl, h⟩)) (fun _ he => Or.inr (Or.inr (Or.inr (Or.inl he))))
    fun h e he => Request.errs_write (r := .tenant bearer ctx.organizationId q) h he

theorem raises_webSocket (projectId : Uuid) (token : Token) (texts : List Str) :
    Raises (Replies faults) (Request.Errs faults (.webSocket projectId token texts))
      (Request.handle (.webSocket projectId token texts)) := by
  have herr : Request.Errs faults (.webSocket projectId token texts) .unavailable :=
    Or.inr (Or.inl ⟨rfl, rfl⟩)
  have hlost : ∀ (faulty : Bool) (e : Exn), e.Lost faulty →
      Request.Errs faults (.webSocket projectId token texts) e := by
    rintro faulty e ⟨-, rfl⟩
    exact herr
  have hclose : Raises (Replies faults) (Request.Errs faults (.webSocket projectId token texts))
      (ask (.wsClose 1008)) := raises_call (hlost _)
  have hrefuse : Raises (Replies faults) (Request.Errs faults (.webSocket projectId token texts))
      (do ask (.wsClose 1008); pure false) := raises_bind hclose fun _ => raises_pure
  refine raises_bind (raises_bind (raises_tryCatch (raises_any _) fun _ _ =>
    raises_bind hclose fun _ => raises_pure) fun found => ?_) fun _ => raises_pure
  cases found with
  | none => exact raises_pure
  | some userId =>
    refine raises_bind (raises_withDbSession replies_rollback (raises_bind
      (raises_sessionGet (hlost _) _ _) fun project => ?_)) fun admitted =>
        raises_ite ?_ raises_pure
    · cases project with
      | none => exact hrefuse
      | some project =>
        exact raises_bind (raises_lookup (hlost _) fun w i hw =>
          length_memberships_le (hw.distinct.views i) _ _) fun _ => raises_ite hrefuse raises_pure
    · refine raises_bind (raises_call (hlost _)) fun _ => raises_bind (raises_still fun _ h => h)
        fun _ => raises_tryCatch (raises_receiveLoop texts) fun e he => ?_
      split
      · exact raises_still fun _ h => h
      · next hne => exact raises_throw (he.resolve_left hne ▸ herr)

theorem handle_errs (r : Request) : Raises (Replies faults) (r.Errs faults) r.handle := by
  cases r with
  | register clientIp payload => exact raises_register clientIp payload
  | login clientIp payload => exact raises_login clientIp payload
  | refresh token => exact raises_refreshTokens token
  | logout token => exact raises_logout token
  | getMe bearer => exact raises_getMe bearer
  | tenant bearer o q => exact raises_tenant bearer o q
  | webSocket projectId token texts => exact raises_webSocket projectId token texts

end Requests

section Statuses

variable {faults : Faults} {r : Request} {e : Exn}

@[simp] theorem Exn.status_entityNotFound (entity id : Str) :
    (Exn.entityNotFound entity id).status = 404 := rfl

@[simp] theorem Exn.status_entityConflict (message : Str) :
    (Exn.entityConflict message).status = 409 := rfl

@[simp] theorem Exn.status_forbiddenOperation (message : Str) :
    (Exn.forbiddenOperation message).status = 403 := rfl

@[simp] theorem status_tooManyRequests (limit window : Nat) (resetTime : Int) :
    (tooManyRequests limit window resetTime).status = 429 := rfl

@[simp] theorem status_taskConflict (taskId : Uuid) (version : Int) :
    (taskConflict taskId version).status = 409 := rfl

@[simp] theorem status_projectConflict (projectId : Uuid) (expected current : Int) :
    (projectConflict projectId expected current).status = 409 := rfl

theorem status_guardRefusals {minRole : OrgRole} (h : e ∈ guardRefusals minRole) :
    e.status = 401 ∨ e.status = 403 := by
  simp only [guardRefusals, List.mem_cons, List.not_mem_nil, or_false] at h
  rcases h with rfl | rfl | rfl | rfl
  · exact Or.inl rfl
  · exact Or.inl rfl
  · exact Or.inr rfl
  · exact Or.inr rfl

variable [Library]

theorem TenantRequest.Refuses.status {q : TenantRequest} {o : Uuid} (h : q.Refuses o e) :
    e.status ∈ [403, 404, 409] := by
  cases q
  case createTeam | listTeams =>
    obtain ⟨teamId, rfl⟩ := h
    simp
  case updateProject => rcases h with rfl | ⟨currentVersion, rfl⟩ <;> simp
  case updateTask => rcases h with rfl | ⟨-, rfl⟩ | ⟨-, rfl⟩ <;> simp [fieldConflict]
  case inviteMember | addTeamMember | updateComment => rcases h with rfl | rfl <;> simp
  case getCurrentOrganization | updateCurrentOrganization | getTeam | createProject | getProject
      | getTask | deleteTask | createComment | generateUploadUrl | confirmAttachment =>
    cases h
    simp
  all_goals exact h.elim

theorem Request.Refuses.status (h : r.Refuses e) : e.status ∈ [401, 403, 404, 409, 429] := by
  cases r with
  | register clientIp payload => rcases h with ⟨resetTime, rfl⟩ | rfl <;> simp
  | login clientIp payload =>
    rcases h with ⟨resetTime, rfl⟩ | rfl | rfl
    · simp
    · decide
    · decide
  | refresh token =>
    simp only [Request.Refuses, List.mem_cons, List.not_mem_nil, or_false] at h
    rcases h with rfl | rfl | rfl | rfl <;> decide
  | getMe bearer =>
    simp only [Request.Refuses, List.mem_cons, List.not_mem_nil, or_false] at h
    rcases h with rfl | rfl | rfl <;> decide
  | tenant bearer o q =>
    rcases h with h | h
    · rcases status_guardRefusals h with hs | hs <;> simp [hs]
    · have hs := h.status
      simp only [List.mem_cons, List.not_mem_nil, or_false] at hs ⊢
      tauto
  | logout token => exact h.elim
  | webSocket projectId token texts => exact h.elim

theorem TenantRequest.Stumbles.status {q : TenantRequest} (h : q.Stumbles e) : e.status = 500 := by
  rcases h with ⟨rfl, -⟩ | h
  · rfl
  · cases q
    case confirmAttachment | listAttachments => rw [h]; rfl
    case listOrganizationMembers | inviteMember => rw [h.1]; rfl
    all_goals exact h.elim

theorem Request.Stumbles.status (h : r.Stumbles e) : e.status = 500 := by
  cases r
  case getMe => rw [h.1]; rfl
  case tenant => exact TenantRequest.Stumbles.status h
  all_goals exact h.elim

theorem Request.Fails.status (h : r.Fails faults e) : e.status = 500 := by
  rcases h with ⟨rfl, -⟩ | ⟨-, h⟩ | h | ⟨token, payload, -, -, -, rfl⟩
  · rfl
  · simp only [Exn.OfWrite, List.mem_cons, List.not_mem_nil, or_false] at h
    rcases h with rfl | rfl | rfl | rfl <;> rfl
  · exact h.status
  · rfl

end Statuses

section Runs

variable [Library] {faults : Faults} {now : Instant} {c : AppConfig} {i : Nat} {r : Request}
  {e : Exn}

theorem reached_errs (h : Reach app anySchedule (genesis faults now) c)
    (ht : c.thread i = some ⟨r, .done (.error e)⟩) : r.Errs faults e := by
  have hends := h.ends (L := fun _ _ => Replies faults)
    (E := fun _ r a => ∀ e, a = .error e → r.Errs faults e) (fun _ => rfl)
    (fun _ _ r _ => handle_errs r)
    (fun d j _ _ _ _ _ hr _ he => ⟨j, _, _, reached_sound hr, reached_faults hr, he⟩) ht
  exact hends e rfl

/-- Every error answer of every run is one of those that its request lists, with a status
below 500; or it has the status 500, and a service that the request needs may fail, or the
request writes or stumbles over its data, or its refresh token has no subject. -/
theorem refusals_listed (h : Reach app anySchedule (genesis faults now) c)
    (ht : c.thread i = some ⟨r, .done (.error e)⟩) :
    (r.Refuses e ∧ e.status ∈ [401, 403, 404, 409, 429]) ∨ (r.Fails faults e ∧ e.status = 500) :=
  (reached_errs h ht).imp (fun hr => ⟨hr, hr.status⟩) fun hf => ⟨hf, hf.status⟩

end Runs

section Example

open scoped Ascii

def registeredAgain : AppConfig :=
  runMoves (genesis noFaults 0) (solo 0 (registration "ann@example.org".toList ann_short) ++
    solo 1 (registration "ann@example.org".toList ann_short))

theorem registeredAgain_reached : Reach app anySchedule (genesis noFaults 0) registeredAgain :=
  runMoves_any fun _ => rfl

theorem registeredAgain_listed : ∃ r e, registeredAgain.thread 1 = some ⟨r, .done (.error e)⟩ ∧
    r.Refuses e ∧ e.status = 409 := by
  have hrefused : refusedWith registeredAgain 1 (.entityConflict ("User with email '".toList ++
      "ann@example.org".toList ++ "' already exists.".toList)) = true := by decide +kernel
  obtain ⟨r, ht⟩ := thread_of_answer (answer_of_refused hrefused)
  obtain ⟨hlisted, -⟩ | ⟨-, hstatus⟩ := refusals_listed registeredAgain_reached ht
  · exact ⟨r, _, ht, hlisted, rfl⟩
  · cases hstatus

end Example

end MultiTenantSaas
