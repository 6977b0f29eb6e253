import MultiTenantSaas.Readers

/-!
Which services beside the database each request may call on.
-/

set_option autoImplicit false

namespace MultiTenantSaas

open Process

inductive Service where
  | limiter
  | blacklist
  | cache
  | eviction
  | rooms
  | uploads
  | downloads
  | queue
  | sockets
  deriving DecidableEq

def Op.service : Op → Option Service
  | .slidingWindow _ _ _ _ _ => some .limiter
  | .redisExists _ | .redisSet _ .revoked _ => some .blacklist
  | .redisGet _ | .redisSet _ (.project _) _ => some .cache
  | .redisDelete _ => some .eviction
  | .publish _ _ _ => some .rooms
  | .presignPut _ _ _ => some .uploads
  | .presignGet _ _ => some .downloads
  | .enqueue _ _ => some .queue
  | .wsAccept | .wsClose _ | .receiveText _ | .receiveEnd => some .sockets
  | .hubConnect _ | .hubDisconnect _ => some .sockets
  | _ => none

def TenantRequest.services : TenantRequest → List Service
  | .inviteMember _ => [.queue]
  | .getProject _ => [.cache]
  | .updateProject _ _ => [.eviction]
  | .createTask _ | .updateTask _ _ | .deleteTask _ | .createComment _ _
  | .updateComment _ _ _ => [.rooms]
  | .generateUploadUrl _ _ => [.uploads]
  | .confirmAttachment _ _ | .listAttachments _ => [.downloads]
  | _ => []

def Request.services : Request → List Service
  | .register _ _ | .login _ _ => [.limiter]
  | .refresh _ | .logout _ => [.blacklist]
  | .getMe _ => []
  | .tenant _ _ q => q.services
  | .webSocket _ _ _ => [.sockets]

/-- The program calls on the services `ss` only. -/
abbrev Serves {α : Type} (ss : List Service) (p : Coro α) : Prop :=
  Prog.All (S := sig) (fun o => ∀ s, Op.service o = some s → s ∈ ss) p

section Rules

variable {α β : Type} {ss : List Service}

theorem Op.calls_none {o : Op} (h : o.service = none) : ∀ s, o.service = some s → s ∈ ss := by
  intro s hs
  cases h.symm.trans hs

theorem serves_ask {o : Op} (h : o.service = none) : Serves ss (ask o) :=
  ⟨Op.calls_none h, fun _ => trivial⟩

theorem serves_call {o : Op} {s : Service} (h : o.service = some s) (hs : s ∈ ss) :
    Serves ss (ask o) := by
  refine ⟨fun s' hs' => ?_, fun _ => trivial⟩
  cases h.symm.trans hs'
  exact hs

theorem serves_selectOne (q : Db → List α) : Serves ss (selectOne q) :=
  all_selectOne (Op.calls_none rfl)

theorem serves_withArguments (arguments : List Argument) {p : Coro α} (hp : Serves ss p) :
    Serves ss (withArguments arguments p) := all_withArguments arguments hp

theorem serves_sessionGet (t : Table) (id : Uuid) : Serves ss (sessionGet t id) :=
  serves_selectOne _

theorem serves_refresh (t : Table) (id : Uuid) : Serves ss (refresh t id) :=
  (serves_sessionGet t id).bind fun x => by cases x <;> trivial

theorem serves_create (t : Table) (values : Uuid → Instant → t.Row) : Serves ss (create t values) :=
  (serves_ask rfl).bind fun _ => serves_refresh t _

theorem serves_transaction {p : Coro α} (hp : Serves ss p) : Serves ss (transaction p) :=
  Prog.All.tryCatch (hp.bind fun _ => (serves_ask rfl).bind fun _ => trivial) fun _ =>
    (serves_ask rfl).bind fun _ => trivial

theorem serves_withDbSession {p : Coro α} (hp : Serves ss p) : Serves ss (withDbSession p) :=
  Prog.All.bind (Prog.All.tryCatch hp fun _ => (serves_ask rfl).bind fun _ => trivial) fun _ =>
    (serves_ask rfl).bind fun _ => trivial

theorem serves_orDefault {d : α} {p : Coro α} (hp : Serves ss p) : Serves ss (orDefault d p) :=
  hp.tryCatch fun _ => trivial

theorem serves_forEach {f : α → Coro β} (hf : ∀ a, Serves ss (f a)) (as : List α) :
    Serves ss (forEach f as) := by
  induction as with
  | nil => trivial
  | cons a as ih => exact (hf a).bind fun _ => ih.bind fun _ => trivial

theorem serves_listPaginated (t : Table) (o : Uuid) (offset limit : Nat) :
    Serves ss (listPaginated t o offset limit) := (serves_ask rfl).bind fun _ => trivial

theorem serves_decodeJwtToken (token : Token) : Serves ss (decodeJwtToken token) :=
  all_decodeJwtToken (Op.calls_none rfl) token

theorem serves_createJwtToken (subject : Uuid) (tokenType : Str) (delta : Int) :
    Serves ss (createJwtToken subject tokenType delta) :=
  (serves_ask rfl).bind fun _ => (serves_ask rfl).bind fun _ => (serves_ask rfl).bind fun _ =>
    trivial

theorem serves_generateTokenPair (userId : Uuid) : Serves ss (generateTokenPair userId) :=
  (serves_createJwtToken _ _ _).bind fun _ => (serves_createJwtToken _ _ _).bind fun _ => trivial

theorem serves_getCurrentUser (bearer : Token) : Serves ss (getCurrentUser bearer) :=
  all_getCurrentUser (Op.calls_none rfl) (fun _ => Op.calls_none rfl) bearer

theorem serves_requireRole (minRole : OrgRole) (bearer : Token) (o : Uuid) :
    Serves ss (requireRole minRole bearer o) := by
  refine (serves_getCurrentUser bearer).bind fun user => (serves_selectOne _).bind fun m => ?_
  cases m with
  | none => trivial
  | some m => exact all_ite trivial trivial

theorem serves_addAuditLog {o id : Uuid} {actor : Option Uuid} {entity : Str} {action : AuditAction}
    {before after : Option JsonObject} :
    Serves ss (addAuditLog o actor entity id action before after) :=
  (serves_ask rfl).bind fun _ => trivial

theorem serves_getTeamDetail (o teamId : Uuid) :
    Serves ss (TeamService.getTeamDetail o teamId) := by
  refine Prog.All.bind ((serves_selectOne _).bind fun team => ?_) fun team => ?_
  · cases team with
    | none => trivial
    | some team => exact (serves_ask rfl).bind fun _ => trivial
  · cases team with
    | none => trivial
    | some found => exact (all_requireJoined _).bind fun _ => trivial

theorem serves_rateLimiter (limit window : Nat) (clientIp : Option Str) (path : Str)
    (h : .limiter ∈ ss) : Serves ss (rateLimiter limit window clientIp path) :=
  (serves_ask rfl).bind fun _ => (serves_ask rfl).bind fun _ =>
    (serves_call rfl h).bind fun _ => all_ite trivial trivial

theorem serves_revokeToken (jti : Str) (expiresAt : Instant) (h : .blacklist ∈ ss) :
    Serves ss (revokeToken jti expiresAt) :=
  (serves_ask rfl).bind fun _ => all_ite (serves_call rfl h) trivial

theorem serves_broadcastToRoom (p : Uuid) (event : Str) (data : JsonObject) (h : .rooms ∈ ss) :
    Serves ss (broadcastToRoom p event data) := serves_orDefault (serves_call rfl h)

theorem serves_broadcastForTask (ctx : TenantContext) (taskId : Uuid) (event : Str)
    (data : JsonObject) (h : .rooms ∈ ss) :
    Serves ss (Endpoints.broadcastForTask ctx taskId event data) := by
  refine (serves_selectOne _).bind fun task => ?_
  cases task with
  | none => trivial
  | some task => exact serves_broadcastToRoom _ _ _ h

end Rules

section Requests

variable {ss : List Service}

theorem serves_createProject [Library] (o : Uuid) (payload : ProjectCreate) (actor : Option Uuid) :
    Serves ss (ProjectService.createProject o payload actor) :=
  serves_transaction <| (serves_selectOne _).bind fun _ =>
    all_ite trivial <| (serves_create _ _).bind fun _ => serves_addAuditLog.bind fun _ => trivial

theorem serves_updateProject (o id : Uuid) (payload : ProjectUpdate) (actor : Option Uuid) :
    Serves ss (ProjectService.updateProject o id payload actor) := by
  refine serves_transaction ((serves_selectOne _).bind fun project => ?_)
  cases project with
  | none => trivial
  | some project =>
    exact all_ite trivial ((serves_ask rfl).bind fun _ => serves_addAuditLog.bind fun _ => trivial)

theorem serves_createTask (o p reporter : Uuid) (title : Str) (description : Option Str)
    (priority : TaskPriority) (assignee : Option Uuid) :
    Serves ss (TaskService.createTask o p reporter title description priority assignee) :=
  serves_transaction <| (serves_create _ _).bind fun _ => serves_addAuditLog.bind fun _ => trivial

theorem serves_updateTaskStatusOcc (o taskId actor : Uuid) (status : TaskStatus) (version : Int) :
    Serves ss (TaskService.updateTaskStatusOcc o taskId actor status version) := by
  refine serves_transaction ((serves_selectOne _).bind fun task => ?_)
  cases task with
  | none => trivial
  | some task =>
    refine (serves_ask rfl).bind fun matched => ?_
    exact all_ite trivial (serves_addAuditLog.bind fun _ => trivial)

theorem serves_addComment (o taskId author : Uuid) (payload : CommentCreate) :
    Serves ss (CommentService.addComment o taskId author payload) := by
  refine serves_transaction ((serves_selectOne _).bind fun task => ?_)
  cases task with
  | none => trivial
  | some task => exact serves_create _ _

theorem serves_updateComment (o commentId user : Uuid) (role : OrgRole) (payload : CommentUpdate) :
    Serves ss (CommentService.updateComment o commentId user role payload) := by
  refine serves_transaction ((serves_selectOne _).bind fun comment => ?_)
  cases comment with
  | none => trivial
  | some comment =>
    exact all_ite trivial (all_ite ((serves_ask rfl).bind fun _ => trivial) trivial)

theorem serves_addMember (o : Uuid) (caller : User) (teamId userId : Uuid) :
    Serves ss (TeamService.addMember o caller teamId userId) := by
  refine serves_transaction ((serves_selectOne _).bind fun team => ?_)
  cases team with
  | none => trivial
  | some team =>
    refine Prog.All.bind (all_ite trivial (serves_sessionGet _ _)) fun user => ?_
    cases user with
    | none => trivial
    | some user => exact (serves_ask rfl).bind fun _ => trivial

theorem serves_memberDetail (m : OrganizationMember) (u : User) :
    Serves ss (Endpoints.memberDetail m u) := (serves_ask rfl).bind fun _ => trivial

theorem endpoint_serves [Library] (q : TenantRequest) (ctx : TenantContext) :
    Serves q.services (q.endpoint ctx) := by
  cases q <;> refine Prog.All.bind ?_ fun _ => trivial
  case getCurrentOrganization =>
    refine (serves_sessionGet _ _).bind fun org => ?_
    cases org <;> trivial
  case updateCurrentOrganization payload =>
    refine (serves_sessionGet _ _).bind fun org => ?_
    cases org with
    | none => trivial
    | some org =>
      have hcommit : ∀ {β : Type} {f : Organization → Coro β}, (∀ row, Serves [] (f row)) →
          Serves [] (ask .commit >>= fun _ => refresh .organizations org.id >>= f) :=
        fun hf => (serves_ask rfl).bind fun _ => (serves_refresh _ _).bind hf
      exact all_ite ((serves_ask rfl).bind fun _ => hcommit fun _ => trivial)
        (hcommit fun _ => trivial)
  case listOrganizationMembers =>
    exact (serves_ask rfl).bind fun _ => (all_requireJoined _).bind fun _ =>
      serves_forEach (fun _ => serves_memberDetail _ _) _
  case inviteMember payload =>
    refine (serves_selectOne _).bind fun user => ?_
    cases user with
    | none => trivial
    | some user =>
      refine (serves_selectOne _).bind fun _ => all_ite trivial ?_
      refine (serves_create _ _).bind fun _ => (serves_ask rfl).bind fun _ => ?_
      refine (serves_sessionGet _ _).bind fun _ =>
        Prog.All.bind ?_ fun _ => serves_memberDetail _ _
      exact serves_orDefault (serves_call rfl List.mem_cons_self)
  case createTeam payload =>
    exact (serves_transaction (serves_create _ _)).bind fun _ => serves_getTeamDetail _ _
  case listTeams =>
    exact (serves_listPaginated _ _ _ _).bind fun _ => serves_forEach (fun _ =>
      serves_getTeamDetail _ _) _
  case getTeam teamId => exact serves_getTeamDetail _ _
  case addTeamMember teamId payload => exact serves_addMember _ _ _ _
  case createProject payload => exact (serves_createProject _ _ _).bind fun _ => trivial
  case listProjects => exact (serves_listPaginated _ _ _ _).bind fun _ => trivial
  case getProject projectId =>
    refine Prog.All.bind (serves_orDefault ((serves_call rfl List.mem_cons_self).bind fun v => ?_))
      fun cached => ?_
    · cases v with
      | none => trivial
      | some v => cases v <;> trivial
    · cases cached with
      | some copy => trivial
      | none =>
        refine (serves_selectOne _).bind fun project => ?_
        cases project with
        | none => trivial
        | some project =>
          exact Prog.All.bind (serves_orDefault (serves_call rfl List.mem_cons_self))
            fun _ => trivial
  case updateProject projectId payload =>
    exact (serves_updateProject _ _ _ _).bind fun _ => Prog.All.bind
      (serves_orDefault (serves_call rfl List.mem_cons_self)) fun _ => trivial
  case createTask payload =>
    exact (serves_createTask _ _ _ _ _ _ _).bind fun _ =>
      (serves_broadcastToRoom _ _ _ List.mem_cons_self).bind fun _ => trivial
  case listTasksOffset =>
    exact Prog.All.bind ((serves_withArguments _ (serves_ask rfl)).bind fun _ =>
      (serves_withArguments _ (serves_ask rfl)).bind fun _ => trivial) fun _ => trivial
  case listTasksFeed =>
    exact Prog.All.bind ((serves_withArguments _ (serves_ask rfl)).bind fun _ => trivial)
      fun _ => trivial
  case getTask taskId =>
    refine (serves_selectOne _).bind fun task => ?_
    cases task <;> trivial
  case updateTask taskId payload =>
    unfold Endpoints.updateTask
    split
    · exact (serves_updateTaskStatusOcc _ _ _ _ _).bind fun _ =>
        (serves_broadcastToRoom _ _ _ List.mem_cons_self).bind fun _ => trivial
    · refine (serves_selectOne _).bind fun task => ?_
      cases task with
      | none => trivial
      | some task =>
        refine all_ite trivial ((serves_ask rfl).bind fun _ => (serves_ask rfl).bind fun _ => ?_)
        exact (serves_refresh _ _).bind fun _ =>
          (serves_broadcastToRoom _ _ _ List.mem_cons_self).bind fun _ => trivial
  case deleteTask taskId =>
    refine (serves_selectOne _).bind fun task => ?_
    cases task with
    | none => trivial
    | some task =>
      refine Prog.All.bind ((serves_ask rfl).bind fun _ => trivial) fun _ => all_ite trivial ?_
      exact (serves_ask rfl).bind fun _ => serves_broadcastToRoom _ _ _ List.mem_cons_self
  case createComment taskId payload =>
    exact (serves_addComment _ _ _ _).bind fun _ =>
      (serves_broadcastForTask _ _ _ _ List.mem_cons_self).bind fun _ => trivial
  case listComments =>
    exact Prog.All.bind ((serves_withArguments _ (serves_ask rfl)).bind fun _ => trivial)
      fun _ => trivial
  case updateComment taskId commentId payload =>
    exact (serves_updateComment _ _ _ _ _).bind fun _ =>
      (serves_broadcastForTask _ _ _ _ List.mem_cons_self).bind fun _ => trivial
  case generateUploadUrl taskId payload =>
    refine (serves_selectOne _).bind fun task => ?_
    cases task with
    | none => trivial
    | some task =>
      exact Prog.All.bind ((serves_ask rfl).bind fun _ => trivial) fun _ =>
        (serves_call rfl List.mem_cons_self).bind fun _ => trivial
  case confirmAttachment taskId payload =>
    refine (serves_selectOne _).bind fun task => ?_
    cases task with
    | none => trivial
    | some task =>
      exact (serves_create _ _).bind fun _ => (serves_ask rfl).bind fun _ =>
        (serves_call rfl List.mem_cons_self).bind fun _ => trivial
  case listAttachments taskId =>
    refine Prog.All.bind ((serves_ask rfl).bind fun _ => trivial) fun _ =>
      serves_forEach (fun _ => ?_) _
    exact (serves_call rfl List.mem_cons_self).bind fun _ => trivial
  case queryAuditLogs =>
    exact Prog.All.bind ((serves_withArguments _ (serves_ask rfl)).bind fun _ =>
      (serves_withArguments _ (serves_ask rfl)).bind fun _ => trivial) fun _ => trivial

theorem serves_receiveLoop (texts : List Str) (h : .sockets ∈ ss) :
    Serves ss (Endpoints.receiveLoop texts) :=
  all_receiveLoop (fun _ _ hs => by cases hs; exact h) (fun _ hs => by cases hs; exact h) texts

theorem serves_webSocket (p : Uuid) (token : Token) (texts : List Str) (h : .sockets ∈ ss) :
    Serves ss (Endpoints.projectRealtimeStream p token texts) := by
  have hclose : Serves ss (do ask (.wsClose 1008); pure none : Coro (Option Uuid)) :=
    (serves_call rfl h).bind fun _ => trivial
  have hrefuse : Serves ss (do ask (.wsClose 1008); pure false : Coro Bool) :=
    (serves_call rfl h).bind fun _ => trivial
  refine Prog.All.bind (Prog.All.tryCatch ((serves_decodeJwtToken token).bind fun payload =>
    all_ite hclose ?_) fun _ => hclose) fun found => ?_
  · cases payload.sub <;> trivial
  cases found with
  | none => trivial
  | some userId =>
    refine Prog.All.bind (serves_withDbSession ((serves_sessionGet _ _).bind fun project => ?_))
      fun admitted => all_ite ?_ trivial
    · cases project with
      | none => exact hrefuse
      | some project => exact (serves_selectOne _).bind fun _ => all_ite hrefuse trivial
    · refine (serves_call rfl h).bind fun _ => (serves_call rfl h).bind fun _ => ?_
      refine Prog.All.tryCatch (serves_receiveLoop texts h) fun e => ?_
      exact all_ite (serves_call rfl h) trivial

/-- A request calls on its own services only. -/
theorem handle_serves [Library] (r : Request) : Serves r.services r.handle := by
  cases r with
  | register clientIp payload =>
    refine serves_withDbSession ((serves_rateLimiter _ _ _ _ List.mem_cons_self).bind fun _ =>
      Prog.All.bind (serves_transaction ?_) fun _ => trivial)
    refine (serves_selectOne _).bind fun _ => all_ite trivial ?_
    refine Prog.All.bind ((serves_ask rfl).bind fun _ => trivial) fun _ => ?_
    refine (serves_create _ _).bind fun _ => (serves_ask rfl).bind fun _ => ?_
    exact (serves_create _ _).bind fun _ => (serves_create _ _).bind fun _ =>
      serves_generateTokenPair _
  | login clientIp payload =>
    refine serves_withDbSession ((serves_rateLimiter _ _ _ _ List.mem_cons_self).bind fun _ =>
      Prog.All.bind ((serves_selectOne _).bind fun user => ?_) fun _ => trivial)
    cases user with
    | none => trivial
    | some user => exact all_ite trivial (all_ite trivial (serves_generateTokenPair _))
  | refresh token =>
    refine serves_withDbSession (Prog.All.bind ?_ fun _ => trivial)
    refine Prog.All.bind (Prog.All.tryCatch (serves_decodeJwtToken token) fun _ =>
      all_ite trivial trivial) fun payload => all_ite trivial ?_
    refine (serves_call rfl List.mem_cons_self).bind fun _ => all_ite trivial ?_
    cases payload.sub with
    | none => trivial
    | some userId =>
      refine (serves_sessionGet _ _).bind fun user => ?_
      cases user with
      | none => trivial
      | some user =>
        exact all_ite trivial ((serves_revokeToken _ _ List.mem_cons_self).bind fun _ =>
          serves_generateTokenPair _)
  | logout token =>
    refine serves_withDbSession (Prog.All.bind (Prog.All.tryCatch
      ((serves_decodeJwtToken token).bind fun payload => all_ite ?_ trivial) fun _ => trivial)
      fun _ => trivial)
    exact serves_revokeToken _ _ List.mem_cons_self
  | getMe bearer =>
    refine serves_withDbSession ((serves_getCurrentUser bearer).bind fun _ => Prog.All.bind
      ((serves_sessionGet _ _).bind fun user => ?_) fun _ => trivial)
    cases user with
    | none => trivial
    | some user =>
      exact (serves_ask rfl).bind fun _ => (all_requireJoined _).bind fun _ =>
        (serves_ask rfl).bind fun _ => trivial
  | tenant bearer o q =>
    exact serves_withDbSession ((serves_requireRole _ _ _).bind fun ctx => endpoint_serves q ctx)
  | webSocket p token texts =>
    exact (serves_webSocket p token texts List.mem_cons_self).bind fun _ => trivial

theorem Start.serves [Library] {c₀ c : AppConfig} (h₀ : Start c₀)
    (h : Reach app anySchedule c₀ c) {i : Nat}
    {r : Request} {p : Coro Response} (ht : c.thread i = some ⟨r, p⟩) : Serves r.services p :=
  h.all h₀.idle (handle_serves r) ht

end Requests

end MultiTenantSaas
