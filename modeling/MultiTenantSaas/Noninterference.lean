import MultiTenantSaas.Mirror
import MultiTenantSaas.Parents
import MultiTenantSaas.Readers

/-!
What a tenant reads does not depend on the rows of other tenants.
-/

set_option autoImplicit false

namespace MultiTenantSaas

open Process

/-- The same users, and the same rows of organization `o`. -/
structure Db.AgreesOn (o : Uuid) (db db' : Db) : Prop where
  users : ∀ u, u ∈ db.rows .users ↔ u ∈ db'.rows .users
  rows : ∀ (t : Table) (r : t.Row), t.org r = some o → (r ∈ db.rows t ↔ r ∈ db'.rows t)

def tenantPrefix (o : Uuid) : Str := "tenant:".toList ++ o.str ++ [':']

/-- From `t` on, the same cache entries of organization `o`. -/
def Redis.AgreesOn (o : Uuid) (t : Instant) (r r' : Redis) : Prop :=
  ∀ key, tenantPrefix o <+: key → ∀ now, t ≤ now → r.get now key = r'.get now key

structure World.AgreesOn (o : Uuid) (t : Instant) (w v : World) : Prop where
  db : w.db.AgreesOn o v.db
  redis : w.redis.AgreesOn o t v.redis

theorem Db.AgreesOn.symm {o : Uuid} {db db' : Db} (h : db.AgreesOn o db') : db'.AgreesOn o db :=
  ⟨fun u => (h.users u).symm, fun t r hr => (h.rows t r hr).symm⟩

theorem World.AgreesOn.symm {o : Uuid} {t : Instant} {w v : World} (h : w.AgreesOn o t v) :
    v.AgreesOn o t w :=
  ⟨h.db.symm, fun key hkey now hnow => (h.redis key hkey now hnow).symm⟩

theorem Redis.AgreesOn.mono {o : Uuid} {t t' : Instant} {r r' : Redis} (h : r.AgreesOn o t r')
    (ht : t ≤ t') : r.AgreesOn o t' r' :=
  fun key hkey now hnow => h key hkey now (ht.trans hnow)

theorem Redis.get_set_self (r : Redis) (now at' : Instant) (key : Str) (v : RedisValue) (ex : Int) :
    (r.set now key v ex).get at' key = if at' < now + ex * second then some v else none := by
  simp only [Redis.get, Redis.set, Function.update_self]

theorem Redis.get_set_of_ne (r : Redis) (now at' : Instant) {key key' : Str} (h : key' ≠ key)
    (v : RedisValue) (ex : Int) : (r.set now key v ex).get at' key' = r.get at' key' := by
  simp only [Redis.get, Redis.set, Function.update_of_ne h]

theorem Redis.AgreesOn.set {o : Uuid} {t : Instant} {r r' : Redis} (h : r.AgreesOn o t r')
    (now : Instant) (key : Str) (v : RedisValue) (ex : Int) :
    (r.set now key v ex).AgreesOn o t (r'.set now key v ex) := by
  intro key' hkey at' hat
  by_cases heq : key' = key
  · rw [heq, Redis.get_set_self, Redis.get_set_self]
  · rw [Redis.get_set_of_ne _ _ _ heq, Redis.get_set_of_ne _ _ _ heq, h key' hkey at' hat]

theorem buildKey_three (keyspace a b c : Str) : buildKey keyspace [a, b, c] =
    keyspace ++ [':'] ++ strip a ++ [':'] ++ (strip b ++ ':' :: strip c) := by
  simp only [buildKey, List.map_cons, List.map_nil, List.intercalate_cons_cons,
    List.intercalate_singleton, List.append_assoc, List.cons_append, List.nil_append]

theorem tenantPrefix_projectCacheKey (o projectId : Uuid) :
    tenantPrefix o <+: projectCacheKey o projectId := by
  have hvisible : ∀ c ∈ o.str, isSpace c = false :=
    Uuid.forall_mem_str (P := fun c => isSpace c = false) (by decide) (by decide) o
  have htenant : "tenant:".toList = "tenant".toList ++ [':'] := rfl
  have hkey : projectCacheKey o projectId =
      tenantPrefix o ++ (strip "projects".toList ++ ':' :: strip projectId.str) := by
    have hbuild : projectCacheKey o projectId = "tenant".toList ++ [':'] ++ o.str ++ [':'] ++
        (strip "projects".toList ++ ':' :: strip projectId.str) := by
      rw [projectCacheKey, buildKey_three, strip_eq_self hvisible]
    rw [hbuild, ← htenant]
    rfl
  exact ⟨_, hkey.symm⟩

/-- The operation gets the same answers from `db` and `db'`, and from caches that agree on
organization `o`. -/
def Op.Sees (o : Uuid) (db db' : Db) : Op → Prop
  | .clock | .rollback => True
  | .select q => (q db).Perm (q db')
  | .redisGet key => tenantPrefix o <+: key
  | .redisSet _ _ _ => True
  | .presignGet _ _ | .validateEmail _ => True
  | _ => False

abbrev Observes {α : Type} (o : Uuid) (db db' : Db) (p : Coro α) (Q : α → Prop) : Prop :=
  Prog.Returns (S := sig) (From (· = db)) (Op.Sees o db db') p Q

section Observes

variable {α β : Type} {o : Uuid} {db db' : Db}

theorem Db.AgreesOn.perm_rows {t : Table} {p : t.Row → Bool} (h : db.AgreesOn o db')
    (hp : ∀ r, p r = true → t.org r = some o) :
    (rowsWhere t p db).Perm (rowsWhere t p db') :=
  Keyed.Rows.filter_perm p fun r hr => h.rows t r (hp r hr)

theorem Db.AgreesOn.perm_users {p : User → Bool} (h : db.AgreesOn o db') :
    (rowsWhere .users p db).Perm (rowsWhere .users p db') :=
  Keyed.Rows.filter_perm p fun r _ => h.users r

theorem Db.AgreesOn.get_user (h : db.AgreesOn o db') (id : Uuid) :
    db.get .users id = db'.get .users id := by
  apply Option.ext
  intro u
  rw [Db.get_eq_some, Db.get_eq_some, h.users u]

theorem Db.AgreesOn.perm_joined {t : Table} {ref : t.Row → Option Uuid} {p : t.Row → Bool}
    (h : db.AgreesOn o db') (hp : (rowsWhere t p db).Perm (rowsWhere t p db')) :
    (joinedLoad t .users ref p db).Perm (joinedLoad t .users ref p db') := by
  have hget : db.get .users = db'.get .users := funext h.get_user
  unfold joinedLoad
  rw [hget]
  exact hp.map _

theorem observes_getById {t : Table} {id : Uuid} (h : db.AgreesOn o db') :
    Observes o db db' (getById t o id) fun _ => True :=
  (returns_getById (h.perm_rows fun r hr => by
    simp only [inTenant, Bool.and_eq_true, decide_eq_true_eq] at hr
    exact hr.2.1)).mono fun _ _ _ _ => trivial

theorem Db.AgreesOn.team_members {team : Team} (h : db.AgreesOn o db') (hs : db.SharesTenant)
    (hs' : db'.SharesTenant) (hteam : team ∈ db.rows .teams) (horg : team.organizationId = o) :
    (rowsWhere .teamMembers (fun (m : TeamMember) => m.teamId = team.id) db).Perm
      (rowsWhere .teamMembers (fun (m : TeamMember) => m.teamId = team.id) db') := by
  have hmember : ∀ d : Db, d.SharesTenant → team ∈ d.rows .teams →
      ∀ m : TeamMember, m ∈ d.rows .teamMembers → m.teamId = team.id →
        Table.teamMembers.org m = some o := by
    intro d hd ht m hm hid
    obtain ⟨o', ho', x, hx, hxo⟩ := hd .teamMembers m hm (.teams, m.teamId) List.mem_cons_self
    obtain ⟨hxd, hxid⟩ := Db.get_eq_some.mp hx
    cases Db.eq_of_id hxd ht (hxid.trans hid)
    exact ho'.trans (hxo.symm.trans (congrArg some horg))
  have hteam' : team ∈ db'.rows .teams := (h.rows .teams team (congrArg some horg)).mp hteam
  refine Keyed.Rows.filter_perm _ fun m hm => ?_
  have hid : m.teamId = team.id := of_decide_eq_true hm
  constructor
  · exact fun hmem => (h.rows .teamMembers m (hmember db hs hteam m hmem hid)).mp hmem
  · exact fun hmem => (h.rows .teamMembers m (hmember db' hs' hteam' m hmem hid)).mpr hmem

theorem observes_map {p : Coro α} {f : α → β} (hp : Observes o db db' p fun _ => True) :
    Observes o db db' (p >>= fun a => pure (f a)) fun _ => True :=
  hp.bind fun _ _ => Prog.returns_pure trivial

theorem observes_select {q : Db → List α} (h : (q db).Perm (q db')) :
    Observes o db db' (ask (.select q)) fun _ => True :=
  (returns_select (D := (· = db)) (P := Op.Sees o db db') h).mono fun _ _ _ _ => trivial

theorem observes_withArguments {arguments : List Argument} {p : Coro α}
    (hp : Observes o db db' p fun _ => True) :
    Observes o db db' (withArguments arguments p) fun _ => True := by
  unfold withArguments
  split
  · exact hp
  · exact Prog.returns_throw

theorem observes_getTeamDetail {teamId : Uuid} (h : db.AgreesOn o db') (hs : db.SharesTenant)
    (hs' : db'.SharesTenant) :
    Observes o db db' (TeamService.getTeamDetail o teamId) fun _ => True := by
  have hteam : (rowsWhere .teams (fun (t : Team) => t.id = teamId && t.organizationId = o) db).Perm
      (rowsWhere .teams (fun (t : Team) => t.id = teamId && t.organizationId = o) db') :=
    h.perm_rows fun t ht => by
      simp only [Bool.and_eq_true, decide_eq_true_eq] at ht
      exact congrArg some ht.2
  have hload : Observes o db db' (getTeamWithMembers o teamId) fun _ => True := by
    refine (returns_selectOne hteam).bind fun x hx => ?_
    cases x with
    | none => exact Prog.returns_pure trivial
    | some team =>
      obtain ⟨d, rfl, hmem⟩ := hx team rfl
      obtain ⟨hrow, hp⟩ := mem_rowsWhere.mp hmem
      simp only [Bool.and_eq_true, decide_eq_true_eq] at hp
      exact observes_map (observes_select (h.perm_joined (h.team_members hs hs' hrow hp.2)))
  refine hload.bind fun x _ => ?_
  cases x with
  | none => exact Prog.returns_throw
  | some loaded => exact observes_map (all_requireJoined loaded.2).returns

theorem observes_requireRole {minRole : OrgRole} {bearer : Token} (h : db.AgreesOn o db') :
    Observes o db db' (requireRole minRole bearer o) fun ctx => ctx.organizationId = o :=
  returns_requireRole trivial (fun _ => h.perm_users) fun _ => h.perm_rows fun m hm => by
    simp only [Bool.and_eq_true, decide_eq_true_eq] at hm
    exact congrArg some hm.1

theorem observes_orDefault {p : Coro α} {a : α} (hp : Observes o db db' p fun _ => True) :
    Observes o db db' (orDefault a p) fun _ => True :=
  hp.tryCatch fun _ => Prog.returns_pure trivial

theorem observes_perform (op : Op) (h : op.Sees o db db') :
    Observes o db db' (ask op) fun _ => True := ⟨h, fun _ _ _ _ => trivial⟩

theorem observes_getTask {user : User} {role : OrgRole} {taskId : Uuid} (h : db.AgreesOn o db') :
    Observes o db db' (Endpoints.getTask ⟨user, o, role⟩ taskId) fun _ => True := by
  refine (observes_getById h).bind fun x _ => ?_
  cases x with
  | none => exact Prog.returns_throw
  | some task => exact Prog.returns_pure trivial

theorem observes_getCurrentOrganization {user : User} {role : OrgRole} (h : db.AgreesOn o db') :
    Observes o db db' (Endpoints.getCurrentOrganization ⟨user, o, role⟩) fun _ => True := by
  have hrows : (rowsWhere .organizations (fun r => Table.organizations.id r = o) db).Perm
      (rowsWhere .organizations (fun r => Table.organizations.id r = o) db') :=
    h.perm_rows fun r hr => congrArg some (of_decide_eq_true hr)
  refine (returns_selectOne hrows).bind fun x _ => ?_
  cases x with
  | none => exact Prog.returns_throw
  | some org => exact Prog.returns_pure trivial

theorem observes_memberDetail (m : OrganizationMember) (u : User) :
    Observes o db db' (Endpoints.memberDetail m u) fun _ => True :=
  observes_map (observes_perform (.validateEmail u.email) trivial)

theorem observes_listOrganizationMembers {user : User} {role : OrgRole} (h : db.AgreesOn o db') :
    Observes o db db' (Endpoints.listOrganizationMembers ⟨user, o, role⟩) fun _ => True := by
  have hrows : (rowsWhere .organizationMembers
      (fun (m : OrganizationMember) => m.organizationId = o) db).Perm (rowsWhere
        .organizationMembers (fun (m : OrganizationMember) => m.organizationId = o) db') :=
    h.perm_rows fun m hm => congrArg some (of_decide_eq_true hm)
  refine (observes_select (h.perm_joined hrows)).bind fun members _ =>
    (all_requireJoined _).returns.bind fun joined _ => ?_
  exact (returns_forEach (R := fun _ _ => True) fun x _ =>
    observes_memberDetail x.1 x.2).mono fun _ _ _ _ => trivial

theorem observes_listPaginated {t : Table} {offset limit : Nat} (h : db.AgreesOn o db') :
    Observes o db db' (listPaginated t o offset limit) fun _ => True :=
  observes_map (observes_select (h.perm_rows fun r hr => by
    simp only [inTenant, Bool.and_eq_true, decide_eq_true_eq] at hr
    exact hr.1))

theorem observes_getProject {user : User} {role : OrgRole} {projectId : Uuid}
    (h : db.AgreesOn o db') :
    Observes o db db' (Endpoints.getProject ⟨user, o, role⟩ projectId) fun _ => True := by
  have hkey := tenantPrefix_projectCacheKey o projectId
  have hcached : Observes o db db' (CacheService.get (projectCacheKey o projectId))
      fun _ => True :=
    observes_orDefault ((observes_perform (.redisGet (projectCacheKey o projectId)) hkey).bind
      fun x _ => by
        match x with
        | some (.project p) => exact Prog.returns_pure trivial
        | none | some .revoked => exact Prog.returns_pure trivial)
  refine hcached.bind fun x _ => ?_
  cases x with
  | some cached => exact Prog.returns_pure trivial
  | none =>
    refine (observes_getById h).bind fun x _ => ?_
    cases x with
    | none => exact Prog.returns_throw
    | some project =>
      have hstore : Observes o db db' (CacheService.set (projectCacheKey o projectId)
          (.ofProject project) 300) fun _ => True :=
        observes_orDefault (observes_perform _ trivial)
      exact hstore.bind fun _ _ => Prog.returns_pure trivial

theorem observes_listAttachments {user : User} {role : OrgRole} {taskId : Uuid}
    (h : db.AgreesOn o db') :
    Observes o db db' (Endpoints.listAttachments ⟨user, o, role⟩ taskId) fun _ => True := by
  have hrows : (rowsWhere .attachments
      (fun (a : Attachment) => a.organizationId = o && a.taskId = taskId) db).Perm (rowsWhere
        .attachments (fun (a : Attachment) => a.organizationId = o && a.taskId = taskId) db') :=
    h.perm_rows fun a ha => by
      simp only [Bool.and_eq_true, decide_eq_true_eq] at ha
      exact congrArg some ha.1
  refine (observes_map (observes_select hrows)).bind fun attachments _ => ?_
  refine (returns_forEach (R := fun _ _ => True) fun a _ => ?_).mono fun _ _ _ _ => trivial
  exact observes_map (observes_perform (.presignGet a.s3Key 3600) trivial)

theorem observes_queryAuditLogs {user : User} {role : OrgRole} {filters : AuditLogFilterParams}
    {page : Page} {pageSize : PageSize} (h : db.AgreesOn o db') :
    Observes o db db' (Endpoints.queryAuditLogs ⟨user, o, role⟩ filters page pageSize)
      fun _ => True := by
  have hrows : (rowsWhere .auditLogs (auditCriteria o filters) db).Perm
      (rowsWhere .auditLogs (auditCriteria o filters) db') :=
    h.perm_rows fun a ha => by
      simp only [auditCriteria, Bool.and_eq_true, decide_eq_true_eq] at ha
      exact congrArg some ha.1.1.1.1.1.1
  refine observes_map ((observes_withArguments (observes_select hrows)).bind fun counted _ => ?_)
  exact observes_map (observes_withArguments (observes_select (h.perm_joined hrows)))

end Observes

def TenantRequest.isRead : TenantRequest → Bool
  | .getCurrentOrganization | .listOrganizationMembers | .listTeams | .getTeam _ => true
  | .listProjects | .getProject _ | .getTask _ | .listTasksFeed _ _ _ _ => true
  | .listTasksOffset _ _ _ _ _ _ _ _ | .listComments _ _ _ | .listAttachments _ => true
  | .queryAuditLogs _ _ _ => true
  | _ => false

section

variable [Library] {o : Uuid} {db db' : Db}

theorem taskCriteria_org {filters : TaskFilterParams} {t : Task}
    (h : taskCriteria o filters t = true) : t.organizationId = o := by
  simp only [taskCriteria, Bool.and_eq_true, decide_eq_true_eq] at h
  exact h.1.1.1.1.1.1.1

theorem observes_listTasksOffset {filters : TaskFilterParams} {offset limit : Nat}
    (h : db.AgreesOn o db') :
    Observes o db db' (listTasksOffset o filters offset limit) fun _ => True := by
  have hrows : (rowsWhere .tasks (taskCriteria o filters) db).Perm
      (rowsWhere .tasks (taskCriteria o filters) db') :=
    h.perm_rows fun t ht => congrArg some (taskCriteria_org ht)
  exact (observes_withArguments (observes_select hrows)).bind fun counted _ =>
    observes_map (observes_withArguments (observes_select hrows))

theorem observes_listTasksCursor {filters : TaskFilterParams} {cursor : Option (Instant × Uuid)}
    {limit : Nat} (h : db.AgreesOn o db') :
    Observes o db db' (listTasksCursor o filters cursor limit) fun _ => True := by
  have hrows : (rowsWhere .tasks (fun t => taskCriteria o filters t &&
      cursor.all fun k => decide (keyLt (Task.feedKey t) k)) db).Perm (rowsWhere .tasks (fun t =>
        taskCriteria o filters t && cursor.all fun k => decide (keyLt (Task.feedKey t) k)) db') :=
    h.perm_rows fun t ht => congrArg some (taskCriteria_org (Bool.and_eq_true_iff.mp ht).1)
  exact observes_map (observes_withArguments (observes_select hrows))

theorem observes_listComments {taskId : Uuid} {cursor : Option Str} {limit : Nat}
    (h : db.AgreesOn o db') :
    Observes o db db' (CommentService.listComments o taskId cursor limit) fun _ => True := by
  refine observes_map (observes_map (observes_withArguments
    (observes_select (h.perm_joined (h.perm_rows fun c hc => ?_)))))
  simp only [Bool.and_eq_true, decide_eq_true_eq] at hc
  exact congrArg some hc.1.1

theorem observes_endpoint {user : User} {role : OrgRole} {q : TenantRequest}
    (h : db.AgreesOn o db') (hs : db.SharesTenant) (hs' : db'.SharesTenant)
    (hq : q.isRead = true) : Observes o db db' (q.endpoint ⟨user, o, role⟩) fun _ => True := by
  cases q with
  | getCurrentOrganization => exact observes_map (observes_getCurrentOrganization h)
  | listOrganizationMembers => exact observes_map (observes_listOrganizationMembers h)
  | listTeams =>
    refine observes_map ((observes_listPaginated h).bind fun teams _ => ?_)
    exact (returns_forEach (R := fun _ _ => True) fun team _ =>
      observes_getTeamDetail h hs hs').mono fun _ _ _ _ => trivial
  | getTeam teamId => exact observes_map (observes_getTeamDetail h hs hs')
  | listProjects => exact observes_map (observes_map (observes_listPaginated h))
  | getProject projectId => exact observes_map (observes_getProject h)
  | listTasksOffset projectId status priority assigneeId search sortBy page pageSize =>
    exact observes_map (observes_map (observes_listTasksOffset h))
  | listTasksFeed projectId status cursor limit =>
    exact observes_map (observes_map (observes_listTasksCursor h))
  | getTask taskId => exact observes_map (observes_getTask h)
  | listComments taskId cursor limit => exact observes_map (observes_listComments h)
  | listAttachments taskId => exact observes_map (observes_listAttachments h)
  | queryAuditLogs filters page pageSize => exact observes_map (observes_queryAuditLogs h)
  | _ => cases hq

theorem observes_handle {bearer : Token} {q : TenantRequest} (h : db.AgreesOn o db')
    (hs : db.SharesTenant) (hs' : db'.SharesTenant) (hq : q.isRead = true) :
    Observes o db db' (Request.handle (.tenant bearer o q)) fun _ => True :=
  returns_withDbSession trivial ((observes_requireRole h).bind fun ctx hctx => by
    obtain ⟨user, o', role⟩ := ctx
    cases hctx
    exact observes_endpoint h hs hs' hq)

/-- Sessions `i` and `j` have written nothing, and the states differ only in what the
organization does not see. -/
structure Alike (o : Uuid) (db db' : Db) (i j : Nat) (w v : World) : Prop where
  left : w.db = db
  right : v.db = db'
  unwritten : w.rows i = []
  unwritten' : v.rows j = []
  now : v.now = w.now
  faults : v.faults = w.faults
  redis : w.redis.AgreesOn o w.now v.redis

theorem mirrors (o : Uuid) (db db' : Db) (i j : Nat) :
    Mirrors machine i j (From (· = db)) (Op.Sees o db db') (Alike o db db' i j) where
  act op w v a w' hop h he := by
    cases op with
    | clock =>
      obtain ⟨rfl, rfl⟩ := he
      exact ⟨trivial, v, ⟨by rw [h.now], rfl⟩, h⟩
    | rollback =>
      obtain ⟨rfl, rfl⟩ := he
      exact ⟨trivial, v.rollback j, ⟨rfl, rfl⟩, h.left, h.right,
        World.rows_rollback i w, World.rows_rollback j v, h.now, h.faults, h.redis⟩
    | select q =>
      obtain ⟨rfl, ⟨rows, rfl, hperm⟩ | ⟨hfaulty, rfl⟩⟩ := he
      · have hview : w'.view i = db := (World.view_of_rows h.unwritten).trans h.left
        have hview' : v.view j = db' := (World.view_of_rows h.unwritten').trans h.right
        rw [hview] at hperm
        refine ⟨?_, v, ⟨rfl, Or.inl ⟨rows, rfl, hview' ▸ hperm.trans hop⟩⟩, h⟩
        rintro _ ⟨⟩
        exact ⟨db, rfl, hperm⟩
      · exact ⟨nofun, v, ⟨rfl, Or.inr ⟨h.faults ▸ hfaulty, rfl⟩⟩, h⟩
    | redisGet key =>
      obtain ⟨rfl, rfl | ⟨hfaulty, rfl⟩⟩ := he
      · refine ⟨trivial, v, ⟨rfl, Or.inl ?_⟩, h⟩
        rw [h.now, h.redis key hop _ le_rfl]
      · exact ⟨trivial, v, ⟨rfl, Or.inr ⟨h.faults ▸ hfaulty, rfl⟩⟩, h⟩
    | redisSet key x ex =>
      rcases he with ⟨rfl, rfl⟩ | ⟨rfl, hfaulty, rfl⟩
      · refine ⟨trivial, _, Or.inl ⟨rfl, rfl⟩, h.left, h.right, h.unwritten, h.unwritten', h.now,
          h.faults, ?_⟩
        rw [h.now]
        exact h.redis.set _ key x ex
      · exact ⟨trivial, v, Or.inr ⟨rfl, h.faults ▸ hfaulty, rfl⟩, h⟩
    | presignGet key expiresIn =>
      rcases he with ⟨ha, rfl⟩ | ⟨rfl, ha | ⟨hfaulty, ha⟩⟩
      · exact ⟨trivial, _, Or.inl ⟨ha, rfl⟩, h.left, h.right, h.unwritten, h.unwritten', h.now,
          h.faults, h.redis⟩
      · exact ⟨trivial, v, Or.inr ⟨rfl, Or.inl ha⟩, h⟩
      · exact ⟨trivial, v, Or.inr ⟨rfl, Or.inr ⟨h.faults ▸ hfaulty, ha⟩⟩, h⟩
    | validateEmail email =>
      obtain ⟨rfl, ha⟩ := he
      exact ⟨trivial, v, ⟨rfl, ha⟩, h⟩
    | _ => exact hop.elim
  env w v w' h he := by
    cases he with
    | tick now hle =>
      refine Or.inr ⟨_, .tick v now (h.now ▸ hle), h.left, h.right, h.unwritten, h.unwritten', rfl,
        h.faults, h.redis.mono hle⟩
    | listen k wake hub hl =>
      exact Or.inl ⟨h.left, h.right, h.unwritten, h.unwritten', h.now, h.faults, h.redis⟩

def Idled (w w' : World) : Prop := ∃ now hub, w' = { w with now := now, hub := hub }

omit [Library] in
theorem Idled.environment {w w' w'' : World} (h : Idled w w') (he : Environment w' w'') :
    Idled w w'' := by
  obtain ⟨now, hub, rfl⟩ := h
  cases he with
  | tick now' _ => exact ⟨now', hub, rfl⟩
  | listen _ _ hub' _ => exact ⟨now, hub', rfl⟩

/-- The answers that a request may get when it arrives at `t` with no other beside it. -/
def Possible (c : AppConfig) (t : Instant) (r : Request) (a : Except Exn Response) : Prop :=
  LoneAnswer app c (fun w => w.now = t) r a

theorem Possible.of_agreesOn {faults : Faults} {now now' t : Instant} {c d : AppConfig}
    (hc : Reach app anySchedule (genesis faults now) c)
    (hd : Reach app anySchedule (genesis faults now') d) (htd : d.state.now ≤ t)
    (hagree : c.state.AgreesOn o t d.state) {bearer : Token} {q : TenantRequest}
    (hq : q.isRead = true) {a : Except Exn Response}
    (h : Possible c t (.tenant bearer o q) a) : Possible d t (.tenant bearer o q) a := by
  obtain ⟨n, hn⟩ := hd.eventually_idle fun _ => rfl
  have hshares : ∀ now e, Reach app anySchedule (genesis faults now) e →
      e.state.db.SharesTenant := fun now e he =>
    genesis_invariant Db.SharesTenant (fun _ r hr => absurd hr (Db.not_mem_empty r))
      (fun _ _ _ hI hw _ _ => hI.writes hw) (committing_unconditional he)
  refine LoneAnswer.mirror (Idled c.state) h
    (observes_handle hagree.db (hshares _ _ hc) (hshares _ _ hd) hq) (hn n le_rfl)
    (fun i => mirrors o c.state.db d.state.db i n) ⟨_, _, rfl⟩
    (fun _ _ he hidled => hidled.environment he) ?_
  rintro i _ hidle ⟨now'', hub, rfl⟩ rfl
  refine ⟨_, .tick d.state now'' htd, rfl, rfl, rfl, reached_fresh hc hidle,
    reached_fresh hd (hn n le_rfl), rfl, ?_, hagree.redis⟩
  exact (reached_faults hd).trans (reached_faults hc).symm

/-- When two reachable states agree on the users, on the rows of `o` and on its part of the
cache from `t` on, then a read of `o` that arrives at `t` may get the same answers in both. -/
theorem reads_noninterfering {faults : Faults} {now now' t : Instant} {c d : AppConfig}
    (hc : Reach app anySchedule (genesis faults now) c)
    (hd : Reach app anySchedule (genesis faults now') d) (htc : c.state.now ≤ t)
    (htd : d.state.now ≤ t) (hagree : c.state.AgreesOn o t d.state) (bearer : Token)
    {q : TenantRequest} (hq : q.isRead = true) (a : Except Exn Response) :
    Possible c t (.tenant bearer o q) a ↔ Possible d t (.tenant bearer o q) a :=
  ⟨.of_agreesOn hc hd htd hagree hq, .of_agreesOn hd hc htc hagree.symm hq⟩

theorem possible_solo {c : AppConfig} {t : Instant} {i : Nat} {r : Request}
    {a : Except Exn Response} (hidle : (c.thread i).isNone) (hnow : c.state.now = t)
    (h : answer (runMoves c (solo i r)) i = some a) : Possible c t r a := by
  have hnone : c.thread i = none := Option.isNone_iff_eq_none.mp hidle
  have hreach : Reach app (lone i r fun w => w.now = t)
      (c.setThread i ⟨r, r.handle⟩ c.state) (runMoves c (solo i r)) := by
    rw [solo_started hnone]
    refine Config.play_reach (M := app) scheduler (fun _ => True) (fun _ _ _ _ _ _ => trivial)
      (fun d m hm _ => ?_) trivial
    cases List.eq_of_mem_replicate hm
    exact fun _ _ _ _ => rfl
  have hstarted : Reach app (lone i r fun w => w.now = t) c
      (c.setThread i ⟨r, r.handle⟩ c.state) :=
    .step (l := .start i r) .refl ⟨rfl, rfl, hnow⟩ (.start hnone)
  exact ⟨i, _, hnone, hstarted.trans hreach,
    answer_thread hreach (Config.thread_setThread _ _ _ _) h⟩

def commitsNext (c : AppConfig) (i : Nat) : Bool :=
  match c.thread i with
  | some ⟨_, .call .commit _⟩ => true
  | _ => false

theorem commitsNext_redis {c : AppConfig} {i : Nat} (h : commitsNext c i = true) :
    (runMoves c [.act i false]).state.redis = c.state.redis := by
  unfold commitsNext at h
  split at h
  · next r k ht =>
    simp only [runMoves, Config.play, List.foldl_cons, List.foldl_nil, Config.move, ht]
    rfl
  · cases h

end

theorem Db.agreesOn_of_lists {o : Uuid} {db db' : Db}
    (husers : (db.rows .users).list = (db'.rows .users).list)
    (hrows : ∀ t : Table, rowsWhere t (fun r => t.org r = some o) db =
      rowsWhere t (fun r => t.org r = some o) db') : db.AgreesOn o db' where
  users u := by rw [← Keyed.Rows.mem_list, husers, Keyed.Rows.mem_list]
  rows t r hr := by
    have hmem := congrArg (r ∈ ·) (hrows t)
    simpa [mem_rowsWhere, hr] using hmem

section

open scoped Ascii

def apolloPending : AppConfig :=
  runMoves (genesis noFaults 0) (annsProject.take 90)

def apolloCommitted : AppConfig := runMoves apolloPending [.act 2 false]

theorem apollo_agrees : apolloPending.state.AgreesOn (drawnId 11) 0 apolloCommitted.state where
  db := Db.agreesOn_of_lists (by decide +kernel) fun t => by cases t <;> decide +kernel
  redis key _ now _ := by
    have hnext : commitsNext apolloPending 2 = true := by decide +kernel
    have hredis : (runMoves apolloPending [.act 2 false]).state.redis =
        apolloPending.state.redis := commitsNext_redis hnext
    unfold apolloCommitted
    rw [hredis]

/-- The second user cannot tell whether the first has committed her project. -/
theorem apollo_unobserved : Possible apolloCommitted 0 (asBob (.getProject (drawnId 15)))
    (.error (.entityNotFound projectEntity (drawnId 15).str)) := by
  have hpending : Reach app anySchedule (genesis noFaults 0) apolloPending :=
    runMoves_any fun _ => rfl
  have hasked : answer (runMoves apolloPending (solo 3 (asBob (.getProject (drawnId 15))))) 3 =
      some (.error (.entityNotFound projectEntity (drawnId 15).str)) :=
    answer_of_refused (by decide +kernel)
  exact (reads_noninterfering hpending (hpending.trans runMoves_path) (by decide +kernel)
    (by decide +kernel) apollo_agrees _ rfl _).mp
    (possible_solo (i := 3) (by decide +kernel) (by decide +kernel) hasked)

end

end MultiTenantSaas
