import MultiTenantSaas.SessionRules

/-!
Every endpoint keeps the contract: what it reads admits it, and what it commits,
publishes, presigns and joins is what its request allows.
-/

set_option autoImplicit false

namespace MultiTenantSaas

open Process

section Silent

variable {α β : Type}

theorem all_ite {P : Op → Prop} {c : Prop} [Decidable c] {p q : Coro α}
    (hp : Prog.All (S := sig) P p) (hq : Prog.All (S := sig) P q) :
    Prog.All (S := sig) P (if c then p else q) := by split <;> assumption

theorem silent_ite {c : Prop} [Decidable c] {p q : Coro α} (hp : Silent p) (hq : Silent q) :
    Silent (if c then p else q) := all_ite hp hq

theorem all_selectOne {P : Op → Prop} {q : Db → List α} (h : P (.select q)) :
    Prog.All (S := sig) P (selectOne q) :=
  (Prog.all_perform h).bind fun rows => by
    match rows with
    | [] => trivial
    | [_] => trivial
    | _ :: _ :: _ => trivial

theorem silent_selectOne (q : Db → List α) : Silent (selectOne q) :=
  all_selectOne (P := fun o => o.silent = true) rfl

theorem silent_sessionGet (t : Table) (id : Uuid) : Silent (sessionGet t id) :=
  silent_selectOne _

theorem silent_getById (t : Table) (o id : Uuid) : Silent (getById t o id) := silent_selectOne _

theorem silent_refresh (t : Table) (id : Uuid) : Silent (refresh t id) :=
  (silent_sessionGet t id).bind fun x => by cases x <;> trivial

theorem silent_listPaginated (t : Table) (o : Uuid) (offset limit : Nat) :
    Silent (listPaginated t o offset limit) := (silent_ask rfl).bind fun _ => trivial

theorem all_requireJoined {P : Op → Prop} (rows : List (α × Option β)) :
    Prog.All (S := sig) P (requireJoined rows) := by
  induction rows with
  | nil => trivial
  | cons row rows ih =>
    obtain ⟨a, b⟩ := row
    cases b with
    | none => trivial
    | some b => exact ih.bind fun _ => trivial

theorem silent_requireJoined (rows : List (α × Option β)) : Silent (requireJoined rows) :=
  all_requireJoined rows

theorem all_withArguments {P : Op → Prop} (arguments : List Argument) {p : Coro α}
    (hp : Prog.All (S := sig) P p) : Prog.All (S := sig) P (withArguments arguments p) := by
  unfold withArguments
  split
  · exact hp
  · trivial

theorem silent_withArguments (arguments : List Argument) {p : Coro α} (hp : Silent p) :
    Silent (withArguments arguments p) := all_withArguments arguments hp

theorem silent_listTasksOffset [Library] (o : Uuid) (filters : TaskFilterParams)
    (offset limit : Nat) : Silent (listTasksOffset o filters offset limit) :=
  (silent_withArguments _ (silent_ask rfl)).bind fun _ =>
    (silent_withArguments _ (silent_ask rfl)).bind fun _ => trivial

theorem silent_listTasksCursor [Library] (o : Uuid) (filters : TaskFilterParams)
    (cursor : Option (Instant × Uuid)) (limit : Nat) :
    Silent (listTasksCursor o filters cursor limit) :=
  (silent_withArguments _ (silent_ask rfl)).bind fun _ => trivial

theorem silent_listCommentsCursor (o taskId : Uuid) (cursor : Option (Instant × Uuid))
    (limit : Nat) : Silent (listCommentsCursor o taskId cursor limit) :=
  (silent_withArguments _ (silent_ask rfl)).bind fun _ => trivial

theorem silent_listAuditLogs (o : Uuid) (filters : AuditLogFilterParams) (offset limit : Nat) :
    Silent (listAuditLogs o filters offset limit) :=
  (silent_withArguments _ (silent_ask rfl)).bind fun _ =>
    (silent_withArguments _ (silent_ask rfl)).bind fun _ => trivial

theorem silent_memberDetail (m : OrganizationMember) (u : User) :
    Silent (Endpoints.memberDetail m u) := (silent_ask rfl).bind fun _ => trivial

theorem silent_forEach {f : α → Coro β} (hf : ∀ a, Silent (f a)) (as : List α) :
    Silent (forEach f as) := by
  induction as with
  | nil => trivial
  | cons a as ih => exact (hf a).bind fun _ => ih.bind fun _ => trivial

theorem silent_orDefault {d : α} {p : Coro α} (hp : Silent p) : Silent (orDefault d p) :=
  hp.tryCatch fun _ => trivial

theorem all_decodeJwtToken {P : Op → Prop} (h : P .clock) (token : Token) :
    Prog.All (S := sig) P (decodeJwtToken token) := by
  unfold decodeJwtToken
  split
  · trivial
  · exact (Prog.all_perform h).bind fun now => by split <;> trivial

theorem all_receiveLoop {P : Op → Prop} (htext : ∀ text, P (.receiveText text))
    (hend : P .receiveEnd) (texts : List Str) :
    Prog.All (S := sig) P (Endpoints.receiveLoop texts) := by
  induction texts with
  | nil => exact (Prog.all_perform hend).bind fun never => nomatch never
  | cons text texts ih => exact (Prog.all_perform (htext text)).bind fun _ => ih

theorem silent_decodeJwtToken (token : Token) : Silent (decodeJwtToken token) :=
  all_decodeJwtToken (P := fun o => o.silent = true) rfl token

theorem silent_createJwtToken (subject : Uuid) (tokenType : Str) (delta : Int) :
    Silent (createJwtToken subject tokenType delta) :=
  (silent_ask rfl).bind fun _ => (silent_ask rfl).bind fun _ => (silent_ask rfl).bind fun _ =>
    trivial

theorem silent_generateTokenPair (userId : Uuid) : Silent (generateTokenPair userId) :=
  (silent_createJwtToken _ _ _).bind fun _ => (silent_createJwtToken _ _ _).bind fun _ => trivial

theorem silent_revokeToken (jti : Str) (expiresAt : Instant) :
    Silent (revokeToken jti expiresAt) := by
  refine (silent_ask rfl).bind fun now => ?_
  dsimp only
  split
  · exact silent_ask rfl
  · trivial

theorem silent_rateLimiter (limit window : Nat) (clientIp : Option Str) (path : Str) :
    Silent (rateLimiter limit window clientIp path) := by
  refine (silent_ask rfl).bind fun now => (silent_ask rfl).bind fun perf =>
    (silent_ask rfl).bind fun count => ?_
  dsimp only
  split <;> trivial

theorem silent_getTeamDetail (o teamId : Uuid) : Silent (TeamService.getTeamDetail o teamId) := by
  refine Prog.All.bind ((silent_selectOne _).bind fun team => ?_) fun team => ?_
  · cases team with
    | none => trivial
    | some team => exact (silent_ask rfl).bind fun _ => trivial
  · match team with
    | none => trivial
    | some (team, members) => exact (silent_requireJoined members).bind fun _ => trivial

theorem silent_cacheGet (key : Str) : Silent (CacheService.get key) :=
  silent_orDefault <| (silent_ask rfl).bind fun v => by
    match v with
    | none => trivial
    | some .revoked => trivial
    | some (.project _) => trivial

theorem silent_getUserProfile (userId : Uuid) : Silent (AuthService.getUserProfile userId) := by
  refine (silent_sessionGet .users userId).bind fun user => ?_
  cases user with
  | none => trivial
  | some user =>
    exact (silent_ask rfl).bind fun _ => (silent_requireJoined _).bind fun _ =>
      (silent_ask rfl).bind fun _ => trivial

theorem silent_logout (token : Token) : Silent (AuthService.logout token) := by
  refine Prog.All.tryCatch ((silent_decodeJwtToken token).bind fun payload => ?_) fun _ => trivial
  split
  · exact silent_revokeToken _ _
  · trivial

end Silent

section Admission

theorem Request.Joins.mono {db db' : Db} {p : Uuid} {r : Request} (h : r.Joins db p)
    (he : Extends db db') : r.Joins db' p := by
  cases r <;> try exact h
  obtain ⟨hp, payload, userId, project, m, hpay, htype, hsub, hproj, hid, hm, ho, hu⟩ := h
  obtain ⟨project', hproj', hf⟩ := he.mem_frozen hproj
  exact ⟨hp, payload, userId, project', m, hpay, htype, hsub, hproj',
    (congrArg Project.id hf).trans hid, he.mem (t := .organizationMembers) (fun _ => rfl) hm,
    ho.trans (congrArg Project.organizationId hf).symm, hu⟩

variable [Library] {calm : Table → Uuid → Prop} {i : Nat} {r : Request} {w : World}

theorem ensures_decodeJwtToken {token : Token} {Q : TokenPayload → World → Prop}
    (hQ : ∀ payload w', Later i w w' → token.payload = some payload → Q payload w') :
    Ensures calm i r (decodeJwtToken token) Q w := by
  unfold decodeJwtToken
  cases h : token.payload with
  | none => exact ensures_throw
  | some payload =>
    refine ensures_bind (ensures_quiet rfl (fun _ _ => trivial) fun now _ w' hl _ => ?_)
    exact ensures_ite (fun _ => ensures_pure (hQ payload w' hl h)) fun _ => ensures_throw

theorem ensures_accessSubject {bearer : Token} {Q : Uuid → World → Prop}
    (hQ : ∀ payload userId w', Later i w w' → bearer.payload = some payload →
      payload.type = access → payload.sub = some userId → Q userId w') :
    Ensures calm i r (accessSubject bearer) Q w := by
  refine ensures_bind (ensures_decodeJwtToken fun payload w' hl hp => ?_)
  refine ensures_ite (fun _ => ensures_throw) fun htype => ?_
  cases hsub : payload.sub with
  | none => exact ensures_throw
  | some userId => exact ensures_pure (hQ payload userId w' hl hp (not_not.mp htype) hsub)

theorem ensures_requireRole {minRole : OrgRole} {bearer : Token} {o : Uuid}
    {Q : TenantContext → World → Prop} (hrows : w.rows i = [])
    (hQ : ∀ user role w', Later i w w' → Admitted w'.db bearer o minRole user role →
      Q ⟨user, o, role⟩ w') :
    Ensures calm i r (requireRole minRole bearer o) Q w := by
  refine ensures_bind (ensures_bind (ensures_tryCatch ?_ fun e v =>
    ensures_ite (fun _ => ensures_throw) fun _ => ensures_throw))
  refine ensures_accessSubject fun payload userId w₁ h₁ hp htype hsub => ?_
  refine ensures_bind (ensures_sessionGet (h₁.rows_eq.trans hrows) (fun _ _ => ensures_throw)
    fun user w₂ h₂ hget => ?_)
  refine ensures_ite (fun hactive => ?_) fun _ => ensures_throw
  have hrows₂ := h₂.rows_eq.trans (h₁.rows_eq.trans hrows)
  refine ensures_pure (ensures_bind (ensures_selectOne (fun _ _ _ => ensures_throw)
    fun m w₃ h₃ hm => ?_))
  rw [World.view_of_rows (h₃.rows_eq.trans hrows₂), mem_rowsWhere] at hm
  refine ensures_ite (fun _ => ensures_throw) fun hlevel => ensures_pure ?_
  obtain ⟨hmem, huid⟩ := Db.get_eq_some.mp hget
  refine hQ user _ w₃ (h₁.later_trans (h₂.later_trans h₃)) ⟨⟨payload, hp, htype, ?_⟩,
    h₃.db.mem (t := .users) (fun _ => rfl) hmem, hactive, ⟨m, hm.1, ?_⟩, not_lt.mp hlevel⟩
  · rw [hsub]
    exact congrArg some huid.symm
  · have hc := hm.2
    simp only [Bool.and_eq_true, decide_eq_true_eq] at hc
    exact ⟨hc.1, hc.2, rfl⟩

end Admission

def Logged (i : Nat) (w : World) : Prop := ∃ before es, (i, Event.commit before es) ∈ w.trace

theorem Logged.mono {i : Nat} {w w' : World} (h : Logged i w) (ht : w.trace ⊆ w'.trace) :
    Logged i w' := by
  obtain ⟨before, es, hmem⟩ := h
  exact ⟨before, es, ht hmem⟩

theorem Logged.commit {i : Nat} {w : World} (h : Logged i w) :
    ∃ d ∈ w.commits, d.session = i := by
  obtain ⟨before, es, hmem⟩ := h
  exact ⟨⟨i, before, es⟩, List.mem_filterMap.mpr ⟨_, hmem, rfl⟩, rfl⟩

theorem Committed.loggedAfter {i : Nat} {w w' : World} (h : Committed i w w') : Logged i w' :=
  ⟨_, _, h.logged⟩

theorem TenantHas.of_get {db : Db} {t : Table} {o id : Uuid} {r : t.Row}
    (hget : db.get t id = some r) (ho : t.org r = some o) : TenantHas db t o id := ⟨r, hget, ho⟩

section Commits

variable {calm : Table → Uuid → Prop} {i : Nat} {w : World} {bearer : Token} {o : Uuid}
  {user : User} {role : OrgRole}

/-- The session of `user` in the tenant: admitted, with no row written yet. -/
structure Ready (i : Nat) (bearer : Token) (o : Uuid) (minRole : OrgRole) (user : User)
    (role : OrgRole) (w : World) : Prop where
  admitted : Admitted w.db bearer o minRole user role
  rows : w.rows i = []

theorem Ready.later {minRole : OrgRole} {w' : World} (h : Ready i bearer o minRole user role w)
    (hl : Later i w w') : Ready i bearer o minRole user role w' :=
  ⟨h.admitted.mono hl.db, hl.rows_eq.trans h.rows⟩

theorem HasTaskFor.of_get {db : Db} {id : Uuid} {task : Task} (hget : db.get .tasks id = some task)
    (ho : Table.tasks.org task = some o) : HasTaskFor db o task.projectId :=
  ⟨task, (Db.get_eq_some.mp hget).1, Option.some.inj ho, rfl⟩

variable [Library]

/-- The rows of a request are what it may write, at any moment before the commit. -/
theorem Ready.mayCommit {q : TenantRequest} {es : List Entry} {v : World} {Q : World → Prop}
    (h : Ready i bearer o q.minRole user role w) (hg : Grew i es w v)
    (hw : ∀ w', Grew i es w w' → Later i v w' → q.Writes calm o user role w'.db es)
    (hQ : ∀ w₁ w', Later i v w₁ → w₁.rows i = es → Committed i w₁ w' → Q w') :
    MayCommit calm i (.tenant bearer o q) Q v := by
  intro w₁ h₁
  have hgrew := hg.trans_later h₁
  have hrows : w₁.rows i = es := by rw [hgrew.rows, h.rows, List.nil_append]
  refine ⟨⟨user, role, h.admitted.mono hgrew.db, ?_⟩, fun w' hc => hQ w₁ w' h₁ hrows hc⟩
  rw [hrows]
  exact hw w₁ hgrew h₁

theorem createTeam_ensures {payload : TeamCreate}
    (h : Ready i bearer o .manager user role w) :
    Ensures calm i (.tenant bearer o (.createTeam payload))
      (Endpoints.createTeam ⟨user, o, role⟩ payload) (fun _ => Logged i) w := by
  refine ensures_bind (ensures_transaction (ensures_create fun id now w₁ h₁ hins => ?_))
  refine h.mayCommit (q := .createTeam payload) h₁ (fun w' _ hl => ?_) fun _ w' _ _ hc => ?_
  · exact ⟨id, now, rfl, by simpa using hl.inserted (h₁.mem (by simp)) hins⟩
  · exact ensures_silent (silent_getTeamDetail _ _) fun _ v hv => hc.loggedAfter.mono hv.trace

theorem ensures_sessionGetUser {r : Request} {caller : User} {userId : Uuid}
    {Q : Option User → World → Prop} (hrows : w.rows i = [])
    (hnone : ∀ w', Later i w w' → Q none w') (hsome : ∀ x w', Later i w w' → Q (some x) w') :
    Ensures calm i r (sessionGetUser caller userId) Q w :=
  ensures_ite (fun _ => ensures_pure (hsome caller w (Grew.refl i w)))
    fun _ => ensures_sessionGet (t := .users) hrows hnone fun x w' hl _ => hsome x w' hl

theorem addTeamMember_ensures {teamId : Uuid} {payload : TeamMemberAddRequest}
    (h : Ready i bearer o .manager user role w) :
    Ensures calm i (.tenant bearer o (.addTeamMember teamId payload))
      (Endpoints.addTeamMember ⟨user, o, role⟩ teamId payload) (fun _ => Logged i) w := by
  refine ensures_transaction (ensures_bind (ensures_getById h.rows (fun _ _ => ensures_throw)
    fun team w₁ h₁ hget ho _ => ?_))
  refine ensures_bind (ensures_sessionGetUser (h.later h₁).rows (fun _ _ => ensures_throw)
    fun _ w₂ h₂ => ensures_bind (ensures_insert fun id now w₃ h₃ hins => ensures_pure ?_))
  have hg := h₁.later_trans (h₂.later_trans h₃)
  refine h.mayCommit (q := .addTeamMember teamId payload) hg (fun w' _ hl => ?_)
    fun _ _ _ _ hc => hc.loggedAfter
  refine ⟨id, now, (TenantHas.of_get hget ho).mono ?_, rfl, ?_⟩
  · exact (h₂.later_trans h₃).db.trans hl.db
  · simpa using hl.inserted (h₃.mem (by simp)) hins

theorem updateCurrentOrganization_ensures {payload : OrganizationUpdate}
    (h : Ready i bearer o .admin user role w) :
    Ensures calm i (.tenant bearer o (.updateCurrentOrganization payload))
      (Endpoints.updateCurrentOrganization ⟨user, o, role⟩ payload) (fun _ => Logged i) w := by
  have hafter : ∀ (id : Uuid) (w₁ w' : World), Committed i w₁ w' →
      Ensures calm i (.tenant bearer o (.updateCurrentOrganization payload))
        (do let org ← refresh .organizations id; pure (OrganizationResponse.ofOrganization org))
        (fun _ => Logged i) w' := fun id _ w' hc =>
    ensures_silent ((silent_refresh .organizations id).bind fun _ => trivial)
      fun _ v hv => hc.loggedAfter.mono hv.trace
  refine ensures_bind (ensures_sessionGet h.rows (fun _ _ => ensures_throw)
    fun (org : Organization) w₁ h₁ hget => ?_)
  have hid : org.id = o := (Db.get_eq_some.mp hget).2
  refine ensures_ite (fun _ => ?_) fun _ => ?_
  · refine ensures_bind (ensures_flush (h.later h₁).rows (hid ▸ hget)
      (fun _ _ => Organization.frozen_flush _ _ _ _) fun now current w₂ h₂ hov hslot => ?_)
    refine ensures_bind (ensures_commit (h.mayCommit (q := .updateCurrentOrganization payload)
      (h₁.later_trans h₂) (fun w' _ hl => ?_) fun w₁ w' _ _ hc => hafter org.id w₁ w' hc))
    have hov' := hl.overwrites (h₂.mem (by simp)) hslot hov
    exact Or.inr ⟨org, current, now, hid ▸ hov', rfl⟩
  · exact ensures_bind (ensures_commit (h.mayCommit (q := .updateCurrentOrganization payload)
      h₁ (fun w' _ _ => Or.inl rfl) fun w₁ w' _ _ hc => hafter org.id w₁ w' hc))

theorem inviteMember_ensures {payload : OrgMemberInviteRequest}
    (h : Ready i bearer o .admin user role w) :
    Ensures calm i (.tenant bearer o (.inviteMember payload))
      (Endpoints.inviteMember ⟨user, o, role⟩ payload) (fun _ => Logged i) w := by
  refine ensures_bind (ensures_selectOne (fun _ _ _ => ensures_throw)
    fun (invited : User) w₁ h₁ hx => ?_)
  rw [World.view_of_rows (h.later h₁).rows, mem_rowsWhere] at hx
  refine ensures_bind (ensures_silent (silent_selectOne _) fun existing w₂ h₂ => ?_)
  refine ensures_ite (fun _ => ensures_bind ensures_throw) fun _ => ?_
  refine ensures_bind (ensures_create fun id now w₃ h₃ hins => ?_)
  refine ensures_bind (ensures_commit (h.mayCommit (q := .inviteMember payload)
    (h₁.later_trans (h₂.later_trans h₃)) (fun w' _ hl => ?_) fun _ w' _ _ hc => ?_))
  · refine ⟨invited, id, now, ?_, by simpa using hx.2, rfl, ?_⟩
    · exact ((h₂.later_trans h₃).db.trans hl.db).mem (t := .users) (fun _ => rfl) hx.1
    · simpa using hl.inserted (h₃.mem (by simp)) hins
  · refine ensures_silent ((silent_sessionGet _ _).bind fun _ => ?_) fun _ v hv =>
      hc.loggedAfter.mono hv.trace
    exact (silent_orDefault (silent_ask rfl)).bind fun _ => silent_memberDetail _ _

theorem createProject_ensures {payload : ProjectCreate}
    (h : Ready i bearer o .manager user role w) :
    Ensures calm i (.tenant bearer o (.createProject payload))
      (Endpoints.createProject ⟨user, o, role⟩ payload) (fun _ => Logged i) w := by
  refine ensures_bind (ensures_transaction (ensures_bind (ensures_silent (silent_selectOne _)
    fun existing w₁ h₁ => ?_)))
  refine ensures_ite (fun _ => ensures_bind ensures_throw) fun _ => ?_
  refine ensures_bind (ensures_create fun id now w₂ h₂ hins => ?_)
  refine ensures_bind (ensures_bind (ensures_insert fun auditId now' w₃ h₃ hins' => ?_))
  refine ensures_pure (ensures_pure ?_)
  refine h.mayCommit (q := .createProject payload) (h₁.later_trans (h₂.trans h₃))
    (fun w' _ hl => ?_) fun _ _ _ _ hc => ensures_pure hc.loggedAfter
  refine ⟨id, auditId, now, now', rfl, ?_⟩
  simp only [List.cons_append, List.nil_append, List.forall_mem_cons, List.not_mem_nil,
    false_implies, implies_true, and_true]
  exact ⟨(h₃.trans hl).inserted (h₂.mem (by simp)) hins, hl.inserted (h₃.mem (by simp)) hins'⟩

theorem updateProject_ensures {projectId : Uuid} {payload : ProjectUpdate}
    (h : Ready i bearer o .manager user role w) :
    Ensures calm i (.tenant bearer o (.updateProject projectId payload))
      (Endpoints.updateProject ⟨user, o, role⟩ projectId payload) (fun _ => Logged i) w := by
  refine ensures_bind (ensures_transaction (ensures_bind (ensures_getById h.rows
    (fun _ _ => ensures_throw) fun (project : Project) w₁ h₁ hget ho _ => ?_)))
  have hid : project.id = projectId := (Db.get_eq_some.mp hget).2
  refine ensures_ite (fun _ => ensures_bind ensures_throw) fun hversion => ?_
  refine ensures_bind (ensures_flush (h.later h₁).rows (hid ▸ hget)
    (fun _ _ => Project.frozen_flush _ _ _ _) fun now current w₂ h₂ hov hslot => ?_)
  refine ensures_bind (ensures_bind (ensures_insert fun auditId now' w₃ h₃ hins => ?_))
  refine ensures_pure (ensures_pure ?_)
  refine h.mayCommit (q := .updateProject projectId payload) (h₁.later_trans (h₂.trans h₃))
    (fun w' _ hl => ?_) fun _ _ _ _ hc => ?_
  · refine ⟨project, current, now, now', auditId, hid, Option.some.inj ho, not_not.mp hversion,
      ?_, by rw [hid]; rfl, hl.inserted (h₃.mem (by simp)) hins⟩
    exact hid ▸ (h₃.trans hl).overwrites (h₂.mem (by simp)) hslot hov
  · exact ensures_silent ((silent_orDefault (silent_ask rfl)).bind fun _ => trivial)
      fun _ v hv => hc.loggedAfter.mono hv.trace

theorem ensures_broadcastToRoom {req : TenantRequest} {p : Uuid} {event : Str} {data : JsonObject}
    {Q : Unit → World → Prop} (hp : HasTaskFor w.db o p) (hQ : ∀ w', Later i w w' → Q () w') :
    Ensures calm i (.tenant bearer o req) (broadcastToRoom p event data) Q w :=
  ensures_orDefault rfl (fun _ h₁ => ⟨p, hp.mono h₁.db, rfl⟩) fun _ w' hl => hQ w' hl

def TaskLogged (i : Nat) (x : TaskResponse) (w : World) : Prop :=
  ∃ before es, (i, Event.commit before es) ∈ w.trace ∧
    ∃ task : Task, (⟨.tasks, task⟩ : Entry) ∈ es ∧ x = .ofTask task

omit [Library] in
theorem TaskLogged.mono {x : TaskResponse} {w w' : World} (h : TaskLogged i x w)
    (ht : w.trace ⊆ w'.trace) : TaskLogged i x w' := by
  obtain ⟨before, es, hmem, htask⟩ := h
  exact ⟨before, es, ht hmem, htask⟩

theorem createTask_ensures {payload : TaskCreate} (h : Ready i bearer o .member user role w) :
    Ensures calm i (.tenant bearer o (.createTask payload))
      (Endpoints.createTask ⟨user, o, role⟩ payload) (TaskLogged i) w := by
  refine ensures_bind (ensures_transaction (ensures_bind (ensures_create
    fun id now w₁ h₁ hins => ?_)))
  refine ensures_bind (ensures_bind (ensures_insert fun auditId now' w₂ h₂ hins' => ?_))
  refine ensures_pure (ensures_pure ?_)
  refine h.mayCommit (q := .createTask payload) (h₁.trans h₂) (fun w' _ hl => ?_)
    fun w₃ w' _ hrows hc => ?_
  · refine ⟨id, auditId, now, now', rfl, ?_⟩
    simp only [List.cons_append, List.nil_append, List.forall_mem_cons, List.not_mem_nil,
      false_implies, implies_true, and_true]
    exact ⟨(h₂.trans hl).inserted (h₁.mem (by simp)) hins, hl.inserted (h₂.mem (by simp)) hins'⟩
  · let task := newTask o payload.projectId user.id payload.assigneeId payload.title.text
      payload.description payload.priority id now
    have htask : (⟨.tasks, task⟩ : Entry) ∈ w₃.rows i := by
      rw [hrows]
      exact List.mem_cons_self
    have hlogged : TaskLogged i (.ofTask task) w' := ⟨_, _, hc.logged, task, htask, rfl⟩
    refine ensures_bind (ensures_broadcastToRoom ?_ fun v hv =>
      ensures_pure (hlogged.mono hv.trace))
    refine ⟨task, ?_, rfl, rfl⟩
    rw [hc.db, hrows]
    exact Db.mem_put.mpr (Or.inr ⟨Db.mem_put.mpr (Or.inl rfl), by simp [Entry.slot]⟩)

theorem updateTaskStatus_ensures {taskId : Uuid} {payload : TaskUpdate} {status : TaskStatus}
    (hstatus : payload.status = some status) (h : Ready i bearer o .member user role w) :
    Ensures calm i (.tenant bearer o (.updateTask taskId payload))
      (Endpoints.updateTaskStatus ⟨user, o, role⟩ taskId status payload.expectedVersion.val)
      (fun x w => Logged i w ∧ x.id = taskId) w := by
  refine ensures_bind (ensures_transaction (ensures_bind (ensures_getById h.rows
    (fun _ _ => ensures_throw) fun (existing : Task) w₁ h₁ hget ho hdel => ?_)))
  have hid : existing.id = taskId := (Db.get_eq_some.mp hget).2
  refine ensures_bind (ensures_updateWhere (h.later h₁).rows (fun _ _ => rfl)
    (fun _ _ => ensures_ite (fun _ => ensures_bind ensures_throw) fun hn => absurd rfl hn)
    fun now current w₂ h₂ hcur hcrit hslot => ?_)
  refine ensures_ite (fun _ => ensures_bind ensures_throw) fun _ => ?_
  refine ensures_bind (ensures_bind (ensures_insert fun auditId now' w₃ h₃ hins => ?_))
  refine ensures_pure (ensures_pure ?_)
  have hupdated : ∀ b : Bool, (if b then setStatus status payload.expectedVersion.val existing
      else existing).projectId = existing.projectId ∧ (if b then
      setStatus status payload.expectedVersion.val existing else existing).id = taskId := by
    intro b
    cases b <;> exact ⟨rfl, hid⟩
  refine h.mayCommit (q := .updateTask taskId payload) (h₁.later_trans (h₂.trans h₃))
    (fun w' _ hl => ?_) fun w₄ w' hl _ hc => ?_
  · have hcur' := ((h₃.trans hl).get (h₂.mem (by simp)) hslot).trans hcur
    simp only [TenantRequest.Writes, hstatus]
    refine ⟨existing, current, now, now', auditId, hid, Option.some.inj ho, hdel, hcur', ?_, hcrit,
      by rw [(hupdated _).2]; rfl, hl.inserted (h₃.mem (by simp)) hins⟩
    obtain ⟨current', hget', hf⟩ := h₂.db .tasks taskId existing hget
    rw [hcur] at hget'
    exact Option.some.inj hget' ▸ hf
  · refine ensures_bind (ensures_broadcastToRoom ?_ fun v hv =>
      ensures_pure ⟨hc.loggedAfter.mono hv.trace, (hupdated _).2⟩)
    rw [(hupdated _).1]
    exact ((HasTaskFor.of_get hget ho).mono ((h₂.trans h₃).trans hl).db).mono hc.extend

theorem updateTaskFields_ensures {taskId : Uuid} {payload : TaskUpdate}
    (hstatus : payload.status = none) (h : Ready i bearer o .member user role w) :
    Ensures calm i (.tenant bearer o (.updateTask taskId payload))
      (Endpoints.updateTaskFields ⟨user, o, role⟩ taskId payload)
      (fun x w => Logged i w ∧ x.id = taskId) w := by
  refine ensures_bind (ensures_getById h.rows (fun _ _ => ensures_throw)
    fun (task : Task) w₁ h₁ hget ho hdel => ?_)
  have hid : task.id = taskId := (Db.get_eq_some.mp hget).2
  refine ensures_ite (fun _ => ensures_bind ensures_throw) fun hversion => ?_
  refine ensures_bind (ensures_flush (h.later h₁).rows (hid ▸ hget)
    (fun _ _ => Task.frozen_flush _ _ _ _) fun now current w₂ h₂ hov hslot => ?_)
  refine ensures_bind (ensures_commit (h.mayCommit (q := .updateTask taskId payload)
    (h₁.later_trans h₂) (fun w' _ hl => ?_) fun w₃ w₄ hl _ hc => ?_))
  · simp only [TenantRequest.Writes, hstatus]
    exact ⟨task, current, now, hid, Option.some.inj ho, hdel, not_not.mp hversion,
      hid ▸ hl.overwrites (h₂.mem (by simp)) hslot hov, rfl⟩
  · refine ensures_bind (ensures_refresh hc.rows fun (fresh : Task) w₅ h₅ hfresh => ?_)
    refine ensures_bind (ensures_broadcastToRoom ?_ fun v hv =>
      ensures_pure ⟨hc.loggedAfter.mono fun x hx => hv.trace (h₅.trace hx),
        (Db.get_eq_some.mp hfresh).2.trans hid⟩)
    obtain ⟨task', hget', hf⟩ :=
      (((h₂.trans hl).db.trans hc.extend).trans h₅.db) .tasks task.id task (hid ▸ hget)
    rw [hfresh] at hget'
    exact HasTaskFor.of_get hfresh
      ((Table.org_of_frozen (Option.some.inj hget' ▸ hf)).trans ho)

theorem deleteTask_ensures {taskId : Uuid} (h : Ready i bearer o .member user role w) :
    Ensures calm i (.tenant bearer o (.deleteTask taskId))
      (Endpoints.deleteTask ⟨user, o, role⟩ taskId) (fun _ => Logged i) w := by
  refine ensures_bind (ensures_getById h.rows (fun _ _ => ensures_throw)
    fun (task : Task) w₁ h₁ hget ho hdel => ?_)
  refine ensures_bind (ensures_bind (ensures_updateWhere (h.later h₁).rows (fun _ _ => rfl)
    (fun _ _ => ensures_pure (ensures_ite (fun _ => ensures_bind ensures_throw)
      fun hn => absurd rfl hn)) fun now current w₂ h₂ hcur hcrit hslot => ensures_pure ?_))
  simp only [Bool.and_eq_true, decide_eq_true_eq, Bool.not_eq_true'] at hcrit
  refine ensures_ite (fun _ => ensures_bind ensures_throw) fun _ => ?_
  refine ensures_bind (ensures_commit (h.mayCommit (q := .deleteTask taskId)
    (h₁.later_trans h₂) (fun w' _ hl => ?_) fun w₃ w₄ hl _ hc => ?_))
  · exact ⟨current, now, (hl.get (h₂.mem (by simp)) hslot).trans hcur, hcrit.1, hcrit.2, rfl⟩
  · refine ensures_broadcastToRoom ?_ fun v hv => hc.loggedAfter.mono hv.trace
    exact ((HasTaskFor.of_get hget ho).mono (h₂.trans hl).db).mono hc.extend

theorem ensures_broadcastForTask {req : TenantRequest} {taskId : Uuid} {event : Str}
    {data : JsonObject} {Q : Unit → World → Prop} (hrows : w.rows i = [])
    (hQ : ∀ w', Later i w w' → Q () w') :
    Ensures calm i (.tenant bearer o req)
      (Endpoints.broadcastForTask ⟨user, o, role⟩ taskId event data) Q w := by
  refine ensures_bind (ensures_getById hrows (fun w' hl => ensures_pure (hQ w' hl))
    fun (task : Task) w' hl hget ho _ => ?_)
  exact ensures_broadcastToRoom (HasTaskFor.of_get hget ho)
    fun v hv => hQ v (hl.later_trans hv)

theorem createComment_ensures {taskId : Uuid} {payload : CommentCreate}
    (h : Ready i bearer o .member user role w) :
    Ensures calm i (.tenant bearer o (.createComment taskId payload))
      (Endpoints.createComment ⟨user, o, role⟩ taskId payload)
      (fun x w => Logged i w ∧ ∃ row : Comment, w.db.get .comments x.id = some row ∧
        row.taskId = taskId) w := by
  refine ensures_bind (ensures_transaction (ensures_bind (ensures_getById h.rows
    (fun _ _ => ensures_throw) fun (task : Task) w₁ h₁ hget ho _ => ?_)))
  refine ensures_create fun id now w₂ h₂ hins => ?_
  refine h.mayCommit (q := .createComment taskId payload) (h₁.later_trans h₂)
    (fun w' _ hl => ?_) fun w₃ w' _ hrows hc => ?_
  · exact ⟨id, now, (TenantHas.of_get hget ho).mono (h₂.trans hl).db, rfl,
      by simpa using hl.inserted (h₂.mem (by simp)) hins⟩
  · refine ensures_bind (ensures_broadcastForTask hc.rows fun v hv =>
      ensures_pure ⟨hc.loggedAfter.mono hv.trace, ?_⟩)
    have hcommitted := w₃.db.get_put_self
      ⟨.comments, newComment o taskId user.id (strip payload.content.text) id now⟩
    obtain ⟨row, hrow, hf⟩ := hv.db .comments id _ (by rw [hc.db, hrows]; exact hcommitted)
    exact ⟨row, hrow, (congrArg Comment.taskId hf :)⟩

theorem updateComment_ensures {taskId commentId : Uuid} {payload : CommentUpdate}
    (h : Ready i bearer o .member user role w) :
    Ensures calm i (.tenant bearer o (.updateComment taskId commentId payload))
      (Endpoints.updateComment ⟨user, o, role⟩ taskId commentId payload)
      (fun x w => Logged i w ∧ ∃ row : Comment, x.id = commentId ∧
        w.db.get .comments commentId = some row ∧ row.organizationId = o ∧
        row.MayEdit user role) w := by
  let Tells : World → Prop := fun w => ∃ row : Comment, w.db.get .comments commentId = some row ∧
    row.organizationId = o ∧ row.MayEdit user role
  have htells : ∀ w w', Tells w → Extends w.db w'.db → Tells w' := by
    rintro v v' ⟨row, hrow, horg, hedit⟩ he
    obtain ⟨row', hrow', hf⟩ := he .comments _ _ hrow
    exact ⟨row', hrow', (congrArg Comment.organizationId hf).trans horg,
      hedit.imp_left (congrArg Comment.authorId hf).trans⟩
  have hafter : ∀ (c : Comment) (w₁ w' : World), c.id = commentId → Tells w₁ →
      Committed i w₁ w' →
      Ensures calm i (.tenant bearer o (.updateComment taskId commentId payload))
        (do Endpoints.broadcastForTask ⟨user, o, role⟩ taskId "COMMENT_UPDATED".toList
              [("task_id".toList, .str taskId.str), ("comment_id".toList, .str c.id.str),
                ("content".toList, .str c.content)]
            pure (Endpoints.commentAnswer ⟨user, o, role⟩ taskId c))
        (fun x w => Logged i w ∧ ∃ row : Comment, x.id = commentId ∧
          w.db.get .comments commentId = some row ∧ row.organizationId = o ∧
          row.MayEdit user role) w' := fun c w₁ w' hcid htell hc =>
    ensures_bind (ensures_broadcastForTask hc.rows fun v hv => by
      obtain ⟨row, hrow, hrest⟩ := htells w₁ v htell (hc.extend.trans hv.db)
      exact ensures_pure ⟨hc.loggedAfter.mono hv.trace, row, hcid, hrow, hrest⟩)
  refine ensures_bind (ensures_transaction (ensures_bind (ensures_getById h.rows
    (fun _ _ => ensures_throw) fun (comment : Comment) w₁ h₁ hget ho _ => ?_)))
  have hid : comment.id = commentId := (Db.get_eq_some.mp hget).2
  refine ensures_ite (fun _ => ensures_bind ensures_throw) fun hallowed => ?_
  have hedit : comment.MayEdit user role := by
    by_cases ha : comment.authorId = user.id
    · exact Or.inl ha
    · by_cases hr : role = .admin
      · exact Or.inr (Or.inl hr)
      · exact Or.inr (Or.inr (not_not.mp fun hn => hallowed ⟨ha, hr, hn⟩))
  have htell₁ : Tells w₁ := ⟨comment, hget, Option.some.inj ho, hedit⟩
  refine ensures_ite (fun _ => ?_) fun _ => ensures_pure ?_
  · refine ensures_bind (ensures_flush (h.later h₁).rows (hid ▸ hget)
      (fun _ _ => Comment.frozen_flush _ _ _ _) fun now current w₂ h₂ hov hslot => ?_)
    refine ensures_pure (h.mayCommit (q := .updateComment taskId commentId payload)
      (h₁.later_trans h₂) (fun w' _ hl => ?_) fun w₃ w' hl _ hc => hafter _ w₃ w' hid
        (htells w₁ w₃ htell₁ (h₂.trans hl).db) hc)
    exact Or.inr ⟨comment, current, now, Option.some.inj ho, hedit,
      hid ▸ hl.overwrites (h₂.mem (by simp)) hslot hov, rfl⟩
  · exact h.mayCommit (q := .updateComment taskId commentId payload) h₁
      (fun _ _ _ => Or.inl rfl) fun w₃ w' hl _ hc => hafter _ w₃ w' hid
        (htells w₁ w₃ htell₁ hl.db) hc

theorem generateUploadUrl_ensures {taskId : Uuid} {payload : PresignedUploadRequest}
    (h : Ready i bearer o .member user role w) :
    Ensures calm i (.tenant bearer o (.generateUploadUrl taskId payload))
      (Endpoints.generateUploadUrl ⟨user, o, role⟩ taskId payload) (fun _ _ => True) w := by
  refine ensures_bind (ensures_getById h.rows (fun _ _ => ensures_throw)
    fun (task : Task) w₁ h₁ hget ho _ => ?_)
  refine ensures_bind (ensures_bind (ensures_quiet rfl (fun _ _ => trivial)
    fun u _ w₂ h₂ _ => ensures_pure ?_))
  refine ensures_bind (ensures_quiet rfl (fun w₃ h₃ => ?_) fun _ _ _ _ _ => trivial)
  refine ⟨taskId, (TenantHas.of_get hget ho).mono (h₂.trans h₃).db, ?_⟩
  rw [List.append_assoc]
  exact List.prefix_append _ _

theorem ensures_presignGet {req : TenantRequest} {a : Attachment} {Q : Str → World → Prop}
    (ha : a ∈ w.db.rows .attachments) (ho : a.organizationId = o)
    (hQ : ∀ url w', Later i w w' → Q url w') :
    Ensures calm i (.tenant bearer o req) (generatePresignedDownloadUrl a.s3Key) Q w :=
  ensures_quiet rfl
    (fun _ h₁ => ⟨a, h₁.db.mem (t := .attachments) (fun _ => rfl) ha, ho, rfl⟩)
    fun url _ w' hl _ => hQ url w' hl

theorem confirmAttachment_ensures {taskId : Uuid} {payload : AttachmentConfirmCreate}
    (h : Ready i bearer o .member user role w) :
    Ensures calm i (.tenant bearer o (.confirmAttachment taskId payload))
      (Endpoints.confirmAttachment ⟨user, o, role⟩ taskId payload)
      (fun x w => Logged i w ∧ ∃ row : Attachment, w.db.get .attachments x.id = some row ∧
        row.taskId = taskId) w := by
  refine ensures_bind (ensures_getById h.rows (fun _ _ => ensures_throw)
    fun (task : Task) w₁ h₁ hget ho _ => ?_)
  refine ensures_bind (ensures_create fun id now w₂ h₂ hins => ?_)
  refine ensures_bind (ensures_commit (h.mayCommit (q := .confirmAttachment taskId payload)
    (h₁.later_trans h₂) (fun w' _ hl => ?_) fun w₃ w₄ hl hrows hc => ?_))
  · exact ⟨id, now, (TenantHas.of_get hget ho).mono (h₂.trans hl).db, rfl,
      by simpa using hl.inserted (h₂.mem (by simp)) hins⟩
  · have hcommitted := w₃.db.get_put_self
      ⟨.attachments, newAttachment o taskId user.id payload id now⟩
    refine ensures_bind (ensures_presignGet
      (a := newAttachment o taskId user.id payload id now) ?_ rfl fun url v hv =>
        ensures_pure ⟨hc.loggedAfter.mono hv.trace, ?_⟩)
    · rw [hc.db, hrows]
      exact Db.mem_put.mpr (Or.inl rfl)
    · obtain ⟨row, hrow, hf⟩ := hv.db .attachments id _ (by rw [hc.db, hrows]; exact hcommitted)
      exact ⟨row, hrow, (congrArg Attachment.taskId hf :)⟩

theorem listAttachments_ensures {taskId : Uuid} (h : Ready i bearer o .viewer user role w) :
    Ensures calm i (.tenant bearer o (.listAttachments taskId))
      (Endpoints.listAttachments ⟨user, o, role⟩ taskId) (fun _ _ => True) w := by
  refine ensures_bind (ensures_bind (ensures_select fun rows w₁ h₁ hperm => ensures_pure ?_))
  refine ensures_forEach (fun v => Extends w₁.db v.db) (Extends.refl _) (fun a ha v hv => ?_)
    fun _ _ _ => trivial
  have hmem := hperm.subset ((List.mem_insertionSort _).mp ha)
  rw [World.view_of_rows (h.later h₁).rows, mem_rowsWhere] at hmem
  refine ensures_bind (ensures_presignGet (hv.mem (t := .attachments) (fun _ => rfl) hmem.1) ?_
    fun _ _ hl => ensures_pure (hv.trans hl.db))
  have hc := hmem.2
  simp only [Bool.and_eq_true, decide_eq_true_eq] at hc
  exact hc.1

/-- Every endpoint keeps the contract, and its answer tells what it should. -/
theorem endpoint_ensures (req : TenantRequest) (h : Ready i bearer o req.minRole user role w) :
    Ensures calm i (.tenant bearer o req) (req.endpoint ⟨user, o, role⟩)
      (fun a w => (req.Commits → Logged i w) ∧ req.Tells o user role w.db a) w := by
  have hread : ∀ {p : Coro Response}, Silent p →
      (¬ req.Commits ∧ ∀ a db, req.Tells o user role db a) →
      Ensures calm i (.tenant bearer o req) p
        (fun a w => (req.Commits → Logged i w) ∧ req.Tells o user role w.db a) w := fun hp h =>
    ensures_silent hp fun a w' _ => ⟨fun hc => absurd hc h.1, h.2 a w'.db⟩
  cases req with
  | getCurrentOrganization =>
    refine hread (Prog.All.bind ((silent_sessionGet _ _).bind fun x => ?_) fun _ => trivial)
      ⟨id, fun _ _ => trivial⟩
    cases x <;> trivial
  | updateCurrentOrganization payload =>
    exact ensures_bind ((updateCurrentOrganization_ensures h).mono fun _ _ hl =>
      ensures_pure ⟨fun _ => hl, trivial⟩)
  | listOrganizationMembers =>
    exact hread (Prog.All.bind ((silent_ask rfl).bind fun _ => (silent_requireJoined _).bind
      fun _ => silent_forEach (fun _ => silent_memberDetail _ _) _) fun _ => trivial)
        ⟨id, fun _ _ => trivial⟩
  | inviteMember payload =>
    exact ensures_bind ((inviteMember_ensures h).mono fun _ _ hl =>
      ensures_pure ⟨fun _ => hl, trivial⟩)
  | createTeam payload =>
    exact ensures_bind ((createTeam_ensures h).mono fun _ _ hl =>
      ensures_pure ⟨fun _ => hl, trivial⟩)
  | listTeams =>
    exact hread (Prog.All.bind ((silent_listPaginated _ _ _ _).bind fun _ =>
      silent_forEach (fun _ => silent_getTeamDetail _ _) _) fun _ => trivial)
        ⟨id, fun _ _ => trivial⟩
  | getTeam teamId =>
    exact hread ((silent_getTeamDetail _ _).bind fun _ => trivial) ⟨id, fun _ _ => trivial⟩
  | addTeamMember teamId payload =>
    exact ensures_bind ((addTeamMember_ensures h).mono fun _ _ hl =>
      ensures_pure ⟨fun _ => hl, trivial⟩)
  | createProject payload =>
    exact ensures_bind ((createProject_ensures h).mono fun _ _ hl =>
      ensures_pure ⟨fun _ => hl, trivial⟩)
  | listProjects =>
    exact hread (Prog.All.bind ((silent_listPaginated _ _ _ _).bind fun _ => trivial)
      fun _ => trivial) ⟨id, fun _ _ => trivial⟩
  | getProject projectId =>
    refine hread (Prog.All.bind ((silent_cacheGet _).bind fun cached => ?_) fun _ => trivial)
      ⟨id, fun _ _ => trivial⟩
    cases cached with
    | some _ => trivial
    | none =>
      refine (silent_getById _ _ _).bind fun project => ?_
      cases project with
      | none => trivial
      | some _ => exact (silent_orDefault (silent_ask rfl)).bind fun _ => trivial
  | updateProject projectId payload =>
    exact ensures_bind ((updateProject_ensures h).mono fun _ _ hl =>
      ensures_pure ⟨fun _ => hl, trivial⟩)
  | createTask payload =>
    exact ensures_bind ((createTask_ensures h).mono fun _ _ ⟨before, es, hl, _⟩ =>
      ensures_pure ⟨fun _ => ⟨before, es, hl⟩, trivial⟩)
  | listTasksOffset projectId status priority assigneeId search sortBy page pageSize =>
    exact hread (Prog.All.bind (Prog.All.bind (silent_listTasksOffset _ _ _ _) fun _ => trivial)
      fun _ => trivial) ⟨id, fun _ _ => trivial⟩
  | listTasksFeed projectId status cursor limit =>
    exact hread (Prog.All.bind (Prog.All.bind (silent_listTasksCursor _ _ _ _) fun _ => trivial)
      fun _ => trivial) ⟨id, fun _ _ => trivial⟩
  | getTask taskId =>
    refine hread (Prog.All.bind ((silent_getById _ _ _).bind fun x => ?_) fun _ => trivial)
      ⟨id, fun _ _ => trivial⟩
    cases x <;> trivial
  | updateTask taskId payload =>
    have hupdate : Ensures calm i (.tenant bearer o (.updateTask taskId payload))
        (Endpoints.updateTask ⟨user, o, role⟩ taskId payload)
        (fun x w => Logged i w ∧ x.id = taskId) w := by
      unfold Endpoints.updateTask
      split
      · next status hs => exact updateTaskStatus_ensures hs h
      · next hs => exact updateTaskFields_ensures hs h
    exact ensures_bind (hupdate.mono fun x _ hl => ensures_pure ⟨fun _ => hl.1, x, rfl, hl.2⟩)
  | deleteTask taskId =>
    exact ensures_bind ((deleteTask_ensures h).mono fun _ _ hl => ensures_pure ⟨fun _ => hl, rfl⟩)
  | createComment taskId payload =>
    exact ensures_bind ((createComment_ensures h).mono fun x _ ⟨hl, row, hrow, htask⟩ =>
      ensures_pure ⟨fun _ => hl, x, row, rfl, hrow, htask⟩)
  | listComments taskId cursor limit =>
    exact hread (Prog.All.bind (Prog.All.bind (silent_listCommentsCursor _ _ _ _)
      fun _ => trivial) fun _ => trivial) ⟨id, fun _ _ => trivial⟩
  | updateComment taskId commentId payload =>
    exact ensures_bind ((updateComment_ensures h).mono fun x _ ⟨hl, row, hid, hrest⟩ =>
      ensures_pure ⟨fun _ => hl, x, row, rfl, hid, hrest⟩)
  | generateUploadUrl taskId payload =>
    exact ensures_bind ((generateUploadUrl_ensures h).mono fun x _ _ =>
      ensures_pure ⟨False.elim, x, rfl⟩)
  | confirmAttachment taskId payload =>
    exact ensures_bind ((confirmAttachment_ensures h).mono fun x _ ⟨hl, row, hrow, htask⟩ =>
      ensures_pure ⟨fun _ => hl, x, row, rfl, hrow, htask⟩)
  | listAttachments taskId =>
    exact ensures_bind ((listAttachments_ensures h).mono fun _ _ _ =>
      ensures_pure ⟨False.elim, trivial⟩)
  | queryAuditLogs filters page pageSize =>
    exact hread (Prog.All.bind (Prog.All.bind (silent_listAuditLogs _ _ _ _) fun _ => trivial)
      fun _ => trivial) ⟨id, fun _ _ => trivial⟩

theorem ensures_createJwtToken {r : Request} {subject : Uuid} {tokenType : Str} {delta : Int}
    {Q : Token → World → Prop}
    (hQ : ∀ token w', Later i w w' → token.Names tokenType subject → Q token w') :
    Ensures calm i r (createJwtToken subject tokenType delta) Q w := by
  refine ensures_bind (ensures_silent (silent_ask rfl) fun jti w₁ h₁ => ?_)
  refine ensures_bind (ensures_silent (silent_ask rfl) fun now w₂ h₂ => ?_)
  refine ensures_bind (ensures_silent (silent_ask rfl) fun issued w₃ h₃ => ensures_pure ?_)
  exact hQ _ w₃ (h₁.later_trans (h₂.later_trans h₃)) ⟨_, rfl, rfl, rfl⟩

theorem ensures_generateTokenPair {r : Request} {userId : Uuid}
    {Q : TokenResponse → World → Prop}
    (hQ : ∀ tokens w', Later i w w' → tokens.IssuedTo userId → Q tokens w') :
    Ensures calm i r (generateTokenPair userId) Q w := by
  refine ensures_bind (ensures_createJwtToken fun accessToken w₁ h₁ haccess => ?_)
  refine ensures_bind (ensures_createJwtToken fun refreshToken w₂ h₂ hrefresh => ensures_pure ?_)
  exact hQ _ w₂ (h₁.later_trans h₂) ⟨haccess, hrefresh⟩

theorem register_ensures {clientIp : Option Str} {payload : UserRegisterRequest}
    (hrows : w.rows i = []) :
    Ensures calm i (.register clientIp payload) (AuthService.register payload)
      (fun tokens w => Logged i w ∧ ∃ user : User, ∃ salt, tokens.IssuedTo user.id ∧
        user ∈ w.db.rows .users ∧ user.email = normalizeEmail payload.email.text ∧
        user.hashedPassword = Library.hashPassword salt payload.password.text) w := by
  refine ensures_transaction (ensures_bind (ensures_silent (silent_selectOne _)
    fun existing w₁ h₁ => ?_))
  refine ensures_ite (fun _ => ensures_bind ensures_throw) fun _ => ?_
  refine ensures_bind (ensures_bind (ensures_silent (silent_ask rfl) fun salt w₂ h₂ =>
    ensures_pure ?_))
  refine ensures_bind (ensures_create fun id now w₃ h₃ hins => ?_)
  refine ensures_bind (ensures_silent (silent_ask rfl) fun suffix w₄ h₄ => ?_)
  refine ensures_bind (ensures_create fun orgId now' w₅ h₅ hins' => ?_)
  refine ensures_bind (ensures_create fun memberId now'' w₆ h₆ hins'' => ?_)
  refine ensures_generateTokenPair fun tokens w₇ h₇ hissued w₈ h₈ => ?_
  have hl := h₇.later_trans h₈
  have hg := (h₁.trans h₂).trans (h₃.trans (h₄.trans (h₅.trans (h₆.trans hl))))
  have huser := (h₄.trans (h₅.trans (h₆.trans hl))).inserted (h₃.mem (by simp)) hins
  refine ⟨⟨Library.hashPassword salt payload.password.text, _, id, orgId, memberId, now, now',
    now'', by rw [hg.rows, hrows]; rfl, ?_⟩, fun w₉ hc => ⟨hc.loggedAfter, _, salt, hissued,
      ?_, rfl, rfl⟩⟩
  · rw [hg.rows, hrows]
    simp only [List.append_nil, List.cons_append, List.nil_append, List.forall_mem_cons,
      List.not_mem_nil, false_implies, implies_true, and_true]
    exact ⟨huser, (h₆.trans hl).inserted (h₅.mem (by simp)) hins',
      hl.inserted (h₆.mem (by simp)) hins''⟩
  · rw [hc.db, hg.rows, hrows]
    refine Db.mem_put.mpr (Or.inr ⟨Db.mem_put.mpr (Or.inr ⟨Db.mem_put.mpr (Or.inl rfl), ?_⟩), ?_⟩)
      <;> simp [Entry.slot]

theorem authenticate_ensures {r : Request} {email password : Str} (hrows : w.rows i = []) :
    Ensures calm i r (AuthService.authenticate email password) (fun tokens w =>
      ∃ user : User, tokens.IssuedTo user.id ∧ user ∈ w.db.rows .users ∧
        user.email = normalizeEmail email ∧
        Library.verifyPassword password user.hashedPassword = true) w := by
  refine ensures_bind (ensures_selectOne (fun _ _ _ => ensures_throw) fun user w₁ h₁ hmem => ?_)
  rw [World.view_of_rows (h₁.rows_eq.trans hrows), mem_rowsWhere] at hmem
  refine ensures_ite (fun _ => ensures_bind ensures_throw) fun hverified => ?_
  refine ensures_ite (fun _ => ensures_bind ensures_throw) fun _ => ?_
  refine ensures_generateTokenPair fun tokens w₂ h₂ hissued => ⟨user, hissued, ?_, ?_, ?_⟩
  · exact h₂.db.mem (fun _ => rfl) hmem.1
  · exact of_decide_eq_true hmem.2
  · simpa using hverified

theorem refreshTokens_ensures {r : Request} {token : Token} (hrows : w.rows i = []) :
    Ensures calm i r (AuthService.refreshTokens token) (fun tokens _ =>
      ∃ userId, tokens.IssuedTo userId ∧ token.Names refreshType userId) w := by
  refine ensures_bind (ensures_tryCatch (ensures_decodeJwtToken
    fun payload w₁ h₁ hpay => ?_) fun _ _ => ensures_ite (fun _ => ensures_throw)
      fun _ => ensures_throw)
  refine ensures_ite (fun _ => ensures_bind ensures_throw) fun htype => ?_
  refine ensures_bind (ensures_silent (silent_ask rfl) fun revoked w₂ h₂ => ?_)
  refine ensures_ite (fun _ => ensures_bind ensures_throw) fun _ => ?_
  cases hsub : payload.sub with
  | none => exact ensures_throw
  | some userId =>
    have hrows₂ := h₂.rows_eq.trans (h₁.rows_eq.trans hrows)
    refine ensures_bind (ensures_sessionGet hrows₂ (fun _ _ => ensures_throw)
      fun user w₃ h₃ hget => ?_)
    refine ensures_ite (fun _ => ensures_bind ensures_throw) fun _ => ?_
    refine ensures_bind (ensures_silent (silent_revokeToken _ _) fun _ w₄ h₄ => ?_)
    refine ensures_generateTokenPair fun tokens w₅ h₅ hissued => ⟨_, hissued, payload, hpay,
      not_not.mp htype, ?_⟩
    rw [hsub]
    exact congrArg some (Db.get_eq_some.mp hget).2.symm

theorem ensures_webSocketUser {r : Request} {token : Token} {Q : Option Uuid → World → Prop}
    (hnone : ∀ w', Later i w w' → Q none w')
    (hsome : ∀ payload userId w', Later i w w' → token.payload = some payload →
      payload.type = access → payload.sub = some userId → Q (some userId) w') :
    Ensures calm i r (Endpoints.webSocketUser token) Q w := by
  have hclose : ∀ v, Later i w v → Ensures calm i r
      (do ask (.wsClose 1008); pure (none : Option Uuid)) Q v := fun v hv =>
    ensures_bind (ensures_silent (silent_ask rfl) fun _ w' hl =>
      ensures_pure (hnone w' (hv.later_trans hl)))
  refine ensures_recover ?_ ?_ fun _ v hv => hclose v hv
  · refine (silent_decodeJwtToken token).bind fun payload =>
      silent_ite ((silent_ask rfl).bind fun _ => trivial) ?_
    split <;> trivial
  · refine ensures_bind (ensures_decodeJwtToken fun payload w₁ h₁ hp => ?_)
    refine ensures_ite (fun _ => hclose w₁ h₁) fun htype => ?_
    cases hsub : payload.sub with
    | none => exact ensures_throw
    | some userId => exact ensures_pure (hsome payload userId w₁ h₁ hp (not_not.mp htype) hsub)

theorem ensures_webSocketAdmits {r : Request} {p userId : Uuid} {Q : Bool → World → Prop}
    (hrows : w.rows i = []) (hfalse : ∀ w', Q false w')
    (htrue : ∀ (project : Project) (m : OrganizationMember) w', project ∈ w'.db.rows .projects →
      project.id = p → m ∈ w'.db.rows .organizationMembers →
      m.organizationId = project.organizationId → m.userId = userId → Q true w') :
    Ensures calm i r (Endpoints.webSocketAdmits p userId) Q w := by
  have hclose : ∀ v, Ensures calm i r (do ask (.wsClose 1008); pure false) Q v := fun v =>
    ensures_bind (ensures_silent (silent_ask rfl) fun _ w' _ => ensures_pure (hfalse w'))
  refine ensures_bind (ensures_sessionGet hrows (fun v _ => hclose v)
    fun (project : Project) w₁ h₁ hget => ?_)
  obtain ⟨hmem, hid⟩ := Db.get_eq_some.mp hget
  refine ensures_bind (ensures_selectOne (fun v _ _ => ensures_ite (fun _ => hclose v)
    fun hn => absurd rfl hn) fun m w₂ h₂ hm => ?_)
  refine ensures_ite (fun hn => by cases hn) fun _ => ensures_pure ?_
  rw [World.view_of_rows (h₂.rows_eq.trans (h₁.rows_eq.trans hrows)), mem_rowsWhere] at hm
  simp only [Bool.and_eq_true, decide_eq_true_eq] at hm
  obtain ⟨project', hmem', hf⟩ := h₂.db.mem_frozen hmem
  exact htrue project' m w₂ hmem' ((congrArg Project.id hf).trans hid) hm.1
    (hm.2.1.trans (congrArg Project.organizationId hf).symm) hm.2.2

theorem projectRealtimeStream_ensures {p : Uuid} {token : Token} {texts : List Str}
    (hrows : w.rows i = []) :
    Ensures calm i (.webSocket p token texts) (Endpoints.projectRealtimeStream p token texts)
      (fun _ _ => True) w := by
  refine ensures_bind (ensures_webSocketUser (fun _ _ => ensures_pure trivial)
    fun payload userId w₁ h₁ hp htype hsub => ?_)
  refine ensures_bind (ensures_withDbSession (ensures_webSocketAdmits (h₁.rows_eq.trans hrows)
    (fun _ _ _ _ => ensures_ite (fun h => by cases h) fun _ => ensures_pure trivial)
    fun project m w₂ hproj hid hm ho hu w₃ he _ => ensures_ite (fun _ => ?_) fun _ =>
      ensures_pure trivial))
  have hjoins : (Request.webSocket p token texts).Joins w₃.db p :=
    Request.Joins.mono
      ⟨rfl, payload, userId, project, m, hp, htype, hsub, hproj, hid, hm, ho, hu⟩ he
  refine ensures_bind (ensures_silent (silent_ask rfl) fun _ w₄ h₄ => ?_)
  refine ensures_bind (ensures_quiet rfl (fun _ h₅ => hjoins.mono (h₄.trans h₅).db)
    fun _ _ w₆ _ _ => ?_)
  have hloop : Silent (Endpoints.receiveLoop texts) :=
    all_receiveLoop (P := fun o => o.silent = true) (fun _ => rfl) rfl texts
  exact ensures_tryCatch (ensures_silent hloop fun _ _ _ => trivial) fun e v =>
    ensures_ite (fun _ => ensures_silent (silent_ask rfl) fun _ _ _ => trivial)
      fun _ => ensures_throw

theorem handle_ensures (r : Request) (hrows : w.rows i = []) :
    Ensures calm i r r.handle (fun a w => (r.Commits → Logged i w) ∧ r.Tells w.db a) w := by
  have hread : ∀ {p : Coro Response}, Silent p →
      (¬ r.Commits ∧ ∀ a db, r.Tells db a) → Ensures calm i r (withDbSession p)
        (fun a w => (r.Commits → Logged i w) ∧ r.Tells w.db a) w := fun hp h =>
    ensures_withDbSession (ensures_silent hp fun a _ _ w' _ _ =>
      ⟨fun hc => absurd hc h.1, h.2 a w'.db⟩)
  cases r with
  | register clientIp payload =>
    refine ensures_withDbSession (ensures_bind (ensures_silent (silent_rateLimiter _ _ _ _)
      fun headers w₁ h₁ => ensures_bind ?_))
    exact (register_ensures (h₁.rows_eq.trans hrows)).mono
      fun tokens v ⟨hl, user, salt, hissued, huser, hrest⟩ => ensures_pure fun v' he ht =>
        ⟨fun _ => hl.mono ht, some headers, tokens, user, salt, rfl, hissued,
          he.mem (fun _ => rfl) huser, hrest⟩
  | login clientIp payload =>
    refine ensures_withDbSession (ensures_bind (ensures_silent (silent_rateLimiter _ _ _ _)
      fun headers w₁ h₁ => ensures_bind ?_))
    exact (authenticate_ensures (h₁.rows_eq.trans hrows)).mono
      fun tokens v ⟨user, hissued, huser, hrest⟩ => ensures_pure fun v' he _ =>
        ⟨False.elim, some headers, tokens, user, rfl, hissued, he.mem (fun _ => rfl) huser, hrest⟩
  | refresh token =>
    exact ensures_withDbSession (ensures_bind ((refreshTokens_ensures hrows).mono
      fun tokens v ⟨userId, hissued, hnames⟩ => ensures_pure fun _ _ _ =>
        ⟨False.elim, none, tokens, userId, rfl, hissued, hnames⟩))
  | logout token =>
    exact hread ((silent_logout token).bind fun _ => trivial) ⟨id, fun _ _ => trivial⟩
  | getMe bearer =>
    refine hread (Prog.All.bind (Prog.All.bind ?_ fun userId =>
      (silent_sessionGet _ _).bind fun user => ?_) fun user =>
        (silent_getUserProfile _).bind fun _ => trivial) ⟨id, fun _ _ => trivial⟩
    · exact Prog.All.tryCatch ((silent_decodeJwtToken _).bind fun payload =>
        silent_ite trivial (by split <;> trivial)) fun _ => silent_ite trivial trivial
    · cases user with
      | none => trivial
      | some user => exact silent_ite trivial trivial
  | tenant bearer o req =>
    refine ensures_withDbSession (ensures_bind (ensures_requireRole hrows
      fun user role w₁ h₁ hadm => ?_))
    exact (endpoint_ensures req ⟨hadm, h₁.rows_eq.trans hrows⟩).extends.mono
      fun _ _ ⟨⟨hl, htell⟩, hext⟩ _ he ht => ⟨fun hc => (hl hc).mono ht, user, role,
        hadm.mono (hext.trans he), htell.mono he⟩
  | webSocket p token texts =>
    exact ensures_bind ((projectRealtimeStream_ensures hrows).mono fun _ _ _ =>
      ensures_pure ⟨False.elim, trivial⟩)

end Commits

end MultiTenantSaas
