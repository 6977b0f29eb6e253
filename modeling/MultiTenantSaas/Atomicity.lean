import MultiTenantSaas.Readers

/-!
The operations that run in `UnitOfWork.transaction`: whatever fails, and whatever
other sessions do meanwhile, all rows of an operation are committed at once or none is.
-/

set_option autoImplicit false

namespace MultiTenantSaas

open Process

abbrev AppAct := Act sig World

def Op.announces : Op → Bool
  | .publish _ _ _ | .redisDelete _ => true
  | _ => false

def Op.gathers : Op → Bool
  | .commit | .rollback => false
  | o => !o.announces

theorem Op.announces_of_gathers {o : Op} (h : o.gathers = true) :
    o.announces = false ∧ o ≠ .commit := by
  constructor
  · cases o <;> first | rfl | exact nomatch h
  · rintro rfl
    exact nomatch h

abbrev Gathers {α : Type} (p : Coro α) : Prop :=
  Prog.All (S := sig) (fun o => Op.gathers o = true) p

/-- The acts left the committed rows as they were, and announced nothing. -/
def Unchanged (acts : List AppAct) : Prop :=
  ∀ act ∈ acts, act.after.db = act.before.db ∧ act.op.announces = false

def LeavesRows (i : Nat) (rely : World → World → Prop) : Prop :=
  ∀ v v', rely v v' → v'.rows i = v.rows i

theorem unchanged_nil : Unchanged [] := by simp [Unchanged]

theorem Unchanged.append {acts acts' : List AppAct} (h : Unchanged acts) (h' : Unchanged acts') :
    Unchanged (acts ++ acts') := fun act hact =>
  (List.mem_append.mp hact).elim (h act) (h' act)

section

variable [Library] {α β : Type} {i : Nat} {rely : World → World → Prop} {w w' : World}
  {acts : List AppAct}

theorem exec_db {o : Op} {a : Except Exn o.Resp} (ho : o ≠ .commit) (he : exec i o w a w') :
    w'.db = w.db := by
  rcases (World.executed he).history with ⟨hdb, -⟩ | ⟨rfl, -⟩
  · exact hdb
  · exact absurd rfl ho

theorem amid_unchanged {p : Coro α} {a : Except Exn α} (hp : Gathers p)
    (h : Amid machine rely i p w acts a w') : Unchanged acts := by
  induction h with
  | done => exact unchanged_nil
  | call _ he _ ih =>
    obtain ⟨hann, hcommit⟩ := Op.announces_of_gathers hp.1
    exact List.forall_mem_cons.mpr ⟨⟨exec_db hcommit he, hann⟩, ih (hp.2 _)⟩

theorem amid_rollback {acts : List AppAct} {e : Exn}  {b : Except Exn α}
    (h : Amid machine rely i (do ask .rollback; throw e : Coro α) w acts b w') :
    b = .error e ∧ Unchanged acts ∧ w'.rows i = [] := by
  rcases amid_bind.mp h with ⟨a, acts₁, acts₂, s₁, rfl, hp, hf⟩ | ⟨e', hp, -⟩
  · obtain ⟨v, rfl, -, -, rfl⟩ := amid_perform.mp hp
    obtain ⟨rfl, rfl, rfl⟩ := amid_done.mp hf
    refine ⟨rfl, ?_, (World.rows_ended rfl).trans (if_pos rfl)⟩
    simp [Unchanged, World.rollback, World.log, World.endTransaction, Op.announces]
  · obtain ⟨v, -, -, hv, -⟩ := amid_perform.mp hp
    cases hv

/-- A transaction commits what its body wrote, as its last act, or changes nothing. -/
theorem amid_transaction {body : Coro α} {a : Except Exn α} (hbody : Gathers body)
    (h : Amid machine rely i (transaction body) w acts a w') :
    w'.rows i = [] ∧ match a with
    | .error _ => Unchanged acts
    | .ok x => ∃ gathered w₁ v, acts = gathered ++ [⟨.commit, v, v.commit i⟩] ∧
        Unchanged gathered ∧ Amid machine rely i body w gathered (.ok x) w₁ ∧ rely w₁ v := by
  rcases amid_tryCatch.mp h with ⟨x, hrun, rfl⟩ | ⟨e, acts₁, acts₂, s₁, rfl, hrun, hback⟩
  · rcases amid_bind.mp hrun with ⟨x', gathered, acts₂, w₁, rfl, hb, hrest⟩ | ⟨e, -, he⟩
    · rcases amid_bind.mp hrest with ⟨_, acts₃, acts₄, w₂, rfl, hc, hp⟩ | ⟨e, -, he⟩
      · obtain ⟨v, rfl, hr, ⟨-, rfl⟩ | ⟨-, -, hv⟩⟩ := amid_perform.mp hc
        · obtain ⟨rfl, hx, rfl⟩ := amid_done.mp hp
          cases hx
          refine ⟨(World.rows_ended rfl).trans (if_pos rfl), gathered, w₁, v, by simp,
            amid_unchanged hbody hb, hb, hr⟩
        · cases hv
      · cases he
    · cases he
  · obtain ⟨rfl, hrolled, hrows⟩ := amid_rollback hback
    refine ⟨hrows, Unchanged.append ?_ hrolled⟩
    rcases amid_bind.mp hrun with ⟨x', gathered, acts₃, w₁, rfl, hb, hrest⟩ | ⟨e', hb, -⟩
    · refine Unchanged.append (amid_unchanged hbody hb) ?_
      rcases amid_bind.mp hrest with ⟨_, acts₃, acts₄, w₂, rfl, hc, hp⟩ | ⟨e', hc, -⟩
      · cases (amid_done.mp hp).2.1
      · obtain ⟨v, rfl, -, ⟨hv, -⟩ | ⟨rfl, -⟩⟩ := amid_perform.mp hc
        · cases hv
        · simp [Unchanged, World.endTransaction, Op.announces]
    · exact amid_unchanged hbody hb

/-- From open rows `es`, the program writes so that `Q` holds of its answer and the open
rows at its end. -/
def Gives (rely : World → World → Prop) (i : Nat) (es : List Entry) (p : Coro α)
    (Q : α → List Entry → Prop) : Prop :=
  ∀ w acts x w', w.rows i = es → Amid machine rely i p w acts (.ok x) w' → Q x (w'.rows i)

variable {es : List Entry} {Q : α → List Entry → Prop}

theorem gives_pure {a : α} (h : Q a es) : Gives rely i es (pure a) Q := by
  intro w acts x w' hrows hp
  obtain ⟨rfl, hx, rfl⟩ := amid_done.mp hp
  cases hx
  exact hrows ▸ h

theorem gives_throw {e : Exn} : Gives rely i es (throw e : Coro α) Q := by
  intro w acts x w' _ hp
  cases (amid_done.mp hp).2.1

theorem gives_bind {p : Coro α} {f : α → Coro β} {R : α → List Entry → Prop}
    {T : β → List Entry → Prop} (hp : Gives rely i es p R)
    (hf : ∀ a fs, R a fs → Gives rely i fs (f a) T) : Gives rely i es (p >>= f) T := by
  intro w acts x w' hrows h
  rcases amid_bind.mp h with ⟨a, acts₁, acts₂, w₁, -, hpa, hfa⟩ | ⟨e, -, he⟩
  · exact hf a _ (hp w acts₁ a w₁ hrows hpa) w₁ acts₂ x w' rfl hfa
  · cases he

theorem gives_ite {c : Prop} [Decidable c] {p q : Coro α} (hp : c → Gives rely i es p Q)
    (hq : ¬ c → Gives rely i es q Q) : Gives rely i es (if c then p else q) Q := by
  split
  · next h => exact hp h
  · next h => exact hq h

theorem gives_bind_throw {e : Exn} {f : β → Coro α} :
    Gives rely i es (throw e >>= f) Q :=
  gives_bind (R := fun _ _ => False) gives_throw fun _ _ h => h.elim

theorem Gives.mono {p : Coro α} {Q' : α → List Entry → Prop} (h : Gives rely i es p Q)
    (himp : ∀ a fs, Q a fs → Q' a fs) : Gives rely i es p Q' :=
  fun w acts x w' hrows hp => himp _ _ (h w acts x w' hrows hp)

theorem gives_ask (hrely : LeavesRows i rely) {o : Op} {R : o.Resp → List Entry → Prop}
    (h : ∀ w x w', w.rows i = es → exec i o w (.ok x) w' → R x (w'.rows i)) :
    Gives rely i es (ask o) R := by
  intro w acts x w' hrows hp
  obtain ⟨v, -, hr, he⟩ := amid_perform.mp hp
  exact h v x w' ((hrely w v hr).trans hrows) he

theorem gives_select (hrely : LeavesRows i rely) {ρ : Type} (q : Db → List ρ) :
    Gives rely i es (ask (.select q)) fun rows fs => fs = es ∧ ∃ db, rows.Perm (q db) := by
  refine gives_ask hrely fun w x w' hrows ⟨hw, hx⟩ => ⟨hw ▸ hrows, ?_⟩
  rcases hx with ⟨rows, hr, hperm⟩ | ⟨-, hx⟩
  · cases hr
    exact ⟨_, hperm⟩
  · cases hx

theorem gives_selectOne (hrely : LeavesRows i rely) {ρ : Type} (q : Db → List ρ) :
    Gives rely i es (selectOne q) fun x fs => fs = es ∧ ∀ r, x = some r → ∃ db, r ∈ q db := by
  refine gives_bind (gives_select hrely q) fun rows fs ⟨hfs, db, hperm⟩ => ?_
  match rows, hperm with
  | [], _ => exact gives_pure ⟨hfs, nofun⟩
  | [r], hperm =>
    refine gives_pure ⟨hfs, ?_⟩
    rintro _ ⟨⟩
    exact ⟨db, hperm.mem_iff.mp List.mem_cons_self⟩
  | _ :: _ :: _, _ => exact gives_throw

theorem gives_getById (hrely : LeavesRows i rely) {t : Table} {o id : Uuid} :
    Gives rely i es (getById t o id) fun x fs => fs = es ∧ ∀ r, x = some r → t.id r = id := by
  intro w acts x w' hrows h
  obtain ⟨hfs, hx⟩ := gives_selectOne hrely _ w acts x w' hrows h
  refine ⟨hfs, fun r hr => ?_⟩
  obtain ⟨db, hdb⟩ := hx r hr
  have hc := (mem_rowsWhere.mp hdb).2
  simp only [Bool.and_eq_true, decide_eq_true_eq] at hc
  exact hc.1

theorem gives_silent {p : Coro α} (hrely : LeavesRows i rely) (hp : Silent p) :
    Gives rely i es p fun _ fs => fs = es := by
  induction p with
  | done a =>
    intro w acts x w' hrows h
    obtain ⟨-, -, rfl⟩ := amid_done.mp h
    exact hrows
  | call o k ih =>
    intro w acts x w' hrows h
    obtain ⟨b, s₁, s₂, rest, -, hr, he, hk⟩ := amid_call.mp h
    refine ih b (hp.2 b) s₂ rest x w' ?_ hk
    have hq := (World.executed he).later_self (Op.quiet_of_silent hp.1)
    exact hq.rows_eq.trans ((hrely w s₁ hr).trans hrows)

theorem gives_insert (hrely : LeavesRows i rely) {t : Table} {values : Uuid → Instant → t.Row} :
    Gives rely i es (ask (.insert t values)) fun r fs =>
      ∃ id now, r = values id now ∧ fs = es ++ [⟨t, r⟩] := by
  refine gives_ask hrely fun w x w' hrows he => ?_
  rcases he with ⟨id, -, he⟩ | ⟨-, -, he⟩
  · rcases World.insert_cases he with ⟨e, hx, -⟩ | ⟨hx, rfl, -⟩
    · cases hx
    · cases hx
      refine ⟨id, w.now, rfl, ?_⟩
      rw [World.rows_wrote rfl, if_pos rfl]
      exact congrArg (· ++ _) hrows
  · cases he

theorem gives_create (hrely : LeavesRows i rely) {t : Table} {values : Uuid → Instant → t.Row} :
    Gives rely i es (create t values) fun r fs =>
      ∃ row, fs = es ++ [⟨t, row⟩] ∧ t.id r = t.id row ∧ ∃ id now, row = values id now := by
  refine gives_bind (gives_insert hrely) fun row fs ⟨id, now, hrow, hfs⟩ =>
    gives_bind (gives_selectOne hrely _) fun x gs ⟨hgs, hx⟩ => ?_
  cases x with
  | none => exact gives_throw
  | some r =>
    obtain ⟨db, hr⟩ := hx r rfl
    have hid := (mem_rowsWhere.mp hr).2
    exact gives_pure ⟨row, hgs.trans hfs, of_decide_eq_true hid, id, now, hrow⟩

theorem gives_flushUpdate (hrely : LeavesRows i rely) {t : Table} {id : Uuid}
    {set : Instant → t.Row → t.Row} :
    Gives rely i es (ask (.flushUpdate t id set)) fun _ fs =>
      ∃ now old, t.id old = id ∧ fs = es ++ [⟨t, set now old⟩] := by
  refine gives_ask hrely fun w x w' hrows he => ?_
  rcases he with he | ⟨-, -, he⟩
  · rcases World.flushUpdate_cases he with ⟨-, e, hx⟩ | ⟨old, hold, -, rfl, -⟩
    · cases hx
    · refine ⟨w.now, old, (Db.get_eq_some.mp hold).2, ?_⟩
      rw [World.rows_wrote rfl, if_pos rfl, hrows]
  · cases he

theorem gives_updateWhere (hrely : LeavesRows i rely) {t : Table} {id : Uuid}
    {criteria : t.Row → Bool} {set : Instant → t.Row → t.Row} :
    Gives rely i es (ask (.updateWhere t id criteria set)) fun x fs =>
      ∀ r, x = some r → ∃ now old, t.id old = id ∧ fs = es ++ [⟨t, set now old⟩] := by
  refine gives_ask hrely fun w x w' hrows he => ?_
  rcases he with he | ⟨-, -, he⟩
  · rcases World.update_cases he with ⟨-, hx⟩ | ⟨old, hold, -, -, rfl, -⟩
    · exact fun r hr => absurd (congrArg Except.ok hr) (hx r)
    · refine fun _ _ => ⟨w.now, old, (Db.get_eq_some.mp hold).2, ?_⟩
      rw [World.rows_wrote rfl, if_pos rfl, hrows]
  · cases he

end

/-- A call of an operation that runs in `UnitOfWork.transaction`. -/
inductive Operation where
  | register (payload : UserRegisterRequest)
  | createTask (organizationId projectId reporterId : Uuid) (title : Str)
      (description : Option Str) (priority : TaskPriority) (assigneeId : Option Uuid)
  | updateTaskStatusOcc (organizationId taskId actorId : Uuid) (newStatus : TaskStatus)
      (expectedVersion : Int)
  | createProject (organizationId : Uuid) (payload : ProjectCreate) (actorId : Option Uuid)
  | updateProject (organizationId projectId : Uuid) (payload : ProjectUpdate)
      (actorId : Option Uuid)
  | addComment (organizationId taskId authorId : Uuid) (payload : CommentCreate)
  | updateComment (organizationId commentId userId : Uuid) (userRole : OrgRole)
      (payload : CommentUpdate)
  | createTeam (organizationId : Uuid) (payload : TeamCreate)
  | addMember (organizationId : Uuid) (caller : User) (teamId userId : Uuid)

namespace Operation

@[reducible] def Answer : Operation → Type
  | .register _ => TokenResponse
  | .createTask _ _ _ _ _ _ _ | .updateTaskStatusOcc _ _ _ _ _ => Task
  | .createProject _ _ _ | .updateProject _ _ _ _ => Project
  | .addComment _ _ _ _ | .updateComment _ _ _ _ _ => Comment
  | .createTeam _ _ => Team
  | .addMember _ _ _ _ => Unit

def run [Library] : (op : Operation) → Coro op.Answer
  | .register payload => AuthService.register payload
  | .createTask o p reporter title description priority assignee =>
    TaskService.createTask o p reporter title description priority assignee
  | .updateTaskStatusOcc o taskId actor status version =>
    TaskService.updateTaskStatusOcc o taskId actor status version
  | .createProject o payload actor => ProjectService.createProject o payload actor
  | .updateProject o projectId payload actor =>
    ProjectService.updateProject o projectId payload actor
  | .addComment o taskId author payload => CommentService.addComment o taskId author payload
  | .updateComment o commentId user role payload =>
    CommentService.updateComment o commentId user role payload
  | .createTeam o payload => TeamService.createTeam o payload
  | .addMember o caller teamId userId => TeamService.addMember o caller teamId userId

def WithAudit (t : Table) (id : Uuid) (entity : Str) (action : AuditAction)
    (es : List Entry) : Prop :=
  ∃ (row : t.Row) (audit : AuditLog), es = [⟨t, row⟩, ⟨.auditLogs, audit⟩] ∧ t.id row = id ∧
    audit.entityId = id ∧ audit.entityType = entity ∧ audit.action = action

def Alone (t : Table) (id : Uuid) (es : List Entry) : Prop :=
  ∃ row : t.Row, es = [⟨t, row⟩] ∧ t.id row = id

/-- All rows of an operation that has answered: the user with the organization and its
owner, the entity with its audit row. An edit of a comment that changes nothing writes
nothing. -/
def Rows : (op : Operation) → op.Answer → List Entry → Prop
  | .register _, tokens, es => ∃ (user : User) (org : Organization) (member : OrganizationMember),
    es = [⟨.users, user⟩, ⟨.organizations, org⟩, ⟨.organizationMembers, member⟩] ∧
    member.userId = user.id ∧ member.organizationId = org.id ∧ member.role = .owner ∧
    tokens.accessToken.claims.sub = some (some user.id)
  | .createTask _ _ _ _ _ _ _, task, es => WithAudit .tasks (Task.id task) taskEntity .create es
  | .updateTaskStatusOcc _ _ _ _ _, task, es =>
    WithAudit .tasks (Task.id task) taskEntity .update es
  | .createProject _ _ _, project, es =>
    WithAudit .projects (Project.id project) projectEntity .create es
  | .updateProject _ _ _ _, project, es =>
    WithAudit .projects (Project.id project) projectEntity .update es
  | .addComment _ _ _ _, comment, es => Alone .comments (Comment.id comment) es
  | .updateComment _ _ _ _ _, comment, es => es = [] ∨ Alone .comments (Comment.id comment) es
  | .createTeam _ _, team, es => Alone .teams (Team.id team) es
  | .addMember _ _ teamId userId, _, es =>
    ∃ member : TeamMember, es = [⟨.teamMembers, member⟩] ∧ member.teamId = teamId ∧
      member.userId = userId

end Operation

section

variable [Library] {i : Nat} {rely : World → World → Prop}

theorem gives_addAuditLog (hrely : LeavesRows i rely) {es : List Entry} {o entityId : Uuid}
    {actor : Option Uuid} {entity : Str} {action : AuditAction} {before after : Option JsonObject} :
    Gives rely i es (addAuditLog o actor entity entityId action before after) fun _ fs =>
      ∃ audit : AuditLog, fs = es ++ [⟨.auditLogs, audit⟩] ∧ audit.entityId = entityId ∧
        audit.entityType = entity ∧ audit.action = action := by
  refine gives_bind (gives_insert hrely) fun audit fs ⟨id, now, hrow, hfs⟩ => gives_pure ?_
  exact ⟨audit, hfs, by rw [hrow]; rfl, by rw [hrow]; rfl, by rw [hrow]; rfl⟩

theorem gives_withAudit (hrely : LeavesRows i rely) {t : Table} {row : t.Row} {α : Type} {x : α}
    {o id : Uuid} {actor : Option Uuid} {entity : Str} {action : AuditAction}
    {before after : Option JsonObject} (hid : t.id row = id) :
    Gives rely i [⟨t, row⟩] (do addAuditLog o actor entity id action before after; pure x)
      fun y fs => y = x ∧ Operation.WithAudit t id entity action fs := by
  refine gives_bind (gives_addAuditLog hrely) fun _ fs ⟨audit, hfs, hentity, htype, haction⟩ =>
    gives_pure ⟨rfl, row, audit, hfs, hid, hentity, htype, haction⟩

section Gathers

omit [Library]

variable {α : Type}

theorem gathers_ask {o : Op} (h : o.gathers = true) : Gathers (ask o) := ⟨h, fun _ => trivial⟩

theorem gathers_selectOne (q : Db → List α) : Gathers (selectOne q) :=
  (gathers_ask rfl).bind fun rows => by
    match rows with
    | [] => trivial
    | [_] => trivial
    | _ :: _ :: _ => trivial

theorem gathers_ite {c : Prop} [Decidable c] {p q : Coro α} (hp : Gathers p) (hq : Gathers q) :
    Gathers (if c then p else q) := by split <;> assumption

theorem gathers_create (t : Table) (values : Uuid → Instant → t.Row) :
    Gathers (create t values) :=
  (gathers_ask rfl).bind fun _ => (gathers_selectOne _).bind fun r => by cases r <;> trivial

theorem gathers_addAuditLog {o id : Uuid} {actor : Option Uuid} {entity : Str}
    {action : AuditAction} {before after : Option JsonObject} :
    Gathers (addAuditLog o actor entity id action before after) :=
  (gathers_ask rfl).bind fun _ => trivial

theorem gathers_createJwtToken (subject : Uuid) (tokenType : Str) (delta : Int) :
    Gathers (createJwtToken subject tokenType delta) :=
  (gathers_ask rfl).bind fun _ => (gathers_ask rfl).bind fun _ => (gathers_ask rfl).bind fun _ =>
    trivial

theorem gathers_generateTokenPair (userId : Uuid) : Gathers (generateTokenPair userId) :=
  (gathers_createJwtToken _ _ _).bind fun _ => (gathers_createJwtToken _ _ _).bind fun _ => trivial

theorem gathers_rateLimiter (limit window : Nat) (clientIp : Option Str) (path : Str) :
    Gathers (rateLimiter limit window clientIp path) := by
  refine (gathers_ask rfl).bind fun now => (gathers_ask rfl).bind fun perf =>
    (gathers_ask rfl).bind fun count => ?_
  dsimp only
  split <;> trivial

theorem gathers_requireRole (minRole : OrgRole) (bearer : Token) (o : Uuid) :
    Gathers (requireRole minRole bearer o) := by
  have hdecode : Gathers (decodeJwtToken bearer) := by
    unfold decodeJwtToken
    split
    · trivial
    · exact (gathers_ask rfl).bind fun now => by split <;> trivial
  refine Prog.All.bind (Prog.All.bind (Prog.All.tryCatch (hdecode.bind fun payload => ?_)
    fun e => gathers_ite trivial trivial) fun userId => (gathers_selectOne _).bind ?_)
    fun user => (gathers_selectOne _).bind ?_
  · exact gathers_ite trivial (by cases payload.sub <;> trivial)
  · rintro (_ | user)
    · trivial
    · exact gathers_ite trivial trivial
  · rintro (_ | m)
    · trivial
    · exact gathers_ite trivial trivial

end Gathers

def Operation.Transacts (rely : World → World → Prop) (i : Nat) (op : Operation) : Prop :=
  ∃ body, op.run = transaction body ∧ Gathers body ∧ Gives rely i [] body op.Rows

variable (hrely : LeavesRows i rely)

include hrely

theorem gives_create_audit {t : Table} {values : Uuid → Instant → t.Row} {o : Uuid}
    {actor : Option Uuid} {entity : Str} {state : t.Row → JsonObject} :
    Gives rely i [] (do
      let row ← create t values
      addAuditLog o actor entity (t.id row) .create none (some (state row))
      pure row) fun row fs => Operation.WithAudit t (t.id row) entity .create fs := by
  refine gives_bind (gives_create hrely) fun r fs ⟨row, hfs, hid, _⟩ => ?_
  subst hfs
  refine (gives_withAudit hrely hid.symm).mono fun x gs ⟨hx, hgs⟩ => ?_
  rw [hx]
  exact hgs

theorem createTask_transacts (o p reporter : Uuid) (title : Str) (description : Option Str)
    (priority : TaskPriority) (assignee : Option Uuid) :
    (Operation.createTask o p reporter title description priority assignee).Transacts rely i := by
  refine ⟨_, rfl, ?_, gives_create_audit hrely⟩
  exact (gathers_create _ _).bind fun _ => gathers_addAuditLog.bind fun _ => trivial

theorem createProject_transacts (o : Uuid) (payload : ProjectCreate) (actor : Option Uuid) :
    (Operation.createProject o payload actor).Transacts rely i := by
  refine ⟨_, rfl, ?_, ?_⟩
  · refine (gathers_selectOne _).bind fun existing => gathers_ite trivial ?_
    exact (gathers_create _ _).bind fun _ => gathers_addAuditLog.bind fun _ => trivial
  · refine gives_bind (gives_selectOne hrely _) fun existing fs ⟨hfs, _⟩ => ?_
    subst hfs
    exact gives_ite (fun _ => gives_bind_throw) fun _ => gives_create_audit hrely

theorem updateTaskStatusOcc_transacts (o taskId actor : Uuid) (status : TaskStatus)
    (version : Int) :
    (Operation.updateTaskStatusOcc o taskId actor status version).Transacts rely i := by
  refine ⟨_, rfl, ?_, ?_⟩
  · refine (gathers_selectOne _).bind fun existing => ?_
    cases existing with
    | none => trivial
    | some existing =>
      exact (gathers_ask rfl).bind fun matched => gathers_ite trivial
        (gathers_addAuditLog.bind fun _ => trivial)
  · refine gives_bind (gives_getById hrely) fun existing fs ⟨hfs, hid⟩ => ?_
    subst hfs
    cases existing with
    | none => exact gives_throw
    | some existing =>
      refine gives_bind (gives_updateWhere hrely) fun matched fs hfs => ?_
      refine gives_ite (fun _ => gives_bind_throw) fun hsome => ?_
      cases matched with
      | none => exact absurd rfl hsome
      | some row =>
        obtain ⟨now, old, hold, hfs⟩ := hfs row rfl
        subst hfs
        refine (gives_withAudit hrely ?_).mono fun x gs ⟨hx, hgs⟩ => ?_
        · split <;> exact hold.trans (hid existing rfl).symm
        · rw [hx]
          exact hgs

theorem updateProject_transacts (o projectId : Uuid) (payload : ProjectUpdate)
    (actor : Option Uuid) :
    (Operation.updateProject o projectId payload actor).Transacts rely i := by
  refine ⟨_, rfl, ?_, ?_⟩
  · refine (gathers_selectOne _).bind fun project => ?_
    cases project with
    | none => trivial
    | some project =>
      exact gathers_ite trivial
        ((gathers_ask rfl).bind fun _ => gathers_addAuditLog.bind fun _ => trivial)
  · refine gives_bind (gives_getById hrely) fun project fs ⟨hfs, _⟩ => ?_
    subst hfs
    cases project with
    | none => exact gives_throw
    | some project =>
      refine gives_ite (fun _ => gives_bind_throw) fun _ => ?_
      refine gives_bind (gives_flushUpdate hrely) fun _ fs ⟨now, old, hold, hfs⟩ => ?_
      subst hfs
      have hid : Table.projects.id (project.flush (payload.assign project) now old) =
          Project.id project := hold
      refine (gives_withAudit hrely hid).mono fun x gs ⟨hx, hgs⟩ => ?_
      rw [hx]
      exact hgs

theorem addComment_transacts (o taskId author : Uuid) (payload : CommentCreate) :
    (Operation.addComment o taskId author payload).Transacts rely i := by
  refine ⟨_, rfl, ?_, ?_⟩
  · refine (gathers_selectOne _).bind fun task => ?_
    cases task with
    | none => trivial
    | some task => exact gathers_create _ _
  · refine gives_bind (gives_getById hrely) fun task fs ⟨hfs, _⟩ => ?_
    subst hfs
    cases task with
    | none => exact gives_throw
    | some task =>
      refine (gives_create hrely).mono ?_
      rintro comment fs ⟨row, hfs, hid, -⟩
      exact ⟨row, hfs, hid.symm⟩

theorem updateComment_transacts (o commentId user : Uuid) (role : OrgRole)
    (payload : CommentUpdate) :
    (Operation.updateComment o commentId user role payload).Transacts rely i := by
  refine ⟨_, rfl, ?_, ?_⟩
  · refine (gathers_selectOne _).bind fun comment => ?_
    cases comment with
    | none => trivial
    | some comment =>
      exact gathers_ite trivial (gathers_ite ((gathers_ask rfl).bind fun _ => trivial) trivial)
  · refine gives_bind (gives_getById hrely) fun comment fs ⟨hfs, _⟩ => ?_
    subst hfs
    cases comment with
    | none => exact gives_throw
    | some comment =>
      refine gives_ite (fun _ => gives_bind_throw) fun _ => ?_
      refine gives_ite (fun _ => ?_) fun _ => gives_pure (Or.inl rfl)
      refine gives_bind (gives_flushUpdate hrely) fun _ fs ⟨now, old, hold, hfs⟩ => ?_
      exact gives_pure (Or.inr ⟨_, hfs, hold⟩)

theorem addMember_transacts (o : Uuid) (caller : User) (teamId userId : Uuid) :
    (Operation.addMember o caller teamId userId).Transacts rely i := by
  refine ⟨_, rfl, ?_, ?_⟩
  · refine (gathers_selectOne _).bind fun team => ?_
    cases team with
    | none => trivial
    | some team =>
      refine Prog.All.bind (gathers_ite trivial (gathers_selectOne _)) fun user => ?_
      cases user with
      | none => trivial
      | some user => exact (gathers_ask rfl).bind fun _ => trivial
  · refine gives_bind (gives_getById hrely) fun team fs ⟨hfs, _⟩ => ?_
    subst hfs
    cases team with
    | none => exact gives_throw
    | some team =>
      refine gives_bind (R := fun _ fs => fs = []) (gives_ite (fun _ => gives_pure rfl)
        fun _ => (gives_selectOne hrely _).mono fun _ _ h => h.1) fun user fs hfs => ?_
      subst hfs
      cases user with
      | none => exact gives_throw
      | some user =>
        refine gives_bind (gives_insert hrely) fun member fs ⟨id, now, hrow, hfs⟩ => ?_
        exact gives_pure ⟨member, hfs, by rw [hrow]; rfl, by rw [hrow]; rfl⟩

theorem gives_createJwtToken {es : List Entry} {subject : Uuid} {tokenType : Str} {delta : Int} :
    Gives rely i es (createJwtToken subject tokenType delta) fun token fs =>
      fs = es ∧ token.claims.sub = some (some subject) := by
  refine gives_bind (gives_silent hrely (silent_ask rfl)) fun _ fs hfs => ?_
  refine gives_bind (gives_silent hrely (silent_ask rfl)) fun _ gs hgs => ?_
  refine gives_bind (gives_silent hrely (silent_ask rfl)) fun _ hs hhs => ?_
  exact gives_pure ⟨hhs.trans (hgs.trans hfs), rfl⟩

theorem gives_generateTokenPair {es : List Entry} {userId : Uuid} :
    Gives rely i es (generateTokenPair userId) fun tokens fs =>
      fs = es ∧ tokens.accessToken.claims.sub = some (some userId) := by
  refine gives_bind (gives_createJwtToken hrely) fun accessToken fs ⟨hfs, hsub⟩ => ?_
  refine gives_bind (gives_createJwtToken hrely) fun refreshToken gs ⟨hgs, _⟩ => ?_
  exact gives_pure ⟨hgs.trans hfs, hsub⟩

theorem register_transacts (payload : UserRegisterRequest) :
    (Operation.register payload).Transacts rely i := by
  refine ⟨_, rfl, ?_, ?_⟩
  · refine (gathers_selectOne _).bind fun existing => gathers_ite trivial ?_
    refine Prog.All.bind ((gathers_ask rfl).bind fun _ => trivial) fun _ =>
      (gathers_create _ _).bind fun _ => (gathers_ask rfl).bind fun _ =>
        (gathers_create _ _).bind fun _ => (gathers_create _ _).bind fun _ =>
          gathers_generateTokenPair _
  · refine gives_bind (gives_selectOne hrely _) fun existing fs ⟨hfs, _⟩ => ?_
    subst hfs
    refine gives_ite (fun _ => gives_bind_throw) fun _ => ?_
    refine gives_bind (gives_silent hrely ((silent_ask rfl).bind fun _ => trivial))
      fun hashed fs hfs => ?_
    subst hfs
    refine gives_bind (gives_create hrely) fun user fs ⟨userRow, hfs, huser, _⟩ => ?_
    subst hfs
    refine gives_bind (gives_silent hrely (silent_ask rfl)) fun suffix fs hfs => ?_
    subst hfs
    refine gives_bind (gives_create hrely) fun org fs ⟨orgRow, hfs, horg, _⟩ => ?_
    subst hfs
    refine gives_bind (gives_create hrely) fun member fs ⟨memberRow, hfs, _, id, now, hmember⟩ => ?_
    subst hfs
    refine (gives_generateTokenPair hrely).mono fun tokens fs ⟨hfs, hsub⟩ => ?_
    refine ⟨userRow, orgRow, memberRow, hfs, ?_, ?_, ?_, hsub.trans ?_⟩
    · rw [hmember]
      exact huser
    · rw [hmember]
      exact horg
    · rw [hmember]
      rfl
    · exact congrArg (fun u => some (some u)) huser

theorem createTeam_transacts (o : Uuid) (payload : TeamCreate) :
    (Operation.createTeam o payload).Transacts rely i := by
  refine ⟨_, rfl, gathers_create _ _, (gives_create hrely).mono ?_⟩
  rintro team fs ⟨row, hfs, hid, -⟩
  exact ⟨row, hfs, hid.symm⟩

theorem Operation.transacts (op : Operation) : op.Transacts rely i := by
  cases op with
  | register payload => exact register_transacts hrely payload
  | createTask o p reporter title description priority assignee =>
    exact createTask_transacts hrely o p reporter title description priority assignee
  | updateTaskStatusOcc o taskId actor status version =>
    exact updateTaskStatusOcc_transacts hrely o taskId actor status version
  | createProject o payload actor => exact createProject_transacts hrely o payload actor
  | updateProject o projectId payload actor =>
    exact updateProject_transacts hrely o projectId payload actor
  | addComment o taskId author payload => exact addComment_transacts hrely o taskId author payload
  | updateComment o commentId user role payload =>
    exact updateComment_transacts hrely o commentId user role payload
  | createTeam o payload => exact createTeam_transacts hrely o payload
  | addMember o caller teamId userId => exact addMember_transacts hrely o caller teamId userId

/-- What the acts of an operation come to: after an exception nothing, otherwise one
commit of all its rows. -/
def Operation.Outcome (op : Operation) (i : Nat) (acts : List AppAct) :
    Except Exn op.Answer → Prop
  | .error _ => Unchanged acts
  | .ok x => ∃ gathered v, acts = gathered ++ [⟨.commit, v, v.commit i⟩] ∧ Unchanged gathered ∧
      op.Rows x (v.rows i)

theorem Operation.outcome {op : Operation} {w w' : World} {acts : List AppAct}
    {a : Except Exn op.Answer} (hrows : w.rows i = [])
    (h : Amid machine rely i op.run w acts a w') : op.Outcome i acts a ∧ w'.rows i = [] := by
  obtain ⟨body, hrun, hgathers, hgives⟩ := op.transacts hrely
  rw [hrun] at h
  obtain ⟨hclosed, hcases⟩ := amid_transaction hgathers h
  refine ⟨?_, hclosed⟩
  cases a with
  | error e => exact hcases
  | ok x =>
    obtain ⟨gathered, w₁, v, hacts, hunchanged, hbody, hr⟩ := hcases
    exact ⟨gathered, v, hacts, hunchanged,
      hrely w₁ v hr ▸ hgives w gathered x w₁ hrows hbody⟩

omit hrely

def TenantRequest.operation (ctx : TenantContext) : TenantRequest → Option Operation
  | .createTask payload => some (.createTask ctx.organizationId payload.projectId ctx.user.id
      payload.title.text payload.description payload.priority payload.assigneeId)
  | .updateTask taskId payload => payload.status.map fun status =>
      .updateTaskStatusOcc ctx.organizationId taskId ctx.user.id status payload.expectedVersion.val
  | .createProject payload => some (.createProject ctx.organizationId payload none)
  | .updateProject projectId payload =>
      some (.updateProject ctx.organizationId projectId payload none)
  | .createComment taskId payload =>
      some (.addComment ctx.organizationId taskId ctx.user.id payload)
  | .updateComment _ commentId payload =>
      some (.updateComment ctx.organizationId commentId ctx.user.id ctx.role payload)
  | .createTeam payload => some (.createTeam ctx.organizationId payload)
  | .addTeamMember teamId payload =>
      some (.addMember ctx.organizationId ctx.user teamId payload.userId)
  | _ => none

theorem TenantRequest.endpoint_calls {req : TenantRequest} {ctx : TenantContext} {op : Operation}
    (h : req.operation ctx = some op) :
    ∃ rest : op.Answer → Coro Response, req.endpoint ctx = op.run >>= rest := by
  cases req <;> simp only [operation, Option.some.injEq, reduceCtorEq] at h
  case updateTask taskId payload =>
    obtain ⟨status, hs, rfl⟩ := Option.map_eq_some_iff.mp h
    simp only [endpoint, Endpoints.updateTask, hs, Endpoints.updateTaskStatus]
    exact ⟨_, Prog.bind_assoc _ _ _⟩
  case addTeamMember teamId payload =>
    subst h
    exact ⟨_, rfl⟩
  all_goals
    subst h
    exact ⟨_, Prog.bind_assoc _ _ _⟩

def Request.Calls : Request → Operation → Prop
  | .register _ payload, op => op = .register payload
  | .tenant _ o req, op => ∃ user role, req.operation ⟨user, o, role⟩ = some op
  | _, _ => False

variable {α β : Type} {w w' : World} {acts : List AppAct}

theorem amid_withDbSession {body : Coro α} {b : Except Exn α}
    (h : Amid machine rely i (withDbSession body) w acts b w') :
    ∃ acts₁ acts₂ b₁ w₁, acts = acts₁ ++ acts₂ ∧ Unchanged acts₂ ∧
      Amid machine rely i body w acts₁ b₁ w₁ := by
  rcases amid_bind.mp h with ⟨x, acts₁, acts₂, w₁, rfl, hbody, hend⟩ | ⟨e, hbody, -⟩
  · rcases amid_tryCatch.mp hbody with ⟨y, hrun, -⟩ | ⟨e, acts₃, acts₄, w₂, rfl, hrun, hback⟩
    · refine ⟨acts₁, acts₂, _, _, rfl, ?_, hrun⟩
      rcases amid_bind.mp hend with ⟨_, acts₃, acts₄, w₂, rfl, hroll, hp⟩ | ⟨e, hroll, -⟩
      · obtain ⟨v, rfl, -, -, rfl⟩ := amid_perform.mp hroll
        obtain ⟨rfl, -, -⟩ := amid_done.mp hp
        simp [Unchanged, World.rollback, World.log, World.endTransaction, Op.announces]
      · obtain ⟨v, -, -, hv, -⟩ := amid_perform.mp hroll
        cases hv
    · cases (amid_rollback hback).1
  · rcases amid_tryCatch.mp hbody with ⟨y, -, he⟩ | ⟨e', acts₃, acts₄, w₂, rfl, hrun, hback⟩
    · cases he
    · exact ⟨acts₃, acts₄, _, _, rfl, (amid_rollback hback).2.1, hrun⟩

/-- A request that has not come to its operation, or whose operation raised, has changed
nothing and announced nothing. -/
def Request.Outcome (rely : World → World → Prop) (i : Nat) (r : Request) (acts : List AppAct) :
    Prop :=
  Unchanged acts ∨ ∃ op x before during after w₁ w₂, r.Calls op ∧
    acts = before ++ during ++ after ∧ Unchanged before ∧ w₁.rows i = [] ∧
    Amid machine rely i op.run w₁ during (.ok x) w₂

theorem Request.outcome_append {r : Request} {before acts after : List AppAct}
    (hbefore : Unchanged before) (h : r.Outcome rely i acts) (hafter : Unchanged after) :
    r.Outcome rely i (before ++ acts ++ after) := by
  rcases h with h | ⟨op, x, before', during, after', w₁, w₂, hcall, rfl, hb, hrows, hrun⟩
  · exact Or.inl ((hbefore.append h).append hafter)
  · exact Or.inr ⟨op, x, before ++ before', during, after' ++ after, w₁, w₂, hcall, by simp,
      hbefore.append hb, hrows, hrun⟩

theorem amid_calls (hrely : LeavesRows i rely) {r : Request} (op : Operation)
    {rest : op.Answer → Coro β} {b : Except Exn β} (hcall : r.Calls op) (hrows : w.rows i = [])
    (h : Amid machine rely i (op.run >>= rest) w acts b w') : r.Outcome rely i acts := by
  rcases amid_bind.mp h with ⟨x, during, after, w₂, rfl, hop, -⟩ | ⟨e, hop, -⟩
  · exact Or.inr ⟨op, x, [], during, after, w, w₂, hcall, rfl, unchanged_nil, hrows, hop⟩
  · exact Or.inl (Operation.outcome hrely hrows hop).1

theorem amid_first (hrely : LeavesRows i rely) {r : Request} {first : Coro α} {f : α → Coro β}
    {b : Except Exn β} (hgathers : Gathers first) (hsilent : Silent first)
    (hrows : w.rows i = []) (h : Amid machine rely i (first >>= f) w acts b w')
    (hf : ∀ x before rest w₁, Amid machine rely i first w before (.ok x) w₁ → w₁.rows i = [] →
      Amid machine rely i (f x) w₁ rest b w' → r.Outcome rely i rest) :
    r.Outcome rely i acts := by
  rcases amid_bind.mp h with ⟨x, before, rest, w₁, rfl, hfirst, hrest⟩ | ⟨e, hfirst, -⟩
  · have hrows₁ : w₁.rows i = [] := gives_silent hrely hsilent w before x w₁ hrows hfirst
    have hout := hf x before rest w₁ hfirst hrows₁ hrest
    simpa using Request.outcome_append (amid_unchanged hgathers hfirst) hout unchanged_nil
  · exact Or.inl (amid_unchanged hgathers hfirst)

theorem amid_requireRole {minRole : OrgRole} {bearer : Token} {o : Uuid} {ctx : TenantContext}
    (h : Amid machine rely i (requireRole minRole bearer o) w acts (.ok ctx) w') :
    ctx.organizationId = o := by
  refine h.ends (finds_requireRole (D := fun _ => True)) (fun o' u b v he => ?_) ctx rfl
  cases o' with
  | select q =>
    rintro rows rfl
    obtain ⟨-, ⟨rows', hr, hperm⟩ | ⟨-, hb⟩⟩ := he
    · cases hr
      exact ⟨_, trivial, hperm⟩
    · cases hb
  | _ => trivial

omit [Library] in
theorem TenantRequest.operation_isSome {req : TenantRequest} (ctx ctx' : TenantContext)
    (h : (req.operation ctx).isSome) : (req.operation ctx').isSome := by
  cases req <;> first | rfl | cases h | simpa [operation] using h

theorem Request.outcome (hrely : LeavesRows i rely) {r : Request} (hcalls : ∃ op, r.Calls op)
    (hrows : w.rows i = []) {b : Except Exn Response}
    (h : Amid machine rely i r.handle w acts b w') : r.Outcome rely i acts := by
  obtain ⟨op, hcall⟩ := hcalls
  cases r with
  | register clientIp payload =>
    obtain ⟨acts₁, acts₂, b₁, w₁, rfl, hend, hbody⟩ := amid_withDbSession h
    have hout : (Request.register clientIp payload).Outcome rely i acts₁ :=
      amid_first hrely (gathers_rateLimiter _ _ _ _) (silent_rateLimiter _ _ _ _) hrows hbody
        fun headers before rest w₂ _ hrows₂ hrest =>
          amid_calls hrely (.register payload) rfl hrows₂ hrest
    exact Request.outcome_append unchanged_nil hout hend
  | tenant bearer o req =>
    obtain ⟨acts₁, acts₂, b₁, w₁, rfl, hend, hbody⟩ := amid_withDbSession h
    obtain ⟨user, role, hop⟩ := hcall
    have hout : (Request.tenant bearer o req).Outcome rely i acts₁ := by
      refine amid_first hrely (gathers_requireRole _ _ _) (silent_requireRole _ _ _) hrows hbody
        fun ctx before rest w₂ hfirst hrows₂ hrest => ?_
      have hsome := TenantRequest.operation_isSome ⟨user, o, role⟩ ctx (by rw [hop]; rfl)
      obtain ⟨op', hop'⟩ := Option.isSome_iff_exists.mp hsome
      obtain ⟨k, hk⟩ := TenantRequest.endpoint_calls hop'
      rw [hk] at hrest
      obtain ⟨user', o', role'⟩ := ctx
      obtain rfl : o' = o := amid_requireRole hfirst
      exact amid_calls hrely _ ⟨user', role', hop'⟩ hrows₂ hrest
    exact Request.outcome_append unchanged_nil hout hend
  | _ => exact hcall.elim

/-- Whatever fails, and whatever the others do to their rows: an operation that raises
has left the committed rows alone, one that returns has committed all its rows at once,
and a request announces a change only after its operation has returned. -/
theorem transaction_all_or_nothing (hrely : LeavesRows i rely) (hrows : w.rows i = []) :
    (∀ (op : Operation) acts a w', Amid machine rely i op.run w acts a w' →
      op.Outcome i acts a ∧ w'.rows i = [] ∧
      ((∀ v v', rely v v' → v'.db = v.db) → (∃ e, a = .error e) → w'.db = w.db)) ∧
    ∀ r : Request, (∃ op, r.Calls op) → ∀ acts b w', Amid machine rely i r.handle w acts b w' →
      r.Outcome rely i acts := by
  refine ⟨fun op acts a w' h => ?_, fun r hcalls acts b w' h => r.outcome hrely hcalls hrows h⟩
  obtain ⟨hout, hclosed⟩ := Operation.outcome hrely hrows h
  refine ⟨hout, hclosed, fun hdb => ?_⟩
  rintro ⟨e, rfl⟩
  exact h.keeps World.db hdb fun act hact => (hout act hact).1

def SameRows (i : Nat) (v v' : World) : Prop := v'.rows i = v.rows i

/-- In a run, too, a request is executed amid others that leave its open rows alone. -/
theorem Served.outcome {faults : Faults} {now : Instant} {c c' : AppConfig} {r : Request}
    {b : Except Exn Response} (h₀ : Reach app anySchedule (genesis faults now) c)
    (h : Served c c' i r b) (hcalls : ∃ op, r.Calls op) :
    ∃ acts v, Amid machine (SameRows i) i r.handle c.state acts b v ∧
      r.Outcome (SameRows i) i acts := by
  have hrefl : ∀ u, SameRows i u u := fun _ => rfl
  obtain ⟨t, -, hrest⟩ := h.reach.amid hrefl
    (fun _ _ _ huv hvw => hvw.trans huv) (fun d l d' hs hl => step_rows hs hl)
    (Config.thread_setThread _ _ _ _) h.answered
  obtain ⟨acts, hacts⟩ := hrest [] b t .done
  rw [List.append_nil] at hacts
  exact ⟨acts, t, hacts, r.outcome (fun _ _ => id) hcalls (reached_fresh h₀ h.idle) hacts⟩

end

section

open scoped Ascii

def launch : Operation :=
  .createTask (drawnId 4) (drawnId 15) (drawnId 2) "Launch".toList none .low none

def apolloWorld : World := (runMoves (genesis noFaults 0) annsProject).state

theorem launch_all_or_nothing : ∃ acts x w',
    Amid machine Eq 3 launch.run apolloWorld acts (.ok x) w' ∧ launch.Outcome 3 acts (.ok x) := by
  have hrows : apolloWorld.rows 3 = [] := List.isEmpty_iff.mp (by decide +kernel)
  have hrun : (launch.run.alone scheduler 3 false 10 apolloWorld).any
      (fun r => match r.1 with | .ok _ => true | .error _ => false) = true := by decide +kernel
  obtain ⟨⟨a, w'⟩, hsome, hok⟩ := (Option.any_eq_true _ _).mp hrun
  cases a with
  | error e => cases hok
  | ok x =>
    obtain ⟨acts, hacts⟩ := Amid.of_runs (Prog.alone_runs hsome)
    refine ⟨acts, x, w', hacts, ?_⟩
    exact ((transaction_all_or_nothing (fun _ _ h => h ▸ rfl) hrows).1 launch acts _ w' hacts).1

end

end MultiTenantSaas
