import MultiTenantSaas.Atomicity
import MultiTenantSaas.SessionSteps

/-!
Every handler keeps to the protocol of its session: one lemma for each endpoint that
writes, one for those that do not, and the run of the whole application as a refinement.
-/

set_option autoImplicit false

namespace MultiTenantSaas

open Process Session

variable {D : Db → Prop} {r : Request} {g : Session}

/-- All rows of a tenant request that has been answered, and what the answer says of them.
An edit of the organization or of a comment that changes nothing writes nothing. -/
def TenantRequest.Leaves (D : Db → Prop) (organizationId : Uuid) (a : Response)
    (es : List Entry) : TenantRequest → Prop
  | .updateCurrentOrganization payload => ∃ (x : OrganizationResponse) (read : Organization),
    a = .organization x ∧
    x.id = organizationId ∧ ReadIn D (t := .organizations) organizationId read ∧
    if payload.assign read = read then es = [] else Operation.Alone .organizations organizationId es
  | .inviteMember payload => ∃ (x : OrgMemberDetailResponse) (m : OrganizationMember),
    a = .member x ∧
    es = [⟨.organizationMembers, m⟩] ∧ m.organizationId = organizationId ∧ x.id = m.id ∧
    x.userId = m.userId ∧ x.role = m.role ∧ m.role = payload.role
  | .createTeam _ => ∃ x, a = .team x ∧ Operation.Alone .teams x.id es
  | .addTeamMember teamId payload => a = .noContent ∧ ∃ m : TeamMember,
    es = [⟨.teamMembers, m⟩] ∧ m.teamId = teamId ∧ m.userId = payload.userId
  | .createProject _ => ∃ x, a = .project x ∧
    Operation.WithAudit .projects x.id projectEntity .create es
  | .updateProject projectId _ => ∃ x, a = .project x ∧ x.id = projectId ∧
    Operation.WithAudit .projects projectId projectEntity .update es
  | .createTask _ => ∃ x, a = .task x ∧ Operation.WithAudit .tasks x.id taskEntity .create es
  | .updateTask taskId payload => ∃ x, a = .task x ∧ x.id = taskId ∧
    if payload.status.isSome then Operation.WithAudit .tasks taskId taskEntity .update es
    else Operation.Alone .tasks taskId es
  | .deleteTask taskId => a = .noContent ∧ Operation.Alone .tasks taskId es
  | .createComment _ _ => ∃ x, a = .comment x ∧ Operation.Alone .comments x.id es
  | .updateComment _ commentId payload => ∃ (x : CommentResponse) (read : Comment),
    a = .comment x ∧ x.id = commentId ∧ ReadIn D (t := .comments) commentId read ∧
    read.EditedAs (strip payload.content.text) es
  | .confirmAttachment _ _ => ∃ x, a = .attachment x ∧ Operation.Alone .attachments x.id es
  | _ => False

def Request.Leaves (D : Db → Prop) (a : Response) (es : List Entry) : Request → Prop
  | .register _ payload => ∃ headers tokens, a = .tokens headers tokens ∧
    (Operation.register payload).Rows tokens es
  | .tenant _ o q => q.Leaves D o a es
  | _ => False

def Request.Settles (D : Db → Prop) (r : Request) (a : Response) (s : Stage) : Prop :=
  ∃ es, (s = .committed es ∨ s = .announced es) ∧ r.Leaves D a es

section Endpoints

variable {bearer : Token} {o : Uuid} {user : User} {role : OrgRole} {db : Db}

theorem Task.projectId_of_frozen {t t' : Task}
    (h : Table.tasks.frozen t = Table.tasks.frozen t') : t.projectId = t'.projectId := by
  have hp := congrArg Task.projectId h
  exact hp

theorem createTeam_obeys [Library] {payload : TeamCreate} :
    Obeys D (.tenant bearer o (.createTeam payload)) (Endpoints.createTeam ⟨user, o, role⟩ payload)
      (fun x g => (Request.tenant bearer o (.createTeam payload)).Settles D (.team x) g.stage)
      ⟨db, [], .working⟩ := by
  refine obeys_bind (obeys_transaction (obeys_create ⟨rfl, [], rfl⟩
    fun id now db₁ h₁ => ⟨rfl, fun db₂ h₂ hgrow => ?_⟩))
  have hteam := Db.get_apply_append_self db₂ [] ⟨.teams, newTeam o payload id now⟩
  refine obeys_bind (obeys_bind (obeys_selectOne (fun db₃ h₃ hnil => ?_)
    fun team db₃ _ h₃ hin => ?_))
  · -- the team is committed, so that the read finds it
    obtain ⟨team, hget, hf⟩ := h₃ .teams _ _ hteam
    obtain ⟨hmem, hid⟩ := Db.get_eq_some.mp hget
    have horg : Team.organizationId team = o := congrArg Team.organizationId hf
    rw [Db.apply_nil, rowsWhere, List.filter_eq_nil_iff] at hnil
    refine absurd ?_ (hnil team hmem)
    simp only [Bool.and_eq_true, decide_eq_true_eq]
    exact ⟨hid, horg⟩
  · refine obeys_bind (obeys_select fun members db₄ _ _ _ => obeys_pure ?_)
    have hid : Team.id team = id := by
      have hcrit := (mem_rowsWhere.mp hin).2
      simp only [Bool.and_eq_true, decide_eq_true_eq] at hcrit
      exact hcrit.1
    exact obeys_bind (obeys_requireJoined _ fun _ =>
      obeys_pure ⟨_, Or.inl rfl, _, rfl, _, rfl, hid.symm⟩)

theorem obeys_sessionGetUser {caller : User} {userId : Uuid} {Q : Option User → Session → Prop}
    (hstage : g.stage = .working) (hQ : ∀ x db, Extends g.db db → Q x { g with db }) :
    Obeys D r (sessionGetUser caller userId) Q g := by
  refine obeys_inward (Inward.of_silent ?_) hstage hQ
  exact silent_ite trivial (silent_sessionGet _ _)

theorem addTeamMember_obeys {teamId : Uuid} {payload : TeamMemberAddRequest} :
    Obeys D (.tenant bearer o (.addTeamMember teamId payload))
      (Endpoints.addTeamMember ⟨user, o, role⟩ teamId payload)
      (fun _ g => (Request.tenant bearer o (.addTeamMember teamId payload)).Settles D
        (.noContent) g.stage)
      ⟨db, [], .working⟩ := by
  refine obeys_transaction (obeys_bind (obeys_getById rfl
    (fun _ _ => obeys_throw (excuses_working rfl)) fun team db₁ _ h₁ _ _ _ => ?_))
  refine obeys_bind (obeys_sessionGetUser rfl fun found db₂ h₂ => ?_)
  cases found with
  | none => exact obeys_throw (excuses_working rfl)
  | some _ =>
    refine obeys_bind (obeys_insert ⟨rfl, [], rfl⟩ fun id now db₃ h₃ => obeys_pure ⟨rfl, ?_⟩)
    exact fun db₄ _ _ => ⟨_, Or.inl rfl, rfl, _, rfl, rfl, rfl⟩

theorem updateCurrentOrganization_obeys {payload : OrganizationUpdate} :
    Obeys D (.tenant bearer o (.updateCurrentOrganization payload))
      (Endpoints.updateCurrentOrganization ⟨user, o, role⟩ payload)
      (fun x g => (Request.tenant bearer o (.updateCurrentOrganization payload)).Settles D
        (.organization x) g.stage)
      ⟨db, [], .working⟩ := by
  refine obeys_bind (obeys_sessionGet rfl (fun _ _ _ => obeys_throw (excuses_working rfl))
    fun (org : Organization) db₁ hD₁ h₁ hget => ?_)
  have hid : org.id = o := (Db.get_eq_some.mp hget).2
  have hafter : ∀ es db', (if payload.assign org = org then es = []
        else Operation.Alone .organizations o es) →
      Obeys D (.tenant bearer o (.updateCurrentOrganization payload))
        (do
          ask .commit
          let org ← refresh .organizations org.id
          pure (OrganizationResponse.ofOrganization org))
        (fun x g => (Request.tenant bearer o (.updateCurrentOrganization payload)).Settles D
          (.organization x) g.stage) ⟨db', es, .working⟩ := fun es db' hes =>
    obeys_bind (obeys_commit rfl fun db₂ _ _ => obeys_bind (obeys_refresh rfl
      fun fresh db₃ _ hfresh => obeys_pure ⟨es, Or.inl rfl, _, org, rfl,
        (Db.get_eq_some.mp hfresh).2.trans hid, ⟨db₁, hD₁, hget⟩, hes⟩))
  dsimp only
  split
  · next hne =>
    refine obeys_bind (obeys_flush ⟨rfl, [], rfl⟩ fun old now db₂ h₂ hold => hafter _ _ ?_)
    rw [if_neg hne]
    exact ⟨_, rfl, (Db.get_eq_some.mp hold).2.trans hid⟩
  · next heq => exact hafter _ _ ((if_pos (not_not.mp heq)).mpr rfl)

theorem inviteMember_obeys [Library] {payload : OrgMemberInviteRequest} :
    Obeys D (.tenant bearer o (.inviteMember payload))
      (Endpoints.inviteMember ⟨user, o, role⟩ payload)
      (fun x g => (Request.tenant bearer o (.inviteMember payload)).Settles D (.member x) g.stage)
      ⟨db, [], .working⟩ := by
  refine obeys_bind (obeys_selectOne (fun _ _ _ => obeys_throw (excuses_working rfl))
    fun (invited : User) db₁ _ h₁ _ => ?_)
  refine obeys_bind (obeys_inward (Inward.of_silent (silent_selectOne _)) rfl
    fun existing db₂ h₂ => ?_)
  dsimp only
  split
  · exact obeys_bind (obeys_throw (excuses_working rfl))
  · refine obeys_bind (obeys_create ⟨rfl, [], rfl⟩ fun id now db₃ h₃ => ?_)
    refine obeys_bind (obeys_commit rfl fun db₄ h₄ _ => ?_)
    have hafter : ∀ (name : Str) db', Obeys D (.tenant bearer o (.inviteMember payload))
        (do
          JobQueueService.enqueue "send_invitation_email".toList
            [invited.email, name, user.fullName]
          Endpoints.memberDetail (newOrganizationMember o invited.id payload.role id now) invited)
        (fun x g => (Request.tenant bearer o (.inviteMember payload)).Settles D (.member x) g.stage)
        ⟨db', [], .committed [⟨.organizationMembers,
          newOrganizationMember o invited.id payload.role id now⟩]⟩ := by
      intro name db'
      refine obeys_bind (obeys_orDefault (inward_ask rfl) fun _ db₅ _ => ?_)
      refine obeys_bind (obeys_ask (Op.inward.admits rfl) fun email db₆ g' _ _ _ hans => ?_)
      cases Op.inward.answers rfl hans
      exact obeys_pure ⟨_, Or.inl rfl, _, _, rfl, rfl, rfl, rfl, rfl, rfl, rfl⟩
    exact obeys_bind (obeys_sessionGet rfl (fun _ _ _ => hafter _ _) fun _ _ _ _ _ => hafter _ _)

theorem createProject_obeys [Library] {payload : ProjectCreate} :
    Obeys D (.tenant bearer o (.createProject payload))
      (Endpoints.createProject ⟨user, o, role⟩ payload)
      (fun x g => (Request.tenant bearer o (.createProject payload)).Settles D (.project x) g.stage)
      ⟨db, [], .working⟩ := by
  refine obeys_bind (obeys_transaction (obeys_bind (obeys_inward
    (Inward.of_silent (silent_selectOne _)) rfl fun existing db₁ h₁ => ?_)))
  dsimp only
  split
  · exact obeys_bind (obeys_throw (excuses_working rfl))
  · refine obeys_bind (obeys_create ⟨rfl, [.auditLogs], rfl⟩ fun id now db₂ h₂ => ?_)
    refine obeys_bind (obeys_bind (obeys_insert ⟨rfl, [], rfl⟩ fun auditId now' db₃ h₃ => ?_))
    exact obeys_pure (obeys_pure ⟨rfl, fun db₄ _ _ =>
      obeys_pure ⟨_, Or.inl rfl, _, rfl, _, _, rfl, rfl, rfl, rfl, rfl⟩⟩)

theorem updateProject_obeys {projectId : Uuid} {payload : ProjectUpdate} :
    Obeys D (.tenant bearer o (.updateProject projectId payload))
      (Endpoints.updateProject ⟨user, o, role⟩ projectId payload)
      (fun x g => (Request.tenant bearer o (.updateProject projectId payload)).Settles D
        (.project x) g.stage)
      ⟨db, [], .working⟩ := by
  refine obeys_bind (obeys_transaction (obeys_bind (obeys_getById rfl
    (fun _ _ => obeys_throw (excuses_working rfl))
    fun (project : Project) db₁ _ h₁ hget _ _ => ?_)))
  have hid : project.id = projectId := (Db.get_eq_some.mp hget).2
  dsimp only
  split
  · exact obeys_bind (obeys_throw (excuses_working rfl))
  · refine obeys_bind (obeys_flush ⟨rfl, [.auditLogs], rfl⟩
      fun (old : Project) now db₂ h₂ hold => ?_)
    have hold' : old.id = projectId := (Db.get_eq_some.mp hold).2.trans hid
    refine obeys_bind (obeys_bind (obeys_insert ⟨rfl, [], rfl⟩ fun auditId now' db₃ h₃ => ?_))
    refine obeys_pure (obeys_pure ⟨rfl, fun db₄ _ _ => ?_⟩)
    exact obeys_bind (obeys_orDefault (inward_ask rfl) fun _ _ _ =>
      obeys_pure ⟨_, Or.inl rfl, _, rfl, hid, _, _, rfl, hold', hid, rfl, rfl⟩)

theorem createTask_obeys {payload : TaskCreate} :
    Obeys D (.tenant bearer o (.createTask payload)) (Endpoints.createTask ⟨user, o, role⟩ payload)
      (fun x g => (Request.tenant bearer o (.createTask payload)).Settles D (.task x) g.stage)
      ⟨db, [], .working⟩ := by
  refine obeys_bind (obeys_transaction (obeys_bind (obeys_create ⟨rfl, [.auditLogs], rfl⟩
    fun id now db₁ h₁ => ?_)))
  refine obeys_bind (obeys_bind (obeys_insert ⟨rfl, [], rfl⟩ fun auditId now' db₂ h₂ => ?_))
  refine obeys_pure (obeys_pure ⟨rfl, fun db₃ _ _ => ?_⟩)
  refine obeys_bind (obeys_broadcastToRoom rfl ?_ fun _ _ =>
    obeys_pure ⟨_, Or.inr rfl, _, rfl, _, _, rfl, rfl, rfl, rfl, rfl⟩)
  exact ⟨_, _, rfl, rfl, rfl, rfl⟩

theorem updateTaskStatus_obeys {taskId : Uuid} {payload : TaskUpdate} {status : TaskStatus}
    (hstatus : payload.status = some status) :
    Obeys D (.tenant bearer o (.updateTask taskId payload))
      (Endpoints.updateTaskStatus ⟨user, o, role⟩ taskId status payload.expectedVersion.val)
      (fun x g => (Request.tenant bearer o (.updateTask taskId payload)).Settles D
        (.task x) g.stage)
      ⟨db, [], .working⟩ := by
  refine obeys_bind (obeys_transaction (obeys_bind (obeys_getById rfl
    (fun _ _ => obeys_throw (excuses_working rfl))
    fun (existing : Task) db₁ hD₁ h₁ hget horg hlive => ?_)))
  have hid : existing.id = taskId := (Db.get_eq_some.mp hget).2
  refine obeys_bind (obeys_updateWhere ⟨rfl, [.auditLogs], rfl⟩ (fun _ _ => ?_)
    fun (old : Task) now db₂ h₂ _ hold => ?_)
  · exact obeys_bind (obeys_throw (excuses_working rfl))
  have hold' : old.id = taskId := (Db.get_eq_some.mp hold).2
  have hproject : existing.projectId = old.projectId :=
    (Task.projectId_of_frozen (h₂.frozen hget hold)).symm
  -- the object matches the criteria of the UPDATE if its version does
  have hcriteria : statusCriteria o payload.expectedVersion.val existing =
      decide (existing.versionId = payload.expectedVersion.val) := by
    have horg : existing.organizationId = o := Option.some.inj horg
    have hlive : existing.isDeleted = false := hlive
    simp [statusCriteria, horg, hlive]
  refine obeys_bind (obeys_bind (obeys_insert ⟨rfl, [], rfl⟩ fun auditId now' db₃ h₃ => ?_))
  refine obeys_pure (obeys_pure ⟨rfl, fun db₄ _ _ => ?_⟩)
  dsimp only
  rw [hcriteria]
  by_cases hversion : existing.versionId = payload.expectedVersion.val
  · simp only [hversion, decide_true, if_true]
    refine obeys_bind (obeys_broadcastToRoom rfl ?_ fun _ _ =>
      obeys_pure ⟨_, Or.inr rfl, _, rfl, hid, ?_⟩)
    · simp only [Request.Announces, TenantRequest.Announces, hstatus]
      refine ⟨{ setStatus status payload.expectedVersion.val old with updatedAt := now }, hold',
        congrArg channelName hproject, trivial, _, existing, rfl, rfl, rfl,
        ⟨db₁, hD₁, hget⟩, ?_⟩
      rw [if_pos hversion]
      exact ⟨rfl, rfl⟩
    · simp only [hstatus, Option.isSome_some, if_true]
      exact ⟨_, _, rfl, hold', hid, rfl, rfl⟩
  · simp only [hversion, decide_false, Bool.false_eq_true, if_false]
    refine obeys_bind (obeys_broadcastToRoom rfl ?_ fun _ _ =>
      obeys_pure ⟨_, Or.inr rfl, _, rfl, hid, ?_⟩)
    · simp only [Request.Announces, TenantRequest.Announces, hstatus]
      refine ⟨{ setStatus status payload.expectedVersion.val old with updatedAt := now }, hold',
        congrArg channelName hproject, trivial, _, existing, rfl, rfl, rfl,
        ⟨db₁, hD₁, hget⟩, ?_⟩
      rw [if_neg hversion]
      exact ⟨rfl, rfl⟩
    · simp only [hstatus, Option.isSome_some, if_true]
      exact ⟨_, _, rfl, hold', hid, rfl, rfl⟩

theorem updateTaskFields_obeys {taskId : Uuid} {payload : TaskUpdate}
    (hstatus : payload.status = none) :
    Obeys D (.tenant bearer o (.updateTask taskId payload))
      (Endpoints.updateTaskFields ⟨user, o, role⟩ taskId payload)
      (fun x g => (Request.tenant bearer o (.updateTask taskId payload)).Settles D
        (.task x) g.stage)
      ⟨db, [], .working⟩ := by
  refine obeys_bind (obeys_getById rfl (fun _ _ => obeys_throw (excuses_working rfl))
    fun (task : Task) db₁ _ h₁ hget _ _ => ?_)
  have hid : task.id = taskId := (Db.get_eq_some.mp hget).2
  dsimp only
  split
  · exact obeys_bind (obeys_throw (excuses_working rfl))
  · refine obeys_bind (obeys_flush ⟨rfl, [.auditLogs], rfl⟩ fun (old : Task) now db₂ h₂ hold => ?_)
    refine obeys_bind (obeys_commit rfl fun db₃ h₃ hgrow => ?_)
    refine obeys_bind (obeys_refresh rfl fun (fresh : Task) db₄ h₄ hfresh => ?_)
    have hold' : old.id = taskId := (Db.get_eq_some.mp hold).2.trans hid
    refine obeys_bind (obeys_broadcastToRoom rfl ?_ fun _ _ => obeys_pure ⟨_, Or.inr rfl, _, rfl,
      (Db.get_eq_some.mp hfresh).2.trans hid, ?_⟩)
    case refine_2 =>
      simp only [hstatus, Option.isSome_none, Bool.false_eq_true, if_false]
      exact ⟨_, rfl, hold'⟩
    have hproject : fresh.projectId = old.projectId :=
      Task.projectId_of_frozen (((h₃.trans hgrow).trans h₄).frozen hold hfresh)
    simp only [Request.Announces, TenantRequest.Announces, hstatus]
    exact ⟨task.flush (payload.assign task) now old, hold', congrArg channelName hproject, trivial,
      rfl, fresh, hid ▸ hfresh, rfl⟩

theorem deleteTask_obeys {taskId : Uuid} :
    Obeys D (.tenant bearer o (.deleteTask taskId)) (Endpoints.deleteTask ⟨user, o, role⟩ taskId)
      (fun _ g => (Request.tenant bearer o (.deleteTask taskId)).Settles D (.noContent) g.stage)
      ⟨db, [], .working⟩ := by
  refine obeys_bind (obeys_getById rfl (fun _ _ => obeys_throw (excuses_working rfl))
    fun (task : Task) db₁ _ h₁ hget _ _ => ?_)
  refine obeys_bind (obeys_bind (obeys_updateWhere ⟨rfl, [], rfl⟩ (fun _ _ => obeys_pure ?_)
    fun (old : Task) now db₂ h₂ _ hold => obeys_pure ?_))
  · exact obeys_bind (obeys_throw (excuses_working rfl))
  · refine obeys_bind (obeys_commit rfl fun db₃ h₃ _ => ?_)
    have hold' : old.id = taskId := (Db.get_eq_some.mp hold).2
    refine obeys_broadcastToRoom rfl ?_ fun _ _ => ⟨_, Or.inr rfl, rfl, _, rfl, hold'⟩
    have hproject : old.projectId = task.projectId :=
      Task.projectId_of_frozen (h₂.frozen hget hold)
    exact ⟨old.markDeleted now, rfl, hold', rfl, congrArg channelName hproject.symm, rfl, rfl⟩

theorem obeys_broadcastForTask {ctx : TenantContext} {taskId : Uuid} {event : Str}
    {data : JsonObject} {es : List Entry} {Q : Unit → Session → Prop}
    (hw : g.written = []) (hstage : g.stage = .committed es)
    (hann : ∀ (task : Task) db, Extends g.db db → db.get .tasks taskId = some task →
      r.Announces D db es (channelName task.projectId) event data)
    (hQ : ∀ g', (g'.stage = .committed es ∨ g'.stage = .announced es) → Q () g') :
    Obeys D r (Endpoints.broadcastForTask ctx taskId event data) Q g := by
  refine obeys_bind (obeys_getById hw (fun db _ => obeys_pure (hQ _ (Or.inl hstage)))
    fun (task : Task) db _ hdb hget _ _ => ?_)
  exact obeys_broadcastToRoom hstage (hann task db hdb hget) fun _ _ => hQ _ (Or.inr rfl)

theorem createComment_obeys {taskId : Uuid} {payload : CommentCreate}
    (huser : user ∈ db.rows .users) :
    Obeys D (.tenant bearer o (.createComment taskId payload))
      (Endpoints.createComment ⟨user, o, role⟩ taskId payload)
      (fun x g => (Request.tenant bearer o (.createComment taskId payload)).Settles D
        (.comment x) g.stage)
      ⟨db, [], .working⟩ := by
  refine obeys_bind (obeys_transaction (obeys_bind (obeys_getById rfl
    (fun _ _ => obeys_throw (excuses_working rfl)) fun _ db₁ _ h₁ _ _ _ => ?_)))
  refine obeys_create ⟨rfl, [], rfl⟩ fun id now db₂ h₂ => ⟨rfl, fun db₃ h₃ hgrow => ?_⟩
  refine obeys_bind (obeys_broadcastForTask rfl rfl (fun task db₄ h₄ hget => ?_)
    fun _ hs => obeys_pure ⟨_, hs, _, rfl, _, rfl, rfl⟩)
  have huser' := (h₁.trans (h₂.trans (h₃.trans (hgrow.trans h₄)))).mem (t := .users)
    (fun _ => rfl) huser
  exact ⟨_, user, task, rfl, rfl, huser', rfl, hget, rfl, rfl, rfl⟩

theorem updateComment_obeys {taskId commentId : Uuid} {payload : CommentUpdate} :
    Obeys D (.tenant bearer o (.updateComment taskId commentId payload))
      (Endpoints.updateComment ⟨user, o, role⟩ taskId commentId payload)
      (fun x g => (Request.tenant bearer o (.updateComment taskId commentId payload)).Settles D
        (.comment x) g.stage)
      ⟨db, [], .working⟩ := by
  refine obeys_bind (obeys_transaction (obeys_bind (obeys_getById rfl
    (fun _ _ => obeys_throw (excuses_working rfl))
    fun (comment : Comment) db₁ hD₁ h₁ hget _ _ => ?_)))
  have hid : comment.id = commentId := (Db.get_eq_some.mp hget).2
  have hread : ReadIn D (t := .comments) commentId comment := ⟨db₁, hD₁, hget⟩
  have hafter : ∀ es db', comment.EditedAs (strip payload.content.text) es →
      Obeys D (.tenant bearer o (.updateComment taskId commentId payload))
      (do
        Endpoints.broadcastForTask ⟨user, o, role⟩ taskId "COMMENT_UPDATED".toList
          [("task_id".toList, .str taskId.str), ("comment_id".toList, .str comment.id.str),
            ("content".toList, .str (strip payload.content.text))]
        pure (Endpoints.commentAnswer ⟨user, o, role⟩ taskId
          { comment with content := strip payload.content.text, isEdited := true }))
      (fun x g => (Request.tenant bearer o (.updateComment taskId commentId payload)).Settles D
        (.comment x) g.stage) ⟨db', [], .committed es⟩ := fun es db' hes =>
    obeys_bind (obeys_broadcastForTask rfl rfl
      (fun task db₂ _ htask => ⟨comment, task, hread, hes, htask, rfl, rfl, by rw [hid]⟩)
      fun _ hs => obeys_pure ⟨es, hs, _, comment, rfl, hid, hread, hes⟩)
  dsimp only
  split
  · exact obeys_bind (obeys_throw (excuses_working rfl))
  · split
    · next hchanged =>
      refine obeys_bind (obeys_flush ⟨rfl, [], rfl⟩ fun (old : Comment) now db₂ h₂ hold =>
        obeys_pure ⟨rfl, fun db₃ _ _ => hafter _ _ ?_⟩)
      rw [Comment.EditedAs, if_neg (by tauto)]
      exact ⟨old, now, (Db.get_eq_some.mp hold).2, rfl⟩
    · next hsame =>
      refine obeys_pure ⟨rfl, fun db₃ _ _ => hafter _ _ ?_⟩
      rw [Comment.EditedAs, if_pos (by tauto)]

theorem confirmAttachment_obeys [Library] {taskId : Uuid} {payload : AttachmentConfirmCreate} :
    Obeys D (.tenant bearer o (.confirmAttachment taskId payload))
      (Endpoints.confirmAttachment ⟨user, o, role⟩ taskId payload)
      (fun x g => (Request.tenant bearer o (.confirmAttachment taskId payload)).Settles D
        (.attachment x) g.stage)
      ⟨db, [], .working⟩ := by
  refine obeys_bind (obeys_getById rfl (fun _ _ => obeys_throw (excuses_working rfl))
    fun _ db₁ _ h₁ _ _ _ => ?_)
  refine obeys_bind (obeys_create ⟨rfl, [], rfl⟩ fun id now db₂ h₂ => ?_)
  refine obeys_bind (obeys_commit rfl fun db₃ h₃ _ => ?_)
  refine obeys_bind (obeys_ask (Op.inward.admits rfl) fun url db₄ g' _ _ _ hans => ?_)
  cases Op.inward.answers rfl hans
  exact obeys_pure ⟨_, Or.inl rfl, _, rfl, _, rfl, rfl⟩

end Endpoints

section Requests

variable {bearer : Token} {o : Uuid} {user : User} {role : OrgRole} {db : Db}

theorem inward_endpoint [Library] {ctx : TenantContext} {q : TenantRequest} (h : q.tables = []) :
    Inward (q.endpoint ctx) := by
  cases q with
  | getCurrentOrganization =>
    refine Inward.of_silent (Prog.All.bind ((silent_sessionGet _ _).bind fun x => ?_)
      fun _ => trivial)
    cases x <;> trivial
  | listOrganizationMembers =>
    exact Inward.of_silent (Prog.All.bind ((silent_ask rfl).bind fun _ =>
      (silent_requireJoined _).bind fun _ => silent_forEach (fun _ => silent_memberDetail _ _) _)
      fun _ => trivial)
  | listTeams =>
    exact Inward.of_silent (Prog.All.bind ((silent_listPaginated _ _ _ _).bind fun _ =>
      silent_forEach (fun _ => silent_getTeamDetail _ _) _) fun _ => trivial)
  | getTeam teamId => exact Inward.of_silent ((silent_getTeamDetail _ _).bind fun _ => trivial)
  | listProjects =>
    exact Inward.of_silent (Prog.All.bind ((silent_listPaginated _ _ _ _).bind fun _ => trivial)
      fun _ => trivial)
  | getProject projectId =>
    refine Inward.of_silent (Prog.All.bind ((silent_cacheGet _).bind fun cached => ?_)
      fun _ => trivial)
    cases cached with
    | some _ => trivial
    | none =>
      refine (silent_getById _ _ _).bind fun project => ?_
      cases project with
      | none => trivial
      | some _ => exact (silent_orDefault (silent_ask rfl)).bind fun _ => trivial
  | listTasksOffset projectId status priority assigneeId search sortBy page pageSize =>
    exact Inward.of_silent (Prog.All.bind (Prog.All.bind (silent_listTasksOffset _ _ _ _)
      fun _ => trivial) fun _ => trivial)
  | listTasksFeed projectId status cursor limit =>
    exact Inward.of_silent (Prog.All.bind (Prog.All.bind (silent_listTasksCursor _ _ _ _)
      fun _ => trivial) fun _ => trivial)
  | getTask taskId =>
    refine Inward.of_silent (Prog.All.bind ((silent_getById _ _ _).bind fun x => ?_)
      fun _ => trivial)
    cases x <;> trivial
  | listComments taskId cursor limit =>
    exact Inward.of_silent (Prog.All.bind (Prog.All.bind (silent_listCommentsCursor _ _ _ _)
      fun _ => trivial) fun _ => trivial)
  | generateUploadUrl taskId payload =>
    refine Prog.All.bind (Prog.All.bind (Inward.of_silent (silent_getById _ _ _)) fun x => ?_)
      fun _ => trivial
    cases x with
    | none => trivial
    | some _ =>
      have hkey : Inward (generateFileKey ctx.organizationId taskId payload.fileName.text) :=
        Prog.All.bind (inward_ask rfl) fun _ => trivial
      exact hkey.bind fun fileKey => Prog.All.bind (inward_ask rfl) fun _ => trivial
  | listAttachments taskId =>
    refine Prog.All.bind (Prog.All.bind (Prog.All.bind (inward_ask rfl) fun _ => trivial)
      fun attachments => ?_) fun _ => trivial
    refine inward_forEach (fun a => ?_) _
    exact Prog.All.bind (inward_ask rfl) fun _ => trivial
  | queryAuditLogs filters page pageSize =>
    exact Inward.of_silent (Prog.All.bind (Prog.All.bind (silent_listAuditLogs _ _ _ _)
      fun _ => trivial) fun _ => trivial)
  | _ => cases h

theorem obeys_endpoint [Library] {q : TenantRequest} (huser : user ∈ db.rows .users) :
    Obeys D (.tenant bearer o q) (q.endpoint ⟨user, o, role⟩)
      (fun a g => q.Commits → (Request.tenant bearer o q).Settles D a g.stage)
      ⟨db, [], .working⟩ := by
  have hwrites : ∀ {α : Type} {p : Coro α} {f : α → Response},
      Obeys D (.tenant bearer o q) p
        (fun x g => (Request.tenant bearer o q).Settles D (f x) g.stage) ⟨db, [], .working⟩ →
      Obeys D (.tenant bearer o q) (do pure (f (← p)))
        (fun a g => q.Commits → (Request.tenant bearer o q).Settles D a g.stage)
        ⟨db, [], .working⟩ :=
    fun hp => obeys_bind (hp.mono fun _ _ hs => obeys_pure fun _ => hs)
  cases q with
  | updateCurrentOrganization payload =>
    exact hwrites updateCurrentOrganization_obeys
  | inviteMember payload => exact hwrites inviteMember_obeys
  | createTeam payload => exact hwrites createTeam_obeys
  | addTeamMember teamId payload => exact hwrites addTeamMember_obeys
  | createProject payload => exact hwrites createProject_obeys
  | updateProject projectId payload => exact hwrites updateProject_obeys
  | createTask payload => exact hwrites createTask_obeys
  | updateTask taskId payload =>
    refine hwrites ?_
    unfold Endpoints.updateTask
    split
    · next status hs => exact updateTaskStatus_obeys hs
    · next hs => exact updateTaskFields_obeys hs
  | deleteTask taskId => exact hwrites deleteTask_obeys
  | createComment taskId payload => exact hwrites (createComment_obeys huser)
  | updateComment taskId commentId payload => exact hwrites updateComment_obeys
  | confirmAttachment taskId payload => exact hwrites confirmAttachment_obeys
  | _ => exact obeys_inward (inward_endpoint rfl) rfl fun _ _ _ hc => hc.elim

theorem obeys_requireRole {minRole : OrgRole} {Q : TenantContext → Session → Prop}
    (hQ : ∀ user role db', user ∈ db'.rows .users → Q ⟨user, o, role⟩ ⟨db', [], .working⟩) :
    Obeys D r (requireRole minRole bearer o) Q ⟨db, [], .working⟩ := by
  have hsubject : Inward (orCredentialsException (accessSubject bearer)) := by
    refine Inward.of_silent (Prog.All.tryCatch ((silent_decodeJwtToken bearer).bind fun payload =>
      silent_ite trivial ?_) fun e => silent_ite trivial trivial)
    cases payload.sub <;> trivial
  refine obeys_bind (obeys_bind (obeys_inward hsubject rfl fun userId db₁ _ => ?_))
  refine obeys_bind (obeys_sessionGet (t := .users) rfl
    (fun _ _ _ => obeys_throw (excuses_working rfl)) fun found db₂ _ _ hget => ?_)
  dsimp only
  split
  · refine obeys_pure (obeys_bind (obeys_selectOne (fun _ _ _ => obeys_throw (excuses_working rfl))
      fun m db₃ _ h₃ _ => ?_))
    dsimp only
    split
    · exact obeys_throw (excuses_working rfl)
    · exact obeys_pure (hQ _ _ _ (h₃.mem (fun _ => rfl) (Db.get_eq_some.mp hget).1))
  · exact obeys_throw (excuses_working rfl)

theorem finds_generateTokenPair {userId : Uuid} :
    Finds D (generateTokenPair userId)
      fun tokens => tokens.accessToken.claims.sub = some (some userId) := by
  have htoken : ∀ tokenType delta, Finds D (createJwtToken userId tokenType delta)
      fun token => token.claims.sub = some (some userId) := fun tokenType delta =>
    finds_bind (finds_ask rfl) fun _ _ => finds_bind (finds_ask rfl) fun _ _ =>
      finds_bind (finds_ask rfl) fun _ _ => finds_pure rfl
  exact finds_bind (htoken _ _) fun _ hsub => finds_bind (htoken _ _) fun _ _ => finds_pure hsub

theorem obeys_generateTokenPair {userId : Uuid} {Q : TokenResponse → Session → Prop}
    (hstage : g.stage = .working)
    (hQ : ∀ tokens db, tokens.accessToken.claims.sub = some (some userId) →
      Q tokens { g with db }) : Obeys D r (generateTokenPair userId) Q g := by
  refine (obeys_finds (obeys_inward (Q := fun _ g' => ∃ db, g' = { g with db })
    (Inward.of_silent (silent_generateTokenPair _)) hstage fun _ db _ => ⟨db, rfl⟩)
    finds_generateTokenPair).mono fun tokens g' hg => ?_
  obtain ⟨hsub, db, rfl⟩ := hg
  exact hQ tokens db hsub

theorem register_obeys [Library] {clientIp : Option Str} {payload : UserRegisterRequest} :
    Obeys D (.register clientIp payload) (AuthService.register payload)
      (fun tokens g => ∀ headers, (Request.register clientIp payload).Settles D
        (.tokens headers tokens) g.stage) ⟨db, [], .working⟩ := by
  refine obeys_transaction (obeys_bind (obeys_inward (Inward.of_silent (silent_selectOne _)) rfl
    fun existing db₁ _ => ?_))
  dsimp only
  split
  · exact obeys_bind (obeys_throw (excuses_working rfl))
  · have hhash : Inward (hashPassword payload.password.text) :=
      Prog.All.bind (inward_ask rfl) fun _ => trivial
    refine obeys_bind (obeys_inward hhash rfl fun hashed db₂ _ => ?_)
    refine obeys_bind (obeys_create ⟨rfl, [.organizations, .organizationMembers], rfl⟩
      fun id now db₃ _ => ?_)
    refine obeys_bind (obeys_inward (inward_ask rfl) rfl fun suffix db₄ _ => ?_)
    refine obeys_bind (obeys_create ⟨rfl, [.organizationMembers], rfl⟩ fun orgId now' db₅ _ => ?_)
    refine obeys_bind (obeys_create ⟨rfl, [], rfl⟩ fun memberId now'' db₆ _ => ?_)
    refine obeys_generateTokenPair rfl fun tokens db₇ hsub => ⟨rfl, fun db₈ _ _ headers => ?_⟩
    exact ⟨_, Or.inl rfl, headers, tokens, rfl, _, _, _, rfl, rfl, rfl, rfl, hsub⟩

/-- How the session of a request ends: no row is left open, and a request that must commit
has committed or fails. -/
def Session.Closes (D : Db → Prop) (r : Request) (a : Except Exn Response) (g : Session) : Prop :=
  g.written = [] ∧ andThen (fun a g' => r.Commits → r.Settles D a g'.stage) Excuses a g

def Op.harmless : Op → Bool
  | .rollback => true
  | o => o.inward

abbrev Harmless {α : Type} (p : Coro α) : Prop :=
  Prog.All (S := sig) (fun o => Op.harmless o = true) p

theorem Harmless.of_inward {α : Type} {p : Coro α} (h : Inward p) : Harmless p :=
  h.mono fun o ho => by
    cases o <;> first | exact ho | rfl

theorem harmless_ask {o : Op} (h : o.harmless = true) : Harmless (ask o) := ⟨h, fun _ => trivial⟩

theorem harmless_withDbSession {α : Type} {p : Coro α} (h : Inward p) :
    Harmless (withDbSession p) :=
  Prog.All.bind ((Harmless.of_inward h).tryCatch fun _ => Prog.All.bind (harmless_ask rfl)
    fun _ => trivial) fun _ => Prog.All.bind (harmless_ask rfl) fun _ => trivial

theorem Harmless.closes {p : Coro Response} (h : Harmless p) (hr : ¬ r.Commits) :
    Prog.Follows (S := sig) (protocol D r) (Closes D r) p Session.fresh := by
  suffices hp : ∀ db, Prog.Follows (S := sig) (protocol D r) (Closes D r) p ⟨db, [], .working⟩ from
    hp .empty
  induction p with
  | done a =>
    intro db
    refine ⟨rfl, ?_⟩
    cases a with
    | ok a => exact fun hc => absurd hc hr
    | error e => exact excuses_working rfl
  | call o k ih =>
    intro db
    by_cases ho : o = .rollback
    · subst ho
      refine ⟨admits_rollback (D := D), fun a g' hm => ?_⟩
      obtain ⟨-, db', -, -, -, -, rfl⟩ := hm
      exact ih a (h.2 a) db'
    · have hin : o.inward = true := by
        cases o <;> first | exact h.1 | exact absurd rfl ho
      refine ⟨Op.inward.admits hin, fun a g' hm => ?_⟩
      obtain ⟨-, db', -, -, -, hans⟩ := hm
      cases Op.inward.answers hin hans
      exact ih a (h.2 a) db'

theorem inward_webSocketUser (token : Token) : Inward (Endpoints.webSocketUser token) := by
  refine Prog.All.tryCatch (Prog.All.bind (Inward.of_silent (silent_decodeJwtToken token))
    fun payload => all_ite ?_ ?_) fun _ => Prog.All.bind (inward_ask rfl) fun _ => trivial
  · exact Prog.All.bind (inward_ask rfl) fun _ => trivial
  · cases payload.sub <;> trivial

theorem inward_webSocketAdmits (p userId : Uuid) : Inward (Endpoints.webSocketAdmits p userId) := by
  refine Prog.All.bind (Inward.of_silent (silent_sessionGet _ _)) fun project => ?_
  cases project with
  | none => exact Prog.All.bind (inward_ask rfl) fun _ => trivial
  | some project =>
    refine Prog.All.bind (Inward.of_silent (silent_selectOne _)) fun m => all_ite ?_ trivial
    exact Prog.All.bind (inward_ask rfl) fun _ => trivial

theorem harmless_webSocket (p : Uuid) (token : Token) (texts : List Str) :
    Harmless (Endpoints.projectRealtimeStream p token texts) := by
  refine Prog.All.bind (Harmless.of_inward (inward_webSocketUser token)) fun found => ?_
  cases found with
  | none => trivial
  | some userId =>
    have hloop : Harmless (Endpoints.receiveLoop texts) :=
      all_receiveLoop (P := fun o => o.harmless = true) (fun _ => rfl) rfl texts
    refine Prog.All.bind (harmless_withDbSession (inward_webSocketAdmits p userId)) fun admitted =>
      all_ite (Prog.All.bind (harmless_ask rfl) fun _ => Prog.All.bind (harmless_ask rfl) fun _ =>
        hloop.tryCatch fun e => all_ite (harmless_ask rfl) trivial) trivial

theorem withDbSession_closes {body : Coro Response}
    (h : Obeys D r body (fun a g => r.Commits → r.Settles D a g.stage) Session.fresh) :
    Prog.Follows (S := sig) (protocol D r) (Closes D r) (withDbSession body) Session.fresh :=
  follows_withDbSession (Q := fun a s => r.Commits → r.Settles D a s) h

theorem inward_refreshTokens (token : Token) : Inward (AuthService.refreshTokens token) := by
  refine Prog.All.bind ((Inward.of_silent (silent_decodeJwtToken token)).tryCatch fun e =>
    all_ite trivial trivial) fun payload => all_ite trivial ?_
  refine Prog.All.bind (inward_ask rfl) fun revoked => all_ite trivial ?_
  cases payload.sub with
  | none => trivial
  | some userId =>
    refine Prog.All.bind (Inward.of_silent (silent_sessionGet _ _)) fun user => ?_
    cases user with
    | none => trivial
    | some user =>
      refine all_ite trivial (Prog.All.bind (Inward.of_silent (silent_revokeToken _ _)) fun _ => ?_)
      exact Inward.of_silent (silent_generateTokenPair _)

/-- Every request keeps to the protocol of its session. -/
theorem handle_follows [Library] (r : Request) :
    Prog.Follows (S := sig) (protocol D r) (Closes D r) r.handle Session.fresh := by
  cases r with
  | register clientIp payload =>
    refine withDbSession_closes (obeys_bind (obeys_inward
      (Inward.of_silent (silent_rateLimiter _ _ _ _)) rfl fun headers db₁ _ => ?_))
    exact obeys_bind (register_obeys.mono fun _ _ hs => obeys_pure fun _ => hs _)
  | login clientIp payload =>
    refine Harmless.closes (harmless_withDbSession (Prog.All.bind
      (Inward.of_silent (silent_rateLimiter _ _ _ _)) fun _ => Prog.All.bind (Prog.All.bind
        (Inward.of_silent (silent_selectOne _)) fun user => ?_) fun _ => trivial)) id
    cases user with
    | none => trivial
    | some user =>
      refine all_ite trivial (all_ite trivial ?_)
      exact Inward.of_silent (silent_generateTokenPair _)
  | refresh token =>
    exact Harmless.closes (harmless_withDbSession (Prog.All.bind (inward_refreshTokens token)
      fun _ => trivial)) id
  | logout token =>
    exact Harmless.closes (harmless_withDbSession (Prog.All.bind
      (Inward.of_silent (silent_logout token)) fun _ => trivial)) id
  | getMe bearer =>
    exact Harmless.closes (harmless_withDbSession (Prog.All.bind
      (Inward.of_silent (silent_getCurrentUser bearer)) fun _ => Prog.All.bind
        (Inward.of_silent (silent_getUserProfile _)) fun _ => trivial)) id
  | tenant bearer o q =>
    refine withDbSession_closes (obeys_bind (obeys_requireRole fun user role db huser => ?_))
    exact obeys_endpoint huser
  | webSocket p token texts =>
    exact Harmless.closes (Prog.All.bind (harmless_webSocket p token texts) fun _ => trivial) id

end Requests

variable {c₀ c c' : AppConfig}

theorem reach_calm [Library] (h : Reach app anySchedule c₀ c) : Reach app (Calm uncovered) c₀ c :=
  h.mono fun c l _ => calm_uncovered c l

theorem Start.fresh [Library] (h₀ : Start c₀) (h : Reach app anySchedule c₀ c) {i : Nat}
    (hidle : c.thread i = none) : c.state.rows i = [] := by
  have hi := (app_verified.reach_holds h₀.holds (reach_calm h)).2 i
  simp only [hidle] at hi
  exact hi

theorem Start.unrecorded [Library] (h₀ : Start c₀) (h : Reach app anySchedule c₀ c) {i : Nat}
    (hidle : c.thread i = none) : c.state.record i = [] := by
  simp only [World.record, List.map_eq_nil_iff, List.filter_eq_nil_iff]
  rintro ⟨j, e⟩ hmem hj
  obtain ⟨r, k, ht, -⟩ := h₀.events (reach_calm h) j e hmem
  simp only [Bool.and_eq_true, decide_eq_true_eq] at hj
  rw [hj.1, hidle] at ht
  cases ht

theorem step_record [Library] {i : Nat} {l : AppLabel} (hs : Step app c l c')
    (hl : ∀ o, l ≠ .act i o) : c'.state.record i = c.state.record i := by
  cases hs with
  | start hnone => rfl
  | @act j r o k a s' hj he =>
    refine record_exec he (Or.inl ?_)
    rintro rfl
    exact hl o rfl
  | env he => cases he <;> rfl

theorem Start.step_grows [Library] {l : AppLabel} (h₀ : Start c₀) (h : Reach app anySchedule c₀ c)
    (hs : Step app c l c') : c.state.Grows c'.state :=
  (h₀.step_db (reach_calm h) hs).imp_right fun ⟨_, _, _, _, _, _, _, hc⟩ => ⟨_, rfl, hc⟩

theorem Start.reach_held [Library] (h₀ : Start c₀) (h : Reach app anySchedule c₀ c) :
    Reach app (fun d _ => ∀ db, d.state.Held db → c.state.Held db) c₀ c := by
  induction h with
  | refl => exact .refl
  | @step d d' l hr _ hs ih =>
    have hlater : ∀ db, d.state.Held db → d'.state.Held db :=
      fun db hdb => hdb.later (h₀.step_grows hr hs)
    exact (ih.mono fun _ _ hd db hdb => hlater db (hd db hdb)).step hlater hs

/-- Every thread of a run is somewhere in a protocol that its request follows, if the
protocol admits no more than the session does. -/
theorem Start.refines_within [Library] {P : Request → Protocol sig Exn Session}
    {E : Request → Except Exn Response → Session → Prop} (h₀ : Start c₀)
    (h : Reach app anySchedule c₀ c)
    (hcode : ∀ r, Prog.Follows (S := sig) (P r) (E r) r.handle Session.fresh)
    (hadmits : ∀ r g o, (P r).admits g o → g.Admits c.state.Held r o)
    (hmoves : ∀ r g o a g', (protocol c.state.Held r).moves g o a g' → (P r).moves g o a g')
    {i : Nat} {r : Request} {p : Coro Response} (ht : c.thread i = some ⟨r, p⟩) :
    ∃ g, Prog.Follows (S := sig) (P r) (E r) p g ∧ Refines c.state.Held i r g c.state := by
  have hany : ∀ {d : AppConfig}, Reach app (fun d _ => ∀ db, d.state.Held db → c.state.Held db)
      c₀ d → Reach app anySchedule c₀ d := fun hd => hd.mono fun _ _ _ => trivial
  refine (h₀.reach_held h).follows (D := P) (E := E) (R := Refines c.state.Held) h₀.idle hcode
    (fun d j s hr _ hnone => ?_) (fun d j s o k a w' g hr hok hj hadm hR he => ?_)
    (fun d l d' j s g hr _ hs hl hR => ?_) ht
  · have hrec := h₀.unrecorded (hany hr) hnone
    refine ⟨fun t id x hx => ?_, h₀.fresh (hany hr) hnone, List.nil_prefix, fun _ => hrec, ?_, ?_⟩
    · cases hx
    · intro es hg
      cases hg
    · intro es hg
      cases hg
  · obtain ⟨g', hm, hR'⟩ := hR.step (hok _ (Or.inl rfl)) (hadmits _ _ _ hadm) he
      (h₀.step_extends (reach_calm (hany hr)) (.act hj he))
    exact ⟨g', hmoves _ _ _ _ _ hm, hR'⟩
  · exact hR.later (h₀.step_extends (reach_calm (hany hr)) hs) (h₀.step_grows (hany hr) hs)
      (step_rows hs hl) (step_record hs hl)

theorem Start.refines [Library] (h₀ : Start c₀) (h : Reach app anySchedule c₀ c) {i : Nat}
    {r : Request} {p : Coro Response} (ht : c.thread i = some ⟨r, p⟩) :
    ∃ g, Prog.Follows (S := sig) (protocol c.state.Held r) (Closes c.state.Held r) p g ∧
      Refines c.state.Held i r g c.state :=
  h₀.refines_within h handle_follows (fun _ _ _ => id) (fun _ _ _ _ _ => id) ht

end MultiTenantSaas
