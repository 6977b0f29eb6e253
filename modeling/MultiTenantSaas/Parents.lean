import MultiTenantSaas.Runs

/-!
Rows that belong to a row of the same tenant. A child stores its own organization
next to a key that does not mention it.
-/

set_option autoImplicit false

namespace MultiTenantSaas

open Process

/-- The rows whose organization a row shares: the task of a comment or an attachment, the
team of a team member, the entity of an audit log. -/
def Table.parents : (t : Table) → t.Row → List (Table × Uuid)
  | .comments, r => [(.tasks, Comment.taskId r)]
  | .attachments, r => [(.tasks, Attachment.taskId r)]
  | .teamMembers, r => [(.teams, TeamMember.teamId r)]
  | .auditLogs, r =>
    if AuditLog.entityType r = taskEntity then [(.tasks, AuditLog.entityId r)]
    else if AuditLog.entityType r = projectEntity then [(.projects, AuditLog.entityId r)]
    else []
  | .users, _ | .organizations, _ | .organizationMembers, _ | .teams, _ | .projects, _
  | .tasks, _ => []

/-- Each parent of a row is there and belongs to the organization of the row. -/
def Db.SharesTenant (db : Db) : Prop :=
  ∀ (t : Table) (r : t.Row), r ∈ db.rows t → ∀ p ∈ t.parents r,
    ∃ o, t.org r = some o ∧ TenantHas db p.1 o p.2

theorem Table.parents_frozen (t : Table) (r : t.Row) : t.parents (t.frozen r) = t.parents r := by
  cases t <;> rfl

theorem Table.parents_of_frozen {t : Table} {r s : t.Row} (h : t.frozen r = t.frozen s) :
    t.parents r = t.parents s := by rw [← t.parents_frozen r, h, t.parents_frozen]

theorem projectAudit_parents (o id auditId : Uuid) (actor : Option Uuid) (action : AuditAction)
    (before after : Option JsonObject) (now : Instant) :
    Table.auditLogs.parents (newAuditLog o actor projectEntity id action before after auditId now) =
      [(.projects, id)] := by
  have hne : projectEntity ≠ taskEntity := by decide
  simp [Table.parents, newAuditLog, hne]

theorem taskAudit_parents (o id auditId : Uuid) (actor : Option Uuid) (action : AuditAction)
    (before after : Option JsonObject) (now : Instant) :
    Table.auditLogs.parents (newAuditLog o actor taskEntity id action before after auditId now) =
      [(.tasks, id)] := by
  simp [Table.parents, newAuditLog]

section

variable [Library] {calm : Table → Uuid → Prop} {db : Db} {es : List Entry}

theorem TenantRequest.Writes.parents {bearer : Token} {o : Uuid} {user : User} {role : OrgRole}
    {q : TenantRequest} (hall : (Request.tenant bearer o q).Writes calm db es)
    (h : q.Writes calm o user role db es) :
    ∀ e ∈ es, Inserted db e → ∀ p ∈ e.table.parents e.row, TenantHas (db.apply es) p.1 o p.2 := by
  have hkeep : ∀ {t : Table} {id : Uuid}, TenantHas db t o id → TenantHas (db.apply es) t o id :=
    fun ht => ht.mono hall.extends
  have hnew : ∀ e ∈ es, TenantHas (db.apply es) e.table o e.id := fun e he =>
    ⟨e.row, hall.readBack he, h.confined.2 e he⟩
  intro e he hins p hp
  cases q <;> simp only [TenantRequest.Writes] at h
  case updateCurrentOrganization payload =>
    rcases h with rfl | ⟨loaded, current, now, -, rfl⟩
    · cases he
    · cases List.mem_singleton.mp he
      cases hp
  case inviteMember payload =>
    obtain ⟨invited, id, now, -, -, rfl, -⟩ := h
    cases List.mem_singleton.mp he
    cases hp
  case createTeam payload =>
    obtain ⟨id, now, rfl, -⟩ := h
    cases List.mem_singleton.mp he
    cases hp
  case addTeamMember teamId payload =>
    obtain ⟨id, now, hteam, rfl, -⟩ := h
    cases List.mem_singleton.mp he
    cases List.mem_singleton.mp hp
    exact hkeep hteam
  case createProject payload =>
    obtain ⟨id, auditId, now, now', rfl, -⟩ := h
    rcases List.mem_pair.mp he with rfl | rfl
    · cases hp
    · rw [projectAudit_parents] at hp
      cases List.mem_singleton.mp hp
      exact hnew ⟨.projects, _⟩ List.mem_cons_self
  case updateProject projectId payload =>
    obtain ⟨loaded, current, now, now', auditId, hid, horg, -, hov, rfl, -⟩ := h
    rcases List.mem_pair.mp he with rfl | rfl
    · cases hp
    · rw [projectAudit_parents] at hp
      cases List.mem_singleton.mp hp
      exact hkeep ⟨current, hov.committed,
        (Table.org_of_frozen hov.frozen).trans (congrArg some horg)⟩
  case createTask payload =>
    obtain ⟨id, auditId, now, now', rfl, -⟩ := h
    rcases List.mem_pair.mp he with rfl | rfl
    · cases hp
    · rw [taskAudit_parents] at hp
      cases List.mem_singleton.mp hp
      exact hnew ⟨.tasks, _⟩ List.mem_cons_self
  case updateTask taskId payload =>
    cases hs : payload.status with
    | some status =>
      simp only [hs] at h
      obtain ⟨existing, current, now, now', auditId, -, horg, -, hget, hf, -, rfl, -⟩ := h
      rcases List.mem_pair.mp he with rfl | rfl
      · cases hp
      · rw [taskAudit_parents] at hp
        cases List.mem_singleton.mp hp
        exact hkeep ⟨current, hget, (Table.org_of_frozen hf).trans (congrArg some horg)⟩
    | none =>
      simp only [hs] at h
      obtain ⟨loaded, current, now, -, -, -, -, -, rfl⟩ := h
      cases List.mem_singleton.mp he
      cases hp
  case deleteTask taskId =>
    obtain ⟨current, now, -, -, -, rfl⟩ := h
    cases List.mem_singleton.mp he
    cases hp
  case createComment taskId payload =>
    obtain ⟨id, now, htask, rfl, -⟩ := h
    cases List.mem_singleton.mp he
    cases List.mem_singleton.mp hp
    exact hkeep htask
  case updateComment taskId commentId payload =>
    rcases h with rfl | ⟨loaded, current, now, -, -, hov, rfl⟩
    · cases he
    · cases List.mem_singleton.mp he
      exact absurd hins (not_inserted hov.committed (Comment.frozen_flush now _ _ _))
  case confirmAttachment taskId payload =>
    obtain ⟨id, now, htask, rfl, -⟩ := h
    cases List.mem_singleton.mp he
    cases List.mem_singleton.mp hp
    exact hkeep htask

theorem Db.SharesTenant.writes {r : Request} (h : db.SharesTenant) (hw : r.Writes calm db es) :
    (db.apply es).SharesTenant := by
  intro t x hx p hp
  rcases hw.row hx with ⟨old, hold, hf⟩ | ⟨hmem, hins⟩
  · rw [Table.parents_of_frozen hf] at hp
    obtain ⟨o, ho, hparent⟩ := h t old hold p hp
    exact ⟨o, (Table.org_of_frozen hf).trans ho, hparent.mono hw.extends⟩
  · cases r with
    | register clientIp payload =>
      obtain ⟨hashed, slug, id, orgId, memberId, now, now', now'', rfl, -⟩ := hw
      simp only [List.mem_cons, List.not_mem_nil, or_false] at hmem
      rcases hmem with he | he | he <;> cases he <;> cases hp
    | tenant bearer o q =>
      obtain ⟨user, role, -, hq⟩ := id hw
      exact ⟨o, hq.confined.2 _ hmem, hq.parents hw _ hmem hins p hp⟩
    | _ => exact hw.elim

/-- Comments, attachments, team members and audit logs share the organization of their
task, team or entity in every state of every run. -/
theorem children_share_tenant {faults : Faults} {now : Instant} {c : AppConfig}
    (h : Reach app anySchedule (genesis faults now) c) : c.state.db.SharesTenant :=
  genesis_invariant Db.SharesTenant (fun _ r hr => absurd hr (Db.not_mem_empty r))
    (fun _ _ _ hI hw _ _ => hI.writes hw) (committing_unconditional h)

end

section

open scoped Ascii

theorem apollo_shares_tenant :
    (runMoves (genesis noFaults 0)
      (annsProject ++ solo 3 (asAnn apolloTask))).state.db.SharesTenant :=
  children_share_tenant (runMoves_any fun _ => rfl)

end

end MultiTenantSaas
