import MultiTenantSaas.Runs

/-!
References of a tenant's rows that come from the client: the team of a project, the
assignee of a task, the user of a team member. A foreign key only says that they exist.
-/

set_option autoImplicit false

namespace MultiTenantSaas

open Process

def IsMember (db : Db) (o userId : Uuid) : Prop :=
  ∃ m : OrganizationMember, m ∈ db.rows .organizationMembers ∧ m.organizationId = o ∧
    m.userId = userId

theorem IsMember.mono {db db' : Db} {o u : Uuid} (h : IsMember db o u) (he : Extends db db') :
    IsMember db' o u := by
  obtain ⟨m, hm, hrest⟩ := h
  exact ⟨m, he.mem (t := .organizationMembers) (fun _ => rfl) hm, hrest⟩

/-- The references of each tenant stay inside it. -/
structure Db.RefersInside (db : Db) : Prop where
  team : ∀ p : Project, p ∈ db.rows .projects → ∀ u, p.teamId = some u →
    TenantHas db .teams p.organizationId u
  assignee : ∀ t : Task, t ∈ db.rows .tasks → ∀ u, t.assigneeId = some u →
    IsMember db t.organizationId u
  teamMember : ∀ m : TeamMember, m ∈ db.rows .teamMembers → IsMember db m.organizationId m.userId

def hasTeam (db : Db) (o teamId : Uuid) : Bool :=
  (db.get .teams teamId).any fun (t : Team) => t.organizationId = o

def hasMember (db : Db) (o userId : Uuid) : Bool :=
  (db.rows .organizationMembers).list.any fun (m : OrganizationMember) =>
    m.organizationId = o && m.userId = userId

/-- The ids that the client sends name a team, or a member, of the tenant. A PATCH with a
status does not store its assignee. -/
def ownReferences : Request → Db → Bool
  | .tenant _ o (.createProject payload), db => payload.teamId.all (hasTeam db o)
  | .tenant _ o (.updateProject _ payload), db => payload.teamId.all (hasTeam db o)
  | .tenant _ o (.createTask payload), db => payload.assigneeId.all (hasMember db o)
  | .tenant _ o (.updateTask _ payload), db =>
    payload.status.isSome || payload.assigneeId.all (hasMember db o)
  | .tenant _ o (.addTeamMember _ payload), db => hasMember db o payload.userId
  | _, _ => true

theorem TenantHas.of_hasTeam {db : Db} {o u : Uuid} (h : hasTeam db o u = true) :
    TenantHas db .teams o u := by
  obtain ⟨team, hget, ho⟩ := (Option.any_eq_true _ _).mp h
  exact ⟨team, hget, congrArg some (by simpa using ho)⟩

theorem IsMember.of_hasMember {db : Db} {o u : Uuid} (h : hasMember db o u = true) :
    IsMember db o u := by
  obtain ⟨m, hm, hc⟩ := List.any_eq_true.mp h
  simp only [Bool.and_eq_true, decide_eq_true_eq] at hc
  exact ⟨m, hm, hc⟩

/-- A flush of an optional column keeps the value it finds, or stores that of the payload. -/
theorem flushed_or {α : Type} [DecidableEq α] (sent loaded current : Option α) :
    flushed loaded (sent.or loaded) current = current ∨
      flushed loaded (sent.or loaded) current = sent := by
  cases sent with
  | none => exact Or.inl (if_pos rfl)
  | some a =>
    unfold flushed
    split
    · exact Or.inl rfl
    · exact Or.inr rfl

section

variable [Library] {calm : Table → Uuid → Prop} {db : Db} {es : List Entry} {r : Request}

theorem Request.Writes.team (hw : r.Writes calm db es) (hown : ownReferences r db = true)
    {p : Project} (hmem : (⟨.projects, p⟩ : Entry) ∈ es) {u : Uuid} (hu : p.teamId = some u) :
    (∃ old : Project, old ∈ db.rows .projects ∧ old.organizationId = p.organizationId ∧
      old.teamId = some u) ∨ hasTeam db p.organizationId u = true := by
  cases r with
  | register clientIp payload =>
    obtain ⟨hashed, slug, id, orgId, memberId, now, now', now'', rfl, -⟩ := hw
    simp at hmem
  | tenant bearer o q =>
    obtain ⟨user, role, -, hw⟩ := hw
    have htable := hw.table hmem
    cases q <;> simp only [TenantRequest.tables, List.mem_cons, List.not_mem_nil, reduceCtorEq,
      or_self] at htable
    case createProject payload =>
      obtain ⟨id, auditId, now, now', rfl, -⟩ := hw
      rcases List.mem_pair.mp hmem with he | he <;> cases he
      change payload.teamId = some u at hu
      simp only [ownReferences, hu, Option.all_some] at hown
      exact Or.inr hown
    case updateProject projectId payload =>
      obtain ⟨loaded, current, now, now', auditId, -, horg, -, hov, rfl, -⟩ := hw
      rcases List.mem_pair.mp hmem with he | he <;> cases he
      have hcur : current.organizationId = o :=
        (congrArg Project.organizationId hov.frozen).trans horg
      rcases flushed_or payload.teamId loaded.teamId current.teamId with hsame | hsent
      · exact Or.inl ⟨current, (Db.get_eq_some.mp hov.committed).1, rfl, hsame.symm.trans hu⟩
      · have hteam : payload.teamId = some u := hsent.symm.trans hu
        simp only [ownReferences, hteam, Option.all_some] at hown
        refine Or.inr ?_
        change hasTeam db current.organizationId u = true
        rw [hcur]
        exact hown
  | _ => exact hw.elim

theorem Request.Writes.assignee (hw : r.Writes calm db es) (hown : ownReferences r db = true)
    {t : Task} (hmem : (⟨.tasks, t⟩ : Entry) ∈ es) {u : Uuid} (hu : t.assigneeId = some u) :
    (∃ old : Task, old ∈ db.rows .tasks ∧ old.organizationId = t.organizationId ∧
      old.assigneeId = some u) ∨ hasMember db t.organizationId u = true := by
  cases r with
  | register clientIp payload =>
    obtain ⟨hashed, slug, id, orgId, memberId, now, now', now'', rfl, -⟩ := hw
    simp at hmem
  | tenant bearer o q =>
    obtain ⟨user, role, -, hw⟩ := hw
    have htable := hw.table hmem
    cases q <;> simp only [TenantRequest.tables, List.mem_cons, List.not_mem_nil, reduceCtorEq,
      or_self] at htable
    case createTask payload =>
      obtain ⟨id, auditId, now, now', rfl, -⟩ := hw
      rcases List.mem_pair.mp hmem with he | he <;> cases he
      change payload.assigneeId = some u at hu
      simp only [ownReferences, hu, Option.all_some] at hown
      exact Or.inr hown
    case updateTask taskId payload =>
      cases hs : payload.status with
      | some status =>
        simp only [TenantRequest.Writes, hs] at hw
        obtain ⟨existing, current, now, now', auditId, -, -, -, hget, -, -, rfl, -⟩ := hw
        rcases List.mem_pair.mp hmem with he | he <;> cases he
        exact Or.inl ⟨current, (Db.get_eq_some.mp hget).1, rfl, hu⟩
      | none =>
        simp only [TenantRequest.Writes, hs] at hw
        obtain ⟨loaded, current, now, -, horg, -, -, hov, rfl⟩ := hw
        cases List.mem_singleton.mp hmem
        have hcur : current.organizationId = o :=
          (congrArg Task.organizationId hov.frozen).trans horg
        rcases flushed_or payload.assigneeId loaded.assigneeId current.assigneeId with
          hsame | hsent
        · exact Or.inl ⟨current, (Db.get_eq_some.mp hov.committed).1, rfl, hsame.symm.trans hu⟩
        · have hassignee : payload.assigneeId = some u := hsent.symm.trans hu
          simp only [ownReferences, hs, hassignee, Option.isSome_none, Bool.false_or,
            Option.all_some] at hown
          refine Or.inr ?_
          change hasMember db current.organizationId u = true
          rw [hcur]
          exact hown
    case deleteTask taskId =>
      obtain ⟨current, now, hget, -, -, rfl⟩ := hw
      cases List.mem_singleton.mp hmem
      exact Or.inl ⟨current, (Db.get_eq_some.mp hget).1, rfl, hu⟩
  | _ => exact hw.elim

theorem Request.Writes.teamMember (hw : r.Writes calm db es) (hown : ownReferences r db = true)
    {m : TeamMember} (hmem : (⟨.teamMembers, m⟩ : Entry) ∈ es) :
    hasMember db m.organizationId m.userId = true := by
  cases r with
  | register clientIp payload =>
    obtain ⟨hashed, slug, id, orgId, memberId, now, now', now'', rfl, -⟩ := hw
    simp at hmem
  | tenant bearer o q =>
    obtain ⟨user, role, -, hw⟩ := hw
    have htable := hw.table hmem
    cases q <;> simp only [TenantRequest.tables, List.mem_cons, List.not_mem_nil, reduceCtorEq,
      or_self] at htable
    case addTeamMember teamId payload =>
      obtain ⟨id, now, -, rfl, -⟩ := hw
      cases List.mem_singleton.mp hmem
      exact hown
  | _ => exact hw.elim

theorem Db.RefersInside.writes (h : db.RefersInside) (hw : r.Writes calm db es)
    (hown : ownReferences r db = true) : (db.apply es).RefersInside := by
  have hext := hw.extends
  refine ⟨fun p hp u hu => ?_, fun t ht u hu => ?_, fun m hm => ?_⟩
  · rcases Db.mem_apply hp with hmem | ⟨hold, -⟩
    · rcases hw.team hown hmem hu with ⟨old, hold, horg, hteam⟩ | hteam
      · exact horg ▸ (h.team old hold u hteam).mono hext
      · exact (TenantHas.of_hasTeam hteam).mono hext
    · exact (h.team p hold u hu).mono hext
  · rcases Db.mem_apply ht with hmem | ⟨hold, -⟩
    · rcases hw.assignee hown hmem hu with ⟨old, hold, horg, hassignee⟩ | hmember
      · exact horg ▸ (h.assignee old hold u hassignee).mono hext
      · exact (IsMember.of_hasMember hmember).mono hext
    · exact (h.assignee t hold u hu).mono hext
  · rcases Db.mem_apply hm with hmem | ⟨hold, -⟩
    · exact (IsMember.of_hasMember (hw.teamMember hown hmem)).mono hext
    · exact (h.teamMember m hold).mono hext

/-- When the ids in the payloads are those of the tenant, every state of every run keeps
the references of each tenant inside it. -/
theorem references_inside {faults : Faults} {now : Instant} {c : AppConfig}
    (h : Reach app (Committing ownReferences) (genesis faults now) c) : c.state.db.RefersInside :=
  genesis_invariant Db.RefersInside
    ⟨fun _ hp => absurd hp (Db.not_mem_empty _), fun _ ht => absurd ht (Db.not_mem_empty _),
      fun _ hm => absurd hm (Db.not_mem_empty _)⟩
    (fun _ _ _ hI hw _ hown => hI.writes hw hown) h

end

section

open scoped Ascii

def assignedTask (u : Uuid) : TenantRequest :=
  .createTask ⟨drawnId 15, launchTitle, none, .low, some u, none, none⟩

def assignedTo (u : Uuid) : AppConfig :=
  runMoves (genesis noFaults 0) (annsProject ++ solo 3 (asAnn (assignedTask u)))

theorem assignedToAnn_inside : (assignedTo (drawnId 2)).state.db.RefersInside :=
  references_inside (runMoves_committing (by decide +kernel))

/-- A task is assigned to a user who is no member of its organization. -/
theorem references_not_inside :
    ¬ ∀ c, Reach app anySchedule (genesis noFaults 0) c → c.state.db.RefersInside := by
  intro hall
  have hinside := hall (assignedTo (drawnId 9)) (runMoves_any fun _ => rfl)
  have htask : ((assignedTo (drawnId 9)).state.db.get .tasks (drawnId 17)).map
      (fun t : Task => (t.organizationId, t.assigneeId)) =
      some (drawnId 4, some (drawnId 9)) := by decide +kernel
  have hmember : hasMember (assignedTo (drawnId 9)).state.db (drawnId 4) (drawnId 9) = false := by
    decide +kernel
  obtain ⟨task, hget, heq⟩ := Option.map_eq_some_iff.mp htask
  obtain ⟨horg, hassignee⟩ := Prod.mk.inj heq
  obtain ⟨m, hm, ho, hu⟩ := hinside.assignee task (Db.get_eq_some.mp hget).1 _ hassignee
  have hnot := List.any_eq_false.mp hmember m hm
  simp [ho, hu, horg] at hnot

end

end MultiTenantSaas
