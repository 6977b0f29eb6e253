import MultiTenantSaas.AuditTrail
import MultiTenantSaas.ProjectVersions

/-!
Whose act an audit row records. The task service is told the actor; the project
endpoints leave the actor of the project service at its default.
-/

set_option autoImplicit false

namespace MultiTenantSaas

open Process

def Request.passesActor : Request → Bool
  | .tenant _ _ (.createProject _) | .tenant _ _ (.updateProject _ _) => false
  | _ => true

def AuditLog.NamesActor (a : AuditLog) (db : Db) : Request → Prop
  | .tenant bearer _ _ => ∃ user : User, user ∈ db.rows .users ∧ bearer.Names access user.id ∧
    a.actorId = some user.id
  | _ => False

/-- Every audit row of a run was written by an authenticated request and names its user. -/
structure Attributed (c₀ c : AppConfig) : Prop where
  rows : ∀ a : AuditLog, a ∈ c.state.db.rows .auditLogs → a ∈ c₀.state.db.rows .auditLogs ∨
    ∃ d ∈ c.state.commits, (⟨.auditLogs, a⟩ : Entry) ∈ d.written
  actors : ∀ d ∈ c.state.commits, ∀ a : AuditLog, (⟨.auditLogs, a⟩ : Entry) ∈ d.written →
    ∃ r k, c.thread d.session = some ⟨r, k⟩ ∧ a.NamesActor c.state.db r

def ActorsPassed (c : AppConfig) : Prop :=
  ∀ d ∈ c.state.commits, ∀ r k, c.thread d.session = some ⟨r, k⟩ → r.passesActor = true

theorem AuditLog.NamesActor.mono {a : AuditLog} {db db' : Db} {r : Request}
    (h : a.NamesActor db r) (he : Extends db db') : a.NamesActor db' r := by
  cases r with
  | tenant bearer o q =>
    obtain ⟨user, huser, hrest⟩ := h
    exact ⟨user, he.mem (t := .users) (fun _ => rfl) huser, hrest⟩
  | _ => exact h

section

variable [Library] {calm : Table → Uuid → Prop} {db : Db} {es : List Entry} {r : Request}

theorem Request.Writes.namesActor (h : r.Writes calm db es) (hr : r.passesActor = true)
    {a : AuditLog} (ha : (⟨.auditLogs, a⟩ : Entry) ∈ es) : a.NamesActor db r := by
  cases r with
  | register clientIp payload =>
    obtain ⟨hashed, slug, id, orgId, memberId, now, now', now'', rfl, -⟩ := h
    simp at ha
  | tenant bearer o q =>
    obtain ⟨user, role, hadm, hw⟩ := h
    refine ⟨user, hadm.registered, hadm.token, ?_⟩
    have htable := hw.table ha
    cases q <;> simp only [TenantRequest.tables, List.mem_cons, List.not_mem_nil, reduceCtorEq,
      or_self] at htable
    case createProject | updateProject => cases hr
    case createTask payload =>
      obtain ⟨id, auditId, now, now', rfl, -⟩ := hw
      rcases List.mem_pair.mp ha with he | he <;> cases he
      rfl
    case updateTask taskId payload =>
      cases hstatus : payload.status with
      | some status =>
        simp only [TenantRequest.Writes, hstatus] at hw
        obtain ⟨existing, current, now, now', auditId, -, -, -, -, -, -, rfl, -⟩ := hw
        rcases List.mem_pair.mp ha with he | he <;> cases he
        rfl
      | none =>
        simp only [TenantRequest.Writes, hstatus] at hw
        obtain ⟨loaded, current, now, -, -, -, -, -, rfl⟩ := hw
        simp at ha
  | _ => exact h.elim

/-- A project is created and updated with an audit row that has no actor. -/
theorem Request.Writes.unnamed (h : r.Writes calm db es) (hr : r.passesActor = false) :
    ∃ a : AuditLog, (⟨.auditLogs, a⟩ : Entry) ∈ es ∧ a.actorId = none := by
  cases r with
  | tenant bearer o q =>
    obtain ⟨user, role, -, hw⟩ := h
    cases q with
    | createProject payload =>
      obtain ⟨id, auditId, now, now', rfl, -⟩ := hw
      exact ⟨_, List.mem_cons_of_mem _ List.mem_cons_self, rfl⟩
    | updateProject projectId payload =>
      obtain ⟨loaded, current, now, now', auditId, -, -, -, -, rfl, -⟩ := hw
      exact ⟨_, List.mem_cons_of_mem _ List.mem_cons_self, rfl⟩
    | _ => cases hr
  | _ => cases hr

variable {c₀ c : AppConfig}

theorem Start.commits (h₀ : Start c₀) (h : Reach app anySchedule c₀ c) :
    History c₀.state.db c.state.commits c.state.db ∧ ∀ d ∈ c.state.commits,
      Extends d.before c.state.db ∧
      ∃ r k, c.thread d.session = some ⟨r, k⟩ ∧ r.Writes uncovered d.before d.written := by
  obtain ⟨hhist, hcommits⟩ := h₀.history (P := fun _ _ _ => True)
    (fun c l _ => calm_uncovered c l) (fun _ _ _ _ _ _ => trivial) h
  have hext : ∀ d ∈ c.state.commits, Extends d.before (d.before.apply d.written) := fun d hd => by
    obtain ⟨-, r, k, -, hw, -⟩ := hcommits d hd
    exact hw.extends
  refine ⟨hhist, fun d hd => ?_⟩
  obtain ⟨-, r, k, ht, hw, -⟩ := hcommits d hd
  exact ⟨(hext d hd).trans (hhist.extends hext hd), r, k, ht, hw⟩

/-- The audit rows of a run name their users as long as no project is created or updated. -/
theorem audits_attributed (h₀ : Start c₀) (h : Reach app anySchedule c₀ c) :
    Attributed c₀ c ↔ ActorsPassed c := by
  obtain ⟨hhist, hcommits⟩ := h₀.commits h
  constructor
  · intro hattributed d hd r k ht
    by_contra hr
    obtain ⟨-, r', k', ht', hw⟩ := hcommits d hd
    cases ht.symm.trans ht'
    obtain ⟨a, ha, hactor⟩ := hw.unnamed (by simpa using hr)
    obtain ⟨r', k', ht', hnamed⟩ := hattributed.actors d hd a ha
    cases ht.symm.trans ht'
    cases r with
    | tenant bearer o q =>
      obtain ⟨user, -, -, hsome⟩ := hnamed
      cases hactor.symm.trans hsome
    | _ => exact hnamed
  · intro hpassed
    refine ⟨fun a ha => hhist.mem ha, fun d hd a ha => ?_⟩
    obtain ⟨hext, r, k, ht, hw⟩ := hcommits d hd
    exact ⟨r, k, ht, (hw.namesActor (hpassed d hd r k ht) ha).mono hext⟩

end

section

open scoped Ascii

theorem launch_attributed :
    (runMoves apollo (solo 0 (asAnn apolloTask))).state.commits.length = 1 ∧
      Attributed apollo (runMoves apollo (solo 0 (asAnn apolloTask))) := by
  refine ⟨by decide +kernel, (audits_attributed start_apollo
    (runMoves_any start_apollo.idle)).mpr fun d _ r k ht => ?_⟩
  obtain ⟨-, rfl⟩ := start_mem_solo.mp (runMoves_req start_apollo.idle ht)
  rfl

/-- The audit row of a project names nobody. -/
theorem audits_not_attributed : ¬ ∀ faults now c, Reach app anySchedule (genesis faults now) c →
    Attributed (genesis faults now) c := by
  intro hall
  have hactors := (hall noFaults 0 (runMoves (genesis noFaults 0) annsProject)
    (runMoves_any fun _ => rfl)).actors
  have hunnamed : ((runMoves (genesis noFaults 0) annsProject).state.commits.any fun d =>
      (d.written.filterMap Entry.audit).any fun a => a.actorId.isNone) = true := by decide +kernel
  obtain ⟨d, hd, hany⟩ := List.any_eq_true.mp hunnamed
  obtain ⟨a, ha, hnone⟩ := List.any_eq_true.mp hany
  obtain ⟨r, k, -, hnamed⟩ := hactors d hd a (by simpa [Entry.audit_eq_some] using ha)
  cases r with
  | tenant bearer o q =>
    obtain ⟨user, -, -, hsome⟩ := hnamed
    simp [hsome] at hnone
  | _ => exact hnamed

end

end MultiTenantSaas
