import MultiTenantSaas.Attribution

/-!
The before and after states that the audit rows of a project record, against what the
updates changed. The recorded states have no `team_id`.
-/

set_option autoImplicit false

namespace MultiTenantSaas

open Process

def Project.fields (p : Project) : JsonObject :=
  [("name".toList, .str p.name), ("description".toList, .ofOption p.description),
    ("team_id".toList, .ofOption (p.teamId.map Uuid.str)),
    ("is_archived".toList, .bool p.isArchived), ("version_id".toList, .int p.versionId)]

def Project.field (p : Project) (key : Str) : Option Json := p.fields.lookup key

def AuditLog.record (a : AuditLog) : Versioned.Record Str (Option Json) :=
  ⟨fun key => a.beforeState.bind (List.lookup key), fun key => a.afterState.bind (List.lookup key)⟩

def ProjectUpdate.KeepsTeam (payload : ProjectUpdate) (p : Project) : Prop :=
  payload.teamId = none ∨ payload.teamId = p.teamId

/-- The audit rows of a project tell what each accepted update changed, and with it how
the project came from its first fields to the current ones. -/
structure DiffsComplete (projectId : Uuid) (c₀ c : AppConfig) : Prop where
  accepted : ∀ i bearer o payload a,
    c.thread i = some ⟨.tenant bearer o (.updateProject projectId payload), .done (.ok a)⟩ →
    ∃ x ∈ changes .projects projectId c.state, x.writer = i
  complete : List.Forall₂ (fun x (a : AuditLog) =>
      a.record.Complete (Project.field x.before) (Project.field x.after))
    (changes .projects projectId c.state) (auditTrail .project projectId c.state)
  replayed : ∀ start, c₀.state.db.get .projects projectId = some start →
    ∃ now, c.state.db.get .projects projectId = some now ∧
      ((auditTrail .project projectId c.state).map AuditLog.record).foldr Versioned.Record.apply
        (Project.field start) = Project.field now

def TeamsKept (projectId : Uuid) (c : AppConfig) : Prop :=
  ∀ x ∈ changes .projects projectId c.state, ∀ bearer o payload k,
    c.thread x.writer = some ⟨.tenant bearer o (.updateProject projectId payload), k⟩ →
    payload.KeepsTeam x.before

theorem Project.flush_assigned (p : Project) (payload : ProjectUpdate) (now : Instant) :
    p.flush (payload.assign p) now p = { payload.assign p with updatedAt := now } := by
  simp [Project.flush, ProjectUpdate.assign]

/-- The column that the recorded states leave out. -/
def teamKey : Str := "team_id".toList

theorem Project.state_lookup (p : Project) (key : Str) :
    p.state.lookup key = if key = teamKey then none else p.field key := by
  by_cases h : key = teamKey
  · subst h
    rfl
  · have hkey : (key == teamKey) = false := beq_false_of_ne h
    unfold teamKey at hkey
    simp only [h, if_false, Project.state, Project.field, Project.fields, List.lookup_cons, hkey]

theorem Project.team_field (p : Project) :
    p.field teamKey = some (.ofOption (p.teamId.map Uuid.str)) := rfl

theorem Json.ofOption_injective {a b : Option Str} (h : Json.ofOption a = .ofOption b) : a = b := by
  cases a <;> cases b <;> simp_all [Json.ofOption]

theorem Project.teamId_of_field {p q : Project}
    (h : p.field teamKey = q.field teamKey) : p.teamId = q.teamId := by
  rw [team_field, team_field, Option.some.injEq] at h
  exact Option.map_injective (fun _ _ => Uuid.str_injective) (Json.ofOption_injective h)

theorem ProjectUpdate.assign_teamId {payload : ProjectUpdate} {p : Project} :
    (payload.assign p).teamId = p.teamId ↔ payload.KeepsTeam p := by
  cases hteam : payload.teamId <;> simp [assign, KeepsTeam, hteam]

theorem AuditLog.record_complete {a : AuditLog} {old new : Project}
    (hbefore : a.beforeState = some old.state) (hafter : a.afterState = some new.state) :
    a.record.Complete (Project.field old) (Project.field new) ↔ new.teamId = old.teamId := by
  have hb : ∀ key, a.record.before key = if key = teamKey then none else old.field key := by
    simp only [record, hbefore, Option.bind_some, Project.state_lookup, implies_true]
  have ha : ∀ key, a.record.after key = if key = teamKey then none else new.field key := by
    simp only [record, hafter, Option.bind_some, Project.state_lookup, implies_true]
  constructor
  · intro h
    have hsame : old.field teamKey = new.field teamKey := by
      by_contra hne
      exact (h.differs _).mpr hne (by rw [hb, ha, if_pos rfl, if_pos rfl])
    exact (Project.teamId_of_field hsame).symm
  · intro hteam
    have hsame : old.field teamKey = new.field teamKey := by
      rw [Project.team_field, Project.team_field, hteam]
    constructor
    · intro key
      by_cases hkey : key = teamKey
      · subst hkey
        rw [hb, ha, if_pos rfl, if_pos rfl, hsame]
        simp only [ne_eq, not_true_eq_false]
      · rw [hb, ha, if_neg hkey, if_neg hkey]
    · intro key hne
      by_cases hkey : key = teamKey
      · subst hkey
        rw [hb, ha, if_pos rfl, if_pos rfl] at hne
        exact absurd rfl hne
      · rw [hb, ha, if_neg hkey, if_neg hkey]
        exact ⟨rfl, rfl⟩

structure UpdateRecorded (payload : ProjectUpdate) (old new : Project) (a : AuditLog)
    (es : List Entry) : Prop where
  written : es = [⟨.projects, new⟩, ⟨.auditLogs, a⟩]
  assigned : ∃ now, new = { payload.assign old with updatedAt := now }
  audit : a.isFor .project old.id = true
  before : a.beforeState = some old.state
  after : a.afterState = some (payload.assign old).state

/-- Neither the project nor an audit row about it is written. -/
def Apart (projectId : Uuid) (es : List Entry) : Prop :=
  ∀ e ∈ es, e.slot ≠ (.projects, projectId) ∧
    ∀ a : AuditLog, e = ⟨.auditLogs, a⟩ → a.isFor .project projectId = false

theorem apart_of_tables {projectId : Uuid} {es : List Entry}
    (h : ∀ e ∈ es, e.table ≠ .projects ∧ e.table ≠ .auditLogs) : Apart projectId es := by
  intro e he
  refine ⟨fun hs => (h e he).1 (congrArg Prod.fst hs), fun a ha => ?_⟩
  exact absurd (congrArg Entry.table ha) (h e he).2

theorem apart_pair {projectId : Uuid} {t : Table} {row : t.Row} {a : AuditLog}
    (ht : t ≠ .auditLogs) (hrow : t = .projects → t.id row ≠ projectId)
    (ha : a.isFor .project projectId = false) : Apart projectId [⟨t, row⟩, ⟨.auditLogs, a⟩] := by
  intro e he
  rcases List.mem_pair.mp he with rfl | rfl
  · refine ⟨fun hs => hrow (congrArg Prod.fst hs) (congrArg Prod.snd hs), fun b hb => ?_⟩
    exact absurd (congrArg Entry.table hb) ht
  · refine ⟨fun hs => by simp [Entry.slot] at hs, fun b hb => ?_⟩
    cases hb
    exact ha

theorem taskEntity_ne : taskEntity ≠ Entity.name .project := by decide

section

variable [Library] {calm : Table → Uuid → Prop} {db : Db} {es : List Entry} {projectId : Uuid}
  {old : Project}

/-- Whatever is committed while the project is there is a recorded update of it, or is
not about it. -/
theorem Request.Writes.projectAudits {r : Request} (hw : r.Writes calm db es)
    (hcalm : calm .projects projectId) (hold : db.get .projects projectId = some old) :
    (∃ bearer o payload new a, r = .tenant bearer o (.updateProject projectId payload) ∧
      UpdateRecorded payload old new a es) ∨ Apart projectId es := by
  have hid : old.id = projectId := (Db.get_eq_some.mp hold).2
  cases r with
  | register clientIp payload =>
    obtain ⟨hashed, slug, id, orgId, memberId, now, now', now'', rfl, -⟩ := hw
    exact Or.inr (apart_of_tables (by simp))
  | tenant bearer o q =>
    obtain ⟨user, role, -, hw⟩ := hw
    cases q with
    | createProject payload =>
      obtain ⟨id, auditId, now, now', rfl, hins⟩ := hw
      have hne : id ≠ projectId := by
        rintro rfl
        have hnone : db.get .projects id = none := hins _ List.mem_cons_self
        cases hnone.symm.trans hold
      exact Or.inr (apart_pair (by decide) (fun _ => hne)
        (by simp [AuditLog.isFor, newAuditLog, hne]))
    | updateProject projectId' payload =>
      obtain ⟨loaded, current, now, now', auditId, hloaded, -, -, hov, rfl, -⟩ := hw
      by_cases hp : projectId' = projectId
      · subst hp
        cases hov.committed.symm.trans hold
        obtain rfl := hov.unchanged hcalm
        refine Or.inl ⟨bearer, o, payload, _, _, rfl, rfl, ⟨now, Project.flush_assigned _ _ _⟩, ?_,
          rfl, rfl⟩
        simp [AuditLog.isFor, newAuditLog, Entity.name, hid]
      · have hcurrent : current.id = projectId' := (Db.get_eq_some.mp hov.committed).2
        exact Or.inr (apart_pair (by decide) (fun _ hs => hp (hcurrent.symm.trans hs))
          (by simp [AuditLog.isFor, newAuditLog, hp]))
    | createTask payload =>
      obtain ⟨id, auditId, now, now', rfl, -⟩ := hw
      exact Or.inr (apart_pair (by decide) (fun he => by cases he)
        (by simp [AuditLog.isFor, newAuditLog, taskEntity_ne]))
    | updateTask taskId payload =>
      cases hstatus : payload.status with
      | some status =>
        simp only [TenantRequest.Writes, hstatus] at hw
        obtain ⟨existing, current, now, now', auditId, -, -, -, -, -, -, rfl, -⟩ := hw
        exact Or.inr (apart_pair (by decide) (fun he => by cases he)
          (by simp [AuditLog.isFor, newAuditLog, taskEntity_ne]))
      | none =>
        simp only [TenantRequest.Writes, hstatus] at hw
        obtain ⟨loaded, current, now, -, -, -, -, -, rfl⟩ := hw
        exact Or.inr (apart_of_tables (by simp))
    | _ =>
      refine Or.inr (apart_of_tables fun e he => ?_)
      have := hw.table he
      revert this
      generalize e.table = t
      cases t <;> simp [TenantRequest.tables]
  | _ => exact hw.elim

end

section

variable {d : Commit} {projectId : Uuid} {payload : ProjectUpdate} {old new : Project}
  {a : AuditLog}

theorem UpdateRecorded.wrote (h : UpdateRecorded payload old new a d.written)
    (hold : d.before.get .projects projectId = some old) :
    Entity.Wrote .project projectId d.written new a := by
  obtain ⟨now, hnew⟩ := h.assigned
  obtain rfl : old.id = projectId := (Db.get_eq_some.mp hold).2
  refine ⟨h.written, ?_, h.audit⟩
  rw [hnew]
  rfl

theorem Apart.unchanged (h : Apart projectId d.written) :
    d.change .projects projectId = none ∧ d.audits .project projectId = [] := by
  constructor
  · refine if_neg fun hany => ?_
    obtain ⟨e, he, hs⟩ := List.any_eq_true.mp hany
    exact (h e he).1 (of_decide_eq_true hs)
  · refine List.eq_nil_iff_forall_not_mem.mpr fun b hb => ?_
    obtain ⟨hw, hfor⟩ := Commit.mem_audits.mp hb
    simp [(h _ hw).2 b rfl] at hfor

theorem History.tracked {db₀ db : Db} {ds : List Commit} {e : Entity} {id : Uuid}
    {R : Versioned.Change Nat e.table.Row → AuditLog → Prop} {start : e.table.Row}
    (h : History db₀ ds db) (hstart : db₀.get e.table id = some start)
    (hd : ∀ d ∈ ds, ∀ old, d.before.get e.table id = some old →
      (∃ x a, d.change e.table id = some x ∧ d.audits e id = [a] ∧ R x a) ∨
      (d.change e.table id = none ∧ d.audits e id = [])) :
    List.Forall₂ R (ds.filterMap (Commit.change e.table id))
      (ds.flatMap (Commit.audits e id)) := by
  induction ds generalizing db with
  | nil => exact .nil
  | cons d ds ih =>
    obtain ⟨rfl, h⟩ := h
    have htail := ih h fun d' hd' => hd d' (List.mem_cons_of_mem _ hd')
    obtain ⟨old, hold, -⟩ := h.linked hstart
    rcases hd d List.mem_cons_self old hold with ⟨x, a, hx, ha, hR⟩ | ⟨hx, ha⟩
    · rw [List.filterMap_cons_some hx, List.flatMap_cons, ha]
      exact .cons hR htail
    · rw [List.filterMap_cons_none hx, List.flatMap_cons, ha]
      exact htail

theorem forall₂_congr_left {α β : Type} {R S : α → β → Prop} {P : α → Prop} {as : List α}
    {bs : List β} (h : List.Forall₂ R as bs) (hR : ∀ a b, R a b → (S a b ↔ P a)) :
    List.Forall₂ S as bs ↔ ∀ a ∈ as, P a := by
  induction h with
  | nil => simp
  | cons hab _ ih => simp [ih, hR _ _ hab]

end

section

variable [Library] {c₀ c : AppConfig} {projectId : Uuid}

def Recorded (projectId : Uuid) (c : AppConfig) (x : Versioned.Change Nat Project)
    (a : AuditLog) : Prop :=
  ∃ bearer o payload k, c.thread x.writer =
      some ⟨.tenant bearer o (.updateProject projectId payload), k⟩ ∧
    a.beforeState = some (Project.state x.before) ∧
    a.afterState = some (payload.assign x.before).state ∧
    ∃ now, x.after = { payload.assign x.before with updatedAt := now }

theorem Start.recorded (h₀ : Start c₀) (h : Reach app (Calm (covers .projects projectId)) c₀ c)
    {start : Project} (hstart : c₀.state.db.get .projects projectId = some start) :
    List.Forall₂ (Recorded projectId c) (changes .projects projectId c.state)
      (auditTrail .project projectId c.state) := by
  obtain ⟨hhist, hcommits⟩ := h₀.history (P := fun _ _ _ => True) (fun _ _ hok => hok)
    (fun _ _ _ _ _ _ => trivial) h
  refine hhist.tracked (e := .project) hstart fun d hd old hold => ?_
  obtain ⟨-, r, k, ht, hw, -⟩ := hcommits d hd
  rcases hw.projectAudits ⟨rfl, rfl⟩ hold with ⟨bearer, o, payload, new, a, rfl, hrec⟩ | hapart
  · exact Or.inl ⟨_, a, (hrec.wrote hold).change hold, (hrec.wrote hold).audits, bearer, o,
      payload, k, ht, hrec.before,
      hrec.after, hrec.assigned⟩
  · exact Or.inr hapart.unchanged

omit [Library] in
theorem Recorded.complete {x : Versioned.Change Nat Project} {a : AuditLog}
    (h : Recorded projectId c x a) :
    a.record.Complete (Project.field x.before) (Project.field x.after) ↔
      ∀ bearer o payload k, c.thread x.writer =
        some ⟨.tenant bearer o (.updateProject projectId payload), k⟩ →
        payload.KeepsTeam x.before := by
  obtain ⟨bearer, o, payload, k, ht, hbefore, hafter, now, hassigned⟩ := h
  have hfield : Project.field x.after = Project.field (payload.assign x.before) := by
    rw [hassigned]
    rfl
  rw [hfield, AuditLog.record_complete hbefore hafter, ProjectUpdate.assign_teamId]
  constructor
  · intro hkeeps bearer' o' payload' k' ht'
    cases ht.symm.trans ht'
    exact hkeeps
  · exact fun hkeeps => hkeeps bearer o payload k ht

/-- The audit rows of a project are complete as long as no update moves it to another
team. -/
theorem project_diffs_complete (h₀ : Start c₀)
    (hproject : (c₀.state.db.get .projects projectId).isSome)
    (h : Reach app (Calm (covers .projects projectId)) c₀ c) :
    DiffsComplete projectId c₀ c ↔ TeamsKept projectId c := by
  obtain ⟨start, hstart⟩ := Option.isSome_iff_exists.mp hproject
  obtain ⟨now, hnow, hlinked⟩ := h₀.linked h hstart
  have hcomplete := forall₂_congr_left (h₀.recorded h hstart) fun _ _ hrec => hrec.complete
  constructor
  · exact fun hdiffs => hcomplete.mp hdiffs.complete
  · intro hkept
    have hforall := hcomplete.mpr hkept
    refine ⟨fun i bearer o payload a ht => ?_, hforall, fun first hfirst => ?_⟩
    · exact h₀.answered_change h ht trivial fun db es hw => hw.updatesProject
    · cases hstart.symm.trans hfirst
      exact ⟨now, hnow, hlinked.replayed (List.forall₂_map_right_iff.mpr hforall)⟩

end

section

open scoped Ascii

theorem described_diffs_complete :
    DiffsComplete (drawnId 15) apollo (runMoves apollo (solo 0 (describe "Moon".toList))) := by
  refine (project_diffs_complete start_apollo (by decide +kernel)
    (runMoves_calm start_apollo.idle)).mpr fun x _ bearer o payload k ht => ?_
  obtain ⟨-, hr⟩ := start_mem_solo.mp (runMoves_req start_apollo.idle ht)
  cases hr
  exact Or.inl rfl

def apolloTeam : AppConfig :=
  restart (runMoves (genesis noFaults 0) (annsProject ++ solo 3 (asAnn (.createTeam
    ⟨⟨"Flight".toList, by decide, by decide⟩, ⟨"flight".toList, by decide, by decide⟩, none⟩))))

def handOver : Request :=
  asAnn (.updateProject (drawnId 15) ⟨none, none, some (drawnId 17), none, .first⟩)

/-- The move to another team leaves no trace in the audit row. -/
theorem project_diffs_not_complete : ¬ ∀ c₀ c projectId, Start c₀ →
    (c₀.state.db.get .projects projectId).isSome → Reach app OneAtATime c₀ c →
    DiffsComplete projectId c₀ c := by
  intro hall
  have hdiffs := hall apolloTeam (runMoves apolloTeam (solo 0 handOver)) (drawnId 15)
    (start_restart (runMoves_any fun _ => rfl)) (by decide +kernel)
    (runMoves_solo fun _ => rfl)
  have hmoved : ((changes .projects (drawnId 15)
      (runMoves apolloTeam (solo 0 handOver)).state).any fun x =>
        decide (Project.teamId x.before ≠ Project.teamId x.after)) = true := by decide +kernel
  have hsilent : ((auditTrail .project (drawnId 15)
      (runMoves apolloTeam (solo 0 handOver)).state).all fun a =>
        decide (a.record.before teamKey = a.record.after teamKey)) = true := by decide +kernel
  obtain ⟨x, hx, hne⟩ := List.any_eq_true.mp hmoved
  obtain ⟨a, ha, hcomplete⟩ := forall₂_mem_right hdiffs.complete.flip hx
  have hsame : a.record.before teamKey = a.record.after teamKey :=
    of_decide_eq_true (List.all_eq_true.mp hsilent a ha)
  have hfield : Project.field x.before teamKey = Project.field x.after teamKey := by
    by_contra hfield
    exact (hcomplete.differs teamKey).mpr hfield hsame
  exact of_decide_eq_true hne (Project.teamId_of_field hfield)

end

end MultiTenantSaas
