import MultiTenantSaas.Serial
import MultiTenantSaas.Uniqueness

/-!
The audit rows of tasks and projects against their committed mutations, when requests
run one at a time. The PATCH of a task's fields and its deletion write no audit row.
-/

set_option autoImplicit false

namespace MultiTenantSaas

open Process

inductive Entity where
  | task | project
  deriving DecidableEq

@[reducible] def Entity.table : Entity → Table
  | .task => .tasks
  | .project => .projects

def Entity.name : Entity → Str
  | .task => taskEntity
  | .project => projectEntity

def Entity.version : (e : Entity) → e.table.Row → Int
  | .task, t => Task.versionId t
  | .project, p => Project.versionId p

def recordedVersion (state : Option JsonObject) : Option Json :=
  state.bind fun s => s.lookup "version_id".toList

/-- What a transaction did to a row. -/
structure Mutation (ρ : Type) where
  before : Option ρ
  after : ρ

structure Entity.Tracks (e : Entity) (before after : e.table.Row) (a : AuditLog) : Prop where
  action : a.action = .update
  version : e.version after = e.version before + 1
  before : recordedVersion a.beforeState = some (.int (e.version before))
  after : recordedVersion a.afterState = some (.int (e.version after))

/-- The audit row that a mutation calls for. -/
def Entity.Records (e : Entity) (m : Mutation e.table.Row) (a : AuditLog) : Prop :=
  match m.before with
  | none => a.action = .create ∧ a.beforeState = none
  | some before =>
    if e.table.isDeleted m.after && !e.table.isDeleted before then
      a.action = .softDelete ∨ a.action = .delete
    else e.Tracks before m.after a

def Commit.mutation (t : Table) (id : Uuid) (d : Commit) : Option (Mutation t.Row) :=
  if d.written.any fun e => decide (e.slot = (t, id)) then
    ((d.before.apply d.written).get t id).map fun after => ⟨d.before.get t id, after⟩
  else none

def mutations (t : Table) (id : Uuid) (w : World) : List (Mutation t.Row) :=
  w.commits.filterMap (Commit.mutation t id)

def AuditLog.isFor (a : AuditLog) (e : Entity) (id : Uuid) : Bool :=
  a.entityType = e.name && a.entityId = id

def Entry.audit : Entry → Option AuditLog
  | ⟨.auditLogs, a⟩ => some a
  | _ => none

def Commit.audits (e : Entity) (id : Uuid) (d : Commit) : List AuditLog :=
  (d.written.filterMap Entry.audit).filter fun a => a.isFor e id

/-- The audit rows of an entity in the order of the transactions that wrote them,
newest first. -/
def auditTrail (e : Entity) (id : Uuid) (w : World) : List AuditLog :=
  w.commits.flatMap (Commit.audits e id)

def StepAudited (e : Entity) (id : Uuid) (v : Int) (db : Db) : Prop :=
  ∃! a : AuditLog, a ∈ db.rows .auditLogs ∧ a.isFor e id = true ∧
    recordedVersion a.beforeState = some (.int v) ∧
    recordedVersion a.afterState = some (.int (v + 1))

def Request.patches : Request → Option (Entity × Uuid × Int)
  | .tenant _ _ (.updateTask taskId payload) => some (.task, taskId, payload.expectedVersion.val)
  | .tenant _ _ (.updateProject projectId payload) =>
    some (.project, projectId, payload.expectedVersion.val)
  | _ => none

/-- The audit rows of every task and every project are its mutations, one for one and in
order. -/
structure AuditComplete (c : AppConfig) : Prop where
  recorded : ∀ (e : Entity) id,
    List.Forall₂ e.Records (mutations e.table id c.state) (auditTrail e id c.state)
  rows : ∀ (e : Entity) id (a : AuditLog), a ∈ auditTrail e id c.state ↔
    a ∈ c.state.db.rows .auditLogs ∧ a.isFor e id = true
  once : ∀ (e : Entity) id, (auditTrail e id c.state).Nodup
  steps : ∀ (e : Entity) id, ∀ m ∈ mutations e.table id c.state, ∀ before,
    m.before = some before → e.version m.after = e.version before + 1 →
    StepAudited e id (e.version before) c.state.db
  patched : ∀ i r a e id v, c.thread i = some ⟨r, .done (.ok a)⟩ → r.patches = some (e, id, v) →
    StepAudited e id v c.state.db

def audited : Request → Db → Bool
  | .tenant _ _ (.updateTask _ payload), _ => payload.status.isSome
  | .tenant _ _ (.deleteTask _), _ => false
  | _, _ => true

/-- Requests run one at a time, and none commits the PATCH of a task's fields or the
deletion of a task. -/
def Audited (c : AppConfig) (l : AppLabel) : Prop := OneAtATime c l ∧ Committing audited c l

section

variable [Library]

def Request.Records (db : Db) (es : List Entry) : Request → Prop
  | .tenant _ _ (.updateTask taskId payload) => ∀ status, payload.status = some status →
    ∃ task, db.get .tasks taskId = some task ∧ ∀ a : AuditLog, ⟨.auditLogs, a⟩ ∈ es →
      a.beforeState = some (Task.statusState task) ∧ a.afterState =
        some (Task.statusState (setStatus status payload.expectedVersion.val task))
  | _ => True

def Recording (r : Request) (i : Nat) (w : World) : Op → Prop
  | .commit => r.Records w.db (w.rows i)
  | _ => True

theorem sole_updateTaskStatus {bearer : Token} {o taskId : Uuid} {payload : TaskUpdate}
    {status : TaskStatus} (hs : payload.status = some status) {ctx : TenantContext} {i : Nat}
    {w : World} (hrows : w.rows i = []) :
    Sole Recording i (.tenant bearer o (.updateTask taskId payload))
      (Endpoints.updateTaskStatus ctx taskId status payload.expectedVersion.val)
      (fun _ _ => True) w := by
  refine sole_bind (wp_mono (fun a w _ => ?_) (sole_transaction (fun _ => trivial) ?_))
  · cases a with
    | ok a =>
      exact sole_any (((Prog.all_perform fun _ => trivial).tryCatch fun _ => Prog.all_pure _).bind
        fun _ => Prog.all_pure _) fun _ _ => trivial
    | error e => trivial
  · refine sole_bind (sole_getById (fun _ _ => trivial) hrows (fun _ _ _ => sole_throw)
      fun existing w₁ hdb₁ hrows₁ hget => ?_)
    refine sole_bind (sole_updateWhere (fun _ => trivial) hrows₁ (fun _ _ _ => sole_throw)
      fun now current w₂ hdb₂ hrows₂ hcurrent hcriteria => ?_)
    rw [hdb₁, hget] at hcurrent
    cases hcurrent
    simp only [Option.isNone_some, Bool.false_eq_true, if_false, hcriteria, if_true]
    refine sole_bind (sole_bind (sole_insert (fun _ => trivial) fun id now' w₃ hdb₃ hrows₃ => ?_))
    intro w₄ hdb₄ hrows₄ status' hs'
    cases hs.symm.trans hs'
    refine ⟨existing, by rw [hdb₄, hdb₃, hdb₂, hdb₁, hget], fun a ha => ?_⟩
    rw [hrows₄, hrows₃, hrows₂] at ha
    rcases List.mem_cons.mp ha with he | ha
    · cases congrArg Entry.table he
    · cases List.mem_singleton.mp ha
      exact ⟨rfl, rfl⟩

theorem recording_handle (r : Request) {i : Nat} {w : World} (hrows : w.rows i = []) :
    wp machine (soleContract Recording) i r r.handle (fun _ _ => True) w := by
  have hother : (∀ db es, r.Records db es) →
      wp machine (soleContract Recording) i r r.handle (fun _ _ => True) w := fun h =>
    sole_always fun o w => by cases o <;> first | exact h _ _ | trivial
  cases r with
  | tenant bearer o request =>
    cases request with
    | updateTask taskId payload =>
      cases hs : payload.status with
      | none => exact hother fun _ _ status h => absurd (hs.symm.trans h) nofun
      | some status =>
        refine wp_mono (fun _ _ _ => trivial) (sole_withDbSession (fun _ => trivial)
          (sole_bind (sole_silent (silent_requireRole _ _ _) (fun o _ ho => ?_)
            fun ctx w' _ hrows' => sole_bind (wp_mono (fun a _ _ => ?_)
              (?_ : Sole _ _ _ (Endpoints.updateTask ctx taskId payload) (fun _ _ => True) w')))))
        · cases o <;> trivial
        · cases a <;> trivial
        · simp only [Endpoints.updateTask, hs]
          exact sole_updateTaskStatus hs (hrows'.trans hrows)
    | _ => exact hother fun _ _ => trivial
  | _ => exact hother fun _ _ => trivial

structure Entity.Saves (e : Entity) (id : Uuid) (db : Db) (es : List Entry) (row : e.table.Row)
    (a : AuditLog) : Prop where
  written : es = [⟨e.table, row⟩, ⟨.auditLogs, a⟩]
  key : e.table.id row = id
  audit : a.isFor e id = true
  fresh : db.get .auditLogs a.id = none
  present : e.table.isDeleted row = false
  records : e.Records ⟨db.get e.table id, row⟩ a

omit [Library] in
theorem statusCriteria_holds {o : Uuid} {expected : Int} {task : Task}
    (h : statusCriteria o expected task = true) :
    task.versionId = expected ∧ task.isDeleted = false := by
  simp only [statusCriteria, Bool.and_eq_true, decide_eq_true_eq, Bool.not_eq_true'] at h
  exact ⟨h.1.2, h.2⟩

omit [Library] in
theorem Request.patches_commits (r : Request) {p : Entity × Uuid × Int} (h : r.patches = some p) :
    r.Commits := by
  cases r with
  | tenant bearer o request => cases request <;> trivial
  | _ => cases h

def everywhere (_ : Table) (_ : Uuid) : Prop := True

variable {db : Db} {es : List Entry}

omit [Library] in
theorem Entity.records_some {e : Entity} {before after : e.table.Row} {a : AuditLog}
    (hpresent : e.table.isDeleted after = false) :
    e.Records ⟨some before, after⟩ a ↔ e.Tracks before after a := by
  simp [Entity.Records, hpresent]

omit [Library] in
theorem Entity.Records.tracks {e : Entity} {m : Mutation e.table.Row} {a : AuditLog} {v : Json}
    (h : e.Records m a) (hpresent : e.table.isDeleted m.after = false)
    (hv : recordedVersion a.beforeState = some v) :
    ∃ before, m.before = some before ∧ e.Tracks before m.after a := by
  obtain ⟨_ | before, after⟩ := m
  · rw [h.2] at hv
    cases hv
  · exact ⟨before, rfl, (Entity.records_some hpresent).mp h⟩

theorem Request.Writes.patchSaves {r : Request} {e : Entity} {id : Uuid} {v : Int}
    (h : r.Writes everywhere db es) (haudited : audited r db = true) (hrecords : r.Records db es)
    (hp : r.patches = some (e, id, v)) :
    ∃ row a before, e.Saves id db es row a ∧ db.get e.table id = some before ∧
      e.version before = v := by
  cases r with
  | tenant bearer o request =>
    obtain ⟨user, role, -, hw⟩ := h
    cases request with
    | updateTask taskId payload =>
      cases hp
      obtain ⟨status, hs⟩ := Option.isSome_iff_exists.mp haudited
      simp only [TenantRequest.Writes, hs] at hw
      obtain ⟨existing, current, now, now', auditId, -, -, -, hget, -, hcriteria, rfl, hfresh⟩ := hw
      obtain ⟨task, htask, haudit⟩ := hrecords status hs
      cases hget.symm.trans htask
      obtain ⟨hversion, hdeleted⟩ := statusCriteria_holds hcriteria
      obtain ⟨hbefore, hafter⟩ := haudit _ (List.mem_cons_of_mem _ List.mem_cons_self)
      have htracks : Entity.Tracks .task current
          { setStatus status payload.expectedVersion.val current with updatedAt := now }
          (newAuditLog o (some user.id) taskEntity id .update (some existing.statusState)
            (some (if statusCriteria o payload.expectedVersion.val existing then
              setStatus status payload.expectedVersion.val existing else existing).statusState)
            auditId now') :=
        ⟨rfl, congrArg (· + 1) hversion.symm, by rw [hbefore]; rfl, by rw [hafter]; rfl⟩
      refine ⟨_, _, current, ⟨rfl, (Db.get_eq_some.mp hget).2, ?_, hfresh, hdeleted, ?_⟩, hget,
        hversion⟩
      · simp [AuditLog.isFor, newAuditLog, Entity.name]
      · rw [hget]
        refine (Entity.records_some ?_).mpr htracks
        exact hdeleted
    | updateProject projectId payload =>
      cases hp
      obtain ⟨loaded, current, now, now', auditId, hid, -, hv, hover, rfl, hfresh⟩ := hw
      cases hover.unchanged trivial
      have hflush : (loaded.flush (payload.assign loaded) now loaded).versionId =
        loaded.versionId + 1 := flushed_self _ _
      have htracks : Entity.Tracks .project loaded
          (loaded.flush (payload.assign loaded) now loaded)
          (newAuditLog o none projectEntity id .update (some loaded.state)
            (some (payload.assign loaded).state) auditId now') :=
        ⟨rfl, hflush, rfl, congrArg (fun v => some (Json.int v)) hflush.symm⟩
      refine ⟨_, _, loaded, ⟨rfl, hid, ?_, hfresh, rfl, ?_⟩, hover.committed, hv⟩
      · simp [AuditLog.isFor, newAuditLog, Entity.name]
      · rw [hover.committed]
        exact (Entity.records_some rfl).mpr htracks
    | _ => cases hp
  | _ => cases hp

omit [Library] in
theorem saves_created {e : Entity} {id : Uuid} {row : e.table.Row} {a : AuditLog}
    (hins : ∀ x ∈ [⟨e.table, row⟩, ⟨.auditLogs, a⟩], Inserted db x) (hid : e.table.id row = id)
    (haudit : a.isFor e id = true) (hpresent : e.table.isDeleted row = false)
    (ha : a.action = .create ∧ a.beforeState = none) :
    e.Saves id db [⟨e.table, row⟩, ⟨.auditLogs, a⟩] row a := by
  have hrow : db.get e.table id = none := hid ▸ hins _ List.mem_cons_self
  exact ⟨rfl, hid, haudit, hins _ (List.mem_cons_of_mem _ List.mem_cons_self), hpresent,
    by rw [hrow]; exact ha⟩

/-- A transaction writes an entity together with its audit row, or neither. -/
theorem Request.Writes.saves {r : Request} (h : r.Writes everywhere db es)
    (haudited : audited r db = true) (hrecords : r.Records db es) :
    (∃ e id row a, Entity.Saves e id db es row a) ∨
      ∀ x ∈ es, x.table ≠ .auditLogs ∧ ∀ e : Entity, x.table ≠ e.table := by
  cases hp : r.patches with
  | some p =>
    obtain ⟨row, a, -, hs, -⟩ := h.patchSaves haudited hrecords hp
    exact Or.inl ⟨_, _, row, a, hs⟩
  | none =>
    have hother : (∀ x ∈ es, x.table ∉ [.projects, .tasks, .auditLogs]) →
        ∀ x ∈ es, x.table ≠ .auditLogs ∧ ∀ e : Entity, x.table ≠ e.table := by
      intro hes x hx
      have := hes x hx
      simp only [List.mem_cons, List.not_mem_nil, or_false, not_or] at this
      exact ⟨this.2.2, fun e => by cases e; exacts [this.2.1, this.1]⟩
    cases r with
    | tenant bearer o request =>
      obtain ⟨user, role, -, hw⟩ := h
      cases request with
      | createProject payload =>
        obtain ⟨id, auditId, now, now', rfl, hins⟩ := hw
        exact Or.inl ⟨.project, id, _, _, saves_created hins rfl
          (by simp [AuditLog.isFor, newAuditLog, Entity.name]) rfl ⟨rfl, rfl⟩⟩
      | createTask payload =>
        obtain ⟨id, auditId, now, now', rfl, hins⟩ := hw
        exact Or.inl ⟨.task, id, _, _, saves_created hins rfl
          (by simp [AuditLog.isFor, newAuditLog, Entity.name]) rfl ⟨rfl, rfl⟩⟩
      | updateTask taskId payload => cases hp
      | updateProject projectId payload => cases hp
      | deleteTask taskId => cases haudited
      | _ =>
        refine Or.inr (hother fun x hx hmem => ?_)
        have := hw.table hx
        revert this hmem
        generalize x.table = t
        cases t <;> simp [TenantRequest.tables]
    | register clientIp payload =>
      obtain ⟨hashed, slug, id, orgId, memberId, now, now', now'', rfl, -⟩ := h
      exact Or.inr (hother (by simp))
    | _ => exact h.elim

end

theorem Entity.table_injective {e e' : Entity} (h : e.table = e'.table) : e = e' := by
  cases e <;> cases e' <;> first | rfl | cases h

theorem Entity.name_injective {e e' : Entity} (h : e.name = e'.name) : e = e' := by
  cases e <;> cases e' <;> first | rfl | exact absurd h (by decide)

theorem Entity.table_ne (e : Entity) : e.table ≠ .auditLogs := by cases e <;> decide

theorem Entry.audit_eq_some {x : Entry} {a : AuditLog} :
    x.audit = some a ↔ x = ⟨.auditLogs, a⟩ := by
  obtain ⟨t, r⟩ := x
  cases t <;> simp [audit]

theorem Commit.mem_audits {e : Entity} {id : Uuid} {d : Commit} {a : AuditLog} :
    a ∈ d.audits e id ↔ (⟨.auditLogs, a⟩ : Entry) ∈ d.written ∧ a.isFor e id = true := by
  simp [audits, Entry.audit_eq_some]

structure Entity.Wrote (e : Entity) (id : Uuid) (es : List Entry) (row : e.table.Row)
    (a : AuditLog) : Prop where
  written : es = [⟨e.table, row⟩, ⟨.auditLogs, a⟩]
  key : e.table.id row = id
  audit : a.isFor e id = true

namespace Entity.Wrote

variable {e : Entity} {id : Uuid} {row old : e.table.Row} {a : AuditLog} {d : Commit}

theorem tables_nodup (h : e.Wrote id d.written row a) : (d.written.map Entry.table).Nodup := by
  simp [h.written, e.table_ne]

theorem slot (h : e.Wrote id d.written row a) :
    d.written.any fun x => decide (x.slot = (e.table, id)) := by
  simp [h.written, Entry.slot, Entry.id, h.key]

theorem get (h : e.Wrote id d.written row a) :
    (d.before.apply d.written).get e.table id = some row := by
  have hmem : (⟨e.table, row⟩ : Entry) ∈ d.written := by simp [h.written]
  have hget : (d.before.apply d.written).get e.table (e.table.id row) = some row :=
    Db.get_apply_of_mem hmem h.tables_nodup
  rwa [h.key] at hget

theorem change (h : e.Wrote id d.written row a) (hold : d.before.get e.table id = some old) :
    d.change e.table id = some ⟨d.session, old, row⟩ := by
  simp only [Commit.change, h.slot, if_true, hold, h.get]

theorem audits (h : e.Wrote id d.written row a) : d.audits e id = [a] := by
  have hrow : Entry.audit ⟨e.table, row⟩ = none := by cases e <;> rfl
  have hlog : Entry.audit ⟨.auditLogs, a⟩ = some a := rfl
  rw [Commit.audits, h.written, List.filterMap_cons_none hrow, List.filterMap_cons_some hlog,
    List.filterMap_nil]
  simp [h.audit]

end Entity.Wrote

namespace Entity.Saves

variable {e : Entity} {id : Uuid} {row : e.table.Row} {a : AuditLog} {d : Commit}

theorem wrote (h : e.Saves id d.before d.written row a) : e.Wrote id d.written row a :=
  ⟨h.written, h.key, h.audit⟩

theorem mem_auditLogs (h : e.Saves id d.before d.written row a) :
    a ∈ (d.before.apply d.written).rows .auditLogs := by
  have hmem : (⟨.auditLogs, a⟩ : Entry) ∈ d.written := by simp [h.written]
  have hget : (d.before.apply d.written).get .auditLogs (AuditLog.id a) = some a :=
    Db.get_apply_of_mem hmem h.wrote.tables_nodup
  exact (Db.get_eq_some.mp hget).1

theorem mutation (h : e.Saves id d.before d.written row a) :
    d.mutation e.table id = some ⟨d.before.get e.table id, row⟩ := by
  simp only [Commit.mutation, h.wrote.slot, if_true, h.wrote.get, Option.map_some]

theorem slot_ne (h : e.Saves id d.before d.written row a) {e' : Entity} {id' : Uuid}
    (hne : ¬ (e' = e ∧ id' = id)) : ∀ x ∈ d.written, (e'.table, id') ≠ x.slot := by
  intro x hx hs
  rw [h.written] at hx
  rcases List.mem_cons.mp hx with rfl | hx
  · exact hne ⟨table_injective (congrArg Prod.fst hs), (congrArg Prod.snd hs).trans h.key⟩
  · cases List.mem_singleton.mp hx
    exact e'.table_ne (congrArg Prod.fst hs)

theorem audits_ne (h : e.Saves id d.before d.written row a) {e' : Entity} {id' : Uuid}
    (hne : ¬ (e' = e ∧ id' = id)) : d.audits e' id' = [] := by
  refine List.eq_nil_iff_forall_not_mem.mpr fun b hb => hne ?_
  obtain ⟨hw, hb⟩ := Commit.mem_audits.mp hb
  rw [h.written] at hw
  rcases List.mem_cons.mp hw with hx | hx
  · exact absurd (congrArg Entry.table hx).symm e.table_ne
  · cases List.mem_singleton.mp hx
    have ha := h.audit
    simp only [AuditLog.isFor, Bool.and_eq_true, decide_eq_true_eq] at ha hb
    exact ⟨name_injective (hb.1.symm.trans ha.1), hb.2.symm.trans ha.2⟩

theorem inserted (h : e.Saves id d.before d.written row a) :
    ∀ x ∈ d.written, x.table = .auditLogs → Inserted d.before x := by
  intro x hx ht
  rw [h.written] at hx
  rcases List.mem_cons.mp hx with rfl | hx
  · exact absurd ht e.table_ne
  · cases List.mem_singleton.mp hx
    exact h.fresh

end Entity.Saves

theorem forall₂_mem_right {α β : Type} {R : α → β → Prop} {as : List α} {bs : List β}
    (h : List.Forall₂ R as bs) {b : β} (hb : b ∈ bs) : ∃ a ∈ as, R a b := by
  induction h with
  | nil => cases hb
  | @cons a b' as bs hab _ ih =>
    rcases List.mem_cons.mp hb with rfl | hb
    · exact ⟨a, List.mem_cons_self, hab⟩
    · obtain ⟨a', ha', hR⟩ := ih hb
      exact ⟨a', List.mem_cons_of_mem _ ha', hR⟩

structure Trail (e : Entity) (id : Uuid) (ds : List Commit) (db : Db) : Prop where
  recorded : List.Forall₂ (fun m a => e.Records m a ∧ e.table.isDeleted m.after = false)
    (ds.filterMap (Commit.mutation e.table id)) (ds.flatMap (Commit.audits e id))
  top : ∀ m ∈ ds.filterMap (Commit.mutation e.table id),
    ∃ row, db.get e.table id = some row ∧ e.version m.after ≤ e.version row
  rows : ∀ a : AuditLog, a ∈ ds.flatMap (Commit.audits e id) ↔
    a ∈ db.rows .auditLogs ∧ a.isFor e id = true
  once : (ds.flatMap (Commit.audits e id)).Nodup
  single : ∀ a ∈ ds.flatMap (Commit.audits e id), ∀ b ∈ ds.flatMap (Commit.audits e id), ∀ v,
    recordedVersion a.beforeState = some v → recordedVersion b.beforeState = some v → a = b

namespace Trail

variable {e : Entity} {id : Uuid} {ds : List Commit} {d : Commit}

theorem nil : Trail e id [] .empty :=
  ⟨.nil, by simp, fun a => ⟨nofun, fun h => absurd h.1 (Db.not_mem_empty _)⟩, .nil, by simp⟩

theorem kept (hins : ∀ x ∈ d.written, x.table = .auditLogs → Inserted d.before x)
    {a : AuditLog} (ha : a ∈ d.before.rows .auditLogs) :
    a ∈ (d.before.apply d.written).rows .auditLogs := by
  refine Db.mem_apply_of_mem ha fun x hx hs => ?_
  have hnone : d.before.get x.table x.id = none := hins x hx (congrArg Prod.fst hs).symm
  have hsome : d.before.get x.slot.1 x.slot.2 = none := hnone
  rw [← hs, Db.get_of_mem ha] at hsome
  cases hsome

theorem skip (h : Trail e id ds d.before) (hslot : ∀ x ∈ d.written, (e.table, id) ≠ x.slot)
    (haudits : d.audits e id = [])
    (hins : ∀ x ∈ d.written, x.table = .auditLogs → Inserted d.before x) :
    Trail e id (d :: ds) (d.before.apply d.written) := by
  have hmutation : d.mutation e.table id = none := by
    refine if_neg fun hany => ?_
    obtain ⟨x, hx, hs⟩ := List.any_eq_true.mp hany
    exact hslot x hx (of_decide_eq_true hs).symm
  have hmutations : (d :: ds).filterMap (Commit.mutation e.table id) =
      ds.filterMap (Commit.mutation e.table id) := List.filterMap_cons_none hmutation
  have htrail : (d :: ds).flatMap (Commit.audits e id) = ds.flatMap (Commit.audits e id) := by
    rw [List.flatMap_cons, haudits, List.nil_append]
  have hget := Db.get_apply_of_ne d.before hslot
  constructor
  · rw [hmutations, htrail]
    exact h.recorded
  · rw [hmutations, hget]
    exact h.top
  · intro a
    rw [htrail, h.rows a]
    refine ⟨fun ha => ⟨kept hins ha.1, ha.2⟩, fun ha => ⟨?_, ha.2⟩⟩
    rcases Db.mem_apply ha.1 with hw | ⟨hold, -⟩
    · have hmem := Commit.mem_audits.mpr ⟨hw, ha.2⟩
      rw [haudits] at hmem
      cases hmem
    · exact hold
  · rw [htrail]
    exact h.once
  · rw [htrail]
    exact h.single

theorem below (h : Trail e id ds d.before) {row : e.table.Row} {a b : AuditLog}
    (hs : e.Saves id d.before d.written row a) (hb : b ∈ ds.flatMap (Commit.audits e id))
    {v : Json} (hva : recordedVersion a.beforeState = some v)
    (hvb : recordedVersion b.beforeState = some v) : False := by
  obtain ⟨before, hbefore, htracks⟩ := hs.records.tracks hs.present hva
  obtain ⟨m, hm, hrecords, hpresent⟩ := forall₂_mem_right h.recorded hb
  obtain ⟨first, -, hfirst⟩ := hrecords.tracks hpresent hvb
  obtain ⟨row', hrow', hle⟩ := h.top m hm
  cases hbefore.symm.trans hrow'
  have hsame : some (Json.int (e.version first)) = some (.int (e.version before)) :=
    (hfirst.before.symm.trans (hvb.trans hva.symm)).trans htracks.before
  have hversion := hfirst.version
  have hfirst : e.version first = e.version before := by simpa using hsame
  omega

theorem save (h : Trail e id ds d.before) {row : e.table.Row} {a : AuditLog}
    (hs : e.Saves id d.before d.written row a) :
    Trail e id (d :: ds) (d.before.apply d.written) := by
  have hmutations : (d :: ds).filterMap (Commit.mutation e.table id) =
      ⟨d.before.get e.table id, row⟩ :: ds.filterMap (Commit.mutation e.table id) :=
    List.filterMap_cons_some hs.mutation
  have htrail : (d :: ds).flatMap (Commit.audits e id) = a :: ds.flatMap (Commit.audits e id) := by
    rw [List.flatMap_cons, hs.wrote.audits, List.singleton_append]
  have hget : (d.before.apply d.written).get e.table id = some row := hs.wrote.get
  have hold : a ∉ ds.flatMap (Commit.audits e id) := fun ha => by
    have hsome := Db.get_of_mem ((h.rows a).mp ha).1
    cases hs.fresh.symm.trans hsome
  constructor
  · rw [hmutations, htrail]
    exact .cons ⟨hs.records, hs.present⟩ h.recorded
  · rw [hmutations]
    refine List.forall_mem_cons.mpr ⟨⟨row, hget, le_refl _⟩, fun m hm => ⟨row, hget, ?_⟩⟩
    obtain ⟨before, hbefore, hle⟩ := h.top m hm
    have hrecords := hs.records
    rw [hbefore, Entity.records_some hs.present] at hrecords
    have hversion := hrecords.version
    omega
  · intro b
    rw [htrail, List.mem_cons, h.rows b]
    constructor
    · rintro (rfl | ⟨hb, hfor⟩)
      · exact ⟨hs.mem_auditLogs, hs.audit⟩
      · exact ⟨kept hs.inserted hb, hfor⟩
    · rintro ⟨hb, hfor⟩
      rcases Db.mem_apply hb with hw | ⟨hb, -⟩
      · have hmem := Commit.mem_audits.mpr ⟨hw, hfor⟩
        rw [hs.wrote.audits] at hmem
        exact Or.inl (List.mem_singleton.mp hmem)
      · exact Or.inr ⟨hb, hfor⟩
  · rw [htrail]
    exact List.nodup_cons.mpr ⟨hold, h.once⟩
  · rw [htrail]
    intro b hb c hc v hvb hvc
    rcases List.mem_cons.mp hb with rfl | hb'
    · rcases List.mem_cons.mp hc with rfl | hc'
      · rfl
      · exact (h.below hs hc' hvb hvc).elim
    · rcases List.mem_cons.mp hc with rfl | hc'
      · exact (h.below hs hb' hvc hvb).elim
      · exact h.single b hb' c hc' v hvb hvc

end Trail

section

variable [Library] {faults : Faults} {now : Instant} {c : AppConfig}

def RecordsCommit (c : AppConfig) : AppLabel → Prop
  | .act i .commit => ∀ r k, c.thread i = some ⟨r, k⟩ → r.Records c.state.db (c.state.rows i)
  | _ => True

theorem Audited.recorded (h : Reach app Audited (genesis faults now) c) :
    Reach app (fun c l => Audited c l ∧ RecordsCommit c l) (genesis faults now) c := by
  refine h.strengthen fun d l d' hr hok hs => ⟨hok, ?_⟩
  unfold RecordsCommit
  split
  · next i =>
    intro r k ht
    obtain ⟨r', k', ht', hrec⟩ := sole_meets (fun i r w hrows => recording_handle r hrows)
      (hr.mono fun _ _ h => h.1) hs
    rw [ht] at ht'
    cases ht'
    exact hrec
  · trivial

theorem Audited.commits (h : Reach app Audited (genesis faults now) c) :
    History .empty c.state.commits c.state.db ∧ ∀ d ∈ c.state.commits,
      ∃ r k, c.thread d.session = some ⟨r, k⟩ ∧ r.Writes everywhere d.before d.written ∧
        audited r d.before = true ∧ r.Records d.before d.written := by
  obtain ⟨hhist, hcommits⟩ := (start_genesis faults now).history
    (P := fun r db es => audited r db = true ∧ r.Records db es)
    (fun _ _ hok => hok.1.1.calm everywhere) (fun d i r k hok ht => ⟨hok.1.2 r k ht, hok.2 r k ht⟩)
    (Audited.recorded h)
  exact ⟨hhist, fun d hd => (hcommits d hd).2⟩

theorem trail_of_history {ds : List Commit} {db : Db} (hhist : History .empty ds db)
    (hcommits : ∀ d ∈ ds, ∃ r : Request, r.Writes everywhere d.before d.written ∧
      audited r d.before = true ∧ r.Records d.before d.written) (e : Entity) (id : Uuid) :
    Trail e id ds db := by
  induction ds generalizing db with
  | nil => exact hhist ▸ Trail.nil
  | cons d ds ih =>
    obtain ⟨rfl, hhist⟩ := hhist
    have htrail := ih hhist fun d' hd => hcommits d' (List.mem_cons_of_mem _ hd)
    obtain ⟨r, hw, haudited, hrecords⟩ := hcommits d List.mem_cons_self
    rcases hw.saves haudited hrecords with ⟨e', id', row, a, hs⟩ | hnone
    · by_cases heq : e = e' ∧ id = id'
      · obtain ⟨rfl, rfl⟩ := heq
        exact htrail.save hs
      · exact htrail.skip (hs.slot_ne heq) (hs.audits_ne heq) hs.inserted
    · refine htrail.skip (fun x hx hs => (hnone x hx).2 e (congrArg Prod.fst hs).symm) ?_
        fun x hx ht => absurd ht (hnone x hx).1
      refine List.eq_nil_iff_forall_not_mem.mpr fun a ha => ?_
      exact (hnone _ (Commit.mem_audits.mp ha).1).1 rfl

omit [Library] in
theorem Trail.audited {e : Entity} {id : Uuid} {ds : List Commit} {db : Db}
    (h : Trail e id ds db) {m : Mutation e.table.Row}
    (hm : m ∈ ds.filterMap (Commit.mutation e.table id)) {before : e.table.Row}
    (hbefore : m.before = some before) : StepAudited e id (e.version before) db := by
  obtain ⟨a, ha, hrecords, hpresent⟩ := forall₂_mem_right h.recorded.flip hm
  obtain ⟨first, after⟩ := m
  cases hbefore
  have htracks := (Entity.records_some hpresent).mp hrecords
  have hafter := htracks.after
  rw [htracks.version] at hafter
  refine ⟨a, ⟨((h.rows a).mp ha).1, ((h.rows a).mp ha).2, htracks.before, hafter⟩, ?_⟩
  rintro b ⟨hb, hfor, hbb, -⟩
  exact h.single b ((h.rows b).mpr ⟨hb, hfor⟩) a ha _ hbb htracks.before

/-- The audit trail is complete as long as only audited mutations are committed. -/
theorem audit_complete (h : Reach app Audited (genesis faults now) c) : AuditComplete c := by
  obtain ⟨hhist, hcommits⟩ := Audited.commits h
  have htrail : ∀ e id, Trail e id c.state.commits c.state.db := trail_of_history hhist
    fun d hd => by
      obtain ⟨r, k, -, hrest⟩ := hcommits d hd
      exact ⟨r, hrest⟩
  refine ⟨fun e id => (htrail e id).recorded.imp fun _ _ h => h.1, fun e id => (htrail e id).rows,
    fun e id => (htrail e id).once, fun e id m hm before hb _ => (htrail e id).audited hm hb, ?_⟩
  intro i r a e id v ht hp
  have hr : r.Commits := r.patches_commits hp
  obtain ⟨d, hd, rfl⟩ := ((start_genesis faults now).answered
    (h.mono fun _ _ hok => hok.1.calm everywhere) ht hr).commit
  obtain ⟨r', k, ht', hw, haudited, hrecords⟩ := hcommits d hd
  rw [ht] at ht'
  cases ht'
  obtain ⟨row, a, before, hs, hget, rfl⟩ := hw.patchSaves haudited hrecords hp
  refine (htrail e id).audited (List.mem_filterMap.mpr ⟨d, hd, hs.mutation⟩) hget

end

section

open Ascii

def patchMoves (status : Option TaskStatus) (priority : Option TaskPriority) : List AppMove :=
  annsProject ++ solo 3 (asAnn apolloTask) ++
  solo 4 (asAnn (.updateTask (drawnId 17) ⟨none, none, status, priority, none, none, .first⟩))

theorem patchMoves_lt {status : Option TaskStatus} {priority : Option TaskPriority} {i : Nat}
    {r : Request} (h : .start i r ∈ patchMoves status priority) : i < 5 := by
  simp only [patchMoves, annsProject, List.mem_append, start_mem_solo] at h
  omega

def started : AppConfig :=
  runMoves (genesis noFaults 0) (patchMoves (some .inProgress) none)

theorem started_complete : AuditComplete started :=
  audit_complete (runMoves_checked (fun c m => movesAlone 5 c m && commitMeets audited c m)
    (fun _ => rfl) (fun d m _ hI hm => by
      obtain ⟨halone, hmeets⟩ := Bool.and_eq_true_iff.mp hm
      exact (movesAlone_allowed (fun _ _ => patchMoves_lt) hI halone).and
        (commitMeets_allowed hmeets)) (by decide +kernel))

def prioritized : AppConfig :=
  runMoves (genesis noFaults 0) (patchMoves none (some .high))

/-- The PATCH of a task's fields leaves no audit row. -/
theorem audit_not_complete : ¬ ∀ faults now c, Reach app OneAtATime (genesis faults now) c →
    AuditComplete c := by
  intro hall
  have hcomplete := hall noFaults 0 prioritized (runMoves_checked (movesAlone 5)
    (fun _ => rfl) (fun d m _ hI hm => movesAlone_allowed (fun _ _ => patchMoves_lt) hI hm)
    (by decide +kernel))
  have hlength := (hcomplete.recorded .task (drawnId 17)).length_eq
  exact absurd hlength (by decide +kernel)

end

end MultiTenantSaas
