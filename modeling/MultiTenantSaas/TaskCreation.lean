import MultiTenantSaas.ProjectVersions
import MultiTenantSaas.Readers

/-!
A task as it is read back after its creation. The endpoint hands on every field of the
payload but two.
-/

set_option autoImplicit false

namespace MultiTenantSaas

open Process

/-- The task has what the payload asks for, and starts in the backlog at version 1. -/
structure TaskCreate.Kept (payload : TaskCreate) (reporterId : Uuid) (x : TaskResponse) : Prop where
  projectId : x.projectId = payload.projectId
  title : x.title = payload.title.text
  description : x.description = payload.description
  priority : x.priority = payload.priority
  assigneeId : x.assigneeId = payload.assigneeId
  parentId : x.parentId = payload.parentId
  dueDate : x.dueDate = payload.dueDate
  reporterId : x.reporterId = reporterId
  status : x.status = .backlog
  versionId : x.versionId = 1

def Exn.RefusesCaller (minRole : OrgRole) (e : Exn) : Prop :=
  e ∈ [credentialsException, inactiveUser, notAMember, insufficientRole minRole] ∨ e.OfCall

theorem newTask_kept {o : Uuid} {user : Uuid} {payload : TaskCreate} {id : Uuid} {now : Instant} :
    payload.Kept user (.ofTask (newTask o payload.projectId user payload.assigneeId
        payload.title.text payload.description payload.priority id now)) ↔
      payload.parentId = none ∧ payload.dueDate = none := by
  constructor
  · intro h
    exact ⟨h.parentId.symm, h.dueDate.symm⟩
  · rintro ⟨hparent, hdue⟩
    exact ⟨rfl, rfl, rfl, rfl, rfl, hparent.symm, hdue.symm, rfl, rfl, rfl⟩

/-- The program only reads; its value meets `Q` and its exceptions `E`. -/
abbrev Yields {α : Type} (D : Db → Prop) (p : Coro α) (Q : α → Prop) (E : Exn → Prop) : Prop :=
  Prog.Keeps (S := sig) (fun o a => From D o a ∧ OpFails o a) (fun o => Op.reads o = true)
    (fun a => (∀ x, a = .ok x → Q x) ∧ ∀ e, a = .error e → E e) p

section Yields

variable {α β : Type} {D : Db → Prop} {E : Exn → Prop}

theorem yields_of {p : Coro α} {Q : α → Prop} (h : Finds D p Q) (h' : FailsWith E p) :
    Yields D p Q E := h.and_ends h'

theorem yields_pure {a : α} {Q : α → Prop} (h : Q a) : Yields D (pure a) Q E :=
  yields_of (finds_pure h) fails_pure

theorem yields_bind {p : Coro α} {f : α → Coro β} {R : α → Prop} {Q : β → Prop}
    (hp : Yields D p R E) (hf : ∀ a, R a → Yields D (f a) Q E) : Yields D (p >>= f) Q E := by
  refine Prog.Keeps.bind (hp.mono fun a ha => ?_)
  cases a with
  | ok a => exact hf a (ha.1 a rfl)
  | error e => exact ⟨nofun, fun e' he => ha.2 e' (by cases he; rfl)⟩

theorem yields_withDbSession {p : Coro α} {Q : α → Prop} (hE : ∀ e : Exn, e.OfCall → E e)
    (hp : Yields D p Q E) : Yields D (withDbSession p) Q E := by
  have hrollback : Yields D (ask .rollback) (fun _ => True) E :=
    ⟨rfl, fun _ ha => ⟨fun _ _ => trivial, fun e he => hE e (ha.2 e he)⟩⟩
  refine yields_bind (Prog.Keeps.tryCatch (hp.mono fun a ha => ?_)) fun a ha =>
    yields_bind hrollback fun _ _ => yields_pure ha
  cases a with
  | ok a => exact ha
  | error e =>
    exact yields_bind hrollback fun _ _ => yields_of finds_throw (fails_throw (ha.2 e rfl))

theorem finds_present {t : Table} {o id : Uuid} {row : t.Row}
    (hD : ∀ db, D db → db.get t id = some row) (horg : t.org row = some o)
    (hlive : t.isDeleted row = false) : Finds D (getById t o id) fun x => x = some row := by
  refine finds_bind finds_select fun rows ⟨db, hdb, hperm⟩ => ?_
  have hget := Db.get_eq_some.mp (hD db hdb)
  have hrow : row ∈ rows := by
    refine hperm.symm.subset (mem_rowsWhere.mpr ⟨hget.1, ?_⟩)
    simp [hget.2, inTenant, horg, hlive]
  rcases rows with _ | ⟨r, _ | ⟨r', rows⟩⟩
  · cases hrow
  · obtain rfl := List.mem_singleton.mp hrow
    exact finds_pure rfl
  · exact finds_throw

theorem yields_getTask [Library] {bearer : Token} {o id : Uuid} {task : Task}
    (hD : ∀ db, D db → db.get .tasks id = some task) (horg : task.organizationId = o)
    (hlive : task.isDeleted = false) :
    Yields D (Request.tenant bearer o (.getTask id)).handle (fun a => a = .task (.ofTask task))
      (Exn.RefusesCaller .viewer) := by
  have hE : ∀ e : Exn, e.OfCall → e.RefusesCaller .viewer := fun _ => Or.inr
  refine yields_withDbSession hE (yields_bind (yields_of finds_requireRole
    (fails_requireRole hE (fun _ => Or.inl) bearer o)) fun ctx hctx => ?_)
  rw [← hctx] at horg
  refine yields_bind (yields_bind (yields_of (finds_present hD (congrArg some horg) hlive)
    (fails_selectOne hE)) fun x hx => ?_) fun x hx => yields_pure (congrArg Response.task hx)
  subst hx
  exact yields_pure rfl

end Yields

/-- A row that was written stays as it is until it is changed. -/
theorem History.unchanged {db₀ db : Db} {ds : List Commit} (h : History db₀ ds db) {t : Table}
    {id : Uuid} {row : t.Row} {d : Commit} (hd : d ∈ ds)
    (hget : (d.before.apply d.written).get t id = some row)
    (hnone : ds.filterMap (Commit.change t id) = []) : db.get t id = some row := by
  induction ds generalizing db with
  | nil => cases hd
  | cons e ds ih =>
    obtain ⟨rfl, h⟩ := h
    rcases List.mem_cons.mp hd with rfl | hd
    · exact hget
    have hnone' := List.filterMap_eq_nil_iff.mp hnone
    have hbefore := ih h hd (List.filterMap_eq_nil_iff.mpr fun x hx =>
      hnone' x (List.mem_cons_of_mem _ hx))
    rw [Db.get_apply_of_ne _ fun x hx hs => ?_]
    · exact hbefore
    · obtain ⟨y, hy⟩ := Commit.change_isSome ⟨x, hx, hs.symm⟩ hbefore
      cases hy.symm.trans (hnone' e List.mem_cons_self)

section

variable [Library] {faults : Faults} {now : Instant} {c c' : AppConfig}

theorem reached_commits (h₀ : Reach app anySchedule (genesis faults now) c)
    (h : Reach app anySchedule c c') : c.state.commits <:+ c'.state.commits := by
  induction h with
  | refl => exact List.suffix_refl _
  | step hr _ hs ih =>
    rcases (start_genesis faults now).step_db
      ((h₀.trans hr).mono fun c l _ => calm_uncovered c l) hs
      with ⟨-, hc⟩ | ⟨i, r, k, -, -, -, -, hc⟩
    · exact hc ▸ ih
    · exact hc ▸ ih.trans (List.suffix_cons _ _)

theorem Start.taskLogged {calm : Table → Uuid → Prop} {c₀ : AppConfig} (h₀ : Start c₀)
    (h : Reach app (Calm calm) c₀ c) {i : Nat} {bearer : Token} {o : Uuid} {payload : TaskCreate}
    {a : Response}
    (ht : c.thread i = some ⟨.tenant bearer o (.createTask payload), .done (.ok a)⟩) :
    ∃ x, a = .task x ∧ TaskLogged i x c.state := by
  refine h₀.promised (fun i r a w => ∀ bearer o payload,
    r = .tenant bearer o (.createTask payload) → ∃ x, a = .task x ∧ TaskLogged i x w)
    (fun i r w hrows => ?_) (fun i r a w w' hl hp bearer o payload hr => ?_) h ht bearer o
    payload rfl
  · by_cases hr : ∃ bearer o payload, r = .tenant bearer o (.createTask payload)
    · obtain ⟨bearer, o, payload, rfl⟩ := hr
      refine ensures_withDbSession (ensures_bind (ensures_requireRole hrows
        fun user role w₁ h₁ hadm => ensures_bind ?_))
      refine (createTask_ensures ⟨hadm, h₁.rows_eq.trans hrows⟩).mono fun x v hx =>
        ensures_pure fun v' _ htrace _ _ _ _ => ⟨x, rfl, hx.mono htrace⟩
    · exact (handle_ensures r hrows).mono fun _ _ _ bearer o payload h => absurd ⟨_, _, _, h⟩ hr
  · obtain ⟨x, hx, hlogged⟩ := hp bearer o payload hr
    exact ⟨x, hx, hlogged.mono hl.trace⟩

theorem Request.Writes.created {calm : Table → Uuid → Prop} {db : Db} {es : List Entry}
    {bearer : Token} {o : Uuid} {payload : TaskCreate}
    (hw : (Request.tenant bearer o (.createTask payload)).Writes calm db es) :
    (∃ user id now, bearer.Names access user ∧ ∀ task : Task, (⟨.tasks, task⟩ : Entry) ∈ es →
      task = newTask o payload.projectId user payload.assigneeId payload.title.text
        payload.description payload.priority id now) ∧
    ∀ e ∈ es, Inserted db e := by
  obtain ⟨user, role, hadm, id, auditId, now, now', rfl, hins⟩ := hw
  refine ⟨⟨user.id, id, now, hadm.token, fun task htask => ?_⟩, hins⟩
  rcases List.mem_pair.mp htask with he | he <;> cases he
  rfl

omit [Library] in
theorem Inserted.get_apply {db : Db} {es : List Entry} (hins : ∀ e ∈ es, Inserted db e) {t : Table}
    {id : Uuid} {row : t.Row} (hget : db.get t id = some row) :
    (db.apply es).get t id = some row := by
  rw [Db.get_apply_of_ne _ fun e he hs => ?_]
  · exact hget
  · have hnone : db.get e.slot.1 e.slot.2 = none := hins e he
    rw [← hs, hget] at hnone
    cases hnone

/-- The transactions of a creation leave every other task as it is, and as long as the new
task is not changed it is read back with all of its payload when this has no parent and
no due date. -/
theorem created_kept (h₀ : Reach app anySchedule (genesis faults now) c) {i : Nat} {bearer : Token}
    {o : Uuid} {payload : TaskCreate} {created : TaskResponse}
    (ht : c.thread i =
      some ⟨.tenant bearer o (.createTask payload), .done (.ok (.task created))⟩) {j : Nat}
    {reader : Token} {a : Except Exn Response}
    (hget : Served c c' j (.tenant reader o (.getTask created.id)) a)
    (hquiet : changes .tasks created.id c'.state = []) :
    (∀ d ∈ c.state.commits, d.session = i → ∀ id task, d.before.get .tasks id = some task →
      (d.before.apply d.written).get .tasks id = some task) ∧
    ((∃ e, a = .error e ∧ e.RefusesCaller .viewer) ∨
      ∃ user x, bearer.Names access user ∧ a = .ok (.task x) ∧ x.id = created.id ∧
        (payload.Kept user x ↔ payload.parentId = none ∧ payload.dueDate = none)) := by
  have hcommits : ∀ d ∈ c.state.commits, d.session = i →
      (Request.tenant bearer o (.createTask payload)).Writes uncovered d.before d.written := by
    rintro d hd rfl
    obtain ⟨r, k, ht', hw⟩ := commit_arrived h₀ hd
    cases ht.symm.trans ht'
    exact hw
  refine ⟨fun d hd hi id task hold => Inserted.get_apply (hcommits d hd hi).created.2 hold, ?_⟩
  obtain ⟨x, hx, before, es, hmem, task, htask, rfl⟩ := (start_genesis faults now).taskLogged
    (h₀.mono fun c l _ => calm_uncovered c l) ht
  cases hx
  have hd : (⟨i, before, es⟩ : Commit) ∈ c.state.commits := List.mem_filterMap.mpr ⟨_, hmem, rfl⟩
  have hw := hcommits _ hd rfl
  obtain ⟨user, id, at', hnames, htasks⟩ := hw.created.1
  obtain rfl := htasks task htask
  -- whatever the lookup finds was committed before the row was changed
  have hpresent : ∀ db, Between c c' db → db.get .tasks id = some (newTask o payload.projectId user
      payload.assigneeId payload.title.text payload.description payload.priority id at') := by
    rintro _ ⟨m, hcm, hmc, rfl⟩
    have hhist := ((start_genesis faults now).history (P := fun _ _ _ => True)
      (fun c l _ => calm_uncovered c l) (fun _ _ _ _ _ _ => trivial) (h₀.trans hcm)).1
    have hnone : m.state.commits.filterMap (Commit.change .tasks id) = [] :=
      List.suffix_nil.mp (hquiet ▸ (reached_commits (h₀.trans hcm) hmc).filterMap _)
    exact hhist.unchanged ((reached_commits h₀ hcm).subset hd) (hw.readBack htask) hnone
  obtain ⟨hok, herror⟩ := (reach_reads h₀ hget.idle hget.reach (R := OpFails)
    (fun _ _ _ _ _ _ he => opFails_exec he) (yields_getTask hpresent rfl rfl)).1 a hget.answered
  cases a with
  | error e => exact Or.inl ⟨e, rfl, herror e rfl⟩
  | ok a =>
    obtain rfl := hok a rfl
    exact Or.inr ⟨user, _, hnames, rfl, rfl, newTask_kept⟩

end

section

open scoped Ascii

def launchPayload (dueDate : Option Instant) : TaskCreate :=
  ⟨drawnId 15, launchTitle, none, .low, none, none, dueDate⟩

def launchMoves (dueDate : Option Instant) : List AppMove :=
  annsProject ++ solo 3 (asAnn (.createTask (launchPayload dueDate)))

def launched (dueDate : Option Instant) : AppConfig :=
  runMoves (genesis noFaults 0) (launchMoves dueDate)

def isTask (p : TaskResponse → Bool) : Response → Bool
  | .task x => p x
  | _ => false

theorem launched_reach (dueDate : Option Instant) :
    Reach app anySchedule (genesis noFaults 0) (launched dueDate) :=
  runMoves_any (start_genesis noFaults 0).idle

theorem launched_created (dueDate : Option Instant)
    (h : answeredWith (launched dueDate) 3 (isTask fun x => x.id = drawnId 17) = true) :
    ∃ created : TaskResponse, created.id = drawnId 17 ∧
      (launched dueDate).thread 3 =
        some ⟨asAnn (.createTask (launchPayload dueDate)), .done (.ok (.task created))⟩ := by
  unfold launched at h ⊢
  obtain ⟨r, a, ht, ha⟩ := answeredWith_thread h
  have hmove : .start 3 r ∈ launchMoves dueDate :=
    runMoves_req (start_genesis noFaults 0).idle ht
  obtain rfl : r = asAnn (.createTask (launchPayload dueDate)) := by
    simpa [launchMoves, annsProject] using hmove
  cases a with
  | task created => exact ⟨created, by simpa [isTask] using ha, ht⟩
  | _ => cases ha

theorem launch_kept : ∃ created user x,
    Served (launched none) (runMoves (launched none) (solo 4 (asAnn (.getTask created)))) 4
      (asAnn (.getTask created)) (.ok (.task x)) ∧ (launchPayload none).Kept user x := by
  obtain ⟨created, hid, ht⟩ := launched_created none (by decide +kernel)
  obtain ⟨a, hserved, -⟩ := served_with (c := launched none) (i := 4)
    (r := asAnn (.getTask (drawnId 17))) (p := fun _ => true) (by decide +kernel)
    (by decide +kernel)
  rw [← hid] at hserved
  obtain ⟨-, ⟨e, he, -⟩ | ⟨user, x, -, ha, -, hkept⟩⟩ :=
    created_kept (launched_reach none) ht hserved
    (by rw [hid]; decide +kernel)
  · cases he
  · cases ha
    exact ⟨created.id, user, x, hserved, hkept.mpr ⟨rfl, rfl⟩⟩

/-- A due date is lost. -/
theorem created_not_kept : ¬ ∀ faults now c c' i bearer o payload created j reader a,
    Reach app anySchedule (genesis faults now) c →
    c.thread i = some ⟨.tenant bearer o (.createTask payload), .done (.ok (.task created))⟩ →
    Served c c' j (.tenant reader o (.getTask created.id)) (.ok a) →
    changes .tasks created.id c'.state = [] → ∃ user x, a = .task x ∧ payload.Kept user x := by
  intro hall
  obtain ⟨created, hid, ht⟩ := launched_created (some 5) (by decide +kernel)
  obtain ⟨a, hserved, hnone⟩ := served_with (c := launched (some 5)) (i := 4)
    (r := asAnn (.getTask (drawnId 17))) (p := isTask fun x => x.dueDate.isNone)
    (by decide +kernel) (by decide +kernel)
  rw [← hid] at hserved
  obtain ⟨user, x, rfl, hkept⟩ := hall noFaults 0 _ _ 3 _ _ _ created 4 _ a
    (launched_reach (some 5)) ht hserved (by rw [hid]; decide +kernel)
  rw [isTask, hkept.dueDate] at hnone
  cases hnone

end

end MultiTenantSaas
