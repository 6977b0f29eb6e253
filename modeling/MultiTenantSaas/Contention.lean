import MultiTenantSaas.Announcements
import MultiTenantSaas.Observations
import MultiTenantSaas.RowHistories

/-!
Optimistic locking from the side of the one who loses. A request that presents a row as it is
is refused because the row is missing, or has changed, only if another request has changed
it meanwhile.
-/

set_option autoImplicit false

namespace MultiTenantSaas

open Process

def Exn.Stale (e : Exn) : Prop := e.status ∈ [404, 409]

def Meets (H : Db → Prop) : (o : Op) → Except Exn o.Resp → Prop
  | .select q, a => ∀ rows, a = .ok rows → ∃ db, H db ∧ rows.Perm (q db)
  | .updateWhere t id criteria _, a =>
    a = .ok none → ∃ db, H db ∧ ∀ row, db.get t id = some row → criteria row = false
  | _, _ => True

section

variable [Library] {faults : Faults} {H : Db → Prop} {α β : Type} {clean : Bool}

omit [Library] in
theorem not_stale {e : Exn} (h : e.status = 500) : ¬ e.Stale := by simp [Exn.Stale, h]

omit [Library] in
theorem lost_not_stale (e : Exn) (h : e.Lost faults.database) : ¬ e.Stale := not_stale (h.2 ▸ rfl)

omit [Library] in
theorem write_not_stale (e : Exn) (h : e.OfWrite) : ¬ e.Stale := by
  simp only [Exn.OfWrite, List.mem_cons, List.not_mem_nil, or_false] at h
  rcases h with rfl | rfl | rfl | rfl <;> exact not_stale rfl

theorem replies_status {o : Op} {e : Exn} (h : Replies faults o (.error e)) : e.status = 500 := by
  obtain ⟨i, w, w', -, -, he⟩ := h
  exact exec_status he

/-- The committed rows meet `H` throughout. A session is `clean` until it writes: so far its
statements find nothing but committed rows. -/
def undisturbed (faults : Faults) (H : Db → Prop) : Protocol sig Exn Bool where
  admits _ _ := True
  moves clean o a clean' := Replies faults o a ∧
    (clean = true → Meets H o a ∧ (o.target = none → clean' = true))

/-- The program tells of no row that is missing or has changed. -/
abbrev Steady (faults : Faults) (H : Db → Prop) (p : Coro α) (Q : α → Bool → Prop)
    (clean : Bool) : Prop :=
  Prog.Follows (S := sig) (undisturbed faults H) (andThen Q fun e _ => ¬ e.Stale) p clean

theorem steady_bind {p : Coro α} {f : α → Coro β} {Q : β → Bool → Prop}
    (h : Steady faults H p (fun a => Steady faults H (f a) Q) clean) :
    Steady faults H (p >>= f) Q clean := Prog.Follows.bind h

theorem steady_rest {p : Coro α} (h : Raises (Replies faults) (fun e => ¬ e.Stale) p) :
    Steady faults H p (fun _ _ => True) clean := by
  induction p generalizing clean with
  | done a =>
    cases a with
    | ok a => trivial
    | error e => exact h e rfl
  | call o k ih => exact ⟨trivial, fun a clean' hm => ih a (h a hm.1)⟩

theorem steady_silent {p : Coro α} {Q : α → Bool → Prop} (hp : Silent p)
    (h : Concludes (Replies faults) (fun a => Q a true) (fun e => ¬ e.Stale) p) :
    Steady faults H p Q true := by
  induction p with
  | done a =>
    cases a with
    | ok a => exact h.1 a rfl
    | error e => exact h.2 e rfl
  | call o k ih =>
    refine ⟨trivial, fun a clean' hm => ?_⟩
    have htarget : o.target = none := by
      have hsilent := hp.1
      cases o <;> first | rfl | cases hsilent
    rw [(hm.2 rfl).2 htarget]
    exact ih a (hp.2 a) (h a hm.1)

theorem steady_ask {o : Op} {Q : o.Resp → Bool → Prop}
    (hQ : ∀ a clean', (undisturbed faults H).moves clean o (.ok a) clean' → Q a clean') :
    Steady faults H (ask o) Q clean := by
  refine ⟨trivial, fun a clean' hm => ?_⟩
  cases a with
  | ok a => exact hQ a clean' hm
  | error e => exact not_stale (replies_status hm.1)

theorem steady_getById {t : Table} {o id : Uuid} {row : t.Row} {Q : Option t.Row → Bool → Prop}
    (hH : ∀ db, H db → db.get t id = some row) (horg : t.org row = some o)
    (hlive : t.isDeleted row = false) (hQ : Q (some row) true) :
    Steady faults H (getById t o id) Q true := by
  refine steady_bind (steady_ask fun rows clean' hm => ?_)
  obtain ⟨hmeets, hclean⟩ := hm.2 rfl
  obtain ⟨db, hdb, hperm⟩ := hmeets rows rfl
  have htenant : inTenant t o false row = true := by simp [inTenant, horg, hlive]
  rw [rowsWhere_id_and, hH db hdb, Option.filter_some_pos htenant] at hperm
  rw [List.perm_singleton.mp hperm, hclean rfl]
  exact hQ

theorem steady_updateWhere {t : Table} {id : Uuid} {row : t.Row} {criteria : t.Row → Bool}
    {set : Instant → t.Row → t.Row} {Q : Option t.Row → Bool → Prop}
    (hH : ∀ db, H db → db.get t id = some row) (hrow : criteria row = true)
    (hQ : ∀ row clean, Q (some row) clean) :
    Steady faults H (ask (.updateWhere t id criteria set)) Q true := by
  refine steady_ask fun found clean' hm => ?_
  cases found with
  | some row => exact hQ row clean'
  | none =>
    obtain ⟨db, hdb, hnone⟩ := (hm.2 rfl).1 rfl
    rw [hnone row (hH db hdb)] at hrow
    cases hrow

theorem Steady.mono {p : Coro α} {Q Q' : α → Bool → Prop} (h : Steady faults H p Q clean)
    (himp : ∀ a clean, Q a clean → Q' a clean) : Steady faults H p Q' clean := by
  refine Prog.Follows.mono h fun a clean' ha => ?_
  cases a with
  | ok a => exact himp a clean' ha
  | error e => exact ha

theorem steady_recover {p : Coro α} {Q : α → Bool → Prop} (h : Steady faults H p Q clean) :
    Steady faults H (tryCatch p fun e => do ask .rollback; throw e) Q clean := by
  refine Prog.Follows.tryCatch (Prog.Follows.mono h fun a clean' ha => ?_)
  cases a with
  | ok a => exact ha
  | error e => exact steady_bind (steady_ask fun _ _ _ => ha)

theorem steady_transaction {body : Coro α} (h : Steady faults H body (fun _ _ => True) clean) :
    Steady faults H (transaction body) (fun _ _ => True) clean :=
  steady_recover (steady_bind (h.mono fun _ _ _ => steady_bind (steady_ask fun _ _ _ => trivial)))

theorem steady_withDbSession {body : Coro α} (h : Steady faults H body (fun _ _ => True) clean) :
    Steady faults H (withDbSession body) (fun _ _ => True) clean :=
  steady_bind ((steady_recover h).mono fun _ _ _ => steady_bind (steady_ask fun _ _ _ => trivial))

theorem steady_requireRole {minRole : OrgRole} {bearer : Token} {o : Uuid} :
    Steady faults H (requireRole minRole bearer o)
      (fun ctx clean => ctx.organizationId = o ∧ clean = true) true := by
  have hraises : Raises (Replies faults) (fun e => ¬ e.Stale) (requireRole minRole bearer o) := by
    refine raises_admission lost_not_stale (fun e he => ?_) bearer o
    rcases status_guardRefusals he with hs | hs <;> simp [Exn.Stale, hs]
  exact steady_silent (silent_requireRole _ _ _)
    (((requireRole_org _ _ _).and hraises).mono fun a ha =>
      ⟨fun x hx => ⟨ha.1 x hx, rfl⟩, ha.2⟩)

/-- The request is for this row of its tenant, and takes it for what it is. -/
def TenantRequest.Targets (organizationId : Uuid) : TenantRequest → (t : Table) → t.Row → Prop
  | .updateTask taskId payload, .tasks, task => Task.id task = taskId ∧
    statusCriteria organizationId payload.expectedVersion.val task = true
  | .deleteTask taskId, .tasks, task => Task.id task = taskId ∧
    Task.organizationId task = organizationId ∧ Task.isDeleted task = false
  | .updateProject projectId payload, .projects, project => Project.id project = projectId ∧
    Project.organizationId project = organizationId ∧
    Project.versionId project = payload.expectedVersion.val
  | _, _, _ => False

variable {ctx : TenantContext} {taskId projectId : Uuid} {task : Task}

theorem steady_updateTaskStatus {status : TaskStatus} {expectedVersion : Int}
    (hH : ∀ db, H db → db.get .tasks taskId = some task)
    (htask : statusCriteria ctx.organizationId expectedVersion task = true) :
    Steady faults H (Endpoints.updateTaskStatus ctx taskId status expectedVersion)
      (fun _ _ => True) true := by
  have hcriteria := htask
  simp only [statusCriteria, Bool.and_eq_true, decide_eq_true_eq, Bool.not_eq_true'] at hcriteria
  obtain ⟨⟨horg, -⟩, hlive⟩ := hcriteria
  refine steady_bind ((steady_transaction (steady_bind (steady_getById hH (congrArg some horg) hlive
    (steady_bind (steady_updateWhere hH htask fun updated clean' => ?_))))).mono fun _ _ _ => ?_)
  · exact steady_rest (raises_bind (raises_addAuditLog lost_not_stale write_not_stale _ _ _ _ _ _ _)
      fun _ => raises_pure)
  · exact steady_rest (raises_bind raises_orDefault fun _ => raises_pure)

theorem steady_updateTaskFields {payload : TaskUpdate}
    (hH : ∀ db, H db → db.get .tasks taskId = some task)
    (htask : statusCriteria ctx.organizationId payload.expectedVersion.val task = true) :
    Steady faults H (Endpoints.updateTaskFields ctx taskId payload) (fun _ _ => True) true := by
  simp only [statusCriteria, Bool.and_eq_true, decide_eq_true_eq, Bool.not_eq_true'] at htask
  obtain ⟨⟨horg, hversion⟩, hlive⟩ := htask
  refine steady_bind (steady_getById hH (congrArg some horg) hlive ?_)
  dsimp only
  rw [if_neg (not_not.mpr hversion)]
  refine steady_rest (raises_bind (raises_flushUpdate lost_not_stale write_not_stale _ _ _)
    fun _ => raises_bind (raises_ask (replies_commit lost_not_stale)) fun _ => ?_)
  exact raises_bind (raises_refresh lost_not_stale write_not_stale _ _)
    fun _ => raises_bind raises_orDefault fun _ => raises_pure

theorem steady_deleteTask (hH : ∀ db, H db → db.get .tasks taskId = some task)
    (horg : task.organizationId = ctx.organizationId) (hlive : task.isDeleted = false) :
    Steady faults H (Endpoints.deleteTask ctx taskId) (fun _ _ => True) true := by
  refine steady_bind (steady_getById hH (congrArg some horg) hlive (steady_bind (steady_bind
    (steady_updateWhere hH (by simp [horg, hlive]) fun updated clean' => ?_))))
  exact steady_rest (raises_bind (raises_ask (replies_commit lost_not_stale))
    fun _ => raises_orDefault)

theorem steady_updateProject {payload : ProjectUpdate} {project : Project}
    (hH : ∀ db, H db → db.get .projects projectId = some project)
    (horg : project.organizationId = ctx.organizationId)
    (hversion : project.versionId = payload.expectedVersion.val) :
    Steady faults H (Endpoints.updateProject ctx projectId payload) (fun _ _ => True) true := by
  refine steady_bind ((steady_transaction (steady_bind (steady_getById hH (congrArg some horg) rfl
    ?_))).mono fun _ _ _ => ?_)
  · dsimp only
    rw [if_neg (not_not.mpr hversion)]
    exact steady_rest (raises_bind (raises_flushUpdate lost_not_stale write_not_stale _ _ _)
      fun _ => raises_bind (raises_addAuditLog lost_not_stale write_not_stale _ _ _ _ _ _ _)
      fun _ => raises_pure)
  · exact steady_rest (raises_bind raises_orDefault fun _ => raises_pure)

theorem steady_endpoint {q : TenantRequest} {t : Table} {row : t.Row}
    (hrow : q.Targets ctx.organizationId t row) (hH : ∀ db, H db → db.get t (t.id row) = some row) :
    Steady faults H (q.endpoint ctx) (fun _ _ => True) true := by
  cases q <;> cases t <;> first | exact hrow.elim | skip
  case updateProject.projects projectId payload =>
    obtain ⟨rfl, horg, hversion⟩ := hrow
    exact steady_bind ((steady_updateProject hH horg hversion).mono fun _ _ _ => trivial)
  case updateTask.tasks taskId payload =>
    obtain ⟨rfl, htask⟩ := hrow
    have hsteady : Steady faults H (Endpoints.updateTask ctx row.id payload)
        (fun _ _ => True) true := by
      unfold Endpoints.updateTask
      split
      · exact steady_updateTaskStatus hH htask
      · exact steady_updateTaskFields hH htask
    exact steady_bind (hsteady.mono fun _ _ _ => trivial)
  case deleteTask.tasks taskId =>
    obtain ⟨rfl, horg, hlive⟩ := hrow
    exact steady_bind ((steady_deleteTask hH horg hlive).mono fun _ _ _ => trivial)

theorem steady_handle {bearer : Token} {o : Uuid} {q : TenantRequest} {t : Table} {row : t.Row}
    (hrow : q.Targets o t row) (hH : ∀ db, H db → db.get t (t.id row) = some row) :
    Steady faults H (Request.tenant bearer o q).handle (fun _ _ => True) true := by
  refine steady_withDbSession (steady_bind (steady_requireRole.mono fun ctx clean hctx => ?_))
  obtain ⟨rfl, rfl⟩ := hctx
  exact steady_endpoint hrow hH

variable {i : Nat} {o : Op} {w w' : World}

theorem rows_untargeted {a : Except Exn o.Resp} (ho : o.target = none)
    (hrows : w.rows i = []) (he : exec i o w a w') : w'.rows i = [] := by
  by_cases hq : o.quiet = true
  · exact ((World.executed he).later_self hq).rows_eq.trans hrows
  · cases o with
    | insert t values => cases ho
    | flushUpdate t id set => cases ho
    | updateWhere t id criteria set => cases ho
    | rollback =>
      obtain ⟨-, rfl⟩ := he
      exact World.rows_rollback i w
    | commit =>
      rcases he with ⟨-, rfl⟩ | ⟨rfl, -⟩ <;>
        exact (World.rows_ended (j := i) rfl).trans (if_pos rfl)
    | _ => exact absurd rfl hq

theorem meets_exec {a : Except Exn o.Resp} (hH : H w.db) (hrows : w.rows i = [])
    (he : exec i o w a w') : Meets H o a := by
  cases o with
  | select q =>
    intro rows ha
    obtain ⟨-, ⟨rows', hok, hperm⟩ | ⟨-, hfailed⟩⟩ := he
    · cases ha.symm.trans hok
      exact ⟨w.db, hH, World.view_of_rows hrows ▸ hperm⟩
    · cases ha.symm.trans hfailed
  | updateWhere t id criteria set =>
    intro ha
    refine ⟨w.db, hH, fun row hrow => ?_⟩
    subst ha
    rcases he with he | ⟨-, -, hfailed⟩
    · unfold World.update at he
      rw [World.view_of_rows hrows, hrow] at he
      dsimp only at he
      split at he
      · next hfalse => simpa using hfalse
      · split at he
        · cases he
        · split at he <;> cases he
    · cases hfailed
  | _ => trivial

variable {now : Instant} {c c' d : AppConfig} {bearer : Token} {organizationId : Uuid}
  {q : TenantRequest} {t : Table} {row : t.Row} {e : Exn}

/-- As long as nobody changes the row, the request is not refused for its sake. -/
theorem served_steady (h₀ : Reach app anySchedule (genesis faults now) c)
    (hrow : q.Targets organizationId t row)
    (h : Served c c' i (.tenant bearer organizationId q) (.error e))
    (hkept : ∀ db, Between c c' db → db.get t (t.id row) = some row) : ¬ e.Stale := by
  have hfollows := h.reach.follows_thread
    (D := undisturbed faults fun db => db.get t (t.id row) = some row)
    (R := fun clean w => clean = true → w.rows i = [])
    (Config.thread_setThread _ _ _ _) (steady_handle hrow fun _ hH => hH)
    (fun _ => reached_fresh h₀ h.idle) ?_
    fun d l d' clean _ _ hs hl hclean hc => (step_rows hs hl).trans (hclean hc)
  · obtain ⟨p, clean, ht, hp, -⟩ := hfollows
    cases h.answered.symm.trans ht
    exact hp
  · intro d o k a w' clean hcd hdc hk hclean he
    have hto : Reach app anySchedule c d := (Reach.step .refl trivial (.start h.idle)).trans hcd
    refine ⟨clean && o.target.isNone, ⟨⟨i, _, w', reached_sound (h₀.trans hto),
      reached_faults (h₀.trans hto), he⟩, fun hc => ⟨?_, fun ho => by simp [hc, ho]⟩⟩, fun hc => ?_⟩
    · exact meets_exec (hkept _ ⟨d, hto, hdc, rfl⟩) (hclean hc) he
    · rw [Bool.and_eq_true, Option.isNone_iff_eq_none] at hc
      exact rows_untargeted hc.2 (hclean hc.1) he

theorem commits_suffix (h₀ : Reach app anySchedule (genesis faults now) c)
    (h : Reach app anySchedule c d) : ∃ later, d.state.commits = later ++ c.state.commits := by
  induction h with
  | refl => exact ⟨[], rfl⟩
  | @step d d' l hr _ hs ih =>
    obtain ⟨later, hlater⟩ := ih
    rcases (start_genesis faults now).step_db (reach_calm (h₀.trans hr)) hs with
      ⟨-, hc⟩ | ⟨j, r, k, -, -, -, -, hc⟩
    · exact ⟨later, hc.trans hlater⟩
    · exact ⟨_ :: later, by rw [hc, hlater, List.cons_append]⟩

/-- The commit of a request that changes the row. -/
structure Overtakes (c : AppConfig) (t : Table) (row : t.Row) (d : Commit) : Prop where
  before : d.before.get t (t.id row) = some row
  edited : ∃ r k after, c.thread d.session = some ⟨r, k⟩ ∧ after ≠ row ∧
    (d.before.apply d.written).get t (t.id row) = some after ∧
    r.Edits c.state.db t (t.id row) row after

theorem Overtakes.step {l : AppLabel} {x : Commit}
    (h₀ : Reach app anySchedule (genesis faults now) c) (h : Overtakes c t row x)
    (hs : Step app c l d) : Overtakes d t row x := by
  obtain ⟨r, k, after, ht, hne, hafter, hedits⟩ := h.edited
  obtain ⟨⟨r', k'⟩, ht', hreq⟩ := hs.keeps_req ht
  cases hreq
  exact ⟨h.before, _, k', after, ht', hne, hafter,
    hedits.mono ((start_genesis faults now).step_extends (reach_calm h₀) hs)⟩

theorem changed_by (h₀ : Reach app anySchedule (genesis faults now) c)
    (h : Reach app anySchedule c d) (hrow : c.state.db.get t (t.id row) = some row)
    (hchanged : d.state.db.get t (t.id row) ≠ some row) :
    ∃ later, d.state.commits = later ++ c.state.commits ∧ ∃ x ∈ later, Overtakes d t row x := by
  induction h with
  | refl => exact absurd hrow hchanged
  | @step d d' l hr _ hs ih =>
    have hd : Reach app anySchedule (genesis faults now) d := h₀.trans hr
    have hstart := start_genesis faults now
    by_cases hstill : d.state.db.get t (t.id row) = some row
    · rcases hstart.step_db (reach_calm hd) hs with ⟨hdb, -⟩ | ⟨j, r, k, rfl, ht, hw, hdb, hc⟩
      · exact absurd (hdb ▸ hstill) hchanged
      · obtain ⟨older, holder⟩ := commits_suffix h₀ hr
        obtain ⟨after, hafter⟩ := Option.isSome_iff_exists.mp
          (d.state.db.keeps_apply (d.state.rows j) t (t.id row) (Option.isSome_iff_exists.mpr
            ⟨row, hstill⟩))
        have hne : after ≠ row := by
          rintro rfl
          exact hchanged (hdb ▸ hafter)
        obtain ⟨hmem, hid⟩ := Db.get_eq_some.mp hafter
        have hwritten : (⟨t, after⟩ : Entry) ∈ d.state.rows j := by
          refine (Db.mem_apply hmem).resolve_right fun hold => hne ?_
          exact Option.some.inj ((hid ▸ Db.get_of_mem hold.1).symm.trans hstill)
        have hedits : r.Edits d.state.db t (t.id row) row after :=
          hid ▸ hw.edits hwritten (hid ▸ hstill)
        refine ⟨_ :: older, by rw [hc, holder, List.cons_append], _, List.mem_cons_self, ?_⟩
        exact Overtakes.step hd ⟨hstill, r, _, after, ht, hne, hafter, hedits⟩ hs
    · obtain ⟨later, hlater, x, hx, hchanges⟩ := ih hstill
      obtain ⟨newer, hnewer⟩ := commits_suffix hd (.step .refl trivial hs)
      refine ⟨newer ++ later, by rw [hnewer, hlater, List.append_assoc], x, ?_, hchanges.step hd hs⟩
      exact List.mem_append_right _ hx

theorem Overtakes.reach {x : Commit} (h₀ : Reach app anySchedule (genesis faults now) c)
    (h : Overtakes c t row x) (hr : Reach app anySchedule c d) : Overtakes d t row x := by
  induction hr with
  | refl => exact h
  | step hr _ hs ih => exact ih.step (h₀.trans hr) hs

theorem refused_uncommitted (h₀ : Reach app anySchedule (genesis faults now) c) {r : Request}
    (ht : c.thread i = some ⟨r, .done (.error e)⟩) (hstatus : e.status < 500) :
    ∀ d ∈ c.state.commits, d.session ≠ i := by
  obtain ⟨g, ⟨-, hend⟩, hR⟩ := (start_genesis faults now).refines h₀ ht
  have hrecord : c.state.record i = [] := hR.working (hend hstatus)
  rintro ⟨j, before, es⟩ hd rfl
  obtain ⟨⟨k, event⟩, hmem, hevent⟩ := List.mem_filterMap.mp hd
  cases event <;> cases hevent
  have hlasting : Event.commit before es ∈ c.state.record j :=
    List.mem_map.mpr ⟨_, List.mem_filter.mpr ⟨hmem, by simp [Event.lasting]⟩, rfl⟩
  rw [hrecord] at hlasting
  cases hlasting

/-- Whoever updates a task or a project in the version that is committed when her request
arrives, or deletes a task that is there, is told that the row is missing or has changed only
if another request has committed a change of it meanwhile. -/
theorem refusals_caused (h₀ : Reach app anySchedule (genesis faults now) c)
    (hrow : row ∈ c.state.db.rows t) (htarget : q.Targets organizationId t row)
    (h : Served c c' i (.tenant bearer organizationId q) (.error e)) (hstale : e.Stale) :
    ∃ later, c'.state.commits = later ++ c.state.commits ∧
      ∃ d ∈ later, d.session ≠ i ∧ Overtakes c' t row d := by
  have hmoved : ∃ db, Between c c' db ∧ db.get t (t.id row) ≠ some row := by
    by_contra hkept
    refine served_steady h₀ htarget h (fun db hdb => ?_) hstale
    by_contra hne
    exact hkept ⟨db, hdb, hne⟩
  obtain ⟨db, ⟨d, hcd, hdc, rfl⟩, hne⟩ := hmoved
  obtain ⟨older, holder, x, hx, hchanges⟩ := changed_by h₀ hcd (Db.get_of_mem hrow) hne
  obtain ⟨newer, hnewer⟩ := commits_suffix (h₀.trans hcd) hdc
  have hmem : x ∈ newer ++ older := List.mem_append_right _ hx
  have hall : c'.state.commits = (newer ++ older) ++ c.state.commits := by
    rw [hnewer, holder, List.append_assoc]
  have hstatus : e.status < 500 := by
    simp only [Exn.Stale, List.mem_cons, List.not_mem_nil, or_false] at hstale
    omega
  refine ⟨_, hall, x, hmem, ?_, hchanges.reach (h₀.trans hcd) hdc⟩
  exact refused_uncommitted (h₀.trans h.path) h.answered hstatus x
    (hall ▸ List.mem_append_left _ hmem)

end

section Example

open scoped Ascii

def apolloFounded : AppConfig := runMoves (genesis noFaults 0) annsProject

theorem apolloFounded_reached : Reach app anySchedule (genesis noFaults 0) apolloFounded :=
  runMoves_any fun _ => rfl

def outrun : AppConfig :=
  runMoves (apolloFounded.setThread 4 ⟨describe "Mars".toList, (describe "Mars".toList).handle⟩
    apolloFounded.state) (List.replicate 2 (.act 4 false) ++ solo 5 (describe "Moon".toList) ++
      List.replicate 20 (.act 4 false))

theorem outrun_caused : ∃ later, outrun.state.commits = later ++ apolloFounded.state.commits ∧
    ∃ d ∈ later, d.session ≠ 4 ∧ ∃ row : Project, Overtakes outrun .projects row d := by
  have hthere : (rowsWhere .projects (fun p => decide (Project.id p = drawnId 15 ∧
      Project.organizationId p = drawnId 4 ∧ Project.versionId p = 1)) apolloFounded.state.db) ≠
      [] := by decide +kernel
  have hrefused : refusedWith outrun 4 (projectConflict (drawnId 15) 1 2) = true := by
    decide +kernel
  have hidle : (apolloFounded.thread 4).isNone := by decide +kernel
  obtain ⟨row, hrow⟩ := List.exists_mem_of_ne_nil _ hthere
  obtain ⟨hrow, htarget⟩ := mem_rowsWhere.mp hrow
  have htarget := of_decide_eq_true htarget
  have hserved : Served apolloFounded outrun 4 (describe "Mars".toList)
      (.error (projectConflict (drawnId 15) 1 2)) :=
    ⟨Option.isNone_iff_eq_none.mp hidle, runMoves_path, answer_thread runMoves_path
      (Config.thread_setThread _ _ _ _) (answer_of_refused hrefused)⟩
  obtain ⟨later, hlater, d, hd, hne, hchanges⟩ := refusals_caused apolloFounded_reached hrow
    (q := .updateProject (drawnId 15) ⟨none, some "Mars".toList, none, none, .first⟩) htarget
    hserved (by simp [Exn.Stale])
  exact ⟨later, hlater, d, hd, hne, row, hchanges⟩

end Example

end MultiTenantSaas
