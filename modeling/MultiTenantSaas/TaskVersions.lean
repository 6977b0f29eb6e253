import MultiTenantSaas.Runs

/-!
Optimistic concurrency on a task. A PATCH with a status is one conditional UPDATE; a
PATCH of fields compares the version of the row it selected and then updates by
primary key.
-/

set_option autoImplicit false

namespace MultiTenantSaas

open Process

def Request.taskVersion : Request → Option Int
  | .tenant _ _ (.updateTask _ payload) => some payload.expectedVersion.val
  | _ => none

def expectedOf (version : Request → Option Int) (c : AppConfig) (i : Nat) : Option Int :=
  (c.thread i).bind fun t => version t.req

/-- Optimistic concurrency on one task. Accepted requests find the version they expect
on a task that is not deleted, each version is expected successfully once, versions do
not decrease, and whatever expects a version has seen the changes before it. -/
structure TaskOcc (taskId : Uuid) (c : AppConfig) : Prop where
  accepted : ∀ i bearer o payload a,
    c.thread i = some ⟨.tenant bearer o (.updateTask taskId payload), .done (.ok a)⟩ →
    ∃ x ∈ changes .tasks taskId c.state, x.writer = i ∧ Task.isDeleted x.before = false ∧
      Task.versionId x.before = payload.expectedVersion.val ∧
      Task.versionId x.after = payload.expectedVersion.val + 1
  once : ∀ i bearer o payload a j bearer' o' payload' a',
    c.thread i = some ⟨.tenant bearer o (.updateTask taskId payload), .done (.ok a)⟩ →
    c.thread j = some ⟨.tenant bearer' o' (.updateTask taskId payload'), .done (.ok a')⟩ →
    payload.expectedVersion.val = payload'.expectedVersion.val → i = j
  writes : ∀ x ∈ changes .tasks taskId c.state, ∀ e,
    expectedOf Request.taskVersion c x.writer = some e →
    Task.versionId x.before = e ∧ Task.versionId x.after = e + 1
  monotone : ∀ x ∈ changes .tasks taskId c.state, Task.versionId x.before ≤ Task.versionId x.after
  seen : (changes .tasks taskId c.state).Pairwise fun later earlier =>
    Task.versionId earlier.after ≤ Task.versionId later.before ∧
      ∀ e, expectedOf Request.taskVersion c later.writer = some e → Task.versionId earlier.after ≤ e
  undeleted : ∀ x ∈ changes .tasks taskId c.state, Task.isDeleted x.before = false

/-- An accepted request has changed the row at the version it expects. -/
theorem Start.expected_change [Library] {calm : Table → Uuid → Prop} {c₀ c : AppConfig} {t : Table}
    {id : Uuid} {version : t.Row → Int} {live : t.Row → Prop} {expected : Request → Option Int}
    (h₀ : Start c₀) (h : Reach app (Calm calm) c₀ c)
    (hchecked : ∀ x ∈ changes t id c.state,
      Versioned.Checked version live (expectedOf expected c) x)
    {i : Nat} {r : Request} {a : Response} {e : Int} (ht : c.thread i = some ⟨r, .done (.ok a)⟩)
    (hr : r.Commits) (he : expected r = some e) (hup : ∀ db es, r.Writes calm db es →
      (∃ x ∈ es, x.slot = (t, id)) ∧ ∃ old, db.get t id = some old) :
    ∃ x ∈ changes t id c.state, x.writer = i ∧ expectedOf expected c x.writer = some e ∧
      live x.before ∧ version x.before = e ∧ version x.after = e + 1 := by
  obtain ⟨x, hx, rfl⟩ := h₀.answered_change h ht hr hup
  have hexp : expectedOf expected c x.writer = some e := by simp [expectedOf, ht, he]
  exact ⟨x, hx, rfl, hexp, (hchecked x hx).alive, (hchecked x hx).expects e hexp⟩

theorem Task.flush_versionId (loaded : Task) (payload : TaskUpdate) (now : Instant) :
    (loaded.flush (payload.assign loaded) now loaded).versionId = loaded.versionId + 1 := by
  simp [Task.flush, TaskUpdate.assign]

section

variable [Library] {calm : Table → Uuid → Prop} {db : Db} {es : List Entry} {taskId : Uuid}
  {old new : Task}

/-- A task that is there is written by a PATCH that finds the version it expects, or by
its deletion. -/
theorem Request.Writes.taskChange {r : Request} (hw : r.Writes calm db es)
    (hcalm : calm .tasks taskId) (hslot : ∃ e ∈ es, e.slot = (.tasks, taskId))
    (hold : db.get .tasks taskId = some old) (hnew : (db.apply es).get .tasks taskId = some new) :
    old.isDeleted = false ∧
      ((∃ e, r.taskVersion = some e ∧ old.versionId = e ∧ new.versionId = e + 1) ∨
        (r.taskVersion = none ∧ new.versionId = old.versionId ∧ new.isDeleted = true)) := by
  obtain ⟨⟨t, row⟩, hmem, hs⟩ := hslot
  obtain ⟨rfl, hid⟩ := Prod.mk.inj hs
  change row.id = taskId at hid
  have hrow : (db.apply es).get .tasks row.id = some row := hw.readBack hmem
  rw [hid, hnew] at hrow
  cases hrow
  cases r with
  | register clientIp payload =>
    obtain ⟨hashed, slug, id, orgId, memberId, now, now', now'', rfl, -⟩ := hw
    simp at hmem
  | tenant bearer o req =>
    obtain ⟨user, role, -, hw⟩ := hw
    have htable := hw.table hmem
    cases req <;> simp only [TenantRequest.tables, List.mem_cons, List.not_mem_nil, reduceCtorEq,
      or_self] at htable
    case createTask payload =>
      obtain ⟨id, auditId, now, now', -, hins⟩ := hw
      have hnone : db.get .tasks new.id = none := hins _ hmem
      rw [hid, hold] at hnone
      cases hnone
    case updateTask taskId' payload =>
      cases hstatus : payload.status with
      | some status =>
        simp only [TenantRequest.Writes, hstatus] at hw
        obtain ⟨existing, current, now, now', auditId, -, -, -, hget, -, hcrit, rfl, -⟩ := hw
        rcases List.mem_pair.mp hmem with he | he <;> cases he
        obtain rfl : taskId' = taskId := (Db.get_eq_some.mp hget).2.symm.trans hid
        cases hget.symm.trans hold
        simp only [statusCriteria, Bool.and_eq_true, decide_eq_true_eq, Bool.not_eq_true'] at hcrit
        exact ⟨hcrit.2, Or.inl ⟨_, rfl, hcrit.1.2, rfl⟩⟩
      | none =>
        simp only [TenantRequest.Writes, hstatus] at hw
        obtain ⟨loaded, current, now, -, -, hdel, hver, hov, rfl⟩ := hw
        cases List.mem_singleton.mp hmem
        obtain rfl : taskId' = taskId := (Db.get_eq_some.mp hov.committed).2.symm.trans hid
        cases hov.committed.symm.trans hold
        obtain rfl := hov.unchanged hcalm
        exact ⟨hdel, Or.inl ⟨_, rfl, hver, by rw [Task.flush_versionId, hver]⟩⟩
    case deleteTask taskId' =>
      obtain ⟨current, now, hget, -, hdel, rfl⟩ := hw
      cases List.mem_singleton.mp hmem
      obtain rfl : taskId' = taskId := (Db.get_eq_some.mp hget).2.symm.trans hid
      cases hget.symm.trans hold
      exact ⟨hdel, Or.inr ⟨rfl, rfl, rfl⟩⟩
  | _ => exact hw.elim

theorem Request.Writes.patched {bearer : Token} {o : Uuid} {payload : TaskUpdate}
    (hw : (Request.tenant bearer o (.updateTask taskId payload)).Writes calm db es) :
    (∃ e ∈ es, e.slot = (.tasks, taskId)) ∧ ∃ old, db.get .tasks taskId = some old := by
  obtain ⟨user, role, -, hw⟩ := hw
  cases hstatus : payload.status with
  | some status =>
    simp only [TenantRequest.Writes, hstatus] at hw
    obtain ⟨existing, current, now, now', auditId, -, -, -, hget, -, -, rfl, -⟩ := hw
    have hid : current.id = taskId := (Db.get_eq_some.mp hget).2
    exact ⟨⟨_, List.mem_cons_self, congrArg (Prod.mk Table.tasks) hid⟩, current, hget⟩
  | none =>
    simp only [TenantRequest.Writes, hstatus] at hw
    obtain ⟨loaded, current, now, -, -, -, -, hov, rfl⟩ := hw
    have hid : current.id = taskId := (Db.get_eq_some.mp hov.committed).2
    exact ⟨⟨_, List.mem_cons_self, congrArg (Prod.mk Table.tasks) hid⟩, current, hov.committed⟩

variable {c₀ c : AppConfig}

theorem Start.task_checked (h₀ : Start c₀)
    (h : Reach app (Calm (covers .tasks taskId)) c₀ c) :
    ∀ x ∈ changes .tasks taskId c.state, Versioned.Checked Task.versionId
      (fun t => t.isDeleted = false) (expectedOf Request.taskVersion c) x := by
  intro x hx
  obtain ⟨db, es, r, k, ht, hw, hslot, hb, ha⟩ := h₀.changed h hx
  have hexp : expectedOf Request.taskVersion c x.writer = r.taskVersion := by
    simp [expectedOf, ht]
  obtain ⟨hdel, hcase⟩ := hw.taskChange ⟨rfl, rfl⟩ hslot hb ha
  refine ⟨hdel, fun e he => ?_, fun hnone => ?_⟩ <;> rw [hexp] at *
  · rcases hcase with ⟨e', he', hv⟩ | ⟨hn, -⟩
    · cases he.symm.trans he'
      exact hv
    · cases he.symm.trans hn
  · rcases hcase with ⟨e', he', -⟩ | ⟨-, hv, hd⟩
    · cases hnone.symm.trans he'
    · exact ⟨hv, by simp [hd]⟩

/-- When no task update commits between the SELECT and the flush of a PATCH of the same
task, the versions serialize the accepted requests. -/
theorem task_versions_kept (h₀ : Start c₀) (htask : (c₀.state.db.get .tasks taskId).isSome)
    (h : Reach app (Calm (covers .tasks taskId)) c₀ c) : TaskOcc taskId c := by
  obtain ⟨start, hstart⟩ := Option.isSome_iff_exists.mp htask
  obtain ⟨now, -, hlinked⟩ := h₀.linked h hstart
  have hchecked := h₀.task_checked h
  have haccepted : ∀ i bearer o payload a,
      c.thread i = some ⟨.tenant bearer o (.updateTask taskId payload), .done (.ok a)⟩ →
      ∃ x ∈ changes .tasks taskId c.state, x.writer = i ∧
        expectedOf Request.taskVersion c x.writer = some payload.expectedVersion.val ∧
        Task.isDeleted x.before = false ∧
        Task.versionId x.before = payload.expectedVersion.val ∧
        Task.versionId x.after = payload.expectedVersion.val + 1 := fun i bearer o payload a ht =>
    h₀.expected_change h hchecked ht trivial rfl fun _ _ hw => hw.patched
  refine ⟨?_, ?_, fun x hx => (hchecked x hx).expects, fun x hx => (hchecked x hx).version_le, ?_,
    fun x hx => (hchecked x hx).alive⟩
  · intro i bearer o payload a ht
    obtain ⟨x, hx, hi, -, hrest⟩ := haccepted i bearer o payload a ht
    exact ⟨x, hx, hi, hrest⟩
  · intro i bearer o payload a j bearer' o' payload' a' ht ht' he
    obtain ⟨x, hx, hi, hexp, -⟩ := haccepted i bearer o payload a ht
    obtain ⟨y, hy, hj, hexp', -⟩ := haccepted j bearer' o' payload' a' ht'
    have hxy : x = y := hlinked.unique hchecked hx hy hexp (he ▸ hexp')
    rw [← hi, ← hj, hxy]
  · refine (hlinked.ordered hchecked).imp_of_mem fun {later earlier} hl _ hle =>
      ⟨hle, fun e he => ?_⟩
    exact ((hchecked later hl).expects e he).1 ▸ hle

end

section

open scoped Ascii

def apolloLaunch : AppConfig :=
  restart (runMoves (genesis noFaults 0) (annsProject ++ solo 3 (asAnn apolloTask)))

theorem start_apolloLaunch : Start apolloLaunch := start_restart (runMoves_any fun _ => rfl)

def prioritize (priority : TaskPriority) : Request :=
  asAnn (.updateTask (drawnId 17) ⟨none, none, none, some priority, none, none, .first⟩)

/-- The guard admits the second PATCH before the first one selects the task, and the second one
selects it after the first one has committed. -/
def patchAfterPatch : List AppMove :=
  [.start 0 (prioritize .high), .start 1 (prioritize .urgent)] ++
  List.replicate 3 (.act 1 false) ++ List.replicate 9 (.act 0 false) ++
  List.replicate 6 (.act 1 false)

theorem prioritized_versions_kept :
    TaskOcc (drawnId 17) (runMoves apolloLaunch patchAfterPatch) ∧
      accepted (runMoves apolloLaunch patchAfterPatch) 0 = true ∧
      refusedWith (runMoves apolloLaunch patchAfterPatch) 1
        (.entityConflict "Task was modified by another concurrent transaction.".toList) = true := by
  refine ⟨task_versions_kept start_apolloLaunch (by decide +kernel)
    (runMoves_checked (spares 2) (fun _ => rfl) (fun d m _ hI hcheck =>
      spares_allowed (fun j t ht => ?_) hcheck) (by decide +kernel)), by decide +kernel,
    by decide +kernel⟩
  have hm := hI j t ht
  simp [patchAfterPatch] at hm
  omega

def OnTask (taskId : Uuid) : Request → Prop
  | .tenant _ _ (.updateTask id _) | .tenant _ _ (.deleteTask id) => id = taskId
  | _ => False

def twoPatches : List AppMove :=
  [.start 0 (prioritize .high), .start 1 (prioritize .urgent)] ++
  List.replicate 4 (.act 0 false) ++ List.replicate 4 (.act 1 false) ++
  List.replicate 5 (.act 0 false) ++ List.replicate 5 (.act 1 false)

/-- Two PATCHes that expect the same version are both accepted. -/
theorem task_versions_not_kept : ¬ ∀ c₀ c taskId, Start c₀ →
    (c₀.state.db.get .tasks taskId).isSome → Reach app (Starting (OnTask taskId)) c₀ c →
    TaskOcc taskId c := by
  intro hall
  have hocc := hall apolloLaunch (runMoves apolloLaunch twoPatches) (drawnId 17)
    start_apolloLaunch (by decide +kernel)
    (runMoves_starting (fun _ => rfl) fun i r hm => by
      simp only [twoPatches, List.mem_append, List.mem_cons, List.mem_replicate, reduceCtorEq,
        and_false, or_false, Move.start.injEq, List.not_mem_nil] at hm
      rcases hm with ⟨-, rfl⟩ | ⟨-, rfl⟩ <;> rfl)
  have h0 : accepted (runMoves apolloLaunch twoPatches) 0 = true := by decide +kernel
  have h1 : accepted (runMoves apolloLaunch twoPatches) 1 = true := by decide +kernel
  obtain ⟨r, a, ht, hr⟩ := runMoves_accepted (fun _ => rfl) h0
  obtain ⟨s, b, hs, hr'⟩ := runMoves_accepted (fun _ => rfl) h1
  simp [twoPatches] at hr hr'
  subst hr hr'
  exact absurd (hocc.once 0 _ _ _ _ 1 _ _ _ _ ht hs rfl) (by decide)

end

end MultiTenantSaas
