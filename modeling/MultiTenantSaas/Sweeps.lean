import MultiTenantSaas.Deletions
import MultiTenantSaas.PostCommit
import MultiTenantSaas.Retention

/-!
The retention job beside the requests. Its DELETE waits for the open transactions that have
written a row which it removes, or a row that refers to one. Then it commits at once.
-/

set_option autoImplicit false

namespace MultiTenantSaas

open Process

def Db.Within (db' db : Db) : Prop := ∀ t id r, db'.get t id = some r → db.get t id = some r

namespace Db.Within

variable {db db' : Db}

theorem mem (h : db'.Within db) {t : Table} {r : t.Row} (hr : r ∈ db'.rows t) : r ∈ db.rows t :=
  (Db.get_eq_some.mp (h t _ r (Db.get_of_mem hr))).1

theorem put (h : db'.Within db) (e : Entry) : (db'.put e).Within (db.put e) := by
  intro t id r hr
  by_cases hs : (t, id) = e.slot
  · obtain ⟨t', x⟩ := e
    cases hs
    exact (Db.get_put_self db _).trans ((Db.get_put_self db' _).symm.trans hr)
  · rw [Db.get_put_of_ne _ hs] at hr ⊢
    exact h t id r hr

theorem apply (h : db'.Within db) (es : List Entry) : (db'.apply es).Within (db.apply es) := by
  induction es generalizing db db' with
  | nil => exact h
  | cons e es ih => exact ih (h.put e)

theorem distinct (h : db'.Within db) (hd : db.Distinct) : db'.Distinct :=
  fun t r z hr hz => hd t r z (h.mem hr) (h.mem hz)

end Db.Within

theorem Db.within_deleteTasks (criteria : Task → Bool) (db : Db) :
    (db.deleteTasks criteria).2.Within db := by
  intro t id r hr
  obtain ⟨hmem, hid⟩ := Db.get_eq_some.mp hr
  exact Db.get_eq_some.mpr ⟨((Db.mem_deleteTasks (e := ⟨t, r⟩)).mp hmem).1, hid⟩

/-- Every committed row that an open transaction has written, or refers to, is in `db'`. -/
def World.Unlocked (w : World) (db' : Db) : Prop :=
  ∀ f ∈ w.pending, ∀ p ∈ f.2.slot :: f.2.table.refs f.2.row,
    (w.db.get p.1 p.2).isSome → (db'.get p.1 p.2).isSome

theorem World.Sound.deleted {w : World} {db' : Db} (h : w.Sound) (hwithin : db'.Within w.db)
    (hclosed : db'.Closed) (hfree : w.Unlocked db') : World.Sound { w with db := db' } where
  wellFormed := by
    refine ⟨h.wellFormed.locks, fun f hf => ?_, hclosed⟩
    have hrefs := h.wellFormed.pendingRefs f hf
    rw [Db.refsExist, List.all_eq_true] at hrefs ⊢
    intro p hp
    have hview := hrefs p hp
    rw [World.view, Db.isSome_apply, Bool.or_eq_true] at hview ⊢
    exact hview.imp_right (hfree f hf p (List.mem_cons_of_mem _ hp))
  distinct := ⟨fun i => (hwithin.apply _).distinct (h.distinct.views i), h.distinct.apart⟩
  fits := ⟨fun t r hr => h.fits.db t r (hwithin.mem hr), h.fits.pending⟩

/-- The job has read the clock before its DELETE, and keeps deleted tasks for `daysThreshold`
days. -/
def Sweep (read : Datetime) (daysThreshold : Int) (w w' : World) : Prop :=
  read.instant ≤ w.now ∧ ∃ count db',
    cleanupSoftDeletedTasksJob read daysThreshold w.db = some (count, db') ∧ w.Unlocked db' ∧
      w' = { w with db := db' }

/-- A worker runs the job whenever it is due, with one of the thresholds. -/
inductive Upkeep (thresholds : Int → Prop) : World → World → Prop where
  | env {w w' : World} : Environment w w' → Upkeep thresholds w w'
  | sweep {w w' : World} (read : Datetime) {daysThreshold : Int} : thresholds daysThreshold →
      Sweep read daysThreshold w w' → Upkeep thresholds w w'

/-- The row is an expired task, or goes with a task that is one or descends from one. -/
def Expires (cutoffTime : Instant) (db : Db) (t : Table) (id : Uuid) : Prop :=
  ∃ row, db.get t id = some row ∧ (Entry.isTask (expired cutoffTime) ⟨t, row⟩ = true ∨
    ∃ task, db.Doomed (expired cutoffTime) task ∧ Entry.owner ⟨t, row⟩ = some task.id)

/-- One sweep removes the row, which expires at its cutoff. -/
def SweptBy (thresholds : Int → Prop) (w w' : World) (t : Table) (id : Uuid) : Prop :=
  ∃ (read : Datetime) (daysThreshold : Int), thresholds daysThreshold ∧
    Sweep read daysThreshold w w' ∧ Expires (read.instant - daysThreshold * day) w.db t id ∧
    w'.db.get t id = none

theorem job_eq_some {read : Datetime} {daysThreshold : Int} {db db' : Db} {count : Nat}
    (h : cleanupSoftDeletedTasksJob read daysThreshold db = some (count, db')) :
    db' = (db.deleteTasks (expired (read.instant - daysThreshold * day))).2 := by
  obtain ⟨cutoff, hcutoff, hret⟩ := Option.bind_eq_some_iff.mp h
  rw [Datetime.minusDays_instant hcutoff] at hret
  cases hret
  rfl

variable {thresholds : Int → Prop}

theorem upkeep_sound {w w' : World} (h : w.Sound) (hu : Upkeep thresholds w w') : w'.Sound := by
  cases hu with
  | env he =>
    cases he <;> exact ⟨⟨h.wellFormed.locks, h.wellFormed.pendingRefs, h.wellFormed.refs⟩,
      h.distinct.same rfl rfl, ⟨h.fits.db, h.fits.pending⟩⟩
  | sweep read _ hsweep =>
    obtain ⟨-, count, db', hjob, hfree, rfl⟩ := hsweep
    rw [job_eq_some hjob] at hfree ⊢
    exact h.deleted (Db.within_deleteTasks _ _) h.wellFormed.refs.deleteTasks hfree

theorem upkeep_loses {w w' : World} (hu : Upkeep thresholds w w') {t : Table} {id : Uuid}
    (hrow : (w.db.get t id).isSome) (hgone : w'.db.get t id = none) :
    SweptBy thresholds w w' t id := by
  obtain ⟨row, hrow⟩ := Option.isSome_iff_exists.mp hrow
  cases hu with
  | env he => cases he <;> cases hrow.symm.trans hgone
  | sweep read hdays hsweep =>
    refine ⟨read, _, hdays, hsweep, ⟨row, hrow, ?_⟩, hgone⟩
    obtain ⟨-, count, db', hjob, -, rfl⟩ := hsweep
    obtain ⟨hmem, hid⟩ := Db.get_eq_some.mp hrow
    rw [job_eq_some hjob] at hgone
    refine (Db.falls_iff (e := ⟨t, row⟩).mp ?_).2
    by_contra hstays
    exact Db.get_eq_none.mp hgone row
      ((Db.mem_deleteTasks (e := ⟨t, row⟩)).mpr ⟨hmem, hstays⟩) hid

section

variable [Library] {faults : Faults} {now : Instant} {c c' : AppConfig}

def deployment (thresholds : Int → Prop) : System sig Exn Response Request World :=
  { exec, env := Upkeep thresholds, code := Request.handle }

theorem deployment_sound (h : Reach (deployment thresholds) anySchedule (genesis faults now) c) :
    c.state.Sound := by
  refine h.invariant (fun d => d.state.Sound) (reached_sound .refl) fun d l d' _ hsound _ hs => ?_
  cases hs with
  | start => exact hsound
  | act _ he =>
    exact ⟨hsound.wellFormed.executed (World.executed he), hsound.distinct.exec he,
      hsound.fits.exec he⟩
  | env he => exact upkeep_sound hsound he

theorem step_loses {l : AppLabel} (hs : Step (deployment thresholds) c l c') {t : Table} {id : Uuid}
    (hrow : (c.state.db.get t id).isSome) (hgone : c'.state.db.get t id = none) :
    SweptBy thresholds c.state c'.state t id := by
  cases hs with
  | start hnone =>
    cases (hgone ▸ hrow : (none : Option t.Row).isSome)
  | @act i r o k a s' ht he =>
    have hnone : s'.db.get t id = none := hgone
    have hkept := exec_keeps he t id hrow
    rw [hnone] at hkept
    cases hkept
  | env he => exact upkeep_loses he hrow hgone

def Swept (thresholds : Int → Prop) (c c' : AppConfig) (t : Table) (id : Uuid) : Prop :=
  ∃ d d' : AppConfig, Reach (deployment thresholds) anySchedule c d ∧
    Step (deployment thresholds) d .env d' ∧ SweptBy thresholds d.state d'.state t id ∧
    Reach (deployment thresholds) anySchedule d' c'

/-- Whatever requests and sweeps interleave, and with whatever thresholds the job is run:
committed rows, and those of every open transaction, refer to rows that are there, have unique
values and fit their columns; and a row that is lost was removed by a sweep with one of the
thresholds, for which it had expired. -/
theorem sweeps_harmless (h₀ : Reach (deployment thresholds) anySchedule (genesis faults now) c)
    (h : Reach (deployment thresholds) anySchedule c c') : c'.state.Sound ∧ ∀ t id,
      (c.state.db.get t id).isSome → c'.state.db.get t id = none → Swept thresholds c c' t id := by
  refine ⟨deployment_sound (h₀.trans h), fun t id hrow => ?_⟩
  induction h with
  | refl =>
    intro hgone
    rw [hgone] at hrow
    cases hrow
  | @step d d' l hr hok hs ih =>
    intro hgone
    by_cases hthere : (d.state.db.get t id).isSome
    · have hlost := step_loses hs hthere hgone
      cases hs with
      | env he => exact ⟨d, _, hr, .env he, hlost, .refl⟩
      | start hnone =>
        cases (hgone ▸ hthere : (none : Option t.Row).isSome)
      | act ht he =>
        have hkept := exec_keeps he t id hthere
        cases hgone ▸ hkept
    · obtain ⟨e, e', hto, hsweep, hswept, hfrom⟩ := ih (by simpa using hthere)
      exact ⟨e, e', hto, hsweep, hswept, hfrom.step hok hs⟩

def awaiting (c : AppConfig) (t : Instant) : AppConfig := ⟨{ c.state with now := t }, c.thread⟩

omit [Library] in
theorem awaiting_db (t : Instant) : (awaiting c t).state.db = c.state.db := rfl

theorem awaiting_reached {t : Instant} (hle : c.state.now ≤ t) :
    Reach (deployment thresholds) anySchedule c (awaiting c t) :=
  Reach.refl.step trivial (.env (.env (.tick c.state t hle)))

theorem awaiting_swept {read : Datetime} {daysThreshold : Int} {count : Nat} {db' : Db}
    (hdays : thresholds daysThreshold) (hidle : c.state.pending = [])
    (hjob : cleanupSoftDeletedTasksJob read daysThreshold c.state.db = some (count, db')) :
    Reach (deployment thresholds) anySchedule (awaiting c read.instant)
      ⟨{ c.state with now := read.instant, db := db' }, c.thread⟩ := by
  refine Reach.refl.step trivial (.env (.sweep read hdays
    ⟨le_refl _, count, db', hjob, fun f hf => ?_, rfl⟩))
  have hnone : f ∈ c.state.pending := hf
  rw [hidle] at hnone
  cases hnone

theorem deployed (h : Reach app anySchedule c c') :
    Reach (deployment thresholds) anySchedule c c' := by
  induction h with
  | refl => exact .refl
  | step _ _ hs ih =>
    cases hs with
    | start hnone => exact ih.step trivial (.start hnone)
    | act ht he => exact ih.step trivial (.act ht he)
    | env he => exact ih.step trivial (.env (.env he))

end

section Example

open scoped Ascii

/-- The sweep takes the first user's deleted task after forty days. -/
theorem launch_swept : ∃ c, c.state.Sound ∧ c.state.db.get .tasks (drawnId 17) = none ∧
    Swept (· = 30) (awaiting launchDeleted day40.instant) c .tasks (drawnId 17) := by
  have hsome : (cleanupSoftDeletedTasksJob day40 30 launchDeleted.state.db).isSome := by
    decide +kernel
  have hgone : ((cleanupSoftDeletedTasksJob day40 30 launchDeleted.state.db).all fun x =>
      (x.2.get .tasks (drawnId 17)).isNone) = true := by decide +kernel
  have hpending : launchDeleted.state.pending.isEmpty = true := by decide +kernel
  have hlate : launchDeleted.state.now ≤ day40.instant := by decide +kernel
  have hthere : (launchDeleted.state.db.get .tasks (drawnId 17)).isSome := by decide +kernel
  obtain ⟨⟨count, db'⟩, hjob⟩ := Option.isSome_iff_exists.mp hsome
  have hoverdue : Reach (deployment (· = 30)) anySchedule (genesis noFaults 0)
      (awaiting launchDeleted day40.instant) :=
    (deployed launchDeleted_reached).trans (awaiting_reached hlate)
  have hstep : Reach (deployment (· = 30)) anySchedule (awaiting launchDeleted day40.instant) _ :=
    awaiting_swept rfl (List.isEmpty_iff.mp hpending) hjob
  rw [hjob] at hgone
  have hnone : db'.get .tasks (drawnId 17) = none := Option.isNone_iff_eq_none.mp hgone
  obtain ⟨hsound, hlost⟩ := sweeps_harmless hoverdue hstep
  rw [awaiting_db] at hlost
  exact ⟨_, hsound, hnone, hlost .tasks (drawnId 17) hthere hnone⟩

end Example

end MultiTenantSaas
