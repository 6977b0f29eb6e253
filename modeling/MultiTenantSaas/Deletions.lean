import MultiTenantSaas.AloneRuns
import MultiTenantSaas.Ownership
import MultiTenantSaas.ProjectVersions
import MultiTenantSaas.Tombstones

/-!
Deleting a task: of all the requests to delete it one is accepted, and what it wrote
into `is_deleted` and `deleted_at` stays.
-/

set_option autoImplicit false

namespace MultiTenantSaas

open Process

/-- What every run keeps of the rows and the open transactions. -/
structure World.Sound (w : World) : Prop where
  wellFormed : w.WellFormed
  distinct : w.Distinct
  fits : w.Fits

theorem World.WellFormed.view_closed {w : World} (h : w.WellFormed) (i : Nat) :
    (w.view i).Closed := by
  intro t r hr
  rcases Db.mem_apply hr with he | ⟨hold, -⟩
  · exact h.pendingRefs (i, ⟨t, r⟩) (World.mem_rows.mp he)
  · exact (w.db.keeps_apply _).refsExist (h.refs t r hold)

section

variable [Library] {faults : Faults} {now : Instant} {c c' : AppConfig}

theorem reached_fits (h : Reach app anySchedule (genesis faults now) c) : c.state.Fits := by
  induction h with
  | refl => exact ⟨fun _ r hr => absurd hr (Db.not_mem_empty r), fun _ hf => nomatch hf⟩
  | step _ _ hs ih =>
    cases hs with
    | start => exact ih
    | act _ he => exact ih.exec he
    | env he => cases he <;> exact ⟨ih.db, ih.pending⟩

theorem reached_sound (h : Reach app anySchedule (genesis faults now) c) : c.state.Sound :=
  ⟨(start_genesis faults now).wellFormed (h.mono fun c l _ => calm_uncovered c l),
    genesis_distinct h, reached_fits h⟩

theorem genesis_invariant_fits {P : Request → Db → Bool} (I : Db → Prop) (h₀ : I .empty)
    (hstep : ∀ r db es, I db → r.Writes uncovered db es →
      (∀ e ∈ es, e.table.fits e.row = true) → P r db = true → I (db.apply es))
    (h : Reach app (Committing P) (genesis faults now) c) : I c.state.db := by
  have hfits : Reach app (fun d l => Committing P d l ∧ d.state.Fits) (genesis faults now) c :=
    h.strengthen fun d l d' hr hok _ => ⟨hok, reached_fits (hr.mono fun _ _ _ => trivial)⟩
  obtain ⟨hhist, hcommits⟩ := (start_genesis faults now).history
    (P := fun r db es => P r db = true ∧ ∀ e ∈ es, e.table.fits e.row = true)
    (fun c l _ => calm_uncovered c l)
    (fun d i r k hok ht => ⟨hok.1 r k ht, fun e he => hok.2.pending (i, e) (World.mem_rows.mp he)⟩)
    hfits
  refine hhist.invariant I h₀ fun d hd hI => ?_
  obtain ⟨-, r, k, -, hw, hp, hfit⟩ := hcommits d hd
  exact hstep r d.before d.written hI hw hfit hp

/-- How an operation may answer in a reachable state. -/
def Replies (faults : Faults) (o : Op) (a : Except Exn o.Resp) : Prop :=
  ∃ (i : Nat) (w w' : World), w.Sound ∧ w.faults = faults ∧ exec i o w a w'

def Exn.Down (faults : Faults) (e : Exn) : Prop := faults.database = true ∧ e = .unavailable

variable {E : Exn → Prop}

theorem raises_lookup {ρ : Type} {q : Db → List ρ} (hdown : ∀ e : Exn, e.Down faults → E e)
    (hone : ∀ (w : World) i, w.Sound → (q (w.view i)).length ≤ 1) :
    Raises (Replies faults) E (selectOne q) := by
  refine Prog.Ends.bind fun a ha => ?_
  obtain ⟨i, w, w', hsound, hfaults, -, hrows | ⟨hfaulty, rfl⟩⟩ := ha
  · obtain ⟨rows, rfl, hperm⟩ := hrows
    have hlen := hperm.length_eq ▸ hone w i hsound
    match rows, hlen with
    | [], _ => exact nofun
    | [_], _ => exact nofun
  · rintro e he
    cases he
    exact hdown _ ⟨hfaults ▸ hfaulty, rfl⟩

omit [Library] in
theorem length_keyed_le (t : Table) (id : Uuid) (p : t.Row → Bool) (db : Db) :
    (rowsWhere t (fun r => decide (t.id r = id) && p r) db).length ≤ 1 := by
  rw [rowsWhere_id_and]
  cases (db.get t id).filter p <;> simp

omit [Library] in
theorem length_valued_le {db : Db} (h : db.Distinct) {t : Table} {p : t.Row → Bool} {k : UniqueKey}
    (hp : ∀ r, p r = true → t.uniqueKey r = some k) : (rowsWhere t p db).length ≤ 1 := by
  have hnodup : (rowsWhere t p db).Nodup := (List.Nodup.of_map _ (db.rows t).nodup).filter _
  have heq : ∀ r ∈ rowsWhere t p db, ∀ z ∈ rowsWhere t p db, r = z := by
    intro r hr z hz
    obtain ⟨hr, hpr⟩ := mem_rowsWhere.mp hr
    obtain ⟨hz, hpz⟩ := mem_rowsWhere.mp hz
    exact h t r z hr hz k (hp r hpr) (hp z hpz)
  match rowsWhere t p db, hnodup, heq with
  | [], _, _ => simp
  | [_], _, _ => simp
  | r :: z :: _, hnodup, heq =>
    have hrz : r = z := heq r (by simp) z (by simp)
    simp [hrz] at hnodup

omit [Library] in
theorem length_memberships_le {db : Db} (h : db.Distinct) (o userId : Uuid) :
    (memberships db o userId).length ≤ 1 :=
  length_valued_le h (k := .orgMemberUser o userId) fun m hm => by
    simp only [Bool.and_eq_true, decide_eq_true_eq] at hm
    simp [Table.uniqueKey, hm]

theorem raises_getById (hdown : ∀ e : Exn, e.Down faults → E e) (t : Table) (o id : Uuid) :
    Raises (Replies faults) E (getById t o id) :=
  raises_lookup hdown fun _ _ _ => length_keyed_le t id _ _

theorem raises_admission {minRole : OrgRole} (hdown : ∀ e : Exn, e.Down faults → E e)
    (hcaller :
      ∀ e ∈ [credentialsException, inactiveUser, notAMember, insufficientRole minRole], E e)
    (bearer : Token) (o : Uuid) : Raises (Replies faults) E (requireRole minRole bearer o) := by
  refine raises_requireRole ?_ (fun id => raises_lookup hdown fun w i _ => ?_)
    (fun o id => raises_lookup hdown fun w i hw => length_memberships_le (hw.distinct.views i) o id)
    hcaller bearer o
  · rintro a ⟨i, w, w', -, -, rfl, -⟩
    exact nofun
  · rw [rowsWhere_id]
    cases (w.view i).get .users id <;> simp

theorem replies_commit (hdown : ∀ e : Exn, e.Down faults → E e) :
    ∀ a, Replies faults .commit a → ∀ e, a = .error e → E e := by
  rintro a ⟨i, w, w', -, hfaults, ⟨rfl, -⟩ | ⟨-, hfaulty, rfl⟩⟩ e he
  · cases he
  · cases he
    exact hdown _ ⟨hfaults ▸ hfaulty, rfl⟩

theorem replies_rollback : ∀ a, Replies faults .rollback a → ∀ e, a = .error e → E e := by
  rintro a ⟨i, w, w', -, -, rfl, -⟩
  exact nofun

omit [Library] in
theorem markDeleted_legal {w : World} {i : Nat} {taskId : Uuid} {old : Task} {at' : Instant}
    (hw : w.Sound) (hold : (w.view i).get .tasks taskId = some old) :
    World.violation (w.view i) .tasks (Task.markDeleted at' old) = none := by
  have hmem := (Db.get_eq_some.mp hold).1
  have hfits : Table.tasks.fits old = true := hw.fits.view i hmem
  have hrefs : (w.view i).refsExist .tasks old = true := hw.wellFormed.view_closed i _ _ hmem
  change Table.tasks.fits (Task.markDeleted at' old) = true at hfits
  change (w.view i).refsExist .tasks (Task.markDeleted at' old) = true at hrefs
  simp [World.violation, hfits, hrefs, Db.uniqueFree, Table.uniqueKey]

theorem raises_softDelete (hdown : ∀ e : Exn, e.Down faults → E e) (o taskId : Uuid) :
    Raises (Replies faults) E (softDelete o taskId) := by
  refine raises_bind (raises_ask ?_) fun row => raises_pure
  rintro a ⟨i, w, w', hw, hfaults, he | ⟨-, hfaulty, rfl⟩⟩ e he'
  · exfalso
    subst he'
    unfold World.update at he
    split at he
    · cases he
    · next old hold =>
      split at he
      · cases he
      · split at he
        · cases he
        · rw [markDeleted_legal hw hold] at he
          cases he
  · cases he'
    exact hdown _ ⟨hfaults ▸ hfaulty, rfl⟩

/-- How a request to delete the task ends when it is not accepted: the tenant has no such
task, the caller is refused, or the database is not there. -/
def Exn.OfDeletion (faults : Faults) (taskId : Uuid) (e : Exn) : Prop :=
  e = .entityNotFound taskEntity taskId.str ∨
    e ∈ [credentialsException, inactiveUser, notAMember, insufficientRole .member] ∨ e.Down faults

theorem raises_deleteTask (bearer : Token) (o taskId : Uuid) :
    Raises (Replies faults) (Exn.OfDeletion faults taskId)
      (Request.tenant bearer o (.deleteTask taskId)).handle := by
  have hdown : ∀ e : Exn, e.Down faults → e.OfDeletion faults taskId := fun _ he =>
    Or.inr (Or.inr he)
  refine raises_withDbSession replies_rollback (raises_bind
    (raises_admission hdown (fun _ he => Or.inr (Or.inl he)) bearer o) fun ctx =>
      raises_bind (raises_bind (raises_getById hdown .tasks ctx.organizationId taskId) fun task =>
        ?_) fun _ => raises_pure)
  cases task with
  | none => exact raises_throw (Or.inl rfl)
  | some task =>
    refine raises_bind (raises_softDelete hdown _ _) fun success => ?_
    have hrest : Raises (Replies faults) (Exn.OfDeletion faults taskId) (do
        ask .commit
        broadcastToRoom (Task.projectId task) "TASK_DELETED".toList
          [("task_id".toList, .str taskId.str)]) :=
      raises_bind (raises_ask (replies_commit hdown)) fun _ =>
        raises_tryCatch (raises_ask fun _ _ _ _ => trivial)
          fun _ _ => raises_pure
    cases success with
    | true => exact hrest
    | false => exact raises_bind (raises_throw (Or.inl rfl)) fun _ => hrest

omit [Library] in
theorem History.lasts {db₀ db : Db} {ds : List Commit} {I : Db → Prop}
    (hkeep : ∀ d ∈ ds, I d.before → I (d.before.apply d.written)) (h : History db₀ ds db)
    {d : Commit} (hd : d ∈ ds) (hI : I (d.before.apply d.written)) : I db := by
  induction ds generalizing db with
  | nil => cases hd
  | cons e ds ih =>
    obtain ⟨rfl, h⟩ := h
    rcases List.mem_cons.mp hd with rfl | hd
    · exact hI
    · exact hkeep e List.mem_cons_self
        (ih (fun f hf => hkeep f (List.mem_cons_of_mem _ hf)) h hd)

omit [Library] in
theorem History.once {db₀ db : Db} {ds : List Commit} {I : Db → Prop}
    (hkeep : ∀ d ∈ ds, I d.before → I (d.before.apply d.written)) (h : History db₀ ds db)
    {d e : Commit} (hd : d ∈ ds) (he : e ∈ ds) (hdb : ¬ I d.before)
    (hda : I (d.before.apply d.written)) (heb : ¬ I e.before)
    (hea : I (e.before.apply e.written)) : d = e := by
  induction ds generalizing db with
  | nil => cases hd
  | cons f ds ih =>
    obtain ⟨rfl, h⟩ := h
    have hkeep' : ∀ d ∈ ds, I d.before → I (d.before.apply d.written) :=
      fun d hd => hkeep d (List.mem_cons_of_mem _ hd)
    rcases List.mem_cons.mp hd with rfl | hdt <;> rcases List.mem_cons.mp he with rfl | het
    · rfl
    · exact absurd (h.lasts hkeep' het hea) hdb
    · exact absurd (h.lasts hkeep' hdt hda) heb
    · exact ih hkeep' h hdt het

/-- One deletion of the task. -/
structure DeletedOnce (taskId : Uuid) (c : AppConfig) : Prop where
  once : ∀ i bearer o a j bearer' o' a',
    c.thread i = some ⟨.tenant bearer o (.deleteTask taskId), .done (.ok a)⟩ →
    c.thread j = some ⟨.tenant bearer' o' (.deleteTask taskId), .done (.ok a')⟩ → i = j
  others : ∀ i bearer o e,
    c.thread i = some ⟨.tenant bearer o (.deleteTask taskId), .done (.error e)⟩ →
    e.OfDeletion c.state.faults taskId
  accepted : ∀ i bearer o a,
    c.thread i = some ⟨.tenant bearer o (.deleteTask taskId), .done (.ok a)⟩ →
    Deleted taskId c.state.db

def Stamped (db : Db) : Prop :=
  ∀ task ∈ db.rows .tasks, Task.isDeleted task = true ↔ (Task.deletedAt task).isSome = true

theorem Stamped.writes {calm : Table → Uuid → Prop} {db : Db} {es : List Entry} {r : Request}
    (h : Stamped db) (hw : r.Writes calm db es) : Stamped (db.apply es) := by
  intro row hrow
  have hmarked : ∀ b at', Task.mark row = (b, at') → (b = true ↔ at'.isSome = true) →
      (Task.isDeleted row = true ↔ (Task.deletedAt row).isSome = true) := by
    rintro b at' hmark hb
    cases hmark
    exact hb
  rcases Db.mem_apply hrow with hmem | ⟨hold, -⟩
  · rcases hw.mark hmem with ⟨-, hmark⟩ | ⟨old, hold, hmark | ⟨-, at', hmark⟩⟩
    · exact hmarked _ _ hmark (by simp)
    · exact hmarked _ _ hmark (h old (Db.get_eq_some.mp hold).1)
    · exact hmarked _ _ hmark (by simp)
  · exact h row hold

theorem reached_stamped (h : Reach app anySchedule (genesis faults now) c) : Stamped c.state.db :=
  genesis_invariant Stamped (fun _ hrow => absurd hrow (Db.not_mem_empty _))
    (fun _ _ _ hI hw _ _ => hI.writes hw) (committing_unconditional h)

variable {taskId : Uuid}

theorem Request.Writes.deletes {calm : Table → Uuid → Prop} {db : Db} {es : List Entry}
    {bearer : Token} {o : Uuid}
    (hw : (Request.tenant bearer o (.deleteTask taskId)).Writes calm db es) :
    ¬ Deleted taskId db ∧ Deleted taskId (db.apply es) := by
  obtain ⟨user, role, -, current, at', hget, -, hlive, rfl⟩ := hw
  have hid : current.id = taskId := (Db.get_eq_some.mp hget).2
  refine ⟨?_, Task.markDeleted at' current, ?_, rfl⟩
  · rintro ⟨task, htask, hdel⟩
    cases hget.symm.trans htask
    rw [hlive] at hdel
    cases hdel
  · rw [← hid]
    exact Db.get_put_self db ⟨.tasks, Task.markDeleted at' current⟩

/-- Whatever requests run, one request to delete a task is accepted, the others end in the
not-found error, a refusal of the caller or a failure of the database, and the mark of the
deletion stays as it was set. -/
theorem task_deleted_once (h₀ : Reach app anySchedule (genesis faults now) c)
    (h : Reach app anySchedule c c') :
    DeletedOnce taskId c' ∧ Stamped c'.state.db ∧
    ∀ task, c.state.db.get .tasks taskId = some task →
      (Task.isDeleted task = true ∨ (Task.deletedAt task).isSome = true) →
      ∃ task', c'.state.db.get .tasks taskId = some task' ∧ Task.mark task' = Task.mark task := by
  have hreach := h₀.trans h
  have hcalm : Reach app (Calm uncovered) (genesis faults now) c' :=
    hreach.mono fun c l _ => calm_uncovered c l
  obtain ⟨hhist, hcommits⟩ := (start_genesis faults now).history (P := fun _ _ _ => True)
    (fun _ _ hok => hok) (fun _ _ _ _ _ _ => trivial) hcalm
  have hkeep : ∀ d ∈ c'.state.commits, Deleted taskId d.before →
      Deleted taskId (d.before.apply d.written) := by
    intro d hd hdel
    obtain ⟨-, r, k, -, hw, -⟩ := hcommits d hd
    exact hw.deleted hdel
  have haccepted : ∀ i bearer o a,
      c'.thread i = some ⟨.tenant bearer o (.deleteTask taskId), .done (.ok a)⟩ →
      ∃ d ∈ c'.state.commits, d.session = i ∧ ¬ Deleted taskId d.before ∧
        Deleted taskId (d.before.apply d.written) := by
    intro i bearer o a ht
    obtain ⟨d, hd, hi⟩ := ((start_genesis faults now).answered hcalm ht trivial).commit
    obtain ⟨-, r, k, ht', hw, -⟩ := hcommits d hd
    rw [hi, ht] at ht'
    cases ht'
    exact ⟨d, hd, hi, hw.deletes⟩
  refine ⟨⟨?_, ?_, ?_⟩, reached_stamped hreach, ?_⟩
  · intro i bearer o a j bearer' o' a' hti htj
    obtain ⟨d, hd, rfl, hdb, hda⟩ := haccepted i bearer o a hti
    obtain ⟨e, he, rfl, heb, hea⟩ := haccepted j bearer' o' a' htj
    rw [hhist.once hkeep hd he hdb hda heb hea]
  · intro i bearer o e ht
    have hends := hreach.ends (L := fun _ _ => Replies faults) (E := fun _ r a => ∀ bearer o e,
        r = .tenant bearer o (.deleteTask taskId) → a = .error e → e.OfDeletion faults taskId)
      (fun _ => rfl) (fun c i r _ => ?_) (fun d i r o k a w' hr _ he =>
        ⟨i, _, w', reached_sound hr, reached_faults hr, he⟩) ht
    · rw [reached_faults hreach]
      exact hends bearer o e rfl rfl
    · by_cases hr : ∃ bearer o, r = .tenant bearer o (.deleteTask taskId)
      · obtain ⟨bearer, o, rfl⟩ := hr
        exact (raises_deleteTask bearer o taskId).mono fun a ha _ _ e _ he => ha e he
      · exact (Prog.ends_any _).mono fun a _ bearer o e hr' _ => absurd ⟨_, _, hr'⟩ hr
  · intro i bearer o a ht
    obtain ⟨d, hd, -, -, hda⟩ := haccepted i bearer o a ht
    exact hhist.lasts hkeep hd hda
  · intro task hget hset
    have hdel : Task.isDeleted task = true :=
      hset.elim id (reached_stamped h₀ task (Db.get_eq_some.mp hget).1).mpr
    obtain ⟨task', hget', hmark⟩ := reached_marked h₀ h ⟨task, hget, Prod.ext hdel rfl⟩
    exact ⟨task', hget', hmark.trans (Prod.ext hdel.symm rfl)⟩

end

section

open scoped Ascii

def deletion : Request := asAnn (.deleteTask (drawnId 17))

/-- Two requests delete the same task, and both find it before either marks it. -/
def racedDeletions : AppConfig :=
  runMoves (genesis noFaults 0) (annsProject ++ solo 3 (asAnn apolloTask) ++
    [.start 4 deletion, .start 5 deletion] ++ List.replicate 4 (.act 4 false) ++
    List.replicate 4 (.act 5 false) ++ List.replicate 9 (.act 4 false) ++
    List.replicate 9 (.act 5 false))

/-- The one that marks the task first is accepted, and a third request leaves the mark. -/
theorem raced_deleted_once : accepted racedDeletions 4 = true ∧
    DeletedOnce (drawnId 17) racedDeletions ∧
    Marked (drawnId 17) (some 0) (runMoves racedDeletions (solo 6 deletion)).state.db := by
  have hreach : Reach app anySchedule (genesis noFaults 0) racedDeletions :=
    runMoves_any fun _ => rfl
  have hmark : (racedDeletions.state.db.get .tasks (drawnId 17)).any
      (fun task => decide (Task.mark task = (true, some 0))) = true := by decide +kernel
  obtain ⟨task, hget, htask⟩ := (Option.any_eq_true _ _).mp hmark
  have htask : Task.mark task = (true, some 0) := of_decide_eq_true htask
  obtain ⟨task', hget', hkept⟩ := (task_deleted_once hreach runMoves_path).2.2 task hget
    (Or.inl (congrArg Prod.fst htask))
  exact ⟨by decide +kernel, (task_deleted_once hreach .refl).1, task', hget', hkept.trans htask⟩

end

end MultiTenantSaas
