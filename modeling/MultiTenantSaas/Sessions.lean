import MultiTenantSaas.World

/-!
What the operations do to the database: rows never disappear, the columns that tie
them together never change, a row written by an open transaction is locked, and
foreign keys hold.
-/

set_option autoImplicit false

namespace MultiTenantSaas

/-- A row without the columns that some statement of the application assigns. -/
def Table.frozen : (t : Table) → t.Row → t.Row
  | .organizations, (o : Organization) => { o with name := [], logoUrl := none, updatedAt := 0 }
  | .projects, (p : Project) =>
    { p with name := [], description := none, teamId := none, isArchived := false, versionId := 0,
             updatedAt := 0 }
  | .tasks, (t : Task) =>
    { t with title := [], description := none, status := .backlog, priority := .low,
             assigneeId := none, dueDate := none, versionId := 0, updatedAt := 0,
             isDeleted := false, deletedAt := none }
  | .comments, (c : Comment) => { c with content := [], isEdited := false, updatedAt := 0 }
  | .users, r | .organizationMembers, r | .teams, r | .teamMembers, r | .attachments, r
  | .auditLogs, r => r

@[simp] theorem Table.id_frozen (t : Table) (r : t.Row) : t.id (t.frozen r) = t.id r := by
  cases t <;> rfl

@[simp] theorem Table.org_frozen (t : Table) (r : t.Row) : t.org (t.frozen r) = t.org r := by
  cases t <;> rfl

theorem Table.id_of_frozen {t : Table} {r s : t.Row} (h : t.frozen r = t.frozen s) :
    t.id r = t.id s := by rw [← t.id_frozen r, h, t.id_frozen]

theorem Table.org_of_frozen {t : Table} {r s : t.Row} (h : t.frozen r = t.frozen s) :
    t.org r = t.org s := by rw [← t.org_frozen r, h, t.org_frozen]

/-- Every row is still there, with the same frozen columns. -/
def Extends (db db' : Db) : Prop :=
  ∀ t id r, db.get t id = some r → ∃ r', db'.get t id = some r' ∧ t.frozen r' = t.frozen r

theorem Extends.refl (db : Db) : Extends db db := fun _ _ r h => ⟨r, h, rfl⟩

theorem Extends.trans {db db' db'' : Db} (h : Extends db db') (h' : Extends db' db'') :
    Extends db db'' := by
  intro t id r hr
  obtain ⟨r', hr', hf⟩ := h t id r hr
  obtain ⟨r'', hr'', hf'⟩ := h' t id r' hr'
  exact ⟨r'', hr'', hf'.trans hf⟩

theorem Extends.frozen {db db' : Db} (h : Extends db db') {t : Table} {id : Uuid} {r r' : t.Row}
    (hr : db.get t id = some r) (hr' : db'.get t id = some r') : t.frozen r' = t.frozen r := by
  obtain ⟨s, hs, hf⟩ := h t id r hr
  rw [hr'] at hs
  rw [Option.some.inj hs, hf]

theorem Extends.mem {db db' : Db} (h : Extends db db') {t : Table} {r : t.Row}
    (hfix : ∀ s : t.Row, t.frozen s = s) (hr : r ∈ db.rows t) : r ∈ db'.rows t := by
  obtain ⟨r', hr', hf⟩ := h t (t.id r) r (Db.get_of_mem hr)
  rw [hfix, hfix] at hf
  exact hf ▸ (Db.get_eq_some.mp hr').1

theorem Extends.mem_frozen {db db' : Db} (h : Extends db db') {t : Table} {r : t.Row}
    (hr : r ∈ db.rows t) : ∃ r' ∈ db'.rows t, t.frozen r' = t.frozen r := by
  obtain ⟨r', hr', hf⟩ := h t (t.id r) r (Db.get_of_mem hr)
  exact ⟨r', (Db.get_eq_some.mp hr').1, hf⟩

namespace Db

def Closed (db : Db) : Prop := ∀ t, ∀ r ∈ db.rows t, db.refsExist t r = true

def Keeps (db db' : Db) : Prop := ∀ t id, (db.get t id).isSome → (db'.get t id).isSome

theorem Keeps.refsExist {db db' : Db} (h : db.Keeps db') {t : Table} {r : t.Row}
    (hr : db.refsExist t r = true) : db'.refsExist t r = true := by
  simp only [Db.refsExist, List.all_eq_true] at hr ⊢
  exact fun p hp => h p.1 p.2 (hr p hp)

theorem isSome_put {db : Db} {e : Entry} {t : Table} {id : Uuid} :
    ((db.put e).get t id).isSome = (decide (e.slot = (t, id)) || (db.get t id).isSome) := by
  by_cases h : e.slot = (t, id)
  · obtain ⟨t', r⟩ := e
    simp only [Entry.slot, Entry.id, Prod.mk.injEq] at h
    obtain ⟨rfl, rfl⟩ := h
    have hget := get_put_self db ⟨t', r⟩
    simp only [Entry.id] at hget
    simp [hget, Entry.slot, Entry.id]
  · rw [get_put_of_ne db (Ne.symm h)]
    simp [h]

theorem isSome_apply {db : Db} {es : List Entry} {t : Table} {id : Uuid} :
    ((db.apply es).get t id).isSome = (es.any (fun e => decide (e.slot = (t, id))) ||
      (db.get t id).isSome) := by
  induction es generalizing db with
  | nil => simp
  | cons e es ih =>
    change (((db.put e).apply es).get t id).isSome = _
    rw [ih, isSome_put, List.any_cons]
    cases decide (e.slot = (t, id)) <;> simp

theorem keeps_apply (db : Db) (es : List Entry) : db.Keeps (db.apply es) := by
  intro t id h
  rw [isSome_apply, h, Bool.or_true]

theorem Keeps.apply {db db' : Db} (h : db.Keeps db') (es fs : List Entry) :
    (db.apply es).Keeps (db'.apply (es ++ fs)) := by
  intro t id hs
  rw [isSome_apply, Bool.or_eq_true] at hs
  rw [isSome_apply, List.any_append, Bool.or_eq_true, Bool.or_eq_true]
  rcases hs with he | hd
  · exact Or.inl (Or.inl he)
  · exact Or.inr (h t id hd)

theorem get_apply_append_self (db : Db) (es : List Entry) (e : Entry) :
    (db.apply (es ++ [e])).get e.table e.id = some e.row := by
  rw [apply_append]
  exact get_put_self _ e

end Db

theorem extends_apply {db : Db} {es : List Entry}
    (h : ∀ e ∈ es, ∀ old, db.get e.table e.id = some old →
      e.table.frozen e.row = e.table.frozen old) :
    Extends db (db.apply es) := by
  intro t id r hr
  have hsome : ((db.apply es).get t id).isSome := db.keeps_apply es t id (by simp [hr])
  obtain ⟨r', hr'⟩ := Option.isSome_iff_exists.mp hsome
  refine ⟨r', hr', ?_⟩
  obtain ⟨hmem, hid⟩ := Db.get_eq_some.mp hr'
  rcases Db.mem_apply hmem with he | ⟨hold, -⟩
  · exact h ⟨t, r'⟩ he r (by simpa [Entry.id, hid] using hr)
  · have hget := Db.get_of_mem hold
    rw [hid, hr] at hget
    rw [Option.some.inj hget]

def Op.quiet : Op → Bool
  | .insert _ _ | .flushUpdate _ _ _ | .updateWhere _ _ _ _ | .commit | .rollback => false
  | _ => true

/-- An UPDATE leaves the frozen columns alone. -/
def Op.Freezes : Op → Prop
  | .flushUpdate t _ set | .updateWhere t _ _ set => ∀ now r, t.frozen (set now r) = t.frozen r
  | _ => True

namespace World

variable {w w' : World} {i j : Nat}

theorem mem_rows {e : Entry} : e ∈ w.rows i ↔ (i, e) ∈ w.pending := by
  simp [rows]

structure WellFormed (w : World) : Prop where
  locks : ∀ f ∈ w.pending, ∀ g ∈ w.pending, f.1 ≠ g.1 → f.2.slot ≠ g.2.slot
  pendingRefs : ∀ f ∈ w.pending, (w.view f.1).refsExist f.2.table f.2.row = true
  refs : w.db.Closed

/-- Rows of open transactions keep the frozen columns of the rows they overwrite. -/
def Frozen (w : World) : Prop := ∀ f ∈ w.pending, ∀ old,
  w.db.get f.2.table f.2.id = some old → f.2.table.frozen f.2.row = f.2.table.frozen old

theorem Frozen.view (h : w.Frozen) (i : Nat) : Extends w.db (w.view i) :=
  extends_apply fun e he => h (i, e) (mem_rows.mp he)

/-- What an operation of session `i` does to the database and the open
transactions. -/
inductive Effect (i : Nat) (o : Op) (w w' : World) : Prop where
  | none : w'.db = w.db → w'.pending = w.pending → Effect i o w w'
  | wrote (e : Entry) : o.quiet = false → w'.db = w.db → w'.pending = w.pending ++ [(i, e)] →
      (∀ f ∈ w.pending, f.1 ≠ i → f.2.slot ≠ e.slot) →
      (w.view i).refsExist e.table e.row = true →
      (o.Freezes → ∀ old, (w.view i).get e.table e.id = some old →
        e.table.frozen e.row = e.table.frozen old) → Effect i o w w'
  | ended : o.quiet = false → w'.db = w.db →
      w'.pending = w.pending.filter (fun f => f.1 ≠ i) → Effect i o w w'
  | committed : o = .commit → w'.db = w.db.apply (w.rows i) →
      w'.pending = w.pending.filter (fun f => f.1 ≠ i) → Effect i o w w'

/-- One execution: its effect on the database, and what it leaves alone. -/
structure Executed (i : Nat) (o : Op) (w w' : World) : Prop where
  effect : Effect i o w w'
  history : (w'.db = w.db ∧ w'.commits = w.commits) ∨
    (o = .commit ∧ w'.db = w.db.apply (w.rows i) ∧
      w'.commits = ⟨i, w.db, w.rows i⟩ :: w.commits)
  trace : w.trace ⊆ w'.trace
  faults : w'.faults = w.faults

theorem Executed.of_db {o : Op} (hdb : w'.db = w.db) (hp : w'.pending = w.pending)
    (hc : w'.commits = w.commits) (ht : w.trace ⊆ w'.trace) (hf : w'.faults = w.faults) :
    Executed i o w w' := ⟨.none hdb hp, Or.inl ⟨hdb, hc⟩, ht, hf⟩

theorem Executed.refl {o : Op} : Executed i o w w := .of_db rfl rfl rfl (fun _ h => h) rfl

theorem Executed.log {o : Op} {e : Event} (he : Event.committed (i, e) = Option.none) :
    Executed i o w (w.log i e) :=
  .of_db rfl rfl (List.filterMap_cons_none he) (fun _ h => List.mem_cons_of_mem _ h) rfl

theorem not_blocked {e : Entry} (h : w.blocked i e = false) :
    ∀ f ∈ w.pending, f.1 ≠ i → f.2.slot ≠ e.slot := by
  intro f hf hi hs
  have hb := List.any_eq_false.mp h f hf
  simp [hi, hs] at hb

theorem refsExist_of_violation {db : Db} {t : Table} {r : t.Row} (h : violation db t r = none) :
    db.refsExist t r = true := by
  unfold violation at h
  split at h
  · cases h
  · split at h
    · cases h
    · next hv => simp at hv; exact hv.2

theorem insert_cases {t : Table} {values : Uuid → Instant → t.Row} {id : Uuid}
    {a : Except Exn t.Row} (h : w.insert i t values id = some (a, w')) :
    (∃ e, a = .error e ∧ w' = { w with drawn := id :: w.drawn }) ∨
    (a = .ok (values id w.now) ∧
      w' = { w with drawn := id :: w.drawn }.write i ⟨t, values id w.now⟩ ∧
      w.blocked i ⟨t, values id w.now⟩ = false ∧
      (w.view i).get t (t.id (values id w.now)) = none ∧
      violation (w.view i) t (values id w.now) = none) := by
  unfold insert at h
  simp only at h
  split at h
  · cases h
  · next hb =>
    split at h
    · cases h; exact Or.inl ⟨_, rfl, rfl⟩
    · next hs =>
      split at h
      · cases h; exact Or.inl ⟨_, rfl, rfl⟩
      · next hv =>
        cases h
        exact Or.inr ⟨rfl, rfl, by simpa using hb, by simpa using hs, hv⟩

theorem update_cases {t : Table} {id : Uuid} {criteria : t.Row → Bool}
    {set : Instant → t.Row → t.Row} {a : Except Exn (Option t.Row)}
    (h : w.update i t id criteria set = some (a, w')) :
    (w' = w ∧ ∀ r, a ≠ .ok (some r)) ∨
    (∃ old, (w.view i).get t id = some old ∧ criteria old = true ∧
      a = .ok (some (set w.now old)) ∧ w' = w.write i ⟨t, set w.now old⟩ ∧
      w.blocked i ⟨t, set w.now old⟩ = false ∧ violation (w.view i) t (set w.now old) = none) := by
  unfold update at h
  split at h
  · cases h; exact Or.inl ⟨rfl, by simp⟩
  · next old hold =>
    split at h
    · cases h; exact Or.inl ⟨rfl, by simp⟩
    · next hc =>
      split at h
      · cases h
      · next hb =>
        split at h
        · cases h; exact Or.inl ⟨rfl, by simp⟩
        · next hv =>
          cases h
          simp only [Bool.or_eq_true, not_or, Bool.not_eq_true] at hb
          exact Or.inr ⟨old, hold, by simpa using hc, rfl, rfl, hb.2, hv⟩

theorem flushUpdate_cases {t : Table} {id : Uuid} {set : Instant → t.Row → t.Row}
    {a : Except Exn Unit} (h : w.flushUpdate i t id set = some (a, w')) :
    (w' = w ∧ ∃ e, a = .error e) ∨
    (∃ old, (w.view i).get t id = some old ∧ a = .ok () ∧ w' = w.write i ⟨t, set w.now old⟩ ∧
      w.blocked i ⟨t, set w.now old⟩ = false ∧ violation (w.view i) t (set w.now old) = none) := by
  unfold flushUpdate at h
  obtain ⟨⟨b, v⟩, hu, hp⟩ := Option.map_eq_some_iff.mp h
  rcases update_cases hu with ⟨rfl, hb⟩ | ⟨old, hold, -, rfl, rfl, hblocked, hv⟩
  · match b, hp with
    | .error e, hp => cases hp; exact Or.inl ⟨rfl, _, rfl⟩
    | .ok none, hp => cases hp; exact Or.inl ⟨rfl, _, rfl⟩
    | .ok (some r), _ => exact absurd rfl (hb r)
  · cases hp
    exact Or.inr ⟨old, hold, rfl, rfl, hblocked, hv⟩

theorem Executed.overwrite {o : Op} {t : Table} {id : Uuid} {old r : t.Row}
    (hq : o.quiet = false) (hold : (w.view i).get t id = some old)
    (hf : o.Freezes → t.frozen r = t.frozen old) (hb : w.blocked i ⟨t, r⟩ = false)
    (hv : violation (w.view i) t r = Option.none) : Executed i o w (w.write i ⟨t, r⟩) := by
  refine ⟨.wrote ⟨t, r⟩ hq rfl rfl (not_blocked hb) (refsExist_of_violation hv) fun ho old' h => ?_,
    Or.inl ⟨rfl, rfl⟩, fun _ h => h, rfl⟩
  have hid : t.id r = id := by rw [Table.id_of_frozen (hf ho)]; exact (Db.get_eq_some.mp hold).2
  simp only [Entry.id, hid] at h
  rw [hold] at h
  rw [hf ho, Option.some.inj h]

/-- What every operation does, said once. -/
theorem executed [Library] {o : Op} {a : Except Exn o.Resp} (h : exec i o w a w') :
    Executed i o w w' := by
  cases o <;> simp only [exec] at h
  case insert t values =>
    rcases h with ⟨id, -, h⟩ | ⟨rfl, -⟩
    · rcases insert_cases h with ⟨e, -, rfl⟩ | ⟨-, rfl, hb, hnew, hv⟩
      · exact .of_db rfl rfl rfl (fun _ h => h) rfl
      · refine ⟨.wrote _ rfl rfl rfl (not_blocked hb) (refsExist_of_violation hv) fun _ old h => ?_,
          Or.inl ⟨rfl, rfl⟩, fun _ h => h, rfl⟩
        exact absurd (hnew.symm.trans h) (by simp)
    · exact .refl
  case flushUpdate t id set =>
    rcases h with h | ⟨rfl, -⟩
    · rcases flushUpdate_cases h with ⟨rfl, -⟩ | ⟨old, hold, -, rfl, hb, hv⟩
      · exact .refl
      · exact .overwrite rfl hold (fun ho => ho _ _) hb hv
    · exact .refl
  case updateWhere t id criteria set =>
    rcases h with h | ⟨rfl, -⟩
    · rcases update_cases h with ⟨rfl, -⟩ | ⟨old, hold, -, -, rfl, hb, hv⟩
      · exact .refl
      · exact .overwrite rfl hold (fun ho => ho _ _) hb hv
    · exact .refl
  case commit =>
    rcases h with ⟨-, rfl⟩ | ⟨rfl, -⟩
    · exact ⟨.committed rfl rfl rfl, Or.inr ⟨rfl, rfl, rfl⟩,
        fun _ h => List.mem_cons_of_mem _ h, rfl⟩
    · exact ⟨.ended rfl rfl rfl, Or.inl ⟨rfl, rfl⟩, fun _ h => h, rfl⟩
  case rollback =>
    obtain ⟨-, rfl⟩ := h
    exact ⟨.ended rfl rfl rfl, Or.inl ⟨rfl, rfl⟩, fun _ h => List.mem_cons_of_mem _ h, rfl⟩
  case uuid4 => obtain ⟨u, -, -, rfl⟩ := h; exact .of_db rfl rfl rfl (fun _ h => h) rfl
  case clock | perfCounter => obtain ⟨-, rfl⟩ := h; exact .refl
  case hubConnect | hubDisconnect =>
    obtain ⟨-, rfl⟩ := h; exact .of_db rfl rfl rfl (fun _ h => h) rfl
  case select | redisGet | enqueue | wsAccept | wsClose | validateEmail | receiveText
      | receiveEnd =>
    obtain ⟨rfl, -⟩ := h; exact .refl
  case redisDelete | slidingWindow =>
    rcases h with ⟨-, rfl⟩ | ⟨rfl, -⟩
    · exact .of_db rfl rfl rfl (fun _ h => h) rfl
    · exact .refl
  case redisSet | publish =>
    rcases h with ⟨-, rfl⟩ | ⟨rfl, -⟩
    · exact .of_db rfl rfl rfl (fun _ h => List.mem_cons_of_mem _ h) rfl
    · exact .refl
  case redisExists | presignPut | presignGet =>
    rcases h with ⟨-, rfl⟩ | ⟨rfl, -⟩
    · exact .log rfl
    · exact .refl

theorem rows_wrote {w' : World} {e : Entry} (hp : w'.pending = w.pending ++ [(i, e)]) :
    w'.rows j = if j = i then w.rows j ++ [e] else w.rows j := by
  by_cases hj : j = i
  · subst hj
    simp [rows, hp, List.filter_append]
  · simp [rows, hp, List.filter_append, Ne.symm hj, hj]

theorem rows_ended {w' : World} (hp : w'.pending = w.pending.filter fun f => f.1 ≠ i) :
    w'.rows j = if j = i then [] else w.rows j := by
  by_cases hj : j = i
  · subst hj
    simp only [rows, hp, List.filter_filter, if_true]
    rw [List.filter_eq_nil_iff.mpr (by simp), List.map_nil]
  · simp only [rows, hp, List.filter_filter, hj, if_false]
    congr 1
    apply List.filter_congr
    intro f _
    by_cases hf : f.1 = j
    · simp [hf, hj]
    · simp [hf]

theorem Executed.rows_of_ne {o : Op} (h : Executed i o w w') (hj : j ≠ i) :
    w'.rows j = w.rows j := by
  cases h.effect with
  | none hdb hp => simp [rows, hp]
  | wrote e _ _ hp => rw [rows_wrote hp, if_neg hj]
  | ended _ _ hp => rw [rows_ended hp, if_neg hj]
  | committed _ _ hp => rw [rows_ended hp, if_neg hj]

theorem WellFormed.executed {o : Op} (h : w.WellFormed) (he : Executed i o w w') :
    w'.WellFormed := by
  cases he.effect with
  | none hdb hp =>
    have hview : ∀ j, w'.view j = w.view j := fun j => by simp [view, rows, hdb, hp]
    exact ⟨by rw [hp]; exact h.locks, fun f hf => by rw [hview]; exact h.pendingRefs f (hp ▸ hf),
      by rw [hdb]; exact h.refs⟩
  | wrote e _ hdb hp hlocks hrefs =>
    have hkeep : ∀ j, (w.view j).Keeps (w'.view j) := fun j => by
      simp only [view, hdb, rows_wrote hp]
      split
      · exact Db.Keeps.apply (fun _ _ h => h) _ _
      · exact fun _ _ h => h
    refine ⟨?_, ?_, by rw [hdb]; exact h.refs⟩
    · intro f hf g hg hne
      rw [hp, List.mem_append, List.mem_singleton] at hf hg
      rcases hf with hf | rfl <;> rcases hg with hg | rfl
      · exact h.locks f hf g hg hne
      · exact hlocks f hf hne
      · exact (hlocks g hg hne.symm).symm
      · exact absurd rfl hne
    · intro f hf
      rw [hp, List.mem_append, List.mem_singleton] at hf
      rcases hf with hf | rfl
      · exact (hkeep f.1).refsExist (h.pendingRefs f hf)
      · exact (hkeep i).refsExist hrefs
  | ended _ hdb hp =>
    refine ⟨?_, ?_, by rw [hdb]; exact h.refs⟩
    · intro f hf g hg
      rw [hp, List.mem_filter] at hf hg
      exact h.locks f hf.1 g hg.1
    · intro f hf
      rw [hp, List.mem_filter] at hf
      have hfi : f.1 ≠ i := by simpa using hf.2
      simp only [view, hdb, rows_ended hp, hfi, if_false]
      exact h.pendingRefs f hf.1
  | committed _ hdb hp =>
    have hkeep : w.db.Keeps w'.db := by rw [hdb]; exact w.db.keeps_apply _
    refine ⟨?_, ?_, ?_⟩
    · intro f hf g hg
      rw [hp, List.mem_filter] at hf hg
      exact h.locks f hf.1 g hg.1
    · intro f hf
      rw [hp, List.mem_filter] at hf
      have hfi : f.1 ≠ i := by simpa using hf.2
      simp only [view, rows_ended hp, hfi, if_false]
      have hk := hkeep.apply (w.rows f.1) []
      rw [List.append_nil] at hk
      exact hk.refsExist (h.pendingRefs f hf.1)
    · intro t r hr
      rw [hdb] at hr ⊢
      rcases Db.mem_apply hr with he | ⟨hold, -⟩
      · exact h.pendingRefs (i, ⟨t, r⟩) (mem_rows.mp he)
      · exact (w.db.keeps_apply _).refsExist (h.refs t r hold)

theorem Frozen.executed {o : Op} (h : w.Frozen) (hwf : w.WellFormed) (ho : o.Freezes)
    (he : Executed i o w w') : w'.Frozen := by
  cases he.effect with
  | none hdb hp => rw [Frozen, hdb, hp]; exact h
  | ended _ hdb hp =>
    rw [Frozen, hdb, hp]
    exact fun f hf => h f (List.mem_of_mem_filter hf)
  | committed _ hdb hp =>
    rw [Frozen, hdb, hp]
    intro f hf old hold
    obtain ⟨hf, hfi⟩ := List.mem_filter.mp hf
    have hlocked : ∀ e ∈ w.rows i, (f.2.table, f.2.id) ≠ e.slot := fun e hmem =>
      hwf.locks f hf (i, e) (mem_rows.mp hmem) (by simpa using hfi)
    rw [Db.get_apply_of_ne _ hlocked] at hold
    exact h f hf old hold
  | wrote e _ hdb hp _ _ hfrozen =>
    rw [Frozen, hdb, hp]
    intro f hf old hold
    rcases List.mem_append.mp hf with hf | hf
    · exact h f hf old hold
    · cases List.mem_singleton.mp hf
      obtain ⟨old', hold', hf'⟩ := h.view i _ _ _ hold
      rw [hfrozen ho old' hold', hf']

end World

/-- From `w` to `w'` session `i` has written `es` in its open transaction, and the
others have committed what they wanted. -/
structure Grew (i : Nat) (es : List Entry) (w w' : World) : Prop where
  db : Extends w.db w'.db
  rows : w'.rows i = w.rows i ++ es
  locked : ∀ e ∈ w.rows i, w'.db.get e.table e.id = w.db.get e.table e.id
  trace : w.trace ⊆ w'.trace
  faults : w'.faults = w.faults

abbrev Later (i : Nat) (w w' : World) : Prop := Grew i [] w w'

namespace Grew

variable {i : Nat} {es fs : List Entry} {w w' w'' : World}

theorem refl (i : Nat) (w : World) : Later i w w :=
  ⟨Extends.refl _, by simp, fun _ _ => rfl, fun _ h => h, rfl⟩

theorem trans (h : Grew i es w w') (h' : Grew i fs w' w'') : Grew i (es ++ fs) w w'' := by
  refine ⟨h.db.trans h'.db, by rw [h'.rows, h.rows, List.append_assoc], fun e he => ?_,
    fun x hx => h'.trace (h.trace hx), h'.faults.trans h.faults⟩
  rw [h'.locked e (by rw [h.rows]; exact List.mem_append_left _ he), h.locked e he]

theorem later_trans (h : Later i w w') (h' : Grew i fs w' w'') : Grew i fs w w'' := h.trans h'

theorem trans_later (h : Grew i es w w') (h' : Later i w' w'') : Grew i es w w'' := by
  simpa using h.trans h'

theorem rows_eq (h : Later i w w') : w'.rows i = w.rows i := by simpa using h.rows

end Grew

namespace World

variable {w w' : World} {i j : Nat}

theorem view_of_rows (h : w.rows i = []) : w.view i = w.db := by simp [view, h]

theorem Executed.later {o : Op} (h : Executed i o w w') (hwf : w.WellFormed) (hj : j ≠ i)
    (hext : Extends w.db w'.db) : Later j w w' := by
  cases h.effect with
  | none hdb hp => exact ⟨hext, by simp [rows, hp], fun _ _ => by rw [hdb], h.trace, h.faults⟩
  | wrote e _ hdb hp =>
    exact ⟨hext, by simp [rows_wrote hp, hj], fun _ _ => by rw [hdb], h.trace, h.faults⟩
  | ended _ hdb hp =>
    exact ⟨hext, by simp [rows_ended hp, hj], fun _ _ => by rw [hdb], h.trace, h.faults⟩
  | committed _ hdb hp =>
    refine ⟨hext, by simp [rows_ended hp, hj], fun e he => ?_, h.trace, h.faults⟩
    rw [hdb]
    refine Db.get_apply_of_ne _ fun f hf => ?_
    exact hwf.locks (j, e) (mem_rows.mp he) (i, f) (mem_rows.mp hf) hj

theorem Executed.later_self {o : Op} (h : Executed i o w w') (hq : o.quiet = true) :
    Later i w w' := by
  cases h.effect with
  | none hdb hp =>
    exact ⟨hdb ▸ Extends.refl _, by simp [rows, hp], fun _ _ => by rw [hdb], h.trace, h.faults⟩
  | wrote e hw => rw [hq] at hw; cases hw
  | ended hw => rw [hq] at hw; cases hw
  | committed ho => rw [ho] at hq; cases hq

end World

end MultiTenantSaas
