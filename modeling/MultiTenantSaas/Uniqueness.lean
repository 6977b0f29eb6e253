import MultiTenantSaas.Sessions

/-!
Unique constraints. A row is compared with what its session sees and waits for the
open transactions that hold its key, so the committed rows stay apart.
-/

set_option autoImplicit false

namespace MultiTenantSaas

namespace Db

def Distinct (db : Db) : Prop :=
  ∀ (t : Table) (r z : t.Row), r ∈ db.rows t → z ∈ db.rows t → ∀ k,
    t.uniqueKey r = some k → t.uniqueKey z = some k → r = z

variable {db db' : Db} {es : List Entry} {t : Table} {r : t.Row}

theorem distinct_empty : Db.empty.Distinct := fun _ r _ hr => absurd hr (Db.not_mem_empty r)

theorem mem_apply_of_slot (hslot : ∃ e ∈ es, e.slot = (t, t.id r))
    (h : r ∈ (db.apply es).rows t) : r ∈ (db'.apply es).rows t := by
  induction es generalizing db db' with
  | nil =>
    obtain ⟨e, he, -⟩ := hslot
    cases he
  | cons e es ih =>
    by_cases hrest : ∃ f ∈ es, f.slot = (t, t.id r)
    · exact @ih (db.put e) (db'.put e) hrest h
    · have hnone : ∀ f ∈ es, (t, t.id r) ≠ f.slot := fun f hf hs => hrest ⟨f, hf, hs.symm⟩
      have hslot' : e.slot = (t, t.id r) := by
        obtain ⟨f, hf, hs⟩ := hslot
        rcases List.mem_cons.mp hf with rfl | hf
        · exact hs
        · exact absurd hs.symm (hnone f hf)
      have hput : r ∈ (db.put e).rows t := by
        rcases mem_apply (show r ∈ ((db.put e).apply es).rows t from h) with hmem | ⟨hr, -⟩
        · exact absurd rfl (hnone _ hmem)
        · exact hr
      have he : (⟨t, r⟩ : Entry) = e := by
        rcases mem_put.mp hput with he | ⟨-, hne⟩
        · exact he
        · exact absurd hslot'.symm hne
      have hput' : (db'.put e).get t (t.id r) = some r := get_of_mem (mem_put.mpr (Or.inl he))
      have hget := get_apply_of_ne (db'.put e) hnone
      exact (get_eq_some.mp (hget.trans hput')).1

theorem mem_apply_of_mem (hr : r ∈ db.rows t) (hne : ∀ e ∈ es, (t, t.id r) ≠ e.slot) :
    r ∈ (db.apply es).rows t :=
  (get_eq_some.mp ((get_apply_of_ne db hne).trans (get_of_mem hr))).1

theorem Distinct.put (h : db.Distinct) {e : Entry} (hfree : db.uniqueFree e.table e.row = true) :
    (db.put e).Distinct := by
  have hother : ∀ (t : Table) (r z : t.Row), (⟨t, r⟩ : Entry) = e → z ∈ db.rows t →
      (t, t.id z) ≠ e.slot → ∀ k, t.uniqueKey r = some k → t.uniqueKey z ≠ some k := by
    rintro t r z rfl hz hne k hk
    simp only [uniqueFree, hk, Option.all_some, List.all_eq_true, Bool.or_eq_true,
      decide_eq_true_eq] at hfree
    rcases hfree z hz with hid | hkey
    · exact absurd (congrArg (Prod.mk t) hid) hne
    · exact hkey
  intro t r z hr hz k hkr hkz
  rcases mem_put.mp hr with her | ⟨hr, hner⟩ <;> rcases mem_put.mp hz with hez | ⟨hz, hnez⟩
  · cases her.trans hez.symm
    rfl
  · exact absurd hkz (hother t r z her hz hnez k hkr)
  · exact absurd hkr (hother t z r hez hr hner k hkz)
  · exact h t r z hr hz k hkr hkz

end Db

namespace World

variable {w w' : World} {i : Nat}

/-- Every session sees distinct rows, and rows of two open transactions are distinct. -/
structure Distinct (w : World) : Prop where
  views : ∀ i, (w.view i).Distinct
  apart : ∀ f ∈ w.pending, ∀ g ∈ w.pending, f.1 ≠ g.1 → ∀ k, f.2.uniqueKey = some k →
    g.2.uniqueKey ≠ some k

theorem Distinct.same (h : w.Distinct) (hdb : w'.db = w.db) (hp : w'.pending = w.pending) :
    w'.Distinct :=
  ⟨fun i => by simpa [view, rows, hdb, hp] using h.views i, by rw [hp]; exact h.apart⟩

theorem uniqueFree_of_violation {db : Db} {t : Table} {r : t.Row} (h : violation db t r = none) :
    db.uniqueFree t r = true := by
  unfold violation at h
  split at h
  · cases h
  · split at h
    · cases h
    · next hv => simp at hv; exact hv.1

theorem not_blocked_key {e : Entry} (h : w.blocked i e = false) {f : Nat × Entry}
    (hf : f ∈ w.pending) (hi : f.1 ≠ i) {k : UniqueKey} (hk : e.uniqueKey = some k) :
    f.2.uniqueKey ≠ some k := by
  intro hfk
  have hb := List.any_eq_false.mp h f hf
  simp [hi, hk, hfk] at hb

theorem Distinct.write (h : w.Distinct) {t : Table} {r : t.Row}
    (hb : w.blocked i ⟨t, r⟩ = false) (hv : violation (w.view i) t r = none) :
    (w.write i ⟨t, r⟩).Distinct := by
  have hp : (w.write i ⟨t, r⟩).pending = w.pending ++ [(i, ⟨t, r⟩)] := rfl
  refine ⟨fun j => ?_, fun f hf g hg hne k hfk hgk => ?_⟩
  · by_cases hj : j = i
    · subst hj
      have hrows := rows_wrote (j := j) hp
      rw [if_pos rfl] at hrows
      rw [view, hrows, Db.apply_append]
      exact (h.views j).put (uniqueFree_of_violation hv)
    · have hrows := rows_wrote (j := j) hp
      rw [if_neg hj] at hrows
      rw [view, hrows]
      exact h.views j
  · rw [hp, List.mem_append, List.mem_singleton] at hf hg
    rcases hf with hf | rfl <;> rcases hg with hg | rfl
    · exact h.apart f hf g hg hne k hfk hgk
    · exact not_blocked_key hb hf hne hgk hfk
    · exact not_blocked_key hb hg hne.symm hfk hgk
    · exact hne rfl

theorem exists_idle (pending : List (Nat × Entry)) : ∃ n, ∀ f ∈ pending, f.1 < n := by
  induction pending with
  | nil => exact ⟨0, fun f hf => nomatch hf⟩
  | cons g fs ih =>
    obtain ⟨n, hn⟩ := ih
    refine ⟨n + g.1 + 1, fun f hf => ?_⟩
    rcases List.mem_cons.mp hf with rfl | hf
    · omega
    · have hlt := hn f hf
      omega

/-- The committed rows are distinct: some session has not written anything. -/
theorem Distinct.db (h : w.Distinct) : w.db.Distinct := by
  obtain ⟨n, hn⟩ := exists_idle w.pending
  have hrows : w.rows n = [] := by
    rw [rows, List.filter_eq_nil_iff.mpr, List.map_nil]
    intro f hf
    have hlt := hn f hf
    simp only [decide_eq_true_eq]
    omega
  have hview := h.views n
  rwa [view_of_rows hrows] at hview

theorem Distinct.ended (h : w.Distinct) (hdb : w'.db = w.db)
    (hp : w'.pending = w.pending.filter fun f => f.1 ≠ i) : w'.Distinct := by
  refine ⟨fun j => ?_, fun f hf g hg => ?_⟩
  · rw [view, rows_ended hp, hdb]
    split
    · exact h.db
    · exact h.views j
  · rw [hp] at hf hg
    exact h.apart f (List.mem_of_mem_filter hf) g (List.mem_of_mem_filter hg)

/-- The commit of a transaction keeps apart what the other sessions see. -/
theorem Distinct.committed (h : w.Distinct) (hdb : w'.db = w.db.apply (w.rows i))
    (hp : w'.pending = w.pending.filter fun f => f.1 ≠ i) : w'.Distinct := by
  refine ⟨fun j => ?_, fun f hf g hg => ?_⟩
  · by_cases hj : j = i
    · rw [view, rows_ended hp, if_pos hj, hdb]
      exact h.views i
    · have hview : w'.view j = (w.db.apply (w.rows i)).apply (w.rows j) := by
        rw [view, rows_ended hp, if_neg hj, hdb]
      rw [hview]
      -- a row is written by `j`, or it is one that `i` sees
      have hcases : ∀ (t : Table) (r : t.Row),
          r ∈ ((w.db.apply (w.rows i)).apply (w.rows j)).rows t →
          (r ∈ (w.view j).rows t ∧ (⟨t, r⟩ : Entry) ∈ w.rows j) ∨
          (r ∈ (w.view i).rows t ∧ ∀ e ∈ w.rows j, (t, t.id r) ≠ e.slot) := fun t r hr => by
        rcases Db.mem_apply hr with hmem | hold
        · exact Or.inl ⟨Db.mem_apply_of_slot ⟨_, hmem, rfl⟩ hr, hmem⟩
        · exact Or.inr hold
      have hcross : ∀ (t : Table) (r z : t.Row), r ∈ (w.view j).rows t →
          (⟨t, r⟩ : Entry) ∈ w.rows j → z ∈ (w.view i).rows t →
          (∀ e ∈ w.rows j, (t, t.id z) ≠ e.slot) → ∀ k, t.uniqueKey r = some k →
          t.uniqueKey z = some k → r = z := by
        intro t r z hr hrj hz hzj k hkr hkz
        rcases Db.mem_apply hz with hzi | ⟨hzdb, -⟩
        · exact absurd hkz (h.apart (j, ⟨t, r⟩) (mem_rows.mp hrj) (i, ⟨t, z⟩) (mem_rows.mp hzi) hj
            k hkr)
        · exact h.views j t r z hr (Db.mem_apply_of_mem hzdb hzj) k hkr hkz
      intro t r z hr hz k hkr hkz
      rcases hcases t r hr with ⟨hr, hrj⟩ | ⟨hr, hrj⟩ <;>
        rcases hcases t z hz with ⟨hz, hzj⟩ | ⟨hz, hzj⟩
      · exact h.views j t r z hr hz k hkr hkz
      · exact hcross t r z hr hrj hz hzj k hkr hkz
      · exact (hcross t z r hz hzj hr hrj k hkz hkr).symm
      · exact h.views i t r z hr hz k hkr hkz
  · rw [hp] at hf hg
    exact h.apart f (List.mem_of_mem_filter hf) g (List.mem_of_mem_filter hg)

theorem Executed.same_of_quiet {o : Op} (h : Executed i o w w') (hq : o.quiet = true) :
    w'.db = w.db ∧ w'.pending = w.pending := by
  cases h.effect with
  | none hdb hp => exact ⟨hdb, hp⟩
  | wrote e hw => rw [hq] at hw; cases hw
  | ended hw => rw [hq] at hw; cases hw
  | committed ho => rw [ho] at hq; cases hq

/-- What one execution does to the rows: nothing, a write that meets the constraints, or
the end of its transaction. -/
theorem exec_rows [Library] {o : Op} {a : Except Exn o.Resp} (he : exec i o w a w') :
    (w'.db = w.db ∧ w'.pending = w.pending) ∨
    (∃ t r, w.blocked i ⟨t, r⟩ = false ∧ violation (w.view i) t r = none ∧ w'.db = w.db ∧
      w'.pending = w.pending ++ [(i, ⟨t, r⟩)]) ∨
    (w'.db = w.db ∧ w'.pending = w.pending.filter fun f => f.1 ≠ i) ∨
    (w'.db = w.db.apply (w.rows i) ∧ w'.pending = w.pending.filter fun f => f.1 ≠ i) := by
  cases hq : o.quiet with
  | true => exact Or.inl ((executed he).same_of_quiet hq)
  | false =>
    cases o <;> simp only [Op.quiet, reduceCtorEq] at hq
    case insert t values =>
      rcases he with ⟨id, -, he⟩ | ⟨rfl, -⟩
      · rcases insert_cases he with ⟨e, -, rfl⟩ | ⟨-, rfl, hb, -, hv⟩
        · exact Or.inl ⟨rfl, rfl⟩
        · exact Or.inr (Or.inl ⟨t, _, hb, hv, rfl, rfl⟩)
      · exact Or.inl ⟨rfl, rfl⟩
    case flushUpdate t id set =>
      rcases he with he | ⟨rfl, -⟩
      · rcases flushUpdate_cases he with ⟨rfl, -⟩ | ⟨old, -, -, rfl, hb, hv⟩
        · exact Or.inl ⟨rfl, rfl⟩
        · exact Or.inr (Or.inl ⟨t, _, hb, hv, rfl, rfl⟩)
      · exact Or.inl ⟨rfl, rfl⟩
    case updateWhere t id criteria set =>
      rcases he with he | ⟨rfl, -⟩
      · rcases update_cases he with ⟨rfl, -⟩ | ⟨old, -, -, -, rfl, hb, hv⟩
        · exact Or.inl ⟨rfl, rfl⟩
        · exact Or.inr (Or.inl ⟨t, _, hb, hv, rfl, rfl⟩)
      · exact Or.inl ⟨rfl, rfl⟩
    case commit =>
      rcases he with ⟨-, rfl⟩ | ⟨rfl, -⟩
      · exact Or.inr (Or.inr (Or.inr ⟨rfl, rfl⟩))
      · exact Or.inr (Or.inr (Or.inl ⟨rfl, rfl⟩))
    case rollback =>
      obtain ⟨-, rfl⟩ := he
      exact Or.inr (Or.inr (Or.inl ⟨rfl, rfl⟩))

theorem Distinct.exec [Library] {o : Op} {a : Except Exn o.Resp} (h : w.Distinct)
    (he : exec i o w a w') : w'.Distinct := by
  rcases exec_rows he with ⟨hdb, hp⟩ | ⟨t, r, hb, hv, hdb, hp⟩ | ⟨hdb, hp⟩ | ⟨hdb, hp⟩
  · exact h.same hdb hp
  · exact (h.write hb hv).same hdb hp
  · exact h.ended hdb hp
  · exact h.committed hdb hp

structure Fits (w : World) : Prop where
  db : ∀ t, ∀ r ∈ w.db.rows t, t.fits r = true
  pending : ∀ f ∈ w.pending, f.2.table.fits f.2.row = true

theorem fits_of_violation {db : Db} {t : Table} {r : t.Row} (h : violation db t r = none) :
    t.fits r = true := by
  unfold violation at h
  split at h
  · cases h
  · next hv => simpa using hv

theorem Fits.view (h : w.Fits) (i : Nat) {t : Table} {r : t.Row} (hr : r ∈ (w.view i).rows t) :
    t.fits r = true := by
  rcases Db.mem_apply hr with he | ⟨hold, -⟩
  · exact h.pending (i, ⟨t, r⟩) (mem_rows.mp he)
  · exact h.db t r hold

theorem Fits.exec [Library] {o : Op} {a : Except Exn o.Resp} (h : w.Fits)
    (he : exec i o w a w') : w'.Fits := by
  rcases exec_rows he with ⟨hdb, hp⟩ | ⟨t, r, -, hv, hdb, hp⟩ | ⟨hdb, hp⟩ | ⟨hdb, hp⟩
  · exact ⟨hdb ▸ h.db, hp ▸ h.pending⟩
  · refine ⟨hdb ▸ h.db, fun f hf => ?_⟩
    rcases List.mem_append.mp (hp ▸ hf) with hf | hf
    · exact h.pending f hf
    · cases List.mem_singleton.mp hf
      exact fits_of_violation hv
  · exact ⟨hdb ▸ h.db, fun f hf => h.pending f (List.mem_of_mem_filter (hp ▸ hf))⟩
  · refine ⟨fun t r hr => ?_, fun f hf => h.pending f (List.mem_of_mem_filter (hp ▸ hf))⟩
    rw [hdb] at hr
    exact h.view i hr

end World

end MultiTenantSaas
