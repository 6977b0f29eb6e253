import MultiTenantSaas.Permissions

/-!
The contract every request keeps with the others, and the rules for the
operations of one session under it.
-/

set_option autoImplicit false

namespace MultiTenantSaas

open Process

def Op.silent : Op → Bool
  | .publish _ _ _ | .presignPut _ _ _ | .presignGet _ _ | .hubConnect _ => false
  | o => o.quiet

theorem Op.quiet_of_silent {o : Op} (h : o.silent = true) : o.quiet = true := by
  cases o <;> first | rfl | exact h

abbrev Silent {α : Type} (p : Coro α) : Prop := Prog.All (S := sig) (fun o => Op.silent o = true) p

theorem silent_ask {o : Op} (h : o.silent = true) : Silent (ask o) := ⟨h, fun _ => trivial⟩

namespace Grew

variable {i : Nat} {es : List Entry} {w w' : World}

theorem mem (h : Grew i es w w') {e : Entry} (he : e ∈ es) :
    e ∈ w'.rows i := by
  rw [h.rows]
  exact List.mem_append_right _ he

theorem inserted (h : Grew i es w w') {e : Entry}
    (he : e ∈ w.rows i) (hins : Inserted w.db e) : Inserted w'.db e :=
  (h.locked e he).trans hins

theorem get (h : Grew i es w w') {e : Entry} {t : Table}
    {id : Uuid} (he : e ∈ w.rows i) (hs : e.slot = (t, id)) :
    w'.db.get t id = w.db.get t id := by
  have hl := h.locked e he
  obtain ⟨t', x⟩ := e
  cases hs
  exact hl

theorem overwrites {calm : Table → Uuid → Prop} (h : Grew i es w w') {t : Table}
    {id : Uuid} {loaded current : t.Row} {e : Entry} (he : e ∈ w.rows i) (hs : e.slot = (t, id))
    (ho : Overwrites calm w.db t id loaded current) : Overwrites calm w'.db t id loaded current :=
  ⟨(h.get he hs).trans ho.committed, ho.frozen, ho.unchanged⟩

theorem write (i : Nat) (w : World) (e : Entry) : Grew i [e] w (w.write i e) :=
  ⟨Extends.refl _, (World.rows_wrote rfl).trans (if_pos rfl),
    fun _ _ => rfl, fun _ h => h, rfl⟩

theorem draw {v : World} {ids : List Uuid}
    (h : Grew i es { w with drawn := ids } v) : Grew i es w v :=
  ⟨h.db, h.rows, h.locked, h.trace, h.faults⟩

end Grew

theorem mem_rowsWhere {t : Table} {p : t.Row → Bool} {db : Db} {x : t.Row} :
    x ∈ rowsWhere t p db ↔ x ∈ db.rows t ∧ p x = true := List.mem_filter

variable [Library]

/-- Between two operations of a session the database only grows, and its own rows
stay locked. With `calm`, no commit to the row falls between its SELECT and its
flush. Each operation stays within what its request allows. -/
def contract (calm : Table → Uuid → Prop) : Contract sig Request World where
  inv := World.WellFormed
  fresh i w := w.rows i = []
  rely i _ o w w' := Later i w w' ∧
    ∀ t id set, o = Op.flushUpdate t id set → calm t id → w'.db.get t id = w.db.get t id
  guar i r o w w' := (∃ a, exec i o w a w') ∧ r.Allows calm i w o

/-- `p` stays within its permissions from `w` on, and if it answers without an
exception then `Q` holds. -/
def Ensures {α : Type} (calm : Table → Uuid → Prop) (i : Nat) (r : Request) (p : Coro α)
    (Q : α → World → Prop) (w : World) : Prop :=
  wp machine (contract calm) i r p (andThen Q fun _ _ => True) w

section Ensures

variable {α β : Type} {calm : Table → Uuid → Prop} {i : Nat} {r : Request} {w : World}

theorem ensures_pure {a : α} {Q : α → World → Prop} (h : Q a w) :
    Ensures calm i r (pure a) Q w := h

theorem ensures_throw {e : Exn} {Q : α → World → Prop} :
    Ensures calm i r (throw e : Coro α) Q w := trivial

theorem ensures_bind {p : Coro α} {f : α → Coro β} {Q : β → World → Prop}
    (h : Ensures calm i r p (fun a => Ensures calm i r (f a) Q) w) :
    Ensures calm i r (p >>= f) Q w := (wp_bind p f _ w).mpr h

theorem Ensures.mono {p : Coro α} {Q Q' : α → World → Prop} (h : Ensures calm i r p Q w)
    (himp : ∀ a w, Q a w → Q' a w) : Ensures calm i r p Q' w := by
  refine wp_mono (fun a s => ?_) h
  cases a with
  | ok a => exact himp a s
  | error e => exact fun h => h

theorem Ensures.extends {p : Coro α} {Q : α → World → Prop} (h : Ensures calm i r p Q w) :
    Ensures calm i r p (fun a w' => Q a w' ∧ Extends w.db w'.db) w := by
  suffices hp : ∀ v, Extends w.db v.db → Ensures calm i r p Q v →
      Ensures calm i r p (fun a w' => Q a w' ∧ Extends w.db w'.db) v from hp w (Extends.refl _) h
  clear h
  induction p with
  | done a =>
    cases a with
    | ok a => exact fun v hv h => ⟨h, hv⟩
    | error e => exact fun v hv h => h
  | call o k ih =>
    intro v hv h w₁ hrely hwf a w' he
    obtain ⟨hguar, hk⟩ := h w₁ hrely hwf a w' he
    have hext : Extends w₁.db w'.db := by
      rcases (World.executed he).history with ⟨hdb, -⟩ | ⟨rfl, hdb, -⟩
      · rw [hdb]
        exact Extends.refl _
      · rw [hdb]
        exact Request.Writes.extends hguar.2
    exact ⟨hguar, ih a w' ((hv.trans hrely.1.db).trans hext) hk⟩

theorem ensures_ite {c : Prop} [Decidable c] {p q : Coro α} {Q : α → World → Prop}
    (hp : c → Ensures calm i r p Q w) (hq : ¬ c → Ensures calm i r q Q w) :
    Ensures calm i r (if c then p else q) Q w := by
  split
  · next h => exact hp h
  · next h => exact hq h

theorem ensures_tryCatch {p : Coro α} {h : Exn → Coro α} {Q : α → World → Prop}
    (hp : Ensures calm i r p Q w) (hh : ∀ e w, Ensures calm i r (h e) Q w) :
    Ensures calm i r (tryCatch p h) Q w := by
  refine (wp_tryCatch p h _ w).mpr (wp_mono (fun a s => ?_) hp)
  cases a with
  | ok a => exact fun h => h
  | error e => exact fun _ => hh e s

theorem ensures_ask {o : Op} {Q : o.Resp → World → Prop}
    (h : ∀ w₁, Later i w w₁ →
      (∀ t id set, o = .flushUpdate t id set → calm t id → w₁.db.get t id = w.db.get t id) →
      w₁.WellFormed → r.Allows calm i w₁ o ∧ ∀ a w', exec i o w₁ (.ok a) w' → Q a w') :
    Ensures calm i r (ask o) Q w := by
  intro w₁ hrely hwf a w' he
  obtain ⟨hall, hQ⟩ := h w₁ hrely.1 hrely.2 hwf
  refine ⟨⟨⟨a, he⟩, hall⟩, ?_⟩
  cases a with
  | error e => trivial
  | ok a => exact hQ a w' he

theorem ensures_quiet {o : Op} {Q : o.Resp → World → Prop} (hq : o.quiet = true)
    (hall : ∀ w₁, Later i w w₁ → r.Allows calm i w₁ o)
    (hQ : ∀ a w₁ w', Later i w w' → exec i o w₁ (.ok a) w' → Q a w') :
    Ensures calm i r (ask o) Q w :=
  ensures_ask fun w₁ h₁ _ _ => ⟨hall w₁ h₁, fun a w' he =>
    hQ a w₁ w' (h₁.later_trans ((World.executed he).later_self hq)) he⟩

theorem Request.allows_silent {o : Op} (h : o.silent = true) : r.Allows calm i w o := by
  cases o <;> trivial

theorem wp_silent {p : Coro α} (hp : Silent p) :
    wp machine (contract calm) i r p (fun _ w' => Later i w w') w := by
  suffices h : ∀ v, Later i w v → wp machine (contract calm) i r p (fun _ w' => Later i w w') v from
    h w (Grew.refl i w)
  induction p with
  | done a => exact fun _ hv => hv
  | call o k ih =>
    intro v hv w₁ hrely hwf a w' he
    have hlater := hrely.1.later_trans
      ((World.executed he).later_self (Op.quiet_of_silent hp.1))
    exact ⟨⟨⟨a, he⟩, Request.allows_silent hp.1⟩, ih a (hp.2 a) w' (hv.later_trans hlater)⟩

theorem ensures_silent {p : Coro α} {Q : α → World → Prop} (hp : Silent p)
    (hQ : ∀ a w', Later i w w' → Q a w') : Ensures calm i r p Q w := by
  refine wp_mono (fun a w' hl => ?_) (wp_silent hp)
  cases a with
  | ok a => exact hQ a w' hl
  | error e => trivial

theorem ensures_recover {p : Coro α} {h : Exn → Coro α} {Q : α → World → Prop} (hs : Silent p)
    (hp : Ensures calm i r p Q w) (hh : ∀ e w', Later i w w' → Ensures calm i r (h e) Q w') :
    Ensures calm i r (tryCatch p h) Q w := by
  refine (wp_tryCatch p h _ w).mpr (wp_mono (fun a w' hq => ?_) (wp_and hp (wp_silent hs)))
  cases a with
  | ok a => exact hq.1
  | error e => exact hh e w' hq.2

theorem ensures_select {ρ : Type} {q : Db → List ρ} {Q : List ρ → World → Prop}
    (hQ : ∀ rows w', Later i w w' → rows.Perm (q (w'.view i)) → Q rows w') :
    Ensures calm i r (ask (.select q)) Q w := by
  refine ensures_quiet rfl (fun _ _ => trivial) fun rows w₁ w' h he => ?_
  obtain ⟨rfl, ⟨rows', hr, hp⟩ | ⟨-, hr⟩⟩ := he
  · cases hr
    exact hQ rows _ h hp
  · cases hr

theorem ensures_selectOne {ρ : Type} {q : Db → List ρ} {Q : Option ρ → World → Prop}
    (hnone : ∀ w', Later i w w' → q (w'.view i) = [] → Q none w')
    (hsome : ∀ x w', Later i w w' → x ∈ q (w'.view i) → Q (some x) w') :
    Ensures calm i r (selectOne q) Q w := by
  refine ensures_bind (ensures_select fun rows w' h hp => ?_)
  match rows, hp with
  | [], hp => exact hnone w' h (List.nil_perm.mp hp)
  | [x], hp => exact hsome x w' h (hp.subset List.mem_cons_self)
  | _ :: _ :: _, _ => exact ensures_throw

theorem ensures_sessionGet {t : Table} {id : Uuid} {Q : Option t.Row → World → Prop}
    (hrows : w.rows i = []) (hnone : ∀ w', Later i w w' → Q none w')
    (hsome : ∀ x w', Later i w w' → w'.db.get t id = some x → Q (some x) w') :
    Ensures calm i r (sessionGet t id) Q w := by
  refine ensures_selectOne (fun w' h _ => hnone w' h) fun x w' h hx => hsome x w' h ?_
  rw [World.view_of_rows (h.rows_eq.trans hrows), mem_rowsWhere] at hx
  exact Db.get_eq_some.mpr ⟨hx.1, by simpa using hx.2⟩

theorem ensures_refresh {t : Table} {id : Uuid} {Q : t.Row → World → Prop} (hrows : w.rows i = [])
    (hQ : ∀ x w', Later i w w' → w'.db.get t id = some x → Q x w') :
    Ensures calm i r (refresh t id) Q w :=
  ensures_bind (ensures_sessionGet hrows (fun _ _ => ensures_throw)
    fun x w' hl hget => ensures_pure (hQ x w' hl hget))

theorem ensures_getById {t : Table} {o id : Uuid} {Q : Option t.Row → World → Prop}
    (hrows : w.rows i = []) (hnone : ∀ w', Later i w w' → Q none w')
    (hsome : ∀ x w', Later i w w' → w'.db.get t id = some x → t.org x = some o →
      t.isDeleted x = false → Q (some x) w') :
    Ensures calm i r (getById t o id) Q w := by
  refine ensures_selectOne (fun w' h _ => hnone w' h) fun x w' h hx => ?_
  rw [World.view_of_rows (h.rows_eq.trans hrows), mem_rowsWhere] at hx
  have hc := hx.2
  simp only [inTenant, Bool.false_or, Bool.and_eq_true, decide_eq_true_eq,
    Bool.not_eq_true'] at hc
  exact hsome x w' h (Db.get_eq_some.mpr ⟨hx.1, hc.1⟩) hc.2.1 hc.2.2

theorem ensures_insert {t : Table} {values : Uuid → Instant → t.Row} {Q : t.Row → World → Prop}
    (hQ : ∀ id now w', Grew i [⟨t, values id now⟩] w w' →
      Inserted w'.db ⟨t, values id now⟩ → Q (values id now) w') :
    Ensures calm i r (ask (.insert t values)) Q w := by
  refine ensures_ask fun w₁ h₁ _ _ => ⟨trivial, fun a w' he => ?_⟩
  rcases he with ⟨id, -, he⟩ | ⟨-, -, he⟩
  · rcases World.insert_cases he with ⟨e, he, -⟩ | ⟨ha, rfl, -, hnew, -⟩
    · cases he
    · cases ha
      refine hQ id w₁.now _ (h₁.later_trans (Grew.draw (Grew.write i _ _))) ?_
      cases hg : w₁.db.get t (t.id (values id w₁.now)) with
      | none => exact hg
      | some x =>
        have hs := w₁.db.keeps_apply (w₁.rows i) t (t.id (values id w₁.now)) (by simp [hg])
        change ((w₁.view i).get _ _).isSome at hs
        rw [hnew] at hs
        cases hs
  · cases he

/-- The row that `create` reads back is the one it inserted. -/
theorem ensures_create {t : Table} {values : Uuid → Instant → t.Row} {Q : t.Row → World → Prop}
    (hQ : ∀ id now w', Grew i [⟨t, values id now⟩] w w' →
      Inserted w'.db ⟨t, values id now⟩ → Q (values id now) w') :
    Ensures calm i r (create t values) Q w := by
  refine ensures_bind (ensures_insert fun id now w₁ h₁ hins => ?_)
  refine ensures_bind (ensures_selectOne (fun _ _ _ => ensures_throw) fun x w' h hx => ?_)
  have hgrew := h₁.trans_later h
  rw [mem_rowsWhere, World.view, hgrew.rows] at hx
  have hget := Db.get_apply_append_self w'.db (w.rows i) ⟨t, values id now⟩
  have hxid : t.id x = t.id (values id now) := by simpa using hx.2
  have heq : x = values id now := by
    have hx' := Db.get_of_mem hx.1
    rw [hxid] at hx'
    exact Option.some.inj (hx'.symm.trans hget)
  rw [heq]
  exact ensures_pure (hQ id now w' hgrew (h.inserted (h₁.mem (by simp)) hins))

theorem ensures_flush {t : Table} {id : Uuid} {set : Instant → t.Row → t.Row} {loaded : t.Row}
    {Q : Unit → World → Prop} (hrows : w.rows i = []) (hget : w.db.get t id = some loaded)
    (hset : ∀ now x, t.frozen (set now x) = t.frozen x)
    (hQ : ∀ now current w', Grew i [⟨t, set now current⟩] w w' →
      Overwrites calm w'.db t id loaded current → (Entry.mk t (set now current)).slot = (t, id) →
      Q () w') :
    Ensures calm i r (ask (.flushUpdate t id set)) Q w := by
  refine ensures_ask fun w₁ h₁ hcalm _ => ⟨hset, fun a w' he => ?_⟩
  rcases he with he | ⟨-, -, he⟩
  · rcases World.flushUpdate_cases he with ⟨-, e, he⟩ | ⟨old, hold, -, rfl, -⟩
    · cases he
    · rw [World.view_of_rows (h₁.rows_eq.trans hrows)] at hold
      obtain ⟨old', hold', hf⟩ := h₁.db t id loaded hget
      rw [hold] at hold'
      cases hold'
      refine hQ w₁.now old _ (h₁.later_trans (Grew.write i _ _)) ⟨hold, hf, fun hc => ?_⟩ ?_
      · have hsame := hcalm t id set rfl hc
        rw [hold, hget] at hsame
        exact Option.some.inj hsame
      · simp only [Entry.slot, Entry.id, Table.id_of_frozen (hset w₁.now old),
          (Db.get_eq_some.mp hold).2]
  · cases he

theorem ensures_updateWhere {t : Table} {id : Uuid} {criteria : t.Row → Bool}
    {set : Instant → t.Row → t.Row} {Q : Option t.Row → World → Prop} (hrows : w.rows i = [])
    (hset : ∀ now x, t.frozen (set now x) = t.frozen x) (hnone : ∀ w', Later i w w' → Q none w')
    (hsome : ∀ now current w', Grew i [⟨t, set now current⟩] w w' →
      w'.db.get t id = some current → criteria current = true →
      (Entry.mk t (set now current)).slot = (t, id) → Q (some (set now current)) w') :
    Ensures calm i r (ask (.updateWhere t id criteria set)) Q w := by
  refine ensures_ask fun w₁ h₁ _ _ => ⟨hset, fun a w' he => ?_⟩
  rcases he with he | ⟨-, -, he⟩
  · rcases World.update_cases he with ⟨rfl, ha⟩ | ⟨old, hold, hc, ha, rfl, -⟩
    · cases a with
      | none => exact hnone _ h₁
      | some x => exact absurd rfl (ha x)
    · rw [World.view_of_rows (h₁.rows_eq.trans hrows)] at hold
      cases ha
      refine hsome w₁.now old _ (h₁.later_trans (Grew.write i _ _)) hold hc ?_
      simp only [Entry.slot, Entry.id, Table.id_of_frozen (hset w₁.now old),
        (Db.get_eq_some.mp hold).2]
  · cases he

structure Committed (i : Nat) (w w' : World) : Prop where
  db : w'.db = w.db.apply (w.rows i)
  rows : w'.rows i = []
  logged : (i, .commit w.db (w.rows i)) ∈ w'.trace
  extend : Extends w.db w'.db

/-- The open transaction may be committed, and then `Q` holds. -/
def MayCommit (calm : Table → Uuid → Prop) (i : Nat) (r : Request) (Q : World → Prop)
    (w : World) : Prop :=
  ∀ w₁, Later i w w₁ → r.Writes calm w₁.db (w₁.rows i) ∧ ∀ w', Committed i w₁ w' → Q w'

theorem ensures_commit {Q : Unit → World → Prop} (h : MayCommit calm i r (Q ()) w) :
    Ensures calm i r (ask .commit) Q w := by
  refine ensures_ask fun w₁ h₁ _ _ => ⟨(h w₁ h₁).1, fun a w' he => ?_⟩
  rcases he with ⟨-, rfl⟩ | ⟨-, -, he⟩
  · refine (h w₁ h₁).2 _ ⟨rfl, ?_, List.mem_cons_self, (h w₁ h₁).1.extends⟩
    exact (World.rows_ended rfl).trans (if_pos rfl)
  · cases he

theorem ensures_rollback {Q : Unit → World → Prop}
    (hQ : ∀ w', Extends w.db w'.db → w.trace ⊆ w'.trace → Q () w') :
    Ensures calm i r (ask .rollback) Q w := by
  refine ensures_ask fun w₁ h₁ _ _ => ⟨trivial, fun a w' he => ?_⟩
  obtain ⟨-, rfl⟩ := he
  exact hQ _ h₁.db fun x hx => List.mem_cons_of_mem _ (h₁.trace hx)

theorem ensures_rethrow {e : Exn} {Q : α → World → Prop} :
    Ensures calm i r (do ask .rollback; throw e : Coro α) Q w :=
  ensures_bind (ensures_rollback fun _ _ _ => ensures_throw)

theorem ensures_transaction {body : Coro α} {Q : α → World → Prop}
    (h : Ensures calm i r body (fun a => MayCommit calm i r (Q a)) w) :
    Ensures calm i r (transaction body) Q w :=
  ensures_tryCatch
    (ensures_bind (h.mono fun _ _ hc => ensures_bind (ensures_commit hc)))
    fun _ _ => ensures_rethrow

theorem ensures_withDbSession {body : Coro α} {Q : α → World → Prop}
    (h : Ensures calm i r body
      (fun a w => ∀ w', Extends w.db w'.db → w.trace ⊆ w'.trace → Q a w') w) :
    Ensures calm i r (withDbSession body) Q w :=
  ensures_bind <| (ensures_tryCatch h fun _ _ => ensures_rethrow).mono fun _ _ hv =>
    ensures_bind (ensures_rollback fun w' he ht => ensures_pure (hv w' he ht))

theorem ensures_orDefault {o : Op} {d : o.Resp} {Q : o.Resp → World → Prop}
    (hq : o.quiet = true) (hall : ∀ w₁, Later i w w₁ → r.Allows calm i w₁ o)
    (hQ : ∀ a w', Later i w w' → Q a w') :
    Ensures calm i r (orDefault d (ask o)) Q w := by
  refine (wp_tryCatch _ _ _ w).mpr ?_
  intro w₁ hrely hwf a w' he
  have hlater := hrely.1.later_trans ((World.executed he).later_self hq)
  refine ⟨⟨⟨a, he⟩, hall w₁ hrely.1⟩, ?_⟩
  cases a with
  | error e => exact hQ d w' hlater
  | ok a => exact hQ a w' hlater

theorem ensures_forEach {f : α → Coro β} {Q : List β → World → Prop} {as : List α}
    (I : World → Prop) (hI : I w) (hf : ∀ a ∈ as, ∀ w, I w → Ensures calm i r (f a) (fun _ => I) w)
    (hQ : ∀ bs w, I w → Q bs w) : Ensures calm i r (forEach f as) Q w := by
  induction as generalizing w Q with
  | nil => exact ensures_pure (hQ [] w hI)
  | cons a as ih =>
    refine ensures_bind ((hf a List.mem_cons_self w hI).mono fun b v hv => ?_)
    exact ensures_bind (ih hv (fun x hx => hf x (List.mem_cons_of_mem _ hx))
      fun bs u hu => ensures_pure (hQ _ u hu))

end Ensures

end MultiTenantSaas
