import MultiTenantSaas.Handlers
import MultiTenantSaas.Versioned

/-!
Runs of the application: any number of requests of any users, interleaved at every
operation, keep the contract. What every operation of every run is allowed to do
follows, and with it what a step can change.
-/

set_option autoImplicit false

namespace MultiTenantSaas

open Process

/-- No request is running, no transaction is open and nothing is recorded. -/
structure Start (c : AppConfig) : Prop where
  idle : ∀ i, c.thread i = none
  closed : c.state.pending = []
  unlogged : c.state.trace = []
  refs : c.state.db.Closed

def genesis (faults : Faults) (now : Instant) : AppConfig :=
  ⟨⟨.empty, [], .empty, now, [], .empty, faults, []⟩, fun _ => none⟩

theorem start_genesis (faults : Faults) (now : Instant) : Start (genesis faults now) :=
  ⟨fun _ => rfl, rfl, rfl, fun _ r hr => absurd hr (Db.not_mem_empty r)⟩

/-- No request commits a row that `calm` covers while another is between its SELECT
of the row and its flush. -/
def Calm (calm : Table → Uuid → Prop) (c : AppConfig) : AppLabel → Prop
  | .act i .commit => ∀ j, j ≠ i → ∀ r t id set k,
    c.thread j = some ⟨r, .call (Op.flushUpdate t id set) k⟩ → calm t id →
    ∀ e ∈ c.state.rows i, e.slot ≠ (t, id)
  | _ => True

def covers (t : Table) (id : Uuid) (t' : Table) (id' : Uuid) : Prop := t' = t ∧ id' = id

def uncovered (_ : Table) (_ : Uuid) : Prop := False

theorem calm_uncovered (c : AppConfig) (l : AppLabel) : Calm uncovered c l := by
  unfold Calm
  split
  · exact fun _ _ _ _ _ _ _ _ h => h.elim
  · trivial

def Answered (i : Nat) (r : Request) : Except Exn Response → World → Prop
  | .ok _, w => r.Commits → Logged i w
  | .error _, _ => True

/-- From `db₀` the transactions, newest first, lead to `db`. -/
def History (db₀ : Db) : List Commit → Db → Prop
  | [], db => db = db₀
  | d :: ds, db => db = d.before.apply d.written ∧ History db₀ ds d.before

theorem History.mem {db₀ db : Db} {ds : List Commit} (h : History db₀ ds db) {t : Table}
    {r : t.Row} (hr : r ∈ db.rows t) :
    r ∈ db₀.rows t ∨ ∃ d ∈ ds, (⟨t, r⟩ : Entry) ∈ d.written := by
  induction ds generalizing db with
  | nil => exact Or.inl (h ▸ hr)
  | cons d ds ih =>
    obtain ⟨rfl, h⟩ := h
    rcases Db.mem_apply hr with hw | ⟨hold, -⟩
    · exact Or.inr ⟨d, List.mem_cons_self, hw⟩
    · rcases ih h hold with hr | ⟨e, he, hw⟩
      · exact Or.inl hr
      · exact Or.inr ⟨e, List.mem_cons_of_mem _ he, hw⟩

theorem History.extends {db₀ db : Db} {ds : List Commit} (h : History db₀ ds db)
    (hext : ∀ d ∈ ds, Extends d.before (d.before.apply d.written)) {d : Commit} (hd : d ∈ ds) :
    Extends (d.before.apply d.written) db := by
  induction ds generalizing db with
  | nil => cases hd
  | cons e ds ih =>
    obtain ⟨rfl, h⟩ := h
    rcases List.mem_cons.mp hd with rfl | hd
    · exact Extends.refl _
    · exact (ih h (fun f hf => hext f (List.mem_cons_of_mem _ hf)) hd).trans
        (hext e List.mem_cons_self)

def Commit.change (t : Table) (id : Uuid) (d : Commit) : Option (Versioned.Change Nat t.Row) :=
  if d.written.any fun e => decide (e.slot = (t, id)) then
    match d.before.get t id, (d.before.apply d.written).get t id with
    | some before, some after => some ⟨d.session, before, after⟩
    | _, _ => none
  else none

theorem Commit.change_eq_some {t : Table} {id : Uuid} {d : Commit}
    {x : Versioned.Change Nat t.Row} (h : d.change t id = some x) :
    (∃ e ∈ d.written, e.slot = (t, id)) ∧ d.session = x.writer ∧
      d.before.get t id = some x.before ∧ (d.before.apply d.written).get t id = some x.after := by
  unfold Commit.change at h
  split at h
  · next hw =>
    split at h
    · next before after hb ha =>
      cases h
      exact ⟨by simpa using List.any_eq_true.mp hw, rfl, hb, ha⟩
    · cases h
  · cases h

theorem Commit.change_isSome {t : Table} {id : Uuid} {d : Commit} {before : t.Row}
    (hw : ∃ e ∈ d.written, e.slot = (t, id)) (hb : d.before.get t id = some before) :
    ∃ x, d.change t id = some x := by
  have hsome := d.before.keeps_apply d.written t id (by simp [hb])
  obtain ⟨after, ha⟩ := Option.isSome_iff_exists.mp hsome
  have hany : d.written.any (fun e => decide (e.slot = (t, id))) = true :=
    List.any_eq_true.mpr (by simpa using hw)
  exact ⟨⟨d.session, before, after⟩, by simp only [Commit.change, hany, if_true, hb, ha]⟩

def changes (t : Table) (id : Uuid) (w : World) : List (Versioned.Change Nat t.Row) :=
  w.commits.filterMap (Commit.change t id)

theorem History.linked {db₀ db : Db} {ds : List Commit} (h : History db₀ ds db) {t : Table}
    {id : Uuid} {start : t.Row} (hstart : db₀.get t id = some start) :
    ∃ now, db.get t id = some now ∧
      Versioned.Linked start (ds.filterMap (Commit.change t id)) now := by
  induction ds generalizing db with
  | nil => exact ⟨start, h ▸ hstart, rfl⟩
  | cons d ds ih =>
    obtain ⟨rfl, h⟩ := h
    obtain ⟨mid, hmid, hlinked⟩ := ih h
    have hsome := d.before.keeps_apply d.written t id (by simp [hmid])
    obtain ⟨now, hnow⟩ := Option.isSome_iff_exists.mp hsome
    by_cases hw : d.written.any fun e => decide (e.slot = (t, id))
    · have hchange : d.change t id = some ⟨d.session, mid, now⟩ := by
        simp only [Commit.change, hw, if_true, hmid, hnow]
      exact ⟨now, hnow, by rw [List.filterMap_cons_some hchange]; exact ⟨rfl, hlinked⟩⟩
    · have hchange : d.change t id = none := by simp [Commit.change, hw]
      have hsame : (d.before.apply d.written).get t id = d.before.get t id :=
        Db.get_apply_of_ne _ fun e he hs => hw (List.any_eq_true.mpr ⟨e, he, by simp [hs]⟩)
      exact ⟨mid, hsame.trans hmid, by rw [List.filterMap_cons_none hchange]; exact hlinked⟩

theorem History.invariant {db₀ db : Db} {ds : List Commit} (I : Db → Prop) (h₀ : I db₀)
    (hstep : ∀ d ∈ ds, I d.before → I (d.before.apply d.written)) (h : History db₀ ds db) :
    I db := by
  induction ds generalizing db with
  | nil => exact h ▸ h₀
  | cons d ds ih =>
    obtain ⟨rfl, h⟩ := h
    exact hstep d List.mem_cons_self
      (ih (fun e he => hstep e (List.mem_cons_of_mem _ he)) h)

section

variable [Library] {calm : Table → Uuid → Prop}

/-- The contract holds of every run, and with it what the requests promise about their
answers, as long as others cannot undo it. -/
theorem verified_promise {post : Nat → Request → Except Exn Response → World → Prop}
    (hstart : ∀ i r w, w.rows i = [] → wp machine (contract calm) i r r.handle (post i r) w)
    (hkeep : ∀ i r a w w', Later i w w' → post i r a w → post i r a w') :
    Verified app (Calm calm) (contract calm) post where
  refl i r o w := ⟨Grew.refl i w, fun _ _ _ _ _ => rfl⟩
  trans i r o w w' w'' h h' := ⟨h.1.later_trans h'.1, fun t id set ho hc =>
    (h'.2 t id set ho hc).trans (h.2 t id set ho hc)⟩
  start c i r _ _ hfresh := hstart i r c.state hfresh
  act c i r o k w' hok hwf ht hguar := by
    obtain ⟨⟨a, he⟩, hallow⟩ := hguar
    have hex := World.executed he
    have hext : Extends c.state.db w'.db := by
      rcases hex.history with ⟨hdb, -⟩ | ⟨rfl, hdb, -⟩
      · rw [hdb]; exact Extends.refl _
      · rw [hdb]; exact Request.Writes.extends hallow
    refine ⟨hwf.executed hex, fun j hj => ?_⟩
    have hlater := hex.later hwf hj hext
    unfold Contract.Survives
    split
    · exact fun hrows => hlater.rows_eq.trans hrows
    · next r' a _ => exact hkeep j r' a _ _ hlater
    · next r' o' k' hj' =>
      refine ⟨hlater, fun t id set ho hc => ?_⟩
      subst ho
      rcases hex.history with ⟨hdb, -⟩ | ⟨rfl, hdb, -⟩
      · rw [hdb]
      · rw [hdb]
        exact Db.get_apply_of_ne _ fun e he =>
          (hok j hj r' t id set k' hj' hc e he).symm
  env c w' _ hwf he := by
    have hsame : w'.db = c.state.db ∧ w'.pending = c.state.pending ∧
        w'.trace = c.state.trace ∧ w'.faults = c.state.faults := by
      cases he <;> exact ⟨rfl, rfl, rfl, rfl⟩
    obtain ⟨hdb, hp, htrace, hfaults⟩ := hsame
    have hex : World.Executed 0 .clock c.state w' :=
      .of_db hdb hp (by rw [World.commits, htrace]; rfl) (by rw [htrace]; exact fun _ h => h)
        hfaults
    have hlater : ∀ j, Later j c.state w' := fun j =>
      ⟨hdb ▸ Extends.refl _, by simp [World.rows, hp], fun _ _ => by rw [hdb],
        hex.trace, hfaults⟩
    refine ⟨hwf.executed hex, fun j => ?_⟩
    unfold Contract.Survives
    split
    · exact fun hrows => (hlater j).rows_eq.trans hrows
    · next r' a _ => exact hkeep j r' a _ _ (hlater j)
    · exact ⟨hlater j, fun _ _ _ _ _ => by rw [hdb]⟩

theorem app_verified : Verified app (Calm calm) (contract calm) Answered := by
  refine verified_promise (fun i r w hrows => ?_) fun i r a w w' hl h => ?_
  · refine wp_mono (fun a w h => ?_) (handle_ensures r hrows)
    cases a with
    | ok a => exact h.1
    | error e => trivial
  · cases a with
    | ok a => exact fun hc => (h hc).mono hl.trace
    | error e => exact h

variable {c₀ c c' : AppConfig}

theorem Start.holds {post : Nat → Request → Except Exn Response → World → Prop} (h : Start c₀) :
    (contract calm).Holds app post c₀ :=
  Verified.holds_idle
    ⟨by simp [h.closed], by simp [h.closed], h.refs⟩ h.idle
    fun i => by simp [contract, World.rows, h.closed]

theorem Start.promised (post : Nat → Request → Response → World → Prop)
    (hpost : ∀ i r w, w.rows i = [] → Ensures calm i r r.handle (post i r) w)
    (hkeep : ∀ i r a w w', Later i w w' → post i r a w → post i r a w') (h₀ : Start c₀)
    (h : Reach app (Calm calm) c₀ c) {i : Nat} {r : Request} {a : Response}
    (ht : c.thread i = some ⟨r, .done (.ok a)⟩) : post i r a c.state := by
  have hverified : Verified app (Calm calm) (contract calm)
      fun i r => andThen (post i r) fun _ _ => True :=
    verified_promise (fun i r w hrows => hpost i r w hrows) fun i r a w w' hl hp => by
      cases a with
      | ok a => exact hkeep i r a w w' hl hp
      | error e => exact hp
  exact hverified.reach_post h₀.holds h ht

theorem Start.wellFormed (h₀ : Start c₀) (h : Reach app (Calm calm) c₀ c) :
    c.state.WellFormed := app_verified.reach_inv h₀.holds h

theorem Request.Allows.freezes {r : Request} {i : Nat} {w : World} {o : Op}
    (h : r.Allows calm i w o) : o.Freezes := by
  cases o <;> trivial

/-- Each operation of a run is executed within what its request allows. -/
theorem Start.allows (h₀ : Start c₀) (h : Reach app (Calm calm) c₀ c) {i : Nat} {o : Op}
    (hs : Step app c (.act i o) c') : ∃ r k, c.thread i = some ⟨r, .call o k⟩ ∧
      r.Allows calm i c.state o ∧ ∃ a, exec i o c.state a c'.state := by
  obtain ⟨r, k, ht, he, hall⟩ := app_verified.reach_guar h₀.holds h hs
  exact ⟨r, k, ht, hall, he⟩

/-- A step of a run leaves the committed rows alone, or it is a commit of rows that its
request may write. -/
theorem Start.step_db (h₀ : Start c₀) (h : Reach app (Calm calm) c₀ c) {l : AppLabel}
    (hs : Step app c l c') :
    (c'.state.db = c.state.db ∧ c'.state.commits = c.state.commits) ∨
      ∃ i r k, l = .act i .commit ∧ c.thread i = some ⟨r, .call Op.commit k⟩ ∧
        r.Writes calm c.state.db (c.state.rows i) ∧
        c'.state.db = c.state.db.apply (c.state.rows i) ∧
        c'.state.commits = ⟨i, c.state.db, c.state.rows i⟩ :: c.state.commits := by
  cases l with
  | start i r => cases hs; exact Or.inl ⟨rfl, rfl⟩
  | env => cases hs with | env he => cases he <;> exact Or.inl ⟨rfl, rfl⟩
  | act i o =>
    obtain ⟨r, k, ht, hall, a, he⟩ := h₀.allows h hs
    rcases (World.executed he).history with hsame | ⟨rfl, hdb, hc⟩
    · exact Or.inl hsame
    · exact Or.inr ⟨i, r, k, rfl, ht, hall, hdb, hc⟩

theorem Start.step_extends (h₀ : Start c₀) (h : Reach app (Calm calm) c₀ c) {l : AppLabel}
    (hs : Step app c l c') : Extends c.state.db c'.state.db := by
  rcases h₀.step_db h hs with ⟨hdb, -⟩ | ⟨i, r, k, -, -, hw, hdb, -⟩
  · rw [hdb]; exact Extends.refl _
  · rw [hdb]; exact hw.extends

theorem Start.frozen (h₀ : Start c₀) (h : Reach app (Calm calm) c₀ c) : c.state.Frozen := by
  induction h with
  | refl => simp [World.Frozen, h₀.closed]
  | @step d d' l hr hok hs ih =>
    cases l with
    | start i r => cases hs; exact ih
    | env => cases hs with | env he => cases he <;> exact ih
    | act i o =>
      obtain ⟨r, k, ht, hall, a, he⟩ := h₀.allows hr hs
      exact ih.executed (h₀.wellFormed hr) hall.freezes (World.executed he)

/-- Every transaction of a run was committed by one of its requests, as this request
may, and left no foreign key without its row. `P` is what the schedule condition says
about a commit. -/
theorem Start.history {ok : AppConfig → AppLabel → Prop} {P : Request → Db → List Entry → Prop}
    (h₀ : Start c₀) (hcalm : ∀ c l, ok c l → Calm calm c l)
    (hP : ∀ c i r k, ok c (.act i .commit) → c.thread i = some ⟨r, k⟩ →
      P r c.state.db (c.state.rows i))
    (h : Reach app ok c₀ c) :
    History c₀.state.db c.state.commits c.state.db ∧
    ∀ d ∈ c.state.commits, (d.before.apply d.written).Closed ∧
      ∃ r k, c.thread d.session = some ⟨r, k⟩ ∧ r.Writes calm d.before d.written ∧
        P r d.before d.written := by
  induction h with
  | refl => simp [World.commits, h₀.unlogged, History]
  | @step d d' l hr hok hs ih =>
    obtain ⟨hhist, hcommits⟩ := ih
    have hkeep : ∀ e : Commit, (∃ r k, d.thread e.session = some ⟨r, k⟩ ∧
        r.Writes calm e.before e.written ∧ P r e.before e.written) → ∃ r k,
        d'.thread e.session = some ⟨r, k⟩ ∧ r.Writes calm e.before e.written ∧
          P r e.before e.written := by
      rintro e ⟨r, k, ht, hw, hp⟩
      obtain ⟨⟨r', k'⟩, ht', rfl⟩ := hs.keeps_req ht
      exact ⟨_, k', ht', hw, hp⟩
    have hclosed := (h₀.wellFormed ((hr.mono hcalm).step (hcalm _ _ hok) hs)).refs
    rcases h₀.step_db (hr.mono hcalm) hs with ⟨hdb, hc⟩ | ⟨i, r, k, rfl, ht, hw, hdb, hc⟩
    · rw [hdb, hc]
      exact ⟨hhist, fun e he => (hcommits e he).imp_right (hkeep e)⟩
    · rw [hdb, hc]
      refine ⟨⟨rfl, hhist⟩, fun e he => ?_⟩
      rcases List.mem_cons.mp he with rfl | he
      · exact ⟨hdb ▸ hclosed, hkeep _ ⟨r, _, ht, hw, hP d i r _ hok ht⟩⟩
      · exact (hcommits e he).imp_right (hkeep e)

/-- Every change of a row was made by one of the requests, as this request may. -/
theorem Start.changed (h₀ : Start c₀) (h : Reach app (Calm calm) c₀ c) {t : Table} {id : Uuid}
    {x : Versioned.Change Nat t.Row} (hx : x ∈ changes t id c.state) :
    ∃ db es r k, c.thread x.writer = some ⟨r, k⟩ ∧ r.Writes calm db es ∧
      (∃ e ∈ es, e.slot = (t, id)) ∧ db.get t id = some x.before ∧
      (db.apply es).get t id = some x.after := by
  obtain ⟨d, hd, hchange⟩ := List.mem_filterMap.mp hx
  obtain ⟨hslot, hi, hb, ha⟩ := Commit.change_eq_some hchange
  obtain ⟨-, r, k, ht, hw, -⟩ := (h₀.history (P := fun _ _ _ => True) (fun _ _ hok => hok)
    (fun _ _ _ _ _ _ => trivial) h).2 d hd
  exact ⟨_, _, r, k, hi ▸ ht, hw, hslot, hb, ha⟩

theorem Start.linked (h₀ : Start c₀) (h : Reach app (Calm calm) c₀ c) {t : Table} {id : Uuid}
    {start : t.Row} (hstart : c₀.state.db.get t id = some start) :
    ∃ now, c.state.db.get t id = some now ∧ Versioned.Linked start (changes t id c.state) now :=
  (h₀.history (P := fun _ _ _ => True) (fun _ _ hok => hok)
    (fun _ _ _ _ _ _ => trivial) h).1.linked hstart

theorem Start.events (h₀ : Start c₀) (h : Reach app (Calm calm) c₀ c) :
    ∀ i e, (i, e) ∈ c.state.trace → ∃ r k, c.thread i = some ⟨r, k⟩ ∧ r.Logs c.state.db e := by
  induction h with
  | refl => simp [h₀.unlogged]
  | @step d d' l hr hok hs ih =>
    have hext := h₀.step_extends hr hs
    have hkeep : ∀ i e, (i, e) ∈ d.state.trace →
        ∃ r k, d'.thread i = some ⟨r, k⟩ ∧ r.Logs d'.state.db e := by
      intro i e hmem
      obtain ⟨r, k, ht, hl⟩ := ih i e hmem
      obtain ⟨⟨r', k'⟩, ht', rfl⟩ := hs.keeps_req ht
      exact ⟨_, k', ht', hl.mono hext⟩
    cases l with
    | start i r => cases hs; exact hkeep
    | env => cases hs with | env he => cases he <;> exact hkeep
    | act i o =>
      obtain ⟨r, k, ht, hall, a, he⟩ := h₀.allows hr hs
      rcases hall.logs he with hsame | ⟨e, hcons, hl⟩
      · rw [hsame]
        exact hkeep
      · rw [hcons]
        intro j e' hmem
        rcases List.mem_cons.mp hmem with heq | hold
        · obtain ⟨⟨r', k'⟩, ht', rfl⟩ := hs.keeps_req ht
          cases heq
          exact ⟨_, k', ht', hl.mono hext⟩
        · exact hkeep j e' hold

/-- An answered request that must commit has committed. -/
theorem Start.answered (h₀ : Start c₀) (h : Reach app (Calm calm) c₀ c) {i : Nat} {r : Request}
    {a : Response} (ht : c.thread i = some ⟨r, .done (.ok a)⟩) (hr : r.Commits) :
    Logged i c.state := app_verified.reach_post h₀.holds h ht hr

theorem Start.tells (h₀ : Start c₀) (h : Reach app (Calm calm) c₀ c) {i : Nat} {r : Request}
    {a : Response} (ht : c.thread i = some ⟨r, .done (.ok a)⟩) : r.Tells c.state.db a :=
  h₀.promised (fun _ r a w => r.Tells w.db a)
    (fun _ r _ hrows => (handle_ensures r hrows).mono fun _ _ ha => ha.2)
    (fun _ _ _ _ _ hl hp => hp.mono hl.db) h ht

/-- It has changed a row that it may only commit together with an update of this row. -/
theorem Start.answered_change (h₀ : Start c₀) (h : Reach app (Calm calm) c₀ c) {i : Nat}
    {r : Request} {a : Response} (ht : c.thread i = some ⟨r, .done (.ok a)⟩) (hr : r.Commits)
    {t : Table} {id : Uuid} (hup : ∀ db es, r.Writes calm db es →
      (∃ e ∈ es, e.slot = (t, id)) ∧ ∃ old, db.get t id = some old) :
    ∃ x ∈ changes t id c.state, x.writer = i := by
  obtain ⟨d, hd, hi⟩ := (h₀.answered h ht hr).commit
  obtain ⟨-, r', k, ht', hw, -⟩ := (h₀.history (P := fun _ _ _ => True) (fun _ _ hok => hok)
    (fun _ _ _ _ _ _ => trivial) h).2 d hd
  rw [hi, ht] at ht'
  cases ht'
  obtain ⟨hslot, old, hold⟩ := hup _ _ hw
  obtain ⟨x, hx⟩ := Commit.change_isSome hslot hold
  exact ⟨x, List.mem_filterMap.mpr ⟨d, hd, hx⟩, by rw [← (Commit.change_eq_some hx).2.1, hi]⟩

end

def Starting (P : Request → Prop) (_ : AppConfig) : AppLabel → Prop
  | .start _ r => P r
  | _ => True

def Committing (P : Request → Db → Bool) (c : AppConfig) : AppLabel → Prop
  | .act i .commit => ∀ r k, c.thread i = some ⟨r, k⟩ → P r c.state.db = true
  | _ => True

/-- What every transaction keeps holds in every state of every run. -/
theorem genesis_invariant [Library] {P : Request → Db → Bool} {faults : Faults} {now : Instant}
    {c : AppConfig} (I : Db → Prop) (h₀ : I .empty)
    (hstep : ∀ r db es, I db → r.Writes uncovered db es → (db.apply es).Closed → P r db = true →
      I (db.apply es))
    (h : Reach app (Committing P) (genesis faults now) c) : I c.state.db := by
  obtain ⟨hhist, hcommits⟩ := (start_genesis faults now).history (P := fun r db _ => P r db = true)
    (fun c l _ => calm_uncovered c l) (fun _ _ r k hok ht => hok r k ht) h
  refine hhist.invariant I h₀ fun d hd hI => ?_
  obtain ⟨hclosed, r, k, -, hw, hp⟩ := hcommits d hd
  exact hstep r d.before d.written hI hw hclosed hp

def unconditional (_ : Request) (_ : Db) : Bool := true

theorem committing_unconditional [Library] {c₀ c : AppConfig} (h : Reach app anySchedule c₀ c) :
    Reach app (Committing unconditional) c₀ c := by
  refine h.mono fun d l _ => ?_
  unfold Committing
  split
  · exact fun _ _ _ => rfl
  · trivial

namespace Ascii

/-- A library for concrete runs. It is right on ASCII texts; a hash is the salt and the
password, a URL names its object, and a time is its number. -/
scoped instance library : Library where
  lower s := s.map Char.toLower
  upper s := s.map Char.toUpper
  isAlnum := Char.isAlphanum
  foldCase := Char.toLower
  hashPassword salt password := salt.hex ++ '$' :: password
  verifyPassword password hash := hash.drop 33 == password
  presignedPut key _ _ := "https://storage/put/".toList ++ key
  presignedGet key _ := "https://storage/get/".toList ++ key
  isoformat := intText
  fromisoformat _ := none
  dumpPair a b := a.2 ++ ' ' :: b.2
  loadTexts _ := none
  urlsafeB64encode := id
  urlsafeB64decode := some
  parseUuid _ := none
  validateEmail s := if h : utf8Length s ≤ 254 then if '@' ∈ s then some ⟨s, h⟩ else none else none

end Ascii

def noFaults : Faults := ⟨false, false, false, false⟩

def signedToken (subject : Uuid) (tokenType : Str) (exp : Int) : Token :=
  ⟨true, { sub := some (some subject), jti := some tokenType, type := some tokenType,
           exp := some exp, iat := none }⟩

theorem ann_short : utf8Length "ann@example.org".toList ≤ 254 := by decide

theorem bob_short : utf8Length "bob@example.org".toList ≤ 254 := by decide

theorem cat_short : utf8Length "cat@example.org".toList ≤ 254 := by decide

def samplePassword : Bounded 8 128 := ⟨"password".toList, by decide, by decide⟩

def apolloName : Bounded 2 100 := ⟨"Apollo".toList, by decide, by decide⟩

def apolloKey : Bounded 2 10 := ⟨"APO".toList, by decide, by decide⟩

def launchTitle : Bounded 1 255 := ⟨"Launch".toList, by decide, by decide⟩

def registration (email : Str) (h : utf8Length email ≤ 254) : Request :=
  .register none ⟨⟨email, h⟩, samplePassword, ⟨"Name".toList, by decide, by decide⟩, none⟩

abbrev AppMove := Move Request Bool Turn

def solo (i : Nat) (r : Request) : List (AppMove) :=
  .start i r :: List.replicate 40 (.act i false)

def asAnn (req : TenantRequest) : Request :=
  .tenant (signedToken (drawnId 2) access 1000) (drawnId 4) req

def asBob (req : TenantRequest) : Request :=
  .tenant (signedToken (drawnId 9) access 1000) (drawnId 11) req

def annsProject : List (AppMove) :=
  solo 0 (registration "ann@example.org".toList ann_short) ++
  solo 1 (registration "bob@example.org".toList bob_short) ++
  solo 2 (asAnn (.createProject ⟨apolloName, apolloKey, none, none⟩))

def apolloTask : TenantRequest :=
  .createTask ⟨drawnId 15, launchTitle, none, .low, none, none, none⟩

@[simp] theorem start_mem_solo {i j : Nat} {r s : Request} :
    .start i r ∈ solo j s ↔ i = j ∧ r = s := by
  simp [solo]

section

variable [Library] {c : AppConfig} {moves : List (AppMove)}

def runMoves (c : AppConfig) (moves : List AppMove) : AppConfig :=
  c.play (M := app) scheduler moves

def Arrived (moves : List AppMove) (c : AppConfig) : Prop :=
  ∀ i t, c.thread i = some t → .start i t.req ∈ moves

theorem Arrived.move {m : AppMove} {c' : AppConfig} (h : Arrived moves c) (hm : m ∈ moves)
    (hs : c.move (M := app) scheduler m = some c') : Arrived moves c' := fun _ _ ht =>
  Config.move_req (M := app) scheduler (Q := fun i r => Move.start i r ∈ moves) hs
    (fun _ _ he => he ▸ hm) (fun i t ht => h i t ht) ht

omit [Library] in
theorem arrived_idle (hidle : ∀ i, c.thread i = none) : Arrived moves c := fun i t ht => by
  rw [hidle] at ht
  cases ht

theorem runMoves_reach {ok : AppConfig → AppLabel → Prop} (hidle : ∀ i, c.thread i = none)
    (hok : ∀ d, ∀ m ∈ moves, Arrived moves d → m.Allowed ok d) :
    Reach app ok c (runMoves c moves) :=
  Config.play_reach (M := app) scheduler (Arrived moves) (fun _ _ _ hm hI hs => hI.move hm hs)
    hok (arrived_idle hidle)

theorem runMoves_checked {ok : AppConfig → AppLabel → Prop} (check : AppConfig → AppMove → Bool)
    (hidle : ∀ i, c.thread i = none)
    (hok : ∀ d, ∀ m ∈ moves, Arrived moves d → check d m = true → m.Allowed ok d)
    (h : Config.passes (M := app) scheduler check c moves = true) :
    Reach app ok c (runMoves c moves) :=
  Config.passes_reach (M := app) scheduler (Arrived moves) (fun _ _ _ hm hI hs => hI.move hm hs)
    hok (arrived_idle hidle) h

theorem runMoves_path : Reach app anySchedule c (runMoves c moves) :=
  Config.play_reach (M := app) scheduler (fun _ => True) (fun _ _ _ _ _ _ => trivial)
    (fun d m _ _ => m.allowed_any d) trivial

theorem runMoves_any (hidle : ∀ i, c.thread i = none) :
    Reach app anySchedule c (runMoves c moves) :=
  runMoves_reach hidle fun d m _ _ => m.allowed_any d

theorem runMoves_req (hidle : ∀ i, c.thread i = none) {i : Nat}
    {t : Thread sig Exn Response Request}
    (ht : (runMoves c moves).thread i = some t) : .start i t.req ∈ moves :=
  Config.play_req (M := app) (c := c) scheduler
    (Q := fun i r => .start i r ∈ moves) (fun _ _ hm => hm)
    (fun i t ht => by rw [hidle] at ht; cases ht) ht

def commitMeets (P : Request → Db → Bool) (c : AppConfig) : AppMove → Bool
  | .act i _ =>
    match c.thread i with
    | some ⟨r, .call .commit _⟩ => P r c.state.db
    | _ => true
  | _ => true

omit [Library] in
theorem commitMeets_allowed {P : Request → Db → Bool} {m : AppMove}
    (hm : commitMeets P c m = true) : m.Allowed (Committing P) c := by
  cases m with
  | act i x =>
    intro r o k ht
    cases o with
    | commit =>
      simp only [commitMeets, ht] at hm
      intro r' k' ht'
      rw [ht] at ht'
      cases ht'
      exact hm
    | _ => trivial
  | _ => trivial

theorem runMoves_committing {P : Request → Db → Bool}
    (h : Config.passes (M := app) scheduler (commitMeets P) c moves = true) :
    Reach app (Committing P) c (runMoves c moves) :=
  Config.passes_reach (M := app) scheduler (fun _ => True) (fun _ _ _ _ _ _ => trivial)
    (fun _ _ _ _ hm => commitMeets_allowed hm) trivial h

omit [Library] in
theorem starting_allowed {P : Request → Prop} {m : AppMove} (hP : ∀ i r, m = .start i r → P r) :
    m.Allowed (Starting P) c := by
  cases m with
  | start i r => exact hP i r rfl
  | act i x => exact fun _ _ _ _ => trivial
  | env x => trivial

theorem runMoves_starting {P : Request → Prop} (hidle : ∀ i, c.thread i = none)
    (hP : ∀ i r, .start i r ∈ moves → P r) : Reach app (Starting P) c (runMoves c moves) :=
  runMoves_reach hidle fun _ _ hm _ => starting_allowed fun i r he => hP i r (he ▸ hm)

def accepted (c : AppConfig) (i : Nat) : Bool :=
  match c.thread i with
  | some ⟨_, .done (.ok _)⟩ => true
  | _ => false

theorem runMoves_accepted (hidle : ∀ i, c.thread i = none) {i : Nat}
    (h : accepted (runMoves c moves) i = true) : ∃ r a,
      (runMoves c moves).thread i = some ⟨r, .done (.ok a)⟩ ∧ .start i r ∈ moves := by
  unfold accepted at h
  split at h
  · next r a ht => exact ⟨r, a, ht, runMoves_req hidle ht⟩
  · cases h

def answer (c : AppConfig) (i : Nat) : Option (Except Exn Response) :=
  match c.thread i with
  | some ⟨_, .done a⟩ => some a
  | _ => none

omit [Library] in
theorem thread_of_answer {i : Nat} {a : Except Exn Response} (h : answer c i = some a) :
    ∃ r, c.thread i = some ⟨r, .done a⟩ := by
  unfold answer at h
  split at h
  · next r b ht =>
    cases h
    exact ⟨r, ht⟩
  · cases h

def refusedWith (c : AppConfig) (i : Nat) (e : Exn) : Bool :=
  match answer c i with
  | some (.error e') => e' = e
  | _ => false

omit [Library] in
theorem answer_of_refused {i : Nat} {e : Exn} (h : refusedWith c i e = true) :
    answer c i = some (.error e) := by
  unfold refusedWith at h
  split at h
  · next e' ha => rw [ha, of_decide_eq_true h]
  · cases h

/-- A request that runs alone disturbs no other. -/
theorem runMoves_calm {calm : Table → Uuid → Prop} {i : Nat} {r : Request}
    (hidle : ∀ i, c.thread i = none) : Reach app (Calm calm) c (runMoves c (solo i r)) := by
  refine runMoves_reach hidle fun d m _ hI => ?_
  have hsolo : ∀ j t, d.thread j = some t → j = i := fun j t ht => (start_mem_solo.mp (hI j t ht)).1
  cases m with
  | start j s => trivial
  | env x => trivial
  | act j x =>
    intro s o k ht
    cases o with
    | commit =>
      exact fun l hne s' t id set k' hl => absurd ((hsolo l _ hl).trans (hsolo j _ ht).symm) hne
    | _ => trivial

/-- No other of the first `n` threads is about to flush a row that thread `i` has written. -/
def spares (n : Nat) (c : AppConfig) : AppMove → Bool
  | .act i _ => (List.range n).all fun j => decide (j = i) ||
    match c.thread j with
    | some ⟨_, .call (.flushUpdate t id _) _⟩ =>
      (c.state.rows i).all fun e => decide (e.slot ≠ (t, id))
    | _ => true
  | _ => true

omit [Library] in
theorem spares_allowed {calm : Table → Uuid → Prop} {n : Nat} {m : AppMove}
    (hn : ∀ j t, c.thread j = some t → j < n) (h : spares n c m = true) :
    m.Allowed (Calm calm) c := by
  cases m with
  | start i r => trivial
  | env x => trivial
  | act i x =>
    intro r o k _
    cases o with
    | commit =>
      intro j hne s t id set k' hj _ e he
      have hspared := List.all_eq_true.mp h j (List.mem_range.mpr (hn j _ hj))
      rw [hj, decide_eq_false hne, Bool.false_or] at hspared
      exact of_decide_eq_true (List.all_eq_true.mp hspared e he)
    | _ => trivial

/-- The application when all requests so far have left: its rows, its stores and its
clock remain. -/
def restart (c : AppConfig) : AppConfig :=
  ⟨{ c.state with pending := [], trace := [] }, fun _ => none⟩

theorem start_restart {faults : Faults} {now : Instant}
    (h : Reach app anySchedule (genesis faults now) c) : Start (restart c) :=
  ⟨fun _ => rfl, rfl, rfl,
    ((start_genesis faults now).wellFormed (h.mono fun c l _ => calm_uncovered c l)).refs⟩

def nextMove (c : AppConfig) (m : AppMove) : AppConfig := (c.move (M := app) scheduler m).getD c

theorem move_step {m : AppMove} (h : (c.move (M := app) scheduler m).isSome) :
    ∃ l, Step app c l (nextMove c m) := by
  obtain ⟨c', hc'⟩ := Option.isSome_iff_exists.mp h
  obtain ⟨l, -, hs⟩ :=
    Config.move_step (M := app) scheduler hc' (m.allowed_any c)
  exact ⟨l, by rw [nextMove, hc']; exact hs⟩

end

end MultiTenantSaas
