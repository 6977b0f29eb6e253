import MultiTenantSaas.OneThread
import MultiTenantSaas.Runs

/-!
One request of a run, from its arrival to its answer, and the requests that only
read: what they find was committed at some moment in between.
-/

set_option autoImplicit false

namespace MultiTenantSaas

open Process

def Op.reads : Op → Bool
  | .rollback => true
  | o => o.quiet

/-- The answers of a database whose committed rows are one of `D`. -/
def From (D : Db → Prop) : (o : Op) → Except Exn o.Resp → Prop
  | .select q, a => ∀ rows, a = .ok rows → ∃ db, D db ∧ rows.Perm (q db)
  | _, _ => True

/-- The program only reads, and what it answers meets `Q`. -/
abbrev Finds {α : Type} (D : Db → Prop) (p : Coro α) (Q : α → Prop) : Prop :=
  Prog.Keeps (S := sig) (From D) (fun o => Op.reads o = true) (fun a => ∀ x, a = .ok x → Q x) p

section Returns

variable {α β : Type} {D : Db → Prop} {P : Op → Prop}

theorem returns_select {q : Db → List α} (h : P (.select q)) :
    Prog.Returns (S := sig) (From D) P (ask (.select q))
      fun rows => ∃ db, D db ∧ rows.Perm (q db) := ⟨h, fun _ ha => ha⟩

theorem returns_selectOne {q : Db → List α} (h : P (.select q)) :
    Prog.Returns (S := sig) (From D) P (selectOne q)
      fun x => ∀ r, x = some r → ∃ db, D db ∧ r ∈ q db := by
  refine (returns_select h).bind fun rows ⟨db, hdb, hperm⟩ => ?_
  match rows, hperm with
  | [], _ => exact Prog.returns_pure (by simp)
  | [r], hperm =>
    refine Prog.returns_pure fun x hx => ⟨db, hdb, ?_⟩
    cases hx
    exact hperm.subset List.mem_cons_self
  | _ :: _ :: _, _ => exact Prog.returns_throw

theorem returns_getById {t : Table} {o id : Uuid}
    (h : P (.select (rowsWhere t fun r => t.id r = id && inTenant t o false r))) :
    Prog.Returns (S := sig) (From D) P (getById t o id) fun x => ∀ r, x = some r →
      ∃ db, D db ∧ db.get t id = some r ∧ t.org r = some o ∧ t.isDeleted r = false :=
  (returns_selectOne h).mono fun a ha x hx r hr => by
    obtain ⟨db, hdb, hmem⟩ := ha x hx r hr
    have hc := (mem_rowsWhere.mp hmem).2
    simp only [inTenant, Bool.false_or, Bool.and_eq_true, decide_eq_true_eq,
      Bool.not_eq_true'] at hc
    exact ⟨db, hdb, Db.get_eq_some.mpr ⟨(mem_rowsWhere.mp hmem).1, hc.1⟩, hc.2.1, hc.2.2⟩

theorem returns_forEach {f : α → Coro β} {R : α → β → Prop} {as : List α}
    (hf : ∀ a ∈ as, Prog.Returns (S := sig) (From D) P (f a) (R a)) :
    Prog.Returns (S := sig) (From D) P (forEach f as) fun bs => ∀ b ∈ bs, ∃ a ∈ as, R a b := by
  induction as with
  | nil => exact Prog.returns_pure (by simp)
  | cons a as ih =>
    refine (hf a List.mem_cons_self).bind fun b hb =>
      (ih fun x hx => hf x (List.mem_cons_of_mem _ hx)).bind fun bs hbs => Prog.returns_pure ?_
    refine List.forall_mem_cons.mpr ⟨⟨a, List.mem_cons_self, hb⟩, fun x hx => ?_⟩
    obtain ⟨y, hy, hR⟩ := hbs x hx
    exact ⟨y, List.mem_cons_of_mem _ hy, hR⟩

theorem returns_withDbSession {L : (o : Op) → Except Exn o.Resp → Prop} {p : Coro α}
    {Q : α → Prop} (h : P .rollback) (hp : Prog.Returns (S := sig) L P p Q) :
    Prog.Returns (S := sig) L P (withDbSession p) Q := by
  have hrollback : Prog.Returns (S := sig) L P (ask .rollback) fun _ => True :=
    ⟨h, fun _ _ _ _ => trivial⟩
  exact (hp.tryCatch fun e => hrollback.bind fun _ _ => Prog.returns_throw).bind fun a ha =>
    hrollback.bind fun _ _ => Prog.returns_pure ha

theorem all_getCurrentUser (hclock : P .clock)
    (hselect : ∀ id, P (.select (rowsWhere .users fun r => Table.users.id r = id)))
    (bearer : Token) : Prog.All (S := sig) P (getCurrentUser bearer) := by
  refine Prog.All.bind (Prog.All.tryCatch ((all_decodeJwtToken hclock bearer).bind
    fun payload => all_ite trivial ?_) fun e => all_ite trivial trivial) fun userId =>
      (all_selectOne (hselect _)).bind ?_
  · cases payload.sub <;> trivial
  · rintro (_ | user)
    · trivial
    · exact all_ite trivial trivial

theorem returns_requireRole {minRole : OrgRole} {bearer : Token} {o : Uuid} (hclock : P .clock)
    (huser : ∀ id, P (.select (rowsWhere .users fun r => Table.users.id r = id)))
    (hmember : ∀ id, P (.select (rowsWhere .organizationMembers fun m =>
      OrganizationMember.organizationId m = o && OrganizationMember.userId m = id))) :
    Prog.Returns (S := sig) (From D) P (requireRole minRole bearer o)
      fun ctx => ctx.organizationId = o := by
  refine (all_getCurrentUser hclock huser bearer).returns.bind fun user _ =>
    (returns_selectOne (hmember _)).bind fun m _ => ?_
  cases m with
  | none => exact Prog.returns_throw
  | some m =>
    dsimp only
    split
    · exact Prog.returns_throw
    · exact Prog.returns_pure rfl

end Returns

section Finds

variable {α β : Type} {D : Db → Prop}

theorem finds_pure {a : α} {Q : α → Prop} (h : Q a) : Finds D (pure a) Q := Prog.returns_pure h

theorem finds_throw {e : Exn} {Q : α → Prop} : Finds D (throw e : Coro α) Q :=
  Prog.returns_throw

theorem finds_bind {p : Coro α} {f : α → Coro β} {R : α → Prop} {Q : β → Prop}
    (hp : Finds D p R) (hf : ∀ a, R a → Finds D (f a) Q) : Finds D (p >>= f) Q :=
  Prog.Returns.bind hp hf

theorem finds_select {q : Db → List α} :
    Finds D (ask (.select q)) fun rows => ∃ db, D db ∧ rows.Perm (q db) := returns_select rfl

theorem finds_ask {o : Op} (ho : o.reads = true) : Finds D (ask o) fun _ => True :=
  ⟨ho, fun _ _ _ _ => trivial⟩

theorem finds_withArguments {arguments : List Argument} {p : Coro α} {Q : α → Prop}
    (hp : Finds D p Q) : Finds D (withArguments arguments p) Q := by
  unfold withArguments
  split
  · exact hp
  · exact finds_throw

theorem finds_getById {t : Table} {o id : Uuid} :
    Finds D (getById t o id) fun x => ∀ r, x = some r →
      ∃ db, D db ∧ db.get t id = some r ∧ t.org r = some o ∧ t.isDeleted r = false :=
  returns_getById rfl

theorem finds_forEach {f : α → Coro β} {R : α → β → Prop} {as : List α}
    (hf : ∀ a ∈ as, Finds D (f a) (R a)) :
    Finds D (forEach f as) fun bs => ∀ b ∈ bs, ∃ a ∈ as, R a b := returns_forEach hf

/-- A transaction whose body always raises. -/
theorem finds_transaction {p : Coro α} {Q : α → Prop} (hp : Finds D p fun _ => False) :
    Finds D (transaction p) Q := by
  refine Prog.Keeps.tryCatch (Prog.Keeps.mono (finds_bind (Q := fun _ => False) hp
    fun _ => False.elim) fun a ha => ?_)
  cases a with
  | ok a => exact (ha a rfl).elim
  | error e => exact ⟨rfl, fun b _ => by cases b <;> exact nofun⟩

theorem finds_withDbSession {p : Coro α} {Q : α → Prop} (hp : Finds D p Q) :
    Finds D (withDbSession p) Q := returns_withDbSession rfl hp

theorem silent_getCurrentUser (bearer : Token) : Silent (getCurrentUser bearer) :=
  all_getCurrentUser (P := fun o => o.silent = true) rfl (fun _ => rfl) bearer

theorem silent_requireRole (minRole : OrgRole) (bearer : Token) (o : Uuid) :
    Silent (requireRole minRole bearer o) := by
  refine (silent_getCurrentUser bearer).bind fun user => (silent_selectOne _).bind ?_
  rintro (_ | m)
  · trivial
  · exact silent_ite trivial trivial

theorem finds_requireRole {minRole : OrgRole} {bearer : Token} {o : Uuid} :
    Finds D (requireRole minRole bearer o) fun ctx => ctx.organizationId = o :=
  returns_requireRole rfl (fun _ => rfl) fun _ => rfl

theorem finds_handle [Library] {bearer : Token} {o : Uuid} {req : TenantRequest}
    {Q : Response → Prop} (h : ∀ user role, Finds D (req.endpoint ⟨user, o, role⟩) Q) :
    Finds D (Request.handle (.tenant bearer o req)) Q :=
  finds_withDbSession <| finds_bind finds_requireRole fun ctx hctx => by
    obtain ⟨user, o', role⟩ := ctx
    cases hctx
    exact h user role

end Finds

section

variable [Library] {faults : Faults} {now : Instant} {c c' d : AppConfig}

/-- The request of thread `i` arrives in `c` and has been answered in `c'`. -/
structure Served (c c' : AppConfig) (i : Nat) (r : Request) (a : Except Exn Response) : Prop where
  idle : c.thread i = none
  reach : Reach app anySchedule (c.setThread i ⟨r, r.handle⟩ c.state) c'
  answered : c'.thread i = some ⟨r, .done a⟩

theorem Served.path {i : Nat} {r : Request} {a : Except Exn Response} (h : Served c c' i r a) :
    Reach app anySchedule c c' := (Reach.step .refl trivial (.start h.idle)).trans h.reach

/-- These rows were committed at some moment between `c` and `c'`. -/
def Between (c c' : AppConfig) (db : Db) : Prop :=
  ∃ d, Reach app anySchedule c d ∧ Reach app anySchedule d c' ∧ d.state.db = db

theorem reached_extends (h₀ : Reach app anySchedule (genesis faults now) c)
    (h : Reach app anySchedule c d) : Extends c.state.db d.state.db := by
  induction h with
  | refl => exact Extends.refl _
  | step hr _ hs ih =>
    exact ih.trans ((start_genesis faults now).step_extends
      ((h₀.trans hr).mono fun c l _ => calm_uncovered c l) hs)

theorem reached_faults {ok : AppConfig → AppLabel → Prop} (h : Reach app ok c d) :
    d.state.faults = c.state.faults := by
  induction h with
  | refl => rfl
  | step _ _ hs ih =>
    cases hs with
    | start => exact ih
    | act _ he => exact (World.executed he).faults.trans ih
    | env he => cases he <;> exact ih

theorem exec_now {i : Nat} {o : Op} {w w' : World} {a : Except Exn o.Resp}
    (h : exec i o w a w') : w'.now = w.now := by
  cases o <;> simp only [exec] at h
  case insert =>
    rcases h with ⟨id, -, h⟩ | ⟨rfl, -⟩
    · rcases World.insert_cases h with ⟨e, -, rfl⟩ | ⟨-, rfl, -⟩ <;> rfl
    · rfl
  case flushUpdate =>
    rcases h with h | ⟨rfl, -⟩
    · rcases World.flushUpdate_cases h with ⟨rfl, -⟩ | ⟨old, -, -, rfl, -⟩ <;> rfl
    · rfl
  case updateWhere =>
    rcases h with h | ⟨rfl, -⟩
    · rcases World.update_cases h with ⟨rfl, -⟩ | ⟨old, -, -, -, rfl, -⟩ <;> rfl
    · rfl
  case uuid4 =>
    obtain ⟨u, -, -, rfl⟩ := h
    rfl
  case clock | perfCounter | rollback | hubConnect | hubDisconnect =>
    obtain ⟨-, rfl⟩ := h
    rfl
  case select | redisGet | enqueue | wsAccept | wsClose | validateEmail | receiveText
      | receiveEnd =>
    obtain ⟨rfl, -⟩ := h
    rfl
  all_goals rcases h with ⟨-, rfl⟩ | ⟨rfl, -⟩ <;> rfl

theorem reached_now_le {ok : AppConfig → AppLabel → Prop} (h : Reach app ok c d) :
    c.state.now ≤ d.state.now := by
  induction h with
  | refl => exact le_refl _
  | step _ _ hs ih =>
    cases hs with
    | start hnone => exact ih
    | act ht he => exact ih.trans (exec_now he).ge
    | env he =>
      cases he with
      | tick now hle => exact ih.trans hle
      | listen k wake hub hl => exact ih

omit [Library] in
theorem World.rows_rollback (i : Nat) (w : World) : (w.rollback i).rows i = [] :=
  (World.rows_ended (i := i) (j := i) rfl).trans (if_pos rfl)

theorem step_rows {i : Nat} {l : AppLabel} (hs : Step app c l d) (hl : ∀ o, l ≠ .act i o) :
    d.state.rows i = c.state.rows i := by
  cases hs with
  | start hnone => rfl
  | @act j r o k a s' hj he =>
    have hij : i ≠ j := by
      rintro rfl
      exact hl o rfl
    exact (World.executed he).rows_of_ne hij
  | env he => cases he <;> rfl

theorem Op.reads_rows {i : Nat} {o : Op} {w w' : World} {a : Except Exn o.Resp}
    (ho : o.reads = true) (hrows : w.rows i = []) (he : exec i o w a w') : w'.rows i = [] := by
  by_cases hq : o.quiet = true
  · exact ((World.executed he).later_self hq).rows_eq.trans hrows
  · cases o with
    | rollback =>
      obtain ⟨-, rfl⟩ := he
      exact World.rows_rollback i w
    | _ => exact absurd ho hq

theorem reached_fresh (h₀ : Reach app anySchedule (genesis faults now) c) {i : Nat}
    (hidle : c.thread i = none) : c.state.rows i = [] := by
  have hholds := app_verified.reach_holds (start_genesis faults now).holds
    (h₀.mono fun c l _ => calm_uncovered c l)
  have hi := hholds.2 i
  simp only [hidle] at hi
  exact hi

theorem commit_arrived (h₀ : Reach app anySchedule (genesis faults now) c) {d : Commit}
    (hd : d ∈ c.state.commits) : ∃ r k, c.thread d.session = some ⟨r, k⟩ ∧
      r.Writes uncovered d.before d.written := by
  obtain ⟨-, r, k, ht, hw, -⟩ := ((start_genesis faults now).history (P := fun _ _ _ => True)
    (fun c l _ => calm_uncovered c l) (fun _ _ _ _ _ _ => trivial) h₀).2 d hd
  exact ⟨r, k, ht, hw⟩

theorem step_commits {i : Nat} {l : AppLabel} (hs : Step app c l d) (hl : ∀ o, l ≠ .act i o)
    (h : ∀ x ∈ c.state.commits, x.session ≠ i) : ∀ x ∈ d.state.commits, x.session ≠ i := by
  cases hs with
  | start hnone => exact h
  | @act j r o k a s' hj he =>
    change ∀ x ∈ s'.commits, x.session ≠ i
    rcases (World.executed he).history with ⟨-, hc⟩ | ⟨rfl, -, hc⟩ <;> rw [hc]
    · exact h
    · refine List.forall_mem_cons.mpr ⟨?_, h⟩
      rintro rfl
      exact hl _ rfl
  | env he => cases he <;> exact h

/-- What a request that only reads answers follows from the rows between its arrival and
its answer, and from what holds of every operation; and it commits nothing. -/
theorem reach_reads (h₀ : Reach app anySchedule (genesis faults now) c) {i : Nat} {r : Request}
    (hidle : c.thread i = none)
    (h : Reach app anySchedule (c.setThread i ⟨r, r.handle⟩ c.state) c')
    {R : (o : Op) → Except Exn o.Resp → Prop} {E : Except Exn Response → Prop}
    (hR : ∀ d o b w', Reach app anySchedule c d → Reach app anySchedule d c' →
      exec i o d.state b w' → R o b)
    (hr : Prog.Keeps (S := sig) (fun o b => From (Between c c') o b ∧ R o b)
      (fun o => Op.reads o = true) E r.handle) :
    (∀ a, c'.thread i = some ⟨r, .done a⟩ → E a) ∧ ∀ d ∈ c'.state.commits, d.session ≠ i := by
  have hstart : Reach app anySchedule c (c.setThread i ⟨r, r.handle⟩ c.state) :=
    .step .refl trivial (.start hidle)
  let J : World → Prop := fun w => w.rows i = [] ∧ ∀ d ∈ w.commits, d.session ≠ i
  have hown : ∀ (d : AppConfig) (o : Op) (k : Except Exn o.Resp → Coro Response)
      (b : Except Exn o.Resp) (w' : World),
      Reach app anySchedule (c.setThread i ⟨r, r.handle⟩ c.state) d →
      Reach app anySchedule d c' → anySchedule d (.act i o) →
      d.thread i = some ⟨r, .call o k⟩ → o.reads = true → J d.state →
      exec i o d.state b w' → (From (Between c c') o b ∧ R o b) ∧ J w' := by
    intro d o k b w' hcd hdc _ _ ho ⟨hrows, hcommits⟩ he
    refine ⟨⟨?_, hR d o b w' (hstart.trans hcd) hdc he⟩, Op.reads_rows ho hrows he, ?_⟩
    · cases o with
      | select q =>
        rintro rows rfl
        obtain ⟨-, ⟨rows', hr, hperm⟩ | ⟨-, hb⟩⟩ := he
        · cases hr
          rw [World.view_of_rows hrows] at hperm
          exact ⟨_, ⟨d, hstart.trans hcd, hdc, rfl⟩, hperm⟩
        · cases hb
      | _ => trivial
    · rcases (World.executed he).history with ⟨-, hc⟩ | ⟨rfl, -⟩
      · rw [hc]
        exact hcommits
      · cases ho
  have hfirst : J c.state := by
    refine ⟨reached_fresh h₀ hidle, fun d hd hi => ?_⟩
    obtain ⟨r', k, ht, -⟩ := commit_arrived h₀ hd
    rw [hi, hidle] at ht
    cases ht
  obtain ⟨p', ht, hp, -, hcommits⟩ := h.keeps J (Config.thread_setThread _ _ _ _)
    hr hfirst
    (fun _ _ _ _ _ hs hl hJ => ⟨(step_rows hs hl).trans hJ.1, step_commits hs hl hJ.2⟩) hown
  refine ⟨fun a ha => ?_, hcommits⟩
  rw [ha] at ht
  cases ht
  exact hp

theorem reach_finds (h₀ : Reach app anySchedule (genesis faults now) c) {i : Nat} {r : Request}
    (hidle : c.thread i = none)
    (h : Reach app anySchedule (c.setThread i ⟨r, r.handle⟩ c.state) c') {Q : Response → Prop}
    (hr : ∀ D : Db → Prop, (∀ db, D db → Between c c' db) → Finds D r.handle Q) :
    (∀ a, c'.thread i = some ⟨r, .done (.ok a)⟩ → Q a) ∧
      ∀ d ∈ c'.state.commits, d.session ≠ i := by
  have hreads := reach_reads h₀ hidle h (R := fun _ _ => True)
    (fun _ _ _ _ _ _ _ => trivial) ((hr (Between c c') fun _ => id).weaken fun _ _ hb => hb.1)
  exact ⟨fun a ha => hreads.1 _ ha a rfl, hreads.2⟩

theorem Served.finds (h₀ : Reach app anySchedule (genesis faults now) c) {i : Nat} {r : Request}
    {a : Response} (h : Served c c' i r (.ok a)) {Q : Response → Prop}
    (hr : ∀ D : Db → Prop, (∀ db, D db → Between c c' db) → Finds D r.handle Q) : Q a :=
  (reach_finds h₀ h.idle h.reach hr).1 a h.answered

theorem answer_thread {ok : AppConfig → AppLabel → Prop} {i : Nat} {r : Request} {p : Coro Response}
    {a : Except Exn Response} (hreach : Reach app ok c d) (ht : c.thread i = some ⟨r, p⟩)
    (h : answer d i = some a) : d.thread i = some ⟨r, .done a⟩ := by
  obtain ⟨r', hdone⟩ := thread_of_answer h
  obtain ⟨t', ht', hreq⟩ := hreach.keeps_req ht
  cases ht'.symm.trans hdone
  cases hreq
  exact hdone

theorem solo_started {i : Nat} {r : Request} (hidle : c.thread i = none) :
    runMoves c (solo i r) = runMoves (c.setThread i ⟨r, r.handle⟩ c.state)
      (List.replicate 40 (.act i false)) := by
  simp only [runMoves, solo, Config.play, List.foldl_cons, Config.move, hidle, Option.getD_some]
  rfl

theorem served_solo {i : Nat} {r : Request} {a : Except Exn Response}
    (hidle : (c.thread i).isNone) (h : answer (runMoves c (solo i r)) i = some a) :
    Served c (runMoves c (solo i r)) i r a := by
  have hnone : c.thread i = none := Option.isNone_iff_eq_none.mp hidle
  have hreach : Reach app anySchedule (c.setThread i ⟨r, r.handle⟩ c.state)
      (runMoves c (solo i r)) := by
    rw [solo_started hnone]
    exact runMoves_path
  exact ⟨hnone, hreach, answer_thread hreach (Config.thread_setThread _ _ _ _) h⟩

def answeredWith (c : AppConfig) (i : Nat) (p : Response → Bool) : Bool :=
  match answer c i with
  | some (.ok a) => p a
  | _ => false

omit [Library] in
theorem answeredWith_thread {i : Nat} {p : Response → Bool} (h : answeredWith c i p = true) :
    ∃ r a, c.thread i = some ⟨r, .done (.ok a)⟩ ∧ p a = true := by
  unfold answeredWith at h
  split at h
  · next a ha =>
    obtain ⟨r, ht⟩ := thread_of_answer ha
    exact ⟨r, a, ht, h⟩
  · cases h

theorem served_with {i : Nat} {r : Request} {p : Response → Bool} (hidle : (c.thread i).isNone)
    (h : answeredWith (runMoves c (solo i r)) i p = true) :
    ∃ a, Served c (runMoves c (solo i r)) i r (.ok a) ∧ p a = true := by
  unfold answeredWith at h
  split at h
  · next a ha => exact ⟨a, served_solo hidle ha, h⟩
  · cases h

theorem served_refused {i : Nat} {r : Request} {e : Exn} (hidle : (c.thread i).isNone)
    (h : refusedWith (runMoves c (solo i r)) i e = true) :
    Served c (runMoves c (solo i r)) i r (.error e) := served_solo hidle (answer_of_refused h)

end

end MultiTenantSaas
