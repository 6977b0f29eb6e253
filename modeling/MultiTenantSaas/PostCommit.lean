import MultiTenantSaas.AloneRuns
import MultiTenantSaas.Answering
import MultiTenantSaas.Atomicity

/-!
The endpoints that commit by themselves and go on after it. When nothing they still ask for
is answered with an exception, an exception of theirs means that nothing was committed.
-/

set_option autoImplicit false

namespace MultiTenantSaas

open Process

/-- The endpoints that commit outside of `UnitOfWork.transaction`. -/
def TenantRequest.commitsItself : TenantRequest → Bool
  | .inviteMember _ | .confirmAttachment _ _ | .deleteTask _ | .updateCurrentOrganization _ => true
  | .updateTask _ payload => payload.status.isNone
  | _ => false

def HasCommitted (i : Nat) (w : World) : Prop := ∃ d ∈ w.commits, d.session = i

def Op.asks : Op → Bool
  | .select _ | .presignGet _ _ | .validateEmail _ => true
  | _ => false

/-- After the commit of thread `i`, no lookup, no presigning and no validation of an address
for its response is answered with an exception. -/
def HeardAfterCommit (i : Nat) : Answering sig Exn World := fun j o w a =>
  j = i → HasCommitted i w → Op.asks o = true → ∃ x, a = .ok x

structure Beside (i : Nat) (w w' : World) : Prop where
  rows : w'.rows i = w.rows i
  committed : HasCommitted i w' ↔ HasCommitted i w
  keeps : w.db.Keeps w'.db

namespace Beside

variable {i : Nat} {w w' w'' : World}

theorem refl (i : Nat) (w : World) : Beside i w w := ⟨rfl, Iff.rfl, fun _ _ h => h⟩

theorem trans (h : Beside i w w') (h' : Beside i w' w'') : Beside i w w'' :=
  ⟨h'.rows.trans h.rows, h'.committed.trans h.committed,
    fun t id hs => h'.keeps t id (h.keeps t id hs)⟩

end Beside

def Uncommitted (acts : List AppAct) : Prop :=
  ∀ act ∈ acts, act.after.db = act.before.db ∧ act.after.commits = act.before.commits

theorem Uncommitted.append {acts acts' : List AppAct} (h : Uncommitted acts)
    (h' : Uncommitted acts') : Uncommitted (acts ++ acts') := fun act hact =>
  (List.mem_append.mp hact).elim (h act) (h' act)

section

variable [Library] {i : Nat} {w w' : World} {α β : Type}

theorem exec_keeps {j : Nat} {o : Op} {a : Except Exn o.Resp} (he : exec j o w a w') :
    w.db.Keeps w'.db := by
  rcases (World.executed he).history with ⟨hdb, -⟩ | ⟨-, hdb, -⟩ <;> rw [hdb]
  · exact fun _ _ h => h
  · exact w.db.keeps_apply _

theorem step_beside {c d : AppConfig} {l : AppLabel} (hs : Step app c l d)
    (hl : ∀ o, l ≠ .act i o) : Beside i c.state d.state := by
  refine ⟨step_rows hs hl, ?_, ?_⟩
  · cases hs with
    | start hnone => exact Iff.rfl
    | @act j r o k a s' hj he =>
      have hij : j ≠ i := fun hij => hl o (by rw [hij])
      change HasCommitted i s' ↔ HasCommitted i c.state
      unfold HasCommitted
      rcases (World.executed he).history with ⟨-, hc⟩ | ⟨-, -, hc⟩ <;> rw [hc]
      simp [hij]
    | env he => cases he <;> exact Iff.rfl
  · cases hs with
    | start hnone => exact fun _ _ h => h
    | act ht he => exact exec_keeps he
    | env he => cases he <;> exact fun _ _ h => h

abbrev Heard (i : Nat) (p : Coro α) (w : World) (acts : List AppAct) (a : Except Exn α)
    (w' : World) : Prop :=
  Amid (machine.answering (HeardAfterCommit i)) (Beside i) i p w acts a w'

theorem heard_gathers {p : Coro α} {acts : List AppAct} {a : Except Exn α} (hp : Gathers p)
    (h : Heard i p w acts a w') : Uncommitted acts := by
  induction h with
  | done => exact fun act hact => nomatch hact
  | call _ he _ ih =>
    obtain ⟨-, hcommit⟩ := Op.announces_of_gathers hp.1
    refine List.forall_mem_cons.mpr ⟨?_, ih (hp.2 _)⟩
    exact (World.executed he.1).history.resolve_right fun hc => hcommit hc.1

theorem heard_keeps {p : Coro α} {acts : List AppAct} {a : Except Exn α}
    (h : Heard i p w acts a w') : w.db.Keeps w'.db := by
  have hany : p.Keeps (S := sig) (fun _ _ => True) (fun _ => True) fun _ => True :=
    (Prog.all_of (fun _ => trivial) p).keeps
  refine (h.ends_within (fun u => w.db.Keeps u.db) hany (fun _ _ hs => hs)
    (fun u v hr hJ t id hs => hr.keeps t id (hJ t id hs))
    fun o u b v _ hJ he => ⟨trivial, fun t id hs => exec_keeps he.1 t id (hJ t id hs)⟩).2

/-- Whenever the program ends with an exception, it has committed nothing. -/
def Undone (i : Nat) (p : Coro α) (w : World) : Prop :=
  ∀ acts e w', Heard i p w acts (.error e) w' → Uncommitted acts

def Settled (i : Nat) (p : Coro α) (w : World) : Prop :=
  ∀ acts a w', Heard i p w acts a w' → ∃ x, a = .ok x

theorem undone_bind {p : Coro α} {f : α → Coro β} (hp : Gathers p)
    (hf : ∀ x acts w₁, Heard i p w acts (.ok x) w₁ → Undone i (f x) w₁) :
    Undone i (p >>= f) w := by
  intro acts e w' h
  rcases amid_bind.mp h with ⟨x, acts₁, acts₂, w₁, rfl, hrun, hrest⟩ | ⟨e', hrun, -⟩
  · exact (heard_gathers hp hrun).append (hf x acts₁ w₁ hrun acts₂ e w' hrest)
  · exact heard_gathers hp hrun

/-- A commit that fails leaves the rows as they were, and what follows one that does not
must not fail. -/
theorem undone_commit {f : Unit → Coro α} (hf : ∀ v, Beside i w v → Settled i (f ()) (v.commit i)) :
    Undone i (ask .commit >>= f) w := by
  intro acts e w' h
  rcases amid_bind.mp h with ⟨x, acts₁, acts₂, w₁, rfl, hcommit, hrest⟩ | ⟨e', hcommit, -⟩
  · obtain ⟨v, rfl, hr, ⟨-, rfl⟩ | ⟨-, -, hx⟩, -⟩ := amid_perform.mp hcommit
    · obtain ⟨y, hy⟩ := hf v hr _ _ _ hrest
      cases hy
    · cases hx
  · obtain ⟨v, rfl, -, ⟨hx, -⟩ | ⟨rfl, -⟩, -⟩ := amid_perform.mp hcommit
    · cases hx
    · exact List.forall_mem_singleton.mpr ⟨rfl, rfl⟩

theorem undone_throw {e : Exn} : Undone i (throw e : Coro α) w := by
  intro acts e' w' h
  obtain ⟨rfl, -, -⟩ := amid_done.mp h
  exact fun act hact => nomatch hact

theorem Undone.respond {p : Coro α} (h : Undone i p w) (g : α → β) :
    Undone i (p >>= fun x => pure (g x)) w := by
  intro acts e w' hrun
  rcases amid_bind.mp hrun with ⟨x, acts₁, acts₂, w₁, -, -, hend⟩ | ⟨e', hp, -⟩
  · cases (amid_done.mp hend).2.1
  · exact h _ _ _ hp

theorem Undone.session {p : Coro α} (h : Undone i p w) : Undone i (withDbSession p) w := by
  intro acts e w' hrun
  rcases amid_bind.mp hrun with ⟨x, acts₁, acts₂, w₁, -, -, hend⟩ | ⟨e', htry, -⟩
  · rcases amid_bind.mp hend with ⟨u, acts₃, acts₄, w₂, -, -, hpure⟩ | ⟨e', hback, -⟩
    · cases (amid_done.mp hpure).2.1
    · obtain ⟨v, -, -, ⟨hx, -⟩, -⟩ := amid_perform.mp hback
      cases hx
  · rcases amid_tryCatch.mp htry with ⟨y, -, hy⟩ | ⟨e'', acts₁, acts₂, w₁, rfl, hbody, hback⟩
    · cases hy
    · refine (h _ _ _ hbody).append ?_
      rcases amid_bind.mp hback with ⟨u, acts₃, acts₄, w₂, rfl, hroll, hthrow⟩ | ⟨e₃, hroll, -⟩
      · obtain ⟨v, rfl, -, ⟨-, rfl⟩, -⟩ := amid_perform.mp hroll
        obtain ⟨rfl, -, -⟩ := amid_done.mp hthrow
        exact List.forall_mem_singleton.mpr ⟨rfl, rfl⟩
      · obtain ⟨v, -, -, ⟨hx, -⟩, -⟩ := amid_perform.mp hroll
        cases hx

/-- What the operations answer once the session has committed rows that meet `K`. -/
def HeardOf (K : Db → Prop) : (o : Op) → Except Exn o.Resp → Prop
  | .select q, a => ∃ rows db, a = .ok rows ∧ K db ∧ rows.Perm (q db)
  | .presignGet _ _, a => ∃ url, a = .ok url
  | .validateEmail _, a => ∃ address, a = .ok address
  | _, _ => True

abbrev Succeeds (K : Db → Prop) (p : Coro α) : Prop :=
  Prog.Keeps (S := sig) (HeardOf K) (fun o => Op.quiet o = true) (fun a => ∃ x, a = .ok x) p

variable {K : Db → Prop}

omit [Library] in
theorem succeeds_pure (x : α) : Succeeds K (pure x) := ⟨x, rfl⟩

omit [Library] in
theorem succeeds_bind {p : Coro α} {f : α → Coro β} (hp : Succeeds K p)
    (hf : ∀ x, Succeeds K (f x)) : Succeeds K (p >>= f) :=
  Prog.Keeps.bind (hp.mono fun _ ⟨x, hx⟩ => hx ▸ hf x)

omit [Library] in
theorem succeeds_orDefault {x : α} {p : Coro α}
    (hp : Prog.All (S := sig) (fun o => Op.quiet o = true) p) : Succeeds K (orDefault x p) := by
  refine Prog.Keeps.tryCatch ((Prog.All.keeps hp).mono fun a _ => ?_)
  cases a with
  | ok y => exact ⟨y, rfl⟩
  | error e => exact ⟨x, rfl⟩

omit [Library] in
theorem succeeds_sessionGet {t : Table} {id : Uuid} : Succeeds K (sessionGet t id) := by
  rw [sessionGet, selectOne_eq]
  refine Prog.Keeps.bind ⟨rfl, ?_⟩
  rintro _ ⟨rows, db, rfl, -, hperm⟩
  rw [rowsWhere_id] at hperm
  change ∃ x, oneRow rows = .ok x
  rw [oneRow_perm hperm, oneRow_toList]
  exact ⟨_, rfl⟩

omit [Library] in
theorem succeeds_memberDetail (m : OrganizationMember) (u : User) :
    Succeeds K (Endpoints.memberDetail m u) :=
  succeeds_bind ⟨rfl, fun _ ha => ha⟩ fun _ => succeeds_pure _

omit [Library] in
theorem succeeds_refresh {t : Table} {id : Uuid} :
    Succeeds (fun db => (db.get t id).isSome) (refresh t id) := by
  rw [refresh, sessionGet, selectOne_eq]
  refine Prog.Keeps.bind (Prog.Keeps.bind ⟨rfl, ?_⟩)
  rintro _ ⟨rows, db, rfl, hrow, hperm⟩
  obtain ⟨r, hr⟩ := Option.isSome_iff_exists.mp hrow
  rw [rowsWhere_id, hr] at hperm
  obtain rfl : rows = [r] := List.perm_singleton.mp hperm
  exact ⟨r, rfl⟩

structure After (i : Nat) (K : Db → Prop) (w : World) : Prop where
  committed : HasCommitted i w
  rows : w.rows i = []
  known : K w.db

omit [Library] in
theorem after_commit (h : K w.db) (hK : ∀ db db' : Db, db.Keeps db' → K db → K db') :
    After i K (w.commit i) :=
  ⟨⟨_, List.mem_cons_self, rfl⟩, (World.rows_ended rfl).trans (if_pos rfl),
    hK _ _ (w.db.keeps_apply _) h⟩

theorem Succeeds.settled {p : Coro α} (hp : Succeeds K p)
    (hK : ∀ db db' : Db, db.Keeps db' → K db → K db') (hw : After i K w) : Settled i p w := by
  intro acts a w' h
  refine (h.ends_within (After i K) hp hw (fun u v hr hJ => ?_) fun o u b v ho hJ he => ?_).1
  · exact ⟨hr.committed.mpr hJ.committed, hr.rows.trans hJ.rows, hK _ _ hr.keeps hJ.known⟩
  · have hlater := (World.executed he.1).later_self ho
    have hheard := he.2 rfl hJ.committed
    refine ⟨?_, ?_, hlater.rows_eq.trans hJ.rows, hK _ _ (exec_keeps he.1) hJ.known⟩
    · cases o with
      | select q =>
        obtain ⟨rows, rfl⟩ := hheard rfl
        obtain ⟨-, ⟨rows', hr, hperm⟩ | ⟨-, hr⟩⟩ := he.1
        · cases hr
          exact ⟨rows, u.db, rfl, hJ.known, World.view_of_rows hJ.rows ▸ hperm⟩
        · cases hr
      | presignGet key expiresIn => exact hheard rfl
      | validateEmail email => exact hheard rfl
      | _ => trivial
    · obtain ⟨d, hd, hi⟩ := hJ.committed
      rcases (World.executed he.1).history with ⟨-, hc⟩ | ⟨-, -, hc⟩
      · exact ⟨d, hc ▸ hd, hi⟩
      · exact ⟨d, hc ▸ List.mem_cons_of_mem _ hd, hi⟩

/-- The commit of a handler whose remaining operations succeed. -/
theorem undone_after_commit {f : Unit → Coro α}
    (hK : ∀ db db' : Db, db.Keeps db' → K db → K db') (hknown : K w.db)
    (hf : Succeeds K (f ())) : Undone i (ask .commit >>= f) w :=
  undone_commit fun _ hr => hf.settled hK (after_commit (hK _ _ hr.keeps hknown) hK)

theorem heard_rows {p : Coro α} {acts : List AppAct} {a : Except Exn α} (hp : Silent p)
    (h : Heard i p w acts a w') (hrows : w.rows i = []) : w'.rows i = [] := by
  refine (h.ends_within (fun u => u.rows i = []) (Prog.All.keeps (L := fun _ _ => True) hp) hrows
    (fun u v hr hJ => hr.rows.trans hJ) fun o u b v ho hJ he => ⟨trivial, ?_⟩).2
  exact ((World.executed he.1).later_self (Op.quiet_of_silent ho)).rows_eq.trans hJ

theorem heard_selectOne {t : Table} {p : t.Row → Bool} {r : t.Row} {acts : List AppAct}
    (h : Heard i (selectOne (rowsWhere t p)) w acts (.ok (some r)) w') (hrows : w.rows i = []) :
    (w'.db.get t (t.id r)).isSome := by
  rw [selectOne_eq] at h
  rcases amid_bind.mp h with ⟨rows, acts₁, acts₂, w₁, -, hsel, hend⟩ | ⟨e, -, he⟩
  · obtain ⟨v, -, hr, ⟨rfl, ⟨rows', hrows', hperm⟩ | ⟨-, hx⟩⟩, -⟩ := amid_perform.mp hsel
    · cases hrows'
      obtain ⟨-, hone, rfl⟩ := amid_done.mp hend
      have hmem : r ∈ rows := by
        match rows, hone with
        | [x], hone => exact List.mem_singleton.mpr (Option.some.inj (Except.ok.inj hone))
      rw [World.view_of_rows (hr.rows.trans hrows)] at hperm
      have hstored := (mem_rowsWhere.mp (hperm.subset hmem)).1
      rw [Db.get_eq_some.mpr ⟨hstored, rfl⟩]
      rfl
    · cases hx
  · cases he

omit [Library] in
theorem keepsRow (t : Table) (id : Uuid) (db db' : Db) (h : db.Keeps db')
    (hrow : (db.get t id).isSome) : (db'.get t id).isSome := h t id hrow

variable {ctx : TenantContext}

theorem undone_inviteMember (payload : OrgMemberInviteRequest) :
    Undone i (Endpoints.inviteMember ctx payload) w := by
  refine undone_bind (gathers_selectOne _) fun user _ _ _ => ?_
  cases user with
  | none => exact undone_throw
  | some user =>
    refine undone_bind (gathers_selectOne _) fun existing _ _ _ => ?_
    dsimp only
    split
    · exact undone_bind trivial fun _ _ _ h => nomatch (amid_done.mp h).2.1
    · refine undone_bind (gathers_create _ _) fun member _ _ _ => ?_
      refine undone_after_commit (K := fun _ => True) (fun _ _ _ h => h) trivial ?_
      refine succeeds_bind succeeds_sessionGet fun org => ?_
      exact succeeds_bind (succeeds_orDefault ⟨rfl, fun _ => trivial⟩) fun _ =>
        succeeds_memberDetail _ _

theorem undone_confirmAttachment (taskId : Uuid) (payload : AttachmentConfirmCreate) :
    Undone i (Endpoints.confirmAttachment ctx taskId payload) w := by
  refine undone_bind (gathers_selectOne _) fun task _ _ _ => ?_
  cases task with
  | none => exact undone_throw
  | some task =>
    refine undone_bind (gathers_create _ _) fun attachment _ _ _ => ?_
    refine undone_after_commit (K := fun _ => True) (fun _ _ _ h => h) trivial ?_
    exact succeeds_bind ⟨rfl, fun _ ha => ha⟩ fun url => succeeds_pure _

theorem undone_deleteTask (taskId : Uuid) : Undone i (Endpoints.deleteTask ctx taskId) w := by
  refine undone_bind (gathers_selectOne _) fun task _ _ _ => ?_
  cases task with
  | none => exact undone_throw
  | some task =>
    refine undone_bind ((gathers_ask rfl).bind fun _ => trivial) fun success _ _ _ => ?_
    dsimp only
    split
    · exact undone_bind trivial fun _ _ _ h => nomatch (amid_done.mp h).2.1
    · refine undone_after_commit (K := fun _ => True) (fun _ _ _ h => h) trivial ?_
      exact succeeds_orDefault ⟨rfl, fun _ => trivial⟩

theorem undone_updateCurrentOrganization (hrows : w.rows i = []) (payload : OrganizationUpdate) :
    Undone i (Endpoints.updateCurrentOrganization ctx payload) w := by
  refine undone_bind (gathers_selectOne _) fun org _ w₁ hget => ?_
  cases org with
  | none => exact undone_throw
  | some org =>
    have hstored := heard_selectOne hget hrows
    have hgo : ∀ v : World, w₁.db.Keeps v.db → Undone i (do
        ask .commit
        let org ← refresh .organizations (Organization.id org)
        pure (OrganizationResponse.ofOrganization org)) v := fun v hv =>
      undone_after_commit (keepsRow .organizations (Organization.id org)) (hv _ _ hstored)
        (succeeds_bind succeeds_refresh fun _ => succeeds_pure _)
    dsimp only
    split
    · exact undone_bind (gathers_ask rfl) fun _ _ v hflush => hgo v (heard_keeps hflush)
    · exact hgo w₁ fun _ _ h => h

theorem undone_updateTaskFields (hrows : w.rows i = []) (taskId : Uuid) (payload : TaskUpdate) :
    Undone i (Endpoints.updateTaskFields ctx taskId payload) w := by
  refine undone_bind (gathers_selectOne _) fun task _ w₁ hget => ?_
  cases task with
  | none => exact undone_throw
  | some task =>
    have hstored := heard_selectOne hget hrows
    dsimp only
    split
    · exact undone_bind trivial fun _ _ _ h => nomatch (amid_done.mp h).2.1
    · refine undone_bind (gathers_ask rfl) fun _ _ v hflush => ?_
      refine undone_after_commit (keepsRow .tasks (Task.id task))
        (heard_keeps hflush _ _ hstored) ?_
      refine succeeds_bind succeeds_refresh fun _ => ?_
      exact succeeds_bind (succeeds_orDefault ⟨rfl, fun _ => trivial⟩) fun _ => succeeds_pure _

theorem undone_handle {bearer : Token} {o : Uuid} {req : TenantRequest}
    (hreq : req.commitsItself = true) (hrows : w.rows i = []) :
    Undone i (Request.tenant bearer o req).handle w := by
  refine Undone.session (undone_bind (gathers_requireRole _ _ _) fun ctx _ w₁ hrole => ?_)
  have hrows₁ := heard_rows (silent_requireRole _ _ _) hrole hrows
  cases req with
  | inviteMember payload => exact (undone_inviteMember payload).respond _
  | confirmAttachment taskId payload => exact (undone_confirmAttachment taskId payload).respond _
  | deleteTask taskId => exact (undone_deleteTask taskId).respond _
  | updateCurrentOrganization payload =>
    exact (undone_updateCurrentOrganization hrows₁ payload).respond _
  | updateTask taskId payload =>
    have hnone : payload.status = none := Option.isNone_iff_eq_none.mp hreq
    have hfields : Undone i (Endpoints.updateTaskFields ctx taskId payload) w₁ :=
      undone_updateTaskFields hrows₁ taskId payload
    simp only [TenantRequest.endpoint, Endpoints.updateTask, hnone]
    exact hfields.respond _
  | _ => cases hreq

theorem exec_committed {j : Nat} {o : Op} {a : Except Exn o.Resp} (he : exec j o w a w')
    (h : HasCommitted i w) : HasCommitted i w' := by
  obtain ⟨d, hd, hi⟩ := h
  rcases (World.executed he).history with ⟨-, hc⟩ | ⟨-, -, hc⟩
  · exact ⟨d, hc ▸ hd, hi⟩
  · exact ⟨d, hc ▸ List.mem_cons_of_mem _ hd, hi⟩

theorem reach_heard {c c' : AppConfig} (h : Reach app anySchedule c c')
    (hnot : ¬ HasCommitted i c'.state) :
    Reach (app.answering (HeardAfterCommit i)) anySchedule c c' := by
  induction h with
  | refl => exact .refl
  | @step d d' l hr hok hs ih =>
    cases hs with
    | start hnone => exact (ih hnot).step trivial (.start hnone)
    | @act j r o k a s' hj he =>
      have hbefore : ¬ HasCommitted i d.state := fun hd => hnot (exec_committed he hd)
      exact (ih hbefore).step trivial (.act hj ⟨he, fun _ hd => absurd hd hbefore⟩)
    | env he =>
      refine (ih ?_).step trivial (.env he)
      cases he <;> exact hnot

theorem runs_committed {p : Coro α} {a : Except Exn α} (h : Runs machine i p w a w')
    (hw : HasCommitted i w) : HasCommitted i w' := by
  induction h with
  | done => exact hw
  | call he _ ih => exact ih (exec_committed he hw)

theorem runs_heard {p : Coro α} {a : Except Exn α} (h : Runs machine i p w a w')
    (hnot : ¬ HasCommitted i w') :
    Runs (machine.answering (HeardAfterCommit i)) i p w a w' := by
  induction h with
  | done => exact .done
  | call he hrest ih =>
    have hbefore : ¬ HasCommitted i _ := fun hs => hnot (runs_committed (.call he hrest) hs)
    exact .call ⟨he, fun _ hs => absurd hs hbefore⟩ (ih hnot)

/-- A request that has ended with an exception has committed nothing exactly when, after its
commit, nothing was answered with an exception; alone, the committed rows are then those
before it. -/
theorem errors_undone {faults : Faults} {now : Instant} {c : AppConfig}
    (h : Reach app anySchedule (genesis faults now) c) (hidle : c.thread i = none)
    {bearer : Token} {o : Uuid} {req : TenantRequest} (hreq : req.commitsItself = true) :
    (∀ c' e, Reach app anySchedule (c.setThread i
          ⟨.tenant bearer o req, (Request.tenant bearer o req).handle⟩ c.state) c' →
        c'.thread i = some ⟨.tenant bearer o req, .done (.error e)⟩ →
        (¬ HasCommitted i c'.state ↔ Reach (app.answering (HeardAfterCommit i)) anySchedule
          (c.setThread i ⟨.tenant bearer o req, (Request.tenant bearer o req).handle⟩ c.state)
          c')) ∧
    ∀ e w', Runs (machine.answering (HeardAfterCommit i)) i (Request.tenant bearer o req).handle
      c.state (.error e) w' → w'.db = c.state.db := by
  have hrows := reached_fresh h hidle
  have hundone : Undone i (Request.tenant bearer o req).handle c.state :=
    undone_handle hreq hrows
  have hfresh : ¬ HasCommitted i c.state := fun ⟨d, hd, hi⟩ => by
    obtain ⟨r, k, ht, -⟩ := commit_arrived h hd
    rw [hi, hidle] at ht
    cases ht
  refine ⟨fun c' e hreach ht => ⟨reach_heard hreach, fun hheard => ?_⟩, fun e w' hrun => ?_⟩
  · obtain ⟨v, hv, hacts⟩ := hheard.amid (Beside.refl i)
      (fun _ _ _ => Beside.trans) (fun d l d' hs hl => step_beside hs.of_answering hl)
      (Config.thread_setThread _ _ _ _) ht
    obtain ⟨acts, hexec⟩ := hacts [] (.error e) v .done
    have hquiet := hundone _ _ _ hexec
    have hsame : HasCommitted i v = HasCommitted i c.state :=
      hexec.keeps (HasCommitted i) (fun _ _ hr => propext hr.committed) fun act hact => by
        unfold HasCommitted
        rw [(hquiet act hact).2]
    rw [hv.committed, hsame]
    exact hfresh
  · obtain ⟨acts, hexec⟩ := Amid.of_runs hrun
    have hquiet := hundone _ _ _ (hexec.mono fun u v (huv : u = v) => huv ▸ Beside.refl i u)
    exact hexec.keeps World.db (fun _ _ hr => by rw [hr]) fun act hact => (hquiet act hact).1

end

section

open scoped Ascii

def storageDown : Scheduler machine Unit Turn where
  next i _ o w := next i (match o with | .presignGet _ _ => true | _ => false) o w
  turn := turn
  exec _ _ _ _ _ _ := next_exec
  env _ _ _ := turn_environment

def stored : AppConfig :=
  runMoves (genesis ⟨false, false, true, false⟩ 0) (annsProject ++ solo 3 (asAnn apolloTask))

theorem stored_reached : Reach app anySchedule (genesis ⟨false, false, true, false⟩ 0) stored :=
  runMoves_any fun _ => rfl

theorem stored_idle : stored.thread 5 = none := Option.isNone_iff_eq_none.mp (by decide +kernel)

def confirmation : TenantRequest :=
  .confirmAttachment (drawnId 17) ⟨"plan.pdf".toList, 1024, "application/pdf".toList,
    fileKeyPrefix (drawnId 4) (drawnId 17) ++ "plan.pdf".toList⟩

def failedWith {α : Type} (P : World → Bool) (r : Except Exn α × World) : Bool :=
  match r.1 with
  | .ok _ => false
  | .error _ => P r.2

theorem failedWith_runs {η : Type} (sch : Scheduler machine η Turn) (x : η) {i : Nat} {r : Request}
    {w : World} {P : World → Bool}
    (h : (r.handle.alone sch i x 40 w).any (failedWith P) = true) :
    ∃ e w', Runs machine i r.handle w (.error e) w' ∧ P w' = true := by
  obtain ⟨⟨a, w'⟩, hsome, hfailed⟩ := (Option.any_eq_true _ _).mp h
  cases a with
  | ok x => cases hfailed
  | error e => exact ⟨e, w', Prog.alone_runs hsome, hfailed⟩

theorem missing_undone : ∃ e w', Runs machine 5 (asAnn (.deleteTask (drawnId 99))).handle
    stored.state (.error e) w' ∧ w'.db = stored.state.db := by
  obtain ⟨e, w', hrun, hnone⟩ : ∃ e w', Runs machine 5 (asAnn (.deleteTask (drawnId 99))).handle
      stored.state (.error e) w' ∧ (w'.commits.all fun d => decide (d.session ≠ 5)) = true :=
    failedWith_runs scheduler false (by decide +kernel)
  have hnot : ¬ HasCommitted 5 w' := fun ⟨d, hd, hi⟩ =>
    of_decide_eq_true (List.all_eq_true.mp hnone d hd) hi
  exact ⟨e, w', hrun, (errors_undone stored_reached stored_idle rfl).2 e w' (runs_heard hrun hnot)⟩

/-- When the download URL cannot be presigned, the attachment is committed all the same. -/
theorem errors_not_undone : ¬ ∀ (faults : Faults) (now : Instant) (c : AppConfig) (i : Nat)
    (bearer : Token) (o : Uuid) (req : TenantRequest) (e : Exn) (w' : World),
    Reach app anySchedule (genesis faults now) c → c.thread i = none →
    req.commitsItself = true → Runs machine i (Request.tenant bearer o req).handle c.state
      (.error e) w' → w'.db = c.state.db := by
  intro hall
  obtain ⟨e, w', hrun, hrow⟩ : ∃ e w', Runs machine 5 (asAnn confirmation).handle stored.state
      (.error e) w' ∧ (w'.db.get .attachments (drawnId 19)).isSome = true :=
    failedWith_runs storageDown () (by decide +kernel)
  have hnone : (stored.state.db.get .attachments (drawnId 19)).isNone = true := by decide +kernel
  have hsame := hall _ 0 stored 5 _ _ confirmation e w' stored_reached stored_idle rfl hrun
  rw [hsame] at hrow
  rw [Option.isNone_iff_eq_none.mp hnone] at hrow
  cases hrow

end

end MultiTenantSaas
