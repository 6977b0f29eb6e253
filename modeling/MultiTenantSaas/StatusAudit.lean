import MultiTenantSaas.ProjectDiffs

/-!
Whether the audit row of a status PATCH tells the truth. Its states come from the row that
was selected, while a later UPDATE decides on the version it finds.
-/

set_option autoImplicit false

namespace MultiTenantSaas

open Process

def StatusCall (taskId : Uuid) : Request → Prop
  | .tenant _ _ (.updateTask id payload) => id = taskId ∧ payload.status.isSome
  | _ => False

/-- No call commits the task at the version that another one expects which has selected
the task and not updated it yet. -/
def Unovertaken (taskId : Uuid) (c : AppConfig) : AppLabel → Prop
  | .act i .commit => ∀ j, j ≠ i → ∀ r criteria set k,
    c.thread j = some ⟨r, .call (Op.updateWhere .tasks taskId criteria set) k⟩ →
    ∀ task : Task, (⟨.tasks, task⟩ : Entry) ∈ c.state.rows i → task.id = taskId →
      r.taskVersion ≠ some task.versionId
  | _ => True

structure AuditLog.TellsStatus (a : AuditLog) (old new : Task) : Prop where
  before : a.beforeState = some old.statusState
  after : a.afterState = some new.statusState
  version : new.versionId = old.versionId + 1

/-- The audit rows of a task tell its updates, one for one, and each starts from the state
in which the one before it ends. -/
structure StatusTruthful (taskId : Uuid) (c : AppConfig) : Prop where
  accepted : ∀ i bearer o payload a,
    c.thread i = some ⟨.tenant bearer o (.updateTask taskId payload), .done (.ok a)⟩ →
    ∃ x ∈ changes .tasks taskId c.state, x.writer = i
  told : List.Forall₂ (fun x (a : AuditLog) => a.TellsStatus x.before x.after)
    (changes .tasks taskId c.state) (auditTrail .task taskId c.state)
  chained : (auditTrail .task taskId c.state).IsChain fun later earlier =>
    later.beforeState = earlier.afterState

section

variable [Library]

/-- Between two operations of a session its rows stay locked, and what the UPDATE of the
task finds at the expected version was selected. The commit of a status PATCH records what
it does. -/
def selectedContract (taskId : Uuid) : Contract sig Request World where
  inv _ := True
  fresh i w := w.rows i = []
  rely i r o w w' := Later i w w' ∧ ∀ criteria set, o = Op.updateWhere .tasks taskId criteria set →
    ∀ task, w'.db.get .tasks taskId = some task → r.taskVersion = some (Task.versionId task) →
      w.db.get .tasks taskId = some task
  guar i r o w w' := (∃ a, exec i o w a w') ∧ (StatusCall taskId r → Recording r i w o)

def Guarded (c : AppConfig) (l : AppLabel) : Prop :=
  c.state.WellFormed ∧ ∀ c', Step app c l c' → Extends c.state.db c'.state.db

theorem Start.guarded {c₀ c : AppConfig} {ok : AppConfig → AppLabel → Prop} (h₀ : Start c₀)
    (h : Reach app ok c₀ c) (l : AppLabel) : Guarded c l := by
  have hcalm := h.mono fun d l _ => calm_uncovered d l
  exact ⟨h₀.wellFormed hcalm, fun c' hs => h₀.step_extends hcalm hs⟩

theorem selected_verified {taskId : Uuid} (hstart : ∀ i r w, w.rows i = [] →
    wp machine (selectedContract taskId) i r r.handle (fun _ _ => True) w) :
    Verified app (fun c l => Unovertaken taskId c l ∧ Guarded c l) (selectedContract taskId)
      (fun _ _ _ _ => True) where
  refl i r o w := ⟨Grew.refl i w, fun _ _ _ _ h _ => h⟩
  trans i r o w w' w'' h h' := ⟨h.1.later_trans h'.1, fun criteria set ho task hget hv =>
    h.2 criteria set ho task (h'.2 criteria set ho task hget hv) hv⟩
  start c i r _ _ hfresh := hstart i r c.state hfresh
  act c i r o k w' hok _ ht hguar := by
    obtain ⟨⟨a, he⟩, -⟩ := hguar
    obtain ⟨hover, hwf, hext⟩ := hok
    have hex := World.executed he
    refine ⟨trivial, fun j hj => ?_⟩
    have hlater := hex.later hwf hj (hext _ (.act ht he))
    unfold Contract.Survives
    split
    · exact hlater.rows_eq.trans
    · exact fun _ => trivial
    · next r' o' k' hj' =>
      refine ⟨hlater, fun criteria set ho task hget hv => ?_⟩
      subst ho
      rcases hex.history with ⟨hdb, -⟩ | ⟨rfl, hdb, -⟩
      · rwa [hdb] at hget
      · rw [hdb] at hget
        obtain ⟨hmem, hid⟩ := Db.get_eq_some.mp hget
        rcases Db.mem_apply hmem with hw | ⟨hold, -⟩
        · exact absurd hv (hover j hj r' criteria set k' hj' task hw hid)
        · exact Db.get_eq_some.mpr ⟨hold, hid⟩
  env c w' _ _ he := by
    have hsame : w'.db = c.state.db ∧ w'.pending = c.state.pending ∧
        w'.trace = c.state.trace ∧ w'.faults = c.state.faults := by
      cases he <;> exact ⟨rfl, rfl, rfl, rfl⟩
    obtain ⟨hdb, hp, htrace, hfaults⟩ := hsame
    have hlater : ∀ j, Later j c.state w' := fun j =>
      ⟨hdb ▸ Extends.refl _, by simp [World.rows, hp], fun _ _ => by rw [hdb],
        fun _ h => htrace ▸ h, hfaults⟩
    refine ⟨trivial, fun j => ?_⟩
    unfold Contract.Survives
    split
    · exact (hlater j).rows_eq.trans
    · exact fun _ => trivial
    · exact ⟨hlater j, fun _ _ _ _ hget _ => hdb ▸ hget⟩

def Selected (taskId : Uuid) (i : Nat) (r : Request) {α : Type} (p : Coro α)
    (Q : α → World → Prop) (w : World) : Prop :=
  wp machine (selectedContract taskId) i r p (andThen Q fun _ _ => True) w

variable {α β : Type} {taskId : Uuid} {i : Nat} {r : Request} {w : World}

theorem selected_throw {e : Exn} {Q : α → World → Prop} :
    Selected taskId i r (throw e : Coro α) Q w := trivial

theorem selected_bind {p : Coro α} {f : α → Coro β} {Q : β → World → Prop}
    (h : Selected taskId i r p (fun a => Selected taskId i r (f a) Q) w) :
    Selected taskId i r (p >>= f) Q w := (wp_bind p f _ w).mpr h

theorem selected_tryCatch {p : Coro α} {h : Exn → Coro α} {Q : α → World → Prop}
    (hp : Selected taskId i r p Q w) (hh : ∀ e w, Selected taskId i r (h e) Q w) :
    Selected taskId i r (tryCatch p h) Q w := by
  refine (wp_tryCatch p h _ w).mpr (wp_mono (fun a s => ?_) hp)
  cases a with
  | ok a => exact fun h => h
  | error e => exact fun _ => hh e s

theorem selected_ask {o : Op} {Q : o.Resp → World → Prop}
    (h : ∀ w₁, (selectedContract taskId).rely i r o w w₁ →
      Recording r i w₁ o ∧ ∀ a w', exec i o w₁ (.ok a) w' → Q a w') :
    Selected taskId i r (ask o) Q w := by
  intro w₁ hrely _ a w' he
  obtain ⟨hrec, hQ⟩ := h w₁ hrely
  refine ⟨⟨⟨a, he⟩, fun _ => hrec⟩, ?_⟩
  cases a with
  | error e => trivial
  | ok a => exact hQ a w' he

theorem selected_any {p : Coro α} {Q : α → World → Prop}
    (hp : p.All fun o => ∀ w, Recording r i w o) (hQ : ∀ a w, Q a w) :
    Selected taskId i r p Q w := by
  induction p generalizing w with
  | done a =>
    cases a with
    | ok a => exact hQ a w
    | error e => trivial
  | call o k ih => exact fun w₁ _ _ a w' he => ⟨⟨⟨a, he⟩, fun _ => hp.1 w₁⟩, ih a (hp.2 a)⟩

theorem selected_silent {p : Coro α} {Q : α → World → Prop} (hp : Silent p)
    (hQ : ∀ a w', w'.rows i = w.rows i → Q a w') : Selected taskId i r p Q w := by
  induction p generalizing w with
  | done a =>
    cases a with
    | ok a => exact hQ a w rfl
    | error e => trivial
  | call o k ih =>
    intro w₁ hrely _ a w' he
    have hlater := hrely.1.later_trans
      ((World.executed he).later_self (Op.quiet_of_silent hp.1))
    refine ⟨⟨⟨a, he⟩, fun _ => ?_⟩, ih a (hp.2 a) fun b w'' h => hQ b w'' (h.trans hlater.rows_eq)⟩
    have hsilent : o.silent = true := hp.1
    cases o <;> trivial

theorem selected_other {p : Coro α} (hr : ¬ StatusCall taskId r) :
    wp machine (selectedContract taskId) i r p (fun _ _ => True) w := by
  induction p generalizing w with
  | done a => trivial
  | call o k ih => exact fun w₁ _ _ a w' he => ⟨⟨⟨a, he⟩, fun h => absurd h hr⟩, ih a⟩

theorem selected_getById {t : Table} {o id : Uuid} {f : Option t.Row → Coro α}
    {Q : α → World → Prop} {e : Exn} (hrows : w.rows i = []) (hnone : f none = throw e)
    (hsome : ∀ x w', w'.rows i = [] → w'.db.get t id = some x →
      Selected taskId i r (f (some x)) Q w') :
    Selected taskId i r (getById t o id >>= f) Q w := by
  refine selected_bind (selected_bind (selected_ask fun w₁ hrely =>
    ⟨trivial, fun rows w' he => ?_⟩))
  obtain ⟨rfl, ⟨rows', hr, hperm⟩ | ⟨-, hr⟩⟩ := he
  case inr => cases hr
  cases hr
  have hrows₁ := hrely.1.rows_eq.trans hrows
  rw [World.view_of_rows hrows₁] at hperm
  match rows, hperm with
  | [], _ =>
    change Selected taskId i r (f none) Q _
    rw [hnone]
    exact selected_throw
  | [x], hperm =>
    have hx := mem_rowsWhere.mp (hperm.subset List.mem_cons_self)
    refine hsome x _ hrows₁ (Db.get_eq_some.mpr ⟨hx.1, ?_⟩)
    exact of_decide_eq_true (Bool.and_eq_true_iff.mp hx.2).1
  | _ :: _ :: _, _ => exact selected_throw

/-- The UPDATE that finds the expected version finds the row that was selected. -/
theorem selected_updateWhere {criteria : Task → Bool} {set : Instant → Task → Task}
    {existing : Task}
    {Q : Option Task → World → Prop} (hrows : w.rows i = [])
    (hget : w.db.get .tasks taskId = some existing)
    (hcriteria : ∀ task, criteria task = true → r.taskVersion = some task.versionId)
    (hnone : ∀ w', Q none w')
    (hsome : ∀ now w', w'.rows i = [⟨.tasks, set now existing⟩] →
      w'.db.get .tasks taskId = some existing → criteria existing = true →
      Q (some (set now existing)) w') :
    Selected taskId i r (ask (.updateWhere .tasks taskId criteria set)) Q w := by
  refine selected_ask fun w₁ hrely => ⟨trivial, fun a w' he => ?_⟩
  rcases he with he | ⟨-, -, he⟩
  case inr => cases he
  have hrows₁ := hrely.1.rows_eq.trans hrows
  rcases World.update_cases he with ⟨rfl, ha⟩ | ⟨old, hold, hc, ha, rfl, -⟩
  · cases a with
    | none => exact hnone _
    | some x => exact absurd rfl (ha x)
  · rw [World.view_of_rows hrows₁] at hold
    have hsame := hrely.2 criteria set rfl old hold (hcriteria old hc)
    cases hsame.symm.trans hget
    cases ha
    refine hsome w₁.now _ ?_ hold hc
    have hwrote : (w₁.write i ⟨.tasks, set w₁.now existing⟩).rows i =
        w₁.rows i ++ [⟨.tasks, set w₁.now existing⟩] := (World.rows_wrote rfl).trans (if_pos rfl)
    rw [hwrote, hrows₁]
    rfl

theorem selected_insert {t : Table} {values : Uuid → Instant → t.Row} {Q : t.Row → World → Prop}
    (hQ : ∀ id now w₁ w', Later i w w₁ → w'.db = w₁.db →
      w'.rows i = w₁.rows i ++ [⟨t, values id now⟩] → Q (values id now) w') :
    Selected taskId i r (ask (.insert t values)) Q w := by
  refine selected_ask fun w₁ hrely => ⟨trivial, fun a w' he => ?_⟩
  rcases he with ⟨id, -, he⟩ | ⟨-, -, he⟩
  case inr => cases he
  rcases World.insert_cases he with ⟨e, he, -⟩ | ⟨ha, rfl, -⟩
  · cases he
  · cases ha
    exact hQ id w₁.now w₁ _ hrely.1 rfl ((World.rows_wrote rfl).trans (if_pos rfl))

theorem selected_rollback {e : Exn} {Q : α → World → Prop} :
    Selected taskId i r (do ask .rollback; throw e : Coro α) Q w :=
  selected_bind (selected_ask fun _ _ => ⟨trivial, fun _ _ _ => selected_throw⟩)

theorem selected_updateTaskStatus {bearer : Token} {o : Uuid} {payload : TaskUpdate}
    {status : TaskStatus} (hs : payload.status = some status) {ctx : TenantContext}
    (hrows : w.rows i = []) :
    Selected taskId i (.tenant bearer o (.updateTask taskId payload))
      (Endpoints.updateTaskStatus ctx taskId status payload.expectedVersion.val)
      (fun _ _ => True) w := by
  refine selected_bind (wp_mono (fun a w _ => ?_) (selected_tryCatch (Q := fun _ _ => True)
    (selected_bind (selected_getById hrows rfl fun existing w₁ hrows₁ hget => ?_)) fun e w =>
      selected_rollback))
  · cases a with
    | ok a =>
      exact selected_any
        (((Prog.all_perform fun _ => trivial).tryCatch fun _ => Prog.all_pure _).bind
        fun _ => Prog.all_pure _) fun _ _ => trivial
    | error e => trivial
  refine selected_bind (selected_updateWhere hrows₁ hget (fun task hc => ?_)
    (fun w₂ => ?_) fun now w₂ hrows₂ hget₂ hcriteria => ?_)
  · exact congrArg some (statusCriteria_holds hc).1.symm
  · exact selected_bind selected_throw
  simp only [Option.isNone_some, Bool.false_eq_true, if_false, hcriteria, if_true]
  have hid : existing.id = taskId := (Db.get_eq_some.mp hget₂).2
  refine selected_bind (selected_bind (selected_insert fun id now' w₃ w₄ hlater₃ hdb₄ hrows₄ => ?_))
  refine selected_bind (selected_ask fun w₅ hrely₅ => ⟨fun status' hs' => ?_, fun _ _ _ => trivial⟩)
  cases hs.symm.trans hs'
  let written : Entry :=
    ⟨.tasks, { setStatus status payload.expectedVersion.val existing with updatedAt := now }⟩
  have hmem₃ : written ∈ w₂.rows i := by
    rw [hrows₂]
    exact List.mem_cons_self
  have hmem₄ : written ∈ w₄.rows i := by
    rw [hrows₄, hlater₃.rows_eq]
    exact List.mem_append_left _ hmem₃
  have hget₃ : w₃.db.get .tasks taskId = some existing := by
    rw [← hget₂, ← hid]
    exact hlater₃.locked _ hmem₃
  have hget₅ : w₅.db.get .tasks taskId = some existing := by
    rw [← hget₃, ← hdb₄, ← hid]
    exact hrely₅.1.locked _ hmem₄
  refine ⟨existing, hget₅, fun a ha => ?_⟩
  rw [hrely₅.1.rows_eq, hrows₄, hlater₃.rows_eq, hrows₂] at ha
  rcases List.mem_cons.mp ha with he | ha
  · cases congrArg Entry.table he
  · cases List.mem_singleton.mp ha
    exact ⟨rfl, rfl⟩

theorem selected_withDbSession {body : Coro α}
    (h : Selected taskId i r body (fun _ _ => True) w) :
    Selected taskId i r (withDbSession body) (fun _ _ => True) w := by
  refine selected_bind (wp_mono (fun a w _ => ?_)
    (selected_tryCatch h fun e w => selected_rollback))
  cases a with
  | ok a => exact selected_bind (selected_ask fun _ _ => ⟨trivial, fun _ _ _ => trivial⟩)
  | error e => trivial

theorem selected_handle (r : Request) (hrows : w.rows i = []) :
    wp machine (selectedContract taskId) i r r.handle (fun _ _ => True) w := by
  by_cases hr : StatusCall taskId r
  case neg => exact selected_other hr
  cases r with
  | tenant bearer o q =>
    cases q with
    | updateTask id payload =>
      obtain ⟨rfl, hs⟩ := hr
      obtain ⟨status, hs⟩ := Option.isSome_iff_exists.mp hs
      refine wp_mono (fun _ _ _ => trivial) (selected_withDbSession (selected_bind
        (selected_silent (silent_requireRole _ _ _) fun ctx w' hrows' =>
          selected_bind (wp_mono (fun a w _ => ?_) (?_ : Selected id i _
            (Endpoints.updateTask ctx id payload) (fun _ _ => True) w')))))
      · cases a <;> trivial
      · simp only [Endpoints.updateTask, hs]
        exact selected_updateTaskStatus hs (hrows'.trans hrows)
    | _ => exact hr.elim
  | _ => exact hr.elim

end

section

variable [Library] {taskId : Uuid} {c₀ c c' : AppConfig}

def StatusCalls (taskId : Uuid) (c : AppConfig) (l : AppLabel) : Prop :=
  Starting (StatusCall taskId) c l ∧ Unovertaken taskId c l

theorem Start.selected (h₀ : Start c₀) (h : Reach app (StatusCalls taskId) c₀ c) :
    History c₀.state.db c.state.commits c.state.db ∧ ∀ d ∈ c.state.commits,
      ∃ r k, c.thread d.session = some ⟨r, k⟩ ∧ StatusCall taskId r ∧
        r.Writes uncovered d.before d.written ∧ r.Records d.before d.written := by
  have hguarded : Reach app (fun d l => StatusCalls taskId d l ∧ Guarded d l) c₀ c :=
    h.strengthen fun d l d' hr hok _ => ⟨hok, h₀.guarded hr l⟩
  have hholds : (selectedContract taskId).Holds app (fun _ _ _ _ => True) c₀ :=
    Verified.holds_idle trivial h₀.idle fun i => by simp [selectedContract, World.rows, h₀.closed]
  have hrecorded : Reach app (fun d l => StatusCalls taskId d l ∧ RecordsCommit d l) c₀ c := by
    refine hguarded.strengthen fun d l d' hr hok hs => ⟨hok.1, ?_⟩
    unfold RecordsCommit
    split
    · intro r k ht
      obtain ⟨r', k', ht', -, hrec⟩ := (selected_verified fun i r w => selected_handle r).reach_guar
        hholds (hr.mono fun _ _ h => ⟨h.1.2, h.2⟩) hs
      cases ht.symm.trans ht'
      exact hrec (hr.requests h₀.idle (fun _ _ _ hok => hok.1.1) ht')
    · trivial
  obtain ⟨hhist, hcommits⟩ := h₀.history (P := fun r db es => r.Records db es)
    (fun c l _ => calm_uncovered c l) (fun d i r k hok ht => hok.2 r k ht) hrecorded
  refine ⟨hhist, fun d hd => ?_⟩
  obtain ⟨-, r, k, ht, hw, hrec⟩ := hcommits d hd
  exact ⟨r, k, ht, h.requests h₀.idle (fun _ _ _ hok => hok.1) ht, hw, hrec⟩

theorem Request.Writes.statusTold {r : Request} {d : Commit} (hr : StatusCall taskId r)
    (hw : r.Writes uncovered d.before d.written) (hrec : r.Records d.before d.written) :
    ∃ x a, d.change .tasks taskId = some x ∧ d.audits .task taskId = [a] ∧
      a.TellsStatus x.before x.after := by
  cases r with
  | tenant bearer o q =>
    cases q with
    | updateTask id payload =>
      obtain ⟨rfl, hs⟩ := hr
      obtain ⟨status, hs⟩ := Option.isSome_iff_exists.mp hs
      obtain ⟨user, role, -, hw⟩ := hw
      simp only [TenantRequest.Writes, hs] at hw
      obtain ⟨existing, current, now, now', auditId, -, -, -, hget, -, hcriteria, hes, -⟩ := hw
      obtain ⟨task, htask, haudit⟩ := hrec status hs
      cases hget.symm.trans htask
      have hwrote : Entity.Wrote .task id d.written _ _ :=
        ⟨hes, (Db.get_eq_some.mp hget).2, by simp [AuditLog.isFor, newAuditLog, Entity.name]⟩
      obtain ⟨hbefore, hafter⟩ :=
        haudit _ (by rw [hes]; exact List.mem_cons_of_mem _ List.mem_cons_self)
      exact ⟨_, _, hwrote.change hget, hwrote.audits, hbefore, hafter,
        congrArg (· + 1) (statusCriteria_holds hcriteria).1.symm⟩
    | _ => exact hr.elim
  | _ => exact hr.elim

/-- When no status PATCH is overtaken between its SELECT and its UPDATE, the audit rows
tell the truth. -/
theorem status_audits_truthful (h₀ : Start c₀) (htask : (c₀.state.db.get .tasks taskId).isSome)
    (h : Reach app (StatusCalls taskId) c₀ c) : StatusTruthful taskId c := by
  obtain ⟨start, hstart⟩ := Option.isSome_iff_exists.mp htask
  have hcalm := h.mono fun d l _ => calm_uncovered d l
  obtain ⟨now, -, hlinked⟩ := h₀.linked hcalm hstart
  obtain ⟨hhist, hcommits⟩ := h₀.selected h
  have htold := hhist.tracked (e := .task) hstart (R := fun x a => a.TellsStatus x.before x.after)
    fun d hd old hold => by
      obtain ⟨r, k, -, hr, hw, hrec⟩ := hcommits d hd
      exact Or.inl (hw.statusTold hr hrec)
  refine ⟨fun i bearer o payload a ht => ?_, htold, ?_⟩
  · exact h₀.answered_change hcalm ht trivial fun db es hw => hw.patched
  · have hpairs := htold.imp fun x a ha => (⟨ha.before, ha.after⟩ :
      a.beforeState = some (Task.statusState x.before) ∧
        a.afterState = some (Task.statusState x.after))
    exact hlinked.chained (f := fun t => some (Task.statusState t)) hpairs

def overtakesNone (n : Nat) (c : AppConfig) : AppMove → Bool
  | .act i _ => (List.range n).all fun j => decide (j = i) ||
    match c.thread j with
    | some ⟨r, .call (.updateWhere _ _ _ _) _⟩ => (c.state.rows i).all fun e =>
      match e with
      | ⟨.tasks, task⟩ => decide (r.taskVersion ≠ some (Task.versionId task))
      | _ => true
    | _ => true
  | _ => true

omit [Library] in
theorem overtakesNone_allowed {n : Nat} {m : AppMove} (hn : ∀ j t, c.thread j = some t → j < n)
    (h : overtakesNone n c m = true) : m.Allowed (Unovertaken taskId) c := by
  cases m with
  | start i r => trivial
  | env x => trivial
  | act i x =>
    intro r o k _
    unfold Unovertaken
    split
    · next i heq =>
      cases heq
      intro j hne s criteria set k' hj task htask _
      have hnone := List.all_eq_true.mp h j (List.mem_range.mpr (hn j _ hj))
      rw [hj, decide_eq_false hne, Bool.false_or] at hnone
      exact of_decide_eq_true (List.all_eq_true.mp hnone _ htask)
    · trivial

end

section

open scoped Ascii

def advance (status : TaskStatus) (version : Version) : Request :=
  asAnn (.updateTask (drawnId 17) ⟨none, none, some status, none, none, none, version⟩)

/-- The second PATCH has selected the task when the first one commits. -/
def twoAdvances : List AppMove :=
  [.start 0 (advance .inProgress .first), .start 1 (advance .done .first)] ++
  List.replicate 4 (.act 1 false) ++ List.replicate 12 (.act 0 false) ++
  List.replicate 8 (.act 1 false)

theorem advance_truthful : StatusTruthful (drawnId 17) (runMoves apolloLaunch twoAdvances) ∧
    accepted (runMoves apolloLaunch twoAdvances) 0 = true ∧
    refusedWith (runMoves apolloLaunch twoAdvances) 1 (taskConflict (drawnId 17) 1) = true := by
  refine ⟨status_audits_truthful start_apolloLaunch (by decide +kernel)
    (runMoves_checked (overtakesNone 2) (fun _ => rfl) (fun d m hm hI hcheck =>
      (starting_allowed fun i r he => ?_).and (overtakesNone_allowed (fun j t ht => ?_) hcheck))
      (by decide +kernel)), by decide +kernel, by decide +kernel⟩
  · subst he
    simp [twoAdvances] at hm
    rcases hm with ⟨-, rfl⟩ | ⟨-, rfl⟩ <;> exact ⟨rfl, rfl⟩
  · have hm := hI j t ht
    simp [twoAdvances] at hm
    omega

/-- The first PATCH expects the version that the second one makes. It selects the task, the
second one runs, and it updates the task then. -/
def overtaken : List AppMove :=
  .start 0 (advance .done ⟨2, by decide⟩) :: List.replicate 4 (.act 0 false) ++
  solo 1 (advance .inProgress .first) ++ List.replicate 12 (.act 0 false)

/-- The audit row of the overtaken PATCH starts from a state that the task had left. -/
theorem status_audits_not_truthful : ¬ ∀ c₀ c taskId, Start c₀ →
    (c₀.state.db.get .tasks taskId).isSome → Reach app (Starting (StatusCall taskId)) c₀ c →
    StatusTruthful taskId c := by
  intro hall
  have htruthful := hall apolloLaunch (runMoves apolloLaunch overtaken) (drawnId 17)
    start_apolloLaunch (by decide +kernel) (runMoves_starting (fun _ => rfl) fun i r hm => by
      simp [overtaken] at hm
      rcases hm with ⟨-, rfl⟩ | ⟨-, rfl⟩ <;> exact ⟨rfl, rfl⟩)
  have hlie : ((changes .tasks (drawnId 17) (runMoves apolloLaunch overtaken).state).any fun x =>
      (auditTrail .task (drawnId 17) (runMoves apolloLaunch overtaken).state).all fun a =>
        decide (a.beforeState ≠ some (Task.statusState x.before))) = true := by decide +kernel
  obtain ⟨x, hx, hlie⟩ := List.any_eq_true.mp hlie
  obtain ⟨a, ha, htells⟩ := forall₂_mem_right htruthful.told.flip hx
  exact of_decide_eq_true (List.all_eq_true.mp hlie a ha) htells.before

end

end MultiTenantSaas
