import MultiTenantSaas.TaskVersions

/-!
Optimistic concurrency on a project: the version of the row that was selected is
compared, and the flush updates by primary key.
-/

set_option autoImplicit false

namespace MultiTenantSaas

open Process

def Request.projectVersion : Request → Option Int
  | .tenant _ _ (.updateProject _ payload) => some payload.expectedVersion.val
  | _ => none

def Exn.Conflict (e : Exn) (projectId : Uuid) (expected : Int) : Prop :=
  ∃ current, current ≠ expected ∧ e = projectConflict projectId expected current

def Exn.OfCall (e : Exn) : Prop :=
  e ∈ [.dataError, .integrityError, .staleDataError, .multipleResultsFound, .unavailable]

/-- What else may end an update: the caller is not admitted, the tenant has no such
project, or a statement fails. -/
def Exn.Unrelated (e : Exn) (projectId : Uuid) : Prop :=
  e ∈ [credentialsException, inactiveUser, notAMember, insufficientRole .manager,
    .entityNotFound projectEntity projectId.str] ∨ e.OfCall

/-- Optimistic concurrency on one project: every accepted update finds the version it
expects, a version is expected successfully once, an update that is refused for its version
raises a conflict, and no update misses an earlier one. -/
structure ProjectOcc (projectId : Uuid) (c : AppConfig) : Prop where
  accepted : ∀ i bearer o payload a,
    c.thread i = some ⟨.tenant bearer o (.updateProject projectId payload), .done (.ok a)⟩ →
    ∃ x ∈ changes .projects projectId c.state, x.writer = i ∧
      Project.versionId x.before = payload.expectedVersion.val ∧
      Project.versionId x.after = payload.expectedVersion.val + 1
  once : ∀ i bearer o payload a j bearer' o' payload' a',
    c.thread i = some ⟨.tenant bearer o (.updateProject projectId payload), .done (.ok a)⟩ →
    c.thread j = some ⟨.tenant bearer' o' (.updateProject projectId payload'), .done (.ok a')⟩ →
    payload.expectedVersion.val = payload'.expectedVersion.val → i = j
  refused : ∀ i bearer o payload e,
    c.thread i = some ⟨.tenant bearer o (.updateProject projectId payload), .done (.error e)⟩ →
    e.Conflict projectId payload.expectedVersion.val ∨ e.Unrelated projectId
  writes : ∀ x ∈ changes .projects projectId c.state,
    expectedOf Request.projectVersion c x.writer = some (Project.versionId x.before) ∧
      Project.versionId x.after = Project.versionId x.before + 1
  seen : (changes .projects projectId c.state).Pairwise fun later earlier =>
    Project.versionId earlier.after ≤ Project.versionId later.before
  kept : ∃ first last, Versioned.Linked first (changes .projects projectId c.state) last ∧
    c.state.db.get .projects projectId = some last

theorem Project.flush_versionId (loaded current : Project) (payload : ProjectUpdate)
    (now : Instant) :
    (loaded.flush (payload.assign loaded) now current).versionId = loaded.versionId + 1 :=
  if_neg (by simp only [ProjectUpdate.assign]; omega)

section

variable [Library] {calm : Table → Uuid → Prop} {db : Db} {es : List Entry} {projectId : Uuid}
  {old new : Project}

theorem Request.Writes.projectChange {r : Request} (hw : r.Writes calm db es)
    (hcalm : calm .projects projectId) (hslot : ∃ e ∈ es, e.slot = (.projects, projectId))
    (hold : db.get .projects projectId = some old)
    (hnew : (db.apply es).get .projects projectId = some new) :
    r.projectVersion = some old.versionId ∧ new.versionId = old.versionId + 1 := by
  obtain ⟨⟨t, row⟩, hmem, hs⟩ := hslot
  obtain ⟨rfl, hid⟩ := Prod.mk.inj hs
  change row.id = projectId at hid
  have hrow : (db.apply es).get .projects row.id = some row := hw.readBack hmem
  rw [hid, hnew] at hrow
  cases hrow
  cases r with
  | register clientIp payload =>
    obtain ⟨hashed, slug, id, orgId, memberId, now, now', now'', rfl, -⟩ := hw
    simp at hmem
  | tenant bearer o req =>
    obtain ⟨user, role, -, hw⟩ := hw
    have htable := hw.table hmem
    cases req <;> simp only [TenantRequest.tables, List.mem_cons, List.not_mem_nil, reduceCtorEq,
      or_self] at htable
    case createProject payload =>
      obtain ⟨id, auditId, now, now', -, hins⟩ := hw
      have hnone : db.get .projects new.id = none := hins _ hmem
      rw [hid, hold] at hnone
      cases hnone
    case updateProject projectId' payload =>
      obtain ⟨loaded, current, now, now', auditId, -, -, hver, hov, rfl, -⟩ := hw
      rcases List.mem_pair.mp hmem with he | he <;> cases he
      obtain rfl : projectId' = projectId := (Db.get_eq_some.mp hov.committed).2.symm.trans hid
      cases hov.committed.symm.trans hold
      obtain rfl := hov.unchanged hcalm
      exact ⟨congrArg some hver.symm, Project.flush_versionId _ _ _ _⟩
  | _ => exact hw.elim

theorem Request.Writes.updatesProject {bearer : Token} {o : Uuid} {payload : ProjectUpdate}
    (hw : (Request.tenant bearer o (.updateProject projectId payload)).Writes calm db es) :
    (∃ e ∈ es, e.slot = (.projects, projectId)) ∧ ∃ old, db.get .projects projectId = some old := by
  obtain ⟨user, role, -, loaded, current, now, now', auditId, -, -, -, hov, rfl, -⟩ := hw
  have hid : current.id = projectId := (Db.get_eq_some.mp hov.committed).2
  exact ⟨⟨_, List.mem_cons_self, congrArg (Prod.mk Table.projects) hid⟩, current, hov.committed⟩

variable {c₀ c : AppConfig}

theorem Start.project_checked (h₀ : Start c₀)
    (h : Reach app (Calm (covers .projects projectId)) c₀ c) :
    ∀ x ∈ changes .projects projectId c.state, Versioned.Checked Project.versionId
      (fun _ => True) (expectedOf Request.projectVersion c) x := by
  intro x hx
  obtain ⟨db, es, r, k, ht, hw, hslot, hb, ha⟩ := h₀.changed h hx
  obtain ⟨hexp, hver⟩ := hw.projectChange ⟨rfl, rfl⟩ hslot hb ha
  have hwriter : expectedOf Request.projectVersion c x.writer =
      some (Project.versionId x.before) := by simp [expectedOf, ht, hexp]
  refine ⟨trivial, fun e he => ?_, fun hnone => ?_⟩ <;> rw [hwriter] at *
  · cases he
    exact ⟨rfl, hver⟩
  · cases hnone

omit [Library] in
theorem violation_error {t : Table} {r : t.Row} {e : Exn} (h : World.violation db t r = some e) :
    (e = .dataError ∧ t.fits r = false) ∨ e = .integrityError := by
  unfold World.violation at h
  split at h
  · next hfits =>
    cases h
    exact Or.inl ⟨rfl, by simpa using hfits⟩
  · split at h <;> cases h
    exact Or.inr rfl

section

variable {w w' : World} {i : Nat} {t : Table} {id : Uuid} {e : Exn}

omit [Library] in
theorem insert_error {values : Uuid → Instant → t.Row}
    (h : w.insert i t values id = some (.error e, w')) :
    (e = .dataError ∧ t.fits (values id w.now) = false) ∨ e = .integrityError := by
  unfold World.insert at h
  simp only at h
  split at h
  · cases h
  · split at h
    · cases h
      exact Or.inr rfl
    · split at h
      · next hv =>
        cases h
        exact violation_error hv
      · cases h

omit [Library] in
theorem update_error {criteria : t.Row → Bool} {set : Instant → t.Row → t.Row}
    (h : w.update i t id criteria set = some (.error e, w')) :
    e = .dataError ∨ e = .integrityError := by
  unfold World.update at h
  split at h
  · cases h
  · split at h
    · cases h
    · split at h
      · cases h
      · split at h
        · next hv =>
          cases h
          exact (violation_error hv).imp_left And.left
        · cases h

omit [Library] in
theorem flushUpdate_error {set : Instant → t.Row → t.Row}
    (h : w.flushUpdate i t id set = some (.error e, w')) :
    e = .dataError ∨ e = .integrityError ∨ e = .staleDataError := by
  obtain ⟨⟨a, v⟩, hu, hp⟩ := Option.map_eq_some_iff.mp h
  match a, hp with
  | .error e', hp =>
    cases hp
    exact (update_error hu).imp_right Or.inl
  | .ok none, hp =>
    cases hp
    exact Or.inr (Or.inr rfl)
  | .ok (some r), hp => cases hp

end

/-- An operation fails as calls do; a socket may also be closed, and a presigning or a
validation refuses its argument. -/
def OpFails : (o : Op) → Except Exn o.Resp → Prop
  | .receiveText _, _ | .receiveEnd, _ | .presignGet _ _, _ => True
  | .validateEmail _, a => ∀ e, a = .error e → e = .validationError
  | _, a => ∀ e, a = .error e → e.OfCall

theorem opFails_exec {i : Nat} {o : Op} {w w' : World} {a : Except Exn o.Resp}
    (h : exec i o w a w') : OpFails o a := by
  cases o <;> simp only [exec, failed] at h
  case receiveText | receiveEnd | presignGet => trivial
  case validateEmail =>
    rintro e rfl
    rcases h.2 with ⟨x, -, h⟩ | ⟨-, h⟩ <;> cases h
    rfl
  case clock | perfCounter | uuid4 | rollback | hubConnect | hubDisconnect =>
    rintro e rfl
    simp at h
  case insert t values =>
    rintro e rfl
    rcases h with ⟨id, -, h⟩ | ⟨-, -, h⟩
    · rcases insert_error h with ⟨rfl, -⟩ | rfl <;> simp [Exn.OfCall]
    · cases h
      simp [Exn.OfCall]
  case updateWhere t id criteria set =>
    rintro e rfl
    rcases h with h | ⟨-, -, h⟩
    · rcases update_error h with rfl | rfl <;> simp [Exn.OfCall]
    · cases h
      simp [Exn.OfCall]
  case flushUpdate t id set =>
    rintro e rfl
    rcases h with h | ⟨-, -, h⟩
    · rcases flushUpdate_error h with rfl | rfl | rfl <;> simp [Exn.OfCall]
    · cases h
      simp [Exn.OfCall]
  all_goals
    rintro e rfl
    simp only [Except.error.injEq, reduceCtorEq, false_and, exists_const, false_or] at h
    simp [Exn.OfCall, h.2.2]

/-- Where the operations answer within `L`, `p` ends with a value or with an exception
in `E`. -/
abbrev Raises (L : (o : Op) → Except Exn o.Resp → Prop) (E : Exn → Prop) {α : Type}
    (p : Coro α) : Prop :=
  Prog.Ends (S := sig) L (fun a => ∀ e, a = .error e → E e) p

def FailsWith (E : Exn → Prop) {α : Type} (p : Coro α) : Prop :=
  Prog.Ends (S := sig) OpFails (fun a => ∀ e, a = .error e → E e) p

section Raises

variable {α β : Type} {E E' : Exn → Prop} {L : (o : Op) → Except Exn o.Resp → Prop}

omit [Library]

theorem raises_pure {a : α} : Raises L E (pure a) := fun _ => nofun

theorem raises_throw {e : Exn} (h : E e) : Raises L E (throw e : Coro α) := by
  rintro _ ⟨⟩
  exact h

theorem raises_ask {o : Op} (h : ∀ a, L o a → ∀ e, a = .error e → E e) :
    Raises L E (ask o) := h

theorem raises_bind {p : Coro α} {f : α → Coro β} (hp : Raises L E p)
    (hf : ∀ a, Raises L E (f a)) : Raises L E (p >>= f) :=
  Prog.Ends.bind <| hp.mono fun a ha => by
    cases a with
    | ok a => exact hf a
    | error e => exact fun e' he => ha e' (by cases he; rfl)

theorem raises_tryCatch {p : Coro α} {g : Exn → Coro α} (hp : Raises L E' p)
    (hg : ∀ e, E' e → Raises L E (g e)) : Raises L E (tryCatch p g) :=
  Prog.Ends.tryCatch <| hp.mono fun a ha => by
    cases a with
    | ok a => exact fun _ => nofun
    | error e => exact hg e (ha e rfl)

theorem raises_ite {b : Prop} [Decidable b] {p q : Coro α} (hp : Raises L E p)
    (hq : Raises L E q) : Raises L E (if b then p else q) := by
  split
  · exact hp
  · exact hq

theorem raises_transaction {body : Coro α}
    (hcommit : ∀ a, L .commit a → ∀ e, a = .error e → E e)
    (hrollback : ∀ a, L .rollback a → ∀ e, a = .error e → E e) (h : Raises L E body) :
    Raises L E (transaction body) :=
  raises_tryCatch (raises_bind h fun _ => raises_bind (raises_ask hcommit) fun _ => raises_pure)
    fun _ he => raises_bind (raises_ask hrollback) fun _ => raises_throw he

theorem raises_withDbSession {body : Coro α}
    (hrollback : ∀ a, L .rollback a → ∀ e, a = .error e → E e) (h : Raises L E body) :
    Raises L E (withDbSession body) :=
  raises_bind (raises_tryCatch h fun _ he =>
      raises_bind (raises_ask hrollback) fun _ => raises_throw he)
    fun _ => raises_bind (raises_ask hrollback) fun _ => raises_pure

theorem raises_getCurrentUser (hclock : ∀ a, L .clock a → ∀ e, a = .error e → E e)
    (huser : ∀ id, Raises L E (sessionGet .users id)) (hcredentials : E credentialsException)
    (hinactive : E inactiveUser) (bearer : Token) : Raises L E (getCurrentUser bearer) := by
  have hsubject : Raises L (fun e => E e ∨ e = .jwtError ∨ e = .valueError)
      (accessSubject bearer) := by
    refine raises_bind ?_ fun payload =>
      raises_ite (raises_bind (raises_throw (Or.inl hcredentials)) fun _ => ?_) ?_
    · unfold decodeJwtToken
      split
      · exact raises_throw (Or.inr (Or.inl rfl))
      · refine raises_bind (raises_ask fun a h e he => Or.inl (hclock a h e he)) fun now => ?_
        split
        · exact raises_pure
        · exact raises_throw (Or.inr (Or.inl rfl))
    all_goals
      cases payload.sub with
      | none => exact raises_throw (Or.inr (Or.inr rfl))
      | some userId => exact raises_pure
  refine raises_bind (raises_tryCatch hsubject fun e he => ?_) fun userId =>
    raises_bind (huser userId) fun user => ?_
  · split
    · exact raises_throw hcredentials
    · next hne => exact raises_throw (he.resolve_right hne)
  · cases user with
    | none => exact raises_throw hinactive
    | some user =>
      dsimp only
      split
      · exact raises_pure
      · exact raises_throw hinactive

theorem raises_requireRole {minRole : OrgRole}
    (hclock : ∀ a, L .clock a → ∀ e, a = .error e → E e)
    (huser : ∀ id, Raises L E (sessionGet .users id))
    (hmembership : ∀ o id, Raises L E (getMembership o id))
    (hcaller :
      ∀ e ∈ [credentialsException, inactiveUser, notAMember, insufficientRole minRole], E e)
    (bearer : Token) (o : Uuid) : Raises L E (requireRole minRole bearer o) := by
  simp only [List.forall_mem_cons, List.not_mem_nil, false_implies, implies_true, and_true]
    at hcaller
  obtain ⟨hcredentials, hinactive, hmember, hrole⟩ := hcaller
  refine raises_bind (raises_getCurrentUser hclock huser hcredentials hinactive bearer) fun user =>
    raises_bind (hmembership o user.id) fun membership => ?_
  cases membership with
  | none => exact raises_throw hmember
  | some membership =>
    dsimp only
    split
    · exact raises_throw hrole
    · exact raises_pure

end Raises

section Fails

variable {α β : Type} {E E' : Exn → Prop}

omit [Library]

theorem fails_pure {a : α} : FailsWith E (pure a) := raises_pure

theorem fails_throw {e : Exn} (h : E e) : FailsWith E (throw e : Coro α) := raises_throw h

theorem fails_bind {p : Coro α} {f : α → Coro β} (hp : FailsWith E p)
    (hf : ∀ a, FailsWith E (f a)) : FailsWith E (p >>= f) := raises_bind hp hf

theorem fails_tryCatch {p : Coro α} {g : Exn → Coro α} (hp : FailsWith E' p)
    (hg : ∀ e, E' e → FailsWith E (g e)) : FailsWith E (tryCatch p g) := raises_tryCatch hp hg

theorem fails_ask {o : Op} (h : ∀ a, OpFails o a → ∀ e, a = .error e → E e) :
    FailsWith E (ask o) := h

theorem fails_selectOne {ρ : Type} {query : Db → List ρ} (hE : ∀ e : Exn, e.OfCall → E e) :
    FailsWith E (selectOne query) := by
  refine fails_bind (fails_ask fun a h e he => hE e (h e he)) fun rows => ?_
  match rows with
  | [] => exact fails_pure
  | [r] => exact fails_pure
  | _ :: _ :: _ => exact fails_throw (hE _ (by simp [Exn.OfCall]))

theorem fails_transaction {body : Coro α} (hE : ∀ e : Exn, e.OfCall → E e) (h : FailsWith E body) :
    FailsWith E (transaction body) :=
  raises_transaction (fun _ h e he => hE e (h e he)) (fun _ h e he => hE e (h e he)) h

theorem fails_withDbSession {body : Coro α} (hE : ∀ e : Exn, e.OfCall → E e)
    (h : FailsWith E body) : FailsWith E (withDbSession body) :=
  raises_withDbSession (fun _ h e he => hE e (h e he)) h

theorem fails_requireRole {minRole : OrgRole} (hE : ∀ e : Exn, e.OfCall → E e)
    (hcaller :
      ∀ e ∈ [credentialsException, inactiveUser, notAMember, insufficientRole minRole], E e)
    (bearer : Token) (o : Uuid) : FailsWith E (requireRole minRole bearer o) :=
  raises_requireRole (fun _ h e he => hE e (h e he)) (fun _ => fails_selectOne hE)
    (fun _ _ => fails_selectOne hE) hcaller bearer o

end Fails

theorem fails_updateProject (bearer : Token) (o : Uuid) (payload : ProjectUpdate) :
    FailsWith (fun e => e.Conflict projectId payload.expectedVersion.val ∨ e.Unrelated projectId)
      (Request.tenant bearer o (.updateProject projectId payload)).handle := by
  have hE : ∀ e : Exn, e.OfCall →
      e.Conflict projectId payload.expectedVersion.val ∨ e.Unrelated projectId :=
    fun _ he => Or.inr (Or.inr he)
  refine fails_withDbSession hE (fails_bind ?_ fun ctx => fails_bind ?_ fun _ => fails_pure)
  · exact fails_requireRole hE (fun e he => Or.inr (Or.inl (List.mem_append_left
      [Exn.entityNotFound projectEntity projectId.str] he))) bearer o
  · refine fails_bind (fails_transaction hE (fails_bind (fails_selectOne hE) fun project => ?_))
      fun project => fails_bind (fails_tryCatch (fails_ask fun _ h => h) fun _ _ => fails_pure)
        fun _ => fails_pure
    cases project with
    | none => exact fails_throw (Or.inr (Or.inl (by simp)))
    | some project =>
      have hwrites : FailsWith (fun e => e.Conflict projectId payload.expectedVersion.val ∨
          e.Unrelated projectId) (do
            ask (.flushUpdate .projects (Project.id project)
              (Project.flush project (payload.assign project)))
            addAuditLog ctx.organizationId none projectEntity (Project.id project) .update
              (some (Project.state project)) (some (payload.assign project).state)
            pure (payload.assign project)) :=
        fails_bind (fails_ask fun _ h e he => hE e (h e he)) fun _ =>
          fails_bind (fails_bind (fails_ask fun _ h e he => hE e (h e he)) fun _ => fails_pure)
            fun _ => fails_pure
      by_cases hv : Project.versionId project = payload.expectedVersion.val
      · simpa [hv] using hwrites
      · simp only [ne_eq, hv, not_false_eq_true, if_true]
        exact fails_bind (fails_throw (Or.inl ⟨_, hv, rfl⟩)) fun _ => hwrites

variable {c₀ c : AppConfig}

theorem Start.refused (h₀ : Start c₀) {ok : AppConfig → AppLabel → Prop}
    (h : Reach app ok c₀ c) {i : Nat} {bearer : Token} {o : Uuid} {payload : ProjectUpdate}
    {e : Exn} (ht : c.thread i =
      some ⟨.tenant bearer o (.updateProject projectId payload), .done (.error e)⟩) :
    e.Conflict projectId payload.expectedVersion.val ∨ e.Unrelated projectId := by
  have hends := h.ends (L := fun _ _ => OpFails) (E := fun _ r a => ∀ bearer o payload e,
      r = .tenant bearer o (.updateProject projectId payload) → a = .error e →
      e.Conflict projectId payload.expectedVersion.val ∨ e.Unrelated projectId)
    h₀.idle (fun c i r _ => ?_) (fun _ _ _ _ _ _ _ _ _ he => opFails_exec he) ht
  · exact hends bearer o payload e rfl rfl
  · by_cases hr : ∃ bearer o payload, r = .tenant bearer o (.updateProject projectId payload)
    · obtain ⟨bearer, o, payload, rfl⟩ := hr
      refine (fails_updateProject bearer o payload).mono fun a ha _ _ _ e hr he => ?_
      cases hr
      exact ha e he
    · exact (Prog.ends_any _).mono fun a _ bearer o payload e hr' _ => absurd ⟨_, _, _, hr'⟩ hr

/-- When no update commits between the SELECT and the flush of another update of the same
project, the versions serialize the accepted updates. -/
theorem project_versions_kept (h₀ : Start c₀)
    (hproject : (c₀.state.db.get .projects projectId).isSome)
    (h : Reach app (Calm (covers .projects projectId)) c₀ c) : ProjectOcc projectId c := by
  obtain ⟨start, hstart⟩ := Option.isSome_iff_exists.mp hproject
  obtain ⟨now, hnow, hlinked⟩ := h₀.linked h hstart
  have hchecked := h₀.project_checked h
  have haccepted : ∀ i bearer o payload a,
      c.thread i = some ⟨.tenant bearer o (.updateProject projectId payload), .done (.ok a)⟩ →
      ∃ x ∈ changes .projects projectId c.state, x.writer = i ∧
        expectedOf Request.projectVersion c x.writer = some payload.expectedVersion.val ∧ True ∧
        Project.versionId x.before = payload.expectedVersion.val ∧
        Project.versionId x.after = payload.expectedVersion.val + 1 :=
    fun i bearer o payload a ht =>
      h₀.expected_change h hchecked ht trivial rfl fun _ _ hw => hw.updatesProject
  refine ⟨?_, ?_, fun i bearer o payload e ht => h₀.refused h ht, ?_, hlinked.ordered hchecked,
    start, now, hlinked, hnow⟩
  · intro i bearer o payload a ht
    obtain ⟨x, hx, hi, -, -, hrest⟩ := haccepted i bearer o payload a ht
    exact ⟨x, hx, hi, hrest⟩
  · intro i bearer o payload a j bearer' o' payload' a' ht ht' he
    obtain ⟨x, hx, hi, hexp, -⟩ := haccepted i bearer o payload a ht
    obtain ⟨y, hy, hj, hexp', -⟩ := haccepted j bearer' o' payload' a' ht'
    have hxy : x = y := hlinked.unique hchecked hx hy hexp (he ▸ hexp')
    rw [← hi, ← hj, hxy]
  · intro x hx
    cases hexp : expectedOf Request.projectVersion c x.writer with
    | some e =>
      obtain ⟨hb, ha⟩ := (hchecked x hx).expects e hexp
      exact ⟨by rw [hb], by rw [hb, ha]⟩
    | none => exact absurd trivial ((hchecked x hx).ends hexp).2

end

section

open scoped Ascii

def apollo : AppConfig := restart (runMoves (genesis noFaults 0) annsProject)

theorem start_apollo : Start apollo := start_restart (runMoves_any fun _ => rfl)

def describe (description : Str) : Request :=
  asAnn (.updateProject (drawnId 15) ⟨none, some description, none, none, .first⟩)

/-- The guard admits the second update before the first one selects the project, and the second
one selects it after the first one has committed. -/
def updateAfterUpdate : List AppMove :=
  [.start 0 (describe "Moon".toList), .start 1 (describe "Mars".toList)] ++
  List.replicate 3 (.act 1 false) ++ List.replicate 10 (.act 0 false) ++
  List.replicate 6 (.act 1 false)

theorem described_versions_kept :
    ProjectOcc (drawnId 15) (runMoves apollo updateAfterUpdate) ∧
      accepted (runMoves apollo updateAfterUpdate) 0 = true ∧
      refusedWith (runMoves apollo updateAfterUpdate) 1 (projectConflict (drawnId 15) 1 2) =
        true := by
  refine ⟨project_versions_kept start_apollo (by decide +kernel)
    (runMoves_checked (spares 2) (fun _ => rfl) (fun d m _ hI hcheck =>
      spares_allowed (fun j t ht => ?_) hcheck) (by decide +kernel)), by decide +kernel,
    by decide +kernel⟩
  have hm := hI j t ht
  simp [updateAfterUpdate] at hm
  omega

def OnProject (projectId : Uuid) : Request → Prop
  | .tenant _ _ (.updateProject id _) => id = projectId
  | _ => False

def twoUpdates : List AppMove :=
  [.start 0 (describe "Moon".toList), .start 1 (describe "Mars".toList)] ++
  List.replicate 4 (.act 0 false) ++ List.replicate 4 (.act 1 false) ++
  List.replicate 6 (.act 0 false) ++ List.replicate 6 (.act 1 false)

/-- Two updates that expect the same version are both accepted. -/
theorem project_versions_not_kept : ¬ ∀ c₀ c projectId, Start c₀ →
    (c₀.state.db.get .projects projectId).isSome →
    Reach app (Starting (OnProject projectId)) c₀ c → ProjectOcc projectId c := by
  intro hall
  have hocc := hall apollo (runMoves apollo twoUpdates) (drawnId 15) start_apollo
    (by decide +kernel)
    (runMoves_starting (fun _ => rfl) fun i r hm => by
      simp only [twoUpdates, List.mem_append, List.mem_cons, List.mem_replicate, reduceCtorEq,
        and_false, or_false, Move.start.injEq, List.not_mem_nil] at hm
      rcases hm with ⟨-, rfl⟩ | ⟨-, rfl⟩ <;> rfl)
  have h0 : accepted (runMoves apollo twoUpdates) 0 = true := by decide +kernel
  have h1 : accepted (runMoves apollo twoUpdates) 1 = true := by decide +kernel
  obtain ⟨r, a, ht, hr⟩ := runMoves_accepted (fun _ => rfl) h0
  obtain ⟨s, b, hs, hr'⟩ := runMoves_accepted (fun _ => rfl) h1
  simp [twoUpdates] at hr hr'
  subst hr hr'
  exact absurd (hocc.once 0 _ _ _ _ 1 _ _ _ _ ht hs rfl) (by decide)

end

end MultiTenantSaas
