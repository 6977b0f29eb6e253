import MultiTenantSaas.AloneRuns
import MultiTenantSaas.Runs

/-!
Admission is written twice: as dependencies of the HTTP endpoints, and inline in the
WebSocket handler. Both are compared on the same state, token and time.
-/

set_option autoImplicit false

namespace MultiTenantSaas

open Process

/-- The user as whom the WebSocket handler lets a token into the room of a project. -/
def socketUser (db : Db) (now : Instant) (projectId : Uuid) (token : Token) : Option Uuid :=
  match accessUser token now with
  | none => none
  | some userId =>
    match db.get .projects projectId with
    | none => none
    | some (project : Project) =>
      match oneRow (memberships db project.organizationId userId) with
      | .ok (some _) => some userId
      | _ => none

def AdmitsMember (db : Db) (projectId userId : Uuid) : Prop :=
  ∃ (project : Project) (m : OrganizationMember), db.get .projects projectId = some project ∧
    oneRow (memberships db project.organizationId userId) = .ok (some m)

theorem socketUser_eq_some {db : Db} {now : Instant} {projectId userId : Uuid} {token : Token} :
    socketUser db now projectId token = some userId ↔
      accessUser token now = some userId ∧ AdmitsMember db projectId userId := by
  unfold socketUser AdmitsMember
  constructor
  · intro hs
    split at hs
    · cases hs
    · next u hu =>
      split at hs
      · cases hs
      · next project hproject =>
        split at hs
        · next m hm =>
          cases hs
          exact ⟨hu, project, m, hproject, hm⟩
        · cases hs
  · rintro ⟨hu, project, m, hproject, hm⟩
    simp only [hu, hproject, hm]

def ActiveUser (db : Db) (userId : Uuid) : Prop :=
  ∃ user : User, db.get .users userId = some user ∧ user.isActive = true

theorem memberships_viewer (m : OrganizationMember) : ¬ m.role.level < OrgRole.viewer.level := by
  cases m.role <;> decide

/-- The guard of a read admits an active user whom the socket would admit. -/
theorem admission_of_socketUser {db : Db} {now : Instant} {projectId userId : Uuid} {token : Token}
    (hs : socketUser db now projectId token = some userId) (hactive : ActiveUser db userId) :
    ∃ (project : Project) (ctx : TenantContext), db.get .projects projectId = some project ∧
      accessUser token now = some ctx.user.id ∧
      admission db now .viewer token project.organizationId = .ok ctx := by
  obtain ⟨user, hget, hact⟩ := hactive
  have hid : user.id = userId := (Db.get_eq_some.mp hget).2
  unfold socketUser at hs
  split at hs
  · cases hs
  · next u hu =>
    split at hs
    · cases hs
    · next project hproject =>
      split at hs
      · next m hm =>
        cases hs
        have huser : currentUserAt db now token = .ok user := by
          simp [currentUserAt, hu, hget, hact]
        refine ⟨project, ⟨user, project.organizationId, m.role⟩, hproject, by rw [hu, hid], ?_⟩
        simp only [admission, huser, hid, hm, memberships_viewer, if_false]
      · cases hs

theorem active_of_admission {db : Db} {now : Instant} {o : Uuid} {minRole : OrgRole}
    {token : Token} {ctx : TenantContext} (h : admission db now minRole token o = .ok ctx) :
    ∃ userId, accessUser token now = some userId ∧ ActiveUser db userId := by
  unfold admission currentUserAt at h
  cases hu : accessUser token now with
  | none => simp [hu] at h
  | some userId =>
    refine ⟨userId, rfl, ?_⟩
    cases hg : db.get .users userId with
    | none => simp [hu, hg] at h
    | some user =>
      by_cases hact : User.isActive user = true
      · exact ⟨user, hg, hact⟩
      · simp [hu, hg, hact] at h

def Op.connects : Op → Bool
  | .hubConnect _ => true
  | _ => false

abbrev Connectless {α : Type} (p : Coro α) : Prop :=
  Prog.All (S := sig) (fun o => Op.connects o = false) p

theorem Connectless.of_silent {α : Type} {p : Coro α} (h : Silent p) : Connectless p := by
  induction p with
  | done a => trivial
  | call o k ih =>
    have hs := h.1
    refine ⟨?_, fun a => ih a (h.2 a)⟩
    cases o <;> first | rfl | cases hs

theorem connectless_ask {o : Op} (h : o.connects = false) : Connectless (ask o) :=
  ⟨h, fun _ => trivial⟩

section

variable [Library] {i : Nat} {w w' : World}

/-- Alone, the handler comes to connect the socket to the room, whatever the client will send. -/
def Connects (i : Nat) (w : World) (projectId : Uuid) (token : Token) : Prop :=
  ∃ texts w', Performs machine i (Endpoints.projectRealtimeStream projectId token texts) w
    (.hubConnect projectId) w'

theorem runs_webSocketUser {token : Token} {userId : Uuid} :
    Runs machine i (Endpoints.webSocketUser token) w (.ok (some userId)) w' ↔
      accessUser token w.now = some userId ∧ w' = w := by
  have hclose : ∀ v v' : World, ¬ Runs machine i
      (do ask (.wsClose 1008); pure (none : Option Uuid)) v (.ok (some userId)) v' := by
    intro v v' hrun
    rcases runs_bind.mp hrun with ⟨_, _, _, hrun⟩ | ⟨_, _, hrun⟩
    · cases (runs_pure.mp hrun).1
    · cases hrun
  unfold Endpoints.webSocketUser accessUser
  constructor
  · intro hrun
    rcases runs_tryCatch.mp hrun with ⟨a, hbody, ha⟩ | ⟨e, v, -, hhandler⟩
    · cases ha
      rcases runs_bind.mp hbody with ⟨payload, v, hdecode, hcheck⟩ | ⟨e, -, he⟩
      · obtain ⟨hd, rfl⟩ := runs_decodeJwtToken.mp hdecode
        rw [← hd]
        by_cases ht : payload.type = access
        · rw [if_neg (not_not.mpr ht)] at hcheck
          cases hs : payload.sub with
          | none =>
            simp only [hs] at hcheck
            cases (runs_throw.mp hcheck).1
          | some u =>
            simp only [hs] at hcheck
            obtain ⟨hu, rfl⟩ := runs_pure.mp hcheck
            cases hu
            exact ⟨by simp [ht, hs], rfl⟩
        · rw [if_pos ht] at hcheck
          exact absurd hcheck (hclose _ _)
      · cases he
    · exact absurd hhandler (hclose _ _)
  · rintro ⟨hu, rfl⟩
    refine runs_tryCatch.mpr (Or.inl ⟨_, runs_bind.mpr (Or.inl ?_), rfl⟩)
    cases hd : decodedAt token w'.now with
    | error e => simp [hd] at hu
    | ok payload =>
      rw [hd] at hu
      refine ⟨payload, w', runs_decodeJwtToken.mpr ⟨hd.symm, rfl⟩, ?_⟩
      by_cases ht : payload.type = access
      · simp only [ht, if_true] at hu
        simp only [ht, ne_eq, not_true_eq_false, if_false, hu]
        exact runs_pure.mpr ⟨rfl, rfl⟩
      · simp [ht] at hu

theorem runs_webSocketAdmits {projectId userId : Uuid} :
    Runs machine i (Endpoints.webSocketAdmits projectId userId) w (.ok true) w' ↔
      AdmitsMember (w.view i) projectId userId ∧ w' = w := by
  have hclose : ∀ v v' : World, ¬ Runs machine i
      (do ask (.wsClose 1008); pure false) v (.ok true) v' := by
    intro v v' hrun
    rcases runs_bind.mp hrun with ⟨_, _, _, hend⟩ | ⟨_, _, hend⟩
    · cases (runs_pure.mp hend).1
    · cases hend
  constructor
  · intro hrun
    rcases runs_bind.mp hrun with ⟨found, v, hget, hrest⟩ | ⟨e, -, he⟩
    · obtain ⟨rfl, hfound | ⟨-, hfound⟩⟩ := runs_sessionGet.mp hget
      · cases found with
        | none => exact absurd hrest (hclose _ _)
        | some project =>
          rcases runs_bind.mp hrest with ⟨m, u, hmember, hcheck⟩ | ⟨e, -, he⟩
          · obtain ⟨rfl, hm | ⟨-, hm⟩⟩ := runs_getMembership.mp hmember
            · cases m with
              | none => exact absurd hcheck (hclose _ _)
              | some m =>
                exact ⟨⟨project, m, (Except.ok.inj hfound).symm, hm.symm⟩,
                  (runs_pure.mp hcheck).2⟩
            · cases hm
          · cases he
      · cases hfound
    · cases he
  · rintro ⟨⟨project, m, hproject, hm⟩, rfl⟩
    exact runs_bind.mpr (Or.inl ⟨some project, w',
      runs_sessionGet.mpr ⟨rfl, Or.inl (by rw [hproject])⟩,
      runs_bind.mpr (Or.inl ⟨some m, w', runs_getMembership.mpr ⟨rfl, Or.inl hm.symm⟩,
        runs_pure.mpr ⟨rfl, rfl⟩⟩)⟩)

theorem runs_withDbSession {α : Type} {body : Coro α} {a : α} :
    Runs machine i (withDbSession body) w (.ok a) w' ↔
      ∃ v, Runs machine i body w (.ok a) v ∧ w' = v.rollback i := by
  have hrollback : ∀ (v v' : World) (b : Except Exn Unit),
      Runs machine i (ask .rollback) v b v' ↔ b = .ok () ∧ v' = v.rollback i :=
    fun _ _ _ => runs_perform
  constructor
  · intro hrun
    rcases runs_bind.mp hrun with ⟨b, v, htry, hrest⟩ | ⟨e, -, he⟩
    · rcases runs_bind.mp hrest with ⟨u₀, u, hback, hend⟩ | ⟨e, -, he⟩
      · obtain ⟨-, rfl⟩ := (hrollback _ _ _).mp hback
        obtain ⟨hb, rfl⟩ := runs_pure.mp hend
        cases hb
        rcases runs_tryCatch.mp htry with ⟨b, hbody, hb⟩ | ⟨e, u, -, hthrow⟩
        · cases hb
          exact ⟨v, hbody, rfl⟩
        · rcases runs_bind.mp hthrow with ⟨-, _, -, hend⟩ | ⟨_, -, hend⟩
          · cases (runs_throw.mp hend).1
          · cases hend
      · cases he
    · cases he
  · rintro ⟨v, hbody, rfl⟩
    exact runs_bind.mpr (Or.inl ⟨a, v, runs_tryCatch.mpr (Or.inl ⟨a, hbody, rfl⟩),
      runs_bind.mpr (Or.inl ⟨(), _, (hrollback _ _ _).mpr ⟨rfl, rfl⟩, runs_pure.mpr ⟨rfl, rfl⟩⟩)⟩)

/-- The socket is connected when, and only when, `socketUser` finds a user. -/
theorem connects_iff {projectId : Uuid} {token : Token} :
    Connects i w projectId token ↔
      ∃ userId, socketUser (w.view i) w.now projectId token = some userId := by
  have hsession : ∀ userId, Connectless
      (withDbSession (Endpoints.webSocketAdmits projectId userId)) := by
    intro userId
    have hclose : Connectless (do ask (.wsClose 1008); pure false) :=
      (connectless_ask rfl).bind fun _ => trivial
    have hbody : Connectless (Endpoints.webSocketAdmits projectId userId) := by
      refine (Connectless.of_silent (silent_sessionGet _ _)).bind fun project => ?_
      cases project with
      | none => exact hclose
      | some project =>
        refine (Connectless.of_silent (silent_selectOne _)).bind fun m => ?_
        cases m with
        | none => exact hclose
        | some m => trivial
    have hrethrow : ∀ e : Exn, Connectless (do ask .rollback; throw e : Coro Bool) := fun e =>
      (connectless_ask rfl).bind fun _ => trivial
    exact (hbody.tryCatch hrethrow).bind fun _ => (connectless_ask rfl).bind fun _ => trivial
  have huser : Connectless (Endpoints.webSocketUser token) := by
    have hclose : Silent (do ask (.wsClose 1008); pure (none : Option Uuid)) :=
      (silent_ask rfl).bind fun _ => trivial
    refine Connectless.of_silent (Prog.All.tryCatch ((silent_decodeJwtToken _).bind fun payload =>
      silent_ite hclose ?_) fun _ => hclose)
    split <;> trivial
  constructor
  · rintro ⟨texts, w', hp⟩
    rcases hp.of_bind with hfirst | ⟨found, v, hrun, hrest⟩
    · cases hfirst.meets huser
    · cases found with
      | none => cases hrest
      | some userId =>
        obtain ⟨haccess, rfl⟩ := runs_webSocketUser.mp hrun
        rcases hrest.of_bind with hfirst | ⟨admitted, u, hrun, hrest⟩
        · cases hfirst.meets (hsession userId)
        · cases admitted with
          | false => cases hrest
          | true =>
            obtain ⟨x, hadmits, -⟩ := runs_withDbSession.mp hrun
            obtain ⟨hmember, -⟩ := runs_webSocketAdmits.mp hadmits
            exact ⟨userId, socketUser_eq_some.mpr ⟨haccess, hmember⟩⟩
  · rintro ⟨userId, hs⟩
    obtain ⟨haccess, hmember⟩ := socketUser_eq_some.mp hs
    have hrun := (runs_webSocketUser (i := i) (w := w)).mpr ⟨haccess, rfl⟩
    have hadmits := runs_withDbSession.mpr ⟨w, runs_webSocketAdmits.mpr ⟨hmember, rfl⟩, rfl⟩
    exact ⟨[], _, .of_runs hrun (.of_runs hadmits (.later ⟨rfl, Or.inl rfl⟩ .here))⟩

/-- What the HTTP guard does with a token that the socket was connected for. -/
def HttpAgrees (i : Nat) (w : World) (projectId : Uuid) (token : Token) : Prop :=
  ∃ (project : Project) (ctx : TenantContext), (w.view i).get .projects projectId = some project ∧
    accessUser token w.now = some ctx.user.id ∧
    Answers i (requireRole .viewer token project.organizationId) w (.ok ctx)

theorem Answers.unique {α : Type} {p : Coro α} {a : α} {x : Except Exn α}
    (ha : Answers i p w (.ok a)) (hx : Answers i p w x) : x = .ok a := by
  rcases (hx.only _ _ ha.runs).2 with h | ⟨-, h⟩
  · exact h.symm
  · cases h

theorem HttpAgrees.active {projectId userId : Uuid} {token : Token}
    (h : HttpAgrees i w projectId token) (haccess : accessUser token w.now = some userId) :
    ActiveUser (w.view i) userId := by
  obtain ⟨project, ctx, -, -, hanswers⟩ := h
  obtain ⟨u, hu, hactive⟩ := active_of_admission (hanswers.unique (answers_requireRole _ _ _))
  rw [haccess] at hu
  cases hu
  exact hactive

/-- Both admissions agree exactly when the user of an access token, where the socket's own
checks pass, has an active account: for every state, token, time and project. -/
theorem admissions_agree_iff (i : Nat) (w : World) (projectId : Uuid) (token : Token) :
    (Connects i w projectId token → HttpAgrees i w projectId token) ↔
      ∀ userId, accessUser token w.now = some userId →
        AdmitsMember (w.view i) projectId userId → ActiveUser (w.view i) userId := by
  constructor
  · intro hagree userId haccess hmember
    exact (hagree (connects_iff.mpr ⟨userId, socketUser_eq_some.mpr ⟨haccess, hmember⟩⟩)).active
      haccess
  · intro hactive hconnects
    obtain ⟨userId, hs⟩ := connects_iff.mp hconnects
    obtain ⟨haccess, hmember⟩ := socketUser_eq_some.mp hs
    obtain ⟨project, ctx, hproject, hctx, hadmission⟩ :=
      admission_of_socketUser hs (hactive userId haccess hmember)
    exact ⟨project, ctx, hproject, hctx, hadmission ▸ answers_requireRole _ _ _⟩

end

section

open scoped Ascii

def deactivated : World :=
  { (genesis noFaults 0).state with
    db := Db.empty.apply [
      ⟨.users, { newUser ⟨⟨"ann@example.org".toList, ann_short⟩, samplePassword,
        ⟨"Ann".toList, by decide, by decide⟩, none⟩ [] (drawnId 1) 0 with isActive := false }⟩,
      ⟨.organizations, newOrganization "Ann".toList "ann".toList (drawnId 2) 0⟩,
      ⟨.organizationMembers, newOrganizationMember (drawnId 2) (drawnId 1) .owner (drawnId 3) 0⟩,
      ⟨.projects, newProject (drawnId 2) ⟨apolloName, apolloKey, none, none⟩ (drawnId 4) 0⟩] }

/-- The socket of a deactivated user is connected. -/
theorem admissions_disagree : ¬ ∀ (i : Nat) (w : World) (projectId : Uuid) (token : Token),
    Connects i w projectId token → HttpAgrees i w projectId token := by
  intro hall
  have hs : socketUser (deactivated.view 0) deactivated.now (drawnId 4)
      (signedToken (drawnId 1) access 1000) = some (drawnId 1) := by decide +kernel
  have hagree := hall 0 deactivated (drawnId 4) (signedToken (drawnId 1) access 1000)
    (connects_iff.mpr ⟨_, hs⟩)
  obtain ⟨user, hget, hactive⟩ := hagree.active (socketUser_eq_some.mp hs).1
  have hinactive : ((deactivated.view 0).get .users (drawnId 1)).map User.isActive =
      some false := by decide +kernel
  rw [hget, Option.map_some, hactive] at hinactive
  cases hinactive

end

end MultiTenantSaas
