import MultiTenantSaas.UniqueValues

/-!
Requests that insert a unique value: an account, a membership, a team, a project. Three of
them look for the value before they insert it, and two do not.
-/

set_option autoImplicit false

namespace MultiTenantSaas

open Process

section

variable [Library] {faults : Faults} {now : Instant} {c c' : AppConfig} {r : Request}
  {db db' : Db} {k k' : UniqueKey} {i : Nat} {w w' : World} {α β : Type}

omit [Library] in
theorem refused_not_conflict {minRole : OrgRole} : ∀ e ∈ [credentialsException, inactiveUser,
    notAMember, insufficientRole minRole], ¬ Exn.EntityConflict e := by
  rintro e he ⟨message, rfl⟩
  simp [credentialsException, inactiveUser, notAMember, insufficientRole, Exn.entityConflict] at he

omit [Library] in
theorem not_found_not_conflict (entity id : Str) :
    ¬ (Exn.entityNotFound entity id).EntityConflict := by
  rintro ⟨message, h⟩
  simp [Exn.entityNotFound, Exn.entityConflict] at h

omit [Library] in
theorem requireRole_org {L : (o : Op) → Except Exn o.Resp → Prop} (minRole : OrgRole)
    (bearer : Token) (o : Uuid) : Prog.Ends (S := sig) L
      (fun a => ∀ ctx, a = .ok ctx → ctx.organizationId = o) (requireRole minRole bearer o) := by
  refine Prog.Ends.bind ((Prog.ends_any _).mono fun user _ => ?_)
  cases user with
  | error e => exact fun _ => nofun
  | ok user =>
    refine Prog.Ends.bind ((Prog.ends_any _).mono fun membership _ => ?_)
    match membership with
    | .error e => exact fun _ => nofun
    | .ok none => exact fun _ => nofun
    | .ok (some membership) =>
      dsimp only
      split
      · exact fun _ => nofun
      · rintro ctx ⟨⟩
        rfl

theorem careful_requireRole {minRole : OrgRole} {bearer : Token} {o : Uuid}
    {f : TenantContext → Coro β}
    (hf : ∀ user role w', Waits i w w' → Careful i r (f ⟨user, o, role⟩) w') :
    Careful i r (requireRole minRole bearer o >>= f) w := by
  refine (wp_bind _ f _ w).mpr (wp_mono (fun a w' h => ?_) (wp_waits
    (silent_requireRole minRole bearer o) ((fails_requireRole (fun _ he => he.not_conflict)
      refused_not_conflict bearer o).and (requireRole_org minRole bearer o))))
  obtain ⟨hwaits, hfails, horg⟩ := h
  cases a with
  | ok ctx =>
    obtain ⟨user, o', role⟩ := ctx
    obtain rfl : o' = o := horg _ rfl
    exact hf user role w' hwaits
  | error e => exact toldRight_of fun e' he => hfails e' (by cases he; rfl)

theorem toldRight_taken {e : Exn} (hwants : r.Wants w.db k) (hholds : w.db.Holds k)
    (hunwritten : w.Unwritten i) : ToldRight i r (.error e : Except Exn α) w :=
  fun _ _ _ => ⟨⟨k, hwants, hholds⟩, hunwritten⟩

omit [Library] in
theorem done_insert {t : Table} {values : Uuid → Instant → t.Row} (ht : r.target ≠ some t) :
    Done r (ask (.insert t values)) := done_ask ht fun _ h => h

omit [Library] in
theorem done_create {t : Table} {values : Uuid → Instant → t.Row} (ht : r.target ≠ some t) :
    Done r (create t values) :=
  (done_insert ht).bind fun _ => done_refresh t _

omit [Library] in
theorem done_enqueue (function : Str) (args : List Str) :
    Done r (JobQueueService.enqueue function args) :=
  done_silent (silent_orDefault (silent_ask rfl))
    (fails_tryCatch (fails_ask fun _ h => h) fun _ _ => fails_pure)

omit [Library] in
theorem done_memberDetail (m : OrganizationMember) (u : User) :
    Done r (Endpoints.memberDetail m u) :=
  done_silent (silent_memberDetail m u) (fails_bind (fails_ask fun a h e he => by
    rw [h e he]
    rintro ⟨_, h⟩
    cases h) fun _ => fails_pure)

omit [Library] in
theorem done_createJwtToken (subject : Uuid) (tokenType : Str) (delta : Int) :
    Done r (createJwtToken subject tokenType delta) :=
  (done_ask (o := .uuid4) (fun h => h) fun _ h => h).bind fun _ =>
    (done_ask (o := .clock) (fun h => h) fun _ h => h).bind fun _ =>
      (done_ask (o := .clock) (fun h => h) fun _ h => h).bind fun _ => done_pure

omit [Library] in
theorem done_generateTokenPair (userId : Uuid) : Done r (generateTokenPair userId) :=
  (done_createJwtToken _ _ _).bind fun _ => (done_createJwtToken _ _ _).bind fun _ => done_pure

omit [Library] in
theorem done_requireJoined {γ : Type} (rows : List (α × Option γ)) :
    Done r (requireJoined rows) := by
  induction rows with
  | nil => exact done_pure
  | cons row rows ih =>
    match row with
    | (a, some b) => exact ih.bind fun _ => done_pure
    | (_, none) => exact done_throw (by rintro ⟨_, h⟩; simp [Exn.entityConflict] at h)

omit [Library] in
theorem done_getTeamDetail (o teamId : Uuid) : Done r (TeamService.getTeamDetail o teamId) := by
  refine Done.bind ((done_selectOne _).bind fun team => ?_) fun found => ?_
  · cases team with
    | none => exact done_pure
    | some team => exact (done_select _).bind fun _ => done_pure
  · match found with
    | none => exact done_throw (not_found_not_conflict _ _)
    | some (team, members) => exact (done_requireJoined members).bind fun _ => done_pure

omit [Library] in
theorem done_addAuditLog {project : Project} {o : Uuid} (ht : r.target = some .projects) :
    Done r (do
      addAuditLog o none projectEntity (Project.id project) .create none
        (some (Project.createdState project))
      pure project) := by
  have haudit : r.target ≠ some .auditLogs := by simp [ht]
  exact Done.bind ((done_insert haudit).bind fun _ => done_pure) fun _ => done_pure

omit [Library] in
theorem done_invited {o : Uuid} {invited caller : User} {newMember : OrganizationMember} :
    Done r (do
      ask .commit
      let org ← sessionGet .organizations o
      let orgName := match org with
        | some (o : Organization) => o.name
        | none => "Workspace".toList
      JobQueueService.enqueue "send_invitation_email".toList
        [invited.email, orgName, caller.fullName]
      Endpoints.memberDetail newMember invited) :=
  done_commit.bind fun _ => (done_selectOne _).bind fun _ =>
    (done_enqueue _ _).bind fun _ => done_memberDetail _ _

theorem done_registered {payload : UserRegisterRequest} {user : User}
    (ht : r.target = some .users) : Done r (do
      let orgName := organizationName payload user
      let baseSlug := slugify orgName
      let suffix ← ask .uuid4
      let org ← create .organizations
        (newOrganization orgName (baseSlug ++ '-' :: suffix.hexPrefix 6))
      let _ ← create .organizationMembers
        (newOrganizationMember (Organization.id org) (User.id user) .owner)
      generateTokenPair (User.id user)) := by
  refine (done_ask (o := .uuid4) (fun h => h) fun _ h => h).bind fun suffix => ?_
  refine (done_create (t := .organizations) (by simp [ht])).bind fun org => ?_
  exact (done_create (t := .organizationMembers) (by simp [ht])).bind fun member =>
    done_generateTokenPair _

section

variable {o : Uuid} {user : User} {role : OrgRole} {bearer : Token}

theorem careful_createProject
    (hupper : ∀ s, Library.upper (strip (Library.upper s)) = strip (Library.upper s))
    {payload : ProjectCreate} (hrows : w.rows i = []) (hunwritten : w.Unwritten i) :
    Careful i (.tenant bearer o (.createProject payload))
      (Endpoints.createProject ⟨user, o, role⟩ payload) w := by
  have hkey : ∀ id now, Table.projects.uniqueKey (newProject o payload id now) =
      some (.projectOrgKey o (strip (Library.upper payload.key.text))) := fun _ _ => rfl
  refine careful_seq (careful_transaction ?_) fun _ => done_pure
  refine careful_selectOne hrows (fun w₁ h₁ hfree => ?_) fun existing w₁ h₁ hmem => ?_
  · refine careful_ite nofun fun _ => ?_
    have hnone : ¬ w₁.db.Holds (.projectOrgKey o (strip (Library.upper payload.key.text))) := by
      refine Db.not_holds_of_rows (hkey ⟨0⟩ 0) (fun p hp => ?_) hfree
      simp only [Table.uniqueKey, Option.some.injEq, UniqueKey.projectOrgKey.injEq] at hp
      simp [hp.1, hp.2, hupper, strip_strip]
    exact careful_create rfl (h₁.rows.trans hrows) rfl hkey (fun _ => hnone)
      fun project => done_addAuditLog rfl
  · refine careful_ite (fun _ => careful_throw ?_) fun h => absurd rfl h
    obtain ⟨hin, hmatch⟩ := mem_rowsWhere.mp hmem
    simp only [hupper, strip_strip, Bool.and_eq_true, decide_eq_true_eq] at hmatch
    refine toldRight_taken (k := .projectOrgKey o (strip (Library.upper payload.key.text))) rfl
      ⟨.projects, existing, hin, ?_⟩ (h₁.unwritten hunwritten)
    rw [Table.uniqueKey, hmatch.1, hmatch.2]

theorem careful_inviteMember {payload : OrgMemberInviteRequest} (hrows : w.rows i = [])
    (hunwritten : w.Unwritten i) : Careful i (.tenant bearer o (.inviteMember payload))
      (Endpoints.inviteMember ⟨user, o, role⟩ payload) w := by
  refine careful_selectOne hrows (fun w₁ h₁ _ => ?_) fun invited w₁ h₁ hmem => ?_
  · exact toldRight_of fun e he hc => by
      cases he
      exact not_found_not_conflict _ _ hc
  obtain ⟨hin, hemail⟩ := mem_rowsWhere.mp hmem
  have hrows₁ := h₁.rows.trans hrows
  have hkey : ∀ id now, Table.organizationMembers.uniqueKey
      (newOrganizationMember o invited.id payload.role id now) =
      some (.orgMemberUser o invited.id) := fun _ _ => rfl
  have hwants : ∀ w₂, Waits i w₁ w₂ → Request.Wants w₂.db (.orgMemberUser o invited.id)
      (.tenant bearer o (.inviteMember payload)) := fun w₂ h₂ =>
    ⟨invited, h₂.db.mem (fun _ => rfl) hin, by simpa using hemail, rfl⟩
  refine careful_selectOne hrows₁ (fun w₂ h₂ hfree => ?_) fun existing w₂ h₂ hmember => ?_
  · refine careful_ite nofun fun _ => ?_
    have hnone : ¬ w₂.db.Holds (.orgMemberUser o invited.id) := by
      refine Db.not_holds_of_rows (hkey ⟨0⟩ 0) (fun m hm => ?_) hfree
      simp only [Table.uniqueKey, Option.some.injEq, UniqueKey.orgMemberUser.injEq] at hm
      simp [hm.1, hm.2]
    exact careful_create rfl (h₂.rows.trans hrows₁) (hwants w₂ h₂) hkey (fun _ => hnone)
      fun newMember => done_invited
  · refine careful_ite (fun _ => careful_throw ?_) fun h => absurd rfl h
    obtain ⟨hin', hmatch⟩ := mem_rowsWhere.mp hmember
    simp only [Bool.and_eq_true, decide_eq_true_eq] at hmatch
    refine toldRight_taken (hwants w₂ h₂) ⟨.organizationMembers, existing, hin', ?_⟩
      (h₂.unwritten (h₁.unwritten hunwritten))
    rw [Table.uniqueKey, hmatch.1, hmatch.2]

theorem careful_createTeam {payload : TeamCreate} (hrows : w.rows i = []) :
    Careful i (.tenant bearer o (.createTeam payload))
      (Endpoints.createTeam ⟨user, o, role⟩ payload) w := by
  refine careful_seq (careful_transaction ?_) fun team => done_getTeamDetail _ _
  exact careful_insert (k := .teamOrgSlug o (strip (Library.lower payload.slug.text))) rfl hrows rfl
    (fun _ _ => rfl) nofun fun row => done_refresh _ _

theorem careful_addTeamMember {teamId : Uuid} {payload : TeamMemberAddRequest}
    (hrows : w.rows i = []) : Careful i (.tenant bearer o (.addTeamMember teamId payload))
      (Endpoints.addTeamMember ⟨user, o, role⟩ teamId payload) w := by
  refine careful_transaction (careful_selectOne hrows (fun w₁ _ _ => ?_) fun team w₁ h₁ _ => ?_)
  · refine toldRight_of fun e he hc => ?_
    cases he
    exact not_found_not_conflict _ _ hc
  · refine careful_bind (silent_ite trivial (silent_sessionGet _ _)) (raises_ite fails_pure
      (fails_selectOne fun _ he => he.not_conflict)) fun found w₂ h₂ => ?_
    cases found with
    | none =>
      refine toldRight_of fun e he hc => ?_
      cases he
      exact not_found_not_conflict _ _ hc
    | some found =>
      exact careful_insert (k := .teamMemberUser teamId payload.userId) rfl
        ((h₁.trans h₂).rows.trans hrows) rfl (fun _ _ => rfl) nofun fun _ => done_pure

theorem careful_register {clientIp : Option Str} {payload : UserRegisterRequest}
    (hrows : w.rows i = []) (hunwritten : w.Unwritten i) :
    Careful i (.register clientIp payload) (AuthService.register payload) w := by
  have hkey : ∀ hashed id now, Table.users.uniqueKey (newUser payload hashed id now) =
      some (.userEmail (normalizeEmail payload.email.text)) := fun _ _ _ => rfl
  refine careful_transaction (careful_selectOne hrows (fun w₁ h₁ hfree => ?_)
    fun existing w₁ h₁ hmem => ?_)
  · refine careful_ite nofun fun _ => ?_
    have hnone : ¬ w₁.db.Holds (.userEmail (normalizeEmail payload.email.text)) := by
      refine Db.not_holds_of_rows (hkey [] ⟨0⟩ 0) (fun u hu => ?_) hfree
      simp only [Table.uniqueKey, Option.some.injEq, UniqueKey.userEmail.injEq] at hu
      simp [hu]
    rw [hashPassword, Prog.bind_assoc]
    refine careful_draw (k := .userEmail (normalizeEmail payload.email.text)) rfl rfl hnone
      fun salt w₂ h₂ hnone₂ => ?_
    exact careful_create rfl ((h₁.trans h₂).rows.trans hrows) rfl (hkey _) (fun _ => hnone₂)
      fun user => done_registered rfl
  · refine careful_ite (fun _ => careful_throw ?_) fun h => absurd rfl h
    obtain ⟨hin, hmatch⟩ := mem_rowsWhere.mp hmem
    refine toldRight_taken (k := .userEmail (normalizeEmail payload.email.text)) rfl
      ⟨.users, existing, hin, ?_⟩ (h₁.unwritten hunwritten)
    rw [Table.uniqueKey, of_decide_eq_true hmatch]

end

def insertPost (i : Nat) (r : Request) (a : Except Exn Response) (w : World) : Prop :=
  r.target.isSome → ToldRight i r a w

theorem wp_untargeted {p : Coro Response} (ht : r.target = none) :
    wp machine insertContract i r p (insertPost i r) w := by
  induction p generalizing w with
  | done a => exact fun h => by simp [ht] at h
  | call o k ih =>
    exact fun w₁ _ _ a w₂ he => ⟨⟨⟨a, he⟩, fun t _ _ h => by simp [ht] at h⟩, ih a⟩

theorem careful_rateLimiter {limit window : Nat} {clientIp : Option Str} {path : Str}
    {f : RateLimitHeaders → Coro β} (hf : ∀ a w', Waits i w w' → Careful i r (f a) w') :
    Careful i r (rateLimiter limit window clientIp path >>= f) w := by
  refine careful_bind (silent_rateLimiter limit window clientIp path) ?_ hf
  refine fails_bind (fails_ask (o := .clock) fun _ h e he => (h e he).not_conflict) fun now =>
    fails_bind (fails_ask (o := .perfCounter) fun _ h e he => (h e he).not_conflict) fun perf =>
      fails_bind (fails_ask (fun _ h e he => (h e he).not_conflict)) fun count =>
        raises_ite (fails_throw ?_) fails_pure
  rintro ⟨_, h⟩
  simp [Exn.entityConflict] at h

theorem careful_handle
    (hupper : ∀ s, Library.upper (strip (Library.upper s)) = strip (Library.upper s))
    (r : Request) (hrows : w.rows i = []) (hunwritten : w.Unwritten i) :
    wp machine insertContract i r r.handle (insertPost i r) w := by
  have hcareful : Careful i r r.handle w →
      wp machine insertContract i r r.handle (insertPost i r) w :=
    fun h => wp_mono (fun _ _ ha _ => ha) h
  cases r with
  | register clientIp payload =>
    refine hcareful (careful_withDbSession (careful_rateLimiter fun headers w₁ h₁ => ?_))
    exact careful_seq (careful_register (h₁.rows.trans hrows) (h₁.unwritten hunwritten))
      fun _ => done_pure
  | tenant bearer o q =>
    cases q
    case inviteMember payload =>
      refine hcareful (careful_withDbSession (careful_requireRole fun user role w₁ h₁ => ?_))
      exact careful_seq (careful_inviteMember (h₁.rows.trans hrows) (h₁.unwritten hunwritten))
        fun _ => done_pure
    case createTeam payload =>
      refine hcareful (careful_withDbSession (careful_requireRole fun user role w₁ h₁ => ?_))
      exact careful_seq (careful_createTeam (h₁.rows.trans hrows)) fun _ => done_pure
    case addTeamMember teamId payload =>
      refine hcareful (careful_withDbSession (careful_requireRole fun user role w₁ h₁ => ?_))
      exact careful_seq (careful_addTeamMember (h₁.rows.trans hrows)) fun _ => done_pure
    case createProject payload =>
      refine hcareful (careful_withDbSession (careful_requireRole fun user role w₁ h₁ => ?_))
      exact careful_seq (careful_createProject hupper (h₁.rows.trans hrows)
        (h₁.unwritten hunwritten)) fun _ => done_pure
    all_goals exact wp_untargeted rfl
  | _ => exact wp_untargeted rfl

/-- Before it inserts, the request can only end in a conflict or be refused. -/
abbrev Heads (faults : Faults) (r : Request) {α : Type} (p : Coro α) : Prop :=
  Prog.Leads (S := sig) r.Inserts (Replies faults)
    (fun a => ∃ e, a = .error e ∧ (e.EntityConflict ∨ r.Refusal faults e)) p

omit [Library] in
theorem refusal_down {e : Exn} (he : e.Down faults) : r.Refusal faults e := by
  obtain ⟨hfaulty, rfl⟩ := he
  unfold Request.Refusal
  split
  · exact Or.inr (Or.inr ⟨hfaulty, rfl⟩)
  · exact Or.inr ⟨by simp [hfaulty], rfl⟩

theorem heads_bind {p : Coro α} {f : α → Coro β} (hp : Silent p)
    (hraises : Raises (Replies faults) (r.Refusal faults) p) (hf : ∀ a, Heads faults r (f a)) :
    Heads faults r (p >>= f) := by
  refine Prog.leads_bind (done_silent_all hp) (hraises.mono fun a ha => ?_)
  cases a with
  | ok a => exact hf a
  | error e => exact ⟨e, rfl, Or.inr (ha e rfl)⟩

theorem heads_throw {e : Exn} {f : α → Coro β} (he : e.EntityConflict ∨ r.Refusal faults e) :
    Heads faults r ((throw e : Coro α) >>= f) := ⟨e, rfl, he⟩

theorem heads_ite {c : Prop} [Decidable c] {p q : Coro α} (hp : Heads faults r p)
    (hq : Heads faults r q) : Heads faults r (if c then p else q) := by
  split
  · exact hp
  · exact hq

theorem heads_insert {t : Table} {values : Uuid → Instant → t.Row} {f : t.Row → Coro β}
    (ht : r.target = some t) (hf : ∀ a, Done r (f a)) :
    Heads faults r (ask (.insert t values) >>= f) := by
  refine ⟨fun _ a => ?_, fun hn => absurd ht hn⟩
  cases a with
  | ok a => exact (hf a).all
  | error e => trivial

theorem heads_create {t : Table} {values : Uuid → Instant → t.Row} {f : t.Row → Coro β}
    (ht : r.target = some t) (hf : ∀ a, Done r (f a)) :
    Heads faults r (create t values >>= f) := by
  rw [create, Prog.bind_assoc]
  exact heads_insert ht fun row => (done_refresh t _).bind hf

theorem heads_seq {p : Coro α} {f : α → Coro β} (hp : Heads faults r p)
    (hf : ∀ a, Done r (f a)) : Heads faults r (p >>= f) := by
  refine Prog.Leads.bind (Prog.Leads.mono hp fun a ha => ?_) fun a => (hf a).all
  obtain ⟨e, rfl, he⟩ := ha
  exact ⟨e, rfl, he⟩

theorem heads_recover {p : Coro α} (hp : Heads faults r p) :
    Heads faults r (tryCatch p fun e => do ask .rollback; throw e) := by
  refine Prog.Leads.tryCatch (Prog.Leads.mono hp fun a ha => ?_) fun e => ?_
  · obtain ⟨e, rfl, he⟩ := ha
    refine Prog.leads_bind done_rollback.all fun a ha => ?_
    cases a with
    | ok a => exact ⟨e, rfl, he⟩
    | error e' => exact (replies_rollback (E := fun _ => False) _ ha e' rfl).elim
  · exact done_rollback.all.bind fun _ => trivial

theorem heads_transaction {body : Coro α} (h : Heads faults r body) :
    Heads faults r (transaction body) :=
  heads_recover (heads_seq h fun _ => done_commit.bind fun _ => done_pure)

theorem heads_withDbSession {body : Coro α} (h : Heads faults r body) :
    Heads faults r (withDbSession body) :=
  heads_seq (heads_recover h) fun _ => done_rollback.bind fun _ => done_pure

theorem heads_getByEmail {email : Str} {f : Option User → Coro β}
    (hf : ∀ user, Heads faults r (f user)) : Heads faults r (getByEmail email >>= f) :=
  heads_bind (silent_selectOne _) (raises_lookup (fun _ => refusal_down) fun w i hw =>
    length_valued_le (hw.distinct.views i) (k := .userEmail (normalizeEmail email)) fun u hu => by
      simp only [decide_eq_true_eq] at hu
      simp [Table.uniqueKey, hu]) hf

theorem heads_rateLimiter {limit window : Nat} {clientIp : Option Str} {path : Str}
    {payload : UserRegisterRequest} {f : RateLimitHeaders → Coro β}
    (hf : ∀ a, Heads faults (.register clientIp payload) (f a)) :
    Heads faults (.register clientIp payload) (rateLimiter limit window clientIp path >>= f) := by
  refine heads_bind (silent_rateLimiter limit window clientIp path) ?_ hf
  refine raises_bind (raises_ask (o := .clock) ?_) fun now =>
    raises_bind (raises_ask (o := .perfCounter) ?_) fun perf =>
      raises_bind (raises_ask ?_) fun count =>
        raises_ite (raises_throw (Or.inl ⟨_, _, rfl⟩)) raises_pure
  · rintro a ⟨_, _, _, _, _, rfl, _⟩
    exact nofun
  · rintro a ⟨_, _, _, _, _, ⟨_, rfl⟩, _⟩
    exact nofun
  · rintro a ⟨_, _, _, _, hfaults, ⟨rfl, -⟩ | ⟨-, hfaulty, rfl⟩⟩ e he
    · cases he
    · cases he
      exact Or.inr ⟨by simp [← hfaults, hfaulty], rfl⟩

theorem heads_requireRole {bearer : Token} {o : Uuid} {q : TenantRequest}
    {f : TenantContext → Coro β} (hf : ∀ ctx, Heads faults (.tenant bearer o q) (f ctx)) :
    Heads faults (.tenant bearer o q) (requireRole q.minRole bearer o >>= f) :=
  heads_bind (silent_requireRole _ _ _)
    (raises_admission (E := Request.Refusal faults (.tenant bearer o q)) (fun _ => refusal_down)
      (fun _ he => Or.inl he) bearer o) hf

theorem heads_register {clientIp : Option Str} {payload : UserRegisterRequest} :
    Heads faults (.register clientIp payload) (AuthService.register payload) := by
  refine heads_transaction (heads_getByEmail fun existing => ?_)
  refine heads_ite (heads_throw (Or.inl ⟨_, rfl⟩))
    (heads_bind ((silent_ask rfl).bind fun _ => trivial)
    (raises_bind (raises_ask ?_) fun _ => raises_pure) fun hashed => ?_)
  · rintro a ⟨_, _, _, _, _, u, -, rfl, -⟩
    exact nofun
  · exact heads_create rfl fun user => done_registered rfl

theorem heads_inviteMember {ctx : TenantContext} {bearer : Token} {o : Uuid}
    {payload : OrgMemberInviteRequest} :
    Heads faults (.tenant bearer o (.inviteMember payload))
      (Endpoints.inviteMember ctx payload) := by
  refine heads_getByEmail fun invited => ?_
  cases invited with
  | none => exact ⟨_, rfl, Or.inr (Or.inr (Or.inl ⟨_, _, rfl⟩))⟩
  | some invited =>
    refine heads_bind (silent_selectOne _) (raises_lookup (fun _ => refusal_down) fun w i hw =>
      length_memberships_le (hw.distinct.views i) ctx.organizationId invited.id) fun existing => ?_
    exact heads_ite (heads_throw (Or.inl ⟨_, rfl⟩)) (heads_create rfl fun newMember => done_invited)

theorem heads_createProject {ctx : TenantContext} {bearer : Token} {o : Uuid}
    {payload : ProjectCreate} : Heads faults (.tenant bearer o (.createProject payload))
      (Endpoints.createProject ctx payload) := by
  refine heads_seq (heads_transaction (heads_bind (silent_selectOne _)
    (raises_lookup (fun _ => refusal_down) fun w i hw => ?_) fun existing => ?_)) fun _ => done_pure
  · exact length_valued_le (hw.distinct.views i) (k := .projectOrgKey ctx.organizationId
      (strip (Library.upper (strip (Library.upper payload.key.text))))) fun p hp => by
        simp only [Bool.and_eq_true, decide_eq_true_eq] at hp
        simp [Table.uniqueKey, hp]
  · exact heads_ite (heads_throw (Or.inl ⟨_, rfl⟩))
      (heads_create rfl fun project => done_addAuditLog rfl)

theorem heads_addTeamMember {ctx : TenantContext} {bearer : Token} {o teamId : Uuid}
    {payload : TeamMemberAddRequest} :
    Heads faults (.tenant bearer o (.addTeamMember teamId payload))
      (Endpoints.addTeamMember ctx teamId payload) := by
  refine heads_transaction (heads_bind (silent_getById _ _ _)
    (raises_getById (fun _ => refusal_down) _ _ _) fun team => ?_)
  cases team with
  | none => exact ⟨_, rfl, Or.inr (Or.inr (Or.inl ⟨_, _, rfl⟩))⟩
  | some team =>
    refine heads_bind (silent_ite trivial (silent_sessionGet _ _)) (raises_ite raises_pure
      (raises_lookup (fun _ => refusal_down) fun w i _ => ?_)) fun found => ?_
    · rw [rowsWhere_id]
      cases (w.view i).get .users payload.userId <;> simp
    · cases found with
      | none => exact ⟨_, rfl, Or.inr (Or.inr (Or.inl ⟨_, _, rfl⟩))⟩
      | some found => exact heads_insert rfl fun _ => done_pure

theorem heads_handle (r : Request) : Prog.Leads (S := sig) r.Inserts (Replies faults)
    (fun a => r.target.isSome → ∃ e, a = .error e ∧ (e.EntityConflict ∨ r.Refusal faults e))
    r.handle := by
  have hheads : Heads faults r r.handle → Prog.Leads (S := sig) r.Inserts (Replies faults)
      (fun a => r.target.isSome → ∃ e, a = .error e ∧ (e.EntityConflict ∨ r.Refusal faults e))
      r.handle := fun h => h.mono fun _ ha _ => ha
  have hnone : r.target = none → Prog.Leads (S := sig) r.Inserts (Replies faults)
      (fun a => r.target.isSome → ∃ e, a = .error e ∧ (e.EntityConflict ∨ r.Refusal faults e))
      r.handle := fun ht => by
    refine Prog.leads_of_all (Prog.all_of (fun o => ?_) _) ((Prog.ends_any _).mono fun _ _ h => ?_)
    · cases o <;> simp [Request.Inserts, ht]
    · simp [ht] at h
  cases r with
  | register clientIp payload =>
    exact hheads (heads_withDbSession (heads_rateLimiter fun headers =>
      heads_seq heads_register fun _ => done_pure))
  | tenant bearer o q =>
    cases q
    case inviteMember payload =>
      exact hheads (heads_withDbSession (heads_requireRole fun ctx =>
        heads_seq heads_inviteMember fun _ => done_pure))
    case createTeam payload =>
      refine hheads (heads_withDbSession (heads_requireRole fun ctx =>
        heads_seq (heads_seq (heads_transaction ?_) fun _ => done_getTeamDetail _ _)
          fun _ => done_pure))
      exact heads_insert rfl fun _ => done_refresh _ _
    case addTeamMember teamId payload =>
      exact hheads (heads_withDbSession (heads_requireRole fun ctx =>
        heads_seq heads_addTeamMember fun _ => done_pure))
    case createProject payload =>
      exact hheads (heads_withDbSession (heads_requireRole fun ctx =>
        heads_seq heads_createProject fun _ => done_pure))
    all_goals exact hnone rfl
  | _ => exact hnone rfl

theorem waits_other {j : Nat} {o : Op} {a : Except Exn o.Resp} (hji : j ≠ i)
    (he : exec i o w a w') (hdb : Extends w.db w'.db) : Waits j w w' := by
  have hexec := World.executed he
  refine ⟨hdb, hexec.rows_of_ne hji, fun hj d hd => ?_⟩
  rcases hexec.history with ⟨-, hc⟩ | ⟨-, -, hc⟩ <;> rw [hc] at hd
  · exact hj d hd
  · rcases List.mem_cons.mp hd with rfl | hd
    · exact hji.symm
    · exact hj d hd

theorem survives_of_waits {j : Nat} (hwaits : Waits j c.state w')
    (hfree : ∀ r o rest k, c.thread j = some ⟨r, .call o rest⟩ → r.looks = true → r.Nears o →
      r.Wants c.state.db k → ¬ c.state.db.Holds k → ¬ w'.db.Holds k) :
    insertContract.Survives insertPost c j w' := by
  unfold Contract.Survives
  split
  · exact fun ⟨hrows, hunwritten⟩ => ⟨hwaits.rows.trans hrows, hwaits.unwritten hunwritten⟩
  · exact fun h ht => (h ht).mono hwaits.db hwaits.unwritten
  · next r o rest ht => exact ⟨hwaits, fun hlooks hnear k => hfree r o rest k ht hlooks hnear⟩

theorem insert_verified
    (hupper : ∀ s, Library.upper (strip (Library.upper s)) = strip (Library.upper s)) :
    Verified app (fun c l => Spared c l ∧ ∀ c', Step app c l c' → Extends c.state.db c'.state.db)
      insertContract insertPost where
  refl i r o w := ⟨.refl i w, fun _ _ _ _ h => h⟩
  trans i r o w w' w'' h h' := ⟨h.1.trans h'.1, fun hlooks hnear k hwants hfree =>
    h'.2 hlooks hnear k (hwants.mono h.1.db) (h.2 hlooks hnear k hwants hfree)⟩
  start c i r _ _ hfresh := careful_handle hupper r hfresh.1 hfresh.2
  act c i r o rest w' hok _ ht hguar := by
    obtain ⟨⟨a, he⟩, -⟩ := hguar
    have hdb : Extends c.state.db w'.db := hok.2 _ (.act ht he)
    refine ⟨trivial, fun j hji => survives_of_waits (waits_other hji he hdb) ?_⟩
    intro s o' rest' k hj hlooks hnear hwants hfree hholds
    rcases (World.executed he).history with ⟨hsame, -⟩ | ⟨rfl, happly, -⟩
    · exact hfree (hsame ▸ hholds)
    · rcases Db.Holds.of_apply (happly ▸ hholds) with hold | ⟨e, hmem, hkey⟩
      · exact hfree hold
      · exact hok.1 j s o' rest' hji hj hlooks hnear e hmem k hkey hwants
  env c w' _ _ he := by
    refine ⟨trivial, fun j => survives_of_waits ?_ fun _ _ _ _ _ _ _ _ hfree => ?_⟩
    · cases he <;> exact ⟨Extends.refl _, rfl, fun h => h⟩
    · cases he <;> exact hfree

theorem Request.Wants.target (h : r.Wants db k) : r.target.isSome := by
  unfold Request.Wants at h
  split at h <;> first | rfl | exact h.elim

omit [Library] in
theorem insert_integrity {t : Table} {values : Uuid → Instant → t.Row} {id : Uuid}
    (h : w.insert i t values id = some (.error .integrityError, w')) :
    ((w.view i).get t (t.id (values id w.now))).isSome ∨
      ((w.view i).uniqueFree t (values id w.now) &&
        (w.view i).refsExist t (values id w.now)) = false := by
  unfold World.insert at h
  simp only at h
  split at h
  · cases h
  · split at h
    · next hsome => exact Or.inl hsome
    · split at h
      · next hv =>
        cases h
        unfold World.violation at hv
        split at hv
        · cases hv
        · split at hv
          · next hfail => exact Or.inr (by simpa only [Bool.not_eq_true'] using hfail)
          · cases hv
      · cases h

section Run

variable (hupper : ∀ s, Library.upper (strip (Library.upper s)) = strip (Library.upper s))
  (h : Reach app Spared (genesis faults now) c)

include hupper h

theorem insert_holds : insertContract.Holds app insertPost c := by
  have hstrong : Reach app (fun c l => Spared c l ∧
      ∀ c', Step app c l c' → Extends c.state.db c'.state.db) (genesis faults now) c :=
    h.strengthen fun d l d' hr hspared _ => ⟨hspared, fun d'' hs =>
      reached_extends (hr.mono fun _ _ _ => trivial) (.step .refl trivial hs)⟩
  exact (insert_verified hupper).reach_holds
    (Verified.holds_idle trivial (fun _ => rfl) fun i =>
      ⟨rfl, fun d hd => (List.not_mem_nil hd).elim⟩) hstrong

theorem insert_free {t : Table} {values : Uuid → Instant → t.Row}
    {rest : Except Exn t.Row → Coro Response} {a : Except Exn t.Row}
    (ht : c.thread i = some ⟨r, .call (.insert t values) rest⟩) (htarget : r.target = some t)
    (hspared : Spared c (.act i (.insert t values)))
    (he : exec i (.insert t values) c.state a w) :
    c.state.rows i = [] ∧ ∃ k, r.Wants c.state.db k ∧
      (∀ id now, t.uniqueKey (values id now) = some k) ∧ ¬ c.state.db.Holds k := by
  obtain ⟨⟨-, hguar⟩, -⟩ := (insert_verified hupper).act_guar (insert_holds hupper h) ht he
  obtain ⟨hrows, k, hwants, hkey, hfree⟩ := hguar t values rfl htarget
  refine ⟨hrows, k, hwants, hkey, ?_⟩
  cases hlooks : r.looks with
  | true => exact hfree hlooks
  | false => exact hspared r rest ht htarget hlooks k hwants

/-- A request that is still to insert a value that a row has does not come to insert it. -/
theorem awaits_keeps {k : UniqueKey} (hawaits : Awaits c i r) (hwants : r.Wants c.state.db k)
    (hholds : c.state.db.Holds k) (h' : Reach app Spared c c') {p : Coro Response}
    (ht : c'.thread i = some ⟨r, p⟩) : Prog.Leads (S := sig) r.Inserts (Replies faults)
      (fun a => r.target.isSome → ∃ e, a = .error e ∧ (e.EntityConflict ∨ r.Refusal faults e))
      p := by
  have hreplies : ∀ d i o a w, Reach app Spared (genesis faults now) d →
      exec i o d.state a w → Replies faults o a := fun d i o a w hr he =>
    ⟨i, _, w, reached_sound (hr.mono fun _ _ _ => trivial), reached_faults hr, he⟩
  induction h' generalizing p with
  | refl =>
    rcases hawaits with hnone | ⟨p', hp', hinserts⟩
    · cases hnone.symm.trans ht
    · cases hp'.symm.trans ht
      exact (h.leads (P := Request.Inserts) (fun _ => rfl) heads_handle hreplies ht).resolve_right
        hinserts
  | @step d d' l hr hspared hs ih =>
    have hd : Reach app Spared (genesis faults now) d := h.trans hr
    rcases hs.thread_cases ht with
      hsame | ⟨s, -, -, hstarted⟩ | ⟨s, o, rest, a, rfl, hj, he, hacted⟩
    · exact ih hsame
    · cases hstarted
      exact heads_handle r
    · cases hacted
      refine (ih hj).2 (fun ho => ?_) a (hreplies d i o a _ hd he)
      -- the value is taken, and the request would find it free
      have hext := reached_extends (h.mono fun _ _ _ => trivial) (hr.mono fun _ _ _ => trivial)
      cases o <;> try exact ho
      case insert t values =>
        obtain ⟨-, k', hwants', -, hfree⟩ := insert_free hupper hd hj ho hspared he
        have hdistinct := (reached_sound (hd.mono fun _ _ _ => trivial)).distinct.db
        exact hfree ((hwants.mono hext).unique hdistinct hwants' ▸ hholds.mono hext)

/-- While teams and their members are inserted with free values only, and no value is
committed that another request has found free and is about to insert, a duplicate is told so
and nobody else is. -/
theorem duplicates_told : DuplicatesTold faults Spared c where
  inserts i r t values rest w ht htarget hspared he := by
    obtain ⟨hrows, k, -, hkey, hfree⟩ := insert_free hupper h ht htarget hspared he
    rcases he with ⟨id, -, hinsert⟩ | ⟨-, -, hfailed⟩
    · have hunique := Db.uniqueFree_of_not_holds (hkey id c.state.now) hfree
      refine ⟨id, hunique, ?_⟩
      rcases insert_integrity hinsert with hsome | hfail <;> rw [World.view_of_rows hrows] at *
      · exact Or.inr hsome
      · exact Or.inl (by simpa [hunique] using hfail)
    · cases hfailed
  duplicates i r k c' a hawaits hwants hholds h' ht := by
    obtain ⟨e, rfl, he⟩ := awaits_keeps hupper h hawaits hwants hholds h' ht hwants.target
    refine ⟨e, rfl, he.imp_left fun hc => ⟨hc, ?_⟩⟩
    have hpost := (insert_holds hupper (h.trans h')).2 i
    simp only [ht] at hpost
    exact (hpost hwants.target e rfl hc).2
  conflicts i r e htarget ht hc := by
    have hpost := (insert_holds hupper h).2 i
    simp only [ht] at hpost
    exact hpost htarget e rfl hc

end Run

end

section

open scoped Ascii

theorem toUpper_toUpper (c : Char) : c.toUpper.toUpper = c.toUpper := by
  unfold Char.toUpper
  split
  · next h =>
    have hlow : 97 ≤ c.val.toNat ∧ c.val.toNat ≤ 122 := h
    rw [dif_neg]
    rintro ⟨ha, -⟩
    have hle : 97 ≤ (c.val + ('A'.val - 'a'.val)).toNat := ha
    have hadd : (c.val + ('A'.val - 'a'.val)).toNat = (c.val.toNat + 4294967264) % 4294967296 :=
      UInt32.toNat_add _ _
    omega
  · rfl

theorem Ascii.upper_strip (s : Str) :
    Library.upper (strip (Library.upper s)) = strip (Library.upper s) :=
  map_strip_map toUpper_toUpper s

def restAnswered (ids : List Nat) (c : AppConfig) : AppMove → Bool
  | .act i _ => ids.all fun j => decide (j = i) || (answer c j).isSome || (c.thread j).isNone
  | _ => true

theorem restAnswered_spared {ids : List Nat} {moves : List AppMove} {c : AppConfig} {m : AppMove}
    (hmoves : ∀ i r, .start i r ∈ moves → i ∈ ids ∧ r.looks = true) (harrived : Arrived moves c)
    (h : restAnswered ids c m = true) : m.Allowed Spared c := by
  cases m with
  | start i r => trivial
  | env x => trivial
  | act j x =>
    intro r o rest _
    cases o with
    | insert t values =>
      intro s rest' hs _ hlooks
      cases hlooks.symm.trans (hmoves j s (harrived j _ hs)).2
    | commit =>
      intro i s o' rest' hij hs
      have hall := List.all_eq_true.mp h i (hmoves i s (harrived i _ hs)).1
      simp [answer, hs, hij] at hall
    | _ => trivial

theorem annsProject_told :
    DuplicatesTold noFaults Spared (runMoves (genesis noFaults 0) annsProject) :=
  duplicates_told Ascii.upper_strip (runMoves_checked (restAnswered [0, 1, 2]) (fun _ => rfl)
    (fun _ _ _ harrived h => restAnswered_spared (fun i r hr => by
      simp [annsProject] at hr
      rcases hr with ⟨rfl, rfl⟩ | ⟨rfl, rfl⟩ | ⟨rfl, rfl⟩ <;> exact ⟨by simp, rfl⟩) harrived h)
    (by decide +kernel))

def coreTeam : Request := asAnn (.createTeam ⟨⟨"Core".toList, by decide, by decide⟩,
  ⟨"core".toList, by decide, by decide⟩, none⟩)

def withCoreTeam : AppConfig := runMoves (genesis noFaults 0)
  (solo 0 (registration "ann@example.org".toList ann_short) ++ solo 1 coreTeam)

/-- The slug is stored when the second request to create the team arrives, and the request
ends in an `IntegrityError`. -/
theorem duplicates_not_told : ¬ ∀ c, Reach app anySchedule (genesis noFaults 0) c →
    DuplicatesTold noFaults anySchedule c := by
  intro hall
  have hserved : Served withCoreTeam _ 2 coreTeam (.error .integrityError) :=
    served_refused (by decide +kernel) (by decide +kernel)
  have hstored : (withCoreTeam.state.db.rows .teams).list.any (fun t : Team =>
      decide (Table.teams.uniqueKey t = some (.teamOrgSlug (drawnId 4) "core".toList))) = true := by
    decide +kernel
  obtain ⟨team, hteam, hkey⟩ := List.any_eq_true.mp hstored
  obtain ⟨e, he, hend⟩ := (hall withCoreTeam (runMoves_any fun _ => rfl)).duplicates 2 coreTeam
    (.teamOrgSlug (drawnId 4) "core".toList) _ _ (Or.inl hserved.idle) rfl
    ⟨.teams, team, hteam, of_decide_eq_true hkey⟩ hserved.path hserved.answered
  cases he
  rcases hend with ⟨⟨_, h⟩, -⟩ | h | ⟨_, _, h⟩ | ⟨-, h⟩
  · cases h
  · simp [credentialsException, inactiveUser, notAMember, insufficientRole] at h
  · cases h
  · cases h

end

end MultiTenantSaas
