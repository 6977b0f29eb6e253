import MultiTenantSaas.Collections
import MultiTenantSaas.UploadLimits

/-!
The listings that are not paged: the members of an organization, the attachments of a task
and the memberships of a user. Whoever writes meanwhile, each shows the rows of one moment
between its arrival and its answer, every one of them once.
-/

set_option autoImplicit false

namespace MultiTenantSaas

open Process

section Finds

variable {α β : Type} {D : Db → Prop}

theorem finds_requireJoined (rows : List (α × Option β)) :
    Finds D (requireJoined rows) fun pairs => rows = pairs.map fun x => (x.1, some x.2) := by
  induction rows with
  | nil => exact finds_pure rfl
  | cons row rows ih =>
    obtain ⟨a, b⟩ := row
    cases b with
    | none => exact finds_throw
    | some b => exact finds_bind ih fun pairs hpairs => finds_pure (by rw [hpairs]; rfl)

/-- The rows of one moment that meet `p`, each with the row that it refers to. -/
def Joined (db : Db) (t u : Table) (ref : t.Row → Option Uuid) (p : t.Row → Bool)
    (pairs : List (t.Row × u.Row)) : Prop :=
  (pairs.map Prod.fst).Perm (rowsWhere t p db) ∧ ∀ x ∈ pairs, (ref x.1).bind (db.get u) = some x.2

theorem joined_of_perm {db : Db} {t u : Table} {ref : t.Row → Option Uuid} {p : t.Row → Bool}
    {pairs : List (t.Row × u.Row)}
    (h : (pairs.map fun x => (x.1, some x.2)).Perm (joinedLoad t u ref p db)) :
    Joined db t u ref p pairs := by
  constructor
  · have hfst := h.map Prod.fst
    simpa [joinedLoad, Function.comp_def] using hfst
  · intro x hx
    have hmem := h.subset (List.mem_map_of_mem (f := fun x => (x.1, some x.2)) hx)
    obtain ⟨row, -, hrow⟩ := List.mem_map.mp hmem
    obtain ⟨rfl, href⟩ := Prod.mk.inj hrow
    exact href

end Finds

section Computed

variable [Library] {α β : Type} {D : Db → Prop}

/-- What is computed from the arguments alone: the URL of a key, the normal form of an address. -/
def Computes : (o : Op) → Except Exn o.Resp → Prop
  | .presignGet key expiresIn, a => ∀ url, a = .ok url → url = Library.presignedGet key expiresIn
  | .validateEmail email, a => ∀ x, a = .ok x → Library.validateEmail email = some x
  | _, _ => True

theorem exec_computes {i : Nat} {o : Op} {w w' : World} {a : Except Exn o.Resp}
    (he : exec i o w a w') : Computes o a := by
  cases o with
  | presignGet key expiresIn =>
    rintro url rfl
    obtain ⟨⟨-, hok⟩, -⟩ | ⟨-, ⟨-, hrefused⟩ | ⟨-, hfailed⟩⟩ := he
    · exact Except.ok.inj hok
    · cases hrefused
    · cases hfailed
  | validateEmail email =>
    rintro x rfl
    obtain ⟨-, ⟨y, hvalid, hok⟩ | ⟨-, hrefused⟩⟩ := he
    · cases hok
      exact hvalid
    · cases hrefused
  | _ => trivial

abbrev Obtains (D : Db → Prop) (p : Coro α) (Q : α → Prop) : Prop :=
  Prog.Returns (S := sig) (fun o a => From D o a ∧ Computes o a) (fun o => Op.reads o = true) p Q

theorem Finds.obtains {p : Coro α} {Q : α → Prop} (h : Finds D p Q) : Obtains D p Q :=
  Prog.Keeps.weaken h fun _ _ ha => ha.1

theorem obtains_forEach {f : α → Coro β} {R : α → β → Prop} (hf : ∀ a, Obtains D (f a) (R a))
    (as : List α) : Obtains D (forEach f as) fun bs => List.Forall₂ R as bs := by
  induction as with
  | nil => exact Prog.returns_pure .nil
  | cons a as ih =>
    exact (hf a).bind fun b hb => ih.bind fun bs hbs => Prog.returns_pure (.cons hb hbs)

theorem obtains_validateEmail (email : Str) :
    Obtains D (ask (.validateEmail email)) fun x => Library.validateEmail email = some x :=
  ⟨rfl, fun _ ha => ha.2⟩

end Computed

section Listed

variable [Library] {D : Db → Prop}

def OrgMemberDetailResponse.Shows (r : OrgMemberDetailResponse) (m : OrganizationMember)
    (u : User) : Prop :=
  ∃ email, Library.validateEmail u.email = some email ∧
    r = ⟨m.id, m.userId, email, u.fullName, u.avatarUrl, m.role, m.createdAt⟩

/-- The members of the tenant, the earliest first, each with its user. -/
def MembersListed (o : Uuid) (db : Db) (a : Response) : Prop :=
  ∃ (pairs : List (OrganizationMember × User)) (entries : List OrgMemberDetailResponse),
    Joined db .organizationMembers .users (fun (m : OrganizationMember) => some m.userId)
      (fun (m : OrganizationMember) => m.organizationId = o) pairs ∧
    pairs.Pairwise (fun x y => x.1.createdAt ≤ y.1.createdAt) ∧
    List.Forall₂ (fun x entry => entry.Shows x.1 x.2) pairs entries ∧ a = .members entries

theorem obtains_memberDetail (m : OrganizationMember) (u : User) :
    Obtains D (Endpoints.memberDetail m u) fun entry => entry.Shows m u :=
  (obtains_validateEmail u.email).bind fun email hemail => Prog.returns_pure ⟨email, hemail, rfl⟩

theorem obtains_members (ctx : TenantContext) :
    Obtains D (do pure (Response.members (← Endpoints.listOrganizationMembers ctx)))
      fun a => ∃ db, D db ∧ MembersListed ctx.organizationId db a := by
  refine Prog.Returns.bind (R := fun entries => ∃ db, D db ∧
    MembersListed ctx.organizationId db (.members entries)) ?_ fun entries hentries =>
      Prog.returns_pure hentries
  refine finds_select.obtains.bind fun rows ⟨db, hdb, hrows⟩ =>
    (finds_requireJoined _).obtains.bind fun pairs hpairs =>
      (obtains_forEach (R := fun x (entry : OrgMemberDetailResponse) => entry.Shows x.1 x.2)
        (fun x => obtains_memberDetail x.1 x.2) pairs).mono fun a ha entries he =>
          ⟨db, hdb, pairs, entries, ?_, ?_, ha entries he, rfl⟩
  · exact joined_of_perm (hpairs ▸ (List.perm_insertionSort _ _).trans hrows)
  · have hsorted := List.pairwise_insertionSort
      (fun (x y : OrganizationMember × Option User) => x.1.createdAt ≤ y.1.createdAt) rows
    rw [hpairs, List.pairwise_map] at hsorted
    exact hsorted

/-- The attachments of the task, the latest first, each with the URL of its own object. -/
def AttachmentsListed (o taskId : Uuid) (db : Db) (a : Response) : Prop :=
  ∃ rows : List Attachment,
    rows.Perm (rowsWhere .attachments (fun (x : Attachment) => x.organizationId = o &&
      x.taskId = taskId) db) ∧
    rows.Pairwise (fun x y => y.createdAt ≤ x.createdAt) ∧
    a = .attachments (rows.map fun x => .ofAttachment x (Library.presignedGet x.s3Key 3600))

theorem obtains_urls (rows : List Attachment) :
    Obtains D (forEach (fun a => do
      let downloadUrl ← generatePresignedDownloadUrl a.s3Key
      pure (AttachmentResponse.ofAttachment a downloadUrl)) rows)
      fun xs => xs = rows.map fun x => .ofAttachment x (Library.presignedGet x.s3Key 3600) := by
  have hurl : ∀ key, Obtains D (generatePresignedDownloadUrl key)
      fun url => url = Library.presignedGet key 3600 := fun _ => ⟨rfl, fun _ ha => ha.2⟩
  refine (obtains_forEach (R := fun x y => AttachmentResponse.ofAttachment x
    (Library.presignedGet x.s3Key 3600) = y) (fun x => (hurl x.s3Key).bind fun url hu =>
      Prog.returns_pure (hu ▸ rfl)) rows).mono fun a ha xs hxs => ?_
  have hall : List.Forall₂ (· = ·) (rows.map fun x => AttachmentResponse.ofAttachment x
      (Library.presignedGet x.s3Key 3600)) xs := List.forall₂_map_left_iff.mpr (ha xs hxs)
  rw [List.forall₂_eq_eq_eq] at hall
  exact hall.symm

theorem obtains_attachments (ctx : TenantContext) (taskId : Uuid) :
    Obtains D (do pure (Response.attachments (← Endpoints.listAttachments ctx taskId)))
      fun a => ∃ db, D db ∧ AttachmentsListed ctx.organizationId taskId db a := by
  have hrows : Finds D (listByTask ctx.organizationId taskId) fun rows => ∃ db, D db ∧
      rows.Perm (rowsWhere .attachments (fun (x : Attachment) =>
        x.organizationId = ctx.organizationId && x.taskId = taskId) db) ∧
      rows.Pairwise (fun x y => y.createdAt ≤ x.createdAt) :=
    finds_bind finds_select fun rows ⟨db, hdb, hperm⟩ => finds_pure
      ⟨db, hdb, (List.perm_insertionSort _ _).trans hperm, List.pairwise_insertionSort
        (fun (x y : Attachment) => y.createdAt ≤ x.createdAt) rows⟩
  refine (hrows.obtains.bind fun rows ⟨db, hdb, hperm, hsorted⟩ => (obtains_urls rows).mono ?_).bind
    (R := fun xs => ∃ db, D db ∧ AttachmentsListed ctx.organizationId taskId db (.attachments xs))
    fun xs hxs => Prog.returns_pure hxs
  intro a ha xs hxs
  exact ⟨db, hdb, rows, hperm, hsorted, by rw [ha xs hxs]⟩

end Listed

section Profile

variable {α : Type} {D : Db → Prop}

theorem finds_selectOne {q : Db → List α} :
    Finds D (selectOne q) fun x => ∀ r, x = some r → ∃ db, D db ∧ r ∈ q db := returns_selectOne rfl

theorem finds_decodeJwtToken (token : Token) :
    Finds D (decodeJwtToken token) fun payload => token.payload = some payload := by
  unfold decodeJwtToken
  cases hpay : token.payload with
  | none => exact finds_throw
  | some payload =>
    refine finds_bind (R := fun _ => True) ⟨rfl, fun _ _ _ _ => trivial⟩ fun now _ => ?_
    split
    · exact finds_pure rfl
    · exact finds_throw

theorem finds_accessSubject (bearer : Token) :
    Finds D (accessSubject bearer) fun userId => bearer.Names access userId := by
  refine finds_bind (finds_decodeJwtToken bearer) fun payload hpay => ?_
  by_cases htype : payload.type = access
  · rw [if_neg (not_not.mpr htype)]
    cases hsub : payload.sub with
    | none => exact finds_throw
    | some userId => exact finds_pure ⟨payload, hpay, htype, hsub⟩
  · rw [if_pos htype]
    exact finds_bind (R := fun _ => False) finds_throw fun _ => False.elim

theorem finds_getCurrentUser (bearer : Token) :
    Finds D (getCurrentUser bearer) fun user => bearer.Names access user.id ∧
      user.isActive = true ∧ ∃ db, D db ∧ user ∈ db.rows .users := by
  refine finds_bind (Prog.Returns.tryCatch (finds_accessSubject bearer) fun e => ?_)
    fun userId hnames => finds_bind finds_selectOne fun found hfound => ?_
  · split <;> exact finds_throw
  · cases found with
    | none => exact finds_throw
    | some user =>
      dsimp only
      split
      · next hactive =>
        obtain ⟨db, hdb, hmem⟩ := hfound user rfl
        obtain ⟨hrow, hid⟩ := mem_rowsWhere.mp hmem
        have hid : user.id = userId := of_decide_eq_true hid
        exact finds_pure ⟨hid ▸ hnames, hactive, db, hdb, hrow⟩
      · exact finds_throw

/-- The profile of the user: the columns of the row, with the normal form of the address, and
an entry for each membership. -/
def ProfileShown [Library] (user : User) (db : Db) (a : Response) : Prop :=
  ∃ (email : EmailStr) (pairs : List (OrganizationMember × Organization)),
    Library.validateEmail user.email = some email ∧
    Joined db .organizationMembers .organizations
      (fun (m : OrganizationMember) => some m.organizationId)
      (fun (m : OrganizationMember) => m.userId = user.id) pairs ∧
    a = .profile ⟨user.id, email, user.fullName, user.avatarUrl, user.isActive,
      user.isVerified, user.createdAt, pairs.map fun x =>
        ⟨x.1.organizationId, x.2.name, x.2.slug, x.1.role⟩⟩

theorem obtains_getUserProfile [Library] (userId : Uuid) :
    Obtains D (do pure (Response.profile (← AuthService.getUserProfile userId))) fun a =>
      ∃ user : User, user.id = userId ∧ (∃ db, D db ∧ user ∈ db.rows .users) ∧
        ∃ db, D db ∧ ProfileShown user db a := by
  refine Prog.Returns.bind (R := fun profile => ∃ user : User, user.id = userId ∧
    (∃ db, D db ∧ user ∈ db.rows .users) ∧ ∃ db, D db ∧ ProfileShown user db (.profile profile))
    (finds_selectOne.obtains.bind fun found hfound => ?_) fun profile hprofile =>
      Prog.returns_pure hprofile
  cases found with
  | none => exact Prog.returns_throw
  | some user =>
    obtain ⟨db₀, hdb₀, hmem⟩ := hfound user rfl
    obtain ⟨hrow, hid⟩ := mem_rowsWhere.mp hmem
    have hid : User.id user = userId := of_decide_eq_true hid
    refine finds_select.obtains.bind fun rows ⟨db, hdb, hrows⟩ =>
      (finds_requireJoined _).obtains.bind fun pairs hpairs =>
        (obtains_validateEmail _).bind fun email hemail => Prog.returns_pure ?_
    rw [← hid] at hrows
    exact ⟨user, hid, ⟨db₀, hdb₀, hrow⟩, db, hdb, email, pairs, hemail,
      joined_of_perm (hpairs ▸ hrows), rfl⟩

end Profile

section Runs

variable [Library] {faults : Faults} {now : Instant} {c c' : AppConfig} {i : Nat} {r : Request}
  {bearer : Token} {o : Uuid} {a : Response}

theorem Served.obtains (h₀ : Reach app anySchedule (genesis faults now) c)
    (h : Served c c' i r (.ok a)) {Q : Response → Prop}
    (hr : Obtains (Between c c') r.handle Q) : Q a :=
  (reach_reads h₀ h.idle h.reach (R := Computes) (fun _ _ _ _ _ _ => exec_computes) hr).1 _
    h.answered a rfl

/-- The answer to `list_organization_members` is the members of one moment, each once, with
their users. -/
theorem members_listed (h₀ : Reach app anySchedule (genesis faults now) c)
    (h : Served c c' i (.tenant bearer o .listOrganizationMembers) (.ok a)) :
    ∃ db, Between c c' db ∧ MembersListed o db a := by
  refine h.obtains (Q := fun a => ∃ db, Between c c' db ∧ MembersListed o db a) h₀
    (returns_withDbSession rfl (finds_requireRole.obtains.bind fun ctx hctx => ?_))
  rw [← hctx]
  exact obtains_members ctx

/-- The answer to `list_attachments` is the attachments of one moment, each once, with the
URL of its own object. -/
theorem attachments_listed (h₀ : Reach app anySchedule (genesis faults now) c) {taskId : Uuid}
    (h : Served c c' i (.tenant bearer o (.listAttachments taskId)) (.ok a)) :
    ∃ db, Between c c' db ∧ AttachmentsListed o taskId db a := by
  refine h.obtains (Q := fun a => ∃ db, Between c c' db ∧ AttachmentsListed o taskId db a) h₀
    (returns_withDbSession rfl (finds_requireRole.obtains.bind fun ctx hctx => ?_))
  rw [← hctx]
  exact obtains_attachments ctx taskId

/-- The answer to `get_me` is the profile of an active user whom the access token names, with
the organizations and the roles of one moment. -/
theorem profile_shown (h₀ : Reach app anySchedule (genesis faults now) c)
    (h : Served c c' i (.getMe bearer) (.ok a)) :
    ∃ user caller : User, bearer.Names access user.id ∧ caller.id = user.id ∧
      caller.isActive = true ∧ (∃ db, Between c c' db ∧ caller ∈ db.rows .users) ∧
      (∃ db, Between c c' db ∧ user ∈ db.rows .users) ∧
      ∃ db, Between c c' db ∧ ProfileShown user db a := by
  refine h.obtains (Q := fun a => ∃ user caller : User, bearer.Names access user.id ∧
    caller.id = user.id ∧ caller.isActive = true ∧
    (∃ db, Between c c' db ∧ caller ∈ db.rows .users) ∧
    (∃ db, Between c c' db ∧ user ∈ db.rows .users) ∧
    ∃ db, Between c c' db ∧ ProfileShown user db a) h₀ (returns_withDbSession rfl
      ((finds_getCurrentUser bearer).obtains.bind fun caller hcaller =>
        Prog.Keeps.mono (obtains_getUserProfile caller.id) fun b hb x hx => ?_))
  obtain ⟨user, hid, hrow, hshown⟩ := hb x hx
  obtain ⟨hnames, hactive, hcalls⟩ := hcaller
  exact ⟨user, caller, hid ▸ hnames, hid.symm, hactive, hcalls, hrow, hshown⟩

end Runs

section Example

open scoped Ascii

def planAttached : AppConfig := attached "plan.pdf".toList 1024 "application/pdf".toList

theorem planAttached_reached : Reach app anySchedule (genesis noFaults 0) planAttached :=
  runMoves_any fun _ => rfl

theorem ann_listed : ∃ a db, Between planAttached
      (runMoves planAttached (solo 5 (asAnn .listOrganizationMembers))) db ∧
    MembersListed (drawnId 4) db a := by
  obtain ⟨a, hserved, -⟩ := served_with (c := planAttached) (i := 5)
    (r := asAnn .listOrganizationMembers) (p := fun _ => true) (by decide +kernel)
    (by decide +kernel)
  obtain ⟨db, hbetween, hlisted⟩ := members_listed planAttached_reached hserved
  exact ⟨a, db, hbetween, hlisted⟩

theorem plan_listed : ∃ a db, Between planAttached
      (runMoves planAttached (solo 5 (asAnn (.listAttachments (drawnId 17))))) db ∧
    AttachmentsListed (drawnId 4) (drawnId 17) db a := by
  obtain ⟨a, hserved, -⟩ := served_with (c := planAttached) (i := 5)
    (r := asAnn (.listAttachments (drawnId 17))) (p := fun _ => true) (by decide +kernel)
    (by decide +kernel)
  obtain ⟨db, hbetween, hlisted⟩ := attachments_listed planAttached_reached hserved
  exact ⟨a, db, hbetween, hlisted⟩

theorem ann_shown : ∃ (a : Response) (user : User) (db : Db),
    (signedToken (drawnId 2) access 1000).Names access user.id ∧ Between planAttached
      (runMoves planAttached (solo 5 (.getMe (signedToken (drawnId 2) access 1000)))) db ∧
    ProfileShown user db a := by
  obtain ⟨a, hserved, -⟩ := served_with (c := planAttached) (i := 5)
    (r := .getMe (signedToken (drawnId 2) access 1000)) (p := fun _ => true) (by decide +kernel)
    (by decide +kernel)
  obtain ⟨user, caller, hnames, -, -, -, -, db, hbetween, hshown⟩ :=
    profile_shown planAttached_reached hserved
  exact ⟨a, user, db, hnames, hbetween, hshown⟩

end Example

end MultiTenantSaas
