import MultiTenantSaas.Announcements
import MultiTenantSaas.Effects
import MultiTenantSaas.Invitations
import MultiTenantSaas.Rosters

/-!
The jobs that requests enqueue. An invitation is mailed after the membership has been
committed, to the user who has become a member.
-/

set_option autoImplicit false

namespace MultiTenantSaas

open Process Session

/-- The job tells the user of the membership `m` of what the request has granted; `db` are
the committed rows when the job is enqueued. -/
structure Mails [Library] (bearer : Token) (payload : OrgMemberInviteRequest)
    (m : OrganizationMember) (db : Db) (name function : Str) (args : List Str) : Prop where
  role : m.role = payload.role
  function : function = "send_invitation_email".toList
  args : ∃ invited inviter : User, invited ∈ db.rows .users ∧ invited.id = m.userId ∧
    invited.email = normalizeEmail payload.email.text ∧ inviter ∈ db.rows .users ∧
    bearer.Names access inviter.id ∧ args = [invited.email, name, inviter.fullName]

def OrganizationNamed (db : Db) (o : Uuid) (name : Str) : Prop :=
  (∃ org : Organization, db.get .organizations o = some org ∧ name = org.name) ∨
    db.get .organizations o = none

/-- What a session may enqueue: the mail of an invitation that it has committed. -/
def Session.MayEnqueue [Library] (r : Request) (g : Session) (function : Str) (args : List Str) :
    Prop :=
  ∃ bearer payload m name, r = .tenant bearer m.organizationId (.inviteMember payload) ∧
    g.stage = .committed [⟨.organizationMembers, m⟩] ∧
    OrganizationNamed g.db m.organizationId name ∧ Mails bearer payload m g.db name function args

/-- The protocol of a session that enqueues no other job. -/
def mailing [Library] (D : Db → Prop) (r : Request) : Protocol sig Exn Session where
  admits g o := g.Admits D r o ∧
    ∀ function args, o = .enqueue function args → g.MayEnqueue r function args
  moves := (protocol D r).moves

abbrev MailsOnly [Library] {α : Type} (D : Db → Prop) (r : Request) (p : Coro α) (g : Session) :
    Prop :=
  Prog.Follows (S := sig) (mailing D r) (fun _ _ => True) p g

section Rules

variable {α β : Type} {D : Db → Prop} {r : Request} {g : Session} {ss : List Service}

theorem not_enqueue {o : Op} (h : ∀ s, o.service = some s → s ∈ ss) (hss : Service.queue ∉ ss)
    {function : Str} {args : List Str} : o ≠ .enqueue function args := by
  rintro rfl
  exact hss (h .queue rfl)

variable [Library]

theorem mailsOnly_of_serves {p : Coro α} {E : Except Exn α → Session → Prop}
    (hp : Prog.Follows (S := sig) (protocol D r) E p g) (hs : Serves ss p)
    (hss : Service.queue ∉ ss) : Prog.Follows (S := sig) (mailing D r) E p g :=
  Prog.Follows.restrict hp hs
    (fun _ _ ho hadm => ⟨hadm, fun _ _ he => absurd he (not_enqueue ho hss)⟩)
    fun _ _ _ _ => id

theorem mailsOnly_bind {p : Coro α} {f : α → Coro β} (hs : Serves [] p)
    (hp : Obeys D r p (fun a g' => MailsOnly D r (f a) g') g) : MailsOnly D r (p >>= f) g := by
  refine Prog.Follows.bind (mailsOnly_of_serves (Prog.Follows.mono hp fun a g' ha => ?_) hs
    List.not_mem_nil)
  cases a with
  | ok a => exact ha
  | error e => trivial

theorem mailsOnly_rollback {p : Coro α} (hp : ∀ g, MailsOnly D r p g) :
    MailsOnly D r (ask .rollback >>= fun _ => p) g := by
  refine Prog.Follows.bind ⟨⟨admits_rollback, fun _ _ h => by cases h⟩, fun a g' _ => ?_⟩
  cases a with
  | ok a => exact hp g'
  | error e => trivial

theorem mailsOnly_withDbSession {p : Coro α} (hp : MailsOnly D r p g) :
    MailsOnly D r (withDbSession p) g := by
  refine Prog.Follows.bind (Prog.Follows.tryCatch (Prog.Follows.mono hp fun a g' _ => ?_))
  cases a with
  | ok a => exact mailsOnly_rollback fun _ => trivial
  | error e =>
    refine Prog.Follows.mono (mailsOnly_rollback fun _ => trivial) fun a g'' _ => ?_
    cases a with
    | ok a => exact mailsOnly_rollback fun _ => trivial
    | error e => trivial

end Rules

section Invitation

variable {D : Db → Prop} {bearer : Token} {o : Uuid} {payload : OrgMemberInviteRequest} {db : Db}

theorem finds_caller {minRole : OrgRole} :
    Finds (fun _ => True) (requireRole minRole bearer o)
      fun ctx => bearer.Names access ctx.user.id := by
  refine finds_bind (finds_getCurrentUser bearer) fun user hnames =>
    finds_bind finds_selectOne fun found _ => ?_
  cases found with
  | none => exact finds_throw
  | some m =>
    dsimp only
    split
    · exact finds_throw
    · exact finds_pure hnames.1

theorem obeys_caller {r : Request} {minRole : OrgRole} :
    Obeys D r (requireRole minRole bearer o) (fun ctx g => bearer.Names access ctx.user.id ∧
      ∃ user role db', ctx = ⟨user, o, role⟩ ∧ g = ⟨db', [], .working⟩ ∧ user ∈ db'.rows .users)
      ⟨db, [], .working⟩ :=
  obeys_finds (obeys_requireRole fun user role db' huser => ⟨user, role, db', rfl, rfl, huser⟩)
    finds_caller

theorem inviteMember_mails [Library] {user : User} {role : OrgRole} (huser : user ∈ db.rows .users)
    (hnames : bearer.Names access user.id) :
    MailsOnly D (.tenant bearer o (.inviteMember payload))
      (Endpoints.inviteMember ⟨user, o, role⟩ payload) ⟨db, [], .working⟩ := by
  refine mailsOnly_bind (serves_selectOne _) (obeys_selectOne (fun _ _ _ => trivial)
    fun (invited : User) db₁ _ h₁ hinvited => ?_)
  refine mailsOnly_bind (serves_selectOne _) (obeys_inward
    (Inward.of_silent (silent_selectOne _)) rfl fun existing db₂ h₂ => ?_)
  dsimp only
  split
  · exact Prog.Follows.bind trivial
  refine mailsOnly_bind (serves_create _ _) (obeys_create ⟨rfl, [], rfl⟩ fun id now db₃ h₃ => ?_)
  refine mailsOnly_bind (serves_ask rfl) (obeys_commit rfl fun db₄ h₄ hgrow => ?_)
  obtain ⟨hinvited, hemail⟩ := mem_rowsWhere.mp hinvited
  have hemail : invited.email = normalizeEmail payload.email.text := of_decide_eq_true hemail
  -- users do not change, so that the rows found earlier are still there
  have hmail : ∀ db₅ name, Extends (db₄.apply [⟨.organizationMembers,
        newOrganizationMember o invited.id payload.role id now⟩]) db₅ →
      OrganizationNamed db₅ o name → MailsOnly D (.tenant bearer o (.inviteMember payload))
        (do
          JobQueueService.enqueue "send_invitation_email".toList
            [invited.email, name, user.fullName]
          Endpoints.memberDetail (newOrganizationMember o invited.id payload.role id now) invited)
        ⟨db₅, [], .committed [⟨.organizationMembers,
          newOrganizationMember o invited.id payload.role id now⟩]⟩ := by
    intro db₅ name h₅ hname
    have hlate := h₂.trans (h₃.trans (h₄.trans (hgrow.trans h₅)))
    have hmails : Mails bearer payload (newOrganizationMember o invited.id payload.role id now)
        db₅ name "send_invitation_email".toList [invited.email, name, user.fullName] :=
      ⟨rfl, rfl, invited, user, hlate.mem (t := .users) (fun _ => rfl) hinvited, rfl, hemail,
        (h₁.trans hlate).mem (t := .users) (fun _ => rfl) huser, hnames, rfl⟩
    refine Prog.Follows.bind (Prog.Follows.tryCatch ⟨⟨(fun t ht => by cases ht), ?_⟩, ?_⟩)
    · rintro function args h
      cases h
      exact ⟨bearer, payload, _, name, rfl, rfl, hname, hmails⟩
    · intro a g' _
      have hdetail : ∀ g', MailsOnly D (.tenant bearer o (.inviteMember payload))
          (Endpoints.memberDetail (newOrganizationMember o invited.id payload.role id now) invited)
          g' := fun g' => mailsOnly_bind (serves_ask rfl)
        (obeys_ask (Op.inward.admits rfl) fun _ _ _ _ _ _ _ => trivial)
      cases a <;> exact hdetail g'
  refine mailsOnly_bind (serves_sessionGet _ _) (obeys_sessionGet rfl (fun db₅ h₅ hnone => ?_)
    fun org db₅ _ h₅ hget => ?_)
  · exact hmail db₅ _ h₅ (Or.inr hnone)
  · exact hmail db₅ _ h₅ (Or.inl ⟨org, hget, rfl⟩)

end Invitation

section Requests

variable [Library] {D : Db → Prop}

omit [Library] in
theorem invitation_of_queue {r : Request} (h : Service.queue ∈ r.services) :
    ∃ bearer o payload, r = .tenant bearer o (.inviteMember payload) := by
  cases r with
  | tenant bearer o q =>
    cases q with
    | inviteMember payload => exact ⟨bearer, o, payload, rfl⟩
    | _ => simp [Request.services, TenantRequest.services] at h
  | _ => simp [Request.services] at h

theorem invitation_mails (bearer : Token) (o : Uuid) (payload : OrgMemberInviteRequest) :
    MailsOnly D (.tenant bearer o (.inviteMember payload))
      (Request.handle (.tenant bearer o (.inviteMember payload))) Session.fresh := by
  refine mailsOnly_withDbSession (mailsOnly_bind (serves_requireRole _ _ _) ?_)
  refine obeys_caller.mono fun ctx g hctx => ?_
  obtain ⟨hnames, user, role, db, rfl, rfl, huser⟩ := hctx
  refine Prog.Follows.bind (Prog.Follows.mono (inviteMember_mails huser hnames) fun a g' _ => ?_)
  cases a <;> trivial

theorem handle_mails (r : Request) : MailsOnly D r r.handle Session.fresh := by
  by_cases hqueue : Service.queue ∈ r.services
  · obtain ⟨bearer, o, payload, rfl⟩ := invitation_of_queue hqueue
    exact invitation_mails bearer o payload
  · exact Prog.Follows.mono (mailsOnly_of_serves (handle_follows r) (handle_serves r) hqueue)
      fun _ _ _ => trivial

variable {c₀ c : AppConfig} {i : Nat} {r : Request} {m : OrganizationMember}

theorem organization_committed (h₀ : Start c₀) (h : Reach app anySchedule c₀ c) {before : Db}
    (hrecord : c.state.record i = [.commit before [⟨.organizationMembers, m⟩]]) :
    ∃ org, (before.apply [⟨.organizationMembers, m⟩]).get .organizations m.organizationId =
      some org := by
  have hmem : Event.commit before [⟨.organizationMembers, m⟩] ∈ c.state.record i := by
    rw [hrecord]
    exact List.mem_singleton_self _
  obtain ⟨⟨j, e⟩, htrace, hevent⟩ := List.mem_map.mp hmem
  cases hevent
  have hcommit : (⟨j, before, [⟨.organizationMembers, m⟩]⟩ : Commit) ∈ c.state.commits :=
    List.mem_filterMap.mpr ⟨_, (List.mem_filter.mp htrace).1, rfl⟩
  obtain ⟨hclosed, -⟩ := (h₀.history (P := fun _ _ _ => True)
    (fun c l _ => calm_uncovered c l) (fun _ _ _ _ _ _ => trivial) h).2 _ hcommit
  obtain ⟨hrow, -⟩ := Db.get_eq_some.mp
    (Db.get_apply_append_self before [] ⟨.organizationMembers, m⟩)
  exact Db.refsExist_iff.mp (hclosed .organizationMembers m hrow)
    (.organizations, m.organizationId) (by simp [Table.refs])

/-- A request enqueues a job only as an invitation that has committed a membership, and the
job names, as the rows then are, the user who has become a member, the organization and the
caller. -/
theorem invitations_mailed (h₀ : Start c₀) (h : Reach app anySchedule c₀ c) {function : Str}
    {args : List Str} {k : Except Exn Unit → Coro Response}
    (ht : c.thread i = some ⟨r, .call (.enqueue function args) k⟩) :
    ∃ bearer payload m before db, ∃ org : Organization,
      r = .tenant bearer m.organizationId (.inviteMember payload) ∧
      c.state.record i = [.commit before [⟨.organizationMembers, m⟩]] ∧
      Extends (before.apply [⟨.organizationMembers, m⟩]) db ∧ Extends db c.state.db ∧
      db.get .organizations m.organizationId = some org ∧
      Mails bearer payload m db org.name function args := by
  obtain ⟨g, hfollows, hrefines⟩ := h₀.refines_within (P := mailing c.state.Held) h handle_mails
    (fun _ _ _ hadm => hadm.1) (fun _ _ _ _ _ => id) ht
  obtain ⟨bearer, payload, m, name, hr, hstage, hname, hmails⟩ := hfollows.1.2 _ _ rfl
  obtain ⟨before, hrecord, hext, -⟩ := hrefines.committed _ hstage
  obtain ⟨org, horg⟩ := organization_committed h₀ h hrecord
  obtain ⟨org', horg', -⟩ := hext _ _ _ horg
  rcases hname with ⟨org'', hget, rfl⟩ | hnone
  · exact ⟨bearer, payload, m, before, g.db, org'', hr, hrecord, hext, hrefines.db, hget, hmails⟩
  · cases hnone.symm.trans horg'

end Requests

section Example

open scoped Ascii

def bobTold : AppConfig :=
  runMoves (genesis noFaults 0) (solo 0 (registration "ann@example.org".toList ann_short) ++
    solo 1 (registration "bob@example.org".toList bob_short) ++
    .start 3 (invitation (signedToken (drawnId 2) access 1000) .admin "bob@example.org".toList
      bob_short) :: List.replicate 9 (.act 3 false))

def enqueues (c : AppConfig) (i : Nat) : Bool :=
  match c.thread i with
  | some ⟨_, .call (.enqueue _ _) _⟩ => true
  | _ => false

theorem thread_of_enqueues {c : AppConfig} {i : Nat} (h : enqueues c i = true) :
    ∃ r function args k, c.thread i = some ⟨r, .call (.enqueue function args) k⟩ := by
  unfold enqueues at h
  split at h
  · next r function args k ht => exact ⟨r, function, args, k, ht⟩
  · cases h

theorem bobTold_reached : Reach app anySchedule (genesis noFaults 0) bobTold :=
  runMoves_any fun _ => rfl

theorem bobTold_mailed : ∃ bearer payload m before db name function args,
    bobTold.state.record 3 = [.commit before [⟨.organizationMembers, m⟩]] ∧
      Mails bearer payload m db name function args := by
  obtain ⟨r, function, args, k, ht⟩ := thread_of_enqueues (c := bobTold) (i := 3)
    (by decide +kernel)
  obtain ⟨bearer, payload, m, before, db, org, -, hrecord, -, -, -, hmails⟩ :=
    invitations_mailed (start_genesis noFaults 0) bobTold_reached ht
  exact ⟨bearer, payload, m, before, db, org.name, function, args, hrecord, hmails⟩

end Example

end MultiTenantSaas
