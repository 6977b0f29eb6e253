import MultiTenantSaas.Runs

/-!
How users become members: by registering an organization, or by an invitation. An
invitation asks for the role ADMIN, whatever role it grants.
-/

set_option autoImplicit false

namespace MultiTenantSaas

open Process

def Token.subject (token : Token) : Option Uuid := token.payload.bind TokenPayload.sub

/-- The transaction makes `m` a member as it should: with the registration of its
organization, or by an invitation from a member with at least its role. -/
def GrantedBy [Library] (before : Db) (written : List Entry) (m : OrganizationMember) :
    Request → Prop
  | .register _ payload => m.role = .owner ∧ before.get .organizations m.organizationId = none ∧
    ∃ (user : User) (org : Organization), ⟨.users, user⟩ ∈ written ∧ user.id = m.userId ∧
      user.email = normalizeEmail payload.email.text ∧ ⟨.organizations, org⟩ ∈ written ∧
      org.id = m.organizationId
  | .tenant bearer o (.inviteMember payload) => m.organizationId = o ∧ m.role = payload.role ∧
    ∃ inviter : OrganizationMember, inviter ∈ before.rows .organizationMembers ∧
      inviter.organizationId = o ∧ bearer.subject = some inviter.userId ∧
      m.role.level ≤ inviter.role.level
  | _ => False

/-- From `c₀` to `c` every membership was granted as it should, and requests in an
organization by others than its owners have made no owner. -/
structure NoEscalation [Library] (c₀ c : AppConfig) : Prop where
  granted : ∀ m : OrganizationMember, m ∈ c.state.db.rows .organizationMembers →
    m ∈ c₀.state.db.rows .organizationMembers ∨
      ∃ d ∈ c.state.commits, ∃ r k, c.thread d.session = some ⟨r, k⟩ ∧
        ⟨.organizationMembers, m⟩ ∈ d.written ∧ GrantedBy d.before d.written m r
  owners : ∀ o, (c₀.state.db.get .organizations o).isSome →
    (∀ i bearer req k, c.thread i = some ⟨.tenant bearer o req, k⟩ →
      ∀ m : OrganizationMember, m ∈ c₀.state.db.rows .organizationMembers →
        m.organizationId = o → m.role = .owner → bearer.subject ≠ some m.userId) →
    ∀ m : OrganizationMember, m ∈ c.state.db.rows .organizationMembers →
      m.organizationId = o → m.role = .owner → m ∈ c₀.state.db.rows .organizationMembers

/-- An invitation with the role OWNER does not come from an ADMIN. -/
def ownersInvite : Request → Db → Bool
  | .tenant bearer o (.inviteMember payload), db =>
    payload.role ≠ .owner || (db.rows .organizationMembers).list.all
      fun (m : OrganizationMember) => !(m.organizationId = o && bearer.subject = some m.userId &&
        m.role = .admin)
  | _, _ => true

/-- The guard of invitations suffices for every role but OWNER. -/
theorem level_le_of_admin {role granted : OrgRole} (h : OrgRole.admin.level ≤ role.level)
    (howner : granted = .owner → role ≠ .admin) : granted.level ≤ role.level := by
  cases granted <;> cases role <;> simp_all [OrgRole.level]

section

variable [Library] {calm : Table → Uuid → Prop} {db : Db} {es : List Entry}
  {m : OrganizationMember}

theorem Request.Writes.granted {r : Request} (hw : r.Writes calm db es)
    (hm : (⟨.organizationMembers, m⟩ : Entry) ∈ es) (hinvite : ownersInvite r db = true) :
    GrantedBy db es m r := by
  cases r with
  | register clientIp payload =>
    obtain ⟨hashed, slug, id, orgId, memberId, now, now', now'', rfl, hins⟩ := hw
    simp only [List.mem_cons, List.not_mem_nil, or_false, forall_eq_or_imp, forall_eq] at hm hins
    rcases hm with hm | hm | hm <;> cases hm
    exact ⟨rfl, hins.2.1, newUser payload hashed id now, _, by simp, rfl, rfl,
      List.mem_cons_of_mem _ List.mem_cons_self, rfl⟩
  | tenant bearer o req =>
    obtain ⟨user, role, hadm, hw⟩ := hw
    have htable := hw.table hm
    cases req <;> simp only [TenantRequest.tables, List.mem_cons, List.not_mem_nil, reduceCtorEq,
      or_self] at htable
    case inviteMember payload =>
      obtain ⟨invited, id, now, -, -, rfl, -⟩ := hw
      cases List.mem_singleton.mp hm
      obtain ⟨payload', hp, -, hsub⟩ := hadm.token
      obtain ⟨inviter, hmem, ho, huser, rfl⟩ := hadm.member
      have hsubject : bearer.subject = some inviter.userId := by
        rw [Token.subject, hp, huser]
        exact hsub
      refine ⟨rfl, rfl, inviter, hmem, ho, hsubject, level_le_of_admin hadm.level fun hr => ?_⟩
      have howner : payload.role = .owner := hr
      simp only [ownersInvite, howner, ne_eq, not_true_eq_false, decide_false, Bool.false_or,
        List.all_eq_true] at hinvite
      simpa [ho, hsubject] using hinvite inviter hmem
  | _ => exact hw.elim

/-- When no ADMIN invites with the role OWNER, no run escalates privileges. -/
theorem invitations_do_not_escalate {c₀ c : AppConfig} (h₀ : Start c₀)
    (h : Reach app (Committing ownersInvite) c₀ c) : NoEscalation c₀ c := by
  obtain ⟨hhist, hcommits⟩ := h₀.history (P := fun r db _ => ownersInvite r db = true)
    (fun c l _ => calm_uncovered c l) (fun c i r k hok ht => hok r k ht) h
  refine ⟨fun m hm => ?_, fun o horg hstart m hm ho hrole => ?_⟩
  · refine (hhist.mem hm).imp_right ?_
    rintro ⟨d, hd, hmem⟩
    obtain ⟨-, r, k, ht, hw, hinvite⟩ := hcommits d hd
    exact ⟨d, hd, r, k, ht, hmem, hw.granted hmem hinvite⟩
  · let owned (db : Db) : Prop := (db.get .organizations o).isSome ∧
      ∀ m : OrganizationMember, m ∈ db.rows .organizationMembers → m.organizationId = o →
        m.role = .owner → m ∈ c₀.state.db.rows .organizationMembers
    refine (hhist.invariant owned ⟨horg, fun m hm _ _ => hm⟩ (fun d hd hI => ?_)).2 m hm ho hrole
    obtain ⟨hsome, hI⟩ := hI
    refine ⟨d.before.keeps_apply _ _ _ hsome, fun m hm ho hrole => ?_⟩
    rcases Db.mem_apply hm with hnew | ⟨hold, -⟩
    · obtain ⟨-, r, k, ht, hw, hinvite⟩ := hcommits d hd
      have hgranted := hw.granted hnew hinvite
      cases r with
      | register clientIp payload =>
        rw [← ho, hgranted.2.1] at hsome
        cases hsome
      | tenant bearer o' req =>
        cases req with
        | inviteMember payload =>
          obtain ⟨rfl, -, inviter, hmem, hio, hsubject, hlevel⟩ := hgranted
          have hiowner : inviter.role = .owner := by
            rw [hrole] at hlevel
            revert hlevel
            cases inviter.role <;> simp [OrgRole.level]
          rw [ho] at hio ht
          exact absurd hsubject
            (hstart d.session bearer _ k ht inviter (hI inviter hmem hio hiowner) hio hiowner)
        | _ => exact hgranted.elim
      | _ => exact hgranted.elim
    · exact hI m hold ho hrole

end

section

open scoped Ascii

def invitation (bearer : Token) (role : OrgRole) (email : Str) (h : utf8Length email ≤ 254) :
    Request :=
  .tenant bearer (drawnId 4) (.inviteMember ⟨⟨email, h⟩, role⟩)

def bobInvited : List (AppMove) :=
  solo 0 (registration "ann@example.org".toList ann_short) ++
  solo 1 (registration "bob@example.org".toList bob_short) ++
  solo 2 (registration "cat@example.org".toList cat_short) ++
  solo 3 (invitation (signedToken (drawnId 2) access 1000) .admin "bob@example.org".toList
    bob_short)

def catInvited : List (AppMove) :=
  bobInvited ++ solo 4 (invitation (signedToken (drawnId 9) access 1000) .owner
    "cat@example.org".toList cat_short)

theorem bobInvited_does_not_escalate :
    NoEscalation (genesis noFaults 0) (runMoves (genesis noFaults 0) bobInvited) := by
  exact invitations_do_not_escalate (start_genesis noFaults 0)
    (runMoves_committing (by decide +kernel))

def MembershipRequest : Request → Prop
  | .register _ _ => True
  | .tenant _ _ (.inviteMember _) => True
  | _ => False

def bobIsNoOwner (d : Commit) : Bool :=
  (d.written.all fun e => decide (e.slot ≠ (.organizationMembers, drawnId 23))) ||
    (d.session == 4 && (d.before.rows .organizationMembers).list.all
      fun (m : OrganizationMember) => decide (m.organizationId = drawnId 4 → m.userId = drawnId 9 →
        m.role.level < OrgRole.owner.level))

/-- An administrator makes an account an owner. -/
theorem invitations_escalate : ¬ ∀ c,
    Reach app (Starting MembershipRequest) (genesis noFaults 0) c →
    NoEscalation (genesis noFaults 0) c := by
  intro hall
  have hno := hall (runMoves (genesis noFaults 0) catInvited)
    (runMoves_starting (fun _ => rfl) fun i r hm => ?_)
  · have howner : ((runMoves (genesis noFaults 0) catInvited).state.db.get .organizationMembers
        (drawnId 23)).isSome := by decide +kernel
    obtain ⟨m, hm⟩ := Option.isSome_iff_exists.mp howner
    obtain ⟨hmem, hid⟩ := Db.get_eq_some.mp hm
    rcases hno.granted m hmem with h₀ | ⟨d, hd, r, k, ht, hw, hgranted⟩
    · exact Db.not_mem_empty m h₀
    · have hall : (runMoves (genesis noFaults 0) catInvited).state.commits.all bobIsNoOwner := by
        decide +kernel
      have hd' := List.all_eq_true.mp hall d hd
      simp only [bobIsNoOwner, Bool.or_eq_true, Bool.and_eq_true, List.all_eq_true,
        decide_eq_true_eq, beq_iff_eq] at hd'
      rcases hd' with hother | ⟨hsession, hnone⟩
      · exact hother _ hw (congrArg (Prod.mk Table.organizationMembers) hid)
      · have hreq := runMoves_req (fun _ => rfl) ht
        simp only [catInvited, bobInvited, List.mem_append, start_mem_solo, hsession] at hreq
        simp only [Nat.reduceEqDiff, false_and, or_self, true_and, false_or] at hreq
        subst hreq
        obtain ⟨-, hrole, inviter, hmem, ho, hsubject, hlevel⟩ := hgranted
        have huser : inviter.userId = drawnId 9 := (Option.some.inj hsubject).symm
        have hlt := hnone inviter hmem ho huser
        rw [hrole] at hlevel
        exact absurd hlevel (Nat.not_le.mpr hlt)
  · simp only [catInvited, bobInvited, List.mem_append, start_mem_solo] at hm
    rcases hm with (((⟨-, rfl⟩ | ⟨-, rfl⟩) | ⟨-, rfl⟩) | ⟨-, rfl⟩) | ⟨-, rfl⟩ <;> trivial

end

end MultiTenantSaas
