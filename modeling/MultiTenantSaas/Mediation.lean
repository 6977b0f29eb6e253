import MultiTenantSaas.Runs

/-!
Complete mediation: a request that changes a row of an organization is admitted to
that organization, with the role that the table of the row asks for.
-/

set_option autoImplicit false

namespace MultiTenantSaas

open Process

/-- The least role that may change the rows of a table. -/
def Table.writeRole : Table → OrgRole
  | .organizations | .organizationMembers => .admin
  | .projects | .teams | .teamMembers => .manager
  | .users | .tasks | .comments | .attachments | .auditLogs => .member

/-- The row with this key is added, changed or removed, and it belongs to `o` before
or after. -/
structure Changes (db db' : Db) (t : Table) (id o : Uuid) : Prop where
  differs : db'.get t id ≠ db.get t id
  belongs : TenantHas db t o id ∨ TenantHas db' t o id

/-- `user` is a member of `o` with a role that may change the row; an existing comment
is changed by its author or by an administrator. -/
structure MayChange (db : Db) (bearer : Token) (o : Uuid) (user : User) (role : OrgRole)
    (t : Table) (id : Uuid) : Prop where
  admitted : Admitted db bearer o t.writeRole user role
  author : t = .comments → ∀ comment : Comment, db.get .comments id = some comment →
    comment.authorId = user.id ∨ role = .admin ∨ role = .owner

theorem Changes.entry {db : Db} {es : List Entry} {t : Table} {id o : Uuid}
    (h : Changes db (db.apply es) t id o) (he : Extends db (db.apply es)) :
    ∃ r : t.Row, (⟨t, r⟩ : Entry) ∈ es ∧ t.id r = id ∧ t.org r = some o := by
  cases hnew : (db.apply es).get t id with
  | none =>
    have hold : db.get t id = none := by
      cases hget : db.get t id with
      | none => rfl
      | some r =>
        have hkept := db.keeps_apply es t id (by simp [hget])
        simp [hnew] at hkept
    exact absurd (hnew.trans hold.symm) h.differs
  | some r =>
    obtain ⟨hmem, hid⟩ := Db.get_eq_some.mp hnew
    rcases Db.mem_apply hmem with hw | ⟨hold, -⟩
    · refine ⟨r, hw, hid, ?_⟩
      rcases h.belongs with ⟨old, hget, ho⟩ | ⟨new, hget, ho⟩
      · obtain ⟨r', hr', hf⟩ := he t id old hget
        rw [hnew] at hr'
        rw [Option.some.inj hr', Table.org_of_frozen hf, ho]
      · rw [hnew] at hget
        rw [Option.some.inj hget, ho]
    · have hget := Db.get_of_mem hold
      rw [hid] at hget
      exact absurd (hnew.trans hget.symm) h.differs

/-- The guard of a request is at least as strict as each table it writes asks for. -/
theorem TenantRequest.guarded {req : TenantRequest} {t : Table} (h : t ∈ req.tables) :
    t.writeRole.level ≤ req.minRole.level := by
  cases req <;> simp only [tables, List.mem_cons, List.not_mem_nil, or_false] at h
  case createProject | updateProject | createTask | updateTask =>
    rcases h with rfl | rfl <;> simp [Table.writeRole, minRole, OrgRole.level]
  all_goals subst h; simp [Table.writeRole, minRole, OrgRole.level]

section

variable [Library] {calm : Table → Uuid → Prop} {db : Db} {es : List Entry}

theorem TenantRequest.Writes.author {o : Uuid} {user : User} {role : OrgRole}
    {req : TenantRequest} (h : req.Writes calm o user role db es) {r old : Comment}
    (hr : (⟨.comments, r⟩ : Entry) ∈ es) (hold : db.get .comments r.id = some old) :
    old.authorId = user.id ∨ role = .admin ∨ role = .owner := by
  have htable := h.table hr
  cases req <;> simp only [tables, List.mem_cons, List.not_mem_nil, reduceCtorEq, or_self] at htable
  case createComment taskId payload =>
    obtain ⟨id, now, -, -, hins⟩ := h
    have hnew : db.get .comments r.id = none := hins _ hr
    rw [hnew] at hold
    cases hold
  case updateComment taskId commentId payload =>
    rcases h with rfl | ⟨loaded, current, now, -, hrole, hov, rfl⟩
    · simp at hr
    · cases List.mem_singleton.mp hr
      have hid : current.id = commentId := (Db.get_eq_some.mp hov.committed).2
      change db.get .comments current.id = some old at hold
      rw [hid, hov.committed] at hold
      cases hold
      have hauthor := congrArg Comment.authorId hov.frozen
      exact hrole.imp_left hauthor.trans

/-- A request that registers a user changes no row of an organization that exists. -/
theorem register_changes_new {clientIp : Option Str} {payload : UserRegisterRequest}
    (hw : (Request.register clientIp payload).Writes calm db es) {t : Table} {id o : Uuid}
    (h : Changes db (db.apply es) t id o) : db.get .organizations o = none := by
  obtain ⟨r, hr, -, ho⟩ := h.entry hw.extends
  obtain ⟨hashed, slug, id, orgId, memberId, now, now', now'', rfl, hins⟩ := hw
  simp only [List.mem_cons, List.not_mem_nil, or_false, forall_eq_or_imp, forall_eq] at hr hins
  have horg : db.get .organizations orgId = none := hins.2.1
  rcases hr with hr | hr | hr <;> cases hr
  · cases ho
  · cases ho; exact horg
  · cases ho; exact horg

theorem tenant_changes {bearer : Token} {o o' : Uuid} {req : TenantRequest}
    (hw : (Request.tenant bearer o req).Writes calm db es) {t : Table} {id : Uuid}
    (h : Changes db (db.apply es) t id o') :
    o' = o ∧ ∃ user role, MayChange db bearer o user role t id := by
  obtain ⟨r, hr, hid, ho⟩ := h.entry hw.extends
  obtain ⟨user, role, hadm, hw⟩ := hw
  have ho' := hw.confined.2 _ hr
  refine ⟨Option.some.inj (ho.symm.trans ho'), user, role, ?_, ?_⟩
  · exact ⟨hadm.token, hadm.registered, hadm.active, hadm.member,
      (TenantRequest.guarded (hw.table hr)).trans hadm.level⟩
  · rintro rfl comment hget
    have hkey : r.id = id := hid
    exact hw.author hr (hkey ▸ hget)

/-- In every run, whatever changes a row of an existing organization is the commit of a
request that names this organization, by a member with the role the row asks for; and
a request that names an organization changes rows of this one only. -/
theorem complete_mediation {c₀ c c' : AppConfig} {l : AppLabel} (h₀ : Start c₀)
    (h : Reach app anySchedule c₀ c) (hs : Step app c l c') :
    (∀ t id o, (c.state.db.get .organizations o).isSome →
      Changes c.state.db c'.state.db t id o →
      ∃ i bearer req k user role, l = .act i .commit ∧
        c.thread i = some ⟨.tenant bearer o req, k⟩ ∧
        MayChange c.state.db bearer o user role t id) ∧
    (∀ i op bearer o req k t id o', l = .act i op →
      c.thread i = some ⟨.tenant bearer o req, k⟩ →
      Changes c.state.db c'.state.db t id o' → o' = o) := by
  have hcommit := h₀.step_db (h.mono fun c l _ => calm_uncovered c l) hs
  have hsame : c'.state.db = c.state.db → ∀ t id o, ¬ Changes c.state.db c'.state.db t id o :=
    fun hdb t id o hch => hch.differs (by rw [hdb])
  refine ⟨fun t id o hexists hch => ?_, fun i op bearer o req k t id o' hl ht hch => ?_⟩
  · rcases hcommit with ⟨hdb, -⟩ | ⟨i, r, k, hl, ht, hw, hdb, -⟩
    · exact absurd hch (hsame hdb t id o)
    · rw [hdb] at hch
      cases r with
      | register clientIp payload =>
        rw [register_changes_new hw hch] at hexists
        cases hexists
      | tenant bearer o' req =>
        obtain ⟨rfl, user, role, hmay⟩ := tenant_changes hw hch
        exact ⟨i, bearer, req, _, user, role, hl, ht, hmay⟩
      | _ => exact hw.elim
  · rcases hcommit with ⟨hdb, -⟩ | ⟨j, r, k', hl', ht', hw, hdb, -⟩
    · exact absurd hch (hsame hdb t id o')
    · rw [hdb] at hch
      obtain ⟨rfl, -⟩ : i = j ∧ op = Op.commit := by
        rw [hl] at hl'
        cases hl'
        exact ⟨rfl, rfl⟩
      rw [ht] at ht'
      cases ht'
      exact (tenant_changes hw hch).1

end

section

open scoped Ascii

def projectPending : AppConfig :=
  runMoves (genesis noFaults 0) <| solo 0 (registration "ann@example.org".toList ann_short) ++
    .start 1 (.tenant (signedToken (drawnId 2) access 1000) (drawnId 4)
      (.createProject ⟨apolloName, apolloKey, none, none⟩)) :: List.replicate 7 (.act 1 false)

def projectCommitted : AppConfig := nextMove projectPending (.act 1 false)

theorem projectCommitted_mediated :
    Changes projectPending.state.db projectCommitted.state.db .projects (drawnId 8) (drawnId 4) ∧
    ∃ i bearer req k user role,
      projectPending.thread i = some ⟨.tenant bearer (drawnId 4) req, k⟩ ∧
      MayChange projectPending.state.db bearer (drawnId 4) user role .projects (drawnId 8) := by
  have hreach : Reach app anySchedule (genesis noFaults 0) projectPending :=
    runMoves_any fun _ => rfl
  obtain ⟨l, hs⟩ : ∃ l, Step app projectPending l projectCommitted := move_step (by decide +kernel)
  have hexists : (projectPending.state.db.get .organizations (drawnId 4)).isSome := by
    decide +kernel
  have horg : (projectCommitted.state.db.get .projects (drawnId 8)).map Table.projects.org =
      some (some (drawnId 4)) := by decide +kernel
  obtain ⟨p, hp, ho⟩ := Option.map_eq_some_iff.mp horg
  have hch : Changes projectPending.state.db projectCommitted.state.db .projects (drawnId 8)
      (drawnId 4) := ⟨by decide +kernel, Or.inr ⟨p, hp, ho⟩⟩
  obtain ⟨i, bearer, req, k, user, role, -, ht, hmay⟩ :=
    (complete_mediation (start_genesis noFaults 0) hreach hs).1 _ _ _ hexists hch
  exact ⟨hch, i, bearer, req, k, user, role, ht, hmay⟩

end

end MultiTenantSaas
