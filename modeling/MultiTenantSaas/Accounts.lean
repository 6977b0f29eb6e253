import MultiTenantSaas.Observations

/-!
Accounts stay usable. The guard of a tenant request never refuses a member of the tenant, and
the sign-in never refuses the password that was registered, whoever else is served meanwhile.
-/

set_option autoImplicit false

namespace MultiTenantSaas

open Process

section

variable [Library] {faults : Faults} {now : Instant} {c c' : AppConfig} {i : Nat} {r : Request}
  {E : Exn → Prop}

omit [Library] in
theorem Visible.user {db : Db} (h : Visible c db) {user : User}
    (huser : user ∈ c.state.db.rows .users) :
    rowsWhere .users (fun r => Table.users.id r = user.id) db = [user] := by
  have hget : db.get .users user.id = some user := Db.get_of_mem (h.later.mem (fun _ => rfl) huser)
  rw [rowsWhere_id, hget]
  rfl

omit [Library] in
theorem Visible.valued {db : Db} (h : Visible c db) {t : Table} (hfix : ∀ s : t.Row, t.frozen s = s)
    {row : t.Row} (hrow : row ∈ c.state.db.rows t) {p : t.Row → Bool} {k : UniqueKey}
    (hp : ∀ r, p r = true → t.uniqueKey r = some k) (hprow : p row = true) :
    rowsWhere t p db = [row] := by
  have hmem : row ∈ rowsWhere t p db :=
    mem_rowsWhere.mpr ⟨h.later.mem hfix hrow, hprow⟩
  have hlength := length_valued_le h.distinct hp
  obtain ⟨z, hz⟩ := List.length_eq_one_iff.mp (le_antisymm hlength (List.length_pos_of_mem hmem))
  rw [hz] at hmem ⊢
  rw [List.mem_singleton.mp hmem]

omit [Library] in
theorem Visible.membership {db : Db} (h : Visible c db) {m : OrganizationMember}
    (hm : m ∈ c.state.db.rows .organizationMembers) :
    memberships db m.organizationId m.userId = [m] :=
  h.valued (fun _ => rfl) hm (k := .orgMemberUser m.organizationId m.userId) (fun x hx => by
    simp only [Bool.and_eq_true, decide_eq_true_eq] at hx
    simp [Table.uniqueKey, hx]) (by simp)

theorem Request.Writes.user {calm : Table → Uuid → Prop} {db : Db} {es : List Entry}
    (hw : r.Writes calm db es) {user : User} (hmem : (⟨.users, user⟩ : Entry) ∈ es) :
    ∃ clientIp payload hashed id now, r = .register clientIp payload ∧
      user = newUser payload hashed id now := by
  cases r with
  | register clientIp payload =>
    obtain ⟨hashed, slug, id, orgId, memberId, now, now', now'', rfl, -⟩ := hw
    simp only [List.mem_cons, List.not_mem_nil, or_false] at hmem
    rcases hmem with he | he | he
    · cases he
      exact ⟨clientIp, payload, hashed, id, now, rfl, rfl⟩
    · cases he
    · cases he
  | tenant bearer o q =>
    obtain ⟨user', role, -, hw⟩ := hw
    have htable := hw.table hmem
    cases q <;> simp [TenantRequest.tables] at htable
  | _ => exact hw.elim

/-- No request deactivates a user. -/
theorem users_active (h : Reach app anySchedule (genesis faults now) c) :
    ∀ user : User, user ∈ c.state.db.rows .users → user.isActive = true := by
  refine genesis_invariant (P := unconditional)
    (fun db => ∀ user : User, user ∈ db.rows .users → user.isActive = true)
    (fun _ huser => absurd huser (Db.not_mem_empty _)) ?_ (committing_unconditional h)
  intro r db es hold hw _ _ user huser
  rcases Db.mem_apply huser with hwritten | ⟨hmem, -⟩
  · obtain ⟨clientIp, payload, hashed, id, now', rfl, rfl⟩ := hw.user hwritten
    rfl
  · exact hold user hmem

/-- The token is an access token of the user that is accepted from `t` to `t'`. -/
structure Token.Admits (token : Token) (userId : Uuid) (t t' : Instant) (payload : TokenPayload) :
    Prop where
  signed : token.payload = some payload
  type : payload.type = access
  sub : payload.sub = some userId
  timely : payload.Timely t
  exp : t' < payload.exp * second

variable {bearer : Token} {payload : TokenPayload}

theorem concludes_accessSubject (h₀ : Reach app anySchedule (genesis faults now) c)
    (hidle : c.thread i = none) {userId : Uuid}
    (ht : bearer.Admits userId c.state.now c'.state.now payload) :
    Concludes (Learns c c' i r) (· = userId) E (accessSubject bearer) := by
  have hdecode : Concludes (Learns c c' i r) (· = payload) E (decodeJwtToken bearer) := by
    unfold decodeJwtToken
    simp only [ht.signed]
    refine Prog.Ends.bind fun a ha => ?_
    obtain ⟨t, rfl, hge, hle⟩ := Learns.clock h₀ hidle ha
    change Prog.Ends (S := sig) _ _ (if payload.Timely t then pure payload else throw _)
    rw [if_pos (ht.timely.later hge (hle.trans_lt ht.exp))]
    exact concludes_pure (L := Learns c c' i r) rfl
  refine hdecode.bind fun x hx => ?_
  subst hx
  rw [if_neg (not_not.mpr ht.type)]
  simp only [ht.sub]
  exact concludes_pure (L := Learns c c' i r) rfl

theorem concludes_getCurrentUser (h₀ : Reach app anySchedule (genesis faults now) c)
    (hidle : c.thread i = none) (hdown : ∀ e : Exn, e.Lost faults.database → E e) {user : User}
    (huser : user ∈ c.state.db.rows .users)
    (ht : bearer.Admits user.id c.state.now c'.state.now payload) :
    Concludes (Learns c c' i r) (· = user) E (getCurrentUser bearer) := by
  refine ((concludes_accessSubject (E := fun _ => False) h₀ hidle ht).tryCatch
    fun e => False.elim).bind fun userId hid => ?_
  subst hid
  refine (concludes_found h₀ hidle hdown fun db hdb => hdb.user huser).bind fun found hfound => ?_
  subst hfound
  dsimp only
  rw [if_pos (users_active h₀ user huser)]
  exact concludes_pure (L := Learns c c' i r) rfl

theorem concludes_requireRole (h₀ : Reach app anySchedule (genesis faults now) c)
    (hidle : c.thread i = none) (hdown : ∀ e : Exn, e.Lost faults.database → E e) {user : User}
    (huser : user ∈ c.state.db.rows .users)
    (ht : bearer.Admits user.id c.state.now c'.state.now payload)
    {m : OrganizationMember} (hm : m ∈ c.state.db.rows .organizationMembers)
    (hmember : m.userId = user.id) {minRole : OrgRole} (hrole : minRole.level ≤ m.role.level) :
    Concludes (Learns c c' i r) (· = ⟨user, m.organizationId, m.role⟩) E
      (requireRole minRole bearer m.organizationId) := by
  refine (concludes_getCurrentUser h₀ hidle hdown huser ht).bind fun x hx => ?_
  subst hx
  have hone : ∀ db, Visible c db → memberships db m.organizationId x.id = [m] := by
    intro db hdb
    rw [← hmember]
    exact hdb.membership hm
  refine (concludes_found h₀ hidle hdown hone).bind fun found hfound => ?_
  subst hfound
  dsimp only
  rw [if_neg (not_lt.mpr hrole)]
  exact concludes_pure (L := Learns c c' i r) rfl

/-- A member of the tenant whose access token is accepted until the answer comes past the
guard: what she is refused, the endpoint refuses her, or it fails. -/
theorem members_admitted (h₀ : Reach app anySchedule (genesis faults now) c) {user : User}
    {m : OrganizationMember} {q : TenantRequest} {e : Exn}
    (huser : user ∈ c.state.db.rows .users) (hm : m ∈ c.state.db.rows .organizationMembers)
    (hmember : m.userId = user.id) (hrole : q.minRole.level ≤ m.role.level)
    (ht : bearer.Admits user.id c.state.now c'.state.now payload)
    (h : Served c c' i (.tenant bearer m.organizationId q) (.error e)) :
    q.Refuses m.organizationId e ∨ Request.Fails faults (.tenant bearer m.organizationId q) e := by
  let r : Request := .tenant bearer m.organizationId q
  let E : Exn → Prop := fun e => q.Refuses m.organizationId e ∨ r.Fails faults e
  have hreplies : ∀ o a, Learns c c' i r o a → Replies faults o a := fun _ _ ha =>
    ha.replies h₀ h.idle
  have hdown : ∀ e : Exn, e.Lost faults.database → E e := fun e he =>
    Or.inr (Or.inl ⟨he.2, by simp [r, Request.needs, TenantRequest.needs, he.1]⟩)
  have hrollback : ∀ a, Learns c c' i r .rollback a → ∀ e, a = .error e → E e := fun a ha e he =>
    (replies_fails (hreplies _ _ ha) he).elim
  have hendpoint : Raises (Replies faults) E (q.endpoint ⟨user, m.organizationId, m.role⟩) :=
    raises_endpoint q _ (fun e he => Or.inl he) (fun hneeds => Or.inr (Or.inl ⟨rfl, hneeds⟩))
      (fun e he => Or.inr (Or.inr (Or.inr (Or.inl he))))
      fun hcommits e he => Or.inr (Or.inr (Or.inl ⟨hcommits, he⟩))
  have hguard := concludes_requireRole (r := r) h₀ h.idle hdown huser ht hm hmember hrole
  have hends : Raises (Learns c c' i r) E r.handle := by
    refine raises_withDbSession hrollback (hguard.raises fun ctx hctx => ?_)
    subst hctx
    exact hendpoint.weaken hreplies
  exact h.learns hends e rfl

theorem concludes_createJwtToken {L : (o : Op) → Except Exn o.Resp → Prop} {userId : Uuid}
    {tokenType : Str} {delta : Int} (hL : ∀ o a, L o a → Replies faults o a) :
    Concludes L (fun token => token.Names tokenType userId) E
      (createJwtToken userId tokenType delta) := by
  have hstill : ∀ {o : Op}, (∀ e, ¬ o.Fails faults e) → Raises L E (ask o) := fun h =>
    Prog.Ends.weaken (raises_still h) hL
  refine (hstill (o := .uuid4) fun _ h => h).concludes.bind fun jti _ => ?_
  refine (hstill (o := .clock) fun _ h => h).concludes.bind fun t _ => ?_
  refine (hstill (o := .clock) fun _ h => h).concludes.bind fun issued _ => ?_
  exact concludes_pure (L := L)
    ⟨⟨some userId, jti.str, tokenType, (t + delta) / second, some (issued / second), none⟩,
      rfl, rfl, rfl⟩

theorem concludes_generateTokenPair {L : (o : Op) → Except Exn o.Resp → Prop} {userId : Uuid}
    (hL : ∀ o a, L o a → Replies faults o a) :
    Concludes L (fun tokens => tokens.IssuedTo userId) E (generateTokenPair userId) := by
  refine (concludes_createJwtToken hL).bind fun accessToken haccess => ?_
  refine (concludes_createJwtToken hL).bind fun refreshToken hrefresh => ?_
  exact concludes_pure (L := L) ⟨haccess, hrefresh⟩

/-- Whoever has registered may log in with the same address, however it is written, and with
the same password: the answer is a token pair of the account that was registered, unless the
sign-in came once too often or a service is down. -/
theorem login_accepted (h₀ : Reach app anySchedule (genesis faults now) c) {j : Nat}
    {clientIp clientIp' : Option Str} {registered : UserRegisterRequest}
    {credentials : UserLoginRequest} {x : Response} {a : Except Exn Response}
    (hregistered : c.thread j = some ⟨.register clientIp registered, .done (.ok x)⟩)
    (hemail : normalizeEmail credentials.email.text = normalizeEmail registered.email.text)
    (hpassword : credentials.password = registered.password.text)
    (hverify : ∀ salt, Library.verifyPassword registered.password.text
      (Library.hashPassword salt registered.password.text) = true)
    (h : Served c c' i (.login clientIp' credentials) a) :
    ∃ userId headers tokens, x = .tokens headers tokens ∧ tokens.IssuedTo userId ∧
      ((∃ headers' tokens', a = .ok (.tokens headers' tokens') ∧ tokens'.IssuedTo userId) ∨
        (∃ resetTime, a = .error (tooManyRequests 5 60 resetTime)) ∨
        ((faults.database || faults.redis) = true ∧ a = .error .unavailable)) := by
  obtain ⟨headers, tokens, user, salt, rfl, hissued, huser, hmail, hhash⟩ :=
    (start_genesis faults now).tells (h₀.mono fun c l _ => calm_uncovered c l) hregistered
  refine ⟨user.id, headers, tokens, rfl, hissued, ?_⟩
  let r : Request := .login clientIp' credentials
  let E : Exn → Prop := fun e => (∃ resetTime, e = tooManyRequests 5 60 resetTime) ∨
    ((faults.database || faults.redis) = true ∧ e = .unavailable)
  have hreplies : ∀ o a, Learns c c' i r o a → Replies faults o a := fun _ _ ha =>
    ha.replies h₀ h.idle
  have hdown : ∀ e : Exn, e.Lost faults.database → E e := fun e he =>
    Or.inr ⟨by simp [he.1], he.2⟩
  have hredis : ∀ e : Exn, e.Lost faults.redis → E e := fun e he => Or.inr ⟨by simp [he.1], he.2⟩
  have hlimit : Raises (Learns c c' i r) E
      (rateLimiter 5 60 clientIp' "/api/v1/auth/login".toList) :=
    Prog.Ends.weaken (raises_rateLimiter hredis (fun _ => Or.inl ⟨_, rfl⟩) _ _) hreplies
  have hfound : Concludes (Learns c c' i r) (· = some user) E (getByEmail credentials.email.text) :=
    concludes_found h₀ h.idle hdown fun db hdb => hdb.valued (fun _ => rfl) huser
      (k := .userEmail user.email) (fun u hu => by
        simp only [decide_eq_true_eq] at hu
        simp [Table.uniqueKey, hu, hmail, hemail]) (by simp [hmail, hemail])
  have hauth : Concludes (Learns c c' i r) (fun tokens => tokens.IssuedTo user.id) E
      (AuthService.authenticate credentials.email.text credentials.password) := by
    refine hfound.bind fun found hfound => ?_
    subst hfound
    have hverified : Library.verifyPassword credentials.password user.hashedPassword = true := by
      rw [hhash, hpassword]
      exact hverify salt
    have hactive := users_active h₀ user huser
    simp only [hverified, hactive]
    exact concludes_generateTokenPair hreplies
  have hends : Concludes (Learns c c' i r) (fun x => ∃ headers' tokens',
      x = .tokens headers' tokens' ∧ tokens'.IssuedTo user.id) E r.handle := by
    refine concludes_withDbSession (fun a ha e he => (replies_fails (hreplies _ _ ha) he).elim) ?_
    refine hlimit.concludes.bind fun headers' _ => hauth.bind fun tokens' htokens => ?_
    exact concludes_pure (L := Learns c c' i r) ⟨some headers', tokens', rfl, htokens⟩
  obtain ⟨hok, herror⟩ := h.learns hends
  cases a with
  | ok x =>
    obtain ⟨headers', tokens', rfl, htokens⟩ := hok x rfl
    exact Or.inl ⟨headers', tokens', rfl, htokens⟩
  | error e =>
    obtain ⟨resetTime, rfl⟩ | ⟨hfaulty, rfl⟩ := herror e rfl
    · exact Or.inr (Or.inl ⟨resetTime, rfl⟩)
    · exact Or.inr (Or.inr ⟨hfaulty, rfl⟩)

end

section Example

open scoped Ascii

theorem annRegistered_reached : Reach app anySchedule (genesis noFaults 0) annRegistered :=
  runMoves_any fun _ => rfl

/-- The first user to register, as the owner of her organization, is refused the missing task
and nothing else. -/
theorem ann_admitted : (TenantRequest.deleteTask (drawnId 99)).Refuses (drawnId 4)
      (.entityNotFound taskEntity (drawnId 99).str) ∨
    Request.Fails noFaults (asAnn (.deleteTask (drawnId 99)))
      (.entityNotFound taskEntity (drawnId 99).str) := by
  have huser : (rowsWhere .users (fun user => decide (user.id = drawnId 2))
      annRegistered.state.db) ≠ [] := by decide +kernel
  have hmember : (rowsWhere .organizationMembers (fun m => decide (m.userId = drawnId 2 ∧
      m.organizationId = drawnId 4 ∧ m.role = .owner)) annRegistered.state.db) ≠ [] := by
    decide +kernel
  obtain ⟨user, huser⟩ := List.exists_mem_of_ne_nil _ huser
  obtain ⟨m, hm⟩ := List.exists_mem_of_ne_nil _ hmember
  obtain ⟨huser, hid⟩ := mem_rowsWhere.mp huser
  obtain ⟨hm, hof⟩ := mem_rowsWhere.mp hm
  obtain ⟨hof, horg, hrole⟩ := of_decide_eq_true hof
  have hid := of_decide_eq_true hid
  have hserved := served_refused (c := annRegistered) (i := 1)
    (r := asAnn (.deleteTask (drawnId 99))) (e := .entityNotFound taskEntity (drawnId 99).str)
    (by decide +kernel) (by decide +kernel)
  have hlate : (runMoves annRegistered
      (solo 1 (asAnn (.deleteTask (drawnId 99))))).state.now < 1000 * second := by decide +kernel
  simp only [asAnn, ← horg] at hserved hlate ⊢
  refine members_admitted annRegistered_reached huser hm (hof.trans hid.symm)
    (hrole ▸ by decide) (?_ : Token.Admits _ _ _ _ ⟨some (drawnId 2), access, access, 1000, none,
      none⟩) hserved
  exact ⟨rfl, rfl, congrArg some hid.symm, by decide +kernel, hlate⟩

theorem ann_capitals_short : utf8Length "ANN@example.org".toList ≤ 254 := by decide

def annLogin : Request :=
  .login none ⟨⟨"ANN@example.org".toList, ann_capitals_short⟩, samplePassword.text⟩

/-- The tokens of the registration and those of the sign-in name the same account. -/
theorem ann_accepted : ∃ r headers tokens headers' tokens' userId,
    annRegistered.thread 0 = some ⟨r, .done (.ok (.tokens headers tokens))⟩ ∧
    tokens.IssuedTo userId ∧ Served annRegistered (runMoves annRegistered (solo 1 annLogin)) 1
      annLogin (.ok (.tokens headers' tokens')) ∧ tokens'.IssuedTo userId := by
  obtain ⟨x, hregistered, -⟩ : ∃ x, Served (genesis noFaults 0) annRegistered 0
      (registration "ann@example.org".toList ann_short) (.ok x) ∧ true = true :=
    served_with (p := fun _ => true) (by decide +kernel) (by decide +kernel)
  obtain ⟨y, hserved, -⟩ := served_with (c := annRegistered) (i := 1) (r := annLogin)
    (p := fun _ => true) (by decide +kernel) (by decide +kernel)
  have hanswered := hregistered.answered
  unfold registration at hanswered
  unfold annLogin at hserved
  have hsame :
      normalizeEmail "ANN@example.org".toList = normalizeEmail "ann@example.org".toList := by
    decide +kernel
  have hverify : ∀ salt, Library.verifyPassword samplePassword.text
      (Library.hashPassword salt samplePassword.text) = true := by
    intro salt
    have hlength : (salt.hex ++ ['$']).length = 33 := by simp [salt.hex_length]
    have hdrop : ((salt.hex ++ ['$']) ++ samplePassword.text).drop 33 = samplePassword.text :=
      List.drop_left' hlength
    rw [List.append_assoc, List.singleton_append] at hdrop
    simp only [Library.verifyPassword, Library.hashPassword, hdrop, beq_self_eq_true]
  obtain ⟨userId, headers, tokens, rfl, htokens, h⟩ := login_accepted annRegistered_reached
    hanswered hsame rfl hverify hserved
  obtain ⟨headers', tokens', hy, htokens'⟩ | ⟨resetTime, h⟩ | ⟨-, h⟩ := h
  · cases hy
    exact ⟨_, headers, tokens, headers', tokens', userId, hregistered.answered, htokens, hserved,
      htokens'⟩
  · cases h
  · cases h

end Example

end MultiTenantSaas
