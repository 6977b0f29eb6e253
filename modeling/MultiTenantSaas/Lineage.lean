import MultiTenantSaas.Readers

/-!
Where tokens are accepted, and where the accepted ones come from. Signatures cannot be
forged: a signed token that a request carries was in an earlier answer.
-/

set_option autoImplicit false

namespace MultiTenantSaas

open Process

/-- The token a request carries, and the type that its endpoint requires. -/
def Request.token : Request → Option (Token × Str)
  | .refresh token | .logout token => some (token, refreshType)
  | .getMe token | .tenant token _ _ | .webSocket _ token _ => some (token, access)
  | .register _ _ | .login _ _ => none

def Response.issued : Response → List Token
  | .tokens _ pair => [pair.accessToken, pair.refreshToken]
  | _ => []

/-- Whoever presents a signed token has it from an answer. -/
def Unforged (c : AppConfig) : AppLabel → Prop
  | .start _ r => ∀ token tokenType, r.token = some (token, tokenType) → token.signed = true →
    ∃ i s a, c.thread i = some ⟨s, .done (.ok a)⟩ ∧ token ∈ a.issued
  | _ => True

/-- The operations of a request whose token is refused: the clock is read to decode it,
the session ends, a WebSocket is closed. -/
def Op.early : Op → Bool
  | .clock | .rollback | .wsClose _ => true
  | _ => false

/-- Some request that carries the token where one of `tokenType` is required has come past
the checks: it goes on to the database, to Redis or to its socket. -/
def Accepted (c : AppConfig) (token : Token) (tokenType : Str) : Prop :=
  ∃ i r o k, c.thread i = some ⟨r, .call o k⟩ ∧ r.token = some (token, tokenType) ∧
    o.early = false

def Request.SignsIn [Library] (db : Db) (userId : Uuid) : Request → Prop
  | .register _ payload => ∃ user : User, ∃ salt, user ∈ db.rows .users ∧ user.id = userId ∧
    user.email = normalizeEmail payload.email.text ∧
    user.hashedPassword = Library.hashPassword salt payload.password.text
  | .login _ payload => ∃ user : User, user ∈ db.rows .users ∧ user.id = userId ∧
    user.email = normalizeEmail payload.email.text ∧
    Library.verifyPassword payload.password user.hashedPassword = true
  | _ => False

/-- The token was issued at the end of a chain of refreshes that starts when the user
registers or logs in. -/
inductive Lineage [Library] (c : AppConfig) (userId : Uuid) : Token → Prop where
  | signedIn {i : Nat} {r : Request} {a : Response} {token : Token} :
      c.thread i = some ⟨r, .done (.ok a)⟩ → r.SignsIn c.state.db userId → token ∈ a.issued →
      Lineage c userId token
  | refreshed {i : Nat} {old token : Token} {a : Response} : Lineage c userId old →
      c.thread i = some ⟨.refresh old, .done (.ok a)⟩ → token ∈ a.issued →
      Lineage c userId token

abbrev Early {α : Type} (p : Coro α) (Q : α → Prop) : Prop :=
  Prog.Keeps (S := sig) (fun _ _ => True) (fun o => Op.early o = true)
    (fun a => ∀ x, a = .ok x → Q x) p

section Early

variable {α β : Type} {Q : β → Prop}

theorem early_pure {b : β} (h : Q b) : Early (pure b) Q := by
  rintro x ⟨⟩
  exact h

theorem early_throw {e : Exn} : Early (throw e : Coro β) Q := nofun

theorem early_bind {R : α → Prop} {p : Coro α} {f : α → Coro β} (hp : Early p R)
    (hf : ∀ a, R a → Early (f a) Q) : Early (p >>= f) Q := by
  refine Prog.Keeps.bind (hp.mono fun a ha => ?_)
  cases a with
  | error e => exact nofun
  | ok a => exact hf a (ha a rfl)

theorem early_tryCatch {p : Coro β} {g : Exn → Coro β} (hp : Early p Q) (hg : ∀ e, Early (g e) Q) :
    Early (tryCatch p g) Q := by
  refine Prog.Keeps.tryCatch (hp.mono fun a ha => ?_)
  cases a with
  | error e => exact hg e
  | ok a => exact ha

theorem early_ask {o : Op} (ho : o.early = true) : Early (ask o) fun _ => True :=
  ⟨ho, fun _ _ _ _ => trivial⟩

theorem early_withDbSession {p : Coro β} (hp : Early p Q) : Early (withDbSession p) Q :=
  early_bind (early_tryCatch hp fun _ => early_bind (early_ask rfl) fun _ _ => early_throw)
    fun _ hb => early_bind (early_ask rfl) fun _ _ => early_pure hb

theorem early_decodeJwtToken (token : Token) :
    Early (decodeJwtToken token) fun payload => token.payload = some payload := by
  unfold decodeJwtToken
  cases hpay : token.payload with
  | none => exact early_throw
  | some payload =>
    refine early_bind (early_ask rfl) fun now _ => ?_
    split
    · exact early_pure rfl
    · exact early_throw

end Early

def Token.Fits (token : Token) (tokenType : Str) : Prop :=
  ∃ payload, token.payload = some payload ∧ payload.type = tokenType

theorem early_getCurrentUser {token : Token} (h : ¬ token.Fits access) :
    Early (getCurrentUser token) fun _ => False := by
  refine early_bind (R := fun _ => False) (early_tryCatch (early_bind (early_decodeJwtToken token)
    fun payload hpay => ?_) fun e => ?_) fun _ => False.elim
  · have htype : payload.type ≠ access := fun ht => h ⟨payload, hpay, ht⟩
    simp only [htype, ne_eq, not_false_eq_true, if_true]
    exact early_bind (R := fun _ => False) early_throw fun _ => False.elim
  · split <;> exact early_throw

theorem early_webSocketUser {token : Token} (h : ¬ token.Fits access) :
    Early (Endpoints.webSocketUser token) fun x => x = none := by
  refine early_tryCatch (early_bind (early_decodeJwtToken token) fun payload hpay => ?_)
    fun e => early_bind (early_ask rfl) fun _ _ => early_pure rfl
  have htype : payload.type ≠ access := fun ht => h ⟨payload, hpay, ht⟩
  simp only [htype, ne_eq, not_false_eq_true, if_true]
  exact early_bind (early_ask rfl) fun _ _ => early_pure rfl

theorem early_refreshTokens {token : Token} (h : ¬ token.Fits refreshType) :
    Early (AuthService.refreshTokens token) fun _ => False := by
  refine early_bind (early_tryCatch (early_decodeJwtToken token) fun e => ?_)
    fun payload hpay => ?_
  · split <;> exact early_throw
  · have htype : payload.type ≠ refreshType := fun ht => h ⟨payload, hpay, ht⟩
    simp only [htype, ne_eq, not_false_eq_true, if_true]
    exact early_bind (R := fun _ => False) early_throw fun _ => False.elim

theorem early_logout {token : Token} (h : ¬ token.Fits refreshType) :
    Early (AuthService.logout token) fun _ => True := by
  refine early_tryCatch (early_bind (early_decodeJwtToken token) fun payload hpay => ?_)
    fun _ => early_pure trivial
  have htype : payload.type ≠ refreshType := fun ht => h ⟨payload, hpay, ht⟩
  simp only [htype, if_false]
  exact early_pure trivial

/-- A request whose token is not of the type it requires does nothing with it. -/
theorem early_handle [Library] {r : Request} {token : Token} {tokenType : Str}
    (ht : r.token = some (token, tokenType)) (h : ¬ token.Fits tokenType) :
    Early r.handle fun _ => True := by
  cases r <;> cases ht
  case refresh =>
    exact early_withDbSession (early_bind (early_refreshTokens h) fun _ => False.elim)
  case logout =>
    exact early_withDbSession (early_bind (early_logout h) fun _ _ => early_pure trivial)
  case getMe =>
    exact early_withDbSession (early_bind (early_getCurrentUser h) fun _ => False.elim)
  case tenant o q =>
    exact early_withDbSession (early_bind (R := fun _ => False)
      (early_bind (early_getCurrentUser h) fun _ => False.elim) fun _ => False.elim)
  case webSocket p =>
    refine early_bind (R := fun _ => True) (early_bind (early_webSocketUser h) ?_)
      fun _ _ => early_pure trivial
    rintro _ rfl
    exact early_pure trivial

def Request.Pairs : Request → Prop
  | .register _ _ | .login _ _ | .refresh _ => True
  | _ => False

abbrev NoTokens (p : Coro Response) : Prop :=
  Prog.Ends (S := sig) (fun _ _ => True) (fun a => ∀ x, a = .ok x → Response.issued x = []) p

theorem noTokens_pure {a : Response} (h : a.issued = []) : NoTokens (pure a) := by
  rintro x ⟨⟩
  exact h

theorem noTokens_throw {e : Exn} : NoTokens (throw e : Coro Response) := by
  rintro x ⟨⟩

theorem noTokens_bind {α : Type} {p : Coro α} {f : α → Coro Response} (hf : ∀ a, NoTokens (f a)) :
    NoTokens (p >>= f) := by
  refine Prog.Ends.bind ((Prog.ends_any p).mono fun a _ => ?_)
  cases a with
  | error e => exact noTokens_throw
  | ok a => exact hf a

theorem noTokens_withDbSession {p : Coro Response} (hp : NoTokens p) :
    NoTokens (withDbSession p) := by
  have hcaught : NoTokens (tryCatch p fun e => do ask .rollback; throw e) := by
    refine Prog.Ends.tryCatch (hp.mono fun a ha => ?_)
    cases a with
    | error e => exact noTokens_bind fun _ => noTokens_throw
    | ok a => exact ha
  refine Prog.Ends.bind (hcaught.mono fun a ha => ?_)
  cases a with
  | error e => exact noTokens_throw
  | ok a => exact noTokens_bind fun _ => noTokens_pure (ha a rfl)

theorem noTokens_handle [Library] {r : Request} (hr : ¬ r.Pairs) : NoTokens r.handle := by
  cases r with
  | register clientIp payload => exact absurd trivial hr
  | login clientIp payload => exact absurd trivial hr
  | refresh token => exact absurd trivial hr
  | logout token =>
    exact noTokens_withDbSession (noTokens_bind fun _ => noTokens_pure rfl)
  | getMe bearer =>
    exact noTokens_withDbSession (noTokens_bind fun _ => noTokens_bind fun _ => noTokens_pure rfl)
  | tenant bearer o q =>
    refine noTokens_withDbSession (noTokens_bind fun ctx => ?_)
    cases q <;> exact noTokens_bind fun _ => noTokens_pure rfl
  | webSocket p token texts => exact noTokens_bind fun _ => noTokens_pure rfl

theorem Token.signed_of_payload {token : Token} {payload : TokenPayload}
    (h : token.payload = some payload) : token.signed = true := by
  unfold Token.payload at h
  split at h
  · next hsigned => exact (Bool.and_eq_true_iff.mp hsigned).1
  · cases h

theorem Token.Names.signed {token : Token} {tokenType : Str} {userId : Uuid}
    (h : token.Names tokenType userId) : token.signed = true := by
  obtain ⟨payload, hpay, -⟩ := h
  exact Token.signed_of_payload hpay

theorem Token.Names.unique {token : Token} {tokenType tokenType' : Str} {userId userId' : Uuid}
    (h : token.Names tokenType userId) (h' : token.Names tokenType' userId') :
    tokenType = tokenType' ∧ userId = userId' := by
  obtain ⟨payload, hpay, rfl, hsub⟩ := h
  obtain ⟨payload', hpay', rfl, hsub'⟩ := h'
  cases hpay.symm.trans hpay'
  exact ⟨rfl, Option.some.inj (hsub.symm.trans hsub')⟩

section

variable [Library] {faults : Faults} {now : Instant} {c c' : AppConfig} {userId : Uuid}
  {token : Token}

theorem Request.SignsIn.mono {r : Request} {db db' : Db} (h : r.SignsIn db userId)
    (he : Extends db db') : r.SignsIn db' userId := by
  cases r <;> try exact h
  case register clientIp payload =>
    obtain ⟨user, salt, huser, hrest⟩ := h
    exact ⟨user, salt, he.mem (fun _ => rfl) huser, hrest⟩
  case login clientIp payload =>
    obtain ⟨user, huser, hrest⟩ := h
    exact ⟨user, he.mem (fun _ => rfl) huser, hrest⟩

theorem step_done {l : AppLabel} (hs : Step app c l c') {i : Nat} {r : Request}
    {a : Except Exn Response} (ht : c.thread i = some ⟨r, .done a⟩) :
    c'.thread i = some ⟨r, .done a⟩ := by
  obtain ⟨⟨r', p⟩, ht', hreq⟩ := hs.keeps_req ht
  cases hreq
  rcases hs.thread_cases ht' with hsame | ⟨_, -, hnone, -⟩ | ⟨s, o, k, b, -, hk, -, -⟩
  · cases hsame.symm.trans ht
    exact ht'
  · cases hnone.symm.trans ht
  · cases hk.symm.trans ht

theorem Lineage.step {l : AppLabel} (h : Lineage c userId token) (hs : Step app c l c')
    (he : Extends c.state.db c'.state.db) : Lineage c' userId token := by
  induction h with
  | signedIn ht hr ha => exact .signedIn (step_done hs ht) (hr.mono he) ha
  | refreshed _ ht ha ih => exact .refreshed ih (step_done hs ht) ha

def Traced (c : AppConfig) (token : Token) : Prop :=
  ∃ userId tokenType, token.Names tokenType userId ∧ Lineage c userId token

omit [Library] in
theorem TokenResponse.IssuedTo.names {pair : TokenResponse} (h : pair.IssuedTo userId)
    {headers : Option RateLimitHeaders} (ht : token ∈ (Response.tokens headers pair).issued) :
    ∃ tokenType, token.Names tokenType userId := by
  rcases List.mem_pair.mp ht with rfl | rfl
  · exact ⟨_, h.access⟩
  · exact ⟨_, h.refresh⟩

def Carried (c : AppConfig) : Prop :=
  ∀ i r p token tokenType, c.thread i = some ⟨r, p⟩ → r.token = some (token, tokenType) →
    token.signed = true → Traced c token

theorem Carried.issued (h₀ : Reach app anySchedule (genesis faults now) c) (h : Carried c) {i : Nat}
    {r : Request} {a : Response} (ht : c.thread i = some ⟨r, .done (.ok a)⟩)
    (ha : token ∈ a.issued) : Traced c token := by
  have htells := (start_genesis faults now).tells (h₀.mono fun c l _ => calm_uncovered c l) ht
  have hends := h₀.ends (L := fun _ r o a => True)
    (E := fun _ r a => ¬ r.Pairs → ∀ x, a = .ok x → Response.issued x = [])
    (start_genesis faults now).idle (fun _ _ r _ => by
      by_cases hr : r.Pairs
      · exact (Prog.ends_any _).mono fun _ _ hn => absurd hr hn
      · exact (noTokens_handle hr).mono fun _ hb _ => hb)
    (fun _ _ _ _ _ _ _ _ _ _ => trivial) ht
  by_cases hr : r.Pairs
  case neg =>
    rw [hends hr a rfl] at ha
    cases ha
  cases r <;> try exact hr.elim
  case register clientIp payload =>
    obtain ⟨headers, pair, user, salt, rfl, hissued, huser, hrest⟩ := htells
    obtain ⟨tokenType, hnames⟩ := hissued.names ha
    exact ⟨_, tokenType, hnames, .signedIn ht ⟨user, salt, huser, rfl, hrest⟩ ha⟩
  case login clientIp payload =>
    obtain ⟨headers, pair, user, rfl, hissued, huser, hrest⟩ := htells
    obtain ⟨tokenType, hnames⟩ := hissued.names ha
    exact ⟨_, tokenType, hnames, .signedIn ht ⟨user, huser, rfl, hrest⟩ ha⟩
  case refresh old =>
    obtain ⟨headers, pair, userId, rfl, hissued, hold⟩ := htells
    obtain ⟨tokenType, hnames⟩ := hissued.names ha
    obtain ⟨userId', tokenType', hnames', hlineage⟩ := h i _ _ old _ ht rfl hold.signed
    obtain ⟨-, rfl⟩ := hold.unique hnames'
    exact ⟨_, tokenType, hnames, .refreshed hlineage ht ha⟩

/-- Every signed token in a run is traced: what is presented was issued before, and what
is issued goes to the subject of the token presented. -/
theorem carried_reached (h : Reach app Unforged (genesis faults now) c) : Carried c := by
  induction h with
  | refl => exact fun _ _ _ _ _ ht => nomatch ht
  | @step d d' l hr hok hs ih =>
    have hany : Reach app anySchedule (genesis faults now) d := hr.mono fun _ _ _ => trivial
    have hext : Extends d.state.db d'.state.db := reached_extends hany (.step .refl trivial hs)
    have hkeep : ∀ token, Traced d token → Traced d' token :=
      fun token ⟨userId, tokenType, hnames, hl⟩ => ⟨userId, tokenType, hnames, hl.step hs hext⟩
    intro i r p token tokenType ht htoken hsigned
    by_cases hold : ∃ q, d.thread i = some ⟨r, q⟩
    · obtain ⟨q, hq⟩ := hold
      exact hkeep token (ih i r q token tokenType hq htoken hsigned)
    · rcases hs.thread_cases ht with hsame | ⟨s, rfl, -, hstarted⟩ | ⟨s, o, k, b, -, hk, -, hacted⟩
      · exact absurd ⟨p, hsame⟩ hold
      · cases hstarted
        obtain ⟨k, s, a, hk, ha⟩ := hok token tokenType htoken hsigned
        exact hkeep token (ih.issued hany hk ha)
      · cases hacted
        exact absurd ⟨_, hk⟩ hold

theorem Accepted.fits {tokenType : Str} (h₀ : Reach app anySchedule (genesis faults now) c)
    (h : Accepted c token tokenType) : token.Fits tokenType := by
  obtain ⟨i, r, o, k, ht, htoken, hlate⟩ := h
  by_contra hfits
  have hall := h₀.all (start_genesis faults now).idle
    ((early_handle htoken hfits).all fun _ _ => trivial) ht
  exact absurd (hlate.symm.trans hall.1) Bool.noConfusion

/-- Every token that is accepted where one of some type is required names this type and a
user, and comes from a sign-in of this user by refreshes; so no token is ever accepted
where another type is required. -/
theorem token_lineage {tokenType : Str} (h : Reach app Unforged (genesis faults now) c)
    (ha : Accepted c token tokenType) :
    (∃ userId, token.Names tokenType userId ∧ Lineage c userId token) ∧
      ∀ c' other, Reach app Unforged c c' → Accepted c' token other → other = tokenType := by
  have hany : ∀ {d}, Reach app Unforged (genesis faults now) d →
      Reach app anySchedule (genesis faults now) d := fun hd => hd.mono fun _ _ _ => trivial
  obtain ⟨payload, hpay, rfl⟩ := ha.fits (hany h)
  obtain ⟨i, r, o, k, ht, htoken, -⟩ := ha
  obtain ⟨userId, tokenType, hnames, hlineage⟩ :=
    carried_reached h i r _ token _ ht htoken (Token.signed_of_payload hpay)
  obtain ⟨payload', hpay', rfl, hsub⟩ := hnames
  cases hpay.symm.trans hpay'
  refine ⟨⟨userId, ⟨payload, hpay, rfl, hsub⟩, hlineage⟩, fun c' other h' ha' => ?_⟩
  obtain ⟨payload', hpay', rfl⟩ := ha'.fits (hany (h.trans h'))
  cases hpay.symm.trans hpay'
  rfl

end

section

open scoped Ascii

def annRegistered : AppConfig :=
  runMoves (genesis noFaults 0) (solo 0 (registration "ann@example.org".toList ann_short))

def noToken : Token := ⟨false, { sub := none, jti := none, type := none, exp := none, iat := none }⟩

def issuedTo (c : AppConfig) (i n : Nat) : Token :=
  match answer c i with
  | some (.ok a) => a.issued.getD n noToken
  | _ => noToken

def refreshMoves : List AppMove := solo 1 (.refresh (issuedTo annRegistered 0 1))

def profileMoves : List AppMove :=
  [.start 2 (.getMe (issuedTo (runMoves annRegistered refreshMoves) 1 0)), .act 2 false]

def presents (c : AppConfig) : AppMove → Bool
  | .start _ r =>
    match r.token with
    | none => true
    | some (token, _) => !token.signed || (List.range 2).any fun i =>
      answeredWith c i fun a => a.issued.contains token
  | _ => true

theorem unforged_moves {c : AppConfig} {moves : List AppMove}
    (h : Config.passes (M := app) scheduler presents c moves = true) :
    Reach app Unforged c (runMoves c moves) := by
  refine Config.passes_reach (M := app) scheduler (fun _ => True) (fun _ _ _ _ _ _ => trivial)
    (fun d m _ _ hm => ?_) trivial h
  cases m with
  | start i r =>
    intro token tokenType htoken hsigned
    simp only [presents, htoken, hsigned, Bool.not_true, Bool.false_or, List.any_eq_true] at hm
    obtain ⟨j, -, hj⟩ := hm
    unfold answeredWith answer at hj
    split at hj
    · next a ha =>
      split at ha
      · next s b hthread =>
        cases ha
        exact ⟨j, s, a, hthread, by simpa using hj⟩
      · cases ha
    · cases hj
  | act i x => exact fun _ _ _ _ => trivial
  | env x => trivial

def goesOn (c : AppConfig) (i : Nat) (token : Token) (tokenType : Str) : Bool :=
  match c.thread i with
  | some ⟨r, .call o _⟩ => decide (r.token = some (token, tokenType)) && !Op.early o
  | _ => false

theorem accepted_of_goesOn {c : AppConfig} {i : Nat} {token : Token} {tokenType : Str}
    (h : goesOn c i token tokenType = true) : Accepted c token tokenType := by
  unfold goesOn at h
  split at h
  · next r o k ht =>
    simp only [Bool.and_eq_true, decide_eq_true_eq, Bool.not_eq_true'] at h
    exact ⟨i, r, o, k, ht, h.1, h.2⟩
  · cases h

def annProfile : AppConfig := runMoves (runMoves annRegistered refreshMoves) profileMoves

theorem annProfile_lineage : ∃ userId,
    (issuedTo (runMoves annRegistered refreshMoves) 1 0).Names access userId ∧
    Lineage annProfile userId (issuedTo (runMoves annRegistered refreshMoves) 1 0) := by
  have hregistered : Reach app Unforged (genesis noFaults 0) annRegistered :=
    unforged_moves (by decide +kernel)
  have hrefreshed : Reach app Unforged annRegistered (runMoves annRegistered refreshMoves) :=
    unforged_moves (by decide +kernel)
  have hprofile : Reach app Unforged (runMoves annRegistered refreshMoves) annProfile :=
    unforged_moves (by decide +kernel)
  exact (token_lineage ((hregistered.trans hrefreshed).trans hprofile)
    (accepted_of_goesOn (i := 2) (by decide +kernel))).1

end

end MultiTenantSaas
