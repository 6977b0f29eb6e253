import MultiTenantSaas.Accounts

/-!
How long tokens live. An answer's access token opens nothing from fifteen minutes after the
answer on, and its refresh token from seven days after it on, whoever presents them.
-/

set_option autoImplicit false

namespace MultiTenantSaas

open Process

def accessLifetime : Instant := accessTokenExpireMinutes * 60 * second

def refreshLifetime : Instant := refreshTokenExpireDays * 24 * 60 * 60 * second

def Token.ExpiresBy (token : Token) (t : Instant) : Prop :=
  ∀ payload, token.payload = some payload → payload.exp * second ≤ t

structure TokenResponse.MadeBy (tokens : TokenResponse) (t : Instant) : Prop where
  access : tokens.accessToken.ExpiresBy (t + accessLifetime)
  refresh : tokens.refreshToken.ExpiresBy (t + refreshLifetime)

def Request.Bears (token : Token) : Request → Prop
  | .getMe bearer => bearer = token
  | .tenant bearer _ _ => bearer = token
  | _ => False

/-- Whatever its operations answer within `L`, what the program returns meets `Q`. -/
abbrev Makes {α : Type} (L : (o : Op) → Except Exn o.Resp → Prop) (Q : α → Prop)
    (p : Coro α) : Prop := Concludes L Q (fun _ => True) p

section Makes

variable {α β : Type} {L : (o : Op) → Except Exn o.Resp → Prop} {Q : α → Prop}

theorem makes_any (p : Coro α) : Makes L (fun _ => True) p :=
  (Prog.ends_any p).mono fun _ _ => ⟨fun _ _ => trivial, fun _ _ => trivial⟩

theorem makes_throw {e : Exn} : Makes L Q (throw e : Coro α) := concludes_throw trivial

theorem makes_after {p : Coro β} {f : β → Coro α} (hf : ∀ b, Makes L Q (f b)) :
    Makes L Q (p >>= f) := (makes_any p).bind fun b _ => hf b

theorem makes_unless {b : Prop} [Decidable b] {e : Exn} {q : Coro α} (hq : Makes L Q q) :
    Makes L Q (if b then (throw e : Coro PUnit) >>= fun _ => q else q) := by
  split
  · exact makes_after fun _ => hq
  · exact hq

theorem makes_transaction {p : Coro α} (hp : Makes L Q p) : Makes L Q (transaction p) :=
  (hp.bind fun _ ha => makes_after fun _ => concludes_pure ha).tryCatch
    fun _ _ => makes_after fun _ => makes_throw

theorem makes_withDbSession {p : Coro α} (hp : Makes L Q p) : Makes L Q (withDbSession p) :=
  concludes_withDbSession (fun _ _ _ _ => trivial) hp

end Makes

section Made

variable {L : (o : Op) → Except Exn o.Resp → Prop} {t : Instant}

theorem makes_createJwtToken (hclock : ∀ a, L .clock (.ok a) → a ≤ t) (userId : Uuid)
    (tokenType : Str) (delta : Int) :
    Makes L (fun token => token.ExpiresBy (t + delta))
      (createJwtToken userId tokenType delta) := by
  refine makes_after fun jti => ?_
  have hnow : Makes L (fun a => a ≤ t) (ask .clock) := by
    rintro a ha
    exact ⟨fun now hnow => hclock now (hnow ▸ ha), fun _ _ => trivial⟩
  refine hnow.bind fun now hle => makes_after fun issued => concludes_pure ?_
  rintro payload hpayload
  cases hpayload
  have hexp : (now + delta) / second * second ≤ now + delta :=
    Int.ediv_mul_le _ (by decide)
  exact hexp.trans (Int.add_le_add_right hle delta)

theorem makes_generateTokenPair (hclock : ∀ a, L .clock (.ok a) → a ≤ t) (userId : Uuid) :
    Makes L (fun tokens => tokens.MadeBy t) (generateTokenPair userId) := by
  refine (makes_createJwtToken hclock _ _ _).bind fun accessToken haccess => ?_
  refine (makes_createJwtToken hclock _ _ _).bind fun refreshToken hrefresh => ?_
  exact concludes_pure ⟨haccess, hrefresh⟩

theorem makes_refreshTokens (hclock : ∀ a, L .clock (.ok a) → a ≤ t) (token : Token) :
    Makes L (fun tokens => tokens.MadeBy t) (AuthService.refreshTokens token) := by
  refine makes_after fun payload => makes_unless (makes_after fun revoked => makes_unless ?_)
  cases payload.sub with
  | none => exact makes_throw
  | some userId =>
    refine makes_after fun user => ?_
    cases user with
    | none => exact makes_throw
    | some user =>
      exact makes_unless (makes_after fun _ => makes_generateTokenPair hclock _)

theorem makes_authenticate [Library] (hclock : ∀ a, L .clock (.ok a) → a ≤ t)
    (email password : Str) :
    Makes L (fun tokens => tokens.MadeBy t) (AuthService.authenticate email password) := by
  refine makes_after fun user => ?_
  cases user with
  | none => exact makes_throw
  | some user => exact makes_unless (makes_unless (makes_generateTokenPair hclock _))

theorem makes_register [Library] (hclock : ∀ a, L .clock (.ok a) → a ≤ t)
    (payload : UserRegisterRequest) :
    Makes L (fun tokens => tokens.MadeBy t) (AuthService.register payload) :=
  makes_transaction (makes_after fun _ => makes_unless (makes_after fun _ =>
    makes_after fun _ => makes_after fun _ => makes_after fun _ => makes_after fun _ =>
      makes_generateTokenPair hclock _))

theorem makes_handle [Library] (hclock : ∀ a, L .clock (.ok a) → a ≤ t) (r : Request) :
    Makes L (fun x => ∀ headers tokens, x = .tokens headers tokens → tokens.MadeBy t)
      r.handle := by
  have hpair : ∀ {p : Coro TokenResponse} {headers : Option RateLimitHeaders},
      Makes L (fun tokens => tokens.MadeBy t) p →
      Makes L (fun x => ∀ headers tokens, x = .tokens headers tokens → tokens.MadeBy t)
        (do pure (Response.tokens headers (← p))) := by
    intro p headers hp
    refine hp.bind fun tokens htokens => concludes_pure ?_
    rintro headers' tokens' h
    cases h
    exact htokens
  cases r with
  | register clientIp payload =>
    exact makes_withDbSession (makes_after fun _ => hpair (makes_register hclock payload))
  | login clientIp payload =>
    exact makes_withDbSession (makes_after fun _ => hpair (makes_authenticate hclock _ _))
  | refresh token => exact makes_withDbSession (hpair (makes_refreshTokens hclock token))
  | _ =>
    refine Prog.Ends.weaken (Prog.Ends.mono (noTokens_handle id) fun a ha => ?_)
      fun _ _ _ => trivial
    refine ⟨fun x hx headers tokens h => ?_, fun _ _ => trivial⟩
    have hnone := ha x hx
    rw [h] at hnone
    cases hnone

end Made

section Runs

variable [Library] {faults : Faults} {now : Instant} {c c' d : AppConfig} {i j : Nat}
  {r : Request} {token : Token}

theorem concludes_expired (h₀ : Reach app anySchedule (genesis faults now) c)
    (hidle : c.thread i = none) (hexp : token.ExpiresBy c.state.now) :
    Concludes (Learns c c' i r) (fun _ => False) (· = .jwtError) (decodeJwtToken token) := by
  unfold decodeJwtToken
  cases hpayload : token.payload with
  | none => exact concludes_throw (L := Learns c c' i r) rfl
  | some payload =>
    refine Prog.Ends.bind fun a ha => ?_
    obtain ⟨t, rfl, hle, -⟩ := Learns.clock h₀ hidle ha
    change Prog.Ends (S := sig) _ _ (if payload.Timely t then pure payload else throw _)
    rw [if_neg fun ht => absurd ht.2.2 (not_lt.mpr ((hexp payload hpayload).trans hle))]
    exact concludes_throw (L := Learns c c' i r) rfl

theorem concludes_refused (h₀ : Reach app anySchedule (genesis faults now) c)
    (hidle : c.thread i = none) (hexp : token.ExpiresBy c.state.now) :
    Concludes (Learns c c' i r) (fun _ => False) (· = credentialsException)
      (getCurrentUser token) := by
  have hsubject : Concludes (Learns c c' i r) (fun _ => False) (· = .jwtError)
      (accessSubject token) :=
    (concludes_expired h₀ hidle hexp).bind fun _ => False.elim
  have hguarded : Concludes (Learns c c' i r) (fun _ => False) (· = credentialsException)
      (orCredentialsException (accessSubject token)) := by
    refine hsubject.tryCatch fun e he => ?_
    rw [if_pos (Or.inl he)]
    exact concludes_throw (L := Learns c c' i r) rfl
  exact hguarded.bind fun _ => False.elim

theorem concludes_bears (h₀ : Reach app anySchedule (genesis faults now) c)
    (hidle : c.thread i = none) (hexp : token.ExpiresBy c.state.now) (hbears : r.Bears token) :
    Concludes (Learns c c' i r) (fun _ => False) (· = credentialsException) r.handle := by
  have hrollback : ∀ a, Learns c c' i r .rollback a → ∀ e, a = .error e →
      e = credentialsException := fun a ha e he => (replies_fails (ha.replies h₀ hidle) he).elim
  have hcaller : Concludes (Learns c c' i r) (fun _ => False) (· = credentialsException)
      (getCurrentUser token) := concludes_refused h₀ hidle hexp
  cases r with
  | getMe bearer =>
    obtain rfl := hbears
    exact concludes_withDbSession hrollback (hcaller.bind fun _ => False.elim)
  | tenant bearer o q =>
    obtain rfl := hbears
    exact concludes_withDbSession hrollback
      ((hcaller.bind fun _ => False.elim).bind fun _ => False.elim)
  | _ => exact hbears.elim

theorem concludes_refreshExpired (h₀ : Reach app anySchedule (genesis faults now) c)
    (hidle : c.thread i = none) (hexp : token.ExpiresBy c.state.now) :
    Concludes (Learns c c' i (.refresh token)) (fun _ => False) (· = invalidToken)
      (Request.handle (.refresh token)) := by
  have hrollback : ∀ a, Learns c c' i (.refresh token) .rollback a → ∀ e, a = .error e →
      e = invalidToken := fun a ha e he => (replies_fails (ha.replies h₀ hidle) he).elim
  have hdecode : Concludes (Learns c c' i (.refresh token)) (fun _ => False) (· = invalidToken)
      (tryCatch (decodeJwtToken token) fun e =>
        if e = .jwtError then throw invalidToken else throw e) := by
    refine (concludes_expired h₀ hidle hexp).tryCatch fun e he => ?_
    rw [if_pos he]
    exact concludes_throw (L := Learns c c' i (.refresh token)) rfl
  exact concludes_withDbSession hrollback
    ((hdecode.bind fun _ => False.elim).bind fun _ => False.elim)

theorem tokens_made (h : Reach app anySchedule (genesis faults now) c) {s : Request}
    {headers : Option RateLimitHeaders} {tokens : TokenResponse}
    (hanswered : c.thread j = some ⟨s, .done (.ok (.tokens headers tokens))⟩) :
    tokens.MadeBy c.state.now := by
  obtain ⟨d, hd, hidle, -, hpath⟩ := h.arrived ((start_genesis faults now).idle j) hanswered
  have hserved : Served d c j s (.ok (.tokens headers tokens)) := ⟨hidle, hpath, hanswered⟩
  have hclock : ∀ a, Learns d c j s .clock (.ok a) → a ≤ c.state.now := by
    intro a ha
    obtain ⟨t, ht, -, hle⟩ := Learns.clock hd hidle ha
    cases ht
    exact hle
  exact (hserved.learns (makes_handle hclock s)).1 _ rfl headers tokens rfl

/-- From fifteen minutes after an answer on, a request that arrives with its access token is
refused; from seven days after it on, a refresh with its refresh token is. -/
theorem tokens_expire (h₀ : Reach app anySchedule (genesis faults now) d)
    (h : Reach app anySchedule d c) {s : Request} {headers : Option RateLimitHeaders}
    {tokens : TokenResponse} {a : Except Exn Response}
    (hanswered : d.thread j = some ⟨s, .done (.ok (.tokens headers tokens))⟩)
    (hserved : Served c c' i r a) :
    (d.state.now + accessLifetime ≤ c.state.now → r.Bears tokens.accessToken →
      a = .error credentialsException) ∧
    (d.state.now + refreshLifetime ≤ c.state.now → r = .refresh tokens.refreshToken →
      a = .error invalidToken) := by
  have hmade := tokens_made h₀ hanswered
  have hc := h₀.trans h
  have hrefused : ∀ {e : Exn}, Concludes (Learns c c' i r) (fun _ => False) (· = e) r.handle →
      a = .error e := by
    intro e he
    obtain ⟨hok, herror⟩ := hserved.learns he
    cases a with
    | ok x => exact (hok x rfl).elim
    | error e' => rw [herror e' rfl]
  constructor
  · intro hlate hbears
    exact hrefused (concludes_bears hc hserved.idle
      (fun payload hp => (hmade.access payload hp).trans hlate) hbears)
  · rintro hlate rfl
    exact hrefused (concludes_refreshExpired hc hserved.idle
      fun payload hp => (hmade.refresh payload hp).trans hlate)

end Runs

section Example

open scoped Ascii

def annLater : AppConfig := runMoves annRegistered [.env (Turn.tick 900000000)]

theorem annLater_reached : Reach app anySchedule annRegistered annLater := runMoves_path

def pairOf (c : AppConfig) (i : Nat) : Option TokenResponse :=
  match c.thread i with
  | some ⟨_, .done (.ok (.tokens _ tokens))⟩ => some tokens
  | _ => none

theorem thread_of_pair {c : AppConfig} {i : Nat} {tokens : TokenResponse}
    (h : pairOf c i = some tokens) :
    ∃ s headers, c.thread i = some ⟨s, .done (.ok (.tokens headers tokens))⟩ := by
  unfold pairOf at h
  split at h
  · next s headers tokens' ht =>
    cases h
    exact ⟨s, headers, ht⟩
  · cases h

/-- Her access token from the registration is refused. -/
theorem ann_expires : ∃ s headers tokens,
    annRegistered.thread 0 = some ⟨s, .done (.ok (.tokens headers tokens))⟩ ∧
    ∃ c a, Served annLater c 1 (.getMe tokens.accessToken) a ∧
      a = .error credentialsException := by
  have hissued : (pairOf annRegistered 0).map TokenResponse.accessToken =
      some (issuedTo annRegistered 0 0) := by decide +kernel
  obtain ⟨tokens, hpair, htoken⟩ := Option.map_eq_some_iff.mp hissued
  obtain ⟨s, headers, ht⟩ := thread_of_pair hpair
  have hserved := served_refused (c := annLater) (i := 1)
    (r := .getMe (issuedTo annRegistered 0 0)) (e := credentialsException) (by decide +kernel)
    (by decide +kernel)
  have hlate : annRegistered.state.now + accessLifetime ≤ annLater.state.now := by decide +kernel
  rw [← htoken] at hserved
  refine ⟨s, headers, tokens, ht, _, _, hserved, ?_⟩
  exact (tokens_expire annRegistered_reached annLater_reached ht hserved).1 hlate rfl

end Example

end MultiTenantSaas
