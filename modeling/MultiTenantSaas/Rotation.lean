import MultiTenantSaas.AloneRuns
import MultiTenantSaas.Readers

/-!
Refresh calls with one token. Each looks the token up in the blacklist and revokes it
later, so only a call that is alone between the two rotates the token once.
-/

set_option autoImplicit false

namespace MultiTenantSaas

open Process

def Passed (key : Str) (i : Nat) (w : World) : Prop := (i, Event.redisExists key false) ∈ w.trace

def Revoked (key : Str) (i : Nat) (w : World) : Prop := (i, Event.redisSet key) ∈ w.trace

/-- No call looks the token up while another one has found it not revoked and not revoked
it yet. -/
def OneAtCheck (key : Str) (c : AppConfig) : AppLabel → Prop
  | .act i (.redisExists key') => key' = key → ∀ j, j ≠ i → Passed key j c.state →
    Revoked key j c.state
  | _ => True

/-- At most one call has a new pair, and every other call that has ended was told that the
token is revoked. -/
structure SingleUse (c : AppConfig) : Prop where
  once : ∀ i j r s a b, c.thread i = some ⟨r, .done (.ok a)⟩ →
    c.thread j = some ⟨s, .done (.ok b)⟩ → i = j
  others : ∀ i r e, c.thread i = some ⟨r, .done (.error e)⟩ → e = revokedToken

def Rotated {α : Type} (key : Str) (i : Nat) : Except Exn α → World → Prop
  | .ok _, w => Passed key i w
  | .error e, _ => e = revokedToken

theorem Rotated.mono {α : Type} {key : Str} {i : Nat} {a : Except Exn α} {w w' : World}
    (h : Rotated key i a w) (htrace : w.trace ⊆ w'.trace) : Rotated key i a w' := by
  cases a with
  | ok a => exact htrace h
  | error e => exact h

structure RefreshOf (token : Token) (p : TokenPayload) (user : User) : Prop where
  payload : token.payload = some p
  type : p.type = refreshType
  sub : p.sub = some user.id
  active : user.isActive = true

def TimeLeft (exp : Instant) (w : World) : Prop := w.now + second < exp

instance (exp : Instant) (w : World) : Decidable (TimeLeft exp w) :=
  inferInstanceAs (Decidable (_ < _))

theorem TimeLeft.of_le {exp : Instant} {w w' : World} (h : TimeLeft exp w')
    (hnow : w.now ≤ w'.now) :
    TimeLeft exp w := Int.lt_of_le_of_lt (Int.add_le_add_right hnow second) h

theorem TimeLeft.lt {exp : Instant} {w : World} (h : TimeLeft exp w) : w.now < exp :=
  Int.lt_trans (Int.lt_add_of_pos_right w.now (by decide)) h

/-- The user is stored, the services are up, one call at most has passed the check, and
what a call has revoked stays so for all but the last second. -/
structure RotationInv (key : Str) (exp : Instant) (user : User) (start : Instant) (w : World) :
    Prop where
  late : start ≤ w.now
  redis : w.faults.redis = false
  database : w.faults.database = false
  stored : w.db.get .users user.id = some user
  closed : w.pending = []
  once : ∀ i j, Passed key i w → Passed key j w → i = j
  lasting : ∀ i, Revoked key i w → ∃ v expires, w.redis.strings key = some (v, expires) ∧
    exp < expires + second

def RotationStep (key : Str) (exp : Instant) (w : World) : Op → Prop
  | .redisExists key' => key' = key
  | .redisSet key' _ ex => key' = key ∧ exp < w.now + ex * second + second
  | .clock | .uuid4 | .select _ | .rollback => True
  | _ => False

section

variable [Library]

def rotationContract (key : Str) (exp : Instant) (user : User) (start : Instant) :
    Contract sig Request World where
  inv w := TimeLeft exp w → RotationInv key exp user start w
  fresh _ _ := True
  rely _ _ _ w w' := w.now ≤ w'.now ∧ w.trace ⊆ w'.trace
  guar i _ o w w' := (∃ a, exec i o w a w') ∧ (TimeLeft exp w → RotationStep key exp w o)

variable {key : Str} {exp : Instant} {user : User} {start : Instant}

def Rotating (key : Str) (exp : Instant) (user : User) (start : Instant) (i : Nat) (r : Request)
    {α : Type} (p : Coro α) (Q : Except Exn α → World → Prop) (w : World) : Prop :=
  wp machine (rotationContract key exp user start) i r p (fun a w => TimeLeft exp w → Q a w) w

variable {i : Nat} {r : Request} {α β : Type} {w : World}

theorem rotating_late {p : Coro α} {Q : Except Exn α → World → Prop} (h : ¬ TimeLeft exp w) :
    Rotating key exp user start i r p Q w := by
  induction p generalizing w with
  | done a => exact fun hleft => absurd hleft h
  | call o k ih =>
    intro w₁ hrely _ a w' he
    have hlate : ¬ TimeLeft exp w₁ := fun hleft => h (hleft.of_le hrely.1)
    exact ⟨⟨⟨a, he⟩, fun hleft => absurd hleft hlate⟩,
      ih a fun hleft => hlate (hleft.of_le (exec_now he).ge)⟩

theorem rotating_mono {p : Coro α} {Q Q' : Except Exn α → World → Prop}
    (h : Rotating key exp user start i r p Q w) (himp : ∀ a w, Q a w → Q' a w) :
    Rotating key exp user start i r p Q' w := wp_mono (fun a w hq hleft => himp a w (hq hleft)) h

theorem rotating_bind {p : Coro α} {f : α → Coro β} {Q : Except Exn β → World → Prop}
    (h : Rotating key exp user start i r p (fun a w => match a with
      | .ok a => Rotating key exp user start i r (f a) Q w
      | .error e => Q (.error e) w) w) : Rotating key exp user start i r (p >>= f) Q w := by
  refine (wp_bind p f _ w).mpr (wp_mono (fun a w' hq => ?_) h)
  cases a with
  | error e => exact hq
  | ok a =>
    by_cases hleft : TimeLeft exp w'
    · exact hq hleft
    · exact rotating_late hleft

theorem rotating_tryCatch {p : Coro α} {g : Exn → Coro α} {Q : Except Exn α → World → Prop}
    (h : Rotating key exp user start i r p (fun a w => match a with
      | .ok a => Q (.ok a) w
      | .error e => Rotating key exp user start i r (g e) Q w) w) :
    Rotating key exp user start i r (tryCatch p g) Q w := by
  refine (wp_tryCatch p g _ w).mpr (wp_mono (fun a w' hq => ?_) h)
  cases a with
  | ok a => exact hq
  | error e =>
    by_cases hleft : TimeLeft exp w'
    · exact hq hleft
    · exact rotating_late hleft

theorem rotating_ask {o : Op} {Q : Except Exn o.Resp → World → Prop}
    (h : ∀ w₁, w.now ≤ w₁.now → w.trace ⊆ w₁.trace → TimeLeft exp w₁ →
      RotationInv key exp user start w₁ →
      RotationStep key exp w₁ o ∧ ∀ a w', exec i o w₁ a w' → Q a w') :
    Rotating key exp user start i r (ask o) Q w := by
  intro w₁ hrely hinv a w' he
  by_cases hleft : TimeLeft exp w₁
  · obtain ⟨hstep, hQ⟩ := h w₁ hrely.1 hrely.2 hleft (hinv hleft)
    exact ⟨⟨⟨a, he⟩, fun _ => hstep⟩, fun _ => hQ a w' he⟩
  · exact ⟨⟨⟨a, he⟩, fun h => absurd h hleft⟩,
      fun h => absurd (h.of_le (exec_now he).ge) hleft⟩

theorem rotating_decode {token : Token} {payload : TokenPayload}
    {Q : Except Exn TokenPayload → World → Prop} (hpayload : token.payload = some payload)
    (htimely : payload.Timely start) (hQ : ∀ w', w.trace ⊆ w'.trace → Q (.ok payload) w') :
    Rotating key (payload.exp * second) user start i r (decodeJwtToken token) Q w := by
  simp only [decodeJwtToken, hpayload]
  refine rotating_bind (rotating_ask fun w₁ _ htrace hleft hinv => ⟨trivial, fun a w' he => ?_⟩)
  obtain ⟨rfl, rfl⟩ := he
  simp only [htimely.later hinv.late hleft.lt, if_true]
  exact fun _ => hQ w' htrace

theorem rotating_isTokenRevoked {jti : Str} {Q : Except Exn Bool → World → Prop}
    (htrue : ∀ w', Q (.ok true) w')
    (hfalse : ∀ w', Passed (blacklistKey jti) i w' → Q (.ok false) w') :
    Rotating (blacklistKey jti) exp user start i r (isTokenRevoked jti) Q w := by
  refine rotating_ask fun w₁ _ _ _ hinv => ⟨rfl, fun a w' he => ?_⟩
  rcases he with ⟨rfl, rfl⟩ | ⟨-, hdown, -⟩
  · cases hlive : w₁.redis.exists' w₁.now (blacklistKey jti) with
    | true => exact htrue _
    | false => exact hfalse _ List.mem_cons_self
  · cases hinv.redis.symm.trans hdown

theorem rotating_sessionGet {Q : Except Exn (Option User) → World → Prop}
    (hQ : ∀ w', w.trace ⊆ w'.trace → Q (.ok (some user)) w') :
    Rotating key exp user start i r (sessionGet .users user.id) Q w := by
  refine rotating_bind (rotating_ask fun w₁ _ htrace _ hinv => ⟨trivial, fun a w' he => ?_⟩)
  obtain ⟨rfl, ⟨rows, rfl, hperm⟩ | ⟨hdown, -⟩⟩ := he
  · have hrows : w'.rows i = [] := by simp [World.rows, hinv.closed]
    rw [World.view_of_rows hrows, rowsWhere_id, hinv.stored] at hperm
    rw [List.perm_singleton.mp hperm]
    exact fun _ => hQ w' htrace
  · cases hinv.database.symm.trans hdown

omit [Library] in
theorem lt_of_remaining {exp now now' : Int} (hleft : now + second < exp) (hle : now ≤ now') :
    0 < remainingSeconds exp now ∧ exp < now' + remainingSeconds exp now * second + second := by
  unfold remainingSeconds second at *
  rw [Int.tdiv_eq_ediv_of_nonneg (by omega)]
  omega

theorem rotating_revokeToken {jti : Str} {Q : Except Exn Unit → World → Prop}
    (hQ : ∀ w', w.trace ⊆ w'.trace → Q (.ok ()) w') :
    Rotating (blacklistKey jti) exp user start i r (revokeToken jti exp) Q w := by
  refine rotating_bind (rotating_ask fun w₁ _ htrace hleft _ => ⟨trivial, fun a w' he => ?_⟩)
  obtain ⟨rfl, rfl⟩ := he
  simp only [(lt_of_remaining hleft (Int.le_refl _)).1, if_true]
  refine rotating_ask fun w₂ hnow htrace' _ hinv =>
    ⟨⟨rfl, (lt_of_remaining hleft hnow).2⟩, fun a w₃ he => ?_⟩
  rcases he with ⟨rfl, rfl⟩ | ⟨-, hdown, -⟩
  · exact hQ _ fun e he => List.mem_cons_of_mem _ (htrace' (htrace he))
  · cases hinv.redis.symm.trans hdown

theorem rotating_clock {Q : Except Exn Instant → World → Prop}
    (hQ : ∀ now w', w.trace ⊆ w'.trace → Q (.ok now) w') :
    Rotating key exp user start i r (ask .clock) Q w := by
  refine rotating_ask fun w₁ _ htrace _ _ => ⟨trivial, fun a w' he => ?_⟩
  obtain ⟨rfl, rfl⟩ := he
  exact hQ _ _ htrace

theorem rotating_createJwtToken {userId : Uuid} {tokenType : Str} {delta : Int}
    {Q : Except Exn Token → World → Prop} (hQ : ∀ token w', w.trace ⊆ w'.trace → Q (.ok token) w') :
    Rotating key exp user start i r (createJwtToken userId tokenType delta) Q w := by
  refine rotating_bind (rotating_ask fun w₁ _ h₁ _ _ => ⟨trivial, fun a w' he => ?_⟩)
  obtain ⟨jti, -, rfl, rfl⟩ := he
  refine rotating_bind (rotating_clock fun now w₂ h₂ => rotating_bind (rotating_clock
    fun issued w₃ h₃ => ?_))
  exact fun _ => hQ _ w₃ fun e he => h₃ (h₂ (h₁ he))

theorem rotating_generateTokenPair {userId : Uuid} {Q : Except Exn TokenResponse → World → Prop}
    (hQ : ∀ tokens w', w.trace ⊆ w'.trace → Q (.ok tokens) w') :
    Rotating key exp user start i r (generateTokenPair userId) Q w :=
  rotating_bind (rotating_createJwtToken fun _ _ h₁ => rotating_bind (rotating_createJwtToken
    fun _ w₂ h₂ _ => hQ _ w₂ fun _ he => h₂ (h₁ he)))

theorem rotating_refreshTokens {token : Token} {payload : TokenPayload}
    (h : RefreshOf token payload user) (htimely : payload.Timely start) :
    Rotating (blacklistKey payload.jti) (payload.exp * second) user start i r
      (AuthService.refreshTokens token) (Rotated (blacklistKey payload.jti) i) w := by
  refine rotating_bind (rotating_tryCatch (rotating_decode h.payload htimely fun w₁ _ => ?_))
  simp only [h.type, ne_eq, not_true_eq_false, if_false, h.sub]
  refine rotating_bind (rotating_isTokenRevoked (fun w₂ => ?_) fun w₂ hpassed => ?_)
  · exact fun _ => rfl
  · refine rotating_bind (rotating_sessionGet fun w₃ h₃ => ?_)
    simp only [h.active, Bool.not_true, Bool.false_eq_true, if_false]
    refine rotating_bind (rotating_revokeToken fun w₄ h₄ => ?_)
    exact rotating_generateTokenPair fun _ _ h₅ => h₅ (h₄ (h₃ hpassed))

theorem rotating_handle {token : Token} {payload : TokenPayload}
    (h : RefreshOf token payload user) (htimely : payload.Timely start) :
    Rotating (blacklistKey payload.jti) (payload.exp * second) user start i r
      (Request.handle (.refresh token)) (Rotated (blacklistKey payload.jti) i) w := by
  have hrollback : ∀ {Q : Except Exn Unit → World → Prop} {w : World},
      (∀ w', w.trace ⊆ w'.trace → Q (.ok ()) w') →
      Rotating (blacklistKey payload.jti) (payload.exp * second) user start i r (ask .rollback) Q
        w := by
    intro Q w hQ
    refine rotating_ask fun w₁ _ htrace _ _ => ⟨trivial, fun a w' he => ?_⟩
    obtain ⟨rfl, rfl⟩ := he
    exact hQ _ fun e he => List.mem_cons_of_mem _ (htrace he)
  refine rotating_bind (rotating_tryCatch (rotating_bind (rotating_mono
    (rotating_refreshTokens h htimely) fun a w₁ ha => ?_)))
  cases a with
  | ok tokens =>
    exact fun _ => rotating_bind (hrollback fun w₂ h₂ _ => h₂ ha)
  | error e =>
    exact rotating_bind (hrollback fun w₂ _ _ => ha)

omit [Library] in
theorem RotationInv.of_trace {w' : World} (h : RotationInv key exp user start w)
    (hnow : w.now ≤ w'.now)
    (hsame : w'.faults = w.faults ∧ w'.db = w.db ∧ w'.pending = w.pending ∧ w'.redis = w.redis)
    (htrace : ∀ j e, (j, e) ∈ w'.trace → e = .redisExists key false ∨ e = .redisSet key →
      (j, e) ∈ w.trace) : RotationInv key exp user start w' := by
  obtain ⟨hfaults, hdb, hpending, hredis⟩ := hsame
  refine ⟨h.late.trans hnow, hfaults ▸ h.redis, hfaults ▸ h.database, hdb ▸ h.stored,
    hpending ▸ h.closed,
    fun i j hi hj => h.once i j (htrace i _ hi (Or.inl rfl)) (htrace j _ hj (Or.inl rfl)), ?_⟩
  rw [hredis]
  exact fun i hi => h.lasting i (htrace i _ hi (Or.inr rfl))

omit [Library] in
/-- Whoever looks the token up while nobody is between finds what was revoked. -/
theorem RotationInv.looked {alive : Bool} (h : RotationInv key exp user start w)
    (hleft : TimeLeft exp w) (halone : ∀ j, j ≠ i → Passed key j w → Revoked key j w)
    (halive : alive = w.redis.exists' w.now key) :
    RotationInv key exp user start (w.log i (.redisExists key alive)) := by
  refine ⟨h.late, h.redis, h.database, h.stored, h.closed, fun j l hj hl => ?_, fun j hj => ?_⟩
  · have hself : ∀ j, Passed key j (w.log i (.redisExists key alive)) → Passed key j w ∨
        (j = i ∧ alive = false) := by
      intro j hj
      rcases List.mem_cons.mp hj with he | hj
      · cases he
        exact Or.inr ⟨rfl, rfl⟩
      · exact Or.inl hj
    have hdead : ∀ j, alive = false → Passed key j w → j = i := by
      intro j hfalse hj
      by_contra hne
      obtain ⟨v, expires, hget, hlong⟩ := h.lasting j (halone j hne hj)
      have hlive : w.now < expires := Int.lt_of_add_lt_add_right (Int.lt_trans hleft hlong)
      simp [halive, Redis.exists', Redis.get, hget, hlive] at hfalse
    rcases hself j hj with hold | ⟨hji, hfalse⟩ <;> rcases hself l hl with hold' | ⟨hli, hfalse'⟩
    · exact h.once j l hold hold'
    · exact (hdead j hfalse' hold).trans hli.symm
    · exact hji.trans (hdead l hfalse hold').symm
    · exact hji.trans hli.symm
  · rcases List.mem_cons.mp hj with he | hj
    · cases he
    · exact h.lasting j hj

omit [Library] in
theorem RotationInv.revoked {v : RedisValue} {ex : Int} (h : RotationInv key exp user start w)
    (hex : exp < w.now + ex * second + second) : RotationInv key exp user start
      { w.log i (.redisSet key) with redis := w.redis.set w.now key v ex } := by
  refine ⟨h.late, h.redis, h.database, h.stored, h.closed, fun j l hj hl => ?_, fun j hj => ?_⟩
  · have hold : ∀ j, Passed key j { w.log i (.redisSet key) with
        redis := w.redis.set w.now key v ex } → Passed key j w := fun j hj =>
      (List.mem_cons.mp hj).resolve_left nofun
    exact h.once j l (hold j hj) (hold l hl)
  · exact ⟨v, _, by simp [Redis.set], hex⟩

theorem rotation_verified {token : Token} {payload : TokenPayload}
    (h : RefreshOf token payload user) (htimely : payload.Timely start) :
    Verified app (fun c l => Starting (· = .refresh token) c l ∧
        OneAtCheck (blacklistKey payload.jti) c l)
      (rotationContract (blacklistKey payload.jti) (payload.exp * second) user start)
      (fun i _ a w => TimeLeft (payload.exp * second) w →
        Rotated (blacklistKey payload.jti) i a w) where
  refl i r o w := ⟨Int.le_refl _, List.Subset.refl _⟩
  trans i r o w w' w'' h h' := ⟨Int.le_trans h.1 h'.1, List.Subset.trans h.2 h'.2⟩
  start c i r hok _ _ := by
    obtain ⟨rfl, -⟩ := hok
    exact rotating_handle h htimely
  act c i r o k w' hok hinv ht hguar := by
    obtain ⟨⟨a, he⟩, hstep⟩ := hguar
    have hnow := exec_now he
    have htrace := (World.executed he).trace
    refine ⟨fun hleft' => ?_, fun j hj => ?_⟩
    · have hleft := hleft'.of_le hnow.ge
      have hI := hinv hleft
      have hallowed := hstep hleft
      cases o <;> try exact hallowed.elim
      case clock => exact he.2 ▸ hI
      case uuid4 =>
        obtain ⟨u, -, -, rfl⟩ := he
        exact hI.of_trace le_rfl ⟨rfl, rfl, rfl, rfl⟩ fun _ _ h _ => h
      case select => exact he.1 ▸ hI
      case rollback =>
        obtain ⟨-, rfl⟩ := he
        refine hI.of_trace le_rfl ⟨rfl, rfl, ?_, rfl⟩ fun j e h he =>
          (List.mem_cons.mp h).resolve_left ?_
        · simp [World.rollback, World.endTransaction, World.log, hI.closed]
        · rintro ⟨⟩
          rcases he with he | he <;> cases he
      case redisExists key' =>
        obtain rfl : key' = blacklistKey payload.jti := hallowed
        rcases he with ⟨-, rfl⟩ | ⟨rfl, -⟩
        · exact hI.looked hleft (hok.2 rfl) rfl
        · exact hI
      case redisSet key' v ex =>
        obtain ⟨rfl, hex⟩ := hallowed
        rcases he with ⟨-, rfl⟩ | ⟨rfl, -⟩
        · exact hI.revoked hex
        · exact hI
    · unfold Contract.Survives
      split
      · exact fun _ => trivial
      · exact fun hpost hleft' => (hpost (hleft'.of_le hnow.ge)).mono htrace
      · exact ⟨hnow.ge, htrace⟩
  env c w' _ hinv he := by
    have hsame : c.state.now ≤ w'.now ∧ w'.trace = c.state.trace ∧ w'.faults = c.state.faults ∧
        w'.db = c.state.db ∧ w'.pending = c.state.pending ∧ w'.redis = c.state.redis := by
      cases he with
      | tick now hle => exact ⟨hle, rfl, rfl, rfl, rfl, rfl⟩
      | listen k wake hub _ => exact ⟨Int.le_refl _, rfl, rfl, rfl, rfl, rfl⟩
    obtain ⟨hnow, htrace, hrest⟩ := hsame
    have hsub : c.state.trace ⊆ w'.trace := fun e h => htrace ▸ h
    refine ⟨fun hleft => (hinv (hleft.of_le hnow)).of_trace hnow hrest fun _ _ h _ => htrace ▸ h,
      fun j => ?_⟩
    unfold Contract.Survives
    split
    · exact fun _ => trivial
    · exact fun hpost hleft => (hpost (hleft.of_le hnow)).mono hsub
    · exact ⟨hnow, hsub⟩

/-- When no call looks the token up while another is between its check and its revocation,
at most one gets a new pair and the others learn that the token is revoked. -/
theorem rotation_single_use {c₀ c : AppConfig} {token : Token} {payload : TokenPayload}
    (hrefresh : RefreshOf token payload user) (h₀ : Start c₀)
    (hvalid : payload.Timely c₀.state.now)
    (hstored : c₀.state.db.get .users user.id = some user) (hredis : c₀.state.faults.redis = false)
    (hdatabase : c₀.state.faults.database = false)
    (h : Reach app (fun c l => Starting (· = .refresh token) c l ∧
      OneAtCheck (blacklistKey payload.jti) c l) c₀ c)
    (hleft : TimeLeft (payload.exp * second) c.state) : SingleUse c := by
  have hunlogged : ∀ i e, (i, e) ∉ c₀.state.trace := by simp [h₀.unlogged]
  have hholds : (rotationContract (blacklistKey payload.jti) (payload.exp * second) user
      c₀.state.now).Holds app (fun i _ a w => TimeLeft (payload.exp * second) w →
        Rotated (blacklistKey payload.jti) i a w) c₀ :=
    Verified.holds_idle (fun _ => ⟨le_rfl, hredis, hdatabase, hstored, h₀.closed,
      fun i _ hi => absurd hi (hunlogged i _), fun i hi => absurd hi (hunlogged i _)⟩) h₀.idle
      fun _ => trivial
  have V := rotation_verified hrefresh hvalid
  refine ⟨fun i j r s a b hi hj => ?_, fun i r e hi => ?_⟩
  · exact (V.reach_inv hholds h hleft).once i j (V.reach_post hholds h hi hleft)
      (V.reach_post hholds h hj hleft)
  · exact V.reach_post hholds h hi hleft

end

section

open scoped Ascii

def annsAccount : AppConfig :=
  restart (runMoves (genesis noFaults 0)
    (solo 0 (registration "ann@example.org".toList ann_short)))

theorem start_annsAccount : Start annsAccount := start_restart (runMoves_any fun _ => rfl)

def annsRefresh : Token := signedToken (drawnId 2) refreshType 1000

def annsPayload : TokenPayload := ⟨some (drawnId 2), refreshType, refreshType, 1000, none, none⟩

theorem anns_refreshOf : ∃ user : User, RefreshOf annsRefresh annsPayload user ∧
    annsAccount.state.db.get .users user.id = some user := by
  have hactive : (annsAccount.state.db.get .users (drawnId 2)).any User.isActive = true := by
    decide +kernel
  obtain ⟨user, hget, hactive⟩ := (Option.any_eq_true _ _).mp hactive
  have hid : user.id = drawnId 2 := (Db.get_eq_some.mp hget).2
  exact ⟨user, ⟨rfl, rfl, congrArg some hid.symm, hactive⟩, hid ▸ hget⟩

def Event.passes (key : Str) : Event → Bool
  | .redisExists key' false => key' = key
  | _ => false

def Event.revokes (key : Str) : Event → Bool
  | .redisSet key' => key' = key
  | _ => false

def revokedByOthers (key : Str) (c : AppConfig) : AppMove → Bool
  | .act i _ => c.state.trace.all fun e => !e.2.passes key || decide (e.1 = i) ||
      c.state.trace.any fun e' => decide (e'.1 = e.1) && e'.2.revokes key
  | _ => true

theorem revokedByOthers_allowed {key : Str} {c : AppConfig} {m : AppMove}
    (h : revokedByOthers key c m = true) : m.Allowed (OneAtCheck key) c := by
  cases m with
  | start i r => trivial
  | env x => trivial
  | act i x =>
    intro r o k _
    unfold OneAtCheck
    split
    · next heq =>
      cases heq
      rintro rfl j hj hpassed
      have hrevoked := List.all_eq_true.mp h _ hpassed
      simp only [Event.passes, hj, decide_true, decide_false, Bool.not_true, Bool.or_self,
        Bool.false_or] at hrevoked
      obtain ⟨⟨j', e⟩, hmem, he⟩ := List.any_eq_true.mp hrevoked
      obtain ⟨hij, hset⟩ := Bool.and_eq_true_iff.mp he
      cases of_decide_eq_true hij
      cases e <;> try cases hset
      exact of_decide_eq_true hset ▸ hmem
    · trivial

/-- One call decodes the token, and looks it up when the other has revoked it. -/
def secondWaits : List AppMove :=
  [.start 0 (.refresh annsRefresh), .start 1 (.refresh annsRefresh), .act 1 false] ++
  List.replicate 14 (.act 0 false) ++ List.replicate 13 (.act 1 false)

theorem anns_single_use : SingleUse (runMoves annsAccount secondWaits) ∧
    accepted (runMoves annsAccount secondWaits) 0 = true ∧
    refusedWith (runMoves annsAccount secondWaits) 1 revokedToken = true := by
  obtain ⟨user, hrefresh, hstored⟩ := anns_refreshOf
  refine ⟨rotation_single_use hrefresh start_annsAccount (by decide +kernel) hstored
    (by decide +kernel) (by decide +kernel) (runMoves_checked
      (revokedByOthers (blacklistKey refreshType)) (fun _ => rfl)
      (fun d m hm _ hcheck => (starting_allowed fun i r he => ?_).and
        (revokedByOthers_allowed hcheck)) (by decide +kernel)) (by decide +kernel),
    by decide +kernel, by decide +kernel⟩
  subst he
  simp [secondWaits] at hm
  rcases hm with ⟨-, rfl⟩ | ⟨-, rfl⟩ <;> rfl

def twoRefreshes : List AppMove :=
  [.start 0 (.refresh annsRefresh), .start 1 (.refresh annsRefresh)] ++
  List.replicate 2 (.act 0 false) ++ List.replicate 2 (.act 1 false) ++
  List.replicate 12 (.act 0 false) ++ List.replicate 12 (.act 1 false)

/-- Two overlapping calls both get a new pair. -/
theorem rotation_not_single_use : ¬ ∀ c₀ c token payload user, RefreshOf token payload user →
    Start c₀ → payload.Timely c₀.state.now →
    c₀.state.db.get .users user.id = some user → c₀.state.faults = noFaults →
    Reach app (Starting (· = .refresh token)) c₀ c →
    TimeLeft (payload.exp * second) c.state → SingleUse c := by
  intro hall
  obtain ⟨user, hrefresh, hstored⟩ := anns_refreshOf
  have hsingle := hall annsAccount (runMoves annsAccount twoRefreshes) annsRefresh annsPayload user
    hrefresh start_annsAccount (by decide +kernel) hstored (by decide +kernel)
    (runMoves_starting (fun _ => rfl) fun i r hm => by
      simp [twoRefreshes] at hm
      rcases hm with ⟨-, rfl⟩ | ⟨-, rfl⟩ <;> rfl) (by decide +kernel)
  have h0 : accepted (runMoves annsAccount twoRefreshes) 0 = true := by decide +kernel
  have h1 : accepted (runMoves annsAccount twoRefreshes) 1 = true := by decide +kernel
  obtain ⟨r, a, ht, -⟩ := runMoves_accepted (fun _ => rfl) h0
  obtain ⟨s, b, hs, -⟩ := runMoves_accepted (fun _ => rfl) h1
  exact absurd (hsingle.once 0 1 r s a b ht hs) (by decide)

end

end MultiTenantSaas
