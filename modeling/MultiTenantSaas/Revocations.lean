import MultiTenantSaas.OneThread
import MultiTenantSaas.Rotation

/-!
How long a revocation lasts. The blacklist keeps a token for the whole seconds it has
left, so the last fraction of a second is not covered.
-/

set_option autoImplicit false

namespace MultiTenantSaas

open Process

def ActiveSubject (db : Db) (sub : Option Uuid) : Prop :=
  ∃ userId user, sub = some userId ∧ db.get .users userId = some user ∧ User.isActive user = true

structure Accepts (payload : TokenPayload) (i : Nat) (w : World) : Prop where
  timely : payload.Timely w.now
  unrevoked : w.redis.exists' w.now (blacklistKey payload.jti) = false
  active : ActiveSubject (w.view i) payload.sub

def revokedEntry (payload : TokenPayload) (w : World) : Option (RedisValue × Instant) :=
  if payload.Timely w.now ∧ 0 < remainingSeconds (payload.exp * second) w.now then
    some (.revoked, w.now + remainingSeconds (payload.exp * second) w.now * second)
  else w.redis.strings (blacklistKey payload.jti)

section

variable [Library] {i : Nat} {α β : Type} {w w' v : World}

theorem runs_bind_ok {p : Coro α} {f : α → Coro β} {x : α} {b : Except Exn β}
    (hp : ∀ a u, Runs machine i p w a u ↔ a = .ok x ∧ u = v) :
    Runs machine i (p >>= f) w b w' ↔ Runs machine i (f x) v b w' := by
  rw [runs_bind]
  constructor
  · rintro (⟨a, u, hrun, hrest⟩ | ⟨e, hrun, -⟩)
    · obtain ⟨ha, rfl⟩ := (hp _ _).mp hrun
      cases ha
      exact hrest
    · cases ((hp _ _).mp hrun).1
  · exact fun h => Or.inl ⟨x, v, (hp _ _).mpr ⟨rfl, rfl⟩, h⟩

theorem runs_bind_error {p : Coro α} {f : α → Coro β} {e : Exn} {b : Except Exn β}
    (hp : ∀ a u, Runs machine i p w a u ↔ a = .error e ∧ u = v) :
    Runs machine i (p >>= f) w b w' ↔ b = .error e ∧ w' = v := by
  rw [runs_bind]
  constructor
  · rintro (⟨a, u, hrun, -⟩ | ⟨e', hrun, rfl⟩)
    · cases ((hp _ _).mp hrun).1
    · obtain ⟨he, rfl⟩ := (hp _ _).mp hrun
      cases he
      exact ⟨rfl, rfl⟩
  · rintro ⟨rfl, rfl⟩
    exact Or.inr ⟨e, (hp _ _).mpr ⟨rfl, rfl⟩, rfl⟩

theorem runs_isTokenRevoked {jti : Str} {a : Except Exn Bool} (hredis : w.faults.redis = false) :
    Runs machine i (isTokenRevoked jti) w a w' ↔
      a = .ok (w.redis.exists' w.now (blacklistKey jti)) ∧
        w' = w.log i
          (.redisExists (blacklistKey jti) (w.redis.exists' w.now (blacklistKey jti))) := by
  refine runs_perform.trans ?_
  simp [machine, exec, failed, hredis]

def World.revoke (w : World) (i : Nat) (jti : Str) (exp : Instant) : World :=
  if 0 < remainingSeconds exp w.now then
    { w.log i (.redisSet (blacklistKey jti)) with
      redis := w.redis.set w.now (blacklistKey jti) .revoked (remainingSeconds exp w.now) }
  else w

theorem runs_revokeToken {jti : Str} {exp : Instant} {a : Except Exn Unit}
    (hredis : w.faults.redis = false) :
    Runs machine i (revokeToken jti exp) w a w' ↔ a = .ok () ∧ w' = w.revoke i jti exp := by
  rw [revokeToken, runs_bind_ok (fun a u => runs_clock)]
  unfold World.revoke
  dsimp only
  split
  · refine runs_perform.trans ?_
    simp [machine, exec, failed, hredis]
  · exact runs_pure

omit [Library] in
theorem World.revoke_entry {payload : TokenPayload} (htimely : payload.Timely w.now) :
    (w.revoke i payload.jti (payload.exp * second)).redis.strings (blacklistKey payload.jti) =
      revokedEntry payload w ∧ (w.revoke i payload.jti (payload.exp * second)).now = w.now := by
  unfold revoke revokedEntry
  split <;> simp_all [Redis.set, World.log]

theorem runs_createJwtToken {userId : Uuid} {tokenType : Str} {delta : Int} {a : Except Exn Token}
    (h : Runs machine i (createJwtToken userId tokenType delta) w a w') :
    (∃ token, a = .ok token) ∧ w'.redis = w.redis ∧ w'.now = w.now := by
  rcases runs_bind.mp h with ⟨jti, u, hid, hrest⟩ | ⟨e, hid, -⟩
  · obtain ⟨_, -, -, rfl⟩ := runs_perform.mp hid
    rw [runs_bind_ok (fun _ _ => runs_clock), runs_bind_ok (fun _ _ => runs_clock)] at hrest
    obtain ⟨rfl, rfl⟩ := runs_pure.mp hrest
    exact ⟨⟨_, rfl⟩, rfl, rfl⟩
  · obtain ⟨_, -, he, -⟩ := runs_perform.mp hid
    cases he

theorem runs_generateTokenPair {userId : Uuid} {a : Except Exn TokenResponse}
    (h : Runs machine i (generateTokenPair userId) w a w') :
    (∃ tokens, a = .ok tokens) ∧ w'.redis = w.redis ∧ w'.now = w.now := by
  rcases runs_bind.mp h with ⟨access, u, hfirst, hrest⟩ | ⟨e, hfirst, -⟩
  · obtain ⟨-, hredis, hnow⟩ := runs_createJwtToken hfirst
    rcases runs_bind.mp hrest with ⟨refresh, u', hsecond, hend⟩ | ⟨e, hsecond, -⟩
    · obtain ⟨-, hredis', hnow'⟩ := runs_createJwtToken hsecond
      obtain ⟨rfl, rfl⟩ := runs_pure.mp hend
      exact ⟨⟨_, rfl⟩, hredis'.trans hredis, hnow'.trans hnow⟩
    · obtain ⟨⟨_, he⟩, -⟩ := runs_createJwtToken hsecond
      cases he
  · obtain ⟨⟨_, he⟩, -⟩ := runs_createJwtToken hfirst
    cases he

variable {token : Token} {payload : TokenPayload}

theorem runs_decoded (hpayload : token.payload = some payload) {a : Except Exn TokenPayload} :
    Runs machine i (tryCatch (decodeJwtToken token) fun e =>
      if e = .jwtError then throw invalidToken else throw e) w a w' ↔
      a = (if payload.Timely w.now then .ok payload else .error invalidToken) ∧ w' = w := by
  rw [runs_tryCatch]
  simp only [runs_decodeJwtToken, decodedAt, hpayload]
  by_cases htimely : payload.Timely w.now
  · simp only [htimely, if_true]
    constructor
    · rintro (⟨x, ⟨hx, rfl⟩, rfl⟩ | ⟨e, u, ⟨he, -⟩, -⟩)
      · exact ⟨hx, rfl⟩
      · cases he
    · rintro ⟨rfl, rfl⟩
      exact Or.inl ⟨payload, ⟨rfl, rfl⟩, rfl⟩
  · simp only [htimely, if_false]
    constructor
    · rintro (⟨x, ⟨hx, -⟩, -⟩ | ⟨e, u, ⟨he, rfl⟩, hrun⟩)
      · cases hx
      · cases he
        exact runs_throw.mp hrun
    · rintro ⟨rfl, rfl⟩
      exact Or.inr ⟨.jwtError, w', ⟨rfl, rfl⟩, runs_throw.mpr ⟨rfl, rfl⟩⟩

/-- What a refresh call that runs alone answers, and what it leaves in the blacklist. -/
theorem runs_refreshTokens (hpayload : token.payload = some payload)
    (htype : payload.type = refreshType) (hredis : w.faults.redis = false)
    (hdatabase : w.faults.database = false) {a : Except Exn TokenResponse}
    (h : Runs machine i (AuthService.refreshTokens token) w a w') :
    (Accepts payload i w ∧ (∃ tokens, a = .ok tokens) ∧ w'.now = w.now ∧
      w'.redis.strings (blacklistKey payload.jti) = revokedEntry payload w) ∨
    (¬ Accepts payload i w ∧ ∃ e, a = .error e) := by
  unfold AuthService.refreshTokens at h
  by_cases htimely : payload.Timely w.now
  case neg =>
    rw [runs_bind_error (fun _ _ => by rw [runs_decoded hpayload, if_neg htimely])] at h
    exact Or.inr ⟨fun ha => htimely ha.timely, _, h.1⟩
  rw [runs_bind_ok (fun _ _ => by rw [runs_decoded hpayload, if_pos htimely])] at h
  simp only [htype, ne_eq, not_true_eq_false, if_false] at h
  rw [runs_bind_ok (fun _ _ => runs_isTokenRevoked hredis)] at h
  cases hlive : w.redis.exists' w.now (blacklistKey payload.jti) with
  | true =>
    rw [hlive] at h
    exact Or.inr ⟨fun ha => Bool.noConfusion (hlive.symm.trans ha.unrevoked), _,
      (runs_throw.mp h).1⟩
  | false =>
    rw [hlive] at h
    simp only [Bool.false_eq_true, if_false] at h
    let v := w.log i (.redisExists (blacklistKey payload.jti) false)
    have hget : ∀ userId a u, Runs machine i (sessionGet .users userId) v a u ↔
        a = .ok ((w.view i).get .users userId) ∧ u = v := by
      intro userId a u
      have hup : ¬ Down v a := fun hdown => Bool.noConfusion (hdatabase.symm.trans hdown.1)
      rw [runs_sessionGet, or_iff_left hup, and_comm]
      rfl
    cases hsub : payload.sub with
    | none =>
      simp only [hsub] at h
      refine Or.inr ⟨fun ha => ?_, _, (runs_throw.mp h).1⟩
      obtain ⟨userId, _, hsome, -⟩ := ha.active
      cases hsub.symm.trans hsome
    | some userId =>
      simp only [hsub] at h
      rw [runs_bind_ok (hget userId)] at h
      cases huser : (w.view i).get .users userId with
      | none =>
        simp only [huser] at h
        refine Or.inr ⟨fun ha => ?_, _, (runs_throw.mp h).1⟩
        obtain ⟨_, _, hsome, hstored, -⟩ := ha.active
        cases hsub.symm.trans hsome
        cases huser.symm.trans hstored
      | some user =>
        simp only [huser] at h
        by_cases hactive : User.isActive user = true
        · simp only [hactive, Bool.not_true, Bool.false_eq_true, if_false] at h
          have hup : v.faults.redis = false := hredis
          rw [runs_bind_ok (fun _ _ => runs_revokeToken hup)] at h
          obtain ⟨hok, hredis', hnow'⟩ := runs_generateTokenPair h
          have hentry := World.revoke_entry (i := i) (w := v) htimely
          refine Or.inl ⟨⟨htimely, hlive, userId, user, hsub, huser, hactive⟩, hok,
            hnow'.trans hentry.2, ?_⟩
          rw [hredis']
          exact hentry.1
        · simp only [hactive] at h
          refine Or.inr ⟨fun ha => hactive ?_, _, (runs_throw.mp h).1⟩
          obtain ⟨_, _, hsome, hstored, hactive'⟩ := ha.active
          cases hsub.symm.trans hsome
          cases huser.symm.trans hstored
          exact hactive'

/-- What a logout that runs alone answers, and what it leaves in the blacklist. A token whose
time has not come is not revoked. -/
theorem runs_logout (hpayload : token.payload = some payload) (htype : payload.type = refreshType)
    (hredis : w.faults.redis = false) {a : Except Exn Unit}
    (h : Runs machine i (AuthService.logout token) w a w') :
    a = .ok () ∧ w'.now = w.now ∧
      w'.redis.strings (blacklistKey payload.jti) = revokedEntry payload w := by
  have hbody : ∀ b u, Runs machine i (do
      let payload ← decodeJwtToken token
      if payload.type = refreshType then revokeToken payload.jti (payload.exp * second)) w b u ↔
      if payload.Timely w.now then b = .ok () ∧ u = w.revoke i payload.jti (payload.exp * second)
      else b = .error .jwtError ∧ u = w := by
    intro b u
    have hdecoded : ∀ x v, Runs machine i (decodeJwtToken token) w x v ↔
        x = (if payload.Timely w.now then .ok payload else .error .jwtError) ∧ v = w :=
      fun x v => by rw [runs_decodeJwtToken, decodedAt, hpayload]
    split
    · next htimely =>
      rw [runs_bind_ok (fun x v => by rw [hdecoded, if_pos htimely])]
      simp only [htype, if_true]
      exact runs_revokeToken hredis
    · next huntimely => exact runs_bind_error fun x v => by rw [hdecoded, if_neg huntimely]
  rcases runs_tryCatch.mp h with ⟨x, hrun, rfl⟩ | ⟨e, u, hrun, hcaught⟩
  · have hend := (hbody _ _).mp hrun
    split at hend
    · next htimely =>
      obtain ⟨-, rfl⟩ := hend
      exact ⟨rfl, (World.revoke_entry htimely).2, (World.revoke_entry htimely).1⟩
    · cases hend.1
  · have hend := (hbody _ _).mp hrun
    split at hend
    · cases hend.1
    · next huntimely =>
      obtain ⟨-, rfl⟩ := hend
      obtain ⟨rfl, rfl⟩ := runs_pure.mp hcaught
      exact ⟨rfl, rfl, by rw [revokedEntry, if_neg fun h => huntimely h.1]⟩

def Revoking (token : Token) (i : Nat) (w w' : World) : Prop :=
  (∃ tokens, Runs machine i (AuthService.refreshTokens token) w (.ok tokens) w') ∨
    Runs machine i (AuthService.logout token) w (.ok ()) w'

def Rejected (a : Except Exn TokenResponse) : Prop := ∃ e, a = .error e

omit [Library] in
theorem Redis.exists_iff {redis : Redis} {now : Instant} {key : Str} :
    redis.exists' now key = true ↔
      ∃ v expires, redis.strings key = some (v, expires) ∧ now < expires := by
  unfold exists' get
  cases redis.strings key with
  | none => simp
  | some x => by_cases hlive : now < x.2 <;> simp [hlive, Prod.ext_iff]

omit [Library] in
theorem remainingSeconds_pos {exp now : Int} (h : now < exp) :
    0 ≤ remainingSeconds exp now ∧ (0 < remainingSeconds exp now ↔ now + second ≤ exp) := by
  unfold remainingSeconds second
  rw [Int.tdiv_eq_ediv_of_nonneg (by omega)]
  omega

omit [Library] in
/-- How long the entry of a revocation is seen. -/
theorem revokedEntry_live {redis : Redis} {later : Instant} (hexp : w.now < payload.exp * second)
    (hlater : w.now ≤ later)
    (hentry : redis.strings (blacklistKey payload.jti) = revokedEntry payload w) :
    redis.exists' later (blacklistKey payload.jti) = true ↔
      (payload.Timely w.now ∧
        later < w.now + remainingSeconds (payload.exp * second) w.now * second) ∨
      ((payload.Timely w.now → payload.exp * second < w.now + second) ∧
        w.redis.exists' later (blacklistKey payload.jti) = true) := by
  obtain ⟨hnonneg, hpos⟩ := remainingSeconds_pos hexp
  rw [Redis.exists_iff, hentry]
  unfold revokedEntry
  by_cases htimely : payload.Timely w.now
  case neg => simp [htimely, Redis.exists_iff]
  split
  · next hstored =>
    have hlong := hpos.mp hstored.2
    simp [htimely, not_lt.mpr hlong]
  · next hnothing =>
    have hnone : ¬ 0 < remainingSeconds (payload.exp * second) w.now := fun h =>
      hnothing ⟨htimely, h⟩
    have hshort : payload.exp * second < w.now + second := not_le.mp (mt hpos.mpr hnone)
    have hzero : remainingSeconds (payload.exp * second) w.now = 0 :=
      le_antisymm (not_lt.mp hnone) hnonneg
    simp [htimely, hshort, hzero, not_lt.mpr hlater, Redis.exists_iff]

/-- After the revocation at `w.now` a later call is rejected if and only if it comes before
the whole seconds have passed that the token had left, or not before it expires. A logout with
a token whose time has not come revokes nothing. -/
theorem revocation_lasts {w₁ w₂ w₃ : World} {j : Nat} {a : Except Exn TokenResponse}
    (hpayload : token.payload = some payload) (htype : payload.type = refreshType)
    (hredis : w.faults.redis = false) (hdatabase : w.faults.database = false)
    (hexp : w.now < payload.exp * second) (hfirst : Revoking token i w w₁)
    (hlater : w.now ≤ w₂.now) (hredis' : w₂.faults.redis = false)
    (hdatabase' : w₂.faults.database = false)
    (hkept : w₂.redis.strings (blacklistKey payload.jti) =
      w₁.redis.strings (blacklistKey payload.jti))
    (hsecond : Runs machine j (AuthService.refreshTokens token) w₂ a w₃) :
    Rejected a ↔ ¬ payload.Timely w₂.now ∨
      (payload.Timely w.now ∧
        w₂.now < w.now + remainingSeconds (payload.exp * second) w.now * second) ∨
      ((payload.Timely w.now → payload.exp * second < w.now + second) ∧
        w.redis.exists' w₂.now (blacklistKey payload.jti) = true) ∨
      ¬ ActiveSubject (w₂.view j) payload.sub := by
  have hentry : w₁.redis.strings (blacklistKey payload.jti) = revokedEntry payload w := by
    rcases hfirst with ⟨tokens, hrun⟩ | hrun
    · rcases runs_refreshTokens hpayload htype hredis hdatabase hrun with
        ⟨-, -, -, hentry⟩ | ⟨-, _, he⟩
      · exact hentry
      · cases he
    · exact (runs_logout hpayload htype hredis hrun).2.2
  have haccepts : Rejected a ↔ ¬ Accepts payload j w₂ := by
    rcases runs_refreshTokens hpayload htype hredis' hdatabase' hsecond with
      ⟨haccepts, ⟨tokens, rfl⟩, -⟩ | ⟨hrefuses, he⟩
    · exact ⟨nofun, fun hnot => absurd haccepts hnot⟩
    · exact ⟨fun _ => hrefuses, fun _ => he⟩
  have hlive := revokedEntry_live hexp hlater (hkept.trans hentry)
  rw [haccepts]
  constructor
  · intro hnot
    by_contra hall
    simp only [not_or, not_not] at hall
    obtain ⟨htimely, hlapsed, hold, hactive⟩ := hall
    exact hnot ⟨htimely, Bool.eq_false_iff.mpr fun h => (hlive.mp h).elim hlapsed hold, hactive⟩
  · rintro (huntimely | hshort | hold | hgone) haccepts
    · exact huntimely haccepts.timely
    · exact Bool.noConfusion ((hlive.mpr (Or.inl hshort)).symm.trans haccepts.unrevoked)
    · exact Bool.noConfusion ((hlive.mpr (Or.inr hold)).symm.trans haccepts.unrevoked)
    · exact hgone haccepts.active

end

section

open scoped Ascii

def accountAt (now : Instant) : World := { annsAccount.state with now := now }

def refreshedLater (now later : Instant) (p : Except Exn TokenResponse → Bool) : Bool :=
  ((AuthService.logout annsRefresh).alone scheduler 0 false 10 (accountAt now)).any fun r =>
    decide (r.1 = .ok ()) && !r.2.faults.redis && !r.2.faults.database &&
      ((AuthService.refreshTokens annsRefresh).alone scheduler 1 false 20
        { r.2 with now := later }).any fun s => p s.1

theorem refreshedLater_runs (now later : Instant) (p : Except Exn TokenResponse → Bool)
    (h : refreshedLater now later p = true) : ∃ w₁ a w₃,
      Revoking annsRefresh 0 (accountAt now) w₁ ∧ w₁.faults.redis = false ∧
      w₁.faults.database = false ∧
      Runs machine 1 (AuthService.refreshTokens annsRefresh) { w₁ with now := later } a w₃ ∧
      p a = true := by
  obtain ⟨⟨b, w₁⟩, hfirst, h⟩ := (Option.any_eq_true _ _).mp h
  simp only [Bool.and_eq_true, Bool.not_eq_true', decide_eq_true_eq] at h
  obtain ⟨⟨⟨rfl, hredis⟩, hdatabase⟩, h⟩ := h
  obtain ⟨⟨a, w₃⟩, hsecond, ha⟩ := (Option.any_eq_true _ _).mp h
  exact ⟨w₁, a, w₃, Or.inr (Prog.alone_runs hfirst), hredis, hdatabase, Prog.alone_runs hsecond, ha⟩

/-- One and a half seconds before it expires the token is revoked for one second. -/
theorem rejected_in_time : ∃ w₁ a w₃, Revoking annsRefresh 0 (accountAt 998500000) w₁ ∧
    Runs machine 1 (AuthService.refreshTokens annsRefresh) { w₁ with now := 999400000 } a w₃ ∧
    Rejected a := by
  obtain ⟨w₁, a, w₃, hfirst, hredis, hdatabase, hsecond, -⟩ :=
    refreshedLater_runs 998500000 999400000 (fun _ => true) (by decide +kernel)
  have hpayload : annsRefresh.payload = some annsPayload := rfl
  have hlater : (accountAt 998500000).now ≤ ({ w₁ with now := 999400000 } : World).now :=
    (by decide : (998500000 : Int) ≤ 999400000)
  refine ⟨w₁, a, w₃, hfirst, hsecond, (revocation_lasts hpayload rfl (by decide +kernel)
    (by decide +kernel) (by decide) hfirst hlater hredis hdatabase rfl hsecond).mpr ?_⟩
  have hshort : (999400000 : Int) < 998500000 +
    remainingSeconds (annsPayload.exp * second) 998500000 * second := by decide
  exact Or.inr (Or.inl ⟨by decide +kernel, hshort⟩)

/-- Then it is accepted again. -/
theorem revocation_lapses : ¬ ∀ (token : Token) (payload : TokenPayload) (i j : Nat)
    (w w₁ w₂ w₃ : World) (a : Except Exn TokenResponse), token.payload = some payload →
    payload.type = refreshType → w.faults = noFaults → payload.Timely w.now →
    Revoking token i w w₁ → w.now ≤ w₂.now → w₂.faults.redis = false →
    w₂.redis.strings (blacklistKey payload.jti) = w₁.redis.strings (blacklistKey payload.jti) →
    Runs machine j (AuthService.refreshTokens token) w₂ a w₃ → Rejected a := by
  intro hall
  obtain ⟨w₁, a, w₃, hfirst, hredis, -, hsecond, ha⟩ := refreshedLater_runs 998500000 999700000
    (fun a => match a with | .ok _ => true | .error _ => false) (by decide +kernel)
  have hlater : (accountAt 998500000).now ≤ ({ w₁ with now := 999700000 } : World).now :=
    (by decide : (998500000 : Int) ≤ 999700000)
  obtain ⟨e, rfl⟩ := hall annsRefresh annsPayload 0 1 (accountAt 998500000) w₁
    { w₁ with now := 999700000 } w₃ a rfl rfl (by decide +kernel) (by decide +kernel) hfirst
    hlater hredis
    rfl hsecond
  cases ha

end

end MultiTenantSaas
