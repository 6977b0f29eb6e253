import MultiTenantSaas.Handlers

/-!
What one request does when nothing runs beside it: the reads and checks of the
admission, as functions of the state they find.
-/

set_option autoImplicit false

namespace MultiTenantSaas

open Process

def oneRow {ρ : Type} : List ρ → Except Exn (Option ρ)
  | [] => .ok none
  | [r] => .ok (some r)
  | _ => .error .multipleResultsFound

theorem oneRow_perm {ρ : Type} {l m : List ρ} (h : l.Perm m) : oneRow l = oneRow m := by
  have hlen := h.length_eq
  match l, m, h with
  | [], [], _ => rfl
  | [x], [y], h => rw [List.singleton_perm_singleton.mp h]
  | _ :: _ :: _, _ :: _ :: _, _ => rfl
  | [], _ :: _, _ | _ :: _, [], _ | [_], _ :: _ :: _, _ | _ :: _ :: _, [_], _ => simp at hlen

theorem oneRow_toList {ρ : Type} (x : Option ρ) : oneRow x.toList = .ok x := by
  cases x <;> rfl

theorem oneRow_error {ρ : Type} {l : List ρ} {e : Exn} (h : oneRow l = .error e) :
    e = .multipleResultsFound := by
  match l, h with
  | _ :: _ :: _, h => exact (Except.error.inj h).symm

theorem selectOne_eq {ρ : Type} (q : Db → List ρ) :
    selectOne q = ask (.select q) >>= fun rows => .done (oneRow rows) := by
  refine congrArg (ask (.select q) >>= ·) (funext fun rows => ?_)
  match rows with
  | [] => rfl
  | [_] => rfl
  | _ :: _ :: _ => rfl

theorem rowsWhere_id (t : Table) (id : Uuid) (db : Db) :
    rowsWhere t (fun r => t.id r = id) db = (db.get t id).toList :=
  Keyed.Rows.filter_key (db.rows t) id

theorem rowsWhere_id_and (t : Table) (id : Uuid) (p : t.Row → Bool) (db : Db) :
    rowsWhere t (fun r => decide (t.id r = id) && p r) db = ((db.get t id).filter p).toList := by
  have hsplit : rowsWhere t (fun r => decide (t.id r = id) && p r) db =
      (rowsWhere t (fun r => decide (t.id r = id)) db).filter p := by
    simp only [rowsWhere, List.filter_filter, Bool.and_comm]
  rw [hsplit, rowsWhere_id]
  cases db.get t id with
  | none => rfl
  | some r => by_cases h : p r = true <;> simp [Option.filter, h]

def decodedAt (token : Token) (now : Instant) : Except Exn TokenPayload :=
  match token.payload with
  | none => .error .jwtError
  | some payload => if payload.Timely now then .ok payload else .error .jwtError

def accessUser (token : Token) (now : Instant) : Option Uuid :=
  match decodedAt token now with
  | .error _ => none
  | .ok payload => if payload.type = access then payload.sub else none

def memberships (db : Db) (o userId : Uuid) : List OrganizationMember :=
  rowsWhere .organizationMembers (fun m => OrganizationMember.organizationId m = o &&
    OrganizationMember.userId m = userId) db

/-- What `get_current_user` decides on what the session sees. -/
def currentUserAt (db : Db) (now : Instant) (bearer : Token) : Except Exn User :=
  match accessUser bearer now with
  | none => .error credentialsException
  | some userId =>
    match db.get .users userId with
    | none => .error inactiveUser
    | some user => if User.isActive user then .ok user else .error inactiveUser

/-- What `RequireRole` decides on what the session sees. -/
def admission (db : Db) (now : Instant) (minRole : OrgRole) (bearer : Token) (o : Uuid) :
    Except Exn TenantContext :=
  match currentUserAt db now bearer with
  | .error e => .error e
  | .ok user =>
    match oneRow (memberships db o user.id) with
    | .error e => .error e
    | .ok none => .error notAMember
    | .ok (some m) =>
      if m.role.level < minRole.level then .error (insufficientRole minRole)
      else .ok ⟨user, o, m.role⟩

section

variable [Library] {i : Nat} {w w' : World}

def Down {α : Type} (w : World) (a : Except Exn α) : Prop := failed w.faults.database a

theorem runs_clock {a : Except Exn Instant} :
    Runs machine i (ask .clock) w a w' ↔ a = .ok w.now ∧ w' = w := runs_perform

theorem runs_select {ρ : Type} {q : Db → List ρ} {a : Except Exn (List ρ)} :
    Runs machine i (ask (.select q)) w a w' ↔
      w' = w ∧ ((∃ rows, a = .ok rows ∧ rows.Perm (q (w.view i))) ∨ Down w a) := runs_perform

theorem runs_selectOne {ρ : Type} {q : Db → List ρ} {a : Except Exn (Option ρ)} :
    Runs machine i (selectOne q) w a w' ↔
      w' = w ∧ (a = oneRow (q (w.view i)) ∨ Down w a) := by
  rw [selectOne_eq, runs_bind]
  constructor
  · rintro (⟨rows, v, hsel, hrun⟩ | ⟨e, hsel, rfl⟩)
    · obtain ⟨rfl, ⟨rows', hr, hp⟩ | ⟨-, hr⟩⟩ := runs_select.mp hsel
      · cases hr
        obtain ⟨rfl, rfl⟩ := runs_done.mp hrun
        exact ⟨rfl, Or.inl (oneRow_perm hp)⟩
      · cases hr
    · obtain ⟨rfl, ⟨rows, hr, -⟩ | ⟨hf, he⟩⟩ := runs_select.mp hsel
      · cases hr
      · exact ⟨rfl, Or.inr ⟨hf, congrArg Except.error (Except.error.inj he)⟩⟩
  · rintro ⟨rfl, rfl | ⟨hf, rfl⟩⟩
    · exact Or.inl ⟨_, _, runs_select.mpr ⟨rfl, Or.inl ⟨_, rfl, List.Perm.refl _⟩⟩,
        runs_done.mpr ⟨rfl, rfl⟩⟩
    · exact Or.inr ⟨_, runs_select.mpr ⟨rfl, Or.inr ⟨hf, rfl⟩⟩, rfl⟩

theorem runs_sessionGet {t : Table} {id : Uuid} {a : Except Exn (Option t.Row)} :
    Runs machine i (sessionGet t id) w a w' ↔
      w' = w ∧ (a = .ok ((w.view i).get t id) ∨ Down w a) := by
  rw [sessionGet, runs_selectOne, rowsWhere_id, oneRow_toList]

theorem runs_getMembership {o userId : Uuid} {a : Except Exn (Option OrganizationMember)} :
    Runs machine i (getMembership o userId) w a w' ↔
      w' = w ∧ (a = oneRow (memberships (w.view i) o userId) ∨ Down w a) := runs_selectOne

theorem runs_decodeJwtToken {token : Token} {a : Except Exn TokenPayload} :
    Runs machine i (decodeJwtToken token) w a w' ↔ a = decodedAt token w.now ∧ w' = w := by
  cases hp : token.payload with
  | none =>
    simp only [decodeJwtToken, decodedAt, hp]
    exact runs_throw
  | some payload =>
    have hcheck : ∀ (now : Instant) (v : World), Runs machine i
        (if payload.Timely now then pure payload else throw .jwtError : Coro TokenPayload)
        v a w' ↔ a = (if payload.Timely now then .ok payload else .error .jwtError) ∧
          w' = v := by
      intro now v
      split
      · exact runs_pure
      · exact runs_throw
    simp only [decodeJwtToken, decodedAt, hp]
    rw [runs_bind]
    constructor
    · rintro (⟨now, v, hclock, hrun⟩ | ⟨e, hclock, -⟩)
      · obtain ⟨hn, rfl⟩ := runs_clock.mp hclock
        cases hn
        exact (hcheck _ _).mp hrun
      · cases (runs_clock.mp hclock).1
    · rintro ⟨rfl, rfl⟩
      exact Or.inl ⟨_, _, runs_clock.mpr ⟨rfl, rfl⟩, (hcheck _ _).mpr ⟨rfl, rfl⟩⟩

/-- Alone, the program answers `x` and changes nothing, unless the database is down. -/
structure Answers {α : Type} (i : Nat) (p : Coro α) (w : World) (x : Except Exn α) : Prop where
  runs : Runs machine i p w x w
  only : ∀ a w', Runs machine i p w a w' → w' = w ∧ (a = x ∨ Down w a)

variable {α β : Type}

theorem answers_pure (a : α) : Answers i (pure a) w (.ok a) :=
  ⟨.done, fun _ _ h => ⟨(runs_pure.mp h).2, Or.inl (runs_pure.mp h).1⟩⟩

theorem answers_throw (e : Exn) : Answers i (throw e : Coro α) w (.error e) :=
  ⟨.done, fun _ _ h => ⟨(runs_throw.mp h).2, Or.inl (runs_throw.mp h).1⟩⟩

theorem answers_bind {p : Coro α} {f : α → Coro β} {a : α} {x : Except Exn β}
    (hp : Answers i p w (.ok a)) (hf : Answers i (f a) w x) : Answers i (p >>= f) w x := by
  refine ⟨runs_bind.mpr (Or.inl ⟨a, w, hp.runs, hf.runs⟩), fun b w' h => ?_⟩
  rcases runs_bind.mp h with ⟨a', v, hrun, hrest⟩ | ⟨e, hrun, rfl⟩
  · obtain ⟨rfl, ha | ⟨-, ha⟩⟩ := hp.only _ _ hrun
    · cases ha
      exact hf.only b w' hrest
    · cases ha
  · obtain ⟨rfl, ha | ⟨hd, ha⟩⟩ := hp.only _ _ hrun
    · cases ha
    · exact ⟨rfl, Or.inr ⟨hd, congrArg Except.error (Except.error.inj ha)⟩⟩

theorem answers_bind_error {p : Coro α} {f : α → Coro β} {e : Exn}
    (hp : Answers i p w (.error e)) : Answers i (p >>= f) w (.error e) := by
  refine ⟨runs_bind.mpr (Or.inr ⟨e, hp.runs, rfl⟩), fun b w' h => ?_⟩
  rcases runs_bind.mp h with ⟨a', v, hrun, -⟩ | ⟨e', hrun, rfl⟩
  · obtain ⟨-, ha | ⟨-, ha⟩⟩ := hp.only _ _ hrun <;> cases ha
  · obtain ⟨rfl, ha | ⟨hd, ha⟩⟩ := hp.only _ _ hrun
    · exact ⟨rfl, Or.inl (congrArg Except.error (Except.error.inj ha))⟩
    · exact ⟨rfl, Or.inr ⟨hd, congrArg Except.error (Except.error.inj ha)⟩⟩

theorem answers_tryCatch {p : Coro α} {h : Exn → Coro α} {x y : Except Exn α}
    (hp : Answers i p w x) (hdown : h .unavailable = throw .unavailable)
    (hh : Answers i (match x with | .ok a => pure a | .error e => h e) w y) :
    Answers i (tryCatch p h) w y := by
  cases x with
  | ok a =>
    have hy : y = .ok a := (runs_pure.mp hh.runs).1
    subst hy
    refine ⟨runs_tryCatch.mpr (Or.inl ⟨a, hp.runs, rfl⟩), fun b w' htry => ?_⟩
    rcases runs_tryCatch.mp htry with ⟨a', hrun, rfl⟩ | ⟨e, v, hrun, hrest⟩
    · obtain ⟨rfl, ha | ⟨-, ha⟩⟩ := hp.only _ _ hrun
      · exact ⟨rfl, Or.inl ha⟩
      · cases ha
    · obtain ⟨rfl, ha | ⟨hd, ha⟩⟩ := hp.only _ _ hrun
      · cases ha
      · cases ha
        rw [hdown] at hrest
        obtain ⟨rfl, rfl⟩ := runs_throw.mp hrest
        exact ⟨rfl, Or.inr ⟨hd, rfl⟩⟩
  | error e =>
    refine ⟨runs_tryCatch.mpr (Or.inr ⟨e, w, hp.runs, hh.runs⟩), fun b w' htry => ?_⟩
    rcases runs_tryCatch.mp htry with ⟨a', hrun, rfl⟩ | ⟨e', v, hrun, hrest⟩
    · obtain ⟨-, ha | ⟨-, ha⟩⟩ := hp.only _ _ hrun <;> cases ha
    · obtain ⟨rfl, ha | ⟨hd, ha⟩⟩ := hp.only _ _ hrun
      · cases ha
        exact hh.only b w' hrest
      · cases ha
        rw [hdown] at hrest
        obtain ⟨rfl, rfl⟩ := runs_throw.mp hrest
        exact ⟨rfl, Or.inr ⟨hd, rfl⟩⟩

theorem answers_decodeJwtToken (token : Token) :
    Answers i (decodeJwtToken token) w (decodedAt token w.now) :=
  ⟨runs_decodeJwtToken.mpr ⟨rfl, rfl⟩, fun _ _ h =>
    ⟨(runs_decodeJwtToken.mp h).2, Or.inl (runs_decodeJwtToken.mp h).1⟩⟩

theorem answers_sessionGet (t : Table) (id : Uuid) :
    Answers i (sessionGet t id) w (.ok ((w.view i).get t id)) :=
  ⟨runs_sessionGet.mpr ⟨rfl, Or.inl rfl⟩, fun _ _ h => runs_sessionGet.mp h⟩

theorem answers_getMembership (o userId : Uuid) :
    Answers i (getMembership o userId) w (oneRow (memberships (w.view i) o userId)) :=
  ⟨runs_getMembership.mpr ⟨rfl, Or.inl rfl⟩, fun _ _ h => runs_getMembership.mp h⟩

theorem answers_accessUser (bearer : Token) :
    Answers i (orCredentialsException (accessSubject bearer)) w
      (match accessUser bearer w.now with
        | none => .error credentialsException
        | some userId => .ok userId) := by
  have hcatch : ∀ e : Exn, e = .jwtError ∨ e = .valueError ∨ e = credentialsException →
      Answers i (if e = .jwtError ∨ e = .valueError then throw credentialsException
        else throw e : Coro Uuid) w (.error credentialsException) := by
    rintro e (rfl | rfl | rfl)
    · exact answers_throw _
    · exact answers_throw _
    · exact answers_throw _
  have hdown : (if (Exn.unavailable = .jwtError ∨ Exn.unavailable = .valueError) then
      throw credentialsException else throw .unavailable : Coro Uuid) = throw .unavailable := rfl
  unfold orCredentialsException accessSubject accessUser
  have hdecode := answers_decodeJwtToken (i := i) (w := w) bearer
  cases hd : decodedAt bearer w.now with
  | error e =>
    have he : e = .jwtError := by
      unfold decodedAt at hd
      split at hd
      · cases hd; rfl
      · split at hd <;> cases hd
        rfl
    rw [hd] at hdecode
    exact answers_tryCatch (x := .error e) (answers_bind_error hdecode) hdown (hcatch e (Or.inl he))
  | ok payload =>
    rw [hd] at hdecode
    by_cases ht : payload.type = access
    · cases hs : payload.sub with
      | none =>
        simp only [ht, if_true, hs]
        refine answers_tryCatch (x := .error .valueError) (answers_bind hdecode ?_) hdown
          (hcatch .valueError (by simp))
        simp only [ht, ne_eq, not_true_eq_false, if_false, hs]
        exact answers_throw _
      | some userId =>
        simp only [ht, if_true, hs]
        refine answers_tryCatch (x := .ok userId) (answers_bind hdecode ?_) hdown
          (answers_pure userId)
        simp only [ht, ne_eq, not_true_eq_false, if_false, hs]
        exact answers_pure userId
    · simp only [ht, if_false]
      refine answers_tryCatch (x := .error credentialsException) (answers_bind hdecode ?_) hdown
        (hcatch credentialsException (by simp))
      simp only [ht, ne_eq, not_false_eq_true, if_true]
      exact answers_throw _

theorem answers_getCurrentUser (bearer : Token) :
    Answers i (getCurrentUser bearer) w (currentUserAt (w.view i) w.now bearer) := by
  have hsubject := answers_accessUser (i := i) (w := w) bearer
  unfold getCurrentUser currentUserAt
  cases hu : accessUser bearer w.now with
  | none =>
    rw [hu] at hsubject
    exact answers_bind_error hsubject
  | some userId =>
    rw [hu] at hsubject
    have hget := answers_sessionGet (i := i) (w := w) .users userId
    refine answers_bind hsubject (answers_bind hget ?_)
    dsimp only
    cases (w.view i).get .users userId with
    | none => exact answers_throw _
    | some user =>
      dsimp only
      split
      · exact answers_pure _
      · exact answers_throw _

theorem answers_requireRole (minRole : OrgRole) (bearer : Token) (o : Uuid) :
    Answers i (requireRole minRole bearer o) w
      (admission (w.view i) w.now minRole bearer o) := by
  have huser := answers_getCurrentUser (i := i) (w := w) bearer
  unfold requireRole admission
  cases hu : currentUserAt (w.view i) w.now bearer with
  | error e =>
    rw [hu] at huser
    exact answers_bind_error huser
  | ok user =>
    rw [hu] at huser
    refine answers_bind huser ?_
    dsimp only
    have hmember := answers_getMembership (i := i) (w := w) o user.id
    cases hm : oneRow (memberships (w.view i) o user.id) with
    | error e =>
      rw [hm] at hmember
      exact answers_bind_error hmember
    | ok m =>
      rw [hm] at hmember
      refine answers_bind hmember ?_
      cases m with
      | none => exact answers_throw _
      | some m =>
        dsimp only
        split
        · exact answers_throw _
        · exact answers_pure _

end

end MultiTenantSaas
