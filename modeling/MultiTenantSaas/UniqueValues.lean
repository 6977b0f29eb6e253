import MultiTenantSaas.Deletions

/-!
Unique values: the requests that insert one, and the rules for a program that looks for a
value before it inserts it, while other sessions commit.
-/

set_option autoImplicit false

namespace MultiTenantSaas

open Process

def Request.target : Request → Option Table
  | .register _ _ => some .users
  | .tenant _ _ (.inviteMember _) => some .organizationMembers
  | .tenant _ _ (.createTeam _) => some .teams
  | .tenant _ _ (.addTeamMember _ _) => some .teamMembers
  | .tenant _ _ (.createProject _) => some .projects
  | _ => none

def Request.looks : Request → Bool
  | .register _ _ | .tenant _ _ (.inviteMember _) | .tenant _ _ (.createProject _) => true
  | _ => false

def Request.Wants [Library] (db : Db) (k : UniqueKey) : Request → Prop
  | .register _ payload => k = .userEmail (normalizeEmail payload.email.text)
  | .tenant _ o (.inviteMember payload) => ∃ user : User, user ∈ db.rows .users ∧
      user.email = normalizeEmail payload.email.text ∧ k = .orgMemberUser o user.id
  | .tenant _ o (.createTeam payload) =>
    k = .teamOrgSlug o (strip (Library.lower payload.slug.text))
  | .tenant _ _ (.addTeamMember teamId payload) => k = .teamMemberUser teamId payload.userId
  | .tenant _ o (.createProject payload) =>
    k = .projectOrgKey o (strip (Library.upper payload.key.text))
  | _ => False

def Db.Holds (db : Db) (k : UniqueKey) : Prop :=
  ∃ (t : Table) (r : t.Row), r ∈ db.rows t ∧ t.uniqueKey r = some k

def Request.Inserts (r : Request) : Op → Prop
  | .insert t _ => r.target = some t
  | _ => False

/-- An operation between the last look and the end of the INSERT; `register` draws a salt
after it has looked. -/
def Request.Nears (r : Request) : Op → Prop
  | .insert t _ => r.target = some t
  | .uuid4 => True
  | _ => False

/-- A request that does not look inserts a value that no row has, and no value is committed
that another request has found free and is about to insert. -/
def Spared [Library] (c : AppConfig) : AppLabel → Prop
  | .act i (.insert t values) => ∀ r rest, c.thread i = some ⟨r, .call (.insert t values) rest⟩ →
    r.target = some t → r.looks = false → ∀ k, r.Wants c.state.db k → ¬ c.state.db.Holds k
  | .act j .commit => ∀ i r o rest, i ≠ j → c.thread i = some ⟨r, .call o rest⟩ →
    r.looks = true → r.Nears o → ∀ e ∈ c.state.rows j, ∀ k, e.uniqueKey = some k →
    ¬ r.Wants c.state.db k
  | _ => True

def World.Unwritten (i : Nat) (w : World) : Prop := ∀ d ∈ w.commits, d.session ≠ i

def Exn.EntityConflict (e : Exn) : Prop := ∃ message, e = .entityConflict message

/-- How a request is refused before it inserts: the caller or the row it names is not
there, the rate limit is reached, or a service does not answer. -/
def Request.Refusal (faults : Faults) : Request → Exn → Prop
  | .tenant _ _ request, e =>
    e ∈ [credentialsException, inactiveUser, notAMember, insufficientRole request.minRole] ∨
    (∃ entity id, e = .entityNotFound entity id) ∨ (faults.database = true ∧ e = .unavailable)
  | _, e => (∃ detail headers, e = .http 429 detail headers) ∨
    ((faults.database || faults.redis) = true ∧ e = .unavailable)

def Awaits [Library] (c : AppConfig) (i : Nat) (r : Request) : Prop :=
  c.thread i = none ∨ ∃ p, c.thread i = some ⟨r, p⟩ ∧ ¬ p.All fun o => ¬ r.Inserts o

/-- How requests that insert a unique value are answered when all steps meet `ok`. -/
structure DuplicatesTold [Library] (faults : Faults) (ok : AppConfig → AppLabel → Prop)
    (c : AppConfig) : Prop where
  /-- An INSERT fails for a row that it refers to or for its primary key, not for its value. -/
  inserts : ∀ i r t values rest w, c.thread i = some ⟨r, .call (.insert t values) rest⟩ →
    r.target = some t → ok c (.act i (.insert t values)) →
    exec i (.insert t values) c.state (.error .integrityError) w →
    ∃ id, c.state.db.uniqueFree t (values id c.state.now) = true ∧
      (c.state.db.refsExist t (values id c.state.now) = false ∨
        (c.state.db.get t (t.id (values id c.state.now))).isSome)
  /-- A request that is still to insert a value that a row has is told so, unless it is
  refused for another reason. -/
  duplicates : ∀ i r k c' a, Awaits c i r → r.Wants c.state.db k → c.state.db.Holds k →
    Reach app ok c c' → c'.thread i = some ⟨r, .done a⟩ →
    ∃ e, a = .error e ∧ (e.EntityConflict ∧ c'.state.Unwritten i ∨ r.Refusal faults e)
  /-- A request that is told so wanted a value that a row has. -/
  conflicts : ∀ i r e, r.target.isSome → c.thread i = some ⟨r, .done (.error e)⟩ →
    e.EntityConflict → (∃ k, r.Wants c.state.db k ∧ c.state.db.Holds k) ∧ c.state.Unwritten i

theorem Table.uniqueKey_frozen (t : Table) (r : t.Row) :
    t.uniqueKey (t.frozen r) = t.uniqueKey r := by
  cases t <;> rfl

theorem Db.Holds.mono {db db' : Db} {k : UniqueKey} (h : db.Holds k) (he : Extends db db') :
    db'.Holds k := by
  obtain ⟨t, r, hr, hk⟩ := h
  obtain ⟨r', hr', hf⟩ := he.mem_frozen hr
  exact ⟨t, r', hr', by rw [← t.uniqueKey_frozen r', hf, t.uniqueKey_frozen, hk]⟩

theorem Db.Holds.of_apply {db : Db} {es : List Entry} {k : UniqueKey} (h : (db.apply es).Holds k) :
    db.Holds k ∨ ∃ e ∈ es, e.uniqueKey = some k := by
  obtain ⟨t, r, hr, hk⟩ := h
  rcases Db.mem_apply hr with he | ⟨hold, -⟩
  · exact Or.inr ⟨⟨t, r⟩, he, hk⟩
  · exact Or.inl ⟨t, r, hold, hk⟩

theorem Table.eq_of_uniqueKey {t u : Table} {r : t.Row} {z : u.Row} {k : UniqueKey}
    (hr : t.uniqueKey r = some k) (hz : u.uniqueKey z = some k) : t = u := by
  cases t <;> cases u <;> simp only [Table.uniqueKey, Option.some.injEq, reduceCtorEq] at hr hz <;>
    first | rfl | (subst hr; simp at hz)

theorem Db.holds_iff {db : Db} {t : Table} {r : t.Row} {k : UniqueKey}
    (hr : t.uniqueKey r = some k) :
    db.Holds k ↔ ∃ z ∈ db.rows t, t.uniqueKey z = some k := by
  constructor
  · rintro ⟨u, z, hz, hk⟩
    obtain rfl := Table.eq_of_uniqueKey hr hk
    exact ⟨z, hz, hk⟩
  · rintro ⟨z, hz, hk⟩
    exact ⟨t, z, hz, hk⟩

theorem Db.not_holds_of_rows {db : Db} {t : Table} {r : t.Row} {k : UniqueKey} {p : t.Row → Bool}
    (hr : t.uniqueKey r = some k) (hp : ∀ z, t.uniqueKey z = some k → p z = true)
    (h : rowsWhere t p db = []) : ¬ db.Holds k := by
  rw [Db.holds_iff hr]
  rintro ⟨z, hz, hk⟩
  exact List.not_mem_nil (h ▸ mem_rowsWhere.mpr ⟨hz, hp z hk⟩)

theorem Db.uniqueFree_of_not_holds {db : Db} {t : Table} {r : t.Row} {k : UniqueKey}
    (hk : t.uniqueKey r = some k) (h : ¬ db.Holds k) : db.uniqueFree t r = true := by
  rw [Db.uniqueFree, hk, Option.all_some, List.all_eq_true]
  intro z hz
  rw [Bool.or_eq_true]
  exact Or.inr (decide_eq_true fun hzk => h ⟨t, z, hz, hzk⟩)

section

variable {α β : Type} {r : Request}

theorem Exn.OfCall.not_conflict {e : Exn} (h : e.OfCall) : ¬ e.EntityConflict := by
  rintro ⟨message, rfl⟩
  simp [Exn.OfCall, Exn.entityConflict] at h

structure Done (r : Request) {α : Type} (p : Coro α) : Prop where
  all : Prog.All (S := sig) (fun o => ¬ r.Inserts o) p
  fails : FailsWith (fun e => ¬ e.EntityConflict) p

theorem Done.bind {p : Coro α} {f : α → Coro β} (hp : Done r p) (hf : ∀ a, Done r (f a)) :
    Done r (p >>= f) :=
  ⟨hp.all.bind fun a => (hf a).all, fails_bind hp.fails fun a => (hf a).fails⟩

theorem done_pure {a : α} : Done r (pure a : Coro α) := ⟨trivial, fails_pure⟩

theorem done_throw {e : Exn} (he : ¬ e.EntityConflict) : Done r (throw e : Coro α) :=
  ⟨trivial, fails_throw he⟩

theorem done_ask {o : Op} (ho : ¬ r.Inserts o) (hfails : ∀ a, OpFails o a → ∀ e, a = .error e →
    e.OfCall) : Done r (ask o) :=
  ⟨⟨ho, fun _ => trivial⟩, fails_ask fun a h e he => (hfails a h e he).not_conflict⟩

theorem done_silent_all {p : Coro α} (hp : Silent p) :
    Prog.All (S := sig) (fun o => ¬ r.Inserts o) p :=
  hp.mono fun o ho hin => by cases o <;> first | exact hin | cases ho

theorem done_silent {p : Coro α} (hp : Silent p)
    (hfails : FailsWith (fun e => ¬ e.EntityConflict) p) : Done r p := ⟨done_silent_all hp, hfails⟩

theorem done_select {ρ : Type} (q : Db → List ρ) : Done r (ask (.select q)) :=
  done_ask (fun h => h) fun _ h => h

theorem done_selectOne {ρ : Type} (q : Db → List ρ) : Done r (selectOne q) :=
  done_silent (silent_selectOne q) (fails_selectOne fun _ he => he.not_conflict)

theorem done_refresh (t : Table) (id : Uuid) : Done r (refresh t id) :=
  done_silent (silent_refresh t id) <| fails_bind (fails_selectOne fun _ he => he.not_conflict)
    fun row => by
      cases row with
      | none => exact fails_throw (by rintro ⟨_, h⟩; simp [Exn.entityConflict] at h)
      | some row => exact fails_pure

theorem done_rollback : Done r (ask .rollback) := done_ask (fun h => h) fun _ h => h

theorem done_commit : Done r (ask .commit) := done_ask (fun h => h) fun _ h => h

end

section

variable [Library] {faults : Faults} {now : Instant} {c c' : AppConfig} {r : Request}
  {db db' : Db} {k k' : UniqueKey}

theorem Request.Wants.mono (h : r.Wants db k) (he : Extends db db') : r.Wants db' k := by
  unfold Request.Wants at h ⊢
  split at h
  case h_2 o payload =>
    obtain ⟨user, huser, hrest⟩ := h
    exact ⟨user, he.mem (fun _ => rfl) huser, hrest⟩
  all_goals exact h

theorem Request.Wants.unique (hdb : db.Distinct) (h : r.Wants db k) (h' : r.Wants db k') :
    k = k' := by
  unfold Request.Wants at h h'
  split at h
  case h_2 o payload =>
    obtain ⟨user, huser, hemail, rfl⟩ := h
    obtain ⟨user', huser', hemail', rfl⟩ := h'
    have hsame : user = user' := hdb .users user user' huser huser' (.userEmail user.email) rfl
      (by simp [Table.uniqueKey, hemail, hemail'])
    rw [hsame]
  case h_6 => exact h.elim
  all_goals exact h.trans h'.symm

/-- What a session may count on between two of its operations. -/
structure Waits (i : Nat) (w w' : World) : Prop where
  db : Extends w.db w'.db
  rows : w'.rows i = w.rows i
  unwritten : w.Unwritten i → w'.Unwritten i

omit [Library] in
theorem Waits.refl (i : Nat) (w : World) : Waits i w w := ⟨Extends.refl _, rfl, fun h => h⟩

omit [Library] in
theorem Waits.trans {i : Nat} {w w' w'' : World} (h : Waits i w w') (h' : Waits i w' w'') :
    Waits i w w'' :=
  ⟨h.db.trans h'.db, h'.rows.trans h.rows, fun hw => h'.unwritten (h.unwritten hw)⟩

/-- While a request that has looked is about to insert, the values it wants stay free; and
what it inserts is a value it wants. -/
def insertContract : Contract sig Request World where
  inv _ := True
  fresh i w := w.rows i = [] ∧ w.Unwritten i
  rely i r o w w' := Waits i w w' ∧ (r.looks = true → r.Nears o → ∀ k, r.Wants w.db k →
    ¬ w.db.Holds k → ¬ w'.db.Holds k)
  guar i r o w w' := (∃ a, exec i o w a w') ∧ ∀ t values, o = .insert t values →
    r.target = some t → w.rows i = [] ∧ ∃ k, r.Wants w.db k ∧
      (∀ id now, t.uniqueKey (values id now) = some k) ∧ (r.looks = true → ¬ w.db.Holds k)

/-- The request ends in a conflict only if a row has the value it wants. -/
def ToldRight (i : Nat) (r : Request) {α : Type} (a : Except Exn α) (w : World) : Prop :=
  ∀ e, a = .error e → e.EntityConflict → (∃ k, r.Wants w.db k ∧ w.db.Holds k) ∧ w.Unwritten i

abbrev Careful (i : Nat) (r : Request) {α : Type} (p : Coro α) (w : World) : Prop :=
  wp machine insertContract i r p (ToldRight i r) w

variable {i : Nat} {w w' : World} {α β : Type}

theorem ToldRight.mono {a : Except Exn α} (h : ToldRight i r a w) (hdb : Extends w.db w'.db)
    (hunwritten : w.Unwritten i → w'.Unwritten i) : ToldRight i r a w' := by
  intro e he hc
  obtain ⟨⟨k, hwants, hholds⟩, hu⟩ := h e he hc
  exact ⟨⟨k, hwants.mono hdb, hholds.mono hdb⟩, hunwritten hu⟩

theorem toldRight_of {a : Except Exn α} (h : ∀ e, a = .error e → ¬ e.EntityConflict) :
    ToldRight i r a w := fun e he hc => absurd hc (h e he)

omit [Library] in
theorem World.Unwritten.executed {o : Op} (h : w.Unwritten i) (ho : o ≠ .commit)
    (he : World.Executed i o w w') : w'.Unwritten i := by
  rcases he.history with ⟨-, hc⟩ | ⟨hcommit, -⟩
  · intro d hd
    exact h d (hc ▸ hd)
  · exact absurd hcommit ho

theorem waits_quiet {o : Op} {a : Except Exn o.Resp} (ho : o.quiet = true)
    (he : exec i o w a w') : Waits i w w' := by
  have hne : o ≠ .commit := by
    rintro rfl
    cases ho
  have hexec := World.executed he
  refine ⟨?_, (hexec.later_self ho).rows_eq, fun h => h.executed hne hexec⟩
  rcases hexec.history with ⟨hdb, -⟩ | ⟨hcommit, -⟩
  · exact hdb ▸ Extends.refl _
  · exact absurd hcommit hne

theorem Done.wp {p : Coro α} (h : Done r p) :
    wp machine insertContract i r p (fun a _ => ∀ e, a = .error e → ¬ e.EntityConflict) w := by
  obtain ⟨hall, hfails⟩ := h
  induction p generalizing w with
  | done a => exact hfails
  | call o k ih =>
    intro w₁ _ _ a w₂ he
    refine ⟨⟨⟨a, he⟩, fun t values ho ht => ?_⟩, ih a (hall.2 a) (hfails a (opFails_exec he))⟩
    subst ho
    exact absurd ht hall.1

theorem careful_done {p : Coro α} (h : Done r p) : Careful i r p w :=
  wp_mono (fun _ _ ha => toldRight_of ha) h.wp

theorem careful_throw {e : Exn} {f : α → Coro β} (h : ToldRight i r (.error e : Except Exn β) w) :
    Careful i r ((throw e : Coro α) >>= f) w := h

theorem wp_waits {p : Coro α} {E : Except Exn α → Prop} (hp : Silent p)
    (hends : Prog.Ends (S := sig) OpFails E p) :
    wp machine insertContract i r p (fun a w' => Waits i w w' ∧ E a) w := by
  suffices h : ∀ v, Waits i w v → wp machine insertContract i r p
      (fun a w' => Waits i w w' ∧ E a) v from h w (.refl i w)
  induction p with
  | done a => exact fun v hv => ⟨hv, hends⟩
  | call o k ih =>
    intro v hv w₁ hrely _ a w₂ he
    refine ⟨⟨⟨a, he⟩, fun t values ho _ => ?_⟩, ih a (hp.2 a) (hends a (opFails_exec he)) w₂ ?_⟩
    · subst ho
      cases hp.1
    · exact (hv.trans hrely.1).trans (waits_quiet (Op.quiet_of_silent hp.1) he)

theorem careful_bind {p : Coro α} {f : α → Coro β} (hp : Silent p)
    (hfails : FailsWith (fun e => ¬ e.EntityConflict) p)
    (hf : ∀ a w', Waits i w w' → Careful i r (f a) w') : Careful i r (p >>= f) w := by
  refine (wp_bind p f _ w).mpr (wp_mono (fun a w' h => ?_) (wp_waits hp hfails))
  cases a with
  | ok a => exact hf a w' h.1
  | error e => exact toldRight_of fun e' he => h.2 e' (by cases he; rfl)

theorem careful_ite {c : Prop} [Decidable c] {p q : Coro α} (hp : c → Careful i r p w)
    (hq : ¬ c → Careful i r q w) : Careful i r (if c then p else q) w := by
  split
  · next h => exact hp h
  · next h => exact hq h

theorem careful_selectOne {ρ : Type} {q : Db → List ρ} {f : Option ρ → Coro β}
    (hrows : w.rows i = []) (hnone : ∀ w', Waits i w w' → q w'.db = [] → Careful i r (f none) w')
    (hsome : ∀ x w', Waits i w w' → x ∈ q w'.db → Careful i r (f (some x)) w') :
    Careful i r (selectOne q >>= f) w := by
  refine (wp_bind _ f _ w).mpr ((wp_bind _ _ _ w).mpr ?_)
  intro w₁ hrely _ a w₂ he
  refine ⟨⟨⟨a, he⟩, fun _ _ ho => nomatch ho⟩, ?_⟩
  obtain ⟨rfl, ⟨rows, rfl, hperm⟩ | ⟨-, rfl⟩⟩ := he
  · rw [World.view_of_rows (hrely.1.rows.trans hrows)] at hperm
    match rows, hperm with
    | [], hperm => exact hnone _ hrely.1 (List.nil_perm.mp hperm)
    | [x], hperm => exact hsome x _ hrely.1 (hperm.subset List.mem_cons_self)
    | _ :: _ :: _, _ =>
      exact toldRight_of fun e he => by
        cases he
        exact Exn.OfCall.not_conflict (by simp [Exn.OfCall])
  · exact toldRight_of fun e he => by
      cases he
      exact Exn.OfCall.not_conflict (by simp [Exn.OfCall])

theorem careful_draw {f : Uuid → Coro β} (hlooks : r.looks = true) (hwants : r.Wants w.db k)
    (hfree : ¬ w.db.Holds k)
    (hf : ∀ u w', Waits i w w' → ¬ w'.db.Holds k → Careful i r (f u) w') :
    Careful i r (ask .uuid4 >>= f) w := by
  refine (wp_bind _ f _ w).mpr ?_
  intro w₁ hrely _ a w₂ he
  have hwaits : Waits i w₁ w₂ := waits_quiet (o := .uuid4) rfl he
  refine ⟨⟨⟨a, he⟩, fun _ _ ho => nomatch ho⟩, ?_⟩
  obtain ⟨u, -, rfl, rfl⟩ := he
  exact hf u _ (hrely.1.trans hwaits) (hrely.2 hlooks trivial k hwants hfree)

theorem careful_insert {t : Table} {values : Uuid → Instant → t.Row} {f : t.Row → Coro β}
    (ht : r.target = some t) (hrows : w.rows i = []) (hwants : r.Wants w.db k)
    (hkey : ∀ id now, t.uniqueKey (values id now) = some k)
    (hfree : r.looks = true → ¬ w.db.Holds k) (hf : ∀ a, Done r (f a)) :
    Careful i r (ask (.insert t values) >>= f) w := by
  refine (wp_bind _ f _ w).mpr ?_
  intro w₁ hrely _ a w₂ he
  refine ⟨⟨⟨a, he⟩, fun u values' ho _ => ?_⟩, ?_⟩
  · cases ho
    exact ⟨hrely.1.rows.trans hrows, k, hwants.mono hrely.1.db, hkey,
      fun hlooks => hrely.2 hlooks ht k hwants (hfree hlooks)⟩
  · cases a with
    | ok a => exact careful_done (hf a)
    | error e =>
      refine toldRight_of fun e' he' => ?_
      cases he'
      exact (opFails_exec (o := .insert t values) he e rfl).not_conflict

theorem careful_create {t : Table} {values : Uuid → Instant → t.Row} {f : t.Row → Coro β}
    (ht : r.target = some t) (hrows : w.rows i = []) (hwants : r.Wants w.db k)
    (hkey : ∀ id now, t.uniqueKey (values id now) = some k)
    (hfree : r.looks = true → ¬ w.db.Holds k) (hf : ∀ a, Done r (f a)) :
    Careful i r (create t values >>= f) w := by
  rw [create, Prog.bind_assoc]
  exact careful_insert ht hrows hwants hkey hfree fun row => (done_refresh t _).bind hf

theorem careful_rethrow {e : Exn} (h : ToldRight i r (.error e : Except Exn α) w) :
    Careful i r (do ask .rollback; throw e : Coro α) w := by
  refine (wp_bind _ _ _ w).mpr ?_
  intro w₁ hrely _ a w₂ he
  refine ⟨⟨⟨a, he⟩, fun _ _ ho => nomatch ho⟩, ?_⟩
  have hexec := World.executed (o := .rollback) he
  obtain ⟨rfl, rfl⟩ := he
  exact h.mono hrely.1.db fun hu => (hrely.1.unwritten hu).executed (by simp) hexec

theorem careful_recover {p : Coro α} (h : Careful i r p w) :
    Careful i r (tryCatch p fun e => do ask .rollback; throw e) w := by
  refine (wp_tryCatch p _ _ w).mpr (wp_mono (fun a w' ha => ?_) h)
  cases a with
  | ok a => exact toldRight_of fun e he => nomatch he
  | error e => exact careful_rethrow ha

theorem careful_seq {p : Coro α} {f : α → Coro β} (h : Careful i r p w) (hf : ∀ a, Done r (f a)) :
    Careful i r (p >>= f) w := by
  refine (wp_bind p f _ w).mpr (wp_mono (fun a w' ha => ?_) h)
  cases a with
  | ok a => exact careful_done (hf a)
  | error e => exact fun e' he hc => ha e' (by cases he; rfl) hc

theorem careful_transaction {body : Coro α} (h : Careful i r body w) :
    Careful i r (transaction body) w :=
  careful_recover (careful_seq h fun _ => done_commit.bind fun _ => done_pure)

theorem careful_withDbSession {body : Coro α} (h : Careful i r body w) :
    Careful i r (withDbSession body) w :=
  careful_seq (careful_recover h) fun _ => done_rollback.bind fun _ => done_pure

end

end MultiTenantSaas
