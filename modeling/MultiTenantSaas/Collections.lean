import Mathlib.Data.List.Perm.Basic
import MultiTenantSaas.CommentEdits

/-!
The endpoints that list a whole collection. What they answer alone is a page of a hundred
rows, so it is the collection as long as there are not more.
-/

set_option autoImplicit false

namespace MultiTenantSaas

open Process

section

variable [Library] {i : Nat} {w : World} {α β : Type}

/-- Alone, the program answers with a value of `P` and changes nothing, unless the database
is down. -/
structure Picks (i : Nat) (p : Coro α) (w : World) (P : α → Prop) : Prop where
  runs : ∃ x, P x ∧ Runs machine i p w (.ok x) w
  only : ∀ a w', Runs machine i p w a w' → w' = w ∧ ((∃ x, a = .ok x ∧ P x) ∨ Down w a)

theorem Picks.mono {p : Coro α} {P Q : α → Prop} (h : Picks i p w P) (himp : ∀ x, P x → Q x) :
    Picks i p w Q := by
  obtain ⟨x, hx, hrun⟩ := h.runs
  refine ⟨⟨x, himp x hx, hrun⟩, fun a w' ha => ?_⟩
  obtain ⟨hw, ⟨y, hy, hP⟩ | hdown⟩ := h.only a w' ha
  · exact ⟨hw, Or.inl ⟨y, hy, himp y hP⟩⟩
  · exact ⟨hw, Or.inr hdown⟩

theorem Answers.picks {p : Coro α} {a : α} (h : Answers i p w (.ok a)) : Picks i p w (· = a) := by
  refine ⟨⟨a, rfl, h.runs⟩, fun b w' hb => ?_⟩
  obtain ⟨hw, hab | hdown⟩ := h.only b w' hb
  · exact ⟨hw, Or.inl ⟨a, hab, rfl⟩⟩
  · exact ⟨hw, Or.inr hdown⟩

theorem picks_pure {P : α → Prop} {a : α} (h : P a) : Picks i (pure a) w P :=
  (answers_pure a).picks.mono fun _ hx => hx ▸ h

theorem picks_bind {p : Coro α} {f : α → Coro β} {P : α → Prop} {Q : β → Prop}
    (hp : Picks i p w P) (hf : ∀ a, P a → Picks i (f a) w Q) : Picks i (p >>= f) w Q := by
  obtain ⟨x, hx, hrun⟩ := hp.runs
  obtain ⟨y, hy, hrest⟩ := (hf x hx).runs
  refine ⟨⟨y, hy, runs_bind.mpr (Or.inl ⟨x, w, hrun, hrest⟩)⟩, fun b w' h => ?_⟩
  rcases runs_bind.mp h with ⟨a, v, ha, hb⟩ | ⟨e, he, rfl⟩
  · obtain ⟨rfl, ⟨z, hz, hPz⟩ | ⟨-, hz⟩⟩ := hp.only _ _ ha
    · cases hz
      exact (hf a hPz).only b w' hb
    · cases hz
  · obtain ⟨rfl, ⟨z, hz, -⟩ | ⟨hfaulty, hz⟩⟩ := hp.only _ _ he
    · cases hz
    · exact ⟨rfl, Or.inr ⟨hfaulty, congrArg Except.error (Except.error.inj hz)⟩⟩

theorem picks_select {q : Db → List α} :
    Picks i (ask (.select q)) w fun rows => rows.Perm (q (w.view i)) := by
  refine ⟨⟨_, .refl _, runs_select.mpr ⟨rfl, Or.inl ⟨_, rfl, .refl _⟩⟩⟩, fun a w' h => ?_⟩
  obtain ⟨hw, hrows | hdown⟩ := runs_select.mp h
  · exact ⟨hw, Or.inl hrows⟩
  · exact ⟨hw, Or.inr hdown⟩

theorem picks_forEach {f : α → Coro β} {R : α → β → Prop} {as : List α}
    (hf : ∀ a ∈ as, Picks i (f a) w (R a)) : Picks i (forEach f as) w (List.Forall₂ R as) := by
  induction as with
  | nil => exact picks_pure .nil
  | cons a as ih =>
    have hrest := ih fun x hx => hf x (List.mem_cons_of_mem _ hx)
    exact picks_bind (hf a List.mem_cons_self) fun b hb =>
      picks_bind hrest fun bs hbs => picks_pure (.cons hb hbs)

theorem answers_requireJoined {l : List (α × β)} :
    Answers i (requireJoined (l.map fun x => (x.1, some x.2))) w (.ok l) := by
  induction l with
  | nil => exact answers_pure []
  | cons x l ih => exact answers_bind ih (answers_pure _)

theorem Picks.session {p : Coro α} {P : α → Prop} (h : Picks i p w P) :
    (∃ x w', P x ∧ Runs machine i (withDbSession p) w (.ok x) w') ∧
      ∀ a w', Runs machine i (withDbSession p) w a w' → (∃ x, a = .ok x ∧ P x) ∨ Down w a := by
  obtain ⟨x, hx, hrun⟩ := h.runs
  refine ⟨⟨x, _, hx, runs_withDbSession.mpr ⟨w, hrun, rfl⟩⟩, fun a w' ha => ?_⟩
  cases a with
  | ok a =>
    obtain ⟨v, hbody, -⟩ := runs_withDbSession.mp ha
    obtain ⟨-, hfound⟩ := h.only _ _ hbody
    exact hfound
  | error e =>
    rcases runs_bind.mp ha with ⟨b, v, -, hrest⟩ | ⟨e', htry, he⟩
    · rcases runs_bind.mp hrest with ⟨u, v', -, hend⟩ | ⟨e', hback, -⟩
      · cases (runs_pure.mp hend).1
      · cases (runs_perform.mp hback).1
    · cases he
      rcases runs_tryCatch.mp htry with ⟨b, -, hb⟩ | ⟨e', v, hbody, hthrow⟩
      · cases hb
      · rcases runs_bind.mp hthrow with ⟨u, v', -, hend⟩ | ⟨e'', hback, -⟩
        · cases (runs_throw.mp hend).1
          obtain ⟨-, hfound⟩ := h.only _ _ hbody
          exact hfound
        · cases (runs_perform.mp hback).1

variable {o : Uuid} {ctx : TenantContext}

def Db.rowsOf (db : Db) (t : Table) (o : Uuid) : List t.Row :=
  rowsWhere t (fun r => decide (t.org r = some o)) db

theorem picks_listPaginated {t : Table} (hlive : ∀ r, t.isDeleted r = false) :
    Picks i (listPaginated t o 0 100) w fun page =>
      ∃ rows : List t.Row, rows.Perm ((w.view i).rowsOf t o) ∧ page = rows.take 100 := by
  have hquery : rowsWhere t (inTenant t o false) = fun db : Db => db.rowsOf t o := by
    funext db
    exact congrArg (rowsWhere t · db) (funext fun r => by simp [inTenant, hlive])
  unfold listPaginated
  rw [hquery]
  exact picks_bind picks_select fun rows hrows => picks_pure ⟨rows, hrows, by simp⟩

def MemberShown (db : Db) (m : TeamMember) (entry : TeamMemberResponse) : Prop :=
  ∃ u : User, db.get .users m.userId = some u ∧
    entry = ⟨m.id, m.userId, u.email, u.fullName, m.createdAt⟩

def Db.membersOf (db : Db) (t : Team) : List TeamMember :=
  rowsWhere .teamMembers (fun m => TeamMember.teamId m = t.id) db

/-- The entry of a team, with each of its members once, in whatever order. -/
def TeamShown (db : Db) (t : Team) (entry : TeamResponse) : Prop :=
  ∃ ms members, ms.Perm (db.membersOf t) ∧ List.Forall₂ (MemberShown db) ms members ∧
    entry = ⟨t.id, t.organizationId, t.name, t.slug, t.description, t.createdAt, members⟩

omit [Library] in
theorem memberUser (hclosed : (w.view i).Closed) {m : TeamMember}
    (hm : m ∈ (w.view i).rows .teamMembers) :
    ∃ u : User, (w.view i).get .users m.userId = some u := by
  have hrefs := List.all_eq_true.mp (hclosed .teamMembers m hm)
  exact Option.isSome_iff_exists.mp (hrefs (.users, m.userId) (by simp [Table.refs]))

omit [Library] in
theorem joined_pairs {db : Db} {ms : List TeamMember}
    (hjoined : ∀ m ∈ ms, ∃ u : User, db.get .users m.userId = some u) :
    ∃ pairs : List (TeamMember × User),
      ms.map (fun m => (m, db.get .users m.userId)) = pairs.map (fun x => (x.1, some x.2)) ∧
      List.Forall₂ (fun m x => x.1 = m ∧ db.get .users m.userId = some x.2) ms pairs := by
  induction ms with
  | nil => exact ⟨[], rfl, .nil⟩
  | cons m ms ih =>
    obtain ⟨u, hu⟩ := hjoined m List.mem_cons_self
    obtain ⟨pairs, heq, hall⟩ := ih fun x hx => hjoined x (List.mem_cons_of_mem _ hx)
    exact ⟨(m, u) :: pairs, by simp [heq, hu], .cons ⟨rfl, hu⟩ hall⟩

theorem answers_teamRow {t : Team} (ht : t ∈ (w.view i).rowsOf .teams o) :
    Answers i (selectOne (rowsWhere .teams fun r => Team.id r = t.id && Team.organizationId r = o))
      w (.ok (some t)) := by
  obtain ⟨hmem, horg⟩ := mem_rowsWhere.mp ht
  have hone : oneRow (rowsWhere .teams (fun r => Team.id r = t.id && Team.organizationId r = o)
      (w.view i)) = .ok (some t) := by
    have hget : (w.view i).get .teams t.id = some t := Db.get_eq_some.mpr ⟨hmem, rfl⟩
    have horg : t.organizationId = o := by simpa [Table.org] using horg
    have hrow := rowsWhere_id_and .teams t.id (fun r => decide (Team.organizationId r = o))
      (w.view i)
    rw [hget, Option.filter_some, if_pos (decide_eq_true horg)] at hrow
    exact (congrArg oneRow hrow).trans (oneRow_toList (some t))
  exact ⟨runs_selectOne.mpr ⟨rfl, Or.inl hone.symm⟩, fun a w' h => hone ▸ runs_selectOne.mp h⟩

theorem picks_getTeamDetail (hclosed : (w.view i).Closed) {t : Team}
    (ht : t ∈ (w.view i).rowsOf .teams o) :
    Picks i (TeamService.getTeamDetail o t.id) w (TeamShown (w.view i) t) := by
  have hloaded : Picks i (getTeamWithMembers o t.id) w fun found => ∃ rows : List TeamMember,
      rows.Perm ((w.view i).membersOf t) ∧
        found = some (t, rows.map fun m => (m, (w.view i).get .users m.userId)) := by
    refine picks_bind (answers_teamRow ht).picks fun found hfound => ?_
    subst hfound
    refine picks_bind picks_select fun joined hjoined => picks_pure ?_
    obtain ⟨rows, rfl, hrows⟩ :=
      (congrFun (congrFun (List.eq_map_comp_perm _) joined) _).mpr hjoined
    exact ⟨rows, hrows, rfl⟩
  refine picks_bind hloaded fun found ⟨rows, hrows, hfound⟩ => ?_
  subst hfound
  obtain ⟨pairs, hpairs, hall⟩ := joined_pairs fun m hm =>
    memberUser hclosed (mem_rowsWhere.mp (hrows.subset hm)).1
  have hjoin : Answers i (requireJoined (rows.map fun m => (m, (w.view i).get .users m.userId))) w
      (.ok pairs) := hpairs ▸ answers_requireJoined
  refine picks_bind hjoin.picks fun members hmembers => picks_pure ?_
  subst hmembers
  refine ⟨rows, _, hrows, ?_, rfl⟩
  refine List.forall₂_map_right_iff.mpr (hall.imp fun m x ⟨hx, hu⟩ => ?_)
  subst hx
  exact ⟨x.2, hu, rfl⟩

theorem picks_listTeams (hclosed : (w.view i).Closed) :
    Picks i (Endpoints.listTeams ctx) w fun entries => ∃ teams : List Team,
      teams.Perm ((w.view i).rowsOf .teams ctx.organizationId) ∧
        List.Forall₂ (TeamShown (w.view i)) (teams.take 100) entries := by
  refine picks_bind (picks_listPaginated fun _ => rfl) fun page ⟨teams, hteams, hpage⟩ => ?_
  subst hpage
  refine Picks.mono (picks_forEach fun t ht => picks_getTeamDetail hclosed ?_)
    fun entries hentries => ⟨teams, hteams, hentries⟩
  exact hteams.subset (List.mem_of_mem_take ht)

theorem picks_listProjects :
    Picks i (Endpoints.listProjects ctx) w fun entries => ∃ projects : List Project,
      projects.Perm ((w.view i).rowsOf .projects ctx.organizationId) ∧
        entries = (projects.take 100).map ProjectResponse.ofProject := by
  refine picks_bind (picks_listPaginated fun _ => rfl) fun page ⟨projects, hprojects, hpage⟩ => ?_
  subst hpage
  exact picks_pure ⟨projects, hprojects, rfl⟩

theorem Picks.request {bearer : Token} {req : TenantRequest} {P : Response → Prop}
    (hctx : admission (w.view i) w.now req.minRole bearer o = .ok ctx)
    (h : Picks i (req.endpoint ctx) w P) :
    (∃ x w', P x ∧ Runs machine i (Request.tenant bearer o req).handle w (.ok x) w') ∧
      ∀ a w', Runs machine i (Request.tenant bearer o req).handle w a w' →
        (∃ x, a = .ok x ∧ P x) ∨ Down w a := by
  have hrole := answers_requireRole (i := i) (w := w) req.minRole bearer o
  rw [hctx] at hrole
  refine Picks.session (picks_bind hrole.picks fun found hfound => ?_)
  rw [hfound]
  exact h

/-- The answer is all projects of the tenant, each once. -/
def ProjectsListed (db : Db) (o : Uuid) (a : Except Exn Response) : Prop :=
  ∃ entries, a = .ok (.projects entries) ∧ ∃ projects : List Project,
    projects.Perm (db.rowsOf .projects o) ∧ entries = projects.map ProjectResponse.ofProject

/-- The answer is all teams of the tenant, each once and with its own members. -/
def TeamsListed (db : Db) (o : Uuid) (a : Except Exn Response) : Prop :=
  ∃ entries, a = .ok (.teams entries) ∧ ∃ teams : List Team,
    teams.Perm (db.rowsOf .teams o) ∧ List.Forall₂ (TeamShown db) teams entries

theorem projectsListed_iff (hrows : w.rows i = []) {bearer : Token}
    (hctx : admission w.db w.now .viewer bearer o = .ok ctx) :
    (∀ a w', Runs machine i (Request.tenant bearer o .listProjects).handle w a w' →
      ProjectsListed w.db o a ∨ Down w a) ↔ (w.db.rowsOf .projects o).length ≤ 100 := by
  have hview := World.view_of_rows hrows
  have horg := admission_org hctx
  have hendpoint : Picks i (TenantRequest.listProjects.endpoint ctx) w fun x =>
      ∃ projects : List Project, projects.Perm (w.db.rowsOf .projects o) ∧
        x = .projects ((projects.take 100).map ProjectResponse.ofProject) := by
    refine picks_bind picks_listProjects fun entries ⟨projects, hprojects, hentries⟩ => ?_
    rw [hview, horg] at hprojects
    exact picks_pure ⟨projects, hprojects, by rw [hentries]⟩
  have hguard : admission (w.view i) w.now .viewer bearer o = .ok ctx := by rwa [hview]
  obtain ⟨⟨x, w₁, ⟨projects, hprojects, rfl⟩, hrun⟩, honly⟩ := hendpoint.request hguard
  constructor
  · intro hall
    obtain ⟨entries, hx, all, hperm, rfl⟩ | ⟨-, hx⟩ := hall _ _ hrun
    · have hlength := congrArg List.length (Response.projects.inj (Except.ok.inj hx))
      simp only [List.length_map, List.length_take, hprojects.length_eq, hperm.length_eq] at hlength
      omega
    · cases hx
  · intro hfew a w' ha
    obtain ⟨y, rfl, all, hperm, rfl⟩ | hdown := honly a w' ha
    · refine Or.inl ⟨_, rfl, all, hperm, ?_⟩
      rw [List.take_of_length_le (hperm.length_eq ▸ hfew)]
    · exact Or.inr hdown

theorem teamsListed_iff (hclosed : w.db.Closed) (hrows : w.rows i = []) {bearer : Token}
    (hctx : admission w.db w.now .viewer bearer o = .ok ctx) :
    (∀ a w', Runs machine i (Request.tenant bearer o .listTeams).handle w a w' →
      TeamsListed w.db o a ∨ Down w a) ↔ (w.db.rowsOf .teams o).length ≤ 100 := by
  have hview := World.view_of_rows hrows
  have horg := admission_org hctx
  have hendpoint : Picks i (TenantRequest.listTeams.endpoint ctx) w fun x =>
      ∃ (teams : List Team) (entries : List TeamResponse),
        teams.Perm (w.db.rowsOf .teams o) ∧
        List.Forall₂ (TeamShown w.db) (teams.take 100) entries ∧ x = .teams entries := by
    refine picks_bind (picks_listTeams (by rwa [hview])) fun entries ⟨teams, hteams, hshown⟩ => ?_
    rw [hview] at hteams hshown
    rw [horg] at hteams
    exact picks_pure ⟨teams, entries, hteams, hshown, rfl⟩
  have hguard : admission (w.view i) w.now .viewer bearer o = .ok ctx := by rwa [hview]
  obtain ⟨⟨x, w₁, ⟨teams, entries, hteams, hshown, rfl⟩, hrun⟩, honly⟩ :=
    hendpoint.request hguard
  constructor
  · intro hall
    obtain ⟨entries', hx, all, hperm, hall'⟩ | ⟨-, hx⟩ := hall _ _ hrun
    · cases hx
      have hlength := hshown.length_eq.trans hall'.length_eq.symm
      simp only [List.length_take, hteams.length_eq, hperm.length_eq] at hlength
      omega
    · cases hx
  · intro hfew a w' ha
    obtain ⟨y, rfl, all, entries', hperm, hall', rfl⟩ | hdown := honly a w' ha
    · rw [List.take_of_length_le (hperm.length_eq ▸ hfew)] at hall'
      exact Or.inl ⟨_, rfl, all, hperm, hall'⟩
    · exact Or.inr hdown

/-- The listings are whole, for each tenant, exactly as long as a page holds them. -/
theorem collections_listed {faults : Faults} {now : Instant} {c : AppConfig}
    (h : Reach app anySchedule (genesis faults now) c) (hidle : c.thread i = none)
    {bearer : Token} (hctx : admission c.state.db c.state.now .viewer bearer o = .ok ctx) :
    ((∀ a w', Runs machine i (Request.tenant bearer o .listProjects).handle c.state a w' →
        ProjectsListed c.state.db o a ∨ Down c.state a) ↔
      (c.state.db.rowsOf .projects o).length ≤ 100) ∧
    ((∀ a w', Runs machine i (Request.tenant bearer o .listTeams).handle c.state a w' →
        TeamsListed c.state.db o a ∨ Down c.state a) ↔
      (c.state.db.rowsOf .teams o).length ≤ 100) :=
  ⟨projectsListed_iff (reached_fresh h hidle) hctx,
    teamsListed_iff (reached_sound h).wellFormed.refs (reached_fresh h hidle) hctx⟩

end

section

open scoped Ascii

def teamSlug (k : Nat) : Bounded 2 100 :=
  ⟨hexDigits 2 k, by simp [hexDigits_length], by simp [hexDigits_length]⟩

def annsTeam (k : Nat) : Request :=
  asAnn (.createTeam ⟨⟨"Team".toList, by decide, by decide⟩, teamSlug k, none⟩)

def annsRegistration : List AppMove :=
  solo 0 (registration "ann@example.org".toList ann_short)

def annsTeams : Nat → World
  | 0 => (runMoves (genesis noFaults 0) annsRegistration).state
  | n + 1 =>
    match (annsTeam n).handle.alone scheduler (n + 1) false 40 (annsTeams n) with
    | some (_, w) => w
    | none => annsTeams n

theorem annsRegistration_reached : Reach app anySchedule (genesis noFaults 0)
    (runMoves (genesis noFaults 0) annsRegistration) := runMoves_any fun _ => rfl

theorem annsTeams_reached (n : Nat) : ∃ c : AppConfig,
    Reach app anySchedule (genesis noFaults 0) c ∧ c.state = annsTeams n ∧
      ∀ i, n < i → c.thread i = none := by
  induction n with
  | zero =>
    have hidle : ∀ i, (genesis noFaults 0).thread i = none := fun _ => rfl
    refine ⟨_, annsRegistration_reached, rfl, fun i hi => ?_⟩
    cases ht : (runMoves (genesis noFaults 0) annsRegistration).thread i with
    | none => rfl
    | some t =>
      have hstart : .start i t.req ∈ annsRegistration := runMoves_req hidle ht
      unfold annsRegistration at hstart
      have hzero := (start_mem_solo.mp hstart).1
      omega
  | succ n ih =>
    obtain ⟨c, hreach, hstate, hidle⟩ := ih
    unfold annsTeams
    split
    · next a w halone =>
      have hruns := Prog.alone_runs halone
      have harrived : Reach app anySchedule c (c.setThread (n + 1)
          ⟨annsTeam n, (annsTeam n).handle⟩ c.state) :=
        .step .refl trivial (.start (hidle _ n.lt_succ_self))
      obtain ⟨c', hserved, hw, hothers⟩ := Runs.reach (M := app) (r := annsTeam n)
        (c := c.setThread (n + 1) ⟨annsTeam n, (annsTeam n).handle⟩ c.state) hruns hstate
        (Config.thread_setThread _ _ _ _)
      refine ⟨c', hreach.trans (harrived.trans hserved), hw, fun i hi => ?_⟩
      have hne : i ≠ n + 1 := by omega
      rw [hothers i hne]
      exact (Function.update_of_ne hne _ _).trans (hidle i (by omega))
    · exact ⟨c, hreach, hstate, fun i hi => hidle i (by omega)⟩

def annAdmitted (w : World) : Bool :=
  match admission w.db w.now .viewer (signedToken (drawnId 2) access 1000) (drawnId 4) with
  | .ok _ => true
  | .error _ => false

theorem annAdmitted_ctx {w : World} (h : annAdmitted w = true) : ∃ ctx,
    admission w.db w.now .viewer (signedToken (drawnId 2) access 1000) (drawnId 4) = .ok ctx := by
  unfold annAdmitted at h
  split at h
  · next ctx hctx => exact ⟨ctx, hctx⟩
  · cases h

theorem annsTeams_listed : ∃ (c : AppConfig) (i : Nat), c.state = annsTeams 2 ∧
    (∀ a w', Runs machine i (asAnn .listProjects).handle c.state a w' →
      ProjectsListed c.state.db (drawnId 4) a ∨ Down c.state a) ∧
    (∀ a w', Runs machine i (asAnn .listTeams).handle c.state a w' →
      TeamsListed c.state.db (drawnId 4) a ∨ Down c.state a) := by
  obtain ⟨c, hreach, hstate, hidle⟩ := annsTeams_reached 2
  have hadmitted : annAdmitted c.state = true := by
    rw [hstate]
    decide +kernel
  obtain ⟨ctx, hctx⟩ := annAdmitted_ctx hadmitted
  have hlisted := collections_listed hreach (hidle 3 (by decide)) hctx
  refine ⟨c, 3, hstate, hlisted.1.mpr ?_, hlisted.2.mpr ?_⟩
  · rw [hstate]
    decide +kernel
  · rw [hstate]
    decide +kernel

/-- Of a hundred and one teams one is not listed. -/
theorem collections_not_listed : ¬ ∀ (faults : Faults) (now : Instant) (c : AppConfig) (i : Nat)
    (bearer : Token) (o : Uuid) (ctx : TenantContext) (a : Except Exn Response) (w' : World),
    Reach app anySchedule (genesis faults now) c → c.thread i = none →
    admission c.state.db c.state.now .viewer bearer o = .ok ctx →
    (Runs machine i (Request.tenant bearer o .listProjects).handle c.state a w' →
      ProjectsListed c.state.db o a ∨ Down c.state a) ∧
    (Runs machine i (Request.tenant bearer o .listTeams).handle c.state a w' →
      TeamsListed c.state.db o a ∨ Down c.state a) := by
  intro hall
  obtain ⟨c, hreach, hstate, hidle⟩ := annsTeams_reached 101
  have hidle : c.thread 102 = none := hidle 102 (by decide)
  have hmany : annAdmitted (annsTeams 101) &&
      ((annsTeams 101).db.rowsOf .teams (drawnId 4)).length == 101 := by decide +kernel
  rw [← hstate, Bool.and_eq_true, beq_iff_eq] at hmany
  obtain ⟨ctx, hctx⟩ := annAdmitted_ctx hmany.1
  have hfew := (teamsListed_iff (reached_sound hreach).wellFormed.refs (reached_fresh hreach hidle)
    hctx).mp fun a w' => (hall _ _ c 102 _ _ ctx a w' hreach hidle hctx).2
  omega

end

end MultiTenantSaas
