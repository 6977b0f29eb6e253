import MultiTenantSaas.Ghost
import MultiTenantSaas.StatusAudit

/-!
Freshness of the project cache. A reader stores what it selected in a later command, so
the deletion of an update can come before an older copy is stored.
-/

set_option autoImplicit false

namespace MultiTenantSaas

open Process

def ProjectCall (projectId : Uuid) : Request → Prop
  | .tenant _ _ (.getProject id) | .tenant _ _ (.updateProject id _) => id = projectId
  | _ => False

/-- No update deletes the cached copy while a reader is about to store one that is older
than what the update wrote, and none commits while another update that expects an older
version is between its SELECT and its flush. -/
def Undelayed (key : Str) (projectId : Uuid) (c : AppConfig) : AppLabel → Prop
  | .act i (.redisDelete key') => key' = key → ∀ r p n, c.thread i = some ⟨r, p⟩ →
    r.projectVersion = some n → ∀ j s copy ex k,
    c.thread j = some ⟨s, .call (Op.redisSet key (.project copy) ex) k⟩ → n < copy.versionId
  | .act i .commit => ∀ r p n, c.thread i = some ⟨r, p⟩ → r.projectVersion = some n →
    ∀ j s m set k, c.thread j = some ⟨s, .call (Op.flushUpdate .projects projectId set) k⟩ →
    s.projectVersion = some m → n ≤ m
  | _ => True

/-- A read that starts in `c₁` or later and has been answered in `c₂` finds every update
that had been answered in `c₁`. -/
def ReadsFresh (o projectId : Uuid) (c₁ c₂ : AppConfig) : Prop :=
  ∀ i bearer payload updated j bearer' read,
    c₁.thread i = some ⟨.tenant bearer o (.updateProject projectId payload),
      .done (.ok (.project updated))⟩ → c₁.thread j = none →
    c₂.thread j = some ⟨.tenant bearer' o (.getProject projectId),
      .done (.ok (.project read))⟩ → updated.versionId ≤ read.versionId

def StoredFrom (projectId : Uuid) (v : Int) (w : World) : Prop :=
  ∃ project : Project, w.db.get .projects projectId = some project ∧ v ≤ project.versionId

def StoredUpTo (projectId : Uuid) (v : Int) (w : World) : Prop :=
  ∀ project : Project, w.db.get .projects projectId = some project → project.versionId ≤ v

/-- The world with a floor: no version below it is stored or cached. -/
abbrev Floored := World × Int

structure AboveFloor (key : Str) (projectId : Uuid) (s : Floored) : Prop where
  redis : s.1.faults.redis = false
  stored : ∀ project : Project, s.1.db.get .projects projectId = some project →
    s.2 ≤ project.versionId
  cached : ∀ copy expires, s.1.redis.strings key = some (.project copy, expires) →
    s.2 ≤ copy.versionId

/-- The deletion of the cached copy raises the floor to what the update wrote. -/
def raised (key : Str) (version : Nat → Int) (i : Nat) : Op → Int → Int
  | .redisDelete key', floor => if key' = key then max floor (version i) else floor
  | _, floor => floor

theorem le_raised (key : Str) (version : Nat → Int) (i : Nat) (o : Op) (floor : Int) :
    floor ≤ raised key version i o floor := by
  unfold raised
  split
  · split
    · exact le_max_left _ _
    · exact le_refl _
  · exact le_refl _

structure Waiting (key : Str) (projectId : Uuid) (i : Nat) (r : Request) (o : Op)
    (s s' : Floored) : Prop where
  later : Later i s.1 s'.1
  floor : s.2 ≤ s'.2
  stored : ∀ v, StoredFrom projectId v s.1 → StoredFrom projectId v s'.1
  copy : ∀ copy ex, o = .redisSet key (.project copy) ex → s.2 ≤ copy.versionId →
    s'.2 ≤ copy.versionId
  flush : ∀ set n, o = .flushUpdate .projects projectId set → r.projectVersion = some n →
    StoredUpTo projectId (n + 1) s.1 → StoredUpTo projectId (n + 1) s'.1

def FloorStep (key : Str) (projectId : Uuid) (version : Nat → Int) (i : Nat) (r : Request)
    (s : Floored) : Op → Prop
  | .redisSet key' (.project copy) _ => key' = key → s.2 ≤ copy.versionId
  | .redisDelete key' => key' = key → ∃ n, r.projectVersion = some n ∧ version i = n + 1 ∧
    StoredFrom projectId (n + 1) s.1
  | .commit => ∃ n, r.projectVersion = some n ∧ (∃ current : Project,
    s.1.db.get .projects projectId = some current ∧ current.versionId ≤ n + 1) ∧
    ∀ project : Project, (⟨.projects, project⟩ : Entry) ∈ s.1.rows i → project.id = projectId →
      project.versionId = n + 1
  | _ => True

section

variable [Library]

def flooredApp (key : Str) (version : Nat → Int) :
    Process.System sig Exn Response Request Floored := app.ghost (raised key version)

def floorContract (key : Str) (projectId : Uuid) (version : Nat → Int) :
    Contract sig Request Floored where
  inv := AboveFloor key projectId
  fresh i s := s.1.rows i = []
  rely := Waiting key projectId
  guar i r o s s' := (∃ a, exec i o s.1 a s'.1) ∧ s'.2 = raised key version i o s.2 ∧
    FloorStep key projectId version i r s o

/-- `p` keeps the contract, and if it answers without an exception then `Q` holds; it
raises an exception only if `E` holds. -/
def Serving (key : Str) (projectId : Uuid) (version : Nat → Int) (i : Nat) (r : Request) (E : Prop)
    {α : Type} (p : Coro α) (Q : α → Floored → Prop) (s : Floored) : Prop :=
  wp (flooredApp key version).toMachine (floorContract key projectId version) i r p
    (andThen Q fun _ _ => E) s

variable {key : Str} {projectId : Uuid} {version : Nat → Int} {i : Nat} {r : Request} {E : Prop}
  {α β : Type} {s : Floored}

theorem serving_throw {e : Exn} {Q : α → Floored → Prop} :
    Serving key projectId version i r True (throw e : Coro α) Q s := trivial

theorem serving_bind {p : Coro α} {f : α → Coro β} {Q : β → Floored → Prop}
    (h : Serving key projectId version i r E p
      (fun a => Serving key projectId version i r E (f a) Q) s) :
    Serving key projectId version i r E (p >>= f) Q s := (wp_bind p f _ s).mpr h

theorem serving_tryCatch {p : Coro α} {h : Exn → Coro α} {Q : α → Floored → Prop}
    (hp : Serving key projectId version i r True p Q s)
    (hh : ∀ e s, Serving key projectId version i r E (h e) Q s) :
    Serving key projectId version i r E (tryCatch p h) Q s := by
  refine (wp_tryCatch p h _ s).mpr (wp_mono (fun a s => ?_) hp)
  cases a with
  | ok a => exact fun h => h
  | error e => exact fun _ => hh e s

theorem serving_orDefault {d : α} {p : Coro α} {Q : α → Floored → Prop}
    (hp : Serving key projectId version i r False p Q s) :
    Serving key projectId version i r E (orDefault d p) Q s := by
  refine (wp_tryCatch p _ _ s).mpr (wp_mono (fun a s => ?_) hp)
  cases a with
  | ok a => exact fun h => h
  | error e => exact False.elim

theorem serving_ask {o : Op} {Q : o.Resp → Floored → Prop}
    (h : ∀ s₁, Waiting key projectId i r o s s₁ → AboveFloor key projectId s₁ →
      FloorStep key projectId version i r s₁ o ∧ ∀ a w', exec i o s₁.1 a w' →
        andThen Q (fun _ _ => E) a (w', raised key version i o s₁.2)) :
    Serving key projectId version i r E (ask o) Q s := by
  rintro s₁ hwait hinv a ⟨w', floor⟩ ⟨he, hfloor⟩
  obtain ⟨hstep, hQ⟩ := h s₁ hwait hinv
  cases hfloor
  exact ⟨⟨⟨a, he⟩, rfl, hstep⟩, hQ a w' he⟩

def Op.looksUp : Op → Bool
  | .clock | .select _ => true
  | _ => false

theorem serving_looksUp {p : Coro α} {Q : α → Floored → Prop}
    (hp : Prog.All (S := sig) (fun o => Op.looksUp o = true) p)
    (hQ : ∀ a s', s'.1.rows i = s.1.rows i → s.2 ≤ s'.2 → Q a s') :
    Serving key projectId version i r True p Q s := by
  induction p generalizing s with
  | done a =>
    cases a with
    | ok a => exact hQ a s rfl (le_refl _)
    | error e => trivial
  | call o k ih =>
    rintro s₁ hwait - a ⟨w', floor⟩ ⟨he, hfloor⟩
    cases hfloor
    obtain ⟨ho, hk⟩ := hp
    have hkept : w' = s₁.1 ∧ raised key version i o s₁.2 = s₁.2 ∧
        FloorStep key projectId version i r s₁ o := by
      cases o <;> first
        | exact ⟨he.2, rfl, trivial⟩
        | exact ⟨he.1, rfl, trivial⟩
        | cases ho
    obtain ⟨rfl, hsame, hstep⟩ := hkept
    refine ⟨⟨⟨a, he⟩, rfl, hstep⟩, ih a (hk a) fun b s' hrows hfloor => hQ b s' ?_ ?_⟩
    · exact hrows.trans hwait.later.rows_eq
    · exact hwait.floor.trans (hsame ▸ hfloor)

theorem serving_getById {t : Table} {o id : Uuid} {f : Option t.Row → Coro α}
    {Q : α → Floored → Prop} {e : Exn} (hrows : s.1.rows i = []) (hnone : f none = throw e)
    (hsome : ∀ x s', s'.1.rows i = [] → AboveFloor key projectId s' → s.2 ≤ s'.2 →
      s'.1.db.get t id = some x → Serving key projectId version i r True (f (some x)) Q s') :
    Serving key projectId version i r True (getById t o id >>= f) Q s := by
  refine serving_bind (serving_bind (serving_ask fun s₁ hwait hinv =>
    ⟨trivial, fun a w' he => ?_⟩))
  obtain ⟨rfl, ⟨rows, rfl, hperm⟩ | ⟨-, rfl⟩⟩ := he
  case inr => trivial
  have hrows₁ := hwait.later.rows_eq.trans hrows
  rw [World.view_of_rows hrows₁] at hperm
  match rows, hperm with
  | [], _ =>
    change Serving key projectId version i r True (f none) Q _
    rw [hnone]
    exact serving_throw
  | [x], hperm =>
    have hx := mem_rowsWhere.mp (hperm.subset List.mem_cons_self)
    refine hsome x _ hrows₁ hinv hwait.floor (Db.get_eq_some.mpr ⟨hx.1, ?_⟩)
    exact of_decide_eq_true (Bool.and_eq_true_iff.mp hx.2).1
  | _ :: _ :: _, _ => exact serving_throw

theorem serving_cacheGet {key' : Str} {Q : Option ProjectResponse → Floored → Prop}
    (hQ : ∀ cached s', s'.1.rows i = s.1.rows i → s.2 ≤ s'.2 →
      (∀ copy, cached = some copy → key' = key → s.2 ≤ copy.versionId) → Q cached s') :
    Serving key projectId version i r E (CacheService.get key') Q s := by
  refine serving_orDefault (serving_bind (serving_ask fun s₁ hwait hinv =>
    ⟨trivial, fun a w' he => ?_⟩))
  obtain ⟨rfl, rfl | ⟨hdown, -⟩⟩ := he
  case inr => cases hinv.redis.symm.trans hdown
  have hnone : Q none s₁ := hQ none s₁ hwait.later.rows_eq hwait.floor nofun
  cases hget : s₁.1.redis.get s₁.1.now key' with
  | none => exact hnone
  | some v =>
    cases v with
    | revoked => exact hnone
    | project copy =>
      refine hQ (some copy) s₁ hwait.later.rows_eq hwait.floor ?_
      rintro _ ⟨⟩ rfl
      unfold Redis.get at hget
      split at hget
      · cases hget
      · next v expires hstrings =>
        split at hget <;> cases hget
        exact hwait.floor.trans (hinv.cached copy expires hstrings)

theorem serving_cacheSet {key' : Str} {copy : ProjectResponse} {ttl : Nat}
    {Q : Unit → Floored → Prop} (hcopy : key' = key → s.2 ≤ copy.versionId) (hQ : ∀ s', Q () s') :
    Serving key projectId version i r E (CacheService.set key' copy ttl) Q s := by
  refine serving_orDefault (serving_ask fun s₁ hwait hinv => ⟨?_, fun a w' he => ?_⟩)
  · rintro rfl
    exact hwait.copy copy ttl rfl (hcopy rfl)
  · rcases he with ⟨rfl, -⟩ | ⟨-, hdown, -⟩
    · exact hQ _
    · cases hinv.redis.symm.trans hdown

theorem serving_getProject {ctx : TenantContext} (hrows : s.1.rows i = []) :
    Serving key projectId version i r True (Endpoints.getProject ctx projectId)
      (fun copy _ => projectCacheKey ctx.organizationId projectId = key → s.2 ≤ copy.versionId)
      s := by
  refine serving_bind (serving_cacheGet fun cached s₁ hrows₁ hfloor₁ hcached => ?_)
  cases cached with
  | some copy => exact hcached copy rfl
  | none =>
    refine serving_getById (hrows₁.trans hrows) rfl fun project s₂ _ hinv₂ hfloor₂ hget => ?_
    have habove : s₂.2 ≤ (ProjectResponse.ofProject project).versionId := hinv₂.stored project hget
    exact serving_bind (serving_cacheSet (fun _ => habove) fun s₃ _ =>
      hfloor₁.trans (hfloor₂.trans habove))

theorem serving_rollback {e : Exn} {Q : α → Floored → Prop} :
    Serving key projectId version i r True (do ask .rollback; throw e : Coro α) Q s :=
  serving_bind (serving_ask fun _ _ _ => ⟨trivial, fun a _ _ => by cases a <;> trivial⟩)

/-- The flush writes the version after the one that was loaded, over a row that is not
later. -/
theorem serving_flush {bearer : Token} {o : Uuid} {payload : ProjectUpdate} {loaded : Project}
    {Q : Unit → Floored → Prop} (hrows : s.1.rows i = [])
    (hget : s.1.db.get .projects projectId = some loaded)
    (hversion : loaded.versionId = payload.expectedVersion.val)
    (hQ : ∀ (written current : Project) (s' : Floored), written.id = projectId →
      written.versionId = payload.expectedVersion.val + 1 →
      s'.1.rows i = [⟨.projects, written⟩] → s'.1.db.get .projects projectId = some current →
      current.versionId ≤ payload.expectedVersion.val + 1 → Q () s') :
    Serving key projectId version i (.tenant bearer o (.updateProject projectId payload)) True
      (ask (.flushUpdate .projects loaded.id (loaded.flush (payload.assign loaded)))) Q s := by
  have hid : loaded.id = projectId := (Db.get_eq_some.mp hget).2
  rw [hid]
  refine serving_ask fun s₁ hwait _ => ⟨trivial, fun a w' he => ?_⟩
  rcases he with he | ⟨-, -, rfl⟩
  case inr => trivial
  rcases World.flushUpdate_cases he with ⟨-, e, rfl⟩ | ⟨current, hcurrent, rfl, rfl, -⟩
  · trivial
  have hrows₁ := hwait.later.rows_eq.trans hrows
  rw [World.view_of_rows hrows₁] at hcurrent
  have hupTo : StoredUpTo projectId (payload.expectedVersion.val + 1) s.1 := by
    intro project hproject
    cases hget.symm.trans hproject
    omega
  refine hQ (loaded.flush (payload.assign loaded) s₁.1.now current) current _
    (Db.get_eq_some.mp hcurrent).2 ?_ ?_ hcurrent (hwait.flush _ _ rfl rfl hupTo current hcurrent)
  · rw [Project.flush_versionId, hversion]
  · refine (World.rows_wrote rfl).trans ?_
    rw [if_pos rfl, hrows₁]
    rfl

theorem serving_addAuditLog {o : Uuid} {actor : Option Uuid} {entityType : Str} {id : Uuid}
    {action : AuditAction} {before after : Option JsonObject} {Q : Unit → Floored → Prop}
    (hQ : ∀ (audit : AuditLog) s₁ s', Waiting key projectId i r
      (.insert .auditLogs (newAuditLog o actor entityType id action before after)) s s₁ →
      s'.1.db = s₁.1.db → s'.1.rows i = s₁.1.rows i ++ [⟨.auditLogs, audit⟩] → Q () s') :
    Serving key projectId version i r True
      (addAuditLog o actor entityType id action before after) Q s := by
  refine serving_bind (serving_ask fun s₁ hwait _ => ⟨trivial, fun a w' he => ?_⟩)
  rcases he with ⟨id, -, he⟩ | ⟨-, -, rfl⟩
  case inr => trivial
  rcases World.insert_cases he with ⟨e, rfl, -⟩ | ⟨rfl, rfl, -⟩
  · trivial
  · exact hQ _ s₁ _ hwait rfl ((World.rows_wrote rfl).trans (if_pos rfl))

theorem serving_updateService {bearer : Token} {o o' : Uuid} {payload : ProjectUpdate}
    (hrows : s.1.rows i = []) :
    Serving key projectId version i (.tenant bearer o (.updateProject projectId payload)) True
      (ProjectService.updateProject o' projectId payload none)
      (fun project s' => project.versionId = payload.expectedVersion.val + 1 ∧
        StoredFrom projectId (payload.expectedVersion.val + 1) s'.1) s := by
  refine serving_tryCatch (serving_bind (serving_getById hrows rfl
    fun loaded s₁ hrows₁ _ _ hget => ?_)) fun e s => serving_rollback
  by_cases hversion : Project.versionId loaded = payload.expectedVersion.val
  case neg =>
    simp only [ne_eq, hversion, not_false_eq_true, if_true]
    exact serving_bind serving_throw
  simp only [ne_eq, hversion, not_true_eq_false, if_false]
  refine serving_bind (serving_flush hrows₁ hget hversion
    fun written current s₂ hid hwritten hrows₂ hget₂ hle => ?_)
  refine serving_bind (serving_addAuditLog fun audit s₃ s₄ hwait₃ hdb₄ hrows₄ => ?_)
  have hmem₂ : (⟨.projects, written⟩ : Entry) ∈ s₂.1.rows i := by
    rw [hrows₂]
    exact List.mem_cons_self
  have hrows₄' : s₄.1.rows i = [⟨.projects, written⟩, ⟨.auditLogs, audit⟩] := by
    rw [hrows₄, hwait₃.later.rows_eq, hrows₂]
    rfl
  have hget₄ : s₄.1.db.get .projects projectId = some current := by
    rw [hdb₄, ← hget₂, ← hid]
    exact hwait₃.later.locked _ hmem₂
  refine serving_bind (serving_ask fun s₅ hwait₅ _ => ?_)
  have hrows₅ := hwait₅.later.rows_eq.trans hrows₄'
  have hget₅ : s₅.1.db.get .projects projectId = some current := by
    rw [← hget₄, ← hid]
    exact hwait₅.later.locked _ (hrows₄' ▸ List.mem_cons_self : (⟨.projects, written⟩ : Entry) ∈ _)
  have hown : ∀ project : Project, (⟨.projects, project⟩ : Entry) ∈ s₅.1.rows i →
      project = written := by
    intro project hmem
    rw [hrows₅] at hmem
    rcases List.mem_pair.mp hmem with he | he
    · cases he
      rfl
    · cases congrArg Entry.table he
  refine ⟨⟨_, rfl, ⟨current, hget₅, hle⟩, fun project hmem _ => hown project hmem ▸ hwritten⟩,
    fun a w' he => ?_⟩
  rcases he with ⟨rfl, rfl⟩ | ⟨-, -, rfl⟩
  case inr => trivial
  refine ⟨congrArg (· + 1) hversion, written, ?_, hwritten.ge⟩
  have hput : (s₅.1.commit i).db.get .projects written.id = some written := by
    change (s₅.1.db.apply (s₅.1.rows i)).get .projects written.id = some written
    rw [hrows₅]
    exact Db.get_apply_of_mem (e := ⟨.projects, written⟩) List.mem_cons_self (by simp)
  rwa [hid] at hput

theorem serving_cacheDelete {key' : Str} {n : Int} {Q : Unit → Floored → Prop}
    (hr : r.projectVersion = some n) (hversion : version i = n + 1)
    (hstored : StoredFrom projectId (n + 1) s.1)
    (hQ : ∀ s', (key' = key → n + 1 ≤ s'.2) → Q () s') :
    Serving key projectId version i r E (CacheService.delete key') Q s := by
  refine serving_orDefault (serving_ask fun s₁ hwait hinv =>
    ⟨fun _ => ⟨n, hr, hversion, hwait.stored _ hstored⟩, fun a w' he => ?_⟩)
  rcases he with ⟨rfl, -⟩ | ⟨-, hdown, -⟩
  · refine hQ _ fun hkey => ?_
    simp only [raised, hkey, if_true, hversion]
    exact le_max_right _ _
  · cases hinv.redis.symm.trans hdown

theorem serving_updateProject {bearer : Token} {o : Uuid} {payload : ProjectUpdate}
    {ctx : TenantContext} (hversion : version i = payload.expectedVersion.val + 1)
    (hrows : s.1.rows i = []) :
    Serving key projectId version i (.tenant bearer o (.updateProject projectId payload)) True
      (Endpoints.updateProject ctx projectId payload) (fun updated s' =>
        projectCacheKey ctx.organizationId projectId = key → updated.versionId ≤ s'.2) s := by
  refine serving_bind (wp_mono (fun a s₁ hupdated => ?_) (serving_updateService hrows))
  cases a with
  | error e => trivial
  | ok project =>
    obtain ⟨hproject, hstored⟩ := hupdated
    exact serving_bind (serving_cacheDelete rfl hversion hstored fun s₂ hfloor hkey =>
      hproject.le.trans (hfloor hkey))

theorem serving_withDbSession {body : Coro α} {Q Q' : α → Floored → Prop}
    (h : Serving key projectId version i r True body Q s)
    (hQ : ∀ a s' s'', Q a s' → s'.2 ≤ s''.2 → Q' a s'') :
    Serving key projectId version i r True (withDbSession body) Q' s := by
  refine serving_bind (wp_mono (fun a s₁ ha => ?_)
    (serving_tryCatch (E := True) h fun e s => serving_rollback))
  cases a with
  | error e => trivial
  | ok a =>
    refine serving_bind (serving_ask fun s₂ hwait _ => ⟨trivial, fun b w' he => ?_⟩)
    obtain ⟨rfl, rfl⟩ := he
    exact hQ a s₁ _ ha hwait.floor

/-- What a call answers: an update not more than the floor it leaves, a read not less than
the floor it finds. -/
def FloorAnswer (o projectId : Uuid) (found : Int) (r : Request) (a : Except Exn Response)
    (left : Int) : Prop :=
  (∀ bearer payload updated, r = .tenant bearer o (.updateProject projectId payload) →
    a = .ok (.project updated) → updated.versionId ≤ left) ∧
  ∀ bearer read, r = .tenant bearer o (.getProject projectId) → a = .ok (.project read) →
    found ≤ read.versionId

theorem serving_guarded {minRole : OrgRole} {bearer : Token} {o : Uuid}
    {f : TenantContext → Coro α} {Q : α → Floored → Prop}
    (h : ∀ ctx s', ctx.organizationId = o → s'.1.rows i = s.1.rows i → s.2 ≤ s'.2 →
      Serving key projectId version i r True (f ctx) Q s') :
    Serving key projectId version i r True (requireRole minRole bearer o >>= f) Q s := by
  refine serving_bind (serving_bind (serving_looksUp
    (all_getCurrentUser (P := fun o => o.looksUp = true) rfl (fun _ => rfl) bearer)
    fun user s₁ hrows₁ hfloor₁ => serving_bind (serving_looksUp
      (all_selectOne (P := fun o => o.looksUp = true) rfl) fun m s₂ hrows₂ hfloor₂ => ?_)))
  cases m with
  | none => exact serving_throw
  | some m =>
    dsimp only
    split
    · exact serving_throw
    · exact h _ s₂ rfl (hrows₂.trans hrows₁) (hfloor₁.trans hfloor₂)

theorem serving_handle {o : Uuid} (hr : ProjectCall projectId r)
    (hversion : ∀ n, r.projectVersion = some n → version i = n + 1) (hrows : s.1.rows i = []) :
    wp (flooredApp (projectCacheKey o projectId) version).toMachine
      (floorContract (projectCacheKey o projectId) projectId version) i r r.handle
      (fun a s' => FloorAnswer o projectId s.2 r a s'.2) s := by
  have hok : ∀ {Q : Response → Floored → Prop},
      (∀ a s', Q a s' → FloorAnswer o projectId s.2 r (.ok a) s'.2) →
      Serving (projectCacheKey o projectId) projectId version i r True r.handle Q s →
      wp (flooredApp (projectCacheKey o projectId) version).toMachine
        (floorContract (projectCacheKey o projectId) projectId version) i r r.handle
        (fun a s' => FloorAnswer o projectId s.2 r a s'.2) s := by
    intro Q hQ h
    refine wp_mono (fun a s' ha => ?_) h
    cases a with
    | ok a => exact hQ a s' ha
    | error e => exact ⟨fun _ _ _ _ => nofun, fun _ _ _ => nofun⟩
  cases r with
  | tenant bearer o' q =>
    cases q with
    | getProject id =>
      obtain rfl : id = projectId := hr
      refine hok (Q := fun a _ => ∀ read, a = .project read → o' = o → s.2 ≤ read.versionId)
        (fun a s' ha => ⟨fun _ _ _ => nofun, ?_⟩) (serving_withDbSession (serving_guarded
          fun ctx s₁ hctx hrows₁ hfloor₁ => serving_bind (wp_mono (fun a s₂ ha => ?_)
            (serving_getProject (hrows₁.trans hrows)))) fun _ _ _ ha _ => ha)
      · rintro _ read ⟨⟩ ⟨⟩
        exact ha read rfl rfl
      · cases a with
        | error e => trivial
        | ok copy =>
          rintro _ ⟨⟩ rfl
          exact hfloor₁.trans (ha (by rw [hctx]))
    | updateProject id payload =>
      obtain rfl : id = projectId := hr
      refine hok (Q := fun a s' => ∀ updated, a = .project updated → o' = o →
          updated.versionId ≤ s'.2)
        (fun a s' ha => ⟨?_, fun _ _ => nofun⟩) (serving_withDbSession
          (Q := fun a s' => ∀ updated, a = .project updated → o' = o → updated.versionId ≤ s'.2)
          (serving_guarded fun ctx s₁ hctx hrows₁ hfloor₁ => serving_bind (wp_mono
            (fun a s₂ ha => ?_) (serving_updateProject (hversion _ rfl) (hrows₁.trans hrows))))
          fun _ _ _ ha hle updated he ho => (ha updated he ho).trans hle)
      · rintro _ _ updated ⟨⟩ ⟨⟩
        exact ha updated rfl rfl
      · cases a with
        | error e => trivial
        | ok updated =>
          rintro _ ⟨⟩ rfl
          exact ha (by rw [hctx])
    | _ => exact hr.elim
  | _ => exact hr.elim

omit [Library] in
theorem FloorStep.committed (h : FloorStep key projectId version i r s .commit) :
    ∃ n, r.projectVersion = some n ∧ ∃ current : Project,
      s.1.db.get .projects projectId = some current ∧ current.versionId ≤ n + 1 ∧
      ∀ project : Project, (s.1.db.apply (s.1.rows i)).get .projects projectId = some project →
        project = current ∨ project.versionId = n + 1 := by
  obtain ⟨n, hr, ⟨current, hget, hle⟩, hrows⟩ := h
  refine ⟨n, hr, current, hget, hle, fun project hproject => ?_⟩
  obtain ⟨hmem, hid⟩ := Db.get_eq_some.mp hproject
  rcases Db.mem_apply hmem with hwrote | ⟨hold, -⟩
  · exact Or.inr (hrows project hwrote hid)
  · have hget' : s.1.db.get .projects projectId = some project := Db.get_eq_some.mpr ⟨hold, hid⟩
    cases hget'.symm.trans hget
    exact Or.inl rfl

theorem exec_strings {o : Op} {w w' : World} {a : Except Exn o.Resp} (h : exec i o w a w') :
    (w'.redis.strings = w.redis.strings ∧ ∀ key, o = .redisDelete key → w.faults.redis = true) ∨
    (∃ key v ex, o = .redisSet key v ex ∧
      w'.redis.strings = Function.update w.redis.strings key (some (v, w.now + ex * second))) ∨
    ∃ key, o = .redisDelete key ∧
      w'.redis.strings = Function.update w.redis.strings key none := by
  cases o <;> simp only [exec] at h
  case redisSet key v ex =>
    rcases h with ⟨-, rfl⟩ | ⟨rfl, -⟩
    · exact Or.inr (Or.inl ⟨key, v, ex, rfl, rfl⟩)
    · exact Or.inl ⟨rfl, fun _ hdelete => by cases hdelete⟩
  case redisDelete key =>
    rcases h with ⟨-, rfl⟩ | ⟨rfl, hdown, -⟩
    · exact Or.inr (Or.inr ⟨key, rfl, rfl⟩)
    · exact Or.inl ⟨rfl, fun _ _ => hdown⟩
  all_goals refine Or.inl ⟨?_, fun _ hdelete => by cases hdelete⟩
  case insert =>
    rcases h with ⟨id, -, h⟩ | ⟨rfl, -⟩
    · rcases World.insert_cases h with ⟨e, -, rfl⟩ | ⟨-, rfl, -⟩ <;> rfl
    · rfl
  case flushUpdate =>
    rcases h with h | ⟨rfl, -⟩
    · rcases World.flushUpdate_cases h with ⟨rfl, -⟩ | ⟨old, -, -, rfl, -⟩ <;> rfl
    · rfl
  case updateWhere =>
    rcases h with h | ⟨rfl, -⟩
    · rcases World.update_cases h with ⟨rfl, -⟩ | ⟨old, -, -, -, rfl, -⟩ <;> rfl
    · rfl
  case uuid4 =>
    obtain ⟨u, -, -, rfl⟩ := h
    rfl
  case clock | perfCounter | rollback | hubConnect | hubDisconnect =>
    obtain ⟨-, rfl⟩ := h
    rfl
  case select | redisGet | enqueue | wsAccept | wsClose | validateEmail | receiveText
      | receiveEnd =>
    obtain ⟨rfl, -⟩ := h
    rfl
  all_goals rcases h with ⟨-, rfl⟩ | ⟨rfl, -⟩ <;> rfl

variable {o : Op} {a : Except Exn o.Resp} {w' : World}

theorem StoredFrom.step {v : Int} (h : StoredFrom projectId v s.1) (he : exec i o s.1 a w')
    (hstep : FloorStep key projectId version i r s o) : StoredFrom projectId v w' := by
  obtain ⟨project, hget, hv⟩ := h
  rcases (World.executed he).history with ⟨hdb, -⟩ | ⟨rfl, hdb, -⟩
  · exact ⟨project, by rw [hdb]; exact hget, hv⟩
  · obtain ⟨n, -, current, hget', hle, hafter⟩ := hstep.committed
    cases hget.symm.trans hget'
    have hsome : (w'.db.get .projects projectId).isSome := by
      rw [hdb]
      exact s.1.db.keeps_apply _ _ _ (by rw [hget]; rfl)
    obtain ⟨project', hget''⟩ := Option.isSome_iff_exists.mp hsome
    refine ⟨project', hget'', ?_⟩
    rcases hafter project' (hdb ▸ hget'') with rfl | hn
    · exact hv
    · exact hv.trans (hle.trans hn.ge)

theorem AboveFloor.step (h : AboveFloor key projectId s) (he : exec i o s.1 a w')
    (hstep : FloorStep key projectId version i r s o) :
    AboveFloor key projectId (w', raised key version i o s.2) := by
  refine ⟨(World.executed he).faults ▸ h.redis, fun project hproject => ?_,
    fun copy expires hcached => ?_⟩
  · rcases (World.executed he).history with ⟨hdb, -⟩ | ⟨rfl, hdb, -⟩
    · change w'.db.get .projects projectId = some project at hproject
      rw [hdb] at hproject
      cases o <;> try exact h.stored project hproject
      case redisDelete key' =>
        simp only [raised]
        split
        · next hkey =>
          obtain ⟨n, -, hversion, stored, hget, hle⟩ := hstep hkey
          cases hget.symm.trans hproject
          exact max_le (h.stored project hproject) (hversion ▸ hle)
        · exact h.stored project hproject
    · obtain ⟨n, -, current, hget, hle, hafter⟩ := hstep.committed
      rcases hafter project (hdb ▸ hproject) with rfl | hn
      · exact h.stored project hget
      · exact (h.stored current hget).trans (hle.trans hn.ge)
  · change w'.redis.strings key = _ at hcached
    rcases exec_strings he with ⟨hsame, hup⟩ | ⟨key', v, ex, rfl, hset⟩ | ⟨key', rfl, hdeleted⟩
    · have hfloor : raised key version i o s.2 = s.2 := by
        unfold raised
        split
        · next key' => cases h.redis.symm.trans (hup key' rfl)
        · rfl
      rw [hsame] at hcached
      exact hfloor.le.trans (h.cached copy expires hcached)
    · rw [hset] at hcached
      by_cases hkey : key' = key
      · subst hkey
        simp only [Function.update_self, Option.some.injEq, Prod.mk.injEq] at hcached
        obtain ⟨rfl, -⟩ := hcached
        exact hstep rfl
      · rw [Function.update_of_ne (Ne.symm hkey)] at hcached
        exact h.cached copy expires hcached
    · rw [hdeleted] at hcached
      by_cases hkey : key' = key
      · subst hkey
        simp only [Function.update_self, reduceCtorEq] at hcached
      · rw [Function.update_of_ne (Ne.symm hkey)] at hcached
        simpa only [raised, hkey, if_false] using h.cached copy expires hcached

def ProjectCalls (key : Str) (projectId : Uuid) (c : AppConfig) (l : AppLabel) : Prop :=
  Starting (ProjectCall projectId) c l ∧ Undelayed key projectId c l

structure FloorRun (key : Str) (projectId : Uuid) (version : Nat → Int) (found : Int)
    (c : Config sig Exn Response Request Floored) (l : AppLabel) : Prop where
  calls : ProjectCalls key projectId c.erase l
  guarded : Guarded c.erase l
  version : ∀ i r, l = .start i r → ∀ n, r.projectVersion = some n → version i = n + 1
  found : found ≤ c.state.2

theorem FloorRun.waiting {found : Int} {c : Config sig Exn Response Request Floored}
    {p : Coro Response}
    {j : Nat} {r' : Request} {o' : Op} {k : Except Exn o'.Resp → Coro Response}
    (hok : FloorRun key projectId version found c (.act i o))
    (ht : c.thread i = some ⟨r, p⟩) (hj : c.thread j = some ⟨r', .call o' k⟩)
    (he : exec i o c.state.1 a w') (hlater : Later j c.state.1 w')
    (hstep : FloorStep key projectId version i r c.state o) :
    Waiting key projectId j r' o' c.state (w', raised key version i o c.state.2) := by
  refine ⟨hlater, le_raised _ _ _ _ _, fun v hv => hv.step he hstep, ?_, ?_⟩
  · rintro copy ex rfl hcopy
    unfold raised
    split
    · next key' =>
      split
      · next hkey =>
        obtain ⟨n, hn, hversion, -⟩ := hstep hkey
        have hnewer := hok.calls.2 hkey r p n ht hn j r' copy ex k hj
        exact max_le hcopy (by omega)
      · exact hcopy
    · exact hcopy
  · rintro set m rfl hm hle project hproject
    rcases (World.executed he).history with ⟨hdb, -⟩ | ⟨rfl, hdb, -⟩
    · change w'.db.get .projects projectId = some project at hproject
      exact hle project (hdb ▸ hproject)
    · obtain ⟨n, hn, current, hget, -, hafter⟩ := hstep.committed
      have hpassed : n ≤ m := hok.calls.2 r p n ht hn j r' m set k hj hm
      rcases hafter project (hdb ▸ hproject) with rfl | hversion
      · exact hle project hget
      · omega

theorem floor_verified (o projectId : Uuid) (version : Nat → Int) (found : Int)
    {E : Nat → Request → Except Exn Response → Int → Prop}
    (hmono : ∀ i r a g g', g ≤ g' → E i r a g → E i r a g')
    (hanswers : ∀ i r a g g', found ≤ g → FloorAnswer o projectId g r a g' → E i r a g') :
    Verified (flooredApp (projectCacheKey o projectId) version)
      (FloorRun (projectCacheKey o projectId) projectId version found)
      (floorContract (projectCacheKey o projectId) projectId version)
      (fun i r a s => E i r a s.2) where
  refl i r o s := ⟨Grew.refl i s.1, le_refl _, fun _ h => h, fun _ _ _ h => h, fun _ _ _ _ h => h⟩
  trans i r o s s' s'' h h' := ⟨h.later.later_trans h'.later, h.floor.trans h'.floor,
    fun v hv => h'.stored v (h.stored v hv),
    fun copy ex ho hc => h'.copy copy ex ho (h.copy copy ex ho hc),
    fun set n ho hn hle => h'.flush set n ho hn (h.flush set n ho hn hle)⟩
  start c i r hok _ hfresh := wp_mono (fun a s' h => hanswers i r a c.state.2 s'.2 hok.found h)
    (serving_handle hok.calls.1 (hok.version i r rfl) hfresh)
  act c i r o' k s' hok hinv ht hguar := by
    obtain ⟨⟨a, he⟩, hfloor, hstep⟩ := hguar
    obtain ⟨w', floor⟩ := s'
    cases hfloor
    refine ⟨hinv.step he hstep, fun j hj => ?_⟩
    have hlater := (World.executed he).later hok.guarded.1 hj
      (hok.guarded.2 _ (.act (c := c.erase) ht he))
    unfold Contract.Survives
    split
    · exact hlater.rows_eq.trans
    · exact hmono _ _ _ _ _ (le_raised _ _ _ _ _)
    · next r' o'' k' hj' => exact hok.waiting ht hj' he hlater hstep
  env c s' _ hinv he := by
    obtain ⟨w', floor⟩ := s'
    obtain ⟨henv, hfloor⟩ := he
    cases hfloor
    have hsame : w'.db = c.state.1.db ∧ w'.pending = c.state.1.pending ∧
        w'.trace = c.state.1.trace ∧ w'.faults = c.state.1.faults ∧
        w'.redis = c.state.1.redis := by
      cases henv <;> exact ⟨rfl, rfl, rfl, rfl, rfl⟩
    obtain ⟨hdb, hpending, htrace, hfaults, hredis⟩ := hsame
    have hlater : ∀ j, Later j c.state.1 w' := fun j =>
      ⟨hdb ▸ Extends.refl _, by simp [World.rows, hpending], fun _ _ => by rw [hdb],
        fun _ h => htrace ▸ h, hfaults⟩
    refine ⟨⟨hfaults ▸ hinv.redis, ?_, ?_⟩, fun j => ?_⟩
    · exact fun project h => hinv.stored project (hdb ▸ h)
    · exact fun copy expires h => hinv.cached copy expires (hredis ▸ h)
    · unfold Contract.Survives
      split
      · exact (hlater j).rows_eq.trans
      · exact hmono _ _ _ _ _ (le_refl _)
      · refine ⟨hlater j, le_refl _, fun v hv => ?_, fun _ _ _ h => h, fun _ _ _ _ h => ?_⟩
        · simpa only [StoredFrom, hdb] using hv
        · simpa only [StoredUpTo, hdb] using h

omit [Library] in
theorem exists_floor (key : Str) (projectId : Uuid) {w : World} (hredis : w.faults.redis = false) :
    ∃ floor, AboveFloor key projectId (w, floor) := by
  have hstored : ∃ v, ∀ project : Project, w.db.get .projects projectId = some project →
      v ≤ project.versionId := by
    cases hget : w.db.get .projects projectId with
    | none => exact ⟨0, fun _ => nofun⟩
    | some project =>
      refine ⟨Project.versionId project, ?_⟩
      rintro _ ⟨⟩
      exact le_refl _
  have hcached : ∃ v, ∀ copy expires, w.redis.strings key = some (.project copy, expires) →
      v ≤ copy.versionId := by
    rcases w.redis.strings key with _ | ⟨_ | copy, expires⟩
    · exact ⟨0, fun _ _ => nofun⟩
    · exact ⟨0, fun _ _ => nofun⟩
    · refine ⟨copy.versionId, ?_⟩
      rintro _ _ ⟨⟩
      exact le_refl _
  obtain ⟨a, ha⟩ := hstored
  obtain ⟨b, hb⟩ := hcached
  exact ⟨min a b, hredis, fun project h => (min_le_left a b).trans (ha project h),
    fun copy expires h => (min_le_right a b).trans (hb copy expires h)⟩

theorem Start.floored {o : Uuid} {c₀ c₁ c : AppConfig} (h₀ : Start c₀)
    (h : Reach app (ProjectCalls (projectCacheKey o projectId) projectId) c₀ c₁)
    (h' : Reach app (ProjectCalls (projectCacheKey o projectId) projectId) c₁ c)
    (hversion : ∀ i t, c.thread i = some t → version i = t.req.projectVersion.getD 0 + 1)
    {found floor : Int} (hfound : found ≤ floor) :
    ∃ left, Reach (flooredApp (projectCacheKey o projectId) version)
      (FloorRun (projectCacheKey o projectId) projectId version found) (c₁.ghost floor)
      (c.ghost left) := by
  have hguarded : Reach app (fun d l => ProjectCalls (projectCacheKey o projectId) projectId d l ∧
      Guarded d l ∧ ∀ i r, l = .start i r → version i = r.projectVersion.getD 0 + 1) c₁ c :=
    (h'.arrivals hversion).strengthen fun d l d' hr hok _ =>
      ⟨hok.1, h₀.guarded (h.trans (hr.mono fun _ _ h => h.1)) l, hok.2⟩
  obtain ⟨left, hrun⟩ := hguarded.ghost (raised (projectCacheKey o projectId) version) floor
  refine ⟨left, hrun.strengthen fun d l d' hr hok _ => ⟨hok.1, hok.2.1, fun i r hl n hn => ?_, ?_⟩⟩
  · rw [hok.2.2 i r hl, hn]
    rfl
  · exact hfound.trans (hr.ghost_le fun i o floor => le_raised _ _ _ _ _)

theorem Start.holds_floored {c₀ : AppConfig} (h₀ : Start c₀) {floor : Int}
    (hfloor : AboveFloor key projectId (c₀.state, floor))
    {post : Nat → Request → Except Exn Response → Floored → Prop} :
    (floorContract key projectId version).Holds (flooredApp key version) post (c₀.ghost floor) :=
  Verified.holds_idle hfloor h₀.idle
    fun i => by simp [floorContract, Config.ghost, World.rows, h₀.closed]

theorem Start.returned_below {o : Uuid} {c₀ c : AppConfig} (h₀ : Start c₀)
    (hredis : c₀.state.faults.redis = false)
    (h : Reach app (ProjectCalls (projectCacheKey o projectId) projectId) c₀ c)
    (hversion : ∀ i t, c.thread i = some t → version i = t.req.projectVersion.getD 0 + 1) :
    ∃ floor, (floorContract (projectCacheKey o projectId) projectId version).Holds
        (flooredApp (projectCacheKey o projectId) version) (fun _ _ _ _ => True) (c.ghost floor) ∧
      ∀ i bearer payload updated, c.thread i = some ⟨.tenant bearer o
        (.updateProject projectId payload), .done (.ok (.project updated))⟩ →
        updated.versionId ≤ floor := by
  obtain ⟨first, hfirst⟩ := exists_floor (projectCacheKey o projectId) projectId hredis
  obtain ⟨floor, hrun⟩ := h₀.floored .refl h hversion (le_refl first)
  have V := floor_verified o projectId version first
    (E := fun _ r a left => ∀ bearer payload updated,
      r = .tenant bearer o (.updateProject projectId payload) → a = .ok (.project updated) →
        updated.versionId ≤ left)
    (fun _ _ _ _ _ hle h bearer payload updated hr ha => (h bearer payload updated hr ha).trans hle)
    fun _ _ _ _ _ _ h => h.1
  refine ⟨floor, (V.reach_holds (h₀.holds_floored hfirst) hrun).imp fun _ _ _ _ _ _ => trivial, ?_⟩
  intro i bearer payload updated ht
  exact V.reach_post (h₀.holds_floored hfirst) hrun ht bearer payload updated rfl rfl

/-- When no read stores an older copy after a deletion and no update is passed before its
flush, a read answers no less than every update that has returned before it starts. -/
theorem reads_fresh {o : Uuid} {c₀ c₁ c₂ : AppConfig} (h₀ : Start c₀)
    (hredis : c₀.state.faults.redis = false)
    (h₁ : Reach app (ProjectCalls (projectCacheKey o projectId) projectId) c₀ c₁)
    (h₂ : Reach app (ProjectCalls (projectCacheKey o projectId) projectId) c₁ c₂) :
    ReadsFresh o projectId c₁ c₂ := by
  intro i bearer payload updated j bearer' read hupdated hidle hread
  let version : Nat → Int := fun i =>
    (c₂.thread i).elim 0 fun t => t.req.projectVersion.getD 0 + 1
  have hversion : ∀ i t, c₂.thread i = some t →
      version i = t.req.projectVersion.getD 0 + 1 := fun i t ht => by simp [version, ht]
  have hversion₁ : ∀ i t, c₁.thread i = some t →
      version i = t.req.projectVersion.getD 0 + 1 := by
    intro i t ht
    obtain ⟨t', ht', hreq⟩ := h₂.keeps_req ht
    exact hreq ▸ hversion i t' ht'
  obtain ⟨floor, hholds, hbelow⟩ := h₀.returned_below hredis h₁ hversion₁
  obtain ⟨last, hrun⟩ := h₀.floored h₁ h₂ hversion (hbelow i bearer payload updated hupdated)
  have V := floor_verified o projectId version updated.versionId
    (E := fun i r a _ => i = j → ∀ bearer read, r = .tenant bearer o (.getProject projectId) →
      a = .ok (.project read) → updated.versionId ≤ read.versionId)
    (fun _ _ _ _ _ _ h => h)
    fun _ _ _ _ _ hle h _ bearer read hr ha => hle.trans (h.2 bearer read hr ha)
  have hreader : (floorContract (projectCacheKey o projectId) projectId version).Holds
      (flooredApp (projectCacheKey o projectId) version)
      (fun i r a _ => i = j → ∀ bearer read, r = .tenant bearer o (.getProject projectId) →
        a = .ok (.project read) → updated.versionId ≤ read.versionId) (c₁.ghost floor) := by
    refine hholds.imp fun l t ht _ _ _ hlj => ?_
    subst hlj
    cases hidle.symm.trans ht
  exact V.reach_post hreader hrun hread rfl bearer' read rfl rfl

def Resting (i : Nat) (c : AppConfig) : Prop :=
  ∀ j s o k, c.thread j = some ⟨s, .call o k⟩ → j = i

omit [Library] in
theorem Start.resting {c : AppConfig} (h : Start c) : Resting i c := by
  intro j s o k ht
  rw [h.idle] at ht
  cases ht

omit [Library] in
theorem Resting.setThread {c : AppConfig} (h : Resting i c)
    (t : Thread sig Exn Response Request) (w : World) : Resting i (c.setThread i t w) := by
  intro j s o k ht
  by_cases hji : j = i
  · exact hji
  · exact h j s o k ((c.thread_setThread_of_ne hji _ _).symm.trans ht)

theorem Resting.move {c c' : AppConfig} {m : AppMove} (h : Resting i c) (hm : m ∈ solo i r)
    (hs : c.move (M := app) scheduler m = some c') : Resting i c' := by
  rcases List.mem_cons.mp hm with rfl | hm
  · simp only [Config.move] at hs
    split at hs <;> cases hs
    exact h.setThread _ _
  · obtain rfl := List.eq_of_mem_replicate hm
    simp only [Config.move] at hs
    split at hs
    · obtain ⟨p, -, rfl⟩ := Option.map_eq_some_iff.mp hs
      exact h.setThread _ _
    · cases hs

theorem resting_answered {c : AppConfig} (hidle : ∀ j, c.thread j = none)
    (h : accepted (runMoves c (solo i r)) i = true) (j : Nat) :
    Resting j (runMoves c (solo i r)) := by
  obtain ⟨r', a, hi, -⟩ := runMoves_accepted hidle h
  intro l s o k hl
  obtain ⟨rfl, -⟩ := start_mem_solo.mp (runMoves_req hidle hl)
  cases hi.symm.trans hl

theorem Resting.projectCalls {c : AppConfig} (h : Resting i c) (hr : ProjectCall projectId r) :
    Reach app (ProjectCalls key projectId) c (runMoves c (solo i r)) := by
  refine Config.play_reach (M := app) scheduler (Resting i) (fun _ _ _ hm hI hs => hI.move hm hs)
    (fun d m hm hI => (starting_allowed fun j s he => ?_).and ?_) h
  · obtain ⟨-, rfl⟩ := start_mem_solo.mp (he ▸ hm)
    exact hr
  · cases m with
    | start j s => trivial
    | env x => trivial
    | act j x =>
      intro s o k ht
      have hself : ∀ l t o' k', d.thread l = some ⟨t, .call o' k'⟩ →
          (⟨t, .call o' k'⟩ : Thread sig Exn Response Request) = ⟨s, .call o k⟩ := by
        intro l t o' k' hl
        have hlj := (hI l t o' k' hl).trans (hI j s o k ht).symm
        rw [hlj, ht] at hl
        exact (Option.some.inj hl).symm
      unfold Undelayed
      split
      · next heq =>
        cases heq
        intro _ _ _ _ _ _ l t copy ex k' hl
        cases hself l t _ k' hl
      · next heq =>
        cases heq
        intro _ _ _ _ _ l t m set k' hl
        cases hself l t _ k' hl
      · trivial

end

section

open scoped Ascii

def readApollo : Request := asAnn (.getProject (drawnId 15))

def described : AppConfig := runMoves apollo (solo 0 (describe "Moon".toList))

theorem described_read_fresh :
    ReadsFresh (drawnId 4) (drawnId 15) described (runMoves described (solo 1 readApollo)) :=
  reads_fresh start_apollo (by decide +kernel)
    (start_apollo.resting.projectCalls rfl)
    ((resting_answered start_apollo.idle (by decide +kernel) 1).projectCalls rfl)

def storedLate : List AppMove :=
  .start 0 readApollo :: List.replicate 5 (.act 0 false) ++ solo 1 (describe "Moon".toList) ++
    List.replicate 5 (.act 0 false)

def Response.hasVersion (v : Int) : Response → Bool
  | .project p => p.versionId = v
  | _ => false

theorem Response.hasVersion_eq {v : Int} {a : Response} (h : a.hasVersion v = true) :
    ∃ p, a = .project p ∧ p.versionId = v := by
  cases a with
  | project p => exact ⟨p, rfl, of_decide_eq_true h⟩
  | _ => cases h

/-- A read that starts after the update answers the version before it. -/
theorem reads_not_fresh : ¬ ∀ c₀ c₁ c₂ o projectId, Start c₀ → c₀.state.faults = noFaults →
    Reach app (Starting (ProjectCall projectId)) c₀ c₁ →
    Reach app (Starting (ProjectCall projectId)) c₁ c₂ → ReadsFresh o projectId c₁ c₂ := by
  intro hall
  have hfresh := hall apollo (runMoves apollo storedLate)
    (runMoves (runMoves apollo storedLate) (solo 2 readApollo)) (drawnId 4) (drawnId 15)
    start_apollo (by decide +kernel)
    (runMoves_starting start_apollo.idle fun i r hm => by
      simp only [storedLate, solo, List.mem_append, List.mem_cons, List.mem_replicate,
        reduceCtorEq, and_false, or_false, Move.start.injEq] at hm
      rcases hm with ⟨-, rfl⟩ | ⟨-, rfl⟩ <;> rfl)
    (Config.play_reach (M := app) scheduler (fun _ => True) (fun _ _ _ _ _ _ => trivial)
      (fun _ _ hm _ => starting_allowed fun j s he => by
        obtain ⟨-, rfl⟩ := start_mem_solo.mp (he ▸ hm)
        rfl) trivial)
  obtain ⟨r, a, hupdate, ha⟩ := answeredWith_thread (i := 1) (c := runMoves apollo storedLate)
    (p := Response.hasVersion 2) (by decide +kernel)
  obtain ⟨b, hserved, hb⟩ := served_with (i := 2) (r := readApollo)
    (c := runMoves apollo storedLate)
    (p := Response.hasVersion 1) (by decide +kernel) (by decide +kernel)
  have hr := runMoves_req start_apollo.idle hupdate
  simp [storedLate] at hr
  subst hr
  obtain ⟨updated, rfl, hupdated⟩ := Response.hasVersion_eq ha
  obtain ⟨read, rfl, hread⟩ := Response.hasVersion_eq hb
  have hle := hfresh 1 _ _ updated 2 _ read hupdate hserved.idle hserved.answered
  rw [hupdated, hread] at hle
  exact absurd hle (by decide)

end

end MultiTenantSaas
