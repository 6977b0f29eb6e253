import MultiTenantSaas.Effects
import MultiTenantSaas.Freshness
import MultiTenantSaas.Noninterference
import MultiTenantSaas.SessionHandlers

/-!
What the cache holds: copies of project rows that were committed, each under the key of its
own organization and project. So every answer to a read of a project is such a copy,
whatever fails and whoever writes meanwhile.
-/

set_option autoImplicit false

namespace MultiTenantSaas

open Process

def World.Stored (w : World) (row : Project) : Prop :=
  ∃ d ∈ w.commits, (⟨.projects, row⟩ : Entry) ∈ d.written

/-- A copy of a known row, under its own key. -/
def CopyOf (known : Project → Prop) (key : Str) (copy : ProjectResponse) : Prop :=
  ∃ row, known row ∧ key = projectCacheKey row.organizationId row.id ∧ copy = .ofProject row

def CacheOf (known : Project → Prop) (w : World) : Prop :=
  ∀ key copy expires, w.redis.strings key = some (.project copy, expires) → CopyOf known key copy

theorem projectCacheKey_injective {o o' p p' : Uuid}
    (h : projectCacheKey o p = projectCacheKey o' p') : o = o' ∧ p = p' := by
  have hvisible : ∀ u : Uuid, ∀ c ∈ u.str, isSpace c = false := fun u =>
    Uuid.forall_mem_str (P := fun c => isSpace c = false) (by decide) (by decide) u
  have hkey : ∀ u v : Uuid, projectCacheKey u v = ("tenant".toList ++ [':']) ++ (u.str ++
      ([':'] ++ (strip "projects".toList ++ ':' :: v.str))) := fun u v => by
    rw [projectCacheKey, buildKey_three, strip_eq_self (hvisible u), strip_eq_self (hvisible v)]
    simp only [List.append_assoc]
  rw [hkey, hkey] at h
  obtain ⟨horg, hrest⟩ := List.append_inj (List.append_cancel_left h)
    (o.str_length.trans o'.str_length.symm)
  have hproject : p.str = p'.str := by simpa using hrest
  exact ⟨Uuid.str_injective horg, Uuid.str_injective hproject⟩

section Reader

variable {known : Project → Prop} {α β : Type}

/-- The answers when all project rows and all cached copies are known. -/
def Shows (known : Project → Prop) : (o : Op) → Except Exn o.Resp → Prop
  | .select q, a => ∀ rows, a = .ok rows →
    ∃ db : Db, (∀ row ∈ db.rows .projects, known row) ∧ rows.Perm (q db)
  | .redisGet key, a => ∀ copy, a = .ok (some (.project copy)) → CopyOf known key copy
  | _, _ => True

def Op.Stores (known : Project → Prop) : Op → Prop
  | .redisSet key (.project copy) _ => CopyOf known key copy
  | _ => True

abbrev Copies (known : Project → Prop) (p : Coro α) (Q : α → Prop) : Prop :=
  Prog.Returns (S := sig) (Shows known) (Op.Stores known) p Q

theorem Shows.from {o : Op} {a : Except Exn o.Resp} (h : Shows known o a) :
    From (fun db => ∀ row ∈ db.rows .projects, known row) o a := by
  cases o <;> first | exact h | trivial

theorem copies_of_returns {p : Coro α} {Q : α → Prop}
    (h : Prog.Returns (S := sig) (From fun db => ∀ row ∈ db.rows .projects, known row)
      (Op.Stores known) p Q) : Copies known p Q := Prog.Keeps.weaken h fun _ _ => Shows.from

theorem copies_withDbSession {p : Coro α} {Q : α → Prop} (hp : Copies known p Q) :
    Copies known (withDbSession p) Q := by
  have hrollback : Copies known (ask .rollback) fun _ => True :=
    ⟨trivial, fun _ _ _ _ => trivial⟩
  exact (hp.tryCatch fun e => hrollback.bind fun _ _ => Prog.returns_throw).bind fun a ha =>
    hrollback.bind fun _ _ => Prog.returns_pure ha

theorem copies_cacheGet (key : Str) : Copies known (CacheService.get key)
    fun found => ∀ copy, found = some copy → CopyOf known key copy := by
  refine Prog.Returns.tryCatch ?_ fun e => Prog.returns_pure fun copy hcopy => by cases hcopy
  have hget : Copies known (ask (.redisGet key)) fun v =>
      ∀ copy, v = some (.project copy) → CopyOf known key copy :=
    ⟨trivial, fun a ha v hv copy hcopy => ha copy (hcopy ▸ hv)⟩
  refine hget.bind fun v hv => ?_
  cases v with
  | none => exact Prog.returns_pure fun copy hcopy => by cases hcopy
  | some v =>
    cases v with
    | revoked => exact Prog.returns_pure fun copy hcopy => by cases hcopy
    | project copy =>
      refine Prog.returns_pure fun copy' hcopy => ?_
      cases hcopy
      exact hv copy rfl

theorem copies_getProject (ctx : TenantContext) (p : Uuid) :
    Copies known (Endpoints.getProject ctx p)
      fun x => CopyOf known (projectCacheKey ctx.organizationId p) x := by
  refine (copies_cacheGet _).bind fun cached hcached => ?_
  cases cached with
  | some copy => exact Prog.returns_pure (hcached copy rfl)
  | none =>
    refine (copies_of_returns (returns_getById trivial)).bind fun found hfound => ?_
    cases found with
    | none => exact Prog.returns_throw
    | some project =>
      obtain ⟨db, hknown, hget, horg, -⟩ := hfound project rfl
      obtain ⟨hmem, hid⟩ := Db.get_eq_some.mp hget
      have hcopy : CopyOf known (projectCacheKey ctx.organizationId p)
          (ProjectResponse.ofProject project) :=
        ⟨project, hknown project hmem, by rw [← hid, ← Option.some.inj horg]; rfl, rfl⟩
      have hset : Copies known (CacheService.set (projectCacheKey ctx.organizationId p)
          (ProjectResponse.ofProject project) 300) fun _ => True := by
        refine Prog.Returns.tryCatch ?_ fun e => Prog.returns_pure trivial
        exact ⟨hcopy, fun _ _ _ _ => trivial⟩
      exact hset.bind fun _ _ => Prog.returns_pure hcopy

theorem copies_handle [Library] (bearer : Token) (o p : Uuid) :
    Copies known (Request.handle (.tenant bearer o (.getProject p)))
      fun x => ∃ copy, x = .project copy ∧ CopyOf known (projectCacheKey o p) copy := by
  refine copies_withDbSession ((copies_of_returns (returns_requireRole trivial (fun _ => trivial)
    fun _ => trivial)).bind fun ctx hctx => ?_)
  exact (copies_getProject ctx p).bind fun copy hcopy =>
    Prog.returns_pure ⟨copy, rfl, hctx ▸ hcopy⟩

end Reader

theorem reads_of_cache {r : Request} (h : .cache ∈ r.services) :
    ∃ bearer o p, r = .tenant bearer o (.getProject p) := by
  cases r with
  | tenant bearer o q =>
    cases q <;> simp only [Request.services, TenantRequest.services, List.mem_cons,
      List.not_mem_nil, reduceCtorEq, or_self] at h
    exact ⟨_, _, _, rfl⟩
  | _ => simp [Request.services] at h

section Runs

variable [Library] {faults : Faults} {now : Instant} {c d : AppConfig} {known : Project → Prop}

theorem CacheOf.exec {i : Nat} {o : Op} {w w' : World} {a : Except Exn o.Resp}
    (h : CacheOf known w) (he : exec i o w a w') (hstores : o.Stores known) : CacheOf known w' := by
  intro key copy expires hcached
  rcases exec_strings he with ⟨hsame, -⟩ | ⟨key', v, ex, rfl, hset⟩ | ⟨key', rfl, hdeleted⟩
  · exact h key copy expires (hsame ▸ hcached)
  · rw [hset] at hcached
    by_cases hkey : key = key'
    · subst hkey
      rw [Function.update_self] at hcached
      cases hcached
      exact hstores
    · rw [Function.update_of_ne hkey] at hcached
      exact h key copy expires hcached
  · rw [hdeleted] at hcached
    by_cases hkey : key = key'
    · subst hkey
      rw [Function.update_self] at hcached
      cases hcached
    · rw [Function.update_of_ne hkey] at hcached
      exact h key copy expires hcached

theorem exec_shows {i : Nat} {o : Op} {w w' : World} {a : Except Exn o.Resp}
    (he : exec i o w a w') (hrows : w.rows i = []) (hdb : ∀ row ∈ w.db.rows .projects, known row)
    (hcache : CacheOf known w) : Shows known o a := by
  cases o with
  | select q =>
    rintro rows rfl
    obtain ⟨-, ⟨rows', hok, hperm⟩ | ⟨-, hfailed⟩⟩ := he
    · cases hok
      rw [World.view_of_rows hrows] at hperm
      exact ⟨w.db, hdb, hperm⟩
    · cases hfailed
  | redisGet key =>
    rintro copy rfl
    obtain ⟨-, hok | ⟨-, hfailed⟩⟩ := he
    · have hget : w.redis.get w.now key = some (.project copy) := (Except.ok.inj hok).symm
      unfold Redis.get at hget
      split at hget
      · cases hget
      · next v expires hv =>
        split at hget
        · cases hget
          exact hcache key copy expires hv
        · cases hget
    · cases hfailed
  | _ => trivial

theorem Start.later_commits {c₀ : AppConfig} {l : AppLabel} (h₀ : Start c₀)
    (h : Reach app anySchedule c₀ c) (hs : Step app c l d) :
    ∀ x ∈ c.state.commits, x ∈ d.state.commits := by
  rcases h₀.step_db (reach_calm h) hs with ⟨-, hc⟩ | ⟨i, r, k, -, -, -, -, hc⟩ <;> rw [hc]
  · exact fun _ hx => hx
  · exact fun _ hx => List.mem_cons_of_mem _ hx

theorem stored_of_mem (h : Reach app anySchedule (genesis faults now) c) {row : Project}
    (hrow : row ∈ c.state.db.rows .projects) : c.state.Stored row := by
  obtain ⟨hhist, -⟩ := (start_genesis faults now).commits h
  exact (hhist.mem (t := .projects) hrow).resolve_left (Db.not_mem_empty (t := .projects) row)

/-- When the rows that a run has stored are known, the cache has copies of known rows only,
and its readers keep to them. -/
theorem reach_copies (h : Reach app anySchedule (genesis faults now) c)
    (hknown : ∀ row, c.state.Stored row → known row) :
    CacheOf known c.state ∧ ∀ i bearer o p k,
      c.thread i = some ⟨.tenant bearer o (.getProject p), k⟩ → Copies known k
        fun x => ∃ copy, x = .project copy ∧ CopyOf known (projectCacheKey o p) copy := by
  have h₀ := start_genesis faults now
  induction h with
  | refl =>
    constructor
    · intro key copy expires hcached
      cases hcached
    · intro i bearer o p k ht
      cases ht
  | @step d d' l hr hok hs ih =>
    have hlater : ∀ row, d.state.Stored row → known row := fun row hrow =>
      hknown row (hrow.imp fun x hx => ⟨h₀.later_commits hr hs x hx.1, hx.2⟩)
    obtain ⟨hcache, hreaders⟩ := ih hlater
    have hold : ∀ i bearer o p k, d'.thread i = some ⟨.tenant bearer o (.getProject p), k⟩ →
        Copies known k fun x =>
          ∃ copy, x = .project copy ∧ CopyOf known (projectCacheKey o p) copy := by
      intro i bearer o p k ht
      rcases hs.thread_cases ht with
        hsame | ⟨r, -, -, hstarted⟩ | ⟨r, op, k', a, rfl, hk, he, hacted⟩
      · exact hreaders i bearer o p k hsame
      · cases hstarted
        exact copies_handle bearer o p
      · cases hacted
        have hrows : d.state.rows i = [] := by
          obtain ⟨g, -, hR⟩ := h₀.refines hr hk
          rw [hR.rows]
          exact List.map_eq_nil_iff.mp (List.prefix_nil.mp hR.order)
        have hshown := exec_shows he hrows
          (fun row hrow => hlater row (stored_of_mem hr hrow)) hcache
        exact (hreaders i bearer o p _ hk).2 a hshown
    refine ⟨?_, hold⟩
    cases hs with
    | start hnone => exact hcache
    | env he => cases he <;> exact hcache
    | @act j r op k a s' hj he =>
      refine hcache.exec he ?_
      cases op with
      | redisSet key v ex =>
        cases v with
        | revoked => trivial
        | project copy =>
          obtain ⟨bearer, o, p, rfl⟩ := reads_of_cache ((h₀.serves hr hj).1 .cache rfl)
          exact (hreaders j bearer o p _ hj).1
      | _ => trivial

/-- Every cached project, and every answer to a read of a project, is a copy of a row that
was committed, of the project that the key or the request names in its organization. -/
theorem copies_committed (h : Reach app anySchedule (genesis faults now) c) :
    (∀ o p copy expires,
      c.state.redis.strings (projectCacheKey o p) = some (.project copy, expires) →
      ∃ row, c.state.Stored row ∧ row.organizationId = o ∧ row.id = p ∧ copy = .ofProject row) ∧
    ∀ i bearer o p a, c.thread i = some ⟨.tenant bearer o (.getProject p), .done (.ok a)⟩ →
      ∃ row, c.state.Stored row ∧ row.organizationId = o ∧ row.id = p ∧
        a = .project (.ofProject row) := by
  obtain ⟨hcache, hreaders⟩ := reach_copies h fun _ hrow => hrow
  constructor
  · intro o p copy expires hcached
    obtain ⟨row, hrow, hkey, rfl⟩ := hcache _ copy expires hcached
    obtain ⟨rfl, rfl⟩ := projectCacheKey_injective hkey
    exact ⟨row, hrow, rfl, rfl, rfl⟩
  · intro i bearer o p a ht
    obtain ⟨copy, rfl, row, hrow, hkey, rfl⟩ := hreaders i bearer o p _ ht a rfl
    obtain ⟨rfl, rfl⟩ := projectCacheKey_injective hkey
    exact ⟨row, hrow, rfl, rfl, rfl⟩

end Runs

section Example

open scoped Ascii

def readOnce : AppConfig := runMoves (genesis noFaults 0) (annsProject ++ solo 3 readApollo)

theorem readOnce_reached : Reach app anySchedule (genesis noFaults 0) readOnce :=
  runMoves_any fun _ => rfl

/-- The second read answers the copy that the first one has stored. -/
theorem readTwice_committed : (∃ copy expires,
      readOnce.state.redis.strings (projectCacheKey (drawnId 4) (drawnId 15)) =
        some (.project copy, expires)) ∧
    ∃ row, (runMoves readOnce (solo 4 readApollo)).state.Stored row ∧
      row.organizationId = drawnId 4 ∧ row.id = drawnId 15 := by
  have hcached : (readOnce.state.redis.strings (projectCacheKey (drawnId 4) (drawnId 15))).any
      (fun v => match v.1 with | .project _ => true | .revoked => false) = true := by
    decide +kernel
  constructor
  · cases hv : readOnce.state.redis.strings (projectCacheKey (drawnId 4) (drawnId 15)) with
    | none =>
      rw [hv] at hcached
      cases hcached
    | some v =>
      obtain ⟨value, expires⟩ := v
      rw [hv] at hcached
      cases value with
      | revoked => cases hcached
      | project copy => exact ⟨copy, expires, rfl⟩
  · obtain ⟨a, hserved, -⟩ := served_with (c := readOnce) (i := 4) (r := readApollo)
      (p := fun _ => true) (by decide +kernel) (by decide +kernel)
    obtain ⟨row, hrow, horg, hid, -⟩ :=
      (copies_committed (readOnce_reached.trans hserved.path)).2 4 _ _ _ a hserved.answered
    exact ⟨row, hrow, horg, hid⟩

end Example

end MultiTenantSaas
