import MultiTenantSaas.AbstractSession
import MultiTenantSaas.Readers

/-!
Rules for programs that keep to the protocol of a session: what each operation and each
transaction does to the session, and what its answer says.
-/

set_option autoImplicit false

namespace MultiTenantSaas

open Process Session

variable {α β : Type}

/-- After the commit only server errors are left. -/
def Excuses (e : Exn) (g : Session) : Prop := e.status < 500 → g.stage = .working

/-- The program keeps to the protocol of `r`; what it returns meets `Q`. The rows it reads
are those of the moments `D`. -/
def Obeys (D : Db → Prop) (r : Request) (p : Coro α) (Q : α → Session → Prop) (g : Session) :
    Prop :=
  Prog.Follows (S := sig) (protocol D r) (andThen Q Excuses) p g

def Op.inward : Op → Bool
  | .publish _ _ _ => false
  | o => o.quiet

abbrev Inward (p : Coro α) : Prop := Prog.All (S := sig) (fun o => Op.inward o = true) p

theorem Op.inward_of_silent {o : Op} (h : o.silent = true) : o.inward = true := by
  cases o <;> first | rfl | exact h

theorem Inward.of_silent {p : Coro α} (h : Silent p) : Inward p :=
  h.mono fun _ => Op.inward_of_silent

theorem inward_ask {o : Op} (h : o.inward = true) : Inward (ask o) := ⟨h, fun _ => trivial⟩

theorem inward_forEach {f : α → Coro β} (hf : ∀ a, Inward (f a)) (as : List α) :
    Inward (forEach f as) := by
  induction as with
  | nil => trivial
  | cons a as ih => exact (hf a).bind fun _ => Prog.All.bind ih fun _ => trivial

variable {D : Db → Prop} {r : Request} {g : Session}

theorem excuses_working {e : Exn} (h : g.stage = .working) : Excuses e g := fun _ => h

theorem excuses_server {e : Exn} (h : e.status = 500) : Excuses e g :=
  fun hlt => absurd h (Nat.ne_of_lt hlt)

theorem obeys_pure {a : α} {Q : α → Session → Prop} (h : Q a g) : Obeys D r (pure a) Q g := h

theorem obeys_throw {e : Exn} {Q : α → Session → Prop} (h : Excuses e g) :
    Obeys D r (throw e : Coro α) Q g := h

theorem Obeys.mono {p : Coro α} {Q Q' : α → Session → Prop} (h : Obeys D r p Q g)
    (himp : ∀ a g, Q a g → Q' a g) : Obeys D r p Q' g := by
  refine Prog.Follows.mono h fun a g => ?_
  cases a with
  | ok a => exact himp a g
  | error e => exact id

theorem obeys_bind {p : Coro α} {f : α → Coro β} {Q : β → Session → Prop}
    (h : Obeys D r p (fun a => Obeys D r (f a) Q) g) : Obeys D r (p >>= f) Q g :=
  Prog.Follows.bind h

theorem obeys_ask {o : Op} {Q : o.Resp → Session → Prop} (hadm : g.Admits D r o)
    (h : ∀ a db g', D db → Extends g.db db → Extends db g'.db → g.Answers db o (.ok a) g' →
      Q a g') :
    Obeys D r (ask o) Q g := by
  refine ⟨hadm, fun a g' hm => ?_⟩
  obtain ⟨herr, db, hdb, hext, hgrow, hans⟩ := hm
  cases a with
  | ok a => exact h a db g' hdb hext hgrow hans
  | error e => exact excuses_server (herr e rfl)

theorem Op.inward.admits {o : Op} (h : o.inward = true) : g.Admits D r o := by
  cases o <;> first | cases h; done | exact fun t ht => by cases ht

theorem Op.inward.answers {o : Op} {a : Except Exn o.Resp} {db : Db} {g' : Session}
    (h : o.inward = true) (hans : g.Answers db o a g') : g' = { g with db } := by
  cases o <;> first | cases h; done | exact hans | exact hans.1

/-- A program that neither writes nor tells others only sees more rows. -/
theorem Inward.follows {p : Coro α} (h : Inward p) :
    Prog.Follows (S := sig) (protocol D r)
      (fun _ g' => ∃ db, Extends g.db db ∧ g' = { g with db }) p g := by
  suffices hp : ∀ db, Extends g.db db → Prog.Follows (S := sig) (protocol D r)
      (fun _ g' => ∃ db, Extends g.db db ∧ g' = { g with db }) p { g with db } from
    hp g.db (Extends.refl _)
  induction p with
  | done a => exact fun db hdb => ⟨db, hdb, rfl⟩
  | call o k ih =>
    intro db hdb
    refine ⟨Op.inward.admits h.1, fun a g' hm => ?_⟩
    obtain ⟨-, db', -, hext, -, hans⟩ := hm
    cases Op.inward.answers h.1 hans
    exact ih a (h.2 a) db' (hdb.trans hext)

theorem obeys_inward {p : Coro α} {Q : α → Session → Prop} (h : Inward p)
    (hstage : g.stage = .working) (hQ : ∀ a db, Extends g.db db → Q a { g with db }) :
    Obeys D r p Q g := by
  refine Prog.Follows.mono h.follows fun a g' hg => ?_
  obtain ⟨db, hdb, rfl⟩ := hg
  cases a with
  | ok a => exact hQ a db hdb
  | error e => exact excuses_working hstage

theorem obeys_orDefault {d : α} {p : Coro α} {Q : α → Session → Prop} (h : Inward p)
    (hQ : ∀ a db, Extends g.db db → Q a { g with db }) : Obeys D r (orDefault d p) Q g := by
  refine Prog.Follows.tryCatch (Prog.Follows.mono h.follows fun a g' hg => ?_)
  obtain ⟨db, hdb, rfl⟩ := hg
  cases a with
  | ok a => exact hQ a db hdb
  | error e => exact hQ d db hdb

theorem obeys_finds {p : Coro α} {Q : α → Session → Prop} {R : α → Prop} (h : Obeys D r p Q g)
    (hf : Finds (fun _ => True) p R) : Obeys D r p (fun a g' => R a ∧ Q a g') g := by
  induction p generalizing g with
  | done a =>
    cases a with
    | ok a => exact ⟨hf a rfl, h⟩
    | error e => exact h
  | call o k ih =>
    refine ⟨h.1, fun a g' hm => ih a (h.2 a g' hm) (hf.2 a ?_)⟩
    obtain ⟨-, db, -, -, -, hans⟩ := hm
    cases o with
    | select q => exact fun rows ha => ⟨_, trivial, hans.2 rows ha⟩
    | _ => trivial

theorem obeys_select {ρ : Type} {q : Db → List ρ} {Q : List ρ → Session → Prop}
    (hQ : ∀ rows db, D db → Extends g.db db → rows.Perm (q (db.apply g.written)) →
      Q rows { g with db }) :
    Obeys D r (ask (.select q)) Q g := by
  refine obeys_ask (Op.inward.admits rfl) fun rows db g' hdb hext _ hans => ?_
  obtain ⟨rfl, hperm⟩ := hans
  exact hQ rows db hdb hext (hperm rows rfl)

theorem obeys_selectOne {ρ : Type} {q : Db → List ρ} {Q : Option ρ → Session → Prop}
    (hnone : ∀ db, Extends g.db db → q (db.apply g.written) = [] → Q none { g with db })
    (hsome : ∀ x db, D db → Extends g.db db → x ∈ q (db.apply g.written) →
      Q (some x) { g with db }) :
    Obeys D r (selectOne q) Q g := by
  refine obeys_bind (obeys_select fun rows db hdb hext hperm => ?_)
  rcases rows with _ | ⟨x, _ | ⟨y, rest⟩⟩
  · exact hnone db hext (List.nil_perm.mp hperm)
  · exact hsome x db hdb hext (hperm.subset List.mem_cons_self)
  · exact obeys_throw (excuses_server rfl)

theorem obeys_sessionGet {t : Table} {id : Uuid} {Q : Option t.Row → Session → Prop}
    (hw : g.written = [])
    (hnone : ∀ db, Extends g.db db → db.get t id = none → Q none { g with db })
    (hsome : ∀ x db, D db → Extends g.db db → db.get t id = some x → Q (some x) { g with db }) :
    Obeys D r (sessionGet t id) Q g := by
  refine obeys_selectOne (fun db hext hnil => hnone db hext ?_) fun x db hdb hext hx => ?_
  · cases hget : db.get t id with
    | none => rfl
    | some x =>
      obtain ⟨hmem, hid⟩ := Db.get_eq_some.mp hget
      rw [hw, Db.apply_nil, rowsWhere, List.filter_eq_nil_iff] at hnil
      exact absurd (by simpa using hid) (hnil x hmem)
  · rw [hw, Db.apply_nil, mem_rowsWhere] at hx
    exact hsome x db hdb hext (Db.get_eq_some.mpr ⟨hx.1, by simpa using hx.2⟩)

theorem obeys_refresh {t : Table} {id : Uuid} {Q : t.Row → Session → Prop} (hw : g.written = [])
    (hQ : ∀ x db, Extends g.db db → db.get t id = some x → Q x { g with db }) :
    Obeys D r (refresh t id) Q g :=
  obeys_bind (obeys_sessionGet hw (fun _ _ _ => obeys_throw (excuses_server rfl))
    fun x db _ => hQ x db)

theorem obeys_getById {t : Table} {o id : Uuid} {Q : Option t.Row → Session → Prop}
    (hw : g.written = []) (hnone : ∀ db, Extends g.db db → Q none { g with db })
    (hsome : ∀ x db, D db → Extends g.db db → db.get t id = some x → t.org x = some o →
      t.isDeleted x = false → Q (some x) { g with db }) :
    Obeys D r (getById t o id) Q g := by
  refine obeys_selectOne (fun db hext _ => hnone db hext) fun x db hdb hext hx => ?_
  rw [hw, Db.apply_nil, mem_rowsWhere] at hx
  have hc := hx.2
  simp only [inTenant, Bool.false_or, Bool.and_eq_true, decide_eq_true_eq,
    Bool.not_eq_true'] at hc
  exact hsome x db hdb hext (Db.get_eq_some.mpr ⟨hx.1, hc.1⟩) hc.2.1 hc.2.2

theorem obeys_requireJoined (rows : List (α × Option β)) {Q : List (α × β) → Session → Prop}
    (hQ : ∀ joined, Q joined g) : Obeys D r (requireJoined rows) Q g := by
  induction rows generalizing Q with
  | nil => exact obeys_pure (hQ [])
  | cons row rest ih =>
    obtain ⟨a, _ | b⟩ := row
    · exact obeys_throw (excuses_server rfl)
    · exact obeys_bind (ih fun joined => obeys_pure (hQ _))

abbrev Session.Next (r : Request) (g : Session) (t : Table) : Prop :=
  g.stage = .working ∧ g.written.map Entry.table ++ [t] <+: r.tables

abbrev Session.wrote (g : Session) (db : Db) (e : Entry) : Session :=
  { g with db, written := g.written ++ [e] }

theorem Session.Next.admits {t t' : Table} (h : g.Next r t) (heq : some t = some t') :
    g.stage = .working ∧ g.written.map Entry.table ++ [t'] <+: r.tables := Option.some.inj heq ▸ h

theorem obeys_insert {t : Table} {values : Uuid → Instant → t.Row} {Q : t.Row → Session → Prop}
    (hnext : g.Next r t)
    (hQ : ∀ id now db, Extends g.db db → Q (values id now) (g.wrote db ⟨t, values id now⟩)) :
    Obeys D r (ask (.insert t values)) Q g := by
  refine obeys_ask (fun t' ht => hnext.admits ht) fun a db g' _ hext _ hans => ?_
  rcases hans with ⟨⟨e, he⟩, -⟩ | ⟨id, now, ha, -, rfl⟩
  · cases he
  · cases ha
    exact hQ id now db hext

theorem obeys_create {t : Table} {values : Uuid → Instant → t.Row} {Q : t.Row → Session → Prop}
    (hnext : g.Next r t)
    (hQ : ∀ id now db, Extends g.db db → Q (values id now) (g.wrote db ⟨t, values id now⟩)) :
    Obeys D r (create t values) Q g := by
  refine obeys_bind (obeys_insert hnext fun id now db hdb => ?_)
  refine obeys_bind (obeys_selectOne (fun _ _ _ => obeys_throw (excuses_server rfl))
    fun x db' _ hdb' hx => ?_)
  rw [mem_rowsWhere] at hx
  have hget := Db.get_apply_append_self db' g.written ⟨t, values id now⟩
  have hxid : t.id x = t.id (values id now) := by simpa using hx.2
  have heq : x = values id now := by
    have hx' := Db.get_of_mem hx.1
    rw [hxid] at hx'
    exact Option.some.inj (hx'.symm.trans hget)
  rw [heq]
  exact obeys_pure (hQ id now db' (hdb.trans hdb'))

theorem obeys_flush {t : Table} {id : Uuid} {set : Instant → t.Row → t.Row}
    {Q : Unit → Session → Prop} (hnext : g.Next r t)
    (hQ : ∀ old now db, Extends g.db db → (db.apply g.written).get t id = some old →
      Q () (g.wrote db ⟨t, set now old⟩)) :
    Obeys D r (ask (.flushUpdate t id set)) Q g := by
  refine obeys_ask (fun t' ht => hnext.admits ht) fun a db g' _ hext _ hans => ?_
  rcases hans with ⟨⟨e, he⟩, -⟩ | ⟨old, now, ha, hold, rfl⟩
  · cases he
  · exact hQ old now db hext hold

theorem obeys_updateWhere {t : Table} {id : Uuid} {criteria : t.Row → Bool}
    {set : Instant → t.Row → t.Row} {Q : Option t.Row → Session → Prop} (hnext : g.Next r t)
    (hnone : ∀ db, Extends g.db db → Q none { g with db })
    (hsome : ∀ old now db, Extends g.db db → criteria old = true →
      (db.apply g.written).get t id = some old →
      Q (some (set now old)) (g.wrote db ⟨t, set now old⟩)) :
    Obeys D r (ask (.updateWhere t id criteria set)) Q g := by
  refine obeys_ask (fun t' ht => hnext.admits ht) fun a db g' _ hext _ hans => ?_
  rcases hans with ⟨hne, rfl⟩ | ⟨old, now, ha, hc, hold, rfl⟩
  · cases a with
    | none => exact hnone db hext
    | some x => exact absurd rfl (hne x)
  · cases ha
    exact hsome old now db hext hc hold

abbrev Session.commits (g : Session) (db : Db) : Session :=
  ⟨db.apply g.written, [], .committed g.written⟩

theorem obeys_commit {Q : Unit → Session → Prop} (hstage : g.stage = .working)
    (hQ : ∀ db, Extends g.db db → Extends db (db.apply g.written) → Q () (g.commits db)) :
    Obeys D r (ask .commit) Q g := by
  refine obeys_ask hstage fun a db g' _ hext hgrow hans => ?_
  rcases hans with ⟨-, rfl⟩ | ⟨⟨e, he⟩, -⟩
  · exact hQ db hext hgrow
  · cases he

theorem admits_rollback : g.Admits D r .rollback := by
  intro t ht
  cases ht

theorem follows_rethrow {e : Exn} (he : Excuses e g) :
    Prog.Follows (S := sig) (protocol D r)
      (fun a g' => a = .error e ∧ g'.written = [] ∧ Excuses e g')
      (do ask .rollback; throw e : Coro α) g := by
  refine Prog.Follows.bind ⟨admits_rollback (D := D), fun a g' hm => ?_⟩
  obtain ⟨-, db, -, hext, -, rfl, rfl⟩ := hm
  exact ⟨rfl, rfl, he⟩

theorem obeys_transaction {body : Coro α} {Q : α → Session → Prop}
    (h : Obeys D r body (fun a g' => g'.stage = .working ∧ ∀ db, Extends g'.db db →
      Extends db (db.apply g'.written) → Q a (g'.commits db)) g) :
    Obeys D r (transaction body) Q g := by
  refine Prog.Follows.tryCatch (Prog.Follows.mono (obeys_bind (h.mono fun a g' ha =>
    obeys_bind (obeys_commit ha.1 fun db hext hgrow => obeys_pure (ha.2 db hext hgrow))))
    fun a g' ha => ?_)
  cases a with
  | ok a => exact ha
  | error e =>
    refine (follows_rethrow ha).mono fun b g'' hb => ?_
    obtain ⟨rfl, -, he⟩ := hb
    exact he

/-- The session of a request ends without open rows, in the stage its body has reached. -/
theorem follows_withDbSession {body : Coro α} {Q : α → Stage → Prop}
    (h : Obeys D r body (fun a g' => Q a g'.stage) g) :
    Prog.Follows (S := sig) (protocol D r)
      (fun a g' => g'.written = [] ∧ andThen (fun a g' => Q a g'.stage) Excuses a g')
      (withDbSession body) g := by
  refine Prog.Follows.bind (Prog.Follows.tryCatch (Prog.Follows.mono h fun a g' ha => ?_))
  cases a with
  | ok a =>
    refine Prog.Follows.bind ⟨admits_rollback (D := D), fun b g'' hm => ?_⟩
    obtain ⟨-, db, -, hext, -, rfl, rfl⟩ := hm
    exact ⟨rfl, ha⟩
  | error e =>
    refine (follows_rethrow ha).mono fun b g'' hb => ?_
    obtain ⟨rfl, hw, he⟩ := hb
    exact ⟨hw, he⟩

theorem obeys_broadcastToRoom {p : Uuid} {event : Str} {data : JsonObject} {es : List Entry}
    {Q : Unit → Session → Prop} (hstage : g.stage = .committed es)
    (hann : r.Announces D g.db es (channelName p) event data)
    (hQ : ∀ db, Extends g.db db → Q () { g with db, stage := .announced es }) :
    Obeys D r (broadcastToRoom p event data) Q g := by
  refine Prog.Follows.tryCatch ⟨⟨es, hstage, hann⟩, fun a g' hm => ?_⟩
  obtain ⟨-, db, -, hext, -, hans⟩ := hm
  have hg' : g' = { g with db, stage := .announced es } := by
    have hans' : g' = { g with db, stage := g.stage.announce } := hans
    rw [hans', hstage]
    rfl
  subst hg'
  cases a with
  | ok a => exact hQ db hext
  | error e => exact hQ db hext

end MultiTenantSaas
