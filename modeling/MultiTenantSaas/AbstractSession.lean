import MultiTenantSaas.Protocols
import MultiTenantSaas.Runs
import MultiTenantSaas.Uniqueness

/-!
A request as the database sees it: what its session may do at each point, in terms of
the rows it has written, whether it has committed and whether it has told the others.
Every run of the application refines these sessions.
-/

set_option autoImplicit false

namespace MultiTenantSaas

open Process

/-- How far a request has come: nothing is committed, its transaction is, or it has told
the others of what that transaction wrote. -/
inductive Stage where
  | working
  | committed (es : List Entry)
  | announced (es : List Entry)

def Stage.announce : Stage → Stage
  | .committed es => .announced es
  | s => s

/-- The session of a request: the committed rows when it last had an answer, the rows of
its open transaction, and its stage. -/
structure Session where
  db : Db
  written : List Entry
  stage : Stage

def Session.fresh : Session := ⟨.empty, [], .working⟩

def Op.target : Op → Option Table
  | .insert t _ | .flushUpdate t _ _ | .updateWhere t _ _ _ => some t
  | _ => none

def Request.tables : Request → List Table
  | .register _ _ => [.users, .organizations, .organizationMembers]
  | .tenant _ _ q => q.tables
  | _ => []

/-- The row, as it was committed at one of these moments. -/
def ReadIn (D : Db → Prop) {t : Table} (id : Uuid) (row : t.Row) : Prop :=
  ∃ db, D db ∧ db.get t id = some row

/-- The edit of a comment writes nothing if nothing changes, else what differs from the
comment as it was read. -/
def Comment.EditedAs (read : Comment) (content : Str) (es : List Entry) : Prop :=
  if read.content = content ∧ read.isEdited = true then es = []
  else ∃ (current : Comment) (now : Instant),
    current.id = read.id ∧ es = [⟨.comments, read.flush content now current⟩]

/-- The message by which a tenant request tells of the rows `es` it has committed. What it
had read before was committed at one of the moments `D`; `db` are the rows committed when
it tells. -/
def TenantRequest.Announces (D : Db → Prop) (db : Db) (es : List Entry) (channel event : Str)
    (data : JsonObject) : TenantRequest → Prop
  | .createTask _ => ∃ (task : Task) (log : AuditLog), es = [⟨.tasks, task⟩, ⟨.auditLogs, log⟩] ∧
    channel = channelName task.projectId ∧ event = "TASK_CREATED".toList ∧
    data = [("task_id".toList, .str task.id.str), ("title".toList, .str task.title),
      ("priority".toList, .str task.priority.value), ("status".toList, .str task.status.value)]
  | .updateTask taskId payload => ∃ task : Task,
    task.id = taskId ∧ channel = channelName task.projectId ∧ event = "TASK_UPDATED".toList ∧
    match payload.status with
    | some status => ∃ (log : AuditLog) (read : Task), es = [⟨.tasks, task⟩, ⟨.auditLogs, log⟩] ∧
      task.status = status ∧ task.versionId = payload.expectedVersion.val + 1 ∧
      ReadIn D (t := .tasks) taskId read ∧
      -- the object in the session follows the UPDATE only if it matches the criteria itself
      let told := if read.versionId = payload.expectedVersion.val then task else read
      log.afterState = some told.statusState ∧
      data = ("task_id".toList, .str taskId.str) :: told.statusState
    | none => es = [⟨.tasks, task⟩] ∧ ∃ current : Task, db.get .tasks taskId = some current ∧
      data = [("task_id".toList, .str taskId.str), ("title".toList, .str current.title),
        ("priority".toList, .str current.priority.value),
        ("version_id".toList, .int current.versionId)]
  | .deleteTask taskId => ∃ task : Task, es = [⟨.tasks, task⟩] ∧ task.id = taskId ∧
    task.isDeleted = true ∧ channel = channelName task.projectId ∧
    event = "TASK_DELETED".toList ∧ data = [("task_id".toList, .str taskId.str)]
  | .createComment taskId _ => ∃ (comment : Comment) (author : User) (task : Task),
    es = [⟨.comments, comment⟩] ∧ comment.taskId = taskId ∧
    author ∈ db.rows .users ∧ author.id = comment.authorId ∧ db.get .tasks taskId = some task ∧
    channel = channelName task.projectId ∧ event = "COMMENT_ADDED".toList ∧
    data = [("task_id".toList, .str taskId.str), ("comment_id".toList, .str comment.id.str),
      ("author".toList, .str author.fullName), ("content".toList, .str comment.content)]
  | .updateComment taskId commentId payload => ∃ (read : Comment) (task : Task),
    ReadIn D (t := .comments) commentId read ∧ read.EditedAs (strip payload.content.text) es ∧
    db.get .tasks taskId = some task ∧ channel = channelName task.projectId ∧
    event = "COMMENT_UPDATED".toList ∧
    data = [("task_id".toList, .str taskId.str), ("comment_id".toList, .str commentId.str),
      ("content".toList, .str (strip payload.content.text))]
  | _ => False

def Request.Announces (D : Db → Prop) (db : Db) (es : List Entry) (channel event : Str)
    (data : JsonObject) : Request → Prop
  | .tenant _ _ q => q.Announces D db es channel event data
  | _ => False

namespace Session

/-- What a session may do: write to the tables of its request in turn, commit once, and
publish once about what it has committed. -/
def Admits (D : Db → Prop) (r : Request) (g : Session) : Op → Prop
  | .commit => g.stage = .working
  | .publish channel event data =>
    ∃ es, g.stage = .committed es ∧ r.Announces D g.db es channel event data
  | o => ∀ t, o.target = some t →
    g.stage = .working ∧ g.written.map Entry.table ++ [t] <+: r.tables

/-- Where an answer leads when `db` are the committed rows: a read sees them and the rows
of the session. -/
def Answers (g : Session) (db : Db) : (o : Op) → Except Exn o.Resp → Session → Prop
  | .select q, a, g' => g' = { g with db } ∧
    ∀ rows, a = .ok rows → rows.Perm (q (db.apply g.written))
  | .insert t values, a, g' =>
    ((∃ e, a = .error e) ∧ g' = { g with db }) ∨
      ∃ id now, a = .ok (values id now) ∧
        (db.apply g.written).get t (t.id (values id now)) = none ∧
        g' = { g with db, written := g.written ++ [⟨t, values id now⟩] }
  | .flushUpdate t id set, a, g' =>
    ((∃ e, a = .error e) ∧ g' = { g with db }) ∨
      ∃ old now, a = .ok () ∧ (db.apply g.written).get t id = some old ∧
        g' = { g with db, written := g.written ++ [⟨t, set now old⟩] }
  | .updateWhere t id criteria set, a, g' =>
    ((∀ row, a ≠ .ok (some row)) ∧ g' = { g with db }) ∨
      ∃ old now, a = .ok (some (set now old)) ∧ criteria old = true ∧
        (db.apply g.written).get t id = some old ∧
        g' = { g with db, written := g.written ++ [⟨t, set now old⟩] }
  | .commit, a, g' =>
    (a = .ok () ∧ g' = ⟨db.apply g.written, [], .committed g.written⟩) ∨
      ((∃ e, a = .error e) ∧ g' = { g with db, written := [] })
  | .rollback, a, g' => a = .ok () ∧ g' = { g with db, written := [] }
  | .publish _ _ _, _, g' => g' = { g with db, stage := g.stage.announce }
  | _, _, g' => g' = { g with db }

/-- The protocol of the session of `r`. An operation fails with a server error, and the
committed rows are those of one of the moments `D` and grow only. -/
def protocol (D : Db → Prop) (r : Request) : Protocol sig Exn Session where
  admits := Admits D r
  moves g o a g' := (∀ e, a = .error e → e.status = 500) ∧
    ∃ db, D db ∧ Extends g.db db ∧ Extends db g'.db ∧ g.Answers db o a g'

end Session

def Event.lasting : Event → Bool
  | .commit _ _ | .publish _ => true
  | _ => false

def Op.lasting : Op → Bool
  | .commit | .publish _ _ _ => true
  | _ => false

/-- The lasting events of session `i`, newest first. -/
def World.record (w : World) (i : Nat) : List Event :=
  (w.trace.filter fun e => decide (e.1 = i) && e.2.lasting).map Prod.snd

def World.Held (w : World) (db : Db) : Prop := db = w.db ∨ ∃ d ∈ w.commits, d.before = db

/-- The rows committed after `d`, there or later. -/
def World.Since (w : World) (d : Commit) (db : Db) : Prop :=
  ∃ newer older, w.commits = newer ++ d :: older ∧ (db = w.db ∨ ∃ e ∈ newer, e.before = db)

/-- The record of a request that has committed `es` over the rows `before`: the commit, and
perhaps the message about it. -/
def Outcome (D : Db → Prop) (r : Request) (i : Nat) (before : Db) (es : List Entry) (w : World) :
    Prop :=
  w.record i = [.commit before es] ∨ ∃ m db, w.record i = [.publish m, .commit before es] ∧
    w.Since ⟨i, before, es⟩ db ∧ r.Announces D db es m.channel m.event m.data

/-- What the state of its session says about a thread. -/
structure Refines (D : Db → Prop) (i : Nat) (r : Request) (g : Session) (w : World) : Prop where
  db : Extends g.db w.db
  rows : w.rows i = g.written
  order : g.written.map Entry.table <+: r.tables
  working : g.stage = .working → w.record i = []
  committed : ∀ es, g.stage = .committed es → ∃ before, w.record i = [.commit before es] ∧
    Extends (before.apply es) g.db ∧ w.Since ⟨i, before, es⟩ g.db
  announced : ∀ es, g.stage = .announced es → ∃ before, Outcome D r i before es w

variable {D : Db → Prop} {i j : Nat} {r : Request} {w w' : World}

def World.Grows (w w' : World) : Prop :=
  (w'.db = w.db ∧ w'.commits = w.commits) ∨ ∃ d, d.before = w.db ∧ w'.commits = d :: w.commits

theorem exec_grows [Library] {o : Op} {a : Except Exn o.Resp} (he : exec i o w a w') :
    w.Grows w' :=
  (World.executed he).history.imp_right fun h => ⟨_, rfl, h.2.2⟩

theorem World.Held.later {db : Db} (h : w.Held db) (hg : w.Grows w') : w'.Held db := by
  rcases hg with ⟨hdb, hc⟩ | ⟨d, hd, hc⟩
  · rw [World.Held, hdb, hc]
    exact h
  · rw [World.Held, hc]
    rcases h with rfl | ⟨e, he, rfl⟩
    · exact Or.inr ⟨d, List.mem_cons_self, hd⟩
    · exact Or.inr ⟨e, List.mem_cons_of_mem _ he, rfl⟩

theorem World.Since.later {d : Commit} {db : Db} (h : w.Since d db) (hg : w.Grows w') :
    w'.Since d db := by
  obtain ⟨newer, older, hcommits, hdb⟩ := h
  rcases hg with ⟨hsame, hc⟩ | ⟨e, he, hc⟩
  · exact ⟨newer, older, hc.trans hcommits, hsame ▸ hdb⟩
  · refine ⟨e :: newer, older, by rw [hc, hcommits, List.cons_append], Or.inr ?_⟩
    rcases hdb with rfl | ⟨f, hf, rfl⟩
    · exact ⟨e, List.mem_cons_self, he⟩
    · exact ⟨f, List.mem_cons_of_mem _ hf, rfl⟩

theorem World.Since.now {d : Commit} {db : Db} (h : w.Since d db) : w.Since d w.db := by
  obtain ⟨newer, older, hcommits, -⟩ := h
  exact ⟨newer, older, hcommits, Or.inl rfl⟩

theorem violation_status {db : Db} {t : Table} {x : t.Row} {e : Exn}
    (h : World.violation db t x = some e) : e.status = 500 := by
  unfold World.violation at h
  split at h
  · cases h
    rfl
  · split at h <;> cases h
    rfl

theorem insert_status {t : Table} {values : Uuid → Instant → t.Row} {id : Uuid} {e : Exn}
    (h : w.insert i t values id = some (.error e, w')) : e.status = 500 := by
  unfold World.insert at h
  simp only at h
  split at h
  · cases h
  · split at h
    · cases h
      rfl
    · split at h
      · next hv =>
        cases h
        exact violation_status hv
      · cases h

theorem update_status {t : Table} {id : Uuid} {criteria : t.Row → Bool}
    {set : Instant → t.Row → t.Row} {e : Exn}
    (h : w.update i t id criteria set = some (.error e, w')) : e.status = 500 := by
  unfold World.update at h
  split at h
  · cases h
  · split at h
    · cases h
    · split at h
      · cases h
      · split at h
        · next hv =>
          cases h
          exact violation_status hv
        · cases h

theorem exec_status [Library] {o : Op} {e : Exn} (he : exec i o w (.error e) w') :
    e.status = 500 := by
  have hfailed : ∀ {α : Type} {b : Bool}, failed (α := α) b (.error e) → e.status = 500 := by
    rintro α b ⟨-, h⟩
    cases h
    rfl
  cases o <;> simp only [exec] at he
  case clock => cases he.1
  case perfCounter => cases he.1.choose_spec
  case uuid4 => cases he.choose_spec.2.1
  case rollback | hubConnect | hubDisconnect => cases he.1
  case select =>
    obtain ⟨-, ⟨rows, h, -⟩ | h⟩ := he
    · cases h
    · exact hfailed h
  case insert =>
    rcases he with ⟨id, -, h⟩ | ⟨-, h⟩
    · exact insert_status h
    · exact hfailed h
  case flushUpdate =>
    rcases he with h | ⟨-, h⟩
    · obtain ⟨⟨b, v⟩, hu, hp⟩ := Option.map_eq_some_iff.mp h
      rcases b with e' | _ | x
      · cases hp
        exact update_status hu
      · cases hp
        rfl
      · cases hp
    · exact hfailed h
  case updateWhere =>
    rcases he with h | ⟨-, h⟩
    · exact update_status h
    · exact hfailed h
  case receiveEnd => rcases he.2 with h | h <;> cases h <;> rfl
  case receiveText => rcases he.2 with h | h | h <;> cases h <;> rfl
  case validateEmail =>
    rcases he.2 with ⟨x, -, h⟩ | ⟨-, h⟩ <;> cases h
    rfl
  case redisGet | enqueue | wsAccept | wsClose =>
    obtain ⟨-, h | h⟩ := he
    · cases h
    · exact hfailed h
  case presignGet =>
    rcases he with ⟨⟨-, h⟩, -⟩ | ⟨-, ⟨-, h⟩ | h⟩
    · cases h
    · cases h
      rfl
    · exact hfailed h
  case commit | redisSet | redisExists | redisDelete | slidingWindow | publish | presignPut =>
    rcases he with ⟨h, -⟩ | ⟨-, h⟩
    · cases h
    · exact hfailed h

theorem exec_trace [Library] {o : Op} {a : Except Exn o.Resp} (he : exec i o w a w') :
    w'.trace = w.trace ∨
      ∃ e, w'.trace = (i, e) :: w.trace ∧ (e.lasting = true → o.lasting = true) := by
  cases o <;> simp only [exec] at he
  case clock | perfCounter | select | redisGet | enqueue | wsAccept | wsClose | validateEmail
      | receiveText | receiveEnd =>
    obtain ⟨hw, hw'⟩ := he
    first
      | exact Or.inl (hw ▸ rfl)
      | exact Or.inl (hw' ▸ rfl)
  case uuid4 =>
    obtain ⟨u, -, -, rfl⟩ := he
    exact Or.inl rfl
  case insert =>
    rcases he with ⟨id, -, h⟩ | ⟨rfl, -⟩
    · rcases World.insert_cases h with ⟨e, -, rfl⟩ | ⟨-, rfl, -⟩ <;> exact Or.inl rfl
    · exact Or.inl rfl
  case flushUpdate =>
    rcases he with h | ⟨rfl, -⟩
    · rcases World.flushUpdate_cases h with ⟨rfl, -⟩ | ⟨old, -, -, rfl, -⟩ <;> exact Or.inl rfl
    · exact Or.inl rfl
  case updateWhere =>
    rcases he with h | ⟨rfl, -⟩
    · rcases World.update_cases h with ⟨rfl, -⟩ | ⟨old, -, -, -, rfl, -⟩ <;> exact Or.inl rfl
    · exact Or.inl rfl
  case commit =>
    rcases he with ⟨-, rfl⟩ | ⟨rfl, -⟩
    · exact Or.inr ⟨_, rfl, fun _ => rfl⟩
    · exact Or.inl rfl
  case publish channel event data =>
    rcases he with ⟨-, rfl⟩ | ⟨rfl, -⟩
    · exact Or.inr ⟨_, rfl, fun _ => rfl⟩
    · exact Or.inl rfl
  case rollback =>
    obtain ⟨-, rfl⟩ := he
    exact Or.inr ⟨_, rfl, id⟩
  case redisSet | redisExists | presignPut | presignGet =>
    rcases he with ⟨-, rfl⟩ | ⟨rfl, -⟩
    · exact Or.inr ⟨_, rfl, id⟩
    · exact Or.inl rfl
  case redisDelete | slidingWindow =>
    rcases he with ⟨-, rfl⟩ | ⟨rfl, -⟩ <;> exact Or.inl rfl
  case hubConnect | hubDisconnect =>
    obtain ⟨-, rfl⟩ := he
    exact Or.inl rfl

theorem World.record_cons {e : Event} (h : w'.trace = (j, e) :: w.trace) :
    w'.record i = if j = i ∧ e.lasting = true then e :: w.record i else w.record i := by
  by_cases hc : j = i ∧ e.lasting = true
  · simp [record, h, hc.1, hc.2]
  · rw [if_neg hc]
    have hfalse : (decide (j = i) && e.lasting) = false := by simpa using hc
    simp only [record, h, List.filter_cons, hfalse, Bool.false_eq_true, if_false]

theorem record_exec [Library] {o : Op} {a : Except Exn o.Resp} (he : exec j o w a w')
    (h : i ≠ j ∨ o.lasting = false) : w'.record i = w.record i := by
  rcases exec_trace he with hsame | ⟨e, hcons, hlast⟩
  · simp only [World.record, hsame]
  · rw [World.record_cons hcons, if_neg]
    rintro ⟨rfl, hl⟩
    rcases h with hij | ho
    · exact hij rfl
    · rw [hlast hl] at ho
      cases ho

theorem Outcome.later {before : Db} {es : List Entry} (h : Outcome D r i before es w)
    (hgrows : w.Grows w') (hrec : w'.record i = w.record i) : Outcome D r i before es w' := by
  refine h.imp (fun h => hrec.trans h) ?_
  rintro ⟨m, db, hm, hsince, hann⟩
  exact ⟨m, db, hrec.trans hm, hsince.later hgrows, hann⟩

theorem Refines.later {g : Session} (h : Refines D i r g w) (hext : Extends w.db w'.db)
    (hgrows : w.Grows w') (hrows : w'.rows i = w.rows i) (hrec : w'.record i = w.record i) :
    Refines D i r g w' where
  db := h.db.trans hext
  rows := hrows.trans h.rows
  order := h.order
  working hg := hrec.trans (h.working hg)
  committed es hg := by
    obtain ⟨before, hb, hbefore, hsince⟩ := h.committed es hg
    exact ⟨before, hrec.trans hb, hbefore, hsince.later hgrows⟩
  announced es hg := (h.announced es hg).imp fun _ ho => ho.later hgrows hrec

theorem Refines.seen {g : Session} (h : Refines D i r g w) :
    Refines D i r { g with db := w.db } w where
  db := Extends.refl _
  rows := h.rows
  order := h.order
  working := h.working
  committed es hg := by
    obtain ⟨before, hb, hbefore, hsince⟩ := h.committed es hg
    exact ⟨before, hb, hbefore.trans h.db, hsince.now⟩
  announced := h.announced

theorem Refines.wrote {g : Session} {e : Entry} (h : Refines D i r g w)
    (hstage : g.stage = .working) (horder : g.written.map Entry.table ++ [e.table] <+: r.tables)
    (hdb : w'.db = w.db) (hrows : w'.rows i = w.rows i ++ [e]) (hrec : w'.record i = w.record i) :
    Refines D i r { g with db := w.db, written := g.written ++ [e] } w' where
  db := hdb ▸ Extends.refl _
  rows := by rw [hrows, h.rows]
  order := by simpa using horder
  working _ := hrec.trans (h.working hstage)
  committed es hg := by
    rw [hstage] at hg
    cases hg
  announced es hg := by
    rw [hstage] at hg
    cases hg

theorem rows_write {e : Entry} : (w.write i e).rows i = w.rows i ++ [e] :=
  (World.rows_wrote (w := w) (i := i) (j := i) rfl).trans (if_pos rfl)

theorem Refines.ended {g : Session} (h : Refines D i r g w) (hdb : w'.db = w.db)
    (hgrows : w.Grows w') (hrows : w'.rows i = []) (hrec : w'.record i = w.record i) :
    Refines D i r { g with db := w.db, written := [] } w' where
  db := hdb ▸ Extends.refl _
  rows := hrows
  order := List.nil_prefix
  working hg := hrec.trans (h.working hg)
  committed es hg := by
    obtain ⟨before, hb, hbefore, hsince⟩ := h.committed es hg
    exact ⟨before, hrec.trans hb, hbefore.trans h.db, hsince.now.later hgrows⟩
  announced es hg := (h.announced es hg).imp fun _ ho => ho.later hgrows hrec

theorem Refines.commit {g : Session} (h : Refines D i r g w) (hstage : g.stage = .working) :
    Refines D i r ⟨w.db.apply g.written, [], .committed g.written⟩ (w.commit i) := by
  have hrec : (w.commit i).record i = [.commit w.db g.written] := by
    have hcons : (w.commit i).trace = (i, .commit w.db (w.rows i)) :: w.trace := rfl
    rw [World.record_cons hcons, if_pos ⟨rfl, rfl⟩, h.rows, h.working hstage]
  refine ⟨?_, (World.rows_ended (j := i) rfl).trans (if_pos rfl), List.nil_prefix, ?_, ?_, ?_⟩
  · change Extends (w.db.apply g.written) (w.db.apply (w.rows i))
    rw [h.rows]
    exact Extends.refl _
  · intro hg
    cases hg
  · intro es hg
    cases hg
    refine ⟨w.db, hrec, Extends.refl _, [], w.commits, ?_, Or.inl ?_⟩
    · exact h.rows ▸ rfl
    · exact h.rows ▸ rfl
  · intro es hg
    cases hg

theorem Refines.publish [Library] {g : Session} {channel event : Str} {data : JsonObject}
    {a : Except Exn Unit} {es : List Entry} (h : Refines D i r g w)
    (hstage : g.stage = .committed es) (hann : r.Announces D g.db es channel event data)
    (he : exec i (.publish channel event data) w a w') :
    Refines D i r { g with db := w.db, stage := g.stage.announce } w' := by
  obtain ⟨before, hrec, -, hsince⟩ := h.committed es hstage
  have hnext : g.stage.announce = .announced es := by
    rw [hstage]
    rfl
  have hlater := hsince.later (exec_grows he)
  have houtcome : Outcome D r i before es w' ∧ w'.db = w.db ∧ w'.rows i = w.rows i := by
    rcases he with ⟨-, rfl⟩ | ⟨rfl, -⟩
    · refine ⟨Or.inr ⟨⟨channel, event, data, i⟩, g.db, ?_, hlater, hann⟩, rfl, rfl⟩
      have hcons : (w.publish ⟨channel, event, data, i⟩).trace =
          (i, .publish ⟨channel, event, data, i⟩) :: w.trace := rfl
      rw [World.record_cons hcons, if_pos ⟨rfl, rfl⟩, hrec]
    · exact ⟨Or.inl hrec, rfl, rfl⟩
  obtain ⟨hr, hdb, hrows⟩ := houtcome
  refine ⟨hdb ▸ Extends.refl _, hrows.trans h.rows, h.order, ?_, ?_, ?_⟩
  · intro hg
    cases hnext.symm.trans hg
  · intro es' hg
    cases hnext.symm.trans hg
  · intro es' hg
    cases hnext.symm.trans hg
    exact ⟨before, hr⟩

theorem Refines.step [Library] {g : Session} {o : Op} {a : Except Exn o.Resp}
    (h : Refines D i r g w) (hD : D w.db) (hadm : g.Admits D r o) (he : exec i o w a w')
    (hext : Extends w.db w'.db) :
    ∃ g', (Session.protocol D r).moves g o a g' ∧ Refines D i r g' w' := by
  suffices hstep : ∃ g', Extends w.db g'.db ∧ g.Answers w.db o a g' ∧ Refines D i r g' w' by
    obtain ⟨g', hdb, hans, hr⟩ := hstep
    exact ⟨g', ⟨fun e ha => exec_status (ha ▸ he), w.db, hD, h.db, hdb, hans⟩, hr⟩
  have hrefl := Extends.refl w.db
  have hgrows := exec_grows he
  have hquiet : o.quiet = true → o.lasting = false → Refines D i r { g with db := w.db } w' :=
    fun hq hl => by
      obtain ⟨hdb, hpend⟩ := (World.executed he).same_of_quiet hq
      exact h.seen.later hext hgrows (by simp [World.rows, hpend]) (record_exec he (Or.inr hl))
  have hsame : o.lasting = false → w'.record i = w.record i := fun hl =>
    record_exec he (Or.inr hl)
  cases o with
  | select q =>
    refine ⟨{ g with db := w.db }, hrefl, ⟨rfl, fun rows ha => ?_⟩, hquiet rfl rfl⟩
    rcases he.2 with ⟨rows', ha', hperm⟩ | ⟨-, ha'⟩
    · cases ha.symm.trans ha'
      rw [← h.rows]
      exact hperm
    · cases ha.symm.trans ha'
  | insert t values =>
    obtain ⟨hstage, horder⟩ := hadm t rfl
    rcases he with ⟨id, -, he⟩ | ⟨rfl, -, rfl⟩
    · rcases World.insert_cases he with ⟨e, rfl, rfl⟩ | ⟨rfl, rfl, -, hnew, -⟩
      · exact ⟨_, hrefl, Or.inl ⟨⟨e, rfl⟩, rfl⟩,
          h.seen.later (Extends.refl _) hgrows rfl (hsame rfl)⟩
      · rw [World.view, h.rows] at hnew
        exact ⟨_, hrefl, Or.inr ⟨id, w.now, rfl, hnew, rfl⟩,
          h.wrote hstage horder rfl rows_write (hsame rfl)⟩
    · exact ⟨_, hrefl, Or.inl ⟨⟨_, rfl⟩, rfl⟩, h.seen⟩
  | flushUpdate t id set =>
    obtain ⟨hstage, horder⟩ := hadm t rfl
    rcases he with he | ⟨rfl, -, rfl⟩
    · rcases World.flushUpdate_cases he with ⟨rfl, e, rfl⟩ | ⟨old, hold, rfl, rfl, -⟩
      · exact ⟨_, hrefl, Or.inl ⟨⟨e, rfl⟩, rfl⟩, h.seen⟩
      · rw [World.view, h.rows] at hold
        exact ⟨_, hrefl, Or.inr ⟨old, w.now, rfl, hold, rfl⟩,
          h.wrote hstage horder rfl rows_write (hsame rfl)⟩
    · exact ⟨_, hrefl, Or.inl ⟨⟨_, rfl⟩, rfl⟩, h.seen⟩
  | updateWhere t id criteria set =>
    obtain ⟨hstage, horder⟩ := hadm t rfl
    rcases he with he | ⟨rfl, -, rfl⟩
    · rcases World.update_cases he with ⟨rfl, ha⟩ | ⟨old, hold, hc, rfl, rfl, -⟩
      · exact ⟨_, hrefl, Or.inl ⟨ha, rfl⟩, h.seen⟩
      · rw [World.view, h.rows] at hold
        exact ⟨_, hrefl, Or.inr ⟨old, w.now, rfl, hc, hold, rfl⟩,
          h.wrote hstage horder rfl rows_write (hsame rfl)⟩
    · exact ⟨_, hrefl, Or.inl ⟨by simp, rfl⟩, h.seen⟩
  | commit =>
    rcases he with ⟨rfl, rfl⟩ | ⟨rfl, -, rfl⟩
    · exact ⟨_, h.rows ▸ hext, Or.inl ⟨rfl, rfl⟩, h.commit hadm⟩
    · exact ⟨_, hrefl, Or.inr ⟨⟨_, rfl⟩, rfl⟩,
        h.ended rfl hgrows ((World.rows_ended (j := i) rfl).trans (if_pos rfl)) rfl⟩
  | rollback =>
    have hrec := hsame rfl
    obtain ⟨rfl, rfl⟩ := he
    exact ⟨_, hrefl, ⟨rfl, rfl⟩,
      h.ended rfl hgrows ((World.rows_ended (j := i) rfl).trans (if_pos rfl)) hrec⟩
  | publish channel event data =>
    obtain ⟨es, hstage, hann⟩ := hadm
    exact ⟨_, hrefl, rfl, h.publish hstage hann he⟩
  | _ => exact ⟨{ g with db := w.db }, hrefl, rfl, hquiet rfl rfl⟩

end MultiTenantSaas
