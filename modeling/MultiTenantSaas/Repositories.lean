import Mathlib.Data.List.Sort
import MultiTenantSaas.Calendar
import MultiTenantSaas.World

/-!
The session, the repositories and the unit of work: how handlers read and write
the database.
-/

set_option autoImplicit false

namespace MultiTenantSaas

def ask (o : Op) : Coro o.Resp := Process.Prog.perform (S := sig) o

def forEach {α β : Type} (f : α → Coro β) : List α → Coro (List β)
  | [] => pure []
  | a :: as => do
    let b ← f a
    let bs ← forEach f as
    pure (b :: bs)

/-- `scalar_one_or_none`. -/
def selectOne {ρ : Type} (query : Db → List ρ) : Coro (Option ρ) := do
  match ← ask (.select query) with
  | [] => pure none
  | [r] => pure (some r)
  | _ => throw .multipleResultsFound

/-- An argument that a statement carries beside its text. -/
inductive Argument where
  | text (s : Str)
  | bigint (n : Int)
  | timestamptz (t : Instant)

def nul : Char := Char.ofNat 0

/-- PostgreSQL has no NUL in a text, and the driver no number beyond `BIGINT` and no time
without a date in UTC. -/
def Argument.encodes : Argument → Bool
  | .text s => !s.contains nul
  | .bigint n => int8 n
  | .timestamptz t => decide (Calendar.Representable t)

def withArguments {α : Type} (arguments : List Argument) (statement : Coro α) : Coro α :=
  if arguments.all Argument.encodes then statement else throw .dataError

def rowsWhere (t : Table) (p : t.Row → Bool) (db : Db) : List t.Row := (db.rows t).list.filter p

/-- `session.get`, of an object that the session has not loaded. -/
def sessionGet (t : Table) (id : Uuid) : Coro (Option t.Row) :=
  selectOne (rowsWhere t fun r => t.id r = id)

def refresh (t : Table) (id : Uuid) : Coro t.Row := do
  match ← sessionGet t id with
  | none => throw .invalidRequestError
  | some r => pure r

def create (t : Table) (values : Uuid → Instant → t.Row) : Coro t.Row := do
  let r ← ask (.insert t values)
  refresh t (t.id r)

def transaction {α : Type} (body : Coro α) : Coro α :=
  tryCatch (do let a ← body; ask .commit; pure a) fun e => do
    ask .rollback
    throw e

/-- `get_db_session`: an exception rolls back, and the session is closed in the end. -/
def withDbSession {α : Type} (body : Coro α) : Coro α := do
  let a ← tryCatch body fun e => do
    ask .rollback
    throw e
  ask .rollback
  pure a

def Table.isDeleted : (t : Table) → t.Row → Bool
  | .tasks, r => Task.isDeleted r
  | _, _ => false

/-- The rows a `TenantScopedRepository` sees. -/
def inTenant (t : Table) (organizationId : Uuid) (includeDeleted : Bool) (r : t.Row) : Bool :=
  t.org r = some organizationId && (includeDeleted || !t.isDeleted r)

def getById (t : Table) (organizationId id : Uuid) : Coro (Option t.Row) :=
  selectOne (rowsWhere t fun r => t.id r = id && inTenant t organizationId false r)

/-- `TenantScopedRepository.list_paginated`; the statement has no ORDER BY. -/
def listPaginated (t : Table) (organizationId : Uuid) (offset limit : Nat) :
    Coro (List t.Row) := do
  let rows ← ask (.select (rowsWhere t (inTenant t organizationId false)))
  pure ((rows.drop offset).take (min limit 100))

def Task.markDeleted (now : Instant) (t : Task) : Task :=
  { t with isDeleted := true, deletedAt := some now, updatedAt := now }

def softDelete (organizationId id : Uuid) : Coro Bool := do
  let row ← ask (.updateWhere .tasks id
    (fun (t : Task) => t.organizationId = organizationId && !t.isDeleted) Task.markDeleted)
  pure row.isSome

def getByEmail [Library] (email : Str) : Coro (Option User) :=
  selectOne (rowsWhere .users fun u => User.email u = normalizeEmail email)

def getMembership (organizationId userId : Uuid) : Coro (Option OrganizationMember) :=
  selectOne (rowsWhere .organizationMembers fun m =>
    OrganizationMember.organizationId m = organizationId && OrganizationMember.userId m = userId)

def getByKey [Library] (organizationId : Uuid) (key : Str) : Coro (Option Project) :=
  selectOne (rowsWhere .projects fun p =>
    Project.organizationId p = organizationId && Project.key p = strip (Library.upper key))

/-- A row with the row it refers to, as a LEFT OUTER JOIN gives it. -/
def joinedLoad (t u : Table) (ref : t.Row → Option Uuid) (p : t.Row → Bool) (db : Db) :
    List (t.Row × Option u.Row) :=
  (rowsWhere t p db).map fun r => (r, (ref r).bind (db.get u))

/-- An attribute of a joined row that is missing raises. -/
def requireJoined {α β : Type} : List (α × Option β) → Coro (List (α × β))
  | [] => pure []
  | (a, some b) :: rest => do
    let rest ← requireJoined rest
    pure ((a, b) :: rest)
  | (_, none) :: _ => throw .attributeError

def getTeamWithMembers (organizationId teamId : Uuid) :
    Coro (Option (Team × List (TeamMember × Option User))) := do
  let team ← selectOne (rowsWhere .teams fun t =>
    Team.id t = teamId && Team.organizationId t = organizationId)
  match team with
  | none => pure none
  | some team =>
    let members ← ask (.select (joinedLoad .teamMembers .users
      (fun (m : TeamMember) => some m.userId) fun (m : TeamMember) => m.teamId = team.id))
    pure (some (team, members))

def keyLe (a b : Instant × Uuid) : Prop :=
  a.1 < b.1 ∨ (a.1 = b.1 ∧ a.2.bits ≤ b.2.bits)

instance (a b : Instant × Uuid) : Decidable (keyLe a b) :=
  inferInstanceAs (Decidable (_ ∨ (_ ∧ _)))

def keyLt (a b : Instant × Uuid) : Prop :=
  a.1 < b.1 ∨ (a.1 = b.1 ∧ a.2.bits < b.2.bits)

instance (a b : Instant × Uuid) : Decidable (keyLt a b) :=
  inferInstanceAs (Decidable (_ ∨ (_ ∧ _)))

def Task.feedKey (t : Task) : Instant × Uuid := (t.createdAt, t.id)

def Comment.feedKey (c : Comment) : Instant × Uuid := (c.createdAt, c.id)

def backslash : Char := Char.ofNat 92

/-- LIKE without regard to case: `%` is any text, `_` any character, and a backslash
takes the next character as it is. -/
def ilike [Library] : (pattern text : Str) → Bool
  | [], text => text.isEmpty
  | c :: pattern, text =>
    if c = '%' then text.tails.any fun rest => ilike pattern rest
    else if c = '_' then
      match text with
      | [] => false
      | _ :: rest => ilike pattern rest
    else if c = backslash then
      match pattern, text with
      | d :: pattern, x :: rest =>
        Library.foldCase d == Library.foldCase x && ilike pattern rest
      | _, _ => false
    else
      match text with
      | [] => false
      | x :: rest => Library.foldCase c == Library.foldCase x && ilike pattern rest

def matchesFilter {α : Type} [DecidableEq α] (filter : Option α) (value : Option α) : Bool :=
  filter.isNone || decide (value = filter)

def searchPattern (search : Str) : Str := '%' :: strip search ++ ['%']

def taskCriteria [Library] (organizationId : Uuid) (filters : TaskFilterParams) (t : Task) : Bool :=
  t.organizationId = organizationId && !t.isDeleted &&
    matchesFilter filters.projectId (some t.projectId) &&
    matchesFilter filters.status (some t.status) &&
    matchesFilter filters.priority (some t.priority) &&
    matchesFilter filters.assigneeId t.assigneeId &&
    matchesFilter filters.reporterId (some t.reporterId) &&
    match filters.search with
    | none => true
    | some search =>
      search.isEmpty ||
        (ilike (searchPattern search) t.title || t.description.any (ilike (searchPattern search)))

def TaskFilterParams.arguments (filters : TaskFilterParams) : List Argument :=
  match filters.search with
  | none => []
  | some search => if search.isEmpty then [] else [.text (searchPattern search)]

/-- `list_tasks_offset`: the page and the total count, by two statements. -/
def listTasksOffset [Library] (organizationId : Uuid) (filters : TaskFilterParams)
    (offset limit : Nat) : Coro (List Task × Nat) := do
  let counted ← withArguments filters.arguments
    (ask (.select (rowsWhere .tasks (taskCriteria organizationId filters))))
  let rows ← withArguments (filters.arguments ++ [.bigint offset, .bigint limit])
    (ask (.select (rowsWhere .tasks (taskCriteria organizationId filters))))
  let sorted :=
    if filters.sortBy = "created_at:asc".toList then
      rows.insertionSort fun a b => keyLe (Task.feedKey a) (Task.feedKey b)
    else rows.insertionSort fun a b => keyLe (Task.feedKey b) (Task.feedKey a)
  pure ((sorted.drop offset).take limit, counted.length)

/-- The time in a cursor. -/
def cursorArguments (cursor : Option (Instant × Uuid)) : List Argument :=
  cursor.toList.map fun k => .timestamptz k.1

def listTasksCursor [Library] (organizationId : Uuid) (filters : TaskFilterParams)
    (cursor : Option (Instant × Uuid)) (limit : Nat) : Coro (List Task × Bool) := do
  let rows ← withArguments (filters.arguments ++ cursorArguments cursor)
    (ask (.select (rowsWhere .tasks fun t => taskCriteria organizationId filters t &&
      cursor.all fun k => decide (keyLt (Task.feedKey t) k))))
  let records := (rows.insertionSort fun a b =>
    keyLe (Task.feedKey b) (Task.feedKey a)).take (limit + 1)
  pure (records.take limit, limit < records.length)

def listCommentsCursor (organizationId taskId : Uuid) (cursor : Option (Instant × Uuid))
    (limit : Nat) : Coro (List (Comment × Option User) × Bool) := do
  let rows ← withArguments (cursorArguments cursor)
    (ask (.select (joinedLoad .comments .users (fun (c : Comment) => some c.authorId)
      fun (c : Comment) => c.organizationId = organizationId && c.taskId = taskId &&
        cursor.all fun k => decide (keyLt k c.feedKey))))
  let records := (rows.insertionSort fun a b =>
    keyLe (Comment.feedKey a.1) (Comment.feedKey b.1)).take (limit + 1)
  pure (records.take limit, limit < records.length)

/-- `list_by_task`, latest first; equal times come in any order. -/
def listByTask (organizationId taskId : Uuid) : Coro (List Attachment) := do
  let rows ← ask (.select (rowsWhere .attachments fun (a : Attachment) =>
    a.organizationId = organizationId && a.taskId = taskId))
  pure (rows.insertionSort fun (a b : Attachment) => b.createdAt ≤ a.createdAt)

/-- `_build_criteria`; an empty entity type filters nothing. -/
def auditCriteria (organizationId : Uuid) (filters : AuditLogFilterParams) (a : AuditLog) : Bool :=
  a.organizationId = organizationId &&
    (filters.entityType.all (·.isEmpty) || matchesFilter filters.entityType (some a.entityType)) &&
    matchesFilter filters.entityId (some a.entityId) &&
    matchesFilter filters.actorId a.actorId &&
    matchesFilter filters.action (some a.action) &&
    filters.startDate.all (fun d => decide (d ≤ a.timestamp)) &&
    filters.endDate.all (fun d => decide (a.timestamp ≤ d))

/-- The texts and times in these criteria. -/
def AuditLogFilterParams.arguments (filters : AuditLogFilterParams) : List Argument :=
  ((filters.entityType.filter (!·.isEmpty)).toList.map .text) ++
    (filters.startDate.toList ++ filters.endDate.toList).map .timestamptz

/-- `list_audit_logs`; equal timestamps come in any order. -/
def listAuditLogs (organizationId : Uuid) (filters : AuditLogFilterParams) (offset limit : Nat) :
    Coro (List (AuditLog × Option User) × Nat) := do
  let counted ← withArguments filters.arguments
    (ask (.select (rowsWhere .auditLogs (auditCriteria organizationId filters))))
  let rows ← withArguments (filters.arguments ++ [.bigint offset, .bigint limit])
    (ask (.select (joinedLoad .auditLogs .users (fun (a : AuditLog) => a.actorId)
      (auditCriteria organizationId filters))))
  let sorted := rows.insertionSort fun (a b : AuditLog × Option User) =>
    b.1.timestamp ≤ a.1.timestamp
  pure ((sorted.drop offset).take limit, counted.length)

end MultiTenantSaas
