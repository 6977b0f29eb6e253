import MultiTenantSaas.KeyedRows
import MultiTenantSaas.Text

/-!
The tables of the application: their rows, their columns' limits and their
constraints, and the committed content of the database.
-/

set_option autoImplicit false

namespace MultiTenantSaas

/-- Microseconds since the epoch, in UTC. -/
abbrev Instant := Int

def second : Int := 1000000

inductive OrgRole where
  | owner | admin | manager | member | viewer
  deriving DecidableEq

inductive TaskStatus where
  | backlog | todo | inProgress | inReview | done
  deriving DecidableEq

inductive TaskPriority where
  | low | medium | high | urgent
  deriving DecidableEq

inductive AuditAction where
  | create | update | delete | softDelete | restore
  deriving DecidableEq

def OrgRole.value : OrgRole → Str
  | .owner => "owner".toList
  | .admin => "admin".toList
  | .manager => "manager".toList
  | .member => "member".toList
  | .viewer => "viewer".toList

def TaskStatus.value : TaskStatus → Str
  | .backlog => "backlog".toList
  | .todo => "todo".toList
  | .inProgress => "in_progress".toList
  | .inReview => "in_review".toList
  | .done => "done".toList

def TaskPriority.value : TaskPriority → Str
  | .low => "low".toList
  | .medium => "medium".toList
  | .high => "high".toList
  | .urgent => "urgent".toList

/-- The JSON values the code puts into audit states and event data. -/
inductive Json where
  | null | bool (b : Bool) | int (n : Int) | str (s : Str)
  deriving DecidableEq

def Json.ofOption : Option Str → Json
  | none => .null
  | some s => .str s

/-- A JSON object, its members in order. -/
abbrev JsonObject := List (Str × Json)

structure User where
  id : Uuid
  email : Str
  hashedPassword : Str
  fullName : Str
  avatarUrl : Option Str
  isActive : Bool
  isVerified : Bool
  createdAt : Instant
  updatedAt : Instant
  deriving DecidableEq

structure Organization where
  id : Uuid
  name : Str
  slug : Str
  logoUrl : Option Str
  isActive : Bool
  createdAt : Instant
  updatedAt : Instant
  deriving DecidableEq

structure OrganizationMember where
  id : Uuid
  organizationId : Uuid
  userId : Uuid
  role : OrgRole
  createdAt : Instant
  updatedAt : Instant
  deriving DecidableEq

structure Team where
  id : Uuid
  organizationId : Uuid
  name : Str
  slug : Str
  description : Option Str
  createdAt : Instant
  updatedAt : Instant
  deriving DecidableEq

structure TeamMember where
  id : Uuid
  organizationId : Uuid
  teamId : Uuid
  userId : Uuid
  createdAt : Instant
  updatedAt : Instant
  deriving DecidableEq

structure Project where
  id : Uuid
  organizationId : Uuid
  teamId : Option Uuid
  name : Str
  key : Str
  description : Option Str
  isArchived : Bool
  versionId : Int
  createdAt : Instant
  updatedAt : Instant
  deriving DecidableEq

structure Task where
  id : Uuid
  organizationId : Uuid
  projectId : Uuid
  parentId : Option Uuid
  reporterId : Uuid
  assigneeId : Option Uuid
  title : Str
  description : Option Str
  status : TaskStatus
  priority : TaskPriority
  dueDate : Option Instant
  versionId : Int
  createdAt : Instant
  updatedAt : Instant
  isDeleted : Bool
  deletedAt : Option Instant
  deriving DecidableEq

structure Comment where
  id : Uuid
  organizationId : Uuid
  taskId : Uuid
  authorId : Uuid
  content : Str
  isEdited : Bool
  createdAt : Instant
  updatedAt : Instant
  deriving DecidableEq

structure Attachment where
  id : Uuid
  organizationId : Uuid
  taskId : Uuid
  uploaderId : Uuid
  fileName : Str
  fileSize : Int
  contentType : Str
  s3Key : Str
  createdAt : Instant
  updatedAt : Instant
  deriving DecidableEq

structure AuditLog where
  id : Uuid
  organizationId : Uuid
  actorId : Option Uuid
  entityType : Str
  entityId : Uuid
  action : AuditAction
  beforeState : Option JsonObject
  afterState : Option JsonObject
  ipAddress : Option Str
  userAgent : Option Str
  timestamp : Instant
  deriving DecidableEq

inductive Table where
  | users | organizations | organizationMembers | teams | teamMembers
  | projects | tasks | comments | attachments | auditLogs
  deriving DecidableEq

@[reducible] def Table.Row : Table → Type
  | .users => User
  | .organizations => Organization
  | .organizationMembers => OrganizationMember
  | .teams => Team
  | .teamMembers => TeamMember
  | .projects => Project
  | .tasks => Task
  | .comments => Comment
  | .attachments => Attachment
  | .auditLogs => AuditLog

instance instDecidableEqRow : (t : Table) → DecidableEq t.Row
  | .users => inferInstanceAs (DecidableEq User)
  | .organizations => inferInstanceAs (DecidableEq Organization)
  | .organizationMembers => inferInstanceAs (DecidableEq OrganizationMember)
  | .teams => inferInstanceAs (DecidableEq Team)
  | .teamMembers => inferInstanceAs (DecidableEq TeamMember)
  | .projects => inferInstanceAs (DecidableEq Project)
  | .tasks => inferInstanceAs (DecidableEq Task)
  | .comments => inferInstanceAs (DecidableEq Comment)
  | .attachments => inferInstanceAs (DecidableEq Attachment)
  | .auditLogs => inferInstanceAs (DecidableEq AuditLog)

namespace Table

def id : (t : Table) → t.Row → Uuid
  | .users, r => User.id r
  | .organizations, r => Organization.id r
  | .organizationMembers, r => OrganizationMember.id r
  | .teams, r => Team.id r
  | .teamMembers, r => TeamMember.id r
  | .projects, r => Project.id r
  | .tasks, r => Task.id r
  | .comments, r => Comment.id r
  | .attachments, r => Attachment.id r
  | .auditLogs, r => AuditLog.id r

/-- The organization a row belongs to; users belong to none. -/
def org : (t : Table) → t.Row → Option Uuid
  | .users, _ => none
  | .organizations, r => some (Organization.id r)
  | .organizationMembers, r => some (OrganizationMember.organizationId r)
  | .teams, r => some (Team.organizationId r)
  | .teamMembers, r => some (TeamMember.organizationId r)
  | .projects, r => some (Project.organizationId r)
  | .tasks, r => some (Task.organizationId r)
  | .comments, r => some (Comment.organizationId r)
  | .attachments, r => some (Attachment.organizationId r)
  | .auditLogs, r => some (AuditLog.organizationId r)

end Table

/-- The values that a unique index or constraint holds apart. -/
inductive UniqueKey where
  | userEmail (email : Str)
  | organizationSlug (slug : Str)
  | orgMemberUser (organizationId userId : Uuid)
  | teamOrgSlug (organizationId : Uuid) (slug : Str)
  | teamMemberUser (teamId userId : Uuid)
  | projectOrgKey (organizationId : Uuid) (key : Str)
  deriving DecidableEq

def Table.uniqueKey : (t : Table) → t.Row → Option UniqueKey
  | .users, r => some (.userEmail (User.email r))
  | .organizations, r => some (.organizationSlug (Organization.slug r))
  | .organizationMembers, r =>
    some (.orgMemberUser (OrganizationMember.organizationId r) (OrganizationMember.userId r))
  | .teams, r => some (.teamOrgSlug (Team.organizationId r) (Team.slug r))
  | .teamMembers, r => some (.teamMemberUser (TeamMember.teamId r) (TeamMember.userId r))
  | .projects, r => some (.projectOrgKey (Project.organizationId r) (Project.key r))
  | .tasks, _ => none
  | .comments, _ => none
  | .attachments, _ => none
  | .auditLogs, _ => none

def optionalRef (t : Table) : Option Uuid → List (Table × Uuid)
  | none => []
  | some u => [(t, u)]

/-- The rows a row refers to by its foreign keys that are not NULL. -/
def Table.refs : (t : Table) → t.Row → List (Table × Uuid)
  | .users, _ => []
  | .organizations, _ => []
  | .organizationMembers, r =>
    [(.organizations, OrganizationMember.organizationId r), (.users, OrganizationMember.userId r)]
  | .teams, r => [(.organizations, Team.organizationId r)]
  | .teamMembers, r =>
    [(.organizations, TeamMember.organizationId r), (.teams, TeamMember.teamId r),
      (.users, TeamMember.userId r)]
  | .projects, r =>
    (.organizations, Project.organizationId r) :: optionalRef .teams (Project.teamId r)
  | .tasks, r =>
    [(.organizations, Task.organizationId r), (.projects, Task.projectId r),
      (.users, Task.reporterId r)] ++ optionalRef .tasks (Task.parentId r) ++
      optionalRef .users (Task.assigneeId r)
  | .comments, r =>
    [(.organizations, Comment.organizationId r), (.tasks, Comment.taskId r),
      (.users, Comment.authorId r)]
  | .attachments, r =>
    [(.organizations, Attachment.organizationId r), (.tasks, Attachment.taskId r),
      (.users, Attachment.uploaderId r)]
  | .auditLogs, r =>
    (.organizations, AuditLog.organizationId r) :: optionalRef .users (AuditLog.actorId r)

def varchar (n : Nat) (s : Str) : Bool := s.length ≤ n

theorem varchar_iff {n : Nat} {s : Str} : varchar n s = true ↔ s.length ≤ n := decide_eq_true_iff

def varcharOpt (n : Nat) (s : Option Str) : Bool := s.all (varchar n)

def int4 (n : Int) : Bool := -2147483648 ≤ n && n ≤ 2147483647

def int8 (n : Int) : Bool := -9223372036854775808 ≤ n && n ≤ 9223372036854775807

def Table.fits : (t : Table) → t.Row → Bool
  | .users, r => varchar 255 (User.email r) && varchar 255 (User.hashedPassword r) &&
      varchar 100 (User.fullName r) && varcharOpt 1024 (User.avatarUrl r)
  | .organizations, r => varchar 100 (Organization.name r) && varchar 100 (Organization.slug r) &&
      varcharOpt 1024 (Organization.logoUrl r)
  | .organizationMembers, _ => true
  | .teams, r => varchar 100 (Team.name r) && varchar 100 (Team.slug r)
  | .teamMembers, _ => true
  | .projects, r => varchar 100 (Project.name r) && varchar 10 (Project.key r) &&
      int4 (Project.versionId r)
  | .tasks, r => varchar 255 (Task.title r) && int4 (Task.versionId r)
  | .comments, _ => true
  | .attachments, r => varchar 255 (Attachment.fileName r) && int8 (Attachment.fileSize r) &&
      varchar 100 (Attachment.contentType r) && varchar 1024 (Attachment.s3Key r)
  | .auditLogs, r => varchar 50 (AuditLog.entityType r) && varcharOpt 45 (AuditLog.ipAddress r) &&
      varcharOpt 512 (AuditLog.userAgent r)

structure Entry where
  table : Table
  row : table.Row

def Entry.id (e : Entry) : Uuid := e.table.id e.row

def Entry.slot (e : Entry) : Table × Uuid := (e.table, e.id)

def Entry.uniqueKey (e : Entry) : Option UniqueKey := e.table.uniqueKey e.row

structure Db where
  rows : (t : Table) → Keyed.Rows t.id

namespace Db

def empty : Db := ⟨fun _ => .empty⟩

def put (e : Entry) (db : Db) : Db :=
  ⟨Function.update db.rows e.table ((db.rows e.table).put e.row)⟩

def get (db : Db) (t : Table) (id : Uuid) : Option t.Row := (db.rows t).get id

def apply (db : Db) (es : List Entry) : Db := es.foldl (fun db e => db.put e) db

def refsExist (db : Db) (t : Table) (r : t.Row) : Bool :=
  (t.refs r).all fun p => (db.get p.1 p.2).isSome

def uniqueFree (db : Db) (t : Table) (r : t.Row) : Bool :=
  (t.uniqueKey r).all fun k =>
    (db.rows t).list.all fun z => decide (t.id z = t.id r) || decide (t.uniqueKey z ≠ some k)

@[simp] theorem apply_nil (db : Db) : db.apply [] = db := rfl

@[simp] theorem apply_append (db : Db) (es fs : List Entry) :
    db.apply (es ++ fs) = (db.apply es).apply fs := List.foldl_append

theorem mem_put {db : Db} {e : Entry} {t : Table} {r : t.Row} :
    r ∈ (db.put e).rows t ↔ (⟨t, r⟩ : Entry) = e ∨ (r ∈ db.rows t ∧ (t, t.id r) ≠ e.slot) := by
  obtain ⟨t', r'⟩ := e
  by_cases h : t = t'
  · subst h
    simp [put, Keyed.Rows.mem_put, Entry.slot, Entry.id]
  · simp [put, h, Entry.slot]

theorem get_put_self (db : Db) (e : Entry) : (db.put e).get e.table e.id = some e.row := by
  simp [get, put, Entry.id]

theorem get_put_of_ne (db : Db) {e : Entry} {t : Table} {id : Uuid} (h : (t, id) ≠ e.slot) :
    (db.put e).get t id = db.get t id := by
  obtain ⟨t', r⟩ := e
  by_cases ht : t = t'
  · subst ht
    simp only [get, put, Function.update_self]
    exact Keyed.Rows.get_put_of_ne _ fun hid => h (by simp [Entry.slot, Entry.id, hid])
  · simp [get, put, Function.update_of_ne ht]

theorem get_apply_of_ne (db : Db) {es : List Entry} {t : Table} {id : Uuid}
    (h : ∀ e ∈ es, (t, id) ≠ e.slot) : (db.apply es).get t id = db.get t id := by
  induction es generalizing db with
  | nil => rfl
  | cons e es ih =>
    change ((db.put e).apply es).get t id = _
    rw [ih (db.put e) fun x hx => h x (List.mem_cons_of_mem _ hx)]
    exact get_put_of_ne db (h e List.mem_cons_self)

theorem mem_apply {db : Db} {es : List Entry} {t : Table} {r : t.Row}
    (h : r ∈ (db.apply es).rows t) :
    (⟨t, r⟩ : Entry) ∈ es ∨ (r ∈ db.rows t ∧ ∀ e ∈ es, (t, t.id r) ≠ e.slot) := by
  induction es generalizing db with
  | nil => exact Or.inr ⟨h, by simp⟩
  | cons e es ih =>
    rcases ih h with hm | ⟨hm, hne⟩
    · exact Or.inl (List.mem_cons_of_mem _ hm)
    · rcases mem_put.mp hm with he | ⟨hr, hs⟩
      · exact Or.inl (he ▸ List.mem_cons_self)
      · exact Or.inr ⟨hr, by simpa [hs] using hne⟩

theorem get_eq_some {db : Db} {t : Table} {id : Uuid} {r : t.Row} :
    db.get t id = some r ↔ r ∈ db.rows t ∧ t.id r = id := Keyed.Rows.get_eq_some

theorem get_eq_none {db : Db} {t : Table} {id : Uuid} :
    db.get t id = none ↔ ∀ r ∈ db.rows t, t.id r ≠ id := Keyed.Rows.get_eq_none

theorem get_apply_of_mem {db : Db} {e : Entry} {es : List Entry} (he : e ∈ es)
    (hnodup : (es.map Entry.table).Nodup) : (db.apply es).get e.table e.id = some e.row := by
  induction es generalizing db with
  | nil => cases he
  | cons f es ih =>
    rw [List.map_cons, List.nodup_cons] at hnodup
    change ((db.put f).apply es).get e.table e.id = _
    rcases List.mem_cons.mp he with rfl | he
    · rw [get_apply_of_ne, get_put_self]
      exact fun g hg hs => hnodup.1 (List.mem_map.mpr ⟨g, hg, (congrArg Prod.fst hs).symm⟩)
    · exact ih he hnodup.2

theorem get_of_mem {db : Db} {t : Table} {r : t.Row} (h : r ∈ db.rows t) :
    db.get t (t.id r) = some r := get_eq_some.mpr ⟨h, rfl⟩

theorem eq_of_id {db : Db} {t : Table} {r z : t.Row} (hr : r ∈ db.rows t) (hz : z ∈ db.rows t)
    (h : t.id r = t.id z) : r = z := Keyed.Rows.eq_of_key hr hz h

@[simp] theorem not_mem_empty {t : Table} (r : t.Row) : r ∉ Db.empty.rows t :=
  Keyed.Rows.not_mem_empty r

theorem refsExist_iff {db : Db} {t : Table} {r : t.Row} :
    db.refsExist t r = true ↔ ∀ p ∈ t.refs r, ∃ z, db.get p.1 p.2 = some z := by
  simp [refsExist, List.all_eq_true, Option.isSome_iff_exists]

end Db

end MultiTenantSaas
