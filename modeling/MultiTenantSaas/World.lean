import MultiTenantSaas.Process
import MultiTenantSaas.Schemas
import MultiTenantSaas.Hub

/-!
The state the request handlers share and the operations they perform on it, each
one atomic: a clock reading, one SQL statement or COMMIT, one Redis command, one
presigning call, one `await` on a socket.
-/

set_option autoImplicit false

namespace MultiTenantSaas

structure Faults where
  database : Bool
  redis : Bool
  storage : Bool
  sockets : Bool
  deriving DecidableEq

/-- The texts the application stores under Redis keys. -/
inductive RedisValue where
  | revoked
  | project (p : ProjectResponse)
  deriving DecidableEq

/-- Redis: string keys with the instant they expire, and sorted sets of
timestamped members with theirs. -/
structure Redis where
  strings : Str → Option (RedisValue × Instant)
  sortedSets : Str → Option (List ((Int × Int) × Int) × Instant)

namespace Redis

def empty : Redis := ⟨fun _ => none, fun _ => none⟩

def get (r : Redis) (now : Instant) (key : Str) : Option RedisValue :=
  match r.strings key with
  | none => none
  | some (v, expires) => if now < expires then some v else none

def exists' (r : Redis) (now : Instant) (key : Str) : Bool := (r.get now key).isSome

def set (r : Redis) (now : Instant) (key : Str) (v : RedisValue) (ex : Int) : Redis :=
  { r with strings := Function.update r.strings key (some (v, now + ex * second)) }

def delete (r : Redis) (key : Str) : Redis :=
  { r with strings := Function.update r.strings key none }

def sortedSet (r : Redis) (now : Instant) (key : Str) : List ((Int × Int) × Int) :=
  match r.sortedSets key with
  | none => []
  | some (members, expires) => if now < expires then members else []

/-- `ZREMRANGEBYSCORE key 0 max`, `ZADD key score member`, `EXPIRE key seconds`: the
set left behind, whose size is the answer to `ZCARD`. -/
def slide (r : Redis) (now : Instant) (key : Str) (member : Int × Int) (max score : Int) :
    List ((Int × Int) × Int) :=
  (((r.sortedSet now key).filter fun m => !(0 ≤ m.2 && m.2 ≤ max)).filter
    fun m => m.1 ≠ member) ++ [(member, score)]

def setSorted (r : Redis) (now : Instant) (key : Str) (members : List ((Int × Int) × Int))
    (seconds : Nat) : Redis :=
  { r with
    sortedSets := Function.update r.sortedSets key (some (members, now + seconds * second)) }

end Redis

/-- What happened, for statements about whole runs: no program reads it. -/
inductive Event where
  | commit (before : Db) (written : List Entry)
  | rollback
  | redisExists (key : Str) (answer : Bool)
  | redisSet (key : Str)
  | publish (m : Message)
  | presignPut (key : Str)
  | presignGet (key : Str)

structure World where
  db : Db
  /-- Rows written by open transactions, with the session that wrote them. -/
  pending : List (Nat × Entry)
  redis : Redis
  now : Instant
  /-- The UUIDs drawn so far. -/
  drawn : List Uuid
  hub : Hub
  faults : Faults
  trace : List (Nat × Event)

/-- A committed transaction: its session, the rows before it and those it wrote. -/
structure Commit where
  session : Nat
  before : Db
  written : List Entry

def Event.committed : Nat × Event → Option Commit
  | (i, .commit before written) => some ⟨i, before, written⟩
  | _ => none

def World.commits (w : World) : List Commit := w.trace.filterMap Event.committed

/-- The operations handlers perform. A `select` names what the statement reads; the
rows come in any order. -/
inductive Op : Type 1 where
  | clock
  | perfCounter
  | uuid4
  | select {ρ : Type} (query : Db → List ρ)
  | insert (t : Table) (values : Uuid → Instant → t.Row)
  | flushUpdate (t : Table) (id : Uuid) (set : Instant → t.Row → t.Row)
  | updateWhere (t : Table) (id : Uuid) (criteria : t.Row → Bool) (set : Instant → t.Row → t.Row)
  | commit
  | rollback
  | redisGet (key : Str)
  | redisSet (key : Str) (v : RedisValue) (ex : Int)
  | redisExists (key : Str)
  | redisDelete (key : Str)
  | slidingWindow (key : Str) (member : Int × Int) (max score : Int) (seconds : Nat)
  | publish (channel event : Str) (data : JsonObject)
  | presignPut (key contentType : Str) (expiresIn : Nat)
  | presignGet (key : Str) (expiresIn : Nat)
  | enqueue (function : Str) (args : List Str)
  | validateEmail (email : Str)
  | wsAccept
  | wsClose (code : Nat)
  | receiveText (text : Str)
  | receiveEnd
  | hubConnect (p : Uuid)
  | hubDisconnect (p : Uuid)

@[reducible] def Op.Resp : Op → Type
  | .clock => Instant
  | .perfCounter => Int
  | .uuid4 => Uuid
  | @Op.select ρ _ => List ρ
  | .insert t _ => t.Row
  | .flushUpdate _ _ _ => Unit
  | .updateWhere t _ _ _ => Option t.Row
  | .redisGet _ => Option RedisValue
  | .redisExists _ => Bool
  | .slidingWindow _ _ _ _ _ => Nat
  | .presignPut _ _ _ => Str
  | .presignGet _ _ => Str
  | .validateEmail _ => EmailStr
  | .receiveEnd => Empty
  | _ => Unit

def sig : Process.Signature := ⟨Op, Op.Resp⟩

abbrev Coro (α : Type) := Process.Prog sig Exn α

namespace World

def rows (w : World) (i : Nat) : List Entry :=
  (w.pending.filter fun e => e.1 = i).map Prod.snd

/-- What session `i` reads: the committed rows and its own. -/
def view (w : World) (i : Nat) : Db := w.db.apply (w.rows i)

/-- Another session holds a lock on the row, or on a row with its unique key. -/
def blocked (w : World) (i : Nat) (e : Entry) : Bool :=
  w.pending.any fun f => f.1 ≠ i &&
    (decide (f.2.slot = e.slot) || (e.uniqueKey.isSome && decide (f.2.uniqueKey = e.uniqueKey)))

def log (w : World) (i : Nat) (e : Event) : World := { w with trace := (i, e) :: w.trace }

def write (w : World) (i : Nat) (e : Entry) : World := { w with pending := w.pending ++ [(i, e)] }

def endTransaction (w : World) (i : Nat) : World :=
  { w with pending := w.pending.filter fun e => e.1 ≠ i }

def violation (db : Db) (t : Table) (r : t.Row) : Option Exn :=
  if !t.fits r then some .dataError
  else if !(db.uniqueFree t r && db.refsExist t r) then some .integrityError
  else none

/-- INSERT, with the primary key `id`; no answer while it is blocked. -/
def insert (w : World) (i : Nat) (t : Table) (values : Uuid → Instant → t.Row) (id : Uuid) :
    Option (Except Exn t.Row × World) :=
  let r := values id w.now
  let drawn := { w with drawn := id :: w.drawn }
  if w.blocked i ⟨t, r⟩ then none
  else if ((w.view i).get t (t.id r)).isSome then some (.error .integrityError, drawn)
  else match violation (w.view i) t r with
    | some e => some (.error e, drawn)
    | none => some (.ok r, drawn.write i ⟨t, r⟩)

/-- UPDATE of one row by primary key and `criteria`, evaluated when the row is not
locked by another session; `none` when no row matches. -/
def update (w : World) (i : Nat) (t : Table) (id : Uuid) (criteria : t.Row → Bool)
    (set : Instant → t.Row → t.Row) : Option (Except Exn (Option t.Row) × World) :=
  match (w.view i).get t id with
  | none => some (.ok none, w)
  | some old =>
    if !criteria old then some (.ok none, w)
    else if w.blocked i ⟨t, old⟩ || w.blocked i ⟨t, set w.now old⟩ then none
    else match violation (w.view i) t (set w.now old) with
      | some e => some (.error e, w)
      | none => some (.ok (some (set w.now old)), w.write i ⟨t, set w.now old⟩)

/-- The flush of a changed object: exactly one row must match. -/
def flushUpdate (w : World) (i : Nat) (t : Table) (id : Uuid) (set : Instant → t.Row → t.Row) :
    Option (Except Exn Unit × World) :=
  (w.update i t id (fun _ => true) set).map fun p =>
    match p.1 with
    | .error e => (.error e, p.2)
    | .ok none => (.error .staleDataError, p.2)
    | .ok (some _) => (.ok (), p.2)

def commit (w : World) (i : Nat) : World :=
  { (w.endTransaction i).log i (.commit w.db (w.rows i)) with db := w.db.apply (w.rows i) }

def rollback (w : World) (i : Nat) : World := (w.endTransaction i).log i .rollback

def slide (w : World) (key : Str) (member : Int × Int) (max score : Int) (seconds : Nat) : World :=
  let members := w.redis.slide w.now key member max score
  { w with redis := w.redis.setSorted w.now key members seconds }

def publish (w : World) (m : Message) : World :=
  { w.log m.publisher (.publish m) with hub := w.hub.publish m }

end World

def failed {α : Type} (faulty : Bool) (a : Except Exn α) : Prop :=
  faulty = true ∧ a = .error .unavailable

/-- One atomic execution of an operation by session `i`. -/
def exec [Library] (i : Nat) : (o : Op) → World → Except Exn o.Resp → World → Prop
  | .clock, w, a, w' => a = .ok w.now ∧ w' = w
  | .perfCounter, w, a, w' => (∃ x, a = .ok x) ∧ w' = w
  | .uuid4, w, a, w' => ∃ u, u ∉ w.drawn ∧ a = .ok u ∧ w' = { w with drawn := u :: w.drawn }
  | .select q, w, a, w' =>
    w' = w ∧ ((∃ rows, a = .ok rows ∧ rows.Perm (q (w.view i))) ∨ failed w.faults.database a)
  | .insert t values, w, a, w' =>
    (∃ id, id ∉ w.drawn ∧ w.insert i t values id = some (a, w')) ∨
      (w' = w ∧ failed w.faults.database a)
  | .flushUpdate t id set, w, a, w' =>
    w.flushUpdate i t id set = some (a, w') ∨ (w' = w ∧ failed w.faults.database a)
  | .updateWhere t id criteria set, w, a, w' =>
    w.update i t id criteria set = some (a, w') ∨ (w' = w ∧ failed w.faults.database a)
  | .commit, w, a, w' =>
    (a = .ok () ∧ w' = w.commit i) ∨ (w' = w.endTransaction i ∧ failed w.faults.database a)
  | .rollback, w, a, w' => a = .ok () ∧ w' = w.rollback i
  | .redisGet key, w, a, w' =>
    w' = w ∧ (a = .ok (w.redis.get w.now key) ∨ failed w.faults.redis a)
  | .redisSet key v ex, w, a, w' =>
    (a = .ok () ∧ w' = { w.log i (.redisSet key) with redis := w.redis.set w.now key v ex }) ∨
      (w' = w ∧ failed w.faults.redis a)
  | .redisExists key, w, a, w' =>
    (a = .ok (w.redis.exists' w.now key) ∧
      w' = w.log i (.redisExists key (w.redis.exists' w.now key))) ∨
      (w' = w ∧ failed w.faults.redis a)
  | .redisDelete key, w, a, w' =>
    (a = .ok () ∧ w' = { w with redis := w.redis.delete key }) ∨ (w' = w ∧ failed w.faults.redis a)
  | .slidingWindow key member max score seconds, w, a, w' =>
    (a = .ok (w.redis.slide w.now key member max score).length ∧
      w' = w.slide key member max score seconds) ∨
      (w' = w ∧ failed w.faults.redis a)
  | .publish channel event data, w, a, w' =>
    (a = .ok () ∧ w' = w.publish ⟨channel, event, data, i⟩) ∨ (w' = w ∧ failed w.faults.redis a)
  | .presignPut key contentType expiresIn, w, a, w' =>
    (a = .ok (Library.presignedPut key contentType expiresIn) ∧ w' = w.log i (.presignPut key)) ∨
      (w' = w ∧ failed w.faults.storage a)
  | .presignGet key expiresIn, w, a, w' =>
    ((key ≠ [] ∧ a = .ok (Library.presignedGet key expiresIn)) ∧
      w' = w.log i (.presignGet key)) ∨
      (w' = w ∧ (key = [] ∧ a = .error .paramValidationError ∨ failed w.faults.storage a))
  | .enqueue _ _, w, a, w' => w' = w ∧ (a = .ok () ∨ failed w.faults.redis a)
  | .validateEmail email, w, a, w' =>
    w' = w ∧ ((∃ x, Library.validateEmail email = some x ∧ a = .ok x) ∨
      (Library.validateEmail email = none ∧ a = .error .validationError))
  | .wsAccept, w, a, w' => w' = w ∧ (a = .ok () ∨ failed w.faults.sockets a)
  | .wsClose _, w, a, w' => w' = w ∧ (a = .ok () ∨ failed w.faults.sockets a)
  | .receiveText _, w, a, w' =>
    w' = w ∧ (a = .ok () ∨ a = .error .webSocketDisconnect ∨ a = .error .unavailable)
  | .receiveEnd, w, a, w' =>
    w' = w ∧ (a = .error .webSocketDisconnect ∨ a = .error .unavailable)
  | .hubConnect p, w, a, w' => a = .ok () ∧ w' = { w with hub := w.hub.connect p i }
  | .hubDisconnect p, w, a, w' => a = .ok () ∧ w' = { w with hub := w.hub.disconnect p i }

/-- The clock advances, or a listener task makes a step. -/
inductive Environment : World → World → Prop where
  | tick (w : World) (now : Instant) : w.now ≤ now → Environment w { w with now := now }
  | listen (w : World) (k : Nat) (wake : Wake) (hub : Hub) :
      w.hub.listen w.faults.redis w.faults.sockets k wake = some hub →
      Environment w { w with hub := hub }

def machine [Library] : Process.Machine sig Exn World := ⟨exec, Environment⟩

/-- The `n`th UUID a scheduler draws: its first digits count. -/
def drawnId (n : Nat) : Uuid := ⟨Fin.ofNat _ (n * 2 ^ 104)⟩

def World.nextId (w : World) : Uuid := drawnId (w.drawn.length + 1)

/-- One execution as a function, for runs on concrete inputs: whether a service that
may fail does is up to the scheduler. -/
def next [Library] (i : Nat) (fails : Bool) :
    (o : Op) → World → Option (Except Exn o.Resp × World)
  | .clock, w => some (.ok w.now, w)
  | .perfCounter, w => some (.ok w.drawn.length, w)
  | .uuid4, w =>
    if w.nextId ∈ w.drawn then none
    else some (.ok w.nextId, { w with drawn := w.nextId :: w.drawn })
  | .select q, w =>
    if fails then if w.faults.database then some (.error .unavailable, w) else none
    else some (.ok (q (w.view i)), w)
  | .insert t values, w =>
    if fails then if w.faults.database then some (.error .unavailable, w) else none
    else if w.nextId ∈ w.drawn then none else w.insert i t values w.nextId
  | .flushUpdate t id set, w =>
    if fails then if w.faults.database then some (.error .unavailable, w) else none
    else w.flushUpdate i t id set
  | .updateWhere t id criteria set, w =>
    if fails then if w.faults.database then some (.error .unavailable, w) else none
    else w.update i t id criteria set
  | .commit, w =>
    if fails then
      if w.faults.database then some (.error .unavailable, w.endTransaction i) else none
    else some (.ok (), w.commit i)
  | .rollback, w => some (.ok (), w.rollback i)
  | .redisGet key, w =>
    if fails then if w.faults.redis then some (.error .unavailable, w) else none
    else some (.ok (w.redis.get w.now key), w)
  | .redisSet key v ex, w =>
    if fails then if w.faults.redis then some (.error .unavailable, w) else none
    else some (.ok (), { w.log i (.redisSet key) with redis := w.redis.set w.now key v ex })
  | .redisExists key, w =>
    if fails then if w.faults.redis then some (.error .unavailable, w) else none
    else some (.ok (w.redis.exists' w.now key),
      w.log i (.redisExists key (w.redis.exists' w.now key)))
  | .redisDelete key, w =>
    if fails then if w.faults.redis then some (.error .unavailable, w) else none
    else some (.ok (), { w with redis := w.redis.delete key })
  | .slidingWindow key member max score seconds, w =>
    if fails then if w.faults.redis then some (.error .unavailable, w) else none
    else some (.ok (w.redis.slide w.now key member max score).length,
      w.slide key member max score seconds)
  | .publish channel event data, w =>
    if fails then if w.faults.redis then some (.error .unavailable, w) else none
    else some (.ok (), w.publish ⟨channel, event, data, i⟩)
  | .presignPut key contentType expiresIn, w =>
    if fails then if w.faults.storage then some (.error .unavailable, w) else none
    else some (.ok (Library.presignedPut key contentType expiresIn), w.log i (.presignPut key))
  | .presignGet key expiresIn, w =>
    if fails then if w.faults.storage then some (.error .unavailable, w) else none
    else if key = [] then some (.error .paramValidationError, w)
    else some (.ok (Library.presignedGet key expiresIn), w.log i (.presignGet key))
  | .enqueue _ _, w =>
    if fails then if w.faults.redis then some (.error .unavailable, w) else none
    else some (.ok (), w)
  | .wsAccept, w =>
    if fails then if w.faults.sockets then some (.error .unavailable, w) else none
    else some (.ok (), w)
  | .wsClose _, w =>
    if fails then if w.faults.sockets then some (.error .unavailable, w) else none
    else some (.ok (), w)
  | .validateEmail email, w =>
    match Library.validateEmail email with
    | some x => some (.ok x, w)
    | none => some (.error .validationError, w)
  | .receiveText _, w => some (if fails then .error .unavailable else .ok (), w)
  | .receiveEnd, w => some (.error (if fails then .unavailable else .webSocketDisconnect), w)
  | .hubConnect p, w => some (.ok (), { w with hub := w.hub.connect p i })
  | .hubDisconnect p, w => some (.ok (), { w with hub := w.hub.disconnect p i })

theorem next_exec [Library] {i : Nat} {fails : Bool} {o : Op} {w w' : World}
    {a : Except Exn o.Resp} (h : next i fails o w = some (a, w')) : exec i o w a w' := by
  cases o <;> simp only [next] at h <;> simp only [exec, failed]
  case clock | perfCounter | rollback | hubConnect | hubDisconnect => cases h; simp
  case receiveText | receiveEnd => cases h; cases fails <;> simp
  case validateEmail email =>
    split at h
    · next x hx => cases h; exact ⟨rfl, Or.inl ⟨x, hx, rfl⟩⟩
    · next hx => cases h; exact ⟨rfl, Or.inr ⟨hx, rfl⟩⟩
  case presignGet key expiresIn =>
    split at h
    · split at h
      · next hf => cases h; exact Or.inr ⟨rfl, Or.inr ⟨hf, rfl⟩⟩
      · cases h
    · split at h
      · next hkey => cases h; exact Or.inr ⟨rfl, Or.inl ⟨hkey, rfl⟩⟩
      · next hkey => cases h; exact Or.inl ⟨⟨hkey, rfl⟩, rfl⟩
  case uuid4 =>
    split at h
    · cases h
    · next hu => cases h; exact ⟨_, hu, rfl, rfl⟩
  case insert =>
    split at h
    · split at h
      · next hf => cases h; exact Or.inr ⟨rfl, hf, rfl⟩
      · cases h
    · split at h
      · cases h
      · next hu => exact Or.inl ⟨_, hu, h⟩
  case flushUpdate | updateWhere =>
    split at h
    · split at h
      · next hf => cases h; exact Or.inr ⟨rfl, hf, rfl⟩
      · cases h
    · exact Or.inl h
  case commit | redisSet | redisExists | redisDelete | slidingWindow | publish | presignPut =>
    split at h
    · split at h
      · next hf => cases h; exact Or.inr ⟨rfl, hf, rfl⟩
      · cases h
    · cases h; exact Or.inl ⟨rfl, rfl⟩
  case redisGet | enqueue | wsAccept | wsClose =>
    split at h
    · split at h
      · next hf => cases h; exact ⟨rfl, Or.inr ⟨hf, rfl⟩⟩
      · cases h
    · cases h; exact ⟨rfl, Or.inl rfl⟩
  case select q =>
    split at h
    · split at h
      · next hf => cases h; exact ⟨rfl, Or.inr ⟨hf, rfl⟩⟩
      · cases h
    · cases h; exact ⟨rfl, Or.inl ⟨_, rfl, List.Perm.refl _⟩⟩

inductive Turn where
  | tick (now : Instant)
  | listen (k : Nat) (wake : Wake)

def turn : Turn → World → Option World
  | .tick now, w => if w.now ≤ now then some { w with now := now } else none
  | .listen k wake, w => (w.hub.listen w.faults.redis w.faults.sockets k wake).map
      fun hub => { w with hub := hub }

theorem turn_environment {x : Turn} {w w' : World} (h : turn x w = some w') :
    Environment w w' := by
  cases x with
  | tick now =>
    simp only [turn] at h
    split at h
    · next hle => cases h; exact .tick w now hle
    · cases h
  | listen k wake =>
    obtain ⟨hub, hl, rfl⟩ := Option.map_eq_some_iff.mp h
    exact .listen w k wake hub hl

def scheduler [Library] : Process.Scheduler machine Bool Turn :=
  ⟨next, turn, fun _ _ _ _ _ _ => next_exec, fun _ _ _ => turn_environment⟩

end MultiTenantSaas
