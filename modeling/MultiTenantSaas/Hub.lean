import MultiTenantSaas.Models

/-!
The WebSocket hub: rooms of sockets, one Redis subscription for each room, and
the listener task that moves messages from the subscription to the sockets.
A socket is named by the number of the request that opened it.
-/

set_option autoImplicit false

namespace MultiTenantSaas

/-- A message on a Redis channel: the event and data of its JSON text, and the
request that published it. -/
structure Message where
  channel : Str
  event : Str
  data : JsonObject
  publisher : Nat
  deriving DecidableEq

/-- Where a listener task waits: the `await` it returns from at its next step. -/
inductive ListenerState where
  | starting
  | subscribing
  | polling
  | sending (m : Message) (rest dead : List Nat)
  | sleeping
  | unsubscribing
  | ended
  deriving DecidableEq

structure Listener where
  project : Uuid
  state : ListenerState
  cancelled : Bool
  subscribed : Bool
  queue : List Message
  deriving DecidableEq

structure Hub where
  rooms : Uuid → Option (List Nat)
  listenerTasks : Uuid → Option Nat
  tasks : Nat → Option Listener
  created : Nat
  /-- What each socket was sent, newest first. -/
  sent : List (Nat × Message)

def channelName (projectId : Uuid) : Str := "project_events:".toList ++ projectId.str

theorem channelName_injective {p q : Uuid} (h : channelName p = channelName q) : p = q :=
  Uuid.str_injective (List.append_cancel_left h)

def Hub.room (hub : Hub) (p : Uuid) : List Nat := (hub.rooms p).getD []

def Listener.cancel (l : Listener) : Listener := { l with cancelled := true }

def Listener.deliver (m : Message) (l : Listener) : Listener :=
  if l.subscribed && channelName l.project == m.channel then { l with queue := l.queue ++ [m] }
  else l

def Listener.start (p : Uuid) : Listener := ⟨p, .starting, false, false, []⟩

namespace Hub

def empty : Hub := ⟨fun _ => none, fun _ => none, fun _ => none, 0, []⟩

def setRoom (hub : Hub) (p : Uuid) (room : Option (List Nat)) : Hub :=
  { hub with rooms := Function.update hub.rooms p room }

def setTask (hub : Hub) (k : Nat) (l : Listener) : Hub :=
  { hub with tasks := Function.update hub.tasks k (some l) }

def createListener (hub : Hub) (p : Uuid) : Hub :=
  { hub.setTask hub.created (.start p) with
    listenerTasks := Function.update hub.listenerTasks p (some hub.created)
    created := hub.created + 1 }

/-- The first socket of a project makes a room and starts its listener. -/
def openRoom (hub : Hub) (p : Uuid) : Hub :=
  if (hub.rooms p).isNone then (hub.setRoom p (some [])).createListener p else hub

def addSocket (hub : Hub) (p : Uuid) (ws : Nat) : Hub :=
  if ws ∈ hub.room p then hub else hub.setRoom p (some (hub.room p ++ [ws]))

def connect (hub : Hub) (p : Uuid) (ws : Nat) : Hub := (hub.openRoom p).addSocket p ws

def cancelListener (hub : Hub) (p : Uuid) : Hub :=
  match hub.listenerTasks p with
  | none => hub
  | some k =>
    { hub with
      tasks := Function.update hub.tasks k ((hub.tasks k).map Listener.cancel)
      listenerTasks := Function.update hub.listenerTasks p none }

def disconnect (hub : Hub) (p : Uuid) (ws : Nat) : Hub :=
  match hub.rooms p with
  | none => hub
  | some room =>
    let left := room.filter (· ≠ ws)
    if left = [] then (hub.setRoom p none).cancelListener p else hub.setRoom p (some left)

/-- Redis hands a published message to the subscriptions of that moment. -/
def publish (hub : Hub) (m : Message) : Hub :=
  { hub with tasks := fun k => (hub.tasks k).map (Listener.deliver m) }

def disconnectAll (hub : Hub) (p : Uuid) (dead : List Nat) : Hub :=
  dead.foldl (fun hub ws => hub.disconnect p ws) hub

/-- `while project_id in self.rooms`, tested when the loop comes round. -/
def loopState (hub : Hub) (p : Uuid) : ListenerState :=
  if (hub.rooms p).isSome then .polling else .unsubscribing

def setState (hub : Hub) (k : Nat) (st : ListenerState) : Hub :=
  { hub with
    tasks := Function.update hub.tasks k ((hub.tasks k).map fun l => { l with state := st }) }

/-- The sockets still to be served, or the disconnection of the dead ones and
the pause. -/
def continueSending (hub : Hub) (k : Nat) (p : Uuid) (m : Message) (rest dead : List Nat) : Hub :=
  match rest with
  | [] => (hub.disconnectAll p dead).setState k .sleeping
  | _ :: _ => hub.setState k (.sending m rest dead)

end Hub

/-- How the `await` of a listener returns: as it should, with nothing to read,
with the next message and the sockets in some order, or with an exception. -/
inductive Wake where
  | done | idle | message (order : List Nat) | raised

namespace Hub

/-- One step of listener `k`: from the `await` it is in to its next one.
`redisFails` and `socketFails` say whether calls may raise. -/
def listen (redisFails socketFails : Bool) (hub : Hub) (k : Nat) (wake : Wake) : Option Hub :=
  match hub.tasks k with
  | none => none
  | some l =>
    match l.state, l.cancelled, wake with
    | .ended, _, _ => none
    | .starting, false, .done => some (hub.setState k .subscribing)
    -- a task cancelled before its `try` runs neither the loop nor `finally`
    | .starting, true, .done => some (hub.setState k .ended)
    | .subscribing, true, .done => some (hub.setState k .ended)
    | .subscribing, false, .done =>
      some (hub.setTask k { l with subscribed := true, state := hub.loopState l.project })
    | .subscribing, false, .raised => if redisFails then some (hub.setState k .ended) else none
    | .unsubscribing, _, .done =>
      some (hub.setTask k { l with subscribed := false, queue := [], state := .ended })
    | .polling, true, .done | .sending _ _ _, true, .done | .sleeping, true, .done =>
      some (hub.setState k .unsubscribing)
    | .polling, false, .raised =>
      if redisFails then some (hub.setState k .unsubscribing) else none
    | .polling, false, .idle => some (hub.setState k .sleeping)
    | .polling, false, .message order =>
      match l.queue with
      | [] => none
      | m :: queue =>
        if order.isPerm (hub.room l.project) then
          some ((hub.setTask k { l with queue := queue }).continueSending k l.project m order [])
        else none
    | .sending m (ws :: rest) dead, false, .done =>
      some ({ hub with sent := (ws, m) :: hub.sent }.continueSending k l.project m rest dead)
    | .sending m (ws :: rest) dead, false, .raised =>
      if socketFails || !(hub.room l.project).contains ws then
        some (hub.continueSending k l.project m rest (dead ++ [ws]))
      else none
    | .sleeping, false, .done => some (hub.setState k (hub.loopState l.project))
    | _, _, _ => none

structure Routed (member : Nat → Uuid → Prop) (good : Message → Prop) (hub : Hub) : Prop where
  room : ∀ p ws, ws ∈ hub.room p → member ws p
  queue : ∀ k l, hub.tasks k = some l → ∀ m ∈ l.queue, m.channel = channelName l.project ∧ good m
  sending : ∀ k l m rest dead, hub.tasks k = some l → l.state = .sending m rest dead →
    m.channel = channelName l.project ∧ good m ∧ ∀ ws ∈ rest, member ws l.project
  sent : ∀ x ∈ hub.sent, ∃ p, member x.1 p ∧ x.2.channel = channelName p ∧ good x.2

section Routed

variable {member : Nat → Uuid → Prop} {good : Message → Prop} {hub : Hub}

theorem room_setRoom (hub : Hub) (p q : Uuid) (r : Option (List Nat)) :
    (hub.setRoom p r).room q = if q = p then r.getD [] else hub.room q := by
  by_cases h : q = p
  · subst h
    simp [room, setRoom]
  · simp [room, setRoom, h]

theorem Routed.setRoom (h : Routed member good hub) {p : Uuid} {r : Option (List Nat)}
    (hr : ∀ ws ∈ r.getD [], member ws p) : Routed member good (hub.setRoom p r) := by
  refine ⟨fun q ws hws => ?_, h.queue, h.sending, h.sent⟩
  rw [room_setRoom] at hws
  split at hws
  · next hq => exact hq ▸ hr ws hws
  · exact h.room q ws hws

theorem Routed.updateTask (h : Routed member good hub) {k : Nat} {o : Option Listener}
    (hq : ∀ l, o = some l → ∀ m ∈ l.queue, m.channel = channelName l.project ∧ good m)
    (hs : ∀ l m rest dead, o = some l → l.state = .sending m rest dead →
      m.channel = channelName l.project ∧ good m ∧ ∀ ws ∈ rest, member ws l.project) :
    Routed member good { hub with tasks := Function.update hub.tasks k o } := by
  refine ⟨h.room, fun j l hj => ?_, fun j l m rest dead hj => ?_, h.sent⟩
  · by_cases hjk : j = k
    · subst hjk
      exact hq l (by simpa using hj)
    · exact h.queue j l (by simpa [Function.update_of_ne hjk] using hj)
  · by_cases hjk : j = k
    · subst hjk
      exact hs l m rest dead (by simpa using hj)
    · exact h.sending j l m rest dead (by simpa [Function.update_of_ne hjk] using hj)

theorem Routed.setState (h : Routed member good hub) {k : Nat} {st : ListenerState}
    (hs : ∀ l m rest dead, hub.tasks k = some l → st = .sending m rest dead →
      m.channel = channelName l.project ∧ good m ∧ ∀ ws ∈ rest, member ws l.project) :
    Routed member good (hub.setState k st) := by
  refine h.updateTask (fun l hl m hm => ?_) fun l m rest dead hl hst => ?_
  · obtain ⟨l₀, hl₀, rfl⟩ := Option.map_eq_some_iff.mp hl
    exact h.queue k l₀ hl₀ m hm
  · obtain ⟨l₀, hl₀, rfl⟩ := Option.map_eq_some_iff.mp hl
    exact hs l₀ m rest dead hl₀ hst

theorem Routed.createListener (h : Routed member good hub) (p : Uuid) :
    Routed member good (hub.createListener p) := by
  have hu := h.updateTask (k := hub.created) (o := some (.start p))
    (fun l hl m hm => by cases hl; simp [Listener.start] at hm)
    fun l m rest dead hl hst => by cases hl; simp [Listener.start] at hst
  exact ⟨hu.room, hu.queue, hu.sending, hu.sent⟩

theorem Routed.openRoom (h : Routed member good hub) (p : Uuid) :
    Routed member good (hub.openRoom p) := by
  unfold Hub.openRoom
  split
  · exact (h.setRoom (by simp)).createListener p
  · exact h

theorem Routed.addSocket (h : Routed member good hub) {p : Uuid} {ws : Nat} (hws : member ws p) :
    Routed member good (hub.addSocket p ws) := by
  unfold Hub.addSocket
  split
  · exact h
  · refine h.setRoom fun x hx => ?_
    rcases List.mem_append.mp hx with hx | hx
    · exact h.room p x hx
    · exact List.mem_singleton.mp hx ▸ hws

theorem Routed.connect (h : Routed member good hub) {p : Uuid} {ws : Nat} (hws : member ws p) :
    Routed member good (hub.connect p ws) := (h.openRoom p).addSocket hws

theorem Routed.cancelListener (h : Routed member good hub) (p : Uuid) :
    Routed member good (hub.cancelListener p) := by
  unfold Hub.cancelListener
  split
  · exact h
  · next k _ =>
    have hu := h.updateTask (k := k) (o := (hub.tasks k).map Listener.cancel)
      (fun l hl m hm => by
        obtain ⟨l₀, hl₀, rfl⟩ := Option.map_eq_some_iff.mp hl
        exact h.queue k l₀ hl₀ m hm)
      fun l m rest dead hl hst => by
        obtain ⟨l₀, hl₀, rfl⟩ := Option.map_eq_some_iff.mp hl
        exact h.sending k l₀ m rest dead hl₀ hst
    exact ⟨hu.room, hu.queue, hu.sending, hu.sent⟩

theorem Routed.disconnect (h : Routed member good hub) (p : Uuid) (ws : Nat) :
    Routed member good (hub.disconnect p ws) := by
  unfold Hub.disconnect
  split
  · exact h
  · next room hroom =>
    have hleft : ∀ x ∈ room.filter (· ≠ ws), member x p := fun x hx =>
      h.room p x (by simpa [Hub.room, hroom] using List.mem_of_mem_filter hx)
    simp only
    split
    · exact (h.setRoom (by simp)).cancelListener p
    · exact h.setRoom hleft

theorem Routed.disconnectAll (h : Routed member good hub) (p : Uuid) (dead : List Nat) :
    Routed member good (hub.disconnectAll p dead) := by
  induction dead generalizing hub with
  | nil => exact h
  | cons ws dead ih => exact ih (h.disconnect p ws)

theorem Routed.publish (h : Routed member good hub) {m : Message} (hm : good m) :
    Routed member good (hub.publish m) := by
  refine ⟨h.room, fun k l hl x hx => ?_, fun k l x rest dead hl hst => ?_, h.sent⟩
  · obtain ⟨l₀, hl₀, rfl⟩ := Option.map_eq_some_iff.mp hl
    unfold Listener.deliver at hx ⊢
    split at hx
    · next hd =>
      simp only [hd, if_true]
      rcases List.mem_append.mp hx with hx | hx
      · exact h.queue k l₀ hl₀ x hx
      · rw [List.mem_singleton.mp hx]
        simp only [Bool.and_eq_true, beq_iff_eq] at hd
        exact ⟨hd.2.symm, hm⟩
    · next hd =>
      simp only [hd]
      exact h.queue k l₀ hl₀ x hx
  · obtain ⟨l₀, hl₀, rfl⟩ := Option.map_eq_some_iff.mp hl
    have hproj : (Listener.deliver m l₀).project = l₀.project := by
      unfold Listener.deliver; split <;> rfl
    have hstate : (Listener.deliver m l₀).state = l₀.state := by
      unfold Listener.deliver; split <;> rfl
    rw [hproj]
    exact h.sending k l₀ x rest dead hl₀ (hstate ▸ hst)

theorem Routed.continueSending (h : Routed member good hub) {k : Nat} {p : Uuid} {m : Message}
    {rest dead : List Nat} (hp : ∀ l, hub.tasks k = some l → l.project = p)
    (hm : m.channel = channelName p ∧ good m) (hrest : ∀ ws ∈ rest, member ws p) :
    Routed member good (hub.continueSending k p m rest dead) := by
  cases rest with
  | nil => exact (h.disconnectAll p dead).setState fun l m rest dead _ hst => by cases hst
  | cons ws rest =>
    refine h.setState fun l m' rest' dead' hl hst => ?_
    cases hst
    rw [hp l hl]
    exact ⟨hm.1, hm.2, hrest⟩

theorem Routed.listen (h : Routed member good hub) {rf sf : Bool} {k : Nat} {wake : Wake}
    {hub' : Hub} (hl : hub.listen rf sf k wake = some hub') : Routed member good hub' := by
  unfold Hub.listen at hl
  cases htask : hub.tasks k with
  | none => simp [htask] at hl
  | some l =>
    have hstate : ∀ st, (∀ m rest dead, st ≠ .sending m rest dead) →
        Routed member good (hub.setState k st) := fun st hst =>
      h.setState fun _ m rest dead _ he => absurd he (hst m rest dead)
    have hloop : ∀ m rest dead, hub.loopState l.project ≠ .sending m rest dead := by
      intro m rest dead
      unfold Hub.loopState
      split <;> simp
    simp only [htask] at hl
    split at hl
    · cases hl
    · cases hl; exact hstate _ (by simp)
    · cases hl; exact hstate _ (by simp)
    · cases hl; exact hstate _ (by simp)
    · cases hl
      exact h.updateTask (fun x hx m hm => by cases hx; exact h.queue k l htask m hm)
        fun x m rest dead hx hst => by cases hx; exact absurd hst (hloop m rest dead)
    · split at hl
      · cases hl; exact hstate _ (by simp)
      · cases hl
    · cases hl
      exact h.updateTask (fun x hx m hm => by cases hx; simp at hm)
        fun x m rest dead hx hst => by cases hx; simp at hst
    · cases hl; exact hstate _ (by simp)
    · cases hl; exact hstate _ (by simp)
    · cases hl; exact hstate _ (by simp)
    · split at hl
      · cases hl; exact hstate _ (by simp)
      · cases hl
    · cases hl; exact hstate _ (by simp)
    · next order hst hc =>
      split at hl
      · cases hl
      · next m queue hqueue =>
        split at hl
        · next hperm =>
          cases hl
          have hm := h.queue k l htask m (by simp [hqueue])
          have hset : Routed member good (hub.setTask k { l with queue := queue }) :=
            h.updateTask
              (fun x hx y hy => by
                cases hx
                exact h.queue k l htask y (by rw [hqueue]; exact List.mem_cons_of_mem _ hy))
              fun x m rest dead hx he => by
                cases hx
                exact h.sending k l m rest dead htask he
          refine hset.continueSending (fun x hx => ?_) hm fun ws hws => ?_
          · simp only [Hub.setTask, Function.update_self] at hx
            cases hx
            rfl
          · exact h.room l.project ws ((List.isPerm_iff.mp hperm).mem_iff.mp hws)
        · cases hl
    · next m ws rest dead hst hc =>
      cases hl
      obtain ⟨hch, hg, hws⟩ := h.sending k l m _ _ htask hst
      have hsent : Routed member good { hub with sent := (ws, m) :: hub.sent } := by
        refine ⟨h.room, h.queue, h.sending, fun x hx => ?_⟩
        rcases List.mem_cons.mp hx with rfl | hx
        · exact ⟨l.project, hws ws List.mem_cons_self, hch, hg⟩
        · exact h.sent x hx
      exact hsent.continueSending (fun x hx => by rw [htask] at hx; cases hx; rfl) ⟨hch, hg⟩
        fun x hx => hws x (List.mem_cons_of_mem _ hx)
    · next m ws rest dead hst hc =>
      split at hl
      · cases hl
        obtain ⟨hch, hg, hws⟩ := h.sending k l m _ _ htask hst
        exact h.continueSending (fun x hx => by rw [htask] at hx; cases hx; rfl) ⟨hch, hg⟩
          fun x hx => hws x (List.mem_cons_of_mem _ hx)
      · cases hl
    · cases hl; exact hstate _ hloop
    · cases hl

theorem Routed.mono {member' : Nat → Uuid → Prop} {good' : Message → Prop}
    (h : Routed member good hub) (hm : ∀ ws p, member ws p → member' ws p)
    (hg : ∀ m, good m → good' m) : Routed member' good' hub := by
  refine ⟨fun p ws hw => hm _ _ (h.room p ws hw), fun k l hl m hx => ?_,
    fun k l m rest dead hl hst => ?_, fun x hx => ?_⟩
  · exact ⟨(h.queue k l hl m hx).1, hg m (h.queue k l hl m hx).2⟩
  · obtain ⟨hch, hgm, hws⟩ := h.sending k l m rest dead hl hst
    exact ⟨hch, hg m hgm, fun ws hw => hm _ _ (hws ws hw)⟩
  · obtain ⟨p, hp, hch, hgx⟩ := h.sent x hx
    exact ⟨p, hm _ _ hp, hch, hg _ hgx⟩

theorem routed_empty : Routed member good Hub.empty :=
  ⟨by simp [room, empty], by simp [empty], by simp [empty], by simp [empty]⟩

end Routed

end Hub

end MultiTenantSaas
