import MultiTenantSaas.Hub

/-!
Runs of the hub: connects, disconnects, publications and listener steps of any number
of projects and sockets, in any order. Redis delivers a message at most once to each
subscription.
-/

set_option autoImplicit false

namespace MultiTenantSaas

inductive HubMove where
  | connect (p : Uuid) (ws : Nat)
  | disconnect (p : Uuid) (ws : Nat)
  | publish (m : Message)
  /-- Redis loses a message on its way to listener `k`. -/
  | lose (k i : Nat)
  | listen (k : Nat) (wake : Wake)

def Listener.lose (i : Nat) (l : Listener) : Listener := { l with queue := l.queue.eraseIdx i }

namespace Hub

def lose (hub : Hub) (k i : Nat) : Hub :=
  { hub with tasks := Function.update hub.tasks k ((hub.tasks k).map (Listener.lose i)) }

def step (redisFails socketFails : Bool) (hub : Hub) : HubMove → Option Hub
  | .connect p ws => some (hub.connect p ws)
  | .disconnect p ws => some (hub.disconnect p ws)
  | .publish m => some (hub.publish m)
  | .lose k i => some (hub.lose k i)
  | .listen k wake => hub.listen redisFails socketFails k wake

/-- The hub after the moves, the last of them first, when `ok` allows each of them after
those before it. -/
def run (redisFails socketFails : Bool) (ok : List HubMove → Hub → HubMove → Bool) :
    List HubMove → Option Hub
  | [] => some .empty
  | m :: ms => (run redisFails socketFails ok ms).bind fun hub =>
    if ok ms hub m then hub.step redisFails socketFails m else none

def anyMove (_ : List HubMove) (_ : Hub) (_ : HubMove) : Bool := true

variable {redisFails socketFails : Bool} {ok : List HubMove → Hub → HubMove → Bool}
  {hub hub' : Hub} {m : HubMove} {ms : List HubMove}

theorem run_cons : run redisFails socketFails ok (m :: ms) = some hub' ↔
    ∃ hub, run redisFails socketFails ok ms = some hub ∧ ok ms hub m = true ∧
      hub.step redisFails socketFails m = some hub' := by
  simp [run, Option.bind_eq_some_iff]

theorem run_invariant {I : List HubMove → Hub → Prop} (h₀ : I [] .empty)
    (hstep : ∀ ms hub m hub', run redisFails socketFails ok ms = some hub → I ms hub →
      ok ms hub m = true → hub.step redisFails socketFails m = some hub' → I (m :: ms) hub')
    (h : run redisFails socketFails ok ms = some hub) : I ms hub := by
  induction ms generalizing hub with
  | nil =>
    cases h
    exact h₀
  | cons m ms ih =>
    obtain ⟨hub₁, hrun, hok, hs⟩ := run_cons.mp h
    exact hstep ms hub₁ m hub hrun (ih hrun) hok hs

theorem run_anyMove (h : run redisFails socketFails ok ms = some hub) :
    run redisFails socketFails anyMove ms = some hub := by
  induction ms generalizing hub with
  | nil => exact h
  | cons m ms ih =>
    obtain ⟨hub₁, hrun, -, hs⟩ := run_cons.mp h
    exact run_cons.mpr ⟨hub₁, ih hrun, rfl, hs⟩

@[simp] theorem project_deliver (m : Message) (l : Listener) :
    (l.deliver m).project = l.project := by
  unfold Listener.deliver
  split <;> rfl

@[simp] theorem state_deliver (m : Message) (l : Listener) : (l.deliver m).state = l.state := by
  unfold Listener.deliver
  split <;> rfl

@[simp] theorem cancelled_deliver (m : Message) (l : Listener) :
    (l.deliver m).cancelled = l.cancelled := by
  unfold Listener.deliver
  split <;> rfl

@[simp] theorem subscribed_deliver (m : Message) (l : Listener) :
    (l.deliver m).subscribed = l.subscribed := by
  unfold Listener.deliver
  split <;> rfl

@[simp] theorem rooms_setRoom (hub : Hub) (p q : Uuid) (r : Option (List Nat)) :
    (hub.setRoom p r).rooms q = if q = p then r else hub.rooms q := by
  simp [setRoom, Function.update_apply]

@[simp] theorem tasks_setRoom (hub : Hub) (p : Uuid) (r : Option (List Nat)) :
    (hub.setRoom p r).tasks = hub.tasks := rfl

@[simp] theorem listenerTasks_setRoom (hub : Hub) (p : Uuid) (r : Option (List Nat)) :
    (hub.setRoom p r).listenerTasks = hub.listenerTasks := rfl

@[simp] theorem created_setRoom (hub : Hub) (p : Uuid) (r : Option (List Nat)) :
    (hub.setRoom p r).created = hub.created := rfl

@[simp] theorem rooms_createListener (hub : Hub) (p : Uuid) :
    (hub.createListener p).rooms = hub.rooms := rfl

@[simp] theorem created_createListener (hub : Hub) (p : Uuid) :
    (hub.createListener p).created = hub.created + 1 := rfl

@[simp] theorem rooms_cancelListener (hub : Hub) (p : Uuid) :
    (hub.cancelListener p).rooms = hub.rooms := by
  unfold cancelListener
  split <;> rfl

@[simp] theorem created_cancelListener (hub : Hub) (p : Uuid) :
    (hub.cancelListener p).created = hub.created := by
  unfold cancelListener
  split <;> rfl

@[simp] theorem listenerTasks_cancelListener (hub : Hub) (p q : Uuid) :
    (hub.cancelListener p).listenerTasks q = if q = p then none else hub.listenerTasks q := by
  unfold cancelListener
  split
  · next h =>
    split
    · next hq => rw [hq, h]
    · rfl
  · simp [Function.update_apply]

theorem tasks_cancelListener (hub : Hub) (p : Uuid) (k : Nat) :
    (hub.cancelListener p).tasks k =
      if hub.listenerTasks p = some k then (hub.tasks k).map Listener.cancel else hub.tasks k := by
  unfold cancelListener
  split
  · next h => simp [h]
  · next j h =>
    by_cases hk : k = j
    · simp [h, hk]
    · simp [h, Function.update_of_ne hk, Ne.symm hk]

@[simp] theorem tasks_publish (hub : Hub) (m : Message) (k : Nat) :
    (hub.publish m).tasks k = (hub.tasks k).map (Listener.deliver m) := rfl

theorem lose_eq {k : Nat} {l : Listener} (h : hub.tasks k = some l) (i : Nat) :
    hub.lose k i = hub.setTask k (l.lose i) := by
  simp [lose, setTask, h]

theorem update_none {k : Nat} (h : hub.tasks k = none) :
    Function.update hub.tasks k none = hub.tasks := by
  rw [← h, Function.update_eq_self]

theorem lose_none {k : Nat} (h : hub.tasks k = none) (i : Nat) : hub.lose k i = hub := by
  simp [lose, h, update_none h]

theorem setState_none {k : Nat} (h : hub.tasks k = none) (st : ListenerState) :
    hub.setState k st = hub := by
  simp [setState, h, update_none h]

@[simp] theorem tasks_createListener (hub : Hub) (p : Uuid) (k : Nat) :
    (hub.createListener p).tasks k = if k = hub.created then some (.start p) else hub.tasks k := by
  simp [createListener, setTask, Function.update_apply]

@[simp] theorem listenerTasks_createListener (hub : Hub) (p q : Uuid) :
    (hub.createListener p).listenerTasks q =
      if q = p then some hub.created else hub.listenerTasks q := by
  simp [createListener, Function.update_apply]

@[simp] theorem tasks_setTask (hub : Hub) (k j : Nat) (l : Listener) :
    (hub.setTask k l).tasks j = if j = k then some l else hub.tasks j := by
  simp [setTask, Function.update_apply]

theorem setState_eq {k : Nat} {l : Listener} (h : hub.tasks k = some l) (st : ListenerState) :
    hub.setState k st = hub.setTask k { l with state := st } := by
  simp [setState, setTask, h]

theorem connect_none {p : Uuid} (h : hub.rooms p = none) (ws : Nat) :
    hub.connect p ws = (hub.setRoom p (some [ws])).createListener p := by
  simp [connect, openRoom, addSocket, h, room, setRoom, createListener, setTask]

theorem connect_some {p : Uuid} {room : List Nat} (h : hub.rooms p = some room) (ws : Nat) :
    hub.connect p ws = if ws ∈ room then hub else hub.setRoom p (some (room ++ [ws])) := by
  simp [connect, openRoom, addSocket, h, Hub.room]

def send (hub : Hub) (ws : Nat) (m : Message) : Hub := { hub with sent := (ws, m) :: hub.sent }

/-- A listener step, by the `await` the listener returns from. -/
inductive Listens (redisFails socketFails : Bool) (hub : Hub) (k : Nat) (l : Listener) : Hub → Prop
  | subscribe : l.state = .starting → l.cancelled = false →
    Listens redisFails socketFails hub k l (hub.setTask k { l with state := .subscribing })
  | dropped : l.state = .starting ∨ l.state = .subscribing → l.cancelled = true →
    Listens redisFails socketFails hub k l (hub.setTask k { l with state := .ended })
  | subscribed : l.state = .subscribing → l.cancelled = false →
    Listens redisFails socketFails hub k l
      (hub.setTask k { l with subscribed := true, state := hub.loopState l.project })
  | refused : l.state = .subscribing → l.cancelled = false → redisFails = true →
    Listens redisFails socketFails hub k l (hub.setTask k { l with state := .ended })
  | unsubscribed : l.state = .unsubscribing → Listens redisFails socketFails hub k l
      (hub.setTask k { l with subscribed := false, queue := [], state := .ended })
  | stopped : l.cancelled = true → Listens redisFails socketFails hub k l
      (hub.setTask k { l with state := .unsubscribing })
  | broken : l.state = .polling → l.cancelled = false → redisFails = true →
    Listens redisFails socketFails hub k l (hub.setTask k { l with state := .unsubscribing })
  | idle : l.state = .polling → l.cancelled = false →
    Listens redisFails socketFails hub k l (hub.setTask k { l with state := .sleeping })
  | received (m : Message) (queue : List Message) (order : List Nat) : l.state = .polling →
    l.cancelled = false → l.queue = m :: queue → order.Perm (hub.room l.project) →
    Listens redisFails socketFails hub k l
      ((hub.setTask k { l with queue := queue }).continueSending k l.project m order [])
  | sent (m : Message) (ws : Nat) (rest dead : List Nat) : l.state = .sending m (ws :: rest) dead →
    l.cancelled = false → Listens redisFails socketFails hub k l
      ((hub.send ws m).continueSending k l.project m rest dead)
  | unsent (m : Message) (ws : Nat) (rest dead : List Nat) :
    l.state = .sending m (ws :: rest) dead → l.cancelled = false →
    socketFails = true ∨ ws ∉ hub.room l.project → Listens redisFails socketFails hub k l
      (hub.continueSending k l.project m rest (dead ++ [ws]))
  | woke : l.state = .sleeping → l.cancelled = false → Listens redisFails socketFails hub k l
      (hub.setTask k { l with state := hub.loopState l.project })

theorem listen_cases {k : Nat} {wake : Wake}
    (h : hub.listen redisFails socketFails k wake = some hub') :
    ∃ l, hub.tasks k = some l ∧ Listens redisFails socketFails hub k l hub' := by
  unfold listen at h
  cases htask : hub.tasks k with
  | none => simp [htask] at h
  | some l =>
    refine ⟨l, rfl, ?_⟩
    simp only [htask, setState_eq htask] at h
    split at h
    · cases h
    · next hst hc => cases h; exact .subscribe hst hc
    · next hst hc => cases h; exact .dropped (Or.inl hst) hc
    · next hst hc => cases h; exact .dropped (Or.inr hst) hc
    · next hst hc => cases h; exact .subscribed hst hc
    · next hst hc =>
      split at h
      · next hf => cases h; exact .refused hst hc hf
      · cases h
    · next hst => cases h; exact .unsubscribed hst
    · next hc => cases h; exact .stopped hc
    · next hc => cases h; exact .stopped hc
    · next hc => cases h; exact .stopped hc
    · next hst hc =>
      split at h
      · next hf => cases h; exact .broken hst hc hf
      · cases h
    · next hst hc => cases h; exact .idle hst hc
    · next order hst hc =>
      split at h
      · cases h
      · next m queue hqueue =>
        split at h
        · next hperm =>
          cases h
          exact .received m queue order hst hc hqueue (List.isPerm_iff.mp hperm)
        · cases h
    · next m ws rest dead hst hc => cases h; exact .sent m ws rest dead hst hc
    · next m ws rest dead hst hc =>
      split at h
      · next hf => cases h; exact .unsent m ws rest dead hst hc (by simpa using hf)
      · cases h
    · next hst hc => cases h; exact .woke hst hc
    · cases h

/-- What a listener does where no call fails it may do where calls may fail. -/
theorem listen_failing {k : Nat} {wake : Wake}
    (h : hub.listen redisFails socketFails k wake = some hub') :
    hub.listen true true k wake = some hub' := by
  unfold listen at h ⊢
  cases ht : hub.tasks k with
  | none => simp [ht] at h
  | some l =>
    obtain ⟨p, state, cancelled, subscribed, queue⟩ := l
    simp only [ht] at h ⊢
    cases state with
    | sending m rest dead => cases rest <;> cases cancelled <;> cases wake <;> simp_all
    | _ => cases cancelled <;> cases wake <;> simp_all

/-- Rooms and registered listeners belong together, and no other listener is left
uncancelled. -/
structure Registered (hub : Hub) : Prop where
  same : ∀ p, (hub.rooms p).isSome = (hub.listenerTasks p).isSome
  occupied : ∀ p, hub.rooms p ≠ some []
  registered : ∀ p k, hub.listenerTasks p = some k →
    ∃ l, hub.tasks k = some l ∧ l.project = p ∧ l.cancelled = false
  alone : ∀ k l, hub.tasks k = some l → l.cancelled = false → hub.listenerTasks l.project = some k
  fresh : ∀ k, hub.created ≤ k → hub.tasks k = none

theorem registered_empty : Registered .empty := by
  constructor <;> simp [empty]

namespace Registered

variable {k : Nat} {l l' : Listener} {p : Uuid}

theorem lt_created (h : Registered hub) (ht : hub.tasks k = some l) : k < hub.created := by
  by_contra hle
  rw [h.fresh k (by omega)] at ht
  cases ht

theorem setTask (h : Registered hub) (ht : hub.tasks k = some l) (hp : l'.project = l.project)
    (hc : l'.cancelled = l.cancelled) : Registered (hub.setTask k l') := by
  refine ⟨h.same, h.occupied, fun p j hj => ?_, fun j x hx hxc => ?_, fun j hj => ?_⟩
  · obtain ⟨x, hx, hxp, hxc⟩ := h.registered p j hj
    by_cases hjk : j = k
    · subst hjk
      rw [ht] at hx
      cases hx
      exact ⟨l', by simp, hp.trans hxp, hc.trans hxc⟩
    · exact ⟨x, by simp [hjk, hx], hxp, hxc⟩
  · rw [tasks_setTask] at hx
    split at hx
    · next hjk =>
      cases hx
      rw [hp, hjk]
      exact h.alone k l ht (hc.symm.trans hxc)
    · exact h.alone j x hx hxc
  · have hlt := h.lt_created ht
    change hub.created ≤ j at hj
    rw [tasks_setTask, if_neg (by omega), h.fresh j hj]

theorem setState (h : Registered hub) (k : Nat) (st : ListenerState) :
    Registered (hub.setState k st) := by
  cases ht : hub.tasks k with
  | none =>
    rwa [setState_none ht]
  | some l =>
    rw [setState_eq ht]
    exact h.setTask ht rfl rfl

theorem send (h : Registered hub) (ws : Nat) (m : Message) : Registered (hub.send ws m) :=
  ⟨h.same, h.occupied, h.registered, h.alone, h.fresh⟩

theorem setRoom (h : Registered hub) {room : List Nat} (hsome : (hub.rooms p).isSome)
    (hroom : room ≠ []) : Registered (hub.setRoom p (some room)) := by
  refine ⟨fun q => ?_, fun q => ?_, h.registered, h.alone, h.fresh⟩
  · have hq := h.same q
    rw [rooms_setRoom]
    split
    · next heq =>
      subst heq
      exact hsome.symm.trans hq
    · exact hq
  · rw [rooms_setRoom]
    split
    · simpa using hroom
    · exact h.occupied q

theorem opened (h : Registered hub) (hnone : hub.rooms p = none) (ws : Nat) :
    Registered ((hub.setRoom p (some [ws])).createListener p) := by
  have hfree : hub.listenerTasks p = none := by
    simpa [hnone] using (h.same p).symm
  have hold : ∀ k l, hub.tasks k = some l → k ≠ hub.created := fun k l hk => by
    have := h.lt_created hk
    omega
  refine ⟨fun q => ?_, fun q => ?_, fun q k hk => ?_, fun k l hl hc => ?_, fun k hk => ?_⟩
  · have hq := h.same q
    by_cases hqp : q = p <;> simp [hqp, hq]
  · have hq := h.occupied q
    by_cases hqp : q = p <;> simp [hqp, hq]
  · simp only [listenerTasks_createListener, listenerTasks_setRoom] at hk
    split at hk
    · next hq =>
      cases hk
      exact ⟨.start p, by simp, hq.symm, rfl⟩
    · obtain ⟨l, hl, hlp, hc⟩ := h.registered q k hk
      exact ⟨l, by simp [hold k l hl, hl], hlp, hc⟩
  · by_cases hk : k = hub.created
    · obtain rfl : Listener.start p = l := by simpa [hk] using hl
      simp [hk, Listener.start]
    · have hreg := h.alone k l (by simpa [hk] using hl) hc
      have hp : l.project ≠ p := by
        rintro rfl
        cases hfree.symm.trans hreg
      simp [hp, hreg]
  · simp only [created_createListener, created_setRoom] at hk
    have hne : k ≠ hub.created := by omega
    simp [hne, h.fresh k (by omega)]

theorem connect (h : Registered hub) (p : Uuid) (ws : Nat) : Registered (hub.connect p ws) := by
  cases hroom : hub.rooms p with
  | none =>
    rw [connect_none hroom]
    exact h.opened hroom ws
  | some room =>
    rw [connect_some hroom]
    split
    · exact h
    · exact h.setRoom (by simp [hroom]) (by simp)

theorem closed (h : Registered hub) (p : Uuid) :
    Registered ((hub.setRoom p none).cancelListener p) := by
  refine ⟨fun q => ?_, fun q => ?_, fun q k hk => ?_, fun k l hl hc => ?_, fun k hk => ?_⟩
  · have hq := h.same q
    by_cases hqp : q = p <;> simp [hqp, hq]
  · have hq := h.occupied q
    by_cases hqp : q = p <;> simp [hqp, hq]
  · simp only [listenerTasks_cancelListener, listenerTasks_setRoom] at hk
    split at hk
    · cases hk
    · next hq =>
      obtain ⟨l, hl, hlp, hc⟩ := h.registered q k hk
      have hne : hub.listenerTasks p ≠ some k := fun hp => by
        obtain ⟨l', hl', hlp', -⟩ := h.registered p k hp
        rw [hl] at hl'
        cases hl'
        exact hq (hlp.symm.trans hlp')
      exact ⟨l, by simp [tasks_cancelListener, hne, hl], hlp, hc⟩
  · by_cases hk : hub.listenerTasks p = some k
    · obtain ⟨l', -, rfl⟩ : ∃ l', hub.tasks k = some l' ∧ l'.cancel = l := by
        simpa [tasks_cancelListener, hk] using hl
      cases hc
    · have hreg := h.alone k l (by simpa [tasks_cancelListener, hk] using hl) hc
      have hp : l.project ≠ p := fun hp => hk (hp ▸ hreg)
      simp [hp, hreg]
  · have hnone := h.fresh k (by simpa using hk)
    simp [tasks_cancelListener, hnone]

theorem disconnect (h : Registered hub) (p : Uuid) (ws : Nat) :
    Registered (hub.disconnect p ws) := by
  unfold Hub.disconnect
  cases hroom : hub.rooms p with
  | none => exact h
  | some room =>
    simp only
    split
    · exact h.closed p
    · next hleft => exact h.setRoom (by simp [hroom]) hleft

theorem disconnectAll (h : Registered hub) (p : Uuid) (dead : List Nat) :
    Registered (hub.disconnectAll p dead) := by
  induction dead generalizing hub with
  | nil => exact h
  | cons ws dead ih => exact ih (h.disconnect p ws)

theorem publish (h : Registered hub) (m : Message) : Registered (hub.publish m) := by
  refine ⟨h.same, h.occupied, fun p k hk => ?_, fun k l hl hc => ?_, fun k hk => ?_⟩
  · obtain ⟨l, hl, hp, hc⟩ := h.registered p k hk
    exact ⟨l.deliver m, by simp [hl], by simp [hp], by simp [hc]⟩
  · obtain ⟨l', hl', rfl⟩ := Option.map_eq_some_iff.mp hl
    rw [project_deliver]
    exact h.alone k l' hl' (by simpa using hc)
  · simp [h.fresh k hk]

theorem lose (h : Registered hub) (k i : Nat) : Registered (hub.lose k i) := by
  cases ht : hub.tasks k with
  | none => rwa [lose_none ht]
  | some l =>
    rw [lose_eq ht]
    exact h.setTask ht rfl rfl

theorem continueSending (h : Registered hub) (k : Nat) (p : Uuid) (m : Message)
    (rest dead : List Nat) : Registered (hub.continueSending k p m rest dead) := by
  cases rest with
  | nil => exact (h.disconnectAll p dead).setState k _
  | cons ws rest => exact h.setState k _

theorem listens (h : Registered hub) (ht : hub.tasks k = some l)
    (hl : Listens redisFails socketFails hub k l hub') : Registered hub' := by
  cases hl with
  | received m queue order =>
    have hset : Registered (hub.setTask k { l with queue := queue }) := h.setTask ht rfl rfl
    exact hset.continueSending k _ m order []
  | sent m ws rest dead => exact (h.send ws m).continueSending k _ m rest dead
  | unsent m ws rest dead => exact h.continueSending k _ m rest _
  | _ => exact h.setTask ht rfl rfl

theorem step (h : Registered hub) (hs : hub.step redisFails socketFails m = some hub') :
    Registered hub' := by
  cases m with
  | connect p ws => cases hs; exact h.connect p ws
  | disconnect p ws => cases hs; exact h.disconnect p ws
  | publish m => cases hs; exact h.publish m
  | lose k i => cases hs; exact h.lose k i
  | listen k wake =>
    obtain ⟨l, ht, hl⟩ := listen_cases hs
    exact h.listens ht hl

end Registered

@[simp] theorem tasks_setState (hub : Hub) (k j : Nat) (st : ListenerState) :
    (hub.setState k st).tasks j =
      if j = k then (hub.tasks k).map fun l => { l with state := st } else hub.tasks j := by
  simp [setState, Function.update_apply]

theorem tasks_connect (h : Registered hub) (p : Uuid) (ws k : Nat) :
    (hub.connect p ws).tasks k = hub.tasks k ∨
      hub.rooms p = none ∧ hub.tasks k = none ∧
        (hub.connect p ws).tasks k = some (.start p) := by
  cases hroom : hub.rooms p with
  | none =>
    rw [connect_none hroom]
    by_cases hk : k = hub.created
    · exact Or.inr ⟨rfl, h.fresh k (by omega), by simp [hk]⟩
    · exact Or.inl (by simp [hk])
  | some room =>
    rw [connect_some hroom]
    split <;> exact Or.inl rfl

theorem tasks_disconnect (hub : Hub) (p : Uuid) (ws k : Nat) :
    (hub.disconnect p ws).tasks k = hub.tasks k ∨
      (hub.disconnect p ws).tasks k = (hub.tasks k).map Listener.cancel := by
  unfold disconnect
  cases hub.rooms p with
  | none => exact Or.inl rfl
  | some room =>
    simp only
    split
    · rw [tasks_cancelListener]
      split
      · exact Or.inr rfl
      · exact Or.inl rfl
    · exact Or.inl rfl

theorem tasks_disconnectAll (hub : Hub) (p : Uuid) (dead : List Nat) (k : Nat) :
    (hub.disconnectAll p dead).tasks k = hub.tasks k ∨
      (hub.disconnectAll p dead).tasks k = (hub.tasks k).map Listener.cancel := by
  induction dead generalizing hub with
  | nil => exact Or.inl rfl
  | cons ws dead ih =>
    have hcancel : ((hub.tasks k).map Listener.cancel).map Listener.cancel =
        (hub.tasks k).map Listener.cancel := by
      cases hub.tasks k <;> rfl
    change ((hub.disconnect p ws).disconnectAll p dead).tasks k = _ ∨ _ = _
    rcases ih (hub.disconnect p ws) with hall | hall <;>
      rcases tasks_disconnect hub p ws k with hone | hone <;> rw [hone] at hall
    · exact Or.inl hall
    · exact Or.inr hall
    · exact Or.inr hall
    · exact Or.inr (hall.trans hcancel)

/-- No listener task goes away, and none that was cancelled becomes uncancelled. -/
def Continues (hub hub' : Hub) : Prop :=
  ∀ k l, hub.tasks k = some l →
    ∃ l', hub'.tasks k = some l' ∧ (l.cancelled = true → l'.cancelled = true)

theorem Continues.refl (hub : Hub) : Continues hub hub := fun _ l hl => ⟨l, hl, id⟩

theorem Continues.trans {hub₁ : Hub} (h : Continues hub hub₁) (h' : Continues hub₁ hub') :
    Continues hub hub' := by
  intro k l hl
  obtain ⟨l₁, hl₁, hc₁⟩ := h k l hl
  obtain ⟨l', hl', hc'⟩ := h' k l₁ hl₁
  exact ⟨l', hl', hc' ∘ hc₁⟩

theorem continues_map {f : Nat → Listener → Listener}
    (h : ∀ k, hub'.tasks k = (hub.tasks k).map (f k))
    (hf : ∀ k l, l.cancelled = true → (f k l).cancelled = true) : Continues hub hub' := by
  intro k l hl
  exact ⟨f k l, by rw [h, hl, Option.map_some], hf k l⟩

theorem continues_setTask {k : Nat} {l l' : Listener} (ht : hub.tasks k = some l)
    (hc : l'.cancelled = l.cancelled) : Continues hub (hub.setTask k l') := by
  intro j x hx
  by_cases hjk : j = k
  · subst hjk
    cases ht.symm.trans hx
    exact ⟨l', by simp, fun h => hc.trans h⟩
  · exact ⟨x, by simp [hjk, hx], id⟩

theorem continues_setState (hub : Hub) (k : Nat) (st : ListenerState) :
    Continues hub (hub.setState k st) := by
  cases ht : hub.tasks k with
  | none =>
    rw [setState_none ht]
    exact .refl hub
  | some l =>
    rw [setState_eq ht]
    exact continues_setTask ht rfl

theorem continues_disconnectAll (hub : Hub) (p : Uuid) (dead : List Nat) :
    Continues hub (hub.disconnectAll p dead) := by
  intro k l hl
  rcases tasks_disconnectAll hub p dead k with h | h
  · exact ⟨l, h.trans hl, id⟩
  · exact ⟨l.cancel, by simp [h, hl], fun _ => rfl⟩

theorem continues_continueSending (hub : Hub) (k : Nat) (p : Uuid) (m : Message)
    (rest dead : List Nat) : Continues hub (hub.continueSending k p m rest dead) := by
  cases rest with
  | nil => exact (continues_disconnectAll hub p dead).trans (continues_setState _ k _)
  | cons ws rest => exact continues_setState hub k _

theorem Listens.continues {k : Nat} {l : Listener} (ht : hub.tasks k = some l)
    (h : Listens redisFails socketFails hub k l hub') : Continues hub hub' := by
  cases h with
  | received m queue order =>
    have hset : Continues hub (hub.setTask k { l with queue := queue }) :=
      continues_setTask ht rfl
    exact hset.trans (continues_continueSending _ k _ m order [])
  | sent m ws rest dead => exact continues_continueSending (hub.send ws m) k _ m rest dead
  | unsent m ws rest dead => exact continues_continueSending hub k _ m rest _
  | _ => exact continues_setTask ht rfl

theorem step_continues (h : Registered hub)
    (hs : hub.step redisFails socketFails m = some hub') : Continues hub hub' := by
  cases m with
  | connect p ws =>
    cases hs
    intro k l hl
    rcases tasks_connect h p ws k with hk | ⟨-, hk, -⟩
    · exact ⟨l, hk.trans hl, id⟩
    · cases hk.symm.trans hl
  | disconnect p ws =>
    cases hs
    exact continues_disconnectAll hub p [ws]
  | publish m =>
    cases hs
    exact continues_map (fun k => tasks_publish hub m k) (by simp)
  | lose k i =>
    cases hs
    cases ht : hub.tasks k with
    | none =>
      rw [lose_none ht]
      exact .refl hub
    | some l =>
      rw [lose_eq ht]
      exact continues_setTask ht rfl
  | listen k wake =>
    obtain ⟨l, ht, hl⟩ := listen_cases hs
    exact hl.continues ht

theorem run_registered (h : run redisFails socketFails ok ms = some hub) : Registered hub :=
  run_invariant (I := fun _ => Registered) registered_empty
    (fun _ _ _ _ _ hi _ hs => hi.step hs) h

theorem run_continues {ms₀ : List HubMove} {hub₀ : Hub}
    (h₀ : run redisFails socketFails ok ms₀ = some hub₀) (hms : ms₀ <:+ ms)
    (h : run redisFails socketFails ok ms = some hub) : Continues hub₀ hub := by
  induction ms generalizing hub with
  | nil =>
    obtain rfl := List.suffix_nil.mp hms
    cases h₀.symm.trans h
    exact .refl _
  | cons m ms ih =>
    rcases List.suffix_cons_iff.mp hms with rfl | hms
    · cases h₀.symm.trans h
      exact .refl _
    · obtain ⟨hub₁, hrun, -, hs⟩ := run_cons.mp h
      exact (ih hms hrun).trans (step_continues (run_registered hrun) hs)

/-- The rooms and the listener tasks of the hub represent the same projects. -/
structure Represented (hub : Hub) : Prop where
  sameProjects : ∀ p, (hub.rooms p).isSome ↔ (hub.listenerTasks p).isSome
  nonempty : ∀ p, hub.rooms p ≠ some []
  listens : ∀ p k, hub.listenerTasks p = some k →
    ∃ l, hub.tasks k = some l ∧ l.project = p ∧ l.cancelled = false
  atMostOne : ∀ j k x l, hub.tasks j = some x → hub.tasks k = some l → x.cancelled = false →
    l.cancelled = false → x.project = l.project → j = k

theorem Registered.represented (h : Registered hub) : Represented hub := by
  refine ⟨fun p => by rw [h.same p], h.occupied, h.registered, fun j k x l hj hk hx hl hp => ?_⟩
  have hreg := h.alone j x hj hx
  rw [hp, h.alone k l hk hl] at hreg
  exact (Option.some.inj hreg).symm

def NeverCancelled (redisFails socketFails : Bool) (ms : List HubMove) (hub : Hub) : Prop :=
  ∀ p k, hub.listenerTasks p = some k → ∀ ms₀ hub₀ l₀, ms₀ <:+ ms →
    run redisFails socketFails anyMove ms₀ = some hub₀ → hub₀.tasks k = some l₀ →
    l₀.cancelled = false

theorem hub_represented (h : run redisFails socketFails anyMove ms = some hub) :
    Represented hub ∧ NeverCancelled redisFails socketFails ms hub := by
  have hreg := run_registered h
  refine ⟨hreg.represented, fun p k hk ms₀ hub₀ l₀ hms h₀ hl₀ => ?_⟩
  obtain ⟨l, hl, -, hc⟩ := hreg.registered p k hk
  obtain ⟨l', hl', hstays⟩ := run_continues h₀ hms h k l₀ hl₀
  cases hl.symm.trans hl'
  cases hc₀ : l₀.cancelled with
  | false => rfl
  | true => cases hc.symm.trans (hstays hc₀)

def refilled (p : Uuid) : List HubMove :=
  [.connect p 2, .disconnect p 1, .listen 0 .done, .listen 0 .done, .connect p 1]

def refilledHub : Hub := (run true true anyMove (refilled ⟨0⟩)).get (by decide)

theorem refilled_represented :
    Represented refilledHub ∧ NeverCancelled true true (refilled ⟨0⟩) refilledHub :=
  hub_represented (Option.some_get _).symm

end Hub

end MultiTenantSaas
