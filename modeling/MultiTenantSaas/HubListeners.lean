import MultiTenantSaas.HubRuns

/-!
Listeners at work. While Redis answers, the listener registered for an occupied room is in
its loop or on the way to it; an exception out of `subscribe` or `get_message` ends the
task and leaves it registered.
-/

set_option autoImplicit false

namespace MultiTenantSaas

def Listener.Working (l : Listener) : Prop := l.state ≠ .unsubscribing ∧ l.state ≠ .ended

namespace Hub

variable {redisFails socketFails : Bool} {ok : List HubMove → Hub → HubMove → Bool}
  {hub hub' : Hub} {ms : List HubMove} {p : Uuid} {k j : Nat} {l l' : Listener}

theorem uncancelled_disconnectAll {dead : List Nat}
    (h : (hub.disconnectAll p dead).tasks k = some l) (hc : l.cancelled = false) :
    hub.tasks k = some l := by
  rcases tasks_disconnectAll hub p dead k with hk | hk <;> rw [hk] at h
  · exact h
  · obtain ⟨l₀, -, rfl⟩ := Option.map_eq_some_iff.mp h
    cases hc

theorem uncancelled_disconnect {ws : Nat} (h : (hub.disconnect p ws).tasks k = some l)
    (hc : l.cancelled = false) : hub.tasks k = some l := by
  have hall : (hub.disconnectAll p [ws]).tasks k = some l := h
  exact uncancelled_disconnectAll hall hc

def sendingState (m : Message) (rest dead : List Nat) : ListenerState :=
  match rest with
  | [] => .sleeping
  | _ :: _ => .sending m rest dead

theorem uncancelled_continueSending {m : Message} {rest dead : List Nat}
    (h : (hub.continueSending k p m rest dead).tasks j = some l') (hc : l'.cancelled = false) :
    ∃ l, hub.tasks j = some l ∧ l.cancelled = false ∧
      l' = if j = k then { l with state := sendingState m rest dead } else l := by
  have hset : ∀ hub₁ : Hub, (hub₁.setState k (sendingState m rest dead)).tasks j = some l' →
      ∃ l, hub₁.tasks j = some l ∧ l.cancelled = false ∧
        l' = if j = k then { l with state := sendingState m rest dead } else l := by
    intro hub₁ h₁
    rw [tasks_setState] at h₁
    split at h₁
    · next hjk =>
      obtain ⟨l, hl, rfl⟩ := Option.map_eq_some_iff.mp h₁
      exact ⟨l, hjk ▸ hl, hc, by simp [hjk]⟩
    · next hjk => exact ⟨l', h₁, hc, by simp [hjk]⟩
  cases rest with
  | nil =>
    obtain ⟨l, hl, hlc, hl'⟩ := hset _ h
    exact ⟨l, uncancelled_disconnectAll hl hlc, hlc, hl'⟩
  | cons ws rest => exact hset hub h

/-- A listener's step leaves the other listeners alone, or cancels them. -/
theorem Listens.others (h : Listens redisFails socketFails hub k l hub') (hjk : j ≠ k)
    (hj : hub'.tasks j = some l') (hc : l'.cancelled = false) : hub.tasks j = some l' := by
  have hsend : ∀ (hub₁ : Hub) m rest dead,
      (hub₁.continueSending k l.project m rest dead).tasks j = some l' →
      hub₁.tasks j = some l' := by
    intro hub₁ m rest dead h₁
    obtain ⟨x, hx, -, hx'⟩ := uncancelled_continueSending h₁ hc
    rw [if_neg hjk] at hx'
    exact hx' ▸ hx
  cases h with
  | received m queue order => simpa [hjk] using hsend _ m order [] hj
  | sent m ws rest dead => exact hsend (hub.send ws m) m rest dead hj
  | unsent m ws rest dead => exact hsend _ m rest _ hj
  | _ => simpa [hjk] using hj

def Attending (hub : Hub) : Prop :=
  ∀ k l, hub.tasks k = some l → l.cancelled = false → l.Working

theorem Registered.loopState (h : Registered hub) (ht : hub.tasks k = some l)
    (hc : l.cancelled = false) : hub.loopState l.project = .polling := by
  have hroom := h.same l.project
  rw [h.alone k l ht hc] at hroom
  simp [Hub.loopState, hroom]

theorem Attending.listens (h : Attending hub) (hreg : Registered hub) (ht : hub.tasks k = some l)
    (hl : Listens false socketFails hub k l hub') : Attending hub' := by
  intro j l' hj hc
  by_cases hjk : j = k
  · subst hjk
    have hsend : ∀ (hub₁ : Hub) m rest dead,
        (hub₁.continueSending j l.project m rest dead).tasks j = some l' → l'.Working := by
      intro hub₁ m rest dead h₁
      obtain ⟨x, -, -, rfl⟩ := uncancelled_continueSending h₁ hc
      cases rest <;> simp [Listener.Working, sendingState]
    have hwoke := fun hlc => hreg.loopState ht (l := l) hlc
    cases hl with
    | received m queue order => exact hsend _ m order [] hj
    | sent m ws rest dead => exact hsend (hub.send ws m) m rest dead hj
    | unsent m ws rest dead => exact hsend _ m rest _ hj
    | refused _ _ hf => cases hf
    | broken _ _ hf => cases hf
    | unsubscribed hst =>
      obtain rfl : _ = l' := by simpa using hj
      exact absurd hst (h j l ht hc).1
    | dropped _ hlc | stopped hlc =>
      obtain rfl : _ = l' := by simpa using hj
      cases hlc.symm.trans hc
    | subscribed _ hlc | woke _ hlc =>
      obtain rfl : _ = l' := by simpa using hj
      simp [Listener.Working, hwoke hlc]
    | subscribe | idle =>
      obtain rfl : _ = l' := by simpa using hj
      simp [Listener.Working]
  · exact h j l' (hl.others hjk hj hc) hc

theorem Attending.step {m : HubMove} (h : Attending hub) (hreg : Registered hub)
    (hs : hub.step false socketFails m = some hub') : Attending hub' := by
  cases m with
  | connect p ws =>
    cases hs
    intro k l hk hc
    rcases tasks_connect hreg p ws k with hsame | ⟨-, -, hnew⟩
    · exact h k l (hsame.symm.trans hk) hc
    · cases hnew.symm.trans hk
      simp [Listener.Working, Listener.start]
  | disconnect p ws =>
    cases hs
    exact fun k l hk hc => h k l (uncancelled_disconnect hk hc) hc
  | publish m =>
    cases hs
    intro k l hk hc
    obtain ⟨l₀, hl₀, rfl⟩ := Option.map_eq_some_iff.mp hk
    simpa [Listener.Working] using h k l₀ hl₀ (by simpa using hc)
  | lose k i =>
    cases hs
    intro j l hj hc
    by_cases hjk : j = k
    · subst hjk
      obtain ⟨l₀, hl₀, rfl⟩ : ∃ l₀, hub.tasks j = some l₀ ∧ l₀.lose i = l := by
        simpa [Hub.lose] using hj
      exact h j l₀ hl₀ hc
    · exact h j l (by simpa [Hub.lose, hjk] using hj) hc
  | listen k wake =>
    obtain ⟨l, ht, hl⟩ := listen_cases hs
    exact h.listens hreg ht hl

theorem run_attending (h : run false socketFails ok ms = some hub) : Attending hub :=
  run_invariant (I := fun _ => Attending) (by simp [Attending, empty])
    (fun _ _ _ _ hrun hi _ hs => hi.step (run_registered hrun) hs) h

def answering (_ : List HubMove) (hub : Hub) : HubMove → Bool
  | .listen k .raised =>
    match (hub.tasks k).map Listener.state with
    | some .subscribing | some .polling => false
    | _ => true
  | _ => true

theorem listen_answering {wake : Wake} (h : answering ms hub (.listen k wake) = true) :
    hub.listen redisFails socketFails k wake = hub.listen false socketFails k wake := by
  unfold listen
  cases ht : hub.tasks k with
  | none => rfl
  | some l =>
    obtain ⟨p, state, cancelled, subscribed, queue⟩ := l
    cases state with
    | sending m rest dead => cases rest <;> cases cancelled <;> cases wake <;> simp
    | _ => cases cancelled <;> cases wake <;> simp [answering, ht] at h ⊢

theorem run_answering (h : run redisFails socketFails answering ms = some hub) :
    run false socketFails anyMove ms = some hub := by
  induction ms generalizing hub with
  | nil => exact h
  | cons m ms ih =>
    obtain ⟨hub₁, hrun, hok, hs⟩ := run_cons.mp h
    refine run_cons.mpr ⟨hub₁, ih hrun, rfl, ?_⟩
    cases m with
    | listen k wake => exact (listen_answering hok).symm.trans hs
    | _ => exact hs

/-- Every occupied room has a listener that reads its channel or is about to. -/
def Attended (hub : Hub) : Prop :=
  ∀ p ws, ws ∈ hub.room p → ∃ k l, hub.listenerTasks p = some k ∧ hub.tasks k = some l ∧
    l.project = p ∧ l.Working

theorem Registered.occupant (h : Registered hub) {ws : Nat} (hws : ws ∈ hub.room p) :
    ∃ k l, hub.listenerTasks p = some k ∧ hub.tasks k = some l ∧ l.project = p ∧
      l.cancelled = false := by
  have hroom : (hub.rooms p).isSome := by
    cases hp : hub.rooms p with
    | none => simp [room, hp] at hws
    | some room => rfl
  obtain ⟨k, hk⟩ := Option.isSome_iff_exists.mp ((h.same p).symm.trans hroom)
  obtain ⟨l, hl, hp, hc⟩ := h.registered p k hk
  exact ⟨k, l, hk, hl, hp, hc⟩

/-- While Redis answers the listeners, occupied rooms stay attended. -/
theorem rooms_attended (h : run redisFails socketFails answering ms = some hub) :
    Attended hub := by
  intro p ws hws
  obtain ⟨k, l, hk, hl, hp, hc⟩ := (run_registered h).occupant hws
  exact ⟨k, l, hk, hl, hp, run_attending (run_answering h) k l hl hc⟩

theorem refilled_attended : Attended ((run true true answering (refilled ⟨0⟩)).get (by decide)) :=
  rooms_attended (Option.some_get _).symm

def refused (p : Uuid) : List HubMove :=
  [.connect p 2, .listen 0 .raised, .listen 0 .done, .connect p 1]

def refusedHub : Hub := (run true false anyMove (refused ⟨0⟩)).get (by decide)

/-- The listener of an occupied room has terminated, also for a socket that connects later. -/
theorem rooms_not_attended :
    ¬ ∀ ms hub, run true false anyMove ms = some hub → ∀ p ws, ws ∈ hub.room p →
      ∃ k l, hub.listenerTasks p = some k ∧ hub.tasks k = some l ∧ l.state ≠ .ended := by
  intro hall
  have hrun : run true false anyMove (refused ⟨0⟩) = some refusedHub := (Option.some_get _).symm
  have hws : 2 ∈ refusedHub.room ⟨0⟩ := by decide
  have hreg : refusedHub.listenerTasks ⟨0⟩ = some 0 := by decide
  have hended : (refusedHub.tasks 0).map Listener.state = some .ended := by decide
  obtain ⟨k, l, hk, hl, hst⟩ := hall _ _ hrun ⟨0⟩ 2 hws
  obtain rfl : 0 = k := Option.some.inj (hreg.symm.trans hk)
  rw [hl] at hended
  exact hst (Option.some.inj hended)

end Hub

end MultiTenantSaas
