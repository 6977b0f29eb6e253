import MultiTenantSaas.HubListeners

/-!
What a socket is sent, against what is published for its project. The messages a socket
was sent and those its listener still holds for it are together part of the messages
published, in their order.
-/

set_option autoImplicit false

namespace MultiTenantSaas

/-- The messages the listener holds that `ws` was not sent yet. -/
def Listener.pendingFor (ws : Nat) (l : Listener) : List Message :=
  match l.state with
  | .sending m rest _ => if ws ∈ rest then m :: l.queue else l.queue
  | _ => l.queue

def published (p : Uuid) : List HubMove → List Message
  | [] => []
  | .publish m :: ms =>
    if m.channel = channelName p then published p ms ++ [m] else published p ms
  | _ :: ms => published p ms

namespace Hub

def sentTo (hub : Hub) (ws : Nat) : List Message :=
  (hub.sent.filterMap fun x => if x.1 = ws then some x.2 else none).reverse

variable {redisFails socketFails : Bool} {ok : List HubMove → Hub → HubMove → Bool}
  {hub hub' : Hub} {ms : List HubMove} {p : Uuid} {k j ws : Nat} {l l' : Listener}

theorem published_cons (p : Uuid) (m : HubMove) (ms : List HubMove) :
    (published p ms).Sublist (published p (m :: ms)) := by
  cases m with
  | publish m =>
    simp only [published]
    split
    · exact List.sublist_append_left _ _
    · exact List.Sublist.refl _
  | _ => exact List.Sublist.refl _

theorem sentTo_of_sent (h : hub'.sent = hub.sent) (ws : Nat) : hub'.sentTo ws = hub.sentTo ws := by
  simp [sentTo, h]

@[simp] theorem sentTo_send (hub : Hub) (v ws : Nat) (m : Message) :
    (hub.send v m).sentTo ws = if v = ws then hub.sentTo ws ++ [m] else hub.sentTo ws := by
  by_cases h : v = ws <;> simp [sentTo, send, h]

@[simp] theorem sent_connect (hub : Hub) (p : Uuid) (ws : Nat) :
    (hub.connect p ws).sent = hub.sent := by
  cases hroom : hub.rooms p with
  | none =>
    rw [connect_none hroom]
    rfl
  | some room =>
    rw [connect_some hroom]
    split <;> rfl

@[simp] theorem sent_disconnect (hub : Hub) (p : Uuid) (ws : Nat) :
    (hub.disconnect p ws).sent = hub.sent := by
  unfold disconnect cancelListener
  split
  · rfl
  · simp only
    split
    · split <;> rfl
    · rfl

@[simp] theorem sent_disconnectAll (hub : Hub) (p : Uuid) (dead : List Nat) :
    (hub.disconnectAll p dead).sent = hub.sent := by
  induction dead generalizing hub with
  | nil => rfl
  | cons ws dead ih => exact (ih (hub.disconnect p ws)).trans (hub.sent_disconnect p ws)

@[simp] theorem sent_continueSending (hub : Hub) (k : Nat) (p : Uuid) (m : Message)
    (rest dead : List Nat) : (hub.continueSending k p m rest dead).sent = hub.sent := by
  cases rest with
  | nil => exact hub.sent_disconnectAll p dead
  | cons ws rest => rfl

theorem sentTo_continueSending (hub : Hub) (k : Nat) (p : Uuid) (m : Message)
    (rest dead : List Nat) (ws : Nat) :
    (hub.continueSending k p m rest dead).sentTo ws = hub.sentTo ws :=
  sentTo_of_sent (by simp) ws

@[simp] theorem pendingFor_start (p : Uuid) (ws : Nat) :
    (Listener.start p).pendingFor ws = [] := rfl

theorem pendingFor_sendingState (l : Listener) (m : Message) (rest dead : List Nat) (ws : Nat) :
    ({ l with state := sendingState m rest dead } : Listener).pendingFor ws =
      if ws ∈ rest then m :: l.queue else l.queue := by
  cases rest with
  | nil => simp [Listener.pendingFor, sendingState]
  | cons v rest => rfl

theorem queue_sublist_pendingFor (l : Listener) (ws : Nat) :
    l.queue.Sublist (l.pendingFor ws) := by
  unfold Listener.pendingFor
  split
  · split
    · exact List.sublist_cons_self _ _
    · exact List.Sublist.refl _
  · exact List.Sublist.refl _

theorem pendingFor_deliver (m : Message) (l : Listener) (ws : Nat) :
    (l.deliver m).pendingFor ws =
      if l.subscribed = true ∧ channelName l.project = m.channel then l.pendingFor ws ++ [m]
      else l.pendingFor ws := by
  obtain ⟨p, state, cancelled, subscribed, queue⟩ := l
  by_cases h : subscribed = true ∧ channelName p = m.channel
  · cases state with
    | sending x rest dead =>
      by_cases hws : ws ∈ rest <;> simp [Listener.deliver, Listener.pendingFor, h, hws]
    | _ => simp [Listener.deliver, Listener.pendingFor, h]
  · simp [Listener.deliver, h]

theorem pendingFor_lose (l : Listener) (i ws : Nat) :
    ((l.lose i).pendingFor ws).Sublist (l.pendingFor ws) := by
  have hqueue := l.queue.eraseIdx_sublist i
  unfold Listener.pendingFor
  cases hst : l.state with
  | sending m rest dead =>
    simp only [Listener.lose, hst]
    split
    · exact hqueue.cons_cons m
    · exact hqueue
  | _ => simpa [Listener.lose, hst] using hqueue

theorem Listens.sentTo_cases (h : Listens redisFails socketFails hub k l hub') (ws : Nat) :
    hub'.sentTo ws = hub.sentTo ws ∨ ∃ m rest dead, l.state = .sending m (ws :: rest) dead ∧
      l.cancelled = false ∧ hub'.sentTo ws = hub.sentTo ws ++ [m] := by
  cases h with
  | received m queue order => exact Or.inl (sentTo_continueSending _ k _ m order [] ws)
  | sent m v rest dead hst hc =>
    rw [sentTo_continueSending, sentTo_send]
    split
    · next hv =>
      subst hv
      exact Or.inr ⟨m, rest, dead, hst, hc, rfl⟩
    · exact Or.inl rfl
  | unsent m v rest dead => exact Or.inl (sentTo_continueSending hub k _ m rest _ ws)
  | _ => exact Or.inl rfl

theorem Listens.own (h : Listens redisFails socketFails hub k l hub') (ht : hub.tasks k = some l)
    (hk : hub'.tasks k = some l') (hc : l'.cancelled = false) :
    l'.project = l.project ∧ l.cancelled = false := by
  cases h with
  | received m queue order _ hlc =>
    obtain ⟨x, hx, -, rfl⟩ := uncancelled_continueSending hk hc
    obtain rfl : { l with queue := queue } = x := by simpa using hx
    exact ⟨by simp, hlc⟩
  | sent m v rest dead _ hlc =>
    obtain ⟨x, hx, -, rfl⟩ := uncancelled_continueSending hk hc
    cases ht.symm.trans hx
    exact ⟨by simp, hlc⟩
  | unsent m v rest dead _ hlc =>
    obtain ⟨x, hx, -, rfl⟩ := uncancelled_continueSending hk hc
    cases ht.symm.trans hx
    exact ⟨by simp, hlc⟩
  | _ =>
    obtain rfl : _ = l' := by simpa using hk
    exact ⟨rfl, hc⟩

/-- Rooms and what is left of them to be served hold each socket once. -/
structure Distinct (hub : Hub) : Prop where
  rooms : ∀ p, (hub.room p).Nodup
  sending : ∀ k l m rest dead, hub.tasks k = some l → l.cancelled = false →
    l.state = .sending m rest dead → rest.Nodup

/-- A step of a listener takes from what it holds for `ws`, and sends what it takes from the
front. -/
theorem Listens.stream_sublist (h : Listens redisFails socketFails hub k l hub')
    (hd : Distinct hub) (ht : hub.tasks k = some l) (hk : hub'.tasks k = some l')
    (hc : l'.cancelled = false) (ws : Nat) :
    (hub'.sentTo ws ++ l'.pendingFor ws).Sublist (hub.sentTo ws ++ l.pendingFor ws) := by
  have hqueue : ∀ st : ListenerState, (∀ m rest dead, st ≠ .sending m rest dead) →
      (hub.sentTo ws ++ ({ l with state := st } : Listener).pendingFor ws).Sublist
        (hub.sentTo ws ++ l.pendingFor ws) := by
    intro st hst
    have hp : ({ l with state := st } : Listener).pendingFor ws = l.queue := by
      cases st with
      | sending m rest dead => exact absurd rfl (hst m rest dead)
      | _ => rfl
    rw [hp]
    exact (queue_sublist_pendingFor l ws).append_left _
  have hloop : ∀ m rest dead, hub.loopState l.project ≠ .sending m rest dead := by
    intro m rest dead
    unfold loopState
    split <;> simp
  cases h with
  | received m queue order hst hlc hq hperm =>
    obtain ⟨x, hx, -, rfl⟩ := uncancelled_continueSending hk hc
    obtain rfl : { l with queue := queue } = x := by simpa using hx
    rw [if_pos rfl, sentTo_continueSending, pendingFor_sendingState]
    refine List.Sublist.append_left ?_ _
    simp only [Listener.pendingFor, hst, hq]
    split
    · exact List.Sublist.refl _
    · exact List.sublist_cons_self m queue
  | sent m v rest dead hst hlc =>
    obtain ⟨x, hx, -, rfl⟩ := uncancelled_continueSending hk hc
    cases ht.symm.trans hx
    have hv : v ∉ rest := (List.nodup_cons.mp (hd.sending k l m _ dead ht hlc hst)).1
    rw [if_pos rfl, sentTo_continueSending, pendingFor_sendingState, sentTo_send]
    by_cases hws : v = ws
    · subst hws
      simp [Listener.pendingFor, hst, hv]
    · simp [Listener.pendingFor, hst, hws, Ne.symm hws]
  | unsent m v rest dead hst hlc =>
    obtain ⟨x, hx, -, rfl⟩ := uncancelled_continueSending hk hc
    cases ht.symm.trans hx
    rw [if_pos rfl, sentTo_continueSending, pendingFor_sendingState]
    refine List.Sublist.append_left ?_ _
    simp only [Listener.pendingFor, hst, List.mem_cons]
    by_cases hws : ws ∈ rest
    · simp [hws]
    · by_cases hv : ws = v
      · subst hv
        simp [hws]
      · simp [hws, hv]
  | unsubscribed =>
    obtain rfl : _ = l' := by simpa using hk
    exact (List.nil_sublist _).append_left _
  | subscribed | woke =>
    obtain rfl : _ = l' := by simpa using hk
    exact hqueue _ hloop
  | _ =>
    obtain rfl : _ = l' := by simpa using hk
    exact hqueue _ (by simp)

theorem room_connect (hub : Hub) (p : Uuid) (ws : Nat) (q : Uuid) :
    (hub.connect p ws).room q =
      if q = p then if ws ∈ hub.room p then hub.room p else hub.room p ++ [ws] else hub.room q := by
  cases hroom : hub.rooms p with
  | none =>
    rw [connect_none hroom]
    by_cases hq : q = p <;> simp [room, hq, hroom]
  | some r =>
    rw [connect_some hroom]
    by_cases hws : ws ∈ r <;> by_cases hq : q = p <;> simp [room, hq, hroom, hws]

theorem room_disconnect (hub : Hub) (p : Uuid) (ws : Nat) (q : Uuid) :
    (hub.disconnect p ws).room q =
      if q = p then (hub.room p).filter (· ≠ ws) else hub.room q := by
  unfold disconnect
  cases hroom : hub.rooms p with
  | none => by_cases hq : q = p <;> simp [room, hq, hroom]
  | some r =>
    simp only
    split
    · next hleft =>
      simp only [room, rooms_cancelListener, rooms_setRoom, hroom, Option.getD_some, hleft]
      split <;> rfl
    · by_cases hq : q = p <;> simp [room, hq, hroom]

theorem room_disconnectAll_sublist (hub : Hub) (p : Uuid) (dead : List Nat) (q : Uuid) :
    ((hub.disconnectAll p dead).room q).Sublist (hub.room q) := by
  induction dead generalizing hub with
  | nil => exact List.Sublist.refl _
  | cons ws dead ih =>
    refine (ih (hub.disconnect p ws)).trans ?_
    rw [room_disconnect]
    split
    · next hq =>
      rw [hq]
      exact List.filter_sublist
    · exact List.Sublist.refl _

theorem room_continueSending_sublist (hub : Hub) (k : Nat) (p : Uuid) (m : Message)
    (rest dead : List Nat) (q : Uuid) :
    ((hub.continueSending k p m rest dead).room q).Sublist (hub.room q) := by
  cases rest with
  | nil => exact hub.room_disconnectAll_sublist p dead q
  | cons ws rest => exact List.Sublist.refl _

theorem Listens.room_sublist (h : Listens redisFails socketFails hub k l hub') (q : Uuid) :
    (hub'.room q).Sublist (hub.room q) := by
  cases h with
  | received m queue order =>
    exact (hub.setTask k { l with queue := queue }).room_continueSending_sublist k _ m order [] q
  | sent m v rest dead => exact (hub.send v m).room_continueSending_sublist k _ m rest dead q
  | unsent m v rest dead => exact hub.room_continueSending_sublist k _ m rest _ q
  | _ => exact List.Sublist.refl _

namespace Distinct

theorem connect (h : Distinct hub) (hreg : Registered hub) (p : Uuid) (ws : Nat) :
    Distinct (hub.connect p ws) := by
  refine ⟨fun q => ?_, fun k l m rest dead hk hc hst => ?_⟩
  · rw [room_connect]
    split
    · split
      · exact h.rooms p
      · next hws => exact (h.rooms p).append (by simp) (by simpa using hws)
    · exact h.rooms q
  · rcases tasks_connect hreg p ws k with hsame | ⟨-, -, hnew⟩
    · exact h.sending k l m rest dead (hsame.symm.trans hk) hc hst
    · cases hnew.symm.trans hk
      cases hst

theorem disconnectAll (h : Distinct hub) (p : Uuid) (dead : List Nat) :
    Distinct (hub.disconnectAll p dead) :=
  ⟨fun q => (h.rooms q).sublist (hub.room_disconnectAll_sublist p dead q),
    fun k l m rest dead hk hc hst =>
      h.sending k l m rest dead (uncancelled_disconnectAll hk hc) hc hst⟩

theorem publish (h : Distinct hub) (m : Message) : Distinct (hub.publish m) := by
  refine ⟨h.rooms, fun k l x rest dead hk hc hst => ?_⟩
  obtain ⟨l₀, hl₀, rfl⟩ := Option.map_eq_some_iff.mp hk
  exact h.sending k l₀ x rest dead hl₀ (by simpa using hc) (by simpa using hst)

theorem lose (h : Distinct hub) (k i : Nat) : Distinct (hub.lose k i) := by
  refine ⟨h.rooms, fun j l m rest dead hj hc hst => ?_⟩
  by_cases hjk : j = k
  · subst hjk
    obtain ⟨l₀, hl₀, rfl⟩ : ∃ l₀, hub.tasks j = some l₀ ∧ l₀.lose i = l := by
      simpa [Hub.lose] using hj
    exact h.sending j l₀ m rest dead hl₀ hc hst
  · exact h.sending j l m rest dead (by simpa [Hub.lose, hjk] using hj) hc hst

theorem listens (h : Distinct hub) (ht : hub.tasks k = some l)
    (hl : Listens redisFails socketFails hub k l hub') : Distinct hub' := by
  refine ⟨fun q => (h.rooms q).sublist (hl.room_sublist q), fun j l' x rest dead hj hc hst => ?_⟩
  by_cases hjk : j = k
  · subst hjk
    have hsend : ∀ (hub₁ : Hub) (m : Message) (order dead₁ : List Nat), order.Nodup →
        (hub₁.continueSending j l.project m order dead₁).tasks j = some l' → rest.Nodup := by
      intro hub₁ m order dead₁ hnodup h₁
      obtain ⟨y, -, -, rfl⟩ := uncancelled_continueSending h₁ hc
      cases order with
      | nil => simp [sendingState] at hst
      | cons v order =>
        simp [sendingState] at hst
        exact hst.2.1 ▸ hnodup
    cases hl with
    | received m queue order _ _ _ hperm =>
      exact hsend _ m order [] (hperm.nodup_iff.mpr (h.rooms l.project)) hj
    | sent m v order dead₁ hlst hlc =>
      have hnodup := List.nodup_cons.mp (h.sending j l m _ dead₁ ht hlc hlst)
      exact hsend (hub.send v m) m order dead₁ hnodup.2 hj
    | unsent m v order dead₁ hlst hlc =>
      have hnodup := List.nodup_cons.mp (h.sending j l m _ dead₁ ht hlc hlst)
      exact hsend hub m order _ hnodup.2 hj
    | subscribed | woke =>
      obtain rfl : _ = l' := by simpa using hj
      simp only [loopState] at hst
      split at hst <;> cases hst
    | _ =>
      obtain rfl : _ = l' := by simpa using hj
      cases hst
  · exact h.sending j l' x rest dead (hl.others hjk hj hc) hc hst

theorem step {m : HubMove} (h : Distinct hub) (hreg : Registered hub)
    (hs : hub.step redisFails socketFails m = some hub') : Distinct hub' := by
  cases m with
  | connect p ws => cases hs; exact h.connect hreg p ws
  | disconnect p ws => cases hs; exact h.disconnectAll p [ws]
  | publish m => cases hs; exact h.publish m
  | lose k i => cases hs; exact h.lose k i
  | listen k wake =>
    obtain ⟨l, ht, hl⟩ := listen_cases hs
    exact h.listens ht hl

end Distinct

theorem run_distinct (h : run redisFails socketFails ok ms = some hub) : Distinct hub :=
  run_invariant (I := fun _ => Distinct) ⟨by simp [room, empty], by simp [empty]⟩
    (fun _ _ _ _ hrun hi _ hs => hi.step (run_registered hrun) hs) h

theorem Routed.lose {member : Nat → Uuid → Prop} {good : Message → Prop}
    (h : Routed member good hub) (k i : Nat) : Routed member good (hub.lose k i) := by
  refine h.updateTask (fun l hl m hm => ?_) fun l m rest dead hl hst => ?_
  · obtain ⟨l₀, hl₀, rfl⟩ := Option.map_eq_some_iff.mp hl
    exact h.queue k l₀ hl₀ m (List.mem_of_mem_eraseIdx hm)
  · obtain ⟨l₀, hl₀, rfl⟩ := Option.map_eq_some_iff.mp hl
    exact h.sending k l₀ m rest dead hl₀ hst

theorem run_routed (h : run redisFails socketFails ok ms = some hub) :
    Routed (fun ws p => .connect p ws ∈ ms) (fun _ => True) hub := by
  refine run_invariant (I := fun ms => Routed (fun ws p => .connect p ws ∈ ms) fun _ => True)
    routed_empty (fun ms hub m hub' _ hi _ hs => ?_) h
  have hold : Routed (fun ws p => .connect p ws ∈ m :: ms) (fun _ => True) hub :=
    hi.mono (fun _ _ => List.mem_cons_of_mem m) fun _ => id
  cases m with
  | connect p ws => cases hs; exact hold.connect List.mem_cons_self
  | disconnect p ws => cases hs; exact hold.disconnect p ws
  | publish m => cases hs; exact hold.publish trivial
  | lose k i => cases hs; exact hold.lose k i
  | listen k wake => exact hold.listen hs

def OnlyIn (p : Uuid) (ws : Nat) (ms : List HubMove) : Prop := ∀ q, .connect q ws ∈ ms → q = p

theorem OnlyIn.of_cons {m : HubMove} (h : OnlyIn p ws (m :: ms)) : OnlyIn p ws ms :=
  fun q hq => h q (List.mem_cons_of_mem m hq)

structure Streamed (ms : List HubMove) (hub : Hub) : Prop where
  sent : ∀ p ws, OnlyIn p ws ms → (hub.sentTo ws).Sublist (published p ms)
  pending : ∀ k l ws, hub.tasks k = some l → l.cancelled = false → OnlyIn l.project ws ms →
    (hub.sentTo ws ++ l.pendingFor ws).Sublist (published l.project ms)

namespace Streamed

theorem listens (h : Streamed ms hub) (hreg : Registered hub) (hd : Distinct hub)
    (hr : Routed (fun ws p => .connect p ws ∈ ms) (fun _ => True) hub)
    (ht : hub.tasks k = some l) (hl : Listens redisFails socketFails hub k l hub') :
    Streamed ms hub' := by
  refine ⟨fun p ws honly => ?_, fun j l' ws hj hc honly => ?_⟩
  · rcases hl.sentTo_cases ws with hsame | ⟨m, rest, dead, hst, hc, hsent⟩
    · exact hsame ▸ h.sent p ws honly
    · have hjoined := (hr.sending k l m _ dead ht hst).2.2 ws List.mem_cons_self
      obtain rfl : l.project = p := honly _ hjoined
      have hheld : [m].Sublist (l.pendingFor ws) := by
        simp [Listener.pendingFor, hst]
      rw [hsent]
      exact (hheld.append_left _).trans (h.pending k l ws ht hc honly)
  · by_cases hjk : j = k
    · subst hjk
      have hsub := hl.stream_sublist hd ht hj hc ws
      obtain ⟨hp, hlc⟩ := hl.own ht hj hc
      rw [hp] at honly ⊢
      exact hsub.trans (h.pending j l ws ht hlc honly)
    · have hold := hl.others hjk hj hc
      rcases hl.sentTo_cases ws with hsame | ⟨m, rest, dead, hst, hlc, -⟩
      · exact hsame ▸ h.pending j l' ws hold hc honly
      · have hjoined := (hr.sending k l m _ dead ht hst).2.2 ws List.mem_cons_self
        have hreg₁ := hreg.alone j l' hold hc
        rw [← honly _ hjoined, hreg.alone k l ht hlc] at hreg₁
        exact absurd (Option.some.inj hreg₁).symm hjk

theorem publish (h : Streamed ms hub) (m : Message) :
    Streamed (.publish m :: ms) (hub.publish m) := by
  refine ⟨fun p ws ho => (h.sent p ws ho.of_cons).trans (published_cons p _ ms),
    fun k l ws hk hc ho => ?_⟩
  obtain ⟨l₀, hl₀, rfl⟩ := Option.map_eq_some_iff.mp hk
  rw [project_deliver] at ho ⊢
  have hold := h.pending k l₀ ws hl₀ (by simpa using hc) ho.of_cons
  rw [pendingFor_deliver]
  split
  · next hd =>
    rw [published, if_pos hd.2.symm, ← List.append_assoc]
    exact hold.append_right [m]
  · exact hold.trans (published_cons _ _ ms)

theorem lose (h : Streamed ms hub) (k i : Nat) : Streamed (.lose k i :: ms) (hub.lose k i) := by
  refine ⟨fun p ws ho => h.sent p ws ho.of_cons, fun j l ws hj hc ho => ?_⟩
  by_cases hjk : j = k
  · subst hjk
    obtain ⟨l₀, hl₀, rfl⟩ : ∃ l₀, hub.tasks j = some l₀ ∧ l₀.lose i = l := by
      simpa [Hub.lose] using hj
    refine List.Sublist.trans (List.Sublist.append_left ?_ _) (h.pending j l₀ ws hl₀ hc ho.of_cons)
    exact pendingFor_lose l₀ i ws
  · exact h.pending j l ws (by simpa [Hub.lose, hjk] using hj) hc ho.of_cons

theorem connect (h : Streamed ms hub) (hreg : Registered hub) (p : Uuid) (v : Nat) :
    Streamed (.connect p v :: ms) (hub.connect p v) := by
  have hsent : ∀ ws, (hub.connect p v).sentTo ws = hub.sentTo ws :=
    sentTo_of_sent (hub.sent_connect p v)
  refine ⟨fun p ws ho => hsent ws ▸ h.sent p ws ho.of_cons, fun k l ws hk hc ho => ?_⟩
  rw [hsent]
  rcases tasks_connect hreg p v k with hsame | ⟨-, -, hnew⟩
  · exact h.pending k l ws (hsame.symm.trans hk) hc ho.of_cons
  · cases hnew.symm.trans hk
    rw [pendingFor_start, List.append_nil]
    exact h.sent p ws ho.of_cons

theorem disconnect (h : Streamed ms hub) (p : Uuid) (v : Nat) :
    Streamed (.disconnect p v :: ms) (hub.disconnect p v) := by
  have hsent : ∀ ws, (hub.disconnect p v).sentTo ws = hub.sentTo ws :=
    sentTo_of_sent (hub.sent_disconnect p v)
  refine ⟨fun p ws ho => hsent ws ▸ h.sent p ws ho.of_cons, fun k l ws hk hc ho => ?_⟩
  rw [hsent]
  exact h.pending k l ws (uncancelled_disconnect hk hc) hc ho.of_cons

end Streamed

theorem run_streamed (h : run redisFails socketFails ok ms = some hub) : Streamed ms hub := by
  refine run_invariant (I := Streamed)
    ⟨fun p ws _ => List.Sublist.refl _, by simp [empty]⟩ (fun ms hub m hub' hrun hi _ hs => ?_) h
  have hreg := run_registered hrun
  cases m with
  | connect p ws => cases hs; exact hi.connect hreg p ws
  | disconnect p ws => cases hs; exact hi.disconnect p ws
  | publish m => cases hs; exact hi.publish m
  | lose k i => cases hs; exact hi.lose k i
  | listen k wake =>
    obtain ⟨l, ht, hl⟩ := listen_cases hs
    have hstreamed := hi.listens hreg (run_distinct hrun) (run_routed hrun) ht hl
    exact ⟨fun p ws ho => hstreamed.sent p ws ho.of_cons,
      fun k l ws hk hc ho => hstreamed.pending k l ws hk hc ho.of_cons⟩

theorem channel_published {m : Message} (h : m ∈ published p ms) : m.channel = channelName p := by
  induction ms with
  | nil => cases h
  | cons x ms ih =>
    cases x with
    | publish x =>
      unfold published at h
      split at h
      · next hx =>
        rcases List.mem_append.mp h with h | h
        · exact ih h
        · exact List.mem_singleton.mp h ▸ hx
      · exact ih h
    | _ => exact ih h

/-- A socket that connects to one project is sent messages of its channel, in the order of
their publication and each of them at most once. -/
theorem streams_ordered (h : run redisFails socketFails anyMove ms = some hub)
    (honly : OnlyIn p ws ms) :
    (hub.sentTo ws).Sublist (published p ms) ∧ ∀ m ∈ hub.sentTo ws, m.channel = channelName p := by
  have hsub := (run_streamed h).sent p ws honly
  exact ⟨hsub, fun m hm => channel_published (hsub.subset hm)⟩

def twoStreams (p q : Uuid) : List HubMove :=
  [.listen 0 .done, .listen 0 (.message [1]), .listen 0 .done, .listen 1 .done,
    .listen 1 (.message [2]), .listen 0 .done, .listen 0 (.message [1]),
    .publish ⟨channelName p, [], [], 2⟩, .publish ⟨channelName q, [], [], 1⟩,
    .publish ⟨channelName p, [], [], 0⟩, .listen 1 .done, .listen 1 .done, .listen 0 .done,
    .listen 0 .done, .connect q 2, .connect p 1]

def twoStreamsHub : Hub :=
  (run false false anyMove (twoStreams ⟨0⟩ ⟨1⟩)).get (by decide +kernel)

theorem twoStreams_ordered :
    (twoStreamsHub.sentTo 1).Sublist (published ⟨0⟩ (twoStreams ⟨0⟩ ⟨1⟩)) ∧
      ∀ m ∈ twoStreamsHub.sentTo 1, m.channel = channelName ⟨0⟩ :=
  streams_ordered (Option.some_get _).symm (by simp [OnlyIn, twoStreams])

example : (twoStreamsHub.sentTo 1).map Message.publisher = [0, 2] := by decide +kernel

def present (p : Uuid) (ws : Nat) (ms : List HubMove) : Bool :=
  match run false false anyMove ms with
  | some hub => (hub.room p).contains ws
  | none => false

/-- The messages published on the channel of `p` since `ws` is in its room. -/
def owed (p : Uuid) (ws : Nat) : List HubMove → List Message
  | [] => []
  | m :: ms => if present p ws ms then owed p ws ms ++ published p [m] else []

def lossless (_ : List HubMove) (_ : Hub) : HubMove → Bool
  | .lose _ _ => false
  | _ => true

/-- A message is published on the channel of a listener only after its subscription. -/
def subscribedFirst (_ : List HubMove) (hub : Hub) : HubMove → Bool
  | .publish m => (List.range hub.created).all fun k =>
    match hub.tasks k with
    | some l => l.cancelled || channelName l.project != m.channel || l.subscribed
    | none => true
  | _ => true

theorem subscribedFirst_publish {m : Message} (hreg : Registered hub)
    (h : subscribedFirst ms hub (.publish m) = true) (hk : hub.tasks k = some l)
    (hc : l.cancelled = false) (hm : channelName l.project = m.channel) : l.subscribed = true := by
  have hlt := hreg.lt_created hk
  simp only [subscribedFirst, List.all_eq_true, List.mem_range] at h
  simpa [hk, hc, hm] using h k hlt

theorem present_run (h : run false false anyMove ms = some hub) :
    present p ws ms = true ↔ ws ∈ hub.room p := by
  simp [present, h]

theorem Listens.stream_kept (h : Listens false false hub k l hub') (hworks : l.Working)
    (ht : hub.tasks k = some l) (hk : hub'.tasks k = some l') (hc : l'.cancelled = false)
    (hws : ws ∈ hub.room l.project) :
    (hub.sentTo ws ++ l.pendingFor ws).Sublist (hub'.sentTo ws ++ l'.pendingFor ws) := by
  cases h with
  | received m queue order hst hlc hq hperm =>
    obtain ⟨x, hx, -, rfl⟩ := uncancelled_continueSending hk hc
    obtain rfl : { l with queue := queue } = x := by simpa using hx
    have hmem : ws ∈ order := hperm.mem_iff.mpr hws
    rw [if_pos rfl, sentTo_continueSending, pendingFor_sendingState, if_pos hmem]
    exact List.Sublist.append_left (by simp [Listener.pendingFor, hst, hq]) _
  | sent m v rest dead hst hlc =>
    obtain ⟨x, hx, -, rfl⟩ := uncancelled_continueSending hk hc
    cases ht.symm.trans hx
    rw [if_pos rfl, sentTo_continueSending, pendingFor_sendingState, sentTo_send]
    by_cases hv : v = ws
    · subst hv
      by_cases hrest : v ∈ rest <;> simp [Listener.pendingFor, hst, hrest]
    · simp [Listener.pendingFor, hst, hv, Ne.symm hv]
  | unsent m v rest dead hst hlc hgone =>
    obtain ⟨x, hx, -, rfl⟩ := uncancelled_continueSending hk hc
    cases ht.symm.trans hx
    have hv : ws ≠ v := by
      rintro rfl
      exact hgone.elim (by simp) fun hout => hout hws
    rw [if_pos rfl, sentTo_continueSending, pendingFor_sendingState]
    exact List.Sublist.append_left (by simp [Listener.pendingFor, hst, hv]) _
  | unsubscribed hst => exact absurd hst hworks.1
  | refused _ _ hf => cases hf
  | broken _ _ hf => cases hf
  | dropped _ hlc | stopped hlc =>
    obtain rfl : _ = l' := by simpa using hk
    cases hlc.symm.trans hc
  | subscribed hst | woke hst =>
    have hqueue : l.pendingFor ws = l.queue := by simp [Listener.pendingFor, hst]
    have hheld := queue_sublist_pendingFor l' ws
    obtain rfl : _ = l' := by simpa using hk
    rw [hqueue]
    exact hheld.append_left _
  | subscribe hst | idle hst =>
    obtain rfl : _ = l' := by simpa using hk
    exact List.Sublist.append_left (by simp [Listener.pendingFor, hst]) _

/-- What a socket of a room is owed it was sent, or its listener holds it. -/
def Owing (ms : List HubMove) (hub : Hub) : Prop :=
  ∀ k l ws, hub.tasks k = some l → l.cancelled = false → ws ∈ hub.room l.project →
    (owed l.project ws ms).Sublist (hub.sentTo ws ++ l.pendingFor ws)

theorem owed_cons {m : HubMove} (h : ws ∈ hub.room p)
    (hrun : run false false anyMove ms = some hub) :
    owed p ws (m :: ms) = owed p ws ms ++ published p [m] := by
  rw [owed, if_pos ((present_run hrun).mpr h)]

theorem owed_joining (m : HubMove) (h : ws ∉ hub.room p)
    (hrun : run false false anyMove ms = some hub) : owed p ws (m :: ms) = [] := by
  rw [owed, if_neg (mt (present_run hrun).mp h)]

theorem owed_quiet {m : HubMove} (h : ws ∈ hub.room p)
    (hrun : run false false anyMove ms = some hub) (hm : published p [m] = []) :
    owed p ws (m :: ms) = owed p ws ms := by
  rw [owed_cons h hrun, hm, List.append_nil]

namespace Owing

theorem listens (h : Owing ms hub) (hrun : run false false anyMove ms = some hub) (wake : Wake)
    (ht : hub.tasks k = some l) (hl : Listens false false hub k l hub') :
    Owing (.listen k wake :: ms) hub' := by
  intro j l' ws hj hc hws
  have hroom := (hl.room_sublist _).subset hws
  rw [owed_quiet hroom hrun rfl]
  by_cases hjk : j = k
  · subst hjk
    obtain ⟨hp, hlc⟩ := hl.own ht hj hc
    rw [hp] at hroom ⊢
    exact (h j l ws ht hlc hroom).trans
      (hl.stream_kept (run_attending hrun j l ht hlc) ht hj hc hroom)
  · have hold := h j l' ws (hl.others hjk hj hc) hc hroom
    rcases hl.sentTo_cases ws with hsame | ⟨m, rest, dead, -, -, hsent⟩
    · exact hsame ▸ hold
    · rw [hsent]
      exact hold.trans ((List.sublist_append_left _ _).append_right _)

theorem connect (h : Owing ms hub) (hrun : run false false anyMove ms = some hub) (p : Uuid)
    (v : Nat) : Owing (.connect p v :: ms) (hub.connect p v) := by
  intro k l ws hk hc _
  by_cases hroom : ws ∈ hub.room l.project
  · rw [owed_quiet hroom hrun rfl, sentTo_of_sent (hub.sent_connect p v)]
    rcases tasks_connect (run_registered hrun) p v k with hsame | ⟨hnone, -, hnew⟩
    · exact h k l ws (hsame.symm.trans hk) hc hroom
    · cases hnew.symm.trans hk
      simp [Hub.room, Listener.start, hnone] at hroom
  · rw [owed_joining _ hroom hrun]
    exact List.nil_sublist _

theorem disconnect (h : Owing ms hub) (hrun : run false false anyMove ms = some hub) (p : Uuid)
    (v : Nat) : Owing (.disconnect p v :: ms) (hub.disconnect p v) := by
  intro k l ws hk hc hws
  have hroom := (hub.room_disconnectAll_sublist p [v] l.project).subset hws
  rw [owed_quiet hroom hrun rfl, sentTo_of_sent (hub.sent_disconnect p v)]
  exact h k l ws (uncancelled_disconnect hk hc) hc hroom

theorem publish (h : Owing ms hub) (hrun : run false false anyMove ms = some hub) {m : Message}
    (hfirst : subscribedFirst ms hub (.publish m) = true) :
    Owing (.publish m :: ms) (hub.publish m) := by
  intro k l ws hk hc hroom
  obtain ⟨l₀, hl₀, rfl⟩ := Option.map_eq_some_iff.mp hk
  rw [project_deliver] at hroom ⊢
  change ws ∈ hub.room l₀.project at hroom
  have hc₀ : l₀.cancelled = false := by simpa using hc
  have hold := h k l₀ ws hl₀ hc₀ hroom
  have hsubscribed := subscribedFirst_publish (run_registered hrun) hfirst hl₀ hc₀
  rw [owed_cons hroom hrun, pendingFor_deliver]
  by_cases hm : m.channel = channelName l₀.project
  · simp only [published, hm, if_true, List.nil_append, hsubscribed hm.symm, and_self,
      ← List.append_assoc]
    exact hold.append_right [m]
  · simp only [published, hm, if_false, List.append_nil, Ne.symm hm, and_false]
    exact hold

theorem step {m : HubMove} (h : Owing ms hub) (hrun : run false false anyMove ms = some hub)
    (hfirst : subscribedFirst ms hub m = true) (hloss : lossless ms hub m = true)
    (hs : hub.step false false m = some hub') : Owing (m :: ms) hub' := by
  cases m with
  | connect p ws => cases hs; exact h.connect hrun p ws
  | disconnect p ws => cases hs; exact h.disconnect hrun p ws
  | publish m => cases hs; exact h.publish hrun hfirst
  | lose k i => cases hloss
  | listen k wake =>
    obtain ⟨l, ht, hl⟩ := listen_cases hs
    exact h.listens hrun wake ht hl

end Owing

/-- Redis loses nothing, and publishes for subscribed listeners only. -/
def afterSubscription (ms : List HubMove) (hub : Hub) (m : HubMove) : Bool :=
  lossless ms hub m && subscribedFirst ms hub m

theorem run_owing (h : run false false afterSubscription ms = some hub) : Owing ms hub := by
  refine run_invariant (I := Owing) (by simp [Owing, empty])
    (fun ms hub m hub' hrun hi hok hs => ?_) h
  obtain ⟨hloss, hfirst⟩ := Bool.and_eq_true_iff.mp hok
  exact hi.step (run_anyMove hrun) hfirst hloss hs

def Drained (l : Listener) : Prop :=
  l.queue = [] ∧ ∀ m rest dead, l.state ≠ .sending m rest dead

/-- When the listener of the room has drained its subscription, a socket was sent all that
was published since it is in the room. -/
def Delivered (ms : List HubMove) (hub : Hub) : Prop :=
  ∀ p ws k l, ws ∈ hub.room p → hub.listenerTasks p = some k → hub.tasks k = some l →
    Drained l → (owed p ws ms).Sublist (hub.sentTo ws)

theorem streams_delivered (h : run false false afterSubscription ms = some hub) :
    Delivered ms hub := by
  intro p ws k l hws hk hl ⟨hqueue, hst⟩
  obtain ⟨l', hl', rfl, hc⟩ := (run_registered h).registered p k hk
  cases hl.symm.trans hl'
  have howed := run_owing h k l ws hl hc hws
  have hnone : l.pendingFor ws = [] := by
    unfold Listener.pendingFor
    split
    · next m rest dead hs => exact absurd hs (hst m rest dead)
    · exact hqueue
  rwa [hnone, List.append_nil] at howed

theorem twoStreams_delivered : Delivered (twoStreams ⟨0⟩ ⟨1⟩)
    ((run false false afterSubscription (twoStreams ⟨0⟩ ⟨1⟩)).get (by decide +kernel)) :=
  streams_delivered (Option.some_get _).symm

def early (p : Uuid) : List HubMove :=
  [.listen 0 .idle, .listen 0 .done, .listen 0 .done, .publish ⟨channelName p, [], [], 0⟩,
    .connect p 1]

def earlyHub : Hub := (run false false lossless (early ⟨0⟩)).get (by decide +kernel)

/-- An event published after a socket is connected never reaches it. -/
theorem streams_not_delivered :
    ¬ ∀ ms hub, run false false lossless ms = some hub → Delivered ms hub := by
  intro hall
  have hws : 1 ∈ earlyHub.room ⟨0⟩ := by decide +kernel
  have hreg : earlyHub.listenerTasks ⟨0⟩ = some 0 := by decide +kernel
  have htask : earlyHub.tasks 0 = some ⟨⟨0⟩, .sleeping, false, true, []⟩ := by decide +kernel
  have hsub := hall (early ⟨0⟩) earlyHub (Option.some_get _).symm ⟨0⟩ 1 0 _ hws hreg htask
    ⟨rfl, by simp⟩
  have howed : (owed ⟨0⟩ 1 (early ⟨0⟩)).length = 1 := by decide +kernel
  have hsent : (earlyHub.sentTo 1).length = 0 := by decide +kernel
  have hle := hsub.length_le
  omega

end Hub

end MultiTenantSaas
