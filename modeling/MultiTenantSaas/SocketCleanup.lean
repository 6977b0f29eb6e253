import MultiTenantSaas.Answering
import MultiTenantSaas.Broadcasts
import MultiTenantSaas.HubStreams
import MultiTenantSaas.Readers

/-!
Sockets that leave. The handler of a socket takes it out of its room when it is told that
the client has disconnected, and the listener when a message cannot be sent. An exception
of another kind ends the handler without either.
-/

set_option autoImplicit false

namespace MultiTenantSaas

open Process

/-- The socket of a handler that has ended is in no room, and a registered listener has a
socket in its room whose handler has not ended. -/
structure NoSocketLeft (c : AppConfig) : Prop where
  gone : ∀ i r a, c.thread i = some ⟨r, .done a⟩ → ∀ p, i ∉ c.state.hub.room p
  listener : ∀ p, (c.state.hub.listenerTasks p).isSome → ∃ i ∈ c.state.hub.room p,
    ∃ token texts o k, c.thread i = some ⟨.webSocket p token texts, .call o k⟩

def Op.receives : Op → Bool
  | .receiveText _ | .receiveEnd => true
  | _ => false

def Disconnects (o : Op) (a : Except Exn o.Resp) : Prop :=
  o.receives = true → ∀ e, a = .error e → e = .webSocketDisconnect

/-- `receive_text` raises nothing but `WebSocketDisconnect`, or the socket is in no room any
more. -/
def Orderly : Answering sig Exn World := fun i o w a =>
  Disconnects o a ∨ ∀ p, i ∉ w.hub.room p

def Throughout [Library] (P : AppConfig → Prop) (c₀ c : AppConfig) : Prop :=
  Reach app (fun d _ => P d) c₀ c ∧ P c

abbrev Leaves (p : Uuid) (q : Coro Response) : Prop :=
  Prog.Leads (S := sig) (· = Op.hubDisconnect p) Disconnects (fun _ => False) q

/-- What follows the operations of a socket's handler: once connected it comes to disconnect,
and any other exception of `receive_text` ends it. -/
def Streams (p : Uuid) : (o : Op) → (Except Exn o.Resp → Coro Response) → Prop
  | .hubConnect q, k => q = p ∧ ∀ a, a = .ok () → Leaves p (k a)
  | .receiveText _, k => ∃ b, k (.error .unavailable) = .done b
  | .receiveEnd, k => ∃ b, k (.error .unavailable) = .done b
  | _, _ => True

def Op.streams : Op → Bool
  | .hubConnect _ | .receiveText _ | .receiveEnd => true
  | _ => false

abbrev Streamless {α : Type} (q : Coro α) : Prop :=
  Prog.All (S := sig) (fun o => Op.streams o = false) q

theorem streamless_webSocketUser (token : Token) : Streamless (Endpoints.webSocketUser token) := by
  have hclose : Streamless (do ask (.wsClose 1008); pure (none : Option Uuid)) :=
    Prog.All.bind ⟨rfl, fun _ => trivial⟩ fun _ => trivial
  refine Prog.All.tryCatch ((all_decodeJwtToken (P := fun o => Op.streams o = false) rfl
    token).bind fun payload => all_ite hclose ?_) fun _ => hclose
  split <;> trivial

theorem streamless_webSocketAdmits (p userId : Uuid) :
    Streamless (withDbSession (Endpoints.webSocketAdmits p userId)) := by
  have hclose : Streamless (do ask (.wsClose 1008); pure false) :=
    Prog.All.bind ⟨rfl, fun _ => trivial⟩ fun _ => trivial
  have hrethrow : ∀ e : Exn, Streamless (do ask .rollback; throw e : Coro Bool) := fun _ =>
    Prog.All.bind ⟨rfl, fun _ => trivial⟩ fun _ => trivial
  have hbody : Streamless (Endpoints.webSocketAdmits p userId) := by
    refine (all_selectOne (P := fun o => Op.streams o = false) rfl).bind fun project => ?_
    cases project with
    | none => exact hclose
    | some project =>
      refine (all_selectOne (P := fun o => Op.streams o = false) rfl).bind fun m => ?_
      cases m with
      | none => exact hclose
      | some m => trivial
  exact (hbody.tryCatch hrethrow).bind fun _ =>
    Prog.All.bind ⟨rfl, fun _ => trivial⟩ fun _ => trivial

section

variable [Library] {p : Uuid}

def connected (p : Uuid) (texts : List Str) : Coro Response :=
  tryCatch (Endpoints.receiveLoop texts) (fun e =>
    if e = .webSocketDisconnect then ask (.hubDisconnect p) else throw e) >>= fun _ =>
      pure .noContent

def afterReceive (p : Uuid) (e : Exn) : Coro Response :=
  (if e = .webSocketDisconnect then ask (.hubDisconnect p) else throw e) >>= fun _ =>
    pure .noContent

omit [Library] in
theorem leaves_afterReceive : Leaves p (afterReceive p .webSocketDisconnect) := by
  refine ⟨fun _ b => ?_, fun h => absurd rfl h⟩
  cases b <;> trivial

omit [Library] in
theorem leaves_connected (texts : List Str) : Leaves p (connected p texts) := by
  induction texts with
  | nil =>
    refine ⟨nofun, fun _ a ha => ?_⟩
    cases a with
    | ok never => exact nomatch never
    | error e =>
      obtain rfl := ha rfl e rfl
      exact leaves_afterReceive
  | cons text texts ih =>
    refine ⟨nofun, fun _ a ha => ?_⟩
    cases a with
    | ok _ => exact ih
    | error e =>
      obtain rfl := ha rfl e rfl
      exact leaves_afterReceive

omit [Library] in
theorem streams_afterReceive (e : Exn) :
    (afterReceive p e).AllRest (S := sig) (Streams p) := by
  unfold afterReceive
  split
  · refine ⟨trivial, fun b => ?_⟩
    cases b <;> trivial
  · trivial

omit [Library] in
theorem streams_connected (texts : List Str) :
    (connected p texts).AllRest (S := sig) (Streams p) := by
  induction texts with
  | nil =>
    refine ⟨⟨.error .unavailable, rfl⟩, fun a => ?_⟩
    cases a with
    | ok never => exact nomatch never
    | error e => exact streams_afterReceive e
  | cons text texts ih =>
    refine ⟨⟨.error .unavailable, rfl⟩, fun a => ?_⟩
    cases a with
    | ok _ => exact ih
    | error e => exact streams_afterReceive e

theorem handle_webSocket (token : Token) (texts : List Str) :
    (Request.webSocket p token texts).handle = (do
      match ← Endpoints.webSocketUser token with
      | none => pure .noContent
      | some userId =>
        let admitted ← withDbSession (Endpoints.webSocketAdmits p userId)
        if admitted then
          ask .wsAccept
          ask (.hubConnect p)
          connected p texts
        else pure .noContent) := by
  refine (Prog.bind_assoc ..).trans (congrArg _ (funext fun found => ?_))
  cases found with
  | none => rfl
  | some userId =>
    refine (Prog.bind_assoc ..).trans (congrArg _ (funext fun admitted => ?_))
    cases admitted with
    | false => rfl
    | true => simp only [if_true, Prog.bind_assoc, connected]

theorem streams_handle (token : Token) (texts : List Str) :
    (Request.webSocket p token texts).handle.AllRest (S := sig) (Streams p) := by
  rw [handle_webSocket]
  refine Prog.AllRest.bind ((streamless_webSocketUser token).allRest fun o k ho => ?_)
    fun user => ?_
  · cases o <;> trivial
  · cases user with
    | none => trivial
    | some userId =>
      refine Prog.AllRest.bind ((streamless_webSocketAdmits p userId).allRest fun o k ho => ?_)
        fun admitted => ?_
      · cases o <;> trivial
      · cases admitted with
        | false => trivial
        | true =>
          refine ⟨trivial, fun a => ?_⟩
          cases a with
          | error e => trivial
          | ok _ =>
            refine ⟨⟨rfl, fun a ha => ?_⟩, fun a => ?_⟩
            · subst ha
              exact leaves_connected texts
            · cases a with
              | error e => trivial
              | ok _ => exact streams_connected texts

variable {faults : Faults} {now : Instant} {c c' : AppConfig}

def RestStreams (p : Uuid) : Request → Coro Response → Prop
  | .webSocket p' _ _, q => p' = p → q.AllRest (S := sig) (Streams p)
  | _, _ => True

theorem streams_thread {sched : AppConfig → AppLabel → Prop} {i : Nat} {token : Token}
    {texts : List Str} {q : Coro Response} (h : Reach app sched (genesis faults now) c)
    (ht : c.thread i = some ⟨.webSocket p token texts, q⟩) : q.AllRest (S := sig) (Streams p) := by
  refine h.hereditary (Q := RestStreams p) (fun _ => rfl) (fun r => ?_) (fun r o k a hq => ?_) ht
    rfl
  · cases r with
    | webSocket p' token texts =>
      rintro rfl
      exact streams_handle token texts
    | _ => trivial
  · cases r with
    | webSocket p' token texts => exact fun he => (hq he).2 a
    | _ => trivial

/-- The handler of every socket in a room comes to disconnect it. -/
def Leaving (c : AppConfig) : Prop :=
  ∀ p, ∀ i ∈ c.state.hub.room p, ∃ token texts q,
    c.thread i = some ⟨.webSocket p token texts, q⟩ ∧ Leaves p q

theorem exec_room {i j : Nat} {o : Op} {w w' : World} {a : Except Exn o.Resp}
    (he : exec j o w a w') (hi : i ∈ w'.hub.room p) :
    (i ∈ w.hub.room p ∧ (i = j → o ≠ .hubDisconnect p)) ∨ (i = j ∧ o = .hubConnect p) := by
  cases o with
  | hubConnect q =>
    obtain ⟨-, rfl⟩ := he
    rw [Hub.room_connect] at hi
    split at hi
    · next hp =>
      subst hp
      split at hi
      · exact Or.inl ⟨hi, fun _ => nofun⟩
      · rcases List.mem_append.mp hi with hi | hi
        · exact Or.inl ⟨hi, fun _ => nofun⟩
        · exact Or.inr ⟨List.mem_singleton.mp hi, rfl⟩
    · exact Or.inl ⟨hi, fun _ => nofun⟩
  | hubDisconnect q =>
    obtain ⟨-, rfl⟩ := he
    rw [Hub.room_disconnect] at hi
    split at hi
    · next hp =>
      obtain ⟨hi, hne⟩ := List.mem_filter.mp hi
      exact Or.inl ⟨hp ▸ hi, fun hij => absurd hij (of_decide_eq_true hne)⟩
    · next hp => exact Or.inl ⟨hi, fun _ heq => hp (Op.hubDisconnect.inj heq).symm⟩
  | _ =>
    refine Or.inl ⟨?_, fun _ => nofun⟩
    rcases exec_hub he false false with hsame | ⟨m, hm, hs⟩
    · exact hsame ▸ hi
    · cases hm
      all_goals
        rw [← Option.some.inj hs] at hi
        exact hi

theorem leaving_step {l : AppLabel} (h : Reach app anySchedule (genesis faults now) c)
    (hl : Leaving c) (hs : Step (app.answering Orderly) c l c') : Leaving c' := by
  intro p i hi
  cases hs with
  | @start j r hnone =>
    obtain ⟨token, texts, q, ht, hq⟩ := hl p i hi
    have hij : i ≠ j := fun hij => by rw [← hij, ht] at hnone; cases hnone
    exact ⟨token, texts, q, (c.thread_setThread_of_ne hij _ _).trans ht, hq⟩
  | env he =>
    cases he with
    | tick now hle => exact hl p i hi
    | listen k wake hub hlisten =>
      obtain ⟨x, hx, hlistens⟩ := Hub.listen_cases hlisten
      exact hl p i ((hlistens.room_sublist p).subset hi)
  | @act j r o k a s' hj he =>
    obtain ⟨he, horderly⟩ := he
    rcases exec_room he hi with ⟨hroom, hstays⟩ | ⟨rfl, rfl⟩
    · obtain ⟨token, texts, q, ht, hq⟩ := hl p i hroom
      by_cases hij : i = j
      · subst hij
        rw [hj] at ht
        cases ht
        exact ⟨token, texts, k a, Config.thread_setThread _ _ _ _, hq.2 (hstays rfl) a
          (horderly.resolve_right fun h => h p hroom)⟩
      · exact ⟨token, texts, q, (c.thread_setThread_of_ne hij _ _).trans ht, hq⟩
    · obtain ⟨r', k', ht, hjoins, -⟩ := (start_genesis faults now).allows
        (h.mono fun c l _ => calm_uncovered c l) (.act hj he)
      rw [hj] at ht
      cases ht
      cases r with
      | webSocket p' token texts =>
        obtain ⟨rfl, hleaves⟩ := (streams_thread h hj).1
        obtain ⟨rfl, -⟩ := he
        exact ⟨token, texts, k (.ok ()), Config.thread_setThread _ _ _ _, hleaves _ rfl⟩
      | _ => exact hjoins.elim

theorem leaving_reach (h : Reach (app.answering Orderly) anySchedule (genesis faults now) c) :
    Leaving c := by
  induction h with
  | refl => exact fun p i hi => by cases hi
  | step hr _ hs ih => exact leaving_step hr.of_answering ih hs

theorem Leaving.noSocketLeft (h : Reach app anySchedule (genesis faults now) c)
    (hl : Leaving c) : NoSocketLeft c := by
  refine ⟨fun i r a ht p hi => ?_, fun p hp => ?_⟩
  · obtain ⟨token, texts, q, ht', hq⟩ := hl p i hi
    rw [ht] at ht'
    cases ht'
    exact hq
  · have hrep := reach_represented h
    obtain ⟨room, hroom⟩ := Option.isSome_iff_exists.mp ((hrep.sameProjects p).mpr hp)
    cases room with
    | nil => exact absurd hroom (hrep.nonempty p)
    | cons i room =>
      have hi : i ∈ c.state.hub.room p := by simp [Hub.room, hroom]
      obtain ⟨token, texts, q, ht, hq⟩ := hl p i hi
      cases q with
      | done a => exact hq.elim
      | call o k => exact ⟨i, hi, token, texts, o, k, ht⟩

theorem orderly_step {l : AppLabel} (h : Reach app anySchedule (genesis faults now) c)
    (hl : Leaving c) (hs : Step app c l c') (hleft : NoSocketLeft c') :
    Step (app.answering Orderly) c l c' := by
  cases hs with
  | start hnone => exact .start hnone
  | env he => exact .env he
  | @act i r o k a s' hi he =>
    refine .act hi ⟨he, ?_⟩
    have hgone : s' = c.state → (∀ p, Streams p o k → ∃ b, k a = .done b) →
        ∀ p, i ∉ c.state.hub.room p := by
      rintro rfl hends p hroom
      obtain ⟨token, texts, q, ht, -⟩ := hl p i hroom
      rw [hi] at ht
      cases ht
      obtain ⟨b, hb⟩ := hends p (streams_thread h hi).1
      refine hleft.gone i (.webSocket p token texts) b ?_ p hroom
      rw [Config.thread_setThread, hb]
    cases o with
    | receiveText text =>
      obtain ⟨rfl, rfl | rfl | rfl⟩ := he
      · exact Or.inl nofun
      · exact Or.inl fun _ e he => (Except.error.inj he).symm
      · exact Or.inr (hgone rfl fun _ h => h)
    | receiveEnd =>
      obtain ⟨rfl, rfl | rfl⟩ := he
      · exact Or.inl fun _ e he => (Except.error.inj he).symm
      · exact Or.inr (hgone rfl fun _ h => h)
    | _ => exact Or.inl nofun

/-- In every run no socket is left behind in any state if and only if `receive_text` raises
nothing but `WebSocketDisconnect` while its socket is in a room. -/
theorem sockets_removed_iff : Throughout NoSocketLeft (genesis faults now) c ↔
    Reach (app.answering Orderly) anySchedule (genesis faults now) c := by
  constructor
  · rintro ⟨h, hleft⟩
    induction h with
    | refl => exact .refl
    | @step d d' l hr hok hs ih =>
      have hd := ih hok
      have hany : Reach app anySchedule _ d := hr.mono fun _ _ _ => trivial
      exact hd.step trivial (orderly_step hany (leaving_reach hd) hs hleft)
  · intro h
    refine ⟨?_, (leaving_reach h).noSocketLeft h.of_answering⟩
    induction h with
    | refl => exact .refl
    | step hr _ hs ih =>
      exact ih.step ((leaving_reach hr).noSocketLeft hr.of_answering) hs.of_answering

end

section

open scoped Ascii

def interrupted : AppConfig :=
  runMoves (genesis noFaults 0) (annsProject ++
    .start 3 (.webSocket (drawnId 15) (signedToken (drawnId 2) access 1000) ["ping".toList]) ::
      List.replicate 7 (.act 3 false) ++ [.act 3 true])

/-- A socket whose handler has ended is left in its room. -/
theorem sockets_not_removed :
    ¬ ∀ c, Reach app anySchedule (genesis noFaults 0) c → NoSocketLeft c := by
  intro hall
  have hleft : NoSocketLeft interrupted := hall interrupted (runMoves_any fun _ => rfl)
  have hended : (answer interrupted 3).isSome := by decide +kernel
  have hroom : 3 ∈ interrupted.state.hub.room (drawnId 15) := by decide +kernel
  obtain ⟨a, ha⟩ := Option.isSome_iff_exists.mp hended
  obtain ⟨r, ht⟩ := thread_of_answer ha
  exact hleft.gone 3 r a ht (drawnId 15) hroom

end

end MultiTenantSaas
