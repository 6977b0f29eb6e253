import MultiTenantSaas.HubRuns
import MultiTenantSaas.Tenancy

/-!
Events on their way from the request that publishes them to the sockets that are sent
them. The two ends meet in the name of a Redis channel.
-/

set_option autoImplicit false

namespace MultiTenantSaas

open Process

/-- A socket is sent events of requests in the organization of its project only, and
every event is published on the channel of a project of its tenant. -/
structure EventIsolation (c : AppConfig) : Prop where
  sent : ∀ ws m, (ws, m) ∈ c.state.hub.sent → ∃ p token texts k,
    c.thread ws = some ⟨.webSocket p token texts, k⟩ ∧
    ∃ project : Project, c.state.db.get .projects p = some project ∧
      ∃ bearer req k, c.thread m.publisher = some ⟨.tenant bearer project.organizationId req, k⟩
  published : ∀ i m bearer o req k, (i, .publish m) ∈ c.state.trace →
    c.thread i = some ⟨.tenant bearer o req, k⟩ →
    ∃ p, TenantHas c.state.db .projects o p ∧ m.channel = channelName p

def Admits (c : AppConfig) (ws : Nat) (p : Uuid) : Prop :=
  ∃ r k, c.thread ws = some ⟨r, k⟩ ∧ r.Joins c.state.db p

def Sourced (c : AppConfig) (m : Message) : Prop :=
  ∃ r k, c.thread m.publisher = some ⟨r, k⟩ ∧ r.Publishes c.state.db m.channel

theorem Request.Publishes.mono {db db' : Db} {channel : Str} {r : Request}
    (h : r.Publishes db channel) (he : Extends db db') : r.Publishes db' channel := by
  cases r <;> try exact h
  obtain ⟨p, hp, hc⟩ := h
  exact ⟨p, hp.mono he, hc⟩

theorem Db.Tenanted.project {db : Db} (h : db.Tenanted) {o p : Uuid} (ht : HasTaskFor db o p) :
    TenantHas db .projects o p := by
  obtain ⟨task, hmem, rfl, rfl⟩ := ht
  exact h task hmem

section

variable [Library] {calm : Table → Uuid → Prop}

def Op.hubMove (i : Nat) : Op → Option HubMove
  | .publish channel event data => some (.publish ⟨channel, event, data, i⟩)
  | .hubConnect p => some (.connect p i)
  | .hubDisconnect p => some (.disconnect p i)
  | _ => none

theorem exec_hub {i : Nat} {o : Op} {w w' : World} {a : Except Exn o.Resp}
    (he : exec i o w a w') (redisFails socketFails : Bool) :
    w'.hub = w.hub ∨ ∃ m, o.hubMove i = some m ∧
      w.hub.step redisFails socketFails m = some w'.hub := by
  cases o <;> simp only [exec] at he
  case insert t values =>
    rcases he with ⟨id, -, he⟩ | ⟨rfl, -⟩
    · rcases World.insert_cases he with ⟨e, -, rfl⟩ | ⟨-, rfl, -⟩ <;> exact Or.inl rfl
    · exact Or.inl rfl
  case flushUpdate t id set =>
    rcases he with he | ⟨rfl, -⟩
    · rcases World.flushUpdate_cases he with ⟨rfl, -⟩ | ⟨old, -, -, rfl, -⟩ <;> exact Or.inl rfl
    · exact Or.inl rfl
  case updateWhere t id criteria set =>
    rcases he with he | ⟨rfl, -⟩
    · rcases World.update_cases he with ⟨rfl, -⟩ | ⟨old, -, -, -, rfl, -⟩ <;> exact Or.inl rfl
    · exact Or.inl rfl
  case publish channel event data =>
    rcases he with ⟨-, rfl⟩ | ⟨rfl, -⟩
    · exact Or.inr ⟨_, rfl, rfl⟩
    · exact Or.inl rfl
  case hubConnect p => obtain ⟨-, rfl⟩ := he; exact Or.inr ⟨_, rfl, rfl⟩
  case hubDisconnect p => obtain ⟨-, rfl⟩ := he; exact Or.inr ⟨_, rfl, rfl⟩
  case uuid4 => obtain ⟨u, -, -, rfl⟩ := he; exact Or.inl rfl
  case commit | redisSet | redisExists | presignPut | presignGet | redisDelete | slidingWindow =>
    rcases he with ⟨-, rfl⟩ | ⟨rfl, -⟩ <;> exact Or.inl rfl
  case clock | perfCounter | rollback => obtain ⟨-, rfl⟩ := he; exact Or.inl rfl
  case select | redisGet | enqueue | wsAccept | wsClose | validateEmail | receiveText
      | receiveEnd =>
    obtain ⟨rfl, -⟩ := he; exact Or.inl rfl

theorem reach_hub {faults : Faults} {now : Instant} {sched : AppConfig → AppLabel → Prop}
    {c : AppConfig} (h : Reach app sched (genesis faults now) c) :
    ∃ ms, Hub.run true true Hub.anyMove ms = some c.state.hub := by
  induction h with
  | refl => exact ⟨[], rfl⟩
  | @step d d' l hr hok hs ih =>
    obtain ⟨ms, hms⟩ := ih
    cases hs with
    | start => exact ⟨ms, hms⟩
    | env he =>
      cases he with
      | tick now hle => exact ⟨ms, hms⟩
      | listen k wake hub hl =>
        exact ⟨.listen k wake :: ms, Hub.run_cons.mpr ⟨_, hms, rfl, Hub.listen_failing hl⟩⟩
    | act ht he =>
      rcases exec_hub he true true with hsame | ⟨m, -, hstep⟩
      · exact ⟨ms, hms.trans (congrArg some hsame.symm)⟩
      · exact ⟨m :: ms, Hub.run_cons.mpr ⟨_, hms, rfl, hstep⟩⟩

theorem reach_represented {faults : Faults} {now : Instant}
    {sched : AppConfig → AppLabel → Prop} {c : AppConfig}
    (h : Reach app sched (genesis faults now) c) : Hub.Represented c.state.hub := by
  obtain ⟨ms, hms⟩ := reach_hub h
  exact (Hub.run_registered hms).represented

theorem Request.Allows.routed {r : Request} {i : Nat} {o : Op} {w w' : World}
    {a : Except Exn o.Resp} {member : Nat → Uuid → Prop} {good : Message → Prop}
    (h : r.Allows calm i w o) (he : exec i o w a w') (hr : Hub.Routed member good w.hub)
    (hmember : ∀ p, r.Joins w.db p → member i p)
    (hgood : ∀ m : Message, m.publisher = i → r.Publishes w.db m.channel → good m) :
    Hub.Routed member good w'.hub := by
  rcases exec_hub he false false with hsame | ⟨m, hm, hs⟩
  · exact hsame ▸ hr
  · cases o <;> simp only [Op.hubMove, Option.some.injEq, reduceCtorEq] at hm
    all_goals
      subst hm
      rw [← Option.some.inj hs]
    case publish channel event data => exact hr.publish (hgood ⟨channel, event, data, i⟩ rfl h)
    case hubConnect p => exact hr.connect (hmember p h)
    case hubDisconnect p => exact hr.disconnect p i

/-- In every run messages reach the sockets admitted to the project of their channel. -/
theorem hub_routed {faults : Faults} {now : Instant} {c : AppConfig}
    (h : Reach app (Calm calm) (genesis faults now) c) :
    Hub.Routed (Admits c) (Sourced c) c.state.hub := by
  have h₀ := start_genesis faults now
  induction h with
  | refl => exact Hub.routed_empty
  | @step d d' l hr hok hs ih =>
    have hext := h₀.step_extends hr hs
    have hadmits : ∀ ws p, Admits d ws p → Admits d' ws p := by
      rintro ws p ⟨r, k, ht, hj⟩
      obtain ⟨⟨r', k'⟩, ht', rfl⟩ := hs.keeps_req ht
      exact ⟨_, k', ht', hj.mono hext⟩
    have hsourced : ∀ m, Sourced d m → Sourced d' m := by
      rintro m ⟨r, k, ht, hp⟩
      obtain ⟨⟨r', k'⟩, ht', rfl⟩ := hs.keeps_req ht
      exact ⟨_, k', ht', hp.mono hext⟩
    refine Hub.Routed.mono ?_ hadmits hsourced
    cases l with
    | start i r => cases hs; exact ih
    | env =>
      cases hs with
      | env he =>
        cases he with
        | tick now hle => exact ih
        | listen k wake hub hl => exact ih.listen hl
    | act i o =>
      obtain ⟨r, k, ht, hall, a, he⟩ := h₀.allows hr hs
      exact hall.routed he ih (fun p hj => ⟨r, _, ht, hj⟩)
        fun m hm hp => ⟨r, _, hm ▸ ht, hp⟩

/-- When no task is created in a project of another organization, no run sends a socket
an event of another organization. -/
theorem events_isolated {faults : Faults} {now : Instant} {c : AppConfig}
    (h : Reach app (Committing ownProject) (genesis faults now) c) : EventIsolation c := by
  have hany := h.mono fun c l _ => calm_uncovered c l
  have htenanted : c.state.db.Tenanted := genesis_tenanted h
  refine ⟨fun ws m hm => ?_, fun i m bearer o req k hm ht => ?_⟩
  · obtain ⟨p, ⟨r, k, ht, hjoin⟩, hchannel, r', k', ht', hpublish⟩ := (hub_routed hany).sent _ hm
    cases r with
    | webSocket projectId token texts =>
      obtain ⟨rfl, payload, userId, project, member, -, -, -, hproject, hid, -⟩ := hjoin
      have hget : c.state.db.get .projects p = some project := Db.get_eq_some.mpr ⟨hproject, hid⟩
      refine ⟨p, token, texts, k, ht, project, hget, ?_⟩
      cases r' with
      | tenant bearer o req =>
        obtain ⟨p', htask, hchannel'⟩ := hpublish
        obtain rfl := channelName_injective (hchannel'.symm.trans hchannel)
        obtain ⟨project', hget', ho⟩ := htenanted.project htask
        have hsame : project' = project := Option.some.inj (hget'.symm.trans hget)
        rw [hsame] at ho
        have horg : project.organizationId = o := Option.some.inj ho
        exact ⟨bearer, req, k', horg ▸ ht'⟩
      | _ => exact hpublish.elim
    | _ => exact hjoin.elim
  · obtain ⟨r, k', ht', hl⟩ := (start_genesis faults now).events hany i _ hm
    rw [ht] at ht'
    cases ht'
    obtain ⟨p, hp, hchannel⟩ := hl
    exact ⟨p, htenanted.project hp, hchannel⟩

end

section

open scoped Ascii

def listening (r : Request) : List AppMove :=
  annsProject ++ .start 3 (.webSocket (drawnId 15) (signedToken (drawnId 2) access 1000) []) ::
    List.replicate 6 (.act 3 false) ++ [.env (.listen 0 .done), .env (.listen 0 .done)] ++
    solo 4 r ++ [.env (.listen 0 (.message [3])), .env (.listen 0 .done)]

theorem annsTask_isolated : EventIsolation
    (runMoves (genesis noFaults 0) (listening (asAnn apolloTask))) :=
  events_isolated (runMoves_committing (by decide +kernel))

def bobsEvent : AppConfig := runMoves (genesis noFaults 0) (listening (asBob apolloTask))

/-- A user's event reaches a member of another organization. -/
theorem events_not_isolated :
    ¬ ∀ c, Reach app anySchedule (genesis noFaults 0) c → EventIsolation c := by
  intro hall
  have hiso := hall bobsEvent (runMoves_any fun _ => rfl)
  have hsent : bobsEvent.state.hub.sent.map (fun x => (x.1, x.2.publisher)) = [(3, 4)] := by
    decide +kernel
  have hproject : (bobsEvent.state.db.get .projects (drawnId 15)).map Table.projects.org =
      some (some (drawnId 4)) := by decide +kernel
  obtain ⟨⟨ws, channel, event, data, publisher⟩, hm, heq⟩ :=
    List.mem_map.mp (hsent ▸ List.mem_singleton_self (3, 4))
  obtain ⟨rfl, rfl⟩ := Prod.mk.inj heq
  obtain ⟨p, token, texts, k, hws, project, hget, bearer, req, k', hpub⟩ := hiso.sent _ _ hm
  rw [bobsEvent] at hws hpub
  have hlistener := runMoves_req (fun _ => rfl) hws
  have hsource := runMoves_req (fun _ => rfl) hpub
  simp [listening, annsProject, registration, asAnn, asBob] at hlistener hsource
  rw [hlistener.1] at hget
  rw [hget, Option.map_some] at hproject
  have horg : Table.projects.org project = some (drawnId 11) := congrArg some hsource.2.1
  rw [horg] at hproject
  exact absurd hproject (by decide +kernel)

end

end MultiTenantSaas
