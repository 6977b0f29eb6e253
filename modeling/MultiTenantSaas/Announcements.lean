import MultiTenantSaas.Broadcasts
import MultiTenantSaas.SessionHandlers

/-!
What a request leaves behind: nothing, one commit, or one commit and a message that tells of
it. Whatever reaches a socket is such a message.
-/

set_option autoImplicit false

namespace MultiTenantSaas

open Process Session

variable {D : Db → Prop} {c₀ c : AppConfig} {i : Nat} {r : Request}

theorem Refines.outcome {g : Session} {w : World} {es : List Entry} (h : Refines D i r g w)
    (hg : g.stage = .committed es ∨ g.stage = .announced es) :
    ∃ before, Outcome D r i before es w := by
  rcases hg with hes | hes
  · obtain ⟨before, hrec, -⟩ := h.committed es hes
    exact ⟨before, Or.inl hrec⟩
  · exact h.announced es hes

theorem Refines.record {g : Session} {w : World} (h : Refines D i r g w) :
    w.record i = [] ∨ ∃ before es, Outcome D r i before es w := by
  cases hg : g.stage with
  | working => exact Or.inl (h.working hg)
  | committed es =>
    obtain ⟨before, ho⟩ := h.outcome (Or.inl hg)
    exact Or.inr ⟨before, es, ho⟩
  | announced es =>
    obtain ⟨before, ho⟩ := h.outcome (Or.inr hg)
    exact Or.inr ⟨before, es, ho⟩

section Runs

variable [Library]

/-- What a request has published tells of the rows `es` that it had committed. -/
structure Told (r : Request) (m : Message) (before : Db) (es : List Entry) (w : World) : Prop where
  record : w.record m.publisher = [.publish m, .commit before es]
  writes : r.Writes uncovered before es
  truth : ∃ db, w.Since ⟨m.publisher, before, es⟩ db ∧
    r.Announces w.Held db es m.channel m.event m.data

theorem Start.record_writes (h₀ : Start c₀) (h : Reach app anySchedule c₀ c) {p : Coro Response}
    {before : Db} {es : List Entry} (ht : c.thread i = some ⟨r, p⟩)
    (hm : .commit before es ∈ c.state.record i) : r.Writes uncovered before es := by
  obtain ⟨⟨j, e⟩, hmem, rfl⟩ := List.mem_map.mp hm
  obtain ⟨htrace, hj⟩ := List.mem_filter.mp hmem
  simp only [Bool.and_eq_true, decide_eq_true_eq] at hj
  obtain ⟨rfl, -⟩ := hj
  have hcommit : (⟨j, before, es⟩ : Commit) ∈ c.state.commits :=
    List.mem_filterMap.mpr ⟨_, htrace, rfl⟩
  obtain ⟨-, r', k, ht', hw, -⟩ := (h₀.history (P := fun _ _ _ => True)
    (fun c l _ => calm_uncovered c l) (fun _ _ _ _ _ _ => trivial) h).2 _ hcommit
  cases ht.symm.trans ht'
  exact hw

theorem Start.told (h₀ : Start c₀) (h : Reach app anySchedule c₀ c) {p : Coro Response}
    {m : Message} (ht : c.thread m.publisher = some ⟨r, p⟩)
    (hm : .publish m ∈ c.state.record m.publisher) :
    ∃ before es, Told r m before es c.state := by
  obtain ⟨g, -, hR⟩ := h₀.refines h ht
  obtain hnil | ⟨before, es, hcommit | ⟨m', db, hrec, htruth⟩⟩ := hR.record
  · rw [hnil] at hm
    cases hm
  · rw [hcommit] at hm
    cases List.mem_singleton.mp hm
  · have hcommit : .commit before es ∈ c.state.record m.publisher := by
      rw [hrec]
      exact List.mem_cons_of_mem _ (List.mem_singleton_self _)
    have hwrites := h₀.record_writes h ht hcommit
    rw [hrec] at hm
    obtain rfl : m = m' := by simpa using hm
    exact ⟨before, es, hrec, hwrites, db, htruth⟩

def World.Published (w : World) (m : Message) : Prop := (m.publisher, .publish m) ∈ w.trace

variable {w w' : World}

theorem World.Published.step {o : Op} {a : Except Exn o.Resp} {m : Message}
    (h : w.Published m) (he : exec i o w a w') : w'.Published m := by
  rcases exec_trace he with hsame | ⟨e, hcons, -⟩
  · exact (congrArg (_ ∈ ·) hsame).mpr h
  · exact (congrArg (_ ∈ ·) hcons).mpr (List.mem_cons_of_mem _ h)

theorem exec_published {o : Op} {a : Except Exn o.Resp} (he : exec i o w a w')
    (h : Hub.Routed (fun _ _ => True) w.Published w.hub) :
    Hub.Routed (fun _ _ => True) w'.Published w'.hub := by
  have hlater : Hub.Routed (fun _ _ => True) w'.Published w.hub :=
    h.mono (fun _ _ => id) fun _ hm => hm.step he
  cases o with
  | publish channel event data =>
    rcases he with ⟨-, rfl⟩ | ⟨rfl, -⟩
    · exact hlater.publish (List.mem_cons_self)
    · exact h
  | hubConnect p =>
    obtain ⟨-, rfl⟩ := he
    exact hlater.connect trivial
  | hubDisconnect p =>
    obtain ⟨-, rfl⟩ := he
    exact hlater.disconnect p i
  | _ =>
    rcases exec_hub he false false with hsame | ⟨m, hm, -⟩
    · exact hsame ▸ hlater
    · cases hm

theorem reach_published {faults : Faults} {now : Instant}
    (h : Reach app anySchedule (genesis faults now) c) :
    Hub.Routed (fun _ _ => True) c.state.Published c.state.hub := by
  induction h with
  | refl => exact Hub.routed_empty
  | step hr _ hs ih =>
    cases hs with
    | start hnone => exact ih
    | act ht he => exact exec_published he ih
    | env he =>
      cases he with
      | tick now hle => exact ih
      | listen k wake hub hl => exact ih.listen hl

omit [Library] in
theorem World.Published.record {m : Message} (h : w.Published m) :
    .publish m ∈ w.record m.publisher := by
  refine List.mem_map.mpr ⟨(m.publisher, .publish m), List.mem_filter.mpr ⟨h, ?_⟩, rfl⟩
  simp [Event.lasting]

/-- Whatever a socket is sent was published so, and on the channel of a project whose room
the socket may join. -/
theorem sockets_told {faults : Faults} {now : Instant}
    (h : Reach app anySchedule (genesis faults now) c) {ws : Nat} {m : Message}
    (hsent : (ws, m) ∈ c.state.hub.sent) :
    (∃ p, Admits c ws p ∧ m.channel = channelName p) ∧ ∃ r k before es,
      c.thread m.publisher = some ⟨r, k⟩ ∧ Told r m before es c.state := by
  have h₀ := start_genesis faults now
  obtain ⟨p, hadmits, hchannel, -⟩ := (hub_routed (reach_calm h)).sent _ hsent
  obtain ⟨-, -, -, hpublished⟩ := (reach_published h).sent _ hsent
  obtain ⟨r, k, ht, -⟩ := h₀.events (reach_calm h) _ _ hpublished
  obtain ⟨before, es, htold⟩ := h₀.told h ht hpublished.record
  exact ⟨⟨p, hadmits, hchannel⟩, r, k, before, es, ht, htold⟩

end Runs

section Example

open scoped Ascii

def launchHeard : AppConfig := runMoves (genesis noFaults 0) (listening (asAnn apolloTask))

theorem launchHeard_reached : Reach app anySchedule (genesis noFaults 0) launchHeard :=
  runMoves_any fun _ => rfl

theorem launch_sent : ∃ m, (3, m) ∈ launchHeard.state.hub.sent := by
  have hsent : launchHeard.state.hub.sent.map Prod.fst = [3] := by decide +kernel
  obtain ⟨⟨ws, m⟩, hm, rfl⟩ := List.mem_map.mp (hsent ▸ List.mem_singleton_self 3)
  exact ⟨m, hm⟩

theorem launch_told : ∃ m, (3, m) ∈ launchHeard.state.hub.sent ∧ ∃ r k before es,
    launchHeard.thread m.publisher = some ⟨r, k⟩ ∧ Told r m before es launchHeard.state := by
  obtain ⟨m, hm⟩ := launch_sent
  exact ⟨m, hm, (sockets_told launchHeard_reached hm).2⟩

end Example

end MultiTenantSaas
