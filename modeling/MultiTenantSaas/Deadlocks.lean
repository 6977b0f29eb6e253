import MultiTenantSaas.Effects
import MultiTenantSaas.Progress
import MultiTenantSaas.SessionHandlers
import MultiTenantSaas.SocketCleanup
import MultiTenantSaas.UniqueValues

/-!
Row locks: every request locks tables in one order, so that no ring of requests waits for
each other, and without new requests all of them come to their answers, but for the sockets
whose clients stay.
-/

set_option autoImplicit false

namespace MultiTenantSaas

open Process Session Relation

def Table.rank : Table → Nat
  | .users => 0
  | .organizations => 1
  | .organizationMembers => 2
  | .teams => 3
  | .teamMembers => 4
  | .projects => 5
  | .tasks => 6
  | .comments => 7
  | .attachments => 8
  | .auditLogs => 9

theorem Table.rank_lt (t : Table) : t.rank < 10 := by cases t <;> decide

theorem Request.tables_sorted (r : Request) :
    r.tables.Pairwise fun t u => t.rank < u.rank := by
  cases r with
  | register clientIp payload => simp [Request.tables, Table.rank]
  | tenant bearer o q => cases q <;> simp [Request.tables, TenantRequest.tables, Table.rank]
  | _ => exact List.Pairwise.nil

def World.Holds (w : World) (j : Nat) (e : Entry) : Prop :=
  ∃ f ∈ w.rows j, f.slot = e.slot ∨ (e.uniqueKey.isSome = true ∧ f.uniqueKey = e.uniqueKey)

/-- An operation of session `i` writes a row that the open transaction of `j` has locked. -/
def Op.Awaits (w : World) (i j : Nat) : Op → Prop
  | .insert t values => ∃ id, id ∉ w.drawn ∧ w.Holds j ⟨t, values id w.now⟩
  | .flushUpdate t id set => ∃ old, (w.view i).get t id = some old ∧
    (w.Holds j ⟨t, old⟩ ∨ w.Holds j ⟨t, set w.now old⟩)
  | .updateWhere t id criteria set => ∃ old, (w.view i).get t id = some old ∧
    criteria old = true ∧ (w.Holds j ⟨t, old⟩ ∨ w.Holds j ⟨t, set w.now old⟩)
  | _ => False

def Unanswered (c : AppConfig) (i : Nat) : Prop :=
  ∃ r o k, c.thread i = some ⟨r, .call o k⟩

def WaitsFor (c : AppConfig) (i j : Nat) : Prop :=
  j ≠ i ∧ ∃ r o k, c.thread i = some ⟨r, .call o k⟩ ∧ o.Awaits c.state i j

section Locks

variable {w : World} {i j : Nat}

theorem World.blocked_iff {e : Entry} : w.blocked i e = true ↔ ∃ j, j ≠ i ∧ w.Holds j e := by
  simp only [blocked, List.any_eq_true, Bool.and_eq_true, Bool.or_eq_true, decide_eq_true_eq,
    Holds, mem_rows]
  constructor
  · rintro ⟨⟨j, f⟩, hmem, hne, hf⟩
    exact ⟨j, hne, f, hmem, hf⟩
  · rintro ⟨j, hne, f, hmem, hf⟩
    exact ⟨(j, f), hmem, hne, hf⟩

theorem World.not_blocked_of {e : Entry} (h : ∀ j, j ≠ i → ¬ w.Holds j e) :
    w.blocked i e = false := by
  refine Bool.eq_false_iff.mpr fun hb => ?_
  obtain ⟨j, hne, hj⟩ := World.blocked_iff.mp hb
  exact h j hne hj

theorem World.Holds.table {e : Entry} (h : w.Holds j e) : ∃ f ∈ w.rows j, f.table = e.table := by
  obtain ⟨f, hf, hslot | ⟨hsome, hkey⟩⟩ := h
  · exact ⟨f, hf, congrArg Prod.fst hslot⟩
  · obtain ⟨k, hk⟩ := Option.isSome_iff_exists.mp hsome
    exact ⟨f, hf, Table.eq_of_uniqueKey (hkey.trans hk) hk⟩

theorem Op.Awaits.table {o : Op} (h : o.Awaits w i j) :
    ∃ t, o.target = some t ∧ ∃ f ∈ w.rows j, f.table = t := by
  cases o with
  | insert t values =>
    obtain ⟨id, -, hh⟩ := h
    exact ⟨t, rfl, hh.table⟩
  | flushUpdate t id set =>
    obtain ⟨old, -, hh | hh⟩ := h <;> exact ⟨t, rfl, hh.table⟩
  | updateWhere t id criteria set =>
    obtain ⟨old, -, -, hh | hh⟩ := h <;> exact ⟨t, rfl, hh.table⟩
  | _ => exact h.elim

theorem World.insert_answers {t : Table} {values : Uuid → Instant → t.Row} {id : Uuid}
    (h : w.blocked i ⟨t, values id w.now⟩ = false) : ∃ p, w.insert i t values id = some p := by
  unfold World.insert
  simp only [h, Bool.false_eq_true, if_false]
  split
  · exact ⟨_, rfl⟩
  · split <;> exact ⟨_, rfl⟩

theorem World.update_answers {t : Table} {id : Uuid} {criteria : t.Row → Bool}
    {set : Instant → t.Row → t.Row} (h : ∀ old, (w.view i).get t id = some old →
      criteria old = true → w.blocked i ⟨t, old⟩ = false ∧ w.blocked i ⟨t, set w.now old⟩ = false) :
    ∃ p, w.update i t id criteria set = some p := by
  unfold World.update
  split
  · exact ⟨_, rfl⟩
  · next old hold =>
    split
    · exact ⟨_, rfl⟩
    · next hc =>
      obtain ⟨h₁, h₂⟩ := h old hold (by simpa using hc)
      simp only [h₁, h₂, Bool.or_self, Bool.false_eq_true, if_false]
      split <;> exact ⟨_, rfl⟩

theorem exec_of_unblocked [Library] {o : Op} (hid : ∃ u, u ∉ w.drawn)
    (h : ∀ j, j ≠ i → ¬ o.Awaits w i j) : ∃ a w', exec i o w a w' := by
  obtain ⟨u, hu⟩ := hid
  cases o with
  | clock => exact ⟨_, _, rfl, rfl⟩
  | perfCounter => exact ⟨.ok 0, _, ⟨0, rfl⟩, rfl⟩
  | uuid4 => exact ⟨_, _, u, hu, rfl, rfl⟩
  | select q => exact ⟨_, _, rfl, Or.inl ⟨_, rfl, List.Perm.refl _⟩⟩
  | insert t values =>
    have hb : w.blocked i ⟨t, values u w.now⟩ = false :=
      World.not_blocked_of fun j hj hh => h j hj ⟨u, hu, hh⟩
    obtain ⟨p, hp⟩ := World.insert_answers hb
    exact ⟨p.1, p.2, Or.inl ⟨u, hu, hp⟩⟩
  | flushUpdate t id set =>
    obtain ⟨p, hp⟩ : ∃ p, w.update i t id (fun _ => true) set = some p :=
      World.update_answers fun old hold _ =>
        ⟨World.not_blocked_of fun j hj hh => h j hj ⟨old, hold, Or.inl hh⟩,
          World.not_blocked_of (e := ⟨t, set w.now old⟩) fun j hj hh =>
            h j hj ⟨old, hold, Or.inr hh⟩⟩
    exact ⟨_, _, Or.inl (Option.map_eq_some_iff.mpr ⟨p, hp, rfl⟩)⟩
  | updateWhere t id criteria set =>
    obtain ⟨p, hp⟩ := World.update_answers fun old hold hc =>
      ⟨World.not_blocked_of fun j hj hh => h j hj ⟨old, hold, hc, Or.inl hh⟩,
        World.not_blocked_of (e := ⟨t, set w.now old⟩) fun j hj hh =>
          h j hj ⟨old, hold, hc, Or.inr hh⟩⟩
    exact ⟨p.1, p.2, Or.inl hp⟩
  | commit | redisSet | redisExists | redisDelete | slidingWindow | publish | presignPut =>
    exact ⟨_, _, Or.inl ⟨rfl, rfl⟩⟩
  | presignGet key expiresIn =>
    by_cases hkey : key = []
    · exact ⟨_, _, Or.inr ⟨rfl, Or.inl ⟨hkey, rfl⟩⟩⟩
    · exact ⟨_, _, Or.inl ⟨⟨hkey, rfl⟩, rfl⟩⟩
  | validateEmail email =>
    cases hvalid : Library.validateEmail email with
    | none => exact ⟨_, _, rfl, Or.inr ⟨hvalid, rfl⟩⟩
    | some x => exact ⟨_, _, rfl, Or.inl ⟨x, hvalid, rfl⟩⟩
  | redisGet => exact ⟨_, _, rfl, Or.inl rfl⟩
  | enqueue | wsAccept | wsClose => exact ⟨.ok (), _, rfl, Or.inl rfl⟩
  | receiveText | receiveEnd => exact ⟨_, _, rfl, Or.inl rfl⟩
  | rollback | hubConnect | hubDisconnect => exact ⟨_, _, rfl, rfl⟩

end Locks

def nextRank (c : AppConfig) (i : Nat) : Nat :=
  match c.thread i with
  | some ⟨_, .call o _⟩ => (Op.target o).elim 10 Table.rank
  | _ => 10

theorem Session.Admits.next {D : Db → Prop} {r : Request} {g : Session} {o : Op} {t : Table}
    (h : g.Admits D r o) (ht : o.target = some t) :
    g.written.map Entry.table ++ [t] <+: r.tables := by
  cases o with
  | insert u values => exact (h t ht).2
  | flushUpdate u id set => exact (h t ht).2
  | updateWhere u id criteria set => exact (h t ht).2
  | _ => cases ht

theorem Session.Admits.rank_lt {D : Db → Prop} {r : Request} {g : Session} {o : Op} {t : Table}
    {f : Entry} (h : g.Admits D r o) (ht : o.target = some t) (hf : f ∈ g.written) :
    f.table.rank < t.rank := by
  have hsorted := r.tables_sorted.sublist (h.next ht).sublist
  exact (List.pairwise_append.mp hsorted).2.2 f.table (List.mem_map_of_mem hf) t
    List.mem_cons_self

section Waiting

variable [Library] {c₀ c : AppConfig}

theorem Start.released (h₀ : Start c₀) (h : Reach app anySchedule c₀ c) {i : Nat} {r : Request}
    {a : Except Exn Response} (ht : c.thread i = some ⟨r, .done a⟩) : c.state.rows i = [] := by
  obtain ⟨g, hclosed, hR⟩ := h₀.refines h ht
  exact hR.rows.trans hclosed.1

/-- Who holds a lock is still at work, further on in the order of the tables. -/
theorem Start.waits (h₀ : Start c₀) (h : Reach app anySchedule c₀ c) {i j : Nat}
    (hw : WaitsFor c i j) :
    Unanswered c j ∧ nextRank c i < nextRank c j ∧ nextRank c j ≤ 10 := by
  obtain ⟨-, r, o, k, hi, hawaits⟩ := hw
  obtain ⟨t, ht, f, hf, rfl⟩ := hawaits.table
  have hrank : nextRank c i = f.table.rank := by simp [nextRank, hi, ht]
  rw [hrank]
  cases hj : c.thread j with
  | none =>
    rw [h₀.fresh h hj] at hf
    cases hf
  | some thread =>
    obtain ⟨r', p⟩ := thread
    cases p with
    | done a =>
      rw [h₀.released h hj] at hf
      cases hf
    | call o' k' =>
      refine ⟨⟨r', o', k', hj⟩, ?_⟩
      obtain ⟨g, hfollows, hR⟩ := h₀.refines h hj
      rw [hR.rows] at hf
      cases ht' : Op.target o' with
      | none =>
        have hnext : nextRank c j = 10 := by simp [nextRank, hj, ht']
        rw [hnext]
        exact ⟨f.table.rank_lt, le_refl _⟩
      | some t' =>
        have hnext : nextRank c j = t'.rank := by simp [nextRank, hj, ht']
        rw [hnext]
        exact ⟨Session.Admits.rank_lt hfollows.1 ht' hf, t'.rank_lt.le⟩

/-- No requests wait for each other in a ring, and where a request waits, another one that it
waits for, directly or through others, can go on. -/
theorem no_deadlock (h₀ : Start c₀) (h : Reach app anySchedule c₀ c) :
    (∀ i, ¬ TransGen (WaitsFor c) i i) ∧
      ∀ i, Unanswered c i → (∃ u, u ∉ c.state.drawn) →
        ∃ j, ReflTransGen (WaitsFor c) i j ∧ Unanswered c j ∧
          ∃ o c', Step app c (.act j o) c' := by
  refine ⟨acyclic_of_height (nextRank c) fun i j hw => (h₀.waits h hw).2.1,
    fun i hi hid => ?_⟩
  refine exists_able (nextRank c) (fun i j hw => (h₀.waits h hw).2) (fun j hj => ?_) hi
  obtain ⟨r, o, k, ht⟩ := hj
  by_cases hawaits : ∃ l, l ≠ j ∧ o.Awaits c.state j l
  · obtain ⟨l, hne, hl⟩ := hawaits
    have hw : WaitsFor c j l := ⟨hne, r, o, k, ht, hl⟩
    exact Or.inr ⟨l, hw, (h₀.waits h hw).1⟩
  · obtain ⟨a, w', he⟩ := exec_of_unblocked hid fun l hne hl => hawaits ⟨l, hne, hl⟩
    exact Or.inl ⟨o, _, .act ht he⟩

end Waiting

section Example

open scoped Ascii

def newName : TenantRequest := .updateCurrentOrganization ⟨some apolloName, none⟩

/-- Two requests rename an organization: the first has written its row, the second is about
to. -/
def twoRenames : List AppMove :=
  solo 0 (registration "ann@example.org".toList ann_short) ++
    .start 1 (asAnn newName) :: List.replicate 5 (.act 1 false) ++
    .start 2 (asAnn newName) :: List.replicate 4 (.act 2 false)

def meets (c : AppConfig) (i j : Nat) : Bool :=
  match c.thread i with
  | some ⟨_, .call (.flushUpdate t id _) _⟩ =>
    match (c.state.view i).get t id with
    | some old => (c.state.rows j).any fun f => f.slot = (⟨t, old⟩ : Entry).slot
    | none => false
  | _ => false

theorem waitsFor_of_meets {c : AppConfig} {i j : Nat} (hne : j ≠ i) (h : meets c i j = true) :
    WaitsFor c i j := by
  unfold meets at h
  split at h
  · next r t id set k ht =>
    split at h
    · next old hold =>
      obtain ⟨f, hf, hslot⟩ := List.any_eq_true.mp h
      exact ⟨hne, r, _, k, ht, old, hold, Or.inl ⟨f, hf, Or.inl (of_decide_eq_true hslot)⟩⟩
    · cases h
  · cases h

theorem twoRenames_meets : meets (runMoves (genesis noFaults 0) twoRenames) 2 1 = true := by
  decide +kernel

theorem twoRenames_waits :
    WaitsFor (runMoves (genesis noFaults 0) twoRenames) 2 1 ∧
      (¬ TransGen (WaitsFor (runMoves (genesis noFaults 0) twoRenames)) 2 2) ∧
      ∃ j, ReflTransGen (WaitsFor (runMoves (genesis noFaults 0) twoRenames)) 2 j ∧
        Unanswered (runMoves (genesis noFaults 0) twoRenames) j ∧
        ∃ o c', Step app (runMoves (genesis noFaults 0) twoRenames) (.act j o) c' := by
  have hwaits := waitsFor_of_meets (by decide) twoRenames_meets
  obtain ⟨hring, hable⟩ := no_deadlock (start_genesis noFaults 0)
    (runMoves_any (c := genesis noFaults 0) fun _ => rfl)
  have hunanswered : Unanswered (runMoves (genesis noFaults 0) twoRenames) 2 := by
    obtain ⟨-, r, o, k, ht, -⟩ := hwaits
    exact ⟨r, o, k, ht⟩
  exact ⟨hwaits, hring 2, hable 2 hunanswered ⟨drawnId 99, by decide +kernel⟩⟩

end Example

end MultiTenantSaas
