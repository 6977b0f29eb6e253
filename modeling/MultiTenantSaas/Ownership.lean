import MultiTenantSaas.Runs
import MultiTenantSaas.Uniqueness

/-!
Accounts and owners. A registration commits the user, the organization and the
membership together; the unique constraints decide the races of their checks.
-/

set_option autoImplicit false

namespace MultiTenantSaas

open Process

def Owns (m : OrganizationMember) (u o : Uuid) : Prop :=
  m.userId = u ∧ m.organizationId = o ∧ m.role = .owner

structure Ownership [Library] (db : Db) : Prop where
  owned : ∀ o : Organization, o ∈ db.rows .organizations →
    ∃ m : OrganizationMember, m ∈ db.rows .organizationMembers ∧ Owns m m.userId o.id
  owner : ∀ u : User, u ∈ db.rows .users → ∃ (m : OrganizationMember) (o : Organization),
    m ∈ db.rows .organizationMembers ∧ o ∈ db.rows .organizations ∧ Owns m u.id o.id
  normalized : ∀ u : User, u ∈ db.rows .users → normalizeEmail u.email = u.email
  emails : ∀ u v : User, u ∈ db.rows .users → v ∈ db.rows .users →
    normalizeEmail u.email = normalizeEmail v.email → u = v
  memberships : ∀ m n : OrganizationMember, m ∈ db.rows .organizationMembers →
    n ∈ db.rows .organizationMembers → m.organizationId = n.organizationId →
    m.userId = n.userId → m = n

/-- Organizations and users came with an owner, and emails were normalized. -/
structure Registered [Library] (db : Db) : Prop where
  owned : ∀ o : Organization, o ∈ db.rows .organizations →
    ∃ m : OrganizationMember, m ∈ db.rows .organizationMembers ∧ Owns m m.userId o.id
  owner : ∀ u : User, u ∈ db.rows .users → ∃ (m : OrganizationMember) (o : Organization),
    m ∈ db.rows .organizationMembers ∧ o ∈ db.rows .organizations ∧ Owns m u.id o.id
  email : ∀ u : User, u ∈ db.rows .users → ∃ sent, u.email = normalizeEmail sent

section

variable [Library] {calm : Table → Uuid → Prop} {db : Db} {es : List Entry} {r : Request}

/-- A new organization comes with its owner, and a new user with an organization to own. -/
theorem Request.Writes.registers (hw : r.Writes calm db es) :
    (∀ o : Organization, (⟨.organizations, o⟩ : Entry) ∈ es → Inserted db ⟨.organizations, o⟩ →
      ∃ m : OrganizationMember, m ∈ (db.apply es).rows .organizationMembers ∧
        Owns m m.userId o.id) ∧
    ∀ u : User, (⟨.users, u⟩ : Entry) ∈ es →
      (∃ (m : OrganizationMember) (o : Organization),
        m ∈ (db.apply es).rows .organizationMembers ∧ o ∈ (db.apply es).rows .organizations ∧
        Owns m u.id o.id) ∧ ∃ sent, u.email = normalizeEmail sent := by
  cases r with
  | register clientIp payload =>
    have hback : ∀ (t : Table) (x : t.Row), (⟨t, x⟩ : Entry) ∈ es → x ∈ (db.apply es).rows t :=
      fun t x hx => (Db.get_eq_some.mp (hw.readBack hx)).1
    obtain ⟨hashed, slug, id, orgId, memberId, now, now', now'', rfl, -⟩ := hw
    have hmember := hback .organizationMembers
      (newOrganizationMember orgId id .owner memberId now'') (by simp)
    have horg := hback .organizations (newOrganization
      (organizationName payload (newUser payload hashed id now)) slug orgId now') (by simp)
    refine ⟨fun o ho _ => ?_, fun u hu => ?_⟩
    · simp only [List.mem_cons, List.not_mem_nil, or_false] at ho
      rcases ho with he | he | he <;> cases he
      exact ⟨_, hmember, rfl, rfl, rfl⟩
    · simp only [List.mem_cons, List.not_mem_nil, or_false] at hu
      rcases hu with he | he | he <;> cases he
      exact ⟨⟨_, _, hmember, horg, rfl, rfl, rfl⟩, payload.email.text, rfl⟩
  | tenant bearer o q =>
    obtain ⟨user, role, -, hq⟩ := hw
    have htable : ∀ e ∈ es, e.table ∈ q.tables := fun e => hq.table
    refine ⟨fun x hx hins => ?_, fun u hu => ?_⟩
    · have ht := htable _ hx
      cases q <;> simp only [TenantRequest.tables, List.mem_cons, List.not_mem_nil, reduceCtorEq,
        or_self] at ht
      rcases hq with rfl | ⟨loaded, current, now, hov, rfl⟩
      · cases hx
      · cases List.mem_singleton.mp hx
        exact absurd hins (not_inserted hov.committed (Organization.frozen_flush now _ _ _))
    · have ht := htable _ hu
      cases q <;> simp [TenantRequest.tables] at ht
  | _ => exact hw.elim

theorem Registered.writes (h : Registered db) (hw : r.Writes calm db es) :
    Registered (db.apply es) := by
  have hext := hw.extends
  have hmember : ∀ m : OrganizationMember, m ∈ db.rows .organizationMembers →
      m ∈ (db.apply es).rows .organizationMembers := fun m hm =>
    hext.mem (t := .organizationMembers) (fun _ => rfl) hm
  obtain ⟨horgs, husers⟩ := hw.registers
  refine ⟨fun o ho => ?_, fun u hu => ?_, fun u hu => ?_⟩
  · rcases hw.row ho with ⟨old, hold, hf⟩ | ⟨hmem, hins⟩
    · have hid : o.id = Organization.id old := Table.id_of_frozen (t := .organizations) hf
      obtain ⟨m, hm, howns⟩ := h.owned old hold
      exact ⟨m, hmember m hm, hid ▸ howns⟩
    · exact horgs o hmem hins
  · rcases hw.row hu with ⟨old, hold, hf⟩ | ⟨hmem, -⟩
    · have he : u = old := hf
      obtain ⟨m, o, hm, ho, howns⟩ := h.owner old hold
      obtain ⟨o', ho', hfo⟩ := hext.mem_frozen ho
      have hid : Organization.id o' = o.id := Table.id_of_frozen (t := .organizations) hfo
      exact ⟨m, o', hmember m hm, ho', by rw [he, hid]; exact howns⟩
    · exact (husers u hmem).1
  · rcases hw.row hu with ⟨old, hold, hf⟩ | ⟨hmem, -⟩
    · have he : u = old := hf
      exact he ▸ h.email old hold
    · exact (husers u hmem).2

variable {faults : Faults} {now : Instant} {c : AppConfig}

theorem genesis_registered (h : Reach app anySchedule (genesis faults now) c) :
    Registered c.state.db :=
  genesis_invariant Registered
    ⟨fun _ ho => absurd ho (Db.not_mem_empty _), fun _ hu => absurd hu (Db.not_mem_empty _),
      fun _ hu => absurd hu (Db.not_mem_empty _)⟩
    (fun _ _ _ hI hw _ _ => hI.writes hw) (committing_unconditional h)

theorem genesis_distinct (h : Reach app anySchedule (genesis faults now) c) :
    c.state.Distinct := by
  induction h with
  | refl => exact ⟨fun _ => Db.distinct_empty, fun _ hf => nomatch hf⟩
  | step _ _ hs ih =>
    cases hs with
    | start => exact ih
    | act _ he => exact ih.exec he
    | env he => cases he <;> exact ih.same rfl rfl

/-- Ownership and identity, in every state of every run. `lower` changes nothing in what
it has already lowered. -/
theorem ownership
    (hlower : ∀ s, Library.lower (strip (Library.lower s)) = strip (Library.lower s))
    (h : Reach app anySchedule (genesis faults now) c) : Ownership c.state.db := by
  have hreg := genesis_registered h
  have hdistinct := (genesis_distinct h).db
  have hnormal : ∀ u : User, u ∈ c.state.db.rows .users → normalizeEmail u.email = u.email := by
    intro u hu
    obtain ⟨sent, hsent⟩ := hreg.email u hu
    rw [hsent, normalizeEmail, normalizeEmail, hlower, strip_strip]
  refine ⟨hreg.owned, hreg.owner, hnormal, fun u v hu hv he => ?_, fun m n hm hn ho hu => ?_⟩
  · rw [hnormal u hu, hnormal v hv] at he
    exact hdistinct .users u v hu hv _ rfl (by rw [he]; rfl)
  · exact hdistinct .organizationMembers m n hm hn _ rfl (by rw [ho, hu]; rfl)

end

section

open scoped Ascii

theorem toLower_toLower (c : Char) : c.toLower.toLower = c.toLower := by
  unfold Char.toLower
  split
  · next h =>
    have hlow : 65 ≤ c.val.toNat ∧ c.val.toNat ≤ 90 := h
    rw [dif_neg]
    rintro ⟨-, hz⟩
    have hle : (c.val + ('a'.val - 'A'.val)).toNat ≤ 90 := hz
    have hadd : (c.val + ('a'.val - 'A'.val)).toNat = (c.val.toNat + 32) % 4294967296 :=
      UInt32.toNat_add _ _
    omega
  · rfl

theorem map_strip_map {f : Char → Char} (hf : ∀ c, f (f c) = f c) (s : Str) :
    (strip (s.map f)).map f = strip (s.map f) := by
  refine (List.map_congr_left fun c hc => ?_).trans (List.map_id _)
  obtain ⟨d, -, rfl⟩ := List.mem_map.mp (mem_strip hc)
  exact hf d

theorem Ascii.lower_strip (s : Str) :
    Library.lower (strip (Library.lower s)) = strip (Library.lower s) :=
  map_strip_map toLower_toLower s

theorem annsProject_ownership :
    Ownership (runMoves (genesis noFaults 0) annsProject).state.db :=
  ownership Ascii.lower_strip (runMoves_any fun _ => rfl)

end

end MultiTenantSaas
