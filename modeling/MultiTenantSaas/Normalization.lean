import MultiTenantSaas.Deletions

/-!
The bounds of the texts that are stored: the schemas check them on what arrives, and the
services store what is left of it without the blanks at both ends.
-/

set_option autoImplicit false

namespace MultiTenantSaas

open Process

def marks (s : Str) : Nat := s.countP fun c => !isSpace c

theorem marks_dropWhile (s : Str) : marks (s.dropWhile isSpace) = marks s := by
  have hblank : marks (s.takeWhile isSpace) = 0 :=
    List.countP_eq_zero.mpr fun c hc => by simpa using List.mem_takeWhile_imp hc
  calc marks (s.dropWhile isSpace)
      = marks (s.takeWhile isSpace) + marks (s.dropWhile isSpace) := by rw [hblank, Nat.zero_add]
    _ = marks (s.takeWhile isSpace ++ s.dropWhile isSpace) := List.countP_append.symm
    _ = marks s := by rw [List.takeWhile_append_dropWhile]

theorem marks_reverse (s : Str) : marks s.reverse = marks s := List.countP_reverse

theorem marks_strip (s : Str) : marks (strip s) = marks s := by
  rw [strip, marks_reverse, marks_dropWhile, marks_reverse, marks_dropWhile]

theorem visible_head {c : Char} {t s : Str} (h : strip s = c :: t) : isSpace c = false := by
  obtain ⟨u, hu⟩ := h ▸ strip_prefix s
  have hnot := List.head?_dropWhile_not isSpace s
  rw [← hu] at hnot
  simpa using hnot

theorem visible_last {c : Char} {t s : Str} (h : strip s = t ++ [c]) : isSpace c = false := by
  have hreverse : ((s.dropWhile isSpace).reverse.dropWhile isSpace) = c :: t.reverse := by
    rw [← List.reverse_inj]
    simpa [strip] using h
  have hnot := List.head?_dropWhile_not isSpace (s.dropWhile isSpace).reverse
  rw [hreverse] at hnot
  simpa using hnot

theorem marks_of_length {lo : Nat} {s : Str} (hlo : lo ≤ 2) (h : lo ≤ (strip s).length) :
    lo ≤ marks s := by
  rw [← marks_strip s, marks]
  cases hs : strip s with
  | nil => simpa [hs] using h
  | cons c t =>
    have hhead : (!isSpace c) = true := by simp [visible_head hs]
    rw [List.countP_cons_of_pos (p := fun c => !isSpace c) hhead]
    rcases List.eq_nil_or_concat t with rfl | ⟨u, d, rfl⟩
    · simpa [hs] using h
    · rw [List.concat_eq_append] at hs ⊢
      have hlast : (!isSpace d) = true := by
        simp [visible_last (t := c :: u) hs]
      rw [List.countP_append, List.countP_singleton, if_pos hlast]
      omega

/-- Within the bounds of a field, and not blank. -/
structure Within (lo hi : Nat) (s : Str) : Prop where
  min : lo ≤ s.length
  max : s.length ≤ hi
  visible : ∃ c ∈ s, isSpace c = false

theorem within_of_marks {lo hi : Nat} {s : Str} (hlo : 0 < lo) (hmarks : lo ≤ marks s)
    (hmax : s.length ≤ hi) : Within lo hi s := by
  refine ⟨hmarks.trans List.countP_le_length, hmax, ?_⟩
  obtain ⟨c, hc, hv⟩ := List.countP_pos_iff.mp (hlo.trans_le hmarks)
  exact ⟨c, hc, by simpa using hv⟩

theorem within_strip {lo hi : Nat} {s : Str} (hlo : 0 < lo) (hmarks : lo ≤ marks s)
    (hmax : (strip s).length ≤ hi) : Within lo hi (strip s) :=
  within_of_marks hlo (by rwa [marks_strip]) hmax

theorem bounded_strip {lo lo' hi : Nat} {s : Bounded lo' hi} (hlo : 0 < lo)
    (hmarks : lo ≤ marks s.text) : Within lo hi (strip s.text) :=
  within_strip hlo hmarks ((strip_length_le _).trans s.max)

/-- The bounds that the schemas give the texts of a row. -/
def Table.InBounds : (t : Table) → t.Row → Prop
  | .projects, r => Within 2 100 (Project.name r) ∧
      Within 2 10 (Project.key r)
  | .teams, r => Within 2 100 (Team.name r) ∧
      Within 2 100 (Team.slug r)
  | .tasks, r => Within 1 255 (Task.title r)
  | .comments, r => Within 1 10000 (Comment.content r)
  | _, _ => True

def Db.InBounds (db : Db) : Prop := ∀ (t : Table) (r : t.Row), r ∈ db.rows t → t.InBounds r

def TenantRequest.visible [Library] : TenantRequest → Bool
  | .createProject payload =>
    2 ≤ marks payload.name.text && 2 ≤ marks (Library.upper payload.key.text)
  | .updateProject _ payload => payload.name.all fun name => 2 ≤ marks name.text
  | .createTeam payload =>
    2 ≤ marks payload.name.text && 2 ≤ marks (Library.lower payload.slug.text)
  | .createTask payload => 1 ≤ marks payload.title.text
  | .updateTask _ payload =>
    payload.status.isSome || payload.title.all fun title => 1 ≤ marks title.text
  | .createComment _ payload => 1 ≤ marks payload.content.text
  | .updateComment _ _ payload => 1 ≤ marks payload.content.text
  | _ => true

def Request.visible [Library] : Request → Db → Bool
  | .tenant _ _ request, _ => request.visible
  | _, _ => true

section

variable [Library] {calm : Table → Uuid → Prop} {db : Db} {es : List Entry} {o : Uuid}

omit [Library] in
theorem within_flushed {lo hi : Nat} {loaded assigned current : Str}
    (hassigned : assigned = loaded ∨ Within lo hi assigned) (hcurrent : Within lo hi current) :
    Within lo hi (flushed loaded assigned current) := by
  unfold flushed
  split
  · exact hcurrent
  · next hne => exact hassigned.resolve_left hne

omit [Library] in
theorem forall_mem_pair {α : Type} {P : α → Prop} {a b : α} (ha : P a) (hb : P b) :
    ∀ x ∈ [a, b], P x := List.forall_mem_cons.mpr ⟨ha, List.forall_mem_singleton.mpr hb⟩

/-- What a request commits is within the bounds when what it finds is, and what it typed is
visible; the columns bound what a change of case makes longer. -/
theorem TenantRequest.Writes.inBounds {q : TenantRequest} {user : User} {role : OrgRole}
    (h : q.Writes calm o user role db es) (hvisible : q.visible = true) (hdb : db.InBounds)
    (hfits : ∀ e ∈ es, e.table.fits e.row = true) : ∀ e ∈ es, e.table.InBounds e.row := by
  cases q <;> simp only [TenantRequest.Writes] at h
  case updateCurrentOrganization payload =>
    rcases h with rfl | ⟨loaded, current, now, -, rfl⟩
    · exact List.forall_mem_nil _
    · exact List.forall_mem_singleton.mpr trivial
  case inviteMember payload =>
    obtain ⟨invited, id, now, -, -, rfl, -⟩ := h
    exact List.forall_mem_singleton.mpr trivial
  case createTeam payload =>
    obtain ⟨id, now, rfl, -⟩ := h
    have hcolumns := hfits _ (List.mem_singleton_self _)
    simp only [Table.fits, newTeam, Bool.and_eq_true, varchar_iff] at hcolumns
    simp only [TenantRequest.visible, Bool.and_eq_true, decide_eq_true_eq] at hvisible
    exact List.forall_mem_singleton.mpr (And.intro (bounded_strip Nat.two_pos hvisible.1)
      (within_strip Nat.two_pos hvisible.2 hcolumns.2))
  case addTeamMember teamId payload =>
    obtain ⟨id, now, -, rfl, -⟩ := h
    exact List.forall_mem_singleton.mpr trivial
  case createProject payload =>
    obtain ⟨id, auditId, now, now', rfl, -⟩ := h
    have hcolumns := hfits _ List.mem_cons_self
    simp only [Table.fits, newProject, Bool.and_eq_true, varchar_iff] at hcolumns
    simp only [TenantRequest.visible, Bool.and_eq_true, decide_eq_true_eq] at hvisible
    exact forall_mem_pair (And.intro (bounded_strip Nat.two_pos hvisible.1)
      (within_strip Nat.two_pos hvisible.2 hcolumns.1.2)) trivial
  case updateProject projectId payload =>
    obtain ⟨loaded, current, now, now', auditId, -, -, -, hov, rfl, -⟩ := h
    have hcurrent := hdb .projects current (Db.get_eq_some.mp hov.committed).1
    have hname : Within 2 100 (loaded.flush (payload.assign loaded) now current).name := by
      refine within_flushed ?_ hcurrent.1
      cases hn : payload.name with
      | none => exact Or.inl (by simp [ProjectUpdate.assign, hn])
      | some name =>
        simp only [TenantRequest.visible, hn, Option.all_some, decide_eq_true_eq] at hvisible
        simp only [ProjectUpdate.assign, hn, Option.map_some, Option.getD_some]
        exact Or.inr (bounded_strip Nat.two_pos hvisible)
    exact forall_mem_pair (And.intro hname hcurrent.2) trivial
  case createTask payload =>
    obtain ⟨id, auditId, now, now', rfl, -⟩ := h
    exact forall_mem_pair (within_of_marks Nat.one_pos (of_decide_eq_true hvisible)
      payload.title.max :) trivial
  case updateTask taskId payload =>
    cases hs : payload.status with
    | some status =>
      simp only [hs] at h
      obtain ⟨existing, current, now, now', auditId, -, -, -, hget, -, -, rfl, -⟩ := h
      exact forall_mem_pair (hdb .tasks current (Db.get_eq_some.mp hget).1 :) trivial
    | none =>
      simp only [hs] at h
      obtain ⟨loaded, current, now, -, -, -, -, hov, rfl⟩ := h
      refine List.forall_mem_singleton.mpr ?_
      refine within_flushed ?_ (hdb .tasks current (Db.get_eq_some.mp hov.committed).1)
      cases ht : payload.title with
      | none => exact Or.inl (by simp [TaskUpdate.assign, ht])
      | some title =>
        simp only [TenantRequest.visible, hs, ht, Option.isSome_none, Bool.false_or,
          Option.all_some, decide_eq_true_eq] at hvisible
        simp only [TaskUpdate.assign, ht, Option.map_some, Option.getD_some]
        exact Or.inr (bounded_strip Nat.one_pos hvisible)
  case deleteTask taskId =>
    obtain ⟨current, now, hget, -, -, rfl⟩ := h
    exact List.forall_mem_singleton.mpr (hdb .tasks _ (Db.get_eq_some.mp hget).1 :)
  case createComment taskId payload =>
    obtain ⟨id, now, -, rfl, -⟩ := h
    exact List.forall_mem_singleton.mpr (bounded_strip Nat.one_pos (of_decide_eq_true hvisible) :)
  case updateComment taskId commentId payload =>
    rcases h with rfl | ⟨loaded, current, now, -, -, hov, rfl⟩
    · exact List.forall_mem_nil _
    · exact List.forall_mem_singleton.mpr (within_flushed
        (Or.inr (bounded_strip Nat.one_pos (of_decide_eq_true hvisible)))
        (hdb .comments current (Db.get_eq_some.mp hov.committed).1) :)
  case confirmAttachment taskId payload =>
    obtain ⟨id, now, -, rfl, -⟩ := h
    exact List.forall_mem_singleton.mpr trivial

theorem Request.Writes.inBounds {r : Request} (h : r.Writes calm db es)
    (hvisible : r.visible db = true) (hdb : db.InBounds)
    (hfits : ∀ e ∈ es, e.table.fits e.row = true) : (db.apply es).InBounds := by
  have hall : ∀ e ∈ es, e.table.InBounds e.row := by
    cases r with
    | register clientIp payload =>
      obtain ⟨hashed, slug, id, orgId, memberId, now, now', now'', rfl, -⟩ := h
      exact List.forall_mem_cons.mpr ⟨trivial, forall_mem_pair trivial trivial⟩
    | tenant bearer o q =>
      obtain ⟨user, role, -, hw⟩ := h
      exact hw.inBounds hvisible hdb hfits
    | _ => exact h.elim
  intro t row hrow
  rcases Db.mem_apply hrow with he | ⟨hold, -⟩
  · exact hall ⟨t, row⟩ he
  · exact hdb t row hold

def TenantRequest.creates : TenantRequest → Bool
  | .createProject _ | .createTeam _ | .createComment _ _ => true
  | _ => false

/-- Conversely, what such a request commits is within the bounds only if what it typed is
visible. -/
theorem TenantRequest.Writes.visible {q : TenantRequest} {user : User} {role : OrgRole}
    (h : q.Writes calm o user role db es) (hnew : q.creates = true)
    (hin : ∀ e ∈ es, e.table.InBounds e.row) : q.visible = true := by
  cases q
  case createTeam payload =>
    obtain ⟨id, now, rfl, -⟩ := h
    obtain ⟨hname, hslug⟩ := hin _ (List.mem_singleton_self _)
    simp only [TenantRequest.visible, Bool.and_eq_true, decide_eq_true_eq]
    exact ⟨marks_of_length (Nat.le_refl _) hname.min, marks_of_length (Nat.le_refl _) hslug.min⟩
  case createProject payload =>
    obtain ⟨id, auditId, now, now', rfl, -⟩ := h
    obtain ⟨hname, hkey⟩ := hin _ List.mem_cons_self
    simp only [TenantRequest.visible, Bool.and_eq_true, decide_eq_true_eq]
    exact ⟨marks_of_length (Nat.le_refl _) hname.min, marks_of_length (Nat.le_refl _) hkey.min⟩
  case createComment taskId payload =>
    obtain ⟨id, now, -, rfl, -⟩ := h
    have hcontent : Within 1 10000 (strip payload.content.text) := hin _ (List.mem_singleton_self _)
    exact decide_eq_true (marks_of_length (by decide) hcontent.min)
  all_goals cases hnew

/-- While every committed text has enough that is not blank, all that is stored is within the
bounds of the schemas. -/
theorem stored_inBounds {faults : Faults} {now : Instant} {c : AppConfig}
    (h : Reach app (Committing Request.visible) (genesis faults now) c) : c.state.db.InBounds :=
  genesis_invariant_fits Db.InBounds (fun _ r hr => absurd hr (Db.not_mem_empty r))
    (fun _ _ _ hI hw hfits hp => hw.inBounds hp hI hfits) h

end

section

open scoped Ascii

def blankProject : List AppMove :=
  solo 0 (registration "ann@example.org".toList ann_short) ++
  solo 1 (asAnn (.createProject ⟨⟨"  ".toList, by decide, by decide⟩,
    ⟨"  ".toList, by decide, by decide⟩, none, none⟩))

/-- A blank name and a blank key are stored. -/
theorem blank_stored : ∃ c, Reach app anySchedule (genesis noFaults 0) c ∧
    ∃ p : Project, p ∈ c.state.db.rows .projects ∧ p.name = [] ∧ p.key = [] := by
  have hstored : ((runMoves (genesis noFaults 0) blankProject).state.db.rows .projects).list.any
      (fun p : Project => p.name.isEmpty && p.key.isEmpty) = true := by decide +kernel
  obtain ⟨p, hp, hblank⟩ := List.any_eq_true.mp hstored
  simp only [Bool.and_eq_true, List.isEmpty_iff] at hblank
  exact ⟨runMoves (genesis noFaults 0) blankProject, runMoves_path, p, hp, hblank⟩

theorem apollo_inBounds : (runMoves (genesis noFaults 0) annsProject).state.db.InBounds :=
  stored_inBounds (runMoves_committing (by decide +kernel))

end

end MultiTenantSaas
