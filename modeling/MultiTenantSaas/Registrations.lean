import MultiTenantSaas.AloneRuns
import MultiTenantSaas.Listings
import MultiTenantSaas.ProjectVersions
import MultiTenantSaas.Revocations
import MultiTenantSaas.Slugs

/-!
The columns that a registration fills: the name and the slug of the organization are
made from what the user typed.
-/

set_option autoImplicit false

namespace MultiTenantSaas

open Process

def Op.InsertFits : (o : Op) → World → Prop
  | .insert t values, w => ∀ id, t.fits (values id w.now) = true
  | _, _ => True

section

variable [Library] {i : Nat} {w w' : World} {α β : Type}

/-- Alone from `w`, the program inserts what fits and does not end in a `DataError`. -/
abbrev Fits (i : Nat) (p : Coro α) (w : World) : Prop :=
  Alone machine i Op.InsertFits p (fun a _ => a ≠ .error .dataError) w

omit [Library] in
theorem insertFits_of_silent {p : Coro α} (hp : Silent p) :
    Prog.All (S := sig) (fun o => ∀ w, Op.InsertFits o w) p := by
  refine Prog.All.mono hp fun o ho w => ?_
  cases o with
  | insert t values => cases ho
  | _ => trivial

theorem fits_throw (i : Nat) (w : World) {e : Exn} (he : e ≠ .dataError) :
    Fits i (throw e : Coro α) w := fun h => he (Except.error.inj h)

theorem fits_silent {p : Coro α} {f : α → Coro β} (hp : Silent p)
    (herr : ∀ e v, Runs machine i p w (.error e) v → e ≠ .dataError)
    (hf : ∀ a v, Runs machine i p w (.ok a) v → Fits i (f a) v) : Fits i (p >>= f) w := by
  refine Alone.bind (alone_of_runs (insertFits_of_silent hp) fun a v hrun => ?_)
  cases a with
  | ok a => exact hf a v hrun
  | error e => exact fun h => herr e v hrun (Except.error.inj h)

theorem fits_transaction {body : Coro α} (h : Fits i body w) : Fits i (transaction body) w := by
  have hrethrow : ∀ (e : Exn) (v : World), e ≠ .dataError →
      Fits i (ask .rollback >>= fun _ => (throw e : Coro α)) v := by
    refine fun e v he => Alone.bind ⟨trivial, ?_⟩
    rintro a v' ⟨rfl, -⟩
    exact fits_throw i v' he
  refine Alone.tryCatch (Alone.bind (h.mono fun a v ha => ?_))
  cases a with
  | error e => exact hrethrow e v fun he => ha (congrArg Except.error he)
  | ok a =>
    refine Alone.bind ⟨trivial, ?_⟩
    rintro b v' (⟨rfl, -⟩ | ⟨-, -, rfl⟩)
    · exact nofun
    · exact hrethrow _ v' (by simp)

theorem runs_refresh {t : Table} {id : Uuid} {r : t.Row} (hget : (w.view i).get t id = some r)
    {a : Except Exn t.Row} (h : Runs machine i (refresh t id) w a w') :
    w' = w ∧ (a = .ok r ∨ Down w a) := by
  rcases runs_bind.mp h with ⟨x, v, hsel, hrest⟩ | ⟨e, hsel, rfl⟩
  · obtain ⟨rfl, hx | ⟨-, ⟨⟩⟩⟩ := runs_sessionGet.mp hsel
    rw [hget] at hx
    cases hx
    obtain ⟨rfl, rfl⟩ := runs_pure.mp hrest
    exact ⟨rfl, Or.inl rfl⟩
  · obtain ⟨rfl, hx | ⟨hdown, hx⟩⟩ := runs_sessionGet.mp hsel
    · cases hx
    · exact ⟨rfl, Or.inr ⟨hdown, congrArg Except.error (Except.error.inj hx)⟩⟩

omit [Library] in
theorem World.get_write (w : World) (i : Nat) (e : Entry) :
    ((w.write i e).view i).get e.table e.id = some e.row := by
  rw [World.view, World.rows_wrote rfl, if_pos rfl]
  exact Db.get_apply_append_self _ _ _

theorem fits_create {t : Table} {values : Uuid → Instant → t.Row} {f : t.Row → Coro β}
    (hfits : ∀ id now, t.fits (values id now) = true)
    (hf : ∀ id now v, Fits i (f (values id now)) v) : Fits i (create t values >>= f) w := by
  rw [create, Prog.bind_assoc]
  refine Alone.bind ⟨fun id => hfits id w.now, fun a v he => ?_⟩
  rcases he with ⟨id, -, hins⟩ | ⟨-, -, rfl⟩
  · rcases World.insert_cases hins with ⟨e, rfl, -⟩ | ⟨rfl, rfl, -⟩
    · rintro ⟨⟩
      rcases insert_error hins with ⟨-, hno⟩ | ⟨⟨⟩⟩
      exact absurd (hfits id w.now) (by simp [hno])
    · have hget := World.get_write { w with drawn := id :: w.drawn } i ⟨t, values id w.now⟩
      refine fits_silent (silent_refresh _ _) (fun e u hrun => ?_) fun r u hrun => ?_
      · rcases (runs_refresh hget hrun).2 with ⟨⟨⟩⟩ | ⟨-, ⟨⟩⟩
        simp
      · rcases (runs_refresh hget hrun).2 with ⟨⟨⟩⟩ | ⟨-, ⟨⟩⟩
        exact hf id w.now u
  · exact nofun

variable {payload : UserRegisterRequest}

def UserRegisterRequest.workspace (payload : UserRegisterRequest) : Str :=
  match payload.organizationName with
  | some name => name.text
  | none => strip payload.fullName.text ++ "'s Workspace".toList

/-- The texts are short enough for what is made of them. -/
structure UserRegisterRequest.Short (payload : UserRegisterRequest) : Prop where
  name : payload.organizationName = none → (strip payload.fullName.text).length ≤ 88
  slug : (slugify payload.workspace).length ≤ 93

/-- It is enough that the lower-case form of the name leaves room for the suffix. -/
theorem short_of_lower
    (hname : payload.organizationName = none → (strip payload.fullName.text).length ≤ 88)
    (hlower : (Library.lower payload.workspace).length ≤ 93) : payload.Short :=
  ⟨hname, (slugify_length_le _).trans hlower⟩

/-- Where `lower` turns one character into two, it was one of two bytes. -/
abbrev LowerFits : Prop := ∀ s, (Library.lower s).length ≤ utf8Length s

theorem user_fits (hlower : LowerFits) {hashed : Str} (hhash : hashed.length ≤ 255) (id : Uuid)
    (now : Instant) : Table.users.fits (newUser payload hashed id now) = true := by
  have hname := (strip_length_le payload.fullName.text).trans payload.fullName.max
  have hemail : (normalizeEmail payload.email.text).length ≤ 255 :=
    (strip_length_le _).trans ((hlower _).trans (payload.email.max.trans (by decide)))
  simp [Table.fits, varchar_iff, varcharOpt, newUser, hhash, hname, hemail]

omit [Library] in
theorem workspace_le_iff : payload.workspace.length ≤ 100 ↔
    (payload.organizationName = none → (strip payload.fullName.text).length ≤ 88) := by
  cases hname : payload.organizationName with
  | none => simp [UserRegisterRequest.workspace, hname]
  | some name => simpa [UserRegisterRequest.workspace, hname] using name.max

omit [Library] in
theorem organization_fits_iff {name slug : Str} (suffix id : Uuid) (now : Instant) :
    Table.organizations.fits (newOrganization name (slug ++ '-' :: suffix.hexPrefix 6) id now) =
      true ↔ name.length ≤ 100 ∧ slug.length ≤ 93 := by
  have hhex : (suffix.hexPrefix 6).length = 6 := by
    rw [Uuid.hexPrefix, List.length_take, suffix.hex_length]
    rfl
  simp [Table.fits, varchar_iff, varcharOpt, newOrganization, hhex]

theorem fits_register (hlower : LowerFits)
    (hhash : ∀ salt, (Library.hashPassword salt payload.password.text).length ≤ 255)
    (hshort : payload.Short) : Fits i (AuthService.register payload) w := by
  refine fits_transaction (fits_silent (silent_selectOne _) (fun e v hrun => ?_)
    fun existing v _ => ?_)
  · rcases (runs_selectOne.mp hrun).2 with he | ⟨-, ⟨⟩⟩
    · exact oneRow_error he.symm ▸ by simp
    · simp
  split
  · exact Alone.bind (fits_throw i v (by simp [Exn.entityConflict]))
  refine Alone.bind (Alone.bind ⟨trivial, ?_⟩)
  rintro salt v' ⟨_, -, rfl, -⟩
  refine fits_create (fun id now => user_fits hlower (hhash _) id now)
    fun id now u => Alone.bind ⟨trivial, ?_⟩
  rintro suffix u' ⟨suffix', -, rfl, -⟩
  refine fits_create (fun orgId now' => (organization_fits_iff suffix' orgId now').mpr
    ⟨workspace_le_iff.mpr hshort.name, hshort.slug⟩) fun orgId now' x => ?_
  refine fits_create (fun _ _ => rfl) fun memberId now'' y => ?_
  refine alone_of_runs (insertFits_of_silent (silent_generateTokenPair _)) fun a z hrun => ?_
  obtain ⟨⟨tokens, rfl⟩, -⟩ := runs_generateTokenPair hrun
  exact nofun

theorem runs_created {t : Table} {values : Uuid → Instant → t.Row} {id : Uuid}
    (hfresh : id ∉ w.drawn) (hins : w.insert i t values id = some (.ok (values id w.now), w')) :
    Runs machine i (create t values) w (.ok (values id w.now)) w' := by
  rcases World.insert_cases hins with ⟨e, ⟨⟩, -⟩ | ⟨-, rfl, -⟩
  have hget := World.get_write { w with drawn := id :: w.drawn } i ⟨t, values id w.now⟩
  refine runs_bind.mpr (Or.inl ⟨_, _, runs_perform.mpr (Or.inl ⟨id, hfresh, hins⟩),
    runs_bind.mpr (Or.inl ⟨some (values id w.now), _, ?_, runs_pure.mpr ⟨rfl, rfl⟩⟩)⟩)
  exact runs_sessionGet.mpr ⟨rfl, Or.inl (congrArg Except.ok hget.symm)⟩

omit [Library] in
theorem insert_first {values : Uuid → Instant → User} {id : Uuid} (hdb : w.db = .empty)
    (hpending : w.pending = []) (hfits : Table.users.fits (values id w.now) = true) :
    w.insert i .users values id = some (.ok (values id w.now),
      { w with drawn := id :: w.drawn }.write i ⟨.users, values id w.now⟩) := by
  have hview : w.view i = .empty := by simp [World.view, World.rows, hpending, hdb]
  have hnone : Db.empty.get .users (values id w.now).id = none := rfl
  have hvalid : World.violation .empty .users (values id w.now) = none := by
    rw [World.violation, hfits]
    rfl
  simp only [World.insert, World.blocked, hpending, hview, hvalid, List.any_nil, Table.id, hnone]
  rfl

/-- In an empty database a registration comes to the INSERT that does not fit. -/
theorem misfit_of_not_short (hlower : LowerFits)
    (hhash : ∀ salt, (Library.hashPassword salt payload.password.text).length ≤ 255)
    (hlong : ¬ payload.Short) : ∃ t values w', Performs machine 0 (AuthService.register payload)
      (showing .empty) (.insert t values) w' ∧ ∃ id, t.fits (values id w'.now) = false := by
  let w₁ : World := { showing .empty with drawn := [drawnId 0] }
  have hlookup : Runs machine 0 (getByEmail payload.email.text) (showing .empty) (.ok none)
      (showing .empty) := runs_selectOne.mpr ⟨rfl, Or.inl rfl⟩
  have hhashed : Runs machine 0 (hashPassword payload.password.text) (showing .empty)
      (.ok (Library.hashPassword (drawnId 0) payload.password.text)) w₁ :=
    runs_bind.mpr (Or.inl ⟨_, _, runs_perform.mpr ⟨drawnId 0, by simp [showing], rfl, rfl⟩,
      runs_pure.mpr ⟨rfl, rfl⟩⟩)
  let user := newUser payload (Library.hashPassword (drawnId 0) payload.password.text)
  have hfits : Table.users.fits (user (drawnId 1) 0) = true := user_fits hlower (hhash _) _ _
  have hnew : drawnId 1 ∉ [drawnId 0] := by decide
  have hcreated : Runs machine 0 (create .users user) w₁ (.ok (user (drawnId 1) 0)) _ :=
    runs_created hnew (insert_first rfl rfl hfits)
  let w₂ : World := { w₁ with drawn := [drawnId 1, drawnId 0] }.write 0
    ⟨.users, user (drawnId 1) 0⟩
  have hfresh : drawnId 2 ∉ [drawnId 1, drawnId 0] := by decide
  have hsuffix : Runs machine 0 (ask .uuid4) w₂ (.ok (drawnId 2))
      { w₂ with drawn := [drawnId 2, drawnId 1, drawnId 0] } :=
    runs_perform.mpr ⟨drawnId 2, hfresh, rfl, rfl⟩
  refine ⟨.organizations, _, _, Performs.tryCatch (Performs.bind (Performs.of_runs hlookup
    (Performs.of_runs hhashed (Performs.of_runs hcreated (Performs.of_runs hsuffix
      (Performs.bind (Performs.bind .here))))))), drawnId 3, ?_⟩
  refine Bool.eq_false_iff.mpr fun h => hlong ?_
  obtain ⟨hname, hslug⟩ := (organization_fits_iff _ _ _).mp h
  exact ⟨workspace_le_iff.mp hname, hslug⟩

/-- A registration inserts what fits and does not fail for a length exactly when its texts are
short. -/
theorem register_fits (hlower : LowerFits)
    (hhash : ∀ salt, (Library.hashPassword salt payload.password.text).length ≤ 255) :
    ((∀ i w t values w', Performs machine i (AuthService.register payload) w (.insert t values) w' →
        ∀ id, t.fits (values id w'.now) = true) ∧
      ∀ i w a w', Runs machine i (AuthService.register payload) w a w' →
        a ≠ .error .dataError) ↔ payload.Short := by
  constructor
  · rintro ⟨hinserts, -⟩
    by_contra hlong
    obtain ⟨t, values, w', hperform, id, hmisfit⟩ := misfit_of_not_short hlower hhash hlong
    rw [hinserts _ _ _ _ _ hperform id] at hmisfit
    cases hmisfit
  · intro hshort
    refine ⟨fun i w t values w' h => ?_, fun i w a w' h => ?_⟩
    · exact (fits_register (i := i) (w := w) hlower hhash hshort).performs h
    · exact (fits_register (i := i) (w := w) hlower hhash hshort).runs h

end

section

open scoped Ascii

def named (fullName : Bounded 2 100) : UserRegisterRequest :=
  ⟨⟨"a@b.c".toList, by decide⟩, samplePassword, fullName, none⟩

def longName : Bounded 2 100 := ⟨List.replicate 100 'a', by decide, by decide⟩

/-- The registration of a long name fails in the database. -/
theorem register_not_fits : ∃ c, Reach app anySchedule (genesis noFaults 0) c ∧
    c.thread 0 = some ⟨.register none (named longName), .done (.error .dataError)⟩ := by
  have h : Served (genesis noFaults 0) _ 0 (.register none (named longName)) (.error .dataError) :=
    served_refused (by decide) (by decide +kernel)
  exact ⟨_, h.path, h.answered⟩

theorem ascii_lowerFits : LowerFits := fun s =>
  (List.length_map _).le.trans (length_le_utf8Length s)

theorem named_hash_length (fullName : Bounded 2 100) (salt : Uuid) :
    (Library.hashPassword salt (named fullName).password.text).length ≤ 255 := by
  have hlen : samplePassword.text.length = 8 := rfl
  simp [Library.hashPassword, salt.hex_length, named, hlen]

theorem annSmith_short : (named ⟨"Ann Smith".toList, by decide, by decide⟩).Short :=
  short_of_lower (fun _ => by decide) (by decide +kernel)

theorem register_fits_short : ¬ ∃ i w w', Runs machine i (AuthService.register
    (named ⟨"Ann Smith".toList, by decide, by decide⟩)) w (.error .dataError) w' := by
  rintro ⟨i, w, w', hrun⟩
  exact ((register_fits ascii_lowerFits (named_hash_length _)).mpr annSmith_short).2 i w _ w'
    hrun rfl

end

end MultiTenantSaas
