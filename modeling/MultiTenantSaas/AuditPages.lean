import MultiTenantSaas.Listings

/-!
Pages of the audit trail. Its statement orders by the timestamp alone, so each page may
be cut from another order of the rows that tie.
-/

set_option autoImplicit false

namespace MultiTenantSaas

open Process

abbrev latestFirst (logs : List AuditLog) : Prop := Paging.Descending AuditLog.timestamp logs

def AuditLogResponse.log (r : AuditLogResponse) : AuditLog :=
  { id := r.id, organizationId := r.organizationId, actorId := r.actorId,
    entityType := r.entityType, entityId := r.entityId, action := r.action,
    beforeState := r.beforeState, afterState := r.afterState, ipAddress := r.ipAddress,
    userAgent := r.userAgent, timestamp := r.timestamp }

def auditRows (db : Db) (o : Uuid) (filters : AuditLogFilterParams) : List AuditLog :=
  rowsWhere .auditLogs (auditCriteria o filters) db

section

variable [Library] {i : Nat} {w w' : World} {o : Uuid} {filters : AuditLogFilterParams}

/-- Every order that `ORDER BY timestamp DESC` allows is a choice of the database. -/
theorem runs_listAuditLogs {offset limit : Nat} {a : List (AuditLog × Option User) × Nat} :
    Runs machine i (listAuditLogs o filters offset limit) w (.ok a) w' ↔
      (filters.arguments ++ [Argument.bigint offset, Argument.bigint limit]).all
        Argument.encodes = true ∧ w' = w ∧ ∃ order : List (AuditLog × Option User),
        order.Perm (joinedLoad .auditLogs .users (fun (l : AuditLog) => l.actorId)
          (auditCriteria o filters) (w.view i)) ∧ latestFirst (order.map Prod.fst) ∧
        a = ((order.drop offset).take limit, (auditRows (w.view i) o filters).length) := by
  let earlier : AuditLog × Option User → AuditLog × Option User → Prop :=
    fun a b => b.1.timestamp ≤ a.1.timestamp
  have : Std.Total earlier := ⟨fun a b => Int.le_total _ _⟩
  have : IsTrans (AuditLog × Option User) earlier := ⟨fun a b c h h' => Int.le_trans h' h⟩
  constructor
  · intro h
    obtain ⟨counted, v, hcounted, hrest⟩ := runs_bind_answer.mp h
    obtain ⟨-, rfl, hcount⟩ := runs_arguments_answer.mp hcounted
    obtain ⟨rows, v, hread, hanswer⟩ := runs_bind_answer.mp hrest
    obtain ⟨harguments, rfl, hrows⟩ := runs_arguments_answer.mp hread
    obtain ⟨ha, rfl⟩ := runs_pure.mp hanswer
    refine ⟨harguments, rfl, rows.insertionSort earlier,
      (List.perm_insertionSort earlier rows).trans hrows,
      List.pairwise_map.mpr (List.pairwise_insertionSort earlier rows), ?_⟩
    rw [Except.ok.inj ha, auditRows, ← hcount.length_eq]
  · rintro ⟨harguments, rfl, order, hperm, hlatest, rfl⟩
    have hfilters : filters.arguments.all Argument.encodes = true := by
      rw [List.all_append, Bool.and_eq_true] at harguments
      exact harguments.1
    have hsorted : order.insertionSort earlier = order :=
      (List.pairwise_map.mp hlatest).insertionSort_eq
    refine runs_bind_answer.mpr ⟨_, _, runs_arguments_answer.mpr ⟨hfilters, rfl, .refl _⟩,
      runs_bind_answer.mpr ⟨order, _, runs_arguments_answer.mpr ⟨harguments, rfl, hperm⟩,
        runs_pure.mpr ⟨congrArg Except.ok ?_, rfl⟩⟩⟩
    exact congrArg (fun l => ((l.drop offset).take limit, _)) hsorted.symm

variable {db : Db} {size : PageSize} {k : Nat} {r : OffsetPageResponse AuditLogResponse}

/-- `query_audit_logs` may answer page `k` with `r` when the audit rows are those of `db`. -/
def AuditAnswers (db : Db) (o : Uuid) (filters : AuditLogFilterParams) (size : PageSize) (k : Nat)
    (r : OffsetPageResponse AuditLogResponse) : Prop :=
  ∃ (i : Nat) (w w' : World) (ctx : TenantContext) (page : Page), ctx.organizationId = o ∧
    page.val = k ∧ (w.view i).rows .auditLogs = db.rows .auditLogs ∧
    Runs machine i (Endpoints.queryAuditLogs ctx filters page size) w (.ok r) w'

theorem AuditAnswers.takes (h : AuditAnswers db o filters size k r) :
    TakesPage filters.arguments size k := by
  obtain ⟨i, w, w', ctx, page, -, rfl, -, hrun⟩ := h
  obtain ⟨a, v, hlist, -⟩ := runs_bind_answer.mp hrun
  exact (runs_listAuditLogs.mp hlist).1

theorem AuditAnswers.page (h : AuditAnswers db o filters size k r) :
    ∃ order, latestFirst order ∧ (auditRows db o filters).Perm order ∧
      r.items.map AuditLogResponse.log = Paging.page size.val k order ∧
      r.totalPages = Paging.count size.val (auditRows db o filters).length := by
  obtain ⟨i, w, w', ctx, page, rfl, rfl, hrows, hrun⟩ := h
  obtain ⟨a, v, hlist, hanswer⟩ := runs_bind_answer.mp hrun
  obtain ⟨-, rfl, order, hperm, hlatest, rfl⟩ := runs_listAuditLogs.mp hlist
  obtain ⟨hr, -⟩ := runs_pure.mp hanswer
  have hsame : auditRows (v.view i) ctx.organizationId filters =
      auditRows db ctx.organizationId filters := rowsWhere_congr hrows _
  have hlogs := hperm.map Prod.fst
  rw [joinedLoad, List.map_map] at hlogs
  refine ⟨order.map Prod.fst, hlatest, ?_, ?_, ?_⟩
  · refine (hlogs.trans ?_).symm
    exact List.Perm.of_eq ((List.map_id _).trans hsame)
  · rw [Except.ok.inj hr, Paging.page, ← List.map_drop, ← List.map_take, List.map_map]
    rfl
  · rw [Except.ok.inj hr, ← hsame]
    rfl

theorem auditAnswers_of {order : List AuditLog} (hk : 1 ≤ k)
    (htakes : TakesPage filters.arguments size k) (hlatest : latestFirst order)
    (hperm : (auditRows db o filters).Perm order) : ∃ r, AuditAnswers db o filters size k r ∧
      r.items.map AuditLogResponse.log = Paging.page size.val k order ∧
      r.totalPages = Paging.count size.val (auditRows db o filters).length := by
  obtain ⟨joined, hfst, hjoined⟩ : ∃ joined : List (AuditLog × Option User),
      joined.map Prod.fst = order ∧ joined.Perm (joinedLoad .auditLogs .users
        (fun (l : AuditLog) => l.actorId) (auditCriteria o filters) db) := by
    refine ⟨order.map fun l => (l, l.actorId.bind (db.get .users)), ?_, (hperm.map _).symm⟩
    rw [List.map_map]
    exact List.map_id _
  have hrun : Runs machine 0 (Endpoints.queryAuditLogs (member o) filters ⟨k, hk⟩ size)
      (showing db) (.ok _) (showing db) :=
    runs_bind_answer.mpr ⟨_, _, runs_listAuditLogs.mpr ⟨htakes, rfl, joined, hjoined,
      hfst.symm ▸ hlatest, rfl⟩, runs_pure.mpr ⟨rfl, rfl⟩⟩
  refine ⟨_, ⟨0, showing db, showing db, member o, ⟨k, hk⟩, rfl, rfl, rfl, hrun⟩, ?_, rfl⟩
  rw [List.map_map, Paging.page, ← hfst, ← List.map_drop, ← List.map_take]
  rfl

def auditItems (pages : Nat → OffsetPageResponse AuditLogResponse) : List AuditLog :=
  (List.range (pages 1).totalPages).flatMap fun k => (pages (k + 1)).items.map AuditLogResponse.log

/-- Whatever the database chooses, the pages, up to the last, show every matching row once. -/
def ShowsEachOnce (db : Db) (o : Uuid) (filters : AuditLogFilterParams) (size : PageSize) : Prop :=
  ∀ pages, AuditAnswers db o filters size 1 (pages 1) →
    (∀ k, 1 ≤ k → k ≤ (pages 1).totalPages → AuditAnswers db o filters size k (pages k)) →
    (auditItems pages).Perm (auditRows db o filters)

def AuditTakes (db : Db) (o : Uuid) (filters : AuditLogFilterParams) (size : PageSize) : Prop :=
  TakesPage filters.arguments size (Paging.count size.val (auditRows db o filters).length)

instance (db : Db) (o : Uuid) (filters : AuditLogFilterParams) (size : PageSize) :
    Decidable (AuditTakes db o filters size) := inferInstanceAs (Decidable (TakesPage _ _ _))

def auditOrder (db : Db) (o : Uuid) (filters : AuditLogFilterParams) : List AuditLog :=
  (auditRows db o filters).insertionSort fun a b => b.timestamp ≤ a.timestamp

omit [Library] in
theorem auditOrder_latest (db : Db) (o : Uuid) (filters : AuditLogFilterParams) :
    latestFirst (auditOrder db o filters) := by
  let earlier : AuditLog → AuditLog → Prop := fun a b => b.timestamp ≤ a.timestamp
  have : Std.Total earlier := ⟨fun a b => Int.le_total _ _⟩
  have : IsTrans AuditLog earlier := ⟨fun a b c h h' => Int.le_trans h' h⟩
  exact List.pairwise_insertionSort earlier _

omit [Library] in
theorem auditOrder_perm (db : Db) (o : Uuid) (filters : AuditLogFilterParams) :
    (auditOrder db o filters).Perm (auditRows db o filters) := List.perm_insertionSort _ _

omit [Library] in
theorem auditItems_eq {order : Nat → List AuditLog}
    {pages : Nat → OffsetPageResponse AuditLogResponse}
    (hitems : ∀ k < (pages 1).totalPages, (pages (k + 1)).items.map AuditLogResponse.log =
      Paging.page size.val (k + 1) (order k))
    (htotal : (pages 1).totalPages = Paging.count size.val (auditRows db o filters).length) :
    auditItems pages =
      Paging.pages size.val order (Paging.count size.val (auditOrder db o filters).length) := by
  rw [auditItems, (auditOrder_perm db o filters).length_eq, Paging.pages, ← htotal]
  exact List.flatMap_congr fun k hk => hitems k (List.mem_range.mp hk)

theorem split_shows_twice (htakes : AuditTakes db o filters size)
    (hsplit : Paging.Splits AuditLog.timestamp size.val (auditOrder db o filters)) :
    ¬ ShowsEachOnce db o filters size := by
  intro honce
  obtain ⟨order, horder, htwice⟩ :=
    (auditOrder_latest db o filters).split_twice size.ge hsplit
  have hfirst : 1 ≤ Paging.count size.val (auditRows db o filters).length := by
    obtain ⟨n, -, hlt, -⟩ := hsplit
    rw [← (auditOrder_perm db o filters).length_eq]
    exact (Paging.lt_count size.ge).mpr (by omega)
  have hpage : ∀ k, ∃ r, 1 ≤ k → k ≤ Paging.count size.val (auditRows db o filters).length →
      AuditAnswers db o filters size k r ∧
      r.items.map AuditLogResponse.log = Paging.page size.val k (order (k - 1)) ∧
      r.totalPages = Paging.count size.val (auditRows db o filters).length := by
    intro k
    by_cases hk : 1 ≤ k ∧ k ≤ Paging.count size.val (auditRows db o filters).length
    · have hperm := (auditOrder_perm db o filters).symm.trans (horder (k - 1)).2
      obtain ⟨r, hr⟩ := auditAnswers_of hk.1 (htakes.earlier hk.2) (horder (k - 1)).1 hperm
      exact ⟨r, fun _ _ => hr⟩
    · exact ⟨⟨[], 0, 0, 0, 0⟩, fun h h' => absurd ⟨h, h'⟩ hk⟩
  choose pages hpages using hpage
  have htotal := (hpages 1 le_rfl hfirst).2.2
  have hshown := honce pages (hpages 1 le_rfl hfirst).1 fun k hk hle =>
    (hpages k hk (htotal ▸ hle)).1
  rw [auditItems_eq (fun k hk => (hpages (k + 1) (by omega) (htotal ▸ hk)).2.1) htotal] at hshown
  have hnodup : (auditRows db o filters).Nodup :=
    (List.Nodup.of_map _ (db.rows .auditLogs).nodup).filter _
  exact htwice (hshown.nodup_iff.mpr hnodup)

/-- The pages that are answered show every row once exactly when no two rows of one timestamp
are on different pages. -/
theorem audit_pages :
    ShowsEachOnce db o filters size ↔ (AuditTakes db o filters size →
      ¬ Paging.Splits AuditLog.timestamp size.val (auditOrder db o filters)) := by
  refine ⟨fun honce htakes hsplit => split_shows_twice htakes hsplit honce,
    fun hwhole pages hfirst hpages => ?_⟩
  have hperm := auditOrder_perm db o filters
  obtain ⟨-, -, -, -, htotal⟩ := hfirst.page
  have htakes : AuditTakes db o filters size := by
    rw [AuditTakes, ← htotal]
    rcases Nat.eq_zero_or_pos (pages 1).totalPages with hzero | hpos
    · exact hfirst.takes.earlier (by omega)
    · exact (hpages _ hpos le_rfl).takes
  have hpage : ∀ k, ∃ order, latestFirst order ∧ (auditRows db o filters).Perm order ∧
      (k < (pages 1).totalPages →
        (pages (k + 1)).items.map AuditLogResponse.log = Paging.page size.val (k + 1) order) := by
    intro k
    by_cases hk : k < (pages 1).totalPages
    · obtain ⟨order, hlatest, hrows, hitems, -⟩ := (hpages (k + 1) (by omega) hk).page
      exact ⟨order, hlatest, hrows, fun _ => hitems⟩
    · exact ⟨_, auditOrder_latest db o filters, hperm.symm, fun h => absurd h hk⟩
  choose order horder using hpage
  rw [auditItems_eq (fun k => (horder k).2.2) htotal]
  refine ((auditOrder_latest db o filters).pages_perm size.ge (fun k => ?_)
    (hwhole htakes)).trans hperm
  exact ⟨(horder k).1, hperm.trans (horder k).2.1⟩

end

section

open scoped Cursors

/-- The records of a project and two tasks that were created at one instant. -/
theorem audit_pages_tie : ¬ ShowsEachOnce beforeFirstPage.state.db (drawnId 4)
    ⟨none, none, none, none, none, none⟩ ⟨1, by decide, by decide⟩ :=
  split_shows_twice (by decide +kernel) ⟨1, by decide, by decide +kernel, by decide +kernel⟩

end

end MultiTenantSaas
