import MultiTenantSaas.AloneRuns
import MultiTenantSaas.Feeds
import MultiTenantSaas.Paging

/-!
The two listings of tasks over rows that do not change: numbered pages, and the feed
that goes from cursor to cursor.
-/

set_option autoImplicit false

namespace MultiTenantSaas

open Process
open Calendar (Representable)

def createdAtAsc : Str := "created_at:asc".toList

def ordered (sortBy : Str) (rows : List Task) : List Task :=
  if sortBy = createdAtAsc then
    rows.insertionSort fun a b => keyLe (Task.feedKey a) (Task.feedKey b)
  else rows.insertionSort fun a b => keyLe (Task.feedKey b) (Task.feedKey a)

def taskBefore (sortBy : Str) (a b : Task) : Prop :=
  if sortBy = createdAtAsc then keyLt a.feedKey b.feedKey else keyLt b.feedKey a.feedKey

theorem taskBefore_trans {sortBy : Str} {a b c : Task} (h : taskBefore sortBy a b)
    (h' : taskBefore sortBy b c) : taskBefore sortBy a c := by
  unfold taskBefore at *
  split at h
  · next hs =>
    rw [if_pos hs] at h' ⊢
    exact keyLt_trans h h'
  · next hs =>
    rw [if_neg hs] at h' ⊢
    exact keyLt_trans h' h

theorem taskBefore_irrefl (sortBy : Str) (a : Task) : ¬ taskBefore sortBy a a := by
  unfold taskBefore
  split <;> exact keyLt_irrefl _

instance (sortBy : Str) : Std.Irrefl (taskBefore sortBy) := ⟨taskBefore_irrefl sortBy⟩

instance (sortBy : Str) : Std.Antisymm (taskBefore sortBy) :=
  ⟨fun _ _ h h' => absurd (taskBefore_trans h h') (taskBefore_irrefl sortBy _)⟩

theorem taskBefore_flip {sortBy : Str} (hsort : sortBy ≠ createdAtAsc) (a b : Task) :
    taskBefore createdAtAsc a b ↔ taskBefore sortBy b a := by
  rw [taskBefore, taskBefore, if_pos rfl, if_neg hsort]

theorem ordered_perm (sortBy : Str) (rows : List Task) : (ordered sortBy rows).Perm rows := by
  unfold ordered
  split
  · exact List.perm_insertionSort _ _
  · exact List.perm_insertionSort _ _

theorem ordered_pairwise (sortBy : Str) {rows : List Task}
    (hnodup : (rows.map Task.feedKey).Nodup) :
    (ordered sortBy rows).Pairwise (taskBefore sortBy) := by
  unfold ordered taskBefore
  split
  · exact List.pairwise_map.mp (Keyset.sort_pairwise keyLe_total keyLe_trans
      (fun _ _ => keyLt_of_le) hnodup)
  · exact List.pairwise_map.mp (Keyset.sort_pairwise (r := fun a b => keyLe b a)
      (fun a b => keyLe_total b a) (fun a b c h h' => keyLe_trans c b a h' h)
      (fun a b h hne => keyLt_of_le h hne.symm) hnodup)

/-- The order leaves no choice. -/
theorem ordered_eq {sortBy : Str} {rows l : List Task} (hnodup : (rows.map Task.feedKey).Nodup)
    (hl : l.Pairwise (taskBefore sortBy)) (hmem : ∀ t, t ∈ l ↔ t ∈ rows) :
    ordered sortBy rows = l :=
  (ordered_pairwise sortBy hnodup).eq_of_mem_iff hl fun t =>
    (ordered_perm sortBy rows).mem_iff.trans (hmem t).symm

theorem ordered_congr (sortBy : Str) {rows rows' : List Task}
    (hnodup : (rows.map Task.feedKey).Nodup) (hperm : rows.Perm rows') :
    ordered sortBy rows = ordered sortBy rows' :=
  ordered_eq hnodup (ordered_pairwise sortBy ((hperm.map _).nodup_iff.mp hnodup))
    fun _ => ((ordered_perm sortBy rows').trans hperm.symm).mem_iff

theorem ordered_reverse {sortBy : Str} (hsort : sortBy ≠ createdAtAsc) {rows : List Task}
    (hnodup : (rows.map Task.feedKey).Nodup) :
    ordered createdAtAsc rows = (ordered sortBy rows).reverse := by
  refine ordered_eq hnodup ?_ fun t => ?_
  · rw [List.pairwise_reverse]
    exact (ordered_pairwise sortBy hnodup).imp fun {a b} h => (taskBefore_flip hsort b a).mpr h
  · rw [List.mem_reverse]
    exact (ordered_perm sortBy rows).mem_iff

theorem runs_bind_answer {α β : Type} [Library] {i : Nat} {p : Coro α} {f : α → Coro β} {b : β}
    {w w' : World} : Runs machine i (p >>= f) w (.ok b) w' ↔
      ∃ a v, Runs machine i p w (.ok a) v ∧ Runs machine i (f a) v (.ok b) w' := by
  rw [runs_bind]
  constructor
  · rintro (⟨a, v, hp, hf⟩ | ⟨e, -, he⟩)
    · exact ⟨a, v, hp, hf⟩
    · cases he
  · rintro ⟨a, v, hp, hf⟩
    exact Or.inl ⟨a, v, hp, hf⟩

theorem runs_select_answer {ρ : Type} [Library] {i : Nat} {q : Db → List ρ} {rows : List ρ}
    {w w' : World} : Runs machine i (ask (.select q)) w (.ok rows) w' ↔
      w' = w ∧ rows.Perm (q (w.view i)) := by
  rw [runs_select]
  constructor
  · rintro ⟨hw, ⟨rows', hr, hperm⟩ | ⟨-, hr⟩⟩
    · cases hr
      exact ⟨hw, hperm⟩
    · cases hr
  · rintro ⟨hw, hperm⟩
    exact ⟨hw, Or.inl ⟨rows, rfl, hperm⟩⟩

theorem runs_arguments_answer {ρ : Type} [Library] {i : Nat} {arguments : List Argument}
    {q : Db → List ρ} {rows : List ρ} {w w' : World} :
    Runs machine i (withArguments arguments (ask (.select q))) w (.ok rows) w' ↔
      arguments.all Argument.encodes = true ∧ w' = w ∧ rows.Perm (q (w.view i)) := by
  unfold withArguments
  split
  · next h => rw [runs_select_answer, h, eq_self, true_and]
  · next h =>
    refine ⟨fun hrun => ?_, fun hread => absurd hread.1 h⟩
    cases (runs_throw.mp hrun).1

section

variable [Library] {i : Nat} {w w' : World} {o : Uuid} {filters : TaskFilterParams}

theorem runs_listTasksOffset {offset limit : Nat} {a : List Task × Nat} :
    Runs machine i (listTasksOffset o filters offset limit) w (.ok a) w' ↔
      (filters.arguments ++ [Argument.bigint offset, Argument.bigint limit]).all
        Argument.encodes = true ∧
      w' = w ∧ a = (((ordered filters.sortBy (rowsWhere .tasks (taskCriteria o filters)
        (w.view i))).drop offset).take limit,
          (rowsWhere .tasks (taskCriteria o filters) (w.view i)).length) := by
  have hnodup : ((rowsWhere .tasks (taskCriteria o filters) (w.view i)).map Task.feedKey).Nodup :=
    feedKeys_nodup (t := .tasks) (fun _ => rfl) _ _
  constructor
  · intro h
    obtain ⟨counted, v, hcounted, hrest⟩ := runs_bind_answer.mp h
    obtain ⟨-, rfl, hcount⟩ := runs_arguments_answer.mp hcounted
    obtain ⟨rows, v, hread, hanswer⟩ := runs_bind_answer.mp hrest
    obtain ⟨harguments, rfl, hrows⟩ := runs_arguments_answer.mp hread
    obtain ⟨ha, rfl⟩ := runs_pure.mp hanswer
    refine ⟨harguments, rfl, (Except.ok.inj ha).trans ?_⟩
    rw [← ordered_congr filters.sortBy ((hrows.map _).nodup_iff.mpr hnodup) hrows,
      hcount.length_eq]
    rfl
  · rintro ⟨harguments, rfl, rfl⟩
    have hfilters : filters.arguments.all Argument.encodes = true := by
      rw [List.all_append, Bool.and_eq_true] at harguments
      exact harguments.1
    exact runs_bind_answer.mpr ⟨_, _, runs_arguments_answer.mpr ⟨hfilters, rfl, .refl _⟩,
      runs_bind_answer.mpr ⟨_, _, runs_arguments_answer.mpr ⟨harguments, rfl, .refl _⟩,
        runs_pure.mpr ⟨rfl, rfl⟩⟩⟩

theorem runs_listTasksCursor {cursor : Option (Instant × Uuid)} {limit : Nat}
    {a : List Task × Bool} (hsort : filters.sortBy ≠ createdAtAsc)
    (hsearch : filters.search = none) :
    Runs machine i (listTasksCursor o filters cursor limit) w (.ok a) w' ↔
      (cursorArguments cursor).all Argument.encodes = true ∧ ∃ rest,
        rest = (ordered filters.sortBy (rowsWhere .tasks (taskCriteria o filters)
          (w.view i))).filter (fun t => cursor.all fun k => decide (keyLt (Task.feedKey t) k)) ∧
        w' = w ∧ a = (rest.take limit, decide (limit < rest.length)) := by
  let past : Task → Bool := fun t => cursor.all fun k => decide (keyLt (Task.feedKey t) k)
  let found := rowsWhere .tasks (fun t => taskCriteria o filters t && past t) (w.view i)
  have hnodup : ((rowsWhere .tasks (taskCriteria o filters) (w.view i)).map Task.feedKey).Nodup :=
    feedKeys_nodup (t := .tasks) (fun _ => rfl) _ _
  have hfound : found = (rowsWhere .tasks (taskCriteria o filters) (w.view i)).filter past := by
    rw [rowsWhere, List.filter_filter]
    exact List.filter_congr fun t _ => Bool.and_comm _ _
  have hkeys : (found.map Task.feedKey).Nodup :=
    hnodup.sublist (hfound ▸ List.filter_sublist.map Task.feedKey)
  have hrest : ordered filters.sortBy found = (ordered filters.sortBy (rowsWhere .tasks
      (taskCriteria o filters) (w.view i))).filter past := by
    refine ordered_eq hkeys ((ordered_pairwise _ hnodup).filter _) fun t => ?_
    rw [hfound, List.mem_filter, List.mem_filter, (ordered_perm _ _).mem_iff]
  have hcut : ∀ rest : List Task, ((rest.take (limit + 1)).take limit,
      decide (limit < (rest.take (limit + 1)).length)) =
        (rest.take limit, decide (limit < rest.length)) := by
    intro rest
    rw [List.take_take, Nat.min_eq_left (Nat.le_succ limit), List.length_take]
    congr 2
    simp only [Nat.lt_min, eq_iff_iff]
    omega
  have hsorted : ∀ rows : List Task, (rows.insertionSort fun a b =>
      keyLe (Task.feedKey b) (Task.feedKey a)) = ordered filters.sortBy rows := fun rows => by
    rw [ordered, if_neg hsort]
  have harguments : filters.arguments.all Argument.encodes = true := by
    rw [TaskFilterParams.arguments, hsearch]
    rfl
  constructor
  · intro h
    obtain ⟨rows, v, hread, hanswer⟩ := runs_bind_answer.mp h
    obtain ⟨hencodes, rfl, hrows⟩ := runs_arguments_answer.mp hread
    obtain ⟨ha, rfl⟩ := runs_pure.mp hanswer
    rw [List.all_append, harguments, Bool.true_and] at hencodes
    refine ⟨hencodes, _, rfl, rfl, (Except.ok.inj ha).trans ?_⟩
    rw [hsorted, ordered_congr filters.sortBy ((hrows.map _).nodup_iff.mpr hkeys) hrows,
      hcut, hrest]
  · rintro ⟨hencodes, rest, rfl, rfl, rfl⟩
    refine runs_bind_answer.mpr ⟨found, _, runs_arguments_answer.mpr
      ⟨by rw [List.all_append, harguments, hencodes]; rfl, rfl, .refl _⟩, ?_⟩
    refine runs_pure.mpr ⟨congrArg Except.ok ?_, rfl⟩
    rw [hsorted, hcut, hrest]

end

/-- The database takes the arguments of page `k`: those of the filters, the offset and the
limit. -/
def TakesPage (arguments : List Argument) (size : PageSize) (k : Nat) : Prop :=
  (arguments ++ [Argument.bigint ((k - 1) * size.val : Nat), Argument.bigint size.val]).all
    Argument.encodes = true

instance (arguments : List Argument) (size : PageSize) (k : Nat) :
    Decidable (TakesPage arguments size k) := inferInstanceAs (Decidable (_ = true))

theorem takesPage_iff {arguments : List Argument} {size : PageSize} {k : Nat} :
    TakesPage arguments size k ↔ arguments.all Argument.encodes = true ∧
      (k - 1) * size.val ≤ 9223372036854775807 := by
  have hsize := size.le
  simp only [TakesPage, List.all_append, List.all_cons, List.all_nil, Argument.encodes, int8,
    Bool.and_eq_true, decide_eq_true_eq, and_true]
  refine and_congr_right fun _ => ?_
  omega

theorem TakesPage.earlier {arguments : List Argument} {size : PageSize} {k m : Nat}
    (h : TakesPage arguments size m) (hk : k ≤ m) : TakesPage arguments size k := by
  rw [takesPage_iff] at h ⊢
  have hle : (k - 1) * size.val ≤ (m - 1) * size.val := Nat.mul_le_mul_right _ (by omega)
  exact ⟨h.1, hle.trans h.2⟩

section

variable [Library] {o : Uuid}

structure TaskListing where
  projectId : Option Uuid
  status : Option TaskStatus
  priority : Option TaskPriority
  assigneeId : Option Uuid
  search : Option Str

namespace TaskListing

def filters (q : TaskListing) (sortBy : Str) : TaskFilterParams :=
  ⟨q.projectId, q.status, q.priority, q.assigneeId, none, q.search, sortBy⟩

def Found (search : Str) (t : Task) : Prop :=
  ilike (searchPattern search) t.title = true ∨
    ∃ d ∈ t.description, ilike (searchPattern search) d = true

structure Admits (q : TaskListing) (o : Uuid) (t : Task) : Prop where
  organization : t.organizationId = o
  live : t.isDeleted = false
  project : ∀ p ∈ q.projectId, t.projectId = p
  status : ∀ s ∈ q.status, t.status = s
  priority : ∀ p ∈ q.priority, t.priority = p
  assignee : ∀ u ∈ q.assigneeId, t.assigneeId = some u
  search : ∀ s ∈ q.search, s ≠ [] → Found s t

/-- `list_tasks_offset` answers page `k` with `r` when the tasks are those of `db`. -/
def Answers (q : TaskListing) (db : Db) (o : Uuid) (sortBy : Str) (size : PageSize) (k : Nat)
    (r : OffsetPageResponse TaskResponse) : Prop :=
  ∃ (i : Nat) (w w' : World) (ctx : TenantContext) (page : Page), ctx.organizationId = o ∧
    page.val = k ∧ (w.view i).rows .tasks = db.rows .tasks ∧
    Runs machine i (Endpoints.listTasksOffset ctx q.projectId q.status q.priority q.assigneeId
      q.search sortBy page size) w (.ok r) w'

def Takes (q : TaskListing) (size : PageSize) (k : Nat) : Prop :=
  TakesPage (q.filters []).arguments size k

def tasks (q : TaskListing) (db : Db) (o : Uuid) (sortBy : Str) : List Task :=
  ordered sortBy (rowsWhere .tasks (taskCriteria o (q.filters sortBy)) db)

def page (q : TaskListing) (db : Db) (o : Uuid) (sortBy : Str) (size : PageSize) (k : Nat) :
    OffsetPageResponse TaskResponse :=
  ⟨(Paging.page size.val k (q.tasks db o sortBy)).map .ofTask, (q.tasks db o sortBy).length, k,
    size.val, Paging.count size.val (q.tasks db o sortBy).length⟩

end TaskListing

omit [Library] in
theorem matchesFilter_iff {α : Type} [DecidableEq α] {filter value : Option α} :
    matchesFilter filter value = true ↔ ∀ x ∈ filter, value = some x := by
  cases filter with
  | none => simp [matchesFilter]
  | some x => simp [matchesFilter]

theorem taskCriteria_iff {q : TaskListing} {sortBy : Str} {t : Task} :
    taskCriteria o (q.filters sortBy) t = true ↔ q.Admits o t := by
  simp only [taskCriteria, TaskListing.filters, Bool.and_eq_true, Bool.not_eq_true',
    decide_eq_true_eq, matchesFilter_iff, Option.some.injEq]
  constructor
  · rintro ⟨⟨⟨⟨⟨⟨⟨ho, hl⟩, hp⟩, hs⟩, hr⟩, ha⟩, -⟩, hfound⟩
    refine ⟨ho, hl, hp, hs, hr, ha, fun s hsearch hne => ?_⟩
    rw [Option.mem_def.mp hsearch] at hfound
    simpa [hne, TaskListing.Found, Option.any_eq_true] using hfound
  · intro h
    refine ⟨⟨⟨⟨⟨⟨⟨h.organization, h.live⟩, h.project⟩, h.status⟩, h.priority⟩, h.assignee⟩,
      fun _ he => by cases he⟩, ?_⟩
    cases hsearch : q.search with
    | none => rfl
    | some s =>
      by_cases hne : s = []
      · simp [hne]
      · simpa [hne, TaskListing.Found, Option.any_eq_true] using h.search s hsearch hne

section

variable {db : Db} {q : TaskListing} {sortBy : Str} {size : PageSize} {k : Nat}
  {r : OffsetPageResponse TaskResponse}

theorem TaskListing.nodup_keys (q : TaskListing) (sortBy : Str) :
    ((rowsWhere .tasks (taskCriteria o (q.filters sortBy)) db).map Task.feedKey).Nodup :=
  feedKeys_nodup (t := .tasks) (fun _ => rfl) _ db

theorem TaskListing.mem_tasks {t : Task} :
    t ∈ q.tasks db o sortBy ↔ t ∈ db.rows .tasks ∧ q.Admits o t := by
  rw [tasks, (ordered_perm _ _).mem_iff, mem_rowsWhere, taskCriteria_iff]

omit [Library] in
theorem rowsWhere_congr {t : Table} {db' : Db} (h : db.rows t = db'.rows t) (p : t.Row → Bool) :
    rowsWhere t p db = rowsWhere t p db' := by
  rw [rowsWhere, rowsWhere, h]

def showing (db : Db) : World := ⟨db, [], .empty, 0, [], .empty, noFaults, []⟩

def member (o : Uuid) : TenantContext := ⟨⟨o, [], [], [], none, true, true, 0, 0⟩, o, .viewer⟩

/-- The page is determined, and there is one when the database takes the arguments. -/
theorem TaskListing.answers_iff :
    q.Answers db o sortBy size k r ↔ 1 ≤ k ∧
      q.Takes size k ∧ r = q.page db o sortBy size k := by
  constructor
  · rintro ⟨i, w, w', ctx, page, rfl, rfl, hrows, hrun⟩
    obtain ⟨a, v, hlist, hanswer⟩ := runs_bind_answer.mp hrun
    obtain ⟨harguments, rfl, rfl⟩ := runs_listTasksOffset.mp hlist
    obtain ⟨hr, -⟩ := runs_pure.mp hanswer
    refine ⟨page.ge, harguments, (Except.ok.inj hr).trans ?_⟩
    rw [TaskListing.page, TaskListing.tasks, (ordered_perm _ _).length_eq,
      ← rowsWhere_congr hrows]
    rfl
  · rintro ⟨hk, harguments, rfl⟩
    have hrun : ∀ ctx : TenantContext, ctx.organizationId = o →
        Runs machine 0 (Endpoints.listTasksOffset ctx q.projectId q.status q.priority q.assigneeId
          q.search sortBy ⟨k, hk⟩ size) (showing db) (.ok (q.page db o sortBy size k))
          (showing db) := by
      rintro ctx rfl
      refine runs_bind_answer.mpr ⟨_, _, runs_listTasksOffset.mpr ⟨harguments, rfl, rfl⟩,
        runs_pure.mpr ⟨congrArg Except.ok ?_, rfl⟩⟩
      rw [TaskListing.page, TaskListing.tasks, (ordered_perm _ _).length_eq]
      rfl
    exact ⟨0, _, _, member o, ⟨k, hk⟩, rfl, rfl, rfl, hrun _ rfl⟩

def allItems (pages : Nat → OffsetPageResponse TaskResponse) : List TaskResponse :=
  (List.range (pages 1).totalPages).flatMap fun k => (pages (k + 1)).items

/-- The pages that are answered: the first, all up to the last, and maybe later ones. -/
structure TaskListing.Answered (q : TaskListing) (db : Db) (o : Uuid) (sortBy : Str)
    (size : PageSize) (asked : Set Nat) (pages : Nat → OffsetPageResponse TaskResponse) :
    Prop where
  answers : ∀ k ∈ asked, q.Answers db o sortBy size k (pages k)
  first : 1 ∈ asked
  all : ∀ k, 1 ≤ k → k ≤ (pages 1).totalPages → k ∈ asked

/-- The pages are a partition of the tasks that are to be listed. -/
structure Partitions (db : Db) (admits : Task → Prop) (size : Nat) (asked : Set Nat)
    (pages : Nat → OffsetPageResponse TaskResponse) : Prop where
  total : ∀ k ∈ asked, (pages k).total = (allItems pages).length
  totalPages : ∀ k ∈ asked, (pages k).totalPages = (pages 1).totalPages
  nonempty : ∀ k, 1 ≤ k → k ≤ (pages 1).totalPages → (pages k).items ≠ []
  full : ∀ k, 1 ≤ k → k < (pages 1).totalPages → (pages k).items.length = size
  later : ∀ k ∈ asked, (pages 1).totalPages < k → (pages k).items = []
  listed : ∀ x, x ∈ allItems pages ↔ ∃ t ∈ db.rows .tasks, admits t ∧ x = .ofTask t
  once : ((allItems pages).map TaskResponse.id).Nodup

namespace TaskListing

variable {asked : Set Nat} {pages : Nat → OffsetPageResponse TaskResponse}

theorem Answered.page_eq (h : q.Answered db o sortBy size asked pages) (hk : k ∈ asked) :
    1 ≤ k ∧ pages k = q.page db o sortBy size k :=
  ⟨(answers_iff.mp (h.answers k hk)).1, (answers_iff.mp (h.answers k hk)).2.2⟩

theorem Answered.totalPages_eq (h : q.Answered db o sortBy size asked pages) :
    (pages 1).totalPages = Paging.count size.val (q.tasks db o sortBy).length := by
  rw [(h.page_eq h.first).2, page]

theorem allItems_eq (h : q.Answered db o sortBy size asked pages) :
    allItems pages = (q.tasks db o sortBy).map .ofTask := by
  conv_rhs => rw [← Paging.pages_eq size.ge (q.tasks db o sortBy), Paging.pages, List.map_flatMap]
  rw [allItems, h.totalPages_eq]
  refine List.flatMap_congr fun k hk => ?_
  have hlast : k + 1 ≤ (pages 1).totalPages := by
    rw [h.totalPages_eq]
    exact List.mem_range.mp hk
  rw [(h.page_eq (h.all (k + 1) (Nat.le_add_left 1 k) hlast)).2, page]

theorem partitions (h : q.Answered db o sortBy size asked pages) :
    Partitions db (q.Admits o) size.val asked pages := by
  have hcount := h.totalPages_eq
  have hitems := allItems_eq h
  constructor
  case total =>
    intro k hk
    rw [(h.page_eq hk).2, hitems, List.length_map, page]
  case totalPages =>
    intro k hk
    rw [(h.page_eq hk).2, hcount, page]
  case nonempty =>
    intro k hk hle
    obtain ⟨m, rfl⟩ : ∃ m, k = m + 1 := ⟨k - 1, by omega⟩
    rw [(h.page_eq (h.all _ hk hle)).2, page]
    exact mt List.map_eq_nil_iff.mp (Paging.page_ne_nil size.ge (hcount ▸ hle))
  case full =>
    intro k hk hlt
    obtain ⟨m, rfl⟩ : ∃ m, k = m + 1 := ⟨k - 1, by omega⟩
    rw [(h.page_eq (h.all _ hk hlt.le)).2, page, List.length_map]
    exact Paging.page_full size.ge (hcount ▸ hlt)
  case later =>
    intro k hk hlt
    obtain ⟨m, rfl⟩ : ∃ m, k = m + 1 := ⟨k - 1, by omega⟩
    rw [(h.page_eq hk).2, page]
    exact List.map_eq_nil_iff.mpr (Paging.page_eq_nil size.ge (Nat.lt_succ_iff.mp (hcount ▸ hlt)))
  case listed =>
    intro x
    simp only [hitems, List.mem_map, mem_tasks, and_assoc]
    exact exists_congr fun t => and_congr_right fun _ => and_congr_right fun _ => eq_comm
  case once =>
    have hids : ((q.tasks db o sortBy).map Task.id).Nodup :=
      (((ordered_perm _ _).map Task.id).nodup_iff).mpr
        ((db.rows .tasks).nodup.sublist (List.Sublist.map _ List.filter_sublist))
    rw [hitems, List.map_map]
    exact hids

theorem tasks_reverse (hsort : sortBy ≠ createdAtAsc) :
    q.tasks db o createdAtAsc = (q.tasks db o sortBy).reverse :=
  ordered_reverse hsort (q.nodup_keys sortBy)

end TaskListing

end

section

variable {db : Db} {projectId : Option Uuid} {status : Option TaskStatus} {limit : PageSize}

def FeedAnswers (db : Db) (o : Uuid) (projectId : Option Uuid) (status : Option TaskStatus)
    (cursor : Option Str) (limit : PageSize) (r : CursorPageResponse TaskResponse) : Prop :=
  ∃ (i : Nat) (w w' : World) (ctx : TenantContext), ctx.organizationId = o ∧
    (w.view i).rows .tasks = db.rows .tasks ∧
    Runs machine i (Endpoints.listTasksFeed ctx projectId status cursor limit) w (.ok r) w'

/-- A walk through the feed to its end: each page is asked for with the cursor of the one
before, and with any limit. -/
inductive FeedPages (db : Db) (o : Uuid) (projectId : Option Uuid) (status : Option TaskStatus) :
    Option Str → List (CursorPageResponse TaskResponse) → Prop
  | last {cursor : Option Str} {limit : PageSize} {page : CursorPageResponse TaskResponse}
      (hpage : FeedAnswers db o projectId status cursor limit page)
      (hnext : page.nextCursor = none) : FeedPages db o projectId status cursor [page]
  | more {cursor : Option Str} {limit : PageSize} {page : CursorPageResponse TaskResponse}
      {next : Str} {rest : List (CursorPageResponse TaskResponse)}
      (hpage : FeedAnswers db o projectId status cursor limit page)
      (hnext : page.nextCursor = some next)
      (hrest : FeedPages db o projectId status (some next) rest) :
      FeedPages db o projectId status cursor (page :: rest)

def feedTasks (db : Db) (o : Uuid) (projectId : Option Uuid) (status : Option TaskStatus) :
    List Task :=
  TaskListing.tasks ⟨projectId, status, none, none, none⟩ db o "created_at:desc".toList

omit [Library] in
theorem desc_ne : "created_at:desc".toList ≠ createdAtAsc := by decide

def feedPage (limit : PageSize) (rest : List Task) : CursorPageResponse TaskResponse :=
  ⟨(rest.take limit.val).map .ofTask,
    if limit.val < rest.length then
      (rest.take limit.val).getLast?.map fun t => encodeCursor t.createdAt t.id
    else none,
    limit.val < rest.length⟩

theorem feedAnswers_iff {cursor : Option Str} {r : CursorPageResponse TaskResponse} :
    FeedAnswers db o projectId status cursor limit r ↔
      (cursorArguments (cursorData cursor)).all Argument.encodes = true ∧
      r = feedPage limit ((feedTasks db o projectId status).filter fun t =>
        (cursorData cursor).all fun k => decide (keyLt (Task.feedKey t) k)) := by
  have hpage : ∀ rest : List Task, (⟨(rest.take limit.val).map .ofTask,
      if decide (limit.val < rest.length) = true then
        (rest.take limit.val).getLast?.map fun t => encodeCursor t.createdAt t.id else none,
      decide (limit.val < rest.length)⟩ : CursorPageResponse TaskResponse) =
        feedPage limit rest := by
    intro rest
    simp only [feedPage, decide_eq_true_eq]
  constructor
  · rintro ⟨i, w, w', ctx, rfl, hrows, hrun⟩
    obtain ⟨a, v, hlist, hanswer⟩ := runs_bind_answer.mp hrun
    obtain ⟨harguments, rest, hrest, rfl, rfl⟩ := (runs_listTasksCursor desc_ne rfl).mp hlist
    obtain ⟨hr, -⟩ := runs_pure.mp hanswer
    refine ⟨harguments, ?_⟩
    rw [Except.ok.inj hr, feedTasks, TaskListing.tasks, ← rowsWhere_congr hrows]
    exact (hpage rest).trans (congrArg _ hrest)
  · rintro ⟨harguments, rfl⟩
    exact ⟨0, showing db, showing db, member o, rfl, rfl, runs_bind_answer.mpr ⟨_, _,
      (runs_listTasksCursor desc_ne rfl).mpr ⟨harguments, _, rfl, rfl, rfl⟩,
      runs_pure.mpr ⟨congrArg Except.ok (hpage _).symm, rfl⟩⟩⟩

theorem feed_past {s t : List Task} (hall : s ++ t = feedTasks db o projectId status)
    {cursor : Option Str} (hcursor : cursorData cursor = s.getLast?.map Task.feedKey) :
    ((feedTasks db o projectId status).filter fun x =>
      (cursorData cursor).all fun k => decide (keyLt (Task.feedKey x) k)) = t := by
  rw [hcursor, ← hall]
  cases hs : s.getLast? with
  | none =>
    rw [List.getLast?_eq_none_iff.mp hs]
    exact List.filter_eq_self.mpr fun _ _ => rfl
  | some x =>
    have hsorted : (feedTasks db o projectId status).Pairwise
        (taskBefore "created_at:desc".toList) :=
      ordered_pairwise _ (TaskListing.nodup_keys ⟨projectId, status, none, none, none⟩ _)
    refine Keyset.filter_past (r := taskBefore "created_at:desc".toList) (hall ▸ hsorted) hs ?_
    intro y
    rw [taskBefore, if_neg desc_ne]
    exact decide_eq_true_iff

/-- The database takes the cursor behind tasks whose times a datetime holds. -/
theorem feed_takes {s t : List Task}
    (htimes : ∀ x ∈ feedTasks db o projectId status, Representable x.createdAt)
    (hall : s ++ t = feedTasks db o projectId status)
    {cursor : Option Str} (hcursor : cursorData cursor = s.getLast?.map Task.feedKey) :
    (cursorArguments (cursorData cursor)).all Argument.encodes = true := by
  rw [hcursor]
  cases hs : s.getLast? with
  | none => rfl
  | some x =>
    have hx : x ∈ feedTasks db o projectId status :=
      hall ▸ List.mem_append_left t (List.mem_of_getLast? hs)
    exact List.all_eq_true.mpr fun a ha => by
      obtain rfl := List.mem_singleton.mp ha
      exact decide_eq_true (htimes x hx)

variable (laws : CursorTexts)

include laws

theorem feed_next {s t : List Task} (hmore : limit.val < t.length) {next : Str}
    (htimes : ∀ x ∈ t.take limit.val, Representable x.createdAt)
    (hnext : (feedPage limit t).nextCursor = some next) :
    cursorData (some next) = (s ++ t.take limit.val).getLast?.map Task.feedKey := by
  rw [feedPage, if_pos hmore] at hnext
  obtain ⟨x, hx, rfl⟩ := Option.map_eq_some_iff.mp hnext
  have htime := htimes x (List.mem_of_getLast? hx)
  refine (cursorData_encodeCursor laws htime x.id).trans ?_
  rw [List.getLast?_append, hx]
  rfl

omit laws in
theorem FeedPages.times {cursor : Option Str} {walk : List (CursorPageResponse TaskResponse)}
    (h : FeedPages db o projectId status cursor walk)
    (htimes : ∀ t ∈ feedTasks db o projectId status, Representable t.createdAt) :
    ∀ page ∈ walk, ∀ x ∈ page.items, Representable x.createdAt := by
  have hpage : ∀ {cursor : Option Str} {limit : PageSize} {page : CursorPageResponse TaskResponse},
      FeedAnswers db o projectId status cursor limit page →
        ∀ x ∈ page.items, Representable x.createdAt := by
    intro cursor limit page hpage x hx
    obtain ⟨-, rfl⟩ := feedAnswers_iff.mp hpage
    obtain ⟨t, ht, rfl⟩ := List.mem_map.mp hx
    exact htimes t (List.mem_of_mem_filter (List.mem_of_mem_take ht))
  induction h with
  | last hfirst hnext => exact List.forall_mem_singleton.mpr (hpage hfirst)
  | more hfirst hnext hrest ih => exact List.forall_mem_cons.mpr ⟨hpage hfirst, ih⟩

theorem FeedPages.items {cursor : Option Str} {walk : List (CursorPageResponse TaskResponse)}
    (h : FeedPages db o projectId status cursor walk)
    (htimes : ∀ page ∈ walk, ∀ x ∈ page.items, Representable x.createdAt) {s t : List Task}
    (hall : s ++ t = feedTasks db o projectId status)
    (hcursor : cursorData cursor = s.getLast?.map Task.feedKey) :
    (walk.flatMap fun page => page.items) = t.map .ofTask := by
  induction h generalizing s t with
  | @last cursor limit page hpage hnext =>
    rw [feedAnswers_iff, feed_past hall hcursor] at hpage
    obtain ⟨-, rfl⟩ := hpage
    have hend : ¬ limit.val < t.length := by
      intro hmore
      rw [feedPage, if_pos hmore, Option.map_eq_none_iff, List.getLast?_eq_none_iff,
        List.take_eq_nil_iff] at hnext
      have hpos := limit.ge
      rcases hnext with hzero | rfl
      · omega
      · simp at hmore
    rw [List.flatMap_singleton, feedPage, List.take_of_length_le (by omega)]
  | @more cursor limit page next rest hpage hnext hrest ih =>
    rw [feedAnswers_iff, feed_past hall hcursor] at hpage
    obtain ⟨-, rfl⟩ := hpage
    have hmore : limit.val < t.length := by
      by_contra hend
      rw [feedPage, if_neg hend] at hnext
      cases hnext
    have hsplit : (s ++ t.take limit.val) ++ t.drop limit.val =
        feedTasks db o projectId status := by
      rw [List.append_assoc, List.take_append_drop, hall]
    obtain ⟨hfirst, hlater⟩ := List.forall_mem_cons.mp htimes
    have hnow : ∀ x ∈ t.take limit.val, Representable x.createdAt := fun x hx =>
      hfirst _ (List.mem_map_of_mem hx)
    rw [List.flatMap_cons, ih hlater hsplit (feed_next laws hmore hnow hnext), feedPage,
      ← List.map_append, List.take_append_drop]

/-- Every limit leads to the end. -/
theorem feedPages_exists (limit : PageSize) {cursor : Option Str} {s t : List Task}
    (htimes : ∀ x ∈ feedTasks db o projectId status, Representable x.createdAt)
    (hall : s ++ t = feedTasks db o projectId status)
    (hcursor : cursorData cursor = s.getLast?.map Task.feedKey) :
    ∃ walk, FeedPages db o projectId status cursor walk := by
  induction hn : t.length using Nat.strong_induction_on generalizing cursor s t with
  | _ n ih =>
    have hpage : FeedAnswers db o projectId status cursor limit (feedPage limit t) := by
      rw [feedAnswers_iff, feed_past hall hcursor]
      exact ⟨feed_takes htimes hall hcursor, rfl⟩
    have hnow : ∀ x ∈ t.take limit.val, Representable x.createdAt := fun x hx =>
      htimes x (hall ▸ List.mem_append_right s (List.mem_of_mem_take hx))
    have hpos := limit.ge
    cases hnext : (feedPage limit t).nextCursor with
    | none => exact ⟨_, .last hpage hnext⟩
    | some next =>
      have hmore : limit.val < t.length := by
        by_contra hend
        rw [feedPage, if_neg hend] at hnext
        cases hnext
      have hsplit : (s ++ t.take limit.val) ++ t.drop limit.val =
          feedTasks db o projectId status := by
        rw [List.append_assoc, List.take_append_drop, hall]
      obtain ⟨rest, hrest⟩ := ih _ (by rw [List.length_drop]; omega) hsplit
        (feed_next laws hmore hnow hnext) rfl
      exact ⟨_, .more hpage hnext hrest⟩

end

/-- The pages are a partition in either order, one order is the reverse of the other, and the
feed shows what the pages show. The timestamps of the feed are those that a datetime holds. -/
theorem offset_pages (laws : CursorTexts) {db : Db} {q : TaskListing} {size : PageSize}
    {sortBy : Str} {asked asked' : Set Nat}
    {pages earliest : Nat → OffsetPageResponse TaskResponse} (hsort : sortBy ≠ createdAtAsc)
    (hpages : q.Answered db o sortBy size asked pages)
    (hearliest : q.Answered db o createdAtAsc size asked' earliest) :
    Partitions db (q.Admits o) size.val asked pages ∧
      Partitions db (q.Admits o) size.val asked' earliest ∧
      allItems earliest = (allItems pages).reverse ∧
      (q.priority = none → q.assigneeId = none → q.search = none →
        ∀ walk, FeedPages db o q.projectId q.status none walk →
          (∀ page ∈ walk, ∀ x ∈ page.items, Representable x.createdAt) →
          (walk.flatMap fun page => page.items) = allItems pages) := by
  refine ⟨TaskListing.partitions hpages, TaskListing.partitions hearliest, ?_, ?_⟩
  · rw [TaskListing.allItems_eq hpages, TaskListing.allItems_eq hearliest,
      TaskListing.tasks_reverse hsort, List.map_reverse]
  · intro hpriority hassignee hsearch walk hwalk htimes
    have hq : q = ⟨q.projectId, q.status, none, none, none⟩ := by
      rw [← hpriority, ← hassignee, ← hsearch]
    have htasks : q.tasks db o sortBy = feedTasks db o q.projectId q.status := by
      rw [← List.reverse_inj, ← TaskListing.tasks_reverse hsort, feedTasks,
        ← TaskListing.tasks_reverse desc_ne, ← hq]
    rw [TaskListing.allItems_eq hpages, htasks]
    exact hwalk.items laws htimes (s := []) (List.nil_append _) rfl

end

section

open scoped Cursors

def everyTask : TaskListing := ⟨none, none, none, none, none⟩

def twoTaskPages (sortBy : Str) (k : Nat) : OffsetPageResponse TaskResponse :=
  everyTask.page beforeFirstPage.state.db (drawnId 4) sortBy .single k

theorem offset_pages_twoTasks :
    Partitions beforeFirstPage.state.db (everyTask.Admits (drawnId 4)) 1 {1, 2, 3}
        (twoTaskPages "created_at:desc".toList) ∧
      (twoTaskPages "created_at:desc".toList 1).totalPages = 2 ∧
      allItems (twoTaskPages createdAtAsc) =
        (allItems (twoTaskPages "created_at:desc".toList)).reverse ∧
      ∃ walk, FeedPages beforeFirstPage.state.db (drawnId 4) none none none walk ∧
        (walk.flatMap fun page => page.items) =
          allItems (twoTaskPages "created_at:desc".toList) := by
  have hpages : ∀ sortBy, (twoTaskPages sortBy 1).totalPages = 2 →
      everyTask.Answered beforeFirstPage.state.db (drawnId 4) sortBy ⟨1, by decide, by decide⟩
        {1, 2, 3} (twoTaskPages sortBy) := by
    intro sortBy htotal
    refine ⟨?_, by simp, fun k hk hle => ?_⟩
    · rintro k (rfl | rfl | rfl) <;> exact TaskListing.answers_iff.mpr
        ⟨by decide, by unfold TaskListing.Takes; decide, rfl⟩
    · have hk' : k = 1 ∨ k = 2 := by omega
      rcases hk' with rfl | rfl <;> simp
  have htimes : ∀ t ∈ feedTasks beforeFirstPage.state.db (drawnId 4) none none,
      Representable t.createdAt := by unfold Representable; decide +kernel
  have hfirst : cursorData none = ([] : List Task).getLast?.map Task.feedKey := rfl
  obtain ⟨walk, hwalk⟩ := feedPages_exists (Pagination.cursorTexts Ascii.library)
    ⟨1, by decide, by decide⟩ htimes (List.nil_append _) hfirst
  have htotal : (twoTaskPages "created_at:desc".toList 1).totalPages = 2 := by decide +kernel
  have h := offset_pages (Pagination.cursorTexts Ascii.library) desc_ne (hpages _ htotal)
    (hpages _ (by decide +kernel))
  have hshown : ∀ page ∈ walk, ∀ x ∈ page.items, Representable x.createdAt := hwalk.times htimes
  exact ⟨h.1, htotal, h.2.2.1, walk, hwalk, h.2.2.2 rfl rfl rfl walk hwalk hshown⟩

end

end MultiTenantSaas
