import MultiTenantSaas.Cursors
import MultiTenantSaas.Keyset
import MultiTenantSaas.Readers

/-!
The task feed and the comment feed: walks from page to page while other requests
change the tables.
-/

set_option autoImplicit false

namespace MultiTenantSaas

open Process
open Calendar (Representable)

inductive Feed where
  | tasks (projectId : Option Uuid) (status : Option TaskStatus)
  | comments (taskId : Uuid)

structure FeedPage where
  keys : List (Instant × Uuid)
  nextCursor : Option Str
  hasMore : Bool
  deriving DecidableEq

def Response.feedPage : Response → Option FeedPage
  | .taskFeed page =>
    some ⟨page.items.map fun t => (t.createdAt, t.id), page.nextCursor, page.hasMore⟩
  | .commentFeed page =>
    some ⟨page.items.map fun c => (c.createdAt, c.id), page.nextCursor, page.hasMore⟩
  | _ => none

namespace Feed

def request : Feed → Option Str → PageSize → TenantRequest
  | .tasks projectId status, cursor, limit => .listTasksFeed projectId status cursor limit
  | .comments taskId, cursor, limit => .listComments taskId cursor limit

/-- The order of the pages: tasks latest first, comments earliest first. -/
def before : Feed → Instant × Uuid → Instant × Uuid → Prop
  | .tasks _ _, a, b => keyLt b a
  | .comments _, a, b => keyLt a b

def keys [Library] (o : Uuid) (db : Db) : Feed → List (Instant × Uuid)
  | .tasks projectId status =>
    (rowsWhere .tasks (taskCriteria o { projectId, status, priority := none, assigneeId := none,
                                        reporterId := none, search := none }) db).map Task.feedKey
  | .comments taskId =>
    (rowsWhere .comments (fun (c : Comment) => c.organizationId = o && c.taskId = taskId) db).map
      Comment.feedKey

end Feed

theorem keyLt_trans {a b c : Instant × Uuid} (h : keyLt a b) (h' : keyLt b c) : keyLt a c := by
  unfold keyLt at *
  grind

theorem keyLt_irrefl (a : Instant × Uuid) : ¬ keyLt a a := by simp [keyLt]

theorem keyLe_total (a b : Instant × Uuid) : keyLe a b ∨ keyLe b a := by
  unfold keyLe
  grind

theorem keyLe_trans (a b c : Instant × Uuid) (h : keyLe a b) (h' : keyLe b c) : keyLe a c := by
  unfold keyLe at *
  grind

theorem keyLt_of_le {a b : Instant × Uuid} (h : keyLe a b) (hne : a ≠ b) : keyLt a b := by
  obtain ⟨s, ⟨u⟩⟩ := a
  obtain ⟨t, ⟨v⟩⟩ := b
  simp only [keyLe, keyLt] at *
  grind

instance (feed : Feed) : IsTrans (Instant × Uuid) feed.before := by
  refine ⟨fun a b c h h' => ?_⟩
  cases feed with
  | tasks projectId status => exact keyLt_trans h' h
  | comments taskId => exact keyLt_trans h h'

theorem Feed.before_irrefl (feed : Feed) (a : Instant × Uuid) : ¬ feed.before a a := by
  cases feed <;> exact keyLt_irrefl a

/-- A page of the feed as the rows of `db` give it. -/
structure Feed.Shows [Library] (feed : Feed) (o : Uuid) (db : Db) (cursor : Option Str)
    (limit : Nat) (page : FeedPage) : Prop where
  isPage : Keyset.IsPage feed.before (feed.keys o db) (cursorData cursor) limit page.keys
    page.hasMore
  next : page.nextCursor =
    if page.hasMore then page.keys.getLast?.map fun k => encodeCursor k.1 k.2 else none

theorem feedKeys_nodup {t : Table} {key : t.Row → Instant × Uuid} (hkey : ∀ r, (key r).2 = t.id r)
    (p : t.Row → Bool) (db : Db) : ((rowsWhere t p db).map key).Nodup := by
  have hids : ((rowsWhere t p db).map t.id).Nodup :=
    (db.rows t).nodup.sublist (List.Sublist.map t.id List.filter_sublist)
  refine List.Nodup.of_map Prod.snd ?_
  rw [List.map_map]
  exact (List.map_congr_left fun r _ => hkey r) ▸ hids

theorem mem_keys_and {t : Table} {key : t.Row → Instant × Uuid} {p q : t.Row → Bool} {db : Db}
    {R : Instant × Uuid → Prop} (hq : ∀ r, q r = true ↔ p r = true ∧ R (key r))
    (k : Instant × Uuid) :
    k ∈ (rowsWhere t q db).map key ↔ k ∈ (rowsWhere t p db).map key ∧ R k := by
  simp only [List.mem_map, mem_rowsWhere, hq]
  constructor
  · rintro ⟨r, ⟨hr, hp, hR⟩, rfl⟩
    exact ⟨⟨r, ⟨hr, hp⟩, rfl⟩, hR⟩
  · rintro ⟨⟨r, ⟨hr, hp⟩, rfl⟩, hR⟩
    exact ⟨r, ⟨hr, hp, hR⟩, rfl⟩

section

variable {D : Db → Prop} {o : Uuid}

theorem finds_listCommentsCursor (taskId : Uuid) (cursor : Option (Instant × Uuid))
    (limit : Nat) :
    Finds D (listCommentsCursor o taskId cursor limit) fun answer => ∃ db, D db ∧
      Keyset.IsPage keyLt ((rowsWhere .comments (fun (c : Comment) => c.organizationId = o &&
        c.taskId = taskId) db).map Comment.feedKey) cursor limit
        (answer.1.map fun x => Comment.feedKey x.1) answer.2 := by
  refine finds_bind (finds_withArguments finds_select) fun rows ⟨db, hdb, hperm⟩ =>
    finds_pure ⟨db, hdb, ?_⟩
  have hkeys := hperm.map fun x : Comment × Option User => Comment.feedKey x.1
  rw [joinedLoad, List.map_map] at hkeys
  change List.Perm _ (List.map Comment.feedKey _) at hkeys
  refine Keyset.isPage_sort (r := keyLe) limit keyLe_total keyLe_trans
    (fun a b h hne => keyLt_of_le h hne)
    (hkeys.nodup_iff.mpr (feedKeys_nodup (t := .comments) (fun _ => rfl) _ db)) fun k => ?_
  rw [hkeys.mem_iff]
  refine mem_keys_and (t := .comments) (fun r => ?_) k
  rw [Bool.and_eq_true]
  refine and_congr_right fun _ => Keyset.all_past fun c => ?_
  exact decide_eq_true_iff

variable [Library]

theorem finds_listTasksCursor (filters : TaskFilterParams) (cursor : Option (Instant × Uuid))
    (limit : Nat) :
    Finds D (listTasksCursor o filters cursor limit) fun answer => ∃ db, D db ∧
      Keyset.IsPage (fun a b => keyLt b a)
        ((rowsWhere .tasks (taskCriteria o filters) db).map Task.feedKey) cursor limit
        (answer.1.map Task.feedKey) answer.2 := by
  refine finds_bind (finds_withArguments finds_select) fun rows ⟨db, hdb, hperm⟩ =>
    finds_pure ⟨db, hdb, ?_⟩
  have hkeys := hperm.map Task.feedKey
  refine Keyset.isPage_sort (r := fun a b => keyLe b a) limit (fun a b => keyLe_total b a)
    (fun a b c h h' => keyLe_trans c b a h' h) (fun a b h hne => keyLt_of_le h hne.symm)
    (hkeys.nodup_iff.mpr (feedKeys_nodup (t := .tasks) (fun _ => rfl) _ db)) fun k => ?_
  rw [hkeys.mem_iff]
  refine mem_keys_and (t := .tasks) (fun r => ?_) k
  rw [Bool.and_eq_true]
  refine and_congr_right fun _ => Keyset.all_past fun c => ?_
  exact decide_eq_true_iff

/-- Alone or not, a fetch shows a page of rows that were committed meanwhile. -/
theorem finds_feed {user : User} {role : OrgRole} (feed : Feed) (cursor : Option Str)
    (limit : PageSize) :
    Finds D ((feed.request cursor limit).endpoint ⟨user, o, role⟩) fun answer =>
      ∃ page db, answer.feedPage = some page ∧ D db ∧
        feed.Shows o db cursor limit.val page := by
  cases feed with
  | tasks projectId status =>
    refine finds_bind (finds_bind (finds_listTasksCursor _ _ _)
      fun ⟨items, hasMore⟩ ⟨db, hdb, hpage⟩ => finds_pure (?_ : _)) fun page h => finds_pure h
    refine ⟨_, db, rfl, hdb, ?_, ?_⟩
    · simp only [List.map_map]
      exact hpage
    · simp only [List.map_map, List.getLast?_map, Option.map_map]
      rfl
  | comments taskId =>
    refine finds_bind (finds_bind (finds_listCommentsCursor _ _ _)
      fun ⟨items, hasMore⟩ ⟨db, hdb, hpage⟩ => finds_pure (?_ : _)) fun page h => finds_pure h
    refine ⟨_, db, rfl, hdb, ?_, ?_⟩
    · simp only [List.map_map]
      exact hpage
    · simp only [List.map_map, List.getLast?_map, Option.map_map]
      rfl

/-- A fetch of a run: a request arrives in `start` and has been answered with `page`
in `stop`. -/
structure FeedFetch where
  start : AppConfig
  stop : AppConfig
  page : FeedPage

def FeedFetch.Serves (o : Uuid) (feed : Feed) (cursor : Option Str) (f : FeedFetch) : Prop :=
  ∃ i bearer limit a,
    Served f.start f.stop i (.tenant bearer o (feed.request cursor limit)) (.ok a) ∧
    a.feedPage = some f.page

/-- Fetches one after the other from `c` on, whatever runs beside and between them: the
cursor that one answers is passed to the next. -/
def FeedWalk (o : Uuid) (feed : Feed) (c : AppConfig) (cursor : Option Str) :
    List FeedFetch → Prop
  | [] => True
  | f :: fs => Reach app anySchedule c f.start ∧ f.Serves o feed cursor ∧
      (fs = [] ∨ ∃ next, f.page.nextCursor = some next ∧ FeedWalk o feed f.stop (some next) fs)

def shownKeys (fs : List FeedFetch) : List (Instant × Uuid) := fs.flatMap fun f => f.page.keys

variable {faults : Faults} {now : Instant} {c : AppConfig} {feed : Feed}

theorem FeedFetch.Serves.shows {cursor : Option Str} {f : FeedFetch}
    (h₀ : Reach app anySchedule (genesis faults now) f.start) (h : f.Serves o feed cursor) :
    ∃ db limit, Between f.start f.stop db ∧ 0 < limit ∧ feed.Shows o db cursor limit f.page := by
  obtain ⟨i, bearer, limit, a, hserved, ha⟩ := h
  obtain ⟨page, db, hpage, hdb, hshows⟩ := hserved.finds h₀
    (Q := fun answer => ∃ page db, answer.feedPage = some page ∧ Between f.start f.stop db ∧
      feed.Shows o db cursor limit.val page)
    fun D hD => (finds_handle fun user role => finds_feed feed cursor limit).mono
      fun x hx y hy => by
        obtain ⟨page, db, hp, hdb, hs⟩ := hx y hy
        exact ⟨page, db, hp, hD db hdb, hs⟩
  rw [ha, Option.some.injEq] at hpage
  subst hpage
  exact ⟨db, limit.val, hdb, limit.ge, hshows⟩

theorem Feed.Shows.next_isSome {db : Db} {cursor : Option Str} {limit : Nat} {page : FeedPage}
    (h : feed.Shows o db cursor limit page) (hlimit : 0 < limit) :
    page.nextCursor.isSome = page.hasMore := by
  rw [h.next]
  cases hm : page.hasMore with
  | false => rfl
  | true =>
    have hne : page.keys ≠ [] := by
      intro hnil
      have hlen := h.isPage.full hm
      rw [hnil, List.length_nil] at hlen
      omega
    simp [List.getLast?_eq_some_getLast hne]

theorem Feed.Shows.cursor (laws : CursorTexts) {db : Db} {cursor : Option Str} {limit : Nat}
    {page : FeedPage} {next : Str} (h : feed.Shows o db cursor limit page)
    (hkeys : ∀ k ∈ page.keys, Representable k.1) (hnext : page.nextCursor = some next) :
    page.hasMore = true ∧ cursorData (some next) = page.keys.getLast? := by
  have hn := h.next
  rw [hnext] at hn
  cases hm : page.hasMore with
  | false => simp [hm] at hn
  | true =>
    simp only [hm, if_true] at hn
    obtain ⟨k, hk, rfl⟩ := Option.map_eq_some_iff.mp hn.symm
    have hrep := hkeys k (List.mem_of_getLast? hk)
    exact ⟨rfl, (cursorData_encodeCursor laws hrep k.2).trans hk.symm⟩

theorem Feed.key_eq {db db' : Db} (he : Extends db db') {k k' : Instant × Uuid}
    (hk : k ∈ feed.keys o db) (hk' : k' ∈ feed.keys o db') (hid : k.2 = k'.2) : k = k' := by
  have hrow : ∀ (t : Table) (key : t.Row → Instant × Uuid) (r r' : t.Row),
      (∀ x, (key x).2 = t.id x) → (∀ x y, t.frozen x = t.frozen y → (key x).1 = (key y).1) →
      r ∈ db.rows t → r' ∈ db'.rows t → (key r).2 = (key r').2 → key r = key r' := by
    intro t key r r' hkey hfrozen hr hr' hid
    obtain ⟨s, hs, hf⟩ := he.mem_frozen hr
    have hsame : s = r' := Db.eq_of_id hs hr' (by rw [Table.id_of_frozen hf, ← hkey, hid, hkey])
    subst hsame
    exact Prod.ext (hfrozen _ _ hf).symm hid
  cases feed with
  | tasks projectId status =>
    obtain ⟨r, hr, rfl⟩ := List.mem_map.mp hk
    obtain ⟨r', hr', rfl⟩ := List.mem_map.mp hk'
    exact hrow .tasks Task.feedKey r r' (fun _ => rfl) (fun x y h => (congrArg Task.createdAt h :))
      (mem_rowsWhere.mp hr).1 (mem_rowsWhere.mp hr').1 hid
  | comments taskId =>
    obtain ⟨r, hr, rfl⟩ := List.mem_map.mp hk
    obtain ⟨r', hr', rfl⟩ := List.mem_map.mp hk'
    exact hrow .comments Comment.feedKey r r' (fun _ => rfl)
      (fun x y h => (congrArg Comment.createdAt h :)) (mem_rowsWhere.mp hr).1
      (mem_rowsWhere.mp hr').1 hid

abbrev FeedRead := FeedFetch × Db

/-- The rows were committed while the fetch was running, and the page shows some of them. -/
def FeedRead.Reads (o : Uuid) (feed : Feed) (x : FeedRead) : Prop :=
  Between x.1.start x.1.stop x.2 ∧ x.1.page.keys ⊆ feed.keys o x.2

def FeedRead.fetch (o : Uuid) (feed : Feed) (x : FeedRead) : Keyset.Fetch (Instant × Uuid) :=
  ⟨feed.keys o x.2, x.1.page.keys, x.1.page.hasMore⟩

theorem FeedWalk.reads (laws : CursorTexts) {cursor : Option Str} {fs : List FeedFetch}
    (h₀ : Reach app anySchedule (genesis faults now) c) (h : FeedWalk o feed c cursor fs)
    (hkeys : ∀ k ∈ shownKeys fs, Representable k.1) :
    ∃ xs : List FeedRead, xs.map Prod.fst = fs ∧ (∀ x ∈ xs, FeedRead.Reads o feed x) ∧
      (∀ x ∈ xs, Extends c.state.db x.2) ∧ xs.Pairwise (fun x y => Extends x.2 y.2) ∧
      Keyset.Walk feed.before (cursorData cursor) (xs.map (FeedRead.fetch o feed)) := by
  induction fs generalizing c cursor with
  | nil => exact ⟨[], rfl, by simp, by simp, .nil, trivial⟩
  | cons f fs ih =>
    obtain ⟨hto, hserves, hrest⟩ := h
    rw [shownKeys, List.flatMap_cons, List.forall_mem_append] at hkeys
    have hstart := h₀.trans hto
    obtain ⟨db, limit, hdb, hlimit, hshows⟩ := hserves.shows hstart
    have hread : FeedRead.Reads o feed (f, db) := ⟨hdb, fun k hk => (hshows.isPage.mem k hk).1⟩
    obtain ⟨d, hfd, hdf, rfl⟩ := hdb
    have hext : Extends c.state.db d.state.db := reached_extends h₀ (hto.trans hfd)
    rcases hrest with rfl | ⟨next, hnext, hwalk⟩
    · exact ⟨[(f, d.state.db)], rfl, by simpa using hread, by simpa using hext,
        List.pairwise_singleton _ _, ⟨limit, hlimit, hshows.isPage⟩, Or.inl rfl⟩
    · have hstop : Extends d.state.db f.stop.state.db := reached_extends (hstart.trans hfd) hdf
      obtain ⟨xs, rfl, hreads, hlater, hpairs, hkeyset⟩ :=
        ih (hstart.trans (hfd.trans hdf)) hwalk hkeys.2
      obtain ⟨hmore, hcursor⟩ := hshows.cursor laws hkeys.1 hnext
      refine ⟨(f, d.state.db) :: xs, rfl, List.forall_mem_cons.mpr ⟨hread, hreads⟩,
        List.forall_mem_cons.mpr ⟨hext, fun x hx => hext.trans (hstop.trans (hlater x hx))⟩,
        List.pairwise_cons.mpr ⟨fun x hx => hstop.trans (hlater x hx), hpairs⟩,
        ⟨limit, hlimit, hshows.isPage⟩, Or.inr ⟨hmore, hcursor ▸ hkeyset⟩⟩

theorem FeedWalk.next_isSome {cursor : Option Str} {fs : List FeedFetch}
    (h₀ : Reach app anySchedule (genesis faults now) c) (h : FeedWalk o feed c cursor fs) :
    ∀ f ∈ fs, f.page.nextCursor.isSome = f.page.hasMore := by
  induction fs generalizing c cursor with
  | nil => simp
  | cons f fs ih =>
    obtain ⟨hto, hserves, hrest⟩ := h
    obtain ⟨db, limit, ⟨d, hfd, hdf, -⟩, hlimit, hshows⟩ := hserves.shows (h₀.trans hto)
    refine List.forall_mem_cons.mpr ⟨hshows.next_isSome hlimit, ?_⟩
    rcases hrest with rfl | ⟨next, -, hwalk⟩
    · simp
    · exact ih (h₀.trans (hto.trans (hfd.trans hdf))) hwalk

theorem FeedRead.key_eq {xs : List FeedRead} (hpairs : xs.Pairwise fun x y => Extends x.2 y.2) :
    ∀ x ∈ xs, ∀ y ∈ xs, ∀ k ∈ feed.keys o x.2, ∀ k' ∈ feed.keys o y.2, k.2 = k'.2 → k = k' := by
  have h := List.Pairwise.forall_of_forall_of_flip (l := xs)
    (R := fun x y => ∀ k ∈ feed.keys o x.2, ∀ k' ∈ feed.keys o y.2, k.2 = k'.2 → k = k')
    (fun x _ k hk k' hk' => Feed.key_eq (Extends.refl _) hk hk')
    (hpairs.imp fun he k hk k' hk' => Feed.key_eq he hk hk')
    (hpairs.imp fun he k hk k' hk' hid => (Feed.key_eq he hk' hk hid.symm).symm)
  exact fun x hx y hy => h hx hy

/-- A walk from page to page shows the items in order, none of them twice, and when it
has come to an end, each one that met the filter at every fetch. The timestamps of the items
are those that a datetime holds. -/
theorem feed_walk (laws : CursorTexts) (h₀ : Reach app anySchedule (genesis faults now) c)
    {fs : List FeedFetch} (h : FeedWalk o feed c none fs)
    (hkeys : ∀ k ∈ shownKeys fs, Representable k.1) :
    (shownKeys fs).Pairwise feed.before ∧ ((shownKeys fs).map Prod.snd).Nodup ∧
    (∀ f ∈ fs, f.page.nextCursor.isSome = f.page.hasMore) ∧
    ∃ xs : List FeedRead, xs.map Prod.fst = fs ∧ (∀ x ∈ xs, FeedRead.Reads o feed x) ∧
      ∀ last ∈ fs.getLast?, last.page.hasMore = false →
        ∀ id, (∀ x ∈ xs, id ∈ (feed.keys o x.2).map Prod.snd) →
          ((shownKeys fs).map Prod.snd).count id = 1 := by
  obtain ⟨xs, rfl, hreads, -, hpairs, hwalk⟩ := h.reads laws h₀ hkeys
  have hshown : Keyset.shown (xs.map (FeedRead.fetch o feed)) = shownKeys (xs.map Prod.fst) := by
    simp [Keyset.shown, shownKeys, List.flatMap_map, FeedRead.fetch]
  have hsorted := hwalk.sorted
  rw [hshown] at hsorted
  have hfrom : ∀ k ∈ shownKeys (xs.map Prod.fst), ∃ x ∈ xs, k ∈ feed.keys o x.2 := by
    intro k hk
    obtain ⟨f, hf, hkf⟩ := List.mem_flatMap.mp hk
    obtain ⟨x, hx, rfl⟩ := List.mem_map.mp hf
    exact ⟨x, hx, (hreads x hx).2 hkf⟩
  have hids : ((shownKeys (xs.map Prod.fst)).map Prod.snd).Nodup := by
    refine List.Pairwise.map _ (R := fun k k' => k.2 ≠ k'.2) (fun _ _ hne => hne) ?_
    refine hsorted.imp_of_mem fun {k k'} hk hk' hb hid => ?_
    obtain ⟨x, hx, hkx⟩ := hfrom k hk
    obtain ⟨y, hy, hky⟩ := hfrom k' hk'
    rw [FeedRead.key_eq hpairs x hx y hy k hkx k' hky hid] at hb
    exact feed.before_irrefl _ hb
  refine ⟨hsorted, hids, h.next_isSome h₀, xs, rfl, hreads, fun last hlast hend id hid => ?_⟩
  refine List.count_eq_one_of_mem hids ?_
  rw [List.getLast?_map, Option.mem_map] at hlast
  obtain ⟨x, hx, rfl⟩ := hlast
  obtain ⟨k, hk, rfl⟩ := List.mem_map.mp (hid x (List.mem_of_getLast? hx))
  refine List.mem_map_of_mem (hshown ▸ hwalk.complete ?_ ?_ (fun _ hc => by cases hc) ?_)
  · intro g hg
    rw [List.getLast?_map, Option.mem_map] at hg
    obtain ⟨y, hy, rfl⟩ := hg
    cases Option.mem_unique hx hy
    exact hend
  · intro hnil
    rw [List.map_eq_nil_iff] at hnil
    rw [hnil] at hx
    cases hx
  · intro g hg
    obtain ⟨y, hy, rfl⟩ := List.mem_map.mp hg
    obtain ⟨k', hk', heq⟩ := List.mem_map.mp (hid y hy)
    exact FeedRead.key_eq hpairs y hy x (List.mem_of_getLast? hx) k' hk' k hk heq ▸ hk'

end

namespace Cursors

scoped instance library : Library := Pagination.formats Ascii.library

end Cursors

section

open scoped Cursors

def firstCursor : Str := encodeCursor 0 (drawnId 19)

def twoTasks : List AppMove := annsProject ++ solo 3 (asAnn apolloTask) ++ solo 4 (asAnn apolloTask)

def twoTasksFeed (cursor : Option Str) : Request :=
  asAnn (.listTasksFeed none none cursor .single)

def beforeFirstPage : AppConfig := runMoves (genesis noFaults 0) twoTasks

def afterFirstPage : AppConfig := runMoves beforeFirstPage (solo 5 (twoTasksFeed none))

def afterLastPage : AppConfig :=
  runMoves afterFirstPage (solo 6 (twoTasksFeed (some firstCursor)))

def firstPage : FeedPage := ⟨[(0, drawnId 19)], some firstCursor, true⟩

def lastPage : FeedPage := ⟨[(0, drawnId 17)], none, false⟩

def twoPages : List FeedFetch :=
  [⟨beforeFirstPage, afterFirstPage, firstPage⟩, ⟨afterFirstPage, afterLastPage, lastPage⟩]

def pageOf (c : AppConfig) (i : Nat) : Option FeedPage :=
  match answer c i with
  | some (.ok a) => a.feedPage
  | _ => none

theorem serves_solo {c c' : AppConfig} {page : FeedPage} {i : Nat} {cursor : Option Str}
    (hstop : c' = runMoves c (solo i (twoTasksFeed cursor))) (hidle : (c.thread i).isNone)
    (h : pageOf c' i = some page) :
    FeedFetch.Serves (drawnId 4) (.tasks none none) cursor ⟨c, c', page⟩ := by
  subst hstop
  unfold pageOf at h
  split at h
  · next a ha => exact ⟨i, _, ⟨1, by decide, by decide⟩, a, served_solo hidle ha, h⟩
  · cases h

theorem twoPages_walk :
    FeedWalk (drawnId 4) (.tasks none none) beforeFirstPage none twoPages := by
  have hwalk : ∀ c d e : AppConfig,
      FeedFetch.Serves (drawnId 4) (.tasks none none) none ⟨c, d, firstPage⟩ →
      FeedFetch.Serves (drawnId 4) (.tasks none none) (some firstCursor) ⟨d, e, lastPage⟩ →
      FeedWalk (drawnId 4) (.tasks none none) c none [⟨c, d, firstPage⟩, ⟨d, e, lastPage⟩] :=
    fun _ _ _ h h' => ⟨.refl, h, Or.inr ⟨_, rfl, .refl, h', Or.inl rfl⟩⟩
  exact hwalk _ _ _ (serves_solo (i := 5) rfl (by decide +kernel) (by decide +kernel))
    (serves_solo (i := 6) rfl (by decide +kernel) (by decide +kernel))

theorem feed_walk_twoPages : ((shownKeys twoPages).map Prod.snd).Nodup ∧
    (shownKeys twoPages).Pairwise (Feed.tasks none none).before := by
  have h := feed_walk (Pagination.cursorTexts Ascii.library)
    (runMoves_any (start_genesis noFaults 0).idle) twoPages_walk
    (by unfold Representable; decide)
  exact ⟨h.2.1, h.1⟩

end

end MultiTenantSaas
