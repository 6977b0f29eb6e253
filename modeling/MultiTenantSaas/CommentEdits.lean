import MultiTenantSaas.Deletions
import MultiTenantSaas.Listings
import MultiTenantSaas.SocketAdmission

/-!
Editing a comment. The answer is built from the path and from the caller, and the listing of
the comments from the rows: they agree when the caller edits a comment of hers under its task.
-/

set_option autoImplicit false

namespace MultiTenantSaas

open Process

section

variable [Library] {i : Nat} {w w' : World} {α : Type}

theorem Answers.runs_ok {p : Coro α} {x : Except Exn α} (h : Answers i p w x) {a : α} :
    Runs machine i p w (.ok a) w' ↔ w' = w ∧ x = .ok a := by
  constructor
  · intro hrun
    obtain ⟨hw, ha | ⟨-, ha⟩⟩ := h.only _ _ hrun
    · exact ⟨hw, ha.symm⟩
    · cases ha
  · rintro ⟨rfl, rfl⟩
    exact h.runs

theorem runs_commit_ok : Runs machine i (ask .commit) w (.ok ()) w' ↔ w' = w.commit i := by
  rw [show Runs machine i (ask .commit) w (.ok ()) w' ↔ exec i .commit w (.ok ()) w' from
    runs_perform]
  constructor
  · rintro (⟨-, rfl⟩ | ⟨-, -, h⟩)
    · rfl
    · cases h
  · rintro rfl
    exact Or.inl ⟨rfl, rfl⟩

theorem runs_transaction {body : Coro α} {a : α} :
    Runs machine i (transaction body) w (.ok a) w' ↔
      ∃ v, Runs machine i body w (.ok a) v ∧ w' = v.commit i := by
  constructor
  · intro hrun
    rcases runs_tryCatch.mp hrun with ⟨b, hbody, hb⟩ | ⟨e, v, -, hthrow⟩
    · cases hb
      obtain ⟨b, v, hbody, hrest⟩ := runs_bind_answer.mp hbody
      obtain ⟨u, v', hcommit, hend⟩ := runs_bind_answer.mp hrest
      obtain ⟨hb, rfl⟩ := runs_pure.mp hend
      cases hb
      exact ⟨v, hbody, runs_commit_ok.mp hcommit⟩
    · obtain ⟨u, v', -, hend⟩ := runs_bind_answer.mp hthrow
      cases (runs_throw.mp hend).1
  · rintro ⟨v, hbody, rfl⟩
    exact runs_tryCatch.mpr (Or.inl ⟨a, runs_bind_answer.mpr ⟨a, v, hbody, runs_bind_answer.mpr
      ⟨(), _, runs_commit_ok.mpr rfl, runs_pure.mpr ⟨rfl, rfl⟩⟩⟩, rfl⟩)

def Db.inTenant? (db : Db) (t : Table) (o id : Uuid) : Option t.Row :=
  (db.get t id).filter (inTenant t o false)

theorem answers_getById (t : Table) (o id : Uuid) :
    Answers i (getById t o id) w (.ok ((w.view i).inTenant? t o id)) := by
  have honly : ∀ a w', Runs machine i (getById t o id) w a w' ↔
      w' = w ∧ (a = .ok ((w.view i).inTenant? t o id) ∨ Down w a) := fun a w' => by
    rw [getById, runs_selectOne, rowsWhere_id_and, oneRow_toList, Db.inTenant?]
  exact ⟨(honly _ _).mpr ⟨rfl, Or.inl rfl⟩, fun a w' h => (honly a w').mp h⟩

def Comment.edit (comment : Comment) (payload : CommentUpdate) : Comment :=
  { comment with content := strip payload.content.text, isEdited := true }

/-- The transaction has stored the edited comment and nothing else. -/
structure Edited (i : Nat) (commentId : Uuid) (edited : Comment) (w w' : World) : Prop where
  stored : ∃ at', w'.db.get .comments commentId = some { edited with updatedAt := at' }
  others : ∀ t id, t ≠ .comments → w'.db.get t id = w.db.get t id
  rows : w'.rows i = []
  trace : ∃ es, w'.trace = (i, .commit w.db es) :: w.trace
  faults : w'.faults = w.faults

omit [Library] in
theorem edited_commit {v : World} {commentId : Uuid} {edited : Comment} {n : Instant}
    {es : List Entry} (hsame : v.db = w.db ∧ v.trace = w.trace ∧ v.faults = w.faults)
    (hrows : v.rows i = es) (hes : ∀ e ∈ es, e.table = .comments)
    (hstored : (w.db.apply es).get .comments commentId = some { edited with updatedAt := n }) :
    Edited i commentId edited w (v.commit i) := by
  obtain ⟨hdb, htrace, hfaults⟩ := hsame
  have hcommit : (v.commit i).db = w.db.apply es := by
    rw [← hdb, ← hrows]
    rfl
  refine ⟨⟨n, hcommit ▸ hstored⟩, fun t id ht => ?_, (World.rows_ended rfl).trans (if_pos rfl),
    ⟨v.rows i, ?_⟩, hfaults⟩
  · rw [hcommit]
    exact Db.get_apply_of_ne _ fun e he hs => ht ((congrArg Prod.fst hs).trans (hes e he))
  · rw [← hdb, ← htrace]
    rfl

/-- A comment of the tenant that its author or an admin edits, when nothing is to be written
or no other transaction holds its row. -/
structure Editable (w : World) (i : Nat) (o commentId userId : Uuid) (role : OrgRole)
    (payload : CommentUpdate) (comment : Comment) : Prop where
  found : w.db.inTenant? .comments o commentId = some comment
  allowed : comment.authorId = userId ∨ role = .admin ∨ role = .owner
  free : comment.edit payload = comment ∨ w.blocked i ⟨.comments, comment⟩ = false

omit [Library] in
theorem Editable.stored {o commentId userId : Uuid} {role : OrgRole} {payload : CommentUpdate}
    {comment : Comment} (h : Editable w i o commentId userId role payload comment) :
    w.db.get .comments commentId = some comment ∧ comment.id = commentId ∧
      comment.organizationId = o := by
  obtain ⟨hget, horg⟩ := Option.filter_eq_some_iff.mp h.found
  refine ⟨hget, (Db.get_eq_some.mp hget).2, ?_⟩
  simpa [inTenant, Table.org, Table.isDeleted] using horg

omit [Library] in
theorem Comment.edit_eq_self {comment : Comment} {payload : CommentUpdate} :
    comment.edit payload = comment ↔
      ¬(comment.content ≠ strip payload.content.text ∨ comment.isEdited ≠ true) := by
  obtain ⟨⟩ := comment
  simp [Comment.edit, eq_comm]

theorem runs_updateComment {o commentId userId : Uuid} {role : OrgRole} {payload : CommentUpdate}
    {edited : Comment} (hrows : w.rows i = [])
    (h : Runs machine i (CommentService.updateComment o commentId userId role payload) w
      (.ok edited) w') :
    ∃ comment : Comment, Editable w i o commentId userId role payload comment ∧
      edited = comment.edit payload ∧ Edited i commentId edited w w' := by
  obtain ⟨v, hbody, rfl⟩ := runs_transaction.mp h
  obtain ⟨found, u, hget, hrest⟩ := runs_bind_answer.mp hbody
  obtain ⟨rfl, hfound⟩ := (answers_getById .comments o commentId).runs_ok.mp hget
  rw [World.view_of_rows hrows] at hfound
  cases found with
  | none => cases (runs_throw.mp hrest).1
  | some comment =>
    have hcomment : u.db.inTenant? .comments o commentId = some comment := Except.ok.inj hfound
    obtain ⟨hstored, -⟩ := Option.filter_eq_some_iff.mp hcomment
    have hid : comment.id = commentId := (Db.get_eq_some.mp hstored).2
    dsimp only at hrest
    split at hrest
    · obtain ⟨_, _, hthrow, -⟩ := runs_bind_answer.mp hrest
      cases (runs_throw.mp hthrow).1
    · next hallowed =>
      have hmay : comment.authorId = userId ∨ role = .admin ∨ role = .owner := by tauto
      split at hrest
      · obtain ⟨_, v', hflush, hend⟩ := runs_bind_answer.mp hrest
        obtain ⟨hedited, rfl⟩ := runs_pure.mp hend
        cases hedited
        rcases runs_perform.mp hflush with hflush | ⟨-, -, hfailed⟩
        · rcases World.flushUpdate_cases hflush with ⟨-, e, he⟩ | ⟨old, hold, -, rfl, hfree, -⟩
          · cases he
          · rw [World.view_of_rows hrows, hid, hstored] at hold
            cases hold
            refine ⟨comment, ⟨hcomment, hmay, Or.inr hfree⟩, rfl, ?_⟩
            refine edited_commit (n := u.now) ⟨rfl, rfl, rfl⟩ ((World.rows_wrote rfl).trans
              ((if_pos rfl).trans (by rw [hrows]; rfl))) (List.forall_mem_singleton.mpr rfl) ?_
            have hput := Db.get_put_self u.db ⟨.comments, comment.flush (strip payload.content.text)
              u.now comment⟩
            simpa [Comment.flush, Entry.id, Table.id, hid, Db.apply] using hput
        · cases hfailed
      · next hsame =>
        obtain ⟨hedited, rfl⟩ := runs_pure.mp hrest
        cases hedited
        have hunchanged : comment.edit payload = comment := Comment.edit_eq_self.mpr hsame
        refine ⟨comment, ⟨hcomment, hmay, Or.inl hunchanged⟩, rfl, ?_⟩
        change Edited i commentId (comment.edit payload) _ _
        rw [hunchanged]
        exact edited_commit (n := comment.updatedAt) ⟨rfl, rfl, rfl⟩ hrows (List.forall_mem_nil _)
          hstored

theorem updateComment_runs {o commentId userId : Uuid} {role : OrgRole} {payload : CommentUpdate}
    {comment : Comment} (hclosed : w.db.Closed) (hrows : w.rows i = [])
    (h : Editable w i o commentId userId role payload comment) :
    ∃ w', Runs machine i (CommentService.updateComment o commentId userId role payload) w
      (.ok (comment.edit payload)) w' := by
  obtain ⟨hstored, hid, -⟩ := h.stored
  have hview := World.view_of_rows hrows
  have hget : Runs machine i (getById .comments o commentId) w (.ok (some comment)) w :=
    (answers_getById .comments o commentId).runs_ok.mpr ⟨rfl, by rw [hview, h.found]⟩
  suffices hrest : ∃ v, Runs machine i (do
      if comment.content ≠ strip payload.content.text ∨ comment.isEdited ≠ true then
        ask (.flushUpdate .comments comment.id (comment.flush (strip payload.content.text)))
      pure (comment.edit payload) : Coro Comment) w (.ok (comment.edit payload)) v by
    obtain ⟨v, hrun⟩ := hrest
    refine ⟨v.commit i, runs_transaction.mpr ⟨v, runs_bind_answer.mpr ⟨some comment, w, hget, ?_⟩,
      rfl⟩⟩
    have hnot : ¬(comment.authorId ≠ userId ∧ role ≠ .admin ∧ role ≠ .owner) := by
      have := h.allowed
      tauto
    dsimp only
    rw [if_neg hnot]
    exact hrun
  split
  · next hchanged =>
    have hfree : w.blocked i ⟨.comments, comment⟩ = false :=
      h.free.resolve_left fun hsame => Comment.edit_eq_self.mp hsame hchanged
    have hrefs : w.db.refsExist .comments comment = true :=
      hclosed .comments comment (Db.get_eq_some.mp hstored).1
    refine ⟨w.write i ⟨.comments, comment.flush (strip payload.content.text) w.now comment⟩,
      runs_bind_answer.mpr ⟨(), _, runs_perform.mpr (Or.inl ?_), runs_pure.mpr ⟨rfl, rfl⟩⟩⟩
    have hblocked : w.blocked i ⟨.comments, comment.flush (strip payload.content.text) w.now
        comment⟩ = false := hfree
    have hrefs' : w.db.refsExist .comments (comment.flush (strip payload.content.text) w.now
        comment) = true := hrefs
    simp [World.flushUpdate, World.update, hview, hid, hstored, hfree, hblocked, World.violation,
      Table.fits, Db.uniqueFree, Table.uniqueKey, hrefs']
  · exact ⟨w, runs_pure.mpr ⟨rfl, rfl⟩⟩

theorem runs_broadcastForTask {ctx : TenantContext} {taskId : Uuid} {event : Str}
    {data : JsonObject} :
    Runs machine i (Endpoints.broadcastForTask ctx taskId event data) w (.ok ()) w' ↔
      match (w.view i).inTenant? .tasks ctx.organizationId taskId with
      | none => w' = w
      | some (task : Task) =>
        w' = w.publish ⟨channelName task.projectId, event, data, i⟩ ∨
          (w.faults.redis = true ∧ w' = w) := by
  have hget := answers_getById (i := i) (w := w) .tasks ctx.organizationId taskId
  have hroom : ∀ projectId, Runs machine i (broadcastToRoom projectId event data)
      w (.ok ()) w' ↔ w' = w.publish ⟨channelName projectId, event, data, i⟩ ∨
        (w.faults.redis = true ∧ w' = w) := fun projectId => by
    constructor
    · intro hrun
      rcases runs_tryCatch.mp hrun with ⟨u, hask, -⟩ | ⟨e, v, hask, hend⟩
      · rcases runs_perform.mp hask with ⟨-, rfl⟩ | ⟨-, -, hfailed⟩
        · exact Or.inl rfl
        · cases hfailed
      · obtain ⟨-, rfl⟩ := runs_pure.mp hend
        rcases runs_perform.mp hask with ⟨hok, -⟩ | ⟨rfl, hfaulty, -⟩
        · cases hok
        · exact Or.inr ⟨hfaulty, rfl⟩
    · rintro (rfl | ⟨hfaulty, rfl⟩)
      · exact runs_tryCatch.mpr (Or.inl ⟨(), runs_perform.mpr (Or.inl ⟨rfl, rfl⟩), rfl⟩)
      · exact runs_tryCatch.mpr (Or.inr ⟨.unavailable, _, runs_perform.mpr
          (Or.inr ⟨rfl, hfaulty, rfl⟩), runs_pure.mpr ⟨rfl, rfl⟩⟩)
  rw [Endpoints.broadcastForTask, runs_bind_answer]
  constructor
  · rintro ⟨found, v, hfound, hrest⟩
    obtain ⟨rfl, hfound⟩ := hget.runs_ok.mp hfound
    rw [Except.ok.inj hfound]
    cases found with
    | none => exact (runs_pure.mp hrest).2
    | some task => exact (hroom _).mp hrest
  · intro h
    refine ⟨_, w, hget.runs_ok.mpr ⟨rfl, rfl⟩, ?_⟩
    cases hfound : (w.view i).inTenant? .tasks ctx.organizationId taskId with
    | none =>
      rw [hfound] at h
      exact runs_pure.mpr ⟨rfl, h⟩
    | some task =>
      rw [hfound] at h
      exact (hroom _).mpr h

omit [Library] in
theorem admission_org {db : Db} {now : Instant} {minRole : OrgRole} {bearer : Token} {o : Uuid}
    {ctx : TenantContext} (h : admission db now minRole bearer o = .ok ctx) :
    ctx.organizationId = o := by
  unfold admission at h
  split at h
  · cases h
  · split at h
    · cases h
    · cases h
    · split at h <;> cases h
      rfl

def editData (taskId : Uuid) (edited : Comment) : JsonObject :=
  [("task_id".toList, .str taskId.str), ("comment_id".toList, .str edited.id.str),
    ("content".toList, .str edited.content)]

theorem runs_edit {bearer : Token} {o taskId commentId : Uuid} {payload : CommentUpdate}
    {resp : CommentResponse} :
    Runs machine i (Request.tenant bearer o (.updateComment taskId commentId payload)).handle w
      (.ok (.comment resp)) w' ↔
      ∃ ctx edited v u, admission (w.view i) w.now .member bearer o = .ok ctx ∧
        Runs machine i (CommentService.updateComment ctx.organizationId commentId ctx.user.id
          ctx.role payload) w (.ok edited) v ∧
        Runs machine i (Endpoints.broadcastForTask ctx taskId "COMMENT_UPDATED".toList
          (editData taskId edited)) v (.ok ()) u ∧
        w' = u.rollback i ∧ resp = Endpoints.commentAnswer ctx taskId edited := by
  have hrole := answers_requireRole (i := i) (w := w) .member bearer o
  constructor
  · intro hrun
    obtain ⟨u, hbody, rfl⟩ := runs_withDbSession.mp hrun
    obtain ⟨ctx, v₁, hctx, hrest⟩ := runs_bind_answer.mp hbody
    obtain ⟨rfl, hadmitted⟩ := hrole.runs_ok.mp hctx
    obtain ⟨answer, v₂, hendpoint, hanswer⟩ := runs_bind_answer.mp hrest
    obtain ⟨hresp, rfl⟩ := runs_pure.mp hanswer
    obtain ⟨edited, v₃, hservice, hrest⟩ := runs_bind_answer.mp hendpoint
    obtain ⟨_, v₄, hbroadcast, hend⟩ := runs_bind_answer.mp hrest
    obtain ⟨hcomment, rfl⟩ := runs_pure.mp hend
    cases hresp
    exact ⟨ctx, edited, v₃, _, hadmitted, hservice, hbroadcast, rfl, Except.ok.inj hcomment⟩
  · rintro ⟨ctx, edited, v, u, hadmitted, hservice, hbroadcast, rfl, rfl⟩
    exact runs_withDbSession.mpr ⟨u, runs_bind_answer.mpr ⟨ctx, w,
      hrole.runs_ok.mpr ⟨rfl, hadmitted⟩, runs_bind_answer.mpr ⟨_, u, runs_bind_answer.mpr
        ⟨edited, v, hservice, runs_bind_answer.mpr ⟨(), u, hbroadcast, runs_pure.mpr ⟨rfl, rfl⟩⟩⟩,
        runs_pure.mpr ⟨rfl, rfl⟩⟩⟩, rfl⟩

def Db.commentEntry (db : Db) (comment : Comment) : CommentResponse :=
  .ofComment comment (db.get .users comment.authorId)

theorem runs_listComments {o taskId : Uuid} {cursor : Option Str} {limit : Nat}
    {page : CursorPageResponse CommentResponse} (hrows : w.rows i = [])
    (h : Runs machine i (CommentService.listComments o taskId cursor limit) w (.ok page) w') :
    ∀ item ∈ page.items, ∃ comment : Comment, comment ∈ w.db.rows .comments ∧
      item = w.db.commentEntry comment := by
  obtain ⟨⟨items, hasMore⟩, v, hcursor, hend⟩ := runs_bind_answer.mp h
  obtain ⟨rows, v', hselect, hpage⟩ := runs_bind_answer.mp hcursor
  obtain ⟨-, rfl, hperm⟩ := runs_arguments_answer.mp hselect
  rw [World.view_of_rows hrows] at hperm
  obtain ⟨hitems, rfl⟩ := runs_pure.mp hpage
  obtain ⟨hanswer, rfl⟩ := runs_pure.mp hend
  cases hitems
  cases hanswer
  intro item hitem
  obtain ⟨x, hx, rfl⟩ := List.mem_map.mp hitem
  have hin := hperm.subset ((List.perm_insertionSort _ rows).subset
    (List.mem_of_mem_take (List.mem_of_mem_take hx)))
  obtain ⟨comment, hcomment, rfl⟩ := List.mem_map.mp hin
  exact ⟨comment, (mem_rowsWhere.mp hcomment).1, rfl⟩

theorem listComments_lists {o : Uuid} {comment : Comment} (hrows : w.rows i = [])
    (hcomment : comment ∈ w.db.rows .comments) (horg : comment.organizationId = o) :
    ∃ limit page, Runs machine i (CommentService.listComments o comment.taskId none limit) w
      (.ok page) w ∧ w.db.commentEntry comment ∈ page.items := by
  let found := joinedLoad .comments .users (fun (c : Comment) => some c.authorId)
    (fun (c : Comment) => c.organizationId = o && c.taskId = comment.taskId &&
      (none : Option (Instant × Uuid)).all fun k => decide (keyLt k c.feedKey)) (w.view i)
  refine ⟨found.length, _, runs_bind_answer.mpr ⟨_, w, runs_bind_answer.mpr ⟨found, w,
    runs_arguments_answer.mpr ⟨rfl, rfl, .refl _⟩, runs_pure.mpr ⟨rfl, rfl⟩⟩,
      runs_pure.mpr ⟨rfl, rfl⟩⟩, ?_⟩
  refine List.mem_map.mpr ⟨(comment, w.db.get .users comment.authorId), ?_, rfl⟩
  rw [List.take_take, List.take_of_length_le (by simp [List.length_insertionSort])]
  refine (List.perm_insertionSort _ found).mem_iff.mpr (List.mem_map.mpr ⟨comment, ?_, ?_⟩)
  · exact mem_rowsWhere.mpr ⟨by rwa [World.view_of_rows hrows], by simp [horg]⟩
  · rw [World.view_of_rows hrows]
    rfl

/-- What an edit that succeeds answers and announces: the path names the comment's task, a
listing of that task shows the answer and nothing else for the comment, and the room of the
project hears of it. -/
structure EditAnswered (i : Nat) (o taskId commentId : Uuid) (resp : CommentResponse)
    (w w' : World) : Prop where
  path : ∀ comment : Comment, w.db.get .comments commentId = some comment → comment.taskId = taskId
  listed : ∀ comment : Comment, w'.db.get .comments commentId = some comment → ∀ j,
    w'.rows j = [] → ∃ limit page, Runs machine j
      (CommentService.listComments o comment.taskId none limit) w' (.ok page) w' ∧ resp ∈ page.items
  only : ∀ comment : Comment, w'.db.get .comments commentId = some comment → ∀ j,
    w'.rows j = [] → ∀ cursor limit page v, Runs machine j
      (CommentService.listComments o comment.taskId cursor limit) w' (.ok page) v →
      ∀ item ∈ page.items, item.id = commentId → item = resp
  announced : ∀ (comment : Comment) (task : Task), w'.db.get .comments commentId = some comment →
    w'.db.get .tasks comment.taskId = some task → ∃ new data, w'.trace = new ++ w.trace ∧
      (i, .publish ⟨channelName task.projectId, "COMMENT_UPDATED".toList, data, i⟩) ∈ new

/-- Only its author edits the comment, under its task, which is not deleted, and Redis answers. -/
def EditsOwn (w : World) (i : Nat) (bearer : Token) (o taskId commentId : Uuid)
    (payload : CommentUpdate) : Prop :=
  ∀ ctx comment, admission w.db w.now .member bearer o = .ok ctx →
    Editable w i o commentId ctx.user.id ctx.role payload comment →
    comment.authorId = ctx.user.id ∧ comment.taskId = taskId ∧
      (∃ task, w.db.inTenant? .tasks o taskId = some task) ∧ w.faults.redis = false

section

variable {bearer : Token} {o taskId commentId : Uuid} {payload : CommentUpdate}
  {ctx : TenantContext} {comment : Comment}

omit [Library] in
theorem admission_caller {db : Db} {now : Instant} {minRole : OrgRole}
    (h : admission db now minRole bearer o = .ok ctx) :
    db.get .users ctx.user.id = some ctx.user := by
  unfold admission at h
  split at h
  · cases h
  · next user huser =>
    split at h
    · cases h
    · cases h
    · split at h <;> cases h
      unfold currentUserAt at huser
      split at huser
      · cases huser
      · split at huser
        · cases huser
        · next hget =>
          split at huser <;> cases huser
          have hid : User.id user = _ := (Db.get_eq_some.mp hget).2
          exact hid ▸ hget

omit [Library] in
theorem Edited.commentEntry {edited : Comment} {at' : Instant}
    (h : Edited i commentId edited w w') (hauthor : edited.authorId = ctx.user.id)
    (htask : edited.taskId = taskId) (hcaller : w.db.get .users ctx.user.id = some ctx.user) :
    w'.db.commentEntry { edited with updatedAt := at' } =
      Endpoints.commentAnswer ctx taskId edited := by
  have hget : w'.db.get .users ctx.user.id = some ctx.user := by
    rw [h.others .users _ nofun, hcaller]
  simp [Db.commentEntry, CommentResponse.ofComment, Endpoints.commentAnswer, hget, hauthor, htask]

omit [Library] in
theorem Edited.inTenant? {edited : Comment} (h : Edited i commentId edited w w') :
    (w'.view i).inTenant? .tasks o taskId = w.db.inTenant? .tasks o taskId := by
  rw [World.view_of_rows h.rows, Db.inTenant?, Db.inTenant?, h.others .tasks _ nofun]

theorem edit_runs (hclosed : w.db.Closed) (hrows : w.rows i = [])
    (hctx : admission w.db w.now .member bearer o = .ok ctx)
    (h : Editable w i o commentId ctx.user.id ctx.role payload comment) :
    ∃ v, Edited i commentId (comment.edit payload) w v ∧
      ∀ u, Runs machine i (Endpoints.broadcastForTask ctx taskId "COMMENT_UPDATED".toList
        (editData taskId (comment.edit payload))) v (.ok ()) u →
      Runs machine i (Request.tenant bearer o (.updateComment taskId commentId payload)).handle w
        (.ok (.comment (Endpoints.commentAnswer ctx taskId (comment.edit payload))))
        (u.rollback i) := by
  obtain ⟨v, hrun⟩ := updateComment_runs hclosed hrows h
  obtain ⟨found, hfound, hsame, hedited⟩ := runs_updateComment hrows hrun
  refine ⟨v, hedited, fun u hbroadcast => runs_edit.mpr
    ⟨ctx, _, v, u, by rwa [World.view_of_rows hrows], ?_, hbroadcast, rfl, rfl⟩⟩
  rwa [admission_org hctx]

omit [Library] in
theorem not_announced {v : World} {edited : Comment} {m : Message} {new : List (Nat × Event)}
    (h : Edited i commentId edited w v) (hnew : (v.rollback i).trace = new ++ w.trace) :
    (i, Event.publish m) ∉ new := by
  obtain ⟨es, htrace⟩ := h.trace
  have htwo : new = [(i, .rollback), (i, .commit w.db es)] := by
    have : (v.rollback i).trace = [(i, .rollback), (i, .commit w.db es)] ++ w.trace := by
      simp [World.rollback, World.log, World.endTransaction, htrace]
    exact List.append_cancel_right (hnew.symm.trans this)
  simp [htwo]

theorem editAnswered_of_own (hrows : w.rows i = []) {resp : CommentResponse}
    (hown : EditsOwn w i bearer o taskId commentId payload)
    (hrun : Runs machine i
      (Request.tenant bearer o (.updateComment taskId commentId payload)).handle w
      (.ok (.comment resp)) w') : EditAnswered i o taskId commentId resp w w' := by
  obtain ⟨ctx, edited, v, u, hctx, hservice, hbroadcast, rfl, rfl⟩ := runs_edit.mp hrun
  rw [World.view_of_rows hrows] at hctx
  have horg := admission_org hctx
  rw [horg] at hservice
  obtain ⟨comment, heditable, rfl, hedited⟩ := runs_updateComment hrows hservice
  obtain ⟨hauthor, htask, ⟨task, hlive⟩, hredis⟩ := hown ctx comment hctx heditable
  obtain ⟨hstored, hid, hcommentOrg⟩ := heditable.stored
  obtain ⟨at', hafter⟩ := hedited.stored
  have hentry : v.db.commentEntry { comment.edit payload with updatedAt := at' } =
      Endpoints.commentAnswer ctx taskId (comment.edit payload) :=
    hedited.commentEntry hauthor htask (admission_caller hctx)
  obtain rfl : u = v.publish ⟨channelName task.projectId, "COMMENT_UPDATED".toList,
      editData taskId (comment.edit payload), i⟩ := by
    have hcases := runs_broadcastForTask.mp hbroadcast
    rw [horg, hedited.inTenant?, hlive] at hcases
    refine hcases.resolve_right fun hfaulty => ?_
    rw [hedited.faults, hredis] at hfaulty
    cases hfaulty.1
  have hunique : ∀ found : Comment, v.db.get .comments commentId = some found →
      found = { comment.edit payload with updatedAt := at' } := fun found hfound =>
    Option.some.inj (hfound.symm.trans hafter)
  refine ⟨fun found hfound => ?_, fun found hfound j hj => ?_, ?_, ?_⟩
  · cases Option.some.inj (hfound.symm.trans hstored)
    exact htask
  · obtain rfl := hunique found hfound
    obtain ⟨limit, page, hlist, hmem⟩ := listComments_lists hj (Db.get_eq_some.mp hfound).1
      hcommentOrg
    exact ⟨limit, page, hlist, hentry ▸ hmem⟩
  · intro found hfound j hj cursor limit page x hlist item hitem hitemId
    obtain ⟨other, hother, rfl⟩ := runs_listComments hj hlist item hitem
    obtain rfl := hunique other (Db.get_eq_some.mpr ⟨hother, hitemId⟩)
    exact hentry
  · intro found task' hfound htask'
    obtain rfl := hunique found hfound
    obtain ⟨es, htrace⟩ := hedited.trace
    obtain rfl : task' = task := by
      have hget := (Option.filter_eq_some_iff.mp hlive).1
      rw [← htask, ← hedited.others .tasks _ nofun] at hget
      exact Option.some.inj (htask'.symm.trans hget)
    refine ⟨[(i, .rollback), (i, .publish ⟨channelName task'.projectId, "COMMENT_UPDATED".toList,
      editData taskId (comment.edit payload), i⟩), (i, .commit w.db es)],
      editData taskId (comment.edit payload), ?_, .tail _ (.head _)⟩
    rw [World.rollback, World.publish, World.log, World.log]
    simp only [World.endTransaction, htrace]
    rfl

theorem own_of_editAnswered (hclosed : w.db.Closed) (hrows : w.rows i = [])
    (hall : ∀ resp w', Runs machine i
      (Request.tenant bearer o (.updateComment taskId commentId payload)).handle w
      (.ok (.comment resp)) w' → EditAnswered i o taskId commentId resp w w') :
    EditsOwn w i bearer o taskId commentId payload := by
  intro ctx comment hctx h
  obtain ⟨hstored, hid, horg⟩ := h.stored
  obtain ⟨v, hedited, hruns⟩ := edit_runs hclosed hrows hctx h
  obtain ⟨at', hafter⟩ := hedited.stored
  have hquiet : ¬ Runs machine i (Endpoints.broadcastForTask ctx taskId "COMMENT_UPDATED".toList
      (editData taskId (comment.edit payload))) v (.ok ()) v := by
    intro hsilent
    have hrefs := List.all_eq_true.mp (hclosed .comments comment (Db.get_eq_some.mp hstored).1)
    obtain ⟨task, htask⟩ := Option.isSome_iff_exists.mp
      (hrefs (.tasks, comment.taskId) (by simp [Table.refs]))
    obtain ⟨new, data, htrace, hmem⟩ := (hall _ _ (hruns v hsilent)).announced _ task hafter
      ((hedited.others .tasks _ nofun).trans htask)
    exact not_announced hedited htrace hmem
  rw [runs_broadcastForTask, admission_org hctx, hedited.inTenant?] at hquiet
  cases hlive : w.db.inTenant? .tasks o taskId with
  | none =>
    rw [hlive] at hquiet
    exact absurd rfl hquiet
  | some task =>
    rw [hlive] at hquiet
    have hredis : w.faults.redis = false := by
      rw [← hedited.faults]
      exact Bool.eq_false_iff.mpr fun hfaulty => hquiet (Or.inr ⟨hfaulty, rfl⟩)
    have hanswered := hall _ _ (hruns (v.publish ⟨channelName (Task.projectId task),
      "COMMENT_UPDATED".toList, editData taskId (comment.edit payload), i⟩)
      (runs_broadcastForTask.mpr (by
        rw [admission_org hctx, hedited.inTenant?, hlive]
        exact Or.inl rfl)))
    have hidle := World.rows_rollback i (v.publish ⟨channelName (Task.projectId task),
      "COMMENT_UPDATED".toList, editData taskId (comment.edit payload), i⟩)
    obtain ⟨limit, page, hlist, hmem⟩ := listComments_lists hidle (Db.get_eq_some.mp hafter).1 horg
    have hentry := hanswered.only _ hafter i hidle _ _ _ _ hlist _ hmem hid
    exact ⟨congrArg CommentResponse.authorId hentry, hanswered.path comment hstored,
      ⟨task, rfl⟩, hredis⟩

end

/-- An edit is answered with the comment exactly when its author edits it under its task. -/
theorem edits_answered {faults : Faults} {now : Instant} {c : AppConfig}
    (h : Reach app anySchedule (genesis faults now) c) (hidle : c.thread i = none) (bearer : Token)
    (o taskId commentId : Uuid) (payload : CommentUpdate) :
    (∀ resp w', Runs machine i
      (Request.tenant bearer o (.updateComment taskId commentId payload)).handle c.state
      (.ok (.comment resp)) w' → EditAnswered i o taskId commentId resp c.state w') ↔
    EditsOwn c.state i bearer o taskId commentId payload :=
  ⟨own_of_editAnswered (reached_sound h).wellFormed.refs (reached_fresh h hidle),
    fun hown _ _ => editAnswered_of_own (reached_fresh h hidle) hown⟩

end

section

open scoped Ascii

def apolloComment : AppConfig :=
  runMoves (genesis noFaults 0) (annsProject ++ solo 3 (asAnn apolloTask) ++
    solo 4 (asAnn (.createComment (drawnId 17) ⟨⟨"Soon.".toList, by decide, by decide⟩⟩)))

def apolloEdit (taskId : Uuid) : TenantRequest :=
  .updateComment taskId (drawnId 19) ⟨⟨"Now.".toList, by decide, by decide⟩⟩

theorem apolloComment_reached : Reach app anySchedule (genesis noFaults 0) apolloComment :=
  runMoves_any fun _ => rfl

theorem apolloComment_idle : apolloComment.thread 5 = none :=
  Option.isNone_iff_eq_none.mp (by decide +kernel)

theorem apollo_edit_runs {taskId : Uuid} (hrun : ((asAnn (apolloEdit taskId)).handle.alone scheduler
    5 false 40 apolloComment.state).any (fun r => match r.1 with
      | .ok (.comment _) => true
      | _ => false) = true) :
    ∃ resp w', Runs machine 5 (asAnn (apolloEdit taskId)).handle apolloComment.state
      (.ok (.comment resp)) w' := by
  obtain ⟨⟨a, w'⟩, hsome, hok⟩ := (Option.any_eq_true _ _).mp hrun
  have hruns := Prog.alone_runs hsome
  rcases a with e | resp
  · cases hok
  · cases resp
    case comment resp => exact ⟨resp, w', hruns⟩
    all_goals cases hok

theorem apollo_edit_answered : ∃ resp w', Runs machine 5 (asAnn (apolloEdit (drawnId 17))).handle
    apolloComment.state (.ok (.comment resp)) w' ∧
    EditAnswered 5 (drawnId 4) (drawnId 17) (drawnId 19) resp apolloComment.state w' := by
  obtain ⟨resp, w', hrun⟩ : ∃ resp w', Runs machine 5 (asAnn (apolloEdit (drawnId 17))).handle
    apolloComment.state (.ok (.comment resp)) w' := apollo_edit_runs (by decide +kernel)
  refine ⟨resp, w', hrun, (edits_answered apolloComment_reached apolloComment_idle _ _ _ _ _).mpr
    (fun ctx comment hctx h => ?_) resp w' hrun⟩
  have hcaller : (match admission apolloComment.state.db apolloComment.state.now .member
      (signedToken (drawnId 2) access 1000) (drawnId 4) with
    | .ok ctx => decide (ctx.user.id = drawnId 2)
    | .error _ => false) = true := by decide +kernel
  rw [hctx] at hcaller
  have hcomment : (apolloComment.state.db.get .comments (drawnId 19)).any
      (fun c : Comment => decide (c.authorId = drawnId 2 ∧ c.taskId = drawnId 17)) = true := by
    decide +kernel
  rw [h.stored.1] at hcomment
  have hown := of_decide_eq_true hcomment
  exact ⟨hown.1.trans (of_decide_eq_true hcaller).symm, hown.2,
    Option.isSome_iff_exists.mp (by decide +kernel), by decide +kernel⟩

/-- Under the path of another task the edit is accepted all the same. -/
theorem edit_not_answered : ¬ ∀ (faults : Faults) (now : Instant) (c : AppConfig) (i : Nat)
    (bearer : Token) (o taskId commentId : Uuid) (payload : CommentUpdate)
    (resp : CommentResponse) (w' : World), Reach app anySchedule (genesis faults now) c →
    c.thread i = none → Runs machine i
      (Request.tenant bearer o (.updateComment taskId commentId payload)).handle c.state
      (.ok (.comment resp)) w' → EditAnswered i o taskId commentId resp c.state w' := by
  intro hall
  have hcomment : (apolloComment.state.db.get .comments (drawnId 19)).any
      (fun c : Comment => decide (c.taskId ≠ drawnId 99)) = true := by decide +kernel
  obtain ⟨comment, hget, htask⟩ := (Option.any_eq_true _ _).mp hcomment
  obtain ⟨resp, w', hrun⟩ : ∃ resp w', Runs machine 5 (asAnn (apolloEdit (drawnId 99))).handle
    apolloComment.state (.ok (.comment resp)) w' := apollo_edit_runs (by decide +kernel)
  have hanswered := hall noFaults 0 apolloComment 5 (signedToken (drawnId 2) access 1000)
    (drawnId 4) (drawnId 99) (drawnId 19) ⟨⟨"Now.".toList, by decide, by decide⟩⟩ resp w'
    apolloComment_reached apolloComment_idle hrun
  exact of_decide_eq_true htask (hanswered.path comment hget)

end

end MultiTenantSaas
