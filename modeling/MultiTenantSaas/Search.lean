import MultiTenantSaas.Listings

/-!
The search of the task listing: the text of the user inside an ILIKE pattern, against
the text as it is.
-/

set_option autoImplicit false

namespace MultiTenantSaas

def Plain (c : Char) : Prop := c ≠ '%' ∧ c ≠ '_' ∧ c ≠ backslash

instance (c : Char) : Decidable (Plain c) := inferInstanceAs (Decidable (_ ∧ _ ∧ _))

section

variable [Library]

def Occurs (s text : Str) : Prop := s.map Library.foldCase <:+: text.map Library.foldCase

instance (s text : Str) : Decidable (Occurs s text) := inferInstanceAs (Decidable (_ <:+: _))

/-- The metacharacters and NUL have no other case. -/
structure CaseFolding : Prop where
  nul : ∀ c, Library.foldCase c = Library.foldCase nul → c = MultiTenantSaas.nul
  percent : ∀ c, Library.foldCase c = Library.foldCase '%' → c = '%'
  underscore : ∀ c, Library.foldCase c = Library.foldCase '_' → c = '_'
  backslash : ∀ c, Library.foldCase c = Library.foldCase backslash → c = MultiTenantSaas.backslash

theorem ilike_cons (c : Char) (pattern text : Str) : ilike (c :: pattern) text =
    if c = '%' then text.tails.any fun rest => ilike pattern rest
    else if c = '_' then
      match text with
      | [] => false
      | _ :: rest => ilike pattern rest
    else if c = backslash then
      match pattern, text with
      | d :: pattern, x :: rest =>
        Library.foldCase d == Library.foldCase x && ilike pattern rest
      | _, _ => false
    else
      match text with
      | [] => false
      | x :: rest => Library.foldCase c == Library.foldCase x && ilike pattern rest := by
  cases pattern <;> cases text <;> rfl

theorem ilike_percent {pattern text : Str} :
    ilike ('%' :: pattern) text = true ↔ ∃ rest, rest <:+ text ∧ ilike pattern rest = true := by
  rw [ilike_cons, if_pos rfl, List.any_eq_true]
  simp only [List.mem_tails]

theorem ilike_underscore {c : Char} {pattern text : Str} :
    ilike ('_' :: pattern) (c :: text) = ilike pattern text := by
  rw [ilike_cons, if_neg (by decide), if_pos rfl]

theorem ilike_backslash {c : Char} {pattern text : Str} :
    ilike (backslash :: c :: pattern) (c :: text) = ilike pattern text := by
  rw [ilike_cons, if_neg (by decide), if_neg (by decide), if_pos rfl]
  simp

theorem ilike_plain {c : Char} (hc : Plain c) {pattern text : Str} :
    ilike (c :: pattern) text = true ↔
      ∃ x rest, text = x :: rest ∧ Library.foldCase c = Library.foldCase x ∧
        ilike pattern rest = true := by
  rw [ilike_cons, if_neg hc.1, if_neg hc.2.1, if_neg hc.2.2]
  cases text with
  | nil => simp
  | cons x rest => simp

theorem ilike_rest (text : Str) : ilike ['%'] text = true :=
  ilike_percent.mpr ⟨[], List.nil_suffix, rfl⟩

theorem ilike_starts {s : Str} (hs : ∀ c ∈ s, Plain c) {text : Str} :
    ilike (s ++ ['%']) text = true ↔
      s.map Library.foldCase <+: text.map Library.foldCase := by
  induction s generalizing text with
  | nil => simpa using ilike_rest text
  | cons c s ih =>
    obtain ⟨hc, hrest⟩ := List.forall_mem_cons.mp hs
    rw [List.cons_append, ilike_plain hc]
    cases text with
    | nil => simp
    | cons x text => simp [ih hrest, List.cons_prefix_cons]

theorem ilike_occurs {s : Str} (hs : ∀ c ∈ s, Plain c) {text : Str} :
    ilike ('%' :: s ++ ['%']) text = true ↔ Occurs s text := by
  rw [List.cons_append, ilike_percent, Occurs, List.infix_iff_prefix_suffix]
  simp only [ilike_starts hs]
  constructor
  · rintro ⟨rest, hsuffix, hprefix⟩
    exact ⟨_, hprefix, hsuffix.map _⟩
  · rintro ⟨t, hprefix, hsuffix⟩
    obtain ⟨rest, hrest, rfl⟩ := List.suffix_map_iff.mp hsuffix
    exact ⟨rest, hrest, hprefix⟩

/-- The shortest text that the pattern of `s` finds, with another character for every `_`. -/
def shortest : Str → Str
  | [] => []
  | [c] => if c = '%' then [] else if c = '_' then ['a'] else if c = backslash then ['%'] else [c]
  | c :: d :: s =>
    if c = '%' then shortest (d :: s)
    else if c = '_' then 'a' :: shortest (d :: s)
    else if c = backslash then d :: shortest s
    else c :: shortest (d :: s)

theorem shortest_found (s : Str) : ilike (s ++ ['%']) (shortest s) = true := by
  induction s using shortest.induct with
  | case1 => exact ilike_rest []
  | case2 => exact ilike_percent.mpr ⟨[], List.nil_suffix, ilike_rest []⟩
  | case3 => exact ilike_underscore.trans (ilike_rest [])
  | case4 => exact ilike_backslash
  | case5 c hp hu hb =>
    rw [shortest, if_neg hp, if_neg hu, if_neg hb]
    exact (ilike_plain ⟨hp, hu, hb⟩).mpr ⟨c, [], rfl, rfl, ilike_rest []⟩
  | case6 d s ih =>
    rw [shortest, if_pos rfl]
    exact ilike_percent.mpr ⟨_, List.suffix_refl _, ih⟩
  | case7 d s hp ih =>
    rw [shortest, if_neg hp, if_pos rfl]
    exact ilike_underscore.trans ih
  | case8 d s hp hu ih =>
    rw [shortest, if_neg hp, if_neg hu, if_pos rfl]
    exact ilike_backslash.trans ih
  | case9 c d s hp hu hb ih =>
    rw [shortest, if_neg hp, if_neg hu, if_neg hb]
    exact (ilike_plain ⟨hp, hu, hb⟩).mpr ⟨c, _, rfl, rfl, ih⟩

omit [Library] in
theorem shortest_length (s : Str) : (shortest s).length ≤ s.length := by
  induction s using shortest.induct <;> simp_all [shortest] <;> omega

omit [Library] in
theorem shortest_subset (s : Str) : ∀ c ∈ shortest s, c ∈ s ∨ c = 'a' ∨ c = '%' := by
  induction s using shortest.induct <;> simp_all [shortest] <;> grind

/-- Of the length of the search text and like it, the shortest text leaves no metacharacter. -/
theorem shortest_plain (folding : CaseFolding) {s : Str}
    (h : (shortest s).map Library.foldCase = s.map Library.foldCase) : ∀ c ∈ s, Plain c := by
  have hlength := congrArg List.length h
  rw [List.length_map, List.length_map] at hlength
  induction s using shortest.induct with
  | case1 => exact nofun
  | case2 => simp [shortest] at hlength
  | case3 =>
    have hcase : Library.foldCase 'a' = Library.foldCase '_' := by simpa [shortest] using h
    exact absurd (folding.underscore _ hcase) (by decide)
  | case4 =>
    have hcase : Library.foldCase '%' = Library.foldCase backslash := by
      simpa [shortest, show backslash ≠ '%' by decide, show backslash ≠ '_' by decide] using h
    exact absurd (folding.backslash _ hcase) (by decide)
  | case5 c hp hu hb => exact List.forall_mem_singleton.mpr ⟨hp, hu, hb⟩
  | case6 d s ih =>
    rw [shortest, if_pos rfl] at hlength
    have hle := shortest_length (d :: s)
    rw [hlength, List.length_cons] at hle
    omega
  | case7 d s hp ih =>
    rw [shortest, if_neg hp, if_pos rfl] at h
    have hcase : Library.foldCase 'a' = Library.foldCase '_' := (List.cons.inj h).1
    exact absurd (folding.underscore _ hcase) (by decide)
  | case8 d s hp hu ih =>
    rw [shortest, if_neg hp, if_neg hu, if_pos rfl] at hlength
    have hle := shortest_length s
    simp only [List.length_cons] at hlength
    omega
  | case9 c d s hp hu hb ih =>
    rw [shortest, if_neg hp, if_neg hu, if_neg hb] at h
    have hrest := (List.cons.inj h).2
    have hsame := congrArg List.length hrest
    rw [List.length_map, List.length_map] at hsame
    exact List.forall_mem_cons.mpr ⟨⟨hp, hu, hb⟩, ih hrest hsame⟩

variable {db : Db} {o : Uuid} {q : TaskListing} {sortBy : Str} {size : PageSize} {t : Task}

def TaskListing.Includes (q : TaskListing) (db : Db) (o : Uuid) (sortBy : Str) (size : PageSize)
    (t : Task) : Prop :=
  ∃ k r, q.Answers db o sortBy size k r ∧ TaskResponse.ofTask t ∈ r.items

/-- The tasks that PostgreSQL can hold: no text has a NUL, and an offset counts all rows. -/
structure Storable (db : Db) : Prop where
  title : ∀ t : Task, t ∈ db.rows .tasks → nul ∉ t.title
  description : ∀ t : Task, t ∈ db.rows .tasks → ∀ d ∈ t.description, nul ∉ d
  length : (db.rows .tasks).list.length ≤ 9223372036854775807

/-- A text that PostgreSQL takes finds what the filters admit, and another one nothing. -/
theorem TaskListing.includes_iff (hdb : Storable db) (ht : t ∈ db.rows .tasks) :
    q.Includes db o sortBy size t ↔
      q.Admits o t ∧ (q.filters []).arguments.all Argument.encodes = true := by
  constructor
  · rintro ⟨k, r, hr, hmem⟩
    obtain ⟨-, htakes, rfl⟩ := TaskListing.answers_iff.mp hr
    refine ⟨?_, (takesPage_iff.mp htakes).1⟩
    obtain ⟨t', ht', heq⟩ := List.mem_map.mp hmem
    obtain ⟨hrow, hadmits⟩ := TaskListing.mem_tasks.mp
      (List.mem_of_mem_drop (List.mem_of_mem_take ht'))
    have hsame : t' = t := Db.eq_of_id (t := .tasks) hrow ht (congrArg TaskResponse.id heq)
    exact hsame ▸ hadmits
  · rintro ⟨hadmits, harguments⟩
    have hmem : t ∈ q.tasks db o sortBy := TaskListing.mem_tasks.mpr ⟨ht, hadmits⟩
    rw [← Paging.pages_eq size.ge (q.tasks db o sortBy)] at hmem
    obtain ⟨k, hk, hpage⟩ := List.mem_flatMap.mp hmem
    have hoffset := (Paging.lt_count size.ge).mp (List.mem_range.mp hk)
    have hlength : (q.tasks db o sortBy).length ≤ (db.rows .tasks).list.length :=
      (ordered_perm _ _).length_eq.le.trans (List.length_filter_le _ _)
    have htakes : q.Takes size (k + 1) :=
      takesPage_iff.mpr ⟨harguments, (hoffset.le.trans hlength).trans hdb.length⟩
    exact ⟨k + 1, _, TaskListing.answers_iff.mpr ⟨by omega, htakes, rfl⟩,
      List.mem_map_of_mem hpage⟩

def InTask (s : Str) (t : Task) : Prop :=
  Occurs s t.title ∨ ∃ d ∈ t.description, Occurs s d

theorem found_iff {search : Str} (hplain : ∀ c ∈ strip search, Plain c) :
    TaskListing.Found search t ↔ InTask (strip search) t := by
  simp only [TaskListing.Found, InTask, searchPattern, ilike_occurs hplain]

theorem not_inTask (folding : CaseFolding) (hdb : Storable db) (ht : t ∈ db.rows .tasks) {s : Str}
    (hs : nul ∈ s) : ¬ InTask s t := by
  have hnot : ∀ text : Str, nul ∉ text → ¬ Occurs s text := by
    intro text htext hoccurs
    obtain ⟨c, hc, hcase⟩ := List.mem_map.mp (hoccurs.subset (List.mem_map_of_mem hs))
    exact htext (folding.nul c hcase ▸ hc)
  rintro (htitle | ⟨d, hd, hoccurs⟩)
  · exact hnot _ (hdb.title t ht) htitle
  · exact hnot _ (hdb.description t ht d hd) hoccurs

omit [Library] in
theorem TaskListing.encodes_iff {search : Str} (hsearch : q.search = some search)
    (hne : search ≠ []) :
    (q.filters []).arguments.all Argument.encodes = true ↔ nul ∉ strip search := by
  have hempty : search.isEmpty = false := by simpa using hne
  simp [filters, TaskFilterParams.arguments, hsearch, hempty, Argument.encodes, searchPattern, nul]

theorem TaskListing.admits_search {search : Str} (hsearch : q.search = some search)
    (hne : search ≠ []) (ht : { q with search := none }.Admits o t) :
    q.Admits o t ↔ TaskListing.Found search t := by
  refine ⟨fun h => h.search search hsearch hne, fun h => ?_⟩
  refine ⟨ht.organization, ht.live, ht.project, ht.status, ht.priority, ht.assignee, ?_⟩
  rintro s hs -
  rw [hsearch, Option.mem_some_iff] at hs
  exact hs ▸ h

def exposingTask (o : Uuid) (s : Str) : Task :=
  ⟨o, o, o, none, o, none, ['a'], some (shortest s), .backlog, .medium, none, 1, 0, 0, false, none⟩

theorem exposingTask_admitted (o : Uuid) (s : Str) :
    TaskListing.Admits ⟨none, none, none, none, none⟩ o (exposingTask o s) :=
  ⟨rfl, rfl, nofun, nofun, nofun, nofun, nofun⟩

theorem exposed (folding : CaseFolding) {o : Uuid} {s : Str} (hne : s ≠ [])
    (h : InTask s (exposingTask o s)) : ∀ c ∈ s, Plain c := by
  rcases h with htitle | ⟨d, hd, hoccurs⟩
  · change s.map Library.foldCase <:+: [Library.foldCase 'a'] at htitle
    have hlength : s.length ≤ 1 := by simpa using htitle.length_le
    obtain ⟨c, rfl⟩ : ∃ c, s = [c] := by
      cases s with
      | nil => exact absurd rfl hne
      | cons c s => exact ⟨c, by simpa using hlength⟩
    have hcase : Library.foldCase c = Library.foldCase 'a' := by
      simpa using htitle.eq_of_length_le (by simp)
    refine List.forall_mem_singleton.mpr ⟨?_, ?_, ?_⟩
    · rintro rfl
      exact absurd (folding.percent _ hcase.symm) (by decide)
    · rintro rfl
      exact absurd (folding.underscore _ hcase.symm) (by decide)
    · rintro rfl
      exact absurd (folding.backslash _ hcase.symm) (by decide)
  · cases hd
    refine shortest_plain folding (hoccurs.eq_of_length_le ?_).symm
    simpa using shortest_length s

omit [Library] in
theorem storable_put {t : Task} (htitle : nul ∉ t.title) (hdescription : ∀ d ∈ t.description,
    nul ∉ d) : Storable (Db.empty.put ⟨.tasks, t⟩) := by
  have hrows : ∀ x : Task, x ∈ (Db.empty.put ⟨.tasks, t⟩).rows .tasks → x = t := fun x hx => by
    rcases Db.mem_put.mp hx with h | h
    · cases h
      rfl
    · exact absurd h.1 (Db.not_mem_empty _)
  have hnodup := List.Nodup.of_map _ ((Db.empty.put ⟨.tasks, t⟩).rows .tasks).nodup
  have hsubset : ((Db.empty.put ⟨.tasks, t⟩).rows .tasks).list ⊆ [t] := fun x hx =>
    List.mem_singleton.mpr (hrows x hx)
  have hone := (List.subperm_of_subset hnodup hsubset).length_le
  exact ⟨fun x hx => hrows x hx ▸ htitle, fun x hx => hrows x hx ▸ hdescription,
    hone.trans (show 1 ≤ 9223372036854775807 by decide)⟩

/-- The listing finds the text as it is exactly when it holds no metacharacter, or a NUL, which
no stored text has. -/
theorem search_exact (folding : CaseFolding) {search : Str}
    (hblank : ∃ c ∈ search, isSpace c = false) :
    (∀ (db : Db) (o : Uuid) (q : TaskListing) (sortBy : Str) (size : PageSize),
      Storable db → q.search = some search → ∀ t ∈ db.rows .tasks,
        { q with search := none }.Admits o t →
          (q.Includes db o sortBy size t ↔ InTask (strip search) t)) ↔
      (∀ c ∈ strip search, Plain c) ∨ nul ∈ strip search := by
  have hne : search ≠ [] := by
    rintro rfl
    simp at hblank
  have hstrip : strip search ≠ [] := by
    obtain ⟨c, hc, hspace⟩ := hblank
    exact fun hnil => absurd (strip_eq_nil.mp hnil c hc) (by simp [hspace])
  constructor
  · intro h
    by_contra hall
    obtain ⟨hmeta, hnul⟩ := not_or.mp hall
    let t := exposingTask (drawnId 0) (strip search)
    have hstored : Storable (Db.empty.put ⟨.tasks, t⟩) := by
      refine storable_put (show nul ∉ ['a'] by decide) fun d hd hmem => ?_
      cases hd
      rcases shortest_subset _ _ hmem with h | h | h
      · exact hnul h
      · cases h
      · cases h
    have ht : t ∈ (Db.empty.put ⟨.tasks, t⟩).rows .tasks := Db.mem_put.mpr (Or.inl rfl)
    have hadmits := exposingTask_admitted (drawnId 0) (strip search)
    have hfound : TaskListing.Found search t :=
      Or.inr ⟨_, rfl, ilike_percent.mpr ⟨_, List.suffix_refl _, shortest_found _⟩⟩
    have hexact := h _ (drawnId 0) ⟨none, none, none, none, some search⟩ []
      ⟨1, by decide, by decide⟩ hstored rfl t ht hadmits
    rw [TaskListing.includes_iff hstored ht, TaskListing.admits_search rfl hne hadmits,
      TaskListing.encodes_iff rfl hne] at hexact
    exact hmeta (exposed folding hstrip (hexact.mp ⟨hfound, hnul⟩))
  · intro hplain db o q sortBy size hdb hsearch t ht hadmits
    rw [TaskListing.includes_iff hdb ht, TaskListing.admits_search hsearch hne hadmits,
      TaskListing.encodes_iff hsearch hne]
    by_cases hnul : nul ∈ strip search
    · simp only [hnul, not_true_eq_false, and_false, false_iff]
      exact not_inTask folding hdb ht hnul
    · rw [found_iff (hplain.resolve_right hnul)]
      exact and_iff_left hnul

end

section

open scoped Ascii

theorem toLower_caseless {c d : Char} (hd : d.toNat < 97 ∨ 122 < d.toNat) (h : c.toLower = d) :
    c = d := by
  unfold Char.toLower at h
  split at h
  · next hupper =>
    subst h
    have hlow : 65 ≤ c.val.toNat := hupper.1
    have hhigh : c.val.toNat ≤ 90 := hupper.2
    have hval : (c.val + 32).toNat = c.val.toNat + 32 := by
      have h32 : (32 : UInt32).toNat = 32 := rfl
      rw [UInt32.toNat_add, h32]
      exact Nat.mod_eq_of_lt (by omega)
    change (c.val + 32).toNat < 97 ∨ 122 < (c.val + 32).toNat at hd
    omega
  · exact h

theorem ascii_folding : CaseFolding where
  nul _ h := toLower_caseless (by decide) h
  percent _ h := toLower_caseless (by decide) h
  underscore _ h := toLower_caseless (by decide) h
  backslash _ h := toLower_caseless (by decide) h

def roomTask : Task :=
  { exposingTask (drawnId 0) [] with title := "Clean room 1500".toList, description := none }

def percentSearch : Str := "50%".toList

theorem roomTask_storable : Storable (Db.empty.put ⟨.tasks, roomTask⟩) :=
  storable_put (by decide) nofun

/-- A search for a percentage finds a number. -/
theorem search_not_exact : ∃ q : TaskListing, q.search = some percentSearch ∧
    Storable (Db.empty.put ⟨.tasks, roomTask⟩) ∧
      { q with search := none }.Admits (drawnId 0) roomTask ∧
    q.Includes (Db.empty.put ⟨.tasks, roomTask⟩) (drawnId 0) []
      ⟨20, by decide, by decide⟩ roomTask ∧
    ¬ InTask (strip percentSearch) roomTask := by
  have ht : roomTask ∈ (Db.empty.put ⟨.tasks, roomTask⟩).rows .tasks := Db.mem_put.mpr (Or.inl rfl)
  have hadmits : TaskListing.Admits ⟨none, none, none, none, none⟩ (drawnId 0) roomTask :=
    ⟨rfl, rfl, nofun, nofun, nofun, nofun, nofun⟩
  have hfound : TaskListing.Found percentSearch roomTask := Or.inl (by decide +kernel)
  refine ⟨⟨none, none, none, none, some percentSearch⟩, rfl, roomTask_storable, hadmits, ?_, ?_⟩
  · rw [TaskListing.includes_iff roomTask_storable ht, TaskListing.admits_search rfl (by decide)
      hadmits, TaskListing.encodes_iff rfl (by decide)]
    exact ⟨hfound, by decide⟩
  · rintro (h | ⟨d, hd, -⟩)
    · exact absurd h (by decide +kernel)
    · cases hd

theorem search_exact_word :
    TaskListing.Includes ⟨none, none, none, none, some " Room ".toList⟩
      (Db.empty.put ⟨.tasks, roomTask⟩) (drawnId 0) [] ⟨20, by decide, by decide⟩ roomTask ↔
    InTask "Room".toList roomTask := by
  have hplain : (strip " Room ".toList).all (fun c => decide (Plain c)) = true := by decide
  have ht : roomTask ∈ (Db.empty.put ⟨.tasks, roomTask⟩).rows .tasks := Db.mem_put.mpr (Or.inl rfl)
  exact (search_exact ascii_folding ⟨'R', by decide, by decide⟩).mpr
    (Or.inl fun c hc => of_decide_eq_true (List.all_eq_true.mp hplain c hc)) _ _ _ _ _
    roomTask_storable rfl roomTask ht
    ⟨rfl, rfl, nofun, nofun, nofun, nofun, nofun⟩

end

end MultiTenantSaas
