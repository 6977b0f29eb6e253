import Mathlib.Data.List.Chain
import MultiTenantSaas.Ownership

/-!
What `slugify` makes of a name. The blanks at the ends go first and the punctuation after
them, so a name may still begin or end with a separator, which becomes a hyphen.
-/

set_option autoImplicit false

namespace MultiTenantSaas

def separates (c : Char) : Bool := isSpace c || c == '_' || c == '-'

theorem hyphenate_cons (inRun : Bool) (c : Char) (cs : Str) :
    hyphenate inRun (c :: cs) =
      if separates c then if inRun then hyphenate true cs else '-' :: hyphenate true cs
      else c :: hyphenate false cs := rfl

theorem mem_hyphenate {inRun : Bool} {s : Str} {c : Char} (h : c ∈ hyphenate inRun s) :
    c = '-' ∨ c ∈ s ∧ separates c = false := by
  induction s generalizing inRun with
  | nil => cases h
  | cons d cs ih =>
    have htail : ∀ {b : Bool}, c ∈ hyphenate b cs → c = '-' ∨ c ∈ d :: cs ∧ separates c = false :=
      fun hc => (ih hc).imp_right fun ⟨hmem, hsep⟩ => ⟨List.mem_cons_of_mem _ hmem, hsep⟩
    rw [hyphenate_cons] at h
    split at h
    · split at h
      · exact htail h
      · rcases List.mem_cons.mp h with rfl | h
        · exact Or.inl rfl
        · exact htail h
    · next hd =>
      rcases List.mem_cons.mp h with rfl | h
      · exact Or.inr ⟨List.mem_cons_self, by simpa using hd⟩
      · exact htail h

theorem hyphenate_length_le (inRun : Bool) (s : Str) : (hyphenate inRun s).length ≤ s.length := by
  induction s generalizing inRun with
  | nil => exact Nat.le_refl 0
  | cons c cs ih =>
    rw [hyphenate_cons]
    split
    · split
      · exact (ih true).trans (Nat.le_succ _)
      · exact Nat.succ_le_succ (ih true)
    · exact Nat.succ_le_succ (ih false)

theorem head_hyphenate_true {s : Str} {c : Char} (h : (hyphenate true s).head? = some c) :
    separates c = false := by
  induction s with
  | nil => cases h
  | cons d cs ih =>
    rw [hyphenate_cons] at h
    split at h
    · exact ih h
    · next hd =>
      cases h
      simpa using hd

def NotBothHyphens (c d : Char) : Prop := ¬ (c = '-' ∧ d = '-')

theorem isChain_hyphenate (inRun : Bool) (s : Str) :
    (hyphenate inRun s).IsChain NotBothHyphens := by
  induction s generalizing inRun with
  | nil => exact .nil
  | cons d cs ih =>
    rw [hyphenate_cons]
    split
    · split
      · exact ih true
      · refine List.isChain_cons.mpr ⟨fun c hc hboth => ?_, ih true⟩
        have hsep := head_hyphenate_true hc
        rw [hboth.2] at hsep
        cases hsep
    · next hd =>
      refine List.isChain_cons.mpr ⟨fun c _ hboth => ?_, ih false⟩
      rw [hboth.1] at hd
      exact hd rfl

theorem head_hyphenate_iff {s : Str} :
    (hyphenate false s).head? = some '-' ↔ ∃ c, s.head? = some c ∧ separates c = true := by
  cases s with
  | nil => simp [hyphenate]
  | cons d cs =>
    rw [hyphenate_cons]
    by_cases hd : separates d = true
    · simp [hd]
    · have hne : d ≠ '-' := by
        rintro rfl
        exact hd rfl
      simp [hd, hne]

theorem hyphenate_append (inRun : Bool) (s : Str) (c : Char) :
    hyphenate inRun (s ++ [c]) = hyphenate inRun s ++
      if separates c then
        if (inRun && s.isEmpty) || s.getLast?.any separates then [] else ['-']
      else [c] := by
  induction s generalizing inRun with
  | nil => cases inRun <;> simp [hyphenate_cons, hyphenate]
  | cons d cs ih =>
    have hlast : (d :: cs).getLast?.any separates =
        ((separates d && cs.isEmpty) || cs.getLast?.any separates) := by
      cases cs with
      | nil => simp
      | cons e es => simp [List.getLast?_cons_cons]
    rw [List.cons_append, hyphenate_cons, hyphenate_cons, hlast]
    by_cases hd : separates d = true
    · cases inRun <;> simp [hd, ih]
    · simp [hd, ih]

theorem last_hyphenate_iff {s : Str} :
    (hyphenate false s).getLast? = some '-' ↔ ∃ c, s.getLast? = some c ∧ separates c = true := by
  induction s using List.reverseRecOn with
  | nil => simp [hyphenate]
  | append_singleton s c ih =>
    rw [hyphenate_append]
    by_cases hc : separates c = true
    · by_cases hlast : s.getLast?.any separates = true
      · obtain ⟨d, hd, hsep⟩ := (Option.any_eq_true _ _).mp hlast
        simp [hc, hlast, ih.mpr ⟨d, hd, hsep⟩]
      · simp [hc, hlast]
    · have hne : c ≠ '-' := by
        rintro rfl
        exact hc rfl
      simp [hc, hne]

theorem hyphenate_eq_self {s : Str} (hsep : ∀ c ∈ s, separates c = true → c = '-')
    (hchain : s.IsChain NotBothHyphens) :
    hyphenate false s = s ∧ (s.head? ≠ some '-' → hyphenate true s = s) := by
  induction s with
  | nil => exact ⟨rfl, fun _ => rfl⟩
  | cons c cs ih =>
    obtain ⟨hnext, hrest⟩ := List.isChain_cons.mp hchain
    obtain ⟨hfalse, htrue⟩ := ih (fun d hd => hsep d (List.mem_cons_of_mem _ hd)) hrest
    rw [hyphenate_cons, hyphenate_cons]
    by_cases hc : separates c = true
    · obtain rfl := hsep c List.mem_cons_self hc
      have hhead : cs.head? ≠ some '-' := fun hd => hnext '-' hd ⟨rfl, rfl⟩
      simp [hc, htrue hhead]
    · simp [hc, hfalse]

theorem nil_not_mem_splitOnPPrepend {s acc : Str} (hchain : s.IsChain NotBothHyphens)
    (hlast : s.getLast? ≠ some '-') (hhead : acc = [] → ∃ c, s.head? = some c ∧ c ≠ '-') :
    [] ∉ List.splitOnPPrepend (· == '-') s acc := by
  induction s generalizing acc with
  | nil =>
    have hne : acc ≠ [] := fun hnil => by
      obtain ⟨c, hc, -⟩ := hhead hnil
      cases hc
    simpa using hne
  | cons c cs ih =>
    obtain ⟨hnext, hrest⟩ := List.isChain_cons.mp hchain
    have hlast' : cs.getLast? ≠ some '-' := fun hd =>
      hlast (by rw [List.getLast?_cons, hd]; rfl)
    by_cases hc : c = '-'
    · subst hc
      have hne : acc ≠ [] := fun hnil => by
        obtain ⟨d, hd, hpd⟩ := hhead hnil
        cases hd
        exact hpd rfl
      rw [List.splitOnPPrepend_cons_pos rfl, List.mem_cons, not_or]
      refine ⟨fun hnil => hne (List.reverse_eq_nil_iff.mp hnil.symm), ih hrest hlast' fun _ => ?_⟩
      cases cs with
      | nil => exact absurd rfl hlast
      | cons d ds => exact ⟨d, rfl, fun hd => hnext d rfl ⟨rfl, hd⟩⟩
    · rw [List.splitOnPPrepend_cons_neg (by simpa using hc)]
      exact ih hrest hlast' nofun

section

variable [Library]

/-- How `str.lower` treats texts: what it gives is made of characters that it leaves alone,
a text of such characters is left alone, and the hyphen is one. -/
structure Lowering : Prop where
  lowered : ∀ s, ∀ c ∈ Library.lower s, Library.lower [c] = [c]
  fixed : ∀ s, (∀ c ∈ s, Library.lower [c] = [c]) → Library.lower s = s
  hyphen : Library.lower ['-'] = ['-']

def slugKeeps (c : Char) : Bool := isWord c || isSpace c || c == '-'

/-- The name without the blanks at its ends, in lower case, with its punctuation. -/
def trimmedName (name : Str) : Str := strip (Library.lower name)

/-- A slug in its canonical form, with the slug that `register` builds from it. -/
structure CanonicalSlug (name : Str) : Prop where
  visible : ∀ c ∈ slugify name, isSpace c = false ∧ c ≠ '_'
  single : ¬ ['-', '-'] <:+: slugify name
  leading : (slugify name).head? ≠ some '-'
  trailing : (slugify name).getLast? ≠ some '-'
  idempotent : slugify (slugify name) = slugify name
  segments : slugify name ≠ [] → ∀ suffix : Uuid,
    [] ∉ (slugify name ++ '-' :: suffix.hexPrefix 6).splitOn '-'

/-- The first and the last of the characters that are kept are no separators. -/
def EdgesVisible (name : Str) : Prop :=
  (∀ c, (trimmedName name).find? slugKeeps = some c → separates c = false) ∧
    ∀ c, (trimmedName name).reverse.find? slugKeeps = some c → separates c = false

/-- Nothing is added to what `lower` gives. -/
theorem slugify_length_le (name : Str) : (slugify name).length ≤ (Library.lower name).length :=
  (hyphenate_length_le _ _).trans ((List.length_filter_le _ _).trans (strip_length_le _))

theorem slugify_visible (name : Str) : ∀ c ∈ slugify name, isSpace c = false ∧ c ≠ '_' := by
  intro c hc
  rcases mem_hyphenate hc with rfl | ⟨-, hsep⟩
  · exact ⟨rfl, by decide⟩
  · simp only [separates, Bool.or_eq_false_iff, beq_eq_false_iff_ne] at hsep
    exact hsep.1

theorem slugify_single (name : Str) : (slugify name).IsChain NotBothHyphens :=
  isChain_hyphenate false _

theorem slugify_idempotent (lowering : Lowering) (name : Str) :
    slugify (slugify name) = slugify name := by
  have hlower : Library.lower (slugify name) = slugify name := by
    refine lowering.fixed _ fun c hc => ?_
    rcases mem_hyphenate hc with rfl | ⟨hmem, -⟩
    · exact lowering.hyphen
    · exact lowering.lowered _ _ (mem_strip (List.mem_filter.mp hmem).1)
  have hstrip : strip (slugify name) = slugify name :=
    strip_eq_self fun c hc => (slugify_visible name c hc).1
  have hkeep : (slugify name).filter (fun c => isWord c || isSpace c || c == '-') =
      slugify name := by
    refine List.filter_eq_self.mpr fun c hc => ?_
    rcases mem_hyphenate hc with rfl | ⟨hmem, -⟩
    · simp
    · exact (List.mem_filter.mp hmem).2
  have hself := (hyphenate_eq_self (s := slugify name) (fun c hc hsep => ?_)
    (slugify_single name)).1
  · rw [slugify, hlower, hstrip, hkeep, hself]
  · obtain ⟨hspace, hne⟩ := slugify_visible name c hc
    simpa [separates, hspace, hne] using hsep

theorem slugify_eq (name : Str) :
    slugify name = hyphenate false ((trimmedName name).filter slugKeeps) := rfl

theorem head_slugify_iff {name : Str} : (slugify name).head? ≠ some '-' ↔
    ∀ c, (trimmedName name).find? slugKeeps = some c → separates c = false := by
  rw [slugify_eq, ne_eq, head_hyphenate_iff, List.head?_filter]
  simp

theorem last_slugify_iff {name : Str} : (slugify name).getLast? ≠ some '-' ↔
    ∀ c, (trimmedName name).reverse.find? slugKeeps = some c → separates c = false := by
  rw [slugify_eq, ne_eq, last_hyphenate_iff, ← List.head?_reverse, ← List.filter_reverse,
    List.head?_filter]
  simp

theorem slugify_segments {name : Str} (hne : slugify name ≠ [])
    (hhead : (slugify name).head? ≠ some '-') (hlast : (slugify name).getLast? ≠ some '-')
    (suffix : Uuid) : [] ∉ (slugify name ++ '-' :: suffix.hexPrefix 6).splitOn '-' := by
  have hhex : ∀ c ∈ suffix.hexPrefix 6, c ≠ '-' := fun c hc he =>
    dash_not_mem_hexDigits 32 suffix.bits.val (he ▸ List.mem_of_mem_take hc)
  have hsuffix : suffix.hexPrefix 6 ≠ [] := by
    rw [← List.length_pos_iff, Uuid.hexPrefix, List.length_take, suffix.hex_length]
    decide
  have hfirst := List.head?_eq_some_head hne
  have hend := List.getLast?_eq_some_getLast hsuffix
  refine nil_not_mem_splitOnPPrepend ?_ ?_ fun _ => ⟨(slugify name).head hne, ?_, ?_⟩
  · refine (slugify_single name).append (List.isChain_cons.mpr ⟨?_, ?_⟩) ?_
    · exact fun c hc hboth => hhex c (List.mem_of_mem_head? hc) hboth.2
    · have hpairs : (suffix.hexPrefix 6).Pairwise NotBothHyphens :=
        List.pairwise_of_forall_mem_list fun c hc d _ hboth => hhex c hc hboth.1
      exact hpairs.isChain
    · exact fun c hc d _ hboth => hlast (by rw [← hboth.1]; exact hc)
  · rw [List.getLast?_append, List.getLast?_cons, hend, Option.getD_some, Option.some_or]
    intro he
    exact hhex _ (List.getLast_mem hsuffix) (Option.some.inj he)
  · rw [List.head?_append, hfirst]
    rfl
  · exact fun he => hhead (by rw [hfirst, he])

/-- The slug of a name is canonical exactly when the edges of the name are. -/
theorem slugify_canonical_iff (lowering : Lowering) (name : Str) :
    CanonicalSlug name ↔ EdgesVisible name := by
  constructor
  · intro h
    exact ⟨head_slugify_iff.mp h.leading, last_slugify_iff.mp h.trailing⟩
  · rintro ⟨hhead, hlast⟩
    have hleading := head_slugify_iff.mpr hhead
    have htrailing := last_slugify_iff.mpr hlast
    refine ⟨slugify_visible name, ?_, hleading, htrailing,
      slugify_idempotent lowering name, fun hne => slugify_segments hne hleading htrailing⟩
    rintro ⟨before, after, hsplit⟩
    have hsingle := slugify_single name
    rw [← hsplit] at hsingle
    have hpair := hsingle.left_of_append.right_of_append
    exact List.isChain_pair.mp hpair ⟨rfl, rfl⟩

end

section

open scoped Ascii

theorem ascii_lowering : Lowering where
  lowered s c hc := by
    obtain ⟨d, -, rfl⟩ := List.mem_map.mp hc
    exact congrArg (· :: []) (toLower_toLower d)
  fixed s hs := by
    have hmap : s.map Char.toLower = s.map id :=
      List.map_congr_left fun c hc => (List.cons.inj (hs c hc)).1
    exact hmap.trans (List.map_id s)
  hyphen := rfl

theorem acme_canonical : CanonicalSlug "Acme  Corp.".toList := by
  refine (slugify_canonical_iff ascii_lowering _).mpr ⟨fun c hc => ?_, fun c hc => ?_⟩
  · have hfirst : (trimmedName "Acme  Corp.".toList).find? slugKeeps = some 'a' := by decide +kernel
    cases hfirst.symm.trans hc
    rfl
  · have hlast : (trimmedName "Acme  Corp.".toList).reverse.find? slugKeeps = some 'p' := by
      decide +kernel
    cases hlast.symm.trans hc
    rfl

/-- A hyphen at the end of a name stays, and the slug of the organization doubles it. -/
theorem slug_not_canonical : ¬ ∀ name, CanonicalSlug name := by
  intro hall
  have hslug : slugify "Acme -".toList = "acme-".toList := by decide +kernel
  have htrailing := (hall "Acme -".toList).trailing
  rw [hslug] at htrailing
  exact htrailing rfl

end

end MultiTenantSaas
