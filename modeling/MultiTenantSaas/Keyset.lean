import Mathlib.Data.List.Sort
import Mathlib.Order.Defs.Unbundled

/-!
Keyset pagination: pages of a table that changes between the fetches, each page
starting after the last key of the page before.
-/

set_option autoImplicit false

namespace Keyset

variable {κ : Type} {before : κ → κ → Prop}

/-- The keys that a cursor leaves to come. -/
def Past (before : κ → κ → Prop) (cursor : Option κ) (k : κ) : Prop := ∀ c ∈ cursor, before c k

theorem all_past {cursor : Option κ} {k : κ} {p : κ → Bool}
    (hp : ∀ c, p c = true ↔ before c k) : cursor.all p = true ↔ Past before cursor k := by
  cases cursor <;> simp [Past, hp]

/-- The first `limit` of the keys past the cursor, and whether there are others. -/
structure IsPage (before : κ → κ → Prop) (keys : List κ) (cursor : Option κ) (limit : Nat)
    (page : List κ) (more : Bool) : Prop where
  sorted : page.Pairwise before
  mem : ∀ k ∈ page, k ∈ keys ∧ Past before cursor k
  full : more = true → page.length = limit
  rest : ∀ k ∈ keys, Past before cursor k → k ∈ page ∨ (more = true ∧ ∀ x ∈ page, before x k)

/-- `ORDER BY`, `LIMIT limit + 1`, and the look-ahead row cut off. -/
theorem isPage_take {keys sorted : List κ} {cursor : Option κ} (limit : Nat)
    (hsorted : sorted.Pairwise before)
    (hmem : ∀ k, k ∈ sorted ↔ k ∈ keys ∧ Past before cursor k) :
    IsPage before keys cursor limit ((sorted.take (limit + 1)).take limit)
      (decide (limit < (sorted.take (limit + 1)).length)) := by
  have hcut : (sorted.take (limit + 1)).take limit = sorted.take limit := by
    rw [List.take_take, Nat.min_eq_left (Nat.le_succ limit)]
  have hmore : (limit < (sorted.take (limit + 1)).length) ↔ limit < sorted.length := by
    rw [List.length_take]
    omega
  rw [hcut]
  constructor
  case sorted => exact hsorted.sublist (List.take_sublist _ _)
  case mem => exact fun k hk => (hmem k).mp (List.mem_of_mem_take hk)
  case full =>
    intro h
    have hlen := hmore.mp (of_decide_eq_true h)
    rw [List.length_take]
    omega
  case rest =>
    intro k hk hpast
    have hin := (hmem k).mpr ⟨hk, hpast⟩
    rw [← List.take_append_drop limit sorted] at hin hsorted
    rcases List.mem_append.mp hin with ht | hd
    · exact Or.inl ht
    · have hlen : limit < sorted.length := by
        have := List.length_pos_of_mem hd
        rw [List.length_drop] at this
        omega
      exact Or.inr ⟨decide_eq_true (hmore.mpr hlen),
        fun x hx => (List.pairwise_append.mp hsorted).2.2 x hx k hd⟩

theorem sort_pairwise {ρ : Type} {key : ρ → κ} {r : κ → κ → Prop}
    [DecidableRel fun a b : ρ => r (key a) (key b)] {rows : List ρ}
    (htotal : ∀ a b, r a b ∨ r b a) (htrans : ∀ a b c, r a b → r b c → r a c)
    (hlt : ∀ a b, r a b → a ≠ b → before a b) (hnodup : (rows.map key).Nodup) :
    ((rows.insertionSort fun a b => r (key a) (key b)).map key).Pairwise before := by
  have : Std.Total fun a b : ρ => r (key a) (key b) := ⟨fun a b => htotal _ _⟩
  have : IsTrans ρ fun a b => r (key a) (key b) := ⟨fun a b c => htrans _ _ _⟩
  have hperm := (List.perm_insertionSort (fun a b => r (key a) (key b)) rows).map key
  have hle := List.pairwise_map.mpr
    (List.pairwise_insertionSort (fun a b => r (key a) (key b)) rows)
  exact (hle.and (hperm.nodup_iff.mpr hnodup)).imp fun h => hlt _ _ h.1 h.2

theorem isPage_sort {ρ : Type} {key : ρ → κ} {r : κ → κ → Prop}
    [DecidableRel fun a b : ρ => r (key a) (key b)] {keys : List κ} {rows : List ρ}
    {cursor : Option κ} (limit : Nat) (htotal : ∀ a b, r a b ∨ r b a)
    (htrans : ∀ a b c, r a b → r b c → r a c) (hlt : ∀ a b, r a b → a ≠ b → before a b)
    (hnodup : (rows.map key).Nodup)
    (hmem : ∀ k, k ∈ rows.map key ↔ k ∈ keys ∧ Past before cursor k) :
    let records := (rows.insertionSort fun a b => r (key a) (key b)).take (limit + 1)
    IsPage before keys cursor limit ((records.take limit).map key)
      (decide (limit < records.length)) := by
  intro records
  have hperm := (List.perm_insertionSort (fun a b => r (key a) (key b)) rows).map key
  have hpage := isPage_take limit (sort_pairwise htotal htrans hlt hnodup)
    fun k => hperm.mem_iff.trans (hmem k)
  simpa only [records, List.map_take, List.length_map, List.length_take] using hpage

theorem filter_past {ρ : Type} {r : ρ → ρ → Prop} [Std.Irrefl r] [Std.Antisymm r] {s t : List ρ}
    (hsorted : (s ++ t).Pairwise r) {x : ρ} (hx : s.getLast? = some x) {p : ρ → Bool}
    (hp : ∀ y, p y = true ↔ r x y) : (s ++ t).filter p = t := by
  obtain ⟨s, rfl⟩ := List.getLast?_eq_some_iff.mp hx
  rw [List.append_assoc, List.pairwise_append] at hsorted
  obtain ⟨-, hlast, hfirst⟩ := hsorted
  have hs : s.filter p = [] := List.filter_eq_nil_iff.mpr fun y hy hpy => by
    have hyx := hfirst y hy x (List.mem_append_left _ (List.mem_singleton_self x))
    have heq : x = y := Std.Antisymm.antisymm x y ((hp y).mp hpy) hyx
    subst heq
    exact Std.Irrefl.irrefl x hyx
  have hself : p x = false := Bool.eq_false_iff.mpr fun h => Std.Irrefl.irrefl x ((hp x).mp h)
  have ht : t.filter p = t := List.filter_eq_self.mpr fun y hy =>
    (hp y).mpr ((List.pairwise_cons.mp hlast).1 y hy)
  simp only [List.filter_append, hs, ht, List.filter_cons, hself, List.nil_append, List.filter_nil]
  rfl

structure Fetch (κ : Type) where
  keys : List κ
  page : List κ
  more : Bool

/-- Fetches in turn, each with some limit; as long as there are more rows, the next
one starts after the last key of the page. -/
def Walk (before : κ → κ → Prop) : Option κ → List (Fetch κ) → Prop
  | _, [] => True
  | cursor, f :: fs =>
    (∃ limit, 0 < limit ∧ IsPage before f.keys cursor limit f.page f.more) ∧
      (fs = [] ∨ (f.more = true ∧ Walk before f.page.getLast? fs))

def shown (fs : List (Fetch κ)) : List κ := fs.flatMap Fetch.page

theorem Past.of_last [IsTrans κ before] {cursor : Option κ} {page : List κ} {k : κ}
    (hpage : ∀ x ∈ page, Past before cursor x) (hne : page ≠ [])
    (h : Past before page.getLast? k) : Past before cursor k := by
  intro c hc
  have hlast : page.getLast hne ∈ page.getLast? := List.getLast?_eq_some_getLast hne
  exact IsTrans.trans _ _ _ (hpage _ (List.getLast_mem hne) c hc) (h _ hlast)

theorem before_of_last [IsTrans κ before] {page : List κ} {x k : κ}
    (hsorted : page.Pairwise before) (hx : x ∈ page) (h : Past before page.getLast? k) :
    before x k := by
  have hne := List.ne_nil_of_mem hx
  have hlast : before (page.getLast hne) k := h _ (List.getLast?_eq_some_getLast hne)
  rw [← List.dropLast_concat_getLast hne] at hx hsorted
  rcases List.mem_append.mp hx with hx | hx
  · exact IsTrans.trans _ _ _ ((List.pairwise_append.mp hsorted).2.2 x hx _ (by simp)) hlast
  · rw [List.mem_singleton.mp hx]
    exact hlast

variable {cursor : Option κ} {f : Fetch κ} {fs : List (Fetch κ)}

theorem IsPage.nonempty {limit : Nat} (h : IsPage before f.keys cursor limit f.page f.more)
    (hpos : 0 < limit) (hmore : f.more = true) : f.page ≠ [] := by
  intro hnil
  have hlen := h.full hmore
  rw [hnil, List.length_nil] at hlen
  omega

theorem Walk.past [IsTrans κ before] (h : Walk before cursor fs) :
    ∀ k ∈ shown fs, Past before cursor k := by
  induction fs generalizing cursor with
  | nil => simp [shown]
  | cons f fs ih =>
    obtain ⟨⟨limit, hpos, hpage⟩, hrest⟩ := h
    intro k hk
    rcases List.mem_append.mp hk with hk | hk
    · exact (hpage.mem k hk).2
    · rcases hrest with rfl | ⟨hmore, hwalk⟩
      · cases hk
      · exact Past.of_last (fun x hx => (hpage.mem x hx).2) (hpage.nonempty hpos hmore)
          (ih hwalk k hk)

theorem Walk.sorted [IsTrans κ before] (h : Walk before cursor fs) :
    (shown fs).Pairwise before := by
  induction fs generalizing cursor with
  | nil => exact List.Pairwise.nil
  | cons f fs ih =>
    obtain ⟨⟨limit, -, hpage⟩, hrest⟩ := h
    rcases hrest with rfl | ⟨-, hwalk⟩
    · simpa [shown] using hpage.sorted
    · refine List.pairwise_append.mpr ⟨hpage.sorted, ih hwalk, fun x hx k hk => ?_⟩
      exact before_of_last hpage.sorted hx (hwalk.past k hk)

/-- A walk that has come to an end has shown every row that was there at each fetch. -/
theorem Walk.complete (h : Walk before cursor fs) (hend : ∀ f ∈ fs.getLast?, f.more = false)
    (hne : fs ≠ []) {k : κ} (hpast : Past before cursor k) (hk : ∀ f ∈ fs, k ∈ f.keys) :
    k ∈ shown fs := by
  induction fs generalizing cursor with
  | nil => exact absurd rfl hne
  | cons f fs ih =>
    obtain ⟨⟨limit, -, hpage⟩, hrest⟩ := h
    rcases hpage.rest k (hk f List.mem_cons_self) hpast with hin | ⟨hmore, hall⟩
    · exact List.mem_append_left _ hin
    · rcases hrest with rfl | ⟨-, hwalk⟩
      · rw [hend f rfl] at hmore
        cases hmore
      · cases fs with
        | nil =>
          rw [hend f rfl] at hmore
          cases hmore
        | cons g gs =>
          refine List.mem_append_right _ (ih hwalk (fun x hx => hend x (by simpa using hx))
            (List.cons_ne_nil g gs) (fun c hc => hall c (List.mem_of_getLast? hc))
            fun x hx => hk x (List.mem_cons_of_mem f hx))

end Keyset
