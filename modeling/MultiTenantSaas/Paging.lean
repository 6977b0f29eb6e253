import Mathlib.Data.List.Sort

/-!
Offset pages of a list, of one fixed size and counted from one, and pages that are cut
from different orders of the same items.
-/

set_option autoImplicit false

namespace Paging

variable {α β : Type} {size : Nat} {l l' : List α}

/-- Page `k`: skip the pages before it, take one page. -/
def page (size k : Nat) (l : List α) : List α := (l.drop ((k - 1) * size)).take size

def count (size total : Nat) : Nat := (total + size - 1) / size

theorem lt_count (hsize : 0 < size) {k total : Nat} :
    k < count size total ↔ k * size < total := by
  rw [count, ← Nat.succ_le_iff, Nat.le_div_iff_mul_le hsize, Nat.succ_mul]
  omega

theorem length_page (k : Nat) : (page size (k + 1) l).length = min size (l.length - k * size) := by
  simp [page]

theorem page_ne_nil (hsize : 0 < size) {k : Nat} (hk : k < count size l.length) :
    page size (k + 1) l ≠ [] := by
  have hlt := (lt_count hsize).mp hk
  rw [← List.length_pos_iff, length_page]
  omega

theorem page_full (hsize : 0 < size) {k : Nat} (hk : k + 1 < count size l.length) :
    (page size (k + 1) l).length = size := by
  have hlt := (lt_count hsize).mp hk
  rw [Nat.succ_mul] at hlt
  rw [length_page]
  omega

theorem page_eq_nil (hsize : 0 < size) {k : Nat} (hk : count size l.length ≤ k) :
    page size (k + 1) l = [] := by
  have hge : ¬ k * size < l.length := fun hlt => absurd ((lt_count hsize).mpr hlt) (by omega)
  rw [← List.length_eq_zero_iff, length_page]
  omega

theorem getElem_mem_page {k i : Nat} (hi : i < l.length) (hlow : k * size ≤ i)
    (hhigh : i < (k + 1) * size) : l[i] ∈ page size (k + 1) l := by
  rw [Nat.succ_mul] at hhigh
  rw [List.mem_iff_getElem]
  refine ⟨i - k * size, ?_, ?_⟩
  · rw [length_page]
    omega
  · simp only [page, Nat.add_sub_cancel, List.getElem_take, List.getElem_drop]
    congr 1
    omega

def pages (size : Nat) (order : Nat → List α) (n : Nat) : List α :=
  (List.range n).flatMap fun k => page size (k + 1) (order k)

theorem pages_succ (order : Nat → List α) (n : Nat) :
    pages size order (n + 1) = pages size order n ++ page size (n + 1) (order n) := by
  simp [pages, List.range_succ]

theorem take_succ_page (n : Nat) :
    l.take ((n + 1) * size) = l.take (n * size) ++ page size (n + 1) l := by
  rw [Nat.succ_mul, List.take_add]
  rfl

theorem pages_eq_take (l : List α) (n : Nat) :
    pages size (fun _ => l) n = l.take (n * size) := by
  induction n with
  | zero => simp [pages]
  | succ n ih => rw [pages_succ, ih, take_succ_page]

theorem pages_eq (hsize : 0 < size) (l : List α) :
    pages size (fun _ => l) (count size l.length) = l := by
  have hge : l.length ≤ count size l.length * size := by
    by_contra hlt
    exact Nat.lt_irrefl _ ((lt_count hsize).mpr (Nat.not_le.mp hlt))
  rw [pages_eq_take, List.take_of_length_le hge]

section

variable [LinearOrder β] {key : α → β}

/-- The items are in an order that `key` allows, latest first. -/
abbrev Descending (key : α → β) (l : List α) : Prop := l.Pairwise fun a b => key b ≤ key a

theorem Descending.map_eq (hl : Descending key l) (hl' : Descending key l') (hp : l.Perm l') :
    l.map key = l'.map key := by
  have hkeys : (l.map key).Pairwise fun a b => b ≤ a := List.pairwise_map.mpr hl
  have hkeys' : (l'.map key).Pairwise fun a b => b ≤ a := List.pairwise_map.mpr hl'
  exact List.Perm.eq_of_pairwise (fun _ _ _ _ h h' => le_antisymm h' h) hkeys hkeys' (hp.map key)

/-- Where the key changes from one place to the next, the items before are those of greater
keys, in every order. -/
theorem Descending.take_eq_filter (hl : Descending key l) {m : List α}
    (hm : m.map key = l.map key) {n : Nat} (hn : 0 < n) (hlt : n < l.length)
    (hne : key l[n - 1] ≠ key l[n]) : m.take n = m.filter fun x => key l[n] < key x := by
  have hle := List.pairwise_iff_getElem.mp hl
  have hbefore : ∀ y ∈ (l.map key).take n, key l[n] < y := by
    intro y hy
    rw [← List.map_take] at hy
    obtain ⟨x, hx, rfl⟩ := List.mem_map.mp hy
    obtain ⟨j, hj, rfl⟩ := List.mem_iff_getElem.mp hx
    rw [List.length_take] at hj
    rw [List.getElem_take]
    have hlast : key l[n - 1] ≤ key l[j] := by
      rcases Nat.lt_or_eq_of_le (show j ≤ n - 1 by omega) with hlt' | rfl
      · exact hle j (n - 1) (by omega) (by omega) hlt'
      · exact le_refl _
    exact lt_of_lt_of_le (lt_of_le_of_ne (hle (n - 1) n (by omega) hlt (by omega)) hne.symm) hlast
  have hafter : ∀ y ∈ (l.map key).drop n, ¬ key l[n] < y := by
    intro y hy
    rw [← List.map_drop] at hy
    obtain ⟨x, hx, rfl⟩ := List.mem_map.mp hy
    obtain ⟨j, hj, rfl⟩ := List.mem_iff_getElem.mp hx
    rw [List.length_drop] at hj
    rw [List.getElem_drop, not_lt]
    rcases Nat.eq_zero_or_pos j with rfl | hpos
    · exact le_refl _
    · exact hle n (n + j) hlt (by omega) (by omega)
  rw [← hm, ← List.map_take] at hbefore
  rw [← hm, ← List.map_drop] at hafter
  have hkept : (m.take n).filter (fun x => key l[n] < key x) = m.take n :=
    List.filter_eq_self.mpr fun x hx => decide_eq_true (hbefore _ (List.mem_map_of_mem hx))
  have hgone : (m.drop n).filter (fun x => key l[n] < key x) = [] :=
    List.filter_eq_nil_iff.mpr fun x hx => by simpa using hafter _ (List.mem_map_of_mem hx)
  conv_rhs => rw [← List.take_append_drop n m, List.filter_append, hkept, hgone, List.append_nil]

/-- Two items of equal keys on both sides of a page boundary. -/
def Splits (key : α → β) (size : Nat) (l : List α) : Prop :=
  ∃ n, 0 < n ∧ ∃ h : n * size < l.length, key l[n * size - 1] = key l[n * size]

theorem Descending.take_perm (hsize : 0 < size) (hl : Descending key l)
    (hl' : Descending key l') (hp : l.Perm l') (hwhole : ¬ Splits key size l) (n : Nat) :
    (l.take (n * size)).Perm (l'.take (n * size)) := by
  rcases Nat.eq_zero_or_pos n with rfl | hn
  · simp
  by_cases hlt : n * size < l.length
  · have hpos : 0 < n * size := Nat.mul_pos hn hsize
    have hne : key l[n * size - 1] ≠ key l[n * size] := fun he => hwhole ⟨n, hn, hlt, he⟩
    rw [hl.take_eq_filter rfl hpos hlt hne,
      hl.take_eq_filter (hl.map_eq hl' hp).symm hpos hlt hne]
    exact hp.filter _
  · rw [List.take_of_length_le (by omega), List.take_of_length_le (hp.length_eq ▸ by omega)]
    exact hp

theorem Descending.page_perm (hsize : 0 < size) (hl : Descending key l)
    (hl' : Descending key l') (hp : l.Perm l') (hwhole : ¬ Splits key size l) (n : Nat) :
    (page size (n + 1) l).Perm (page size (n + 1) l') := by
  have hnext := hl.take_perm hsize hl' hp hwhole (n + 1)
  rw [take_succ_page, take_succ_page] at hnext
  have hsame : (l.take (n * size) ++ page size (n + 1) l').Perm
      (l'.take (n * size) ++ page size (n + 1) l') :=
    (hl.take_perm hsize hl' hp hwhole n).append_right _
  exact (List.perm_append_left_iff _).mp (hnext.trans hsame.symm)

/-- Pages from different orders still partition the items when no tie is split. -/
theorem Descending.pages_perm (hsize : 0 < size) (hl : Descending key l) {order : Nat → List α}
    (horder : ∀ n, Descending key (order n) ∧ l.Perm (order n)) (hwhole : ¬ Splits key size l) :
    (pages size order (count size l.length)).Perm l := by
  have hpages : ∀ n, (pages size order n).Perm (pages size (fun _ => l) n) := by
    intro n
    induction n with
    | zero => rfl
    | succ n ih =>
      rw [pages_succ, pages_succ]
      exact ih.append (hl.page_perm hsize (horder n).1 (horder n).2 hwhole n).symm
  have hall := hpages (count size l.length)
  rwa [pages_eq hsize l] at hall

/-- When a tie is split, the two items may be exchanged from one page to the next, and one of
them is on both. -/
theorem Descending.split_twice (hsize : 0 < size) (hl : Descending key l)
    (hsplit : Splits key size l) : ∃ order : Nat → List α,
      (∀ n, Descending key (order n) ∧ l.Perm (order n)) ∧
        ¬ (pages size order (count size l.length)).Nodup := by
  obtain ⟨n, hn, hlt, hkey⟩ := hsplit
  obtain ⟨m, rfl⟩ : ∃ m, n = m + 1 := ⟨n - 1, by omega⟩
  have hle : m * size + 1 ≤ (m + 1) * size := by rw [Nat.succ_mul]; omega
  obtain ⟨i, hnext⟩ : ∃ i, (m + 1) * size = i + 1 := ⟨(m + 1) * size - 1, by omega⟩
  simp only [hnext, Nat.add_sub_cancel] at hkey
  rw [hnext] at hlt
  -- the places `i` and `i + 1` are the last of one page and the first of the next
  obtain ⟨s, a, b, t, rfl, rfl⟩ : ∃ s a b t, l = s ++ a :: b :: t ∧ s.length = i := by
    refine ⟨l.take i, l[i], l[i + 1], l.drop (i + 2), ?_, ?_⟩
    · rw [← List.drop_eq_getElem_cons, ← List.drop_eq_getElem_cons, List.take_append_drop]
    · rw [List.length_take]
      omega
  have htie : key a = key b := by simpa using hkey
  have hswap : Descending key (s ++ b :: a :: t) := by
    simp only [Descending, List.pairwise_append, List.pairwise_cons, List.mem_cons,
      forall_eq_or_imp] at hl ⊢
    obtain ⟨hs, ⟨⟨-, ha⟩, hb, ht⟩, hst⟩ := hl
    refine ⟨hs, ⟨⟨htie.le, hb⟩, ha, ht⟩, fun x hx => ?_⟩
    obtain ⟨hxa, hxb, hxt⟩ := hst x hx
    exact ⟨hxb, hxa, hxt⟩
  let order : Nat → List α := fun k => if k = m + 1 then s ++ b :: a :: t else s ++ a :: b :: t
  have hcount : m + 1 < count size (s ++ a :: b :: t).length := (lt_count hsize).mpr (by omega)
  refine ⟨order, fun k => ?_, fun hnd => ?_⟩
  · by_cases hk : k = m + 1
    · simpa only [order, if_pos hk] using ⟨hswap, List.Perm.append_left s (List.Perm.swap b a t)⟩
    · simpa only [order, if_neg hk] using ⟨hl, List.Perm.refl _⟩
  · have hfirst : a ∈ page size (m + 1) (order m) := by
      have hlen : s.length < (s ++ a :: b :: t).length := by simp
      have hmem : (s ++ a :: b :: t)[s.length] ∈ page size (m + 1) (s ++ a :: b :: t) :=
        getElem_mem_page hlen (by omega) (by omega)
      simpa [order] using hmem
    have hsecond : a ∈ page size (m + 2) (order (m + 1)) := by
      have hlen : s.length + 1 < (s ++ b :: a :: t).length := by simp
      have hmem : (s ++ b :: a :: t)[s.length + 1] ∈ page size (m + 2) (s ++ b :: a :: t) :=
        getElem_mem_page hlen (by omega) (by rw [Nat.succ_mul]; omega)
      simpa [order] using hmem
    have hdisj := List.pairwise_iff_getElem.mp (List.nodup_flatMap.mp hnd).2 m (m + 1)
      (by rw [List.length_range]; omega) (by rw [List.length_range]; exact hcount) (by omega)
    simp only [Function.onFun, List.getElem_range] at hdisj
    exact hdisj hfirst hsecond

end

end Paging
