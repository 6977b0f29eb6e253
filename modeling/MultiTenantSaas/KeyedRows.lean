import Mathlib.Data.List.Nodup

/-!
Rows with pairwise different keys: the content of a table with a primary key.
The order of the rows carries no meaning, so every lemma is about membership
and about `get`.
-/

set_option autoImplicit false

namespace Keyed

variable {ρ κ : Type} [DecidableEq κ]

/-- Replace the row that has the key of `r`, or append `r`. -/
def upsert (key : ρ → κ) (r : ρ) : List ρ → List ρ
  | [] => [r]
  | x :: xs => if key x = key r then r :: xs else x :: upsert key r xs

theorem mem_keys_upsert (key : ρ → κ) (r : ρ) (l : List ρ) (k : κ) :
    k ∈ (upsert key r l).map key ↔ k = key r ∨ k ∈ l.map key := by
  induction l with
  | nil => simp [upsert]
  | cons x xs ih =>
    by_cases h : key x = key r
    · simp [upsert, h]
    · simp only [upsert, h, if_false, List.map_cons, List.mem_cons, ih]
      constructor
      · rintro (hx | hr | hk)
        · exact Or.inr (Or.inl hx)
        · exact Or.inl hr
        · exact Or.inr (Or.inr hk)
      · rintro (hr | hx | hk)
        · exact Or.inr (Or.inl hr)
        · exact Or.inl hx
        · exact Or.inr (Or.inr hk)

theorem nodup_upsert (key : ρ → κ) (r : ρ) {l : List ρ} (h : (l.map key).Nodup) :
    ((upsert key r l).map key).Nodup := by
  induction l with
  | nil => simp [upsert]
  | cons x xs ih =>
    simp only [List.map_cons, List.nodup_cons] at h
    by_cases hk : key x = key r
    · rw [hk] at h
      simpa [upsert, hk] using h
    · simp only [upsert, hk, if_false, List.map_cons, List.nodup_cons]
      refine ⟨?_, ih h.2⟩
      rw [mem_keys_upsert]
      rintro (hx | hx)
      · exact hk hx
      · exact h.1 hx

theorem mem_upsert {key : ρ → κ} {r z : ρ} {l : List ρ} (h : (l.map key).Nodup) :
    z ∈ upsert key r l ↔ z = r ∨ (z ∈ l ∧ key z ≠ key r) := by
  induction l with
  | nil => simp [upsert]
  | cons x xs ih =>
    simp only [List.map_cons, List.nodup_cons] at h
    by_cases hk : key x = key r
    · have hne : ∀ y ∈ xs, key y ≠ key r := by
        intro y hy he
        exact h.1 (List.mem_map.mpr ⟨y, hy, he.trans hk.symm⟩)
      simp only [upsert, hk, if_true, List.mem_cons]
      constructor
      · rintro (hz | hz)
        · exact Or.inl hz
        · exact Or.inr ⟨Or.inr hz, hne z hz⟩
      · rintro (hz | ⟨hz | hz, hzr⟩)
        · exact Or.inl hz
        · exact absurd (by rw [hz, hk]) hzr
        · exact Or.inr hz
    · simp only [upsert, hk, if_false, List.mem_cons, ih h.2]
      constructor
      · rintro (hz | hz | ⟨hz, hzr⟩)
        · exact Or.inr ⟨Or.inl hz, by rw [hz]; exact hk⟩
        · exact Or.inl hz
        · exact Or.inr ⟨Or.inr hz, hzr⟩
      · rintro (hz | ⟨hz | hz, hzr⟩)
        · exact Or.inr (Or.inl hz)
        · exact Or.inl hz
        · exact Or.inr (Or.inr ⟨hz, hzr⟩)

/-- A table: rows in which no key occurs twice. -/
structure Rows (key : ρ → κ) where
  list : List ρ
  nodup : (list.map key).Nodup

namespace Rows

variable {key : ρ → κ}

instance : Membership ρ (Rows key) := ⟨fun T r => r ∈ T.list⟩

def empty : Rows key := ⟨[], List.nodup_nil⟩

def put (r : ρ) (T : Rows key) : Rows key := ⟨upsert key r T.list, nodup_upsert key r T.nodup⟩

def get (T : Rows key) (k : κ) : Option ρ := T.list.find? (fun r => key r = k)

def filter (p : ρ → Bool) (T : Rows key) : Rows key :=
  ⟨T.list.filter p, T.nodup.sublist ((List.filter_sublist).map key)⟩

omit [DecidableEq κ] in
@[simp] theorem mem_filter {p : ρ → Bool} {T : Rows key} {r : ρ} :
    r ∈ T.filter p ↔ r ∈ T ∧ p r = true := List.mem_filter

omit [DecidableEq κ] in
theorem mem_list {T : Rows key} {r : ρ} : r ∈ T.list ↔ r ∈ T := Iff.rfl

omit [DecidableEq κ] in
@[simp] theorem not_mem_empty (r : ρ) : r ∉ (empty : Rows key) := List.not_mem_nil

theorem mem_put {T : Rows key} {r z : ρ} : z ∈ T.put r ↔ z = r ∨ (z ∈ T ∧ key z ≠ key r) :=
  mem_upsert T.nodup

theorem mem_put_self (T : Rows key) (r : ρ) : r ∈ T.put r := mem_put.mpr (Or.inl rfl)

theorem mem_put_of_ne {T : Rows key} {r z : ρ} (hz : z ∈ T) (h : key z ≠ key r) : z ∈ T.put r :=
  mem_put.mpr (Or.inr ⟨hz, h⟩)

omit [DecidableEq κ] in
theorem eq_of_key {T : Rows key} {r z : ρ} (hr : r ∈ T) (hz : z ∈ T) (h : key r = key z) :
    r = z := List.inj_on_of_nodup_map T.nodup hr hz h

theorem get_eq_some {T : Rows key} {k : κ} {r : ρ} : T.get k = some r ↔ r ∈ T ∧ key r = k := by
  constructor
  · intro h
    exact ⟨List.mem_of_find?_eq_some h, by simpa using List.find?_some h⟩
  · rintro ⟨hr, hk⟩
    cases hf : T.get k with
    | none =>
      have hn := List.find?_eq_none.mp hf r hr
      simp [hk] at hn
    | some z =>
      have hz : z ∈ T := List.mem_of_find?_eq_some hf
      have hzk : key z = k := by simpa using List.find?_some hf
      rw [eq_of_key hr hz (hk.trans hzk.symm)]

theorem get_eq_none {T : Rows key} {k : κ} : T.get k = none ↔ ∀ r ∈ T, key r ≠ k := by
  simp [get, List.find?_eq_none, mem_list]

@[simp] theorem get_put_self (T : Rows key) (r : ρ) : (T.put r).get (key r) = some r :=
  get_eq_some.mpr ⟨mem_put_self T r, rfl⟩

theorem get_put_of_ne (T : Rows key) {r : ρ} {k : κ} (h : k ≠ key r) :
    (T.put r).get k = T.get k := by
  cases hg : T.get k with
  | none =>
    rw [get_eq_none] at hg ⊢
    intro z hz hk
    rcases mem_put.mp hz with rfl | ⟨hz, -⟩
    · exact h hk.symm
    · exact hg z hz hk
  | some z =>
    obtain ⟨hz, hk⟩ := get_eq_some.mp hg
    exact get_eq_some.mpr ⟨mem_put_of_ne hz (by rw [hk]; exact h), hk⟩

theorem filter_key (T : Rows key) (k : κ) :
    T.list.filter (fun r => key r = k) = (T.get k).toList := by
  obtain ⟨l, hl⟩ := T
  change l.filter _ = (l.find? _).toList
  induction l with
  | nil => rfl
  | cons x xs ih =>
    simp only [List.map_cons, List.nodup_cons] at hl
    by_cases hx : key x = k
    · have hnone : xs.filter (fun r => key r = k) = [] := by
        refine List.filter_eq_nil_iff.mpr fun y hy => ?_
        have hne : key y ≠ k := fun he => hl.1 (List.mem_map.mpr ⟨y, hy, he.trans hx.symm⟩)
        simpa using hne
      simp [hx, hnone]
    · simpa [hx] using ih hl.2

omit [DecidableEq κ] in
/-- The rows that meet a condition, as a list; two tables that agree on these
rows list them in some order each. -/
theorem filter_perm {T U : Rows key} (p : ρ → Bool) (h : ∀ r, p r = true → (r ∈ T ↔ r ∈ U)) :
    (T.list.filter p).Perm (U.list.filter p) := by
  have hT : T.list.Nodup := List.Nodup.of_map key T.nodup
  have hU : U.list.Nodup := List.Nodup.of_map key U.nodup
  rw [List.perm_ext_iff_of_nodup (hT.filter p) (hU.filter p)]
  intro r
  simp only [List.mem_filter]
  constructor
  · rintro ⟨hr, hp⟩
    exact ⟨(h r hp).mp hr, hp⟩
  · rintro ⟨hr, hp⟩
    exact ⟨(h r hp).mpr hr, hp⟩

end Rows
end Keyed
