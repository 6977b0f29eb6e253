import Mathlib.Data.List.Basic

/-!
Deletion with ON DELETE CASCADE: when rows go, those that refer to them go too, and so on.
References may be circular.
-/

set_option autoImplicit false

namespace Cascade

variable {ρ : Type}

/-- What is left of the rows when those that are hit go. In the next round those are hit
that refer to a row which has just gone. -/
def delete (refers : ρ → ρ → Bool) : Nat → (ρ → Bool) → List ρ → List ρ
  | 0, _, rows => rows
  | n + 1, hit, rows =>
    delete refers n (fun x => (rows.filter hit).any (refers x)) (rows.filter fun x => !hit x)

/-- A row that is hit, or that refers to one which falls. -/
inductive Falls (refers : ρ → ρ → Bool) (hit : ρ → Bool) (rows : List ρ) : ρ → Prop where
  | hit {x : ρ} : x ∈ rows → hit x = true → Falls refers hit rows x
  | refers {x y : ρ} : x ∈ rows → refers x y = true → Falls refers hit rows y →
      Falls refers hit rows x

variable {refers : ρ → ρ → Bool} {hit : ρ → Bool} {rows : List ρ} {x : ρ}

theorem Falls.mem (h : Falls refers hit rows x) : x ∈ rows := by
  cases h with
  | hit hx => exact hx
  | refers hx => exact hx

theorem falls_round : Falls refers hit rows x ↔ (x ∈ rows ∧ hit x = true) ∨
    Falls refers (fun x => (rows.filter hit).any (refers x)) (rows.filter fun x => !hit x) x := by
  constructor
  · intro h
    induction h with
    | hit hx hhit => exact Or.inl ⟨hx, hhit⟩
    | @refers x y hx href _ ih =>
      by_cases hhit : hit x = true
      · exact Or.inl ⟨hx, hhit⟩
      · have hrest : x ∈ rows.filter fun x => !hit x :=
          List.mem_filter.mpr ⟨hx, by simpa using hhit⟩
        rcases ih with ⟨hy, hgone⟩ | hfalls
        · exact Or.inr (.hit hrest (List.any_eq_true.mpr
            ⟨y, List.mem_filter.mpr ⟨hy, hgone⟩, href⟩))
        · exact Or.inr (.refers hrest href hfalls)
  · rintro (⟨hx, hhit⟩ | h)
    · exact .hit hx hhit
    · induction h with
      | hit hx hround =>
        obtain ⟨y, hy, href⟩ := List.any_eq_true.mp hround
        obtain ⟨hy, hgone⟩ := List.mem_filter.mp hy
        exact .refers (List.mem_of_mem_filter hx) href (.hit hy hgone)
      | refers hx href _ ih => exact .refers (List.mem_of_mem_filter hx) href ih

theorem not_falls (h : ∀ y ∈ rows, hit y = false) : ¬ Falls refers hit rows x := by
  intro hfalls
  induction hfalls with
  | hit hx hhit => simp [h _ hx] at hhit
  | refers _ _ _ ih => exact ih

theorem delete_none {n : Nat} (h : ∀ y ∈ rows, hit y = false) :
    delete refers n hit rows = rows := by
  induction n generalizing hit with
  | zero => rfl
  | succ n ih =>
    have hgone : rows.filter hit = [] := List.filter_eq_nil_iff.mpr fun y hy => by simp [h y hy]
    have hrest : (rows.filter fun x => !hit x) = rows :=
      List.filter_eq_self.mpr fun y hy => by simp [h y hy]
    rw [delete, hgone, hrest]
    exact ih fun _ _ => rfl

/-- As many rounds as there are rows leave exactly the rows that do not fall. -/
theorem mem_delete {n : Nat} (hn : rows.length ≤ n) :
    x ∈ delete refers n hit rows ↔ x ∈ rows ∧ ¬ Falls refers hit rows x := by
  induction n generalizing hit rows with
  | zero =>
    cases List.length_eq_zero_iff.mp (Nat.le_zero.mp hn)
    simp [delete]
  | succ n ih =>
    by_cases hsome : ∃ y ∈ rows, hit y = true
    · obtain ⟨y, hy, hhit⟩ := hsome
      have hlt : (rows.filter fun x => !hit x).length < rows.length :=
        List.length_filter_lt_length_iff_exists.mpr ⟨y, hy, by simp [hhit]⟩
      have hround := @falls_round ρ refers hit rows x
      rw [delete, ih (by omega), List.mem_filter, hround]
      simp only [Bool.not_eq_true']
      constructor
      · rintro ⟨⟨hx, hmiss⟩, hrest⟩
        exact ⟨hx, fun h => h.elim (fun h => by simp [hmiss] at h) hrest⟩
      · rintro ⟨hx, h⟩
        refine ⟨⟨hx, ?_⟩, fun hrest => h (Or.inr hrest)⟩
        exact Bool.eq_false_iff.mpr fun hhit => h (Or.inl ⟨hx, hhit⟩)
    · have hnone : ∀ y ∈ rows, hit y = false := fun y hy =>
        Bool.eq_false_iff.mpr fun hhit => hsome ⟨y, hy, hhit⟩
      rw [delete_none hnone]
      exact ⟨fun hx => ⟨hx, not_falls hnone⟩, And.left⟩

theorem falls_hit_iff : (∀ y, Falls refers hit rows y → hit y = true) ↔
    ∀ y ∈ rows, ∀ z ∈ rows, refers y z = true → hit z = true → hit y = true := by
  constructor
  · exact fun h y hy z hz href hhit => h y (.refers hy href (.hit hz hhit))
  · intro h y hfalls
    induction hfalls with
    | hit _ hhit => exact hhit
    | refers hx href hy ih => exact h _ hx _ hy.mem href ih

end Cascade
