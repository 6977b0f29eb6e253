import Mathlib.Data.Finset.Insert
import Mathlib.Logic.Hydra
import MultiTenantSaas.Process

/-!
Progress: a relation of waiting along which some height grows has no cycle and its
chains end, and the threads of a run perform finitely many operations until a new
request arrives, those aside that wait for the environment.
-/

set_option autoImplicit false

namespace Process

universe u

open Relation

section

variable {τ : Type} {W : τ → τ → Prop} (height : τ → Nat)

include height in
theorem height_lt_of_waits (h : ∀ i j, W i j → height i < height j) {i j : τ}
    (hij : TransGen W i j) : height i < height j := by
  induction hij with
  | single hw => exact h _ _ hw
  | tail _ hw ih => exact ih.trans (h _ _ hw)

theorem acyclic_of_height (h : ∀ i j, W i j → height i < height j) (i : τ) : ¬ TransGen W i i :=
  fun hi => Nat.lt_irrefl _ (height_lt_of_waits height h hi)

/-- Who cannot move waits for someone who is busy too; then one of them can move. -/
theorem exists_able {Busy Able : τ → Prop} {bound : Nat}
    (h : ∀ i j, W i j → height i < height j ∧ height j ≤ bound)
    (hbusy : ∀ i, Busy i → Able i ∨ ∃ j, W i j ∧ Busy j) {i : τ} (hi : Busy i) :
    ∃ j, ReflTransGen W i j ∧ Busy j ∧ Able j := by
  induction hn : bound - height i using Nat.strong_induction_on generalizing i with
  | _ n ih =>
    rcases hbusy i hi with hable | ⟨j, hw, hj⟩
    · exact ⟨i, .refl, hi, hable⟩
    · obtain ⟨hlt, hle⟩ := h i j hw
      obtain ⟨l, hjl, hl⟩ := ih (bound - height j) (by omega) hj rfl
      exact ⟨l, .head hw hjl, hl⟩

end

variable {S : Signature.{u}} {ε α ι : Type} {σ : Type}

inductive Prog.Rest : Prog S ε α → Prog S ε α → Prop where
  | answer (o : S.Op) (k : Except ε (S.Resp o) → Prog S ε α) (a : Except ε (S.Resp o)) :
      Rest (k a) (.call o k)

variable {M : System S ε α ι σ} {ok : Config S ε α ι σ → Label S ι → Prop}

/-- The environment moves, or it lets an operation go on that waits for it. -/
def envOnly (waits : S.Op → Prop) (_ : Config S ε α ι σ) (l : Label S ι) : Prop :=
  l = .env ∨ ∃ i o, l = .act i o ∧ waits o

def Config.Within (c : Config S ε α ι σ) (s : Finset Nat) : Prop := ∀ i, c.thread i ≠ none → i ∈ s

/-- What is left of the threads in `s`. -/
def Config.left (c : Config S ε α ι σ) (s : Finset Nat) : Multiset (Prog S ε α) :=
  s.val.filterMap fun i => (c.thread i).map Thread.rest

theorem Config.left_insert (c : Config S ε α ι σ) {s : Finset Nat} {i : Nat} (hi : i ∉ s)
    {t : Thread S ε α ι} (ht : c.thread i = some t) :
    c.left (insert i s) = t.rest ::ₘ c.left s := by
  simp only [Config.left, Finset.insert_val_of_notMem hi]
  exact Multiset.filterMap_cons_some _ _ _ (by simp [ht])

theorem Config.left_congr {c c' : Config S ε α ι σ} {s : Finset Nat}
    (h : ∀ i ∈ s, c.thread i = c'.thread i) : c.left s = c'.left s := by
  obtain ⟨m, hm⟩ := s
  induction m using Quotient.inductionOn with
  | h l => exact congrArg _ (List.filterMap_congr fun i hi => by rw [h i hi])

theorem Step.left {c c' : Config S ε α ι σ} {i : Nat} {o : S.Op} (h : Step M c (.act i o) c')
    {s : Finset Nat} (hi : i ∈ s) : CutExpand Prog.Rest (c'.left s) (c.left s) := by
  cases h with
  | @act _ r _ k a s' ht he =>
    have hsame : (c.setThread i ⟨r, k a⟩ s').left (s.erase i) = c.left (s.erase i) :=
      Config.left_congr fun j hj => c.thread_setThread_of_ne (Finset.ne_of_mem_erase hj) _ _
    rw [← Finset.insert_erase hi,
      Config.left_insert _ (Finset.notMem_erase i s) (c.thread_setThread i _ _),
      Config.left_insert _ (Finset.notMem_erase i s) ht, hsame]
    exact cutExpand_single_add (.answer o k a) _

theorem Step.within {c c' : Config S ε α ι σ} {i : Nat} {o : S.Op} (h : Step M c (.act i o) c')
    {s : Finset Nat} (hs : c.Within s) : i ∈ s ∧ c'.Within s := by
  cases h with
  | @act _ r _ k a s' ht he =>
    have hi : i ∈ s := hs i (by simp [ht])
    refine ⟨hi, fun j hj => ?_⟩
    by_cases hji : j = i
    · exact hji ▸ hi
    · rw [c.thread_setThread_of_ne hji] at hj
      exact hs j hj

/-- The environment and the operations that wait for it lengthen nothing. -/
theorem Reach.left {waits : S.Op → Prop} {c c' : Config S ε α ι σ}
    (h : Reach M (envOnly waits) c c') {s : Finset Nat} (hs : c.Within s) :
    c'.Within s ∧ ReflTransGen (CutExpand Prog.Rest) (c'.left s) (c.left s) := by
  induction h with
  | refl => exact ⟨hs, .refl⟩
  | @step d d' l _ hok hstep ih =>
    obtain ⟨hd, hleft⟩ := ih
    rcases hok with rfl | ⟨i, o, rfl, -⟩
    · cases hstep with
      | env he => exact ⟨hd, hleft⟩
    · obtain ⟨hi, hd'⟩ := hstep.within hd
      exact ⟨hd', .head (hstep.left hi) hleft⟩

end Process
