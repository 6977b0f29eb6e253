import Mathlib.Order.Basic
import MultiTenantSaas.Process

/-!
Ghost state: a value beside the state of a system, which the operations move and no
program reads. Every run is a run with the ghost.
-/

set_option autoImplicit false

namespace Process

universe u

variable {S : Signature.{u}} {ε α β γ ι σ : Type}

/-- The system with a ghost: operation `o` of thread `i` moves it as `move i o` says. -/
def System.ghost (M : System S ε α ι σ) (move : Nat → S.Op → γ → γ) :
    System S ε α ι (σ × γ) where
  exec i o s a s' := M.exec i o s.1 a s'.1 ∧ s'.2 = move i o s.2
  env s s' := M.env s.1 s'.1 ∧ s'.2 = s.2
  code := M.code

def Config.ghost (c : Config S ε α ι σ) (g : γ) : Config S ε α ι (σ × γ) :=
  ⟨(c.state, g), c.thread⟩

def Config.erase (c : Config S ε α ι (σ × γ)) : Config S ε α ι σ := ⟨c.state.1, c.thread⟩

variable {M : System S ε α ι σ} {move : Nat → S.Op → γ → γ}
  {ok : Config S ε α ι σ → Label S ι → Prop}

theorem Step.ghost {c c' : Config S ε α ι σ} {l : Label S ι} (h : Step M c l c')
    (move : Nat → S.Op → γ → γ) (g : γ) :
    ∃ g', Step (M.ghost move) (c.ghost g) l (c'.ghost g') := by
  cases h with
  | start hnone => exact ⟨g, .start hnone⟩
  | @act i r o k a s' ht he =>
    have he' : (M.ghost move).exec i o (c.state, g) a (s', move i o g) := ⟨he, rfl⟩
    exact ⟨move i o g, .act ht he'⟩
  | @env s' he =>
    have he' : (M.ghost move).env (c.state, g) (s', g) := ⟨he, rfl⟩
    exact ⟨g, .env he'⟩

theorem Reach.ghost {c₀ c : Config S ε α ι σ} (h : Reach M ok c₀ c)
    (move : Nat → S.Op → γ → γ) (g₀ : γ) :
    ∃ g, Reach (M.ghost move) (fun d l => ok d.erase l) (c₀.ghost g₀) (c.ghost g) := by
  induction h with
  | refl => exact ⟨g₀, .refl⟩
  | step _ hok hs ih =>
    obtain ⟨g, hr⟩ := ih
    obtain ⟨g', hs'⟩ := hs.ghost move g
    exact ⟨g', hr.step hok hs'⟩

def Scheduler.ghost {χ η : Type} (sch : Scheduler M.toMachine χ η) (move : Nat → S.Op → γ → γ) :
    Scheduler (M.ghost move).toMachine χ η where
  next i x o s := (sch.next i x o s.1).map fun p => (p.1, (p.2, move i o s.2))
  turn x s := (sch.turn x s.1).map fun s' => (s', s.2)
  exec i x o s a s' h := by
    obtain ⟨⟨b, t⟩, hn, heq⟩ := Option.map_eq_some_iff.mp h
    cases heq
    exact ⟨sch.exec i x o s.1 b t hn, rfl⟩
  env x s s' h := by
    obtain ⟨t, ht, heq⟩ := Option.map_eq_some_iff.mp h
    cases heq
    exact ⟨sch.env x s.1 t ht, rfl⟩

theorem Reach.ghost_le [Preorder γ] {ok' : Config S ε α ι (σ × γ) → Label S ι → Prop}
    {c₀ c : Config S ε α ι (σ × γ)} (hmove : ∀ i o g, g ≤ move i o g)
    (h : Reach (M.ghost move) ok' c₀ c) : c₀.state.2 ≤ c.state.2 := by
  induction h with
  | refl => exact le_refl _
  | step _ _ hs ih =>
    cases hs with
    | start hnone => exact ih
    | act ht he => exact ih.trans (he.2 ▸ hmove _ _ _)
    | env he => exact ih.trans he.2.ge

theorem Reach.arrivals {c₀ c : Config S ε α ι σ} {f : Nat → β} {F : ι → β} (h : Reach M ok c₀ c)
    (hf : ∀ i t, c.thread i = some t → f i = F t.req) :
    Reach M (fun d l => ok d l ∧ ∀ i r, l = .start i r → f i = F r) c₀ c := by
  induction h with
  | refl => exact .refl
  | step _ hok hs ih =>
    refine .step (ih fun i t ht => ?_) ⟨hok, fun i r hl => ?_⟩ hs
    · obtain ⟨t', ht', hreq⟩ := hs.keeps_req ht
      exact hreq ▸ hf i t' ht'
    · subst hl
      cases hs
      exact hf i ⟨r, M.code r⟩ (Function.update_self ..)

end Process
