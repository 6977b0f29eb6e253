import MultiTenantSaas.OneThread

/-!
A machine whose operations answer as a condition says: what it runs, the machine without
the condition runs too.
-/

set_option autoImplicit false

namespace Process

universe u

variable {S : Signature.{u}} {ε α ι : Type} {σ : Type}

abbrev Answering (S : Signature.{u}) (ε : Type) (σ : Type) :=
  Nat → (o : S.Op) → σ → Except ε (S.Resp o) → Prop

def Machine.answering (N : Machine S ε σ) (good : Answering S ε σ) : Machine S ε σ where
  exec i o s a s' := N.exec i o s a s' ∧ good i o s a
  env := N.env

def System.answering (M : System S ε α ι σ) (good : Answering S ε σ) : System S ε α ι σ :=
  { M.toMachine.answering good with code := M.code }

variable {M : System S ε α ι σ} {N : Machine S ε σ} {good : Answering S ε σ}

theorem Step.of_answering {c c' : Config S ε α ι σ} {l : Label S ι}
    (h : Step (M.answering good) c l c') : Step M c l c' := by
  cases h with
  | start hnone => exact .start hnone
  | act ht he => exact .act ht he.1
  | env he => exact .env he

theorem Reach.of_answering {ok : Config S ε α ι σ → Label S ι → Prop} {c₀ c : Config S ε α ι σ}
    (h : Reach (M.answering good) ok c₀ c) : Reach M ok c₀ c := by
  induction h with
  | refl => exact .refl
  | step _ hok hs ih => exact ih.step hok hs.of_answering

section

variable {rely rely' : σ → σ → Prop} {i : Nat} {p : Prog S ε α} {s s' : σ}
  {acts : List (Act S σ)} {a : Except ε α}

theorem Amid.mono (himp : ∀ u v, rely u v → rely' u v) (h : Amid N rely i p s acts a s') :
    Amid N rely' i p s acts a s' := by
  induction h with
  | done => exact .done
  | call hr he _ ih => exact .call (himp _ _ hr) he ih

/-- What a program keeps to while the others and its own operations keep `J`. -/
theorem Amid.ends_within {L : (o : S.Op) → Except ε (S.Resp o) → Prop} {P : S.Op → Prop}
    {E : Except ε α → Prop} (J : σ → Prop) (h : Amid N rely i p s acts a s')
    (hp : p.Keeps L P E) (hs : J s) (hrely : ∀ u v, rely u v → J u → J v)
    (hown : ∀ o u b v, P o → J u → N.exec i o u b v → L o b ∧ J v) : E a ∧ J s' := by
  induction h with
  | done => exact ⟨hp, hs⟩
  | call hr he _ ih =>
    obtain ⟨hL, hJ⟩ := hown _ _ _ _ hp.1 (hrely _ _ hr hs) he
    exact ih (hp.2 _ hL) hJ

end

end Process
