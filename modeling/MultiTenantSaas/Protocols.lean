import MultiTenantSaas.Process

/-!
Protocols that programs follow: what a thread may perform in each state of the
protocol, and where each answer leads. A relation between the states of the protocol
and those of the system holds throughout a run if the operations keep it.
-/

set_option autoImplicit false

namespace Process

universe u

variable {S : Signature.{u}} {ε α β γ ι : Type} {σ : Type}

/-- `admits g o` allows operation `o` in state `g`; its answer `a` leads to the states
`g'` with `moves g o a g'`. -/
structure Protocol (S : Signature.{u}) (ε γ : Type) where
  admits : γ → S.Op → Prop
  moves : γ → (o : S.Op) → Except ε (S.Resp o) → γ → Prop

namespace Prog

/-- From state `g` on, the program keeps to the protocol and ends within `E`. -/
def Follows (D : Protocol S ε γ) (E : Except ε α → γ → Prop) : Prog S ε α → γ → Prop
  | .done a, g => E a g
  | .call o k, g => D.admits g o ∧ ∀ a g', D.moves g o a g' → (k a).Follows D E g'

variable {D : Protocol S ε γ} {g : γ}

theorem Follows.mono {p : Prog S ε α} {E E' : Except ε α → γ → Prop} (h : p.Follows D E g)
    (himp : ∀ a g, E a g → E' a g) : p.Follows D E' g := by
  induction p generalizing g with
  | done a => exact himp a g h
  | call o k ih => exact ⟨h.1, fun a g' hm => ih a (h.2 a g' hm)⟩

theorem Follows.bind {p : Prog S ε α} {f : α → Prog S ε β} {E : Except ε β → γ → Prop}
    (h : p.Follows D (andThen (fun a => (f a).Follows D E) fun e => E (.error e)) g) :
    (p >>= f).Follows D E g := by
  induction p generalizing g with
  | done a => cases a <;> exact h
  | call o k ih => exact ⟨h.1, fun a g' hm => ih a (h.2 a g' hm)⟩

theorem Follows.tryCatch {p : Prog S ε α} {q : ε → Prog S ε α} {E : Except ε α → γ → Prop}
    (h : p.Follows D (andThen (fun a => E (.ok a)) fun e => (q e).Follows D E) g) :
    (tryCatch p q).Follows D E g := by
  change (p.handle q).Follows D E g
  induction p generalizing g with
  | done a => cases a <;> exact h
  | call o k ih => exact ⟨h.1, fun a g' hm => ih a (h.2 a g' hm)⟩

/-- A protocol that admits less: the program follows it too if its operations allow. -/
theorem Follows.restrict {D' : Protocol S ε γ} {P : S.Op → Prop} {p : Prog S ε α}
    {E : Except ε α → γ → Prop} (h : p.Follows D E g) (hp : p.All P)
    (hadm : ∀ g o, P o → D.admits g o → D'.admits g o)
    (hmoves : ∀ g o a g', D'.moves g o a g' → D.moves g o a g') : p.Follows D' E g := by
  induction p generalizing g with
  | done a => exact h
  | call o k ih =>
    exact ⟨hadm g o hp.1 h.1, fun a g' hm => ih a (h.2 a g' (hmoves g o a g' hm)) (hp.2 a)⟩

end Prog

variable {M : System S ε α ι σ} {ok : Config S ε α ι σ → Label S ι → Prop}
  {c₀ c c' : Config S ε α ι σ}

/-- Every thread of a run is somewhere in its protocol. `R i r g s` is what state `g` of
thread `i`, serving `r`, says about the state of the system: it holds when the thread
starts, the operations of the thread carry it along, and all other steps keep it. -/
theorem Reach.follows {D : ι → Protocol S ε γ} {E : ι → Except ε α → γ → Prop} {start : γ}
    {R : Nat → ι → γ → σ → Prop} (h : Reach M ok c₀ c) (hidle : ∀ i, c₀.thread i = none)
    (hcode : ∀ r, (M.code r).Follows (D r) (E r) start)
    (hstart : ∀ d i r, Reach M ok c₀ d → ok d (.start i r) → d.thread i = none →
      R i r start d.state)
    (hown : ∀ d i r o k a s' g, Reach M ok c₀ d → ok d (.act i o) →
      d.thread i = some ⟨r, .call o k⟩ → (D r).admits g o → R i r g d.state →
      M.exec i o d.state a s' → ∃ g', (D r).moves g o a g' ∧ R i r g' s')
    (hother : ∀ d l d' i r g, Reach M ok c₀ d → ok d l → Step M d l d' → (∀ o, l ≠ .act i o) →
      R i r g d.state → R i r g d'.state)
    {i : Nat} {r : ι} {p : Prog S ε α} (ht : c.thread i = some ⟨r, p⟩) :
    ∃ g, p.Follows (D r) (E r) g ∧ R i r g c.state := by
  induction h generalizing p with
  | refl => cases (hidle i).symm.trans ht
  | @step d d' l hr hok hs ih =>
    by_cases hl : ∃ o, l = .act i o
    · obtain ⟨o, rfl⟩ := hl
      cases hs with
      | @act _ r' o k a s' hi he =>
        rw [Config.thread_setThread] at ht
        cases ht
        obtain ⟨g, hf, hR⟩ := ih hi
        obtain ⟨g', hm, hR'⟩ := hown d i r o k a s' g hr hok hi hf.1 hR he
        exact ⟨g', hf.2 a g' hm, hR'⟩
    · have hl' : ∀ o, l ≠ .act i o := fun o ho => hl ⟨o, ho⟩
      rcases hs.thread_cases ht with hsame | ⟨s, rfl, hnone, hstarted⟩ | ⟨s, o, k, a, rfl, -⟩
      · obtain ⟨g, hf, hR⟩ := ih hsame
        exact ⟨g, hf, hother d l d' i r g hr hok hs hl' hR⟩
      · cases hstarted
        exact ⟨start, hcode r, hother d _ d' i r start hr hok hs hl' (hstart d i r hr hok hnone)⟩
      · exact absurd rfl (hl' o)

/-- One thread of a run follows a protocol from where it is. Its operations carry `R` along
with the state of the protocol; the answers are those of states between `c` and `c'`. -/
theorem Reach.follows_thread {D : Protocol S ε γ} {E : Except ε α → γ → Prop} {R : γ → σ → Prop}
    {i : Nat} {r : ι} {p : Prog S ε α} {g : γ} (h : Reach M ok c c')
    (ht : c.thread i = some ⟨r, p⟩) (hp : p.Follows D E g) (hR : R g c.state)
    (hown : ∀ d o k a s' g, Reach M ok c d → Reach M ok d c' →
      d.thread i = some ⟨r, .call o k⟩ → R g d.state → M.exec i o d.state a s' →
      ∃ g', D.moves g o a g' ∧ R g' s')
    (hother : ∀ d l d' g, Reach M ok c d → ok d l → Step M d l d' → (∀ o, l ≠ .act i o) →
      R g d.state → R g d'.state) :
    ∃ p' g', c'.thread i = some ⟨r, p'⟩ ∧ p'.Follows D E g' ∧ R g' c'.state := by
  induction h with
  | refl => exact ⟨p, g, ht, hp, hR⟩
  | @step d d' l hr hok hs ih =>
    obtain ⟨p', g', ht', hp', hR'⟩ :=
      ih fun e o k a s' f hce hed => hown e o k a s' f hce (hed.step hok hs)
    have hto : Reach M ok d d' := .step .refl hok hs
    by_cases hl : ∃ o, l = .act i o
    · obtain ⟨o, rfl⟩ := hl
      cases hs with
      | @act _ r' o k a s' hi he =>
        rw [ht'] at hi
        cases hi
        obtain ⟨g'', hm, hR''⟩ := hown d o k a s' g' hr hto ht' hR' he
        exact ⟨k a, g'', Config.thread_setThread _ _ _ _, hp'.2 a g'' hm, hR''⟩
    · have hl' : ∀ o, l ≠ .act i o := fun o ho => hl ⟨o, ho⟩
      obtain ⟨⟨r', q⟩, hq, hreq⟩ := hs.keeps_req ht'
      rcases hs.thread_cases hq with hsame | ⟨s, rfl, hnone, -⟩ | ⟨s, o, k, a, rfl, -⟩
      · exact ⟨p', g', hq.trans (hsame.symm.trans ht'), hp', hother d l d' g' hr hok hs hl' hR'⟩
      · cases hnone.symm.trans ht'
      · exact absurd rfl (hl' o)

end Process
