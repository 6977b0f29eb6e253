import MultiTenantSaas.OneThread

/-!
One request that arrives with no other beside it, in two states of which one mirrors the
other: what it may be answered in the first, it may be answered in the second.
-/

set_option autoImplicit false

namespace Process

universe u

variable {S : Signature.{u}} {ε α ι : Type} {σ : Type} {M : System S ε α ι σ}

/-- Nothing moves but the environment and thread `i`, which serves `r` and starts in a
state that meets `arrives`. -/
def lone (i : Nat) (r : ι) (arrives : σ → Prop) (c : Config S ε α ι σ) : Label S ι → Prop
  | .start j r' => j = i ∧ r' = r ∧ arrives c.state
  | .act j _ => j = i
  | .env => True

def LoneAnswer (M : System S ε α ι σ) (c : Config S ε α ι σ) (arrives : σ → Prop) (r : ι)
    (a : Except ε α) : Prop :=
  ∃ i c', c.thread i = none ∧ Reach M (lone i r arrives) c c' ∧ c'.thread i = some ⟨r, .done a⟩

theorem Reach.eventually_idle {ok : Config S ε α ι σ → Label S ι → Prop}
    {c₀ c : Config S ε α ι σ} (h : Reach M ok c₀ c) (hidle : ∀ i, c₀.thread i = none) :
    ∃ n, ∀ i, n ≤ i → c.thread i = none := by
  induction h with
  | refl => exact ⟨0, fun i _ => hidle i⟩
  | @step d d' l _ _ hs ih =>
    obtain ⟨n, hn⟩ := ih
    have hstarted : ∃ m, ∀ i r, l = .start i r → i < m := by
      cases l with
      | start j r => exact ⟨j + 1, fun i r he => by cases he; exact Nat.lt_succ_self j⟩
      | _ => exact ⟨0, nofun⟩
    obtain ⟨m, hm⟩ := hstarted
    refine ⟨max n m, fun i hi => Option.eq_none_iff_forall_ne_some.mpr fun t ht => ?_⟩
    have hnone := hn i (by omega)
    rcases hs.thread_cases ht with hsame | ⟨r, hl, -, -⟩ | ⟨s, o, k, a, -, hk, -, -⟩
    · cases hnone.symm.trans hsame
    · have hlt := hm i r hl
      omega
    · cases hnone.symm.trans hk

/-- How the states of two runs stay related: each operation of thread `i` that meets `P`
answers within `L`, and thread `j` may get the same answer; each move of the environment
has a counterpart. -/
structure Mirrors (N : Machine S ε σ) (i j : Nat) (L : (o : S.Op) → Except ε (S.Resp o) → Prop)
    (P : S.Op → Prop) (R : σ → σ → Prop) : Prop where
  act : ∀ o s t a s', P o → R s t → N.exec i o s a s' →
    L o a ∧ ∃ t', N.exec j o t a t' ∧ R s' t'
  env : ∀ s t s', R s t → N.env s s' → R s' t ∨ ∃ t', N.env t t' ∧ R s' t'

variable {i j : Nat} {L : (o : S.Op) → Except ε (S.Resp o) → Prop} {P : S.Op → Prop}
  {R : σ → σ → Prop} {arrives : σ → Prop} {r : ι} {p : Prog S ε α} {E : Except ε α → Prop}
  {c c' d : Config S ε α ι σ}

theorem Mirrors.reach (hm : Mirrors M.toMachine i j L P R) (h : Reach M (lone i r arrives) c c')
    (hc : c.thread i = some ⟨r, p⟩) (hd : d.thread j = some ⟨r, p⟩) (hp : p.Keeps L P E)
    (hR : R c.state d.state) :
    ∃ q d', c'.thread i = some ⟨r, q⟩ ∧ Reach M (lone j r arrives) d d' ∧
      d'.thread j = some ⟨r, q⟩ ∧ q.Keeps L P E ∧ R c'.state d'.state := by
  induction h with
  | refl => exact ⟨p, d, hc, .refl, hd, hp, hR⟩
  | @step b b' l _ hok hs ih =>
    obtain ⟨q, d', hb, hreach, hd', hq, hR'⟩ := ih
    cases hs with
    | start hnone =>
      obtain ⟨rfl, -⟩ := hok
      cases hb.symm.trans hnone
    | @act _ _ o k a s' hk he =>
      cases hok
      cases hb.symm.trans hk
      obtain ⟨hL, t', he', hR''⟩ := hm.act o _ _ a s' hq.1 hR' he
      have hreach' := hreach.step (l := .act j o) rfl (.act hd' he')
      exact ⟨k a, d'.setThread j ⟨r, k a⟩ t', Config.thread_setThread _ _ _ _, hreach',
        Config.thread_setThread _ _ _ _, hq.2 a hL, hR''⟩
    | env he =>
      rcases hm.env _ _ _ hR' he with hsame | ⟨t', he', hmoved⟩
      · exact ⟨q, d', hb, hreach, hd', hq, hsame⟩
      · have hreach' := hreach.step (l := .env) trivial (.env he')
        exact ⟨q, ⟨t', d'.thread⟩, hb, hreach', hd', hq, hmoved⟩

theorem Reach.before_arrival (I : σ → Prop) (h : Reach M (lone i r arrives) c c')
    (hidle : c'.thread i = none) (h₀ : I c.state) (henv : ∀ s s', M.env s s' → I s → I s') :
    I c'.state := by
  induction h with
  | refl => exact h₀
  | step _ hok hs ih =>
    cases hs with
    | start hnone =>
      obtain ⟨rfl, -⟩ := hok
      cases (Config.thread_setThread _ _ _ _).symm.trans hidle
    | act hk he =>
      cases hok
      cases (Config.thread_setThread _ _ _ _).symm.trans hidle
    | env he => exact henv _ _ he (ih hidle)

theorem Reach.arrival {t : Thread S ε α ι} (h : Reach M (lone i r arrives) c c')
    (hidle : c.thread i = none) (ht : c'.thread i = some t) :
    ∃ b, Reach M (lone i r arrives) c b ∧ b.thread i = none ∧ arrives b.state ∧
      Reach M (lone i r arrives) (b.setThread i ⟨r, M.code r⟩ b.state) c' := by
  induction h generalizing t with
  | refl => cases hidle.symm.trans ht
  | @step b b' l hr hok hs ih =>
    rcases hs.thread_cases ht with hsame | ⟨s, rfl, hnone, -⟩ | ⟨s, o, k, a, -, hk, -, -⟩
    · obtain ⟨b₀, hb₀, hidle₀, harr, hrest⟩ := ih hsame
      exact ⟨b₀, hb₀, hidle₀, harr, hrest.step hok hs⟩
    · obtain ⟨-, rfl, harr⟩ := hok
      cases hs
      exact ⟨b, hr, hnone, harr, .refl⟩
    · obtain ⟨b₀, hb₀, hidle₀, harr, hrest⟩ := ih hk
      exact ⟨b₀, hb₀, hidle₀, harr, hrest.step hok hs⟩

/-- What a lone request may be answered from `c` on, it may be answered from `d` on, when
the environment can bring `d` to mirror any state in which it arrives. -/
theorem LoneAnswer.mirror {a : Except ε α} {R : Nat → σ → σ → Prop} (I : σ → Prop)
    (h : LoneAnswer M c arrives r a) (hp : (M.code r).Keeps L P E) (hidle : d.thread j = none)
    (hm : ∀ i, Mirrors M.toMachine i j L P (R i)) (h₀ : I c.state)
    (henv : ∀ s s', M.env s s' → I s → I s')
    (hmeet : ∀ i s, c.thread i = none → I s → arrives s →
      ∃ t, M.env d.state t ∧ arrives t ∧ R i s t) : LoneAnswer M d arrives r a := by
  obtain ⟨i, c', hnone, hreach, hdone⟩ := h
  obtain ⟨b, hcb, hb, harr, hrest⟩ := hreach.arrival hnone hdone
  obtain ⟨t, hmove, harr', hR⟩ :=
    hmeet i b.state hnone (hcb.before_arrival I hb h₀ henv) harr
  have hmoved : Reach M (lone j r arrives) d ⟨t, d.thread⟩ :=
    .step (l := .env) .refl trivial (.env hmove)
  have hstarted := hmoved.step (l := .start j r) ⟨rfl, rfl, harr'⟩ (.start hidle)
  obtain ⟨q, d', hq, hreach', hd', -, -⟩ := (hm i).reach hrest (Config.thread_setThread _ _ _ _)
    (Config.thread_setThread _ _ _ _) hp hR
  cases hdone.symm.trans hq
  exact ⟨j, d', hidle, hstarted.trans hreach', hd'⟩

end Process
