import MultiTenantSaas.Process

/-!
One thread of a run: what it performs and how it ends, when what the operations
answer is known and the other threads leave some property of the state alone; and
the execution of one program amid interference, act by act.
-/

set_option autoImplicit false

namespace Process

universe u

variable {S : Signature.{u}} {ε α β ι : Type} {σ : Type}

namespace Prog

/-- However the operations answer within `L`, each of them meets `P` and the program
ends within `E`. -/
def Keeps (L : (o : S.Op) → Except ε (S.Resp o) → Prop) (P : S.Op → Prop)
    (E : Except ε α → Prop) : Prog S ε α → Prop
  | .done a => E a
  | .call o k => P o ∧ ∀ a, L o a → (k a).Keeps L P E

section Keeps

variable {L : (o : S.Op) → Except ε (S.Resp o) → Prop} {P : S.Op → Prop}

theorem Keeps.mono {p : Prog S ε α} {E E' : Except ε α → Prop} (h : p.Keeps L P E)
    (himp : ∀ a, E a → E' a) : p.Keeps L P E' := by
  induction p with
  | done a => exact himp a h
  | call o k ih => exact ⟨h.1, fun a ha => ih a (h.2 a ha)⟩

theorem Keeps.weaken {L' : (o : S.Op) → Except ε (S.Resp o) → Prop} {p : Prog S ε α}
    {E : Except ε α → Prop} (h : p.Keeps L P E) (hL : ∀ o a, L' o a → L o a) : p.Keeps L' P E := by
  induction p with
  | done a => exact h
  | call o k ih => exact ⟨h.1, fun a ha => ih a (h.2 a (hL o a ha))⟩

theorem Keeps.and_ends {L' : (o : S.Op) → Except ε (S.Resp o) → Prop} {p : Prog S ε α}
    {E E' : Except ε α → Prop} (h : p.Keeps L P E) (h' : p.Ends L' E') :
    p.Keeps (fun o a => L o a ∧ L' o a) P (fun a => E a ∧ E' a) := by
  induction p with
  | done a => exact ⟨h, h'⟩
  | call o k ih => exact ⟨h.1, fun a ha => ih a (h.2 a ha.1) (h' a ha.2)⟩

theorem All.keeps {p : Prog S ε α} (h : p.All P) : p.Keeps L P fun _ => True := by
  induction p with
  | done a => trivial
  | call o k ih => exact ⟨h.1, fun a _ => ih a (h.2 a)⟩

theorem Keeps.all {p : Prog S ε α} {E : Except ε α → Prop} (hL : ∀ o a, L o a)
    (h : p.Keeps L P E) : p.All P := by
  induction p with
  | done a => trivial
  | call o k ih => exact ⟨h.1, fun a => ih a (h.2 a (hL o a))⟩

theorem Keeps.bind {p : Prog S ε α} {f : α → Prog S ε β} {E : Except ε β → Prop}
    (h : p.Keeps L P fun a => match a with
      | .ok a => (f a).Keeps L P E
      | .error e => E (.error e)) : (p >>= f).Keeps L P E := by
  induction p with
  | done a => cases a <;> exact h
  | call o k ih => exact ⟨h.1, fun a ha => ih a (h.2 a ha)⟩

theorem Keeps.tryCatch {p : Prog S ε α} {g : ε → Prog S ε α} {E : Except ε α → Prop}
    (h : p.Keeps L P fun a => match a with
      | .ok a => E (.ok a)
      | .error e => (g e).Keeps L P E) : (tryCatch p g).Keeps L P E := by
  change (p.handle g).Keeps L P E
  induction p with
  | done a => cases a <;> exact h
  | call o k ih => exact ⟨h.1, fun a ha => ih a (h.2 a ha)⟩

abbrev Returns (L : (o : S.Op) → Except ε (S.Resp o) → Prop) (P : S.Op → Prop)
    (p : Prog S ε α) (Q : α → Prop) : Prop :=
  p.Keeps L P fun a => ∀ x, a = .ok x → Q x

theorem returns_pure {a : α} {Q : α → Prop} (h : Q a) :
    (pure a : Prog S ε α).Returns L P Q := by
  rintro x ⟨⟩
  exact h

theorem returns_throw {e : ε} {Q : α → Prop} : (throw e : Prog S ε α).Returns L P Q := nofun

theorem Returns.bind {p : Prog S ε α} {f : α → Prog S ε β} {R : α → Prop} {Q : β → Prop}
    (hp : p.Returns L P R) (hf : ∀ a, R a → (f a).Returns L P Q) :
    (p >>= f).Returns L P Q := by
  refine Keeps.bind (hp.mono fun a ha => ?_)
  cases a with
  | error e => exact nofun
  | ok a => exact hf a (ha a rfl)

theorem Returns.tryCatch {p : Prog S ε α} {g : ε → Prog S ε α} {Q : α → Prop}
    (hp : p.Returns L P Q) (hg : ∀ e, (g e).Returns L P Q) :
    (tryCatch p g).Returns L P Q := by
  refine Keeps.tryCatch (hp.mono fun a ha => ?_)
  cases a with
  | error e => exact hg e
  | ok a => exact ha

theorem All.returns {p : Prog S ε α} (h : p.All P) : p.Returns L P fun _ => True :=
  h.keeps.mono fun _ _ _ _ => trivial

end Keeps

/-- However the operations answer within `L`, the program comes to an operation that meets
`P` and performs no other after it, or it ends within `E`. -/
def Leads (P : S.Op → Prop) (L : (o : S.Op) → Except ε (S.Resp o) → Prop)
    (E : Except ε α → Prop) : Prog S ε α → Prop
  | .done a => E a
  | .call o k => (P o → ∀ a, (k a).All fun o => ¬ P o) ∧ (¬ P o → ∀ a, L o a → (k a).Leads P L E)

section Leads

variable {L : (o : S.Op) → Except ε (S.Resp o) → Prop} {P : S.Op → Prop}

theorem Leads.mono {p : Prog S ε α} {E E' : Except ε α → Prop} (h : p.Leads P L E)
    (himp : ∀ a, E a → E' a) : p.Leads P L E' := by
  induction p with
  | done a => exact himp a h
  | call o k ih => exact ⟨h.1, fun ho a ha => ih a (h.2 ho a ha)⟩

theorem leads_of_all {p : Prog S ε α} {E : Except ε α → Prop} (hall : p.All fun o => ¬ P o)
    (h : p.Ends L E) : p.Leads P L E := by
  induction p with
  | done a => exact h
  | call o k ih => exact ⟨fun ho => absurd ho hall.1, fun _ a ha => ih a (hall.2 a) (h a ha)⟩

theorem leads_bind {p : Prog S ε α} {f : α → Prog S ε β} {E : Except ε β → Prop}
    (hall : p.All fun o => ¬ P o) (h : p.Ends L fun a => match a with
      | .ok a => (f a).Leads P L E
      | .error e => E (.error e)) : (p >>= f).Leads P L E := by
  induction p with
  | done a => cases a <;> exact h
  | call o k ih => exact ⟨fun ho => absurd ho hall.1, fun _ a ha => ih a (hall.2 a) (h a ha)⟩

theorem Leads.bind {p : Prog S ε α} {f : α → Prog S ε β} {E : Except ε β → Prop}
    (h : p.Leads P L fun a => match a with
      | .ok a => (f a).Leads P L E
      | .error e => E (.error e)) (hf : ∀ a, (f a).All fun o => ¬ P o) :
    (p >>= f).Leads P L E := by
  induction p with
  | done a => cases a <;> exact h
  | call o k ih => exact ⟨fun ho a => (h.1 ho a).bind hf, fun ho a ha => ih a (h.2 ho a ha)⟩

theorem Leads.tryCatch {p : Prog S ε α} {g : ε → Prog S ε α} {E : Except ε α → Prop}
    (h : p.Leads P L fun a => match a with
      | .ok a => E (.ok a)
      | .error e => (g e).Leads P L E) (hg : ∀ e, (g e).All fun o => ¬ P o) :
    (tryCatch p g).Leads P L E := by
  change (p.handle g).Leads P L E
  induction p with
  | done a => cases a <;> exact h
  | call o k ih => exact ⟨fun ho a => (h.1 ho a).tryCatch hg, fun ho a ha => ih a (h.2 ho a ha)⟩

end Leads

/-- Every operation the program may come to perform meets `R` together with what follows it. -/
def AllRest (R : (o : S.Op) → (Except ε (S.Resp o) → Prog S ε α) → Prop) : Prog S ε α → Prop
  | .done _ => True
  | .call o k => R o k ∧ ∀ a, (k a).AllRest R

section AllRest

variable {R : (o : S.Op) → (Except ε (S.Resp o) → Prog S ε α) → Prop}

theorem All.allRest {P : S.Op → Prop} {p : Prog S ε α} (h : p.All P) (hR : ∀ o k, P o → R o k) :
    p.AllRest R := by
  induction p with
  | done a => trivial
  | call o k ih => exact ⟨hR o k h.1, fun a => ih a (h.2 a)⟩

theorem AllRest.bind {R : (o : S.Op) → (Except ε (S.Resp o) → Prog S ε β) → Prop}
    {p : Prog S ε α} {f : α → Prog S ε β} (hp : p.AllRest fun o k => R o fun a => k a >>= f)
    (hf : ∀ a, (f a).AllRest R) : (p >>= f).AllRest R := by
  induction p with
  | done a =>
    cases a with
    | error e => trivial
    | ok a => exact hf a
  | call o k ih => exact ⟨hp.1, fun a => ih a (hp.2 a)⟩

end AllRest

theorem bind_assoc {γ : Type} (p : Prog S ε α) (f : α → Prog S ε β) (g : β → Prog S ε γ) :
    (p >>= f) >>= g = p >>= fun a => f a >>= g := by
  induction p with
  | done a => cases a <;> rfl
  | call o k ih => exact congrArg (Prog.call o) (funext ih)

end Prog

variable {M : System S ε α ι σ} {ok : Config S ε α ι σ → Label S ι → Prop}
  {c c' : Config S ε α ι σ}

theorem Reach.keeps_req (h : Reach M ok c c') {i : Nat} {t : Thread S ε α ι}
    (ht : c.thread i = some t) : ∃ t', c'.thread i = some t' ∧ t'.req = t.req := by
  induction h with
  | refl => exact ⟨t, ht, rfl⟩
  | step _ _ hs ih =>
    obtain ⟨t', ht', hreq⟩ := ih
    obtain ⟨t'', ht'', hreq'⟩ := hs.keeps_req ht'
    exact ⟨t'', ht'', hreq'.trans hreq⟩

theorem Reach.requests {P : ι → Prop} (h : Reach M ok c c') (hidle : ∀ i, c.thread i = none)
    (hstart : ∀ d i r, ok d (.start i r) → P r) {i : Nat} {t : Thread S ε α ι}
    (ht : c'.thread i = some t) : P t.req := by
  induction h generalizing i t with
  | refl => cases (hidle i).symm.trans ht
  | step _ hok hs ih =>
    rcases hs.thread_cases ht with hsame | ⟨r, rfl, -, rfl⟩ | ⟨r, o, k, a, -, hk, -, rfl⟩
    · exact ih hsame
    · exact hstart _ _ _ hok
    · have hreq := ih hk
      exact hreq

/-- A thread of a run performs what it keeps to. `J` is what the other threads leave
alone; the answers are those of states between `c` and `c'`. -/
theorem Reach.keeps {i : Nat} {r : ι} {p : Prog S ε α}
    {L : (o : S.Op) → Except ε (S.Resp o) → Prop} {P : S.Op → Prop} {E : Except ε α → Prop}
    (J : σ → Prop) (h : Reach M ok c c') (ht : c.thread i = some ⟨r, p⟩) (hp : p.Keeps L P E)
    (hJ : J c.state)
    (hother : ∀ d l d', Reach M ok c d → ok d l → Step M d l d' → (∀ o, l ≠ .act i o) →
      J d.state → J d'.state)
    (hown : ∀ d o k a s', Reach M ok c d → Reach M ok d c' → ok d (.act i o) →
      d.thread i = some ⟨r, .call o k⟩ → P o → J d.state → M.exec i o d.state a s' →
      L o a ∧ J s') :
    ∃ p', c'.thread i = some ⟨r, p'⟩ ∧ p'.Keeps L P E ∧ J c'.state := by
  induction h with
  | refl => exact ⟨p, ht, hp, hJ⟩
  | @step d d' l hr hok hs ih =>
    obtain ⟨p', ht', hp', hJ'⟩ := ih fun e o k a s' hce hed => hown e o k a s' hce (hed.step hok hs)
    have hto : Reach M ok d d' := .step .refl hok hs
    cases hs with
    | @start j r' hnone =>
      have hij : i ≠ j := fun hij => by rw [← hij, ht'] at hnone; cases hnone
      refine ⟨p', (Config.thread_setThread_of_ne _ hij _ _).trans ht', hp', ?_⟩
      exact hother _ _ _ hr hok (.start hnone) (fun o => nofun) hJ'
    | @act j r' o k a s' hj he =>
      by_cases hij : i = j
      · subst hij
        rw [ht'] at hj
        cases hj
        obtain ⟨hl, hJ''⟩ := hown d o k a s' hr hto hok ht' hp'.1 hJ' he
        exact ⟨k a, Config.thread_setThread _ _ _ _, hp'.2 a hl, hJ''⟩
      · refine ⟨p', (Config.thread_setThread_of_ne _ hij _ _).trans ht', hp', ?_⟩
        refine hother _ _ _ hr hok (.act hj he) (fun o' heq => hij ?_) hJ'
        cases heq
        rfl
    | env he => exact ⟨p', ht', hp', hother _ _ _ hr hok (.env he) (fun o => nofun) hJ'⟩

theorem Reach.leads {P : ι → S.Op → Prop} {L : (o : S.Op) → Except ε (S.Resp o) → Prop}
    {E : ι → Except ε α → Prop} (h : Reach M ok c c') (hidle : ∀ i, c.thread i = none)
    (hcode : ∀ r, (M.code r).Leads (P r) L (E r))
    (hL : ∀ d i o a s', Reach M ok c d → M.exec i o d.state a s' → L o a) {i : Nat} {r : ι}
    {p : Prog S ε α} (ht : c'.thread i = some ⟨r, p⟩) :
    p.Leads (P r) L (E r) ∨ p.All fun o => ¬ P r o := by
  induction h generalizing p with
  | refl => cases (hidle i).symm.trans ht
  | @step d d' l hr hok hs ih =>
    rcases hs.thread_cases ht with hsame | ⟨s, -, -, hstarted⟩ | ⟨s, o, k, a, -, hk, he, hacted⟩
    · exact ih hsame
    · cases hstarted
      exact Or.inl (hcode r)
    · cases hacted
      rcases ih hk with hleads | hall
      · by_cases ho : P r o
        · exact Or.inr (hleads.1 ho a)
        · exact Or.inl (hleads.2 ho a (hL d i o a _ hr he))
      · exact Or.inr (hall.2 a)

theorem Runs.reach {i : Nat} {r : ι} {p : Prog S ε α} {s s' : σ} {a : Except ε α}
    (h : Runs M.toMachine i p s a s') (hs : c.state = s) (ht : c.thread i = some ⟨r, p⟩) :
    ∃ c', Reach M anySchedule c c' ∧ c'.state = s' ∧ ∀ j, j ≠ i → c'.thread j = c.thread j := by
  induction h generalizing c with
  | done => exact ⟨c, .refl, hs, fun _ _ => rfl⟩
  | @call o k s s₁ s₂ b a he _ ih =>
    subst hs
    obtain ⟨c', hreach, hstate, hthread⟩ :=
      ih (c := c.setThread i ⟨r, k b⟩ s₁) rfl (Config.thread_setThread _ _ _ _)
    refine ⟨c', (Reach.step .refl trivial (.act ht he)).trans hreach, hstate, fun j hj => ?_⟩
    rw [hthread j hj]
    exact Function.update_of_ne hj _ _

structure Act (S : Signature.{u}) (σ : Type) where
  op : S.Op
  before : σ
  after : σ

/-- The program runs from start to end and performs `acts`; before each of them the
others move the state within `rely`. -/
inductive Amid (M : Machine S ε σ) (rely : σ → σ → Prop) (i : Nat) :
    Prog S ε α → σ → List (Act S σ) → Except ε α → σ → Prop where
  | done {a : Except ε α} {s : σ} : Amid M rely i (.done a) s [] a s
  | call {o : S.Op} {k : Except ε (S.Resp o) → Prog S ε α} {s s₁ s₂ s' : σ}
      {b : Except ε (S.Resp o)} {acts : List (Act S σ)} {a : Except ε α} : rely s s₁ →
      M.exec i o s₁ b s₂ → Amid M rely i (k b) s₂ acts a s' →
      Amid M rely i (.call o k) s (⟨o, s₁, s₂⟩ :: acts) a s'

section Amid

variable {N : Machine S ε σ} {rely : σ → σ → Prop} {i : Nat} {acts : List (Act S σ)} {s s' : σ}

@[simp] theorem amid_done {a b : Except ε α} :
    Amid N rely i (.done a) s acts b s' ↔ acts = [] ∧ b = a ∧ s' = s := by
  constructor
  · intro h
    cases h
    exact ⟨rfl, rfl, rfl⟩
  · rintro ⟨rfl, rfl, rfl⟩
    exact .done

theorem amid_call {o : S.Op} {k : Except ε (S.Resp o) → Prog S ε α} {a : Except ε α} :
    Amid N rely i (.call o k) s acts a s' ↔ ∃ b s₁ s₂ rest, acts = ⟨o, s₁, s₂⟩ :: rest ∧
      rely s s₁ ∧ N.exec i o s₁ b s₂ ∧ Amid N rely i (k b) s₂ rest a s' := by
  constructor
  · intro h
    cases h with
    | call hr he hk => exact ⟨_, _, _, _, rfl, hr, he, hk⟩
  · rintro ⟨b, s₁, s₂, rest, rfl, hr, he, hk⟩
    exact .call hr he hk

theorem amid_perform {o : S.Op} {a : Except ε (S.Resp o)} :
    Amid N rely i (.perform o : Prog S ε (S.Resp o)) s acts a s' ↔
      ∃ s₁, acts = [⟨o, s₁, s'⟩] ∧ rely s s₁ ∧ N.exec i o s₁ a s' := by
  simp only [Prog.perform, amid_call, amid_done]
  constructor
  · rintro ⟨b, s₁, s₂, rest, rfl, hr, he, rfl, rfl, rfl⟩
    exact ⟨s₁, rfl, hr, he⟩
  · rintro ⟨s₁, rfl, hr, he⟩
    exact ⟨a, s₁, s', [], rfl, hr, he, rfl, rfl, rfl⟩

theorem amid_bind {p : Prog S ε α} {f : α → Prog S ε β} {b : Except ε β} :
    Amid N rely i (p >>= f) s acts b s' ↔
      (∃ a acts₁ acts₂ s₁, acts = acts₁ ++ acts₂ ∧ Amid N rely i p s acts₁ (.ok a) s₁ ∧
        Amid N rely i (f a) s₁ acts₂ b s') ∨
      ∃ e, Amid N rely i p s acts (.error e) s' ∧ b = .error e := by
  induction p generalizing s acts with
  | done a =>
    cases a with
    | error e =>
      change Amid N rely i (.done (.error e)) s acts b s' ↔ _
      simp only [amid_done]
      constructor
      · rintro ⟨rfl, rfl, rfl⟩
        exact Or.inr ⟨e, ⟨rfl, rfl, rfl⟩, rfl⟩
      · rintro (⟨a, _, _, s₁, -, ⟨-, ha, -⟩, -⟩ | ⟨e', ⟨rfl, he, rfl⟩, rfl⟩)
        · cases ha
        · cases he
          exact ⟨rfl, rfl, rfl⟩
    | ok a =>
      change Amid N rely i (f a) s acts b s' ↔ _
      constructor
      · intro h
        exact Or.inl ⟨a, [], acts, s, rfl, .done, h⟩
      · rintro (⟨a', _, _, s₁, rfl, hp, hf⟩ | ⟨e, hp, -⟩)
        · obtain ⟨rfl, ha, rfl⟩ := amid_done.mp hp
          cases ha
          exact hf
        · cases (amid_done.mp hp).2.1
  | call o k ih =>
    change Amid N rely i (.call o fun r => (k r) >>= f) s acts b s' ↔ _
    simp only [amid_call]
    constructor
    · rintro ⟨c, s₁, s₂, rest, rfl, hr, he, hk⟩
      rcases (ih c).mp hk with ⟨a, acts₁, acts₂, t, rfl, hp, hf⟩ | ⟨e, hp, hb⟩
      · exact Or.inl ⟨a, _ :: acts₁, acts₂, t, rfl, ⟨c, s₁, s₂, acts₁, rfl, hr, he, hp⟩, hf⟩
      · exact Or.inr ⟨e, ⟨c, s₁, s₂, rest, rfl, hr, he, hp⟩, hb⟩
    · rintro (⟨a, _, acts₂, t, rfl, ⟨c, s₁, s₂, acts₁, rfl, hr, he, hp⟩, hf⟩ |
        ⟨e, ⟨c, s₁, s₂, rest, rfl, hr, he, hp⟩, hb⟩)
      · exact ⟨c, s₁, s₂, acts₁ ++ acts₂, rfl, hr, he,
          (ih c).mpr (Or.inl ⟨a, acts₁, acts₂, t, rfl, hp, hf⟩)⟩
      · exact ⟨c, s₁, s₂, rest, rfl, hr, he, (ih c).mpr (Or.inr ⟨e, hp, hb⟩)⟩

theorem amid_tryCatch {p : Prog S ε α} {g : ε → Prog S ε α} {b : Except ε α} :
    Amid N rely i (tryCatch p g) s acts b s' ↔
      (∃ a, Amid N rely i p s acts (.ok a) s' ∧ b = .ok a) ∨
      ∃ e acts₁ acts₂ s₁, acts = acts₁ ++ acts₂ ∧ Amid N rely i p s acts₁ (.error e) s₁ ∧
        Amid N rely i (g e) s₁ acts₂ b s' := by
  change Amid N rely i (p.handle g) s acts b s' ↔ _
  induction p generalizing s acts with
  | done a =>
    cases a with
    | error e =>
      change Amid N rely i (g e) s acts b s' ↔ _
      constructor
      · intro h
        exact Or.inr ⟨e, [], acts, s, rfl, .done, h⟩
      · rintro (⟨a, hp, -⟩ | ⟨e', _, _, s₁, rfl, hp, hg⟩)
        · cases (amid_done.mp hp).2.1
        · obtain ⟨rfl, he, rfl⟩ := amid_done.mp hp
          cases he
          exact hg
    | ok a =>
      change Amid N rely i (.done (.ok a)) s acts b s' ↔ _
      simp only [amid_done]
      constructor
      · rintro ⟨rfl, rfl, rfl⟩
        exact Or.inl ⟨a, ⟨rfl, rfl, rfl⟩, rfl⟩
      · rintro (⟨a', ⟨rfl, ha, rfl⟩, rfl⟩ | ⟨e, _, _, s₁, -, ⟨-, he, -⟩, -⟩)
        · cases ha
          exact ⟨rfl, rfl, rfl⟩
        · cases he
  | call o k ih =>
    change Amid N rely i (.call o fun r => (k r).handle g) s acts b s' ↔ _
    simp only [amid_call]
    constructor
    · rintro ⟨c, s₁, s₂, rest, rfl, hr, he, hk⟩
      rcases (ih c).mp hk with ⟨a, hp, hb⟩ | ⟨e, acts₁, acts₂, t, rfl, hp, hg⟩
      · exact Or.inl ⟨a, ⟨c, s₁, s₂, rest, rfl, hr, he, hp⟩, hb⟩
      · exact Or.inr ⟨e, _ :: acts₁, acts₂, t, rfl, ⟨c, s₁, s₂, acts₁, rfl, hr, he, hp⟩, hg⟩
    · rintro (⟨a, ⟨c, s₁, s₂, rest, rfl, hr, he, hp⟩, hb⟩ |
        ⟨e, _, acts₂, t, rfl, ⟨c, s₁, s₂, acts₁, rfl, hr, he, hp⟩, hg⟩)
      · exact ⟨c, s₁, s₂, rest, rfl, hr, he, (ih c).mpr (Or.inl ⟨a, hp, hb⟩)⟩
      · exact ⟨c, s₁, s₂, acts₁ ++ acts₂, rfl, hr, he,
          (ih c).mpr (Or.inr ⟨e, acts₁, acts₂, t, rfl, hp, hg⟩)⟩

theorem Amid.ends {p : Prog S ε α} {L : (o : S.Op) → Except ε (S.Resp o) → Prop} {P : S.Op → Prop}
    {E : Except ε α → Prop} {a : Except ε α} (h : Amid N rely i p s acts a s')
    (hp : p.Keeps L P E) (hL : ∀ o u b v, N.exec i o u b v → L o b) : E a := by
  induction h with
  | done => exact hp
  | call _ he _ ih => exact ih (hp.2 _ (hL _ _ _ _ he))

theorem Amid.keeps {p : Prog S ε α} {a : Except ε α} {τ : Type} (g : σ → τ)
    (h : Amid N rely i p s acts a s') (hrely : ∀ u v, rely u v → g v = g u)
    (hacts : ∀ act ∈ acts, g act.after = g act.before) : g s' = g s := by
  induction h with
  | done => rfl
  | call hr _ _ ih =>
    obtain ⟨hact, hrest⟩ := List.forall_mem_cons.mp hacts
    rw [ih hrest, hact, hrely _ _ hr]

/-- A program alone, with the choices of a scheduler; at most `n` operations. -/
def Prog.alone {χ η : Type} (sch : Scheduler N χ η) (i : Nat) (x : χ) :
    Nat → Prog S ε α → σ → Option (Except ε α × σ)
  | _, .done a, s => some (a, s)
  | 0, .call _ _, _ => none
  | n+1, .call o k, s => (sch.next i x o s).bind fun r => Prog.alone sch i x n (k r.1) r.2

theorem Prog.alone_runs {χ η : Type} {sch : Scheduler N χ η} {x : χ} {n : Nat}
    {p : Prog S ε α} {a : Except ε α} (h : p.alone sch i x n s = some (a, s')) :
    Runs N i p s a s' := by
  induction n generalizing p s with
  | zero =>
    cases p with
    | done b => cases h; exact .done
    | call o k => cases h
  | succ n ih =>
    cases p with
    | done b => cases h; exact .done
    | call o k =>
      obtain ⟨⟨b, t⟩, hn, hk⟩ := Option.bind_eq_some_iff.mp h
      exact .call (sch.exec i x o s b t hn) (ih hk)

theorem Reach.amid {r : ι} {p q : Prog S ε α} (hrefl : ∀ u, rely u u)
    (htrans : ∀ u v w, rely u v → rely v w → rely u w)
    (hother : ∀ d l d', Step M d l d' → (∀ o, l ≠ .act i o) → rely d.state d'.state)
    (h : Reach M ok c c') (hp : c.thread i = some ⟨r, p⟩) (hq : c'.thread i = some ⟨r, q⟩) :
    ∃ t, rely t c'.state ∧ ∀ acts a s', Amid M.toMachine rely i q t acts a s' →
      ∃ before, Amid M.toMachine rely i p c.state (before ++ acts) a s' := by
  induction h generalizing q with
  | refl =>
    rw [hp] at hq
    cases hq
    exact ⟨c.state, hrefl _, fun acts a s' ha => ⟨[], ha⟩⟩
  | @step d d' l hr hok hs ih =>
    obtain ⟨⟨r', q'⟩, ht, hreq⟩ := hr.keeps_req hp
    cases hreq
    obtain ⟨t, hto, hrest⟩ := ih ht
    by_cases hl : ∃ o, l = .act i o
    · obtain ⟨o, rfl⟩ := hl
      cases hs with
      | @act _ r' o k b s'' hj he =>
        rw [ht] at hj
        cases hj
        rw [Config.thread_setThread] at hq
        cases hq
        refine ⟨s'', hrefl _, fun acts a s' ha => ?_⟩
        obtain ⟨before, hb⟩ := hrest _ _ _ (.call hto he ha)
        exact ⟨before ++ [⟨o, d.state, s''⟩], by simpa using hb⟩
    · have hl' : ∀ o, l ≠ .act i o := fun o ho => hl ⟨o, ho⟩
      have hsame : q = q' := by
        cases hs with
        | @start j r' hnone =>
          have hij : i ≠ j := fun hij => by rw [← hij, ht] at hnone; cases hnone
          simp only [Config.setThread, Function.update_of_ne hij] at hq
          rw [ht] at hq
          cases hq
          rfl
        | @act j r' o k b s'' hj he =>
          have hij : i ≠ j := fun hij => hl' o (by rw [hij])
          simp only [Config.setThread, Function.update_of_ne hij] at hq
          rw [ht] at hq
          cases hq
          rfl
        | env he =>
          rw [ht] at hq
          cases hq
          rfl
      subst hsame
      exact ⟨t, htrans _ _ _ hto (hother d l d' hs hl'), hrest⟩

theorem Amid.of_runs {p : Prog S ε α} {a : Except ε α} (h : Runs N i p s a s') :
    ∃ acts, Amid N Eq i p s acts a s' := by
  induction h with
  | done => exact ⟨[], .done⟩
  | call he _ ih =>
    obtain ⟨acts, hk⟩ := ih
    exact ⟨_, .call rfl he hk⟩

end Amid

end Process
