import Mathlib.Logic.Function.Basic

/-!
Programs that ask their surroundings one operation at a time, pools of such
programs that run interleaved over one shared state, and the rules for
reasoning about them: weakest preconditions under interference (rely and
guarantee), and runs of one program alone.
-/

set_option autoImplicit false

namespace Process

universe u

/-- The operations a program may perform and the type of each answer. -/
structure Signature where
  Op : Type u
  Resp : Op → Type

/-- A program has finished, with a value or an exception, or it waits for the
answer to one operation. An operation may itself answer with an exception. -/
inductive Prog (S : Signature.{u}) (ε α : Type) : Type u where
  | done : Except ε α → Prog S ε α
  | call : (o : S.Op) → (Except ε (S.Resp o) → Prog S ε α) → Prog S ε α

variable {S : Signature.{u}} {ε α β ι : Type} {σ : Type}

namespace Prog

def bind (p : Prog S ε α) (f : α → Prog S ε β) : Prog S ε β :=
  match p with
  | .done (.ok a) => f a
  | .done (.error e) => .done (.error e)
  | .call o k => .call o fun r => (k r).bind f

def handle (p : Prog S ε α) (h : ε → Prog S ε α) : Prog S ε α :=
  match p with
  | .done (.ok a) => .done (.ok a)
  | .done (.error e) => h e
  | .call o k => .call o fun r => (k r).handle h

instance : Monad (Prog S ε) where
  pure a := .done (.ok a)
  bind := bind

instance : MonadExceptOf ε (Prog S ε) where
  throw e := .done (.error e)
  tryCatch := handle

def All (P : S.Op → Prop) : Prog S ε α → Prop
  | .done _ => True
  | .call o k => P o ∧ ∀ r, (k r).All P

def perform (o : S.Op) : Prog S ε (S.Resp o) := .call o .done

/-- However the operations answer within `L`, the program ends within `E`. -/
def Ends (L : (o : S.Op) → Except ε (S.Resp o) → Prop) (E : Except ε α → Prop) :
    Prog S ε α → Prop
  | .done a => E a
  | .call o k => ∀ a, L o a → (k a).Ends L E

section Ends

variable {L : (o : S.Op) → Except ε (S.Resp o) → Prop}

theorem Ends.mono {p : Prog S ε α} {E E' : Except ε α → Prop} (h : p.Ends L E)
    (himp : ∀ a, E a → E' a) : p.Ends L E' := by
  induction p with
  | done a => exact himp a h
  | call o k ih => exact fun a ha => ih a (h a ha)

theorem Ends.and {p : Prog S ε α} {E E' : Except ε α → Prop} (h : p.Ends L E)
    (h' : p.Ends L E') : p.Ends L fun a => E a ∧ E' a := by
  induction p with
  | done a => exact ⟨h, h'⟩
  | call o k ih => exact fun a ha => ih a (h a ha) (h' a ha)

theorem Ends.bind {p : Prog S ε α} {f : α → Prog S ε β} {E : Except ε β → Prop}
    (h : p.Ends L fun a => match a with
      | .ok a => (f a).Ends L E
      | .error e => E (.error e)) : (p >>= f).Ends L E := by
  induction p with
  | done a => cases a <;> exact h
  | call o k ih => exact fun a ha => ih a (h a ha)

theorem Ends.tryCatch {p : Prog S ε α} {g : ε → Prog S ε α} {E : Except ε α → Prop}
    (h : p.Ends L fun a => match a with
      | .ok a => E (.ok a)
      | .error e => (g e).Ends L E) : (tryCatch p g).Ends L E := by
  change (p.handle g).Ends L E
  induction p with
  | done a => cases a <;> exact h
  | call o k ih => exact fun a ha => ih a (h a ha)

end Ends

theorem ends_any (p : Prog S ε α) {L : (o : S.Op) → Except ε (S.Resp o) → Prop} :
    p.Ends L fun _ => True := by
  induction p with
  | done a => trivial
  | call o k ih => exact fun a _ => ih a

section All

variable {P : S.Op → Prop}

theorem all_pure (a : α) : (pure a : Prog S ε α).All P := trivial

theorem all_perform {o : S.Op} (h : P o) : (perform o : Prog S ε (S.Resp o)).All P :=
  ⟨h, fun _ => trivial⟩

theorem all_of (h : ∀ o, P o) (p : Prog S ε α) : p.All P := by
  induction p with
  | done a => trivial
  | call o k ih => exact ⟨h o, fun a => ih a⟩

theorem All.mono {P' : S.Op → Prop} {p : Prog S ε α} (h : p.All P) (himp : ∀ o, P o → P' o) :
    p.All P' := by
  induction p with
  | done a => trivial
  | call o k ih => exact ⟨himp o h.1, fun a => ih a (h.2 a)⟩

theorem All.bind {p : Prog S ε α} {f : α → Prog S ε β} (hp : p.All P) (hf : ∀ a, (f a).All P) :
    (p >>= f).All P := by
  induction p with
  | done a =>
    cases a with
    | error e => trivial
    | ok a => exact hf a
  | call o k ih => exact ⟨hp.1, fun r => ih r (hp.2 r)⟩

theorem All.tryCatch {p : Prog S ε α} {h : ε → Prog S ε α} (hp : p.All P)
    (hh : ∀ e, (h e).All P) : (tryCatch p h).All P := by
  change (p.handle h).All P
  induction p with
  | done a =>
    cases a with
    | error e => exact hh e
    | ok a => trivial
  | call o k ih => exact ⟨hp.1, fun r => ih r (hp.2 r)⟩

end All

end Prog

/-- How the shared state answers: `exec i o s a s'` is one atomic execution of
operation `o` for thread `i`; `env` moves the state without any thread. -/
structure Machine (S : Signature.{u}) (ε : Type) (σ : Type) where
  exec : Nat → (o : S.Op) → σ → Except ε (S.Resp o) → σ → Prop
  env : σ → σ → Prop

structure System (S : Signature.{u}) (ε α ι : Type) (σ : Type) extends Machine S ε σ where
  code : ι → Prog S ε α

structure Thread (S : Signature.{u}) (ε α ι : Type) where
  req : ι
  rest : Prog S ε α

structure Config (S : Signature.{u}) (ε α ι : Type) (σ : Type) where
  state : σ
  thread : Nat → Option (Thread S ε α ι)

inductive Label (S : Signature.{u}) (ι : Type) where
  | start : Nat → ι → Label S ι
  | act : Nat → S.Op → Label S ι
  | env : Label S ι

def Config.setThread (c : Config S ε α ι σ) (i : Nat) (t : Thread S ε α ι) (s : σ) :
    Config S ε α ι σ := ⟨s, Function.update c.thread i (some t)⟩

/-- A new request arrives, one thread executes one operation, or the
environment moves. Thread numbers are not reused. -/
inductive Step (M : System S ε α ι σ) : Config S ε α ι σ → Label S ι → Config S ε α ι σ → Prop where
  | start {c : Config S ε α ι σ} {i : Nat} {r : ι} : c.thread i = none →
      Step M c (.start i r) (c.setThread i ⟨r, M.code r⟩ c.state)
  | act {c : Config S ε α ι σ} {i : Nat} {r : ι} {o : S.Op} {k : Except ε (S.Resp o) → Prog S ε α}
      {a : Except ε (S.Resp o)} {s' : σ} : c.thread i = some ⟨r, .call o k⟩ →
      M.exec i o c.state a s' → Step M c (.act i o) (c.setThread i ⟨r, k a⟩ s')
  | env {c : Config S ε α ι σ} {s' : σ} : M.env c.state s' → Step M c .env ⟨s', c.thread⟩

/-- Configurations reached from `c₀` by steps that all meet `ok`. -/
inductive Reach (M : System S ε α ι σ) (ok : Config S ε α ι σ → Label S ι → Prop)
    (c₀ : Config S ε α ι σ) : Config S ε α ι σ → Prop where
  | refl : Reach M ok c₀ c₀
  | step {c c' : Config S ε α ι σ} {l : Label S ι} : Reach M ok c₀ c → ok c l → Step M c l c' →
      Reach M ok c₀ c'

def anySchedule (_ : Config S ε α ι σ) (_ : Label S ι) : Prop := True

theorem Reach.mono {M : System S ε α ι σ} {ok ok' : Config S ε α ι σ → Label S ι → Prop}
    {c₀ c : Config S ε α ι σ} (himp : ∀ c l, ok c l → ok' c l) (h : Reach M ok c₀ c) :
    Reach M ok' c₀ c := by
  induction h with
  | refl => exact .refl
  | step _ hok hs ih => exact .step ih (himp _ _ hok) hs

/-- The steps of a run meet what follows from where it is and how it moves. -/
theorem Reach.strengthen {M : System S ε α ι σ} {ok ok' : Config S ε α ι σ → Label S ι → Prop}
    {c₀ c : Config S ε α ι σ} (himp : ∀ c l c', Reach M ok c₀ c → ok c l → Step M c l c' → ok' c l)
    (h : Reach M ok c₀ c) : Reach M ok' c₀ c := by
  induction h with
  | refl => exact .refl
  | step hr hok hs ih => exact .step ih (himp _ _ _ hr hok hs) hs

theorem Reach.trans {M : System S ε α ι σ} {ok : Config S ε α ι σ → Label S ι → Prop}
    {c₀ c₁ c₂ : Config S ε α ι σ} (h₁ : Reach M ok c₀ c₁) (h₂ : Reach M ok c₁ c₂) :
    Reach M ok c₀ c₂ := by
  induction h₂ with
  | refl => exact h₁
  | step _ hok hs ih => exact .step ih hok hs

/-- An invariant of every allowed step is an invariant of every run. -/
theorem Reach.invariant {M : System S ε α ι σ} {ok : Config S ε α ι σ → Label S ι → Prop}
    {c₀ c : Config S ε α ι σ} (I : Config S ε α ι σ → Prop) (h₀ : I c₀)
    (hstep : ∀ c l c', Reach M ok c₀ c → I c → ok c l → Step M c l c' → I c')
    (h : Reach M ok c₀ c) : I c := by
  induction h with
  | refl => exact h₀
  | step hr hok hs ih => exact hstep _ _ _ hr ih hok hs

theorem Config.thread_setThread (c : Config S ε α ι σ) (i : Nat) (t : Thread S ε α ι) (s : σ) :
    (c.setThread i t s).thread i = some t := by simp [setThread]

theorem Config.thread_setThread_of_ne (c : Config S ε α ι σ) {i j : Nat} (h : i ≠ j)
    (t : Thread S ε α ι) (s : σ) : (c.setThread j t s).thread i = c.thread i := by
  simp [setThread, Function.update_of_ne h]

theorem Step.thread_cases {M : System S ε α ι σ} {c c' : Config S ε α ι σ} {l : Label S ι}
    (h : Step M c l c') {i : Nat} {t : Thread S ε α ι} (ht : c'.thread i = some t) :
    c.thread i = some t ∨
      (∃ r, l = .start i r ∧ c.thread i = none ∧ t = ⟨r, M.code r⟩) ∨
      ∃ r o k a, l = .act i o ∧ c.thread i = some ⟨r, .call o k⟩ ∧
        M.exec i o c.state a c'.state ∧ t = ⟨r, k a⟩ := by
  cases h with
  | @start j r hnone =>
    by_cases hij : i = j
    · subst hij
      rw [Config.thread_setThread] at ht
      cases ht
      exact Or.inr (Or.inl ⟨r, rfl, hnone, rfl⟩)
    · rw [c.thread_setThread_of_ne hij] at ht
      exact Or.inl ht
  | @act j r o k a s' hj he =>
    by_cases hij : i = j
    · subst hij
      rw [Config.thread_setThread] at ht
      cases ht
      exact Or.inr (Or.inr ⟨r, o, k, a, rfl, hj, he, rfl⟩)
    · rw [c.thread_setThread_of_ne hij] at ht
      exact Or.inl ht
  | env he => exact Or.inl ht

/-- When every operation of a run answers within `L`, each thread is on its way to
end within `E`. -/
theorem Reach.ends {M : System S ε α ι σ} {ok : Config S ε α ι σ → Label S ι → Prop}
    {c₀ c : Config S ε α ι σ} {L : Nat → ι → (o : S.Op) → Except ε (S.Resp o) → Prop}
    {E : Nat → ι → Except ε α → Prop} (h : Reach M ok c₀ c) (hidle : ∀ i, c₀.thread i = none)
    (hstart : ∀ c i r, ok c (.start i r) → (M.code r).Ends (L i r) (E i r))
    (hL : ∀ c i r o k a s', Reach M ok c₀ c → c.thread i = some ⟨r, .call o k⟩ →
      M.exec i o c.state a s' → L i r o a) {i : Nat} {t : Thread S ε α ι}
    (ht : c.thread i = some t) : t.rest.Ends (L i t.req) (E i t.req) := by
  induction h generalizing i t with
  | refl => cases (hidle i).symm.trans ht
  | step hr hok hs ih =>
    rcases hs.thread_cases ht with hsame | ⟨r, rfl, -, rfl⟩ | ⟨r, o, k, a, rfl, hk, he, rfl⟩
    · exact ih hsame
    · exact hstart _ _ _ hok
    · exact ih hk a (hL _ _ _ _ _ _ _ hr hk he)

theorem Reach.hereditary {M : System S ε α ι σ} {ok : Config S ε α ι σ → Label S ι → Prop}
    {c c' : Config S ε α ι σ} {Q : ι → Prog S ε α → Prop} (h : Reach M ok c c')
    (hidle : ∀ i, c.thread i = none) (hcode : ∀ r, Q r (M.code r))
    (hnext : ∀ r o k a, Q r (.call o k) → Q r (k a)) {i : Nat} {r : ι} {p : Prog S ε α}
    (ht : c'.thread i = some ⟨r, p⟩) : Q r p := by
  induction h generalizing p with
  | refl => cases (hidle i).symm.trans ht
  | step _ _ hs ih =>
    rcases hs.thread_cases ht with hsame | ⟨s, -, -, hstarted⟩ | ⟨s, o, k, a, -, hk, -, hacted⟩
    · exact ih hsame
    · cases hstarted
      exact hcode r
    · cases hacted
      exact hnext r o k a (ih hk)

theorem Reach.all {M : System S ε α ι σ} {ok : Config S ε α ι σ → Label S ι → Prop}
    {c₀ c : Config S ε α ι σ} {P : S.Op → Prop} {r : ι} (h : Reach M ok c₀ c)
    (hidle : ∀ i, c₀.thread i = none) (hcode : (M.code r).All P) {i : Nat} {p : Prog S ε α}
    (ht : c.thread i = some ⟨r, p⟩) : p.All P :=
  h.hereditary (Q := fun r' p => r' = r → p.All P) hidle (fun _ hr => hr ▸ hcode)
    (fun _ _ _ a hk hr => (hk hr).2 a) ht rfl

theorem Step.keeps_req {M : System S ε α ι σ} {c c' : Config S ε α ι σ} {l : Label S ι}
    (h : Step M c l c') {i : Nat} {t : Thread S ε α ι} (ht : c.thread i = some t) :
    ∃ t', c'.thread i = some t' ∧ t'.req = t.req := by
  cases h with
  | @start j r hnone =>
    by_cases hij : i = j
    · subst hij
      rw [hnone] at ht
      cases ht
    · exact ⟨t, (c.thread_setThread_of_ne hij _ _).trans ht, rfl⟩
  | @act j r o k a s' hj he =>
    by_cases hij : i = j
    · subst hij
      rw [hj] at ht
      cases ht
      exact ⟨⟨r, k a⟩, by simp [Config.setThread], rfl⟩
    · exact ⟨t, (c.thread_setThread_of_ne hij _ _).trans ht, rfl⟩
  | env he => exact ⟨t, ht, rfl⟩

/-- What threads promise and count on. `rely i r o` bounds what happens to the
state while thread `i`, serving `r`, waits to perform `o`; `guar i r o` bounds
what that operation does; `fresh i` holds as long as thread `i` has not started. -/
structure Contract (S : Signature.{u}) (ι : Type) (σ : Type) where
  inv : σ → Prop
  fresh : Nat → σ → Prop
  rely : Nat → ι → S.Op → σ → σ → Prop
  guar : Nat → ι → S.Op → σ → σ → Prop

/-- From state `s` the program keeps the guarantee at each operation, under any
interference the contract allows, and if it finishes then `Q` holds. -/
def wp (M : Machine S ε σ) (C : Contract S ι σ) (i : Nat) (r : ι) :
    Prog S ε α → (Except ε α → σ → Prop) → σ → Prop
  | .done a, Q, s => Q a s
  | .call o k, Q, s => ∀ s', C.rely i r o s s' → C.inv s' → ∀ a s'', M.exec i o s' a s'' →
      C.guar i r o s' s'' ∧ wp M C i r (k a) Q s''

section wp

variable {M : Machine S ε σ} {C : Contract S ι σ} {i : Nat} {r : ι}

@[simp] theorem wp_pure (a : α) (Q : Except ε α → σ → Prop) (s : σ) :
    wp M C i r (pure a) Q s ↔ Q (.ok a) s := Iff.rfl

@[simp] theorem wp_throw (e : ε) (Q : Except ε α → σ → Prop) (s : σ) :
    wp M C i r (throw e) Q s ↔ Q (.error e) s := Iff.rfl

theorem wp_mono {p : Prog S ε α} {Q Q' : Except ε α → σ → Prop} {s : σ}
    (himp : ∀ a s, Q a s → Q' a s) (h : wp M C i r p Q s) : wp M C i r p Q' s := by
  induction p generalizing s with
  | done a => exact himp a s h
  | call o k ih =>
    intro s' hr hi a s'' he
    exact ⟨(h s' hr hi a s'' he).1, ih a (h s' hr hi a s'' he).2⟩

theorem wp_and {p : Prog S ε α} {Q Q' : Except ε α → σ → Prop} {s : σ} (h : wp M C i r p Q s)
    (h' : wp M C i r p Q' s) : wp M C i r p (fun a s => Q a s ∧ Q' a s) s := by
  induction p generalizing s with
  | done a => exact ⟨h, h'⟩
  | call o k ih =>
    intro s' hr hi a s'' he
    exact ⟨(h s' hr hi a s'' he).1, ih a (h s' hr hi a s'' he).2 (h' s' hr hi a s'' he).2⟩

def andThen (Q : α → σ → Prop) (E : ε → σ → Prop) : Except ε α → σ → Prop
  | .ok a, s => Q a s
  | .error e, s => E e s

@[simp] theorem andThen_ok (Q : α → σ → Prop) (E : ε → σ → Prop) (a : α) (s : σ) :
    andThen Q E (.ok a) s ↔ Q a s := Iff.rfl

@[simp] theorem andThen_error (Q : α → σ → Prop) (E : ε → σ → Prop) (e : ε) (s : σ) :
    andThen Q E (.error e) s ↔ E e s := Iff.rfl

theorem wp_bind (p : Prog S ε α) (f : α → Prog S ε β) (Q : Except ε β → σ → Prop) (s : σ) :
    wp M C i r (p >>= f) Q s ↔
      wp M C i r p (andThen (fun a => wp M C i r (f a) Q) fun e => Q (.error e)) s := by
  induction p generalizing s with
  | done a => cases a <;> exact Iff.rfl
  | call o k ih =>
    constructor
    · intro h s' hr hi a s'' he
      exact ⟨(h s' hr hi a s'' he).1, (ih a s'').mp (h s' hr hi a s'' he).2⟩
    · intro h s' hr hi a s'' he
      exact ⟨(h s' hr hi a s'' he).1, (ih a s'').mpr (h s' hr hi a s'' he).2⟩

theorem wp_tryCatch (p : Prog S ε α) (h : ε → Prog S ε α) (Q : Except ε α → σ → Prop) (s : σ) :
    wp M C i r (tryCatch p h) Q s ↔
      wp M C i r p (andThen (fun a => Q (.ok a)) fun e => wp M C i r (h e) Q) s := by
  change wp M C i r (p.handle h) Q s ↔ _
  induction p generalizing s with
  | done a => cases a <;> exact Iff.rfl
  | call o k ih =>
    constructor
    · intro hw s' hr hi a s'' he
      exact ⟨(hw s' hr hi a s'' he).1, (ih a s'').mp (hw s' hr hi a s'' he).2⟩
    · intro hw s' hr hi a s'' he
      exact ⟨(hw s' hr hi a s'' he).1, (ih a s'').mpr (hw s' hr hi a s'' he).2⟩

end wp

/-- What one step of another thread must leave to thread `j`. -/
def Contract.Survives (C : Contract S ι σ) (post : Nat → ι → Except ε α → σ → Prop)
    (c : Config S ε α ι σ) (j : Nat) (s' : σ) : Prop :=
  match c.thread j with
  | none => C.fresh j c.state → C.fresh j s'
  | some ⟨r, .done a⟩ => post j r a c.state → post j r a s'
  | some ⟨r, .call o _⟩ => C.rely j r o c.state s'

/-- The proof obligations of a contract for the runs whose steps meet `ok`. -/
structure Verified (M : System S ε α ι σ) (ok : Config S ε α ι σ → Label S ι → Prop)
    (C : Contract S ι σ) (post : Nat → ι → Except ε α → σ → Prop) : Prop where
  refl : ∀ i r o s, C.rely i r o s s
  trans : ∀ i r o s t u, C.rely i r o s t → C.rely i r o t u → C.rely i r o s u
  start : ∀ c i r, ok c (.start i r) → C.inv c.state → C.fresh i c.state →
    wp M.toMachine C i r (M.code r) (post i r) c.state
  act : ∀ c i r o k s', ok c (.act i o) → C.inv c.state → c.thread i = some ⟨r, .call o k⟩ →
    C.guar i r o c.state s' → C.inv s' ∧ ∀ j, j ≠ i → C.Survives post c j s'
  env : ∀ c s', ok c .env → C.inv c.state → M.env c.state s' →
    C.inv s' ∧ ∀ j, C.Survives post c j s'

def Contract.Holds (C : Contract S ι σ) (M : System S ε α ι σ)
    (post : Nat → ι → Except ε α → σ → Prop) (c : Config S ε α ι σ) : Prop :=
  C.inv c.state ∧ ∀ i, match c.thread i with
    | none => C.fresh i c.state
    | some ⟨r, p⟩ => wp M.toMachine C i r p (post i r) c.state

theorem Contract.Holds.imp {C : Contract S ι σ} {M : System S ε α ι σ}
    {post post' : Nat → ι → Except ε α → σ → Prop} {c : Config S ε α ι σ} (h : C.Holds M post c)
    (himp : ∀ i t, c.thread i = some t → ∀ a s, post i t.req a s → post' i t.req a s) :
    C.Holds M post' c := by
  refine ⟨h.1, fun i => ?_⟩
  have hi := h.2 i
  cases ht : c.thread i with
  | none => simpa only [ht] using hi
  | some t =>
    simp only [ht] at hi
    exact wp_mono (himp i t ht) hi

namespace Verified

variable {M : System S ε α ι σ} {ok : Config S ε α ι σ → Label S ι → Prop} {C : Contract S ι σ}
  {post : Nat → ι → Except ε α → σ → Prop} {c c' c₀ : Config S ε α ι σ}

theorem holds_idle (hinv : C.inv c.state) (hidle : ∀ i, c.thread i = none)
    (hfresh : ∀ i, C.fresh i c.state) : C.Holds M post c :=
  ⟨hinv, fun i => by simp only [hidle i]; exact hfresh i⟩

theorem survives_holds (V : Verified M ok C post) (h : C.Holds M post c) (j : Nat) (s' : σ)
    (hs : C.Survives post c j s') :
    match c.thread j with
    | none => C.fresh j s'
    | some ⟨r, p⟩ => wp M.toMachine C j r p (post j r) s' := by
  have hj := h.2 j
  cases ht : c.thread j with
  | none =>
    simp only [ht, Contract.Survives] at hj hs ⊢
    exact hs hj
  | some t =>
    obtain ⟨r, p⟩ := t
    cases p with
    | done a =>
      simp only [ht, Contract.Survives] at hj hs ⊢
      exact hs hj
    | call o k =>
      simp only [ht, Contract.Survives] at hj hs ⊢
      intro s'' hr hi a u he
      exact hj s'' (V.trans j r o _ _ _ hs hr) hi a u he

theorem act_guar (V : Verified M ok C post) (h : C.Holds M post c) {i : Nat} {r : ι} {o : S.Op}
    {k : Except ε (S.Resp o) → Prog S ε α} {a : Except ε (S.Resp o)} {s' : σ}
    (ht : c.thread i = some ⟨r, .call o k⟩) (he : M.exec i o c.state a s') :
    C.guar i r o c.state s' ∧ wp M.toMachine C i r (k a) (post i r) s' := by
  have hi := h.2 i
  simp only [ht] at hi
  exact hi c.state (V.refl i r o c.state) h.1 a s' he

theorem step_holds (V : Verified M ok C post) {l : Label S ι} (h : C.Holds M post c)
    (hok : ok c l) (hstep : Step M c l c') : C.Holds M post c' := by
  cases hstep with
  | @start i r hnone =>
    refine ⟨h.1, fun j => ?_⟩
    by_cases hj : j = i
    · subst hj
      have hf := h.2 j
      simp only [hnone] at hf
      simpa [Config.setThread] using V.start c j r hok h.1 hf
    · simpa [Config.setThread, Function.update_of_ne hj] using h.2 j
  | @act i r o k a s' ht he =>
    obtain ⟨hg, hw⟩ := V.act_guar h ht he
    obtain ⟨hinv, hsurv⟩ := V.act c i r o k s' hok h.1 ht hg
    refine ⟨hinv, fun j => ?_⟩
    by_cases hj : j = i
    · subst hj
      simpa [Config.setThread] using hw
    · simpa [Config.setThread, Function.update_of_ne hj] using
        V.survives_holds h j s' (hsurv j hj)
  | @env s' he =>
    obtain ⟨hinv, hsurv⟩ := V.env c s' hok h.1 he
    exact ⟨hinv, fun j => V.survives_holds h j s' (hsurv j)⟩

theorem reach_holds (V : Verified M ok C post) (h₀ : C.Holds M post c₀)
    (h : Reach M ok c₀ c) : C.Holds M post c := by
  induction h with
  | refl => exact h₀
  | step _ hok hs ih => exact V.step_holds ih hok hs

theorem reach_inv (V : Verified M ok C post) (h₀ : C.Holds M post c₀)
    (h : Reach M ok c₀ c) : C.inv c.state := (V.reach_holds h₀ h).1

/-- Each operation executed in a verified run keeps the guarantee of its thread. -/
theorem reach_guar (V : Verified M ok C post) (h₀ : C.Holds M post c₀) (h : Reach M ok c₀ c)
    {i : Nat} {o : S.Op} (hs : Step M c (.act i o) c') :
    ∃ r k, c.thread i = some ⟨r, .call o k⟩ ∧ C.guar i r o c.state c'.state := by
  cases hs with
  | act ht he => exact ⟨_, _, ht, (V.act_guar (V.reach_holds h₀ h) ht he).1⟩

theorem reach_post (V : Verified M ok C post) (h₀ : C.Holds M post c₀) (h : Reach M ok c₀ c)
    {i : Nat} {r : ι} {a : Except ε α} (ht : c.thread i = some ⟨r, .done a⟩) :
    post i r a c.state := by
  have hi := (V.reach_holds h₀ h).2 i
  simp only [ht] at hi
  exact hi

end Verified

inductive Runs (M : Machine S ε σ) (i : Nat) : Prog S ε α → σ → Except ε α → σ → Prop where
  | done {a : Except ε α} {s : σ} : Runs M i (.done a) s a s
  | call {o : S.Op} {k : Except ε (S.Resp o) → Prog S ε α} {s s' s'' : σ}
      {b : Except ε (S.Resp o)} {a : Except ε α} : M.exec i o s b s' → Runs M i (k b) s' a s'' →
      Runs M i (.call o k) s a s''

section Runs

variable {M : Machine S ε σ} {i : Nat}

@[simp] theorem runs_done {a b : Except ε α} {s s' : σ} :
    Runs M i (.done a) s b s' ↔ b = a ∧ s' = s := by
  constructor
  · intro h
    cases h
    exact ⟨rfl, rfl⟩
  · rintro ⟨rfl, rfl⟩
    exact .done

theorem runs_pure {a : α} {b : Except ε α} {s s' : σ} :
    Runs M i (pure a) s b s' ↔ b = .ok a ∧ s' = s := runs_done

theorem runs_throw {e : ε} {b : Except ε α} {s s' : σ} :
    Runs M i (throw e : Prog S ε α) s b s' ↔ b = .error e ∧ s' = s := runs_done

theorem runs_call {o : S.Op} {k : Except ε (S.Resp o) → Prog S ε α} {s s'' : σ}
    {a : Except ε α} : Runs M i (.call o k) s a s'' ↔
      ∃ b s', M.exec i o s b s' ∧ Runs M i (k b) s' a s'' := by
  constructor
  · intro h
    cases h with
    | call he hk => exact ⟨_, _, he, hk⟩
  · rintro ⟨b, s', he, hk⟩
    exact .call he hk

theorem runs_perform {o : S.Op} {a : Except ε (S.Resp o)} {s s' : σ} :
    Runs M i (.perform o : Prog S ε (S.Resp o)) s a s' ↔ M.exec i o s a s' := by
  simp only [Prog.perform, runs_call, runs_done]
  constructor
  · rintro ⟨b, t, he, rfl, rfl⟩
    exact he
  · intro he
    exact ⟨a, s', he, rfl, rfl⟩

theorem runs_bind {p : Prog S ε α} {f : α → Prog S ε β} {s s'' : σ} {b : Except ε β} :
    Runs M i (p >>= f) s b s'' ↔
      (∃ a s', Runs M i p s (.ok a) s' ∧ Runs M i (f a) s' b s'') ∨
      (∃ e, Runs M i p s (.error e) s'' ∧ b = .error e) := by
  induction p generalizing s with
  | done a =>
    cases a with
    | error e =>
      change Runs M i (.done (.error e)) s b s'' ↔ _
      simp only [runs_done, reduceCtorEq, false_and, exists_false, false_or, Except.error.injEq]
      constructor
      · rintro ⟨rfl, rfl⟩
        exact ⟨e, ⟨rfl, rfl⟩, rfl⟩
      · rintro ⟨e', ⟨rfl, rfl⟩, rfl⟩
        exact ⟨rfl, rfl⟩
    | ok a =>
      change Runs M i (f a) s b s'' ↔ _
      simp only [runs_done, reduceCtorEq, false_and, exists_false, or_false, Except.ok.injEq]
      constructor
      · intro h
        exact ⟨a, s, ⟨rfl, rfl⟩, h⟩
      · rintro ⟨a', s', ⟨rfl, rfl⟩, h⟩
        exact h
  | call o k ih =>
    change Runs M i (.call o fun r => (k r) >>= f) s b s'' ↔ _
    simp only [runs_call, ih]
    constructor
    · rintro ⟨c, t, he, ⟨a, s', hp, hf⟩ | ⟨e, hp, hb⟩⟩
      · exact Or.inl ⟨a, s', ⟨c, t, he, hp⟩, hf⟩
      · exact Or.inr ⟨e, ⟨c, t, he, hp⟩, hb⟩
    · rintro (⟨a, s', ⟨c, t, he, hp⟩, hf⟩ | ⟨e, ⟨c, t, he, hp⟩, hb⟩)
      · exact ⟨c, t, he, Or.inl ⟨a, s', hp, hf⟩⟩
      · exact ⟨c, t, he, Or.inr ⟨e, hp, hb⟩⟩

theorem runs_tryCatch {p : Prog S ε α} {h : ε → Prog S ε α} {s s'' : σ} {b : Except ε α} :
    Runs M i (tryCatch p h) s b s'' ↔
      (∃ a, Runs M i p s (.ok a) s'' ∧ b = .ok a) ∨
      (∃ e s', Runs M i p s (.error e) s' ∧ Runs M i (h e) s' b s'') := by
  change Runs M i (p.handle h) s b s'' ↔ _
  induction p generalizing s with
  | done a =>
    cases a with
    | error e =>
      change Runs M i (h e) s b s'' ↔ _
      simp only [runs_done, reduceCtorEq, false_and, exists_false, false_or, Except.error.injEq]
      constructor
      · intro hr
        exact ⟨e, s, ⟨rfl, rfl⟩, hr⟩
      · rintro ⟨e', s', ⟨rfl, rfl⟩, hr⟩
        exact hr
    | ok a =>
      change Runs M i (.done (.ok a)) s b s'' ↔ _
      simp only [runs_done, reduceCtorEq, false_and, exists_false, or_false, Except.ok.injEq]
      constructor
      · rintro ⟨rfl, rfl⟩
        exact ⟨a, ⟨rfl, rfl⟩, rfl⟩
      · rintro ⟨a', ⟨rfl, rfl⟩, rfl⟩
        exact ⟨rfl, rfl⟩
  | call o k ih =>
    change Runs M i (.call o fun r => (k r).handle h) s b s'' ↔ _
    simp only [runs_call, ih]
    constructor
    · rintro ⟨c, t, he, ⟨a, hp, hb⟩ | ⟨e, s', hp, hh⟩⟩
      · exact Or.inl ⟨a, ⟨c, t, he, hp⟩, hb⟩
      · exact Or.inr ⟨e, s', ⟨c, t, he, hp⟩, hh⟩
    · rintro (⟨a, ⟨c, t, he, hp⟩, hb⟩ | ⟨e, s', ⟨c, t, he, hp⟩, hh⟩)
      · exact ⟨c, t, he, Or.inl ⟨a, hp, hb⟩⟩
      · exact ⟨c, t, he, Or.inr ⟨e, s', hp, hh⟩⟩

inductive Performs (M : Machine S ε σ) (i : Nat) : Prog S ε α → σ → S.Op → σ → Prop where
  | here {o : S.Op} {k : Except ε (S.Resp o) → Prog S ε α} {s : σ} :
      Performs M i (.call o k) s o s
  | later {o o' : S.Op} {k : Except ε (S.Resp o) → Prog S ε α} {s s' s'' : σ}
      {b : Except ε (S.Resp o)} : M.exec i o s b s' → Performs M i (k b) s' o' s'' →
      Performs M i (.call o k) s o' s''

theorem Performs.meets {p : Prog S ε α} {P : S.Op → Prop} {s s' : σ} {o : S.Op}
    (h : Performs M i p s o s') (hp : p.All P) : P o := by
  induction h with
  | here => exact hp.1
  | later _ _ ih => exact ih (hp.2 _)

theorem Performs.of_runs {p : Prog S ε α} {f : α → Prog S ε β} {s s' s'' : σ} {a : α} {o : S.Op}
    (hr : Runs M i p s (.ok a) s') (h : Performs M i (f a) s' o s'') :
    Performs M i (p >>= f) s o s'' := by
  generalize hb : Except.ok a = b at hr
  induction hr with
  | done => subst hb; exact h
  | call he _ ih => exact .later he (ih h hb)

theorem Performs.of_bind {p : Prog S ε α} {f : α → Prog S ε β} {s s'' : σ} {o : S.Op}
    (h : Performs M i (p >>= f) s o s'') : Performs M i p s o s'' ∨
      ∃ a s', Runs M i p s (.ok a) s' ∧ Performs M i (f a) s' o s'' := by
  induction p generalizing s with
  | done a =>
    cases a with
    | error e =>
      change Performs M i (.done (.error e)) s o s'' at h
      cases h
    | ok a => exact Or.inr ⟨a, s, .done, h⟩
  | call o' k ih =>
    change Performs M i (.call o' fun r => (k r) >>= f) s o s'' at h
    cases h with
    | here => exact Or.inl .here
    | later he hrest =>
      rcases ih _ hrest with hp | ⟨a, s', hr, hf⟩
      · exact Or.inl (.later he hp)
      · exact Or.inr ⟨a, s', .call he hr, hf⟩

theorem Performs.bind {p : Prog S ε α} {f : α → Prog S ε β} {s s' : σ} {o : S.Op}
    (h : Performs M i p s o s') : Performs M i (p >>= f) s o s' := by
  induction h with
  | here => exact .here
  | later he _ ih => exact .later he ih

theorem Performs.tryCatch {p : Prog S ε α} {g : ε → Prog S ε α} {s s' : σ} {o : S.Op}
    (h : Performs M i p s o s') : Performs M i (tryCatch p g) s o s' := by
  change Performs M i (p.handle g) s o s'
  induction h with
  | here => exact .here
  | later he _ ih => exact .later he ih

/-- Alone from `s`, the program performs every operation where it meets `P`, and ends
within `Q`. -/
def Alone (M : Machine S ε σ) (i : Nat) (P : S.Op → σ → Prop) :
    Prog S ε α → (Except ε α → σ → Prop) → σ → Prop
  | .done a, Q, s => Q a s
  | .call o k, Q, s => P o s ∧ ∀ a s', M.exec i o s a s' → Alone M i P (k a) Q s'

variable {P : S.Op → σ → Prop}

theorem Alone.runs {p : Prog S ε α} {Q : Except ε α → σ → Prop} {s s' : σ} {a : Except ε α}
    (h : Alone M i P p Q s) (hr : Runs M i p s a s') : Q a s' := by
  induction hr with
  | done => exact h
  | call he _ ih => exact ih (h.2 _ _ he)

theorem Alone.performs {p : Prog S ε α} {Q : Except ε α → σ → Prop} {s s' : σ} {o : S.Op}
    (h : Alone M i P p Q s) (hp : Performs M i p s o s') : P o s' := by
  induction hp with
  | here => exact h.1
  | later he _ ih => exact ih (h.2 _ _ he)

theorem alone_of_runs {p : Prog S ε α} {Q : Except ε α → σ → Prop} {s : σ}
    (hP : p.All fun o => ∀ s, P o s) (hQ : ∀ a s', Runs M i p s a s' → Q a s') :
    Alone M i P p Q s := by
  induction p generalizing s with
  | done a => exact hQ a s .done
  | call o k ih =>
    exact ⟨hP.1 s, fun a s' he => ih a (hP.2 a) fun b t hr => hQ b t (.call he hr)⟩

theorem Alone.mono {p : Prog S ε α} {Q Q' : Except ε α → σ → Prop} {s : σ}
    (h : Alone M i P p Q s) (himp : ∀ a s, Q a s → Q' a s) : Alone M i P p Q' s := by
  induction p generalizing s with
  | done a => exact himp a s h
  | call o k ih => exact ⟨h.1, fun a s' he => ih a (h.2 a s' he)⟩

theorem Alone.bind {p : Prog S ε α} {f : α → Prog S ε β} {Q : Except ε β → σ → Prop} {s : σ}
    (h : Alone M i P p (andThen (fun a => Alone M i P (f a) Q) fun e => Q (.error e)) s) :
    Alone M i P (p >>= f) Q s := by
  induction p generalizing s with
  | done a => cases a <;> exact h
  | call o k ih => exact ⟨h.1, fun a s' he => ih a (h.2 a s' he)⟩

theorem Alone.tryCatch {p : Prog S ε α} {g : ε → Prog S ε α} {Q : Except ε α → σ → Prop} {s : σ}
    (h : Alone M i P p (andThen (fun a => Q (.ok a)) fun e => Alone M i P (g e) Q) s) :
    Alone M i P (tryCatch p g) Q s := by
  change Alone M i P (p.handle g) Q s
  induction p generalizing s with
  | done a => cases a <;> exact h
  | call o k ih => exact ⟨h.1, fun a s' he => ih a (h.2 a s' he)⟩

end Runs

/-- A way to run the machine: `next` and `turn` choose one execution and one move of the
environment, as their first argument says. -/
structure Scheduler (M : Machine S ε σ) (χ η : Type) where
  next : Nat → χ → (o : S.Op) → σ → Option (Except ε (S.Resp o) × σ)
  turn : η → σ → Option σ
  exec : ∀ i x o s a s', next i x o s = some (a, s') → M.exec i o s a s'
  env : ∀ x s s', turn x s = some s' → M.env s s'

/-- One decision of a scheduler: a request arrives, a thread performs its next
operation, or the environment moves. -/
inductive Move (ι χ η : Type) where
  | start : Nat → ι → Move ι χ η
  | act : Nat → χ → Move ι χ η
  | env : η → Move ι χ η

section play

variable {χ η : Type} {M : System S ε α ι σ} (sch : Scheduler M.toMachine χ η)

def Config.move (c : Config S ε α ι σ) : Move ι χ η → Option (Config S ε α ι σ)
  | .start i r =>
    match c.thread i with
    | none => some (c.setThread i ⟨r, M.code r⟩ c.state)
    | some _ => none
  | .act i x =>
    match c.thread i with
    | some ⟨r, .call o k⟩ => (sch.next i x o c.state).map fun p => c.setThread i ⟨r, k p.1⟩ p.2
    | _ => none
  | .env x => (sch.turn x c.state).map fun s => ⟨s, c.thread⟩

/-- The moves in turn; one that is not possible is passed over. -/
def Config.play (c : Config S ε α ι σ) (ms : List (Move ι χ η)) : Config S ε α ι σ :=
  ms.foldl (fun c m => (c.move sch m).getD c) c

def Move.Allowed (ok : Config S ε α ι σ → Label S ι → Prop) (c : Config S ε α ι σ) :
    Move ι χ η → Prop
  | .start i r => ok c (.start i r)
  | .act i _ => ∀ r o k, c.thread i = some ⟨r, .call o k⟩ → ok c (.act i o)
  | .env _ => ok c .env

theorem Move.allowed_any (m : Move ι χ η) (c : Config S ε α ι σ) : m.Allowed anySchedule c := by
  cases m with
  | start i r => trivial
  | act i x => exact fun _ _ _ _ => trivial
  | env x => trivial

theorem Move.Allowed.and {m : Move ι χ η} {c : Config S ε α ι σ}
    {ok ok' : Config S ε α ι σ → Label S ι → Prop} (h : m.Allowed ok c) (h' : m.Allowed ok' c) :
    m.Allowed (fun c l => ok c l ∧ ok' c l) c := by
  cases m with
  | start i r => exact ⟨h, h'⟩
  | act i x => exact fun r o k ht => ⟨h r o k ht, h' r o k ht⟩
  | env x => exact ⟨h, h'⟩

theorem Config.move_step {c c' : Config S ε α ι σ} {m : Move ι χ η}
    {ok : Config S ε α ι σ → Label S ι → Prop} (hm : c.move sch m = some c')
    (hok : m.Allowed ok c) : ∃ l, ok c l ∧ Step M c l c' := by
  cases m with
  | start i r =>
    simp only [Config.move] at hm
    split at hm
    · next hnone => cases hm; exact ⟨_, hok, .start hnone⟩
    · cases hm
  | act i x =>
    simp only [Config.move] at hm
    split at hm
    · next r o k ht =>
      obtain ⟨⟨a, s'⟩, hn, rfl⟩ := Option.map_eq_some_iff.mp hm
      exact ⟨_, hok r o k ht, .act ht (sch.exec i x o c.state a s' hn)⟩
    · cases hm
  | env x =>
    obtain ⟨s', hn, rfl⟩ := Option.map_eq_some_iff.mp hm
    exact ⟨_, hok, .env (sch.env x c.state s' hn)⟩

def Config.passes (check : Config S ε α ι σ → Move ι χ η → Bool) :
    Config S ε α ι σ → List (Move ι χ η) → Bool
  | _, [] => true
  | c, m :: ms => check c m && Config.passes check ((c.move sch m).getD c) ms

/-- What a scheduler plays is a run; `I` is what its moves keep. -/
theorem Config.passes_reach {check : Config S ε α ι σ → Move ι χ η → Bool}
    {c : Config S ε α ι σ} {ms : List (Move ι χ η)} {ok : Config S ε α ι σ → Label S ι → Prop}
    (I : Config S ε α ι σ → Prop) (hI : ∀ c c', ∀ m ∈ ms, I c → c.move sch m = some c' → I c')
    (hcheck : ∀ c, ∀ m ∈ ms, I c → check c m = true → m.Allowed ok c)
    (h₀ : I c) (h : Config.passes sch check c ms = true) : Reach M ok c (c.play sch ms) := by
  induction ms generalizing c with
  | nil => exact .refl
  | cons m ms ih =>
    simp only [passes, Bool.and_eq_true] at h
    have hrest : ∀ d, I d → Config.passes sch check d ms = true → Reach M ok d (d.play sch ms) :=
      fun d hd hp => ih (fun c c' m hm => hI c c' m (List.mem_cons_of_mem _ hm))
        (fun c m hm => hcheck c m (List.mem_cons_of_mem _ hm)) hd hp
    change Reach M ok c (((c.move sch m).getD c).play sch ms)
    cases hm : c.move sch m with
    | none =>
      rw [hm] at h
      exact hrest c h₀ h.2
    | some d =>
      rw [hm] at h
      obtain ⟨l, hl, hs⟩ := move_step sch hm (hcheck c m List.mem_cons_self h₀ h.1)
      exact (Reach.step .refl hl hs).trans (hrest d (hI c d m List.mem_cons_self h₀ hm) h.2)

theorem Config.play_reach {c : Config S ε α ι σ} {ms : List (Move ι χ η)}
    {ok : Config S ε α ι σ → Label S ι → Prop} (I : Config S ε α ι σ → Prop)
    (hI : ∀ c c', ∀ m ∈ ms, I c → c.move sch m = some c' → I c')
    (hok : ∀ c, ∀ m ∈ ms, I c → m.Allowed ok c) (h₀ : I c) : Reach M ok c (c.play sch ms) := by
  have hpasses : ∀ (ms : List (Move ι χ η)) c, Config.passes sch (fun _ _ => true) c ms = true := by
    intro ms
    induction ms with
    | nil => exact fun _ => rfl
    | cons m ms ih => exact fun c => ih _
  exact passes_reach sch I hI (fun c m hm hc _ => hok c m hm hc) h₀ (hpasses ms c)

theorem Config.move_req {c c' : Config S ε α ι σ} {m : Move ι χ η} {Q : Nat → ι → Prop}
    (hm : c.move sch m = some c') (hstart : ∀ i r, m = .start i r → Q i r)
    (h : ∀ i t, c.thread i = some t → Q i t.req) {i : Nat} {t : Thread S ε α ι}
    (ht : c'.thread i = some t) : Q i t.req := by
  cases m with
  | start j r =>
    simp only [Config.move] at hm
    split at hm
    · cases hm
      by_cases hij : i = j
      · subst hij
        simp only [Config.setThread, Function.update_self, Option.some.injEq] at ht
        exact ht ▸ hstart i r rfl
      · exact h i t (by simpa [Config.setThread, Function.update_of_ne hij] using ht)
    · cases hm
  | act j x =>
    simp only [Config.move] at hm
    split at hm
    · next r o k hj =>
      obtain ⟨p, -, rfl⟩ := Option.map_eq_some_iff.mp hm
      by_cases hij : i = j
      · subst hij
        simp only [Config.setThread, Function.update_self, Option.some.injEq] at ht
        subst ht
        have hq := h i _ hj
        exact hq
      · exact h i t (by simpa [Config.setThread, Function.update_of_ne hij] using ht)
    · cases hm
  | env x =>
    obtain ⟨s', -, rfl⟩ := Option.map_eq_some_iff.mp hm
    exact h i t ht

theorem Config.play_req {c : Config S ε α ι σ} {ms : List (Move ι χ η)} {Q : Nat → ι → Prop}
    (hstart : ∀ i r, .start i r ∈ ms → Q i r) (h : ∀ i t, c.thread i = some t → Q i t.req)
    {i : Nat} {t : Thread S ε α ι} (ht : (c.play sch ms).thread i = some t) : Q i t.req := by
  induction ms generalizing c with
  | nil => exact h i t ht
  | cons m ms ih =>
    refine ih (c := (c.move sch m).getD c)
      (fun i r hm => hstart i r (List.mem_cons_of_mem _ hm)) ?_ ht
    cases hm : c.move sch m with
    | none => exact h
    | some d =>
      exact fun i t ht => move_req sch hm (fun i r he => hstart i r (he ▸ List.mem_cons_self)) h ht

end play

end Process
