import MultiTenantSaas.Lineage
import MultiTenantSaas.Refusals
import MultiTenantSaas.Rotation

/-!
What one request of a run is told while it is served: rows that extend those committed at
its arrival, and times between its arrival and its answer.
-/

set_option autoImplicit false

namespace Process

universe u

variable {S : Signature.{u}} {ε α ι σ : Type}

theorem Prog.Ends.weaken {L L' : (o : S.Op) → Except ε (S.Resp o) → Prop} {p : Prog S ε α}
    {E : Except ε α → Prop} (h : p.Ends L E) (hL : ∀ o a, L' o a → L o a) : p.Ends L' E := by
  induction p with
  | done a => exact h
  | call o k ih => exact fun a ha => ih a (h a (hL o a ha))

theorem Prog.Ends.keeps {L : (o : S.Op) → Except ε (S.Resp o) → Prop} {p : Prog S ε α}
    {E : Except ε α → Prop} (h : p.Ends L E) : p.Keeps L (fun _ => True) E := by
  induction p with
  | done a => exact h
  | call o k ih => exact ⟨trivial, fun a ha => ih a (h a ha)⟩

section

variable {M : System S ε α ι σ} {ok : Config S ε α ι σ → Label S ι → Prop}
  {c₀ c c' : Config S ε α ι σ} {i : Nat} {r : ι}

/-- Thread `i` performs `o` for the request `r` at some moment from `c` to `c'`, and is
answered `a`. -/
def Performed (M : System S ε α ι σ) (ok : Config S ε α ι σ → Label S ι → Prop)
    (c c' : Config S ε α ι σ) (i : Nat) (r : ι) (o : S.Op) (a : Except ε (S.Resp o)) : Prop :=
  ∃ d s', Reach M ok c d ∧ Reach M ok d c' ∧ (∃ k, d.thread i = some ⟨r, .call o k⟩) ∧
    M.exec i o d.state a s'

theorem Reach.ends_performed (h : Reach M ok c c') {p : Prog S ε α}
    (ht : c.thread i = some ⟨r, p⟩) {E : Except ε α → Prop}
    (hp : p.Ends (Performed M ok c c' i r) E) {a : Except ε α}
    (hdone : c'.thread i = some ⟨r, .done a⟩) : E a := by
  obtain ⟨p', ht', hp', -⟩ := h.keeps (fun _ => True) ht hp.keeps trivial
    (fun _ _ _ _ _ _ _ _ => trivial)
    (fun d o k a s' hcd hdc _ hk _ _ he => ⟨⟨d, s', hcd, hdc, ⟨k, hk⟩, he⟩, trivial⟩)
  cases hdone.symm.trans ht'
  exact hp'

theorem Reach.arrived (h : Reach M ok c₀ c) (hidle : c₀.thread i = none) {t : Thread S ε α ι}
    (ht : c.thread i = some t) : ∃ d, Reach M ok c₀ d ∧ d.thread i = none ∧
      ok d (.start i t.req) ∧
      Reach M ok (d.setThread i ⟨t.req, M.code t.req⟩ d.state) c := by
  induction h generalizing t with
  | refl => cases hidle.symm.trans ht
  | @step d d' l hr hok hs ih =>
    rcases hs.thread_cases ht with hsame | ⟨r, rfl, hnone, rfl⟩ | ⟨r, o, k, a, rfl, hk, he, rfl⟩
    · obtain ⟨e, he, hnone, hstart, hpath⟩ := ih hsame
      exact ⟨e, he, hnone, hstart, hpath.step hok hs⟩
    · cases hs
      exact ⟨d, hr, hnone, hok, .refl⟩
    · obtain ⟨e, hto, hnone, hstart, hpath⟩ := ih hk
      exact ⟨e, hto, hnone, hstart, hpath.step hok hs⟩

end

end Process

namespace MultiTenantSaas

open Process

/-- Rows that a request which arrived in `c` may be shown. -/
structure Visible (c : AppConfig) (db : Db) : Prop where
  later : Extends c.state.db db
  distinct : db.Distinct
  closed : db.Closed

section

variable [Library] {faults : Faults} {now : Instant} {c c' d : AppConfig} {i : Nat} {r : Request}

/-- What thread `i` is answered while it serves a request that arrives in `c`, up to `c'`. -/
abbrev Learns (c c' : AppConfig) (i : Nat) (r : Request) (o : Op) (a : Except Exn o.Resp) : Prop :=
  Performed app anySchedule (c.setThread i ⟨r, r.handle⟩ c.state) c' i r o a

theorem Served.learns {a : Except Exn Response} (h : Served c c' i r a)
    {E : Except Exn Response → Prop} (hp : Prog.Ends (S := sig) (Learns c c' i r) E r.handle) :
    E a :=
  h.reach.ends_performed (Config.thread_setThread _ _ _ _) hp h.answered

theorem Learns.moment (h₀ : Reach app anySchedule (genesis faults now) c)
    (hidle : c.thread i = none) {o : Op} {a : Except Exn o.Resp} (h : Learns c c' i r o a) :
    ∃ d w', Reach app anySchedule c d ∧ Reach app anySchedule d c' ∧
      Reach app anySchedule (genesis faults now) d ∧ (∃ k, d.thread i = some ⟨r, .call o k⟩) ∧
      exec i o d.state a w' := by
  obtain ⟨d, w', hcd, hdc, hk, he⟩ := h
  have hto : Reach app anySchedule c d := (Reach.step .refl trivial (.start hidle)).trans hcd
  exact ⟨d, w', hto, hdc, h₀.trans hto, hk, he⟩

theorem Learns.replies (h₀ : Reach app anySchedule (genesis faults now) c)
    (hidle : c.thread i = none) {o : Op} {a : Except Exn o.Resp} (h : Learns c c' i r o a) :
    Replies faults o a := by
  obtain ⟨d, w', -, -, hd, -, he⟩ := h.moment h₀ hidle
  exact ⟨i, d.state, w', reached_sound hd, reached_faults hd, he⟩

/-- What a session reads extends what was committed when its request arrived. -/
theorem visible_view (h₀ : Reach app anySchedule (genesis faults now) c)
    (h : Reach app anySchedule c d) (i : Nat) : Visible c (d.state.view i) where
  later := (reached_extends h₀ h).trans
    (((start_genesis faults now).frozen ((h₀.trans h).mono fun c l _ => calm_uncovered c l)).view i)
  distinct := (reached_sound (h₀.trans h)).distinct.views i
  closed := (reached_sound (h₀.trans h)).wellFormed.view_closed i

theorem Learns.select (h₀ : Reach app anySchedule (genesis faults now) c)
    (hidle : c.thread i = none) {ρ : Type} {q : Db → List ρ} {rows : List ρ}
    (h : Learns c c' i r (.select q) (.ok rows)) : ∃ db, Visible c db ∧ rows.Perm (q db) := by
  obtain ⟨d, w', hcd, -, -, -, -, ⟨rows', hok, hperm⟩ | ⟨-, hfailed⟩⟩ := h.moment h₀ hidle
  · cases hok
    exact ⟨_, visible_view h₀ hcd i, hperm⟩
  · cases hfailed

theorem Learns.clock (h₀ : Reach app anySchedule (genesis faults now) c)
    (hidle : c.thread i = none) {a : Except Exn Instant} (h : Learns c c' i r .clock a) :
    ∃ t, a = .ok t ∧ c.state.now ≤ t ∧ t ≤ c'.state.now := by
  obtain ⟨d, w', hcd, hdc, -, -, rfl, -⟩ := h.moment h₀ hidle
  exact ⟨_, rfl, reached_now_le hcd, reached_now_le hdc⟩

variable {E : Exn → Prop}

theorem concludes_found (h₀ : Reach app anySchedule (genesis faults now) c)
    (hidle : c.thread i = none) (hdown : ∀ e : Exn, e.Lost faults.database → E e) {ρ : Type}
    {q : Db → List ρ} {row : ρ} (hq : ∀ db, Visible c db → q db = [row]) :
    Concludes (Learns c c' i r) (· = some row) E (selectOne q) := by
  refine Prog.Ends.bind fun a ha => ?_
  cases a with
  | error e =>
    exact concludes_throw (L := Learns c c' i r) (hdown e (replies_fails (ha.replies h₀ hidle) rfl))
  | ok rows =>
    obtain ⟨db, hdb, hperm⟩ := Learns.select h₀ hidle ha
    rw [hq db hdb] at hperm
    rw [List.perm_singleton.mp hperm]
    exact concludes_pure (L := Learns c c' i r) rfl

end

end MultiTenantSaas
