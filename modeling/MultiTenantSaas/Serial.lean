import MultiTenantSaas.Readers

/-!
Requests one at a time. While a request runs, nobody else writes: what it selects is
what it later finds committed.
-/

set_option autoImplicit false

namespace MultiTenantSaas

open Process

/-- When a request executes an operation, the others have been answered. -/
def OneAtATime (c : AppConfig) : AppLabel → Prop
  | .act i _ => ∀ j, j ≠ i → ∀ t, c.thread j = some t → ∃ a, t.rest = .done a
  | _ => True

theorem OneAtATime.calm {c : AppConfig} {l : AppLabel} (h : OneAtATime c l)
    (calm : Table → Uuid → Prop) : Calm calm c l := by
  unfold Calm
  split
  · intro j hj r t id set k ht
    obtain ⟨a, ha⟩ := h j hj _ ht
    cases ha
  · trivial

section

variable [Library] {G : Request → Nat → World → Op → Prop}

/-- The committed rows and those of the session stay as they are between two of its
operations; each operation meets `G`. -/
def soleContract (G : Request → Nat → World → Op → Prop) : Contract sig Request World where
  inv _ := True
  fresh i w := w.rows i = []
  rely i _ _ w w' := w'.db = w.db ∧ w'.rows i = w.rows i
  guar i r o w w' := (∃ a, exec i o w a w') ∧ G r i w o

theorem sole_verified (hstart : ∀ i r w, w.rows i = [] →
    wp machine (soleContract G) i r r.handle (fun _ _ => True) w) :
    Verified app OneAtATime (soleContract G) (fun _ _ _ _ => True) where
  refl _ _ _ _ := ⟨rfl, rfl⟩
  trans _ _ _ _ _ _ h h' := ⟨h'.1.trans h.1, h'.2.trans h.2⟩
  start c i r _ _ hfresh := hstart i r c.state hfresh
  act c i r o k w' hok _ _ hguar := by
    obtain ⟨⟨a, he⟩, -⟩ := hguar
    refine ⟨trivial, fun j hj => ?_⟩
    have hrows := (World.executed he).rows_of_ne hj
    unfold Contract.Survives
    split
    · exact hrows.trans
    · exact fun _ => trivial
    · next r' o' k' ht =>
      obtain ⟨a, ha⟩ := hok j hj _ ht
      cases ha
  env c w' _ _ he := by
    have hsame : w'.db = c.state.db ∧ w'.pending = c.state.pending := by
      cases he <;> exact ⟨rfl, rfl⟩
    have hrows : ∀ j, w'.rows j = c.state.rows j := fun j => by simp [World.rows, hsame.2]
    refine ⟨trivial, fun j => ?_⟩
    unfold Contract.Survives
    split
    · exact (hrows j).trans
    · exact fun _ => trivial
    · exact ⟨hsame.1, hrows j⟩

/-- In a run one at a time every operation meets `G`. -/
theorem sole_meets (hstart : ∀ i r w, w.rows i = [] →
    wp machine (soleContract G) i r r.handle (fun _ _ => True) w) {faults : Faults} {now : Instant}
    {c c' : AppConfig} (h : Reach app OneAtATime (genesis faults now) c) {i : Nat} {o : Op}
    (hs : Step app c (.act i o) c') :
    ∃ r k, c.thread i = some ⟨r, .call o k⟩ ∧ G r i c.state o := by
  have hholds : (soleContract G).Holds app (fun _ _ _ _ => True) (genesis faults now) :=
    Verified.holds_idle trivial (fun _ => rfl) fun i => by simp [soleContract, World.rows, genesis]
  obtain ⟨r, k, ht, -, hG⟩ := (sole_verified hstart).reach_guar hholds h hs
  exact ⟨r, k, ht, hG⟩

/-- `p` meets `G` when nobody else writes, and if it answers without an exception then `Q`
holds. -/
def Sole (G : Request → Nat → World → Op → Prop) (i : Nat) (r : Request) {α : Type} (p : Coro α)
    (Q : α → World → Prop) (w : World) : Prop :=
  wp machine (soleContract G) i r p (andThen Q fun _ _ => True) w

variable {α β : Type} {i : Nat} {r : Request} {w : World}

theorem sole_throw {e : Exn} {Q : α → World → Prop} : Sole G i r (throw e : Coro α) Q w := trivial

theorem sole_bind {p : Coro α} {f : α → Coro β} {Q : β → World → Prop}
    (h : Sole G i r p (fun a => Sole G i r (f a) Q) w) : Sole G i r (p >>= f) Q w :=
  (wp_bind p f _ w).mpr h

theorem sole_tryCatch {p : Coro α} {h : Exn → Coro α} {Q : α → World → Prop}
    (hp : Sole G i r p Q w) (hh : ∀ e w, Sole G i r (h e) Q w) :
    Sole G i r (tryCatch p h) Q w := by
  refine (wp_tryCatch p h _ w).mpr (wp_mono (fun a s => ?_) hp)
  cases a with
  | ok a => exact fun h => h
  | error e => exact fun _ => hh e s

theorem sole_ask {o : Op} {Q : o.Resp → World → Prop}
    (h : ∀ w₁, w₁.db = w.db → w₁.rows i = w.rows i → G r i w₁ o ∧
      ∀ a w', exec i o w₁ (.ok a) w' → Q a w') : Sole G i r (ask o) Q w := by
  intro w₁ hrely _ a w' he
  obtain ⟨hG, hQ⟩ := h w₁ hrely.1 hrely.2
  refine ⟨⟨⟨a, he⟩, hG⟩, ?_⟩
  cases a with
  | error e => trivial
  | ok a => exact hQ a w' he

theorem sole_any {p : Coro α} {Q : α → World → Prop} (hp : p.All fun o => ∀ w, G r i w o)
    (hQ : ∀ a w, Q a w) : Sole G i r p Q w := by
  induction p generalizing w with
  | done a =>
    cases a with
    | ok a => exact hQ a w
    | error e => trivial
  | call o k ih => exact fun w₁ _ _ a w' he => ⟨⟨⟨a, he⟩, hp.1 w₁⟩, ih a (hp.2 a)⟩

theorem sole_always {p : Coro α} (hG : ∀ o w, G r i w o) :
    wp machine (soleContract G) i r p (fun _ _ => True) w := by
  induction p generalizing w with
  | done a => trivial
  | call o k ih => exact fun w₁ _ _ a w' he => ⟨⟨⟨a, he⟩, hG o w₁⟩, ih a⟩

theorem sole_silent {p : Coro α} {Q : α → World → Prop} (hp : Silent p)
    (hG : ∀ o w, Op.silent o = true → G r i w o)
    (hQ : ∀ a w', w'.db = w.db → w'.rows i = w.rows i → Q a w') : Sole G i r p Q w := by
  induction p generalizing w with
  | done a =>
    cases a with
    | ok a => exact hQ a w rfl rfl
    | error e => trivial
  | call o k ih =>
    intro w₁ hrely _ a w' he
    have hq := Op.quiet_of_silent hp.1
    have hdb : w'.db = w₁.db := by
      rcases (World.executed he).history with ⟨hdb, -⟩ | ⟨rfl, -⟩
      · exact hdb
      · cases hq
    have hrows := ((World.executed he).later_self hq).rows_eq
    exact ⟨⟨⟨a, he⟩, hG o w₁ hp.1⟩, ih a (hp.2 a) fun b w'' hdb' hrows' =>
      hQ b w'' (hdb'.trans (hdb.trans hrely.1)) (hrows'.trans (hrows.trans hrely.2))⟩

theorem sole_getById {t : Table} {o id : Uuid} {Q : Option t.Row → World → Prop}
    (hG : ∀ w q, G r i w (Op.select (ρ := t.Row) q)) (hrows : w.rows i = [])
    (hnone : ∀ w', w'.db = w.db → w'.rows i = [] → Q none w')
    (hsome : ∀ x w', w'.db = w.db → w'.rows i = [] → w.db.get t id = some x → Q (some x) w') :
    Sole G i r (getById t o id) Q w := by
  refine sole_bind (sole_ask fun w₁ hdb hrows₁ => ⟨hG w₁ _, fun rows w' he => ?_⟩)
  obtain ⟨rfl, ⟨rows', hr, hperm⟩ | ⟨-, hr⟩⟩ := he
  case inr => cases hr
  cases hr
  rw [World.view_of_rows (hrows₁.trans hrows)] at hperm
  match rows, hperm with
  | [], _ => exact hnone _ hdb (hrows₁.trans hrows)
  | [x], hperm =>
    have hx := mem_rowsWhere.mp (hperm.subset List.mem_cons_self)
    refine hsome x _ hdb (hrows₁.trans hrows) (Db.get_eq_some.mpr ⟨hdb ▸ hx.1, ?_⟩)
    exact of_decide_eq_true (Bool.and_eq_true_iff.mp hx.2).1
  | _ :: _ :: _, _ => exact sole_throw

theorem sole_updateWhere {t : Table} {id : Uuid} {criteria : t.Row → Bool}
    {set : Instant → t.Row → t.Row} {Q : Option t.Row → World → Prop}
    (hG : ∀ w, G r i w (.updateWhere t id criteria set)) (hrows : w.rows i = [])
    (hnone : ∀ w', w'.db = w.db → w'.rows i = [] → Q none w')
    (hsome : ∀ now current w', w'.db = w.db → w'.rows i = [⟨t, set now current⟩] →
      w.db.get t id = some current → criteria current = true → Q (some (set now current)) w') :
    Sole G i r (ask (.updateWhere t id criteria set)) Q w := by
  refine sole_ask fun w₁ hdb hrows₁ => ⟨hG w₁, fun a w' he => ?_⟩
  rcases he with he | ⟨-, -, he⟩
  case inr => cases he
  rcases World.update_cases he with ⟨rfl, ha⟩ | ⟨old, hold, hc, ha, rfl, -⟩
  · cases a with
    | none => exact hnone _ hdb (hrows₁.trans hrows)
    | some x => exact absurd rfl (ha x)
  · rw [World.view_of_rows (hrows₁.trans hrows), hdb] at hold
    cases ha
    refine hsome w₁.now old _ hdb ?_ hold hc
    have hwrote : (w₁.write i ⟨t, set w₁.now old⟩).rows i = w₁.rows i ++ [⟨t, set w₁.now old⟩] :=
      (World.rows_wrote rfl).trans (if_pos rfl)
    rw [hwrote, hrows₁, hrows]
    rfl

theorem sole_insert {t : Table} {values : Uuid → Instant → t.Row} {Q : t.Row → World → Prop}
    (hG : ∀ w, G r i w (.insert t values))
    (hQ : ∀ id now w', w'.db = w.db → w'.rows i = w.rows i ++ [⟨t, values id now⟩] →
      Q (values id now) w') : Sole G i r (ask (.insert t values)) Q w := by
  refine sole_ask fun w₁ hdb hrows => ⟨hG w₁, fun a w' he => ?_⟩
  rcases he with ⟨id, -, he⟩ | ⟨-, -, he⟩
  case inr => cases he
  rcases World.insert_cases he with ⟨e, he, -⟩ | ⟨ha, rfl, -⟩
  · cases he
  · cases ha
    refine hQ id w₁.now _ hdb ?_
    have hwrote : ({ w₁ with drawn := id :: w₁.drawn }.write i ⟨t, values id w₁.now⟩).rows i =
        w₁.rows i ++ [⟨t, values id w₁.now⟩] := (World.rows_wrote rfl).trans (if_pos rfl)
    rw [hwrote, hrows]

theorem sole_transaction {body : Coro α} (hroll : ∀ w, G r i w .rollback)
    (h : Sole G i r body (fun _ w => ∀ w', w'.db = w.db → w'.rows i = w.rows i →
      G r i w' .commit) w) : Sole G i r (transaction body) (fun _ _ => True) w := by
  refine sole_tryCatch (sole_bind (wp_mono (fun a w hc => ?_) h)) fun e w => ?_
  · cases a with
    | ok a => exact sole_bind (sole_ask fun w₁ hdb hrows => ⟨hc w₁ hdb hrows, fun _ _ _ => trivial⟩)
    | error e => trivial
  · exact sole_bind (sole_ask fun w₁ _ _ => ⟨hroll w₁, fun _ _ _ => trivial⟩)

theorem sole_withDbSession {body : Coro α} (hroll : ∀ w, G r i w .rollback)
    (h : Sole G i r body (fun _ _ => True) w) :
    Sole G i r (withDbSession body) (fun _ _ => True) w := by
  refine sole_bind (wp_mono (fun a w _ => ?_) (sole_tryCatch h fun e w => ?_))
  · cases a with
    | ok a => exact sole_bind (sole_ask fun w₁ _ _ => ⟨hroll w₁, fun _ _ _ => trivial⟩)
    | error e => trivial
  · exact sole_bind (sole_ask fun w₁ _ _ => ⟨hroll w₁, fun _ _ _ => trivial⟩)

end

def finished (c : AppConfig) (i : Nat) : Bool :=
  match c.thread i with
  | some ⟨_, .call _ _⟩ => false
  | _ => true

def movesAlone (n : Nat) (c : AppConfig) : AppMove → Bool
  | .act i _ => (List.range n).all fun j => j = i || finished c j
  | _ => true

theorem movesAlone_allowed {n : Nat} {c : AppConfig} {m : AppMove} {moves : List AppMove}
    (hn : ∀ i r, .start i r ∈ moves → i < n) (hI : Arrived moves c)
    (h : movesAlone n c m = true) : m.Allowed OneAtATime c := by
  cases m with
  | act i x =>
    intro r o k _ j hj t ht
    have hfin := List.all_eq_true.mp h j (List.mem_range.mpr (hn j _ (hI j t ht)))
    rcases Bool.or_eq_true_iff.mp hfin with heq | hfin
    · exact absurd (of_decide_eq_true heq) hj
    · obtain ⟨r', a | ⟨o', k'⟩⟩ := t
      · exact ⟨a, rfl⟩
      · simp [finished, ht] at hfin
  | _ => trivial

theorem runMoves_solo [Library] {c : AppConfig} {i : Nat} {r : Request}
    (hidle : ∀ i, c.thread i = none) : Reach app OneAtATime c (runMoves c (solo i r)) := by
  refine runMoves_reach hidle fun d m _ hI => ?_
  have hsolo : ∀ j t, d.thread j = some t → j = i := fun j t ht =>
    (start_mem_solo.mp (hI j t ht)).1
  cases m with
  | act j x =>
    intro s o k ht l hne t hl
    exact absurd ((hsolo l t hl).trans (hsolo j _ ht).symm) hne
  | _ => trivial

end MultiTenantSaas
