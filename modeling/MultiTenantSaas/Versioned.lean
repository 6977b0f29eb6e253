import Mathlib.Data.List.Pairwise

/-!
Histories of a versioned row. A change that states the version it expects is made to
a row with this version and increases it; a change that states none ends the row.
-/

set_option autoImplicit false

namespace Versioned

variable {ι α : Type}

/-- One change of a row: who made it, and the row before and after. -/
structure Change (ι α : Type) where
  writer : ι
  before : α
  after : α

/-- The changes, newest first, lead from `start` to `now`. -/
def Linked (start : α) : List (Change ι α) → α → Prop
  | [], now => now = start
  | x :: xs, now => now = x.after ∧ Linked start xs x.before

/-- A change as the versions ask for it. -/
structure Checked (version : α → Int) (live : α → Prop) (expected : ι → Option Int)
    (x : Change ι α) : Prop where
  alive : live x.before
  expects : ∀ e, expected x.writer = some e → version x.before = e ∧ version x.after = e + 1
  ends : expected x.writer = none → version x.after = version x.before ∧ ¬ live x.after

variable {version : α → Int} {live : α → Prop} {expected : ι → Option Int}
  {xs : List (Change ι α)} {start now : α}

theorem Checked.version_le {x : Change ι α} (h : Checked version live expected x) :
    version x.before ≤ version x.after := by
  cases he : expected x.writer with
  | none => exact Int.le_of_eq (h.ends he).1.symm
  | some e =>
    obtain ⟨hb, ha⟩ := h.expects e he
    omega

theorem Linked.version_le (h : Linked start xs now)
    (hc : ∀ x ∈ xs, Checked version live expected x) :
    ∀ x ∈ xs, version x.after ≤ version now := by
  induction xs generalizing now with
  | nil => simp
  | cons x xs ih =>
    obtain ⟨rfl, h⟩ := h
    intro y hy
    rcases List.mem_cons.mp hy with rfl | hy
    · exact Int.le_refl _
    · exact Int.le_trans (ih h (fun z hz => hc z (List.mem_cons_of_mem _ hz)) y hy)
        (hc x List.mem_cons_self).version_le

theorem Linked.ordered (h : Linked start xs now)
    (hc : ∀ x ∈ xs, Checked version live expected x) :
    xs.Pairwise fun later earlier => version earlier.after ≤ version later.before := by
  induction xs generalizing now with
  | nil => exact .nil
  | cons x xs ih =>
    have hc' : ∀ y ∈ xs, Checked version live expected y := fun y hy =>
      hc y (List.mem_cons_of_mem _ hy)
    exact .cons (h.2.version_le hc') (ih h.2 hc')

theorem Linked.unique (h : Linked start xs now)
    (hc : ∀ x ∈ xs, Checked version live expected x) {x y : Change ι α} (hx : x ∈ xs)
    (hy : y ∈ xs) {e : Int} (hex : expected x.writer = some e)
    (hey : expected y.writer = some e) : x = y := by
  by_contra hne
  let apart (a b : Change ι α) : Prop :=
    version b.after ≤ version a.before ∨ version a.after ≤ version b.before
  have : Std.Symm apart := ⟨fun _ _ => Or.symm⟩
  have happart : xs.Pairwise apart := (h.ordered hc).imp Or.inl
  have hxy := happart.forall hx hy hne
  obtain ⟨hxb, hxa⟩ := (hc x hx).expects e hex
  obtain ⟨hyb, hya⟩ := (hc y hy).expects e hey
  rcases hxy with hle | hle <;> omega

/-- Records that tell the rows before and after each change form a chain. -/
theorem Linked.chained {ρ σ : Type} {f : α → σ} {before after : ρ → σ} {rs : List ρ}
    (h : Linked start xs now)
    (hr : List.Forall₂ (fun x r => before r = f x.before ∧ after r = f x.after) xs rs) :
    rs.IsChain fun later earlier => before later = after earlier := by
  induction hr generalizing now with
  | nil => exact .nil
  | cons hx htail ih =>
    cases htail with
    | nil => exact .singleton _
    | cons hy _ =>
      exact .cons_cons (by rw [hx.1, hy.2, h.2.1]) (ih h.2)

section

variable {κ ν : Type}

/-- What is recorded of a change: the fields before and after. -/
structure Record (κ ν : Type) where
  before : κ → ν
  after : κ → ν

/-- The record differs where the row does, and there it has both values. -/
structure Record.Complete (r : Record κ ν) (old new : κ → ν) : Prop where
  differs : ∀ k, r.before k ≠ r.after k ↔ old k ≠ new k
  values : ∀ k, r.before k ≠ r.after k → r.before k = old k ∧ r.after k = new k

def Record.apply [DecidableEq ν] (r : Record κ ν) (old : κ → ν) (k : κ) : ν :=
  if r.before k = r.after k then old k else r.after k

variable [DecidableEq ν] {r : Record κ ν} {fields : α → κ → ν} {rs : List (Record κ ν)}

theorem Record.Complete.apply_eq {old new : κ → ν} (h : r.Complete old new) :
    r.apply old = new := by
  funext k
  by_cases hk : r.before k = r.after k
  · have hsame : old k = new k := by simpa using mt (h.differs k).mpr (not_not_intro hk)
    simpa [Record.apply, hk] using hsame
  · simpa [Record.apply, hk] using (h.values k hk).2

/-- Complete records, newest first, lead from the fields of `start` to those of `now`. -/
theorem Linked.replayed (h : Linked start xs now)
    (hc : List.Forall₂ (fun x r => Record.Complete r (fields x.before) (fields x.after)) xs rs) :
    rs.foldr Record.apply (fields start) = fields now := by
  induction hc generalizing now with
  | nil => exact congrArg fields h.symm
  | cons hx _ ih =>
    obtain ⟨rfl, h⟩ := h
    rw [List.foldr_cons, ih h, hx.apply_eq]

end

end Versioned
