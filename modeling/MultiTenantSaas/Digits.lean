import Mathlib.Algebra.Order.Ring.Nat
import Mathlib.Tactic.Ring

/-!
Numbers in a fixed number of digits, of a base up to 16, and reading them back.
-/

set_option autoImplicit false

namespace Digits

def digitChar (n : Nat) : Char := "0123456789abcdef".toList.getD n '0'

def digitValue (c : Char) : Option Nat :=
  if '0' ≤ c ∧ c ≤ '9' then some (c.toNat - '0'.toNat)
  else if 'a' ≤ c ∧ c ≤ 'f' then some (c.toNat - 'a'.toNat + 10)
  else if 'A' ≤ c ∧ c ≤ 'F' then some (c.toNat - 'A'.toNat + 10)
  else none

def isDigit (base : Nat) (c : Char) : Bool := (digitValue c).any (· < base)

/-- The last `k` digits of `n`, most significant first. -/
def digits (base : Nat) : Nat → Nat → List Char
  | 0, _ => []
  | k+1, n => digits base k (n / base) ++ [digitChar (n % base)]

/-- The number that `k` digits continue, and what stands behind them. -/
def readDigits (base : Nat) : Nat → Nat → List Char → Option (Nat × List Char)
  | 0, acc, s => some (acc, s)
  | _+1, _, [] => none
  | k+1, acc, c :: s => do
    let d ← digitValue c
    if d < base then readDigits base k (acc * base + d) s else none

theorem digitValue_digitChar : ∀ n < 16, digitValue (digitChar n) = some n := by decide

theorem digitValue_lt {c : Char} {d : Nat} (h : digitValue c = some d) : d < 16 := by
  unfold digitValue at h
  split at h
  · next hc =>
    have hle : c.toNat ≤ 57 := hc.2
    have hd : c.toNat - 48 = d := Option.some.inj h
    omega
  · split at h
    · next hc =>
      have hle : c.toNat ≤ 102 := hc.2
      have hd : c.toNat - 97 + 10 = d := Option.some.inj h
      omega
    · split at h
      · next hc =>
        have hle : c.toNat ≤ 70 := hc.2
        have hd : c.toNat - 65 + 10 = d := Option.some.inj h
        omega
      · cases h

theorem isDigit_digitChar {base n : Nat} (hbase : base ≤ 16) (h : n < base) :
    isDigit base (digitChar n) = true := by
  simp [isDigit, digitValue_digitChar n (by omega), h]

@[simp] theorem digits_length (base k n : Nat) : (digits base k n).length = k := by
  induction k generalizing n with
  | zero => rfl
  | succ k ih => simp [digits, ih]

theorem forall_mem_digits {P : Char → Prop} {base : Nat} (hpos : 0 < base)
    (h : ∀ n < base, P (digitChar n)) (k n : Nat) : ∀ c ∈ digits base k n, P c := by
  induction k generalizing n with
  | zero => simp [digits]
  | succ k ih =>
    intro c hc
    rcases List.mem_append.mp hc with hc | hc
    · exact ih _ c hc
    · rw [List.mem_singleton.mp hc]
      exact h _ (Nat.mod_lt _ hpos)

theorem readDigits_cons {base d : Nat} (k acc : Nat) (s : List Char) (hbase : base ≤ 16)
    (hd : d < base) : readDigits base (k + 1) acc (digitChar d :: s) =
      readDigits base k (acc * base + d) s := by
  simp [readDigits, digitValue_digitChar d (by omega), hd]

theorem readDigits_add (base j k acc : Nat) (s : List Char) :
    readDigits base (j + k) acc s =
      (readDigits base j acc s).bind fun r => readDigits base k r.1 r.2 := by
  induction j generalizing acc s with
  | zero => simp [readDigits]
  | succ j ih =>
    rw [Nat.succ_add]
    cases s with
    | nil => rfl
    | cons c s =>
      cases hc : digitValue c with
      | none => simp [readDigits, hc]
      | some d => by_cases hd : d < base <;> simp [readDigits, hc, hd, ih]

theorem readDigits_digits {base : Nat} (hpos : 0 < base) (hbase : base ≤ 16) (k acc n : Nat)
    (s : List Char) :
    readDigits base k acc (digits base k n ++ s) = some (acc * base ^ k + n % base ^ k, s) := by
  induction k generalizing n s with
  | zero => simp [readDigits, digits, Nat.mod_one]
  | succ k ih =>
    have hmod : n % base ^ (k + 1) = n / base % base ^ k * base + n % base := by
      rw [Nat.pow_succ, Nat.mul_comm, Nat.mod_mul]
      ring
    rw [readDigits_add, digits, List.append_assoc, ih, Option.bind_some, List.singleton_append,
      readDigits_cons 0 _ s hbase (Nat.mod_lt n hpos), hmod, Nat.pow_succ]
    simp only [readDigits, Option.some.injEq, Prod.mk.injEq, and_true]
    ring

theorem readDigits_of_lt {base k n : Nat} (hpos : 0 < base) (hbase : base ≤ 16)
    (h : n < base ^ k) (s : List Char) :
    readDigits base k 0 (digits base k n ++ s) = some (n, s) := by
  rw [readDigits_digits hpos hbase, Nat.zero_mul, Nat.zero_add, Nat.mod_eq_of_lt h]

end Digits
