import Mathlib.Algebra.Order.Ring.Nat
import Mathlib.Data.List.Basic

/-!
The URL- and filesystem-safe Base64 alphabet: encoding with padding, and the decoder that
discards the bytes outside the alphabet.
-/

set_option autoImplicit false

namespace Base64

def alphabet : List UInt8 :=
  "ABCDEFGHIJKLMNOPQRSTUVWXYZabcdefghijklmnopqrstuvwxyz0123456789-_".toList.map fun c =>
    c.toNat.toUInt8

def pad : UInt8 := 61

def symbol (v : Nat) : UInt8 := alphabet.getD v pad

/-- The value of a symbol; `+` and `/` are those that `-` and `_` are translated to. -/
def symbolValue (b : UInt8) : Option Nat :=
  if b = 43 then some 62
  else if b = 47 then some 63
  else alphabet.findIdx? (· == b)

def urlsafeEncode : List UInt8 → List UInt8
  | a :: b :: c :: rest =>
    symbol (a.toNat / 4) :: symbol (a.toNat % 4 * 16 + b.toNat / 16) ::
      symbol (b.toNat % 16 * 4 + c.toNat / 64) :: symbol (c.toNat % 64) :: urlsafeEncode rest
  | [a, b] =>
    [symbol (a.toNat / 4), symbol (a.toNat % 4 * 16 + b.toNat / 16), symbol (b.toNat % 16 * 4), pad]
  | [a] => [symbol (a.toNat / 4), symbol (a.toNat % 4 * 16), pad, pad]
  | [] => []

/-- `quadPos` symbols of a quadruple were read, `leftchar` are the bits that wait for the
next one, and `pads` of its padding was seen. -/
def decodeFrom : (quadPos leftchar pads : Nat) → List UInt8 → Option (List UInt8)
  | quadPos, _, _, [] => if quadPos = 0 then some [] else none
  | quadPos, leftchar, pads, b :: s =>
    if b = pad then
      if 2 ≤ quadPos then
        if 4 ≤ quadPos + (pads + 1) then some [] else decodeFrom quadPos leftchar (pads + 1) s
      else decodeFrom quadPos leftchar pads s
    else
      match symbolValue b with
      | none => decodeFrom quadPos leftchar pads s
      | some v =>
        match quadPos with
        | 0 => decodeFrom 1 v 0 s
        | 1 => (decodeFrom 2 (v % 16) 0 s).map ((leftchar * 4 + v / 16).toUInt8 :: ·)
        | 2 => (decodeFrom 3 (v % 4) 0 s).map ((leftchar * 16 + v / 4).toUInt8 :: ·)
        | _ => (decodeFrom 0 0 0 s).map ((leftchar * 64 + v).toUInt8 :: ·)

def urlsafeDecode (s : List UInt8) : Option (List UInt8) := decodeFrom 0 0 0 s

theorem symbolValue_symbol : ∀ v < 64, symbolValue (symbol v) = some v := by decide +kernel

theorem symbol_ne_pad : ∀ v < 64, symbol v ≠ pad := by decide +kernel

theorem symbol_lt : ∀ v < 64, (symbol v).toNat < 128 := by decide +kernel

section

variable {v : Nat} (left pads : Nat) (s : List UInt8)

theorem decodeFrom_zero (h : v < 64) :
    decodeFrom 0 left pads (symbol v :: s) = decodeFrom 1 v 0 s := by
  simp [decodeFrom, symbolValue_symbol v h, symbol_ne_pad v h]

theorem decodeFrom_one (h : v < 64) : decodeFrom 1 left pads (symbol v :: s) =
    (decodeFrom 2 (v % 16) 0 s).map ((left * 4 + v / 16).toUInt8 :: ·) := by
  simp [decodeFrom, symbolValue_symbol v h, symbol_ne_pad v h]

theorem decodeFrom_two (h : v < 64) : decodeFrom 2 left pads (symbol v :: s) =
    (decodeFrom 3 (v % 4) 0 s).map ((left * 16 + v / 4).toUInt8 :: ·) := by
  simp [decodeFrom, symbolValue_symbol v h, symbol_ne_pad v h]

theorem decodeFrom_three (h : v < 64) : decodeFrom 3 left pads (symbol v :: s) =
    (decodeFrom 0 0 0 s).map ((left * 64 + v).toUInt8 :: ·) := by
  simp [decodeFrom, symbolValue_symbol v h, symbol_ne_pad v h]

end

theorem byte_eq {n : Nat} {a : UInt8} (h : n = a.toNat) : n.toUInt8 = a := by
  subst h
  exact UInt8.ofNat_toNat

theorem decodeFrom_urlsafeEncode (s : List UInt8) (left pads : Nat) :
    decodeFrom 0 left pads (urlsafeEncode s) = some s := by
  induction s using urlsafeEncode.induct generalizing left pads with
  | case1 a b c rest ih =>
    have ha := a.toNat_lt
    have hb := b.toNat_lt
    have hc := c.toNat_lt
    rw [urlsafeEncode, decodeFrom_zero _ _ _ (by omega), decodeFrom_one _ _ _ (by omega),
      decodeFrom_two _ _ _ (by omega), decodeFrom_three _ _ _ (by omega), ih]
    simp only [Option.map_some, Option.some.injEq, List.cons.injEq, and_true]
    exact ⟨byte_eq (by omega), byte_eq (by omega), byte_eq (by omega)⟩
  | case2 a b =>
    have ha := a.toNat_lt
    have hb := b.toNat_lt
    rw [urlsafeEncode, decodeFrom_zero _ _ _ (by omega), decodeFrom_one _ _ _ (by omega),
      decodeFrom_two _ _ _ (by omega)]
    simp only [decodeFrom, if_true, Nat.reduceLeDiff, Nat.reduceAdd, Option.map_some,
      Option.some.injEq, List.cons.injEq, and_true]
    exact ⟨byte_eq (by omega), byte_eq (by omega)⟩
  | case3 a =>
    have ha := a.toNat_lt
    rw [urlsafeEncode, decodeFrom_zero _ _ _ (by omega), decodeFrom_one _ _ _ (by omega)]
    simp only [decodeFrom, if_true, Nat.reduceLeDiff, Nat.reduceAdd, if_false, Option.map_some,
      Option.some.injEq, List.cons.injEq, and_true]
    exact byte_eq (by omega)
  | case4 => rfl

theorem urlsafeDecode_urlsafeEncode (s : List UInt8) : urlsafeDecode (urlsafeEncode s) = some s :=
  decodeFrom_urlsafeEncode s 0 0

theorem urlsafeEncode_ascii (s : List UInt8) : ∀ b ∈ urlsafeEncode s, b.toNat < 128 := by
  have hpad : pad.toNat < 128 := by decide +kernel
  induction s using urlsafeEncode.induct with
  | case1 a b c rest ih =>
    have ha := a.toNat_lt
    have hb := b.toNat_lt
    have hc := c.toNat_lt
    simp only [urlsafeEncode, List.forall_mem_cons]
    exact ⟨symbol_lt _ (by omega), symbol_lt _ (by omega), symbol_lt _ (by omega),
      symbol_lt _ (by omega), ih⟩
  | case2 a b =>
    have ha := a.toNat_lt
    have hb := b.toNat_lt
    simp only [urlsafeEncode, List.forall_mem_cons]
    exact ⟨symbol_lt _ (by omega), symbol_lt _ (by omega), symbol_lt _ (by omega), hpad, nofun⟩
  | case3 a =>
    have ha := a.toNat_lt
    simp only [urlsafeEncode, List.forall_mem_cons]
    exact ⟨symbol_lt _ (by omega), symbol_lt _ (by omega), hpad, hpad, nofun⟩
  | case4 => nofun

end Base64
