import Mathlib.Data.List.Nodup
import MultiTenantSaas.Digits

/-!
JSON texts: `dumps` of an object whose members are texts, with every character outside
printable ASCII escaped, and `loads` of any JSON text.
-/

set_option autoImplicit false

namespace JsonText

open Digits

inductive Value where
  | null
  | bool (b : Bool)
  | number (text : List Char)
  | string (s : List Char)
  | array (items : List Value)
  | object (members : List (List Char × Value))

def unicodeEscape (unit : Nat) : List Char := '\\' :: 'u' :: digits 16 4 unit

def units (c : Char) : List Nat :=
  if c.toNat < 0x10000 then [c.toNat]
  else [0xD800 + (c.toNat - 0x10000) / 0x400, 0xDC00 + (c.toNat - 0x10000) % 0x400]

def shortEscapes : List (Char × Char) :=
  [('"', '"'), ('\\', '\\'), ('\n', 'n'), ('\r', 'r'), ('\t', 't'), ('\x08', 'b'), ('\x0c', 'f')]

def escape (c : Char) : List Char :=
  match shortEscapes.lookup c with
  | some letter => ['\\', letter]
  | none => if ' ' ≤ c ∧ c ≤ '~' then [c] else (units c).flatMap unicodeEscape

def quote (s : List Char) : List Char := '"' :: (s.flatMap escape ++ ['"'])

def dumpMember (m : List Char × List Char) : List Char := quote m.1 ++ ':' :: ' ' :: quote m.2

def dumpMembers : List (List Char × List Char) → List Char
  | [] => ['}']
  | [m] => dumpMember m ++ ['}']
  | m :: m' :: ms => dumpMember m ++ ',' :: ' ' :: dumpMembers (m' :: ms)

def dumps (members : List (List Char × List Char)) : List Char := '{' :: dumpMembers members

def isSpace (c : Char) : Bool := c == ' ' || c == '\t' || c == '\n' || c == '\r'

def skip (s : List Char) : List Char := s.dropWhile isSpace

/-- What was read of an escape sequence. -/
inductive Pending where
  | plain
  | escaped
  | hex (left acc : Nat)

def letters : List (Char × Nat) :=
  ('/', '/'.toNat) :: shortEscapes.map fun e => (e.2, e.1.toNat)

def readUnits : Pending → List Char → Option (List Nat × List Char)
  | _, [] => none
  | .plain, c :: s =>
    if c = '"' then some ([], s)
    else if c = '\\' then readUnits .escaped s
    else if c.toNat < 32 then none
    else (readUnits .plain s).map fun r => (c.toNat :: r.1, r.2)
  | .escaped, c :: s =>
    if c = 'u' then readUnits (.hex 3 0) s
    else match letters.lookup c with
      | some unit => (readUnits .plain s).map fun r => (unit :: r.1, r.2)
      | none => none
  | .hex left acc, c :: s =>
    match digitValue c with
    | none => none
    | some d =>
      match left with
      | 0 => (readUnits .plain s).map fun r => ((acc * 16 + d) :: r.1, r.2)
      | left + 1 => readUnits (.hex left (acc * 16 + d)) s

def isHigh (unit : Nat) : Bool := 0xD800 ≤ unit && unit < 0xDC00

def isLow (unit : Nat) : Bool := 0xDC00 ≤ unit && unit < 0xE000

/-- A surrogate that stands alone, which no `Char` is. -/
def loneSurrogate : Char := '\uFFFD'

def charOf (unit : Nat) : Char := if unit.isValidChar then Char.ofNat unit else loneSurrogate

/-- The characters of code units, after a high surrogate. -/
def decodeUnits : Option Nat → List Nat → List Char
  | none, [] => []
  | some _, [] => [loneSurrogate]
  | none, u :: us => if isHigh u then decodeUnits (some u) us else charOf u :: decodeUnits none us
  | some high, u :: us =>
    if isLow u then
      charOf (0x10000 + (high - 0xD800) * 0x400 + (u - 0xDC00)) :: decodeUnits none us
    else if isHigh u then loneSurrogate :: decodeUnits (some u) us
    else loneSurrogate :: charOf u :: decodeUnits none us

def readString (s : List Char) : Option (List Char × List Char) :=
  (readUnits .plain s).map fun r => (decodeUnits none r.1, r.2)

def literals : List (List Char × Value) :=
  [("null".toList, .null), ("true".toList, .bool true), ("false".toList, .bool false),
    ("NaN".toList, .number "NaN".toList), ("Infinity".toList, .number "Infinity".toList),
    ("-Infinity".toList, .number "-Infinity".toList)]

def readLiteral (s : List Char) : Option (Value × List Char) :=
  literals.findSome? fun t => if t.1.isPrefixOf s then some (t.2, s.drop t.1.length) else none

def markedDigits (mark s : List Char) : List Char :=
  let ds := s.takeWhile (isDigit 10)
  if ds = [] then [] else mark ++ ds

def fractionPart (s : List Char) : List Char :=
  if s.head? = some '.' then markedDigits ['.'] s.tail else []

def exponentPart : List Char → List Char
  | [] => []
  | c :: s =>
    if c = 'e' ∨ c = 'E' then
      if s.head? = some '+' ∨ s.head? = some '-' then markedDigits (c :: s.take 1) s.tail
      else markedDigits [c] s
    else []

def readNumber (s : List Char) : Option (Value × List Char) :=
  let sign := if s.head? = some '-' then s.take 1 else []
  let s := s.drop sign.length
  let whole := if s.head? = some '0' then s.take 1 else s.takeWhile (isDigit 10)
  let s := s.drop whole.length
  let fraction := fractionPart s
  let s := s.drop fraction.length
  let exponent := exponentPart s
  if whole = [] then none
  else some (.number (sign ++ whole ++ fraction ++ exponent), s.drop exponent.length)

section

variable (readValue : List Char → Option (Value × List Char))

/-- The members of an object up to its closing brace, which each start with a quote. -/
def readMembers : Nat → List Char → Option (List (List Char × Value) × List Char)
  | 0, _ | _, [] => none
  | n+1, c :: s => do
    if c != '"' then none
    let (key, s) ← readString s
    match skip s with
    | [] => none
    | c :: s => do
      if c != ':' then none
      let (value, s) ← readValue (skip s)
      match skip s with
      | [] => none
      | c :: s =>
        if c = '}' then some ([(key, value)], s)
        else if c = ',' then
          (readMembers n (skip s)).map fun r => ((key, value) :: r.1, r.2)
        else none

def readItems : Nat → List Char → Option (List Value × List Char)
  | 0, _ => none
  | n+1, s => do
    let (value, s) ← readValue s
    match skip s with
    | [] => none
    | c :: s =>
      if c = ']' then some ([value], s)
      else if c = ',' then (readItems n (skip s)).map fun r => (value :: r.1, r.2)
      else none

end

/-- A later member takes the place of an earlier one with its key. -/
def insertMember (ms : List (List Char × Value)) (m : List Char × Value) :
    List (List Char × Value) :=
  if m.1 ∈ ms.map Prod.fst then ms.map fun x => if x.1 = m.1 then m else x else ms ++ [m]

def dict (ms : List (List Char × Value)) : List (List Char × Value) := ms.foldl insertMember []

/-- A value, with at most `n` values and members inside each other. -/
def readValue : Nat → List Char → Option (Value × List Char)
  | 0, _ | _, [] => none
  | n+1, c :: s =>
    if c = '"' then (readString s).map fun r => (.string r.1, r.2)
    else if c = '{' then
      if (skip s).head? = some '}' then some (.object [], (skip s).tail)
      else (readMembers (readValue n) n (skip s)).map fun r => (.object (dict r.1), r.2)
    else if c = '[' then
      if (skip s).head? = some ']' then some (.array [], (skip s).tail)
      else (readItems (readValue n) n (skip s)).map fun r => (.array r.1, r.2)
    else (readLiteral (c :: s)).or (readNumber (c :: s))

def loads (s : List Char) : Option Value := do
  let (value, s) ← readValue (s.length + 1) (skip s)
  if skip s = [] then some value else none

theorem readUnits_hex (left acc : Nat) (s : List Char) :
    readUnits (.hex left acc) s = (readDigits 16 (left + 1) acc s).bind fun r =>
      (readUnits .plain r.2).map fun q => (r.1 :: q.1, q.2) := by
  induction left generalizing acc s with
  | zero =>
    cases s with
    | nil => rfl
    | cons c s =>
      cases hc : digitValue c with
      | none => simp [readUnits, readDigits, hc]
      | some d => simp [readUnits, readDigits, hc, digitValue_lt hc]
  | succ left ih =>
    cases s with
    | nil => rfl
    | cons c s =>
      cases hc : digitValue c with
      | none => simp [readUnits, readDigits, hc]
      | some d =>
        rw [readUnits, hc]
        simp only [ih]
        simp [readDigits, hc, digitValue_lt hc]

theorem readUnits_unicodeEscape {n : Nat} (h : n < 0x10000) (s : List Char) :
    readUnits .plain (unicodeEscape n ++ s) =
      (readUnits .plain s).map fun r => (n :: r.1, r.2) := by
  have hread := readDigits_of_lt (show 0 < 16 by decide) (by decide) (show n < 16 ^ 4 by omega) s
  change readUnits (.hex 3 0) (digits 16 4 n ++ s) = _
  rw [readUnits_hex, hread, Option.bind_some]

theorem readUnits_units {us : List Nat} (h : ∀ u ∈ us, u < 0x10000) (s : List Char) :
    readUnits .plain (us.flatMap unicodeEscape ++ s) =
      (readUnits .plain s).map fun r => (us ++ r.1, r.2) := by
  induction us with
  | nil => simp
  | cons u us ih =>
    obtain ⟨hu, hus⟩ := List.forall_mem_cons.mp h
    rw [List.flatMap_cons, List.append_assoc, readUnits_unicodeEscape hu, ih hus, Option.map_map]
    rfl

theorem toNat_valid (c : Char) :
    c.toNat < 0xD800 ∨ (0xDFFF < c.toNat ∧ c.toNat < 0x110000) := c.valid

theorem units_lt (c : Char) : ∀ u ∈ units c, u < 0x10000 := by
  have hc := toNat_valid c
  unfold units
  split
  · simpa
  · simp only [List.mem_cons, List.not_mem_nil, or_false, forall_eq_or_imp, forall_eq]
    omega

theorem shortEscape_letters : ∀ e ∈ shortEscapes,
    e.2 ≠ 'u' ∧ letters.lookup e.2 = some e.1.toNat ∧ units e.1 = [e.1.toNat] := by decide

theorem mem_of_lookup {α β : Type} [BEq α] [LawfulBEq α] {l : List (α × β)} {a : α} {b : β}
    (h : l.lookup a = some b) : (a, b) ∈ l := by
  obtain ⟨l₁, l₂, rfl, -⟩ := List.lookup_eq_some_iff.mp h
  simp

theorem readUnits_escape (c : Char) (s : List Char) :
    readUnits .plain (escape c ++ s) =
      (readUnits .plain s).map fun r => (units c ++ r.1, r.2) := by
  unfold escape
  cases hshort : shortEscapes.lookup c with
  | some letter =>
    obtain ⟨hu, hletter, hunits⟩ := shortEscape_letters _ (mem_of_lookup hshort)
    simp only at hu hletter hunits
    simp [readUnits, hu, hletter, hunits]
  | none =>
    simp only
    split
    · next hc =>
      have hmem : ∀ e ∈ shortEscapes, c ≠ e.1 := fun e he =>
        by simpa using List.lookup_eq_none_iff.mp hshort e he
      have hquote : c ≠ '"' := hmem ('"', '"') (by decide)
      have hslash : c ≠ '\\' := hmem ('\\', '\\') (by decide)
      have hlow : 32 ≤ c.toNat := hc.1
      have hhigh : c.toNat ≤ 126 := hc.2
      have hunits : units c = [c.toNat] := if_pos (by omega)
      have hplain : ¬ c.toNat < 32 := by omega
      simp [readUnits, hquote, hslash, hplain, hunits]
    · exact readUnits_units (units_lt c) s

theorem charOf_toNat (c : Char) : charOf c.toNat = c := by
  have hvalid : c.toNat.isValidChar := c.valid
  rw [charOf, if_pos hvalid, Char.ofNat_toNat]

theorem decodeUnits_units (c : Char) (us : List Nat) :
    decodeUnits none (units c ++ us) = c :: decodeUnits none us := by
  have hc := toNat_valid c
  unfold units
  split
  · next hlt =>
    have hhigh : isHigh c.toNat = false := by simp [isHigh]; omega
    simp [decodeUnits, hhigh, charOf_toNat]
  · next hlt =>
    have hhigh : isHigh (0xD800 + (c.toNat - 0x10000) / 0x400) = true := by
      simp only [isHigh, Bool.and_eq_true, decide_eq_true_eq]
      omega
    have hlow : isLow (0xDC00 + (c.toNat - 0x10000) % 0x400) = true := by
      simp only [isLow, Bool.and_eq_true, decide_eq_true_eq]
      omega
    have hback : 0x10000 + (0xD800 + (c.toNat - 0x10000) / 0x400 - 0xD800) * 0x400 +
        (0xDC00 + (c.toNat - 0x10000) % 0x400 - 0xDC00) = c.toNat := by omega
    simp only [List.cons_append, List.nil_append, decodeUnits, hhigh, hlow, if_true, hback,
      charOf_toNat]

theorem readUnits_quote (t s : List Char) :
    readUnits .plain (t.flatMap escape ++ '"' :: s) = some (t.flatMap units, s) := by
  induction t with
  | nil => rfl
  | cons c t ih =>
    rw [List.flatMap_cons, List.append_assoc, readUnits_escape, ih]
    rfl

theorem decodeUnits_flatMap (t : List Char) : decodeUnits none (t.flatMap units) = t := by
  induction t with
  | nil => rfl
  | cons c t ih => rw [List.flatMap_cons, decodeUnits_units, ih]

theorem readString_quote (t s : List Char) :
    readString (t.flatMap escape ++ '"' :: s) = some (t, s) := by
  rw [readString, readUnits_quote, Option.map_some, decodeUnits_flatMap]

theorem skip_mark {c : Char} (h : isSpace c = false) (s : List Char) : skip (c :: s) = c :: s := by
  simp [skip, h]

@[simp] theorem skip_space (s : List Char) : skip (' ' :: s) = skip s := rfl

@[simp] theorem skip_quote (t s : List Char) : skip (quote t ++ s) = quote t ++ s :=
  skip_mark (by decide) _

theorem readValue_quote (n : Nat) (t s : List Char) :
    readValue (n + 1) (quote t ++ s) = some (.string t, s) := by
  simp [quote, readValue, readString_quote]

def texts (ms : List (List Char × List Char)) : List (List Char × Value) :=
  ms.map fun m => (m.1, .string m.2)

/-- One member is read, and what stands behind it decides how to go on. -/
theorem readMembers_dumpMember (n k : Nat) (m : List Char × List Char) (s : List Char) :
    readMembers (readValue (n + 1)) (k + 1) (dumpMember m ++ s) =
      match skip s with
      | [] => none
      | c :: s =>
        if c = '}' then some ([(m.1, .string m.2)], s)
        else if c = ',' then
          (readMembers (readValue (n + 1)) k (skip s)).map fun r => ((m.1, .string m.2) :: r.1, r.2)
        else none := by
  have hstring : readString (m.1.flatMap escape ++ '"' :: ':' :: ' ' :: (quote m.2 ++ s)) =
      some (m.1, ':' :: ' ' :: (quote m.2 ++ s)) := readString_quote _ _
  have hcolon : skip (':' :: ' ' :: (quote m.2 ++ s)) = ':' :: ' ' :: (quote m.2 ++ s) :=
    skip_mark (by decide) _
  have htext : dumpMember m ++ s =
      '"' :: (m.1.flatMap escape ++ '"' :: ':' :: ' ' :: (quote m.2 ++ s)) := by
    simp [dumpMember, quote]
  rw [htext, readMembers, if_neg (by decide), hstring]
  simp only [Option.bind_eq_bind, Option.bind_some, hcolon, skip_space, skip_quote,
    readValue_quote]
  rfl

theorem skip_dumpMembers {ms : List (List Char × List Char)} (hne : ms ≠ []) (s : List Char) :
    skip (dumpMembers ms ++ s) = dumpMembers ms ++ s := by
  match ms with
  | [] => exact absurd rfl hne
  | [m] => exact skip_mark (by decide) _
  | m :: m' :: ms => exact skip_mark (by decide) _

theorem readMembers_dumpMembers {ms : List (List Char × List Char)} (hne : ms ≠ []) {n k : Nat}
    (hk : ms.length ≤ k) (s : List Char) :
    readMembers (readValue (n + 1)) k (dumpMembers ms ++ s) = some (texts ms, s) := by
  induction ms generalizing k with
  | nil => exact absurd rfl hne
  | cons m ms ih =>
    obtain ⟨k, rfl⟩ : ∃ j, k = j + 1 := ⟨k - 1, by simp at hk; omega⟩
    cases ms with
    | nil =>
      rw [dumpMembers, List.append_assoc, readMembers_dumpMember]
      rfl
    | cons m' ms =>
      have hrest := ih (List.cons_ne_nil _ _) (Nat.le_of_succ_le_succ hk)
      have hcomma : skip (',' :: ' ' :: (dumpMembers (m' :: ms) ++ s)) =
          ',' :: ' ' :: (dumpMembers (m' :: ms) ++ s) := skip_mark (by decide) _
      rw [dumpMembers, List.append_assoc, readMembers_dumpMember]
      simp only [List.cons_append, hcomma, skip_space, skip_dumpMembers (List.cons_ne_nil m' ms),
        hrest]
      rfl

theorem foldl_insertMember {ms acc : List (List Char × Value)}
    (h : ((acc ++ ms).map Prod.fst).Nodup) : ms.foldl insertMember acc = acc ++ ms := by
  induction ms generalizing acc with
  | nil => simp
  | cons m ms ih =>
    have hnew : m.1 ∉ acc.map Prod.fst := by
      rw [List.map_append, List.nodup_append] at h
      exact fun hm => h.2.2 _ hm _ List.mem_cons_self rfl
    rw [List.foldl_cons, insertMember, if_neg hnew, ih (by simpa using h)]
    simp

theorem dict_texts {ms : List (List Char × List Char)} (h : (ms.map Prod.fst).Nodup) :
    dict (texts ms) = texts ms := by
  refine foldl_insertMember  ?_
  simpa [texts, Function.comp_def] using h

theorem length_le_dumpMembers (ms : List (List Char × List Char)) :
    ms.length < (dumpMembers ms).length := by
  induction ms with
  | nil => simp [dumpMembers]
  | cons m ms ih =>
    cases ms with
    | nil => simp [dumpMembers, dumpMember, quote]
    | cons m' ms =>
      simp only [dumpMembers, List.length_append, List.length_cons] at ih ⊢
      omega

/-- An object of texts is read back; its keys are those of a dictionary. -/
theorem loads_dumps {ms : List (List Char × List Char)} (h : (ms.map Prod.fst).Nodup) :
    loads (dumps ms) = some (.object (texts ms)) := by
  have hopen : skip ('{' :: dumpMembers ms) = '{' :: dumpMembers ms := skip_mark (by decide) _
  have hvalue : readValue ((dumps ms).length + 1) (dumps ms) = some (.object (texts ms), []) := by
    rw [dumps, readValue, if_neg (by decide), if_pos rfl]
    cases ms with
    | nil => rfl
    | cons m ms =>
      have hne : m :: ms ≠ [] := List.cons_ne_nil _ _
      have hskip := skip_dumpMembers hne []
      have hread := readMembers_dumpMembers hne (n := (dumpMembers (m :: ms)).length)
        (Nat.le_succ_of_le (length_le_dumpMembers (m :: ms)).le) []
      rw [List.append_nil] at hskip hread
      have hclose : (dumpMembers (m :: ms)).head? ≠ some '}' := by
        cases ms <;> simp [dumpMembers, dumpMember, quote]
      rw [hskip, if_neg hclose, List.length_cons, hread, Option.map_some, dict_texts h]
  rw [loads, dumps, hopen, ← dumps, hvalue]
  rfl

theorem keys_insertMember (ms : List (List Char × Value)) (m : List Char × Value) :
    (insertMember ms m).map Prod.fst =
      if m.1 ∈ ms.map Prod.fst then ms.map Prod.fst else ms.map Prod.fst ++ [m.1] := by
  unfold insertMember
  split
  · rw [List.map_map]
    refine List.map_congr_left fun x _ => ?_
    by_cases hx : x.1 = m.1 <;> simp [hx]
  · simp

theorem nodup_foldl {ms acc : List (List Char × Value)} (h : (acc.map Prod.fst).Nodup) :
    ((ms.foldl insertMember acc).map Prod.fst).Nodup := by
  induction ms generalizing acc with
  | nil => exact h
  | cons m ms ih =>
    refine ih ?_
    rw [keys_insertMember]
    split
    · exact h
    · next hm =>
      exact List.nodup_append.mpr ⟨h, List.nodup_singleton _, fun k hk k' hk' heq =>
        hm (List.mem_singleton.mp hk' ▸ heq ▸ hk)⟩

theorem nodup_dict (ms : List (List Char × Value)) : ((dict ms).map Prod.fst).Nodup :=
  nodup_foldl List.nodup_nil

theorem readLiteral_ne_object {s rest : List Char} {ms : List (List Char × Value)} :
    readLiteral s ≠ some (.object ms, rest) := by
  intro h
  obtain ⟨t, ht, htext⟩ := List.exists_of_findSome?_eq_some h
  split at htext
  · have hvalue : t.2 = .object ms := (Prod.mk.inj (Option.some.inj htext)).1
    simp only [literals, List.mem_cons, List.not_mem_nil, or_false] at ht
    rcases ht with rfl | rfl | rfl | rfl | rfl | rfl <;> cases hvalue
  · cases htext

theorem readNumber_ne_object {s rest : List Char} {ms : List (List Char × Value)} :
    readNumber s ≠ some (.object ms, rest) := by
  intro h
  obtain ⟨-, h⟩ := Option.ite_none_left_eq_some.mp h
  cases h

theorem nodup_readValue {n : Nat} {s rest : List Char} {ms : List (List Char × Value)}
    (h : readValue n s = some (.object ms, rest)) : (ms.map Prod.fst).Nodup := by
  match n, s with
  | 0, _ => cases h
  | _ + 1, [] => cases h
  | n + 1, c :: s =>
    rw [readValue] at h
    split at h
    · obtain ⟨r, -, hr⟩ := Option.map_eq_some_iff.mp h
      cases hr
    split at h
    · split at h
      · cases h
        exact List.nodup_nil
      · obtain ⟨r, -, hr⟩ := Option.map_eq_some_iff.mp h
        cases hr
        exact nodup_dict _
    split at h
    · split at h
      · cases h
      · obtain ⟨r, -, hr⟩ := Option.map_eq_some_iff.mp h
        cases hr
    · rcases Option.or_eq_some_iff.mp h with h | ⟨-, h⟩
      · exact absurd h readLiteral_ne_object
      · exact absurd h readNumber_ne_object

theorem nodup_loads {s : List Char} {ms : List (List Char × Value)}
    (h : loads s = some (.object ms)) : (ms.map Prod.fst).Nodup := by
  obtain ⟨⟨v, rest⟩, hread, hv⟩ := Option.bind_eq_some_iff.mp h
  simp only at hv
  split at hv
  · cases hv
    exact nodup_readValue hread
  · cases hv

end JsonText
