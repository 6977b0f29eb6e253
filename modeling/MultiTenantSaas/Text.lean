import Mathlib.Algebra.GroupWithZero.Nat
import Mathlib.Data.List.DropRight
import Mathlib.Data.List.Infix
import Mathlib.Data.List.TakeDrop

/-!
Python strings as lists of characters, and UUIDs with the text `str` gives them.
-/

set_option autoImplicit false

namespace MultiTenantSaas

abbrev Str := List Char

/-- The characters `str.strip` removes: those for which `str.isspace` holds. -/
def isSpace (c : Char) : Bool :=
  let n := c.toNat
  (9 ≤ n && n ≤ 13) || (28 ≤ n && n ≤ 32) || n == 0x85 || n == 0xA0 || n == 0x1680 ||
    (0x2000 ≤ n && n ≤ 0x200A) || n == 0x2028 || n == 0x2029 || n == 0x202F || n == 0x205F ||
    n == 0x3000

def strip (s : Str) : Str := ((s.dropWhile isSpace).reverse.dropWhile isSpace).reverse

theorem mem_strip {s : Str} {c : Char} (h : c ∈ strip s) : c ∈ s := by
  have hend := (List.dropWhile_sublist isSpace).subset (List.mem_reverse.mp h)
  exact (List.dropWhile_sublist isSpace).subset (List.mem_reverse.mp hend)

theorem strip_prefix (s : Str) : strip s <+: s.dropWhile isSpace := by
  rw [← List.reverse_suffix]
  simpa [strip] using List.dropWhile_suffix (l := (s.dropWhile isSpace).reverse) isSpace

theorem strip_strip (s : Str) : strip (strip s) = strip s := by
  have hhead : (strip s).dropWhile isSpace = strip s := by
    cases hs : strip s with
    | nil => rfl
    | cons c cs =>
      obtain ⟨t, ht⟩ := hs ▸ strip_prefix s
      have hnot := List.head?_dropWhile_not isSpace s
      rw [← ht] at hnot
      exact List.dropWhile_cons_of_neg (by simpa using hnot)
  change (((strip s).dropWhile isSpace).reverse.dropWhile isSpace).reverse = _
  rw [hhead, strip, List.reverse_reverse, List.dropWhile_idempotent]

theorem strip_length_le (s : Str) : (strip s).length ≤ s.length := by
  rw [strip, List.length_reverse]
  refine (List.dropWhile_sublist isSpace).length_le.trans ?_
  rw [List.length_reverse]
  exact (List.dropWhile_sublist isSpace).length_le

theorem strip_eq_nil {s : Str} : strip s = [] ↔ ∀ c ∈ s, isSpace c = true := by
  rw [← List.dropWhile_eq_nil_iff]
  constructor
  · intro h
    rw [strip, List.reverse_eq_nil_iff, List.dropWhile_eq_nil_iff] at h
    have hhead := List.head?_dropWhile_not isSpace s
    cases hs : s.dropWhile isSpace with
    | nil => rfl
    | cons c cs =>
      rw [hs] at h hhead
      have hspace : isSpace c = true := h c (by simp)
      exact absurd hspace (by simpa using hhead)
  · intro h
    rw [strip, h]
    rfl

theorem dropWhile_none {p : Char → Bool} {s : Str} (h : ∀ c ∈ s, p c = false) :
    s.dropWhile p = s := by
  cases s with
  | nil => rfl
  | cons c s => exact List.dropWhile_cons_of_neg (by simp [h c List.mem_cons_self])

theorem strip_eq_self {s : Str} (h : ∀ c ∈ s, isSpace c = false) : strip s = s := by
  rw [strip, dropWhile_none h, dropWhile_none fun c hc => h c (List.mem_reverse.mp hc),
    List.reverse_reverse]

structure Uuid where
  bits : Fin (2 ^ 128)
  deriving DecidableEq

instance Uuid.neZero : NeZero (2 ^ 128) := ⟨by decide⟩

def hexDigit (n : Nat) : Char := "0123456789abcdef".toList.getD n '0'

def hexDigits : Nat → Nat → Str
  | 0, _ => []
  | k+1, n => hexDigits k (n / 16) ++ [hexDigit (n % 16)]

theorem hexDigits_length (k n : Nat) : (hexDigits k n).length = k := by
  induction k generalizing n with
  | zero => rfl
  | succ k ih => simp [hexDigits, ih]

theorem hexDigit_injective : ∀ a < 16, ∀ b < 16, hexDigit a = hexDigit b → a = b := by decide

theorem hexDigit_ne_dash : ∀ a < 16, hexDigit a ≠ '-' := by decide

theorem hexDigits_injective (k : Nat) {m n : Nat} (hm : m < 16 ^ k) (hn : n < 16 ^ k)
    (h : hexDigits k m = hexDigits k n) : m = n := by
  induction k generalizing m n with
  | zero => simp at hm hn; omega
  | succ k ih =>
    obtain ⟨hq, hr⟩ := List.append_inj' h rfl
    have hdig : m % 16 = n % 16 :=
      hexDigit_injective _ (Nat.mod_lt _ (by omega)) _ (Nat.mod_lt _ (by omega)) (by simpa using hr)
    have hdiv : m / 16 = n / 16 :=
      ih (Nat.div_lt_of_lt_mul (by rw [Nat.pow_succ] at hm; omega))
        (Nat.div_lt_of_lt_mul (by rw [Nat.pow_succ] at hn; omega)) hq
    omega

theorem forall_mem_hexDigits {P : Char → Prop} (h : ∀ n < 16, P (hexDigit n)) (k n : Nat) :
    ∀ c ∈ hexDigits k n, P c := by
  induction k generalizing n with
  | zero => simp [hexDigits]
  | succ k ih =>
    simp only [hexDigits, List.forall_mem_append, List.forall_mem_singleton]
    exact ⟨ih _, h _ (Nat.mod_lt _ (by omega))⟩

theorem dash_not_mem_hexDigits (k n : Nat) : '-' ∉ hexDigits k n := fun h =>
  forall_mem_hexDigits (P := (· ≠ '-')) hexDigit_ne_dash k n _ h rfl

def Uuid.hex (u : Uuid) : Str := hexDigits 32 u.bits.val

/-- `str(uuid)`: the digits in groups of 8, 4, 4, 4 and 12. -/
def Uuid.str (u : Uuid) : Str :=
  u.hex.take 8 ++ '-' :: (u.hex.drop 8).take 4 ++ '-' :: (u.hex.drop 12).take 4 ++
    '-' :: (u.hex.drop 16).take 4 ++ '-' :: u.hex.drop 20

theorem Uuid.hex_length (u : Uuid) : u.hex.length = 32 := hexDigits_length 32 _

theorem Uuid.str_length (u : Uuid) : u.str.length = 36 := by
  simp [Uuid.str, u.hex_length]

theorem Uuid.hex_injective {u v : Uuid} (h : u.hex = v.hex) : u = v := by
  have hlt : ∀ w : Uuid, w.bits.val < 16 ^ 32 := fun w => Nat.lt_of_lt_of_eq w.bits.isLt (by decide)
  have hval := hexDigits_injective 32 (hlt u) (hlt v) h
  cases u
  cases v
  exact congrArg Uuid.mk (Fin.ext hval)

theorem Uuid.str_filter (u : Uuid) : u.str.filter (· != '-') = u.hex := by
  have hkeep : ∀ l : Str, (∀ c ∈ l, c ∈ u.hex) → l.filter (· != '-') = l := by
    intro l hl
    apply List.filter_eq_self.mpr
    intro c hc
    have hne : c ≠ '-' := fun he => dash_not_mem_hexDigits 32 u.bits.val (he ▸ hl c hc)
    simpa using hne
  have ht : ∀ n, ∀ c ∈ u.hex.take n, c ∈ u.hex := fun n c => List.mem_of_mem_take
  have hd : ∀ n, ∀ c ∈ u.hex.drop n, c ∈ u.hex := fun n c => List.mem_of_mem_drop
  have hdt : ∀ n m, ∀ c ∈ (u.hex.drop n).take m, c ∈ u.hex :=
    fun n m c hc => hd n c (List.mem_of_mem_take hc)
  simp only [Uuid.str, List.filter_append, List.filter_cons, hkeep _ (ht 8), hkeep _ (hdt 8 4),
    hkeep _ (hdt 12 4), hkeep _ (hdt 16 4), hkeep _ (hd 20)]
  simp only [bne_self_eq_false, Bool.false_eq_true, if_false]
  have h16 : (u.hex.drop 16).take 4 ++ u.hex.drop 20 = u.hex.drop 16 := by
    rw [show 20 = 16 + 4 from rfl, ← List.drop_drop, List.take_append_drop]
  have h12 : (u.hex.drop 12).take 4 ++ u.hex.drop 16 = u.hex.drop 12 := by
    rw [show 16 = 12 + 4 from rfl, ← List.drop_drop, List.take_append_drop]
  have h8 : (u.hex.drop 8).take 4 ++ u.hex.drop 12 = u.hex.drop 8 := by
    rw [show 12 = 8 + 4 from rfl, ← List.drop_drop, List.take_append_drop]
  rw [List.append_assoc, List.append_assoc, List.append_assoc, h16, h12, h8,
    List.take_append_drop]

theorem Uuid.forall_mem_str {P : Char → Prop} (hdash : P '-') (hdigit : ∀ n < 16, P (hexDigit n))
    (u : Uuid) : ∀ c ∈ u.str, P c := by
  intro c hc
  by_cases hd : c = '-'
  · exact hd ▸ hdash
  · refine forall_mem_hexDigits hdigit 32 u.bits.val c ?_
    change c ∈ u.hex
    rw [← u.str_filter]
    exact List.mem_filter.mpr ⟨hc, by simpa using hd⟩

theorem Uuid.str_injective {u v : Uuid} (h : u.str = v.str) : u = v := by
  apply Uuid.hex_injective
  rw [← u.str_filter, ← v.str_filter, h]

theorem Uuid.str_prefix {u v : Uuid} {a b s : Str} (hu : u.str ++ a <+: s)
    (hv : v.str ++ b <+: s) : u = v := by
  apply Uuid.str_injective
  have hu' : u.str <+: s := (List.prefix_append _ _).trans hu
  have hv' : v.str <+: s := (List.prefix_append _ _).trans hv
  rw [List.prefix_iff_eq_take] at hu' hv'
  rw [hu', hv', u.str_length, v.str_length]

def utf8Length (s : Str) : Nat := (s.map Char.utf8Size).sum

theorem length_le_utf8Length (s : Str) : s.length ≤ utf8Length s := by
  induction s with
  | nil => exact Nat.le_refl 0
  | cons c s ih =>
    have hc : 1 ≤ c.utf8Size := Char.utf8Size_pos c
    simp only [utf8Length, List.map_cons, List.sum_cons, List.length_cons] at ih ⊢
    omega

/-- `EmailStr`: the validator admits at most 254 bytes. -/
structure EmailStr where
  text : Str
  max : utf8Length text ≤ 254
  deriving DecidableEq

/-- Functions of the standard library and of packages that the code calls on
values; the proofs use no more about them than that they are functions. -/
class Library where
  /-- `str.lower` and `str.upper`, with Unicode case mappings. -/
  lower : Str → Str
  upper : Str → Str
  /-- `str.isalnum` of one character. -/
  isAlnum : Char → Bool
  /-- How ILIKE identifies the cases of one character. -/
  foldCase : Char → Char
  /-- argon2: `PasswordHasher.hash` with 16 bytes of salt, and `PasswordHasher.verify`. -/
  hashPassword : Uuid → Str → Str
  verifyPassword : Str → Str → Bool
  /-- The S3 client's presigned URLs for `put_object` and `get_object`. -/
  presignedPut : (key contentType : Str) → (expiresIn : Nat) → Str
  presignedGet : (key : Str) → (expiresIn : Nat) → Str
  /-- `datetime.isoformat` of a UTC instant, and `fromisoformat` with the offset it
  read, if any. -/
  isoformat : Int → Str
  fromisoformat : Str → Option (Int × Option Int)
  /-- `json.dumps` and `json.loads` of an object with two texts, and base64. -/
  dumpPair : (Str × Str) → (Str × Str) → Str
  loadTexts : Str → Option (List (Str × Str))
  urlsafeB64encode : Str → Str
  urlsafeB64decode : Str → Option Str
  /-- `uuid.UUID(text)`. -/
  parseUuid : Str → Option Uuid
  /-- The validation of `EmailStr`, which gives the address in normal form. -/
  validateEmail : Str → Option EmailStr

def normalizeEmail [Library] (email : Str) : Str := strip (Library.lower email)

def Uuid.hexPrefix (u : Uuid) (n : Nat) : Str := u.hex.take n

def natText (n : Nat) : Str := (toString n).toList

def intText (n : Int) : Str := (toString n).toList

end MultiTenantSaas
