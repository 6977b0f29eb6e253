import MultiTenantSaas.Base64
import MultiTenantSaas.IsoFormat
import MultiTenantSaas.JsonText
import MultiTenantSaas.Runs

/-!
Cursors down to their characters: an ISO 8601 timestamp and a UUID as members of a JSON
object, whose UTF-8 bytes are written in URL-safe Base64.
-/

set_option autoImplicit false

namespace MultiTenantSaas

open Calendar IsoFormat JsonText

def encodeUtf8 (s : Str) : List UInt8 := s.flatMap String.utf8EncodeChar

def decodeUtf8 (bytes : List UInt8) : Option Str := bytes.toByteArray.utf8Decode?.map Array.toList

theorem decodeUtf8_encodeUtf8 (s : Str) : decodeUtf8 (encodeUtf8 s) = some s := by
  have h : (encodeUtf8 s).toByteArray.utf8Decode? = some s.toArray := List.utf8Decode?_utf8Encode
  rw [decodeUtf8, h]
  rfl

theorem encodeUtf8_ascii {bytes : List UInt8} (h : ∀ b ∈ bytes, b.toNat < 128) :
    encodeUtf8 (bytes.map fun b => Char.ofNat b.toNat) = bytes := by
  induction bytes with
  | nil => rfl
  | cons b bytes ih =>
    obtain ⟨hb, hrest⟩ := List.forall_mem_cons.mp h
    have hchar : String.utf8EncodeChar (Char.ofNat b.toNat) = [b] := by
      have hall : ∀ n < 128, String.utf8EncodeChar (Char.ofNat n) = [n.toUInt8] := by
        decide +kernel
      rw [hall _ hb]
      exact congrArg (· :: []) UInt8.ofNat_toNat
    rw [List.map_cons, encodeUtf8, List.flatMap_cons, hchar]
    exact congrArg (b :: ·) (ih hrest)

/-- `text.replace(pattern, "")`; `left` characters of an occurrence are still to drop. -/
def removeFrom (pattern : Str) : (left : Nat) → Str → Str
  | _, [] => []
  | left + 1, _ :: s => removeFrom pattern left s
  | 0, c :: s =>
    if pattern.isPrefixOf (c :: s) then removeFrom pattern (pattern.length - 1) s
    else c :: removeFrom pattern 0 s

def isBrace (c : Char) : Bool := c == '{' || c == '}'

def stripBraces (s : Str) : Str := ((s.dropWhile isBrace).reverse.dropWhile isBrace).reverse

/-- The digits of a UUID: a URN prefix, braces and hyphens are optional. -/
def uuidDigits (text : Str) : Str :=
  (stripBraces (removeFrom ['u', 'u', 'i', 'd', ':'] 0
    (removeFrom ['u', 'r', 'n', ':'] 0 text))).filter (· != '-')

/-- `uuid.UUID(text)` of a text in its documented form. What `int` takes besides, as `0x` or
underscores, is refused. -/
def Uuid.parse (text : Str) : Option Uuid :=
  if (uuidDigits text).length = 32 then
    (Digits.readDigits 16 32 0 (uuidDigits text)).map fun r => ⟨Fin.ofNat _ r.1⟩
  else none

theorem hexDigits_eq (k n : Nat) : hexDigits k n = Digits.digits 16 k n := by
  induction k generalizing n with
  | zero => rfl
  | succ k ih =>
    rw [hexDigits, ih]
    rfl

theorem removeFrom_of_not_mem {c : Char} {pattern s : Str} (h : c ∉ s) :
    removeFrom (c :: pattern) 0 s = s := by
  induction s with
  | nil => rfl
  | cons d s ih =>
    obtain ⟨hne, hs⟩ := not_or.mp (List.mem_cons.not.mp h)
    have hnot : (c :: pattern).isPrefixOf (d :: s) = false := by simp [List.isPrefixOf, hne]
    rw [removeFrom, hnot, ih hs]
    rfl

theorem uuidDigits_str (u : Uuid) : uuidDigits u.str = u.hex := by
  have hu : 'u' ∉ u.str := fun h =>
    Uuid.forall_mem_str (P := (· ≠ 'u')) (by decide) (by decide) u _ h rfl
  have hbrace : ∀ c ∈ u.str, isBrace c = false := Uuid.forall_mem_str (by decide) (by decide) u
  have hrev : ∀ c ∈ u.str.reverse, isBrace c = false := fun c hc =>
    hbrace c (List.mem_reverse.mp hc)
  rw [uuidDigits, removeFrom_of_not_mem hu, removeFrom_of_not_mem hu, stripBraces,
    dropWhile_none hbrace, dropWhile_none hrev, List.reverse_reverse, u.str_filter]

theorem Uuid.parse_str (u : Uuid) : Uuid.parse u.str = some u := by
  have hlt : u.bits.val < 16 ^ 32 := Nat.lt_of_lt_of_eq u.bits.isLt (by decide)
  have hread := Digits.readDigits_of_lt (k := 32) (show 0 < 16 by decide) le_rfl hlt []
  rw [List.append_nil, ← hexDigits_eq, ← Uuid.hex] at hread
  rw [Uuid.parse, uuidDigits_str, if_pos u.hex_length, hread, Option.map_some]
  exact congrArg (fun b => some (Uuid.mk b)) (Fin.ext (Nat.mod_eq_of_lt u.bits.isLt))

namespace Pagination

/-- Nothing is returned where `astimezone` raises. -/
def encodeCursor (createdAt : Aware) (entityId : Uuid) : Option Str := do
  let utc ← createdAt.astimezoneUtc
  let payload := [("ts".toList, isoformat utc.wall (some utc.utcoffset)),
    ("id".toList, entityId.str)]
  let rawBytes := encodeUtf8 (dumps payload)
  decodeUtf8 (Base64.urlsafeEncode rawBytes)

def item : Value → Str → Option Str
  | .object members, key =>
    match members.lookup key with
    | some (.string s) => some s
    | _ => none
  | _, _ => none

def decodeCursor (cursor : Str) : Option ((DateTime × Option Offset) × Uuid) := do
  let rawBytes ← Base64.urlsafeDecode (encodeUtf8 cursor)
  let payload ← loads (← decodeUtf8 rawBytes)
  let ts ← fromisoformat (← item payload "ts".toList)
  let entityId ← Uuid.parse (← item payload "id".toList)
  some (ts, entityId)

def payloadOf (utc : DateTime) (entityId : Uuid) : List (Str × Str) :=
  [("ts".toList, isoformat utc (some .utc)), ("id".toList, entityId.str)]

theorem encodeCursor_eq (createdAt : Aware) (entityId : Uuid) :
    encodeCursor createdAt entityId = createdAt.astimezoneUtc.bind fun utc =>
      decodeUtf8 (Base64.urlsafeEncode (encodeUtf8 (dumps
        [("ts".toList, isoformat utc.wall (some utc.utcoffset)), ("id".toList, entityId.str)]))) :=
  rfl

theorem decodeUtf8_urlsafeEncode (bytes : List UInt8) :
    ∃ s, decodeUtf8 (Base64.urlsafeEncode bytes) = some s ∧
      encodeUtf8 s = Base64.urlsafeEncode bytes := by
  have hascii := encodeUtf8_ascii (Base64.urlsafeEncode_ascii bytes)
  refine ⟨_, ?_, hascii⟩
  conv_lhs => rw [← hascii]
  exact decodeUtf8_encodeUtf8 _

theorem encodeCursor_eq_some {createdAt : Aware} {entityId : Uuid} {s : Str}
    (h : encodeCursor createdAt entityId = some s) : ∃ utc,
      createdAt.astimezoneUtc = some ⟨utc, .utc⟩ ∧
        encodeUtf8 s = Base64.urlsafeEncode (encodeUtf8 (dumps (payloadOf utc entityId))) := by
  obtain ⟨utc, hutc, h⟩ := Option.bind_eq_some_iff.mp h
  obtain ⟨t, -, rfl⟩ := Option.map_eq_some_iff.mp hutc
  obtain ⟨s', hs', hbytes⟩ :=
    decodeUtf8_urlsafeEncode (encodeUtf8 (dumps (payloadOf t entityId)))
  obtain rfl : s' = s := Option.some.inj (hs'.symm.trans h)
  exact ⟨t, hutc, hbytes⟩

theorem isSome_encodeCursor {createdAt : Aware} {entityId : Uuid} :
    (encodeCursor createdAt entityId).isSome ↔ Representable createdAt.instant := by
  rw [← Aware.isSome_ofInstant, ← Aware.astimezoneUtc_eq]
  cases hutc : createdAt.astimezoneUtc with
  | none => simp [encodeCursor_eq, hutc]
  | some utc =>
    obtain ⟨s, hs, -⟩ := decodeUtf8_urlsafeEncode (encodeUtf8 (dumps
      [("ts".toList, isoformat utc.wall (some utc.utcoffset)), ("id".toList, entityId.str)]))
    rw [encodeCursor_eq, hutc, Option.bind_some, hs]
    simp

theorem decodeCursor_of_bytes {s : Str} {utc : DateTime} {entityId : Uuid}
    (h : encodeUtf8 s = Base64.urlsafeEncode (encodeUtf8 (dumps (payloadOf utc entityId)))) :
    decodeCursor s = some ((utc, some .utc), entityId) := by
  have hts : item (.object (texts (payloadOf utc entityId))) "ts".toList =
      some (isoformat utc (some .utc)) := rfl
  have hid : item (.object (texts (payloadOf utc entityId))) "id".toList = some entityId.str := rfl
  have hkeys : ((payloadOf utc entityId).map Prod.fst).Nodup :=
    show ["ts".toList, "id".toList].Nodup by decide
  simp only [decodeCursor, h, Base64.urlsafeDecode_urlsafeEncode, decodeUtf8_encodeUtf8,
    loads_dumps hkeys, hts, hid, fromisoformat_isoformat, Uuid.parse_str, Option.bind_eq_bind,
    Option.bind_some]

def textMember (m : Str × Value) : Option (Str × Str) :=
  match m.2 with
  | .string s => some (m.1, s)
  | _ => none

def Value.textMembers : Value → Option (List (Str × Str))
  | .object members => some (members.filterMap textMember)
  | _ => none

def instantOf (ts : DateTime × Option Offset) : Int :=
  ts.1.micros - ts.2.elim 0 Offset.micros - epochMicros

/-- A library whose texts of cursors have their documented formats. -/
@[reducible] def formats (base : Library) : Library :=
  { base with
    isoformat t := ((Aware.ofInstant t).map fun a => isoformat a.wall (some a.utcoffset)).getD []
    fromisoformat s := (fromisoformat s).map fun ts => (instantOf ts, ts.2.map Offset.micros)
    dumpPair a b := dumps [a, b]
    loadTexts s := (loads s).bind Value.textMembers
    urlsafeB64encode s := (decodeUtf8 (Base64.urlsafeEncode (encodeUtf8 s))).getD []
    urlsafeB64decode s := (Base64.urlsafeDecode (encodeUtf8 s)).bind decodeUtf8
    parseUuid := Uuid.parse }

variable (base : Library)

theorem encodeCursor_formats {createdAt : Aware} (entityId : Uuid)
    (h : Representable createdAt.instant) : encodeCursor createdAt entityId =
      some (@MultiTenantSaas.encodeCursor (formats base) createdAt.instant entityId) := by
  obtain ⟨utc, hutc⟩ := Option.isSome_iff_exists.mp (Aware.isSome_ofInstant.mpr h)
  obtain ⟨s, hs, -⟩ := decodeUtf8_urlsafeEncode (encodeUtf8 (dumps
    [("ts".toList, isoformat utc.wall (some utc.utcoffset)), ("id".toList, entityId.str)]))
  rw [encodeCursor_eq, Aware.astimezoneUtc_eq, hutc, Option.bind_some, hs]
  refine congrArg some ?_
  change s = (decodeUtf8 (Base64.urlsafeEncode (encodeUtf8 (dumps
    [("ts".toList, ((Aware.ofInstant createdAt.instant).map fun a =>
      isoformat a.wall (some a.utcoffset)).getD []), ("id".toList, entityId.str)])))).getD []
  rw [hutc, Option.map_some, Option.getD_some, hs, Option.getD_some]

theorem lookup_textMember {ms : List (Str × Value)} (h : (ms.map Prod.fst).Nodup) (key : Str) :
    (ms.filterMap textMember).lookup key = item (.object ms) key := by
  induction ms with
  | nil => rfl
  | cons m ms ih =>
    obtain ⟨hnew, hms⟩ := List.nodup_cons.mp h
    have hrest := ih hms
    obtain ⟨k, value⟩ := m
    by_cases hkey : key = k
    · subst hkey
      have hnone : ms.lookup key = none := List.lookup_eq_none_iff.mpr fun x hx => by
        have hne : key ≠ x.1 := fun he => hnew (List.mem_map.mpr ⟨x, hx, he.symm⟩)
        simpa using hne
      rw [item, hnone] at hrest
      cases value with
      | string s => simp [textMember, item]
      | _ => simpa [textMember, item] using hrest
    · have hne : (key == k) = false := by simpa using hkey
      have hitem : item (.object ((k, value) :: ms)) key = item (.object ms) key := by
        rw [item, item, List.lookup_cons, hne]
      rw [hitem, ← hrest]
      cases value with
      | string s =>
        change ((k, s) :: ms.filterMap textMember).lookup key = _
        rw [List.lookup_cons, hne]
      | _ => rfl

def readPayload (member : Str → Option Str) : Option ((DateTime × Option Offset) × Uuid) :=
  (member "ts".toList).bind fun ts => (fromisoformat ts).bind fun ts =>
    (member "id".toList).bind fun entityId => (Uuid.parse entityId).bind fun entityId =>
      some (ts, entityId)

theorem decodeCursor_eq (s : Str) : decodeCursor s =
    ((Base64.urlsafeDecode (encodeUtf8 s)).bind decodeUtf8).bind fun text =>
      (loads text).bind fun payload => readPayload (item payload) :=
  (Option.bind_assoc ..).symm

theorem decodeCursor_formats_eq (s : Str) : @MultiTenantSaas.decodeCursor (formats base) s =
    ((Base64.urlsafeDecode (encodeUtf8 s)).bind decodeUtf8).bind fun text =>
      ((loads text).bind Value.textMembers).bind fun payload =>
        (readPayload fun key => payload.lookup key).map fun r => (instantOf r.1, r.2) := by
  refine congrArg _ (funext fun text => congrArg _ (funext fun payload => ?_))
  simp only [readPayload, Option.map_bind, Function.comp_def, Option.map_some]
  refine congrArg _ (funext fun ts => ?_)
  exact Option.bind_map ..

theorem decodeCursor_formats (s : Str) : @MultiTenantSaas.decodeCursor (formats base) s =
    (decodeCursor s).map fun r => (instantOf r.1, r.2) := by
  rw [decodeCursor_eq, decodeCursor_formats_eq, Option.map_bind]
  refine congrArg _ (funext fun text => ?_)
  rw [Function.comp_apply]
  cases hv : loads text with
  | none => rfl
  | some v =>
    cases v with
    | object ms =>
      have hitem : (fun key => (ms.filterMap textMember).lookup key) = item (.object ms) :=
        funext fun key => lookup_textMember (nodup_loads hv) key
      change (readPayload fun key => (ms.filterMap textMember).lookup key).map _ = _
      rw [hitem]
      rfl
    | _ => rfl

/-- A cursor is decoded to the instant in UTC and the id it was encoded from, and stands for
no other instant and id. The feeds write and read these cursors. -/
theorem cursor_round_trip (createdAt : Aware) (entityId : Uuid)
    (h : Representable createdAt.instant) : ∃ s utc,
      encodeCursor createdAt entityId = some s ∧
      decodeCursor s = some ((utc, some .utc), entityId) ∧
      (Aware.mk utc .utc).instant = createdAt.instant ∧
      (∀ createdAt' entityId', encodeCursor createdAt' entityId' = some s →
        createdAt'.instant = createdAt.instant ∧ entityId' = entityId) ∧
      @MultiTenantSaas.encodeCursor (formats base) createdAt.instant entityId = s ∧
      @MultiTenantSaas.decodeCursor (formats base) s = some (createdAt.instant, entityId) := by
  have hinstant : ∀ {t : Aware} {utc}, t.astimezoneUtc = some ⟨utc, .utc⟩ →
      (Aware.mk utc .utc).instant = t.instant := fun hutc =>
    (Aware.instant_ofInstant ((Aware.astimezoneUtc_eq _).symm.trans hutc)).1
  obtain ⟨s, hs⟩ := Option.isSome_iff_exists.mp (isSome_encodeCursor.mpr h)
  obtain ⟨utc, hutc, hbytes⟩ := encodeCursor_eq_some hs
  have hdecode : decodeCursor s = some ((utc, some .utc), entityId) := decodeCursor_of_bytes hbytes
  have hfeed := (encodeCursor_formats base entityId h).symm.trans hs
  refine ⟨s, utc, hs, hdecode, hinstant hutc, fun t' id' hs' => ?_, Option.some.inj hfeed, ?_⟩
  · obtain ⟨utc', hutc', hbytes'⟩ := encodeCursor_eq_some hs'
    have hsame := (decodeCursor_of_bytes hbytes').symm.trans hdecode
    simp only [Option.some.injEq, Prod.mk.injEq, and_true] at hsame
    obtain ⟨rfl, rfl⟩ := hsame
    exact ⟨(hinstant hutc').symm.trans (hinstant hutc), rfl⟩
  · rw [decodeCursor_formats, hdecode, ← hinstant hutc]
    rfl

/-- Half past five in the morning in Kolkata, one microsecond late, of a leap day. -/
def leapMorning : Aware :=
  ⟨⟨⟨2024, 2, 29, by decide, by decide, by decide, by decide, by decide, by decide⟩,
    ⟨5, 30, 0, 1, by decide, by decide, by decide, by decide⟩⟩,
    ⟨19800000000, by decide, by decide⟩⟩

theorem leapMorning_round_trip : ∃ s utc,
    encodeCursor leapMorning (drawnId 3) = some s ∧
    decodeCursor s = some ((utc, some .utc), drawnId 3) ∧
    (Aware.mk utc .utc).instant = leapMorning.instant ∧
    (∀ createdAt' entityId', encodeCursor createdAt' entityId' = some s →
      createdAt'.instant = leapMorning.instant ∧ entityId' = drawnId 3) ∧
    @MultiTenantSaas.encodeCursor (formats Ascii.library) leapMorning.instant (drawnId 3) = s ∧
    @MultiTenantSaas.decodeCursor (formats Ascii.library) s =
      some (leapMorning.instant, drawnId 3) :=
  cursor_round_trip Ascii.library leapMorning (drawnId 3) (by unfold Representable; decide +kernel)

end Pagination

/-- How the texts of a cursor read back: `isoformat` and `fromisoformat` of what a datetime
holds, `str` and `UUID`, `dumps` and `loads` of the two members, and base64. -/
structure CursorTexts [Library] : Prop where
  isoformat : ∀ t, Representable t → Library.fromisoformat (Library.isoformat t) = some (t, some 0)
  uuid : ∀ u : Uuid, Library.parseUuid u.str = some u
  json : ∀ t (u : Uuid), Library.loadTexts
    (Library.dumpPair ("ts".toList, Library.isoformat t) ("id".toList, u.str)) =
      some [("ts".toList, Library.isoformat t), ("id".toList, u.str)]
  json_nonempty : ∀ a b, Library.dumpPair a b ≠ []
  base64 : ∀ s, Library.urlsafeB64decode (Library.urlsafeB64encode s) = some s
  base64_nonempty : ∀ s, s ≠ [] → Library.urlsafeB64encode s ≠ []

section

variable [Library] (laws : CursorTexts) {t : Instant} (ht : Representable t)

include laws ht

theorem decodeCursor_encodeCursor (u : Uuid) : decodeCursor (encodeCursor t u) = some (t, u) := by
  have hts : List.lookup "ts".toList
      [("ts".toList, Library.isoformat t), ("id".toList, u.str)] = some (Library.isoformat t) := rfl
  have hid : List.lookup "id".toList
      [("ts".toList, Library.isoformat t), ("id".toList, u.str)] = some u.str := rfl
  simp only [decodeCursor, encodeCursor, laws.base64, laws.json, hts, hid, laws.isoformat t ht,
    laws.uuid, Option.bind_eq_bind, Option.bind_some, Option.pure_def]

theorem cursorData_encodeCursor (u : Uuid) :
    cursorData (some (encodeCursor t u)) = some (t, u) := by
  have hne : encodeCursor t u ≠ [] := laws.base64_nonempty _ (laws.json_nonempty _ _)
  simp [cursorData, hne, decodeCursor_encodeCursor laws ht]

end

namespace Pagination

variable (base : Library)

theorem fromisoformat_formats {t : Int} (h : Representable t) :
    (formats base).fromisoformat ((formats base).isoformat t) = some (t, some 0) := by
  obtain ⟨utc, hutc⟩ := Option.isSome_iff_exists.mp (Aware.isSome_ofInstant.mpr h)
  obtain ⟨hinstant, hoffset⟩ := Aware.instant_ofInstant hutc
  change (fromisoformat (((Aware.ofInstant t).map fun a =>
    isoformat a.wall (some a.utcoffset)).getD [])).map _ = _
  rw [hutc, Option.map_some, Option.getD_some, fromisoformat_isoformat, Option.map_some, hoffset,
    ← hinstant, Aware.instant, hoffset]
  rfl

theorem base64_formats (s : Str) :
    (formats base).urlsafeB64decode ((formats base).urlsafeB64encode s) = some s := by
  obtain ⟨text, htext, hbytes⟩ := decodeUtf8_urlsafeEncode (encodeUtf8 s)
  change (Base64.urlsafeDecode (encodeUtf8 ((decodeUtf8 (Base64.urlsafeEncode
    (encodeUtf8 s))).getD []))).bind decodeUtf8 = some s
  rw [htext, Option.getD_some, hbytes, Base64.urlsafeDecode_urlsafeEncode, Option.bind_some,
    decodeUtf8_encodeUtf8]

theorem textMembers_texts (ms : List (Str × Str)) :
    Value.textMembers (.object (texts ms)) = some ms := by
  simp [Value.textMembers, texts, List.filterMap_map, Function.comp_def, textMember]

theorem cursorTexts : @CursorTexts (formats base) :=
  let := formats base
  { isoformat := fun _ => fromisoformat_formats base
    uuid := Uuid.parse_str
    json := fun t u => by
      have hkeys : ([("ts".toList, Library.isoformat t), ("id".toList, u.str)].map
        Prod.fst).Nodup := show ["ts".toList, "id".toList].Nodup by decide
      exact (congrArg (·.bind Value.textMembers) (loads_dumps hkeys)).trans (textMembers_texts _)
    json_nonempty := fun _ _ => List.cons_ne_nil _ _
    base64 := base64_formats base
    base64_nonempty := fun s hs hnil => by
      have hread := base64_formats base s
      have hempty : (formats base).urlsafeB64decode [] = some [] := rfl
      rw [show (formats base).urlsafeB64encode s = [] from hnil, hempty] at hread
      exact hs (Option.some.inj hread).symm }

end Pagination

end MultiTenantSaas
