import Goz.Usn.Record

namespace Goz.Usn

open Reading List

variable {len : Nat} {store : Field → Bytes} {slot : Span}
variable {version : UInt16} {off : Nat} {raw : RawHeader} {fuel minNameOff nameOff nameLen : Nat}

/-- A read within a buffer of `len` bytes and within its record. The reads of no record are the leading value and the
    common headers. -/
def Field.Safe (len : Nat) (field : Field) : Prop :=
  field.span.hi ≤ len ∧
    match field.record with
    | some slot => field.span.Inside slot ∧ slot.hi ≤ len
    | none => field.span.hi = field.span.lo + 8

theorem safe_readIn {lo hi : Nat} (bound : slot.hi ≤ len) (within : slot.lo + hi ≤ slot.hi) :
    Field.Safe len ⟨⟨slot.lo + lo, slot.lo + hi⟩, some slot⟩ :=
  ⟨within.trans bound, ⟨Nat.le_add_right .., within⟩, bound⟩

theorem safe_apart (bound : off + 8 ≤ len) : Field.Safe len ⟨⟨off, off + 8⟩, none⟩ := ⟨bound, rfl⟩

theorem reads_extractName (bound : slot.hi ≤ len) (order : slot.lo ≤ slot.hi) :
    Reads store (Field.Safe len) (extractName slot nameOff nameLen minNameOff) := by
  apply Reads.require_bind
  intro _
  apply Reads.require_bind
  intro _
  apply Reads.require_bind
  intro fits
  apply Reads.fetch_bind (safe_readIn bound (by omega))
  exact .pure _

theorem reads_parseNamed (bound : slot.hi ≤ len) (order : slot.lo ≤ slot.hi) :
    Reads store (Field.Safe len) (parseNamed slot raw version) := by
  apply Reads.require_bind
  intro fits
  apply Reads.fetch_bind (safe_readIn bound (by omega))
  apply (reads_extractName bound order).bind
  intro _ _
  exact .pure _

theorem reads_parseVersion (bound : slot.hi ≤ len) (order : slot.lo ≤ slot.hi) :
    Reads store (Field.Safe len) (parseVersion slot version) := by
  unfold parseVersion
  split
  · exact (reads_parseNamed bound order).bind fun _ _ => .pure _
  split
  · exact (reads_parseNamed bound order).bind fun _ _ => .pure _
  split
  · exact .pure _
  · exact .pure _

theorem reads_walkRecord (header : off + commonHeaderLen ≤ len) :
    Reads store (Field.Safe len) (walkRecord len off) := by
  apply Reads.fetch_bind (safe_apart header)
  apply Reads.require_bind
  intro _
  apply Reads.require_bind
  intro fits
  apply (reads_parseVersion fits (Nat.le_add_right ..)).bind
  intro _ _
  exact .pure _

theorem reads_walkFrom (fuel off : Nat) (walked : Walked) : Reads store (Field.Safe len) (walkFrom len fuel off walked) := by
  induction fuel generalizing off walked with
  | zero => exact .pure _
  | succ fuel ih =>
    unfold walkFrom
    split
    case isTrue header =>
      apply (reads_walkRecord header).bind
      intro step _
      exact ih step.2 _
    case isFalse => exact .pure _

theorem reads_walkRecords : Reads store (Field.Safe len) (walkRecords len) := reads_walkFrom _ _ _

theorem reads_walkLed : Reads store (Field.Safe len) (walkLed len) := by
  apply Reads.require_bind
  intro fits
  apply Reads.fetch_bind (safe_apart fits)
  apply reads_walkRecords.bind
  intro _ _
  exact .pure _

theorem reads_walkEnum : Reads store (Field.Safe len) (walkEnum len) := reads_walkLed.bind fun _ _ => .pure _

theorem reads_walkJournal : Reads store (Field.Safe len) (walkJournal len) := reads_walkLed.bind fun _ _ => .pure _

theorem run_walkRecord {step : Found × Nat} (ran : (walkRecord len off).run store = .ok step) :
    ∃ slot version, (parseVersion slot version).run store = .ok step.1 ∧ off < step.2 := by
  obtain ⟨some_, ran⟩ := run_require_bind_eq_ok.mp ran
  obtain ⟨-, ran⟩ := run_require_bind_eq_ok.mp ran
  obtain ⟨found, parsed, ran⟩ := run_bind_eq_ok.mp ran
  obtain rfl := Except.ok.inj ran
  refine ⟨_, _, parsed, ?_⟩
  simp only [nextMultipleOf8]
  omega

theorem trace_walkFrom_fuel (enough : len ≤ off + fuel) (more : Nat) (walked : Walked) :
    (walkFrom len (fuel + more) off walked).trace store = (walkFrom len fuel off walked).trace store := by
  induction fuel generalizing off walked with
  | zero =>
    cases more with
    | zero => rfl
    | succ more =>
      have past : ¬ off + commonHeaderLen ≤ len := by
        simp only [commonHeaderLen]
        omega
      rw [Nat.zero_add]
      simp only [walkFrom, if_neg past]
  | succ fuel ih =>
    rw [Nat.succ_add, walkFrom, walkFrom]
    split
    case isFalse => rfl
    case isTrue =>
      apply trace_bind rfl
      intro step ran
      obtain ⟨_, _, _, next⟩ := run_walkRecord ran
      exact ih (by omega) _

section Names

variable {walked : Walked}

def ProperName (name : Bytes) : Prop := name.length ≤ nameBytesMax ∧ Wtf8.WellFormed name

variable (buf : Bytes)

theorem run_extractName {name : Bytes × Bool}
    (ran : (extractName slot nameOff nameLen minNameOff).run (Field.find buf) = .ok name) : ProperName name.1 := by
  obtain ⟨units, ran⟩ := run_require_bind_eq_ok.mp ran
  obtain ⟨-, ran⟩ := run_require_bind_eq_ok.mp ran
  obtain ⟨-, ran⟩ := run_require_bind_eq_ok.mp ran
  obtain rfl := Except.ok.inj ran
  refine ⟨?_, Wtf8.wellFormed_fromUtf16 _⟩
  set span := Span.slice buf ⟨slot.lo + nameOff, slot.lo + (nameOff + nameLen)⟩ with sliced
  have taken : span.length ≤ _ := Span.length_slice_le buf _
  have few := length_utf16Units span
  have short : (Wtf8.fromUtf16 (utf16Units span)).1.length ≤ _ := Wtf8.length_fromUtf16 (utf16Units span)
  have limit := units.2
  show (Wtf8.fromUtf16 (utf16Units span)).1.length ≤ nameBytesMax
  simp only [maxNameUtf16Bytes, nameBytesMax] at limit taken ⊢
  omega

theorem run_parseNamed {record : ParsedUsnRecord}
    (ran : (parseNamed slot raw version).run (Field.find buf) = .ok record) : ProperName record.name := by
  obtain ⟨-, ran⟩ := run_require_bind_eq_ok.mp ran
  rw [readIn, run_fetch_bind] at ran
  obtain ⟨name, named, ran⟩ := run_bind_eq_ok.mp ran
  obtain rfl := Except.ok.inj ran
  exact run_extractName buf named

theorem run_parseVersion {found : Found} (ran : (parseVersion slot version).run (Field.find buf) = .ok found) :
    ∀ record, found = .parsed record → ProperName record.name := by
  intro record same
  subst same
  unfold parseVersion at ran
  split at ran
  · obtain ⟨parsed, parsing, same⟩ := run_bind_eq_ok.mp ran
    obtain rfl := Found.parsed.inj (Except.ok.inj same)
    exact run_parseNamed buf parsing
  split at ran
  · obtain ⟨parsed, parsing, same⟩ := run_bind_eq_ok.mp ran
    obtain rfl := Found.parsed.inj (Except.ok.inj same)
    exact run_parseNamed buf parsing
  split at ran
  · cases Except.ok.inj ran
  · cases Except.ok.inj ran

def Walked.Proper (walked : Walked) : Prop := ∀ record ∈ walked.records, ProperName record.name

theorem Walked.Proper.add (proper : walked.Proper) {found : Found}
    (own : ∀ record, found = .parsed record → ProperName record.name) : (walked.add found).Proper := by
  cases found with
  | parsed record =>
    intro other mem
    rcases mem_append.mp mem with before | here
    · exact proper other before
    · rw [mem_singleton.mp here]
      exact own record rfl
  | v4 => exact proper
  | unknown => exact proper

theorem run_walkFrom_proper {result : Walked} (proper : walked.Proper)
    (ran : (walkFrom len fuel off walked).run (Field.find buf) = .ok result) : result.Proper := by
  induction fuel generalizing off walked with
  | zero => exact Except.ok.inj ran ▸ proper
  | succ fuel ih =>
    unfold walkFrom at ran
    split at ran
    case isFalse => exact Except.ok.inj ran ▸ proper
    case isTrue =>
      obtain ⟨step, stepped, ran⟩ := run_bind_eq_ok.mp ran
      apply ih _ ran
      apply proper.add
      obtain ⟨_, _, parsed, -⟩ := run_walkRecord stepped
      exact run_parseVersion buf parsed

theorem run_walkLed_proper {led : Bytes × Walked} (ran : (walkLed len).run (Field.find buf) = .ok led) : led.2.Proper := by
  obtain ⟨-, ran⟩ := run_require_bind_eq_ok.mp ran
  rw [run_fetch_bind] at ran
  obtain ⟨walked, walkedRun, ran⟩ := run_bind_eq_ok.mp ran
  obtain rfl := Except.ok.inj ran
  apply run_walkFrom_proper buf _ walkedRun
  intro record none_
  cases none_

end Names

/-- A record with a name as it is written: the fields that are read and those that are not, with any bytes between the
    header and the name and behind the name. -/
structure NamedRecord where
  minorVersion : UInt16
  frn : UInt64
  frnHigh : UInt64
  parentFrn : UInt64
  parentFrnHigh : UInt64
  usn : Int64
  timestamp : Int64
  reason : UInt32
  sourceInfo : UInt32
  securityId : UInt32
  fileAttributes : UInt32
  gap : Bytes
  name : List UInt16
  padding : Bytes

inductive WireRecord
  | v2 (named : NamedRecord)
  | v3 (named : NamedRecord)
  | other (majorVersion minorVersion : UInt16) (body : Bytes)

/-- What the headers of V2 and V3 have in common, from the USN on, in a header of this size. -/
def NamedRecord.fields (named : NamedRecord) (header : Nat) : Bytes :=
  i64 named.usn ++ (i64 named.timestamp ++ (u32 named.reason ++ (u32 named.sourceInfo ++ (u32 named.securityId ++
    (u32 named.fileAttributes ++ (u16 (UInt16.ofNat (2 * named.name.length)) ++ u16 (UInt16.ofNat (header + named.gap.length))))))))

def NamedRecord.text (named : NamedRecord) : Bytes := named.gap ++ (utf16Bytes named.name ++ named.padding)

namespace WireRecord

def majorVersion : WireRecord → UInt16
  | v2 _ => 2
  | v3 _ => 3
  | other majorVersion _ _ => majorVersion

def minorVersion : WireRecord → UInt16
  | v2 named | v3 named => named.minorVersion
  | other _ minorVersion _ => minorVersion

def body : WireRecord → Bytes
  | v2 named => u64 named.frn ++ (u64 named.parentFrn ++ (named.fields 60 ++ named.text))
  | v3 named =>
    u64 named.frn ++ (u64 named.frnHigh ++ (u64 named.parentFrn ++ (u64 named.parentFrnHigh ++ (named.fields 76 ++ named.text))))
  | other _ _ body => body

def size (record : WireRecord) : Nat := commonHeaderLen + record.body.length

def bytes (record : WireRecord) : Bytes :=
  u32 (UInt32.ofNat record.size) ++ (u16 record.majorVersion ++ (u16 record.minorVersion ++ record.body))

def Fits (record : WireRecord) : Prop :=
  record.size < 2 ^ 32 ∧
    match record with
    | v2 named => named.name.length ≤ 255 ∧ 60 + named.gap.length < 2 ^ 16
    | v3 named => named.name.length ≤ 255 ∧ 76 + named.gap.length < 2 ^ 16
    | other majorVersion _ _ => majorVersion ≠ 2 ∧ majorVersion ≠ 3

def parsed (majorVersion : UInt16) (named : NamedRecord) : ParsedUsnRecord where
  majorVersion := majorVersion
  frn := ⟨named.frn⟩
  parentFrn := ⟨named.parentFrn⟩
  usn := named.usn
  timestampFt := named.timestamp
  reason := named.reason
  attributes := named.fileAttributes
  name := (Wtf8.fromUtf16 named.name).1
  nameLossy := (Wtf8.fromUtf16 named.name).2

def found : WireRecord → Found
  | v2 named => .parsed (parsed 2 named)
  | v3 named => .parsed (parsed 3 named)
  | other majorVersion _ _ => if majorVersion = 4 then .v4 else .unknown

def parsed? : WireRecord → Option ParsedUsnRecord
  | v2 named => some (parsed 2 named)
  | v3 named => some (parsed 3 named)
  | other .. => none

def isV4 (record : WireRecord) : Bool := record.majorVersion = 4

def isUnknown (record : WireRecord) : Bool := record.parsed?.isNone && !record.isV4

@[simp] theorem length_bytes (record : WireRecord) : record.bytes.length = record.size := by
  simp only [bytes, size, commonHeaderLen, length_append, length_u32, length_u16]
  omega

end WireRecord

/-- Records one after the other, each from an aligned offset on: the bytes that fill up to the next such offset may be
    any, and so may fewer than a header's at the end. -/
inductive Laid : List WireRecord → Bytes → Prop
  | done {tail : Bytes} (short : tail.length < commonHeaderLen) : Laid [] tail
  | last {record : WireRecord} {fill : Bytes} (fits : record.Fits) (short : record.size + fill.length ≤ nextMultipleOf8 record.size) :
      Laid [record] (record.bytes ++ fill)
  | cons {record : WireRecord} {records : List WireRecord} {fill tail : Bytes} (fits : record.Fits)
      (aligned : record.size + fill.length = nextMultipleOf8 record.size) (rest : Laid records tail) :
      Laid (record :: records) (record.bytes ++ (fill ++ tail))

open LittleEndian
open Walked (add)
open WireRecord (body found isUnknown isV4 majorVersion minorVersion parsed?)

variable {named : NamedRecord} {records : List WireRecord} {record : WireRecord}

/-- A header of this layout holds the fields of a record, and its name is where the header says. -/
structure Encodes (raw : RawHeader) (named : NamedRecord) (list : Bytes) : Prop where
  frn : u64At (list.take raw.size) raw.frn = named.frn
  parentFrn : u64At (list.take raw.size) raw.parentFrn = named.parentFrn
  usn : i64At (list.take raw.size) raw.usn = named.usn
  timestamp : i64At (list.take raw.size) raw.timestamp = named.timestamp
  reason : u32At (list.take raw.size) raw.reason = named.reason
  fileAttributes : u32At (list.take raw.size) raw.fileAttributes = named.fileAttributes
  fileNameLength : (u16At (list.take raw.size) raw.fileNameLength).toNat = 2 * named.name.length
  fileNameOffset : (u16At (list.take raw.size) raw.fileNameOffset).toNat = raw.size + named.gap.length
  text : ∃ head, head.length = raw.size ∧ list = head ++ named.text

theorem encodes_v2 (fits : (WireRecord.v2 named).Fits) : Encodes rawV2 named (WireRecord.v2 named).bytes := by
  obtain ⟨-, short, near⟩ := fits
  constructor
  case text =>
    refine ⟨u32 (UInt32.ofNat (WireRecord.v2 named).size) ++ (u16 2 ++ (u16 named.minorVersion ++ (u64 named.frn ++
      (u64 named.parentFrn ++ named.fields 60)))), ?_, ?_⟩
    · simp [NamedRecord.fields, rawV2]
    · simp [WireRecord.bytes, body, majorVersion, minorVersion]
  all_goals
    simp [u16At, u32At, u64At, i64At, rawV2, WireRecord.bytes, body, NamedRecord.fields, i64, u16, u32, u64]
  · omega
  · omega

theorem encodes_v3 (fits : (WireRecord.v3 named).Fits) : Encodes rawV3 named (WireRecord.v3 named).bytes := by
  obtain ⟨-, short, near⟩ := fits
  constructor
  case text =>
    refine ⟨u32 (UInt32.ofNat (WireRecord.v3 named).size) ++ (u16 3 ++ (u16 named.minorVersion ++ (u64 named.frn ++
      (u64 named.frnHigh ++ (u64 named.parentFrn ++ (u64 named.parentFrnHigh ++ named.fields 76)))))), ?_, ?_⟩
    · simp [NamedRecord.fields, rawV3]
    · simp [WireRecord.bytes, body, majorVersion, minorVersion]
  all_goals
    simp [u16At, u32At, u64At, i64At, rawV3, WireRecord.bytes, body, NamedRecord.fields, i64, u16, u32, u64]
  · omega
  · omega

variable {front tail list : Bytes} {lo hi : Nat}

theorem find_inside {record : Option Span} (within : hi ≤ list.length) :
    Field.find (front ++ (list ++ tail)) ⟨⟨front.length + lo, front.length + hi⟩, record⟩ = Span.slice list ⟨lo, hi⟩ := by
  rw [Field.find, Span.slice_append rfl]
  exact Span.slice_append_left within

theorem run_parseNamed_exact (encodes : Encodes raw named list)
    (short : named.name.length ≤ 255) :
    (parseNamed ⟨front.length, front.length + list.length⟩ raw version).run (Field.find (front ++ (list ++ tail))) =
      .ok (WireRecord.parsed version named) := by
  obtain ⟨head, size, text⟩ := encodes.text
  have length : list.length = raw.size + (named.gap.length + (2 * named.name.length + named.padding.length)) := by
    rw [text, length_append, size]
    simp [NamedRecord.text]
  have header : Span.slice list ⟨0, raw.size⟩ = list.take raw.size := rfl
  have name : Span.slice list ⟨raw.size + named.gap.length, raw.size + named.gap.length + 2 * named.name.length⟩ = utf16Bytes named.name := by
    rw [text, Nat.add_assoc, Span.slice_append size]
    simp [NamedRecord.text, Span.slice]
  rw [parseNamed, run_require_bind (by simp only; omega), readIn, run_fetch_bind, find_inside (by omega), header, run_bind, extractName,
    encodes.fileNameLength, encodes.fileNameOffset, run_require_bind (by simp only [maxNameUtf16Bytes]; omega),
    run_require_bind (by omega), run_require_bind (by simp only; omega), readIn, run_fetch_bind, find_inside (by omega), name]
  simp only [utf16Units_utf16Bytes, encodes.frn, encodes.parentFrn, encodes.usn, encodes.timestamp, encodes.reason,
    encodes.fileAttributes]
  rfl

theorem run_parseVersion_exact (fits : record.Fits) :
    (parseVersion ⟨front.length, front.length + record.size⟩ record.majorVersion).run
      (Field.find (front ++ (record.bytes ++ tail))) = .ok record.found := by
  cases record with
  | v2 named =>
    have parsed : (parseV2 ⟨front.length, front.length + (WireRecord.v2 named).bytes.length⟩).run
        (Field.find (front ++ ((WireRecord.v2 named).bytes ++ tail))) = _ := run_parseNamed_exact (encodes_v2 fits) fits.2.1
    rw [WireRecord.length_bytes] at parsed
    show (parseV2 _ >>= fun record => pure (Found.parsed record)).run _ = _
    exact run_bind_ok parsed
  | v3 named =>
    have parsed : (parseV3 ⟨front.length, front.length + (WireRecord.v3 named).bytes.length⟩).run
        (Field.find (front ++ ((WireRecord.v3 named).bytes ++ tail))) = _ := run_parseNamed_exact (encodes_v3 fits) fits.2.1
    rw [WireRecord.length_bytes] at parsed
    show (parseV3 _ >>= fun record => pure (Found.parsed record)).run _ = _
    exact run_bind_ok parsed
  | other majorVersion minorVersion body =>
    obtain ⟨-, not2, not3⟩ := fits
    show (if majorVersion = 2 then _ else if majorVersion = 3 then _ else if majorVersion = 4 then pure Found.v4
      else pure Found.unknown : Walk Found).run _ = .ok (if majorVersion = 4 then Found.v4 else Found.unknown)
    rw [if_neg not2, if_neg not3]
    split <;> rfl

theorem run_walkRecord_exact (fits : record.Fits) :
    (walkRecord (front ++ (record.bytes ++ tail)).length front.length).run (Field.find (front ++ (record.bytes ++ tail))) =
      .ok (record.found, nextMultipleOf8 (front.length + record.size)) := by
  have some_ : 8 ≤ record.size := Nat.le_add_right ..
  have common : Field.find (front ++ (record.bytes ++ tail)) ⟨⟨front.length + 0, front.length + commonHeaderLen⟩, none⟩ =
      record.bytes.take 8 := find_inside (by rw [WireRecord.length_bytes]; exact some_)
  have size : (UInt32.ofNat record.size).toNat = record.size := UInt32.toNat_ofNat_of_lt' fits.1
  have length : u32At (record.bytes.take 8) 0 = UInt32.ofNat record.size := by
    rw [u32At, word_take (by decide), WireRecord.bytes, u32, word_zero_bytes, ofNat_mod32]
  have version : u16At (record.bytes.take 8) 4 = record.majorVersion := by
    simp [WireRecord.bytes, u16At, u32, u16]
  rw [Nat.add_zero] at common
  rw [walkRecord, run_fetch_bind, common]
  simp only [length, version, size]
  rw [run_require_bind (by omega), run_require_bind (by simp), run_bind_ok (run_parseVersion_exact fits)]
  rfl

theorem run_walkFrom_past {len : Nat} {store : Field → Bytes} (past : ¬ off + commonHeaderLen ≤ len) (fuel : Nat) (walked : Walked) :
    (walkFrom len fuel off walked).run store = .ok walked := by
  cases fuel with
  | zero => rfl
  | succ fuel =>
    rw [walkFrom, if_neg past]
    rfl

theorem nextMultipleOf8_add (aligned : off % 8 = 0) (n : Nat) : nextMultipleOf8 (off + n) = off + nextMultipleOf8 n := by
  simp only [nextMultipleOf8]
  omega

theorem run_walkFrom_exact (laid : Laid records list) (aligned : front.length % 8 = 0)
    (enough : list.length ≤ fuel) (walked : Walked) :
    (walkFrom (front ++ list).length fuel front.length walked).run (Field.find (front ++ list)) =
      .ok (records.foldl (fun walked record => walked.add record.found) walked) := by
  induction laid generalizing front fuel walked with
  | done short =>
    apply run_walkFrom_past
    rw [length_append]
    omega
  | @last record fill fits short =>
    have some_ : 8 ≤ record.size := Nat.le_add_right ..
    cases fuel with
    | zero =>
      simp only [length_append, WireRecord.length_bytes] at enough
      omega
    | succ fuel =>
      rw [walkFrom, if_pos (by simp [commonHeaderLen]; omega), run_bind_ok (run_walkRecord_exact fits)]
      apply run_walkFrom_past
      simp only [nextMultipleOf8_add aligned, length_append, WireRecord.length_bytes, commonHeaderLen]
      omega
  | @cons record records fill tail fits full rest ih =>
    have some_ : 8 ≤ record.size := Nat.le_add_right ..
    cases fuel with
    | zero =>
      simp only [length_append, WireRecord.length_bytes] at enough
      omega
    | succ fuel =>
      rw [walkFrom, if_pos (by simp [commonHeaderLen]; omega), run_bind_ok (run_walkRecord_exact fits)]
      have next : nextMultipleOf8 (front.length + record.size) = (front ++ record.bytes ++ fill).length := by
        simp only [nextMultipleOf8_add aligned, length_append, WireRecord.length_bytes]
        omega
      have same : front ++ (record.bytes ++ (fill ++ tail)) = (front ++ record.bytes ++ fill) ++ tail := by simp
      rw [same]
      show (walkFrom _ fuel (nextMultipleOf8 (front.length + record.size)) (walked.add record.found)).run _ = _
      rw [next]
      apply ih
      · rw [← next, nextMultipleOf8_add aligned]
        simp only [nextMultipleOf8]
        omega
      · simp only [length_append, WireRecord.length_bytes] at enough
        omega

theorem foldl_add (records : List WireRecord) (walked : Walked) :
    records.foldl (fun walked record => walked.add record.found) walked =
      ⟨walked.records ++ records.filterMap parsed?,
        walked.skipped.v4 + records.countP isV4, walked.skipped.unknownVersion + records.countP isUnknown⟩ := by
  induction records generalizing walked with
  | nil => simp
  | cons record records ih =>
    rw [foldl_cons, ih]
    cases record with
    | v2 named | v3 named => simp [found, add, parsed?, isV4, isUnknown, majorVersion]
    | other version minorVersion body =>
      by_cases four : version = 4
      all_goals
        simp [found, add, parsed?, isV4, isUnknown, majorVersion, four]
        exact ⟨rfl, by omega⟩

theorem run_walkLed_exact (laid : Laid records list) (lead : UInt64) :
    (walkLed (u64 lead ++ list).length).run (Field.find (u64 lead ++ list)) =
      .ok (u64 lead, ⟨records.filterMap parsed?, records.countP isV4, records.countP isUnknown⟩) := by
  have first : Field.find (u64 lead ++ list) ⟨⟨0, leadingValueLen⟩, none⟩ = u64 lead := by
    rw [Field.find, Span.slice_append_left (by rw [length_u64]; exact le_rfl)]
    exact take_of_length_le (by simp [leadingValueLen])
  have walked := run_walkFrom_exact laid (show (u64 lead).length % 8 = 0 by simp)
    (show list.length ≤ (u64 lead ++ list).length by simp) .empty
  rw [length_u64, foldl_add] at walked
  rw [walkLed, run_require_bind (by simp [leadingValueLen]), run_fetch_bind, first, walkRecords, show leadingValueLen = 8 from rfl,
    run_bind_ok walked]
  simp [Walked.empty]

def sampleRecord : NamedRecord where
  minorVersion := 0
  frn := 0x0001000000000006
  frnHigh := 0
  parentFrn := 0x0005000000000005
  parentFrnHigh := 0
  usn := 128
  timestamp := 1
  reason := UsnReason.fileCreate
  sourceInfo := 0
  securityId := 0
  fileAttributes := 0x20
  gap := [0xEE, 0xEE]
  name := [0x61]
  padding := []

end Goz.Usn
