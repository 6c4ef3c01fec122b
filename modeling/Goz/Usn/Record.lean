import Goz.Core.Words
import Goz.Library.Reading
import Goz.Usn.Ops

namespace Goz.Usn

open Reading

/-- A structural defect of a record buffer, with the offset of the record. -/
inductive WalkError
  | zeroRecordLength (offset : Nat)
  | recordOverrun (offset : Nat)
  | truncatedHeader (offset : Nat)
  | malformedName (offset : Nat)
  deriving DecidableEq, Repr

/-- Records passed over, by kind. A record takes eight bytes, so no buffer that a word can measure makes a counter
    overflow. -/
structure SkipCounts where
  v4 : Nat
  unknownVersion : Nat
  deriving DecidableEq, Repr

structure EnumWalk where
  nextStartFrn : UInt64
  records : List ParsedUsnRecord
  skipped : SkipCounts
  deriving DecidableEq, Repr

structure JournalWalk where
  nextUsn : Int64
  records : List ParsedUsnRecord
  skipped : SkipCounts
  deriving DecidableEq, Repr

/-- A read of a buffer, and the record whose slice it is made from. -/
structure Field where
  span : Span
  record : Option Span
  deriving DecidableEq, Repr

abbrev Walk := Reading Field Bytes WalkError

section Parse

structure RawHeader where
  size : Nat
  frn : Nat
  parentFrn : Nat
  usn : Nat
  timestamp : Nat
  reason : Nat
  fileAttributes : Nat
  fileNameLength : Nat
  fileNameOffset : Nat

def rawV2 : RawHeader := ⟨60, 8, 16, 24, 32, 40, 52, 56, 58⟩

def rawV3 : RawHeader := ⟨76, 8, 24, 40, 48, 56, 68, 72, 74⟩

def commonHeaderLen : Nat := 8

def leadingValueLen : Nat := 8

variable (slot : Span)

def readIn (lo hi : Nat) : Walk Bytes := fetch ⟨⟨slot.lo + lo, slot.lo + hi⟩, some slot⟩

/-- The name of a record: whole code units, not too many, past the fixed header and within the record. -/
def extractName (nameOff nameLen minNameOff : Nat) : Walk (Bytes × Bool) := do
  require (nameLen % 2 = 0 ∧ nameLen ≤ maxNameUtf16Bytes) (.malformedName slot.lo)
  require (minNameOff ≤ nameOff) (.malformedName slot.lo)
  require (nameOff + nameLen ≤ slot.hi - slot.lo) (.malformedName slot.lo)
  let span ← readIn slot nameOff (nameOff + nameLen)
  pure (Wtf8.fromUtf16 (utf16Units span))

def parseNamed (raw : RawHeader) (version : UInt16) : Walk ParsedUsnRecord := do
  require (raw.size ≤ slot.hi - slot.lo) (.truncatedHeader slot.lo)
  let hdr ← readIn slot 0 raw.size
  let name ← extractName slot (u16At hdr raw.fileNameOffset).toNat (u16At hdr raw.fileNameLength).toNat raw.size
  pure {
    majorVersion := version
    frn := ⟨u64At hdr raw.frn⟩
    parentFrn := ⟨u64At hdr raw.parentFrn⟩
    usn := i64At hdr raw.usn
    timestampFt := i64At hdr raw.timestamp
    reason := u32At hdr raw.reason
    attributes := u32At hdr raw.fileAttributes
    name := name.1
    nameLossy := name.2 }

def parseV2 : Walk ParsedUsnRecord := parseNamed slot rawV2 2

def parseV3 : Walk ParsedUsnRecord := parseNamed slot rawV3 3

end Parse

inductive Found
  | parsed (record : ParsedUsnRecord)
  | v4
  | unknown

structure Walked where
  records : List ParsedUsnRecord
  skipped : SkipCounts

def Walked.empty : Walked := ⟨[], ⟨0, 0⟩⟩

def Walked.add (walked : Walked) : Found → Walked
  | .parsed record => { walked with records := walked.records ++ [record] }
  | .v4 => { walked with skipped := { walked.skipped with v4 := walked.skipped.v4 + 1 } }
  | .unknown => { walked with skipped := { walked.skipped with unknownVersion := walked.skipped.unknownVersion + 1 } }

def nextMultipleOf8 (n : Nat) : Nat := (n + 7) / 8 * 8

def parseVersion (slot : Span) (version : UInt16) : Walk Found :=
  if version = 2 then do
    let record ← parseV2 slot
    pure (.parsed record)
  else if version = 3 then do
    let record ← parseV3 slot
    pure (.parsed record)
  else if version = 4 then pure .v4
  else pure .unknown

/-- The record at `off`, and where the next one starts. Its length is not known before the common header is read. -/
def walkRecord (len off : Nat) : Walk (Found × Nat) := do
  let common ← fetch ⟨⟨off, off + commonHeaderLen⟩, none⟩
  let recLen := (u32At common 0).toNat
  require (recLen ≠ 0) (.zeroRecordLength off)
  require (off + recLen ≤ len) (.recordOverrun off)
  let found ← parseVersion ⟨off, off + recLen⟩ (u16At common 4)
  pure (found, nextMultipleOf8 (off + recLen))

def walkFrom (len : Nat) : Nat → Nat → Walked → Walk Walked
  | 0, _, walked => pure walked
  | fuel + 1, off, walked =>
    if off + commonHeaderLen ≤ len then do
      let step ← walkRecord len off
      walkFrom len fuel step.2 (walked.add step.1)
    else pure walked

/-- Every record is past the one before it, so there are no more of them than bytes. -/
def walkRecords (len : Nat) : Walk Walked := walkFrom len len leadingValueLen .empty

def walkLed (len : Nat) : Walk (Bytes × Walked) := do
  require (leadingValueLen ≤ len) (.truncatedHeader 0)
  let lead ← fetch ⟨⟨0, leadingValueLen⟩, none⟩
  let walked ← walkRecords len
  pure (lead, walked)

def walkEnum (len : Nat) : Walk EnumWalk := do
  let led ← walkLed len
  pure ⟨u64At led.1 0, led.2.records, led.2.skipped⟩

def walkJournal (len : Nat) : Walk JournalWalk := do
  let led ← walkLed len
  pure ⟨i64At led.1 0, led.2.records, led.2.skipped⟩

def Field.find (buf : Bytes) (field : Field) : Bytes := field.span.slice buf

def walkEnumBuffer (buf : Bytes) : Except WalkError EnumWalk := (walkEnum buf.length).run (Field.find buf)

def walkJournalBuffer (buf : Bytes) : Except WalkError JournalWalk := (walkJournal buf.length).run (Field.find buf)

end Goz.Usn
