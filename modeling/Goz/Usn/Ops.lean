import Goz.Core.Types

namespace Goz

namespace UsnReason

def dataOverwrite : UInt32 := 0x00000001
def dataExtend : UInt32 := 0x00000002
def dataTruncation : UInt32 := 0x00000004
def fileCreate : UInt32 := 0x00000100
def fileDelete : UInt32 := 0x00000200
def renameOldName : UInt32 := 0x00001000
def renameNewName : UInt32 := 0x00002000
def basicInfoChange : UInt32 := 0x00008000
def hardLinkChange : UInt32 := 0x00010000

end UsnReason

def fileAttributeDirectory : UInt32 := 0x10

/-- One USN record. The index reads neither its version nor its USN and time. -/
structure ParsedUsnRecord where
  majorVersion : UInt16
  frn : Frn
  parentFrn : Frn
  usn : Int64
  timestampFt : Int64
  reason : UInt32
  attributes : UInt32
  name : Bytes
  nameLossy : Bool
  deriving DecidableEq, Repr

namespace ParsedUsnRecord

def isDir (rec : ParsedUsnRecord) : Bool := rec.attributes &&& fileAttributeDirectory ≠ 0

def has (rec : ParsedUsnRecord) (mask : UInt32) : Bool := rec.reason &&& mask ≠ 0

end ParsedUsnRecord

structure LayoutName where
  parentFrn : Frn
  name : Bytes
  nameLossy : Bool
  dosOnly : Bool
  deriving DecidableEq, Repr

structure LayoutFile where
  frn : Frn
  attributes : UInt32
  size : Option UInt64
  mtimeFt : Option Int64
  names : List LayoutName
  deriving DecidableEq, Repr

def LayoutFile.isDir (file : LayoutFile) : Bool := file.attributes &&& fileAttributeDirectory ≠ 0

inductive UsnOp
  | upsert (frn parent : Frn) (name : Bytes) (nameLossy isDir : Bool)
  | delete (frn : Frn)
  | linkDirty (frn : Frn)
  | statDirty (frn : Frn)
  | renameOldSeen (frn : Frn)
  deriving DecidableEq, Repr

open UsnReason in
def nameChanges : UInt32 := fileCreate ||| fileDelete ||| renameOldName ||| renameNewName ||| hardLinkChange

open UsnReason in
def opsFor (rec : ParsedUsnRecord) : List UsnOp :=
  -- a delete wins over everything accumulated in the window
  if rec.has fileDelete then [.delete rec.frn, .statDirty rec.parentFrn]
  else
    (if rec.has (renameNewName ||| fileCreate) then
      [.upsert rec.frn rec.parentFrn rec.name rec.nameLossy rec.isDir] else []) ++
    (if rec.has renameOldName && !rec.has (renameNewName ||| fileCreate ||| fileDelete) then
      [.renameOldSeen rec.frn] else []) ++
    (if rec.has hardLinkChange then [.linkDirty rec.frn] else []) ++
    (if rec.has (fileCreate ||| dataOverwrite ||| dataExtend ||| dataTruncation ||| basicInfoChange) then
      [.statDirty rec.frn] else []) ++
    (if rec.has nameChanges then [.statDirty rec.parentFrn] else [])

end Goz
