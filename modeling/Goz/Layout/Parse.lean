import Goz.Core.Words
import Goz.Library.Reading
import Goz.Usn.Ops

namespace Goz.Layout

open Reading

/-- Structural corruption of a layout buffer, with the offsets involved. -/
inductive LayoutWalkError
  | truncated (what : String) (offset need len : Nat)
  | offsetOutOfBounds (what : String) (offset len : Nat)
  | offsetCycle (what : String) (offset : Nat) (rel : UInt32) (min : Nat)
  | oddUtf16Length (what : String) (offset : Nat) (len : UInt32)
  | nameTooLong (what : String) (offset : Nat) (len : UInt32) (max : Nat)
  | tooManyNames (count max len : Nat)
  deriving DecidableEq, Repr

abbrev Walk := Reading Span Bytes LayoutWalkError

def outputHeaderLen : Nat := 16

def fileEntryLen : Nat := 40

def nameEntryLen : Nat := 24

def infoPrefixLen : Nat := 24

def streamEntryLen : Nat := 48

def infoEntryLegacyLen : Nat := 56

def nameEntryPrimary : UInt32 := 1

def nameEntryDos : UInt32 := 2

def unnamedDataIdentifier : Bytes := [0x3A, 0, 0x3A, 0, 0x24, 0, 0x44, 0, 0x41, 0, 0x54, 0, 0x41, 0]

section Reads

variable (len : Nat)

/-- Resolves a relative offset: it has to clear the structure that holds it, and to stay in the buffer. -/
def followOffset (base : Nat) (rel : UInt32) (minRel : Nat) (what : String) : Walk Nat := do
  require (minRel ≤ rel.toNat) (.offsetCycle what base rel minRel)
  require (base + rel.toNat < len) (.offsetOutOfBounds what (base + rel.toNat) len)
  pure (base + rel.toNat)

def readBytes (offset need : Nat) (what : String) : Walk Bytes :=
  if need = 0 then pure []
  else do
    require (offset < len) (.offsetOutOfBounds what offset len)
    require (offset + need ≤ len) (.truncated what offset need len)
    fetch ⟨offset, offset + need⟩

def readStruct (offset size : Nat) (what : String) : Walk Bytes := readBytes len offset size what

/-- A chain of structures in a buffer: their size, their name and that of the offset that leads on, and where it is. -/
structure ChainKind where
  size : Nat
  what : String
  nextWhat : String
  nextAt : Nat

/-- The loop over a chain. Every structure is past the one before it, so a buffer holds no more of them than bytes. -/
def walkChain {σ : Type} (kind : ChainKind) (body : Nat → Bytes → σ → Walk σ) : Nat → Nat → σ → Walk σ
  | 0, _, state => pure state
  | fuel + 1, off, state => do
    let raw ← readStruct len off kind.size kind.what
    let state ← body off raw state
    let next := u32At raw kind.nextAt
    if next = 0 then pure state
    else do
      let off ← followOffset len off next kind.size kind.nextWhat
      walkChain kind body fuel off state

def followChain {σ : Type} (kind : ChainKind) (body : Nat → Bytes → σ → Walk σ) (fuel base : Nat) (first : UInt32) (what : String)
    (start : σ) : Walk σ :=
  if first = 0 then pure start
  else do
    let off ← followOffset len base first fileEntryLen what
    walkChain len kind body fuel off start

end Reads

section Parse

variable (len : Nat)

def nameChain : ChainKind := ⟨nameEntryLen, "FILE_LAYOUT_NAME_ENTRY", "FILE_LAYOUT_NAME_ENTRY.NextNameOffset", 0⟩

def streamChain : ChainKind := ⟨streamEntryLen, "STREAM_LAYOUT_ENTRY", "STREAM_LAYOUT_ENTRY.NextStreamOffset", 4⟩

def fileChain : ChainKind := ⟨fileEntryLen, "FILE_LAYOUT_ENTRY", "FILE_LAYOUT_ENTRY.NextFileOffset", 4⟩

def parseName (off : Nat) (raw : Bytes) (names : List LayoutName) : Walk (List LayoutName) := do
  let nameLen := u32At raw 16
  require (nameLen.toNat ≤ maxNameUtf16Bytes) (.nameTooLong "FILE_LAYOUT_NAME_ENTRY.FileName" off nameLen maxNameUtf16Bytes)
  require (nameLen.toNat % 2 = 0) (.oddUtf16Length "FILE_LAYOUT_NAME_ENTRY.FileNameLength" off nameLen)
  let nameBytes ← readBytes len (off + nameEntryLen) nameLen.toNat "FILE_LAYOUT_NAME_ENTRY.FileName"
  let name := Wtf8.fromUtf16 (utf16Units nameBytes)
  let flags := u32At raw 4
  pure (names ++ [{
    parentFrn := ⟨u64At raw 8⟩
    name := name.1
    nameLossy := name.2
    dosOnly := flags &&& nameEntryDos ≠ 0 && flags &&& nameEntryPrimary = 0 }])

def isUnnamedDataIdentifier (identifier : Bytes) : Bool := identifier.isEmpty || identifier = unnamedDataIdentifier

/-- Takes the size of a stream entry if it is the first unnamed one of a file that is no folder. -/
def parseStream (isDir : Bool) (off : Nat) (raw : Bytes) (size : Option UInt64) : Walk (Option UInt64) := do
  let idLen := u32At raw 44
  require (idLen.toNat % 2 = 0) (.oddUtf16Length "STREAM_LAYOUT_ENTRY.StreamIdentifierLength" off idLen)
  let identifier ← readBytes len (off + streamEntryLen) idLen.toNat "STREAM_LAYOUT_ENTRY.StreamIdentifier"
  pure (if !isDir && size.isNone && isUnnamedDataIdentifier identifier then some (max (i64At raw 24) 0).toUInt64 else size)

def parseInfo (base : Nat) (first declared : UInt32) : Walk (Option Int64) :=
  if first = 0 then pure none
  else do
    let off ← followOffset len base first fileEntryLen "FILE_LAYOUT_ENTRY.ExtraInfoOffset"
    let available := if declared = 0 then infoEntryLegacyLen else declared.toNat
    if infoPrefixLen ≤ available then do
      let info ← readStruct len off infoPrefixLen "FILE_LAYOUT_INFO_ENTRY"
      pure (some (i64At info 16))
    else pure none

def parseFile (fuel off : Nat) (entry : Bytes) : Walk LayoutFile := do
  let attributes := u32At entry 12
  let isDir : Bool := attributes &&& fileAttributeDirectory ≠ 0
  let names ← followChain len nameChain (parseName len) fuel off (u32At entry 24) "FILE_LAYOUT_ENTRY.FirstNameOffset" []
  let mtimeFt ← parseInfo len off (u32At entry 32) (u32At entry 36)
  let size ← followChain len streamChain (parseStream len isDir) fuel off (u32At entry 28) "FILE_LAYOUT_ENTRY.FirstStreamOffset" none
  pure { frn := ⟨u64At entry 16⟩, attributes := attributes, size := size, mtimeFt := mtimeFt, names := names }

def addFile (fuel off : Nat) (entry : Bytes) (found : List LayoutFile × Nat) : Walk (List LayoutFile × Nat) := do
  let file ← parseFile len fuel off entry
  let names := found.2 + file.names.length
  require (names ≤ len / nameEntryLen) (.tooManyNames names (len / nameEntryLen) len)
  pure (found.1 ++ [file], names)

def walkLayout (fuel : Nat) : Walk (List LayoutFile) :=
  if len = 0 then pure []
  else do
    let header ← readStruct len 0 outputHeaderLen "QUERY_FILE_LAYOUT_OUTPUT"
    if u32At header 0 = 0 then pure []
    else do
      let off ← followOffset len 0 (u32At header 4) outputHeaderLen "QUERY_FILE_LAYOUT_OUTPUT.FirstFileOffset"
      let found ← walkChain len fileChain (addFile len fuel) fuel off ([], 0)
      pure found.1

end Parse

def walkLayoutBuffer (buf : Bytes) : Except LayoutWalkError (List LayoutFile) :=
  (walkLayout buf.length buf.length).run fun span => span.slice buf

end Goz.Layout
