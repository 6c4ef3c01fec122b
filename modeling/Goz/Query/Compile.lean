import Goz.Index.Volume
import Goz.Query.Budget

namespace Goz

/-- One matched entry, with the FRN that tells whether its slot still holds it. -/
structure HitRef where
  idx : EntryIdx
  frn : Frn
  deriving DecidableEq, Repr

def VolumeIndex.sizeAt (ix : VolumeIndex) (idx : EntryIdx) : Option UInt64 :=
  if ix.entries.size idx = sizeUnknown then none else some (ix.entries.size idx)

def VolumeIndex.mtimeAt (ix : VolumeIndex) (idx : EntryIdx) : Option Int64 :=
  if ix.entries.mtime idx = mtimeUnknown then none else some (ix.entries.mtime idx)

def VolumeIndex.isDir (ix : VolumeIndex) (idx : EntryIdx) : Bool := (ix.entries.flags idx).dir

def unknownLast (known : Option UInt64) (dir : SortDir) : UInt64 :=
  match known, dir with
  | some k, .asc => k
  | some k, .desc => k + 1
  | none, .asc => 0xFFFFFFFFFFFFFFFF
  | none, .desc => 0

def sizeKey (size : Option UInt64) (dir : SortDir) : UInt64 := unknownLast size dir

def mtimeKey (mtime : Option Int64) (dir : SortDir) : UInt64 :=
  unknownLast (mtime.map fun t => (t.toUInt64 ^^^ 0x8000000000000000) - 1) dir

namespace Query

open Wtf8

inductive Kind
  | file | folder
  deriving DecidableEq, Repr

structure SizeRange where
  min : UInt64
  max : UInt64
  deriving DecidableEq, Repr

def SizeRange.contains (range : SizeRange) (n : UInt64) : Bool := range.min ≤ n && n ≤ range.max

inductive DateFilter
  | within (min max : Int64)
  | unknown
  deriving DecidableEq, Repr

namespace DateFilter

def matchesDate : DateFilter → Option Int64 → Bool
  | within min max, some t => min ≤ t && t ≤ max
  | unknown, none => true
  | _, _ => false

def and : DateFilter → DateFilter → DateFilter
  | within a b, within c d => within (if a ≤ c then c else a) (if b ≤ d then b else d)
  | unknown, unknown => unknown
  | _, _ => within Int64.maxValue Int64.minValue

end DateFilter

structure Filters where
  ext : Option (List Bytes) := none
  size : Option SizeRange := none
  kind : Option Kind := none
  date : Option DateFilter := none

/-- A parsed query. Terms and patterns are folded unless it matches case. -/
structure ParsedQuery where
  nameTerms : List Bytes
  pathTerms : List Bytes
  wildcards : List Wildcard
  pathWildcards : List Wildcard
  filters : Filters
  matchCase : Bool

section Compiled

/-- A query compiled for a volume. Its finders are their needles here. -/
structure CompiledQuery where
  nameFinders : List Bytes
  pathFinders : List Bytes
  prefilter : Option Bytes
  prefilterDecidesName : Bool
  mountPrefix : Bytes
  volumeAdmits : Bool
  pathWildcardEnds : List (Bytes × Bytes)
  pathPiece : Option Bytes

def consider (isNameTerm : Bool) (best : Option Bytes × Bool) (cand : Bytes) : Option Bytes × Bool :=
  if cand.length > (best.1.map List.length).getD 0 then (some cand, isNameTerm) else best

def extLiteral (filters : Filters) : List Bytes :=
  match filters.ext with
  | some [ext] => if ext.isEmpty then [] else [0x2E :: ext]
  | _ => []

def prefilterOf (parsed : ParsedQuery) : Option Bytes × Bool :=
  let terms := parsed.nameTerms.foldl (consider true) (none, false)
  let literals := (parsed.wildcards.filterMap (·.longestLiteral)).foldl (consider false) terms
  (extLiteral parsed.filters).foldl (consider false) literals

/-- Whether a path that starts with `mount` can hold the term: its first colon can only be the drive's. -/
def termAdmits (term mount : Bytes) : Bool :=
  match term.findIdx? (· = 0x3A) with
  | none => true
  | some k =>
    match mount.findIdx? (· = 0x3A) with
    | none => false
    | some c =>
      if c < k then false
      else
        let start := c - k
        let overlap := min (mount.length - start) term.length
        term.take overlap = (mount.drop start).take overlap

def wildcardAdmits (w : Wildcard) (mount : Bytes) : Bool :=
  let n := min w.leadingLiteral.length mount.length
  w.leadingLiteral.take n = mount.take n

def considerPiece (mount : Bytes) (best : Option Bytes) (piece : Bytes) : Option Bytes :=
  if !piece.isEmpty && piece.length ≥ (best.map List.length).getD 0 && (Search.find piece mount).isNone then some piece
  else best

def endsWithSeparator (bytes : Bytes) : Bool := bytes.getLast? = some 0x5C

def pieces (parsed : ParsedQuery) : List Bytes :=
  parsed.pathTerms.flatMap (·.splitOnP (· = 0x5C)) ++ parsed.pathWildcards.flatMap (·.separatorFreeLiterals)

def pathPiece (parsed : ParsedQuery) (mount : Bytes) : Option Bytes :=
  if !mount.isEmpty && !endsWithSeparator mount then none else (pieces parsed).foldl (considerPiece mount) none

variable [Externals]

def compile (parsed : ParsedQuery) (mount : Bytes) : CompiledQuery :=
  let seen := if parsed.matchCase then mount else fold mount
  { nameFinders := parsed.nameTerms
    pathFinders := parsed.pathTerms.filter fun t => (Search.find t seen).isNone
    prefilter := (prefilterOf parsed).1
    prefilterDecidesName := (prefilterOf parsed).2 && parsed.nameTerms.length = 1 && parsed.wildcards.isEmpty &&
      parsed.filters.ext.isNone
    mountPrefix := seen
    volumeAdmits := parsed.pathTerms.all (termAdmits · seen) && parsed.pathWildcards.all (wildcardAdmits · seen)
    pathWildcardEnds := parsed.pathWildcards.map fun w => (w.leadingLiteral, w.trailingLiteral)
    pathPiece := if parsed.matchCase then none else pathPiece parsed seen }

def testsPaths (parsed : ParsedQuery) (compiled : CompiledQuery) : Bool :=
  !compiled.pathFinders.isEmpty || !parsed.pathWildcards.isEmpty

end Compiled

section Names

def wildcardsMatch (wildcards : List Wildcard) (text : Bytes) : Asking Bool :=
  wildcards.allM (·.matchesWatched (codePoints text))

def extensionOf (name : Bytes) : Option Bytes :=
  (name.reverse.findIdx? (· = 0x2E)).map fun i => name.drop (name.length - i)

variable [Externals]

def extMatches (filters : Filters) (name : Bytes) : Bool :=
  match filters.ext with
  | none => true
  | some exts =>
    match extensionOf name with
    | none => false
    | some ext => exts.any (· = fold ext)

omit [Externals] in
def nameBytes (ix : VolumeIndex) (id : NameId) (folded : Bool) : Bytes :=
  if folded then ix.names.foldedBytesOf id else ix.names.rawBytes id

def nameMatches (ix : VolumeIndex) (parsed : ParsedQuery) (compiled : CompiledQuery) (id : NameId) : Asking Bool := do
  let hay := nameBytes ix id (!parsed.matchCase)
  if compiled.nameFinders.all fun needle => (Search.find needle hay).isSome then
    if ← wildcardsMatch parsed.wildcards hay then pure (extMatches parsed.filters (ix.names.rawBytes id)) else pure false
  else pure false

end Names

def kindMatches (kind : Option Kind) (isDir : Bool) : Bool :=
  match kind with
  | none => true
  | some .file => !isDir
  | some .folder => isDir

def sizeMatches (range : SizeRange) (size : Option UInt64) : Bool := size.any range.contains

def columnsMatch (ix : VolumeIndex) (filters : Filters) (idx : EntryIdx) : Bool :=
  kindMatches filters.kind (ix.isDir idx) &&
    filters.size.all (fun range => sizeMatches range (ix.sizeAt idx)) &&
    filters.date.all (fun filter => filter.matchesDate (ix.mtimeAt idx))

variable [Externals] {parsed : ParsedQuery} {raw folded : Bytes} {lit : Bytes}

omit [Externals] in
@[simp] theorem quiet_wildcardsMatch (wildcards : List Wildcard) (text : Bytes) :
    (wildcardsMatch wildcards text).quiet = wildcards.all fun w => w.matchesDecoded (codePoints text) := by
  simp [wildcardsMatch]

omit [Externals] in
theorem foldl_consider {isNameTerm : Bool} {best : Option Bytes × Bool} {cands : List Bytes}
    (found : (cands.foldl (consider isNameTerm) best).1 = some lit) :
    (cands.foldl (consider isNameTerm) best) = best ∨
      lit ∈ cands ∧ lit ≠ [] ∧ (cands.foldl (consider isNameTerm) best).2 = isNameTerm := by
  induction cands generalizing best with
  | nil => exact .inl rfl
  | cons cand rest ih =>
    rw [List.foldl_cons] at found ⊢
    rcases ih found with same | ⟨mem, nonempty, kind⟩
    · rw [same] at found ⊢
      unfold consider at found ⊢
      split
      case isFalse => exact .inl rfl
      case isTrue longer =>
        rw [if_pos longer] at found
        obtain rfl := Option.some.inj found
        refine .inr ⟨by simp, ?_, rfl⟩
        rintro rfl
        simp at longer
    · exact .inr ⟨List.mem_cons_of_mem _ mem, nonempty, kind⟩

omit [Externals] in
theorem prefilterOf_cases (found : (prefilterOf parsed).1 = some lit) :
    lit ≠ [] ∧ (lit ∈ parsed.nameTerms ∨ (∃ w ∈ parsed.wildcards, w.longestLiteral = some lit) ∨
      ∃ ext, parsed.filters.ext = some [ext] ∧ lit = 0x2E :: ext) := by
  rcases foldl_consider found with none_ | ⟨mem, nonempty, -⟩
  · have found := found
    unfold prefilterOf at found
    dsimp only at found
    rw [none_] at found
    rcases foldl_consider found with none_ | ⟨mem, nonempty, -⟩
    · rw [none_] at found
      rcases foldl_consider found with none_ | ⟨mem, nonempty, -⟩
      · rw [none_] at found
        cases found
      · exact ⟨nonempty, .inl mem⟩
    · exact ⟨nonempty, .inr (.inl (List.mem_filterMap.mp mem))⟩
  · refine ⟨nonempty, .inr (.inr ?_)⟩
    unfold extLiteral at mem
    split at mem
    case h_1 ext held =>
      split at mem
      case isTrue => cases mem
      case isFalse => exact ⟨ext, held, List.mem_singleton.mp mem⟩
    case h_2 => cases mem

end Query

end Goz
