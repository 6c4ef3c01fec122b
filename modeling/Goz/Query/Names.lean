import Goz.Query.Ordering

namespace Goz.Query

open VolumeIndex

def chunkIds (i per names : Nat) : Nat × Nat := (min (i * per * 64) names, min ((i + 1) * per * 64) names)

def chunkCount (per names : Nat) : Nat := (names + per * 64 - 1) / (per * 64)

section Match

/-- A set of name ids below `bound`, one bit per id, and how many there are. -/
structure NameSet where
  bound : Nat
  contains : NameId → Bool
  len : Nat

def NameSet.ids (set : NameSet) : List NameId := (List.range set.bound).filter set.contains

structure ChunkMatch where
  watch : Watch
  marked : List NameId
  total : Nat

variable (ix : VolumeIndex)

def isNameLevel (parsed : ParsedQuery) (compiled : CompiledQuery) (scope : Option EntryIdx) : Bool :=
  scope.isNone && compiled.volumeAdmits && !testsPaths parsed compiled && parsed.filters.kind.isNone &&
    parsed.filters.size.isNone && parsed.filters.date.isNone && !ix.mayHaveUnpresentable

def nameMayBearSynthetic (id : NameId) : Bool :=
  let raw := ix.names.rawBytes id
  raw.isEmpty || raw = lostFoundName || raw = placeholderName

def entriesBearing (id : NameId) : Nat :=
  if nameMayBearSynthetic ix id then ((ix.nameChain id).filter fun e => !ix.isSynthetic e).length
  else ix.names.refcount id

variable [Externals] (parsed : ParsedQuery) (compiled : CompiledQuery)

def verify (due : Bool) (watch : Watch) (id : NameId) : Asking (Bool × Watch) :=
  if due then do
    let ticked ← watch.tick
    if ticked.1 then pure (false, ticked.2)
    else
      let matched ← nameMatches ix parsed compiled id
      pure (matched, ticked.2)
  else pure (true, watch)

def mark (found : ChunkMatch) (id : NameId) : Asking ChunkMatch := do
  let due := (driver parsed compiled).isNone || !compiled.prefilterDecidesName
  let verified ← verify ix parsed compiled due found.watch id
  pure (if verified.1 then
      { watch := verified.2, marked := found.marked ++ [id], total := found.total + entriesBearing ix id }
    else { found with watch := verified.2 })

def chunkNames (ids : Nat × Nat) : List NameId :=
  match driver parsed compiled with
  | some needle => prefilterHitsIn ix.names needle ids.1 ids.2
  | none => (List.range' ids.1 (ids.2 - ids.1)).filter fun id => ix.names.refcount id > 0

def matchChunk (per i : Nat) : Asking ChunkMatch :=
  (chunkNames ix parsed compiled (chunkIds i per ix.names.ids)).foldlM (mark ix parsed compiled)
    { watch := .new, marked := [], total := 0 }

def matchChunks (per : Nat) : List (Asking ChunkMatch) :=
  (List.range (chunkCount per ix.names.ids)).map (matchChunk ix parsed compiled per)

omit [Externals] in
def matchNames (found : List ChunkMatch) : NameSet × Nat :=
  ({ bound := ix.names.ids
     contains := fun id => found.any fun chunk => chunk.marked.contains id
     len := (found.map fun chunk => chunk.marked.length).sum },
    (found.map ChunkMatch.total).sum)

end Match

variable (ix : VolumeIndex)

def namesFilesSize (per : Nat) (matched : NameSet) : Nat :=
  ((List.range (chunkCount per ix.names.ids)).map fun i =>
    let ids := chunkIds i per ix.names.ids
    filesSize ix (((List.range' ids.1 (ids.2 - ids.1)).filter matched.contains).flatMap fun id =>
      (ix.nameChain id).filter fun e => !ix.isSynthetic e)).foldl saturatingAdd 0

def nameBefore (a b : NameId) : Bool := ix.names.keyLe a b && !ix.names.keyLe b a

def directed (dir : SortDir) (ids : List NameId) : List NameId := if dir = .desc then ids.reverse else ids

/-- The ids of a set in name order. A sparse set is sorted; a dense one is read off the order and merged with the
    names that wait, one of which goes first where its key is smaller, or for a descending sort where it is not. -/
def namesInOrder (matched : NameSet) (dir : SortDir) : List NameId :=
  if ix.names.order.isEmpty || matched.len * 8 < ix.names.order.length then
    directed dir (matched.ids.mergeSort ix.names.keyLe)
  else
    List.merge ((directed dir ix.names.order).filter matched.contains)
      (directed dir ((ix.names.unranked.filter matched.contains).mergeSort ix.names.keyLe))
      fun r w => nameBefore ix w r == decide (dir = .desc)

def groupEntries (dir : SortDir) (group : List NameId) : List EntryIdx :=
  let entries := (group.flatMap fun id => (ix.nameChain id).filter fun e => !ix.isSynthetic e).mergeSort
  if dir = .desc then entries.reverse else entries

def groupRows (dir : SortDir) (stop : Nat) : List (List NameId) → List EntryIdx → List EntryIdx
  | [], rows => rows
  | group :: rest, rows => if rows.length < stop then groupRows dir stop rest (rows ++ groupEntries ix dir group) else rows

def nameLevelRefs (matched : NameSet) (dir : SortDir) (page : Nat × Nat) : List HitRef :=
  if page.1 ≥ page.2 then []
  else
    let groups := (namesInOrder ix matched dir).splitBy fun a b => ix.names.foldedBytesOf a = ix.names.foldedBytesOf b
    (((groupRows ix dir page.2 groups []).take page.2).drop page.1).map fun e => ⟨e, ix.entries.frn e⟩

end Goz.Query
