import Goz.Query.FolderRank
import Goz.Query.Scan

namespace Goz.Query

section Keys

variable (ix : VolumeIndex) (sort : SortSpec)

def entryKey (idx : EntryIdx) : Nat :=
  match sort.key with
  | .name => ix.names.rankKey (ix.entries.nameId idx)
  | .size => (sizeKey (ix.sizeAt idx) sort.dir).toNat
  | .dateModified => (mtimeKey (ix.mtimeAt idx) sort.dir).toNat
  | .path => 0

/-- The nodes of the candidates' folders, kept in place of their keys. A candidate has a folder. -/
def folderNodes (candidates : List Candidate) : FolderRanks × List Candidate :=
  candidates.foldl (fun found c =>
    let asked := ((ix.entries.parent c.idx).map (found.1.node ix)).getD (found.1, unpresentable)
    (asked.1, found.2 ++ [{ c with key := asked.2 }])) (FolderRanks.new ix, [])

def pathKeys (candidates : List Candidate) : List Candidate :=
  let noded := folderNodes ix candidates
  let ranks := noded.1.ranks ix
  noded.2.map fun c =>
    { c with key := ranks c.key * 4294967296 + min (ix.names.rankKey (ix.entries.nameId c.idx)) 0xFFFFFFFF }

def cmpAscending (a b : Candidate) : Ordering :=
  ((compare a.key b.key).then (compare (ix.foldedName a.idx) (ix.foldedName b.idx))).then (compare a.idx b.idx)

def cmpCandidate (a b : Candidate) : Ordering :=
  if sort.dir = .desc then (cmpAscending ix a b).swap else cmpAscending ix a b

def candidateLe (a b : Candidate) : Bool := (cmpCandidate ix sort a b).isLE

/-- Puts the first `stop` candidates first, in order. The order is total, so whichever way the library sorts
    and selects, they are those of the sorted list; the rest is never read. -/
def orderTop (candidates : List Candidate) (stop : Nat) : List Candidate :=
  if stop = 0 then candidates else candidates.mergeSort (candidateLe ix sort)

def keyed (candidates : List Candidate) : List Candidate :=
  if sort.key = .path then pathKeys ix candidates
  else candidates.map fun c => { c with key := entryKey ix sort c.idx }

def order (candidates : List Candidate) (stop : Nat) : List Candidate := orderTop ix sort (keyed ix sort candidates) stop

end Keys

def pageBounds (n offset : Nat) (limit : Option Nat) : Nat × Nat :=
  let start := min offset n
  (start, (limit.map fun l => min (start + l) n).getD n)

def rowsOf (ix : VolumeIndex) (candidates : List Candidate) (page : Nat × Nat) : List HitRef :=
  ((candidates.take page.2).drop page.1).map fun c => ⟨c.idx, ix.entries.frn c.idx⟩

def u64Max : Nat := 0xFFFFFFFFFFFFFFFF

def saturatingAdd (a b : Nat) : Nat := min (a + b) u64Max

/-- What an entry adds to a sum of sizes: nothing if it is a folder or its size is not read yet. -/
def fileSize (ix : VolumeIndex) (idx : EntryIdx) : Option Nat :=
  if ix.isDir idx then none else (ix.sizeAt idx).map (·.toNat)

def filesSize (ix : VolumeIndex) (entries : List EntryIdx) : Nat := (entries.filterMap (fileSize ix)).foldl saturatingAdd 0

structure RefOutcome where
  total : Nat
  refs : List HitRef
  totalSize : Option Nat
  deriving DecidableEq

end Goz.Query
