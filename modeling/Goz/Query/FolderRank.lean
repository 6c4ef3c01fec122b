import Goz.Index.NameOrder
import Goz.Query.Compile

namespace Goz.Query

def unpresentable : Nat := 0xFFFFFFFF

/-- The folders a path sort needs, one node each, with those above them: the node of each parent, and
    each node's name. `last` is the last folder asked for and its node. -/
structure FolderRanks where
  nodeOf : EntryIdx → Option Nat
  parent : List (Option Nat)
  name : List NameId
  last : Option (EntryIdx × Nat)

namespace FolderRanks

section Nodes

variable (ix : VolumeIndex)

def push (fr : FolderRanks) (dir : EntryIdx) : FolderRanks × Nat :=
  let n := fr.parent.length
  ({ fr with
      nodeOf := Function.update fr.nodeOf dir (some n)
      parent := fr.parent ++ [none]
      name := fr.name ++ [ix.entries.nameId dir] }, n)

def new : FolderRanks :=
  (push ix { nodeOf := fun _ => none, parent := [], name := [], last := none } ix.root).1

def attach (fr : FolderRanks) (child node : Nat) : FolderRanks := { fr with parent := fr.parent.set child (some node) }

/-- Makes nodes for the folders above `cur`, whose node is `child`, up to the first known one. Every turn
    makes the node of another slot, so `capacity` turns are enough. -/
def pushAbove : Nat → FolderRanks → Nat → EntryIdx → FolderRanks
  | 0, fr, _, _ => fr
  | fuel + 1, fr, child, cur =>
    match ix.entries.parent cur with
    | none => fr
    | some up =>
      match fr.nodeOf up with
      | some node => fr.attach child node
      | none =>
        let pushed := fr.push ix up
        pushAbove fuel (pushed.1.attach child pushed.2) pushed.2 up

def pushChain (fr : FolderRanks) (dir : EntryIdx) : FolderRanks × Nat :=
  let pushed := fr.push ix dir
  (pushAbove ix (ix.entries.capacity + 1) pushed.1 pushed.2 dir, pushed.2)

def node (fr : FolderRanks) (dir : EntryIdx) : FolderRanks × Nat :=
  match fr.last with
  | some (seen, n) => if seen = dir then (fr, n) else lookup fr dir
  | none => lookup fr dir
where
  lookup (fr : FolderRanks) (dir : EntryIdx) : FolderRanks × Nat :=
    match fr.nodeOf dir with
    | some n => ({ fr with last := some (dir, n) }, n)
    | none =>
      let pushed := fr.pushChain ix dir
      ({ pushed.1 with last := some (dir, pushed.2) }, pushed.2)

end Nodes

/-- A step of the walk: a rank for a group of nodes with equal paths, or the nodes below a group that
    lies `depth` entries from the root. -/
inductive Step
  | folder (group : List Nat)
  | below (group : List Nat) (depth : Nat)
  deriving DecidableEq, Repr

variable (ix : VolumeIndex) (fr : FolderRanks)

def keyOf (node : Nat) : Nat := ix.names.rankKey (fr.name.getD node nilName)

def foldedOf (node : Nat) : Bytes := ix.names.foldedBytesOf (fr.name.getD node nilName)

def childrenOf (node : Nat) : List Nat := (List.range fr.parent.length).filter fun child => fr.parent[child]? = some (some node)

def nodeLe (a b : Nat) : Bool :=
  ((compare (fr.keyOf ix a) (fr.keyOf ix b)).then (compare (fr.foldedOf ix a) (fr.foldedOf ix b))).isLE

def sameName (a b : Nat) : Bool := fr.keyOf ix a = fr.keyOf ix b && fr.foldedOf ix a = fr.foldedOf ix b

def extendsBelowSeparator (shorter name : Bytes) : Bool :=
  shorter.isPrefixOf name && (name[shorter.length]?.any (· < 0x5C))

def groupName (group : List Nat) : Bytes := (group.head?.map (fr.foldedOf ix)).getD []

def closeBefore (depth : Nat) (name : Bytes) : List (List Nat) → List Step × List (List Nat)
  | [] => ([], [])
  | group :: rest =>
    if extendsBelowSeparator (fr.groupName ix group) name then ([], group :: rest)
    else
      let closed := closeBefore depth name rest
      (.below group (depth + 1) :: closed.1, closed.2)

/-- The steps of one level: each group itself, and what is below it once nothing sorts in between. -/
def levelSteps (depth : Nat) : List (List Nat) → List (List Nat) → List Step
  | [], opened => opened.map fun group => .below group (depth + 1)
  | group :: rest, opened =>
    let closed := fr.closeBefore ix depth (fr.groupName ix group) opened
    closed.1 ++ .folder group :: levelSteps depth rest (group :: closed.2)

def groupsBelow (group : List Nat) : List (List Nat) :=
  ((group.flatMap fr.childrenOf).mergeSort (fr.nodeLe ix)).splitBy (fr.sameName ix)

def walkRanks : Nat → List Step → (Nat → Nat) → Nat → Nat → Nat
  | 0, _, rank, _ => rank
  | _, [], rank, _ => rank
  | fuel + 1, .folder group :: steps, rank, nextRank =>
    walkRanks fuel steps (fun m => if m ∈ group then nextRank else rank m) (nextRank + 1)
  | fuel + 1, .below group depth :: steps, rank, nextRank =>
    if depth ≥ maxPathHops then walkRanks fuel steps rank nextRank
    else walkRanks fuel (fr.levelSteps ix depth (fr.groupsBelow ix group) [] ++ steps) rank nextRank

/-- Every node's rank, in the order of the folded paths. Each node is in two steps at most. -/
def ranks : Nat → Nat :=
  fr.walkRanks ix (2 * fr.parent.length + 1) [.below [0] 1] (fun node => if node = 0 then 0 else unpresentable) 1

end FolderRanks

end Goz.Query
