import Goz.Core.Text
import Goz.Library.Arena
import Mathlib.Logic.Function.Basic

namespace Goz

open Function Arena

/-- A slice of an arena. Arenas stay under 2 GiB and names under 64 KiB, so offsets and lengths
    are plain numbers, and bit 31 of a raw offset, set when the bytes lie in the folded arena, is a field. -/
structure NameRef where
  off : Nat
  len : Nat
  rawInFolded : Bool := false
  deriving DecidableEq, Repr, Inhabited

structure NamePair where
  raw : NameRef
  folded : NameRef
  deriving DecidableEq, Repr, Inhabited

/-- The interned names. Each `Vec` indexed by a name id is a total function here, read only
    below `ids`; the intern table holds ids and is searched by their raw bytes. -/
structure NameStore where
  raw : Bytes
  folded : Bytes
  ids : Nat
  pairs : NameId → NamePair
  refcount : NameId → Nat
  head : NameId → Option EntryIdx
  byBytes : List NameId
  garbage : Nat
  order : List NameId
  rankOf : NameId → Option Nat
  unranked : List NameId
  deadRanked : Nat

/-- Freshly compacted name storage and, for each old id, its new one or none. -/
structure CompactedNames where
  raw : Bytes
  folded : Bytes
  pairs : List NamePair
  refcount : List Nat
  head : List (Option EntryIdx)
  remap : NameId → Option NameId

namespace NameStore

def new : NameStore where
  raw := []
  folded := []
  ids := 0
  pairs := fun _ => default
  refcount := fun _ => 0
  head := fun _ => none
  byBytes := []
  garbage := 0
  order := []
  rankOf := fun _ => none
  unranked := []
  deadRanked := 0

def foldedIn (pairs : NameId → NamePair) (folded : Bytes) (id : NameId) : Bytes :=
  let r := (pairs id).folded
  slice folded r.off r.len

def rawBytesIn (pairs : NameId → NamePair) (raw folded : Bytes) (id : NameId) : Bytes :=
  let r := (pairs id).raw
  slice (if r.rawInFolded then folded else raw) r.off r.len

def rawBytes (s : NameStore) (id : NameId) : Bytes := rawBytesIn s.pairs s.raw s.folded id

def foldedBytesOf (s : NameStore) (id : NameId) : Bytes := foldedIn s.pairs s.folded id

def push (buf bytes : Bytes) : Bytes × NameRef :=
  (buf ++ bytes ++ [0], { off := buf.length, len := bytes.length })

/-- Appends a name to both arenas, or to the folded one alone when it is its own folded form. -/
def pushPair (raw folded : Bytes) (shared : Bool) (name foldedName : Bytes) : Bytes × Bytes × NamePair :=
  let f := push folded foldedName
  let r := if shared then (raw, { f.2 with rawInFolded := true }) else push raw name
  (r.1, f.1, { raw := r.2, folded := f.2 })

def internNew [Externals] (s : NameStore) (name : Bytes) : NameStore :=
  let pushed := pushPair s.raw s.folded (fold name = name) name (fold name)
  { s with
    raw := pushed.1
    folded := pushed.2.1
    ids := s.ids + 1
    pairs := update s.pairs s.ids pushed.2.2
    refcount := update s.refcount s.ids 1
    head := update s.head s.ids none
    byBytes := s.byBytes ++ [s.ids]
    rankOf := update s.rankOf s.ids none
    unranked := s.unranked ++ [s.ids] }

def intern [Externals] (s : NameStore) (name : Bytes) : NameStore × NameId :=
  match s.byBytes.find? (fun id => s.rawBytes id = name) with
  | some id => ({ s with refcount := update s.refcount id (s.refcount id + 1) }, id)
  | none => (s.internNew name, s.ids)

def setChainHead (s : NameStore) (id : NameId) (e : Option EntryIdx) : NameStore :=
  { s with head := update s.head id e }

def bury (s : NameStore) (id : NameId) : NameStore :=
  let pair := s.pairs id
  let shared := pair.raw.rawInFolded
  { s with
    refcount := update s.refcount id 0
    byBytes := s.byBytes.filter (· ≠ id)
    deadRanked := if (s.rankOf id).isSome then s.deadRanked + 1 else s.deadRanked
    folded := blank 0 s.folded pair.folded.off pair.folded.len
    raw := if shared then s.raw else blank 0 s.raw pair.raw.off pair.raw.len
    garbage := s.garbage + (pair.folded.len + 1) + (if shared then 0 else pair.raw.len + 1) }

def release (s : NameStore) (id : NameId) : NameStore :=
  if s.refcount id - 1 > 0 then { s with refcount := update s.refcount id (s.refcount id - 1) } else s.bury id

def shouldCompact (s : NameStore) : Bool :=
  let total := s.raw.length + s.folded.length
  total > 8192 && s.garbage * 4 > total

def compactStep (s : NameStore) (c : CompactedNames) (id : NameId) : CompactedNames :=
  if s.refcount id = 0 then c
  else
    let pushed := pushPair c.raw c.folded (s.pairs id).raw.rawInFolded (s.rawBytes id) (s.foldedBytesOf id)
    { raw := pushed.1
      folded := pushed.2.1
      pairs := c.pairs ++ [pushed.2.2]
      refcount := c.refcount ++ [s.refcount id]
      head := c.head ++ [s.head id]
      remap := update c.remap id (some c.pairs.length) }

def planCompact (s : NameStore) : CompactedNames :=
  (List.range s.ids).foldl s.compactStep
    { raw := [], folded := [], pairs := [], refcount := [], head := [], remap := fun _ => none }

def keyLe (s : NameStore) (a b : NameId) : Bool :=
  decide (s.foldedBytesOf a < s.foldedBytesOf b ∨ (s.foldedBytesOf a = s.foldedBytesOf b ∧ a ≤ b))

/-- One pass over the order: equal folded names share the position of the first live one. -/
def rerankFrom (s : NameStore) : List NameId → Nat → Nat → Option Bytes → (NameId → Option Nat) →
    NameId → Option Nat
  | [], _, _, _, ranks => ranks
  | id :: rest, pos, groupStart, prevLive, ranks =>
    if s.refcount id = 0 then s.rerankFrom rest (pos + 1) groupStart prevLive ranks
    else if prevLive = some (s.foldedBytesOf id) then
      s.rerankFrom rest (pos + 1) groupStart prevLive (update ranks id (some groupStart))
    else s.rerankFrom rest (pos + 1) pos (some (s.foldedBytesOf id)) (update ranks id (some pos))

def rerank (s : NameStore) : NameStore :=
  { s with rankOf := s.rerankFrom s.order 0 0 none (fun _ => none) }

def buildOrder (s : NameStore) : NameStore :=
  { s with
    order := ((List.range s.ids).filter (fun id => s.refcount id > 0)).mergeSort s.keyLe
    unranked := []
    deadRanked := 0 }.rerank

def wantsMerge (s : NameStore) : Bool :=
  let limit := max 1024 (s.order.length / 1000)
  s.unranked.length > limit || s.deadRanked > limit

def mergeUnranked (s : NameStore) : NameStore :=
  if s.order.isEmpty then s.buildOrder
  else
    let new := (s.unranked.filter (fun id => s.refcount id > 0)).mergeSort s.keyLe
    let oldLive := s.order.filter (fun id => s.refcount id > 0)
    -- the new name goes first only when its key is strictly smaller
    { s with
      order := List.merge oldLive new (fun o n => !(s.keyLe n o && !s.keyLe o n))
      unranked := []
      deadRanked := 0 }.rerank

def installCompacted (s : NameStore) (c : CompactedNames) : NameStore :=
  { raw := c.raw
    folded := c.folded
    ids := c.pairs.length
    pairs := fun id => c.pairs.getD id default
    refcount := fun id => c.refcount.getD id 0
    head := fun id => c.head.getD id none
    byBytes := List.range c.pairs.length
    garbage := 0
    order := s.order.filterMap c.remap
    rankOf := fun _ => none
    unranked := s.unranked.filterMap c.remap
    deadRanked := 0 : NameStore }.rerank

end NameStore

end Goz
