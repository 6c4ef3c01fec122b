import Goz.Index.Integrity
import Goz.Index.Paths
import Goz.Query.Compile
import Mathlib.Data.List.AList

namespace Goz.Query

open Ascent VolumeIndex List Asking Arena

variable {folds : Bool} {e dir : EntryIdx} {k : Nat} {ix : VolumeIndex} {mount : Bytes} {fp : FolderPaths}
variable {chain : List EntryIdx} {rel : Bytes}

def cachedPathMax : Nat := 1024

def folderPathBytesMax : Nat := 16777216

def foldersMax : Nat := 458752

/-- A folder already built: where its path lies in the arena, and how many entries its way up has. -/
structure Folder where
  start : Nat
  stop : Nat
  depth : Nat
  deriving DecidableEq, Repr

/-- What a path term needs of a name for the full path to hold it. -/
inductive Need
  | nothing
  | start (at_ : Nat)
  | within
  | never
  | whole
  deriving DecidableEq, Repr

/-- The full paths of folders as a query compares them. `current` is the folder whose path `path` holds,
    with its depth if it has a path; the folder above a top is none. -/
structure FolderPaths where
  root : EntryIdx
  folds : Bool
  prefixLen : Nat
  maxBytes : Nat
  maxFolders : Nat
  arena : Bytes
  known : AList fun _ : EntryIdx => Option Folder
  current : Option (Option EntryIdx × Option Nat)
  path : Bytes
  needs : List Need
  needsFor : Option (Option EntryIdx)

namespace FolderPaths

def restart (fp : FolderPaths) : FolderPaths :=
  { fp with arena := [], known := AList.insert fp.root (some ⟨0, 0, 1⟩) ∅ }

def new (ix : VolumeIndex) (mount : Bytes) (folds : Bool) : FolderPaths :=
  { root := ix.root
    folds := folds
    prefixLen := mount.length
    maxBytes := folderPathBytesMax
    maxFolders := foldersMax
    arena := []
    known := ∅
    current := none
    path := mount
    needs := []
    needsFor := none : FolderPaths }.restart

def remember (fp : FolderPaths) (folder : EntryIdx) (known : Option Folder) : FolderPaths :=
  let roomy := if fp.known.entries.length ≥ fp.maxFolders then fp.restart else fp
  { roomy with known := roomy.known.insert folder known }

def cache (fp : FolderPaths) (folder : EntryIdx) (depth : Nat) : FolderPaths :=
  let rel := fp.path.length - fp.prefixLen
  let roomy :=
    if fp.arena.length + rel > fp.maxBytes || fp.known.entries.length ≥ fp.maxFolders then fp.restart else fp
  { roomy with
    arena := roomy.arena ++ fp.path.drop fp.prefixLen
    known := roomy.known.insert folder (some ⟨roomy.arena.length, roomy.arena.length + rel, depth⟩) }

/-- From `cur` up to the nearest known folder: what is known of it, and the folders passed, the topmost
    first. None after too many. -/
def climb (fp : FolderPaths) (ix : VolumeIndex) : Nat → EntryIdx → List EntryIdx → Option (Option Folder × List EntryIdx)
  | hops, cur, chain =>
    match fp.known.lookup cur with
    | some known => some (known, chain)
    | none =>
      match hops with
      | 0 => none
      | hops + 1 =>
        match ix.entries.parent cur with
        | none => some (if cur = ix.lostFound then none else some ⟨0, 0, 0⟩, cur :: chain)
        | some parent => fp.climb ix hops parent (cur :: chain)

def pushName (fp : FolderPaths) (name : Bytes) : Bytes :=
  (if fp.path.length > fp.prefixLen then fp.path ++ [0x5C] else fp.path) ++ name

def descend (ix : VolumeIndex) : List EntryIdx → FolderPaths → Nat → FolderPaths × Option Nat
  | [], fp, depth => (fp, some depth)
  | folder :: rest, fp, depth =>
    if depth + 1 > maxPathHops then ((folder :: rest).foldl (fun fp deeper => fp.remember deeper none) fp, none)
    else
      let grown := { fp with path := fp.pushName (nameBytes ix (ix.entries.nameId folder) fp.folds) }
      let cached :=
        if grown.path.length - grown.prefixLen ≤ cachedPathMax then grown.cache folder (depth + 1) else grown
      descend ix rest cached (depth + 1)

def build (fp : FolderPaths) (ix : VolumeIndex) (dir : Option EntryIdx) : FolderPaths × Option Nat :=
  let bare := { fp with path := fp.path.take fp.prefixLen }
  match dir with
  | none => (bare, some 0)
  | some dir =>
    match bare.climb ix maxPathHops dir [] with
    | none => (bare.remember dir none, none)
    | some (none, chain) => (chain.reverse.foldl (fun fp folder => fp.remember folder none) bare, none)
    | some (some base, chain) =>
      descend ix chain { bare with path := bare.path ++ slice bare.arena base.start (base.stop - base.start) } base.depth

def load (fp : FolderPaths) (ix : VolumeIndex) (dir : Option EntryIdx) : FolderPaths × Option Nat :=
  match fp.current with
  | some (cur, depth) =>
    if cur = dir then (fp, depth)
    else
      let built := fp.build ix dir
      ({ built.1 with current := some (dir, built.2) }, built.2)
  | none =>
    let built := fp.build ix dir
    ({ built.1 with current := some (dir, built.2) }, built.2)

def needOf (before term : Bytes) : Need :=
  if (Search.find term before).isSome then .nothing
  else if !endsWithSeparator before then .whole
  else
    match Search.findLast (· = 0x5C) term with
    | some last => if (term.take (last + 1)).isSuffixOf before then .start (last + 1) else .never
    | none => .within

/-- A search of a long path checks the budget first; a spent one says that no name can complete the term. -/
def decideNeed (before term : Bytes) : Asking Need := do
  let spent ← checkIf (before.length > cachedPathMax)
  pure (if spent then .never else needOf before term)

def decideNeeds (fp : FolderPaths) (compiled : CompiledQuery) (folder : Option EntryIdx) : Asking FolderPaths :=
  if fp.needsFor = some folder then pure fp
  else do
    let needs ← compiled.pathFinders.mapM (decideNeed (fp.pushName []))
    pure { fp with needs := needs, needsFor := some folder }

def heldBy (name : Bytes) (need : Bytes × Need) : Bool :=
  match need.2 with
  | .nothing | .whole => true
  | .start at_ => (need.1.drop at_).isPrefixOf name
  | .within => (Search.find need.1 name).isSome
  | .never => false

def wholeMatches (parsed : ParsedQuery) (compiled : CompiledQuery) (whole : Bool) (full : Bytes) : Asking Bool :=
  if (!whole || compiled.pathFinders.all fun term => (Search.find term full).isSome) &&
      compiled.pathWildcardEnds.all fun ends => ends.1.isPrefixOf full && ends.2.isSuffixOf full then
    wildcardsMatch parsed.pathWildcards full
  else pure false

def withFullPath (fp : FolderPaths) (ix : VolumeIndex) (idx : EntryIdx) (f : Bytes → Asking Bool) :
    Asking (Bool × FolderPaths) := do
  let loaded := fp.load ix (ix.entries.parent idx)
  if loaded.2.any (· < maxPathHops) then
    let out ← f (loaded.1.pushName (nameBytes ix (ix.entries.nameId idx) loaded.1.folds))
    pure (out, loaded.1)
  else pure (false, loaded.1)

/-- Whether the full path of `idx` holds every path term that the prefix leaves open and matches every
    path wildcard. An entry without a path does not. -/
def fullPathMatches (fp : FolderPaths) (ix : VolumeIndex) (parsed : ParsedQuery) (compiled : CompiledQuery)
    (idx : EntryIdx) : Asking (Bool × FolderPaths) := do
  let loaded := fp.load ix (ix.entries.parent idx)
  if loaded.2.any (· < maxPathHops) then
    let decided ← loaded.1.decideNeeds compiled (ix.entries.parent idx)
    let name := nameBytes ix (ix.entries.nameId idx) decided.folds
    let needs := compiled.pathFinders.zip decided.needs
    -- a separator in a name could complete a term anywhere
    let separated := name.contains 0x5C
    if !separated && !needs.all (heldBy name) then pure (false, decided)
    else
      let whole := separated || needs.any (·.2 = .whole)
      if !whole && parsed.pathWildcards.isEmpty then pure (true, decided)
      else decided.withFullPath ix idx (wholeMatches parsed compiled whole)
  else pure (false, loaded.1)

end FolderPaths

section Places

variable (ix : VolumeIndex)

/-- The way up from an entry reaches the root in `k` steps, few enough for a path. -/
structure Placed (e : EntryIdx) (k : Nat) : Prop where
  way : ascend ix.entries.parent k e = some ix.root
  lt : k < maxPathHops

def Shown (e : EntryIdx) : Prop := ∃ k, Placed ix e k

def pushView (folds : Bool) (out : Bytes) (e : EntryIdx) : Bytes :=
  if e = ix.root then out else joinPath out (nameBytes ix (ix.entries.nameId e) folds)

def viewPath (folds : Bool) (e : EntryIdx) : Bytes :=
  (trail ix.entries.parent maxPathHops e).reverse.foldl (pushView ix folds) []

variable {ix} {p : EntryIdx} (top : ix.entries.parent ix.root = none)
include top

theorem Placed.unique {j : Nat} (placed : Placed ix e k) (other : Placed ix e j) : k = j :=
  Nat.le_antisymm (le_of_top other.way top placed.way) (le_of_top placed.way top other.way)

omit top in
theorem placed_root : Placed ix ix.root 0 := ⟨rfl, by decide⟩

theorem viewPath_root : viewPath ix folds ix.root = [] := by
  have alone : trail ix.entries.parent maxPathHops ix.root = [ix.root] := by
    rw [show maxPathHops = 4095 + 1 from rfl, trail, top]
  simp [viewPath, alone, pushView]

omit top in
theorem Placed.child (placed : Placed ix p k) (at_ : ix.entries.parent e = some p) (lt : k + 1 < maxPathHops) :
    Placed ix e (k + 1) := by
  refine ⟨?_, lt⟩
  rw [ascend_succ, at_]
  exact placed.way

theorem Placed.above (placed : Placed ix e k) (at_ : ix.entries.parent e = some p) : ∃ j, k = j + 1 ∧ Placed ix p j := by
  cases k with
  | zero =>
    obtain rfl : e = ix.root := Option.some.inj placed.way
    rw [top] at at_
    cases at_
  | succ j =>
    have way := placed.way
    rw [ascend_succ, at_] at way
    exact ⟨j, rfl, way, Nat.lt_of_succ_lt placed.lt⟩

theorem Placed.viewPath (placed : Placed ix e k) (at_ : ix.entries.parent e = some p) :
    viewPath ix folds e = joinPath (viewPath ix folds p) (nameBytes ix (ix.entries.nameId e) folds) := by
  obtain ⟨j, rfl, above⟩ := placed.above top at_
  have notRoot : e ≠ ix.root := by
    rintro rfl
    rw [top] at at_
    cases at_
  rw [Query.viewPath, trail_child at_ above.way top placed.lt, reverse_cons, foldl_append, foldl_cons,
    foldl_nil, pushView, if_neg notRoot]
  rfl

def Descends (ix : VolumeIndex) : EntryIdx → List EntryIdx → EntryIdx → Prop
  | above, [], e => above = e
  | above, next :: rest, e => ix.entries.parent next = some above ∧ Descends ix next rest e

theorem Descends.unshown {above : EntryIdx} (down : Descends ix above chain e)
    (pathless : ¬ Shown ix above) : ¬ Shown ix e ∧ ∀ c ∈ chain, ¬ Shown ix c := by
  induction chain generalizing above with
  | nil =>
    obtain rfl : above = e := down
    exact ⟨pathless, by simp⟩
  | cons next rest ih =>
    have here : ¬ Shown ix next := by
      rintro ⟨k, placed⟩
      obtain ⟨j, -, higher⟩ := placed.above top down.1
      exact pathless ⟨j, higher⟩
    obtain ⟨last, below⟩ := ih down.2 here
    refine ⟨last, fun c mem => ?_⟩
    rcases mem_cons.mp mem with rfl | mem
    · exact here
    · exact below c mem

end Places

namespace FolderPaths

variable {known : AList fun _ : EntryIdx => Option Folder} {depth : Option Nat} {folder : EntryIdx} {cur : EntryIdx}
variable {hops : Nat}

structure Kept (ix : VolumeIndex) (mount : Bytes) (folds : Bool) (fp : FolderPaths) : Prop where
  root : fp.root = ix.root
  folding : fp.folds = folds
  prefixLen : fp.prefixLen = mount.length
  rooted : fp.known.lookup ix.root ≠ none
  built : ∀ e f, fp.known.lookup e = some (some f) → f.stop ≤ fp.arena.length ∧
    slice fp.arena f.start (f.stop - f.start) = viewPath ix folds e ∧ ∃ k, f.depth = k + 1 ∧ Placed ix e k
  pathless : ∀ e, fp.known.lookup e = some none → ¬ Shown ix e

theorem Kept.of_same (kept : Kept ix mount folds fp) {other : FolderPaths} (root : other.root = fp.root)
    (folds_ : other.folds = fp.folds) (prefixLen : other.prefixLen = fp.prefixLen) (arena : other.arena = fp.arena)
    (known : other.known = fp.known) : Kept ix mount folds other := by
  constructor
  · rw [root, kept.root]
  · rw [folds_, kept.folding]
  · rw [prefixLen, kept.prefixLen]
  · rw [known]
    exact kept.rooted
  · rw [known, arena]
    exact kept.built
  · rw [known]
    exact kept.pathless

theorem lookup_insert_cases {new held : Option Folder}
    (found : (known.insert folder new).lookup e = some held) : (e = folder ∧ held = new) ∨ known.lookup e = some held := by
  by_cases same : e = folder
  · rw [same, AList.lookup_insert] at found
    exact .inl ⟨same, (Option.some.inj found).symm⟩
  · rw [AList.lookup_insert_ne same] at found
    exact .inr found

theorem lookup_insert_ne_none {new : Option Folder}
    (held : known.lookup e ≠ none) : (known.insert folder new).lookup e ≠ none := by
  intro gone
  rw [AList.lookup_insert_eq_none] at gone
  exact held gone.2

variable (top : ix.entries.parent ix.root = none)
include top

theorem kept_fresh (root : fp.root = ix.root) (folding : fp.folds = folds) (prefixLen : fp.prefixLen = mount.length)
    (known : fp.known = AList.insert ix.root (some ⟨0, 0, 1⟩) ∅) : Kept ix mount folds fp := by
  refine ⟨root, folding, prefixLen, ?_, fun e f found => ?_, fun e found => ?_⟩
  · rw [known, AList.lookup_insert]
    simp
  · rw [known] at found
    rcases lookup_insert_cases found with ⟨rfl, same⟩ | none_
    · obtain rfl := Option.some.inj same
      exact ⟨Nat.zero_le _, by simp [viewPath_root top, slice], 0, rfl, placed_root⟩
    · simp at none_
  · rw [known] at found
    rcases lookup_insert_cases found with ⟨-, same⟩ | none_
    · cases same
    · simp at none_

variable (kept : Kept ix mount folds fp)
include kept

theorem Kept.restart : Kept ix mount folds fp.restart := by
  have known : fp.restart.known = AList.insert ix.root (some ⟨0, 0, 1⟩) ∅ := by rw [FolderPaths.restart, kept.root]
  exact kept_fresh top kept.root kept.folding kept.prefixLen known

theorem Kept.remember (pathless : ¬ Shown ix e) :
    Kept ix mount folds (fp.remember e none) := by
  have roomy : Kept ix mount folds (if fp.known.entries.length ≥ fp.maxFolders then fp.restart else fp) := by
    split
    · exact kept.restart top
    · exact kept
  refine ⟨roomy.root, roomy.folding, roomy.prefixLen, lookup_insert_ne_none roomy.rooted, fun e f found => ?_,
    fun e found => ?_⟩
  · rcases lookup_insert_cases found with ⟨-, same⟩ | found
    · cases same
    · exact roomy.built e f found
  · rcases lookup_insert_cases found with ⟨rfl, -⟩ | found
    · exact pathless
    · exact roomy.pathless e found

theorem Kept.rememberAll (pathless : ∀ c ∈ chain, ¬ Shown ix c) : Kept ix mount folds (chain.foldl (fun fp folder => fp.remember folder none) fp) := by
  induction chain generalizing fp with
  | nil => exact kept
  | cons c rest ih =>
    refine ih (kept.remember top (pathless c mem_cons_self)) fun c mem => ?_
    exact pathless c (mem_cons_of_mem _ mem)

theorem Kept.cache (path : fp.path = mount ++ viewPath ix folds e) (placed : Placed ix e k) :
    Kept ix mount folds (fp.cache e (k + 1)) := by
  have rel : fp.path.drop fp.prefixLen = viewPath ix folds e := by rw [path, kept.prefixLen, drop_left]
  have length : fp.path.length - fp.prefixLen = (viewPath ix folds e).length := by rw [← rel, length_drop]
  unfold FolderPaths.cache
  simp only [rel, length]
  have roomy : Kept ix mount folds (if fp.arena.length + (viewPath ix folds e).length > fp.maxBytes ||
      fp.known.entries.length ≥ fp.maxFolders then fp.restart else fp) := by
    split
    · exact kept.restart top
    · exact kept
  generalize (if fp.arena.length + (viewPath ix folds e).length > fp.maxBytes || fp.known.entries.length ≥ fp.maxFolders
    then fp.restart else fp) = room at roomy
  refine ⟨roomy.root, roomy.folding, roomy.prefixLen, lookup_insert_ne_none roomy.rooted, fun e' f found => ?_,
    fun e' found => ?_⟩
  · rcases lookup_insert_cases found with ⟨rfl, same⟩ | found
    · obtain rfl := Option.some.inj same
      exact ⟨by simp, by simp [slice], k, rfl, placed⟩
    · obtain ⟨inside, slice, depth⟩ := roomy.built e' f found
      refine ⟨by simp only [length_append]; omega, ?_, depth⟩
      rw [← slice, slice_append inside]
  · rcases lookup_insert_cases found with ⟨-, same⟩ | found
    · cases same
    · exact roomy.pathless e' found

omit top

omit kept

@[simp] theorem remember_path (fp : FolderPaths) (folder : EntryIdx) (known : Option Folder) :
    (fp.remember folder known).path = fp.path := by
  unfold remember
  split <;> rfl

theorem rememberAll_path (fp : FolderPaths) (chain : List EntryIdx) :
    (chain.foldl (fun fp folder => fp.remember folder none) fp).path = fp.path := by
  induction chain generalizing fp with
  | nil => rfl
  | cons c rest ih => rw [foldl_cons, ih, remember_path]

@[simp] theorem cache_path (fp : FolderPaths) (folder : EntryIdx) (depth : Nat) : (fp.cache folder depth).path = fp.path := by
  unfold cache
  dsimp only
  split <;> rfl

theorem Kept.pushName (kept : Kept ix mount folds fp) (path : fp.path = mount ++ rel) (name : Bytes) :
    fp.pushName name = mount ++ joinPath rel name := by
  unfold FolderPaths.pushName joinPath
  rw [path, kept.prefixLen, length_append]
  cases rel with
  | nil => simp
  | cons b rest => simp

def Loaded (ix : VolumeIndex) (mount : Bytes) (folds : Bool) (dir : EntryIdx) (fp : FolderPaths) : Option Nat → Prop
  | none => mount <+: fp.path ∧ ¬ Shown ix dir
  | some depth => fp.path = mount ++ viewPath ix folds dir ∧ ∃ k, depth = k + 1 ∧ Placed ix dir k

/-- Where a climb ends: at a folder that is known, or at the top of a tree, with all that holds along the way. -/
theorem climb_stops {P : EntryIdx → List EntryIdx → Prop}
    (step : ∀ {e c p}, P e c → ix.entries.parent e = some p → P p (e :: c)) {base : Option Folder} {chain' : List EntryIdx}
    (start : P cur chain) (found : fp.climb ix hops cur chain = some (base, chain')) :
    ∃ e c, P e c ∧ (fp.known.lookup e = some base ∧ chain' = c ∨ fp.known.lookup e = none ∧ ix.entries.parent e = none ∧
      base = (if e = ix.lostFound then none else some ⟨0, 0, 0⟩) ∧ chain' = e :: c) := by
  fun_induction fp.climb ix hops cur chain with
  | case1 hops cur chain held known =>
    obtain ⟨rfl, rfl⟩ := Prod.mk.inj (Option.some.inj found)
    exact ⟨cur, _, start, .inl ⟨known, rfl⟩⟩
  | case2 => cases found
  | case3 cur chain known hops up =>
    obtain ⟨rfl, rfl⟩ := Prod.mk.inj (Option.some.inj found)
    exact ⟨cur, chain, start, .inr ⟨known, up, rfl, rfl⟩⟩
  | case4 cur chain known hops parent up ih => exact ih (step start up) found

variable (kept : Kept ix mount folds fp)
include kept

theorem Kept.climb [Externals] (ok : ix.Integrity) (top : ix.entries.parent ix.root = none) {chain' : List EntryIdx} {base : Option Folder} (live : ix.Live cur)
    (down : Descends ix cur chain dir) (found : fp.climb ix hops cur chain = some (base, chain')) :
    (∃ above, fp.known.lookup above = some base ∧ Descends ix above chain' dir) ∨
      base = none ∧ ¬ Shown ix dir ∧ ∀ c ∈ chain', ¬ Shown ix c := by
  obtain ⟨e, c, ⟨live, down⟩, ⟨known, rfl⟩ | ⟨unknown, up, rfl, rfl⟩⟩ :=
    climb_stops (P := fun e c => ix.Live e ∧ Descends ix e c dir)
      (fun here up => ⟨ok.parent_live _ _ here.1 up, up, here.2⟩) ⟨live, down⟩ found
  · exact .inl ⟨e, known, down⟩
  · -- the root is known, so the only top left is lost+found
    have lost : e = ix.lostFound := by
      rcases ok.top e live up with rfl | lost
      · exact absurd unknown kept.rooted
      · exact lost
    have pathless : ¬ Shown ix e := by
      rintro ⟨k, placed⟩
      have here : ascend ix.entries.parent 0 e = some e := rfl
      have same := Nat.le_zero.mp (le_of_top here up placed.way)
      subst same
      exact ok.apart ((Option.some.inj placed.way).symm.trans lost)
    obtain ⟨last, below⟩ := down.unshown top pathless
    refine .inr ⟨if_pos lost, last, fun c mem => ?_⟩
    rcases mem_cons.mp mem with rfl | mem
    · exact pathless
    · exact below c mem

theorem Kept.climb_ne_none (chain : List EntryIdx)
    (way : ascend ix.entries.parent k cur = some ix.root) (le : k ≤ hops) : fp.climb ix hops cur chain ≠ none := by
  induction k generalizing cur hops chain with
  | zero =>
    obtain rfl : cur = ix.root := Option.some.inj way
    unfold FolderPaths.climb
    cases known : fp.known.lookup ix.root with
    | none => exact absurd known kept.rooted
    | some held => simp
  | succ k ih =>
    obtain ⟨hops, rfl⟩ : ∃ rest, hops = rest + 1 := ⟨hops - 1, by omega⟩
    rw [FolderPaths.climb]
    cases known : fp.known.lookup cur with
    | some held => simp
    | none =>
      obtain ⟨parent, up, way⟩ := Option.bind_eq_some_iff.mp way
      simp only [up]
      exact ih _ way (by omega)

theorem Kept.descend (top : ix.entries.parent ix.root = none) {above : EntryIdx} (down : Descends ix above chain dir) (path : fp.path = mount ++ viewPath ix folds above)
    (placed : Placed ix above k) : Kept ix mount folds (descend ix chain fp (k + 1)).1 ∧
      Loaded ix mount folds dir (descend ix chain fp (k + 1)).1 (descend ix chain fp (k + 1)).2 := by
  induction chain generalizing above fp k with
  | nil =>
    obtain rfl : above = dir := down
    exact ⟨kept, path, k, rfl, placed⟩
  | cons next rest ih =>
    obtain ⟨at_, below⟩ := down
    rw [descend]
    split
    case isTrue deep =>
      have pathless : ¬ Shown ix next := by
        rintro ⟨j, there⟩
        obtain ⟨i, rfl, higher⟩ := there.above top at_
        have same := higher.unique top placed
        have := there.lt
        omega
      obtain ⟨last, all_⟩ := below.unshown top pathless
      refine ⟨kept.rememberAll top (forall_mem_cons.mpr ⟨pathless, all_⟩), ?_, last⟩
      rw [rememberAll_path, path]
      exact prefix_append _ _
    case isFalse shallow =>
      have here := placed.child at_ (by omega)
      have grown : fp.pushName (nameBytes ix (ix.entries.nameId next) fp.folds) = mount ++ viewPath ix folds next := by
        rw [kept.pushName path, here.viewPath top at_, kept.folding]
      have longer : Kept ix mount folds
          { fp with path := fp.pushName (nameBytes ix (ix.entries.nameId next) fp.folds) } := kept.of_same rfl rfl rfl rfl rfl
      dsimp only
      split
      · exact ih (longer.cache top grown here) below (by rw [cache_path]; exact grown) here
      · exact ih longer below grown here

theorem Kept.build [Externals] (ok : ix.Integrity) (top : ix.entries.parent ix.root = none)
    (mounted : mount <+: fp.path) (live : ix.Live dir) :
    Kept ix mount folds (fp.build ix (some dir)).1 ∧
      Loaded ix mount folds dir (fp.build ix (some dir)).1 (fp.build ix (some dir)).2 := by
  have bare : Kept ix mount folds { fp with path := fp.path.take fp.prefixLen } := kept.of_same rfl rfl rfl rfl rfl
  have path : fp.path.take fp.prefixLen = mount := by
    obtain ⟨rest, eq⟩ := mounted
    rw [← eq, kept.prefixLen, take_left]
  have here : Descends ix dir [] dir := rfl
  unfold FolderPaths.build
  dsimp only
  split
  case h_1 far =>
    have pathless : ¬ Shown ix dir := fun ⟨k, placed⟩ => bare.climb_ne_none [] placed.way placed.lt.le far
    refine ⟨bare.remember top pathless, ?_, pathless⟩
    rw [remember_path, path]
  case h_2 chain found =>
    have pathless : ¬ Shown ix dir ∧ ∀ c ∈ chain, ¬ Shown ix c := by
      rcases bare.climb ok top live here found with ⟨above, known, down⟩ | ⟨-, pathless⟩
      · exact down.unshown top (bare.pathless above known)
      · exact pathless
    refine ⟨bare.rememberAll top fun c mem => pathless.2 c (mem_reverse.mp mem), ?_, pathless.1⟩
    rw [rememberAll_path, path]
  case h_3 base chain found =>
    rcases bare.climb ok top live here found with ⟨above, known, down⟩ | ⟨none_, -⟩
    · obtain ⟨-, slice, k, depth, placed⟩ := bare.built above base known
      rw [depth]
      have whole : fp.path.take fp.prefixLen ++ Arena.slice fp.arena base.start (base.stop - base.start) =
          mount ++ viewPath ix folds above := by rw [path, ← slice]
      refine Kept.descend ?_ top down whole placed
      exact bare.of_same rfl rfl rfl rfl rfl
    · cases none_

omit kept

theorem remember_needs (fp : FolderPaths) (folder : EntryIdx) (known : Option Folder) :
    (fp.remember folder known).needs = fp.needs ∧ (fp.remember folder known).needsFor = fp.needsFor := by
  unfold remember
  split <;> exact ⟨rfl, rfl⟩

theorem rememberAll_needs (fp : FolderPaths) (chain : List EntryIdx) :
    (chain.foldl (fun fp folder => fp.remember folder none) fp).needs = fp.needs ∧
      (chain.foldl (fun fp folder => fp.remember folder none) fp).needsFor = fp.needsFor := by
  induction chain generalizing fp with
  | nil => exact ⟨rfl, rfl⟩
  | cons c rest ih =>
    rw [foldl_cons, (ih _).1, (ih _).2]
    exact remember_needs fp c none

theorem descend_needs (ix : VolumeIndex) (chain : List EntryIdx) (fp : FolderPaths) (depth : Nat) :
    (descend ix chain fp depth).1.needs = fp.needs ∧ (descend ix chain fp depth).1.needsFor = fp.needsFor := by
  induction chain generalizing fp depth with
  | nil => exact ⟨rfl, rfl⟩
  | cons folder rest ih =>
    rw [descend]
    split
    · exact rememberAll_needs fp (folder :: rest)
    · rw [(ih _ _).1, (ih _ _).2]
      dsimp only
      split
      · unfold cache
        dsimp only
        split <;> exact ⟨rfl, rfl⟩
      · exact ⟨rfl, rfl⟩

theorem build_needs (fp : FolderPaths) (ix : VolumeIndex) (dir : Option EntryIdx) :
    (fp.build ix dir).1.needs = fp.needs ∧ (fp.build ix dir).1.needsFor = fp.needsFor := by
  unfold build
  dsimp only
  split
  · exact ⟨rfl, rfl⟩
  · split
    · exact remember_needs _ _ _
    · exact rememberAll_needs _ _
    · exact descend_needs _ _ _ _

structure Sound (ix : VolumeIndex) (mount : Bytes) (folds : Bool) (finders : List Bytes) (fp : FolderPaths) : Prop
    extends Kept ix mount folds fp where
  mounted : mount <+: fp.path
  current : ∀ dir depth, fp.current = some (some dir, depth) → Loaded ix mount folds dir fp depth
  needs : ∀ dir, fp.needsFor = some (some dir) →
    fp.needs = finders.map (needOf (mount ++ joinPath (viewPath ix folds dir) []))

variable {finders : List Bytes}

theorem sound_new (ix : VolumeIndex) (mount : Bytes) (folds : Bool) (finders : List Bytes)
    (top : ix.entries.parent ix.root = none) : Sound ix mount folds finders (new ix mount folds) := by
  refine ⟨kept_fresh top rfl rfl rfl rfl, prefix_refl _, ?_, ?_⟩
  · intro dir depth at_
    cases at_
  · intro dir at_
    cases at_

theorem Loaded.mounted (loaded : Loaded ix mount folds dir fp depth) : mount <+: fp.path := by
  cases depth with
  | none => exact loaded.1
  | some depth =>
    rw [loaded.1]
    exact prefix_append _ _

theorem Sound.load (sound : Sound ix mount folds finders fp) [Externals] (ok : ix.Integrity)
    (top : ix.entries.parent ix.root = none) (live : ix.Live dir) :
    Sound ix mount folds finders (fp.load ix (some dir)).1 ∧
      (fp.load ix (some dir)).1.current = some (some dir, (fp.load ix (some dir)).2) := by
  obtain ⟨kept, loaded⟩ := sound.toKept.build ok top sound.mounted live
  have anew : Sound ix mount folds finders
      { (fp.build ix (some dir)).1 with current := some (some dir, (fp.build ix (some dir)).2) } := by
    refine ⟨kept.of_same rfl rfl rfl rfl rfl, loaded.mounted, fun dir' depth at_ => ?_, fun dir' at_ => ?_⟩
    · obtain ⟨rfl, rfl⟩ : dir = dir' ∧ (fp.build ix (some dir)).2 = depth := by simpa using at_
      cases answer : (fp.build ix (some dir)).2 with
      | none =>
        rw [answer] at loaded
        exact loaded
      | some depth =>
        rw [answer] at loaded
        exact loaded
    · have held : fp.needsFor = some (some dir') := by rw [← (build_needs fp ix (some dir)).2]; exact at_
      exact (build_needs fp ix (some dir)).1.trans (sound.needs dir' held)
  unfold FolderPaths.load
  split
  case h_1 cur depth held =>
    split
    case isTrue same =>
      rw [same] at held
      exact ⟨sound, held⟩
    case isFalse => exact ⟨anew, rfl⟩
  case h_2 => exact ⟨anew, rfl⟩

theorem load_current {dir : Option EntryIdx} (held : fp.current = some (dir, depth)) :
    fp.load ix dir = (fp, depth) := by
  unfold load
  rw [held]
  simp

end FolderPaths

section Needs

open FolderPaths

variable {before term name : Bytes}

theorem endsWithSeparator_iff {bytes : Bytes} : endsWithSeparator bytes = true ↔ ∃ front, bytes = front ++ [0x5C] := by
  rw [endsWithSeparator, decide_eq_true_iff, getLast?_eq_some_iff]

theorem heldBy_needOf (apart : (0x5C : UInt8) ∉ name) (inPart : needOf before term ≠ .whole) :
    heldBy name (term, needOf before term) = true ↔ term <:+: before ++ name := by
  unfold needOf at inPart ⊢
  split_ifs at inPart ⊢ with inside open_
  · simpa [heldBy] using (Search.find_isSome_iff.mp inside).trans (prefix_append before name).isInfix
  · exact absurd rfl inPart
  · have outside : ¬ term <:+: before := fun held => inside (Search.find_isSome_iff.mpr held)
    have open_ : endsWithSeparator before = true := by simpa using open_
    obtain ⟨front, rfl⟩ := endsWithSeparator_iff.mp open_
    rw [append_assoc, singleton_append]
    cases found : Search.findLast (· = (0x5C : UInt8)) term with
    | none =>
      have plain : (0x5C : UInt8) ∉ term := fun mem => by simpa using Search.findLast_none found _ mem
      have front_ : ¬ term <:+: front := fun held => outside (held.trans (prefix_append front _).isInfix)
      rw [Search.infix_append_cons_iff plain]
      simp [heldBy, Search.find_isSome_iff, front_]
    | some last =>
      obtain ⟨⟨sep, isSep, split, head⟩, after⟩ := Search.findLast_some found
      obtain rfl : sep = 0x5C := by simpa using isSep
      have tail : (0x5C : UInt8) ∉ term.drop (last + 1) := fun mem => by simpa using after _ mem
      have across : term.take last ++ 0x5C :: term.drop (last + 1) <:+: front ++ 0x5C :: name ↔ _ :=
        Search.infix_across_iff tail apart
      rw [← split] at across
      rw [across, or_iff_right outside, ← head]
      dsimp only
      split_ifs with suffix_
      · simp [heldBy, isSuffixOf_iff_suffix.mp suffix_]
      · have none_ : ¬ term.take (last + 1) <:+ front ++ [0x5C] := fun held => suffix_ (isSuffixOf_iff_suffix.mpr held)
        simp [heldBy, none_]

end Needs

open FolderPaths Wtf8

variable {parsed : ParsedQuery} {compiled : CompiledQuery} {idx : EntryIdx} {full : Bytes} {depth : Nat}

structure PathPasses (parsed : ParsedQuery) (compiled : CompiledQuery) (full : Bytes) : Prop where
  terms : ∀ term ∈ compiled.pathFinders, term <:+: full
  ends : ∀ ends ∈ compiled.pathWildcardEnds, ends.1 <+: full ∧ ends.2 <:+ full
  wildcards : ∀ w ∈ parsed.pathWildcards, Glob w.tokens (codePoints full)

theorem quiet_wholeMatches (whole : Bool) : (wholeMatches parsed compiled whole full).quiet = true ↔
    (whole = true → ∀ term ∈ compiled.pathFinders, term <:+: full) ∧
      (∀ ends ∈ compiled.pathWildcardEnds, ends.1 <+: full ∧ ends.2 <:+ full) ∧
      ∀ w ∈ parsed.pathWildcards, Glob w.tokens (codePoints full) := by
  unfold wholeMatches
  rw [quiet_ite, quiet_wildcardsMatch, quiet_pure]
  simp only [Bool.and_eq_true, Bool.or_eq_true, Bool.not_eq_true', all_eq_true, Search.find_isSome_iff,
    isPrefixOf_iff_prefix, isSuffixOf_iff_suffix, Bool.if_false_right, decide_eq_true_eq,
    Wildcard.matchesDecoded_iff]
  cases whole <;> simp [and_assoc]

theorem quiet_decideNeeds (fp : FolderPaths) (compiled : CompiledQuery) (folder : Option EntryIdx) :
    (fp.decideNeeds compiled folder).quiet = if fp.needsFor = some folder then fp
      else { fp with needs := compiled.pathFinders.map (needOf (fp.pushName [])), needsFor := some folder } := by
  unfold decideNeeds
  rw [quiet_ite]
  simp [decideNeed]

theorem FolderPaths.Sound.decideNeeds (sound : Sound ix mount folds compiled.pathFinders fp)
    (held : fp.current = some (some dir, some depth)) :
    Sound ix mount folds compiled.pathFinders (fp.decideNeeds compiled (some dir)).quiet ∧
      (fp.decideNeeds compiled (some dir)).quiet.current = fp.current ∧
      (fp.decideNeeds compiled (some dir)).quiet.needs =
        compiled.pathFinders.map (needOf (mount ++ joinPath (viewPath ix folds dir) [])) := by
  rw [quiet_decideNeeds]
  split
  case isTrue known => exact ⟨sound, rfl, sound.needs dir known⟩
  case isFalse =>
    have path := (sound.current dir (some depth) held).1
    have pushed := sound.toKept.pushName path []
    refine ⟨⟨sound.toKept.of_same rfl rfl rfl rfl rfl, sound.mounted, fun dir' depth' at_ => ?_, fun dir' at_ => ?_⟩, rfl, ?_⟩
    · cases depth' with
      | none => exact sound.current dir' none at_
      | some depth' => exact sound.current dir' (some depth') at_
    · obtain rfl : dir = dir' := by simpa using at_
      rw [pushed]
    · rw [pushed]

theorem joinPath_append (path name : Bytes) : joinPath path name = joinPath path [] ++ name := by
  simp [joinPath]

/-- The test of a name, once its folder's path is loaded and the needs of its terms are decided. -/
def FolderPaths.testName (decided : FolderPaths) (ix : VolumeIndex) (parsed : ParsedQuery) (compiled : CompiledQuery) (idx : EntryIdx) :
    Asking (Bool × FolderPaths) :=
  let name := nameBytes ix (ix.entries.nameId idx) decided.folds
  let needs := compiled.pathFinders.zip decided.needs
  let separated := name.contains 0x5C
  if !separated && !needs.all (heldBy name) then pure (false, decided)
  else
    let whole := separated || needs.any (·.2 = .whole)
    if !whole && parsed.pathWildcards.isEmpty then pure (true, decided)
    else decided.withFullPath ix idx (wholeMatches parsed compiled whole)

theorem fullPathMatches_eq (fp : FolderPaths) : fp.fullPathMatches ix parsed compiled idx =
    (let loaded := fp.load ix (ix.entries.parent idx)
    if loaded.2.any (· < maxPathHops) then
      loaded.1.decideNeeds compiled (ix.entries.parent idx) >>= fun decided => decided.testName ix parsed compiled idx
    else pure (false, loaded.1)) := rfl

theorem quiet_testName {decided : FolderPaths} (kept : Kept ix mount folds decided)
    (path : decided.path = mount ++ rel) (again : decided.load ix (ix.entries.parent idx) = (decided, some depth))
    (lt : depth < maxPathHops) (needs : decided.needs = compiled.pathFinders.map (needOf (mount ++ joinPath rel [])))
    (ends : compiled.pathWildcardEnds = parsed.pathWildcards.map fun w => (w.leadingLiteral, w.trailingLiteral)) :
    (decided.testName ix parsed compiled idx).quiet.2 = decided ∧
      ((decided.testName ix parsed compiled idx).quiet.1 = true ↔
        PathPasses parsed compiled (mount ++ joinPath rel (nameBytes ix (ix.entries.nameId idx) folds))) := by
  set name := nameBytes ix (ix.entries.nameId idx) folds with named
  have folding : nameBytes ix (ix.entries.nameId idx) decided.folds = name := by rw [kept.folding]
  have parts : mount ++ joinPath rel name = (mount ++ joinPath rel []) ++ name := by rw [joinPath_append, List.append_assoc]
  set before := mount ++ joinPath rel []
  have zipped : compiled.pathFinders.zip decided.needs = compiled.pathFinders.map fun t => (t, needOf before t) := by
    rw [needs]
    induction compiled.pathFinders with
    | nil => rfl
    | cons t rest ih => rw [List.map_cons, List.zip_cons_cons, ih, List.map_cons]
  have read (f : Bytes → Asking Bool) : (decided.withFullPath ix idx f).quiet = ((f (mount ++ joinPath rel name)).quiet, decided) := by
    unfold withFullPath
    rw [again]
    simp only [Option.any_some, lt, decide_true, if_true, folding, kept.pushName path, bind_pure_comp, quiet_map]
  have held {t : Bytes} (plain : name.contains 0x5C = false) (inPart : needOf before t ≠ .whole) :
      heldBy name (t, needOf before t) = true ↔ t <:+: mount ++ joinPath rel name := by
    rw [parts]
    exact heldBy_needOf (by simpa using plain) inPart
  unfold testName
  rw [folding, zipped]
  simp only [quiet_ite, quiet_pure, List.all_map, List.any_map, read]
  refine ⟨by split_ifs <;> rfl, ?_⟩
  -- unless the whole path is searched, what the names need is all the terms need
  have terms (passed : ¬ (!name.contains 0x5C && !compiled.pathFinders.all (heldBy name ∘ fun t => (t, needOf before t))) = true)
      (inPart : (name.contains 0x5C ||
        compiled.pathFinders.any ((fun need => decide (need.2 = .whole)) ∘ fun t => (t, needOf before t))) = false) :
      ∀ t ∈ compiled.pathFinders, t <:+: mount ++ joinPath rel name := by
    simp only [Bool.or_eq_false_iff, List.any_eq_false, Function.comp, decide_eq_true_eq] at inPart
    simp only [inPart.1, Bool.not_false, Bool.true_and, Bool.not_eq_true', Bool.not_eq_false, List.all_eq_true,
      Function.comp] at passed
    intro t mem
    exact (held inPart.1 (inPart.2 t mem)).mp (passed t mem)
  split_ifs with fails done
  · refine iff_of_false (by simp) fun passes => ?_
    simp only [Bool.and_eq_true, Bool.not_eq_true', List.all_eq_false] at fails
    obtain ⟨plain, t, mem, fails⟩ := fails
    have inPart : needOf before t ≠ .whole := by
      intro whole
      simp [whole, heldBy] at fails
    exact fails ((held plain inPart).mpr (passes.terms t mem))
  · simp only [Bool.and_eq_true, Bool.not_eq_true', List.isEmpty_iff] at done
    refine iff_of_true rfl ⟨terms fails done.1, ?_, by simp [done.2]⟩
    simp [ends, done.2]
  · rw [quiet_wholeMatches]
    constructor
    · rintro ⟨searched, ends, wildcards⟩
      refine ⟨?_, ends, wildcards⟩
      cases whole : name.contains 0x5C || compiled.pathFinders.any ((fun need => decide (need.2 = .whole)) ∘
          fun t => (t, needOf before t)) with
      | true => exact searched whole
      | false => exact terms fails whole
    · intro passes
      exact ⟨fun _ => passes.terms, passes.ends, passes.wildcards⟩

theorem FolderPaths.Sound.fullPathMatches [Externals]
    (sound : Sound ix mount folds compiled.pathFinders fp) (ok : ix.Integrity) (top : ix.entries.parent ix.root = none)
    (ends : compiled.pathWildcardEnds = parsed.pathWildcards.map fun w => (w.leadingLiteral, w.trailingLiteral))
    (live : ix.Live idx) (at_ : ix.entries.parent idx = some dir) :
    Sound ix mount folds compiled.pathFinders (fp.fullPathMatches ix parsed compiled idx).quiet.2 ∧
      ((fp.fullPathMatches ix parsed compiled idx).quiet.1 = true ↔
        Shown ix idx ∧ PathPasses parsed compiled (mount ++ viewPath ix folds idx)) := by
  obtain ⟨loadedSound, current⟩ := sound.load ok top (ok.parent_live idx dir live at_)
  rw [fullPathMatches_eq, at_]
  dsimp only
  set loaded := fp.load ix (some dir)
  have answer := loadedSound.current dir loaded.2 current
  rw [quiet_ite]
  split
  case isFalse deep =>
    refine ⟨loadedSound, iff_of_false (by simp) fun ⟨⟨k, placed⟩, _⟩ => ?_⟩
    obtain ⟨j, rfl, above⟩ := placed.above top at_
    cases depth : loaded.2 with
    | none =>
      rw [depth] at answer
      exact answer.2 ⟨j, above⟩
    | some n =>
      rw [depth] at answer deep
      obtain ⟨-, i, rfl, there⟩ := answer
      rw [there.unique top above] at deep
      exact deep (by simpa using placed.lt)
  case isTrue shallow =>
    obtain ⟨n, depth, lt⟩ : ∃ n, loaded.2 = some n ∧ n < maxPathHops := by
      simpa [Option.any_eq_true] using shallow
    rw [depth] at answer current
    obtain ⟨path, k, rfl, above⟩ := answer
    have placed := above.child at_ lt
    obtain ⟨decidedSound, same, needs⟩ := loadedSound.decideNeeds current
    rw [quiet_bind]
    set decided := (loaded.1.decideNeeds compiled (some dir)).quiet
    have again : decided.load ix (ix.entries.parent idx) = (decided, some (k + 1)) := by
      rw [at_]
      exact load_current (same.trans current)
    have whole := (decidedSound.current dir (some (k + 1)) (same.trans current)).1
    obtain ⟨kept, passes⟩ := quiet_testName decidedSound.toKept whole again lt needs ends
    rw [kept, passes, placed.viewPath top at_]
    exact ⟨decidedSound, (and_iff_right ⟨k + 1, placed⟩).symm⟩

end Goz.Query
