import Goz.Query.FolderOrder

namespace Goz.Query

open Ascent VolumeIndex Wtf8 List Option Asking FolderRanks Externals

variable {ix : VolumeIndex} {folds : Bool} {e idx : EntryIdx} {mount : Bytes} {parsed : ParsedQuery}
variable {compiled : CompiledQuery} {fp : FolderPaths}
variable {chain : List EntryIdx}

section Views

variable [Externals] {path name : Bytes}

def viewed (folds : Bool) (text : Bytes) : Bytes := if folds then fold text else text

theorem viewed_joinPath (joins : FoldJoins) (wholePath : WellFormed path) (wholeName : WellFormed name) :
    viewed folds (joinPath path name) = joinPath (viewed folds path) (viewed folds name) := by
  unfold viewed
  cases folds with
  | false => rfl
  | true =>
    simp only [if_true]
    unfold joinPath
    by_cases empty : path = []
    · simp [empty]
    · have some_ : fold path ≠ [] := fun gone => empty (joins.keeps path wholePath gone)
      simp [empty, some_, joins.splits path name wholePath wholeName]

theorem nameBytes_viewed (ok : ix.Integrity) (live : ix.Live e) : nameBytes ix (ix.entries.nameId e) folds = viewed folds (ix.rawName e) := by
  unfold nameBytes viewed
  cases folds with
  | false => rfl
  | true =>
    simp only [if_true]
    exact ok.names.folds _ (ok.name_live live)

def NamesWellFormed (ix : VolumeIndex) : Prop := ∀ e, ix.Live e → WellFormed (ix.rawName e)

omit [Externals] in
theorem pushComponent_eq (ix : VolumeIndex) (out : Bytes) (e : EntryIdx) :
    ix.pushComponent out e = if e = ix.root then out else joinPath out (ix.rawName e) := by
  unfold pushComponent joinPath
  split
  · rfl
  · cases out <;> rfl

omit [Externals] in
theorem wellFormed_joinPath (wholePath : WellFormed path) (wholeName : WellFormed name) :
    WellFormed (joinPath path name) := by
  unfold joinPath
  apply WellFormed.append ?_ wholeName
  split
  · exact wellFormed_nil
  · exact wholePath.append ⟨[0x5C], by simp, rfl⟩

theorem foldl_pushView (joins : FoldJoins) (ok : ix.Integrity) (names : NamesWellFormed ix)
    (live : ∀ x ∈ chain, ix.Live x) {out : Bytes} (whole : WellFormed out) :
    chain.foldl (pushView ix folds) (viewed folds out) = viewed folds (chain.foldl ix.pushComponent out) ∧
      WellFormed (chain.foldl ix.pushComponent out) := by
  induction chain generalizing out with
  | nil => exact ⟨rfl, whole⟩
  | cons x rest ih =>
    have here := live x mem_cons_self
    have below : ∀ y ∈ rest, ix.Live y := fun y mem => live y (mem_cons_of_mem _ mem)
    rw [foldl_cons, foldl_cons, pushComponent_eq, pushView]
    split
    · exact ih below whole
    · rw [nameBytes_viewed ok here, ← viewed_joinPath joins whole (names x here)]
      exact ih below (wellFormed_joinPath whole (names x here))

theorem pathOf_ok_iff (ok : ix.Integrity) (top : ix.entries.parent ix.root = none) (live : ix.Live e) :
    (ix.pathOf e []).1 = .ok ↔ Shown ix e := by
  constructor
  · intro shown
    obtain ⟨-, last, ⟨⟨k, lt, way⟩, end_⟩, notLost⟩ := pathOf_ok shown
    rw [(ok.top last (ok.ascend_live live way) end_).resolve_right notLost] at way
    exact ⟨k, way, lt⟩
  · rintro ⟨k, way, lt⟩
    rw [VolumeIndex.Tops.pathOf ⟨⟨k, lt, way⟩, top⟩ live, if_neg ok.apart]

theorem viewPath_eq (joins : FoldJoins) (ok : ix.Integrity) (names : NamesWellFormed ix) (top : ix.entries.parent ix.root = none)
    (live : ix.Live e) (shown : Shown ix e) :
    viewPath ix folds e = viewed folds (ix.pathOf e []).2 ∧ WellFormed (ix.pathOf e []).2 := by
  obtain ⟨k, way, lt⟩ := shown
  have alive : ∀ x ∈ (trail ix.entries.parent maxPathHops e).reverse, ix.Live x := by
    intro x mem
    obtain ⟨j, -, at_⟩ := mem_trail (mem_reverse.mp mem)
    exact ok.ascend_live live at_
  have none_ : viewed folds [] = [] := by cases folds <;> rfl
  rw [VolumeIndex.Tops.pathOf ⟨⟨k, lt, way⟩, top⟩ live, viewPath]
  have pushed : _ = viewed folds _ ∧ _ := foldl_pushView joins ok names alive wellFormed_nil
  rwa [none_] at pushed

end Views

section Sequences

open FolderPaths

variable [Externals]

/-- The answers of a sequence of tests that share what they learn of folders, within an unlimited budget. -/
def answers (ix : VolumeIndex) (parsed : ParsedQuery) (compiled : CompiledQuery) : FolderPaths → List EntryIdx → List Bool
  | _, [] => []
  | fp, idx :: rest =>
    let tested := (fp.fullPathMatches ix parsed compiled idx).quiet
    tested.1 :: answers ix parsed compiled tested.2 rest

omit [Externals] in
theorem load_held (fp : FolderPaths) (ix : VolumeIndex) (dir : Option EntryIdx) :
    (fp.load ix dir).1.current = some (dir, (fp.load ix dir).2) := by
  unfold load
  split
  case h_1 cur depth held =>
    split
    case isTrue same => rw [held, same]
    case isFalse => rfl
  case h_2 => rfl

omit [Externals] in
theorem load_needs (fp : FolderPaths) (ix : VolumeIndex) (dir : Option EntryIdx) :
    (fp.load ix dir).1.needs = fp.needs ∧ (fp.load ix dir).1.needsFor = fp.needsFor := by
  unfold load
  split
  · split
    · exact ⟨rfl, rfl⟩
    · exact build_needs fp ix dir
  · exact build_needs fp ix dir

omit [Externals] in
theorem current_decideNeeds (fp : FolderPaths) (compiled : CompiledQuery) (folder : Option EntryIdx) :
    (fp.decideNeeds compiled folder).quiet.current = fp.current := by
  rw [quiet_decideNeeds]
  split <;> rfl

omit [Externals] in
theorem fullPathMatches_state (fp : FolderPaths) : (fp.fullPathMatches ix parsed compiled idx).quiet.2 =
    if (fp.load ix (ix.entries.parent idx)).2.any (· < maxPathHops) then
      ((fp.load ix (ix.entries.parent idx)).1.decideNeeds compiled (ix.entries.parent idx)).quiet
    else (fp.load ix (ix.entries.parent idx)).1 := by
  rw [fullPathMatches_eq]
  dsimp only
  set loaded := fp.load ix (ix.entries.parent idx) with loading
  rw [quiet_ite]
  split
  case isFalse => rfl
  case isTrue =>
    rw [quiet_bind]
    set decided := (loaded.1.decideNeeds compiled (ix.entries.parent idx)).quiet
    have again : decided.load ix (ix.entries.parent idx) = (decided, loaded.2) :=
      load_current ((current_decideNeeds _ _ _).trans (load_held fp ix _))
    have read (f : Bytes → Asking Bool) : (decided.withFullPath ix idx f).quiet.2 = decided := by
      unfold withFullPath
      rw [again]
      dsimp only
      rw [quiet_ite]
      split <;> simp
    unfold testName
    simp only [quiet_ite, quiet_pure]
    split_ifs
    · rfl
    · rfl
    · exact read _

/-- The paths of a query in progress, with those of the entries at the top. -/
structure Tested (ix : VolumeIndex) (mount : Bytes) (folds : Bool) (finders : List Bytes) (fp : FolderPaths) : Prop
    extends Sound ix mount folds finders fp where
  atTop : ∀ depth, fp.current = some (none, depth) → depth = some 0 ∧ fp.path = mount
  needsAtTop : fp.needsFor = some none → fp.needs = finders.map (needOf mount)

omit [Externals] in
theorem tested_new (mount : Bytes) (folds : Bool) (finders : List Bytes) (top : ix.entries.parent ix.root = none)
    (maxBytes maxFolders : Nat) :
    Tested ix mount folds finders { new ix mount folds with maxBytes := maxBytes, maxFolders := maxFolders } := by
  have sound := sound_new ix mount folds finders top
  refine ⟨⟨sound.toKept.of_same rfl rfl rfl rfl rfl, sound.mounted, ?_, ?_⟩, ?_, ?_⟩
  · intro dir depth held
    cases held
  · intro dir held
    cases held
  · intro depth held
    cases held
  · intro held
    cases held

omit [Externals] in
theorem Tested.load_none {finders : List Bytes} (tested : Tested ix mount folds finders fp) :
    Tested ix mount folds finders (fp.load ix none).1 ∧ (fp.load ix none).2 = some 0 ∧ (fp.load ix none).1.path = mount := by
  have bare : fp.path.take fp.prefixLen = mount := by
    obtain ⟨rest, eq⟩ := tested.mounted
    rw [← eq, tested.prefixLen, take_left]
  have anew : Tested ix mount folds finders
      { (fp.build ix none).1 with current := some (none, (fp.build ix none).2) } := by
    refine ⟨⟨tested.toKept.of_same rfl rfl rfl rfl rfl, ?_, ?_, tested.needs⟩, ?_, tested.needsAtTop⟩
    · show mount <+: fp.path.take fp.prefixLen
      rw [bare]
    · intro dir depth held
      cases held
    · intro depth held
      cases held
      exact ⟨rfl, bare⟩
  unfold load
  split
  case h_1 cur depth held =>
    split
    case isTrue same =>
      rw [same] at held
      exact ⟨tested, tested.atTop depth held⟩
    case isFalse => exact ⟨anew, rfl, bare⟩
  case h_2 => exact ⟨anew, rfl, bare⟩

variable (tested : Tested ix mount folds compiled.pathFinders fp)
include tested

omit [Externals] in
theorem Tested.decideNeeds_none (path : fp.path = mount) :
    Tested ix mount folds compiled.pathFinders (fp.decideNeeds compiled none).quiet ∧
      (fp.decideNeeds compiled none).quiet.path = mount ∧
      (fp.decideNeeds compiled none).quiet.needs = compiled.pathFinders.map (needOf mount) := by
  have pushed : fp.pushName [] = mount := by
    rw [tested.toKept.pushName (show fp.path = mount ++ [] by simpa using path)]
    simp [joinPath]
  rw [quiet_decideNeeds]
  split
  case isTrue known => exact ⟨tested, path, tested.needsAtTop known⟩
  case isFalse =>
    rw [pushed]
    refine ⟨⟨⟨tested.toKept.of_same rfl rfl rfl rfl rfl, tested.mounted, fun dir depth held => ?_, ?_⟩, tested.atTop, ?_⟩, path, rfl⟩
    · cases depth with
      | none => exact tested.current dir none held
      | some depth => exact tested.current dir (some depth) held
    · intro dir held
      cases held
    · exact fun _ => rfl

theorem Tested.fullPathMatches (ok : ix.Integrity)
    (top : ix.entries.parent ix.root = none) (unnamed : ix.RootUnnamed)
    (ends : compiled.pathWildcardEnds = parsed.pathWildcards.map fun w => (w.leadingLiteral, w.trailingLiteral))
    (live : ix.Live idx) (notLost : idx ≠ ix.lostFound) :
    Tested ix mount folds compiled.pathFinders (fp.fullPathMatches ix parsed compiled idx).quiet.2 ∧
      ((fp.fullPathMatches ix parsed compiled idx).quiet.1 = true ↔
        Shown ix idx ∧ PathPasses parsed compiled (mount ++ viewPath ix folds idx)) := by
  cases up : ix.entries.parent idx with
  | some dir =>
    obtain ⟨sound, answer⟩ := tested.toSound.fullPathMatches ok top ends live up
    refine ⟨⟨sound, ?_, ?_⟩, answer⟩
    · intro depth held
      rw [fullPathMatches_state, up] at held
      split at held
      · rw [current_decideNeeds, load_held] at held
        cases held
      · rw [load_held] at held
        cases held
    · intro held
      rw [fullPathMatches_state, up] at held ⊢
      have kept := load_needs fp ix (some dir)
      split at held
      · rw [quiet_decideNeeds] at held
        split at held
        case isTrue known =>
          rw [known] at held
          cases held
        case isFalse => cases held
      case isFalse deep =>
        rw [if_neg deep, kept.1]
        exact tested.needsAtTop (kept.2.symm.trans held)
  | none =>
    obtain rfl := (ok.top idx live up).resolve_right notLost
    obtain ⟨loadedTested, depth, path⟩ := tested.load_none
    obtain ⟨decidedTested, samePath, needs⟩ := loadedTested.decideNeeds_none path
    have name : nameBytes ix (ix.entries.nameId ix.root) folds = [] := by
      rw [nameBytes_viewed ok live, unnamed live top]
      cases folds <;> rfl
    have shallow : (fp.load ix none).2.any (· < maxPathHops) = true := by
      rw [depth]
      rfl
    set decided := ((fp.load ix none).1.decideNeeds compiled none).quiet
    have again : decided.load ix (ix.entries.parent ix.root) = (decided, some 0) := by
      rw [up]
      exact load_current ((current_decideNeeds _ _ _).trans ((load_held fp ix none).trans (by rw [depth])))
    have bare : decided.path = mount ++ [] := by rw [samePath, append_nil]
    have needs : decided.needs = compiled.pathFinders.map (needOf (mount ++ joinPath [] [])) := by
      rw [needs]
      simp [joinPath]
    obtain ⟨state, passes⟩ := quiet_testName decidedTested.toKept bare again (by decide) needs ends
    rw [fullPathMatches_eq, up]
    dsimp only
    rw [quiet_ite, if_pos shallow, quiet_bind]
    change Tested ix mount folds _ (decided.testName ix parsed compiled ix.root).quiet.2 ∧
      ((decided.testName ix parsed compiled ix.root).quiet.1 = true ↔ _)
    rw [state, passes, name, viewPath_root top]
    exact ⟨decidedTested, (and_iff_right ⟨0, placed_root⟩).symm⟩

end Sequences

section Displaced

open FolderPaths

structure Bare (ix : VolumeIndex) : Prop where
  moved : ix.entries.parent ix.root ≠ none
  childless : ∀ e, ix.Live e → ix.entries.parent e ≠ some ix.root

structure NoneKnown (ix : VolumeIndex) (fp : FolderPaths) : Prop where
  root : fp.root = ix.root
  known : ∀ e f, fp.known.lookup e = some (some f) → e = ix.root

structure Pathless (ix : VolumeIndex) (fp : FolderPaths) : Prop extends NoneKnown ix fp where
  current : ∀ dir depth, dir ≠ ix.root → fp.current = some (some dir, depth) → depth = none

theorem NoneKnown.restart (fp : FolderPaths) (root : fp.root = ix.root) : NoneKnown ix fp.restart := by
  refine ⟨root, fun e f found => ?_⟩
  rcases lookup_insert_cases found with ⟨same, -⟩ | none_
  · exact same.trans root
  · simp at none_

theorem pathless_new (mount : Bytes) (folds : Bool) (maxBytes maxFolders : Nat) :
    Pathless ix { new ix mount folds with maxBytes := maxBytes, maxFolders := maxFolders } := by
  refine ⟨⟨rfl, (NoneKnown.restart (new ix mount folds) rfl).known⟩, ?_⟩
  intro dir depth _ held
  cases held

theorem NoneKnown.remember (pathless : NoneKnown ix fp) (folder : EntryIdx) : NoneKnown ix (fp.remember folder none) := by
  have roomy : NoneKnown ix (if fp.known.entries.length ≥ fp.maxFolders then fp.restart else fp) := by
    split
    · exact NoneKnown.restart fp pathless.root
    · exact pathless
  refine ⟨roomy.root, fun e f found => ?_⟩
  rcases lookup_insert_cases found with ⟨-, none_⟩ | found
  · cases none_
  · exact roomy.known e f found

theorem NoneKnown.rememberAll (pathless : NoneKnown ix fp) (chain : List EntryIdx) :
    NoneKnown ix (chain.foldl (fun fp folder => fp.remember folder none) fp) := by
  induction chain generalizing fp with
  | nil => exact pathless
  | cons folder rest ih => exact ih (pathless.remember folder)

variable [Externals]

theorem NoneKnown.climb (pathless : NoneKnown ix fp) (ok : ix.Integrity) (bare : Bare ix) {hops : Nat} {cur : EntryIdx}
    {chain' : List EntryIdx} {base : Option Folder} (live : ix.Live cur) (away : cur ≠ ix.root)
    (found : fp.climb ix hops cur chain = some (base, chain')) : base = none := by
  have step {e p : EntryIdx} : ix.Live e ∧ e ≠ ix.root → ix.entries.parent e = some p → ix.Live p ∧ p ≠ ix.root := by
    rintro ⟨live, -⟩ up
    refine ⟨ok.parent_live e p live up, ?_⟩
    rintro rfl
    exact bare.childless e live up
  obtain ⟨e, c, ⟨live, away⟩, ⟨known, -⟩ | ⟨-, up, rfl, -⟩⟩ :=
    climb_stops (P := fun e _ => ix.Live e ∧ e ≠ ix.root) step ⟨live, away⟩ found
  · cases base with
    | none => rfl
    | some f => exact absurd (pathless.known e f known) away
  · exact if_pos ((ok.top e live up).resolve_left away)

theorem NoneKnown.build (pathless : NoneKnown ix fp) (ok : ix.Integrity) (bare : Bare ix) {dir : EntryIdx} (live : ix.Live dir)
    (away : dir ≠ ix.root) : (fp.build ix (some dir)).2 = none ∧ NoneKnown ix (fp.build ix (some dir)).1 := by
  have kept : NoneKnown ix { fp with path := fp.path.take fp.prefixLen } := ⟨pathless.root, pathless.known⟩
  unfold FolderPaths.build
  dsimp only
  split
  case h_1 => exact ⟨rfl, kept.remember dir⟩
  case h_2 chain _ => exact ⟨rfl, kept.rememberAll _⟩
  case h_3 base chain found => exact absurd (kept.climb ok bare live away found) nofun

theorem Pathless.fullPathMatches (pathless : Pathless ix fp) (ok : ix.Integrity) (bare : Bare ix) (live : ix.Live idx)
    (notLost : idx ≠ ix.lostFound) :
    Pathless ix (fp.fullPathMatches ix parsed compiled idx).quiet.2 ∧
      (fp.fullPathMatches ix parsed compiled idx).quiet.1 = false := by
  obtain ⟨dir, up⟩ : ∃ dir, ix.entries.parent idx = some dir := by
    cases up : ix.entries.parent idx with
    | some dir => exact ⟨dir, rfl⟩
    | none =>
      obtain rfl := (ok.top idx live up).resolve_right notLost
      exact absurd up bare.moved
  have away : dir ≠ ix.root := by
    rintro rfl
    exact bare.childless idx live up
  obtain ⟨answer, known⟩ := pathless.toNoneKnown.build ok bare (ok.parent_live idx dir live up) away
  have loaded : (fp.load ix (some dir)).2 = none ∧ Pathless ix (fp.load ix (some dir)).1 := by
    have anew : Pathless ix { (fp.build ix (some dir)).1 with current := some (some dir, (fp.build ix (some dir)).2) } := by
      refine ⟨⟨known.root, known.known⟩, fun dir' depth _ held => ?_⟩
      cases held
      exact answer
    unfold load
    split
    case h_1 cur depth held =>
      split
      case isTrue same =>
        rw [same] at held
        exact ⟨pathless.current dir depth away held, pathless⟩
      case isFalse => exact ⟨answer, anew⟩
    case h_2 => exact ⟨answer, anew⟩
  have state : (fp.fullPathMatches ix parsed compiled idx).quiet.2 = _ := fullPathMatches_state fp
  rw [up, loaded.1] at state
  rw [state, fullPathMatches_eq, up]
  dsimp only
  rw [loaded.1]
  exact ⟨loaded.2, rfl⟩

end Displaced

open FolderPaths

variable [Externals]

def pathsFor (ix : VolumeIndex) (parsed : ParsedQuery) (mount : Bytes) (maxBytes maxFolders : Nat) : FolderPaths :=
 
  { new ix (compile parsed mount).mountPrefix (!parsed.matchCase) with maxBytes := maxBytes, maxFolders := maxFolders }

def fullPath (ix : VolumeIndex) (parsed : ParsedQuery) (mount : Bytes) (e : EntryIdx) : Bytes :=
  viewed (!parsed.matchCase) mount ++ viewed (!parsed.matchCase) (ix.pathOf e []).2

structure PathHeld (ix : VolumeIndex) (parsed : ParsedQuery) (mount : Bytes) (e : EntryIdx) : Prop where
  shown : (ix.pathOf e []).1 = .ok
  terms : ∀ term ∈ (compile parsed mount).pathFinders, term <:+: fullPath ix parsed mount e
  wildcards : ∀ w ∈ parsed.pathWildcards, Glob w.tokens (codePoints (fullPath ix parsed mount e))

theorem mountPrefix_eq (parsed : ParsedQuery) (mount : Bytes) :
    (compile parsed mount).mountPrefix = viewed (!parsed.matchCase) mount := by
  unfold viewed compile
  cases parsed.matchCase <;> rfl

theorem wellFormed_viewed {folds : Bool} {text : Bytes} (whole : WellFormed text) : WellFormed (viewed folds text) := by
  cases folds with
  | false => exact whole
  | true => exact wellFormed_fold text

theorem pathPasses_iff {full : Bytes} (whole : WellFormed full) :
    PathPasses parsed (compile parsed mount) full ↔
      (∀ term ∈ (compile parsed mount).pathFinders, term <:+: full) ∧ ∀ w ∈ parsed.pathWildcards, Glob w.tokens (codePoints full) := by
  refine ⟨fun passes => ⟨passes.terms, passes.wildcards⟩, fun ⟨terms, wildcards⟩ => ⟨terms, ?_, wildcards⟩⟩
  intro ends mem
  obtain ⟨w, inside, rfl⟩ := mem_map.mp mem
  have leading := Wildcard.leadingLiteral_held (wildcards w inside)
  have trailing := Wildcard.trailingLiteral_held (wildcards w inside)
  rw [whole.encode_codePoints] at leading trailing
  exact ⟨leading, trailing⟩

theorem shown_passes_iff (joins : FoldJoins) (ok : ix.Integrity) (names : NamesWellFormed ix) (top : ix.entries.parent ix.root = none)
    (mounted : WellFormed mount) (live : ix.Live e) :
    Shown ix e ∧ PathPasses parsed (compile parsed mount) ((compile parsed mount).mountPrefix ++ viewPath ix (!parsed.matchCase) e) ↔
      PathHeld ix parsed mount e := by
  have full (shown : Shown ix e) : (compile parsed mount).mountPrefix ++ viewPath ix (!parsed.matchCase) e = fullPath ix parsed mount e ∧
      WellFormed (fullPath ix parsed mount e) := by
    obtain ⟨path, whole⟩ := viewPath_eq joins ok names top live shown
    rw [mountPrefix_eq, path, fullPath]
    exact ⟨rfl, (wellFormed_viewed mounted).append (wellFormed_viewed whole)⟩
  constructor
  · rintro ⟨shown, passes⟩
    obtain ⟨same, whole⟩ := full shown
    rw [same, pathPasses_iff whole] at passes
    exact ⟨(pathOf_ok_iff ok top live).mpr shown, passes.1, passes.2⟩
  · intro held
    have shown := (pathOf_ok_iff ok top live).mp held.shown
    obtain ⟨same, whole⟩ := full shown
    rw [same, pathPasses_iff whole]
    exact ⟨shown, held.terms, held.wildcards⟩

omit [Externals] in
theorem answers_right {kept : FolderPaths → Prop} {compiled : CompiledQuery} {right : EntryIdx → Prop} {tested : List EntryIdx}
    (step : ∀ e ∈ tested, ∀ fp, kept fp → kept (fp.fullPathMatches ix parsed compiled e).quiet.2 ∧
      ((fp.fullPathMatches ix parsed compiled e).quiet.1 = true ↔ right e)) {fp : FolderPaths} (start : kept fp) :
    Forall₂ (fun e answer => answer = true ↔ right e) tested (answers ix parsed compiled fp tested) := by
  induction tested generalizing fp with
  | nil => exact .nil
  | cons e rest ih =>
    obtain ⟨after, answer⟩ := step e mem_cons_self fp start
    exact .cons answer (ih (fun x mem => step x (mem_cons_of_mem _ mem)) after)

theorem pathOf_ne_ok (ok : ix.Integrity) (moved : ix.entries.parent ix.root ≠ none) (e : EntryIdx) : (ix.pathOf e []).1 ≠ .ok := by
  intro shown
  obtain ⟨live, last, ⟨⟨k, -, way⟩, end_⟩, notLost⟩ := pathOf_ok shown
  rw [(ok.top last (ok.ascend_live live way) end_).resolve_right notLost] at end_
  exact moved end_

omit [Externals] in
def anyQuery : ParsedQuery where
  nameTerms := []
  pathTerms := []
  wildcards := []
  pathWildcards := []
  filters := {}
  matchCase := false

theorem fullPathMatches_in_root (at_ : ix.entries.parent e = some ix.root) (maxBytes maxFolders : Nat) :
    ((pathsFor ix anyQuery [] maxBytes maxFolders).fullPathMatches ix anyQuery (compile anyQuery []) e).quiet.1 = true := by
  set fp := pathsFor ix anyQuery [] maxBytes maxFolders
  have known : fp.known.lookup ix.root = some (some ⟨0, 0, 1⟩) := AList.lookup_insert _
  have depth : (fp.load ix (some ix.root)).2 = some 1 := by
    have climbed : ({ fp with path := fp.path.take fp.prefixLen } : FolderPaths).climb ix maxPathHops ix.root [] =
        some (some ⟨0, 0, 1⟩, []) := by
      unfold climb
      simp only [known]
    show (fp.build ix (some ix.root)).2 = some 1
    unfold build
    dsimp only
    rw [climbed]
    rfl
  have finders : (compile anyQuery []).pathFinders = [] := rfl
  have ends : (compile anyQuery []).pathWildcardEnds = [] := rfl
  have wildcards : anyQuery.pathWildcards = [] := rfl
  rw [fullPathMatches_eq, at_]
  dsimp only
  rw [quiet_ite, if_pos (by rw [depth]; rfl), quiet_bind]
  set decided := ((fp.load ix (some ix.root)).1.decideNeeds (compile anyQuery []) (some ix.root)).quiet
  have again : decided.load ix (some ix.root) = (decided, some 1) :=
    load_current ((current_decideNeeds _ _ _).trans ((load_held fp ix _).trans (by rw [depth])))
  unfold testName
  simp only [finders, wildcards, zip_nil_left, all_nil, Bool.not_true, Bool.and_false, Bool.false_eq_true, if_false,
    any_nil, Bool.or_false, isEmpty_nil, Bool.and_true, quiet_ite, quiet_pure]
  split
  · rfl
  · unfold withFullPath
    rw [at_, again]
    simp [wholeMatches, finders, ends, wildcards, maxPathHops]

/-- Tests that share a memory of folders answer as plain tests of full paths do, whatever was tested before, exactly if
    nothing has moved a root that still holds entries. -/
theorem cached_path_tests_exact {rootFrn : Frn} (reachable : VolumeIndex.Reachable rootFrn ix) (joins : FoldJoins) (names : NamesWellFormed ix) :
    (∀ (mount : Bytes) (parsed : ParsedQuery) (maxBytes maxFolders : Nat) (tested : List EntryIdx), WellFormed mount →
      (∀ e ∈ tested, ix.Live e ∧ e ≠ ix.lostFound) →
      Forall₂ (fun e answer => answer = true ↔ PathHeld ix parsed mount e) tested
        (answers ix parsed (compile parsed mount) (pathsFor ix parsed mount maxBytes maxFolders) tested)) ↔
      (ix.entries.parent ix.root = none ∨ ∀ e, ix.Live e → ix.entries.parent e ≠ some ix.root) := by
  have ok := reachable.invariant.integrity
  constructor
  · intro all
    by_contra displaced
    push Not at displaced
    obtain ⟨moved, e, live, at_⟩ := displaced
    have notLost : e ≠ ix.lostFound := by
      rintro rfl
      rw [ok.lost_top] at at_
      cases at_
    have answer := all [] anyQuery 1 1 [e] wellFormed_nil (by simp [live, notLost])
    rw [answers] at answer
    obtain ⟨answer, -⟩ := forall₂_cons.mp answer
    exact pathOf_ne_ok ok moved e (answer.mp (fullPathMatches_in_root at_ 1 1)).shown
  · intro placed mount parsed maxBytes maxFolders tested mounted live
    by_cases top : ix.entries.parent ix.root = none
    · refine answers_right (fun e mem fp kept => ?_) (tested_new (compile parsed mount).mountPrefix (!parsed.matchCase)
        (compile parsed mount).pathFinders top maxBytes maxFolders)
      obtain ⟨there, notLost⟩ := live e mem
      obtain ⟨after, answer⟩ := kept.fullPathMatches ok top reachable.rootUnnamed rfl there notLost
      exact ⟨after, answer.trans (shown_passes_iff joins ok names top mounted there)⟩
    · have bare : Bare ix := ⟨top, placed.resolve_left top⟩
      refine answers_right (fun e mem fp kept => ?_) (pathless_new (compile parsed mount).mountPrefix (!parsed.matchCase)
        maxBytes maxFolders)
      obtain ⟨there, notLost⟩ := live e mem
      obtain ⟨after, answer⟩ := Pathless.fullPathMatches kept ok bare there notLost
      rw [answer]
      exact ⟨after, iff_of_false (by simp) fun held => pathOf_ne_ok ok top e held.shown⟩

theorem wellFormed_of_small (ok : ix.Integrity) {n : Nat} (small : ix.entries.capacity = n)
    (ascii : ∀ e < n, ∀ b ∈ ix.rawName e, b.toNat < 0x80) : NamesWellFormed ix :=
  fun e live => wellFormed_ascii (ascii e (small ▸ ok.slots.live_lt e live))

omit [Externals] in
def pathQuery : ParsedQuery := { anyQuery with pathTerms := [[0x61]] }

omit [Externals] in
/-- The folder `a` and the root, tested in turn. -/
theorem folderIndex_tested :
    letI := ascii
    NamesWellFormed folderIndex ∧ (folderIndex.pathOf 2 []).1 = .ok ∧
      Forall₂ (fun e answer => answer = true ↔ PathHeld folderIndex pathQuery [0x43, 0x3A, 0x5C] e) [2, 0, 2]
        (answers folderIndex pathQuery (compile pathQuery [0x43, 0x3A, 0x5C])
          (pathsFor folderIndex pathQuery [0x43, 0x3A, 0x5C] 1 1) [2, 0, 2]) := by
  let _ := ascii
  have ok := reachable_folderIndex.invariant.integrity
  have names : NamesWellFormed folderIndex := wellFormed_of_small ok rfl (by decide +kernel)
  refine ⟨names, by decide +kernel, ?_⟩
  apply (cached_path_tests_exact reachable_folderIndex foldJoins_ascii names).mpr (.inl rfl)
  · exact wellFormed_ascii (by decide +kernel)
  · show ∀ e ∈ [2, 0, 2], folderIndex.entries.isTombstone e = false ∧ e ≠ folderIndex.lostFound
    decide

omit [Externals] in
/-- With the root moved under lost+found, a folder in it is still taken to have a path. -/
theorem movedRootIndex_answered :
    letI := ascii
    Reachable ntfsRootFrn movedRootIndex ∧ NamesWellFormed movedRootIndex ∧
      movedRootIndex.entries.parent 2 = some movedRootIndex.root ∧
      movedRootIndex.Live 2 ∧ (movedRootIndex.pathOf 2 []).1 = .inLostFound ∧
      answers movedRootIndex anyQuery (compile anyQuery [])
        (pathsFor movedRootIndex anyQuery [] folderPathBytesMax foldersMax) [2] = [true] := by
  let _ := ascii
  have reachable : Reachable ntfsRootFrn movedRootIndex :=
    .step (.insertEnum { rootRecord with parentFrn := ⟨0x0001000000000007⟩ }) reachable_folderIndex trivial
  have at_ : movedRootIndex.entries.parent 2 = some movedRootIndex.root := by decide +kernel
  have live : movedRootIndex.entries.isTombstone 2 = false := by decide +kernel
  refine ⟨reachable, wellFormed_of_small reachable.invariant.integrity rfl (by decide +kernel), at_, live, by decide +kernel, ?_⟩
  rw [answers, answers, fullPathMatches_in_root at_]

end Goz.Query
