import Goz.Index.LinkSets
import Goz.Query.Resolve

namespace Goz

open Function VolumeIndex List

abbrev LinkPaths := List (List UInt16)

section Walks

variable {walk walks done next : Walks} {frns : List Frn} {frn : Frn}

end Walks

section Apply

def splitParent (path : Bytes) : Bytes × Bytes :=
  match path.reverse.findIdx? isSeparator with
  | some i => (path.take (path.length - 1 - i), path.drop (path.length - i))
  | none => ([], path)

def linkFolder (wide : List UInt16) : Bytes := (splitParent (Wtf8.fromUtf16 wide).1).1

/-- The name in the index. The flag is the negation of what the conversion reports. -/
def linkName (wide : List UInt16) : WtfName where
  bytes := (splitParent (Wtf8.fromUtf16 wide).1).2
  lossy := !(Wtf8.fromUtf16 wide).2

variable [Externals]

def linkTarget (ix : VolumeIndex) (wide : List UInt16) : Option LinkTarget :=
  (resolveScope ix (linkFolder wide) false).map fun parent => ⟨parent, linkName wide⟩

def applyLinkWalk (state : VolumeIndex × List Frn) (walked : Frn × LinkPaths) : VolumeIndex × List Frn :=
  match walked.2.mapM (linkTarget state.1) with
  | none => (state.1, state.2.insert walked.1)
  | some targets =>
    if targets.isEmpty then (state.1, state.2.insert walked.1) else (state.1.reconcileLinks walked.1 targets, state.2)

def applyLinkWalks (ix : VolumeIndex) (walked : List (Frn × LinkPaths)) : VolumeIndex × Nat :=
  let applied := walked.foldl applyLinkWalk (ix, [])
  (applied.1, applied.2.length)

/-- The links of a file cannot be placed in this index: there are none, or the folder of one is not indexed. -/
def Skipped (ix : VolumeIndex) (links : LinkPaths) : Prop :=
  links = [] ∨ ∃ wide ∈ links, resolveScope ix (linkFolder wide) false = none

instance (ix : VolumeIndex) (links : LinkPaths) : Decidable (Skipped ix links) :=
  inferInstanceAs (Decidable (_ ∨ _))

theorem mapM_linkTarget (ix : VolumeIndex) (links : LinkPaths) :
    match links.mapM (linkTarget ix) with
    | none => ∃ wide ∈ links, resolveScope ix (linkFolder wide) false = none
    | some targets => (∀ wide ∈ links, resolveScope ix (linkFolder wide) false ≠ none) ∧
        targets.map (·.name) = links.map linkName := by
  induction links with
  | nil => simp
  | cons wide rest ih =>
    rw [mapM_cons]
    cases resolved : resolveScope ix (linkFolder wide) false with
    | none => simp [linkTarget, resolved]
    | some parent =>
      cases later : rest.mapM (linkTarget ix) with
      | none =>
        rw [later] at ih
        simpa [linkTarget, resolved] using ih
      | some targets =>
        rw [later] at ih
        simpa [linkTarget, resolved] using ih

theorem applyLinkWalk_cases (ix : VolumeIndex) (left : List Frn) (frn : Frn) (links : LinkPaths) :
    Skipped ix links ∧ applyLinkWalk (ix, left) (frn, links) = (ix, left.insert frn) ∨
    ¬ Skipped ix links ∧ ∃ targets : List LinkTarget, targets ≠ [] ∧ targets.map (·.name) = links.map linkName ∧
      applyLinkWalk (ix, left) (frn, links) = (ix.reconcileLinks frn targets, left) := by
  have spec := mapM_linkTarget ix links
  unfold applyLinkWalk
  dsimp only
  cases found : links.mapM (linkTarget ix) with
  | none =>
    rw [found] at spec
    exact .inl ⟨.inr spec, rfl⟩
  | some targets =>
    rw [found] at spec
    obtain ⟨resolved, names⟩ := spec
    by_cases empty : targets = []
    · subst empty
      have none_ : links = [] := map_eq_nil_iff.mp names.symm
      exact .inl ⟨.inl none_, rfl⟩
    · refine .inr ⟨?_, targets, empty, names, ?_⟩
      · rintro (rfl | ⟨wide, mem, missing⟩)
        · exact empty (map_eq_nil_iff.mp names)
        · exact resolved wide mem missing
      · simp [empty]

variable {ix : VolumeIndex}

theorem applyLinkWalks_take {walked : List (Frn × LinkPaths)} {i : Nat} {frn : Frn} {links : LinkPaths}
    (here : walked[i]? = some (frn, links)) : ∃ left,
      (applyLinkWalks ix (walked.take (i + 1))).1 = (applyLinkWalk ((applyLinkWalks ix (walked.take i)).1, left) (frn, links)).1 := by
  refine ⟨((walked.take i).foldl applyLinkWalk (ix, [])).2, ?_⟩
  rw [applyLinkWalks, take_add_one, here, Option.toList_some, foldl_append]
  rfl

theorem invariant_applyLinkWalks (inv : ix.Invariant) (walked : List (Frn × LinkPaths)) :
    (applyLinkWalks ix walked).1.Invariant := by
  show (walked.foldl applyLinkWalk (ix, [])).1.Invariant
  generalize ([] : List Frn) = left
  induction walked generalizing ix left with
  | nil => exact inv
  | cons walk rest ih =>
    rw [foldl_cons]
    rcases applyLinkWalk_cases ix left walk.1 walk.2 with ⟨-, eq⟩ | ⟨-, targets, some_, -, eq⟩
    · rw [eq]
      exact ih inv _
    · rw [eq]
      exact ih (inv.names_reconcileLinks walk.1 some_).1 _

theorem mem_left_iff (ix : VolumeIndex) (walked : List (Frn × LinkPaths)) :
    let left := (walked.foldl applyLinkWalk (ix, [])).2
    left.Nodup ∧ ∀ frn, frn ∈ left ↔
      ∃ i links, walked[i]? = some (frn, links) ∧ Skipped (applyLinkWalks ix (walked.take i)).1 links := by
  intro left
  induction walked using reverseRecOn with
  | nil => exact ⟨nodup_nil, by simp [left]⟩
  | append_singleton front walk ih =>
    obtain ⟨distinct, mem⟩ := ih
    have last : ∀ frn, (∃ i links, (front ++ [walk])[i]? = some (frn, links) ∧
          Skipped (applyLinkWalks ix ((front ++ [walk]).take i)).1 links) ↔
        (∃ i links, front[i]? = some (frn, links) ∧ Skipped (applyLinkWalks ix (front.take i)).1 links) ∨
          walk.1 = frn ∧ Skipped (applyLinkWalks ix front).1 walk.2 := by
      intro frn
      constructor
      · rintro ⟨i, links, at_, skip⟩
        by_cases inside : i < front.length
        · rw [getElem?_append_left inside] at at_
          rw [take_append_of_le_length inside.le] at skip
          exact .inl ⟨i, links, at_, skip⟩
        · rw [getElem?_append_right (Nat.le_of_not_lt inside), getElem?_singleton] at at_
          split at at_
          case isFalse => cases at_
          case isTrue zero =>
            obtain rfl := Option.some.inj at_
            obtain rfl : i = front.length := by omega
            exact .inr ⟨rfl, by simpa using skip⟩
      · rintro (⟨i, links, at_, skip⟩ | ⟨rfl, skip⟩)
        · have inside := (List.getElem?_eq_some_iff.mp at_).1
          refine ⟨i, links, ?_, ?_⟩
          · rwa [getElem?_append_left inside]
          · rwa [take_append_of_le_length inside.le]
        · exact ⟨front.length, walk.2, by simp, by simpa using skip⟩
    simp only [left, foldl_append, foldl_cons, foldl_nil, last]
    rcases applyLinkWalk_cases (applyLinkWalks ix front).1 (front.foldl applyLinkWalk (ix, [])).2 walk.1 walk.2 with ⟨skip, eq⟩ | ⟨whole, targets, -, -, eq⟩
    · rw [show front.foldl applyLinkWalk (ix, []) = ((applyLinkWalks ix front).1, _) from rfl, eq]
      refine ⟨distinct.insert, fun frn => ?_⟩
      rw [mem_insert_iff, mem, or_comm, and_iff_left skip, eq_comm]
    · rw [show front.foldl applyLinkWalk (ix, []) = ((applyLinkWalks ix front).1, _) from rfl, eq]
      refine ⟨distinct, fun frn => ?_⟩
      simp only [whole, and_false, or_false]
      exact mem frn

/-- A partial link set is never applied: at each occurrence the file is left alone, or gets every link of its walk. -/
theorem partial_link_set_never_applied {rootFrn : Frn} (reachable : Reachable rootFrn ix) (walked : List (Frn × LinkPaths)) :
    (∀ i frn links, walked[i]? = some (frn, links) →
      let before := (applyLinkWalks ix (walked.take i)).1
      let after := (applyLinkWalks ix (walked.take (i + 1))).1
      (Skipped before links → after = before) ∧
      (¬ Skipped before links → (after.links frn).Nodup ∧
        (after.links frn).map after.rawName = links.map fun wide => (linkName wide).bytes)) ∧
    ∃ skipped : List Frn, skipped.Nodup ∧ (applyLinkWalks ix walked).2 = skipped.length ∧
      ∀ frn, frn ∈ skipped ↔
        ∃ i links, walked[i]? = some (frn, links) ∧ Skipped (applyLinkWalks ix (walked.take i)).1 links := by
  constructor
  · intro i frn links here before after
    obtain ⟨left, turn⟩ : ∃ left, after = (applyLinkWalk (before, left) (frn, links)).1 := applyLinkWalks_take here
    rcases applyLinkWalk_cases before left frn links with ⟨skip, eq⟩ | ⟨whole, targets, some_, names, eq⟩
    · rw [eq] at turn
      exact ⟨fun _ => turn, absurd skip⟩
    · rw [eq] at turn
      refine ⟨fun skip => absurd skip whole, fun _ => ?_⟩
      have inv : before.Invariant := invariant_applyLinkWalks reachable.invariant _
      obtain ⟨-, named, distinct⟩ := inv.names_reconcileLinks frn some_
      have bytes : targets.map (·.name.bytes) = links.map fun wide => (linkName wide).bytes := by
        have both := congrArg (List.map WtfName.bytes) names
        rwa [map_map, map_map] at both
      rw [turn]
      exact ⟨distinct, named.trans bytes⟩
  · obtain ⟨distinct, mem⟩ := mem_left_iff ix walked
    exact ⟨_, distinct, rfl, mem⟩

end Apply

/-- A walk that finds `a\z` is applied; one that also finds `b\z`, whose folder is not indexed, leaves `a\z` as it is. -/
theorem folderIndex_walks :
    letI := Externals.ascii
    let walked : List (Frn × LinkPaths) := [(twoNames, [[0x61, 0x5C, 0x7A]]), (twoNames, [[0x61, 0x5C, 0x7A], [0x62, 0x5C, 0x7A]])]
    (applyLinkWalks folderIndex walked).2 = 1 ∧
      (applyLinkWalks folderIndex walked).1 = (applyLinkWalks folderIndex (walked.take 1)).1 ∧
      ((applyLinkWalks folderIndex (walked.take 1)).1.links twoNames).map
        (applyLinkWalks folderIndex (walked.take 1)).1.rawName = [[0x7A]] := by
  let _ := Externals.ascii
  intro walked
  obtain ⟨whole, -⟩ := partial_link_set_never_applied reachable_folderIndex walked
  exact ⟨by decide, (whole 1 _ _ rfl).1 (by decide), ((whole 0 _ _ rfl).2 (by decide)).2⟩

end Goz
