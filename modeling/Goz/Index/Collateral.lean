import Goz.Index.LinkSets

namespace Goz

open Function Intrusive List Rows

variable {evicts : Frn → Prop} {drops : EntryIdx → Prop} {frn : Frn}

namespace VolumeIndex

variable [Externals] {e parent : EntryIdx} {both : Frn → Prop}

section Spares

variable {ix ix' ix'' : VolumeIndex} {subject : Frn} {evicts' : Frn → Prop} {drops' : EntryIdx → Prop}

/-- The entry is removed: its file is evicted, or it is a link of the subject that is dropped. Lost+found never is. -/
def Taken (ix : VolumeIndex) (subject : Frn) (evicts : Frn → Prop) (drops : EntryIdx → Prop) (e : EntryIdx) : Prop :=
  e ≠ ix.lostFound ∧ (evicts (ix.entries.frn e) ∨ ix.entries.frn e = subject ∧ drops e)

/-- The entry stays in its folder, or moves to lost+found when the folder is removed. -/
structure Follows (ix : VolumeIndex) (taken : EntryIdx → Prop) (ix' : VolumeIndex) (e : EntryIdx) : Prop where
  top : ix.entries.parent e = none → ix'.entries.parent e = none
  stays : ∀ p, ix.entries.parent e = some p → ¬ taken p → ix'.entries.parent e = some p
  orphaned : ∀ p, ix.entries.parent e = some p → taken p → ix'.entries.parent e = some ix.lostFound

/-- What an operation on `subject` leaves of the other files: one that is not evicted is as it was, and one that is
    has at most a new placeholder. -/
structure Spares (subject : Frn) (evicts : Frn → Prop) (drops : EntryIdx → Prop) (ix ix' : VolumeIndex) : Prop where
  lost : ix'.lostFound = ix.lostFound
  alive : ∀ e, ix.Live e → ¬ Taken ix subject evicts drops e → ix'.Live e ∧ ix'.entries.frn e = ix.entries.frn e
  kept : ∀ e, ix.Live e → ix.entries.frn e ≠ subject → ¬ Taken ix subject evicts drops e →
    SameEntry ix ix' e ∧ Follows ix (Taken ix subject evicts drops) ix' e
  born : ∀ e, ix'.Live e → e ≠ ix'.lostFound → ix'.entries.frn e ≠ subject →
    ix.Live e ∧ ¬ Taken ix subject evicts drops e ∨ ix'.row e = placeholder

omit [Externals] in
theorem not_taken_lostFound (ix : VolumeIndex) : ¬ Taken ix subject evicts drops ix.lostFound := fun taken => taken.1 rfl

omit [Externals] in
theorem row_placeholder_iff : ix.row e = placeholder ↔ ix.entries.parent e = some ix.lostFound ∧
    ix.rawName e = placeholderName ∧ ix.entries.flags e = { dir := true, placeholder := true } ∧
    ix.entries.size e = sizeUnknown ∧ ix.entries.mtime e = mtimeUnknown := by
  have ref : ix.parentRef e = .lostFound ↔ ix.entries.parent e = some ix.lostFound := by
    unfold parentRef
    cases ix.entries.parent e with
    | none => simp
    | some p => by_cases same : p = ix.lostFound <;> simp [same]
  rw [← ref]
  simp [row, placeholder]

omit [Externals] in
theorem Spares.refl (ix : VolumeIndex) : Spares subject (fun _ => False) (fun _ => False) ix ix where
  lost := rfl
  alive := fun _ live _ => ⟨live, rfl⟩
  kept := fun _ _ _ _ => ⟨⟨rfl, rfl, rfl, rfl, rfl, rfl, rfl⟩, id, fun _ at_ _ => at_, fun _ _ taken => by simp [Taken] at taken⟩
  born := fun _ live _ _ => .inl ⟨live, by simp [Taken]⟩

theorem Spares.congr (spares : Spares subject evicts drops ix ix') (ok : ix.Integrity)
    (same : ∀ e, ix.Live e → (Taken ix subject evicts' drops' e ↔ Taken ix subject evicts drops e)) :
    Spares subject evicts' drops' ix ix' := by
  constructor
  · exact spares.lost
  · intro e live out
    exact spares.alive e live fun taken => out ((same e live).mpr taken)
  · intro e live other out
    obtain ⟨kept, follows⟩ := spares.kept e live other fun taken => out ((same e live).mpr taken)
    refine ⟨kept, follows.top, fun p at_ spared => ?_, fun p at_ taken => ?_⟩
    · exact follows.stays p at_ fun taken => spared ((same p (ok.parent_live e p live at_)).mpr taken)
    · exact follows.orphaned p at_ ((same p (ok.parent_live e p live at_)).mp taken)
  · intro e live notLost other
    exact (spares.born e live notLost other).imp_left fun ⟨before, out⟩ =>
      ⟨before, fun taken => out ((same e before).mp taken)⟩

omit [Externals] in
theorem Spares.taken_iff (first : Spares subject evicts drops ix ix') (live : ix.Live e)
    (out : ¬ Taken ix subject evicts drops e) : Taken ix' subject evicts' drops' e ↔ Taken ix subject evicts' drops' e := by
  rw [Taken, Taken, first.lost, (first.alive e live out).2]

omit [Externals] in
theorem taken_or :
    Taken ix subject (fun g => evicts g ∨ evicts' g) (fun x => drops x ∨ drops' x) e ↔
      Taken ix subject evicts drops e ∨ Taken ix subject evicts' drops' e := by
  unfold Taken
  grind

theorem Spares.trans (ok : ix.Integrity) (first : Spares subject evicts drops ix ix')
    (second : Spares subject evicts' drops' ix' ix'') :
    Spares subject (fun g => evicts g ∨ evicts' g) (fun e => drops e ∨ drops' e) ix ix'' := by
  have split : ∀ e, ix.Live e → ¬ Taken ix subject (fun g => evicts g ∨ evicts' g) (fun x => drops x ∨ drops' x) e →
      ¬ Taken ix subject evicts drops e ∧ ix'.Live e ∧ ix'.entries.frn e = ix.entries.frn e ∧
        ¬ Taken ix' subject evicts' drops' e := by
    intro e live out
    rw [taken_or, not_or] at out
    obtain ⟨live', frnSame⟩ := first.alive e live out.1
    exact ⟨out.1, live', frnSame, fun taken => out.2 ((first.taken_iff live out.1).mp taken)⟩
  constructor
  · exact second.lost.trans first.lost
  · intro e live out
    obtain ⟨-, live', frnSame, out'⟩ := split e live out
    obtain ⟨live'', frnSame'⟩ := second.alive e live' out'
    exact ⟨live'', frnSame'.trans frnSame⟩
  · intro e live other out
    obtain ⟨out₁, live', frnSame, out₂⟩ := split e live out
    obtain ⟨same, follows⟩ := first.kept e live other out₁
    obtain ⟨same', follows'⟩ := second.kept e live' (frnSame ▸ other) out₂
    refine ⟨same.trans same', fun top => follows'.top (follows.top top), fun p at_ spared => ?_, fun p at_ taken => ?_⟩
    · obtain ⟨outP, -, -, outP'⟩ := split p (ok.parent_live e p live at_) spared
      exact follows'.stays p (follows.stays p at_ outP) outP'
    · by_cases early : Taken ix subject evicts drops p
      · have moved := follows.orphaned p at_ early
        rw [← first.lost] at moved ⊢
        exact follows'.stays _ moved (not_taken_lostFound ix')
      · have late := (taken_or.mp taken).resolve_left early
        rw [← first.taken_iff (ok.parent_live e p live at_) early] at late
        rw [← first.lost]
        exact follows'.orphaned p (follows.stays p at_ early) late
  · intro e live'' notLost other
    rcases second.born e live'' notLost other with ⟨live', out'⟩ | fresh
    · have frnSame' := (second.alive e live' out').2
      rw [second.lost] at notLost
      rw [frnSame'] at other
      rcases first.born e live' notLost other with ⟨live, out⟩ | fresh
      · left
        rw [first.taken_iff live out] at out'
        exact ⟨live, fun taken => (taken_or.mp taken).elim out out'⟩
      · right
        obtain ⟨same, follows⟩ := second.kept e live' other out'
        obtain ⟨parent, name, flags, size, mtime⟩ := row_placeholder_iff.mp fresh
        refine row_placeholder_iff.mpr ⟨?_, same.rawName.trans name, same.flags.trans flags, same.size.trans size,
          same.mtime.trans mtime⟩
        rw [second.lost]
        exact follows.stays _ parent (not_taken_lostFound ix')
    · exact .inr fresh

omit [Externals] in
theorem Spares.reads (spares : Spares subject evicts drops ix ix') (entries : ix''.entries = ix'.entries)
    (names : ix''.names = ix'.names) (lost : ix''.lostFound = ix'.lostFound) : Spares subject evicts drops ix ix'' := by
  have raw : ix''.rawName = ix'.rawName := by
    funext e
    rw [rawName, rawName, entries, names]
  have folded : ix''.foldedName = ix'.foldedName := by
    funext e
    rw [foldedName, foldedName, entries, names]
  constructor
  · exact lost.trans spares.lost
  · intro e live out
    rw [VolumeIndex.Live, entries]
    exact spares.alive e live out
  · intro e live other out
    obtain ⟨same, follows⟩ := spares.kept e live other out
    refine ⟨⟨?_, ?_, ?_, ?_, ?_, ?_, ?_⟩, ?_, ?_, ?_⟩
    · exact entries ▸ same.frn
    · exact entries ▸ same.flags
    · exact entries ▸ same.size
    · exact entries ▸ same.mtime
    · exact entries ▸ same.nextLink
    · exact raw ▸ same.rawName
    · exact folded ▸ same.foldedName
    · exact entries ▸ follows.top
    · exact entries ▸ follows.stays
    · exact entries ▸ follows.orphaned
  · intro e live notLost other
    rw [VolumeIndex.Live, entries] at live
    rw [entries] at other
    rw [lost] at notLost
    refine (spares.born e live notLost other).imp_right fun fresh => ?_
    rw [row_placeholder_iff] at fresh ⊢
    rw [entries, raw, lost]
    exact fresh

end Spares

section Writes

variable {ix ix' : VolumeIndex} {subject : Frn} {gone : List EntryIdx} {idx : EntryIdx} {name : Bytes}

theorem Swept.spares (swept : Swept ix gone ix') (ok : ix.Integrity)
    (taken : ∀ e, ix.Live e → (e ∈ gone ↔ Taken ix subject evicts drops e)) : Spares subject evicts drops ix ix' := by
  have alive : ∀ e, ix.Live e → ¬ Taken ix subject evicts drops e → ix'.Live e := fun e live out =>
    (swept.live e).mpr ⟨live, fun inside => out ((taken e live).mp inside)⟩
  constructor
  · exact swept.lost
  · exact fun e live out => ⟨alive e live out, (swept.same e (alive e live out)).frn⟩
  · intro e live _ out
    have still := alive e live out
    have parents := swept.parents e still
    refine ⟨swept.same e still, fun top => by simpa [top] using parents, fun p at_ spared => ?_, fun p at_ moved => ?_⟩
    · rw [← taken p (ok.parent_live e p live at_)] at spared
      simpa [at_, spared] using parents
    · rw [← taken p (ok.parent_live e p live at_)] at moved
      simpa [at_, moved] using parents
  · intro e still _ _
    obtain ⟨live, out⟩ := (swept.live e).mp still
    exact .inl ⟨live, fun moved => out ((taken e live).mpr moved)⟩

theorem Added.spares {flags : EntryFlags} {size : UInt64} {mtime : Int64}
    (added : Added ix frn parent name flags size mtime ix' idx) (own : frn = subject ∨ ix'.row idx = placeholder) :
    Spares subject (fun _ => False) (fun _ => False) ix ix' := by
  constructor
  · exact added.frame.lostFound
  · exact fun e live _ => ⟨(added.live e).mpr (.inl live), (added.same e live).frn⟩
  · intro e live _ _
    refine ⟨added.same e live, (added.parents e live).trans, fun p at_ _ => (added.parents e live).trans at_, ?_⟩
    exact fun p _ taken => by simp [Taken] at taken
  · intro e live _ other
    rcases (added.live e).mp live with live | rfl
    · exact .inl ⟨live, by simp [Taken]⟩
    · exact .inr (own.resolve_left fun same => other (added.entry.frn.trans same))

theorem Rewritten.spares {nameLossy isDir : Bool}
    (rewritten : Rewritten ix idx parent name nameLossy isDir ix') :
    Spares (ix.entries.frn idx) (fun _ => False) (fun _ => False) ix ix' := by
  constructor
  · exact rewritten.frame.lostFound
  · exact fun e live _ => ⟨(rewritten.live e).mpr live, (rewritten.frn_next live).1⟩
  · intro e live other _
    have away : e ≠ idx := fun same => other (by rw [same])
    have parents := rewritten.parents e live away
    exact ⟨rewritten.same e live away, parents.trans, fun p at_ _ => parents.trans at_, fun p _ taken => by simp [Taken] at taken⟩
  · exact fun e live _ _ => .inl ⟨(rewritten.live e).mp live, by simp [Taken]⟩

theorem Invariant.spares_reclaimStale (inv : ix.Invariant) (subject frn : Frn) :
    Spares subject frn.Stale (fun _ => False) ix (ix.reclaimStale frn) := by
  obtain ⟨gone, isStale, swept⟩ := inv.swept_reclaimStale frn
  refine swept.spares inv.integrity fun e live => ?_
  rw [isStale, OldTenant, Taken]
  simp [live]

theorem Invariant.spares_deleteFrn (inv : ix.Invariant) (frn : Frn) :
    Spares frn (fun _ => False) (fun _ => True) ix (ix.deleteFrn frn).1 := by
  obtain ⟨chains, tenants⟩ := inv.tenants
  refine (inv.swept_deleteFrn frn).1.spares inv.integrity fun e live => ?_
  rw [tenants.mem_links inv.integrity, Taken]
  simp [live]

theorem Spares.next {ix'' : VolumeIndex} {evicts' : Frn → Prop} (ok : ix.Integrity)
    (first : Spares subject evicts (fun _ => False) ix ix') (second : Spares subject evicts' (fun _ => False) ix' ix'')
    (same : ∀ g, both g ↔ evicts g ∨ evicts' g) : Spares subject both (fun _ => False) ix ix'' :=
  (first.trans ok second).congr ok fun e _ => by simp [Taken, same]

variable (inv : ix.Invariant)
include inv

theorem Invariant.not_stale (present : ix.Present frn) (live : ix.Live e)
    (notLost : e ≠ ix.lostFound) : ¬ frn.Stale (ix.entries.frn e) := fun stale =>
  stale.1 (inv.sound.tenant _ _ (inv.present_iff.mp ⟨e, live, notLost, rfl⟩) (inv.present_iff.mp present) stale.2)

theorem Invariant.spares_resolveOrPlaceholderParent (subject frn : Frn) :
    Spares subject frn.Stale (fun _ => False) ix (ix.resolveOrPlaceholderParent frn).1 := by
  unfold VolumeIndex.resolveOrPlaceholderParent
  split
  case h_1 idx found =>
    have present : ix.Present frn := inv.present_iff.mpr fun absent => by
      simp [inv.headOf_none_iff.mpr absent] at found
    refine (Spares.refl ix).congr inv.integrity fun e live => ?_
    simp only [Taken, and_false, or_self, iff_false, not_and, or_false]
    exact fun notLost => inv.not_stale present live notLost
  case h_2 missing =>
    have inv' := (inv.reclaimStale frn).invariant inv
    have reclaimed := inv.spares_reclaimStale subject frn
    obtain ⟨-, added⟩ := inv'.integrity.newPlaceholder frn
    set r := ix.reclaimStale frn
    set new := r.newEntry frn r.lostFound placeholderName { dir := true, placeholder := true } sizeUnknown mtimeUnknown
    have row : new.1.row new.2 = placeholder := row_placeholder_iff.mpr
      ⟨added.entry.parent.trans (congrArg some added.frame.lostFound.symm), added.entry.rawName, added.entry.flags,
        added.entry.size, added.entry.mtime⟩
    exact (reclaimed.next inv.integrity (added.spares (.inr row)) fun g => by simp).reads rfl rfl rfl

theorem Invariant.spares_resolveLinkParent (subject frn parentFrn : Frn) :
    Spares subject (Rows.ParentTouches frn parentFrn) (fun _ => False) ix (ix.resolveLinkParent frn parentFrn).1 := by
  unfold VolumeIndex.resolveLinkParent
  by_cases stale : frn.Stale parentFrn
  · rw [if_pos stale]
    exact (Spares.refl ix).congr inv.integrity fun e _ => by simp [Taken, Rows.ParentTouches, stale]
  · rw [if_neg stale]
    exact (inv.spares_resolveOrPlaceholderParent subject parentFrn).congr inv.integrity fun e _ => by
      simp [Taken, Rows.ParentTouches, stale]

theorem Invariant.spares_upsertLink (frn parentFrn : Frn) (name : Bytes) (nameLossy isDir : Bool) :
    Spares frn (fun g => frn.Stale g ∨ Rows.ParentTouches frn parentFrn g) (fun _ => False) ix
      (ix.upsertLink frn parentFrn name nameLossy isDir).1 := by
  have reclaimed := inv.reclaimStale frn
  have inv₁ := reclaimed.invariant inv
  have resolved := inv₁.resolveLinkParent frn parentFrn
  have inv₂ := resolved.does.invariant inv₁
  have both := (inv.spares_reclaimStale frn frn).next inv.integrity (inv₁.spares_resolveLinkParent frn frn parentFrn) fun _ => Iff.rfl
  have clean : ∀ g, frn.Stale g → ((ix.reclaimStale frn).resolveLinkParent frn parentFrn).1.rows g = [] := fun g stale => by
    rw [resolved.does.rows, reclaimed.rows]
    exact rows_resolve_stale ix.rows stale
  unfold VolumeIndex.upsertLink
  simp only
  set mid := (ix.reclaimStale frn).resolveLinkParent frn parentFrn
  split
  case h_1 head first =>
    split
    case isTrue =>
      obtain ⟨present, record, live, notLost⟩ := inv₂.rows_of_mapped first
      have own : mid.1.entries.frn head = frn := by
        by_contra other
        exact present (clean _ ⟨other, record⟩)
      have rewritten := (inv₂.integrity.rewriteEntry live notLost resolved.live name nameLossy isDir).spares
      rw [own] at rewritten
      exact both.next inv.integrity rewritten fun g => by simp
    case isFalse => exact both
  case h_2 =>
    have added := inv₂.integrity.newEntry frn name { dir := isDir, nonUnicodeName := nameLossy } sizeUnknown mtimeUnknown
      resolved.live rfl
    refine (both.next inv.integrity (added.spares (.inl rfl)) fun g => by simp).reads ?_ ?_ ?_
    · simp [dirIndexInsert]
    · simp [dirIndexInsert]
    · simp [dirIndexInsert]

end Writes

section Links

variable {ix : VolumeIndex} (inv : ix.Invariant)
include inv

theorem Invariant.spares_finished (frn : Frn) (isDir : Bool) (desired : List LinkTarget) (head : EntryIdx) :
    Spares frn (fun _ => False) (· ∈ (ix.matching frn isDir desired).unused) (ix.reclaimStale frn)
      ((ix.matching frn isDir desired).finished frn head) := by
  have ok := ((inv.reclaimStale frn).invariant inv).integrity
  have matched := inv.matched frn isDir desired
  have fitted := inv.fitted frn isDir desired
  set base := ix.reclaimStale frn
  set m := ix.matching frn isDir desired
  have removed := matched.removed ok
  have taken_iff : ∀ e, base.Live e → (Taken base frn (fun _ => False) (· ∈ m.unused) e ↔ e ∈ m.unused) := by
    intro e live
    simp only [Taken, false_or]
    refine ⟨fun taken => taken.2.2, fun inside => ⟨?_, ?_, inside⟩⟩
    · exact matched.lost ▸ (matched.unused_live e inside).2
    · exact (matched.same e live).2.1.symm.trans (matched.frns e (mem_append_right _ inside))
  have still : ∀ e, base.Live e → e ∉ m.unused → m.cleared.Live e := fun e live out =>
    (removed.live e).mpr ⟨(matched.same e live).1, out⟩
  constructor
  · exact removed.frame.lostFound.trans matched.lost
  · intro e live out
    rw [taken_iff e live] at out
    exact ⟨still e live out, (removed.same e (still e live out)).frn.trans (matched.same e live).2.1⟩
  · intro e live other out
    rw [taken_iff e live] at out
    have alive := still e live out
    obtain ⟨same, parent⟩ := fitted.same e live
    have whole := same.trans (removed.same e alive)
    have notKept : e ∉ m.kept := fun kept => other (same.frn.symm.trans (matched.frns e (mem_append_left _ kept)))
    have parents := removed.swept.parents e alive
    rw [parent] at parents
    refine ⟨{ whole with nextLink := ?_ }, ?_, ?_, ?_⟩
    · exact (relink_of_not_mem notKept).trans whole.nextLink
    · intro top
      rw [top] at parents
      exact parents
    · intro p at_ spared
      rw [taken_iff p (ok.parent_live e p live at_)] at spared
      rw [at_, Option.map_some, if_neg spared] at parents
      exact parents
    · intro p at_ moved
      rw [taken_iff p (ok.parent_live e p live at_)] at moved
      rw [at_, Option.map_some, if_pos moved, matched.lost] at parents
      exact parents
  · intro e alive _ other
    obtain ⟨live, out⟩ := (removed.live e).mp alive
    refine .inl ?_
    rcases matched.old e live with before | kept
    · exact ⟨before, fun taken => out ((taken_iff e before).mp taken)⟩
    · exact absurd (matched.kept_live ok e kept).2 other

theorem Invariant.spares_setChainLinks (frn : Frn) (isDir : Bool) {desired : List LinkTarget}
    (some_ : desired ≠ []) : Spares frn frn.Stale (· ∉ (ix.setChainLinks frn isDir desired).links frn) ix
      (ix.setChainLinks frn isDir desired) := by
  have ok := ((inv.reclaimStale frn).invariant inv).integrity
  obtain ⟨chains, tenants⟩ := inv.tenants
  obtain ⟨head, first, same⟩ := ix.setChainLinks_eq frn isDir some_
  have chain := (inv.matched frn isDir desired).links_finished ok first
  rw [same, chain]
  refine ((inv.spares_reclaimStale frn frn).trans inv.integrity (inv.spares_finished frn isDir desired head)).congr
    inv.integrity fun e live => ?_
  simp only [Taken, or_false, false_or]
  refine and_congr_right fun notLost => or_congr_right (and_congr_right fun own => ?_)
  rw [inv.mem_unused, tenants.mem_links inv.integrity, and_iff_right (show _ ∧ _ ∧ _ from ⟨live, notLost, own⟩)]

theorem Invariant.spares_addLink (present : ix.Present frn) (parentLive : ix.Live parent)
    (name : Bytes) (nameLossy : Bool) :
    Spares frn (fun _ => False) (fun _ => False) ix (ix.addLink frn parent name nameLossy) := by
  obtain ⟨chains, tenants⟩ := inv.tenants
  obtain ⟨added, -⟩ := inv.integrity.newEntry_name frn parentLive name nameLossy
  obtain ⟨front, tail, split, same⟩ := inv.addLink_eq present parentLive name nameLossy
  rw [same]
  have own : ix.entries.frn tail = frn := ((tenants.mem_links inv.integrity).mp (by simp [split])).2.2
  have spares : Spares frn _ _ ix _ := added.spares (.inl rfl)
  obtain ⟨lost, alive, kept, born⟩ := spares
  refine ⟨lost, alive, fun e live other out => ?_, fun e live notLost other => ?_⟩
  · obtain ⟨same, follows⟩ := kept e live other out
    have away : e ≠ tail := fun same => other (same ▸ own)
    exact ⟨{ same with nextLink := (update_of_ne away _ _).trans same.nextLink }, { follows with }⟩
  · exact (born e live notLost other).imp_right fun fresh => row_placeholder_iff.mpr (row_placeholder_iff.mp fresh)

theorem Invariant.spares_setLinkStat (frn : Frn) (size : Option UInt64) (mtime : Option Int64) :
    Spares frn (fun _ => False) (fun _ => False) ix (ix.setLinkStat frn size mtime) := by
  obtain ⟨chains, tenants⟩ := inv.tenants
  refine ⟨rfl, fun e live _ => ⟨live, rfl⟩, fun e live other _ => ?_, fun e live _ _ => .inl ⟨live, by simp [Taken]⟩⟩
  have out : e ∉ ix.links frn := fun inside => other ((tenants.mem_links inv.integrity).mp inside).2.2
  refine ⟨⟨rfl, rfl, if_neg out, if_neg out, rfl, rfl, rfl⟩, id, fun _ at_ _ => at_, fun _ _ taken => by simp [Taken] at taken⟩

theorem Invariant.spares_addMissingLink (present : ix.Present frn) (n : LayoutName) :
    Spares frn (Rows.ParentTouches frn n.parentFrn) (fun _ => False) ix (VolumeIndex.addMissingLink frn ix n) := by
  have resolved := inv.resolveLinkParent frn n.parentFrn
  have spares := inv.spares_resolveLinkParent frn frn n.parentFrn
  unfold VolumeIndex.addMissingLink
  simp only
  split
  · exact spares
  · exact spares.next inv.integrity ((resolved.does.invariant inv).spares_addLink (inv.resolve_present n.parentFrn present)
      resolved.live n.name n.nameLossy) fun g => by simp

theorem Invariant.spares_addMissingLinks (present : ix.Present frn) (names : List LayoutName) :
    Spares frn (ParentsTouch frn names) (fun _ => False) ix (names.foldl (VolumeIndex.addMissingLink frn) ix) := by
  induction names generalizing ix with
  | nil => exact (Spares.refl ix).congr inv.integrity fun e _ => by simp [Taken, ParentsTouch]
  | cons n rest ih =>
    obtain ⟨runs, present'⟩ := inv.addMissingLink present n
    exact (inv.spares_addMissingLink present n).next inv.integrity (ih (runs.invariant inv) present') fun g => by
      simp [ParentsTouch]

theorem Invariant.spares_resolveTargets (frn : Frn) (names : List LayoutName) :
    Spares frn (ParentsTouch frn names) (fun _ => False) ix (VolumeIndex.resolveTargets frn names ix).1 := by
  induction names generalizing ix with
  | nil => exact (Spares.refl ix).congr inv.integrity fun e _ => by simp [Taken, ParentsTouch]
  | cons n rest ih =>
    have inv' := (inv.resolveLinkParent frn n.parentFrn).does.invariant inv
    exact (inv.spares_resolveLinkParent frn frn n.parentFrn).next inv.integrity (ih inv') fun g => by simp [ParentsTouch]

omit inv

/-- The other files enriching removes: for a file unknown so far the old tenant of its record number, and old tenants of
    its parents'. A known folder's names are not read. -/
def EnrichEvicts (ix : VolumeIndex) (file : LayoutFile) (g : Frn) : Prop :=
  (¬ ix.Present file.frn ∧ longNames file ≠ [] ∧ file.frn.Stale g) ∨
    ((¬ ix.Present file.frn ∨ file.isDir = false) ∧ ParentsTouch file.frn (longNames file) g)

theorem Invariant.spares_enriched (inv : ix.Invariant) {known : VolumeIndex} {file : LayoutFile} {evicts : Frn → Prop}
    (spares : Spares file.frn evicts (fun _ => False) ix known) (inv' : known.Invariant) (present : known.Present file.frn)
    (same : ∀ g, both g ↔ evicts g ∨ file.isDir = false ∧ ParentsTouch file.frn (longNames file) g) (size : Option UInt64)
    (mtime : Option Int64) : Spares file.frn both (fun _ => False) ix
      ((if file.isDir then known else (longNames file).foldl (VolumeIndex.addMissingLink file.frn) known).setLinkStat
        file.frn size mtime) := by
  split
  case isTrue folder => exact spares.next inv.integrity (inv'.spares_setLinkStat file.frn _ _) fun g => by simp [same, folder]
  case isFalse plain =>
    have linked := inv'.spares_addMissingLinks present (longNames file)
    have inv'' := (inv'.addMissingLinks present (longNames file)).invariant inv'
    have more : Spares file.frn (ParentsTouch file.frn (longNames file)) (fun _ => False) known _ :=
      linked.next inv'.integrity (inv''.spares_setLinkStat file.frn size mtime) fun g => by simp
    exact spares.next inv.integrity more fun g => by simp [same, plain]

theorem Invariant.spares_enrich (inv : ix.Invariant) (file : LayoutFile) :
    Spares file.frn (EnrichEvicts ix file) (fun _ => False) ix (ix.enrich file) := by
  have known_iff : (ix.headOf file.frn).isNone = false ↔ ix.Present file.frn := by
    rw [inv.present_iff, Ne, ← inv.headOf_none_iff]
    cases ix.headOf file.frn <;> simp
  unfold VolumeIndex.enrich
  simp only
  change Spares _ _ _ _ (if ((ix.headOf file.frn).isNone && (longNames file).isEmpty) = true then _ else _)
  by_cases present : ix.Present file.frn
  · have found := known_iff.mpr present
    simp only [found, Bool.false_and, Bool.false_eq_true, if_false]
    exact inv.spares_enriched (Spares.refl ix) inv present (fun g => by simp [EnrichEvicts, present]) _ _
  · have missing : (ix.headOf file.frn).isNone = true := by
      rw [← Bool.not_eq_false, known_iff]
      exact present
    by_cases empty : longNames file = []
    · simp only [missing, empty, List.isEmpty_nil, Bool.and_self, if_true]
      exact (Spares.refl ix).congr inv.integrity fun e _ => by simp [Taken, EnrichEvicts, empty, ParentsTouch]
    · simp only [missing, Bool.true_and, List.isEmpty_iff, empty, if_false, if_true]
      obtain ⟨resolved, length⟩ := inv.resolveTargets file.frn (longNames file)
      have inv₁ := resolved.invariant inv
      have some_ : (VolumeIndex.resolveTargets file.frn (longNames file) ix).2 ≠ [] := fun none_ => by
        rw [none_] at length
        exact empty (List.eq_nil_of_length_eq_zero length.symm)
      obtain ⟨set, present'⟩ := inv₁.setChainLinks file.frn file.isDir some_
      -- the file was not in the index, so no entry of it is dropped
      have known : Spares file.frn (EnrichEvicts ix file) (fun _ => False) ix _ :=
        ((inv.spares_resolveTargets file.frn (longNames file)).trans inv.integrity
          (inv₁.spares_setChainLinks file.frn file.isDir some_)).congr inv.integrity fun e live => by
            simp only [Taken, EnrichEvicts]
            refine and_congr_right fun notLost => ?_
            have other : ix.entries.frn e ≠ file.frn := fun own => present ⟨e, live, notLost, own⟩
            simp [other, present, empty, or_comm]
      refine inv.spares_enriched known (set.invariant inv₁) present' (fun g => ?_) _ _
      simp only [EnrichEvicts, present, not_false_eq_true, true_and, true_or]
      tauto

def LayoutEvicts (ix : VolumeIndex) (file : LayoutFile) (g : Frn) : Prop :=
  match layoutName file with
  | none => EnrichEvicts ix file g
  | some n => (file.frn.Stale g ∨ Rows.ParentTouches file.frn n.parentFrn g) ∨
      file.isDir = false ∧ ParentsTouch file.frn (longNames file) g

theorem Invariant.spares_insertLayout (inv : ix.Invariant) (file : LayoutFile) :
    Spares file.frn (LayoutEvicts ix file) (fun _ => False) ix (ix.insertLayout file) := by
  unfold VolumeIndex.insertLayout LayoutEvicts
  cases layoutName file with
  | none => exact inv.spares_enrich file
  | some n =>
    have upserted := inv.upsertLink file.frn n.parentFrn n.name n.nameLossy file.isDir
    have present := inv.upsert_present file.frn n.parentFrn n.name n.nameLossy file.isDir
    refine (inv.spares_upsertLink file.frn n.parentFrn n.name n.nameLossy file.isDir).next inv.integrity
      ((upserted.invariant inv).spares_enrich file) fun g => ?_
    simp [EnrichEvicts, present]

end Links

inductive Change
  | upsert (frn parentFrn : Frn) (name : Bytes) (nameLossy isDir : Bool)
  | delete (frn : Frn)
  | layout (file : LayoutFile)
  | reconcile (frn : Frn) (actual : List LinkTarget)

namespace Change

def run (ix : VolumeIndex) : Change → VolumeIndex
  | .upsert frn parentFrn name nameLossy isDir => (ix.upsertLink frn parentFrn name nameLossy isDir).1
  | .delete frn => (ix.deleteFrn frn).1
  | .layout file => ix.insertLayout file
  | .reconcile frn actual => ix.reconcileLinks frn actual

def subject : Change → Frn
  | .upsert frn .. | .delete frn | .reconcile frn _ => frn
  | .layout file => file.frn

/-- The FRNs the operation names as parents. A link walk names its folders by their slots. -/
def parents : Change → List Frn
  | .upsert _ parentFrn .. => [parentFrn]
  | .layout file => (longNames file).map (·.parentFrn)
  | .delete _ | .reconcile .. => []

def Evicts (ix : VolumeIndex) : Change → Frn → Prop
  | .upsert frn parentFrn .., g => frn.Stale g ∨ Rows.ParentTouches frn parentFrn g
  | .delete _, _ => False
  | .layout file, g => LayoutEvicts ix file g
  | .reconcile frn actual, g => actual ≠ [] ∧ frn.Stale g

def Removes (ix : VolumeIndex) (change : Change) (e : EntryIdx) : Prop :=
  Taken ix change.subject (change.Evicts ix) (· ∉ (change.run ix).links change.subject) e

theorem invariant {ix : VolumeIndex} (inv : ix.Invariant) (change : Change) : (change.run ix).Invariant := by
  cases change with
  | upsert frn parentFrn name nameLossy isDir => exact (inv.upsertLink frn parentFrn name nameLossy isDir).invariant inv
  | delete frn => exact (inv.deleteFrn frn).invariant inv
  | layout file => exact (inv.insertLayout file).invariant inv
  | reconcile frn actual => exact (inv.reconcileLinks frn actual).invariant inv

end Change

section Change

variable {ix ix' : VolumeIndex} {subject : Frn}

theorem Spares.undropped (spares : Spares subject evicts (fun _ => False) ix ix') (inv : ix.Invariant) (inv' : ix'.Invariant) :
    Spares subject evicts (· ∉ ix'.links subject) ix ix' := by
  obtain ⟨chains, tenants⟩ := inv'.tenants
  refine spares.congr inv.integrity fun e live => ?_
  simp only [Taken, and_false, or_false]
  refine and_congr_right fun notLost => ⟨fun either => either.elim id fun ⟨own, out⟩ => ?_, .inl⟩
  by_contra spared
  obtain ⟨live', frnSame⟩ := spares.alive e live fun taken => spared (taken.2.resolve_right And.right)
  exact out ((tenants.mem_links inv'.integrity).mpr ⟨live', spares.lost ▸ notLost, frnSame.trans own⟩)

theorem Invariant.spares (inv : ix.Invariant) (change : Change) :
    Spares change.subject (change.Evicts ix) (· ∉ (change.run ix).links change.subject) ix (change.run ix) := by
  have inv' := change.invariant inv
  cases change with
  | upsert frn parentFrn name nameLossy isDir =>
    exact (inv.spares_upsertLink frn parentFrn name nameLossy isDir).undropped inv inv'
  | delete frn =>
    have empty : (ix.deleteFrn frn).1.links frn = [] := (inv.swept_deleteFrn frn).2
    refine (inv.spares_deleteFrn frn).congr inv.integrity fun e _ => ?_
    simp [Taken, Change.Evicts, Change.run, Change.subject, empty]
  | layout file => exact (inv.spares_insertLayout file).undropped inv inv'
  | reconcile frn actual =>
    by_cases none_ : actual = []
    · have empty : (ix.deleteFrn frn).1.links frn = [] := (inv.swept_deleteFrn frn).2
      have same : ix.reconcileLinks frn actual = (ix.deleteFrn frn).1 := by simp [VolumeIndex.reconcileLinks, none_]
      simp only [Change.run, Change.subject, same, empty]
      exact (inv.spares_deleteFrn frn).congr inv.integrity fun e _ => by simp [Taken, Change.Evicts, none_]
    · simp only [Change.run, Change.subject, VolumeIndex.reconcileLinks, List.isEmpty_iff, none_, if_false]
      exact (inv.spares_setChainLinks frn _ none_).congr inv.integrity fun e _ => by simp [Taken, Change.Evicts, none_]

omit [Externals] in
theorem Change.stale_of_evicts {change : Change} {g : Frn} (evicted : change.Evicts ix g) :
    change.subject.Stale g ∨ ∃ p ∈ change.parents, p.Stale g := by
  have named : ∀ {file : LayoutFile}, ParentsTouch file.frn (longNames file) g →
      ∃ p ∈ (longNames file).map (·.parentFrn), p.Stale g := fun ⟨n, mem, _, stale⟩ =>
    ⟨n.parentFrn, mem_map.mpr ⟨n, mem, rfl⟩, stale⟩
  cases change with
  | upsert frn parentFrn name nameLossy isDir =>
    exact evicted.imp_right fun touch => ⟨parentFrn, by simp [parents], touch.2⟩
  | delete frn => exact evicted.elim
  | layout file =>
    simp only [Evicts, LayoutEvicts] at evicted
    split at evicted
    · exact evicted.imp (fun own => own.2.2) fun touch => named touch.2
    case h_2 n chosen =>
      rcases evicted with (stale | touch) | ⟨-, touch⟩
      · exact .inl stale
      · exact .inr ⟨n.parentFrn, mem_map.mpr ⟨n, layoutName_mem chosen, rfl⟩, touch.2⟩
      · exact .inr (named touch)
  | reconcile frn actual => exact .inl evicted.2

end Change

/-- One operation on a file takes away no other file but an old tenant of a record number it names, and leaves every
    other entry as it was. -/
theorem no_collateral_loss {ix : VolumeIndex} {rootFrn : Frn} (reachable : Reachable rootFrn ix) (change : Change) :
    (∀ e, ix.Live e → ix.entries.frn e ≠ change.subject → ¬ change.Removes ix e →
      (change.run ix).Live e ∧ SameEntry ix (change.run ix) e ∧ Follows ix (change.Removes ix) (change.run ix) e) ∧
    ∀ e, ix.Live e → ix.entries.frn e ≠ change.subject → change.Removes ix e →
      (change.subject.Stale (ix.entries.frn e) ∨ ∃ p ∈ change.parents, p.Stale (ix.entries.frn e)) ∧
      ∀ x, (change.run ix).Live x → x ≠ (change.run ix).lostFound → (change.run ix).entries.frn x = ix.entries.frn e →
        (change.run ix).row x = placeholder := by
  have spares := reachable.invariant.spares change
  constructor
  · exact fun e live other out => ⟨(spares.alive e live out).1, spares.kept e live other out⟩
  · intro e live other removed
    have evicted : change.Evicts ix (ix.entries.frn e) := removed.2.resolve_right fun own => other own.1
    refine ⟨change.stale_of_evicts evicted, fun x live' notLost same => ?_⟩
    -- an entry of an evicted file that was there before is removed
    refine (spares.born x live' notLost (same ▸ other)).resolve_left fun ⟨before, out⟩ => out ?_
    rw [spares.lost] at notLost
    rw [← same, (spares.alive x before out).2] at evicted
    exact ⟨notLost, .inl evicted⟩

omit [Externals] in
/-- A file that reports another tenant of the folder's record number as its parent: the folder goes, and the name that was
    in it is under lost+found with its slot. -/
theorem linkedIndex_folder_evicted :
    letI := Externals.ascii
    let change : Change := .upsert ⟨0x0001000000000009⟩ ⟨0x0002000000000006⟩ [0x77] false false
    ¬ change.Removes linkedIndex 3 ∧ change.Removes linkedIndex 2 ∧ (change.run linkedIndex).Live 3 ∧
      SameEntry linkedIndex (change.run linkedIndex) 3 ∧ (change.run linkedIndex).entries.parent 3 = some linkedIndex.lostFound := by
  let _ := Externals.ascii
  intro change
  have frns : linkedIndex.entries.frn 3 = twoNames ∧ linkedIndex.entries.frn 2 = ⟨0x0001000000000006⟩ := by decide
  have spared : ¬ change.Removes linkedIndex 3 := fun removed => by
    have either := removed.2
    rw [frns.1] at either
    rcases either with (stale | touch) | own
    · exact absurd stale (by decide)
    · exact absurd touch (by decide)
    · exact absurd own.1 (by decide)
  have evicted : change.Removes linkedIndex 2 := by
    refine ⟨by decide, .inl (.inr ?_)⟩
    rw [frns.2]
    decide
  obtain ⟨live, same, follows⟩ := (no_collateral_loss reachable_linkedIndex change).1 3 (by decide) (by decide) spared
  exact ⟨spared, evicted, live, same, follows.orphaned 2 (by decide) evicted⟩

end VolumeIndex

end Goz
