import Goz.Index.LinkPlaces

namespace Goz

open Function Intrusive List

variable {ix ix' : VolumeIndex} {frn parentFrn : Frn} {slot : EntryIdx}

namespace Rows

def link (parent : ParentRef) (n : LayoutName) : Row where
  parent := parent
  name := n.name
  flags := { nonUnicodeName := n.nameLossy }
  size := sizeUnknown
  mtime := mtimeUnknown

def addName (parent : ParentRef) (n : LayoutName) (names : List Row) : List Row :=
  if names.any fun row => row.parent = parent && row.name = n.name then names else names ++ [link parent n]

def addMissing (frn : Frn) (rows : Rows) (n : LayoutName) : Rows :=
  let resolved := rows.resolve frn n.parentFrn
  update resolved frn (addName (place frn n.parentFrn) n (resolved frn))

def stat (size : Option UInt64) (mtime : Option Int64) (row : Row) : Row :=
  { row with size := size.getD row.size, mtime := mtime.getD row.mtime }

def setStat (frn : Frn) (size : Option UInt64) (mtime : Option Int64) (rows : Rows) : Rows :=
  update rows frn ((rows frn).map (stat size mtime))

def insertNamed (file : LayoutFile) (n : LayoutName) (rows : Rows) : Rows :=
  let upserted := rows.upsert file.frn n.parentFrn n.name n.nameLossy file.isDir
  let named :=
    if file.isDir then upserted
    else (file.names.filter fun n => !n.dosOnly).foldl (addMissing file.frn) upserted
  named.setStat file.frn (if file.isDir then none else file.size) file.mtimeFt

end Rows

namespace VolumeIndex

variable [Externals]

section Heads

variable {name : Bytes}

def Folder (ix : VolumeIndex) (p : EntryIdx) : Prop := p = ix.lostFound ∨ ix.headOf (ix.entries.frn p) = some p

def HeadsOnly (ix : VolumeIndex) : Prop := ∀ e p, ix.Live e → ix.entries.parent e = some p → ix.Folder p

omit [Externals] in
theorem folder_of_home (home : ix.homeOf frn parentFrn = some slot) : ix.Folder slot := by
  unfold homeOf at home
  split at home
  · exact .inl (Option.some.inj home).symm
  · have own := (headOf_some_iff.mp home).2
    exact .inr (own ▸ home)

theorem Invariant.heads_resolve (inv : ix.Invariant) (heads : ix.HeadsOnly) (frn parentFrn : Frn) :
    (ix.resolveLinkParent frn parentFrn).1.HeadsOnly := by
  have resolved := inv.resolveLinkParent frn parentFrn
  have inv' := resolved.does.invariant inv
  intro e p live under
  obtain ⟨other, apart⟩ : ∃ other : Frn, (ix.resolveLinkParent frn parentFrn).1.entries.frn e ≠ other := by
    by_cases zero : (ix.resolveLinkParent frn parentFrn).1.entries.frn e = ⟨0⟩
    · exact ⟨⟨1⟩, by rw [zero]; decide⟩
    · exact ⟨⟨0⟩, zero⟩
  have spares := inv.spares_resolveLinkParent other frn parentFrn
  have notLost : e ≠ (ix.resolveLinkParent frn parentFrn).1.lostFound := by
    rintro rfl
    rw [inv'.integrity.lost_top] at under
    cases under
  rcases spares.born e live notLost apart with ⟨before, out⟩ | fresh
  · have own := (spares.alive e before out).2
    obtain ⟨-, follows⟩ := spares.kept e before (own ▸ apart) out
    cases up : ix.entries.parent e with
    | none =>
      rw [follows.top up] at under
      cases under
    | some q =>
      by_cases taken : Taken ix other (Rows.ParentTouches frn parentFrn) (fun _ => False) q
      · rw [follows.orphaned q up taken] at under
        exact .inl ((Option.some.inj under).symm.trans spares.lost.symm)
      · rw [follows.stays q up taken] at under
        obtain rfl := Option.some.inj under
        have qLive := inv.integrity.parent_live e q before up
        rcases heads e q before up with lost | found
        · exact .inl (lost.trans spares.lost.symm)
        · have qLost := (inv.head_live found).2
          have spared : ¬ Rows.ParentTouches frn parentFrn (ix.entries.frn q) := fun touch => taken ⟨qLost, .inl touch⟩
          obtain ⟨-, same, -⟩ := inv.resolve_kept frn parentFrn qLive (.inr spared)
          right
          rw [same.frn]
          exact inv.keeps_head resolved.does.steps spared found
  · have atLost := (row_placeholder_iff.mp fresh).1
    rw [atLost] at under
    exact .inl (Option.some.inj under).symm

theorem HeadsOnly.extend (heads : ix.HeadsOnly) (ok : ix.Integrity) (lost : ix'.lostFound = ix.lostFound)
    (frns : ∀ p, ix.Live p → ix'.entries.frn p = ix.entries.frn p)
    (mapped : ∀ g head, ix.headOf g = some head → ix'.headOf g = some head) (slotLive : ix.Live slot) (folder : ix.Folder slot)
    (old : ∀ e p, ix'.Live e → ix'.entries.parent e = some p → p = slot ∨ ix.Live e ∧ ix.entries.parent e = some p) :
    ix'.HeadsOnly := by
  have stays : ∀ p, ix.Live p → ix.Folder p → ix'.Folder p := by
    intro p live folder
    rcases folder with atLost | found
    · exact .inl (atLost.trans lost.symm)
    · right
      rw [frns p live]
      exact mapped _ p found
  intro e p live under
  rcases old e p live under with rfl | ⟨before, up⟩
  · exact stays p slotLive folder
  · exact stays p (ok.parent_live e p before up) (heads e p before up)

theorem Added.heads {flags : EntryFlags} {size : UInt64} {mtime : Int64} {idx : EntryIdx} {mid : VolumeIndex}
    (added : Added ix frn slot name flags size mtime mid idx) (heads : ix.HeadsOnly) (ok : ix.Integrity)
    (slotLive : ix.Live slot) (folder : ix.Folder slot) (parents : ix'.entries.parent = mid.entries.parent)
    (frns : ix'.entries.frn = mid.entries.frn) (alive : ∀ e, ix'.Live e ↔ mid.Live e) (lost : ix'.lostFound = mid.lostFound)
    (mapped : ∀ g head, ix.headOf g = some head → ix'.headOf g = some head) : ix'.HeadsOnly := by
  apply heads.extend ok (lost.trans added.frame.lostFound) _ mapped slotLive folder
  · intro e p live under
    rw [parents] at under
    rcases (added.live e).mp ((alive e).mp live) with before | rfl
    · exact .inr ⟨before, (added.parents e before).symm.trans under⟩
    · rw [added.entry.parent] at under
      exact .inl (Option.some.inj under).symm
  · intro p live
    rw [frns]
    exact (added.same p live).frn

theorem Rewritten.heads {head : EntryIdx} {nameLossy isDir : Bool}
    (rewritten : Rewritten ix head slot name nameLossy isDir ix') (inv : ix.Invariant) (inv' : ix'.Invariant)
    (heads : ix.HeadsOnly) (slotLive : ix.Live slot) (folder : ix.Folder slot) : ix'.HeadsOnly := by
  obtain ⟨same, -⟩ : _ ∧ ix'.links (ix.entries.frn head) = _ := Rewritten.chain inv inv' rewritten
  apply heads.extend inv.integrity rewritten.frame.lostFound _ _ slotLive folder
  · intro e p live under
    have before := (rewritten.live e).mp live
    by_cases here : e = head
    · rw [here, rewritten.entry.parent] at under
      exact .inl (Option.some.inj under).symm
    · rw [rewritten.parents e before here] at under
      exact .inr ⟨before, under⟩
  · exact fun p live => (rewritten.frn_next live).1
  · intro g other found
    rw [same]
    exact found

theorem Invariant.heads_upsert (inv : ix.Invariant) (heads : ix.HeadsOnly) (clean : ∀ g, frn.Stale g → ix.rows g = [])
    (parentFrn : Frn) (name : Bytes) (nameLossy isDir : Bool) :
    (ix.upsertLink frn parentFrn name nameLossy isDir).1.HeadsOnly := by
  have reclaimed : ix.reclaimStale frn = ix := by
    cases first : ix.byFrn.get frn.recordNumber with
    | none => simp [VolumeIndex.reclaimStale, first]
    | some head =>
      obtain ⟨present, record, -, -⟩ := inv.rows_of_mapped first
      have own : ix.entries.frn head = frn := by
        by_contra other
        exact present (clean _ ⟨other, record⟩)
      simp [VolumeIndex.reclaimStale, first, own]
  have resolved := inv.resolveLinkParent frn parentFrn
  have inv₁ := resolved.does.invariant inv
  have inv₂ := (inv.upsertLink frn parentFrn name nameLossy isDir).invariant inv
  have heads₁ := inv.heads_resolve heads frn parentFrn
  have folder := folder_of_home (inv.home_of_resolve frn parentFrn)
  have slotLive := resolved.live
  unfold VolumeIndex.upsertLink at inv₂ ⊢
  simp only [reclaimed] at inv₂ ⊢
  set mid := ix.resolveLinkParent frn parentFrn
  split
  case h_1 head first =>
    obtain ⟨-, -, live, notLost⟩ := inv₁.rows_of_mapped first
    simp only [first] at inv₂
    split
    case isTrue last =>
      rw [if_pos last] at inv₂
      exact (inv₁.integrity.rewriteEntry live notLost slotLive name nameLossy isDir).heads inv₁ inv₂ heads₁ slotLive folder
    case isFalse => exact heads₁
  case h_2 free =>
    have added := inv₁.integrity.newEntry frn name { dir := isDir, nonUnicodeName := nameLossy } sizeUnknown mtimeUnknown
      slotLive rfl
    set new := mid.1.newEntry frn mid.2 name { dir := isDir, nonUnicodeName := nameLossy } sizeUnknown mtimeUnknown
    apply added.heads heads₁ inv₁.integrity slotLive folder
    · simp [dirIndexInsert]
    · simp [dirIndexInsert]
    · intro e
      simp [VolumeIndex.Live, dirIndexInsert]
    · simp [dirIndexInsert]
    · intro g other found
      obtain ⟨mapped, own⟩ := headOf_some_iff.mp found
      obtain ⟨-, -, live, -⟩ := inv₁.rows_of_mapped mapped
      have away : g.recordNumber ≠ frn.recordNumber := by
        intro same
        rw [same, free] at mapped
        cases mapped
      apply headOf_some_iff.mpr
      constructor
      · have kept := added.byFrn
        simp only [dirIndexInsert] at kept
        simp only [dirIndexInsert, FrnMap.get_set, if_neg away]
        rw [kept, mapped]
      · have same := (added.same other live).frn
        simp only [dirIndexInsert] at same ⊢
        exact same.trans own

theorem Invariant.heads_addLink (inv : ix.Invariant) (heads : ix.HeadsOnly) (present : ix.Present frn) (slotLive : ix.Live slot)
    (folder : ix.Folder slot) (name : Bytes) (nameLossy : Bool) : (ix.addLink frn slot name nameLossy).HeadsOnly := by
  have extended := inv.extended_addLink present slotLive name nameLossy
  obtain ⟨added, -⟩ := inv.integrity.newEntry_name frn slotLive name nameLossy
  obtain ⟨-, tail, -, eq⟩ := inv.addLink_eq present slotLive name nameLossy
  have mapped : ∀ g head, ix.headOf g = some head → (ix.addLink frn slot name nameLossy).headOf g = some head := by
    intro g head found
    rw [extended.heads, found]
  rw [eq] at mapped ⊢
  exact added.heads heads inv.integrity slotLive folder rfl rfl (fun e => Iff.rfl) rfl mapped

theorem Invariant.rows_addLink (inv : ix.Invariant) (present : ix.Present frn) (slotLive : ix.Live slot) (name : Bytes)
    (nameLossy : Bool) : (ix.addLink frn slot name nameLossy).rows =
      update ix.rows frn (ix.rows frn ++ [⟨ix.refTo slot, name, { nonUnicodeName := nameLossy }, sizeUnknown, mtimeUnknown⟩]) := by
  obtain ⟨chains, tenants⟩ := inv.tenants
  obtain ⟨runs, -⟩ := inv.addLink present slotLive name nameLossy
  have tenants' := tenants.addLink inv.integrity present slotLive name nameLossy
  have ok' := (runs.invariant inv).integrity
  obtain ⟨added, -⟩ := inv.integrity.newEntry_name frn slotLive name nameLossy
  obtain ⟨-, tail, -, eq⟩ := inv.addLink_eq present slotLive name nameLossy
  set new := ix.newEntry frn slot name { nonUnicodeName := nameLossy } sizeUnknown mtimeUnknown
  have old : ∀ e, ix.Live e → (ix.addLink frn slot name nameLossy).row e = ix.row e := by
    intro e live
    have same := added.same e live
    have ref : new.1.parentRef e = ix.parentRef e := parentRef_congr added.frame.lostFound (added.parents e live) fun p at_ =>
      (added.same p (inv.integrity.parent_live e p live at_)).frn
    rw [eq]
    show Row.mk (new.1.parentRef e) (new.1.rawName e) (new.1.entries.flags e) (new.1.entries.size e) (new.1.entries.mtime e) = _
    rw [ref, same.rawName, same.flags, same.size, same.mtime]
    rfl
  have fresh : (ix.addLink frn slot name nameLossy).row new.2 =
      ⟨ix.refTo slot, name, { nonUnicodeName := nameLossy }, sizeUnknown, mtimeUnknown⟩ := by
    have ref : new.1.parentRef new.2 = ix.refTo slot := by
      rw [parentRef_of_parent added.entry.parent, refTo, refTo, added.frame.lostFound, (added.same slot slotLive).frn]
    rw [eq]
    show Row.mk (new.1.parentRef new.2) (new.1.rawName new.2) (new.1.entries.flags new.2) (new.1.entries.size new.2)
      (new.1.entries.mtime new.2) = _
    rw [ref, added.entry.rawName, added.entry.flags, added.entry.size, added.entry.mtime]
  have heads := (inv.extended_addLink present slotLive name nameLossy).heads
  funext g
  unfold rows
  by_cases own : g = frn
  · subst own
    obtain ⟨head, found⟩ := inv.head_of_present present
    rw [update_self, tenants'.links_of_head ok' ((heads g).trans found), update_self, ← tenants.links_of_head inv.integrity found,
      map_append, map_singleton, fresh]
    congr 1
    apply map_congr_left
    intro e mem
    exact old e (inv.mem_links.mp mem).1
  · rw [update_of_ne own]
    have links : (ix.addLink frn slot name nameLossy).links g = ix.links g := by
      cases found : ix.headOf g with
      | none => rw [links_of_no_head found, links_of_no_head ((heads g).trans found)]
      | some head =>
        have away : g.recordNumber ≠ frn.recordNumber := by
          intro same
          have there : ix.rows g ≠ [] := fun empty => by
            rw [inv.headOf_none_iff.mpr empty] at found
            cases found
          exact own (inv.sound.tenant g frn there (inv.present_iff.mp present) same)
        rw [tenants'.links_of_head ok' ((heads g).trans found), update_of_ne away, tenants.links_of_head inv.integrity found]
    rw [links]
    apply map_congr_left
    intro e mem
    exact old e (inv.mem_links.mp mem).1

end Heads

theorem HeadsOnly.chainHasLink (heads : ix.HeadsOnly) (inv : ix.Invariant) (home : ix.homeOf frn parentFrn = some slot)
    (ref : ix.refTo slot = Rows.place frn parentFrn) (name : Bytes) :
    ix.chainHasLink frn slot name =
      (ix.rows frn).any fun row => row.parent = Rows.place frn parentFrn && row.name = name := by
  have under : ∀ e, ix.Live e → (ix.entries.parent e = some slot ↔ ix.parentRef e = Rows.place frn parentFrn) := by
    intro e live
    constructor
    · intro at_
      rw [parentRef_of_parent at_, ref]
    · intro same
      rw [← ref] at same
      unfold parentRef refTo at same
      split at same
      · split at same <;> cases same
      case h_2 p at_ =>
        have folder := heads e p live at_
        rw [at_]
        by_cases pLost : p = ix.lostFound
        · rw [if_pos pLost] at same
          split at same
          case isTrue slotLost => rw [pLost, slotLost]
          case isFalse => cases same
        · rw [if_neg pLost] at same
          split at same
          case isTrue => cases same
          case isFalse slotLost =>
            have found := folder.resolve_left pLost
            have found' := (folder_of_home home).resolve_left slotLost
            rw [ParentRef.of.inj same, found'] at found
            exact found.symm
  rw [Bool.eq_iff_iff, chainHasLink_iff]
  simp only [rows, any_map, any_eq_true, comp_apply, Bool.and_eq_true, decide_eq_true_eq]
  apply exists_congr
  intro e
  apply and_congr_right
  intro mem
  rw [under e (inv.mem_links.mp mem).1]
  rfl

variable (inv : ix.Invariant)
include inv

theorem Invariant.rows_addMissingLink (heads : ix.HeadsOnly) (present : ix.Present frn) (n : LayoutName) :
    (VolumeIndex.addMissingLink frn ix n).rows = Rows.addMissing frn ix.rows n ∧
      (VolumeIndex.addMissingLink frn ix n).HeadsOnly := by
  have resolved := inv.resolveLinkParent frn n.parentFrn
  have inv' := resolved.does.invariant inv
  have heads' := inv.heads_resolve heads frn n.parentFrn
  have home := inv.home_of_resolve frn n.parentFrn
  have present' := inv.resolve_present n.parentFrn present
  have has := heads'.chainHasLink inv' home resolved.ref n.name
  have linked := inv'.rows_addLink present' resolved.live n.name n.nameLossy
  have linkedHeads := inv'.heads_addLink heads' present' resolved.live (folder_of_home home) n.name n.nameLossy
  unfold VolumeIndex.addMissingLink Rows.addMissing Rows.addName
  simp only [← resolved.does.rows, has]
  split
  case isTrue => exact ⟨(update_eq_self _ _).symm, heads'⟩
  case isFalse =>
    rw [linked, resolved.ref]
    exact ⟨rfl, linkedHeads⟩

theorem Invariant.rows_addMissingLinks (heads : ix.HeadsOnly) (present : ix.Present frn)
    (names : List LayoutName) :
    (names.foldl (VolumeIndex.addMissingLink frn) ix).rows = names.foldl (Rows.addMissing frn) ix.rows ∧
      (names.foldl (VolumeIndex.addMissingLink frn) ix).HeadsOnly := by
  induction names generalizing ix with
  | nil => exact ⟨rfl, heads⟩
  | cons n rest ih =>
    obtain ⟨runs, present'⟩ := inv.addMissingLink present n
    obtain ⟨rows, heads'⟩ := inv.rows_addMissingLink heads present n
    rw [foldl_cons, foldl_cons, ← rows]
    exact ih (runs.invariant inv) heads' present'

theorem Invariant.rows_setLinkStat (frn : Frn) (size : Option UInt64) (mtime : Option Int64) :
    (ix.setLinkStat frn size mtime).rows = ix.rows.setStat frn size mtime := by
  funext g
  have links : (ix.setLinkStat frn size mtime).links g = ix.links g := rfl
  unfold Rows.setStat
  by_cases own : g = frn
  · subst own
    rw [update_self, VolumeIndex.rows, VolumeIndex.rows, links, map_map]
    apply map_congr_left
    intro e mem
    simp only [VolumeIndex.row, comp_apply, Rows.stat, VolumeIndex.setLinkStat, mem, if_true]
    rfl
  · rw [update_of_ne own, VolumeIndex.rows, VolumeIndex.rows, links]
    apply map_congr_left
    intro e mem
    have outside : e ∉ ix.links frn := by
      intro inside
      exact own ((inv.mem_links.mp mem).2.2.symm.trans (inv.mem_links.mp inside).2.2)
    simp only [VolumeIndex.row, VolumeIndex.setLinkStat, outside, if_false]
    rfl

theorem Invariant.rows_insertLayout (heads : ix.HeadsOnly) {file : LayoutFile} {n : LayoutName}
    (named : layoutName file = some n) (clean : ∀ g, file.frn.Stale g → ix.rows g = []) :
    (ix.insertLayout file).rows = ix.rows.insertNamed file n ∧ (ix.insertLayout file).HeadsOnly := by
  have upserted := inv.upsertLink file.frn n.parentFrn n.name n.nameLossy file.isDir
  have inv' := upserted.invariant inv
  have heads' := inv.heads_upsert heads clean n.parentFrn n.name n.nameLossy file.isDir
  have present := inv.upsert_present file.frn n.parentFrn n.name n.nameLossy file.isDir
  unfold VolumeIndex.insertLayout Rows.insertNamed
  simp only [named, ← upserted.rows]
  set known := (ix.upsertLink file.frn n.parentFrn n.name n.nameLossy file.isDir).1
  obtain ⟨known', -, -, same, eq⟩ := inv'.enrich_known (.inl present)
  rw [same present] at eq
  obtain ⟨rows, heads''⟩ := inv'.rows_addMissingLinks heads' present (longNames file)
  have runs := inv'.addMissingLinks present (longNames file)
  rw [eq]
  cases file.isDir with
  | true =>
    simp only [if_true]
    exact ⟨inv'.rows_setLinkStat file.frn none file.mtimeFt, heads'⟩
  | false =>
    simp only [Bool.false_eq_true, if_false]
    rw [(runs.invariant inv').rows_setLinkStat, rows]
    exact ⟨rfl, heads''⟩

end VolumeIndex

end Goz
