import Goz.Index.Tenancy

namespace Goz.VolumeIndex

open Function Intrusive Option Rows

variable {ix : VolumeIndex} [Externals] {frn : Frn} {parent head e : EntryIdx}

section Reclaim

variable {touched : Frn → Prop} {after : Rows}

theorem Does.refl (inv : ix.Invariant) (same : after = ix.rows) :
    Does touched ix ix after := ⟨.refl, inv.tenants, same.symm⟩

theorem Does.weaken {touched' : Frn → Prop} {ix' : VolumeIndex}
    (does : Does touched ix ix' after) (weaker : ∀ frn, touched frn → touched' frn) : Does touched' ix ix' after :=
  ⟨Steps.weaken weaker does.steps, does.tenants, does.rows⟩

theorem Does.trans {ix₁ ix₂ ix₃ : VolumeIndex} {mid : Rows}
    (first : Does touched ix₁ ix₂ mid) (second : Does touched ix₂ ix₃ after) : Does touched ix₁ ix₃ after :=
  ⟨first.steps.trans second.steps, second.tenants, second.rows⟩

variable (inv : ix.Invariant)
include inv

theorem Invariant.sound : ix.rows.Sound := by
  obtain ⟨chains, tenants⟩ := inv.tenants
  exact tenants.sound inv.integrity

theorem Invariant.rows_of_mapped {r : Nat} (first : ix.byFrn.get r = some head) :
    ix.rows (ix.entries.frn head) ≠ [] ∧ (ix.entries.frn head).recordNumber = r ∧ ix.Live head ∧
      head ≠ ix.lostFound := by
  obtain ⟨chains, tenants⟩ := inv.tenants
  obtain ⟨live, notLost, record⟩ := (tenants.mem r head).mp (tenants.head_mem first)
  exact ⟨(tenants.rows_ne_nil inv.integrity).mpr ⟨head, live, notLost, rfl⟩, record, live, notLost⟩

theorem Invariant.mapped_of_rows (present : ix.rows frn ≠ []) :
    ∃ head, ix.byFrn.get frn.recordNumber = some head ∧ ix.entries.frn head = frn := by
  obtain ⟨chains, tenants⟩ := inv.tenants
  cases found : ix.headOf frn with
  | none => exact absurd ((tenants.headOf_none_iff inv.integrity).mp found) present
  | some head => exact ⟨head, headOf_some_iff.mp found⟩

theorem Invariant.single_link_iff :
    ix.links frn = [e] ↔ ix.headOf frn = some e ∧ ix.entries.nextLink e = none := by
  obtain ⟨chains, tenants⟩ := inv.tenants
  cases found : ix.headOf frn with
  | none => simp [links_of_no_head found]
  | some head =>
    have linked := tenants.linked frn.recordNumber
    rw [← tenants.links_of_head inv.integrity found, (headOf_some_iff.mp found).1] at linked
    cases chain : ix.links frn with
    | nil => simp [chain, Linked] at linked
    | cons first rest =>
      rw [chain] at linked
      obtain rfl : head = first := some.inj linked.1
      have next : ix.entries.nextLink head = rest.head? := linked.2.head
      constructor
      · intro single
        obtain ⟨rfl, rfl⟩ := List.cons.inj single
        exact ⟨rfl, next⟩
      · rintro ⟨same, last⟩
        obtain rfl := some.inj same
        rw [List.head?_eq_none_iff.mp (next.symm.trans last)]

theorem Invariant.headOf_none_iff : ix.headOf frn = none ↔ ix.rows frn = [] := by
  obtain ⟨chains, tenants⟩ := inv.tenants
  exact tenants.headOf_none_iff inv.integrity

theorem Invariant.reclaimStale (frn : Frn) :
    Does frn.Stale ix (ix.reclaimStale frn) (ix.rows.destroy frn.Stale) := by
  unfold VolumeIndex.reclaimStale
  split
  case h_1 free =>
    refine Does.refl inv (inv.sound.destroy_absent fun g stale => ?_)
    by_contra present
    obtain ⟨head, first, -⟩ := inv.mapped_of_rows present
    rw [stale.2, free] at first
    cases first
  case h_2 head first =>
    obtain ⟨present, record, -, -⟩ := inv.rows_of_mapped first
    split
    case isFalse own =>
      have own : ix.entries.frn head = frn := not_not.mp own
      refine Does.refl inv (inv.sound.destroy_absent fun g stale => ?_)
      by_contra other
      exact stale.1 (inv.sound.tenant g frn other (own ▸ present) stale.2)
    case isTrue other =>
      obtain ⟨chains, tenants⟩ := inv.tenants
      have does := tenants.clear inv.integrity first
        { (ix.tombstoneChain head).stats with staleSlots := (ix.tombstoneChain head).stats.staleSlots + 1 }
      have same : ∀ g, ix.rows g ≠ [] → (frn.Stale g ↔ g = ix.entries.frn head) := by
        intro g there
        refine ⟨fun stale => inv.sound.tenant g _ there present (stale.2.trans record.symm), ?_⟩
        rintro rfl
        exact ⟨other, record⟩
      rw [inv.sound.destroy_congr same]
      exact does.weaken fun g gone => (same g (gone ▸ present)).mpr gone

theorem Invariant.deleteFrn (frn : Frn) :
    Does (· = frn) ix (ix.deleteFrn frn).1 (ix.rows.delete frn) := by
  unfold VolumeIndex.deleteFrn
  split
  case h_1 missing =>
    refine Does.refl inv (inv.sound.destroy_absent fun g gone => ?_)
    exact gone ▸ inv.headOf_none_iff.mp missing
  case h_2 head found =>
    obtain ⟨chains, tenants⟩ := inv.tenants
    obtain ⟨first, rfl⟩ := headOf_some_iff.mp found
    exact tenants.clear inv.integrity first (ix.tombstoneChain head).stats

end Reclaim

def refTo (ix : VolumeIndex) (p : EntryIdx) : ParentRef :=
  if p = ix.lostFound then .lostFound else .of (ix.entries.frn p)

omit [Externals] in
theorem parentRef_of_parent {p : EntryIdx} (at_ : ix.entries.parent e = some p) : ix.parentRef e = ix.refTo p := by
  simp only [parentRef, at_, refTo]

theorem Invariant.install (inv : ix.Invariant) (name : Bytes) (flags : EntryFlags)
    (size : UInt64) (mtime : Int64) (free : ix.byFrn.get frn.recordNumber = none) (parentLive : ix.Live parent)
    (alive : flags.tombstone = false)
    (plain : flags.lostFound = false ∧ (flags.placeholder = true → name = placeholderName ∧ parent = ix.lostFound))
    (stats : IndexStats) (dirty : Nat) :
    let new := ix.newEntry frn parent name flags size mtime
    Does (fun _ => False) ix
      { new.1.dirIndexInsert new.2 with byFrn := ix.byFrn.set frn.recordNumber new.2, stats := stats, dirty := dirty }
      (update ix.rows frn [{ parent := ix.refTo parent, name, flags, size, mtime }]) := by
  intro new
  obtain ⟨chains, tenants⟩ := inv.tenants
  have ok := inv.integrity
  have added := ok.newEntry frn name flags size mtime parentLive alive
  set placed := new.1.dirIndexInsert new.2
  set idx := new.2
  have lost : placed.lostFound = ix.lostFound := added.frame.lostFound
  have heads : KeepsHeads (fun _ => False) placed (ix.byFrn.set frn.recordNumber idx) := by
    intro g head _ _ found
    have mapped := (headOf_some_iff.mp found).1
    rw [added.byFrn] at mapped
    rw [FrnMap.get_set, if_neg, mapped]
    intro here
    rw [here, free] at mapped
    cases mapped
  set final : VolumeIndex := { placed with byFrn := ix.byFrn.set frn.recordNumber idx, stats := stats, dirty := dirty }
  have steps : Steps (fun _ => False) ix final :=
    .tail (.single (.add frn name flags size mtime parentLive alive plain))
      (.relabel (ix.byFrn.set frn.recordNumber idx) placed.entries.nextLink placed.entries.size placed.entries.mtime
        stats dirty placed.generation heads)
  have ok' := Steps.integrity steps ok
  have unused : chains frn.recordNumber = [] := by
    have first := (tenants.linked frn.recordNumber).head
    rw [free] at first
    exact List.head?_eq_none_iff.mp first.symm
  have notLost : idx ≠ ix.lostFound := fun same => added.fresh (same ▸ ok.lost_live)
  have elsewhere : ∀ e, ix.Live e → e ≠ ix.lostFound → (ix.entries.frn e).recordNumber ≠ frn.recordNumber := by
    intro e live notLost at_
    have mem := (tenants.mem _ e).mpr ⟨live, notLost, at_⟩
    rw [unused] at mem
    cases mem
  have tenants' : final.Tenants (update chains frn.recordNumber [idx]) := by
    refine tenants.replace lost (fun k here => ?_) ?_ (fun e => ?_) (by simp) added.others fun e live _ => ?_
    · simp only [final, FrnMap.get_set, if_neg here]
    · simp only [final, FrnMap.get_set, if_true]
      exact ⟨rfl, added.entry.nextLink⟩
    · show _ ↔ placed.Live e ∧ _ ∧ (placed.entries.frn e).recordNumber = _
      rw [added.live, List.mem_singleton]
      constructor
      · rintro rfl
        exact ⟨.inr rfl, notLost, by rw [added.entry.frn]⟩
      · rintro ⟨live | same, notLost, at_⟩
        · rw [(added.same e live).frn] at at_
          exact absurd at_ (elsewhere e live notLost)
        · exact same
    · exact ⟨(added.same e live).frn, (added.same e live).nextLink⟩
  refine ⟨steps, ⟨_, tenants'⟩, funext fun g => ?_⟩
  by_cases own : g = frn
  · subst own
    have links : final.links g = [idx] := by
      rw [tenants'.links_eq ok', update_self]
      simpa using added.entry.frn
    have ref : placed.parentRef idx = ix.refTo parent := by
      rw [parentRef_of_parent added.entry.parent, refTo, refTo, lost, (added.same parent parentLive).frn]
    rw [update_self, rows, links]
    show [placed.row idx] = _
    rw [row, ref, added.entry.rawName, added.entry.flags, added.entry.size, added.entry.mtime]
  · rw [update_of_ne own]
    have links : final.links g = ix.links g := by
      by_cases here : g.recordNumber = frn.recordNumber
      · rw [tenants.links_eq ok, tenants'.links_eq ok', here, unused, update_self]
        simpa using fun same => own (same.symm.trans added.entry.frn)
      · exact tenants.links_congr ok tenants' ok' (update_of_ne here _ _) fun e mem =>
          (added.same e ((tenants.mem _ e).mp mem).1).frn
    simp only [rows, links]
    refine List.map_congr_left fun e mem => ?_
    obtain ⟨live, -, -⟩ := (tenants.mem_links ok).mp mem
    show placed.row e = ix.row e
    exact row_congr (added.same e live) (parentRef_congr lost (added.parents e live) fun p at_ =>
      (added.same p (ok.parent_live e p live at_)).frn)

theorem dirIndexInsert_of_not_indexed {idx : EntryIdx} (out : ix.indexed idx = false) : ix.dirIndexInsert idx = ix := by
  simp [dirIndexInsert, out]

structure Resolved (touched : Frn → Prop) (ix : VolumeIndex) (result : VolumeIndex × EntryIdx) (after : Rows)
    (ref : ParentRef) : Prop where
  does : Does touched ix result.1 after
  live : result.1.Live result.2
  ref : result.1.refTo result.2 = ref

theorem Invariant.free_of_rows (inv : ix.Invariant)
    (absent : ∀ g, g.recordNumber = frn.recordNumber → ix.rows g = []) : ix.byFrn.get frn.recordNumber = none := by
  cases first : ix.byFrn.get frn.recordNumber with
  | none => rfl
  | some head =>
    obtain ⟨present, record, -, -⟩ := inv.rows_of_mapped first
    exact absurd (absent _ record) present

/-- A placeholder is no scope component. -/
theorem Integrity.newPlaceholder (ok : ix.Integrity) (frn : Frn) :
    let new := ix.newEntry frn ix.lostFound placeholderName { dir := true, placeholder := true } sizeUnknown mtimeUnknown
    new.1.dirIndexInsert new.2 = new.1 ∧ Added ix frn ix.lostFound placeholderName { dir := true, placeholder := true }
      sizeUnknown mtimeUnknown new.1 new.2 := by
  intro new
  have added := ok.newEntry frn placeholderName { dir := true, placeholder := true } sizeUnknown mtimeUnknown ok.lost_live rfl
  have plain : new.1.dirIndexInsert new.2 = new.1 := by
    refine dirIndexInsert_of_not_indexed ?_
    have flags : new.1.entries.flags new.2 = { dir := true, placeholder := true } := added.entry.flags
    simp [indexed, flags]
  exact ⟨plain, plain ▸ added⟩

theorem Invariant.resolveOrPlaceholderParent (inv : ix.Invariant) (frn : Frn) :
    Resolved frn.Stale ix (ix.resolveOrPlaceholderParent frn) (ensure frn (ix.rows.destroy frn.Stale)) (.of frn) := by
  unfold VolumeIndex.resolveOrPlaceholderParent
  split
  case h_1 idx found =>
    obtain ⟨first, own⟩ := headOf_some_iff.mp found
    obtain ⟨present, -, live, notLost⟩ := inv.rows_of_mapped first
    rw [own] at present
    have absent : ix.rows.destroy frn.Stale = ix.rows := inv.sound.destroy_absent fun g stale => by
      by_contra other
      exact stale.1 (inv.sound.tenant g frn other present stale.2)
    refine ⟨Does.refl inv ?_, live, ?_⟩
    · rw [absent, ensure, if_neg present]
    · rw [refTo, if_neg notLost, own]
  case h_2 missing =>
    have missing := inv.headOf_none_iff.mp missing
    have reclaimed := inv.reclaimStale frn
    have inv' := reclaimed.invariant inv
    have empty : ix.rows.destroy frn.Stale frn = [] := destroy_eq_nil.mpr (.inr missing)
    have free : (ix.reclaimStale frn).byFrn.get frn.recordNumber = none := inv'.free_of_rows fun g record => by
      rw [reclaimed.rows, destroy_eq_nil]
      by_cases same : g = frn
      · exact .inr (same ▸ missing)
      · exact .inl ⟨same, record⟩
    set r := ix.reclaimStale frn
    have installed := inv'.install placeholderName { dir := true, placeholder := true } sizeUnknown mtimeUnknown
      free inv'.integrity.lost_live rfl ⟨rfl, fun _ => ⟨rfl, rfl⟩⟩
    obtain ⟨plain, added⟩ := inv'.integrity.newPlaceholder frn
    set new := r.newEntry frn r.lostFound placeholderName { dir := true, placeholder := true } sizeUnknown mtimeUnknown
    simp only [plain] at installed
    have does := installed { new.1.stats with placeholdersCreated := new.1.stats.placeholdersCreated + 1 } (new.1.dirty + 1)
    have notLost : new.2 ≠ r.lostFound := fun same => added.fresh (same ▸ inv'.integrity.lost_live)

    refine ⟨?_, (added.live _).mpr (.inr rfl), ?_⟩
    · refine reclaimed.trans ?_
      rw [ensure, if_pos empty, ← reclaimed.rows]
      have row : placeholder =
          ⟨r.refTo r.lostFound, placeholderName, { dir := true, placeholder := true }, sizeUnknown, mtimeUnknown⟩ := by
        simp [placeholder, refTo]
      rw [row]
      exact does.weaken fun _ => False.elim
    · show new.1.refTo new.2 = _
      rw [refTo, if_neg (added.frame.lostFound ▸ notLost), added.entry.frn]

theorem Invariant.resolveLinkParent (inv : ix.Invariant) (frn parentFrn : Frn) :
    Resolved (Rows.ParentTouches frn parentFrn) ix (ix.resolveLinkParent frn parentFrn) (ix.rows.resolve frn parentFrn)
      (place frn parentFrn) := by
  unfold VolumeIndex.resolveLinkParent resolve place
  by_cases stale : frn.Stale parentFrn
  · simp only [if_pos stale]
    exact ⟨Does.refl inv rfl, inv.integrity.lost_live, by simp [refTo]⟩
  · simp only [if_neg stale]
    have resolved := inv.resolveOrPlaceholderParent parentFrn
    exact ⟨resolved.does.weaken fun _ other => ⟨stale, other⟩, resolved.live, resolved.ref⟩

variable {parentFrn : Frn}

theorem Invariant.rewrite (inv : ix.Invariant) (links : ix.links frn = [head])
    (parentLive : ix.Live parent) (name : Bytes) (nameLossy isDir : Bool) :
    Does (· = frn) ix (ix.rewriteEntry head parent name nameLossy isDir)
      (update ix.rows frn [rewrite (ix.refTo parent) name nameLossy isDir (ix.row head)]) := by
  obtain ⟨chains, tenants⟩ := inv.tenants
  have ok := inv.integrity
  have mem : head ∈ ix.links frn := by simp [links]
  obtain ⟨live, notLost, own⟩ := (tenants.mem_links ok).mp mem
  have rewritten := ok.rewriteEntry live notLost parentLive name nameLossy isDir
  have steps : Steps (· = frn) ix (ix.rewriteEntry head parent name nameLossy isDir) :=
    .single (.rewrite name nameLossy isDir live notLost parentLive own)
  have ok' := Steps.integrity steps ok
  set ix' := ix.rewriteEntry head parent name nameLossy isDir
  have frns : ∀ e, ix.Live e → ix'.entries.frn e = ix.entries.frn e := fun e there => (rewritten.frn_next there).1
  have lost : ix'.lostFound = ix.lostFound := rewritten.frame.lostFound
  have tenants' : ix'.Tenants chains := by
    refine ⟨fun r => ?_, fun r e => ?_, fun r a b ha hb => ?_⟩
    · rw [rewritten.byFrn]
      exact (tenants.linked r).congr fun e mem => (rewritten.frn_next ((tenants.mem r e).mp mem).1).2
    · rw [tenants.mem, rewritten.live, lost]
      exact and_congr_right fun there => by rw [frns e there]
    · rw [frns a ((tenants.mem r a).mp ha).1, frns b ((tenants.mem r b).mp hb).1]
      exact tenants.one r a b ha hb
  have links' : ∀ g, ix'.links g = ix.links g := fun g =>
    tenants.links_congr ok tenants' ok' rfl fun e mem => frns e ((tenants.mem _ e).mp mem).1
  refine ⟨steps, ⟨chains, tenants'⟩, ?_⟩
  funext g
  by_cases here : g = frn
  · subst here
    have ref : ix'.parentRef head = ix.refTo parent := by
      rw [parentRef_of_parent rewritten.entry.parent, refTo, refTo, lost, frns parent parentLive]
    rw [update_self, rows, links', links]
    simp only [List.map_cons, List.map_nil, row, rewrite, ref, rewritten.entry.rawName,
      rewritten.entry.flags, rewritten.entry.size, rewritten.entry.mtime]
  · rw [update_of_ne here]
    simp only [rows, links']
    refine List.map_congr_left fun e mem => ?_
    obtain ⟨there, -, at_⟩ := (tenants.mem_links ok).mp mem
    have away : e ≠ head := fun same => here (by rw [← at_, same, own])
    refine row_congr (rewritten.same e there away) ?_
    exact parentRef_congr lost (rewritten.parents e there away) fun p parent => frns p (ok.parent_live e p there parent)

omit [Externals] in
theorem rows_resolve_stale (rows : Rows) {g : Frn} (stale : frn.Stale g) :
    (rows.destroy frn.Stale).resolve frn parentFrn g = [] := by
  have empty : rows.destroy frn.Stale g = [] := destroy_eq_nil.mpr (.inl stale)
  unfold resolve
  split
  case isTrue => exact empty
  case isFalse fresh =>
    have away : g ≠ parentFrn := fun same => fresh (same ▸ stale)
    have still : (rows.destroy frn.Stale).destroy parentFrn.Stale g = [] := destroy_eq_nil.mpr (.inr empty)
    unfold ensure
    split
    · rw [update_of_ne away, still]
    · exact still

theorem Invariant.upsertLink (inv : ix.Invariant) (frn parentFrn : Frn) (name : Bytes) (nameLossy isDir : Bool) :
    Does (ix.rows.UpsertTouches frn parentFrn) ix (ix.upsertLink frn parentFrn name nameLossy isDir).1
      (ix.rows.upsert frn parentFrn name nameLossy isDir) := by
  have reclaimed := inv.reclaimStale frn
  have inv₁ := reclaimed.invariant inv
  have resolved := inv₁.resolveLinkParent frn parentFrn
  rw [reclaimed.rows] at resolved
  have inv₂ := resolved.does.invariant inv₁
  have before : Does (ix.rows.UpsertTouches frn parentFrn) ix ((ix.reclaimStale frn).resolveLinkParent frn parentFrn).1
      ((ix.rows.destroy frn.Stale).resolve frn parentFrn) :=
    (reclaimed.weaken fun _ stale => .inr (.inl stale)).trans (resolved.does.weaken fun _ stale => .inr (.inr stale))
  unfold VolumeIndex.upsertLink upsert
  simp only
  rw [← resolved.does.rows]
  set ix₂ := ((ix.reclaimStale frn).resolveLinkParent frn parentFrn).1
  set parent := ((ix.reclaimStale frn).resolveLinkParent frn parentFrn).2
  have ref : ix₂.refTo parent = place frn parentFrn := resolved.ref
  have own : ∀ g, g.recordNumber = frn.recordNumber → ix₂.rows g ≠ [] → g = frn := by
    intro g record present
    by_contra other
    exact present (resolved.does.rows ▸ rows_resolve_stale ix.rows ⟨other, record⟩)
  rw [← ref]
  split
  case h_1 head first =>
    obtain ⟨present, record, live, notLost⟩ := inv₂.rows_of_mapped first
    have mine := own _ record present
    obtain ⟨chains, tenants⟩ := inv₂.tenants
    have links := tenants.links_of_head inv₂.integrity (headOf_some_iff.mpr ⟨first, mine⟩)
    have linked := tenants.linked frn.recordNumber
    rw [← links, first] at linked
    obtain ⟨rest, split⟩ : ∃ rest, ix₂.links frn = head :: rest := by
      cases chain : ix₂.links frn with
      | nil => simp [chain, Linked] at linked
      | cons other rest =>
        rw [chain] at linked
        exact ⟨rest, by rw [some.inj linked.1]⟩
    rw [split] at linked
    have next : ix₂.entries.nextLink head = rest.head? := linked.2.head
    have listed : ix₂.rows frn = ix₂.row head :: rest.map ix₂.row := by rw [rows, split]; rfl
    split
    case isTrue single =>
      have alone : rest = [] := List.head?_eq_none_iff.mp (next.symm.trans single)
      subst alone
      have grown : (ix.rows frn).length ≤ (ix₂.rows frn).length := by
        rw [← length_destroy fun stale : frn.Stale frn => stale.1 rfl, resolved.does.rows]
        exact length_le_resolve not_parentTouches_self
      rw [listed] at grown ⊢
      have few : (ix.rows frn).length < 2 := Nat.lt_succ_of_le grown
      exact before.trans ((inv₂.rewrite split resolved.live name nameLossy isDir).weaken fun _ same => .inl ⟨same, few⟩)
    case isFalse several =>
      cases rest with
      | nil => exact absurd next several
      | cons other more =>
        have unchanged : update ix₂.rows frn (renameOnly (ix₂.refTo parent) name nameLossy isDir (ix₂.rows frn)) =
            ix₂.rows := by
          rw [update_eq_self_iff, listed]
          rfl
        rw [unchanged]
        exact before.trans (Does.refl inv₂ rfl)
  case h_2 free =>
    have empty : ix₂.rows frn = [] := by
      by_contra present
      obtain ⟨head, first, -⟩ := inv₂.mapped_of_rows present
      rw [free] at first
      cases first
    rw [empty]
    have installed := inv₂.install name { dir := isDir, nonUnicodeName := nameLossy } sizeUnknown mtimeUnknown
      free resolved.live rfl ⟨rfl, fun marked => by cases marked⟩ ix₂.stats (ix₂.dirty + 1)
    exact before.trans (installed.weaken fun _ => False.elim)

theorem upsertLink_unseen {folder : EntryIdx} (unseen : ix.byFrn.get frn.recordNumber = none)
    (known : ix.headOf parentFrn = some folder) (name : Bytes) (nameLossy isDir : Bool) :
    let new := ix.newEntry frn folder name { dir := isDir, nonUnicodeName := nameLossy } sizeUnknown mtimeUnknown
    (ix.upsertLink frn parentFrn name nameLossy isDir).1 =
      { new.1.dirIndexInsert new.2 with byFrn := ix.byFrn.set frn.recordNumber new.2, dirty := ix.dirty + 1 } := by
  have unclaimed : ix.reclaimStale frn = ix := by simp only [reclaimStale, unseen]
  have apart : ¬ frn.Stale parentFrn := by
    intro stale
    obtain ⟨first, -⟩ := headOf_some_iff.mp known
    rw [stale.2, unseen] at first
    cases first
  have resolved : ix.resolveLinkParent frn parentFrn = (ix, folder) := by
    simp only [resolveLinkParent, if_neg apart, resolveOrPlaceholderParent, known]
  unfold upsertLink
  simp only [unclaimed, resolved, unseen]
  rfl

end Goz.VolumeIndex
