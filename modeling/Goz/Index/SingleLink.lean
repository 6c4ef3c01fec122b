import Goz.Index.Replay

namespace Goz

open Function Intrusive List

variable {rows : Rows}

def Row.bare (row : Row) : Row := { row with size := sizeUnknown, mtime := mtimeUnknown }

namespace Rows

section Bare

variable {names : List Row}

def Single (rows : Rows) : Prop := ∀ frn, (rows frn).length ≤ 1

theorem Tweak.one_bare (t : Tweak) (row : Row) : t.one row.bare = (t.one row).bare := by
  obtain ⟨parent, name, flags, size, mtime⟩ := row
  unfold Tweak.one
  cases t.named with
  | none =>
    cases parent with
    | none => rfl
    | lostFound => rfl
    | of frn =>
      cases gone : t.gone frn
      · simp [orphan, Row.bare, gone]
      · simp [orphan, Row.bare, gone]
  | some n =>
    simp only [rewrite_orphan]
    rfl

theorem runEffect_bare (single : names.length ≤ 1) (e : Option Tweak) :
    runEffect (names.map Row.bare) e = (runEffect names e).map Row.bare := by
  cases e with
  | none => rfl
  | some t =>
    match names with
    | [] =>
      cases there : t.present with
      | false => simp only [runEffect, map_nil, Tweak.run_nil_of_absent there]
      | true =>
        simp only [runEffect, map_nil, Tweak.run_nil_of_present there, map_cons, ← Tweak.one_bare]
        rfl
    | [row] => exact congrArg (fun row => [row]) (t.one_bare row)

theorem runEffect_single (single : names.length ≤ 1) (e : Option Tweak) : (runEffect names e).length ≤ 1 := by
  cases e with
  | none => exact Nat.zero_le 1
  | some t =>
    match names with
    | [] => cases there : t.present <;> simp [runEffect, Tweak.run, there]
    | [row] => exact le_rfl

theorem Single.applyOp (single : rows.Single) (op : UsnOp) : (rows.applyOp op).Single := by
  intro frn
  rw [applyOp_apply]
  exact runEffect_single (single frn) _

end Bare

end Rows

namespace VolumeIndex

variable [Externals] {ix : VolumeIndex} {file : LayoutFile} {n : LayoutName}

omit [Externals] in
def bareRows (ix : VolumeIndex) : Rows := fun frn => (ix.rows frn).map Row.bare

omit [Externals] in
theorem bareRows_setLinkStat (frn : Frn) (size : Option UInt64) (mtime : Option Int64) :
    (ix.setLinkStat frn size mtime).bareRows = ix.bareRows := by
  funext g
  show ((ix.links g).map _).map Row.bare = ((ix.links g).map ix.row).map Row.bare
  rw [map_map, map_map]
  rfl

theorem Invariant.addMissingLink_known (inv : ix.Invariant) {frn : Frn} {row : Row}
    (listed : ix.rows frn = [row]) (parent : row.parent = Rows.place frn n.parentFrn) (name : row.name = n.name)
    (single : (ix.rows n.parentFrn).length ≤ 1) : VolumeIndex.addMissingLink frn ix n = ix := by
  obtain ⟨chains, tenants⟩ := inv.tenants
  obtain ⟨e, links, rfl⟩ : ∃ e, ix.links frn = [e] ∧ ix.row e = row := by
    simpa [VolumeIndex.rows, map_eq_singleton_iff] using listed
  have live : ix.Live e := ((tenants.mem_links inv.integrity).mp (links ▸ mem_singleton_self e)).1
  have resolved : ∃ q, ix.resolveLinkParent frn n.parentFrn = (ix, q) ∧ ix.entries.parent e = some q := by
    have ref : ix.parentRef e = Rows.place frn n.parentFrn := parent
    unfold VolumeIndex.resolveLinkParent
    unfold Rows.place parentRef at ref
    by_cases stale : frn.Stale n.parentFrn
    · rw [if_pos stale] at ref ⊢
      refine ⟨ix.lostFound, rfl, ?_⟩
      cases at_ : ix.entries.parent e with
      | none => simp [at_] at ref
      | some p =>
        by_cases lost : p = ix.lostFound
        · rw [lost]
        · simp [at_, lost] at ref
    · rw [if_neg stale] at ref ⊢
      cases at_ : ix.entries.parent e with
      | none => simp [at_] at ref
      | some p =>
        by_cases lost : p = ix.lostFound
        · simp [at_, lost] at ref
        · have own : ix.entries.frn p = n.parentFrn := by simpa [at_, lost] using ref
          have inside : p ∈ ix.links n.parentFrn :=
            (tenants.mem_links inv.integrity).mpr ⟨inv.integrity.parent_live e p live at_, lost, own⟩
          have found : ix.headOf n.parentFrn = some p := by
            cases first : ix.headOf n.parentFrn with
            | none =>
              rw [links_of_no_head first] at inside
              cases inside
            | some head =>
              have headIn : head ∈ ix.links n.parentFrn := by
                rw [tenants.links_of_head inv.integrity first]
                exact tenants.head_mem (headOf_some_iff.mp first).1
              have few : (ix.links n.parentFrn).length ≤ 1 := by simpa [VolumeIndex.rows] using single
              obtain ⟨only, alone⟩ := length_eq_one_iff.mp (Nat.le_antisymm few (length_pos_of_mem inside))
              rw [alone, mem_singleton] at inside headIn
              rw [inside, headIn]
          exact ⟨p, by simp [VolumeIndex.resolveOrPlaceholderParent, found], rfl⟩
  obtain ⟨q, resolves, at_⟩ := resolved
  have known : ix.chainHasLink frn q n.name = true := by
    have raw : ix.rawName e = n.name := name
    simp [chainHasLink, links, at_, raw]
  simp only [VolumeIndex.addMissingLink, resolves, known, if_true]

theorem Invariant.enrich_bare (inv : ix.Invariant) (present : ix.rows file.frn ≠ [])
    (known : file.isDir = false → (longNames file).foldl (VolumeIndex.addMissingLink file.frn) ix = ix) :
    (ix.enrich file).bareRows = ix.bareRows := by
  have found : (ix.headOf file.frn).isNone = false := by
    rw [Option.isNone_eq_false_iff, Option.isSome_iff_ne_none, Ne, inv.headOf_none_iff]
    exact present
  unfold VolumeIndex.enrich
  simp only [found, Bool.false_and, Bool.false_eq_true, if_false]
  split
  · exact bareRows_setLinkStat _ _ _
  case isFalse plain =>
    have same := known (Bool.eq_false_of_not_eq_true plain)
    unfold longNames at same
    rw [same]
    exact bareRows_setLinkStat _ _ _

omit [Externals] in
theorem layoutName_single (named : longNames file = [n])
    (other : n.parentFrn ≠ file.frn) : layoutName file = some n := by
  have first : file.names.find? (fun n => !n.dosOnly) = some n := by
    rw [← head?_filter]
    exact congrArg List.head? named
  simp [layoutName, first, other]

omit [Externals] in
theorem rows_upsert_single (single : rows.Single) (frn parentFrn : Frn) (name : Bytes)
    (nameLossy isDir : Bool) : ∃ row, rows.upsert frn parentFrn name nameLossy isDir frn = [row] ∧
      row.parent = Rows.place frn parentFrn ∧ row.name = name := by
  have few := single.applyOp (.upsert frn parentFrn name nameLossy isDir) frn
  simp only [Rows.applyOp, Rows.upsert, update_self] at few ⊢
  rcases resolved : Rows.resolve frn parentFrn (Rows.destroy frn.Stale rows) frn with _ | ⟨row, _ | ⟨second, rest⟩⟩
  · exact ⟨_, rfl, rfl, rfl⟩
  · exact ⟨_, rfl, rfl, rfl⟩
  · simp [resolved, Rows.renameOnly] at few

theorem Invariant.insertLayout_bare (inv : ix.Invariant) (single : ix.rows.Single)
    (named : longNames file = [n]) (other : n.parentFrn ≠ file.frn) :
    (ix.insertLayout file).bareRows = fun frn =>
      (ix.rows.upsert file.frn n.parentFrn n.name n.nameLossy file.isDir frn).map Row.bare := by
  have upserted := inv.upsertLink file.frn n.parentFrn n.name n.nameLossy file.isDir
  have inv' := upserted.invariant inv
  have single' : (ix.upsertLink file.frn n.parentFrn n.name n.nameLossy file.isDir).1.rows.Single := by
    rw [upserted.rows]
    exact single.applyOp (.upsert file.frn n.parentFrn n.name n.nameLossy file.isDir)
  obtain ⟨row, listed, parent, name⟩ :=
    rows_upsert_single single file.frn n.parentFrn n.name n.nameLossy file.isDir
  rw [← upserted.rows] at listed
  unfold VolumeIndex.insertLayout
  rw [layoutName_single named other]
  simp only
  rw [inv'.enrich_bare (by simp [listed])]
  · funext frn
    rw [bareRows, upserted.rows]
  · intro _
    rw [named, foldl_cons, foldl_nil]
    exact inv'.addMissingLink_known listed parent name (single' n.parentFrn)

omit [Externals] in
theorem layoutName_self (self : ∀ n ∈ longNames file, n.parentFrn = file.frn) : layoutName file = none := by
  cases named : layoutName file with
  | none => rfl
  | some n =>
    have away := (Option.filter_eq_some_iff.mp named).2
    simp [self n (layoutName_mem named)] at away

theorem Invariant.insertLayout_self (inv : ix.Invariant) (present : ix.rows file.frn ≠ [])
    (folder : file.isDir = true) (self : ∀ n ∈ longNames file, n.parentFrn = file.frn) :
    (ix.insertLayout file).bareRows = ix.bareRows := by
  unfold VolumeIndex.insertLayout
  rw [layoutName_self self]
  apply inv.enrich_bare present
  intro plain
  rw [folder] at plain
  cases plain

omit [Externals] in
theorem rows_optimizeStorage (ix : VolumeIndex) (capacity : Nat) : (ix.optimizeStorage capacity).rows = ix.rows := by
  have head : ∀ frn, (ix.optimizeStorage capacity).headOf frn = ix.headOf frn := by
    intro frn
    show ((ix.byFrn.densifyIfSmaller capacity).get frn.recordNumber).filter _ = _
    rw [FrnMap.get_densifyIfSmaller]
    rfl
  have links : ∀ frn, (ix.optimizeStorage capacity).links frn = ix.links frn := by
    intro frn
    unfold links
    rw [head]
    rfl
  funext frn
  unfold rows
  rw [links]
  rfl

namespace IndexOp

/-- The operations whose effect on the rows is a list of journal operations; upkeep's is the empty one. -/
def Follows : IndexOp → Prop
  | insertEnum _ | applyBatch _ | compact | mergeNames | optimizeStorage _ => True
  | _ => False

def usnOps : IndexOp → List UsnOp
  | insertEnum rec => [.upsert rec.frn rec.parentFrn rec.name rec.nameLossy rec.isDir]
  | applyBatch records => records.flatMap opsFor
  | _ => []

end IndexOp

theorem Invariant.follows_rows (inv : ix.Invariant) {op : IndexOp} (follows : op.Follows) :
    (op.run ix).rows = op.usnOps.foldl Rows.applyOp ix.rows := by
  cases op with
  | insertEnum rec => exact (inv.upsertLink rec.frn rec.parentFrn rec.name rec.nameLossy rec.isDir).rows
  | applyBatch records => exact (inv.applyBatch records).rows
  | compact => exact inv.compact.rows
  | mergeNames => exact (inv.reorder .merge).rows
  | optimizeStorage capacity => exact rows_optimizeStorage ix capacity
  | _ => exact follows.elim

/-- However the journal is cut into batches, and whatever upkeep runs between them, the rows are those of its records. -/
theorem batch_cuts_invisible {rootFrn : Frn} (reachable : Reachable rootFrn ix) {ops : List IndexOp}
    (follow : ∀ op ∈ ops, op.Follows) :
    (ops.foldl (fun ix op => op.run ix) ix).rows = (ops.flatMap IndexOp.usnOps).foldl Rows.applyOp ix.rows := by
  have inv := reachable.invariant
  clear reachable
  induction ops generalizing ix with
  | nil => rfl
  | cons op ops ih =>
    have first := inv.follows_rows (follow op (by simp))
    have rest := ih (fun later mem => follow later (by simp [mem])) ((inv.run op).invariant inv)
    rw [foldl_cons, rest, first, flatMap_cons, foldl_append]

omit [Externals] in
theorem folderRecord_cut : letI := Externals.ascii
    ([.applyBatch [folderRecord], .compact, .insertEnum folderRecord].foldl (fun ix op => IndexOp.run op ix)
      folderIndex).rows = ([.applyBatch [folderRecord], .insertEnum folderRecord].flatMap IndexOp.usnOps).foldl
        Rows.applyOp folderIndex.rows :=
  letI := Externals.ascii
  batch_cuts_invisible reachable_folderIndex (by simp [IndexOp.Follows])

end VolumeIndex

end Goz
