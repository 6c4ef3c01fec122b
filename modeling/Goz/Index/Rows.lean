import Goz.Index.Volume

namespace Goz

open Function

/-- What an entry hangs under. Only the root and lost+found have no parent. -/
inductive ParentRef
  | none
  | lostFound
  | of (frn : Frn)
  deriving DecidableEq, Repr

structure Row where
  parent : ParentRef
  name : Bytes
  flags : EntryFlags
  size : UInt64
  mtime : Int64
  deriving DecidableEq, Repr

abbrev Rows := Frn → List Row

namespace Rows

/-- One tenant for each record number, and no name under a file that is not there. -/
structure Sound (rows : Rows) : Prop where
  tenant : ∀ f g, rows f ≠ [] → rows g ≠ [] → f.recordNumber = g.recordNumber → f = g
  parents : ∀ f row g, row ∈ rows f → row.parent = .of g → rows g ≠ []

def orphan (gone : Frn → Prop) [DecidablePred gone] (row : Row) : Row :=
  match row.parent with
  | .of frn => if gone frn then { row with parent := .lostFound } else row
  | _ => row

def destroy (gone : Frn → Prop) [DecidablePred gone] (rows : Rows) : Rows := fun frn =>
  if gone frn then [] else (rows frn).map (orphan gone)

def placeholder : Row where
  parent := .lostFound
  name := placeholderName
  flags := { dir := true, placeholder := true }
  size := sizeUnknown
  mtime := mtimeUnknown

def ensure (frn : Frn) (rows : Rows) : Rows := if rows frn = [] then update rows frn [placeholder] else rows

def place (frn parentFrn : Frn) : ParentRef := if frn.Stale parentFrn then .lostFound else .of parentFrn

def resolve (frn parentFrn : Frn) (rows : Rows) : Rows :=
  if frn.Stale parentFrn then rows else ensure parentFrn (destroy parentFrn.Stale rows)

def rewrite (parent : ParentRef) (name : Bytes) (nameLossy isDir : Bool) (row : Row) : Row :=
  { row with
    parent := parent
    name := name
    flags := { row.flags with dir := isDir, nonUnicodeName := nameLossy, placeholder := false } }

def fresh (parent : ParentRef) (name : Bytes) (nameLossy isDir : Bool) : Row where
  parent := parent
  name := name
  flags := { dir := isDir, nonUnicodeName := nameLossy }
  size := sizeUnknown
  mtime := mtimeUnknown

def renameOnly (parent : ParentRef) (name : Bytes) (nameLossy isDir : Bool) : List Row → List Row
  | [] => [fresh parent name nameLossy isDir]
  | [row] => [rewrite parent name nameLossy isDir row]
  | more => more

def upsert (frn parentFrn : Frn) (name : Bytes) (nameLossy isDir : Bool) (rows : Rows) : Rows :=
  let resolved := resolve frn parentFrn (destroy frn.Stale rows)
  update resolved frn (renameOnly (place frn parentFrn) name nameLossy isDir (resolved frn))

def delete (frn : Frn) (rows : Rows) : Rows := destroy (· = frn) rows

/-- What a journal operation does to the names; the others only ask the daemon for work. -/
def applyOp (rows : Rows) : UsnOp → Rows
  | .upsert frn parent name nameLossy isDir => rows.upsert frn parent name nameLossy isDir
  | .delete frn => rows.delete frn
  | .linkDirty _ | .statDirty _ | .renameOldSeen _ => rows

def applyBatch (rows : Rows) (records : List ParsedUsnRecord) : Rows := (records.flatMap opsFor).foldl applyOp rows

section Destroy

variable {rows : Rows} {gone : Frn → Prop} [DecidablePred gone] {frn : Frn}

theorem orphan_of_spared {row : Row} (spared : ∀ g, row.parent = .of g → ¬ gone g) : orphan gone row = row := by
  unfold orphan
  split
  case h_1 frn at_ => rw [if_neg (spared frn at_)]
  case h_2 => rfl

theorem Sound.destroy_absent (sound : rows.Sound) (absent : ∀ g, gone g → rows g = []) : destroy gone rows = rows := by
  funext frn
  unfold destroy
  by_cases out : gone frn
  · rw [if_pos out, absent frn out]
  · rw [if_neg out]
    refine (List.map_congr_left fun row mem => ?_).trans (List.map_id _)
    exact orphan_of_spared fun g at_ out => sound.parents frn row g mem at_ (absent g out)

theorem Sound.destroy_congr (sound : rows.Sound) {gone' : Frn → Prop} [DecidablePred gone']
    (same : ∀ g, rows g ≠ [] → (gone' g ↔ gone g)) : destroy gone' rows = destroy gone rows := by
  funext frn
  unfold destroy
  by_cases present : rows frn = []
  · simp [present]
  · simp only [same frn present]
    congr 1
    refine List.map_congr_left fun row mem => ?_
    unfold orphan
    split
    case h_1 g at_ => simp only [same g (sound.parents frn row g mem at_)]
    case h_2 => rfl

theorem destroy_eq_nil : destroy gone rows frn = [] ↔ gone frn ∨ rows frn = [] := by
  unfold destroy
  split
  case isTrue out => simp [out]
  case isFalse out => simp [out]

theorem length_destroy (spared : ¬ gone frn) : (destroy gone rows frn).length = (rows frn).length := by
  simp [destroy, spared]

end Destroy

section Touches

variable {op : UsnOp}

def ParentTouches (frn parentFrn g : Frn) : Prop := ¬ frn.Stale parentFrn ∧ parentFrn.Stale g

instance (frn parentFrn g : Frn) : Decidable (ParentTouches frn parentFrn g) := inferInstanceAs (Decidable (_ ∧ _))

def UpsertTouches (rows : Rows) (frn parentFrn g : Frn) : Prop :=
  g = frn ∧ (rows frn).length < 2 ∨ frn.Stale g ∨ ParentTouches frn parentFrn g

def OpTouches (rows : Rows) : UsnOp → Frn → Prop
  | .upsert frn parent _ _ _, g => UpsertTouches rows frn parent g
  | .delete frn, g => g = frn
  | _, _ => False

def BatchTouches (rows : Rows) (records : List ParsedUsnRecord) (g : Frn) : Prop :=
  ∃ op ∈ records.flatMap opsFor, OpTouches rows op g

variable {rows : Rows} {frn parentFrn g : Frn}

theorem length_le_ensure : (rows g).length ≤ (ensure frn rows g).length := by
  unfold ensure
  split
  case isTrue empty =>
    by_cases same : g = frn
    · simp [same, empty]
    · rw [update_of_ne same]
  case isFalse => exact le_rfl

theorem length_le_resolve (spared : ¬ ParentTouches frn parentFrn g) :
    (rows g).length ≤ (resolve frn parentFrn rows g).length := by
  unfold resolve
  split
  case isTrue => exact le_rfl
  case isFalse fresh =>
    rw [← length_destroy fun stale => spared ⟨fresh, stale⟩]
    exact length_le_ensure

theorem not_parentTouches_self : ¬ ParentTouches frn parentFrn frn := fun touch => touch.1 touch.2.symm

theorem length_le_upsert {name : Bytes} {nameLossy isDir : Bool} (spared : ¬ UpsertTouches rows frn parentFrn g) :
    (rows g).length ≤ (upsert frn parentFrn name nameLossy isDir rows g).length := by
  have same : (rows.destroy frn.Stale g).length = (rows g).length :=
    length_destroy fun stale => spared (.inr (.inl stale))
  have resolved : (rows g).length ≤ (resolve frn parentFrn (rows.destroy frn.Stale) g).length := by
    rw [← same]
    exact length_le_resolve fun touch => spared (.inr (.inr touch))
  unfold upsert
  by_cases own : g = frn
  · subst own
    rw [update_self]
    have several : 2 ≤ (rows g).length := by
      by_contra few
      exact spared (.inl ⟨rfl, by omega⟩)
    match shape : resolve g parentFrn (destroy g.Stale rows) g with
    | [] =>
      rw [shape, List.length_nil] at resolved
      omega
    | [only] =>
      rw [shape, List.length_singleton] at resolved
      omega
    | first :: second :: rest => simpa [renameOnly, shape] using resolved
  · rw [update_of_ne own]
    exact resolved

theorem length_le_applyOp (spared : ¬ OpTouches rows op g) : (rows g).length ≤ (rows.applyOp op g).length := by
  cases op with
  | upsert frn parent name nameLossy isDir => exact length_le_upsert spared
  | delete frn =>
    have same : (rows.delete frn g).length = (rows g).length := length_destroy spared
    exact same.ge
  | linkDirty frn => exact le_rfl
  | statDirty frn => exact le_rfl
  | renameOldSeen frn => exact le_rfl

theorem OpTouches.before {other : UsnOp} (spared : ¬ OpTouches rows op g)
    (touch : OpTouches (rows.applyOp op) other g) : OpTouches rows other g := by
  have grown := length_le_applyOp spared
  cases other with
  | upsert frn parent name nameLossy isDir =>
    rcases touch with ⟨rfl, few⟩ | other
    · exact .inl ⟨rfl, by omega⟩
    · exact .inr other
  | delete frn => exact touch
  | linkDirty frn => exact touch
  | statDirty frn => exact touch
  | renameOldSeen frn => exact touch

end Touches

end Rows

namespace VolumeIndex

def parentRef (ix : VolumeIndex) (e : EntryIdx) : ParentRef :=
  match ix.entries.parent e with
  | none => .none
  | some p => if p = ix.lostFound then .lostFound else .of (ix.entries.frn p)

def row (ix : VolumeIndex) (e : EntryIdx) : Row where
  parent := ix.parentRef e
  name := ix.rawName e
  flags := ix.entries.flags e
  size := ix.entries.size e
  mtime := ix.entries.mtime e

def rows (ix : VolumeIndex) : Rows := fun frn => (ix.links frn).map ix.row

end VolumeIndex

end Goz
