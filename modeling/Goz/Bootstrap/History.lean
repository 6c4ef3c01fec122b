import Goz.Index.SingleLink

namespace Goz.Bootstrap

open Function Rows VolumeIndex

structure FileState where
  parent : Frn
  name : Bytes
  nameLossy : Bool
  isDir : Bool

/-- The files of a volume besides its root: one for each record number, each in a folder that is there. -/
structure Volume (rootFrn : Frn) where
  files : Frn → Option FileState
  root : files rootFrn = none
  tenant : ∀ f g, f = rootFrn ∨ files f ≠ none → g = rootFrn ∨ files g ≠ none → f.recordNumber = g.recordNumber → f = g
  parents : ∀ f file, files f = some file →
    file.parent ≠ f ∧ (file.parent = rootFrn ∨ ∃ folder, files file.parent = some folder ∧ folder.isDir = true)

structure Reports (rec : ParsedUsnRecord) (file : FileState) : Prop where
  parent : rec.parentFrn = file.parent
  name : rec.name = file.name
  nameLossy : rec.nameLossy = file.nameLossy
  isDir : rec.isDir = file.isDir

variable {rootFrn : Frn}

open UsnReason in
/-- One change on the volume and its journal record. A folder that is not empty cannot go, for the
    volume without it would have a file in no folder. -/
inductive Change (v v' : Volume rootFrn) (rec : ParsedUsnRecord) : Prop
  | create (file : FileState) (absent : v.files rec.frn = none) (after : v'.files = update v.files rec.frn (some file))
      (reports : Reports rec file) (named : rec.has (renameNewName ||| fileCreate) = true)
      (kept : rec.has fileDelete = false)
  | rename (old file : FileState) (present : v.files rec.frn = some old) (kind : file.isDir = old.isDir)
      (after : v'.files = update v.files rec.frn (some file))
      (reports : Reports rec file) (named : rec.has (renameNewName ||| fileCreate) = true)
      (kept : rec.has fileDelete = false)
  | delete (old : FileState) (present : v.files rec.frn = some old) (after : v'.files = update v.files rec.frn none)
      (reports : Reports rec old) (gone : rec.has fileDelete = true)

/-- What the snapshot inserts for an MFT record it reads: nothing for an unused one, the file that
    has it, with its one long name, otherwise. The root's record names the root as its own parent,
    or is left out. -/
inductive Sees (v : Volume rootFrn) (record : Nat) : Option IndexOp → Prop
  | nothing (free : ∀ f, v.files f ≠ none → f.recordNumber ≠ record) : Sees v record none
  | enum (rec : ParsedUsnRecord) (file : FileState) (at_ : v.files rec.frn = some file)
      (here : rec.frn.recordNumber = record) (reports : Reports rec file) : Sees v record (some (.insertEnum rec))
  | layout (layout : LayoutFile) (file : FileState) (at_ : v.files layout.frn = some file)
      (here : layout.frn.recordNumber = record) (isDir : layout.isDir = file.isDir)
      (named : longNames layout = [⟨file.parent, file.name, file.nameLossy, false⟩]) :
      Sees v record (some (.insertLayout layout))
  | root (layout : LayoutFile) (own : layout.frn = rootFrn) (here : rootFrn.recordNumber = record)
      (folder : layout.isDir = true) (self : ∀ n ∈ longNames layout, n.parentFrn = layout.frn) :
      Sees v record (some (.insertLayout layout))

inductive Event
  | change (rec : ParsedUsnRecord)
  | read (record : Nat) (inserted : Option IndexOp)

/-- What happens from the cursor on, in order: changes of the volume, and reads of the snapshot
    that see the volume of that moment. -/
inductive Watch : Volume rootFrn → List Event → Volume rootFrn → Prop
  | done (v : Volume rootFrn) : Watch v [] v
  | change {v v₁ v' : Volume rootFrn} {rec : ParsedUsnRecord} {events : List Event} (step : Change v v₁ rec)
      (rest : Watch v₁ events v') : Watch v (.change rec :: events) v'
  | read {v v' : Volume rootFrn} {record : Nat} {inserted : Option IndexOp} {events : List Event}
      (sees : Sees v record inserted) (rest : Watch v events v') : Watch v (.read record inserted :: events) v'

def journal : List Event → List ParsedUsnRecord
  | [] => []
  | .change rec :: events => rec :: journal events
  | .read _ _ :: events => journal events

def snapshot : List Event → List IndexOp
  | [] => []
  | .change _ :: events => snapshot events
  | .read _ inserted :: events => inserted.toList ++ snapshot events

section Volume

variable {v v' : Volume rootFrn} {file : FileState} {f : Frn}

def Volume.Alive (v : Volume rootFrn) (f : Frn) : Prop := f = rootFrn ∨ v.files f ≠ none

theorem Volume.alive_of (at_ : v.files f = some file) : v.Alive f :=
  .inr (by simp [at_])

theorem Volume.parent_alive (at_ : v.files f = some file) : v.Alive file.parent := by
  rcases (v.parents f file at_).2 with same | ⟨folder, there, -⟩
  · exact .inl same
  · exact Volume.alive_of there

theorem Volume.not_stale {g : Frn} (there : v.Alive f) (there' : v.Alive g) : ¬ f.Stale g :=
  fun stale => stale.1 (v.tenant g f there' there stale.2)

theorem Volume.place_eq (at_ : v.files f = some file) :
    place f file.parent = .of file.parent :=
  if_neg (Volume.not_stale (Volume.alive_of at_) (Volume.parent_alive at_))

theorem Volume.ne_root (at_ : v.files f = some file) : f ≠ rootFrn := by
  rintro rfl
  rw [v.root] at at_
  cases at_

end Volume

variable {frn : Frn} {names : List Row} {rec : ParsedUsnRecord} {ops : List UsnOp}

def upserts : IndexOp → List UsnOp
  | .insertEnum rec => [.upsert rec.frn rec.parentFrn rec.name rec.nameLossy rec.isDir]
  | .insertLayout layout =>
    (layoutName layout).toList.map fun n => .upsert layout.frn n.parentFrn n.name n.nameLossy layout.isDir
  | _ => []

theorem runOps_idle (idle : ∀ op ∈ ops, effect frn op = some { gone := fun _ => false }) :
    runOps frn ops names = names := by
  induction ops with
  | nil => rfl
  | cons op rest ih =>
    have first : runEffect names (effect frn op) = names := by
      rw [idle op (by simp)]
      exact Tweak.run_idle names
    show runOps frn rest (runEffect names (effect frn op)) = names
    rw [first]
    exact ih fun other mem => idle other (by simp [mem])

theorem runOps_append (ops ops' : List UsnOp) : runOps frn (ops ++ ops') names = runOps frn ops' (runOps frn ops names) :=
  List.foldl_append

open UsnReason in
theorem runOps_named (named : rec.has (renameNewName ||| fileCreate) = true) (kept : rec.has fileDelete = false) :
    runOps frn (opsFor rec) names =
      runEffect names (effect frn (.upsert rec.frn rec.parentFrn rec.name rec.nameLossy rec.isDir)) := by
  unfold opsFor
  simp only [kept, named, Bool.false_eq_true, if_false, if_true, List.append_assoc, List.cons_append, List.nil_append]
  show runOps frn _ (runEffect names _) = _
  apply runOps_idle
  intro op mem
  simp only [List.mem_append] at mem
  rcases mem with mem | mem | mem | mem
  all_goals
    split at mem
    · rw [List.mem_singleton] at mem
      subst mem
      rfl
    · exact absurd mem List.not_mem_nil

open UsnReason in
theorem runOps_deleted (gone : rec.has fileDelete = true) :
    runOps frn (opsFor rec) names = runEffect names (effect frn (.delete rec.frn)) := by
  unfold opsFor
  rw [if_pos gone]
  exact Tweak.run_idle _

theorem runOps_single (single : names.length ≤ 1) : (runOps frn ops names).length ≤ 1 := by
  induction ops generalizing names with
  | nil => exact single
  | cons op rest ih => exact ih (runEffect_single single _)

end Goz.Bootstrap
