import Goz.Index.Reachable
import Goz.Library.Replay

namespace Goz

open Function List

namespace Rows

structure Naming where
  parent : ParentRef
  name : Bytes
  nameLossy : Bool
  isDir : Bool

def Naming.rewrite (n : Naming) (row : Row) : Row := Rows.rewrite n.parent n.name n.nameLossy n.isDir row

/-- What one operation means to one file that it does not remove: whose removal may orphan its
    names, whether the file must be there afterwards, and the name it takes. -/
structure Tweak where
  gone : Frn → Bool
  fills : Bool := false
  named : Option Naming := none

namespace Tweak

def one (t : Tweak) (row : Row) : Row :=
  match t.named with
  | none => orphan (t.gone ·) row
  | some n => n.rewrite (orphan (t.gone ·) row)

def present (t : Tweak) : Bool := t.named.isSome || t.fills

def run (t : Tweak) : List Row → List Row
  | [] => if t.present then [t.one placeholder] else []
  | [row] => [t.one row]
  | rows => rows.map (orphan (t.gone ·))

end Tweak

def upsertTweak (frn subject parent : Frn) (name : Bytes) (nameLossy isDir : Bool) : Tweak where
  gone g := subject.Stale g ∨ ParentTouches subject parent g
  fills := frn = parent
  named := if frn = subject then some ⟨place subject parent, name, nameLossy, isDir⟩ else none

def effect (frn : Frn) : UsnOp → Option Tweak
  | .upsert subject parent name nameLossy isDir =>
    if subject.Stale frn ∨ ParentTouches subject parent frn then none
    else some (upsertTweak frn subject parent name nameLossy isDir)
  | .delete subject => if frn = subject then none else some { gone := fun g => g = subject }
  | .linkDirty _ | .statDirty _ | .renameOldSeen _ => some { gone := fun _ => false }

def runEffect (rows : List Row) : Option Tweak → List Row
  | none => []
  | some t => t.run rows

def runOps (frn : Frn) (ops : List UsnOp) (rows : List Row) : List Row :=
  ops.foldl (fun rows op => runEffect rows (effect frn op)) rows

section Orphan

variable {gone gone' : Frn → Prop} [DecidablePred gone] [DecidablePred gone'] {row : Row}

theorem orphan_orphan : orphan gone' (orphan gone row) = orphan (fun g => gone g ∨ gone' g) row := by
  obtain ⟨parent, name, flags, size, mtime⟩ := row
  cases parent with
  | none => rfl
  | lostFound => rfl
  | of frn => by_cases first : gone frn <;> simp [orphan, first]

theorem orphan_congr (same : ∀ g, gone g ↔ gone' g) : orphan gone row = orphan gone' row := by
  unfold orphan
  split
  case h_1 frn _ => simp only [same frn]
  case h_2 => rfl

theorem map_orphan_congr (same : ∀ g, gone g ↔ gone' g) (rows : List Row) :
    rows.map (orphan gone) = rows.map (orphan gone') := map_congr_left fun _ _ => orphan_congr same

theorem orphan_idem : orphan gone (orphan gone row) = orphan gone row := by
  rw [orphan_orphan]
  simp only [or_self]

theorem orphan_comm : orphan gone' (orphan gone row) = orphan gone (orphan gone' row) := by
  rw [orphan_orphan, orphan_orphan]
  simp only [or_comm]

theorem orphan_placeholder : orphan gone placeholder = placeholder := rfl

theorem rewrite_orphan (n : Naming) : n.rewrite (orphan gone row) = n.rewrite row := by
  obtain ⟨parent, name, flags, size, mtime⟩ := row
  cases parent with
  | none => rfl
  | lostFound => rfl
  | of frn => by_cases first : gone frn <;> simp [orphan, first, Naming.rewrite, rewrite]

theorem rewrite_rewrite (n m : Naming) : n.rewrite (m.rewrite row) = n.rewrite row := rfl

end Orphan

section Tweak

variable {t u : Tweak} {row row' : Row} {rows rows' : List Row}

theorem Tweak.one_idem : t.one (t.one row) = t.one row := by
  unfold Tweak.one
  cases t.named with
  | none => exact orphan_idem
  | some n => simp only [rewrite_orphan, rewrite_rewrite]

theorem Tweak.one_congr (same : t.one row = t.one row') : t.one (u.one row) = t.one (u.one row') := by
  unfold Tweak.one at same ⊢
  cases named : t.named with
  | none =>
    simp only [named] at same ⊢
    cases u.named with
    | none =>
      simp only
      rw [orphan_comm, same, orphan_comm]
    | some m =>
      have rest : m.rewrite row = m.rewrite row' := by
        have drop : ∀ row, m.rewrite (orphan (t.gone · = true) row) = m.rewrite row := fun row => rewrite_orphan m
        rw [← drop row, same, drop]
      simp only [rewrite_orphan, rest]
  | some n =>
    simp only [named, rewrite_orphan] at same ⊢
    cases u.named with
    | none => simpa only [rewrite_orphan] using same
    | some m => simpa only [rewrite_rewrite, rewrite_orphan] using same

theorem Tweak.run_nil_of_present (there : t.present = true) : t.run [] = [t.one placeholder] := if_pos there

theorem Tweak.run_nil_of_absent (absent : t.present = false) : t.run [] = [] := if_neg (Bool.eq_false_iff.mp absent)

theorem Tweak.run_placeholder_of_absent (absent : t.present = false) : t.run [placeholder] = [placeholder] := by
  have plain : t.named = none := by
    cases named : t.named with
    | none => rfl
    | some n => simp [present, named] at absent
  simp only [run, one, plain, orphan_placeholder]

theorem Tweak.run_idem (t : Tweak) (rows : List Row) : t.run (t.run rows) = t.run rows := by
  match rows with
  | [] =>
    cases there : t.present with
    | true =>
      rw [run_nil_of_present there]
      exact congrArg (fun row => [row]) one_idem
    | false => rw [run_nil_of_absent there, run_nil_of_absent there]
  | [row] => exact congrArg (fun row => [row]) one_idem
  | first :: second :: rest => simp only [run, map_cons, map_map, orphan_idem, comp_def]

theorem Tweak.run_eq (t : Tweak) (rows : List Row) {gone : Frn → Prop} [DecidablePred gone]
    (same : ∀ g, gone g ↔ t.gone g = true) {resolved : List Row}
    (resolves : resolved = if t.fills = true ∧ rows = [] then [placeholder] else rows.map (orphan gone)) :
    t.run rows = match t.named with
      | none => resolved
      | some n => renameOnly n.parent n.name n.nameLossy n.isDir resolved := by
  subst resolves
  rw [map_orphan_congr same]
  match rows with
  | [] =>
    cases named : t.named with
    | none => cases fills : t.fills <;> simp [run, present, one, named, fills, orphan_placeholder]
    | some n =>
      cases fills : t.fills
      · simp [run, present, one, named, orphan_placeholder]
        rfl
      · simp [run, present, one, named, orphan_placeholder]
        rfl
  | [row] => cases named : t.named <;> simp [run, one, named, renameOnly, Naming.rewrite]
  | first :: second :: rest => cases named : t.named <;> simp [run, renameOnly]

theorem Tweak.run_eq_nil (empty : t.run rows = []) : rows = [] := by
  match rows with
  | [] => rfl
  | [row] => simp [run] at empty
  | first :: second :: rest => simp [run] at empty

theorem Tweak.run_placeholder (there : t.present = true) : t.run (u.run []) = t.run (u.run [placeholder]) := by
  cases filled : u.present with
  | true => rw [run_nil_of_present filled]; rfl
  | false => rw [run_nil_of_absent filled, run_placeholder_of_absent filled, run_nil_of_present there]; rfl

theorem Tweak.run_congr_cons {first first' : Row} {rest rest' : List Row}
    (same : t.run (first :: rest) = t.run (first' :: rest')) :
    t.run (u.run (first :: rest)) = t.run (u.run (first' :: rest')) := by
  match rest, rest' with
  | [], [] =>
    have rows : t.one first = t.one first' := (List.cons.inj same).1
    exact congrArg (fun row => [row]) (one_congr rows)
  | [], _ :: _ => simp [run] at same
  | _ :: _, [] => simp [run] at same
  | second :: rest, second' :: rest' =>
    have maps : ∀ rows : List Row, (rows.map (orphan (u.gone · = true))).map (orphan (t.gone · = true)) =
        (rows.map (orphan (t.gone · = true))).map (orphan (u.gone · = true)) := by
      intro rows
      rw [map_map, map_map]
      exact map_congr_left fun row _ => orphan_comm
    have same : (first :: second :: rest).map (orphan (t.gone · = true)) =
        (first' :: second' :: rest').map (orphan (t.gone · = true)) := same
    show ((first :: second :: rest).map (orphan (u.gone · = true))).map (orphan (t.gone · = true)) =
      ((first' :: second' :: rest').map (orphan (u.gone · = true))).map (orphan (t.gone · = true))
    rw [maps, same, maps]

theorem Tweak.run_congr (same : t.run rows = t.run rows') : t.run (u.run rows) = t.run (u.run rows') := by
  cases there : t.present with
  | false =>
    match rows, rows' with
    | [], [] => rfl
    | [], first' :: rest' =>
      rw [run_nil_of_absent there] at same
      exact absurd (run_eq_nil same.symm) (cons_ne_nil _ _)
    | first :: rest, [] =>
      rw [run_nil_of_absent there] at same
      exact absurd (run_eq_nil same) (cons_ne_nil _ _)
    | first :: rest, first' :: rest' => exact run_congr_cons same
  | true =>
    -- the empty list behaves as a placeholder on both sides
    have filled : ∀ rows : List Row, ∃ first rest, t.run (first :: rest) = t.run rows ∧
        t.run (u.run (first :: rest)) = t.run (u.run rows) := by
      intro rows
      cases rows with
      | nil => exact ⟨placeholder, [], (run_nil_of_present there).symm, (run_placeholder there).symm⟩
      | cons first rest => exact ⟨first, rest, rfl, rfl⟩
    obtain ⟨first, rest, before, after⟩ := filled rows
    obtain ⟨first', rest', before', after'⟩ := filled rows'
    rw [← after, ← after']
    exact run_congr_cons (before.trans (same.trans before'.symm))

theorem runEffect_idem (rows : List Row) (e : Option Tweak) : runEffect (runEffect rows e) e = runEffect rows e := by
  cases e with
  | none => rfl
  | some t => exact t.run_idem rows

theorem runEffect_congr {e : Option Tweak} (d : Option Tweak)
    (same : runEffect rows e = runEffect rows' e) :
    runEffect (runEffect rows d) e = runEffect (runEffect rows' d) e := by
  cases e with
  | none => rfl
  | some t =>
    cases d with
    | none => rfl
    | some u => exact Tweak.run_congr same

end Tweak

section Pointwise

variable (rows : Rows) (frn : Frn) {subject parent : Frn} {nameLossy : Bool} {name : Bytes} {isDir : Bool}

theorem resolve_apply (spared : ¬ (subject.Stale frn ∨ ParentTouches subject parent frn)) :
    resolve subject parent (destroy subject.Stale rows) frn =
      if frn = parent ∧ rows frn = [] then [placeholder]
      else (rows frn).map (orphan fun g => subject.Stale g ∨ ParentTouches subject parent g) := by
  obtain ⟨mine, parents⟩ := not_or.mp spared
  have first : destroy subject.Stale rows frn = (rows frn).map (orphan subject.Stale) := if_neg mine
  unfold resolve
  by_cases stale : subject.Stale parent
  · have other : frn ≠ parent := fun same => mine (same ▸ stale)
    rw [if_pos stale, if_neg fun both => other both.1, first]
    apply map_orphan_congr
    exact fun g => ⟨.inl, fun touch => touch.resolve_right fun parents => parents.1 stale⟩
  · have spare : ¬ parent.Stale frn := fun touch => parents ⟨stale, touch⟩
    have second : destroy parent.Stale (destroy subject.Stale rows) frn =
        (rows frn).map (orphan fun g => subject.Stale g ∨ ParentTouches subject parent g) := by
      rw [destroy, if_neg spare, first, map_map]
      apply map_congr_left
      intro row _
      rw [comp_apply, orphan_orphan]
      exact orphan_congr fun g => or_congr_right ⟨fun touch => ⟨stale, touch⟩, And.right⟩
    rw [if_neg stale]
    unfold ensure
    by_cases own : frn = parent
    · subst own
      by_cases empty : rows frn = []
      · simp [second, empty]
      · simp [second, empty]
    · simp only [own, false_and, if_false]
      split
      · rw [update_of_ne own, second]
      · exact second

theorem effect_upsert_none
    (killed : subject.Stale frn ∨ ParentTouches subject parent frn) :
    effect frn (.upsert subject parent name nameLossy isDir) = none := if_pos killed

theorem effect_upsert_some
    (spared : ¬ (subject.Stale frn ∨ ParentTouches subject parent frn)) :
    effect frn (.upsert subject parent name nameLossy isDir) =
      some (upsertTweak frn subject parent name nameLossy isDir) := if_neg spared

theorem upsert_apply (subject parent : Frn) (name : Bytes) (nameLossy isDir : Bool) :
    rows.upsert subject parent name nameLossy isDir frn =
      runEffect (rows frn) (effect frn (.upsert subject parent name nameLossy isDir)) := by
  unfold upsert
  by_cases killed : subject.Stale frn ∨ ParentTouches subject parent frn
  · have other : frn ≠ subject := by
      rintro rfl
      rcases killed with stale | touch
      · exact stale.1 rfl
      · exact not_parentTouches_self touch
    rw [effect_upsert_none frn killed, update_of_ne other]
    show _ = []
    rcases killed with stale | ⟨fresh, stale⟩
    · exact VolumeIndex.rows_resolve_stale rows stale
    · have gone : destroy parent.Stale (destroy subject.Stale rows) frn = [] := destroy_eq_nil.mpr (.inl stale)
      unfold resolve ensure
      simp only [if_neg fresh]
      split
      · rw [update_of_ne stale.1, gone]
      · exact gone
  · set t := upsertTweak frn subject parent name nameLossy isDir with tweak
    have gone : ∀ g, (subject.Stale g ∨ ParentTouches subject parent g) ↔ t.gone g = true := by simp [tweak, upsertTweak]
    have fills : frn = parent ↔ t.fills = true := by simp [tweak, upsertTweak]
    have resolved := resolve_apply rows frn killed
    simp only [fills] at resolved
    rw [effect_upsert_some frn killed]
    show _ = t.run (rows frn)
    rw [t.run_eq (rows frn) gone resolved]
    by_cases own : frn = subject
    · have named : t.named = some ⟨place subject parent, name, nameLossy, isDir⟩ := if_pos own
      simp only [named]
      rw [own, update_self]
    · have named : t.named = none := if_neg own
      simp only [named]
      rw [update_of_ne own]

theorem Tweak.run_idle (names : List Row) : Tweak.run { gone := fun _ => false } names = names := by
  have kept : names = names.map (orphan fun _ => False) :=
    ((map_congr_left fun row _ => orphan_of_spared fun _ _ => id).trans (map_id _)).symm
  rw [Tweak.run_eq _ names (fun g => (by simp : False ↔ false = true)) (by simpa using kept)]

theorem applyOp_apply (op : UsnOp) : rows.applyOp op frn = runEffect (rows frn) (effect frn op) := by
  cases op with
  | upsert subject parent name nameLossy isDir => exact upsert_apply rows frn subject parent name nameLossy isDir
  | delete subject =>
    by_cases own : frn = subject
    · have meaning : effect frn (.delete subject) = none := if_pos own
      rw [meaning]
      exact if_pos own
    · have meaning : effect frn (.delete subject) = some { gone := fun g => g = subject } := if_neg own
      have deleted : rows.applyOp (.delete subject) frn = (rows frn).map (orphan (· = subject)) := if_neg own
      rw [meaning]
      show _ = Tweak.run _ (rows frn)
      rw [Tweak.run_eq _ (rows frn) (fun g => (by simp : g = subject ↔ decide (g = subject) = true)) (by simpa using deleted)]
  | linkDirty _ => exact (Tweak.run_idle (rows frn)).symm
  | statDirty _ => exact (Tweak.run_idle (rows frn)).symm
  | renameOldSeen _ => exact (Tweak.run_idle (rows frn)).symm

theorem applyBatch_apply (records : List ParsedUsnRecord) :
    rows.applyBatch records frn = runOps frn (records.flatMap opsFor) (rows frn) := by
  unfold applyBatch runOps
  generalize records.flatMap opsFor = ops
  induction ops generalizing rows with
  | nil => rfl
  | cons op rest ih => rw [foldl_cons, ih, applyOp_apply, foldl_cons]

theorem overwrites_effect : Replay.Overwrites fun (names : List Row) op => runEffect names (effect frn op) where
  idem names op := runEffect_idem names (effect frn op)
  congr _ other _ _ same := runEffect_congr (effect frn other) same

theorem applyBatch_applyBatch (records : List ParsedUsnRecord) :
    (rows.applyBatch records).applyBatch records = rows.applyBatch records := by
  funext frn
  rw [applyBatch_apply, applyBatch_apply]
  exact (overwrites_effect frn).replay _ _

end Pointwise

end Rows

namespace VolumeIndex

/-- A batch applied twice leaves the names it leaves when applied once. -/
theorem applyBatch_replayed [Externals] {rootFrn : Frn} {ix : VolumeIndex} (reachable : Reachable rootFrn ix)
    (records : List ParsedUsnRecord) :
    ((ix.applyBatch records).1.applyBatch records).1.rows = (ix.applyBatch records).1.rows := by
  have inv := reachable.invariant
  have once := inv.applyBatch records
  have twice := (once.invariant inv).applyBatch records
  rw [twice.rows, once.rows]
  exact Rows.applyBatch_applyBatch ix.rows records

def successorRecord : ParsedUsnRecord :=
  { folderRecord with frn := ⟨0x0002000000000006⟩, name := [0x62] }

theorem folderIndex_replayed :
    letI := Externals.ascii
    let records := [folderRecord, successorRecord]
    ((folderIndex.applyBatch records).1.applyBatch records).1.rows = (folderIndex.applyBatch records).1.rows :=
  letI := Externals.ascii
  applyBatch_replayed reachable_folderIndex _

end VolumeIndex

end Goz
