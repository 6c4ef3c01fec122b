import Goz.Bootstrap.History

namespace Goz.Bootstrap

open Function Rows VolumeIndex

variable {f : Frn} {file : FileState} {rootFrn : Frn} {v v' : Volume rootFrn} {row : Row}

def Shows (file : FileState) (names : List Row) : Prop :=
  ∃ row, names = [row] ∧ row.parent = .of file.parent ∧ row.name = file.name ∧ row.flags.dir = file.isDir ∧
    row.flags.nonUnicodeName = file.nameLossy ∧ row.flags.placeholder = false

def tell (f : Frn) (file : FileState) : UsnOp := .upsert f file.parent file.name file.nameLossy file.isDir

section Steps

variable {s : Frn} {other : FileState} {names : List Row} {t : Tweak}

theorem Shows.single (shows_ : Shows file names) : names.length ≤ 1 := by
  obtain ⟨row, rfl, -⟩ := shows_
  exact le_rfl

theorem Volume.spares (there : v.Alive f) (at_ : v.files s = some other) :
    ¬ (s.Stale f ∨ ParentTouches s other.parent f) := by
  rintro (stale | ⟨-, stale⟩)
  · exact Volume.not_stale (Volume.alive_of at_) there stale
  · exact Volume.not_stale (Volume.parent_alive at_) there stale

theorem run_named {n : Naming} (named : t.named = some n) (single : names.length ≤ 1) :
    ∃ row, t.run names = [n.rewrite row] := by
  match names with
  | [] =>
    have there : t.present = true := by simp [Tweak.present, named]
    rw [Tweak.run_nil_of_present there, Tweak.one, named]
    exact ⟨_, rfl⟩
  | [row] =>
    rw [Tweak.run, Tweak.one, named]
    exact ⟨_, rfl⟩

theorem shows_told (at_ : v.files f = some file) (single : names.length ≤ 1) :
    Shows file (runEffect names (effect f (tell f file))) := by
  have place := Volume.place_eq at_
  have named : (upsertTweak f f file.parent file.name file.nameLossy file.isDir).named =
      some ⟨.of file.parent, file.name, file.nameLossy, file.isDir⟩ := by simp [upsertTweak, place]
  obtain ⟨row, eq⟩ := run_named named single
  unfold tell
  rw [effect_upsert_some f (Volume.spares (Volume.alive_of at_) at_)]
  exact ⟨_, eq, rfl, rfl, rfl, rfl, rfl⟩

theorem run_kept (unnamed : t.named = none)
    (spared : ∀ g, row.parent = .of g → t.gone g = false) : t.run [row] = [row] := by
  rw [Tweak.run, Tweak.one, unnamed]
  simp only
  rw [orphan_of_spared]
  intro g at_ gone
  rw [spared g at_] at gone
  cases gone

theorem kept_told (there : v.Alive f) (at_ : v.files s = some other) (ne : f ≠ s)
    (parent : ∀ g, row.parent = .of g → v.Alive g) : runEffect [row] (effect f (tell s other)) = [row] := by
  unfold tell
  rw [effect_upsert_some f (Volume.spares there at_)]
  apply run_kept
  · exact if_neg ne
  · intro g at'
    exact decide_eq_false (Volume.spares (parent g at') at_)

theorem shows_told_other (at_ : v.files f = some file) (at' : v.files s = some other) (ne : f ≠ s)
    (shows_ : Shows file names) : Shows file (runEffect names (effect f (tell s other))) := by
  obtain ⟨row, rfl, parent, rest⟩ := shows_
  rw [kept_told (Volume.alive_of at_) at' ne]
  · exact ⟨row, rfl, parent, rest⟩
  · intro g below
    rw [parent] at below
    obtain rfl := ParentRef.of.inj below
    exact Volume.parent_alive at_

theorem kept_deleted (ne : f ≠ s) (parent : row.parent ≠ .of s) : runEffect [row] (effect f (.delete s)) = [row] := by
  have meaning : effect f (.delete s) = some { gone := fun g => g = s } := if_neg ne
  rw [meaning]
  apply run_kept rfl
  intro g at_
  exact decide_eq_false fun same => parent (same ▸ at_)

theorem absent_told (ne : f ≠ s) (parent : f ≠ other.parent) : runEffect [] (effect f (tell s other)) = [] := by
  by_cases killed : s.Stale f ∨ ParentTouches s other.parent f
  · unfold tell
    rw [effect_upsert_none f killed]
    rfl
  · unfold tell
    rw [effect_upsert_some f killed]
    apply Tweak.run_nil_of_absent
    simp [Tweak.present, upsertTweak, ne, parent]

theorem absent_deleted (ne : f ≠ s) : runEffect [] (effect f (.delete s)) = [] := by
  have meaning : effect f (.delete s) = some { gone := fun g => g = s } := if_neg ne
  rw [meaning]
  rfl

end Steps

section Events

variable {v₁ : Volume rootFrn} {rec : ParsedUsnRecord} {inserted : Option IndexOp} {record : Nat}

theorem Change.told (step : Change v v₁ rec) :
    (∃ file, v₁.files = update v.files rec.frn (some file) ∧
      ∀ f names, runOps f (opsFor rec) names = runEffect names (effect f (tell rec.frn file))) ∨
    (∃ old, v.files rec.frn = some old ∧ v₁.files = update v.files rec.frn none ∧
      ∀ f names, runOps f (opsFor rec) names = runEffect names (effect f (.delete rec.frn))) := by
  have same : ∀ file, Reports rec file →
      tell rec.frn file = .upsert rec.frn rec.parentFrn rec.name rec.nameLossy rec.isDir := by
    intro file reports
    rw [tell, reports.parent, reports.name, reports.nameLossy, reports.isDir]
  cases step with
  | create file _ after reports named kept =>
    left
    refine ⟨file, after, fun f names => ?_⟩
    rw [runOps_named named kept, same file reports]
  | rename old file _ _ after reports named kept =>
    left
    refine ⟨file, after, fun f names => ?_⟩
    rw [runOps_named named kept, same file reports]
  | delete old present after _ gone =>
    right
    exact ⟨old, present, after, fun f names => runOps_deleted gone⟩

theorem Sees.told (sees : Sees v record inserted) :
    (inserted.toList.flatMap upserts = [] ∧ ∀ f, v.files f ≠ none → f.recordNumber ≠ record) ∨
    (∃ s other, v.files s = some other ∧ s.recordNumber = record ∧
      inserted.toList.flatMap upserts = [tell s other]) := by
  cases sees with
  | nothing free => exact .inl ⟨rfl, free⟩
  | enum rec file at_ here reports =>
    refine .inr ⟨rec.frn, file, at_, here, ?_⟩
    simp [upserts, tell, reports.parent, reports.name, reports.nameLossy, reports.isDir]
  | layout layout file at_ here isDir named =>
    refine .inr ⟨layout.frn, file, at_, here, ?_⟩
    have unlike : file.parent ≠ layout.frn := (v.parents layout.frn file at_).1
    simp [upserts, tell, layoutName_single named unlike, isDir]
  | root layout own here folder self =>
    refine .inl ⟨?_, fun f there same => ?_⟩
    · simp [upserts, layoutName_self self]
    · have root : f = rootFrn := v.tenant f rootFrn (.inr there) (.inl rfl) (same.trans here.symm)
      exact there (root ▸ v.root)

theorem Sees.keeps_root (sees : Sees v record inserted)
    (top : row.parent = .none) : runOps rootFrn (inserted.toList.flatMap upserts) [row] = [row] := by
  rcases sees.told with ⟨ops, -⟩ | ⟨s, file, at', -, ops⟩
  · rw [ops]
    rfl
  · rw [ops]
    exact kept_told (.inl rfl) at' (v.ne_root at').symm fun g at_ => by simp [top] at at_

end Events

variable {events : List Event}

def journalOps (events : List Event) : List UsnOp := (journal events).flatMap opsFor

def snapshotOps (events : List Event) : List UsnOp := (snapshot events).flatMap upserts

theorem runOps_change (rec : ParsedUsnRecord) (names : List Row) :
    runOps f (journalOps (.change rec :: events)) names = runOps f (journalOps events) (runOps f (opsFor rec) names) := by
  rw [journalOps, journal, List.flatMap_cons, runOps_append]
  rfl

theorem runOps_read (record : Nat) (inserted : Option IndexOp) (names : List Row) :
    runOps f (snapshotOps (.read record inserted :: events)) names =
      runOps f (snapshotOps events) (runOps f (inserted.toList.flatMap upserts) names) := by
  rw [snapshotOps, snapshot, List.flatMap_append, runOps_append]
  rfl

variable (watch : Watch v events v')
include watch

/-- A file that is there at the end is either told of in the journal, or was there all the time:
    then neither journal nor snapshot disturbs it, and the snapshot tells of it once it reads its record. -/
theorem Watch.told (at_ : v'.files f = some file) :
    (∀ names, names.length ≤ 1 → Shows file (runOps f (journalOps events) names)) ∨
    (v.files f = some file ∧
      (∀ names, Shows file names → Shows file (runOps f (journalOps events) names)) ∧
      (∀ names, Shows file names → Shows file (runOps f (snapshotOps events) names)) ∧
      ((∃ inserted, Event.read f.recordNumber inserted ∈ events) → ∀ names, names.length ≤ 1 →
        Shows file (runOps f (snapshotOps events) names))) := by
  induction watch with
  | done v => exact .inr ⟨at_, fun _ => id, fun _ => id, fun read => by simp at read⟩
  | @change v v₁ v' rec events step rest ih =>
    simp only [runOps_change]
    rcases ih at_ with told | ⟨there, later, kept, read⟩
    · exact .inl fun names single => told _ (runOps_single single)
    · rcases step.told with ⟨other, after, ops⟩ | ⟨old, present, after, ops⟩
      · have at₁ : v₁.files rec.frn = some other := by rw [after, update_self]
        by_cases own : f = rec.frn
        · left
          intro names single
          rw [← own, there] at at₁
          obtain rfl := Option.some.inj at₁
          rw [ops, ← own]
          exact later _ (shows_told there single)
        · right
          have before : v.files f = some file := by rwa [after, update_of_ne own] at there
          refine ⟨before, fun names shows_ => ?_, kept, fun ⟨inserted, mem⟩ => read ⟨inserted, by simpa using mem⟩⟩
          rw [ops]
          exact later _ (shows_told_other there at₁ own shows_)
      · have own : f ≠ rec.frn := by
          rintro rfl
          rw [after, update_self] at there
          cases there
        right
        have before : v.files f = some file := by rwa [after, update_of_ne own] at there
        refine ⟨before, fun names shows_ => ?_, kept, fun ⟨inserted, mem⟩ => read ⟨inserted, by simpa using mem⟩⟩
        obtain ⟨row, rfl, parent, shown⟩ := shows_
        have full : file.parent ≠ rec.frn := by
          intro same
          rcases (v₁.parents f file there).2 with root | ⟨folder, inside, -⟩
          · exact v.ne_root present (same ▸ root)
          · rw [same, after, update_self] at inside
            cases inside
        rw [ops, kept_deleted own (by simpa [parent] using full)]
        exact later _ ⟨row, rfl, parent, shown⟩
  | @read v v' record inserted events sees rest ih =>
    simp only [runOps_read]
    rcases ih at_ with told | ⟨there, later, kept, read⟩
    · exact .inl told
    · refine .inr ⟨there, later, ?_⟩
      rcases sees.told with ⟨ops, free⟩ | ⟨s, other, at', here, ops⟩
      · rw [ops]
        refine ⟨kept, ?_⟩
        rintro ⟨seen, mem⟩
        rcases List.mem_cons.mp mem with head | tail
        · have same : f.recordNumber = record := (Event.read.inj head).1
          exact absurd same (free f (by simp [there]))
        · exact read ⟨seen, tail⟩
      · rw [ops]
        by_cases own : f = s
        · have told : ∀ names, names.length ≤ 1 → Shows file (runOps f [tell s other] names) := by
            intro names single
            rw [← own, there] at at'
            obtain rfl := Option.some.inj at'
            rw [← own]
            exact shows_told there single
          exact ⟨fun names shows_ => kept _ (told names shows_.single), fun _ names single => kept _ (told names single)⟩
        · refine ⟨fun names shows_ => kept _ (shows_told_other there at' own shows_), ?_⟩
          rintro ⟨seen, mem⟩ names single
          rcases List.mem_cons.mp mem with head | tail
          · have same : f.recordNumber = record := (Event.read.inj head).1
            exact absurd (v.tenant f s (v.alive_of there) (v.alive_of at') (same.trans here.symm)) own
          · exact read ⟨seen, tail⟩ _ (runOps_single single)

/-- A file that is gone at the end was deleted in the journal, or neither journal nor snapshot knew of it. -/
theorem Watch.gone (absent : v'.files f = none) (other : f ≠ rootFrn) :
    (∀ names, runOps f (journalOps events) names = []) ∨
    (v.files f = none ∧ runOps f (journalOps events) [] = [] ∧ runOps f (snapshotOps events) [] = []) := by
  induction watch with
  | done v => exact .inr ⟨absent, rfl, rfl⟩
  | @change v v₁ v' rec events step rest ih =>
    simp only [runOps_change]
    rcases ih absent with told | ⟨out, later, unread⟩
    · exact .inl fun names => told _
    · rcases step.told with ⟨file, after, ops⟩ | ⟨old, present, after, ops⟩
      · have at₁ : v₁.files rec.frn = some file := by rw [after, update_self]
        have ne : f ≠ rec.frn := by
          rintro rfl
          rw [out] at at₁
          cases at₁
        have parent : f ≠ file.parent := by
          rintro rfl
          rcases v₁.parent_alive at₁ with root | there
          · exact other root
          · exact there out
        right
        rw [after, update_of_ne ne] at out
        rw [ops, absent_told ne parent]
        exact ⟨out, later, unread⟩
      · by_cases own : f = rec.frn
        · left
          intro names
          have meaning : effect f (.delete rec.frn) = none := if_pos own
          rw [ops, meaning]
          exact later
        · right
          rw [after, update_of_ne own] at out
          rw [ops, absent_deleted own]
          exact ⟨out, later, unread⟩
  | @read v v' record inserted events sees rest ih =>
    simp only [runOps_read]
    rcases ih absent with told | ⟨out, later, unread⟩
    · exact .inl told
    · refine .inr ⟨out, later, ?_⟩
      rcases sees.told with ⟨ops, -⟩ | ⟨s, file, at', -, ops⟩
      · rw [ops]
        exact unread
      · rw [ops]
        have ne : f ≠ s := by
          rintro rfl
          rw [out] at at'
          cases at'
        have parent : f ≠ file.parent := by
          rintro rfl
          rcases v.parent_alive at' with root | there
          · exact other root
          · exact there out
        show runOps f (snapshotOps events) (runEffect [] (effect f (tell s file))) = []
        rw [absent_told ne parent]
        exact unread

theorem Watch.root (top : row.parent = .none) :
    runOps rootFrn (journalOps events) [row] = [row] ∧ runOps rootFrn (snapshotOps events) [row] = [row] := by
  have above : ∀ (v : Volume rootFrn) g, row.parent = .of g → v.Alive g := fun v g at_ => by simp [top] at at_
  induction watch with
  | done v => exact ⟨rfl, rfl⟩
  | @change v v₁ v' rec events step rest ih =>
    refine ⟨?_, ih.2⟩
    rw [runOps_change]
    rcases step.told with ⟨file, after, ops⟩ | ⟨old, present, after, ops⟩
    · have at₁ : v₁.files rec.frn = some file := by rw [after, update_self]
      rw [ops, kept_told (.inl rfl) at₁ (v₁.ne_root at₁).symm (above v₁)]
      exact ih.1
    · rw [ops, kept_deleted (v.ne_root present).symm (by simp [top])]
      exact ih.1
  | @read v v' record inserted events sees rest ih =>
    refine ⟨ih.1, ?_⟩
    rw [runOps_read, sees.keeps_root top]
    exact ih.2

end Goz.Bootstrap
