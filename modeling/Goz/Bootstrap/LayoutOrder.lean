import Goz.Bootstrap.Index
import Goz.Index.Cycles
import Goz.Index.LayoutRows

namespace Goz.Bootstrap

open Function Rows VolumeIndex List

variable {rootFrn p frn : Frn} {rootRow : Row} {notes : Notes} {file : LayoutFile}
variable {names : List Row} {g : Frn} {row : Row} {more : Notes}

/-- What layout records told so far: the names of their files, and the parents they mentioned. -/
@[ext]
structure Notes where
  known : Rows
  mentioned : Set Frn

namespace Notes

def mention (p : Frn) (notes : Notes) : Notes := { notes with mentioned := insert p notes.mentioned }

def set (frn : Frn) (names : List Row) (notes : Notes) : Notes := { notes with known := update notes.known frn names }

/-- No two FRNs share a record number, and no record has the root's. -/
structure Agree (rootFrn : Frn) (notes : Notes) : Prop where
  apart : ∀ f g, notes.known f ≠ [] → notes.known g ≠ [] → ¬ f.Stale g
  told : ∀ p ∈ notes.mentioned, ∀ g, notes.known g ≠ [] → ¬ p.Stale g
  agree : ∀ p ∈ notes.mentioned, ∀ q ∈ notes.mentioned, ¬ p.Stale q
  root : ∀ g, notes.known g ≠ [] → g.recordNumber ≠ rootFrn.recordNumber

def Closed (notes : Notes) : Prop := ∀ g, ∀ row ∈ notes.known g, ∃ p ∈ notes.mentioned, row.parent = .of p

theorem Agree.mono {less : Notes} (agree : more.Agree rootFrn)
    (known : ∀ g, less.known g ≠ [] → more.known g ≠ []) (mentioned : less.mentioned ⊆ more.mentioned) : less.Agree rootFrn where
  apart f g hf hg := agree.apart f g (known f hf) (known g hg)
  told p mem g hg := agree.told p (mentioned mem) g (known g hg)
  agree p hp q hq := agree.agree p (mentioned hp) q (mentioned hq)
  root g hg := agree.root g (known g hg)

end Notes

open Classical in
/-- The index the notes stand for: the known names, a placeholder for every other file mentioned, and
    the root unless a parent claims its record number. -/
noncomputable def form (rootFrn : Frn) (rootRow : Row) (notes : Notes) : Rows := fun g =>
  if notes.known g ≠ [] then notes.known g
  else if g = rootFrn then if ∃ p ∈ notes.mentioned, p.Stale rootFrn then [] else [rootRow]
  else if g ∈ notes.mentioned then [placeholder]
  else []

theorem form_known (there : notes.known frn ≠ []) : form rootFrn rootRow notes frn = notes.known frn := if_pos there

open Classical in
theorem form_congr {notes' : Notes} (known : notes'.known g = notes.known g)
    (mentioned : g ∈ notes'.mentioned ↔ g ∈ notes.mentioned)
    (claimed : g = rootFrn → ((∃ p ∈ notes'.mentioned, p.Stale rootFrn) ↔ ∃ p ∈ notes.mentioned, p.Stale rootFrn)) :
    form rootFrn rootRow notes' g = form rootFrn rootRow notes g := by
  unfold form
  rw [known]
  split
  · rfl
  · split
    case isTrue root => exact if_congr (claimed root) rfl rfl
    case isFalse => exact if_congr mentioned rfl rfl

theorem form_set (some_ : names ≠ []) :
    update (form rootFrn rootRow notes) frn names = form rootFrn rootRow (notes.set frn names) := by
  funext g
  by_cases own : g = frn
  · subst own
    simp [form, Notes.set, some_]
  · rw [update_of_ne own]
    apply Eq.symm
    apply form_congr
    · exact update_of_ne own ..
    · rfl
    · exact fun _ => Iff.rfl

theorem parent_of_form (top : rootRow.parent = .none) (closed : notes.Closed) {q : Frn}
    (mem : row ∈ form rootFrn rootRow notes g) (at_ : row.parent = .of q) : q ∈ notes.mentioned := by
  unfold form at mem
  split at mem
  · obtain ⟨p, inside, under⟩ := closed g row mem
    rw [at_] at under
    rwa [ParentRef.of.inj under]
  · split at mem
    · split at mem
      · cases mem
      · rw [mem_singleton.mp mem, top] at at_
        cases at_
    · split at mem
      · rw [mem_singleton.mp mem] at at_
        cases at_
      · cases mem

theorem form_destroy (top : rootRow.parent = .none) (closed : notes.Closed) {gone : Frn → Prop} [DecidablePred gone]
    (spared : ∀ q ∈ notes.mentioned, ¬ gone q) (g : Frn) :
    destroy gone (form rootFrn rootRow notes) g = if gone g then [] else form rootFrn rootRow notes g := by
  unfold destroy
  split
  · rfl
  · rw [map_congr_left (g := id), map_id]
    intro row mem
    exact orphan_of_spared fun q at_ => spared q (parent_of_form top closed mem at_)

theorem form_mention_of_ne (away : g ≠ p) (current : ¬ p.Stale g) :
    form rootFrn rootRow (notes.mention p) g = form rootFrn rootRow notes g := by
  apply form_congr
  · rfl
  · simp [Notes.mention, away]
  · rintro rfl
    simp [Notes.mention, current]

theorem Notes.Agree.form_stale (agree : more.Agree rootFrn) (here : more.known frn ≠ [])
    (known : ∀ g, notes.known g ≠ [] → more.known g ≠ []) (mentioned : notes.mentioned ⊆ more.mentioned)
    (stale : frn.Stale g) : form rootFrn rootRow notes g = [] := by
  have empty : notes.known g = [] := by
    by_contra there
    exact agree.apart frn g here (known g there) stale
  have away : g ≠ rootFrn := fun same => agree.root frn here (same ▸ stale.2.symm)
  have unmentioned : g ∉ notes.mentioned := fun mem => agree.told g (mentioned mem) frn here stale.symm
  simp [form, empty, away, unmentioned]

theorem form_resolve (top : rootRow.parent = .none) (closed : notes.Closed) (agree : (notes.mention p).Agree rootFrn)
    (current : ¬ frn.Stale p) :
    resolve frn p (form rootFrn rootRow notes) = form rootFrn rootRow (notes.mention p) := by
  have mine : p ∈ (notes.mention p).mentioned := Set.mem_insert ..
  have spared : ∀ q ∈ notes.mentioned, ¬ p.Stale q := fun q mem => agree.agree p mine q (Set.mem_insert_of_mem _ mem)
  have self : ¬ p.Stale p := fun stale => stale.1 rfl
  have destroyed : ∀ g, destroy p.Stale (form rootFrn rootRow notes) g = _ := form_destroy top closed spared
  have before : destroy p.Stale (form rootFrn rootRow notes) p = form rootFrn rootRow notes p := by
    rw [destroyed, if_neg self]
  rw [resolve, if_neg current, ensure, before]
  funext g
  by_cases own : g = p
  · subst own
    by_cases known : notes.known g = []
    · by_cases root : g = rootFrn
      · subst root
        have held : ¬ ∃ q ∈ notes.mentioned, q.Stale g := by
          rintro ⟨q, mem, stale⟩
          exact spared q mem stale.symm
        have after : ¬ ∃ q ∈ (notes.mention g).mentioned, q.Stale g := by
          rintro ⟨q, mem, stale⟩
          exact agree.agree g mine q mem stale.symm
        have shown : form g rootRow notes g = [rootRow] := by simp [form, known, held]
        have shown' : form g rootRow (notes.mention g) g = [rootRow] := by
          rw [form, if_neg (by simpa [Notes.mention] using known), if_pos rfl, if_neg after]
        rw [shown, if_neg (by simp), before, shown, shown']
      · have shown' : form rootFrn rootRow (notes.mention g) g = [placeholder] := by
          simp [form, Notes.mention, known, root]
        rw [shown']
        by_cases mem : g ∈ notes.mentioned
        · have shown : form rootFrn rootRow notes g = [placeholder] := by simp [form, known, root, mem]
          rw [shown, if_neg (by simp), before, shown]
        · have empty : form rootFrn rootRow notes g = [] := by simp [form, known, root, mem]
          rw [if_pos empty, update_self]
    · have there : (notes.mention g).known g ≠ [] := known
      rw [form_known known, if_neg known, before, form_known known, form_known there]
      rfl
  · have elsewhere : (if form rootFrn rootRow notes p = [] then
        update (destroy p.Stale (form rootFrn rootRow notes)) p [placeholder]
        else destroy p.Stale (form rootFrn rootRow notes)) g = destroy p.Stale (form rootFrn rootRow notes) g := by
      split
      · rw [update_of_ne own]
      · rfl
    rw [elsewhere, destroyed]
    split
    case isTrue stale =>
      have unknown : notes.known g = [] := by
        by_contra known
        exact agree.told p mine g known stale
      have unmentioned : g ∉ notes.mentioned := fun mem => spared g mem stale
      unfold form Notes.mention
      by_cases root : g = rootFrn
      · subst root
        simp [unknown, stale]
      · simp [unknown, root, own, unmentioned]
    case isFalse fresh => exact (form_mention_of_ne own fresh).symm

section Records

variable {n : LayoutName}

def told (names : List Row) (n : LayoutName) : List Row := addName (.of n.parentFrn) n names

def ownRows (file : LayoutFile) : List Row :=
  match longNames file with
  | [] => []
  | n :: rest =>
    let first := [fresh (.of n.parentFrn) n.name n.nameLossy file.isDir]
    let named := if file.isDir then first else (n :: rest).foldl told first
    named.map (stat (if file.isDir then none else file.size) file.mtimeFt)

def mentions (file : LayoutFile) : List Frn :=
  if file.isDir then ((longNames file).head?.map (·.parentFrn)).toList else (longNames file).map (·.parentFrn)

def record (notes : Notes) (file : LayoutFile) : Notes where
  known := update notes.known file.frn (ownRows file)
  mentioned := notes.mentioned ∪ { p | p ∈ mentions file }

theorem addName_ne_nil {parent : ParentRef} (some_ : names ≠ []) : addName parent n names ≠ [] := by
  unfold addName
  split
  · exact some_
  · simp

theorem foldl_told_ne_nil (some_ : names ≠ []) (more : List LayoutName) : more.foldl told names ≠ [] := by
  induction more generalizing names with
  | nil => exact some_
  | cons n rest ih => exact ih (addName_ne_nil some_)

theorem mem_foldl_told {more : List LayoutName} (mem : row ∈ more.foldl told names) :
    row ∈ names ∨ ∃ n ∈ more, row.parent = .of n.parentFrn := by
  induction more generalizing names with
  | nil => exact .inl mem
  | cons n rest ih =>
    rcases ih mem with before | ⟨m, inside, at_⟩
    · unfold told addName at before
      split at before
      · exact .inl before
      · rcases mem_append.mp before with before | new
        · exact .inl before
        · rw [mem_singleton.mp new]
          exact .inr ⟨n, by simp, rfl⟩
    · exact .inr ⟨m, by simp [inside], at_⟩

theorem ownRows_ne_nil (named : longNames file ≠ []) : ownRows file ≠ [] := by
  unfold ownRows
  split
  case h_1 empty => exact absurd empty named
  case h_2 n rest _ =>
    simp only [ne_eq, map_eq_nil_iff]
    split
    · simp
    · exact foldl_told_ne_nil (by simp) _

theorem parent_of_ownRows (mem : row ∈ ownRows file) : ∃ p ∈ mentions file, row.parent = .of p := by
  unfold ownRows at mem
  split at mem
  case h_1 => cases mem
  case h_2 n rest all =>
    obtain ⟨old, inside, rfl⟩ := mem_map.mp mem
    unfold mentions
    rw [all]
    split at inside
    case isTrue folder =>
      rw [if_pos folder, mem_singleton.mp inside]
      exact ⟨n.parentFrn, by simp, rfl⟩
    case isFalse plain =>
      rw [if_neg plain]
      rcases mem_foldl_told inside with first | ⟨m, among, at_⟩
      · rw [mem_singleton.mp first]
        exact ⟨n.parentFrn, by simp, rfl⟩
      · exact ⟨m.parentFrn, mem_map_of_mem among, at_⟩

theorem form_addMissing (top : rootRow.parent = .none) (closed : notes.Closed)
    (agree : (notes.mention n.parentFrn).Agree rootFrn) (there : notes.known frn ≠ []) :
    addMissing frn (form rootFrn rootRow notes) n =
      form rootFrn rootRow ((notes.mention n.parentFrn).set frn (told (notes.known frn) n)) := by
  have current : ¬ frn.Stale n.parentFrn := fun stale => agree.told _ (Set.mem_insert ..) frn there stale.symm
  have still : (notes.mention n.parentFrn).known frn ≠ [] := there
  unfold addMissing
  simp only [form_resolve top closed agree current, place, if_neg current, form_known still]
  exact form_set (addName_ne_nil there)

theorem Notes.Closed.mention (closed : notes.Closed) (p : Frn) : (notes.mention p).Closed := by
  intro g row mem
  obtain ⟨q, inside, at_⟩ := closed g row mem
  exact ⟨q, Set.mem_insert_of_mem _ inside, at_⟩

theorem Notes.Closed.set (closed : notes.Closed)
    (parents : ∀ row ∈ names, ∃ p ∈ notes.mentioned, row.parent = .of p) : (notes.set frn names).Closed := by
  intro g row mem
  by_cases own : g = frn
  · subst own
    simp only [Notes.set, update_self] at mem
    exact parents row mem
  · simp only [Notes.set, update_of_ne own] at mem
    exact closed g row mem

theorem form_addMissings (top : rootRow.parent = .none) (closed : notes.Closed) (there : notes.known frn ≠ [])
    (more : List LayoutName)
    (agree : Notes.Agree rootFrn ⟨notes.known, notes.mentioned ∪ { p | p ∈ more.map (·.parentFrn) }⟩) :
    more.foldl (addMissing frn) (form rootFrn rootRow notes) =
      form rootFrn rootRow ⟨update notes.known frn (more.foldl told (notes.known frn)),
        notes.mentioned ∪ { p | p ∈ more.map (·.parentFrn) }⟩ := by
  induction more generalizing notes with
  | nil => simp
  | cons n rest ih =>
    have first : (notes.mention n.parentFrn).Agree rootFrn := by
      refine agree.mono (fun g known => ?_) ?_
      · exact known
      · rintro p (rfl | mem)
        · exact .inr (by simp)
        · exact .inl mem
    rw [foldl_cons, form_addMissing top closed first there]
    have all : insert n.parentFrn notes.mentioned ∪ { p | p ∈ rest.map (·.parentFrn) } =
        notes.mentioned ∪ { p | p ∈ (n :: rest).map (·.parentFrn) } := by
      ext p
      simp only [Set.mem_union, Set.mem_insert_iff, Set.mem_ofPred_eq, map_cons, mem_cons]
      tauto
    rw [ih]
    · show form rootFrn rootRow ⟨update (update notes.known frn _) frn (rest.foldl told (update notes.known frn _ frn)),
        insert n.parentFrn notes.mentioned ∪ _⟩ = _
      rw [all, update_idem, update_self]
      rfl
    · apply (closed.mention _).set
      intro row mem
      have last : row ∈ [n].foldl told (notes.known frn) := mem
      rcases mem_foldl_told last with before | ⟨m, among, at_⟩
      · exact (closed.mention _) frn row before
      · rw [mem_singleton.mp among] at at_
        exact ⟨_, Set.mem_insert .., at_⟩
    · simpa [Notes.set] using foldl_told_ne_nil there [n]
    · show Notes.Agree rootFrn ⟨_, insert n.parentFrn notes.mentioned ∪ _⟩
      rw [all]
      refine agree.mono (fun g known => ?_) subset_rfl
      by_cases own : g = frn
      · exact own ▸ there
      · simpa [Notes.set, Notes.mention, own] using known

theorem longNames_of_layoutName (named : layoutName file = some n) : ∃ rest, longNames file = n :: rest := by
  have found : (longNames file).head? = some n := by
    rw [longNames, head?_filter]
    exact (Option.filter_eq_some_iff.mp named).1
  exact head?_eq_some_iff.mp found

theorem form_upsert (top : rootRow.parent = .none) (closed : notes.Closed) {name : Bytes} {nameLossy isDir : Bool}
    (unknown : notes.known frn = [])
    (agree : ((notes.mention p).set frn [fresh (.of p) name nameLossy isDir]).Agree rootFrn) :
    upsert frn p name nameLossy isDir (form rootFrn rootRow notes) =
      form rootFrn rootRow ((notes.mention p).set frn [fresh (.of p) name nameLossy isDir]) := by
  have here : ((notes.mention p).set frn [fresh (.of p) name nameLossy isDir]).known frn ≠ [] := by simp [Notes.set]
  have known : ∀ g, notes.known g ≠ [] →
      ((notes.mention p).set frn [fresh (.of p) name nameLossy isDir]).known g ≠ [] := by
    intro g there
    have away : g ≠ frn := fun same => there (same ▸ unknown)
    simpa [Notes.set, Notes.mention, away] using there
  have told : ∀ q ∈ notes.mentioned, ¬ frn.Stale q := fun q mem stale =>
    agree.told q (Set.mem_insert_of_mem _ mem) frn here stale.symm
  have current : ¬ frn.Stale p := fun stale => agree.told p (Set.mem_insert ..) frn here stale.symm
  have notRoot : frn ≠ rootFrn := fun same => agree.root frn here (congrArg _ same)
  have destroyed : destroy frn.Stale (form rootFrn rootRow notes) = form rootFrn rootRow notes := by
    funext g
    rw [form_destroy top closed told]
    split
    case isFalse => rfl
    case isTrue stale => exact (agree.form_stale here known (Set.subset_insert ..) stale).symm
  have renamed : renameOnly (.of p) name nameLossy isDir (form rootFrn rootRow (notes.mention p) frn) =
      [fresh (.of p) name nameLossy isDir] := by
    have empty : (notes.mention p).known frn = [] := unknown
    by_cases mem : frn ∈ (notes.mention p).mentioned
    · have shown : form rootFrn rootRow (notes.mention p) frn = [placeholder] := by simp [form, empty, notRoot, mem]
      rw [shown]
      rfl
    · have shown : form rootFrn rootRow (notes.mention p) frn = [] := by simp [form, empty, notRoot, mem]
      rw [shown]
      rfl
  unfold upsert
  simp only [destroyed, form_resolve top closed (agree.mono known subset_rfl) current, place, if_neg current, renamed]
  exact form_set (by simp)

theorem form_setStat (there : notes.known frn ≠ []) (size : Option UInt64) (mtime : Option Int64) :
    Rows.setStat frn size mtime (form rootFrn rootRow notes) =
      form rootFrn rootRow (notes.set frn ((notes.known frn).map (stat size mtime))) := by
  rw [Rows.setStat, form_known there]
  exact form_set (by simpa using there)

theorem form_insertNamed (top : rootRow.parent = .none) (closed : notes.Closed)
    (named : layoutName file = some n) (unknown : notes.known file.frn = []) (agree : (record notes file).Agree rootFrn) :
    insertNamed file n (form rootFrn rootRow notes) = form rootFrn rootRow (record notes file) := by
  obtain ⟨rest, all⟩ := longNames_of_layoutName named
  have full : ownRows file ≠ [] := ownRows_ne_nil (by simp [all])
  have mine : n.parentFrn ∈ mentions file := by
    unfold mentions
    split <;> simp [all]
  set first := [fresh (.of n.parentFrn) n.name n.nameLossy file.isDir] with isFirst
  have less : ∀ g names, update notes.known file.frn names g ≠ [] → (record notes file).known g ≠ [] := by
    intro g names there
    by_cases own : g = file.frn
    · subst own
      simpa [record] using full
    · simpa [record, own] using there
  have agree₁ : ((notes.mention n.parentFrn).set file.frn first).Agree rootFrn := by
    refine agree.mono (fun g => less g first) ?_
    rintro p (rfl | mem)
    · exact .inr mine
    · exact .inl mem
  have closed₁ : ((notes.mention n.parentFrn).set file.frn first).Closed := by
    apply (closed.mention _).set
    intro row mem
    rw [isFirst, mem_singleton] at mem
    exact ⟨n.parentFrn, Set.mem_insert .., by rw [mem]; rfl⟩
  have there : ((notes.mention n.parentFrn).set file.frn first).known file.frn = first := update_self ..
  have some_ : ((notes.mention n.parentFrn).set file.frn first).known file.frn ≠ [] := by
    rw [there, isFirst]
    simp
  unfold insertNamed
  simp only
  rw [form_upsert top closed unknown agree₁, ← isFirst]
  by_cases folder : file.isDir = true
  · rw [if_pos folder, if_pos folder, form_setStat some_]
    apply congrArg
    apply Notes.ext
    · have own : ownRows file = first.map (stat none file.mtimeFt) := by
        simp [ownRows, all, folder, isFirst]
      rw [there, ← own]
      exact update_idem ..
    · have listed : { p | p ∈ mentions file } = {n.parentFrn} := by simp [mentions, folder, all]
      show insert n.parentFrn notes.mentioned = notes.mentioned ∪ { p | p ∈ mentions file }
      rw [listed, Set.union_singleton]
  · have listed : { p | p ∈ mentions file } = { p | p ∈ (longNames file).map (·.parentFrn) } := by simp [mentions, folder]
    have absorbed : insert n.parentFrn notes.mentioned ∪ { p | p ∈ (longNames file).map (·.parentFrn) } =
        notes.mentioned ∪ { p | p ∈ mentions file } := by
      rw [← listed, Set.insert_union, Set.insert_eq_of_mem (.inr mine)]
    have looped := form_addMissings top closed₁ some_ (longNames file) (by
      show Notes.Agree rootFrn ⟨_, insert n.parentFrn notes.mentioned ∪ _⟩
      rw [absorbed]
      exact agree.mono (fun g => less g first) subset_rfl)
    have own : ownRows file = ((longNames file).foldl told first).map (stat file.size file.mtimeFt) := by
      simp [ownRows, all, folder, isFirst]
    have more : (longNames file).foldl told first ≠ [] := foldl_told_ne_nil (by simp [isFirst]) _
    rw [if_neg folder, if_neg folder]
    show Rows.setStat _ _ _ ((longNames file).foldl _ _) = _
    rw [looped, there, form_setStat (by simpa using more)]
    apply congrArg
    apply Notes.ext
    · simp only [Notes.set, record, update_idem, update_self, own]
      rfl
    · exact absorbed

end Records

section Sets

variable {files : List LayoutFile}

/-- Records of different files, none of them the root, each with a long name, none its own parent, that all mean the same
    file by a record number. -/
structure Consistent (rootFrn : Frn) (files : List LayoutFile) : Prop where
  distinct : (files.map fun file => file.frn.recordNumber).Nodup
  root : ∀ file ∈ files, file.frn.recordNumber ≠ rootFrn.recordNumber
  named : ∀ file ∈ files, longNames file ≠ []
  proper : ∀ file ∈ files, ∀ n ∈ longNames file, n.parentFrn ≠ file.frn
  parents : ∀ a ∈ files, ∀ b ∈ files, ∀ n ∈ longNames a, ∀ m ∈ longNames b, ¬ n.parentFrn.Stale m.parentFrn
  files : ∀ a ∈ files, ∀ b ∈ files, ∀ n ∈ longNames a, ¬ n.parentFrn.Stale b.frn

def notesOf (files : List LayoutFile) : Notes := files.foldl record ⟨fun _ => [], ∅⟩

theorem notesOf_append (files : List LayoutFile) (file : LayoutFile) :
    notesOf (files ++ [file]) = record (notesOf files) file := by
  simp [notesOf]

theorem known_notesOf (there : (notesOf files).known g ≠ []) : ∃ file ∈ files, file.frn = g := by
  induction files using reverseRecOn with
  | nil => exact absurd rfl there
  | append_singleton files file ih =>
    rw [notesOf_append] at there
    by_cases own : file.frn = g
    · exact ⟨file, by simp, own⟩
    · obtain ⟨other, mem, same⟩ := ih (by simpa [record, Ne.symm own] using there)
      exact ⟨other, by simp [mem], same⟩

theorem mentioned_notesOf (mem : p ∈ (notesOf files).mentioned) :
    ∃ file ∈ files, ∃ n ∈ longNames file, n.parentFrn = p := by
  induction files using reverseRecOn with
  | nil => cases mem
  | append_singleton files file ih =>
    rw [notesOf_append] at mem
    rcases mem with before | new
    · obtain ⟨other, inside, told⟩ := ih before
      exact ⟨other, by simp [inside], told⟩
    · refine ⟨file, by simp, ?_⟩
      have new : p ∈ mentions file := new
      unfold mentions at new
      split at new
      · obtain ⟨n, first, at_⟩ : ∃ n, (longNames file).head? = some n ∧ n.parentFrn = p := by simpa using new
        exact ⟨n, mem_of_mem_head? first, at_⟩
      · exact mem_map.mp new

theorem closed_notesOf (files : List LayoutFile) : (notesOf files).Closed := by
  induction files using reverseRecOn with
  | nil => exact fun g row mem => by cases mem
  | append_singleton files file ih =>
    rw [notesOf_append]
    intro g row mem
    by_cases own : g = file.frn
    · subst own
      simp only [record, update_self] at mem
      obtain ⟨p, told, at_⟩ := parent_of_ownRows mem
      exact ⟨p, .inr told, at_⟩
    · simp only [record, update_of_ne own] at mem
      obtain ⟨p, told, at_⟩ := ih g row mem
      exact ⟨p, .inl told, at_⟩

theorem Consistent.agree (consistent : Consistent rootFrn files) : (notesOf files).Agree rootFrn where
  apart f g hf hg stale := by
    obtain ⟨a, ha, rfl⟩ := known_notesOf hf
    obtain ⟨b, hb, rfl⟩ := known_notesOf hg
    exact stale.1 (congrArg _ (inj_on_of_nodup_map consistent.distinct hb ha stale.2))
  told p mem g hg := by
    obtain ⟨a, ha, n, long, rfl⟩ := mentioned_notesOf mem
    obtain ⟨b, hb, rfl⟩ := known_notesOf hg
    exact consistent.files a ha b hb n long
  agree p hp q hq := by
    obtain ⟨a, ha, n, long, rfl⟩ := mentioned_notesOf hp
    obtain ⟨b, hb, m, long', rfl⟩ := mentioned_notesOf hq
    exact consistent.parents a ha b hb n long m long'
  root g hg := by
    obtain ⟨file, mem, rfl⟩ := known_notesOf hg
    exact consistent.root file mem

theorem Consistent.of_subset {more : List LayoutFile} (consistent : Consistent rootFrn more) (sub : ∀ file ∈ files, file ∈ more)
    (distinct : (files.map fun file => file.frn.recordNumber).Nodup) : Consistent rootFrn files where
  distinct := distinct
  root file mem := consistent.root file (sub file mem)
  named file mem := consistent.named file (sub file mem)
  proper file mem := consistent.proper file (sub file mem)
  parents a ha b hb := consistent.parents a (sub a ha) b (sub b hb)
  files a ha b hb := consistent.files a (sub a ha) b (sub b hb)

theorem Consistent.layoutName (consistent : Consistent rootFrn files) (mem : file ∈ files) : ∃ n, layoutName file = some n := by
  obtain ⟨n, rest, all⟩ := exists_cons_of_ne_nil (consistent.named file mem)
  have found : file.names.find? (fun n => !n.dosOnly) = some n := by
    rw [← head?_filter]
    exact congrArg List.head? all
  have proper := consistent.proper file mem n (by simp [all])
  exact ⟨n, Option.filter_eq_some_iff.mpr ⟨found, by simpa using proper⟩⟩

theorem notesOf_perm {files' : List LayoutFile} (consistent : Consistent rootFrn files) (perm : files.Perm files') :
    notesOf files = notesOf files' := by
  apply perm.foldl_eq'
  intro a ha b hb notes
  by_cases same : a = b
  · rw [same]
  · have away : a.frn ≠ b.frn := by
      intro equal
      exact same (inj_on_of_nodup_map consistent.distinct ha hb (congrArg _ equal))
    apply Notes.ext
    · exact update_comm away _ _ _
    · exact Set.union_right_comm ..

variable [Externals]

theorem Consistent.built {frnMap : FrnMap} (empty : ∀ r, frnMap.get r = none) (consistent : Consistent rootFrn files) :
    let built := files.foldl insertLayout (new rootFrn frnMap)
    built.Invariant ∧ built.HeadsOnly ∧ ∃ rootRow : Row, rootRow.parent = .none ∧
      (new rootFrn frnMap).rows rootFrn = [rootRow] ∧ built.rows = form rootFrn rootRow (notesOf files) := by
  intro built
  obtain ⟨others, rootRow, only, top, -⟩ := rows_new rootFrn empty
  suffices built.Invariant ∧ built.HeadsOnly ∧ built.rows = form rootFrn rootRow (notesOf files) from
    ⟨this.1, this.2.1, rootRow, top, only, this.2.2⟩
  induction files using reverseRecOn with
  | nil =>
    refine ⟨invariant_new rootFrn empty, ?_, ?_⟩
    · intro e p live under
      have none_ := parent_new rootFrn frnMap e
      rw [show built.entries.parent e = none from none_] at under
      cases under
    · funext g
      by_cases root : g = rootFrn
      · subst root
        exact only.trans (by simp [form, notesOf])
      · exact (others g root).trans (by simp [form, notesOf, root])
  | append_singleton files file ih =>
    have mem : file ∈ files ++ [file] := by simp
    have prior : Consistent rootFrn files := by
      apply consistent.of_subset
      · intro other mem
        simp [mem]
      · have distinct := consistent.distinct
        rw [map_append] at distinct
        exact (nodup_append.mp distinct).1
    obtain ⟨inv, heads, rows⟩ := ih prior
    have agree := consistent.agree
    rw [notesOf_append] at agree ⊢
    have named := consistent.named file mem
    obtain ⟨n, chosen⟩ := consistent.layoutName mem
    have unknown : (notesOf files).known file.frn = [] := by
      by_contra there
      obtain ⟨other, inside, same⟩ := known_notesOf there
      have distinct := consistent.distinct
      rw [map_append] at distinct
      exact (nodup_append.mp distinct).2.2 _ (mem_map_of_mem inside) file.frn.recordNumber (by simp) (by rw [same])
    have here : (record (notesOf files) file).known file.frn ≠ [] := by simpa [record] using ownRows_ne_nil named
    have known : ∀ g, (notesOf files).known g ≠ [] → (record (notesOf files) file).known g ≠ [] := by
      intro g there
      have away : g ≠ file.frn := fun same => there (same ▸ unknown)
      simpa [record, away] using there
    have clean : ∀ g, file.frn.Stale g → (files.foldl insertLayout (new rootFrn frnMap)).rows g = [] := by
      intro g stale
      rw [rows]
      exact agree.form_stale here known Set.subset_union_left stale
    obtain ⟨rows', heads'⟩ := inv.rows_insertLayout heads chosen clean
    have inserted : built = (files.foldl insertLayout (new rootFrn frnMap)).insertLayout file := by simp [built]
    rw [inserted]
    refine ⟨(inv.insertLayout file).invariant inv, heads', ?_⟩
    rw [rows', rows]
    exact form_insertNamed top (closed_notesOf files) chosen unknown agree

end Sets

variable [Externals] {ix ix' : VolumeIndex} {e e' : EntryIdx}

/-- The entries have the same place among the names of one file, or are both lost+found. -/
def Twin (ix ix' : VolumeIndex) (e e' : EntryIdx) : Prop :=
  (e = ix.lostFound ∧ e' = ix'.lostFound) ∨ ∃ (g : Frn) (i : Nat), (ix.links g)[i]? = some e ∧ (ix'.links g)[i]? = some e'

omit [Externals] in
theorem row_of_place (same : ix'.rows = ix.rows) {i : Nat} (at_ : (ix.links g)[i]? = some e)
    (at' : (ix'.links g)[i]? = some e') : ix'.row e' = ix.row e := by
  have here : (ix.rows g)[i]? = some (ix.row e) := by rw [rows, getElem?_map, at_, Option.map_some]
  have there : (ix'.rows g)[i]? = some (ix'.row e') := by rw [rows, getElem?_map, at', Option.map_some]
  rw [same, here] at there
  exact (Option.some.inj there).symm

omit [Externals] in
theorem parentRef_none_iff : ix.parentRef e = .none ↔ ix.entries.parent e = none := by
  cases above : ix.entries.parent e with
  | none => simp [parentRef, above]
  | some p =>
    rw [parentRef_of_parent above, refTo]
    split <;> simp

variable (inv : ix.Invariant)
include inv

theorem first_link {head : EntryIdx} (found : ix.headOf g = some head) :
    (ix.links g)[0]? = some head := by
  obtain ⟨chains, tenants⟩ := inv.tenants
  have linked := tenants.linked g.recordNumber
  rw [(headOf_some_iff.mp found).1, ← tenants.links_of_head inv.integrity found] at linked
  rw [← List.head?_eq_getElem?]
  exact linked.head.symm

/-- Indexes with the same names, all of them under first names of folders, have the same folders above each name. -/
theorem mirrors_twins (inv' : ix'.Invariant) (heads : ix.HeadsOnly) (heads' : ix'.HeadsOnly)
    (same : ix'.rows = ix.rows) : Mirrors ix ix' (Twin ix ix') where
  live e e' twin := by
    rcases twin with ⟨rfl, rfl⟩ | ⟨g, i, at_, at'⟩
    · exact ⟨inv.integrity.lost_live, inv'.integrity.lost_live⟩
    · exact ⟨(inv.mem_links.mp (mem_of_getElem? at_)).1, (inv'.mem_links.mp (mem_of_getElem? at')).1⟩
  lost e e' twin := by
    rcases twin with ⟨rfl, rfl⟩ | ⟨g, i, at_, at'⟩
    · exact iff_of_true rfl rfl
    · exact iff_of_false (inv.mem_links.mp (mem_of_getElem? at_)).2.1 (inv'.mem_links.mp (mem_of_getElem? at')).2.1
  name e e' twin notLost := by
    rcases twin with ⟨lost, -⟩ | ⟨g, i, at_, at'⟩
    · exact absurd lost notLost
    · exact congrArg Row.name (row_of_place same at_ at')
  up e e' twin := by
    rcases twin with ⟨rfl, rfl⟩ | ⟨g, i, at_, at'⟩
    · rw [inv.integrity.lost_top, inv'.integrity.lost_top]
      exact .none
    · have live := (inv.mem_links.mp (mem_of_getElem? at_)).1
      have live' := (inv'.mem_links.mp (mem_of_getElem? at')).1
      have ref : ix'.parentRef e' = ix.parentRef e := congrArg Row.parent (row_of_place same at_ at')
      cases above : ix.entries.parent e with
      | none =>
        rw [parentRef_none_iff.mpr above, parentRef_none_iff] at ref
        rw [ref]
        exact .none
      | some p =>
        cases above' : ix'.entries.parent e' with
        | none =>
          rw [parentRef_none_iff.mpr above', eq_comm, parentRef_none_iff, above] at ref
          cases ref
        | some p' =>
          apply Option.Rel.some
          rw [parentRef_of_parent above, parentRef_of_parent above', refTo, refTo] at ref
          by_cases lost : p = ix.lostFound
          · rw [if_pos lost] at ref
            split at ref
            case isTrue lost' => exact .inl ⟨lost, lost'⟩
            case isFalse => cases ref
          · rw [if_neg lost] at ref
            split at ref
            case isTrue => cases ref
            case isFalse lost' =>
              have found := (heads e p live above).resolve_left lost
              have found' := (heads' e' p' live' above').resolve_left lost'
              rw [ParentRef.of.inj ref] at found'
              exact .inr ⟨_, 0, first_link inv found, first_link inv' found'⟩

theorem links_root (top : rootRow.parent = .none)
    (rows : ix.rows rootFrn = [rootRow]) : ix.links rootFrn = [ix.root] := by
  obtain ⟨e, links, row⟩ := map_eq_singleton_iff.mp rows
  have mem : e ∈ ix.links rootFrn := by simp [links]
  obtain ⟨live, notLost, -⟩ := inv.mem_links.mp mem
  have above : ix.entries.parent e = none := parentRef_none_iff.mp ((congrArg Row.parent row).trans top)
  rw [links, (inv.integrity.top e live above).resolve_right notLost]

theorem rows_root_of_ok {notes : Notes} (closed : notes.Closed)
    (rows : ix.rows = form rootFrn rootRow notes) {out : Bytes} (ok : (ix.pathOf e out).1 = .ok) :
    ix.rows rootFrn = [rootRow] := by
  obtain ⟨live, top, ⟨⟨k, -, way⟩, end_⟩, notLost⟩ := pathOf_ok ok
  have topLive := inv.integrity.ascend_live live way
  have mem : ix.row top ∈ form rootFrn rootRow notes (ix.entries.frn top) := by
    rw [← rows]
    exact mem_map_of_mem (inv.mem_links.mpr ⟨topLive, notLost, rfl⟩)
  have above : (ix.row top).parent = .none := parentRef_none_iff.mpr end_
  unfold form at mem
  split at mem
  · obtain ⟨p, -, under⟩ := closed _ _ mem
    rw [above] at under
    cases under
  · split at mem
    case isTrue unknown root =>
      split at mem
      · cases mem
      case isFalse held =>
        rw [root] at unknown
        rw [rows, form, if_neg unknown, if_pos rfl, if_neg held]
    case isFalse =>
      split at mem
      · rw [mem_singleton.mp mem] at above
        cases above
      · cases mem

theorem twin_root (inv' : ix'.Invariant) (root : ix.links rootFrn = [ix.root])
    (root' : ix'.links rootFrn = [ix'.root]) (twin : Twin ix ix' e e') : e = ix.root ↔ e' = ix'.root := by
  have own := (inv.mem_links.mp (show ix.root ∈ ix.links rootFrn by simp [root])).2.2
  have own' := (inv'.mem_links.mp (show ix'.root ∈ ix'.links rootFrn by simp [root'])).2.2
  rcases twin with ⟨rfl, rfl⟩ | ⟨g, i, at_, at'⟩
  · exact iff_of_false inv.integrity.apart.symm inv'.integrity.apart.symm
  · have mine := (inv.mem_links.mp (mem_of_getElem? at_)).2.2
    have mine' := (inv'.mem_links.mp (mem_of_getElem? at')).2.2
    by_cases here : g = rootFrn
    · subst here
      rw [root, getElem?_singleton] at at_
      rw [root', getElem?_singleton] at at'
      split at at_
      case isTrue first =>
        rw [if_pos first] at at'
        exact iff_of_true (Option.some.inj at_).symm (Option.some.inj at').symm
      case isFalse => cases at_
    · apply iff_of_false
      · intro same
        exact here (mine.symm.trans (same ▸ own))
      · intro same
        exact here (mine'.symm.trans (same ▸ own'))

omit inv

/-- Layout records of a new index may come in any order: the files have the same names, in the same order and with the
    same flags, sizes and dates, and every name has the same path or none. -/
theorem layout_order_irrelevant {rootFrn : Frn} {frnMap : FrnMap} (empty : ∀ r, frnMap.get r = none)
    {files files' : List LayoutFile} (consistent : Consistent rootFrn files) (perm : files.Perm files') :
    let ix := files.foldl insertLayout (new rootFrn frnMap)
    let ix' := files'.foldl insertLayout (new rootFrn frnMap)
    ix'.rows = ix.rows ∧ ∀ g, Forall₂ (fun e e' => ∀ out, (ix'.pathOf e' out).1 = (ix.pathOf e out).1 ∧
      ((ix.pathOf e out).1 = .ok → ix'.pathOf e' out = ix.pathOf e out)) (ix.links g) (ix'.links g) := by
  intro ix ix'
  have consistent' : Consistent rootFrn files' := consistent.of_subset (fun file => perm.mem_iff.mpr)
    ((perm.map _).nodup_iff.mp consistent.distinct)
  obtain ⟨inv, heads, rootRow, top, only, rows⟩ := consistent.built empty
  obtain ⟨inv', heads', rootRow', -, only', rows'⟩ := consistent'.built empty
  obtain rfl : rootRow' = rootRow := singleton_inj.mp (only'.symm.trans only)
  have same : ix'.rows = ix.rows := by
    rw [rows', rows, notesOf_perm consistent perm]
  have mirrors := mirrors_twins inv inv' heads heads' same
  refine ⟨same, fun g => forall₂_iff_get.mpr ⟨?_, fun i lt lt' out => ?_⟩⟩
  · have lengths := congrArg (fun rows => (rows g).length) same
    simpa [VolumeIndex.rows] using lengths.symm
  · have twin : Twin ix ix' ((ix.links g).get ⟨i, lt⟩) ((ix'.links g).get ⟨i, lt'⟩) := .inr ⟨g, i, by simp, by simp⟩
    obtain ⟨status, path⟩ := mirrors.pathOf inv.integrity.lost_top twin out
    refine ⟨status, fun ok => path ok fun x x' pair => ?_⟩
    have root := rows_root_of_ok inv (closed_notesOf files) rows ok
    exact twin_root inv inv' (links_root inv top root) (links_root inv' top ((congrFun same rootFrn).trans root)) pair

omit [Externals] in
/-- A file before its folder, and after it. -/
theorem layout_order_folder_late :
    letI := Externals.ascii
    let folder : LayoutFile := ⟨⟨0x0001000000000006⟩, 0x10, none, none, [⟨ntfsRootFrn, [0x61], false, false⟩]⟩
    let file : LayoutFile := ⟨⟨0x0001000000000007⟩, 0, none, none, [⟨⟨0x0001000000000006⟩, [0x78], false, false⟩]⟩
    Consistent ntfsRootFrn [folder, file] ∧
      ([file, folder].foldl insertLayout (new ntfsRootFrn (.sparse []))).rows =
        ([folder, file].foldl insertLayout (new ntfsRootFrn (.sparse []))).rows := by
  let _ := Externals.ascii
  intro folder file
  have consistent : Consistent ntfsRootFrn [folder, file] := by
    constructor <;> decide
  exact ⟨consistent, (layout_order_irrelevant (fun _ => rfl) consistent (Perm.swap file folder [])).1⟩

end Goz.Bootstrap
