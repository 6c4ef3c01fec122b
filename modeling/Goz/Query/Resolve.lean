import Goz.Core.Codec
import Goz.Index.Cycles
import Goz.Index.NameRuns

namespace Goz

open Ascent VolumeIndex List Externals

variable {names : List Bytes} {ix : VolumeIndex} {e p : EntryIdx} {name text comp : Bytes} {b : UInt8}

def isSeparator (b : UInt8) : Bool := b = 0x5C || b = 0x2F

theorem isSeparator_iff : isSeparator b = true ↔ b = 0x5C ∨ b = 0x2F := by simp [isSeparator]

theorem isSeparator.low (is : isSeparator b = true) : b.toNat < 0x80 := by
  rcases isSeparator_iff.mp is with rfl | rfl <;> decide

section Scope

variable [Externals]

def scopeComponents (path : Bytes) : List Bytes := (path.splitOnP isSeparator).filter fun c => !c.isEmpty

def resolveScope (ix : VolumeIndex) (path : Bytes) (matchCase : Bool) : Option EntryIdx :=
  if matchCase then
    (scopeComponents path).foldlM
      (fun cur comp => (ix.children cur).find? fun idx =>
        !ix.isSynthetic idx && (ix.entries.flags idx).dir && ix.rawName idx = comp)
      ix.root
  else (scopeComponents path).foldlM (fun cur comp => ix.childDir cur (fold comp)) ix.root

end Scope

section Components

def ProperComponent (name : Bytes) : Prop := name ≠ [] ∧ ∀ b ∈ name, isSeparator b = false

theorem scopeComponents_append {sep : UInt8} (is : isSeparator sep = true) (left right : Bytes) :
    scopeComponents (left ++ sep :: right) = scopeComponents left ++ scopeComponents right := by
  rw [scopeComponents, splitOnP_append_cons left right is, filter_append]
  rfl

@[simp] theorem scopeComponents_nil : scopeComponents [] = [] := rfl

theorem scopeComponents_proper (proper : ProperComponent name) : scopeComponents name = [name] := by
  rw [scopeComponents, splitOnP_eq_singleton proper.2]
  simp [proper.1]

theorem scopeComponents_joinPath (path : Bytes) (proper : ProperComponent name) :
    scopeComponents (joinPath path name) = scopeComponents path ++ [name] := by
  unfold joinPath
  by_cases empty : path = []
  · simp [empty, scopeComponents_proper proper]
  · have join : (if path.isEmpty then [] else path ++ [0x5C]) ++ name = path ++ 0x5C :: name := by simp [empty]
    rw [join, scopeComponents_append rfl, scopeComponents_proper proper]

theorem scopeComponents_joined (proper : ∀ n ∈ names, ProperComponent n) :
    scopeComponents (names.foldl joinPath []) = names := by
  induction names using reverseRecOn with
  | nil => rfl
  | append_singleton names name ih =>
    rw [foldl_append, foldl_cons, foldl_nil, scopeComponents_joinPath _ (proper name (by simp)),
      ih fun n mem => proper n (mem_append_left _ mem)]

variable [Externals]

/-- Folding takes a path component by component: it neither makes a separator nor loses one. -/
structure FoldsComponents : Prop extends FoldJoins where
  separators : ∀ text : Bytes, Wtf8.WellFormed text → ∀ sep, isSeparator sep = true → (sep ∈ fold text ↔ sep ∈ text)

theorem ProperComponent.fold (folds : FoldsComponents) (proper : ProperComponent name) (whole : Wtf8.WellFormed name) :
    ProperComponent (Goz.fold name) := by
  refine ⟨fun gone => proper.1 (folds.keeps name whole gone), fun b inside => ?_⟩
  by_contra is
  rw [Bool.not_eq_false] at is
  exact absurd (proper.2 b ((folds.separators name whole b is).mp inside)) (by simp [is])

theorem scopeComponents_fold (folds : FoldsComponents) (whole : Wtf8.WellFormed text) (plain : 0x2F ∉ text) :
    scopeComponents (fold text) = (scopeComponents text).map fold := by
  induction length : text.length using Nat.strong_induction_on generalizing text with
  | _ n ih =>
    by_cases divided : (0x5C : UInt8) ∈ text
    · obtain ⟨left, right, rfl⟩ := append_of_mem divided
      obtain ⟨wholeLeft, wholeRight⟩ := whole.split (by decide)
      simp only [mem_append, mem_cons, not_or] at plain
      simp only [length_append, length_cons] at length
      rw [folds.splits left right wholeLeft wholeRight, scopeComponents_append rfl, scopeComponents_append rfl, map_append,
        ih left.length (by omega) wholeLeft plain.1 rfl, ih right.length (by omega) wholeRight plain.2.2 rfl]
    · by_cases empty : text = []
      · subst empty
        rfl
      · have proper : ProperComponent text := by
          refine ⟨empty, fun b inside => ?_⟩
          have back : b ≠ 0x5C := fun same => divided (same ▸ inside)
          have slash : b ≠ 0x2F := fun same => plain (same ▸ inside)
          simp [isSeparator, back, slash]
        rw [scopeComponents_proper proper, scopeComponents_proper (proper.fold folds whole)]
        rfl

omit [Externals] in
theorem foldsComponents_ascii : @FoldsComponents ascii := by
  let _ := ascii
  refine ⟨foldJoins_ascii, ?_⟩
  rintro text ⟨cps, scalars, rfl⟩ sep is
  have low := isSeparator.low is
  have lowered : ∀ cp ∈ cps.map lowerCodePoint, cp ≤ 0x10FFFF := by
    intro cp mem
    obtain ⟨c, inside, rfl⟩ := mem_map.mp mem
    have scalar : (c : Nat) ≤ 0x10FFFF := scalars c inside
    unfold lowerCodePoint
    split <;> omega
  have other : ∀ cp : Nat, lowerCodePoint cp = sep.toNat ↔ cp = sep.toNat := by
    have value : sep.toNat = 0x5C ∨ sep.toNat = 0x2F := by rcases isSeparator_iff.mp is with rfl | rfl <;> simp
    intro cp
    unfold lowerCodePoint
    split <;> omega
  rw [fold_ascii scalars, Wtf8.mem_encode_low lowered low, Wtf8.mem_encode_low scalars low]
  simp [mem_map, other]

omit [Externals] in
theorem plain_joined (proper : ∀ n ∈ names, ProperComponent n) : (0x2F : UInt8) ∉ names.foldl joinPath [] := by
  induction names using reverseRecOn with
  | nil => simp
  | append_singleton names name ih =>
    have last : (0x2F : UInt8) ∉ name := fun inside => absurd ((proper name (by simp)).2 _ inside) (by decide)
    have before := ih fun n mem => proper n (mem_append_left _ mem)
    rw [foldl_append, foldl_cons, foldl_nil, joinPath]
    split <;> simp [last, before]

end Components

section Ways

variable [Externals]

inductive Named (ix : VolumeIndex) : List Bytes → EntryIdx → Prop
  | root : Named ix [] ix.root
  | child {names : List Bytes} {p e : EntryIdx} (above : Named ix names p) (live : ix.Live e)
      (at_ : ix.entries.parent e = some p) : Named ix (names ++ [ix.rawName e]) e

omit [Externals] in
theorem Named.ascend (named : Named ix names e) : ascend ix.entries.parent names.length e = some ix.root := by
  induction named with
  | root => rfl
  | child _ _ at_ ih =>
    rw [length_append, length_singleton, ascend_succ, at_]
    exact ih

theorem named_of_ascend (ok : ix.Integrity) {k : Nat} (live : ix.Live e) (way : Ascent.ascend ix.entries.parent k e = some ix.root) :
    ∃ names, Named ix names e ∧ names.length = k := by
  induction k generalizing e with
  | zero =>
    obtain rfl := Option.some.inj way
    exact ⟨[], .root, rfl⟩
  | succ k ih =>
    obtain ⟨p, at_, above⟩ := Option.bind_eq_some_iff.mp way
    obtain ⟨names, named, length⟩ := ih (ok.parent_live e p live at_) above
    exact ⟨names ++ [ix.rawName e], .child named live at_, by simp [length]⟩

structure RootStands (ix : VolumeIndex) : Prop where
  live : ix.Live ix.root
  top : ix.entries.parent ix.root = none

omit [Externals] in
theorem ne_root_of_parent (top : ix.entries.parent ix.root = none) (at_ : ix.entries.parent e = some p) : e ≠ ix.root := by
  rintro rfl
  rw [top] at at_
  cases at_

def ProperNames (ix : VolumeIndex) : Prop := ∀ e, ix.Live e → e ≠ ix.root → ProperComponent (ix.rawName e)

omit [Externals] in
theorem Named.all {P : Bytes → Prop} (named : Named ix names e) (top : ix.entries.parent ix.root = none)
    (each : ∀ e, ix.Live e → e ≠ ix.root → P (ix.rawName e)) : ∀ n ∈ names, P n := by
  induction named with
  | root => simp
  | @child names p e above live at_ ih =>
    intro n mem
    rcases mem_append.mp mem with before | last
    · exact ih n before
    · rw [mem_singleton.mp last]
      exact each e live (ne_root_of_parent top at_)

theorem Named.pathOf (named : Named ix names e) (ok : ix.Integrity) (stands : RootStands ix)
    (short : names.length < maxPathHops) : ix.pathOf e [] = (.ok, names.foldl joinPath []) := by
  induction named with
  | root =>
    have tops : ix.Tops ix.root ix.root := ⟨⟨0, by decide, rfl⟩, stands.top⟩
    rw [tops.pathOf stands.live, if_neg ok.apart]
    have alone : trail ix.entries.parent maxPathHops ix.root = [ix.root] := by
      rw [show maxPathHops = 4095 + 1 from rfl, trail, stands.top]
    simp [alone, pushComponent]
  | @child names p e above live at_ ih =>
    rw [length_append, length_singleton] at short
    have before := ih (Nat.lt_of_succ_lt short)
    have notRoot := ne_root_of_parent stands.top at_
    have whole : Named ix (names ++ [ix.rawName e]) e := .child above live at_
    have way := whole.ascend
    rw [length_append, length_singleton] at way
    have shallow : ∀ k top, Ascent.ascend ix.entries.parent k e = some top → ix.entries.parent top = none → k < maxPathHops := by
      intro k top up _
      exact (le_of_top way stands.top up).trans_lt short
    rw [pathOf_child live at_ notRoot shallow (congrArg Prod.fst before), before, foldl_append]
    rfl

theorem named_of_pathOf (ok : ix.Integrity) (shown : (ix.pathOf e []).1 = .ok) :
    RootStands ix ∧ ∃ names, Named ix names e ∧ names.length < maxPathHops := by
  obtain ⟨live, top, ⟨⟨k, lt, way⟩, end_⟩, notLost⟩ := pathOf_ok shown
  have topLive := ok.ascend_live live way
  obtain rfl := (ok.top top topLive end_).resolve_right notLost
  obtain ⟨names, named, rfl⟩ := named_of_ascend ok live way
  exact ⟨⟨topLive, end_⟩, names, named, lt⟩

variable (named : Named ix names e)
include named

omit [Externals] in
theorem Named.child_of_ne_root (notRoot : e ≠ ix.root) :
    ix.Live e ∧ ∃ names p, ix.entries.parent e = some p ∧ Named ix names p := by
  cases named with
  | root => exact absurd rfl notRoot
  | @child names p _ above live at_ => exact ⟨live, names, p, at_, above⟩

theorem Named.ne_lostFound (ok : ix.Integrity) : e ≠ ix.lostFound := by
  rintro rfl
  obtain ⟨-, -, p, at_, -⟩ := named.child_of_ne_root ok.apart.symm
  rw [ok.lost_top] at at_
  cases at_

theorem Named.not_synthetic (ok : ix.Integrity) (marked : ix.Marked) (notRoot : e ≠ ix.root) :
    ix.isSynthetic e = false := by
  obtain ⟨live, upper, p, at_, above⟩ := named.child_of_ne_root notRoot
  have notLost := named.ne_lostFound ok
  have plain : (ix.entries.flags e).placeholder = false := by
    apply Bool.eq_false_iff.mpr
    intro mark
    rw [marked.held e live mark] at at_
    exact above.ne_lostFound ok (Option.some.inj at_).symm
  have other : (ix.entries.flags e).lostFound = false := Bool.eq_false_iff.mpr fun mark => notLost (marked.only e live mark)
  simp [isSynthetic, notRoot, notLost, plain, other]

end Ways

section Steps

variable [Externals]

def NoTwins (ix : VolumeIndex) : Prop :=
  ∀ a b p, ix.Live a → ix.Live b → ix.entries.parent a = some p → ix.entries.parent b = some p →
    ix.foldedName a = ix.foldedName b → a = b

def OnlyFoldersHold (ix : VolumeIndex) : Prop :=
  ∀ e p, ix.Live e → ix.entries.parent e = some p → (ix.entries.flags p).dir = true

theorem mem_dirChildren (ok : ix.Integrity) :
    e ∈ (ix.dirChildren (some p, fxHash name)).getD [] ↔
      (ix.Live e ∧ ix.indexed e = true) ∧ ix.entries.parent e = some p ∧ fxHash (ix.foldedName e) = fxHash name := by
  rw [ok.scope.mem, scopeKey, Prod.mk.injEq]

theorem childDir_eq (ix : VolumeIndex) (p : EntryIdx) (name : Bytes) : ix.childDir p name =
    ((ix.dirChildren (some p, fxHash name)).getD []).find? fun d => ix.foldedName d = name := by
  unfold childDir
  cases ix.dirChildren (some p, fxHash name) <;> rfl

theorem childDir_some (ok : ix.Integrity) (found : ix.childDir p name = some e) :
    ix.Live e ∧ ix.indexed e = true ∧ ix.entries.parent e = some p ∧ ix.foldedName e = name := by
  rw [childDir_eq] at found
  obtain ⟨⟨live, real⟩, at_, -⟩ := (mem_dirChildren ok).mp (mem_of_find?_eq_some found)
  exact ⟨live, real, at_, by simpa using find?_some found⟩

omit [Externals] in
theorem find_only {candidates : List EntryIdx} {test : EntryIdx → Bool} (mem : e ∈ candidates) (passes : test e = true)
    (only : ∀ d ∈ candidates, test d = true → d = e) : candidates.find? test = some e := by
  cases found : candidates.find? test with
  | none => exact absurd passes (find?_eq_none.mp found e mem)
  | some d => rw [only d (mem_of_find?_eq_some found) (find?_some found)]

theorem childDir_of (ok : ix.Integrity) (single : NoTwins ix) (live : ix.Live e) (real : ix.indexed e = true)
    (at_ : ix.entries.parent e = some p) : ix.childDir p (ix.foldedName e) = some e := by
  rw [childDir_eq]
  apply find_only ((mem_dirChildren ok).mpr ⟨⟨live, real⟩, at_, rfl⟩) (by simp)
  intro d mem same
  obtain ⟨⟨there, -⟩, above, -⟩ := (mem_dirChildren ok).mp mem
  exact single d e p there live above at_ (by simpa using same)

def childNamed (ix : VolumeIndex) (p : EntryIdx) (comp : Bytes) : Option EntryIdx :=
  (ix.children p).find? fun idx => !ix.isSynthetic idx && (ix.entries.flags idx).dir && ix.rawName idx = comp

theorem childNamed_some (ok : ix.Integrity) (found : childNamed ix p comp = some e) :
    ix.Live e ∧ (ix.entries.flags e).dir = true ∧ ix.entries.parent e = some p ∧ ix.rawName e = comp := by
  obtain ⟨live, at_⟩ := ((ok.children p).2 e).mp (mem_of_find?_eq_some found)
  have passes := find?_some found
  simp only [Bool.and_eq_true, decide_eq_true_eq] at passes
  exact ⟨live, passes.1.2, at_, passes.2⟩

theorem childNamed_of (ok : ix.Integrity) (single : NoTwins ix) (live : ix.Live e) (real : ix.isSynthetic e = false)
    (folder : (ix.entries.flags e).dir = true) (at_ : ix.entries.parent e = some p) : childNamed ix p (ix.rawName e) = some e := by
  apply find_only (((ok.children p).2 e).mpr ⟨live, at_⟩) (by simp [real, folder])
  intro d mem passes
  obtain ⟨there, above⟩ := ((ok.children p).2 d).mp mem
  simp only [Bool.and_eq_true, decide_eq_true_eq] at passes
  refine single d e p there live above at_ ?_
  rw [foldedName, foldedName, ok.names.folds _ (ok.name_live there), ok.names.folds _ (ok.name_live live)]
  exact congrArg fold passes.2

end Steps

section Resolve

variable [Externals] {view : Bytes → Bytes} {step : EntryIdx → Bytes → Option EntryIdx} {P : EntryIdx → Prop}
variable {comps : List Bytes} {matchCase : Bool}

omit [Externals] in
theorem foldlM_concat (comps : List Bytes) (comp : Bytes) (start : EntryIdx) :
    (comps ++ [comp]).foldlM step start = (comps.foldlM step start).bind (step · comp) := by
  simp [foldlM_append]

omit [Externals] in
theorem named_of_foldlM
    (sound : ∀ p comp e, step p comp = some e → ix.Live e ∧ P e ∧ ix.entries.parent e = some p ∧ view (ix.rawName e) = view comp) (found : comps.foldlM step ix.root = some e) :
    (e ≠ ix.root → P e) ∧ ∃ names, Named ix names e ∧ names.map view = comps.map view := by
  induction comps using reverseRecOn generalizing e with
  | nil =>
    obtain rfl := Option.some.inj found
    exact ⟨fun notRoot => absurd rfl notRoot, [], .root, rfl⟩
  | append_singleton comps comp ih =>
    rw [foldlM_concat] at found
    obtain ⟨p, above, here⟩ := Option.bind_eq_some_iff.mp found
    obtain ⟨live, holds, at_, same⟩ := sound p comp e here
    obtain ⟨-, names, named, views⟩ := ih above
    exact ⟨fun _ => holds, names ++ [ix.rawName e], .child named live at_, by simp [views, same]⟩

omit [Externals] in
theorem foldlM_of_named (top : ix.entries.parent ix.root = none)
    (complete : ∀ p comp e, ix.Live e → P e → ix.entries.parent e = some p → view comp = view (ix.rawName e) → step p comp = some e)
    (above : ∀ {names p e}, Named ix names p → ix.Live e → ix.entries.parent e = some p → p ≠ ix.root → P p) (named : Named ix names e) (last : e ≠ ix.root → P e) (views : comps.map view = names.map view) :
    comps.foldlM step ix.root = some e := by
  induction named generalizing comps with
  | root =>
    obtain rfl : comps = [] := by simpa using views
    rfl
  | @child names p e before live at_ ih =>
    have notRoot := ne_root_of_parent top at_
    rw [map_append] at views
    obtain ⟨front, back, rfl, fronts, backs⟩ := map_eq_append_iff.mp views
    obtain ⟨comp, rfl, same⟩ := map_eq_singleton_iff.mp backs
    rw [foldlM_concat, ih (above before live at_) fronts]
    exact complete p comp e live (last notRoot) at_ same

omit [Externals] in
theorem indexed_of_folder (folder : (ix.entries.flags e).dir = true) (real : ix.isSynthetic e = false) : ix.indexed e = true := by
  simp only [isSynthetic, Bool.or_eq_false_iff, decide_eq_false_iff_not] at real
  simp [indexed, folder, real]

def SameComponents (matchCase : Bool) (a b : Bytes) : Prop :=
  (scopeComponents a).map (if matchCase then id else fold) = (scopeComponents b).map (if matchCase then id else fold)

theorem resolveScope_eq (ix : VolumeIndex) (path : Bytes) (matchCase : Bool) : resolveScope ix path matchCase =
    (scopeComponents path).foldlM (if matchCase then childNamed ix else fun p comp => ix.childDir p (fold comp)) ix.root := by
  unfold resolveScope
  cases matchCase <;> rfl

variable (ok : ix.Integrity)
include ok

theorem step_some (matchCase : Bool)
    (found : (if matchCase then childNamed ix else fun p comp => ix.childDir p (fold comp)) p comp = some e) :
    ix.Live e ∧ (ix.entries.flags e).dir = true ∧ ix.entries.parent e = some p ∧
      (if matchCase then id else fold : Bytes → Bytes) (ix.rawName e) = (if matchCase then id else fold : Bytes → Bytes) comp := by
  cases matchCase with
  | true => exact childNamed_some ok found
  | false =>
    obtain ⟨live, real, at_, same⟩ := childDir_some ok found
    rw [foldedName, ok.names.folds _ (ok.name_live live)] at same
    exact ⟨live, indexed_dir real, at_, same⟩

theorem step_of (single : NoTwins ix) (matchCase : Bool) (live : ix.Live e)
    (real : ix.isSynthetic e = false ∧ (ix.entries.flags e).dir = true) (at_ : ix.entries.parent e = some p)
    (same : (if matchCase then id else fold : Bytes → Bytes) comp = (if matchCase then id else fold : Bytes → Bytes) (ix.rawName e)) :
    (if matchCase then childNamed ix else fun p comp => ix.childDir p (fold comp)) p comp = some e := by
  cases matchCase with
  | true =>
    obtain rfl : comp = ix.rawName e := same
    exact childNamed_of ok single live real.1 real.2 at_
  | false =>
    have folded : fold comp = ix.foldedName e := by rw [foldedName, ok.names.folds _ (ok.name_live live)]; exact same
    show ix.childDir p (fold comp) = some e
    rw [folded]
    exact childDir_of ok single live (indexed_of_folder real.2 real.1) at_

theorem resolveScope_of_named (marked : ix.Marked) (single : NoTwins ix) (folders : OnlyFoldersHold ix)
    (top : ix.entries.parent ix.root = none) (named : Named ix names e)
    (folder : e ≠ ix.root → (ix.entries.flags e).dir = true)
    (same : (scopeComponents text).map (if matchCase then id else fold) = names.map (if matchCase then id else fold)) :
    resolveScope ix text matchCase = some e := by
  rw [resolveScope_eq]
  apply foldlM_of_named (P := fun e => ix.isSynthetic e = false ∧ (ix.entries.flags e).dir = true) top
    (fun p comp e => step_of ok single matchCase) ?_ named (fun notRoot => ⟨named.not_synthetic ok marked notRoot, folder notRoot⟩) same
  intro names p e above live at_ notRoot
  exact ⟨above.not_synthetic ok marked notRoot, folders e p live at_⟩

theorem named_of_resolveScope (found : resolveScope ix text matchCase = some e) :
    (e ≠ ix.root → (ix.entries.flags e).dir = true) ∧ ∃ names, Named ix names e ∧
      names.map (if matchCase then id else fold) = (scopeComponents text).map (if matchCase then id else fold) := by
  rw [resolveScope_eq] at found
  exact named_of_foldlM (fun p comp e => step_some ok matchCase) found

/-- A scope resolves to the folder that shows it, and to no other. -/
theorem resolveScope_shown (marked : ix.Marked) (stands : RootStands ix) (proper : ProperNames ix)
    (single : NoTwins ix) (folders : OnlyFoldersHold ix) (matchCase : Bool) (text : Bytes) :
    (∀ e, (ix.entries.flags e).dir = true → ix.isSynthetic e = false → (ix.pathOf e []).1 = .ok →
      SameComponents matchCase text (ix.pathOf e []).2 → resolveScope ix text matchCase = some e) ∧
    (∀ e, resolveScope ix text matchCase = some e → (scopeComponents text).length < maxPathHops →
      (ix.pathOf e []).1 = .ok ∧ SameComponents matchCase text (ix.pathOf e []).2) := by
  constructor
  · intro e folder _ shown same
    obtain ⟨-, names, named, short⟩ := named_of_pathOf ok shown
    rw [SameComponents, named.pathOf ok stands short, scopeComponents_joined (named.all stands.top proper)] at same
    exact resolveScope_of_named ok marked single folders stands.top named (fun _ => folder) same
  · intro e found short
    obtain ⟨-, names, named, same⟩ := named_of_resolveScope ok found
    have length := congrArg List.length same
    rw [length_map, length_map] at length
    rw [SameComponents, named.pathOf ok stands (length ▸ short), scopeComponents_joined (named.all stands.top proper)]
    exact ⟨rfl, same.symm⟩

theorem noTwins_of_bounded (apart : ∀ a : Nat, a < ix.entries.capacity → ∀ b : Nat, b < ix.entries.capacity → (ix.entries.parent a).isSome = true ∧
      ix.entries.parent a = ix.entries.parent b ∧ ix.foldedName a = ix.foldedName b → a = b) : NoTwins ix := by
  intro a b p liveA liveB atA atB same
  exact apart a (ok.slots.live_lt a liveA) b (ok.slots.live_lt b liveB) ⟨by simp [atA], atA.trans atB.symm, same⟩

theorem Named.unique (single : NoTwins ix) {names' : List Bytes}
    {e' : EntryIdx} (named : Named ix names e) (named' : Named ix names' e') (same : names.map fold = names'.map fold) : e = e' := by
  induction named generalizing names' e' with
  | root =>
    cases named' with
    | root => rfl
    | child => simp at same
  | @child names p e above live at_ ih =>
    cases named' with
    | root => simp at same
    | @child names' p' e' above' live' at_' =>
      rw [map_append, map_append, map_singleton, map_singleton] at same
      obtain ⟨before, last⟩ := append_inj' same rfl
      obtain rfl := ih above' before
      refine single e e' p live live' at_ at_' ?_
      rw [foldedName, foldedName, ok.names.folds _ (ok.name_live live), ok.names.folds _ (ok.name_live live')]
      exact (cons.inj last).1

end Resolve

theorem folderIndex_properNames : ProperNames folderIndex := by
  let _ := ascii
  intro e live notRoot
  have bound : e < 3 := reachable_folderIndex.invariant.integrity.slots.live_lt e live
  have each : ∀ e < 3, e ≠ folderIndex.root → folderIndex.rawName e ≠ [] ∧ ∀ b ∈ folderIndex.rawName e, isSeparator b = false := by
    decide +kernel
  exact each e bound notRoot

/-- The scope `/A/` is the folder `a`. -/
theorem folderIndex_resolved :
    letI := ascii
    SameComponents false [0x2F, 0x41, 0x2F] (folderIndex.pathOf 2 []).2 ∧ resolveScope folderIndex [0x2F, 0x41, 0x2F] false = some 2 := by
  let _ := ascii
  have ok := reachable_folderIndex.invariant.integrity
  have folders : OnlyFoldersHold folderIndex := by
    intro e p _ at_
    rw [folderIndex_parent] at at_
    split at at_
    · obtain rfl := Option.some.inj at_
      decide +kernel
    · cases at_
  have same : SameComponents false [0x2F, 0x41, 0x2F] (folderIndex.pathOf 2 []).2 := by
    show _ = _
    decide +kernel
  refine ⟨same, (resolveScope_shown ok reachable_folderIndex.marked ⟨by decide, by decide⟩ folderIndex_properNames
    (noTwins_of_bounded ok (by decide +kernel)) folders false _).1 2 (by decide) (by decide) (by decide +kernel) same⟩

/-- Nothing stops a record from putting a folder `x` into a file `a`. -/
def filedIndex : VolumeIndex :=
  letI := ascii
  ((new ntfsRootFrn (.sparse [])).insertEnum { folderRecord with attributes := 0 }).insertEnum
    { folderRecord with frn := ⟨0x0001000000000007⟩, parentFrn := folderRecord.frn, name := [0x78] }

/-- Nor from naming a folder `a\x`. -/
def separatedIndex : VolumeIndex :=
  letI := ascii
  (new ntfsRootFrn (.sparse [])).insertEnum { folderRecord with name := [0x61, 0x5C, 0x78] }

/-- Both folders show the path `a\x`, but a scope walks through folders only, one for each component. -/
theorem filedIndex_unresolved :
    letI := ascii
    (Reachable ntfsRootFrn filedIndex ∧ NoTwins filedIndex ∧ (filedIndex.entries.flags 3).dir = true ∧ filedIndex.isSynthetic 3 = false ∧
      filedIndex.pathOf 3 [] = (.ok, [0x61, 0x5C, 0x78]) ∧ ∀ matchCase, resolveScope filedIndex [0x61, 0x5C, 0x78] matchCase = none) ∧
    (Reachable ntfsRootFrn separatedIndex ∧ NoTwins separatedIndex ∧ (separatedIndex.entries.flags 2).dir = true ∧
      separatedIndex.isSynthetic 2 = false ∧ separatedIndex.pathOf 2 [] = (.ok, [0x61, 0x5C, 0x78]) ∧
      ∀ matchCase, resolveScope separatedIndex [0x61, 0x5C, 0x78] matchCase = none) := by
  let _ := ascii
  have filed : Reachable ntfsRootFrn filedIndex := .step (.insertEnum _) (.step (.insertEnum _) (.new fun _ => rfl) trivial) trivial
  have separated : Reachable ntfsRootFrn separatedIndex := .step (.insertEnum _) (.new fun _ => rfl) trivial
  constructor
  · refine ⟨filed, noTwins_of_bounded filed.invariant.integrity (by decide +kernel), by decide, by decide, by decide +kernel, ?_⟩
    decide +kernel
  · refine ⟨separated, noTwins_of_bounded separated.invariant.integrity (by decide +kernel), by decide, by decide, by decide +kernel, ?_⟩
    decide +kernel

end Goz
