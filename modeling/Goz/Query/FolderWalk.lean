import Goz.Library.Brackets
import Goz.Query.Ordering

namespace Goz.Query

open Brackets List

variable {name a b : Bytes}

section Spelling

variable {rest : List Bytes}

def spell (path : Bytes) : List Nat := path.map (·.toNat + 1)

def ownKey (name : Bytes) : List Nat := spell name ++ [0]

def belowKey (name : Bytes) : List Nat := spell name ++ [0x5D]

def joined : List Bytes → Bytes
  | [] => []
  | [name] => name
  | name :: rest => name ++ 0x5C :: joined rest

theorem joined_cons (more : rest ≠ []) : joined (name :: rest) = name ++ 0x5C :: joined rest := by
  cases rest with
  | nil => exact absurd rfl more
  | cons next rest => rfl

theorem ownKey_lt_iff : ownKey a < ownKey b ↔ a < b := by
  unfold ownKey spell
  induction a generalizing b with
  | nil =>
    cases b with
    | nil => simp
    | cons y b => simp [cons_lt_cons_iff]
  | cons x a ih =>
    cases b with
    | nil =>
      simp only [map_cons, map_nil, cons_append, nil_append, cons_lt_cons_iff, not_lt_nil, and_false,
        or_false, iff_false]
      omega
    | cons y b =>
      have first : x.toNat + 1 < y.toNat + 1 ↔ x < y := by rw [UInt8.lt_iff_toNat_lt, Nat.add_lt_add_iff_right]
      have same : x.toNat + 1 = y.toNat + 1 ↔ x = y := by rw [Nat.add_right_cancel_iff, UInt8.toNat_inj]
      simp only [map_cons, cons_append, cons_lt_cons_iff, ih, first, same]

theorem ownKey_joined_own (name : Bytes) : ownKey (joined [name]) = ownKey name ++ [] := by simp [joined]

theorem ownKey_joined_below (more : rest ≠ []) :
    ownKey (joined (name :: rest)) = belowKey name ++ ownKey (joined rest) := by
  simp [joined_cons more, ownKey, belowKey, spell]

theorem joined_lt_joined {rest' : List Bytes} (more : rest ≠ []) (more' : rest' ≠ [])
    (lt : joined rest < joined rest') : joined (name :: rest) < joined (name :: rest') := by
  rw [joined_cons more, joined_cons more']
  apply append_left_lt
  exact cons_lt_cons_iff.mpr (.inr ⟨rfl, lt⟩)

theorem append_lt_append {κ : Type*} [LinearOrder κ] {a b : List κ} (lt : a < b) (apart : ¬ a <+: b) (s t : List κ) : a ++ s < b ++ t := by
  induction a generalizing b with
  | nil => exact absurd nil_prefix apart
  | cons x a ih =>
    cases b with
    | nil => exact absurd lt (not_lt_nil _)
    | cons y b =>
      rw [cons_append, cons_append, cons_lt_cons_iff]
      rcases cons_lt_cons_iff.mp lt with first | ⟨rfl, rest⟩
      · exact .inl first
      · exact .inr ⟨rfl, ih rest fun start => apart (cons_prefix_cons.mpr ⟨rfl, start⟩)⟩

theorem spell_initial (plain : 0x5C ∉ b) {x y : Nat} (end_ : x = 0 ∨ x = 0x5D)
    (start : spell a ++ [x] <+: spell b ++ [y]) : spell a ++ [x] = spell b ++ [y] := by
  unfold spell at start ⊢
  induction a generalizing b with
  | nil =>
    cases b with
    | nil => simpa using start
    | cons c b =>
      simp only [map_nil, nil_append, map_cons, cons_append, cons_prefix_cons] at start
      have apart : c.toNat ≠ 0x5C := fun same => plain (by simp [UInt8.toNat_inj.mp (show (0x5C : UInt8).toNat = c.toNat from same.symm)])
      omega
  | cons c a ih =>
    cases b with
    | nil => simp at start
    | cons d b =>
      simp only [map_cons, cons_append, cons_prefix_cons] at start ⊢
      rw [ih (fun mem => plain (by simp [mem])) start.2, start.1]

theorem extendsBelowSeparator_iff {shorter : Bytes} : FolderRanks.extendsBelowSeparator shorter name = true ↔
    ∃ c rest, name = shorter ++ c :: rest ∧ c < 0x5C := by
  unfold FolderRanks.extendsBelowSeparator
  rw [Bool.and_eq_true, isPrefixOf_iff_prefix]
  constructor
  · rintro ⟨⟨rest, rfl⟩, next⟩
    cases rest with
    | nil => simp at next
    | cons c rest => exact ⟨c, rest, rfl, by simpa using next⟩
  · rintro ⟨c, rest, rfl, lt⟩
    exact ⟨prefix_append .., by simpa using lt⟩

theorem belowKey_lt_ownKey (plain : 0x5C ∉ b) (lt : a < b)
    (out : FolderRanks.extendsBelowSeparator a b = false) : belowKey a < ownKey b := by
  induction a generalizing b with
  | nil =>
    cases b with
    | nil => exact absurd lt (List.lt_irrefl [])
    | cons c b =>
      have high : ¬ c < 0x5C := by
        intro low
        have held : FolderRanks.extendsBelowSeparator [] (c :: b) = true := extendsBelowSeparator_iff.mpr ⟨c, b, rfl, low⟩
        rw [held] at out
        cases out
      have apart : c ≠ 0x5C := fun same => plain (by simp [same])
      have past : 0x5D < c.toNat + 1 := by
        rw [UInt8.lt_iff_toNat_lt] at high
        have apart : c.toNat ≠ 0x5C := fun same => apart (UInt8.toNat_inj.mp same)
        have bound : ¬ c.toNat < 0x5C := high
        omega
      exact cons_lt_cons_iff.mpr (.inl past)
  | cons x a ih =>
    cases b with
    | nil => exact absurd lt (not_lt_nil _)
    | cons y b =>
      rcases cons_lt_cons_iff.mp lt with first | ⟨rfl, rest⟩
      · exact cons_lt_cons_iff.mpr (.inl (Nat.add_lt_add_right (UInt8.lt_iff_toNat_lt.mp first) 1))
      · have out' : FolderRanks.extendsBelowSeparator a b = false := by
          rw [← Bool.not_eq_true] at out ⊢
          intro held
          obtain ⟨c, more, rfl, low⟩ := extendsBelowSeparator_iff.mp held
          exact out (extendsBelowSeparator_iff.mpr ⟨c, more, rfl, low⟩)
        exact cons_lt_cons_iff.mpr (.inr ⟨rfl, ih (fun mem => plain (by simp [mem])) rest out'⟩)

theorem nested_names {α : Type*} (name : α → Bytes) :
    Nested (fun x => ownKey (name x)) (fun x => belowKey (name x))
      (fun x y => FolderRanks.extendsBelowSeparator (name x) (name y)) fun x => 0x5C ∉ name x where
  proper x _ := append_left_lt (by decide)
  within x y _ _ _ held := by
    obtain ⟨c, rest, eq, low⟩ := extendsBelowSeparator_iff.mp held
    have below : c.toNat + 1 < 0x5D := Nat.add_lt_add_right (UInt8.lt_iff_toNat_lt.mp low) 1
    rw [ownKey, belowKey, belowKey, eq, spell, map_append, append_assoc, append_assoc]
    constructor
    · exact append_left_lt (cons_lt_cons_iff.mpr (.inl below))
    · exact append_left_lt (cons_lt_cons_iff.mpr (.inl below))
  apart x y _ plain lt out := belowKey_lt_ownKey plain (ownKey_lt_iff.mp lt) out

end Spelling

namespace FolderRanks

variable {found : List Bytes × List Nat}

section Levels

variable (ix : VolumeIndex) (fr : FolderRanks)

def within (g h : List Nat) : Bool := extendsBelowSeparator (fr.groupName ix g) (fr.groupName ix h)

def stepOf (depth : Nat) : Event (List Nat) → Step
  | .enter g => .folder g
  | .exit g => .below g (depth + 1)

theorem closeBefore_eq (depth : Nat) (h : List Nat) (opened : List (List Nat)) :
    fr.closeBefore ix depth (fr.groupName ix h) opened =
      ((close (fr.within ix) h opened).1.map (stepOf depth), (close (fr.within ix) h opened).2) := by
  induction opened with
  | nil => rfl
  | cons g rest ih =>
    unfold closeBefore close
    rw [ih]
    split
    case isTrue held => simp [within, held]
    case isFalse out => simp [within, out, stepOf]

theorem levelSteps_eq (depth : Nat) (groups opened : List (List Nat)) :
    fr.levelSteps ix depth groups opened = (events (fr.within ix) groups opened).map (stepOf depth) := by
  induction groups generalizing opened with
  | nil => simp [levelSteps, events, stepOf]
  | cons h rest ih => simp [levelSteps, events, closeBefore_eq, ih, stepOf]

end Levels

section Groups

variable {ix : VolumeIndex} {fr : FolderRanks} {group g : List Nat} {m p : Nat} {x y : Nat × Bytes}

theorem mem_childrenOf : m ∈ fr.childrenOf p ↔ fr.parent[m]? = some (some p) := by
  rw [childrenOf, mem_filter, mem_range, decide_eq_true_iff]
  refine ⟨And.right, fun at_ => ⟨(List.getElem?_eq_some_iff.mp at_).1, at_⟩⟩

theorem compare_isLE : (compare a b).isLE = true ↔ ¬ b < a := by
  constructor
  · intro le lt
    have turned : compare a b = (compare b a).swap := Std.OrientedCmp.eq_swap
    rw [turned, compare_bytes_of_lt lt] at le
    cases le
  · intro not_lt
    rcases Std.lt_trichotomy a b with lt | rfl | gt
    · rw [compare_bytes_of_lt lt]
      rfl
    · rw [Std.compare_self]
      rfl
    · exact absurd gt not_lt

def label (ix : VolumeIndex) (fr : FolderRanks) (m : Nat) : Nat × Bytes := (fr.keyOf ix m, fr.foldedOf ix m)

def LabelLe (x y : Nat × Bytes) : Prop := x.1 < y.1 ∨ x.1 = y.1 ∧ x.2 ≤ y.2

theorem LabelLe.trans {z : Nat × Bytes} (xy : LabelLe x y) (yz : LabelLe y z) : LabelLe x z := by
  rcases xy with xy | ⟨xy, le⟩ <;> rcases yz with yz | ⟨yz, le'⟩
  · exact .inl (xy.trans yz)
  · exact .inl (yz ▸ xy)
  · exact .inl (xy ▸ yz)
  · exact .inr ⟨xy.trans yz, Std.le_trans le le'⟩

theorem LabelLe.antisymm (xy : LabelLe x y) (yx : LabelLe y x) : x = y := by
  rcases xy with xy | ⟨xy, le⟩ <;> rcases yx with yx | ⟨yx, ge⟩
  · exact absurd (xy.trans yx) (Nat.lt_irrefl _)
  · exact absurd (yx ▸ xy) (Nat.lt_irrefl _)
  · exact absurd (xy ▸ yx) (Nat.lt_irrefl _)
  · exact Prod.ext xy (Std.le_antisymm le ge)

theorem LabelLe.total (x y : Nat × Bytes) : LabelLe x y ∨ LabelLe y x := by
  rcases Nat.lt_trichotomy x.1 y.1 with lt | same | gt
  · exact .inl (.inl lt)
  · exact Std.le_total.imp (fun le => .inr ⟨same, le⟩) fun ge => .inr ⟨same.symm, ge⟩
  · exact .inr (.inl gt)

theorem nodeLe_iff {a b : Nat} : fr.nodeLe ix a b = true ↔ LabelLe (fr.label ix a) (fr.label ix b) := by
  unfold nodeLe LabelLe label
  rcases Nat.lt_trichotomy (fr.keyOf ix a) (fr.keyOf ix b) with lt | same | gt
  · rw [Nat.compare_eq_lt.mpr lt]
    simp [lt]
  · rw [Nat.compare_eq_eq.mpr same, Ordering.then, compare_isLE]
    simp [same]
  · rw [Nat.compare_eq_gt.mpr gt]
    simp
    omega

theorem sameName_eq : fr.sameName ix = fun a b => decide (fr.label ix a = fr.label ix b) := by
  funext a b
  simp [sameName, label]

theorem mem_groupsBelow : (∃ g ∈ fr.groupsBelow ix group, m ∈ g) ↔ ∃ p ∈ group, fr.parent[m]? = some (some p) := by
  rw [← mem_flatten, groupsBelow, flatten_splitBy, mem_mergeSort, mem_flatMap]
  simp only [mem_childrenOf]

variable (inside : g ∈ fr.groupsBelow ix group)
include inside

theorem groupsBelow_ne_nil : g ≠ [] := ne_nil_of_mem_splitBy inside

theorem label_of_group {a b : Nat} (left : a ∈ g) (right : b ∈ g) :
    fr.label ix a = fr.label ix b := by
  rw [groupsBelow, sameName_eq] at inside
  exact Smallest.key_eq_of_mem_splitBy inside left right

theorem foldedOf_group (mem : m ∈ g) : fr.foldedOf ix m = fr.groupName ix g := by
  cases g with
  | nil => cases mem
  | cons first rest => exact congrArg Prod.snd (label_of_group inside mem mem_cons_self)

omit inside

def KeysAgree (ix : VolumeIndex) (fr : FolderRanks) : Prop :=
  ∀ a b p q, fr.parent[a]? = some (some p) → fr.parent[b]? = some (some q) →
    (fr.foldedOf ix a < fr.foldedOf ix b → fr.keyOf ix a ≤ fr.keyOf ix b) ∧
      (fr.foldedOf ix a = fr.foldedOf ix b → fr.keyOf ix a = fr.keyOf ix b)

theorem groupsBelow_sorted (agree : fr.KeysAgree ix) (group : List Nat) :
    (fr.groupsBelow ix group).Pairwise fun g h => fr.groupName ix g < fr.groupName ix h := by
  have sorted : ((group.flatMap fr.childrenOf).mergeSort (fr.nodeLe ix)).Pairwise
      fun a b => LabelLe (fr.label ix a) (fr.label ix b) := by
    refine (pairwise_mergeSort (fun a b c ab bc => ?_) (fun a b => ?_) _).imp nodeLe_iff.mp
    · exact nodeLe_iff.mpr ((nodeLe_iff.mp ab).trans (nodeLe_iff.mp bc))
    · rw [Bool.or_eq_true, nodeLe_iff, nodeLe_iff]
      exact LabelLe.total ..
  have flat : (fr.groupsBelow ix group).flatten = (group.flatMap fr.childrenOf).mergeSort (fr.nodeLe ix) := flatten_splitBy ..
  have across := (pairwise_flatten.mp (flat ▸ sorted)).2
  have differ : (fr.groupsBelow ix group).Pairwise fun g h => ∀ a ∈ g, ∀ b ∈ h, fr.label ix a ≠ fr.label ix b := by
    rw [groupsBelow, sameName_eq]
    exact Smallest.pairwise_splitBy (fun _ _ => LabelLe.antisymm) sorted
  apply (pairwise_and_iff.mpr ⟨across, differ⟩).imp_of_mem
  rintro g h gIn hIn ⟨le, ne⟩
  obtain ⟨a, aIn⟩ := exists_mem_of_ne_nil g (groupsBelow_ne_nil gIn)
  obtain ⟨b, bIn⟩ := exists_mem_of_ne_nil h (groupsBelow_ne_nil hIn)
  obtain ⟨p, -, aBelow⟩ := mem_groupsBelow.mp ⟨g, gIn, aIn⟩
  obtain ⟨q, -, bBelow⟩ := mem_groupsBelow.mp ⟨h, hIn, bIn⟩
  rw [← foldedOf_group gIn aIn, ← foldedOf_group hIn bIn]
  rcases Std.lt_trichotomy (fr.foldedOf ix a) (fr.foldedOf ix b) with lt | same | gt
  · exact lt
  · have keys := (agree a b p q aBelow bBelow).2 same
    exact absurd (Prod.ext keys same) (ne a aIn b bIn)
  · have keys := (agree b a q p bBelow aBelow).1 gt
    rcases le a aIn b bIn with lt | ⟨-, le⟩
    · exact absurd keys (Nat.not_le.mpr lt)
    · exact absurd gt (Std.not_lt.mpr le)

end Groups

section Emit

variable (ix : VolumeIndex) (fr : FolderRanks)

inductive Way : List Bytes → Nat → Prop
  | root : Way [] 0
  | child {names : List Bytes} {p m : Nat} (above : Way names p) (at_ : fr.parent[m]? = some (some p)) :
      Way (names ++ [fr.foldedOf ix m]) m

def Holds (names : List Bytes) (group : List Nat) : Prop := ∀ m, m ∈ group ↔ Way ix fr names m

def met (below : List Nat → List (List Bytes × List Nat)) : Event (List Nat) → List (List Bytes × List Nat)
  | .enter g => [([fr.groupName ix g], g)]
  | .exit g => (below g).map fun found => (fr.groupName ix g :: found.1, found.2)

def emit : Nat → List Nat → List (List Bytes × List Nat)
  | 0, _ => []
  | hops + 1, group => (events (fr.within ix) (fr.groupsBelow ix group) []).flatMap (fr.met ix (emit hops))

variable {ix fr} {names rest : List Bytes} {group g h : List Nat} {hops m : Nat}

theorem Way.unique (bare : fr.parent[0]? = some none) (way : Way ix fr names m) {other : List Bytes} (way' : Way ix fr other m) :
    names = other := by
  induction way generalizing other with
  | root =>
    cases way' with
    | root => rfl
    | child above at_ =>
      rw [bare] at at_
      cases at_
  | child above at_ ih =>
    cases way' with
    | root =>
      rw [bare] at at_
      cases at_
    | child above' at' =>
      rw [at_] at at'
      obtain rfl := Option.some.inj (Option.some.inj at')
      rw [ih above']

theorem holds_root (ix : VolumeIndex) (fr : FolderRanks) : Holds ix fr [] [0] := by
  intro m
  rw [mem_singleton]
  constructor
  · rintro rfl
    exact .root
  · intro way
    generalize isNil : ([] : List Bytes) = names at way
    cases way with
    | root => rfl
    | child => simp at isNil

theorem groupName_injective (agree : fr.KeysAgree ix) (gIn : g ∈ fr.groupsBelow ix group) (hIn : h ∈ fr.groupsBelow ix group)
    (same : fr.groupName ix g = fr.groupName ix h) : g = h := by
  by_contra other
  have sorted := groupsBelow_sorted agree group
  have apart : (fr.groupsBelow ix group).Pairwise fun g h => fr.groupName ix g ≠ fr.groupName ix h :=
    sorted.imp Std.ne_of_lt
  have : Std.Symm fun g h : List Nat => fr.groupName ix g ≠ fr.groupName ix h := ⟨fun _ _ => Ne.symm⟩
  exact apart.forall gIn hIn other same

theorem Holds.next (holds : Holds ix fr names group) (way : Way ix fr (names ++ [name]) m) :
    ∃ g ∈ fr.groupsBelow ix group, m ∈ g ∧ fr.groupName ix g = name := by
  generalize split : names ++ [name] = all at way
  cases way with
  | root => simp at split
  | @child before p m above at_ =>
    obtain ⟨rfl, last⟩ := append_inj' split rfl
    obtain ⟨g, inside, mem⟩ := mem_groupsBelow.mpr ⟨p, (holds p).mpr above, at_⟩
    refine ⟨g, inside, mem, ?_⟩
    rw [← foldedOf_group inside mem]
    exact (singleton_inj.mp last).symm

theorem Holds.below (agree : fr.KeysAgree ix) (holds : Holds ix fr names group) (inside : g ∈ fr.groupsBelow ix group) :
    Holds ix fr (names ++ [fr.groupName ix g]) g := by
  intro m
  constructor
  · intro mem
    obtain ⟨p, pIn, at_⟩ := mem_groupsBelow.mp ⟨g, inside, mem⟩
    rw [← foldedOf_group inside mem]
    exact .child ((holds p).mp pIn) at_
  · intro way
    obtain ⟨g', inside', mem, same⟩ := holds.next way
    rw [groupName_injective agree inside inside' same.symm]
    exact mem

theorem mem_emit_succ : found ∈ fr.emit ix (hops + 1) group ↔
    ∃ g ∈ fr.groupsBelow ix group, found = ([fr.groupName ix g], g) ∨
      ∃ below ∈ fr.emit ix hops g, found = (fr.groupName ix g :: below.1, below.2) := by
  simp only [emit, mem_flatMap, mem_events]
  constructor
  · rintro ⟨event, (⟨x, none_, -⟩ | ⟨g, gIn, rfl | rfl⟩), inside⟩
    · cases none_
    · exact ⟨g, gIn, .inl (mem_singleton.mp inside)⟩
    · obtain ⟨below, belowIn, rfl⟩ := mem_map.mp inside
      exact ⟨g, gIn, .inr ⟨below, belowIn, rfl⟩⟩
  · rintro ⟨g, gIn, rfl | ⟨below, belowIn, rfl⟩⟩
    · exact ⟨.enter g, .inr ⟨g, gIn, .inl rfl⟩, mem_singleton_self _⟩
    · exact ⟨.exit g, .inr ⟨g, gIn, .inr rfl⟩, mem_map_of_mem belowIn⟩

theorem emit_sound (agree : fr.KeysAgree ix) (holds : Holds ix fr names group) (inside : (rest, h) ∈ fr.emit ix hops group) :
    rest ≠ [] ∧ rest.length ≤ hops ∧ h ≠ [] ∧ Holds ix fr (names ++ rest) h := by
  induction hops generalizing names group rest with
  | zero => cases inside
  | succ hops ih =>
    obtain ⟨g, gIn, own | ⟨⟨more, found⟩, belowIn, eq⟩⟩ := mem_emit_succ.mp inside
    · obtain ⟨rfl, rfl⟩ := Prod.mk.inj own
      exact ⟨by simp, by simp, groupsBelow_ne_nil gIn, holds.below agree gIn⟩
    · obtain ⟨rfl, rfl⟩ := Prod.mk.inj eq
      obtain ⟨-, short, full, there⟩ := ih (holds.below agree gIn) belowIn
      refine ⟨by simp, by simpa using short, full, ?_⟩
      simpa using there

theorem Way.prior (way : Way ix fr names m) {front : List Bytes} (start : front <+: names) : ∃ p, Way ix fr front p := by
  induction way with
  | root =>
    rw [prefix_nil.mp start]
    exact ⟨0, .root⟩
  | @child names p m above at_ ih =>
    rcases prefix_concat_iff.mp start with rfl | start
    · exact ⟨m, .child above at_⟩
    · exact ih start

theorem emit_complete (agree : fr.KeysAgree ix) (holds : Holds ix fr names group) (some_ : rest ≠ []) (short : rest.length ≤ hops)
    (way : Way ix fr (names ++ rest) m) : ∃ h, (rest, h) ∈ fr.emit ix hops group := by
  induction hops generalizing names group rest with
  | zero => exact absurd (eq_nil_of_length_eq_zero (Nat.le_zero.mp short)) some_
  | succ hops ih =>
    obtain ⟨name, more, rfl⟩ := exists_cons_of_ne_nil some_
    obtain ⟨p, first⟩ := way.prior (show names ++ [name] <+: names ++ name :: more by simp)
    obtain ⟨g, gIn, -, rfl⟩ := holds.next first
    cases more with
    | nil => exact ⟨g, mem_emit_succ.mpr ⟨g, gIn, .inl rfl⟩⟩
    | cons next more =>
      obtain ⟨h, found⟩ := @ih _ (next :: more) _ (holds.below agree gIn) (by simp) (by simpa using short) (by simpa using way)
      exact ⟨h, mem_emit_succ.mpr ⟨g, gIn, .inr ⟨_, found, rfl⟩⟩⟩

theorem emit_ne_nil (inside : found ∈ fr.emit ix hops group) : found.1 ≠ [] := by
  cases hops with
  | zero => cases inside
  | succ hops =>
    obtain ⟨g, -, rfl | ⟨below, -, rfl⟩⟩ := mem_emit_succ.mp inside
    · simp
    · simp

theorem key_of_emitted {event : Event (List Nat)}
    (inside : found ∈ fr.met ix (fr.emit ix hops) event) :
    ∃ more, ownKey (joined found.1) =
      event.key (fun g => ownKey (fr.groupName ix g)) (fun g => belowKey (fr.groupName ix g)) ++ more := by
  cases event with
  | enter g =>
    rw [mem_singleton.mp inside]
    exact ⟨[], ownKey_joined_own _⟩
  | exit g =>
    obtain ⟨below, belowIn, rfl⟩ := mem_map.mp inside
    exact ⟨_, ownKey_joined_below (emit_ne_nil belowIn)⟩

theorem key_not_prefix {name : List Nat → Bytes} {x y : Event (List Nat)} (plain : ∀ g, y = .enter g ∨ y = .exit g → 0x5C ∉ name g)
    (lt : x.key (fun g => ownKey (name g)) (fun g => belowKey (name g)) <
      y.key (fun g => ownKey (name g)) (fun g => belowKey (name g))) :
    ¬ x.key (fun g => ownKey (name g)) (fun g => belowKey (name g)) <+:
      y.key (fun g => ownKey (name g)) (fun g => belowKey (name g)) := by
  intro start
  cases x with
  | enter g =>
    cases y with
    | enter h => exact lt.ne (spell_initial (plain h (.inl rfl)) (.inl rfl) start)
    | exit h => exact lt.ne (spell_initial (plain h (.inr rfl)) (.inl rfl) start)
  | exit g =>
    cases y with
    | enter h => exact lt.ne (spell_initial (plain h (.inl rfl)) (.inr rfl) start)
    | exit h => exact lt.ne (spell_initial (plain h (.inr rfl)) (.inr rfl) start)

theorem emit_sorted (agree : fr.KeysAgree ix) (plain : ∀ m p, fr.parent[m]? = some (some p) → 0x5C ∉ fr.foldedOf ix m)
    (hops : Nat) (group : List Nat) : (fr.emit ix hops group).Pairwise fun a b => joined a.1 < joined b.1 := by
  induction hops generalizing group with
  | zero => exact .nil
  | succ hops ih =>
    have proper : ∀ g ∈ fr.groupsBelow ix group, 0x5C ∉ fr.groupName ix g := by
      intro g inside
      obtain ⟨m, mem⟩ := exists_mem_of_ne_nil g (groupsBelow_ne_nil inside)
      obtain ⟨p, -, at_⟩ := mem_groupsBelow.mp ⟨g, inside, mem⟩
      rw [← foldedOf_group inside mem]
      exact plain m p at_
    have ends := sorted_events (nested_names (fr.groupName ix)) proper (forall_mem_nil _)
      ((groupsBelow_sorted agree group).imp fun lt => ownKey_lt_iff.mpr lt) .nil (by simp)
    rw [emit]
    apply pairwise_flatMap.mpr
    constructor
    · intro event due
      cases event with
      | enter g => exact pairwise_singleton ..
      | exit g =>
        apply pairwise_map.mpr
        apply (ih g).imp_of_mem
        intro a b aIn bIn lt
        exact joined_lt_joined (emit_ne_nil aIn) (emit_ne_nil bIn) lt
    · apply ends.imp_of_mem
      intro x y xIn yIn lt a aIn b bIn
      obtain ⟨s, aKey⟩ := key_of_emitted aIn
      obtain ⟨t, bKey⟩ := key_of_emitted bIn
      rw [← ownKey_lt_iff, aKey, bKey]
      apply append_lt_append lt
      apply key_not_prefix _ lt
      rintro g (rfl | rfl)
      · rcases mem_events.mp yIn with ⟨_, none_, -⟩ | ⟨h, inside, same | same⟩
        · cases none_
        · exact Event.enter.inj same ▸ proper h inside
        · cases same
      · rcases mem_events.mp yIn with ⟨_, none_, -⟩ | ⟨h, inside, same | same⟩
        · cases none_
        · cases same
        · exact Event.exit.inj same ▸ proper h inside

end Emit

variable (ix : VolumeIndex) (fr : FolderRanks)
  {names : List Bytes} {m : Nat} {groups : List (List Nat)} {rank : Nat → Nat} {nextRank depth : Nat}

def ranked : Step → List (List Nat)
  | .folder g => [g]
  | .below g depth => (fr.emit ix (maxPathHops - depth) g).map Prod.snd

def turns : Step → Nat
  | .folder _ => 1
  | .below g depth => 2 * (fr.emit ix (maxPathHops - depth) g).length + 1

def numbered : List (List Nat) → (Nat → Nat) → Nat → Nat → Nat
  | [], rank, _ => rank
  | group :: rest, rank, nextRank => numbered rest (fun m => if m ∈ group then nextRank else rank m) (nextRank + 1)

variable {ix fr}

theorem ranked_level (shallow : depth < maxPathHops) (group : List Nat) :
    (fr.levelSteps ix depth (fr.groupsBelow ix group) []).flatMap (fr.ranked ix) = fr.ranked ix (.below group depth) := by
  have hops : maxPathHops - depth = (maxPathHops - (depth + 1)) + 1 := by omega
  rw [levelSteps_eq, ranked, hops, emit, map_flatMap, flatMap_map]
  apply flatMap_congr
  intro event _
  cases event with
  | enter g => rfl
  | exit g => simp [stepOf, ranked, met]

variable (ix fr) in
theorem turns_level (shallow : depth < maxPathHops) (group : List Nat) :
    ((fr.levelSteps ix depth (fr.groupsBelow ix group) []).map (fr.turns ix)).sum + 1 = fr.turns ix (.below group depth) := by
  have hops : maxPathHops - depth = (maxPathHops - (depth + 1)) + 1 := by omega
  have perm := perm_events (fr.within ix) (fr.groupsBelow ix group) []
  rw [levelSteps_eq, turns, hops, emit, length_flatMap, map_map, (perm.map _).sum_eq, (perm.map _).sum_eq]
  generalize fr.groupsBelow ix group = groups
  induction groups with
  | nil => simp
  | cons g rest ih =>
    simp [stepOf, turns, met] at ih ⊢
    omega

theorem walkRanks_eq {fuel : Nat} {steps : List Step} (enough : (steps.map (fr.turns ix)).sum ≤ fuel) (rank : Nat → Nat) (nextRank : Nat) :
    fr.walkRanks ix fuel steps rank nextRank = numbered (steps.flatMap (fr.ranked ix)) rank nextRank := by
  induction fuel generalizing steps rank nextRank with
  | zero =>
    cases steps with
    | nil => rfl
    | cons step rest => cases step <;> simp [turns] at enough
  | succ fuel ih =>
    cases steps with
    | nil => rfl
    | cons step rest =>
      rw [map_cons, sum_cons] at enough
      cases step with
      | folder g =>
        rw [walkRanks, flatMap_cons, ih (by simp [turns] at enough; omega)]
        rfl
      | below g depth =>
        rw [walkRanks, flatMap_cons]
        split
        case isTrue deep =>
          have none_ : maxPathHops - depth = 0 := by omega
          rw [ih (by simp [turns, none_, emit] at enough; omega)]
          simp [ranked, none_, emit]
        case isFalse shallow =>
          have total := turns_level ix fr (Nat.not_le.mp shallow) g
          rw [ih, flatMap_append, ranked_level (Nat.not_le.mp shallow)]
          rw [map_append, sum_append]
          omega

theorem numbered_of_not_mem (out : ∀ g ∈ groups, m ∉ g) : numbered groups rank nextRank m = rank m := by
  induction groups generalizing rank nextRank with
  | nil => rfl
  | cons g rest ih =>
    rw [numbered, ih fun h inside => out h (by simp [inside]), if_neg (out g (by simp))]

theorem numbered_of_mem (apart : groups.Pairwise fun g h => ∀ m ∈ g, m ∉ h)
    {i : Nat} {g : List Nat} (at_ : groups[i]? = some g) (mem : m ∈ g) :
    numbered groups rank nextRank m = nextRank + i := by
  induction groups generalizing rank nextRank i with
  | nil => cases at_
  | cons first rest ih =>
    obtain ⟨alone, apart⟩ := pairwise_cons.mp apart
    rw [numbered]
    cases i with
    | zero =>
      obtain rfl := Option.some.inj at_
      rw [numbered_of_not_mem fun h inside => alone h inside m mem, if_pos mem]
      rfl
    | succ i =>
      rw [ih apart at_]
      omega

/-- The nodes of a walk that is sound: the root's has no parent, keys come as the folded names do, and no name has a separator. -/
structure Walkable (ix : VolumeIndex) (fr : FolderRanks) : Prop where
  bare : fr.parent[0]? = some none
  agree : fr.KeysAgree ix
  plain : ∀ (m p : Nat), fr.parent[m]? = some (some p) → 0x5C ∉ fr.foldedOf ix m
  named : ∀ (m p : Nat), fr.parent[m]? = some (some p) → fr.foldedOf ix m ≠ []

def visited (ix : VolumeIndex) (fr : FolderRanks) : List (List Bytes × List Nat) := fr.emit ix (maxPathHops - 1) [0]

theorem Walkable.apart (walkable : Walkable ix fr) : (fr.visited ix).Pairwise fun a b => ∀ m ∈ a.2, m ∉ b.2 := by
  apply (emit_sorted walkable.agree walkable.plain _ _).imp_of_mem
  rintro ⟨names, g⟩ ⟨names', h⟩ inG inH lt m mg mh
  obtain ⟨-, -, -, holdsG⟩ := emit_sound walkable.agree (holds_root ix fr) inG
  obtain ⟨-, -, -, holdsH⟩ := emit_sound walkable.agree (holds_root ix fr) inH
  have same := Way.unique walkable.bare ((holdsG m).mp mg) ((holdsH m).mp mh)
  rw [nil_append, nil_append] at same
  exact Std.ne_of_lt lt (congrArg joined same)

theorem Way.lt (bare : fr.parent[0]? = some none) (way : Way ix fr names m) : m < fr.parent.length := by
  cases way with
  | root => exact (List.getElem?_eq_some_iff.mp bare).1
  | child _ at_ => exact (List.getElem?_eq_some_iff.mp at_).1

variable (walkable : Walkable ix fr)
include walkable

theorem Walkable.nonzero (inside : found ∈ fr.visited ix)
    (mem : m ∈ found.2) : m ≠ 0 := by
  rintro rfl
  obtain ⟨some_, -, -, holds⟩ := emit_sound walkable.agree (holds_root ix fr) (show (found.1, found.2) ∈ _ from inside)
  have same := Way.unique walkable.bare ((holds 0).mp mem) .root
  exact some_ same

theorem Walkable.length_visited : (fr.visited ix).length < fr.parent.length := by
  have some_ : ∀ found ∈ fr.visited ix, found.2 ≠ [] := fun found inside =>
    (emit_sound walkable.agree (holds_root ix fr) (show (found.1, found.2) ∈ _ from inside)).2.2.1
  have headIn : ∀ found ∈ fr.visited ix, found.2.headD 0 ∈ found.2 := by
    intro found inside
    obtain ⟨m, rest, eq⟩ := exists_cons_of_ne_nil (some_ found inside)
    simp [eq]
  have heads : (0 :: (fr.visited ix).map fun found => found.2.headD 0).Nodup := by
    apply nodup_cons.mpr
    constructor
    · intro zero
      obtain ⟨found, inside, isZero⟩ := mem_map.mp zero
      exact walkable.nonzero inside (headIn found inside) isZero
    · apply pairwise_map.mpr
      apply walkable.apart.imp_of_mem
      intro a b aIn bIn apart same
      exact apart _ (headIn a aIn) (same ▸ headIn b bIn)
  have sub : (0 :: (fr.visited ix).map fun found => found.2.headD 0) ⊆ range fr.parent.length := by
    intro m mem
    apply mem_range.mpr
    rcases mem_cons.mp mem with rfl | mem
    · exact (List.getElem?_eq_some_iff.mp walkable.bare).1
    · obtain ⟨found, inside, rfl⟩ := mem_map.mp mem
      have holds := (emit_sound walkable.agree (holds_root ix fr) (show (found.1, found.2) ∈ _ from inside)).2.2.2
      exact Way.lt walkable.bare ((holds _).mp (headIn found inside))
  simpa using (heads.subperm sub).length_le

theorem Walkable.ranks_eq : fr.ranks ix =
    numbered ((fr.visited ix).map Prod.snd) (fun node => if node = 0 then 0 else unpresentable) 1 := by
  have few := walkable.length_visited
  rw [ranks, walkRanks_eq]
  · simp [ranked, visited]
  · simp only [map_singleton, sum_singleton, turns]
    have same : (fr.emit ix (maxPathHops - 1) [0]).length < fr.parent.length := few
    omega

theorem Walkable.rank_root : fr.ranks ix 0 = 0 := by
  rw [walkable.ranks_eq, numbered_of_not_mem]
  · rfl
  · intro g inside zero
    obtain ⟨found, visited, rfl⟩ := mem_map.mp inside
    exact walkable.nonzero visited zero rfl

theorem Walkable.rank_of_way (way : Way ix fr names m) (some_ : names ≠ [])
    (short : names.length < maxPathHops) : ∃ i h, (fr.visited ix)[i]? = some (names, h) ∧ fr.ranks ix m = i + 1 := by
  have bound : names.length ≤ maxPathHops - 1 := by omega
  obtain ⟨h, inside⟩ := emit_complete walkable.agree (holds_root ix fr) some_ bound (by simpa using way)
  obtain ⟨i, at_⟩ := getElem?_of_mem inside
  have holds := (emit_sound walkable.agree (holds_root ix fr) inside).2.2.2
  refine ⟨i, h, at_, ?_⟩
  rw [walkable.ranks_eq, numbered_of_mem (pairwise_map.mpr walkable.apart) (by rw [getElem?_map, visited, at_]; rfl)
    ((holds m).mpr (by simpa using way)), Nat.add_comm]

theorem Walkable.rank_of_no_way (out : ∀ names, Way ix fr names m → maxPathHops ≤ names.length) :
    fr.ranks ix m = unpresentable := by
  have away : m ≠ 0 := by
    rintro rfl
    exact absurd (out [] .root) (by decide)
  rw [walkable.ranks_eq, numbered_of_not_mem, if_neg away]
  intro g inside mem
  obtain ⟨found, visited, rfl⟩ := mem_map.mp inside
  obtain ⟨-, short, -, holds⟩ := emit_sound walkable.agree (holds_root ix fr) (show (found.1, found.2) ∈ _ from visited)
  have long := out _ ((holds m).mp mem)
  rw [nil_append] at long
  have pos : 0 < maxPathHops := by decide
  omega

omit walkable

theorem joined_eq_nil (empty : joined names = []) : names = [] ∨ names = [[]] := by
  match names with
  | [] => exact .inl rfl
  | [name] =>
    have empty : name = [] := empty
    exact .inr (by rw [empty])
  | name :: next :: rest =>
    rw [joined_cons (by simp)] at empty
    simp at empty

theorem Walkable.joined_ne_nil (walkable : Walkable ix fr) (way : Way ix fr names m) (some_ : names ≠ []) :
    joined names ≠ [] := by
  intro empty
  cases way with
  | root => exact some_ rfl
  | @child before p m above at_ =>
    rcases joined_eq_nil empty with none_ | one
    · exact some_ none_
    · obtain ⟨-, last⟩ := append_inj' (show before ++ [fr.foldedOf ix m] = [] ++ [[]] from one) rfl
      exact walkable.named m p at_ (singleton_inj.mp last)

theorem Walkable.rank_order (walkable : Walkable ix fr) {names' : List Bytes} {m' : Nat} (way : Way ix fr names m)
    (way' : Way ix fr names' m') (short : names.length < maxPathHops) (short' : names'.length < maxPathHops) :
    (fr.ranks ix m < fr.ranks ix m' ↔ joined names < joined names') ∧
      (fr.ranks ix m = fr.ranks ix m' ↔ joined names = joined names') := by
  have zero : ∀ {m}, Way ix fr [] m → m = 0 := fun way => by simpa using (holds_root ix fr _).mpr way
  by_cases top : names = []
  · subst top
    obtain rfl := zero way
    rw [walkable.rank_root]
    by_cases top' : names' = []
    · subst top'
      obtain rfl := zero way'
      rw [walkable.rank_root]
      simp
    · obtain ⟨j, -, -, rank'⟩ := walkable.rank_of_way way' top' short'
      obtain ⟨first, rest, path'⟩ := exists_cons_of_ne_nil (walkable.joined_ne_nil way' top')
      rw [rank', path']
      simp [joined]
  · obtain ⟨i, g, at_, rank⟩ := walkable.rank_of_way way top short
    by_cases top' : names' = []
    · subst top'
      obtain rfl := zero way'
      rw [walkable.rank_root, rank]
      simp [joined, walkable.joined_ne_nil way top]
    · obtain ⟨j, h, at', rank'⟩ := walkable.rank_of_way way' top' short'
      have sorted := pairwise_iff_getElem.mp (emit_sorted walkable.agree walkable.plain (maxPathHops - 1) [0])
      have order : ∀ {i j : Nat} {a b : List Bytes × List Nat}, (fr.visited ix)[i]? = some a → (fr.visited ix)[j]? = some b →
          i < j → joined a.1 < joined b.1 := by
        intro i j a b atA atB lt
        obtain ⟨boundA, rfl⟩ := List.getElem?_eq_some_iff.mp atA
        obtain ⟨boundB, rfl⟩ := List.getElem?_eq_some_iff.mp atB
        exact sorted i j boundA boundB lt
      rw [rank, rank']
      rcases Nat.lt_trichotomy i j with lt | same | gt
      · have path := order at_ at' lt
        exact ⟨iff_of_true (by omega) path, iff_of_false (by omega) (Std.ne_of_lt path)⟩
      · rw [same, at', Option.some.injEq, Prod.mk.injEq] at at_
        rw [same, at_.1]
        exact ⟨iff_of_false (by omega) Std.lt_irrefl, iff_of_true rfl rfl⟩
      · have path := order at' at_ gt
        exact ⟨iff_of_false (by omega) fun lt => Std.lt_irrefl (Std.lt_trans lt path),
          iff_of_false (by omega) (Ne.symm (Std.ne_of_lt path))⟩

end FolderRanks

end Goz.Query
