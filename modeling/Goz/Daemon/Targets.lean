import Goz.Query.Resolve
import Mathlib.Data.List.DropRight

namespace Goz

open Wtf8 List Externals

variable {sep b : UInt8}

def startsWithCi (text start : Bytes) : Bool :=
  start.length ≤ text.length && (text.take start.length).map toAsciiLowercase = start.map toAsciiLowercase

def mountFolder (mount : Bytes) : Bytes := mount.rdropWhile isSeparator

def scopeUnder (path mount : Bytes) : Option Nat :=
  let folder := mountFolder mount
  if startsWithCi path folder then
    match path[folder.length]? with
    | none => some folder.length
    | some b => if isSeparator b then some folder.length else none
  else none

structure MountedVolume where
  guid : Bytes
  mounts : List Bytes
  deriving DecidableEq, Repr

def MountedVolume.mountPrefix (v : MountedVolume) : Bytes := v.mounts.head?.getD v.guid

inductive VolScope
  | all
  | rel (path : Bytes)
  deriving DecidableEq, Repr

def maxByKey {α : Type} (key : α → Nat) : List α → Option α
  | [] => none
  | x :: rest => some (rest.foldl (fun best y => if key best ≤ key y then y else best) x)

def targets (volumes : List MountedVolume) : Option Bytes → List (MountedVolume × VolScope)
  | none => volumes.map fun v => (v, .all)
  | some path =>
    match maxByKey Prod.snd (volumes.filterMap fun v => (scopeUnder path v.mountPrefix).map fun at_ => (v, at_)) with
    | none => []
    | some (vol, at_) => [(vol, .rel (((path.drop at_).dropWhile isSeparator).rdropWhile isSeparator))]

section Largest

variable {α : Type} {key : α → Nat} {list : List α}

theorem foldl_largest (x : α) (rest : List α) :
    let best := rest.foldl (fun best y => if key best ≤ key y then y else best) x
    (best = x ∨ best ∈ rest) ∧ key x ≤ key best ∧ ∀ y ∈ rest, key y ≤ key best := by
  induction rest generalizing x with
  | nil => simp
  | cons y rest ih =>
    simp only [foldl_cons, mem_cons, forall_eq_or_imp]
    by_cases le : key x ≤ key y
    · rw [if_pos le]
      obtain ⟨mem, above, others⟩ := ih y
      exact ⟨.inr mem, le.trans above, above, others⟩
    · rw [if_neg le]
      obtain ⟨mem, above, others⟩ := ih x
      exact ⟨mem.imp_right .inr, above, (Nat.le_of_not_le le).trans above, others⟩

theorem maxByKey_eq_none : maxByKey key list = none ↔ list = [] := by
  cases list <;> simp [maxByKey]

theorem maxByKey_some {best : α} (found : maxByKey key list = some best) :
    best ∈ list ∧ ∀ y ∈ list, key y ≤ key best := by
  cases list with
  | nil => cases found
  | cons x rest =>
    obtain rfl := Option.some.inj found
    obtain ⟨mem, above, others⟩ := @foldl_largest _ key x rest
    refine ⟨mem_cons.mpr mem, ?_⟩
    simp only [mem_cons, forall_eq_or_imp]
    exact ⟨above, others⟩

end Largest

theorem scopeComponents_cons (is : isSeparator sep = true) (text : Bytes) :
    scopeComponents (sep :: text) = scopeComponents text := scopeComponents_append is [] text

theorem scopeComponents_concat (is : isSeparator sep = true) (text : Bytes) :
    scopeComponents (text ++ [sep]) = scopeComponents text := by
  rw [scopeComponents_append is, scopeComponents_nil, append_nil]

theorem scopeComponents_dropWhile (text : Bytes) : scopeComponents (text.dropWhile isSeparator) = scopeComponents text := by
  induction text with
  | nil => rfl
  | cons b text ih =>
    by_cases is : isSeparator b = true
    · rw [dropWhile_cons_of_pos is, scopeComponents_cons is, ih]
    · rw [dropWhile_cons_of_neg is]

theorem scopeComponents_rdropWhile (text : Bytes) : scopeComponents (text.rdropWhile isSeparator) = scopeComponents text := by
  induction text using reverseRecOn with
  | nil => rfl
  | append_singleton text b ih =>
    by_cases is : isSeparator b = true
    · rw [rdropWhile_concat_pos _ _ _ is, scopeComponents_concat is, ih]
    · rw [rdropWhile_concat_neg _ _ _ is]

section Alike

variable [Externals]

def FoldsAscii : Prop :=
  ∀ a b : Bytes, WellFormed a → WellFormed b → a.map toAsciiLowercase = b.map toAsciiLowercase → fold a = fold b

omit [Externals] in
theorem foldsAscii_ascii : @FoldsAscii ascii := by
  let _ := ascii
  rintro a b ⟨cps, scalars, rfl⟩ ⟨cps', scalars', rfl⟩ same
  rw [fold_ascii scalars, fold_ascii scalars', encode_lower scalars, encode_lower scalars', same]

omit [Externals] in
theorem separator_of_lowercase (is : isSeparator sep = true) (same : toAsciiLowercase b = toAsciiLowercase sep) :
    b = sep := by
  have own : toAsciiLowercase sep = sep := by rcases isSeparator_iff.mp is with rfl | rfl <;> rfl
  have value : sep.toNat = 0x5C ∨ sep.toNat = 0x2F := by rcases isSeparator_iff.mp is with rfl | rfl <;> simp
  rw [own, toAsciiLowercase] at same
  split at same
  case isTrue capital =>
    have bytes := congrArg UInt8.toNat same
    rw [UInt8.toNat_add, show (0x20 : UInt8).toNat = 0x20 from rfl] at bytes
    omega
  case isFalse => exact same

theorem scopeComponents_alike (folds : FoldsAscii) {a b : Bytes} (wholeA : WellFormed a) (wholeB : WellFormed b)
    (same : a.map toAsciiLowercase = b.map toAsciiLowercase) : (scopeComponents a).map fold = (scopeComponents b).map fold := by
  induction length : a.length using Nat.strong_induction_on generalizing a b with
  | _ n ih =>
    by_cases divided : ∃ sep ∈ a, isSeparator sep = true
    · obtain ⟨sep, inside, is⟩ := divided
      obtain ⟨left, right, rfl⟩ := append_of_mem inside
      rw [map_append, map_cons] at same
      obtain ⟨left', rest', rfl, lefts, rests⟩ := map_eq_append_iff.mp same.symm
      obtain ⟨sep', right', rfl, seps, rights⟩ := map_eq_cons_iff.mp rests
      obtain rfl := separator_of_lowercase is seps
      obtain ⟨wholeLeft, wholeRight⟩ := wholeA.split (isSeparator.low is)
      obtain ⟨wholeLeft', wholeRight'⟩ := wholeB.split (isSeparator.low is)
      rw [length_append, length_cons] at length
      rw [scopeComponents_append is, scopeComponents_append is, map_append, map_append,
        ih left.length (by omega) wholeLeft wholeLeft' lefts.symm rfl, ih right.length (by omega) wholeRight wholeRight' rights.symm rfl]
    · have plainA : ∀ c ∈ a, isSeparator c = false := fun c inside => Bool.eq_false_iff.mpr fun is => divided ⟨c, inside, is⟩
      have plainB : ∀ c ∈ b, isSeparator c = false := by
        intro c inside
        apply Bool.eq_false_iff.mpr
        intro is
        have lowered : toAsciiLowercase c ∈ a.map toAsciiLowercase := same ▸ mem_map_of_mem inside
        obtain ⟨c', inside', same'⟩ := mem_map.mp lowered
        obtain rfl := separator_of_lowercase is same'
        exact absurd (plainA _ inside') (by simp [is])
      by_cases empty : a = []
      · subst empty
        obtain rfl : b = [] := by simpa using same.symm
        rfl
      · have empty' : b ≠ [] := by
          intro gone
          subst gone
          exact empty (by simpa using same)
        rw [scopeComponents_proper ⟨empty, plainA⟩, scopeComponents_proper ⟨empty', plainB⟩, map_singleton, map_singleton,
          folds a b wholeA wholeB same]

end Alike

section Under

variable {text : Bytes}

theorem scopeComponents_ne_nil (text : Bytes) (part : isSeparator b = false) : scopeComponents (b :: text) ≠ [] := by
  rw [scopeComponents, splitOnP_cons_eq_if_modifyHead, part]
  cases split : text.splitOnP isSeparator with
  | nil => exact absurd split (splitOnP_ne_nil _ _)
  | cons first rest => simp

theorem separators_of_scopeComponents (none : scopeComponents text = []) : ∀ b ∈ text, isSeparator b = true := by
  induction text with
  | nil => simp
  | cons b text ih =>
    have is : isSeparator b = true := by
      by_contra part
      exact scopeComponents_ne_nil text (by simpa using part) none
    rw [scopeComponents_cons is] at none
    simpa [is] using ih none

variable [Externals] {path mount mount' : Bytes} {at_ at_' : Nat}

def foldedComponents (text : Bytes) : List Bytes := (scopeComponents text).map fold

theorem length_foldedComponents (text : Bytes) : (foldedComponents text).length = (scopeComponents text).length := length_map _

def OnMount (path mount : Bytes) : Prop := foldedComponents mount <+: foldedComponents path

omit [Externals] in
theorem scopeUnder_some (under : scopeUnder path mount = some at_) : at_ = (mountFolder mount).length ∧ at_ ≤ path.length ∧
    (path.take at_).map toAsciiLowercase = (mountFolder mount).map toAsciiLowercase ∧
    (path.drop at_ = [] ∨ ∃ sep rest, path.drop at_ = sep :: rest ∧ isSeparator sep = true) := by
  unfold scopeUnder at under
  dsimp only at under
  split at under
  case isFalse => cases under
  case isTrue starts =>
    rw [startsWithCi, Bool.and_eq_true, decide_eq_true_eq, decide_eq_true_eq] at starts
    obtain ⟨fits, alike⟩ := starts
    split at under
    case h_1 past =>
      obtain rfl := Option.some.inj under
      exact ⟨rfl, fits, alike, .inl (drop_eq_nil_of_le (getElem?_eq_none_iff.mp past))⟩
    case h_2 b next =>
      split at under
      case isFalse => cases under
      case isTrue is =>
        obtain rfl := Option.some.inj under
        obtain ⟨lt, here⟩ := List.getElem?_eq_some_iff.mp next
        exact ⟨rfl, fits, alike, .inr ⟨b, _, by rw [drop_eq_getElem_cons lt, here], is⟩⟩

omit [Externals] in
theorem wellFormed_mountFolder (whole : WellFormed mount) : WellFormed (mountFolder mount) := by
  induction mount using reverseRecOn with
  | nil => exact whole
  | append_singleton text b ih =>
    unfold mountFolder at *
    by_cases is : isSeparator b = true
    · rw [rdropWhile_concat_pos _ _ _ is]
      exact ih (whole.split (isSeparator.low is)).1
    · rw [rdropWhile_concat_neg _ _ _ is]
      exact whole

theorem scopeUnder_components (folds : FoldsAscii) (wholePath : WellFormed path) (wholeMount : WellFormed mount)
    (under : scopeUnder path mount = some at_) :
    foldedComponents (path.take at_) = foldedComponents mount ∧
      scopeComponents path = scopeComponents (path.take at_) ++ scopeComponents (path.drop at_) := by
  obtain ⟨-, -, alike, next⟩ := scopeUnder_some under
  have whole := take_append_drop at_ path
  have parts : WellFormed (path.take at_) ∧ scopeComponents path = scopeComponents (path.take at_) ++ scopeComponents (path.drop at_) := by
    rcases next with past | ⟨sep, rest, next, is⟩
    · rw [past, append_nil] at whole
      rw [whole, past, scopeComponents_nil, append_nil]
      exact ⟨wholePath, rfl⟩
    · rw [next] at whole
      rw [next, scopeComponents_cons is, ← scopeComponents_append is, whole]
      rw [← whole] at wholePath
      exact ⟨(wholePath.split (isSeparator.low is)).1, rfl⟩
  refine ⟨?_, parts.2⟩
  rw [foldedComponents, scopeComponents_alike folds parts.1 (wellFormed_mountFolder wholeMount) alike, mountFolder,
    scopeComponents_rdropWhile, foldedComponents]

theorem onMount_of_under (folds : FoldsAscii) (wholePath : WellFormed path) (wholeMount : WellFormed mount)
    (under : scopeUnder path mount = some at_) : OnMount path mount := by
  obtain ⟨start, parts⟩ := scopeUnder_components folds wholePath wholeMount under
  rw [OnMount, ← start, foldedComponents, foldedComponents, parts, map_append]
  exact prefix_append _ _

theorem scopeComponents_below (folds : FoldsAscii) (wholePath : WellFormed path) (wholeMount : WellFormed mount)
    (under : scopeUnder path mount = some at_) :
    scopeComponents (((path.drop at_).dropWhile isSeparator).rdropWhile isSeparator) =
      (scopeComponents path).drop (scopeComponents mount).length := by
  obtain ⟨start, parts⟩ := scopeUnder_components folds wholePath wholeMount under
  have length : (scopeComponents (path.take at_)).length = (scopeComponents mount).length := by
    rw [← length_foldedComponents, start, length_foldedComponents]
  rw [scopeComponents_rdropWhile, scopeComponents_dropWhile, parts, ← length, drop_left]

omit [Externals] in
theorem mountFolder_ne_concat (is : isSeparator sep = true) : mountFolder mount ≠ text ++ [sep] := by
  intro same
  have some_ : mountFolder mount ≠ [] := by simp [same]
  have last := rdropWhile_last_not isSeparator mount some_
  change ¬ isSeparator ((mountFolder mount).getLast some_) = true at last
  simp only [same, getLast_concat, is, not_true_eq_false] at last

theorem longer_of_under (folds : FoldsAscii) (wholePath : WellFormed path) (wholeMount : WellFormed mount)
    (wholeMount' : WellFormed mount') (under : scopeUnder path mount = some at_) (under' : scopeUnder path mount' = some at_')
    (shorter : at_ < at_') : (scopeComponents mount).length < (scopeComponents mount').length := by
  obtain ⟨-, -, -, next⟩ := scopeUnder_some under
  obtain ⟨-, fits, alike, -⟩ := scopeUnder_some under'
  obtain ⟨sep, rest, next, is⟩ := next.resolve_left (by rw [drop_eq_nil_iff]; omega)
  have middle : path.take at_' = path.take at_ ++ sep :: rest.take (at_' - at_ - 1) := by
    rw [show at_' = at_ + (at_' - at_ - 1 + 1) by omega, take_add, next, take_succ_cons]
    simp
  -- were there only separators between the two, the longer folder would end in one
  have between : scopeComponents (rest.take (at_' - at_ - 1)) ≠ [] := by
    intro none
    have all : ∀ b ∈ sep :: rest.take (at_' - at_ - 1), isSeparator b = true := by
      simpa [is] using separators_of_scopeComponents none
    obtain ⟨front, last, ends⟩ : ∃ front last, sep :: rest.take (at_' - at_ - 1) = front ++ [last] :=
      (eq_nil_or_concat' _).resolve_left (cons_ne_nil _ _)
    have isLast : isSeparator last = true := all last (by simp [ends])
    rw [middle, ends, ← append_assoc, map_append, map_singleton] at alike
    obtain ⟨text, tail, same, -, tails⟩ := map_eq_append_iff.mp alike.symm
    obtain ⟨last', rfl, lasts⟩ := map_eq_singleton_iff.mp tails
    obtain rfl := separator_of_lowercase isLast lasts
    exact mountFolder_ne_concat isLast same
  have start := congrArg List.length (scopeUnder_components folds wholePath wholeMount under).1
  have start' := congrArg List.length (scopeUnder_components folds wholePath wholeMount' under').1
  simp only [length_foldedComponents, middle, scopeComponents_append is, length_append] at start start'
  have some_ := length_pos_iff.mpr between
  omega

end Under

section Routes

variable [Externals] {volumes : List MountedVolume} {path : Bytes} {v : MountedVolume}

structure Longest (volumes : List MountedVolume) (path : Bytes) (v : MountedVolume) : Prop where
  member : v ∈ volumes
  on : OnMount path v.mountPrefix
  most : ∀ w ∈ volumes, OnMount path w.mountPrefix → (scopeComponents w.mountPrefix).length ≤ (scopeComponents v.mountPrefix).length

/-- A scope goes to the volume it is on, with the components below the folder of the volume. -/
def RoutesRight (volumes : List MountedVolume) (path : Bytes) : Prop :=
  match targets volumes (some path) with
  | [] => ∀ v ∈ volumes, ¬ OnMount path v.mountPrefix
  | [(v, .rel below)] =>
    Longest volumes path v ∧ scopeComponents below = (scopeComponents path).drop (scopeComponents v.mountPrefix).length
  | _ => False

theorem Longest.foldedComponents_eq {w : MountedVolume} (longest : Longest volumes path v) (longest' : Longest volumes path w) :
    foldedComponents v.mountPrefix = foldedComponents w.mountPrefix := by
  have le := longest'.most v longest.member longest.on
  have ge := longest.most w longest'.member longest'.on
  rw [← length_foldedComponents, ← length_foldedComponents] at le ge
  exact (prefix_of_prefix_length_le longest.on longest'.on le).eq_of_length (Nat.le_antisymm le ge)

theorem exists_longest (mem : v ∈ volumes) (on : OnMount path v.mountPrefix) : ∃ v, Longest volumes path v := by
  classical
  have some_ : (volumes.toFinset.filter fun v => OnMount path v.mountPrefix).Nonempty := ⟨v, by simp [mem, on]⟩
  obtain ⟨best, inside, most⟩ := Finset.exists_max_image _ (fun v => (scopeComponents v.mountPrefix).length) some_
  simp only [Finset.mem_filter, mem_toFinset] at inside most
  exact ⟨best, inside.1, inside.2, fun w there on => most w ⟨there, on⟩⟩

omit [Externals] in
theorem targets_cases (volumes : List MountedVolume) (path : Bytes) :
    (targets volumes (some path) = [] ∧ ∀ v ∈ volumes, scopeUnder path v.mountPrefix = none) ∨
      ∃ v ∈ volumes, ∃ at_, scopeUnder path v.mountPrefix = some at_ ∧
        targets volumes (some path) = [(v, .rel (((path.drop at_).dropWhile isSeparator).rdropWhile isSeparator))] ∧
        ∀ w ∈ volumes, ∀ at_', scopeUnder path w.mountPrefix = some at_' → at_' ≤ at_ := by
  unfold targets
  cases found : maxByKey Prod.snd (volumes.filterMap fun v => (scopeUnder path v.mountPrefix).map fun at_ => (v, at_)) with
  | none =>
    left
    refine ⟨by simp only [found], fun v mem => ?_⟩
    have nothing := filterMap_eq_nil_iff.mp (maxByKey_eq_none.mp found) v mem
    simpa using nothing
  | some best =>
    right
    obtain ⟨v, at_⟩ := best
    obtain ⟨inside, most⟩ := maxByKey_some found
    obtain ⟨v', mem, candidate⟩ := mem_filterMap.mp inside
    obtain ⟨at_', under, pair⟩ := Option.map_eq_some_iff.mp candidate
    obtain ⟨rfl, rfl⟩ := Prod.mk.inj pair
    refine ⟨v', mem, at_', under, by simp only [found], fun w there above under' => ?_⟩
    exact most (w, above) (mem_filterMap.mpr ⟨w, there, by simp [under']⟩)

/-- Scopes go right exactly where the volume they are on is found by its text. -/
theorem scope_routes_right (folds : FoldsAscii) (wholePath : WellFormed path) (wholeMounts : ∀ v ∈ volumes, WellFormed v.mountPrefix)
    (distinct : ∀ v ∈ volumes, ∀ w ∈ volumes, foldedComponents v.mountPrefix = foldedComponents w.mountPrefix → v = w) :
    RoutesRight volumes path ↔ ∀ v, Longest volumes path v → (scopeUnder path v.mountPrefix).isSome = true := by
  unfold RoutesRight
  rcases targets_cases volumes path with ⟨nowhere, none⟩ | ⟨v, mem, at_, under, there, most⟩
  · rw [nowhere]
    constructor
    · intro off v longest
      exact absurd longest.on (off v longest.member)
    · intro found v mem on
      obtain ⟨best, longest⟩ := exists_longest mem on
      have some_ := found best longest
      rw [none best longest.member] at some_
      cases some_
  · rw [there]
    have on := onMount_of_under folds wholePath (wholeMounts v mem) under
    constructor
    · rintro ⟨longest, -⟩ w longest'
      obtain rfl := distinct v mem w longest'.member (longest.foldedComponents_eq longest')
      simp [under]
    · intro found
      refine ⟨?_, scopeComponents_below folds wholePath (wholeMounts v mem) under⟩
      obtain ⟨best, longest⟩ := exists_longest mem on
      obtain ⟨at_', under'⟩ := Option.isSome_iff_exists.mp (found best longest)
      have same : at_' = at_ := by
        have le := most best longest.member at_' under'
        by_contra other
        have more := longer_of_under folds wholePath (wholeMounts best longest.member) (wholeMounts v mem) under' under
          (Nat.lt_of_le_of_ne le other)
        exact absurd (longest.most v mem on) (Nat.not_le.mpr more)
      subst same
      obtain rfl := distinct v mem best longest.member (by
        rw [← (scopeUnder_components folds wholePath (wholeMounts v mem) under).1,
          (scopeUnder_components folds wholePath (wholeMounts best longest.member) under').1])
      exact longest

end Routes

def mountedAt (mounts : List Bytes) : List MountedVolume := mounts.map fun mount => ⟨[], [mount]⟩

/-- Mounts at `C:\` and `C:\m\`, and a scope `c:\M\x`. -/
theorem nested_mount_routed :
    letI := ascii
    RoutesRight (mountedAt [[0x43, 0x3A, 0x5C], [0x43, 0x3A, 0x5C, 0x6D, 0x5C]]) [0x63, 0x3A, 0x5C, 0x4D, 0x5C, 0x78] := by
  let _ := ascii
  have texts : ∀ v ∈ mountedAt [[0x43, 0x3A, 0x5C], [0x43, 0x3A, 0x5C, 0x6D, 0x5C]], ∀ b ∈ v.mountPrefix, b.toNat < 0x80 := by decide +kernel
  apply (scope_routes_right foldsAscii_ascii (wellFormed_ascii (by decide +kernel)) (fun v mem => wellFormed_ascii (texts v mem))
    (by decide +kernel)).mpr
  intro v longest
  have each : ∀ v ∈ mountedAt [[0x43, 0x3A, 0x5C], [0x43, 0x3A, 0x5C, 0x6D, 0x5C]],
    (scopeUnder [0x63, 0x3A, 0x5C, 0x4D, 0x5C, 0x78] v.mountPrefix).isSome = true := by decide +kernel
  exact each v longest.member

abbrev Externals.slashedO : Externals :=
  { ascii with toLowercase := fun c => [if c = Char.ofNat 0xD8 then Char.ofNat 0xF8 else c.toLower] }

/-- A scope that names the mount folder by its small letter goes to the volume around it. -/
theorem mount_letter_missed :
    letI := slashedO
    let volumes := mountedAt [[0x43, 0x3A, 0x5C], [0x43, 0x3A, 0x5C, 0xC3, 0x98, 0x5C]]
    targets volumes (some [0x43, 0x3A, 0x5C, 0xC3, 0xB8, 0x5C, 0x78]) = [(⟨[], [[0x43, 0x3A, 0x5C]]⟩, .rel [0xC3, 0xB8, 0x5C, 0x78])] ∧
      OnMount [0x43, 0x3A, 0x5C, 0xC3, 0xB8, 0x5C, 0x78] [0x43, 0x3A, 0x5C, 0xC3, 0x98, 0x5C] ∧
      ¬ RoutesRight volumes [0x43, 0x3A, 0x5C, 0xC3, 0xB8, 0x5C, 0x78] := by
  let _ := slashedO
  intro volumes
  have outer : targets volumes (some [0x43, 0x3A, 0x5C, 0xC3, 0xB8, 0x5C, 0x78]) =
    [(⟨[], [[0x43, 0x3A, 0x5C]]⟩, .rel [0xC3, 0xB8, 0x5C, 0x78])] := by decide +kernel
  have inner : OnMount [0x43, 0x3A, 0x5C, 0xC3, 0xB8, 0x5C, 0x78] [0x43, 0x3A, 0x5C, 0xC3, 0x98, 0x5C] := by
    show foldedComponents _ <+: foldedComponents _
    decide +kernel
  refine ⟨outer, inner, ?_⟩
  unfold RoutesRight
  rw [outer]
  rintro ⟨longest, -⟩
  have most := longest.most ⟨[], [[0x43, 0x3A, 0x5C, 0xC3, 0x98, 0x5C]]⟩ (by decide +kernel) inner
  exact absurd most (by decide +kernel)

end Goz
