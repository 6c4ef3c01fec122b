import Goz.Library.Machine
import Mathlib.Logic.Function.Basic
import Mathlib.Data.List.Nodup

namespace Goz.Daemon

open Function

abbrev Guid := String

structure VolumeInfo where
  guidPath : Guid
  mounts : List String
  isFixed : Bool
  isNtfs : Bool

def indexable (vol : VolumeInfo) : Bool := vol.isFixed && vol.isNtfs

inductive DeviceEvent
  | queryRemove
  | queryRemoveFailed
  | removed
  deriving DecidableEq, Repr

/-- How long Windows has to say how a removal ended. Clock readings are in nanoseconds. -/
def removalOutcomeWait : Nat := 60 * 10 ^ 9

structure Registered where
  guid : Guid
  mounts : List String

/-- What the supervision thread owns, without the handles of its threads and notifications. -/
structure Fleet where
  volumes : List Registered
  supervised : List Guid
  listing : Option Nat
  removing : Guid → Option Nat
  removed : List (Guid × Nat)

structure VolumeChanges where
  found : List VolumeInfo
  gone : List Guid

def diffVolumes (indexed : List Guid) (listed : List VolumeInfo) : VolumeChanges where
  found := listed.filter fun v => !indexed.contains v.guidPath && indexable v
  gone := indexed.filter fun g => !listed.any fun v => v.guidPath = g

def swapRemove {α : Type*} (items : List α) (i : Nat) : List α :=
  match items.getLast? with
  | none => []
  | some last => (items.set i last).dropLast

namespace Fleet

def new : Fleet where
  volumes := []
  supervised := []
  listing := none
  removing := fun _ => none
  removed := []

def indexed (f : Fleet) : List Guid := f.volumes.map (·.guid)

def release (f : Fleet) (guid : Guid) : Fleet :=
  { f with
    volumes := f.volumes.filter (·.guid ≠ guid)
    supervised :=
      match f.supervised.findIdx? (· = guid) with
      | none => f.supervised
      | some i => swapRemove f.supervised i }

/-- Indexes a volume found, unless it is being removed or was removed after the listing began. -/
def index (f : Fleet) (vol : VolumeInfo) : Fleet :=
  if (f.removing vol.guidPath).isSome || f.removed.any (·.1 = vol.guidPath) then f
  else
    { f with
      volumes := f.volumes ++ [{ guid := vol.guidPath, mounts := vol.mounts }]
      supervised := f.supervised ++ [vol.guidPath] }

def reconcile (f : Fleet) (listed : List VolumeInfo) (taken : Nat) : Fleet :=
  let current := { f with removed := f.removed.filter fun r => r.2 > taken }
  let changes := diffVolumes current.indexed listed
  changes.found.foldl index (changes.gone.foldl release current)

def onRemoval (f : Fleet) (guid : Guid) (event : DeviceEvent) (now : Nat) : Fleet :=
  let released := if f.indexed.contains guid then f.release guid else f
  match event with
  | .queryRemove => { released with removing := update released.removing guid ((f.removing guid).orElse fun _ => some now) }
  | .queryRemoveFailed => { f with removing := update f.removing guid none }
  | .removed =>
    { released with
      removing := update released.removing guid none
      removed := f.removed.filter (·.1 ≠ guid) ++ [(guid, now)] }

def expired (f : Fleet) (guid : Guid) (now : Nat) : Bool :=
  match f.removing guid with
  | none => false
  | some since => now - since ≥ removalOutcomeWait

def expireRemoving (f : Fleet) (now : Nat) : Fleet :=
  { f with removing := fun guid => if f.expired guid now then none else f.removing guid }

end Fleet

inductive ListingAnswer
  | listed (volumes : List VolumeInfo)
  | failed
  | timeout
  | disconnected

namespace Fleet

/-- When the listing in flight began, or begins now. -/
def taken (f : Fleet) (now : Nat) : Nat := f.listing.getD now

/-- `spawned` says whether a worker could be started, when none is running. -/
def discover (f : Fleet) (now : Nat) (spawned : Bool) (answer : ListingAnswer) : Fleet :=
  if f.listing.isNone && !spawned then f
  else
    match answer with
    | .listed volumes => { f with listing := none }.reconcile volumes (f.taken now)
    | .failed | .disconnected => { f with listing := none }
    | .timeout => { f with listing := some (f.taken now) }

/-- The scan of every tail from place `i` on; those that need no more supervision are dropped. -/
def scanFrom (keep : Guid → Bool) : Nat → Nat → List Guid → List Guid
  | 0, _, supervised => supervised
  | fuel + 1, i, supervised =>
    match supervised[i]? with
    | none => supervised
    | some guid =>
      if keep guid then scanFrom keep fuel (i + 1) supervised else scanFrom keep fuel i (swapRemove supervised i)

def scan (f : Fleet) (keep : Guid → Bool) : Fleet :=
  { f with supervised := scanFrom keep f.supervised.length 0 f.supervised }

end Fleet

/-- One act of the supervision thread. `keep` is the verdict of each volume's own scan. -/
inductive Act
  | removal (guid : Guid) (event : DeviceEvent)
  | scan (keep : Guid → Bool)
  | expire
  | discover (spawned : Bool) (answer : ListingAnswer)

structure Acted where
  now : Nat
  act : Act

def Fleet.step (f : Fleet) (e : Acted) : Fleet :=
  match e.act with
  | .removal guid event => f.onRemoval guid event e.now
  | .scan keep => f.scan keep
  | .expire => f.expireRemoving e.now
  | .discover spawned answer => f.discover e.now spawned answer

section SwapRemove

variable {α : Type*} {items : List α} {i : Nat} (bound : i < items.length)
include bound

theorem swapRemove_perm : (swapRemove items i).Perm (items.eraseIdx i) := by
  rcases List.eq_nil_or_concat items with rfl | ⟨init, last, rfl⟩
  · simp at bound
  · simp only [List.concat_eq_append, List.length_append, List.length_singleton] at bound
    simp only [swapRemove, List.concat_eq_append, List.getLast?_concat]
    rcases Nat.lt_or_ge i init.length with inside | atEnd
    · rw [List.set_append_left _ _ inside, List.dropLast_concat, List.eraseIdx_append_of_lt_length inside]
      exact (List.set_perm_cons_eraseIdx inside last).trans (List.perm_append_singleton _ _).symm
    · have here : i = init.length := by omega
      subst here
      simp [List.eraseIdx_append_of_length_le]

theorem mem_of_mem_swapRemove {item : α} (mem : item ∈ swapRemove items i) :
    item ∈ items :=
  List.mem_of_mem_eraseIdx ((swapRemove_perm bound).mem_iff.mp mem)

theorem swapRemove_nodup (nodup : items.Nodup) : (swapRemove items i).Nodup :=
  (swapRemove_perm bound).nodup_iff.mpr (nodup.eraseIdx i)

end SwapRemove

namespace Fleet

variable {e : Acted} {t : Nat} {vol : VolumeInfo}

/-- A volume dropped from supervision stays indexed, so a scan only shrinks the supervised list. -/
theorem scanFrom_spec (keep : Guid → Bool) (fuel i : Nat) {supervised : List Guid} (nodup : supervised.Nodup) :
    (scanFrom keep fuel i supervised).Nodup ∧ ∀ guid ∈ scanFrom keep fuel i supervised, guid ∈ supervised := by
  induction fuel generalizing i supervised with
  | zero => exact ⟨nodup, fun _ mem => mem⟩
  | succ fuel ih =>
    rw [scanFrom]
    cases found : supervised[i]? with
    | none => exact ⟨nodup, fun _ mem => mem⟩
    | some guid =>
      have bound : i < supervised.length := (List.getElem?_eq_some_iff.mp found).1
      by_cases kept : keep guid = true
      · simpa only [kept, if_true] using ih (i + 1) nodup
      · simp only [kept]
        have rest := ih i (swapRemove_nodup bound nodup)
        exact ⟨rest.1, fun g mem => mem_of_mem_swapRemove bound (rest.2 g mem)⟩

variable {f : Fleet} {guid other : Guid}

@[simp] theorem release_removing : (f.release guid).removing = f.removing := rfl

@[simp] theorem release_removed : (f.release guid).removed = f.removed := rfl

@[simp] theorem release_listing : (f.release guid).listing = f.listing := rfl

@[simp] theorem mem_indexed_release : other ∈ (f.release guid).indexed ↔ other ∈ f.indexed ∧ other ≠ guid := by
  simp only [indexed, release, List.mem_map, List.mem_filter, decide_eq_true_eq]
  constructor
  · rintro ⟨v, ⟨mem, ne⟩, rfl⟩
    exact ⟨⟨v, mem, rfl⟩, ne⟩
  · rintro ⟨⟨v, mem, rfl⟩, ne⟩
    exact ⟨v, ⟨mem, ne⟩, rfl⟩

theorem indexed_release : (f.release guid).indexed = f.indexed.filter (· ≠ guid) := by
  simp only [indexed, release, List.filter_map]
  rfl

theorem release_supervised_perm : (f.release guid).supervised.Perm (f.supervised.erase guid) := by
  rw [List.erase_eq_eraseIdx]
  cases found : f.supervised.findIdx? (· = guid) with
  | none =>
    have absent : f.supervised.idxOf? guid = none := by
      simpa [List.idxOf?, comp_def, beq_eq_decide] using found
    simp [release, found, absent]
  | some i =>
    have here : f.supervised.idxOf? guid = some i := by
      simpa [List.idxOf?, comp_def, beq_eq_decide] using found
    have bound : i < f.supervised.length := (List.findIdx?_eq_some_iff_getElem.mp found).1
    simpa [release, found, here] using swapRemove_perm bound

structure Settled (f : Fleet) : Prop where
  once : f.indexed.Nodup
  supervisedOnce : f.supervised.Nodup
  supervisedIndexed : ∀ guid ∈ f.supervised, guid ∈ f.indexed
  notRemoving : ∀ guid ∈ f.indexed, f.removing guid = none

theorem Settled.release (settled : f.Settled) (guid : Guid) : (f.release guid).Settled where
  once := by
    rw [indexed_release]
    exact settled.once.filter _
  supervisedOnce := release_supervised_perm.nodup_iff.mpr (settled.supervisedOnce.erase guid)
  supervisedIndexed := by
    intro g mem
    obtain ⟨ne, mem⟩ := (settled.supervisedOnce.mem_erase_iff).mp (release_supervised_perm.mem_iff.mp mem)
    exact mem_indexed_release.mpr ⟨settled.supervisedIndexed g mem, ne⟩
  notRemoving := by
    intro g mem
    exact settled.notRemoving g (mem_indexed_release.mp mem).1

/-- A volume a listing names is indexed only when no removal of it is pending and none was after the listing began. -/
def Findable (f : Fleet) (guid : Guid) : Prop := f.removing guid = none ∧ ∀ r ∈ f.removed, r.1 ≠ guid

theorem index_cases (f : Fleet) (vol : VolumeInfo) :
    f.index vol = f ∨
      f.Findable vol.guidPath ∧
        f.index vol =
          { f with
            volumes := f.volumes ++ [{ guid := vol.guidPath, mounts := vol.mounts }]
            supervised := f.supervised ++ [vol.guidPath] } := by
  rw [index]
  split
  · exact .inl rfl
  · rename_i clear
    simp only [Bool.or_eq_true, not_or, Option.isSome_iff_ne_none, ne_eq, not_not, List.any_eq_true, not_exists,
      not_and, decide_eq_true_eq] at clear
    exact .inr ⟨clear, rfl⟩

@[simp] theorem index_removing (vol : VolumeInfo) : (f.index vol).removing = f.removing := by
  rcases f.index_cases vol with same | ⟨-, added⟩
  · rw [same]
  · rw [added]

@[simp] theorem index_removed (vol : VolumeInfo) : (f.index vol).removed = f.removed := by
  rcases f.index_cases vol with same | ⟨-, added⟩
  · rw [same]
  · rw [added]

@[simp] theorem index_listing (vol : VolumeInfo) : (f.index vol).listing = f.listing := by
  rcases f.index_cases vol with same | ⟨-, added⟩
  · rw [same]
  · rw [added]

theorem mem_indexed_index (mem : guid ∈ (f.index vol).indexed) :
    guid ∈ f.indexed ∨ guid = vol.guidPath ∧ f.Findable guid := by
  rcases f.index_cases vol with same | ⟨findable, added⟩
  · rw [same] at mem
    exact .inl mem
  · rw [added, indexed, List.map_append, List.mem_append] at mem
    rcases mem with mem | mem
    · exact .inl mem
    · have here : guid = vol.guidPath := by simpa using mem
      exact .inr ⟨here, here ▸ findable⟩

theorem Settled.index (settled : f.Settled) (new : vol.guidPath ∉ f.indexed) : (f.index vol).Settled := by
  rcases f.index_cases vol with same | ⟨findable, added⟩
  · rwa [same]
  · have all : (f.index vol).indexed = f.indexed ++ [vol.guidPath] := by rw [added]; simp [indexed]
    have supervised : (f.index vol).supervised = f.supervised ++ [vol.guidPath] := by rw [added]
    constructor
    · rw [all]
      exact settled.once.append (List.nodup_singleton _) (by simpa using new)
    · rw [supervised]
      refine settled.supervisedOnce.append (List.nodup_singleton _) ?_
      simpa using fun mem => new (settled.supervisedIndexed _ mem)
    · intro g mem
      rw [supervised, List.mem_append] at mem
      rw [all, List.mem_append]
      exact mem.imp_left (settled.supervisedIndexed g)
    · intro g mem
      rw [index_removing]
      rcases mem_indexed_index mem with old | ⟨-, findable⟩
      · exact settled.notRemoving g old
      · exact findable.1

theorem releaseAll_keeps (gone : List Guid) (f : Fleet) :
    (gone.foldl release f).removing = f.removing ∧ (gone.foldl release f).removed = f.removed ∧
      (gone.foldl release f).listing = f.listing ∧ ∀ g ∈ (gone.foldl release f).indexed, g ∈ f.indexed := by
  induction gone generalizing f with
  | nil => exact ⟨rfl, rfl, rfl, fun _ mem => mem⟩
  | cons guid gone ih =>
    obtain ⟨removing, removed, listing, shrinks⟩ := ih (f.release guid)
    exact ⟨removing, removed, listing, fun g mem => (mem_indexed_release.mp (shrinks g mem)).1⟩

theorem Settled.releaseAll (settled : f.Settled) (gone : List Guid) : (gone.foldl Fleet.release f).Settled := by
  induction gone generalizing f with
  | nil => exact settled
  | cons guid gone ih => exact ih (settled.release guid)

theorem indexAll_keeps (found : List VolumeInfo) (f : Fleet) :
    (found.foldl index f).removing = f.removing ∧ (found.foldl index f).removed = f.removed ∧
      (found.foldl index f).listing = f.listing ∧
      ∀ g ∈ (found.foldl index f).indexed, g ∈ f.indexed ∨ f.Findable g := by
  induction found generalizing f with
  | nil => exact ⟨rfl, rfl, rfl, fun _ mem => .inl mem⟩
  | cons vol found ih =>
    obtain ⟨removing, removed, listing, grows⟩ := ih (f.index vol)
    rw [index_removing] at removing
    rw [index_removed] at removed
    rw [index_listing] at listing
    refine ⟨removing, removed, listing, fun g mem => ?_⟩
    rcases grows g mem with mem | findable
    · exact (mem_indexed_index mem).imp_right And.right
    · rw [Findable, index_removing, index_removed] at findable
      exact .inr findable

theorem Settled.indexAll {found : List VolumeInfo} (settled : f.Settled) (distinct : (found.map (·.guidPath)).Nodup)
    (new : ∀ vol ∈ found, vol.guidPath ∉ f.indexed) : (found.foldl Fleet.index f).Settled := by
  induction found generalizing f with
  | nil => exact settled
  | cons vol found ih =>
    rw [List.map_cons, List.nodup_cons] at distinct
    apply ih (settled.index (new vol (by simp))) distinct.2
    intro later mem now
    rcases mem_indexed_index now with old | ⟨same, -⟩
    · exact new later (by simp [mem]) old
    · exact distinct.1 (same ▸ List.mem_map_of_mem mem)

section Reconcile

variable {listed : List VolumeInfo} {began : Nat}

@[simp] theorem reconcile_removing : (f.reconcile listed began).removing = f.removing :=
  (indexAll_keeps _ _).1.trans (releaseAll_keeps _ _).1

@[simp] theorem reconcile_removed : (f.reconcile listed began).removed = f.removed.filter fun r => r.2 > began :=
  (indexAll_keeps _ _).2.1.trans (releaseAll_keeps _ _).2.1

@[simp] theorem reconcile_listing : (f.reconcile listed began).listing = f.listing :=
  (indexAll_keeps _ _).2.2.1.trans (releaseAll_keeps _ _).2.2.1

theorem mem_indexed_reconcile (mem : guid ∈ (f.reconcile listed began).indexed) :
    guid ∈ f.indexed ∨ f.removing guid = none ∧ ∀ r ∈ f.removed, r.1 = guid → r.2 ≤ began := by
  rcases (indexAll_keeps _ _).2.2.2 _ mem with kept | findable
  · have old := (releaseAll_keeps _ _).2.2.2 _ kept
    exact .inl old
  · right
    rw [Findable, (releaseAll_keeps _ _).1, (releaseAll_keeps _ _).2.1] at findable
    refine ⟨findable.1, fun r stored same => ?_⟩
    by_contra later
    exact findable.2 r (List.mem_filter.mpr ⟨stored, by simpa using later⟩) same

theorem Settled.reconcile (settled : f.Settled) (unique : (listed.map (·.guidPath)).Nodup) (began : Nat) :
    (f.reconcile listed began).Settled := by
  have current : { f with removed := f.removed.filter fun r => r.2 > began }.Settled :=
    { settled with }
  apply (current.releaseAll _).indexAll
  · exact unique.sublist (List.filter_sublist.map _)
  · intro vol found old
    have absent := (List.mem_filter.mp found).2
    have old := (releaseAll_keeps _ _).2.2.2 _ old
    simp_all

end Reconcile

section Steps

variable {event : DeviceEvent} {now : Nat}

theorem released_spec (settled : f.Settled) (guid : Guid) :
    let released := if f.indexed.contains guid then f.release guid else f
    released.Settled ∧ released.removing = f.removing ∧ released.listing = f.listing ∧
      ∀ g, g ∈ released.indexed ↔ g ∈ f.indexed ∧ g ≠ guid := by
  by_cases member : guid ∈ f.indexed
  · simp only [List.contains_eq_mem, member, decide_true, if_true]
    exact ⟨settled.release guid, rfl, rfl, fun g => mem_indexed_release⟩
  · simp only [List.contains_eq_mem, member, decide_false, Bool.false_eq_true, if_false, true_and]
    exact ⟨settled, fun g => ⟨fun mem => ⟨mem, fun same => member (same ▸ mem)⟩, And.left⟩⟩

theorem onRemoval_listing : (f.onRemoval guid event now).listing = f.listing := by
  cases event <;> simp only [onRemoval] <;> split <;> rfl

theorem mem_indexed_onRemoval (settled : f.Settled) (mem : other ∈ (f.onRemoval guid event now).indexed) :
    other ∈ f.indexed ∧ (event ≠ .queryRemoveFailed → other ≠ guid) := by
  have released := (released_spec settled guid).2.2.2 other
  cases event with
  | queryRemove => exact ⟨(released.mp mem).1, fun _ => (released.mp mem).2⟩
  | queryRemoveFailed => exact ⟨mem, fun ne => absurd rfl ne⟩
  | removed => exact ⟨(released.mp mem).1, fun _ => (released.mp mem).2⟩

theorem onRemoval_removing :
    (f.onRemoval guid event now).removing =
      update f.removing guid
        (if event = .queryRemove then (f.removing guid).orElse fun _ => some now else none) := by
  cases event <;> simp only [onRemoval, reduceCtorEq, if_true, if_false] <;> split <;> rfl

theorem Settled.onRemoval (settled : f.Settled) (guid : Guid) (event : DeviceEvent) (now : Nat) :
    (f.onRemoval guid event now).Settled := by
  have free : ∀ g ∈ (f.onRemoval guid event now).indexed, (f.onRemoval guid event now).removing g = none := by
    intro g mem
    obtain ⟨old, ne⟩ := mem_indexed_onRemoval settled mem
    rw [onRemoval_removing]
    by_cases same : g = guid
    · have failed : event = .queryRemoveFailed := by
        by_contra other
        exact ne other same
      simp [same, failed]
    · rw [update_of_ne same]
      exact settled.notRemoving g old
  obtain ⟨released, -⟩ := released_spec settled guid
  cases event with
  | queryRemove | removed => exact { released with notRemoving := free }
  | queryRemoveFailed => exact { settled with notRemoving := free }

theorem expireRemoving_removing : (f.expireRemoving now).removing guid = none ∨
    (f.expireRemoving now).removing guid = f.removing guid := by
  simp only [expireRemoving]
  split
  · exact .inl rfl
  · exact .inr rfl

theorem Settled.expireRemoving (settled : f.Settled) (now : Nat) : (f.expireRemoving now).Settled := by
  refine { settled with notRemoving := ?_ }
  intro g mem
  rcases expireRemoving_removing with gone | same
  · exact gone
  · rw [same]
    exact settled.notRemoving g mem

theorem Settled.scan (settled : f.Settled) (keep : Guid → Bool) : (f.scan keep).Settled where
  once := settled.once
  supervisedOnce := (scanFrom_spec keep _ 0 settled.supervisedOnce).1
  supervisedIndexed := by
    intro g mem
    exact settled.supervisedIndexed g ((scanFrom_spec keep _ 0 settled.supervisedOnce).2 g mem)
  notRemoving := settled.notRemoving

theorem Settled.withListing (settled : f.Settled) (listing : Option Nat) : { f with listing := listing }.Settled :=
  { settled with }

theorem discover_cases (f : Fleet) (now : Nat) (spawned : Bool) (answer : ListingAnswer) :
    (∃ volumes, answer = .listed volumes ∧
      f.discover now spawned answer = { f with listing := none }.reconcile volumes (f.taken now)) ∨
    ∃ listing, (listing = f.listing ∨ listing = none ∨ listing = some (f.taken now)) ∧
      f.discover now spawned answer = { f with listing := listing } := by
  unfold discover
  split
  · exact .inr ⟨f.listing, .inl rfl, rfl⟩
  · cases answer with
    | listed volumes => exact .inl ⟨volumes, rfl, rfl⟩
    | failed => exact .inr ⟨none, .inr (.inl rfl), rfl⟩
    | disconnected => exact .inr ⟨none, .inr (.inl rfl), rfl⟩
    | timeout => exact .inr ⟨some (f.taken now), .inr (.inr rfl), rfl⟩

end Steps

def Unique (e : Acted) : Prop :=
  ∀ spawned volumes, e.act = .discover spawned (.listed volumes) → (volumes.map (·.guidPath)).Nodup

theorem Settled.step (settled : f.Settled) (unique : Unique e) : (f.step e).Settled := by
  rcases e with ⟨now, act⟩
  cases act with
  | removal guid event => exact settled.onRemoval guid event now
  | scan keep => exact settled.scan keep
  | expire => exact settled.expireRemoving now
  | discover spawned answer =>
    rcases f.discover_cases now spawned answer with ⟨volumes, rfl, same⟩ | ⟨listing, -, same⟩
    · change (f.discover now spawned (.listed volumes)).Settled
      rw [same]
      exact (settled.withListing none).reconcile (unique _ _ rfl) _
    · change (f.discover now spawned answer).Settled
      rw [same]
      exact settled.withListing listing

/-- What ends a pending removal of `guid`: word of its failure, word of its success, or no word for too long. -/
def Outcome (f : Fleet) (guid : Guid) (e : Acted) : Prop :=
  e.act = .removal guid .queryRemoveFailed ∨ e.act = .removal guid .removed ∨ e.act = .expire ∧ f.expired guid e.now

theorem step_queryRemove (asked : e.act = .removal guid .queryRemove) : ((f.step e).removing guid).isSome := by
  rw [step, asked, onRemoval_removing]
  cases f.removing guid <;> simp

theorem removing_step (pending : (f.removing guid).isSome) (undecided : ¬ f.Outcome guid e) :
    ((f.step e).removing guid).isSome := by
  rcases e with ⟨now, act⟩
  cases act with
  | removal other event =>
    change ((f.onRemoval other event now).removing guid).isSome
    rw [onRemoval_removing]
    by_cases same : guid = other
    · subst same
      cases event with
      | queryRemove => simp
      | queryRemoveFailed => exact absurd (.inl rfl) undecided
      | removed => exact absurd (.inr (.inl rfl)) undecided
    · rwa [update_of_ne same]
  | scan keep => exact pending
  | expire =>
    have alive : f.expired guid now ≠ true := fun over_ => undecided (.inr (.inr ⟨rfl, over_⟩))
    change ((f.expireRemoving now).removing guid).isSome
    simpa only [expireRemoving, alive, Bool.false_eq_true, if_false] using pending
  | discover spawned answer =>
    change ((f.discover now spawned answer).removing guid).isSome
    rcases f.discover_cases now spawned answer with ⟨volumes, -, same⟩ | ⟨listing, -, same⟩
    · rwa [same, reconcile_removing]
    · rwa [same]

/-- A removal at `t` is kept in mind as long as a listing begun before `t` may still come in. -/
def Remembers (f : Fleet) (guid : Guid) (t : Nat) : Prop :=
  (∃ at_, t ≤ at_ ∧ (guid, at_) ∈ f.removed) ∨ ∀ began, f.listing = some began → t ≤ began

theorem step_removed (gone : e.act = .removal guid .removed) : (f.step e).Remembers guid e.now := by
  left
  refine ⟨e.now, le_rfl, ?_⟩
  rw [step, gone]
  simp [onRemoval]

theorem taken_le {now : Nat} (late : t ≤ now) (pending : ∀ began, f.listing = some began → t ≤ began) :
    t ≤ f.taken now := by
  cases flight : f.listing with
  | none => simpa [taken, flight] using late
  | some began => simpa [taken, flight] using pending began flight

theorem Remembers.step (mind : f.Remembers guid t) (late : t ≤ e.now) : (f.step e).Remembers guid t := by
  rcases e with ⟨now, act⟩
  cases act with
  | removal other event =>
    change (f.onRemoval other event now).Remembers guid t
    rcases mind with ⟨at_, le, stored⟩ | flight
    · left
      cases event with
      | queryRemove => exact ⟨at_, le, by simp only [onRemoval]; split <;> exact stored⟩
      | queryRemoveFailed => exact ⟨at_, le, stored⟩
      | removed =>
        by_cases same : guid = other
        · exact ⟨now, late, by simp [onRemoval, same]⟩
        · exact ⟨at_, le, by simp [onRemoval, same, stored]⟩
    · right
      rwa [onRemoval_listing]
  | scan keep => exact mind
  | expire => exact mind
  | discover spawned answer =>
    change (f.discover now spawned answer).Remembers guid t
    rcases f.discover_cases now spawned answer with ⟨volumes, -, same⟩ | ⟨listing, which, same⟩
    · -- the listing that may have begun before `t` is the one that came in
      rw [same]
      right
      simp
    · rw [same]
      rcases mind with stored | flight
      · exact .inl stored
      · right
        rcases which with rfl | rfl | rfl
        · exact flight
        · simp
        · intro began begun
          obtain rfl := Option.some.inj begun
          exact taken_le late flight

theorem Remembers.indexed (mind : f.Remembers guid t) (settled : f.Settled) (late : t ≤ e.now)
    (before : guid ∉ f.indexed) (after : guid ∈ (f.step e).indexed) :
    ∃ spawned volumes, e.act = .discover spawned (.listed volumes) ∧ t ≤ f.taken e.now := by
  rcases e with ⟨now, act⟩
  cases act with
  | removal other event => exact absurd (mem_indexed_onRemoval settled after).1 before
  | scan keep => exact absurd after before
  | expire => exact absurd after before
  | discover spawned answer =>
    change guid ∈ (f.discover now spawned answer).indexed at after
    rcases f.discover_cases now spawned answer with ⟨volumes, rfl, same⟩ | ⟨listing, -, same⟩
    · rw [same] at after
      refine ⟨spawned, volumes, rfl, ?_⟩
      rcases mind with ⟨at_, le, stored⟩ | flight
      · rcases mem_indexed_reconcile after with old | ⟨-, recent⟩
        · exact absurd old before
        · exact le.trans (recent _ stored rfl)
      · exact taken_le late flight
    · rw [same] at after
      exact absurd after before

end Fleet

open Fleet

variable {events : Nat → Acted} {guid : Guid} {i j : Nat}

def Fleet.after (events : Nat → Acted) (n : Nat) : Fleet := Machine.run Fleet.step Fleet.new events n

theorem Fleet.after_settled (unique : ∀ n, Unique (events n)) (n : Nat) : (after events n).Settled := by
  apply Machine.invariant
  · exact ⟨List.nodup_nil, List.nodup_nil, by simp [new], by simp [new]⟩
  · intro n settled
    exact settled.step (unique n)

theorem Fleet.after_queryRemove (asked : (events i).act = .removal guid .queryRemove)
    (later : i < j) :
    ((after events j).removing guid).isSome ∨
      ∃ k, i < k ∧ k < j ∧ (after events k).Outcome guid (events k) := by
  have first : ((after events (i + 1)).removing guid).isSome := step_queryRemove asked
  have lasts := Machine.lasts_until (p := fun n => ((after events n).removing guid).isSome) first
    (fun n _ pending undecided => removing_step pending undecided) (Nat.succ_le_of_lt later)
  rcases lasts with pending | ⟨k, after, before, -, ended⟩
  · exact .inl pending
  · exact .inr ⟨k, after, before, ended⟩

theorem Fleet.after_removed (unique : ∀ n, Unique (events n))
    (gone : (events i).act = .removal guid .removed) (later : i < j) :
    guid ∉ (after events j).indexed ∨
      ∃ k, i < k ∧ k < j ∧ guid ∉ (after events k).indexed ∧ guid ∈ (after events (k + 1)).indexed := by
  have first : guid ∉ (after events (i + 1)).indexed := by
    intro still
    have here : guid ∈ ((after events i).step (events i)).indexed := still
    rw [step, gone] at here
    exact (mem_indexed_onRemoval (after_settled unique i) here).2 (by simp) rfl
  by_cases now : guid ∈ (after events j).indexed
  · right
    obtain ⟨k, after, before, out, back⟩ := Machine.leaves (p := fun n => guid ∉ (after events n).indexed) first
      (Nat.succ_le_of_lt later) (not_not_intro now)
    exact ⟨k, after, before, out, not_not.mp back⟩
  · exact .inl now

theorem Fleet.after_remembers (clock : Monotone fun n => (events n).now)
    (gone : (events i).act = .removal guid .removed) (later : i < j) :
    (after events j).Remembers guid (events i).now := by
  induction j, Nat.succ_le_of_lt later using Nat.le_induction with
  | base => exact step_removed gone
  | succ n le mind =>
    have late : (events i).now ≤ (events n).now := clock (by omega)
    exact (mind (by omega)).step late

/-- No volume is indexed while its removal is pending, none is indexed twice, supervised volumes are indexed, and a
removed volume comes back only by a listing begun after the removal. -/
theorem volume_removal_protocol (unique : ∀ n, Fleet.Unique (events n)) (clock : Monotone fun n => (events n).now) :
    (∀ n guid, ¬ (guid ∈ (Fleet.after events n).indexed ∧ ((Fleet.after events n).removing guid).isSome)) ∧
    (∀ n, (Fleet.after events n).indexed.Nodup) ∧
    (∀ n, ∀ guid ∈ (Fleet.after events n).supervised, guid ∈ (Fleet.after events n).indexed) ∧
    (∀ i j guid, (events i).act = .removal guid .queryRemove → i < j → guid ∈ (Fleet.after events j).indexed →
      ∃ k, i < k ∧ k < j ∧ (Fleet.after events k).Outcome guid (events k)) ∧
    (∀ i j guid, (events i).act = .removal guid .removed → i < j → guid ∈ (Fleet.after events j).indexed →
      ∃ k, i < k ∧ k < j ∧ guid ∉ (Fleet.after events k).indexed ∧ guid ∈ (Fleet.after events (k + 1)).indexed) ∧
    (∀ i j guid, (events i).act = .removal guid .removed → i < j → guid ∉ (Fleet.after events j).indexed →
      guid ∈ (Fleet.after events (j + 1)).indexed →
      ∃ spawned volumes, (events j).act = .discover spawned (.listed volumes) ∧
        (events i).now ≤ (Fleet.after events j).taken (events j).now) := by
  have settled := after_settled unique
  refine ⟨?_, fun n => (settled n).once, fun n => (settled n).supervisedIndexed, ?_, ?_, ?_⟩
  · rintro n guid ⟨mem, pending⟩
    simp [(settled n).notRemoving guid mem] at pending
  · intro i j guid asked later mem
    rcases after_queryRemove asked later with pending | ended
    · simp [(settled j).notRemoving guid mem] at pending
    · exact ended
  · intro i j guid gone later mem
    exact (after_removed unique gone later).resolve_left (not_not_intro mem)
  · intro i j guid gone later before after
    have late : (events i).now ≤ (events j).now := clock later.le
    exact (after_remembers clock gone later).indexed (settled j) late before after

/-- A disk listed, pulled, and found again by a listing begun before and one begun after the pull. -/
def pulledDisk (n : Nat) : Acted :=
  let disk : VolumeInfo := { guidPath := "D", mounts := ["D:"], isFixed := true, isNtfs := true }
  match n with
  | 0 => { now := 0, act := .discover true (.listed [disk]) }
  | 1 => { now := 1, act := .discover true .timeout }
  | 2 => { now := 2, act := .removal "D" .removed }
  | 3 => { now := 3, act := .discover true (.listed [disk]) }
  | n + 4 => { now := n + 4, act := .discover true (.listed [disk]) }

theorem pulledDisk_unique (n : Nat) : Unique (pulledDisk n) := by
  intro spawned volumes act
  match n with
  | 0 | 3 | n + 4 =>
    simp only [pulledDisk, Act.discover.injEq, ListingAnswer.listed.injEq] at act
    simp [← act.2]
  | 1 | 2 => simp [pulledDisk] at act

theorem pulledDisk_clock : Monotone fun n => (pulledDisk n).now := by
  have readings : (fun n => (pulledDisk n).now) = id := by
    funext n
    match n with
    | 0 | 1 | 2 | 3 | n + 4 => rfl
  rw [readings]
  exact monotone_id

theorem pulledDisk_found_again :
    (Fleet.after pulledDisk 4).indexed = [] ∧ (Fleet.after pulledDisk 5).indexed = ["D"] ∧
      ∃ spawned volumes, (pulledDisk 4).act = .discover spawned (.listed volumes) ∧
        (pulledDisk 2).now ≤ (Fleet.after pulledDisk 4).taken (pulledDisk 4).now := by
  refine ⟨by decide, by decide, ?_⟩
  exact (volume_removal_protocol pulledDisk_unique pulledDisk_clock).2.2.2.2.2 2 4 "D" rfl (by decide) (by decide)
    (by decide)

end Goz.Daemon
