import Goz.Daemon.Fleet

namespace Goz.Daemon

open Option

def scanInterval : Nat := 30 * 10 ^ 9

structure Removal where
  guid : Guid
  event : DeviceEvent

namespace Fleet

/-- Whether acting on a removal event asks for a listing: a removal that failed leaves a disk to index again. -/
def relists (f : Fleet) (removal : Removal) : Bool :=
  match removal.event with
  | .queryRemove | .removed => false
  | .queryRemoveFailed => (f.removing removal.guid).isSome

/-- The removals posted, acted on in order, and whether the volumes should be listed now. -/
def actOn (f : Fleet) (posted : List Removal) (now : Nat) : Fleet × Bool :=
  posted.foldl (fun acted removal =>
    (acted.1.onRemoval removal.guid removal.event now, acted.2 || acted.1.relists removal)) (f, false)

end Fleet

/-- What one round of the loop meets: when its wait ends and with what posted, how the listings go, and which tails a
    scan keeps. -/
structure Wake where
  now : Nat
  posted : List Removal
  relisting : Bool × ListingAnswer
  keep : Guid → Bool
  listing : Bool × ListingAnswer

/-- The fleet and the locals of the loop, with the time it began or last scanned the tails. -/
structure ScanLoop where
  fleet : Fleet
  clock : Nat
  nextScan : Nat
  lastScan : Nat

namespace ScanLoop

def start (listed : List VolumeInfo) (now : Nat) : ScanLoop where
  fleet := Fleet.new.reconcile listed now
  clock := now
  nextScan := now + scanInterval
  lastScan := now

/-- The rest of a round, once the removals posted are acted on: it lists the volumes if they ask for it, and scans if a
    scan is due. -/
def tend (s : ScanLoop) (relist : Bool) (w : Wake) : ScanLoop :=
  let fleet := if relist then s.fleet.discover w.now w.relisting.1 w.relisting.2 else s.fleet
  let nextScan := if relist then w.now + scanInterval else s.nextScan
  if w.now < nextScan then { fleet := fleet, clock := w.now, nextScan := nextScan, lastScan := s.lastScan }
  else
    { fleet := ((fleet.scan w.keep).expireRemoving w.now).discover w.now w.listing.1 w.listing.2
      clock := w.now
      nextScan := w.now + scanInterval
      lastScan := w.now }

def round (s : ScanLoop) (w : Wake) : ScanLoop :=
  let acted := s.fleet.actOn w.posted w.now
  { s with fleet := acted.1 }.tend acted.2 w

/-- How a wait ends: as soon as something is posted, else when the next scan is due. -/
structure Ends (s : ScanLoop) (w : Wake) : Prop where
  after : s.clock ≤ w.now
  due : w.now ≤ s.nextScan
  empty : w.posted = [] → w.now = s.nextScan

def Relists (s : ScanLoop) (w : Wake) : Prop := (s.fleet.actOn w.posted w.now).2 = true

instance (s : ScanLoop) (w : Wake) : Decidable (s.Relists w) := inferInstanceAs (Decidable (_ = _))

variable {s : ScanLoop} {w : Wake}

/-- A round that relists puts the next scan off, one that comes when it is due scans, and any other only acts. -/
theorem round_cases (s : ScanLoop) (w : Wake) :
    (s.Relists w ∧ (s.round w).lastScan = s.lastScan ∧ (s.round w).nextScan = w.now + scanInterval ∧
        (s.round w).fleet = (s.fleet.actOn w.posted w.now).1.discover w.now w.relisting.1 w.relisting.2) ∨
      (¬ s.Relists w ∧ w.now < s.nextScan ∧ (s.round w).lastScan = s.lastScan ∧ (s.round w).nextScan = s.nextScan ∧
        (s.round w).fleet = (s.fleet.actOn w.posted w.now).1) ∨
      (¬ s.Relists w ∧ s.nextScan ≤ w.now ∧ (s.round w).lastScan = w.now ∧ (s.round w).nextScan = w.now + scanInterval ∧
        (s.round w).fleet = (((s.fleet.actOn w.posted w.now).1.scan w.keep).expireRemoving w.now).discover w.now w.listing.1 w.listing.2) := by
  have soon : w.now < w.now + scanInterval := Nat.lt_add_of_pos_right (by decide)
  unfold Relists
  cases relists : (s.fleet.actOn w.posted w.now).2 with
  | true => simp [round, tend, relists, soon]
  | false =>
    by_cases early : w.now < s.nextScan
    · simp [round, tend, relists, early]
    · simp [round, tend, relists, early, Nat.le_of_not_lt early]

@[simp] theorem clock_round : (s.round w).clock = w.now := by
  simp only [round, tend]
  split_ifs <;> rfl

end ScanLoop

namespace Fleet

variable {f : Fleet} {posted : List Removal} {now bound : Nat}

/-- No removal without an outcome is older than `removalOutcomeWait` at the time `bound`. -/
def NoneOverdue (f : Fleet) (bound : Nat) : Prop :=
  ∀ guid since, f.removing guid = some since → bound < since + removalOutcomeWait

theorem NoneOverdue.onRemoval (young : f.NoneOverdue bound) (late : bound ≤ now) (removal : Removal) :
    (f.onRemoval removal.guid removal.event now).NoneOverdue bound := by
  have positive : 0 < removalOutcomeWait := by decide
  intro guid since at_
  rw [onRemoval_removing] at at_
  by_cases same : guid = removal.guid
  · subst same
    rw [Function.update_self] at at_
    split at at_
    · cases before : f.removing removal.guid with
      | none =>
        rw [before] at at_
        obtain rfl := some.inj at_
        omega
      | some earlier =>
        rw [before] at at_
        obtain rfl := some.inj at_
        exact young _ _ before
    · cases at_
  · rw [Function.update_of_ne same] at at_
    exact young guid since at_

theorem NoneOverdue.actOn (young : f.NoneOverdue bound) (late : bound ≤ now) (posted : List Removal) :
    (f.actOn posted now).1.NoneOverdue bound := by
  have all : ∀ (posted : List Removal) (acted : Fleet × Bool), acted.1.NoneOverdue bound →
      (posted.foldl (fun acted removal =>
        (acted.1.onRemoval removal.guid removal.event now, acted.2 || acted.1.relists removal)) acted).1.NoneOverdue bound := by
    intro posted
    induction posted with
    | nil => exact fun acted young => young
    | cons removal posted ih => exact fun acted young => ih _ (young.onRemoval late removal)
  exact all posted (f, false) young

theorem discover_removing (f : Fleet) (spawned : Bool) (answer : ListingAnswer) : (f.discover now spawned answer).removing = f.removing := by
  obtain ⟨volumes, -, found⟩ | ⟨listing, -, same⟩ := f.discover_cases now spawned answer
  · rw [found, reconcile_removing]
  · rw [same]

theorem noneOverdue_expireRemoving : (f.expireRemoving now).NoneOverdue now := by
  intro guid since at_
  simp only [expireRemoving] at at_
  split at at_
  · cases at_
  · rename_i kept
    simp only [expired, at_, decide_eq_true_eq, not_le] at kept
    omega

end Fleet

open ScanLoop

variable {listed : List VolumeInfo} {began : Nat} {wakes : Nat → Wake}

def rounds (listed : List VolumeInfo) (began : Nat) (wakes : Nat → Wake) (n : Nat) : ScanLoop :=
  Machine.run ScanLoop.round (ScanLoop.start listed began) wakes n

theorem rounds_succ (n : Nat) : rounds listed began wakes (n + 1) = (rounds listed began wakes n).round (wakes n) := rfl

def Proper (listed : List VolumeInfo) (began : Nat) (wakes : Nat → Wake) : Prop := ∀ n, (rounds listed began wakes n).Ends (wakes n)

/-- No more than an interval has passed since the last scan at any time of the run, and no removal without an outcome is
    left a whole interval longer than it may be. -/
structure KeepsUp (listed : List VolumeInfo) (began : Nat) (wakes : Nat → Wake) : Prop where
  scans : ∀ n, (wakes n).now ≤ (rounds listed began wakes n).lastScan + scanInterval
  expires : ∀ n guid since, (rounds listed began wakes n).fleet.removing guid = some since →
    (wakes n).now < since + removalOutcomeWait + scanInterval

def RelistsOnlyAtScans (listed : List VolumeInfo) (began : Nat) (wakes : Nat → Wake) : Prop :=
  ∀ n, (rounds listed began wakes n).Relists (wakes n) → (wakes n).now = (rounds listed began wakes n).lastScan

variable (proper : Proper listed began wakes)
include proper

theorem lastScan_le (n : Nat) :
    (rounds listed began wakes n).lastScan ≤ (rounds listed began wakes n).clock := by
  induction n with
  | zero => exact Nat.le_refl _
  | succ n ih =>
    have after := (proper n).after
    rw [rounds_succ, clock_round]
    obtain ⟨-, same, -⟩ | ⟨-, -, same, -⟩ | ⟨-, -, now, -⟩ := (rounds listed began wakes n).round_cases (wakes n)
    · omega
    · omega
    · omega

theorem noneOverdue_rounds (n : Nat) :
    (rounds listed began wakes n).fleet.NoneOverdue (rounds listed began wakes n).lastScan := by
  induction n with
  | zero =>
    intro guid since at_
    have none_ : (rounds listed began wakes 0).fleet.removing guid = none := by
      show (Fleet.new.reconcile listed began).removing guid = none
      rw [Fleet.reconcile_removing]
      rfl
    rw [none_] at at_
    cases at_
  | succ n ih =>
    have late := (lastScan_le proper n).trans (proper n).after
    have acted := ih.actOn late (wakes n).posted
    rw [rounds_succ]
    obtain ⟨-, same, -, eq⟩ | ⟨-, -, same, -, eq⟩ | ⟨-, -, now, -, eq⟩ := (rounds listed began wakes n).round_cases (wakes n)
    · rw [same, eq]
      unfold Fleet.NoneOverdue
      rw [Fleet.discover_removing]
      exact acted
    · rw [same, eq]
      exact acted
    · rw [now, eq]
      unfold Fleet.NoneOverdue
      rw [Fleet.discover_removing]
      exact Fleet.noneOverdue_expireRemoving

theorem wakes_mono : Monotone fun n => (wakes n).now := by
  apply monotone_nat_of_le_succ
  intro n
  have after := (proper (n + 1)).after
  rwa [rounds_succ, clock_round] at after

omit proper

theorem nextScan_eq (onlyAtScans : RelistsOnlyAtScans listed began wakes) (n : Nat) :
    (rounds listed began wakes n).nextScan = (rounds listed began wakes n).lastScan + scanInterval := by
  induction n with
  | zero => rfl
  | succ n ih =>
    rw [rounds_succ]
    obtain ⟨relists, same, next, -⟩ | ⟨-, -, same, next, -⟩ | ⟨-, -, now, next, -⟩ :=
      (rounds listed began wakes n).round_cases (wakes n)
    · rw [same, next, onlyAtScans n relists]
    · rw [same, next, ih]
    · rw [now, next]

theorem put_off (proper : Proper listed began wakes) (keepsUp : ∀ n, (wakes n).now ≤ (rounds listed began wakes n).lastScan + scanInterval)
    {n : Nat} (relists : (rounds listed began wakes n).Relists (wakes n)) (late : (rounds listed began wakes n).lastScan < (wakes n).now)
    (k : Nat) :
    (rounds listed began wakes (n + 1 + k)).lastScan = (rounds listed began wakes n).lastScan ∧
      (wakes n).now + scanInterval ≤ (rounds listed began wakes (n + 1 + k)).nextScan := by
  induction k with
  | zero =>
    rw [Nat.add_zero, rounds_succ]
    obtain ⟨-, same, next, -⟩ | ⟨not, -⟩ | ⟨not, -⟩ := (rounds listed began wakes n).round_cases (wakes n)
    · exact ⟨same, Nat.le_of_eq next.symm⟩
    · exact absurd relists not
    · exact absurd relists not
  | succ k ih =>
    obtain ⟨last, next⟩ := ih
    have within := keepsUp (n + 1 + k)
    have past : (wakes n).now ≤ (wakes (n + 1 + k)).now := wakes_mono proper (by omega)
    rw [← Nat.add_assoc, rounds_succ]
    obtain ⟨-, same, again, -⟩ | ⟨-, -, same, kept, -⟩ | ⟨-, due, -⟩ :=
      (rounds listed began wakes (n + 1 + k)).round_cases (wakes (n + 1 + k))
    · exact ⟨same.trans last, by omega⟩
    · exact ⟨same.trans last, by omega⟩
    · omega

/-- Supervision keeps up if no failed removal relists after the instant of a scan; and if time goes on, only then. -/
theorem keepsUp_iff_relists_only_at_scans (proper : Proper listed began wakes) :
    (RelistsOnlyAtScans listed began wakes → KeepsUp listed began wakes) ∧
      ((∀ time, ∃ n, time < (wakes n).now) → KeepsUp listed began wakes → RelistsOnlyAtScans listed began wakes) := by
  constructor
  · intro onlyAtScans
    have scans : ∀ n, (wakes n).now ≤ (rounds listed began wakes n).lastScan + scanInterval := by
      intro n
      rw [← nextScan_eq onlyAtScans n]
      exact (proper n).due
    refine ⟨scans, ?_⟩
    intro n guid since waiting
    have young := noneOverdue_rounds proper n guid since waiting
    have within := scans n
    omega
  · intro goesOn keepsUp n relists
    have late := (lastScan_le proper n).trans (proper n).after
    by_contra apart
    have off := put_off proper keepsUp.scans relists (by omega)
    -- From then on no scan comes, and the time stays within an interval of the last.
    obtain ⟨m, past⟩ := goesOn ((rounds listed began wakes n).lastScan + scanInterval)
    obtain before | after := Nat.lt_or_ge n m
    · obtain ⟨k, rfl⟩ := Nat.exists_eq_add_of_le (show n + 1 ≤ m from before)
      have within := keepsUp.scans (n + 1 + k)
      rw [(off k).1] at within
      omega
    · have earlier := wakes_mono proper after
      have within := keepsUp.scans n
      simp only at earlier
      omega

def undisturbed (n : Nat) : Wake where
  now := (n + 1) * scanInterval
  posted := []
  relisting := (true, .failed)
  keep := fun _ => true
  listing := (true, .failed)

theorem undisturbed_rounds (n : Nat) : (rounds [] 0 undisturbed n).clock = n * scanInterval ∧
    (rounds [] 0 undisturbed n).nextScan = (n + 1) * scanInterval := by
  have positive : 0 < scanInterval := by decide
  induction n with
  | zero => exact ⟨rfl, rfl⟩
  | succ n ih =>
    rw [rounds_succ, clock_round]
    refine ⟨rfl, ?_⟩
    have now : (undisturbed n).now = (n + 1) * scanInterval := rfl
    obtain ⟨relists, -⟩ | ⟨-, early, -⟩ | ⟨-, -, -, next, -⟩ := (rounds [] 0 undisturbed n).round_cases (undisturbed n)
    · cases relists
    · rw [ih.2, now] at early
      omega
    · rw [next, now, ← Nat.succ_mul]

theorem undisturbed_keepsUp : Proper [] 0 undisturbed ∧ KeepsUp [] 0 undisturbed := by
  have proper : Proper [] 0 undisturbed := by
    intro n
    obtain ⟨clock, next⟩ := undisturbed_rounds n
    have now : (undisturbed n).now = (n + 1) * scanInterval := rfl
    refine ⟨?_, ?_, ?_⟩
    · rw [clock, now, Nat.succ_mul]
      omega
    · rw [next, now]
    · intro _
      rw [next, now]
  exact ⟨proper, (keepsUp_iff_relists_only_at_scans proper).1 fun n relists => by cases relists⟩

def flapping (n : Nat) : Wake where
  now := (n + 1) * 10 ^ 10
  posted := [⟨"v", if n % 2 = 0 then .queryRemove else .queryRemoveFailed⟩]
  relisting := (true, .failed)
  keep := fun _ => true
  listing := (true, .failed)

theorem flapping_rounds (n : Nat) : (rounds [] 0 flapping n).clock = n * 10 ^ 10 ∧ (rounds [] 0 flapping n).lastScan = 0 ∧
    (rounds [] 0 flapping n).nextScan = (n - n % 2) * 10 ^ 10 + scanInterval ∧
    ((rounds [] 0 flapping n).fleet.removing "v").isSome = decide (n % 2 = 1) := by
  induction n with
  | zero => exact ⟨rfl, rfl, rfl, rfl⟩
  | succ n ih =>
    obtain ⟨clock, last, next, waiting⟩ := ih
    have now : (flapping n).now = (n + 1) * 10 ^ 10 := rfl
    have interval : scanInterval = 3 * 10 ^ 10 := by decide
    have relists : (rounds [] 0 flapping n).Relists (flapping n) ↔ n % 2 = 1 := by
      obtain even | odd := Nat.mod_two_eq_zero_or_one n
      · simp [Relists, Fleet.actOn, Fleet.relists, flapping, even]
      · simp [Relists, Fleet.actOn, Fleet.relists, flapping, odd, waiting]
    have acted : ((rounds [] 0 flapping n).fleet.actOn (flapping n).posted (flapping n).now).1.removing "v" =
        if n % 2 = 0 then ((rounds [] 0 flapping n).fleet.removing "v").orElse fun _ => some (flapping n).now else none := by
      obtain even | odd := Nat.mod_two_eq_zero_or_one n
      · simp [Fleet.actOn, flapping, even, Fleet.onRemoval_removing]
      · simp [Fleet.actOn, flapping, odd, Fleet.onRemoval_removing]
    rw [rounds_succ, clock_round, now]
    obtain ⟨failed, same, off, eq⟩ | ⟨held, -, same, kept, eq⟩ | ⟨held, due, -⟩ :=
      (rounds [] 0 flapping n).round_cases (flapping n)
    · have odd := relists.mp failed
      rw [same, off, eq, Fleet.discover_removing, acted, if_neg (by omega), now]
      refine ⟨rfl, last, ?_, ?_⟩
      · rw [show (n + 1) % 2 = 0 from by omega, Nat.sub_zero]
      · simp only [isSome_none]
        exact (decide_eq_false (by omega)).symm
    · have even : n % 2 = 0 := by
        rw [relists] at held
        omega
      rw [same, kept, eq, acted, if_pos even]
      refine ⟨rfl, last, ?_, ?_⟩
      · rw [next, even, show (n + 1) % 2 = 1 from by omega, Nat.sub_zero, Nat.add_sub_cancel]
      · cases (rounds [] 0 flapping n).fleet.removing "v" <;>
          simpa using (show (n + 1) % 2 = 1 by omega)
    · rw [next, now, interval] at due
      omega

theorem flapping_proper : Proper [] 0 flapping := by
  intro n
  obtain ⟨clock, -, next, -⟩ := flapping_rounds n
  have now : (flapping n).now = (n + 1) * 10 ^ 10 := rfl
  have interval : scanInterval = 3 * 10 ^ 10 := by decide
  refine ⟨?_, ?_, nofun⟩
  · rw [clock, now]
    omega
  · rw [next, now, interval]
    omega

/-- A removal that keeps failing puts every scan off: none ever comes. -/
theorem flapping_starves : Proper [] 0 flapping ∧ (∀ n, (rounds [] 0 flapping n).lastScan = 0) ∧ ¬ KeepsUp [] 0 flapping := by
  refine ⟨flapping_proper, fun n => (flapping_rounds n).2.1, ?_⟩
  intro keepsUp
  have within := keepsUp.scans 3
  rw [(flapping_rounds 3).2.1] at within
  exact absurd within (by decide)

end Goz.Daemon
