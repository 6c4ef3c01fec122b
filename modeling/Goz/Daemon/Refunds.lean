import Goz.Daemon.Supervised
import Mathlib.Algebra.BigOperators.Intervals

namespace Goz.Daemon

open Option

variable {action : Action} {since : Nat}

/-- What one scan of a volume finds: the time, the volume, the pulse of its tail, if it has one, and how the start under
    way has gone so far, if one is; and whether a thread for a new start can be had. -/
structure Observation where
  now : Nat
  volume : VolumeState
  pulse : Pulse
  outcome : PendingRevival
  spawned : Bool

namespace Supervised

def meets (s : Supervised) (o : Observation) : Supervised :=
  { s with
    volume := o.volume
    tail := s.tail.map fun tail => { tail with pulse := o.pulse }
    pending := s.pending.map fun _ => o.outcome }

def scanned (s : Supervised) (o : Observation) : Supervised := (s.meets o).step (.scan o.now o.spawned)

def decision (s : Supervised) (o : Observation) : Option Action :=
  if s.ended || s.pending.isSome then none else some ((s.meets o).verdict o.now)

def Healthy (s : Supervised) (o : Observation) : Prop :=
  s.pending = none ∧ ∃ at_, (s.meets o).pulse = .beat at_ ∧ o.now - at_ < beatFresh ∧ o.volume.phase = .live

variable {s : Supervised} {o : Observation}

theorem decision_eq_some (decides : s.decision o = some action) :
    s.ended = false ∧ s.pending = none ∧ (s.meets o).verdict o.now = action ∧
      s.scanned o = act { s.meets o with beatingSince := (s.meets o).observed o.now } o.spawned action := by
  unfold decision at decides
  split at decides
  · cases decides
  · rename_i acting
    obtain rfl := some.inj decides
    simp only [Bool.or_eq_true, not_or, Bool.not_eq_true, isSome_eq_false_iff, isNone_iff_eq_none] at acting
    obtain ⟨going, idle⟩ := acting
    refine ⟨going, idle, rfl, ?_⟩
    have waits : (s.meets o).pending = none := by simp [meets, idle]
    have goes : (s.meets o).ended = false := going
    simp only [scanned, step, goes, scan, waits]
    rfl

theorem pollRevival_keeps (s : Supervised) (pending : PendingRevival) :
    (s.pollRevival pending).reviveAttempts = s.reviveAttempts ∧ (s.pollRevival pending).beatingSince = s.beatingSince := by
  cases pending with
  | working | started | died => exact ⟨rfl, rfl⟩
  | failed error => cases indexed : s.volume.indexed <;> simp [pollRevival, startFailed, indexed]

theorem decision_eq_none (waits : s.decision o = none) :
    (s.scanned o).reviveAttempts = s.reviveAttempts ∧ (s.scanned o).beatingSince = s.beatingSince ∧
      (s.ended = false → s.pending.isSome) ∧ (s.pending = none → (s.scanned o).pending = none) := by
  unfold decision at waits
  split at waits
  · rename_i idle
    cases ended : s.ended with
    | true =>
      have same : s.scanned o = s.meets o := by simp [scanned, step, meets, ended]
      rw [same]
      exact ⟨rfl, rfl, by simp, by simp +contextual [meets]⟩
    | false =>
      obtain ⟨pending, busy⟩ : ∃ pending, s.pending = some pending := by
        simpa [ended, isSome_iff_exists] using idle
      have polled : s.scanned o = (s.meets o).pollRevival o.outcome := by
        simp [scanned, step, scan, meets, ended, busy]
      obtain ⟨attempts, anchor⟩ := (s.meets o).pollRevival_keeps o.outcome
      rw [polled, attempts, anchor]
      exact ⟨rfl, rfl, by simp [busy], by simp [busy]⟩
  · cases waits

def charged (attempts : Nat) : Action → Nat
  | .resetBudget => 0
  | .revive => attempts + 1
  | .nothing | .cancelIo _ | .giveUp | .release => attempts

variable (decides : s.decision o = some action)
include decides

theorem attempts_of_decision :
    (s.scanned o).reviveAttempts = charged s.reviveAttempts action := by
  rw [(decision_eq_some decides).2.2.2]
  cases action <;> rfl

theorem retired_of_decision (ends : action = .revive ∨ action = .giveUp ∨ action = .release) : (s.meets o).pulse = .retired := by
  obtain ⟨-, -, verdict, -⟩ := decision_eq_some decides
  by_contra running
  obtain no | no | ⟨secs, no⟩ := verdict_running o.now running
  all_goals
    rw [no] at verdict
    subst verdict
    simp at ends

theorem anchor_of_decision :
    ((s.scanned o).beatingSince = none ∨ (s.scanned o).beatingSince = (s.meets o).observed o.now) ∧
      ((s.scanned o).ended → action = .giveUp ∨ action = .release) ∧
      ((s.scanned o).pending.isSome → action = .revive) ∧
      (action = .resetBudget ∨ action = .revive → (s.scanned o).beatingSince = none) := by
  obtain ⟨going, idle, -, eq⟩ := decision_eq_some decides
  have waits : (s.meets o).pending = none := by simp [meets, idle]
  have goes : (s.meets o).ended = false := going
  rw [eq]
  cases action with
  | nothing | cancelIo => simp [act, goes, waits]
  | resetBudget => simp [act, goes, waits]
  | revive => simp [act, launchRevival, launch, goes]
  | giveUp | release => simp [act, giveUp, waits]

omit decides

theorem revive_within (decides : s.decision o = some .revive) : s.reviveAttempts < maxRevives := by
  obtain ⟨-, -, verdict, -⟩ := decision_eq_some decides
  rw [verdict_retired (retired_of_decision decides (Or.inl rfl))] at verdict
  split at verdict
  · cases verdict
  · split at verdict
    · cases verdict
    · rename_i room
      exact Nat.lt_of_not_le room

theorem healthy_of_observed (idle : s.pending = none) (revived : 0 < s.reviveAttempts)
    (anchored : (s.meets o).observed o.now = some since) : s.Healthy o ∧ since = s.beatingSince.getD o.now := by
  have counts : (s.meets o).observed o.now = accrueHealth s.beatingSince (s.meets o).pulse (o.volume.phase = .live) o.now :=
    if_pos revived
  rw [counts] at anchored
  cases pulse : (s.meets o).pulse with
  | busy since => simp [accrueHealth, pulse] at anchored
  | retired => simp [accrueHealth, pulse] at anchored
  | beat at_ =>
    simp only [accrueHealth, pulse] at anchored
    split at anchored
    · rename_i fresh
      simp only [Bool.and_eq_true, decide_eq_true_eq] at fresh
      exact ⟨⟨idle, at_, pulse, fresh.2, fresh.1⟩, (some.inj anchored).symm⟩
    · cases anchored

theorem refund_anchor (decides : s.decision o = some .resetBudget) :
    0 < s.reviveAttempts ∧ ∃ since, (s.meets o).observed o.now = some since ∧ healthyAfter ≤ o.now - since := by
  obtain ⟨-, -, decided, -⟩ := decision_eq_some decides
  unfold verdict assess at decided
  cases pulse : (s.meets o).pulse with
  | retired =>
    simp only [pulse] at decided
    split_ifs at decided
  | busy since =>
    simp only [pulse] at decided
    split_ifs at decided
  | beat at_ =>
    simp only [pulse] at decided
    split_ifs at decided with stalled proven
    simp only [Bool.and_eq_true, decide_eq_true_eq, any_eq_true_iff_get] at proven
    obtain ⟨revived, there, old⟩ := proven
    exact ⟨revived, _, (some_get there).symm, old⟩

end Supervised

open Supervised

variable {spawned : Bool} {scans : Nat → Observation} {n : Nat}

def history (spawned : Bool) (scans : Nat → Observation) (n : Nat) : Supervised :=
  Machine.run scanned (start spawned) scans n

theorem history_succ (n : Nat) : history spawned scans (n + 1) = (history spawned scans n).scanned (scans n) := rfl

def Forgets (spawned : Bool) (scans : Nat → Observation) (n : Nat) : Prop :=
  (history spawned scans n).decision (scans n) = some .resetBudget

instance (n : Nat) : Decidable (Forgets spawned scans n) := inferInstanceAs (Decidable (_ = _))

def Launches (spawned : Bool) (scans : Nat → Observation) (n : Nat) : Prop :=
  (history spawned scans n).decision (scans n) = some .revive

instance (n : Nat) : Decidable (Launches spawned scans n) := inferInstanceAs (Decidable (_ = _))

/-- A volume with a health anchor is on its own after a revival, and every scan from the anchor on was healthy. -/
structure Anchored (spawned : Bool) (scans : Nat → Observation) (n : Nat) : Prop where
  budget : (history spawned scans n).reviveAttempts ≤ maxRevives
  quiet : (history spawned scans n).ended ∨ (history spawned scans n).pending.isSome ∨ (history spawned scans n).reviveAttempts = 0 →
    (history spawned scans n).beatingSince = none
  anchor : ∀ since, (history spawned scans n).beatingSince = some since →
    ∃ m < n, (scans m).now = since ∧ ∀ k, m ≤ k → k < n → (history spawned scans k).Healthy (scans k)

theorem anchored_zero : Anchored spawned scans 0 := by
  have none_ : (history spawned scans 0).beatingSince = none := rfl
  exact ⟨Nat.zero_le _, fun _ => none_, fun since some_ => by rw [none_] at some_; cases some_⟩

theorem Anchored.observed (anchored : Anchored spawned scans n)
    (decides : (history spawned scans n).decision (scans n) = some action)
    (seen : ((history spawned scans n).meets (scans n)).observed (scans n).now = some since) :
    0 < (history spawned scans n).reviveAttempts ∧ (history spawned scans n).Healthy (scans n) ∧
      ∃ m ≤ n, (scans m).now = since ∧ ∀ k, m ≤ k → k ≤ n → (history spawned scans k).Healthy (scans k) := by
  obtain ⟨going, idle, -⟩ := decision_eq_some decides
  have revived : 0 < (history spawned scans n).reviveAttempts := by
    by_contra original
    have zero : (history spawned scans n).reviveAttempts = 0 := by omega
    have kept : ((history spawned scans n).meets (scans n)).observed (scans n).now = (history spawned scans n).beatingSince :=
      if_neg (by simp [meets, zero])
    rw [kept, anchored.quiet (Or.inr (Or.inr zero))] at seen
    cases seen
  obtain ⟨healthy, rfl⟩ := healthy_of_observed idle revived seen
  refine ⟨revived, healthy, ?_⟩
  cases before : (history spawned scans n).beatingSince with
  | none =>
    refine ⟨n, Nat.le_refl n, rfl, ?_⟩
    intro k after until_
    obtain rfl : k = n := by omega
    exact healthy
  | some since =>
    obtain ⟨m, earlier, at_, run⟩ := anchored.anchor since before
    refine ⟨m, by omega, at_, ?_⟩
    intro k after until_
    obtain sooner | rfl := Nat.lt_or_eq_of_le until_
    · exact run k after sooner
    · exact healthy

theorem Anchored.succ (anchored : Anchored spawned scans n) : Anchored spawned scans (n + 1) := by
  cases decides : (history spawned scans n).decision (scans n) with
  | none =>
    obtain ⟨attempts, anchor, busy, idle⟩ := decision_eq_none decides
    have silent : (history spawned scans n).beatingSince = none := by
      apply anchored.quiet
      cases ended : (history spawned scans n).ended with
      | true => exact Or.inl rfl
      | false => exact Or.inr (Or.inl (busy ended))
    have still : (history spawned scans (n + 1)).beatingSince = none := anchor.trans silent
    refine ⟨?_, fun _ => still, fun since some_ => by rw [still] at some_; cases some_⟩
    rw [history_succ, attempts]
    exact anchored.budget
  | some action =>
    have attempts := attempts_of_decision decides
    obtain ⟨either, ended, pending, dropped⟩ := anchor_of_decision decides
    have kept : ∀ since, ((history spawned scans n).scanned (scans n)).beatingSince = some since →
        ((history spawned scans n).meets (scans n)).observed (scans n).now = some since := by
      intro since some_
      obtain none_ | same := either
      · rw [none_] at some_
        cases some_
      · rw [← same, some_]
    refine ⟨?_, ?_, ?_⟩
    · have before := anchored.budget
      rw [history_succ, attempts]
      cases action with
      | revive => exact revive_within decides
      | resetBudget => exact Nat.zero_le _
      | nothing | cancelIo | giveUp | release => exact before
    · -- A tail that is over is retired, which anchors nothing.
      intro stopped
      rw [history_succ] at stopped ⊢
      by_contra some_
      obtain ⟨since, is⟩ := ne_none_iff_exists'.mp some_
      obtain ⟨revived, ⟨-, at_, beats, -⟩, -⟩ := anchored.observed decides (kept since is)
      have running : ¬ (action = .revive ∨ action = .giveUp ∨ action = .release) := by
        intro over_
        rw [retired_of_decision decides over_] at beats
        cases beats
      obtain done | waits | original := stopped
      · exact running (Or.inr (ended done))
      · exact running (Or.inl (pending waits))
      · have reset : action ≠ .resetBudget := fun reset => some_ (dropped (Or.inl reset))
        rw [attempts] at original
        cases action <;> simp_all [charged]
    · intro since is
      rw [history_succ] at is
      obtain ⟨-, -, m, earlier, at_, run⟩ := anchored.observed decides (kept since is)
      exact ⟨m, by omega, at_, fun k after until_ => run k after (by omega)⟩

theorem anchored_history (n : Nat) : Anchored spawned scans n := by
  induction n with
  | zero => exact anchored_zero
  | succ n ih => exact ih.succ

theorem Supervised.Healthy.not_revive {s : Supervised} {o : Observation} (healthy : s.Healthy o) : s.decision o ≠ some .revive := by
  intro launched
  obtain ⟨-, at_, beats, -⟩ := healthy
  rw [retired_of_decision launched (Or.inl rfl)] at beats
  cases beats

theorem forgets_anchor (forgets : Forgets spawned scans n) :
    ∃ m ≤ n, (scans m).now + healthyAfter ≤ (scans n).now ∧
      ∀ k, m ≤ k → k ≤ n → (history spawned scans k).Healthy (scans k) ∧ ¬ Launches spawned scans k := by
  obtain ⟨-, since, seen, old⟩ := refund_anchor forgets
  obtain ⟨-, -, m, earlier, rfl, run⟩ := (anchored_history n).observed forgets seen
  refine ⟨m, earlier, ?_, fun k after until_ => ⟨run k after until_, (run k after until_).not_revive⟩⟩
  have positive : 0 < healthyAfter := by decide
  omega

theorem attempts_succ (keeps : ¬ Forgets spawned scans n) :
    (history spawned scans (n + 1)).reviveAttempts =
      (history spawned scans n).reviveAttempts + if Launches spawned scans n then 1 else 0 := by
  rw [history_succ]
  cases decides : (history spawned scans n).decision (scans n) with
  | none =>
    have quiet : ¬ Launches spawned scans n := by simp [Launches, decides]
    rw [(decision_eq_none decides).1, if_neg quiet, Nat.add_zero]
  | some action =>
    rw [attempts_of_decision decides]
    cases action with
    | resetBudget => exact absurd decides keeps
    | revive => rw [if_pos (show Launches spawned scans n from decides), charged]
    | nothing | cancelIo | giveUp | release =>
      have quiet : ¬ Launches spawned scans n := by simp [Launches, decides]
      rw [if_neg quiet, Nat.add_zero, charged]

theorem attempts_after_refund {i j : Nat} (later : i < j) (forgets : Forgets spawned scans i)
    (between : ∀ k, i < k → k < j → ¬ Forgets spawned scans k) :
    (history spawned scans j).reviveAttempts = ((Finset.Ioo i j).filter (Launches spawned scans)).card := by
  induction j with
  | zero => omega
  | succ j ih =>
    obtain after | rfl := Nat.lt_or_eq_of_le (Nat.le_of_lt_succ later)
    · have grown : Finset.Ioo i (j + 1) = insert j (Finset.Ioo i j) := by
        ext k
        simp only [Finset.mem_Ioo, Finset.mem_insert]
        omega
      rw [attempts_succ (between j after (Nat.lt_succ_self j)), ih after fun k start stop => between k start (by omega), grown,
        Finset.card_filter, Finset.card_filter, Finset.sum_insert (by simp), Nat.add_comm]
    · have nothing : Finset.Ioo i (i + 1) = ∅ := by
        ext k
        simp only [Finset.mem_Ioo, Finset.notMem_empty, iff_false]
        omega
      rw [history_succ, attempts_of_decision forgets, nothing]
      rfl

/-- A refund is given only for health seen at every scan since one that is old enough, with no revival in between; and
    from one refund to the next at most `maxRevives` revivals are launched. -/
theorem refunds_are_earned (spawned : Bool) (scans : Nat → Observation) (clock : ∀ n, (scans n).now ≤ (scans (n + 1)).now) :
    (∀ n, Forgets spawned scans n →
      (∀ k ≤ n, (scans n).now < (scans k).now + healthyAfter →
        (history spawned scans k).Healthy (scans k) ∧ ¬ Launches spawned scans k) ∧
      ∃ m ≤ n, (scans m).now + healthyAfter ≤ (scans n).now ∧
        ∀ k, m ≤ k → k ≤ n → (history spawned scans k).Healthy (scans k) ∧ ¬ Launches spawned scans k) ∧
    ∀ i j, i < j → Forgets spawned scans i → (∀ k, i < k → k < j → ¬ Forgets spawned scans k) →
      ((Finset.Ioo i j).filter (Launches spawned scans)).card ≤ maxRevives := by
  constructor
  · intro n forgets
    obtain ⟨m, earlier, old, run⟩ := forgets_anchor forgets
    refine ⟨?_, m, earlier, old, run⟩
    intro k until_ recent
    apply run k ?_ until_
    by_contra before
    have le : (scans k).now ≤ (scans m).now := monotone_nat_of_le_succ clock (by omega)
    omega
  · intro i j later forgets between
    rw [← attempts_after_refund later forgets between]
    exact (anchored_history j).budget

def recovery (n : Nat) : Observation where
  now := if n < 4 then 30 * n else 690
  volume := ⟨.live, true, 1⟩
  pulse := if n = 1 then .retired else .beat (if n < 4 then 30 * n else 690)
  outcome := .started (Tailed.spawn .found 0).tail
  spawned := true

theorem recovery_refunded : Forgets true recovery 4 ∧
    (∀ k ≤ 4, 690 < (recovery k).now + healthyAfter → (history true recovery k).Healthy (recovery k) ∧ ¬ Launches true recovery k) ∧
    ((Finset.Ioo 4 9).filter (Launches true recovery)).card ≤ maxRevives := by
  have forgets : Forgets true recovery 4 := by decide
  have clock : ∀ n, (recovery n).now ≤ (recovery (n + 1)).now := by
    intro n
    simp only [recovery]
    split <;> split <;> omega
  have quiet : ∀ k, 4 < k → k < 9 → ¬ Forgets true recovery k := by
    intro k after before
    obtain rfl | rfl | rfl | rfl : k = 5 ∨ k = 6 ∨ k = 7 ∨ k = 8 := by omega
    all_goals decide
  obtain ⟨earned, spent⟩ := refunds_are_earned true recovery clock
  exact ⟨forgets, (earned 4 forgets).1, spent 4 9 (by omega) forgets quiet⟩

end Goz.Daemon
