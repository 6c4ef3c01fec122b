import Mathlib.Tactic

namespace Locks

open List Function

/-- How a lock is held. A mutex is a lock that is only ever written. -/
inductive Mode
  | read
  | upgradable
  | write
  deriving DecidableEq, Repr

inductive Act (L : Type*)
  | acquire (lock : L) (mode : Mode)
  | upgrade (lock : L)
  | release (lock : L)
  deriving DecidableEq, Repr

/-- A thread: what it holds, what it still does, and whether it waits for what comes next. -/
structure Thread (L : Type*) where
  held : List (L × Mode)
  todo : List (Act L)
  waits : Bool
  deriving DecidableEq, Repr

variable {ι L : Type*} [DecidableEq L]

def Thread.idle : Thread L := ⟨[], [], false⟩

def raise (lock : L) (held : List (L × Mode)) : List (L × Mode) := held.map fun h => if h.1 = lock then (lock, .write) else h

def drop (lock : L) (held : List (L × Mode)) : List (L × Mode) := held.filter fun h => h.1 ≠ lock

def Act.done (held : List (L × Mode)) : Act L → List (L × Mode)
  | .acquire lock mode => (lock, mode) :: held
  | .upgrade lock => raise lock held
  | .release lock => drop lock held

def Thread.pendsWrite (u : Thread L) (lock : L) : Bool :=
  u.waits && (u.todo.head? = some (.acquire lock .write) || u.todo.head? = some (.upgrade lock))

/-- Whether `u` stands in the way of an act: it holds the lock in a way that excludes the act, or it waits to write
    and the act would read. -/
def Thread.blocks (u : Thread L) : Act L → Bool
  | .acquire lock .read => u.held.contains (lock, .write) || u.pendsWrite lock
  | .acquire lock .upgradable => u.held.contains (lock, .write) || u.held.contains (lock, .upgradable) || u.pendsWrite lock
  | .acquire lock .write | .upgrade lock => u.held.any (·.1 = lock)
  | .release _ => false

/-- Thread `t` waits for something that `u` stands in the way of. A thread that asks again for a lock it holds waits for
    itself; one that upgrades its lock does not. -/
def WaitsFor (s : ι → Thread L) (t u : ι) : Prop :=
  (s t).waits = true ∧ ∃ act ∈ (s t).todo.head?, (s u).blocks act = true ∧ (t = u → ∀ lock, act ≠ .upgrade lock)

/-- One thread asks for what it needs next, gets it once nobody stands in the way, or gives a lock back. -/
inductive Step [DecidableEq ι] (s : ι → Thread L) : (ι → Thread L) → Prop
  | ask {t : ι} {act : Act L} {rest : List (Act L)} (next : (s t).todo = act :: rest) (asks : ∀ lock, act ≠ .release lock) :
      Step s (update s t { s t with waits := true })
  | grant {t : ι} {act : Act L} {rest : List (Act L)} (next : (s t).todo = act :: rest) (waiting : (s t).waits = true)
      (free : ∀ u, ¬ WaitsFor s t u) : Step s (update s t ⟨act.done (s t).held, rest, false⟩)
  | release {t : ι} {lock : L} {rest : List (Act L)} (next : (s t).todo = .release lock :: rest) :
      Step s (update s t ⟨drop lock (s t).held, rest, false⟩)

variable (before : L → L → Prop)
  {held : List (L × Mode)} {b : Act L} {t : ι} {a : Act L} {acts rest : List (Act L)} {m : Mode} {u : ι}

/-- A thread that takes locks only in order, past all it holds, and gives each back. -/
def InOrder : List (L × Mode) → List (Act L) → Prop
  | held, [] => held = []
  | held, .acquire lock mode :: rest => (∀ h ∈ held, before h.1 lock) ∧ InOrder ((lock, mode) :: held) rest
  | held, .upgrade lock :: rest =>
    (lock, .upgradable) ∈ held ∧ (∀ h ∈ held, h.1 = lock ∨ before h.1 lock) ∧ InOrder (raise lock held) rest
  | held, .release lock :: rest => InOrder (drop lock held) rest

section Programs

variable {before} {locks : List L} {mode : Mode}

/-- What keeps the order and ends with nothing held may be followed by anything that keeps it from there. -/
theorem InOrder.append {acts' : List (Act L)} (first : InOrder before held acts)
    (second : InOrder before [] acts') : InOrder before held (acts ++ acts') := by
  induction acts generalizing held with
  | nil =>
    obtain rfl : held = [] := first
    exact second
  | cons act rest ih =>
    cases act with
    | acquire lock mode => exact ⟨first.1, ih first.2⟩
    | upgrade lock => exact ⟨first.1, first.2.1, ih first.2.2⟩
    | release lock =>
      have dropped : InOrder before (drop lock held) rest := first
      exact ih dropped

theorem inOrder_flatMap {α : Type*} (job : α → List (Act L)) (items : List α) (each : ∀ item ∈ items, InOrder before [] (job item)) :
    InOrder before [] (items.flatMap job) := by
  induction items with
  | nil => exact rfl
  | cons item rest ih =>
    exact (each item mem_cons_self).append (ih fun other mem => each other (mem_cons_of_mem _ mem))

theorem inOrder_release (covered : ∀ h ∈ held, h.1 ∈ locks) : InOrder before held (locks.map .release) := by
  induction locks generalizing held with
  | nil => exact eq_nil_iff_forall_not_mem.mpr fun h mem => absurd (covered h mem) not_mem_nil
  | cons lock rest ih =>
    have covered' : ∀ h ∈ drop lock held, h.1 ∈ rest := by
      intro h mem
      obtain ⟨inside, other⟩ := mem_filter.mp mem
      exact (mem_cons.mp (covered h inside)).resolve_left (by simpa using other)
    exact ih covered'

theorem inOrder_acquire (sorted : locks.Pairwise before)
    (later : ∀ h ∈ held, ∀ lock ∈ locks, before h.1 lock) (after : InOrder before (locks.reverse.map (·, mode) ++ held) rest) :
    InOrder before held (locks.map (.acquire · mode) ++ rest) := by
  induction locks generalizing held with
  | nil => exact after
  | cons lock others ih =>
    rw [pairwise_cons] at sorted
    refine ⟨fun h mem => later h mem lock mem_cons_self, ih sorted.2 ?_ (by simpa using after)⟩
    intro h mem other inside
    rcases mem_cons.mp mem with rfl | mem
    · exact sorted.1 other inside
    · exact later h mem other (mem_cons_of_mem _ inside)

theorem inOrder_all (sorted : locks.Pairwise before) :
    InOrder before [] (locks.map (.acquire · mode) ++ locks.map .release) := by
  apply inOrder_acquire sorted (fun _ mem => absurd mem not_mem_nil)
  apply inOrder_release
  intro h mem
  obtain ⟨lock, inside, rfl⟩ := mem_map.mp (append_nil _ ▸ mem)
  exact mem_reverse.mp inside

end Programs

/-- Two threads may hold a lock at once if neither writes it and at most one may come to write it. -/
def Mode.shares : Mode → Mode → Bool
  | .read, .read | .read, .upgradable | .upgradable, .read => true
  | _, _ => false

structure Sound (s : ι → Thread L) : Prop where
  ordered : ∀ t, InOrder before (s t).held (s t).todo
  shared : ∀ t u, t ≠ u → ∀ lock m n, (lock, m) ∈ (s t).held → (lock, n) ∈ (s u).held → m.shares n = true

variable {before} {s s' : ι → Thread L}

theorem Mode.shares_comm (m n : Mode) : m.shares n = n.shares m := by
  cases m <;> cases n <;> rfl

theorem sound_idle : Sound before fun _ : ι => (Thread.idle : Thread L) :=
  ⟨fun _ => rfl, fun _ _ _ _ _ _ held => absurd held not_mem_nil⟩

theorem mem_raise {lock l : L} (mem : (l, m) ∈ raise lock held) : (l = lock ∧ m = .write) ∨ (l, m) ∈ held := by
  obtain ⟨h, inside, same⟩ := mem_map.mp mem
  split at same
  · exact .inl (Prod.ext_iff.mp same.symm)
  · exact .inr (same ▸ inside)

/-- What one thread does keeps the others apart if it takes nothing that they exclude. -/
theorem Sound.update [DecidableEq ι] (sound : Sound before s) {thread : Thread L} (ordered : InOrder before thread.held thread.todo)
    (shared : ∀ u, t ≠ u → ∀ lock m n, (lock, m) ∈ thread.held → (lock, n) ∈ (s u).held → m.shares n = true) :
    Sound before (update s t thread) := by
  constructor
  · intro x
    by_cases here : x = t
    · rw [here, update_self]
      exact ordered
    · rw [update_of_ne here]
      exact sound.ordered x
  · intro x u apart lock m n
    by_cases here : x = t
    · subst here
      rw [update_self, update_of_ne apart.symm]
      exact shared u apart lock m n
    · rw [update_of_ne here]
      by_cases there : u = t
      · subst there
        rw [update_self]
        intro first second
        rw [Mode.shares_comm]
        exact shared x (Ne.symm here) lock n m second first
      · rw [update_of_ne there]
        exact sound.shared x u apart lock m n

theorem shares_of_open {u : Thread L} {lock : L} {n : Mode} (clear : u.blocks (.acquire lock m) = false) (held : (lock, n) ∈ u.held) :
    m.shares n = true := by
  cases m with
  | write =>
    simp only [Thread.blocks, any_eq_false, decide_eq_true_eq] at clear
    exact absurd rfl (clear (lock, n) held)
  | read =>
    simp only [Thread.blocks, Bool.or_eq_false_iff, contains_eq_mem, decide_eq_false_iff_not] at clear
    cases n with
    | write => exact absurd held clear.1
    | read | upgradable => rfl
  | upgradable =>
    simp only [Thread.blocks, Bool.or_eq_false_iff, contains_eq_mem, decide_eq_false_iff_not] at clear
    cases n with
    | write => exact absurd held clear.1.1
    | upgradable => exact absurd held clear.1.2
    | read => rfl

theorem Sound.step [DecidableEq ι] (sound : Sound before s) (step : Step s s') : Sound before s' := by
  cases step with
  | ask next _ => exact sound.update (sound.ordered _) (sound.shared _)
  | @release t lock rest next =>
    have ordered := sound.ordered t
    rw [next] at ordered
    exact sound.update ordered fun u apart l m n first => sound.shared t u apart l m n (mem_of_mem_filter first)
  | @grant t act rest next waiting free =>
    have ordered := sound.ordered t
    rw [next] at ordered
    have open_ : ∀ u, t ≠ u → (s u).blocks act = false := by
      intro u apart
      by_contra blocked
      exact free u ⟨waiting, act, by simp [next], by simpa using blocked, fun same => absurd same apart⟩
    cases act with
    | release lock => exact sound.update ordered fun u apart l m n first => sound.shared t u apart l m n (mem_of_mem_filter first)
    | upgrade lock =>
      refine sound.update ordered.2.2 fun u apart l m n first second => ?_
      rcases mem_raise first with ⟨rfl, -⟩ | before_
      · have clear := open_ u apart
        simp only [Thread.blocks, any_eq_false, decide_eq_true_eq] at clear
        exact absurd rfl (clear (l, n) second)
      · exact sound.shared t u apart l m n before_ second
    | acquire lock mode =>
      refine sound.update ordered.2 fun u apart l m n first second => ?_
      rcases mem_cons.mp first with new | before_
      · obtain ⟨rfl, rfl⟩ := Prod.mk.inj new
        exact shares_of_open (open_ u apart) second
      · exact sound.shared t u apart l m n before_ second

theorem Sound.begin [DecidableEq ι] (sound : Sound before s) (idle : (s t).todo = []) (ordered : InOrder before [] acts) :
    Sound before (Function.update s t ⟨(s t).held, acts, false⟩) := by
  have free := sound.ordered t
  rw [idle] at free
  exact sound.update (by rw [show (s t).held = [] from free]; exact ordered) (sound.shared t)

def Act.lock : Act L → L
  | .acquire lock _ | .upgrade lock | .release lock => lock

def Act.place : Act L → Nat
  | .acquire _ .write => 1
  | .upgrade _ => 2
  | _ => 0

def Waited (before : L → L → Prop) (a b : Act L) : Prop := before a.lock b.lock ∨ a.lock = b.lock ∧ a.place < b.place

omit [DecidableEq L] in
theorem waited_trans [IsTrans L before] {c : Act L} (first : Waited before a b) (second : Waited before b c) : Waited before a c := by
  rcases first with lower | ⟨same, less⟩
  · rcases second with lower' | ⟨same', -⟩
    · exact .inl (trans_of before lower lower')
    · exact .inl (same' ▸ lower)
  · rcases second with lower' | ⟨same', less'⟩
    · exact .inl (same ▸ lower')
    · exact .inr ⟨same.trans same', less.trans less'⟩

omit [DecidableEq L] in
theorem waited_irrefl [Std.Irrefl before] (a : Act L) : ¬ Waited before a a := by
  rintro (lower | ⟨-, less⟩)
  · exact irrefl _ lower
  · exact absurd less (Nat.lt_irrefl _)

theorem InOrder.past (ordered : InOrder before held (b :: rest))
    (asks : ∀ lock, b ≠ .release lock) {lock : L} (holds : (lock, m) ∈ held) :
    before lock b.lock ∨ b = .upgrade lock ∧ (lock, .upgradable) ∈ held := by
  cases b with
  | release lock => exact absurd rfl (asks lock)
  | acquire lock mode => exact .inl (ordered.1 _ holds)
  | upgrade lock =>
    rcases ordered.2.1 _ holds with rfl | lower
    · exact .inr ⟨rfl, ordered.1⟩
    · exact .inl lower

theorem Thread.pendsWrite_iff {u : Thread L} {lock : L} (next : u.todo.head? = some b) :
    u.pendsWrite lock = true ↔ u.waits = true ∧ (b = .acquire lock .write ∨ b = .upgrade lock) := by
  simp [Thread.pendsWrite, next]

/-- What stands in the way of an act and waits itself waits for something later. -/
theorem Sound.waited (sound : Sound before s) (wait : WaitsFor s t u) (atT : (s t).todo.head? = some a)
    (atU : (s u).todo.head? = some b) (asks : ∀ lock, b ≠ .release lock) : Waited before a b := by
  obtain ⟨-, act, at_, blocked, other⟩ := wait
  obtain rfl : act = a := Option.some.inj (at_.symm.trans atT)
  obtain ⟨restT, todoT⟩ := head?_eq_some_iff.mp atT
  obtain ⟨restU, todoU⟩ := head?_eq_some_iff.mp atU
  have ordered := sound.ordered t
  have ordered' := sound.ordered u
  rw [todoT] at ordered
  rw [todoU] at ordered'
  -- a reader or a writer comes before the upgrader of the same lock
  have holding : act.place < 2 → ∀ m, (act.lock, m) ∈ (s u).held → Waited before act b := by
    intro low m holds
    rcases ordered'.past asks holds with lower | ⟨rfl, -⟩
    · exact .inl lower
    · exact .inr ⟨rfl, low⟩
  have pending : act.place < 1 → (s u).pendsWrite act.lock = true → Waited before act b := by
    intro low pends
    rcases ((s u).pendsWrite_iff atU).mp pends with ⟨-, rfl | rfl⟩
    · exact .inr ⟨rfl, low⟩
    · exact .inr ⟨rfl, Nat.lt_succ_of_lt low⟩
  cases act with
  | release lock => exact absurd blocked (by simp [Thread.blocks])
  | acquire lock mode =>
    cases mode with
    | read =>
      simp only [Thread.blocks, Bool.or_eq_true, contains_eq_mem, decide_eq_true_eq] at blocked
      rcases blocked with holds | pends
      · exact holding Nat.zero_lt_two _ holds
      · exact pending Nat.zero_lt_one pends
    | upgradable =>
      simp only [Thread.blocks, Bool.or_eq_true, contains_eq_mem, decide_eq_true_eq] at blocked
      rcases blocked with (holds | holds) | pends
      · exact holding Nat.zero_lt_two _ holds
      · exact holding Nat.zero_lt_two _ holds
      · exact pending Nat.zero_lt_one pends
    | write =>
      simp only [Thread.blocks, any_eq_true, decide_eq_true_eq] at blocked
      obtain ⟨⟨_, m⟩, holds, rfl⟩ := blocked
      exact holding Nat.one_lt_two m holds
  | upgrade lock =>
    simp only [Thread.blocks, any_eq_true, decide_eq_true_eq] at blocked
    obtain ⟨⟨_, m⟩, holds, rfl⟩ := blocked
    rcases ordered'.past asks holds with lower | ⟨-, holds'⟩
    · exact .inl lower
    · -- only one thread may be on its way to write the lock
      have apart : t ≠ u := fun same => other same _ rfl
      exact absurd (sound.shared t u apart _ _ _ ordered.1 holds') (by decide)

theorem asks_of_waitsFor (wait : WaitsFor s t u) : ∃ act, (s t).todo.head? = some act ∧ ∀ lock, act ≠ .release lock := by
  obtain ⟨-, act, at_, blocked, -⟩ := wait
  refine ⟨act, at_, fun lock same => ?_⟩
  rw [same] at blocked
  exact absurd blocked (by simp [Thread.blocks])

theorem Sound.waited_chain [IsTrans L before] (sound : Sound before s) (chain : Relation.TransGen (WaitsFor s) t u)
    (atT : (s t).todo.head? = some a) (atU : (s u).todo.head? = some b) (asks : ∀ lock, b ≠ .release lock) : Waited before a b := by
  induction chain generalizing b with
  | single wait => exact sound.waited wait atT atU asks
  | tail _ wait ih =>
    obtain ⟨c, atV, asks'⟩ := asks_of_waitsFor wait
    exact waited_trans (ih atV asks') (sound.waited wait atV atU asks)

/-- Threads that take their locks in one order never wait for each other in a circle. -/
theorem Sound.no_cycle [IsTrans L before] [Std.Irrefl before] (sound : Sound before s) (t : ι) : ¬ Relation.TransGen (WaitsFor s) t t := by
  intro cycle
  obtain ⟨_, wait, -⟩ := Relation.TransGen.head'_iff.mp cycle
  obtain ⟨a, at_, asks⟩ := asks_of_waitsFor wait
  exact waited_irrefl a (sound.waited_chain cycle at_ at_ asks)

end Locks
