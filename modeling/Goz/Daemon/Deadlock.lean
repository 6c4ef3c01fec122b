import Goz.Daemon.Targets
import Goz.Library.Locks

namespace Goz.Daemon

open List Function

/-- The locks of the daemon. Every volume found gets new ones, also one that was there before, so that a volume is known
    here by the number of volumes found before it. -/
inductive Lock
  | registry
  | index (volume : Nat)
  | phase (volume : Nat)
  | metadataPending (volume : Nat)
  | journalMaxBytes (volume : Nat)
  | scopeCache (volume : Nat)
  deriving DecidableEq, Repr

structure Numbered where
  number : Nat
  volume : MountedVolume
  deriving DecidableEq, Repr

abbrev VolumeSet := List Numbered

abbrev Acts := List (Locks.Act Lock)

def briefly (lock : Lock) (mode : Locks.Mode) : Acts := [.acquire lock mode, .release lock]

/-- What `resolve_scope_cached` does with the cache: nothing for a search without a scope or one that heeds case; one look
    if it holds the folder or there is no such folder; and a second time to store what was walked to. -/
inductive ScopeLookup
  | uncached
  | looked
  | stored
  deriving DecidableEq, Repr

def resolveScopeCached (v : Nat) : ScopeLookup → Acts
  | .uncached => []
  | .looked => briefly (.scopeCache v) .write
  | .stored => briefly (.scopeCache v) .write ++ briefly (.scopeCache v) .write

def searchVolume (v : Nat) (lookup : ScopeLookup) : Acts :=
  briefly (.phase v) .read ++ briefly (.metadataPending v) .read ++
    (.acquire (.index v) .read :: resolveScopeCached v lookup ++ [.release (.index v)])

/-- One page is built: every run's volume is locked, in the order of the runs, and let go once the rows are in. -/
def buildPage (vols : List Nat) : Acts :=
  (vols.map .index).map (.acquire · .read) ++ (vols.map .index).map .release

def targetsOf (set : VolumeSet) : Option Bytes → List Numbered
  | none => set
  | some path =>
    ((maxByKey Prod.snd (set.filterMap fun v => (scopeUnder path v.volume.mountPrefix).map fun at_ => (v, at_))).map Prod.fst).toList

/-- A query that searches `searched` and then builds pages from the volumes that had hits. -/
def streamQueryBinary (searched : List (Numbered × ScopeLookup)) (vols : List Numbered) (pages : Nat) : Acts :=
  searched.flatMap (fun s => searchVolume s.1.number s.2) ++
    (replicate pages (vols.map (·.number))).flatMap buildPage

/-- The flags beside the index are read while it is locked, and their guards live until the row of the volume is built. -/
def buildStatus (set : VolumeSet) : Acts :=
  set.flatMap fun v =>
    briefly (.phase v.number) .read ++
      [.acquire (.index v.number) .read, .acquire (.metadataPending v.number) .read, .acquire (.journalMaxBytes v.number) .read,
        .release (.journalMaxBytes v.number), .release (.metadataPending v.number), .release (.index v.number)]

def askPhases (set : VolumeSet) (asked : Nat) : Acts := (set.take asked).flatMap fun v => briefly (.phase v.number) .read

inductive TailJob
  /-- `apply_batch`, `enrich_stats` or `reconcile_links`. -/
  | write
  /-- `compact_index`, which stops early when there is nothing to gain. -/
  | compact (planned : Bool)
  | install
  | setPhase
  | countEntries
  deriving DecidableEq, Repr

def TailJob.acts (v : Nat) : TailJob → Acts
  | .write => briefly (.index v) .write
  | .compact planned => .acquire (.index v) .upgradable :: (if planned then [.upgrade (.index v)] else []) ++ [.release (.index v)]
  | .install =>
    (.acquire (.index v) .write :: briefly (.metadataPending v) .write ++ briefly (.journalMaxBytes v) .write ++
      briefly (.scopeCache v) .write ++ [.release (.index v)]) ++ briefly (.phase v) .write
  | .setPhase => briefly (.phase v) .write
  | .countEntries => briefly (.index v) .read

def settleOnceIndexed (set : VolumeSet) (asked : Nat) : Acts :=
  askPhases set asked ++ set.flatMap fun v => briefly (.index v.number) .read

/-- The threads: connections, one tail for each volume, workers that start a tail, and the supervisor. -/
inductive ThreadId
  | client (n : Nat)
  | tail (volume : Nat)
  | starter (volume : Nat)
  | supervisor
  deriving DecidableEq, Repr

structure Engine where
  registry : VolumeSet
  /-- How many volumes were ever found. -/
  found : Nat
  /-- Every snapshot ever taken of the registry. -/
  taken : List VolumeSet
  threads : ThreadId → Locks.Thread Lock

def Engine.new : Engine := ⟨[], 0, [], fun _ => .idle⟩

/-- What a thread may begin. A request and the supervisor's look work on any snapshot taken up to now. -/
inductive Begins (e : Engine) : ThreadId → Acts → Prop
  | current (n : Nat) : Begins e (.client n) (briefly .registry .read)
  | query (n : Nat) {set : VolumeSet} (taken : set ∈ e.taken) (scope : Option Bytes) {searched : List (Numbered × ScopeLookup)}
      (inTurn : searched.map Prod.fst <+: targetsOf set scope) {vols : List Numbered} (hits : vols.Sublist (searched.map Prod.fst))
      (pages : Nat) : Begins e (.client n) (streamQueryBinary searched vols pages)
  | status (n : Nat) {set : VolumeSet} (taken : set ∈ e.taken) : Begins e (.client n) (buildStatus set)
  | hello (n : Nat) {set : VolumeSet} (taken : set ∈ e.taken) (asked : Nat) : Begins e (.client n) (askPhases set asked)
  | tail {v : Nat} (found : v < e.found) (job : TailJob) : Begins e (.tail v) (job.acts v)
  | starter {v : Nat} (found : v < e.found) : Begins e (.starter v) (briefly (.phase v) .write)
  | look : Begins e .supervisor (briefly .registry .read)
  | change : Begins e .supervisor (briefly .registry .write)
  | settle {set : VolumeSet} (taken : set ∈ e.taken) (asked : Nat) : Begins e .supervisor (settleOnceIndexed set asked)
  | watch {v : Nat} (found : v < e.found) (mode : Locks.Mode) : Begins e .supervisor (briefly (.phase v) mode)

inductive Engine.Step (e : Engine) : Engine → Prop
  | locks {threads : ThreadId → Locks.Thread Lock} (step : Locks.Step e.threads threads) : Step e { e with threads := threads }
  | begins {t : ThreadId} {acts : Acts} (idle : (e.threads t).todo = []) (job : Begins e t acts) :
      Step e { e with threads := update e.threads t ⟨(e.threads t).held, acts, false⟩ }
  /-- `VolumeRegistry::current` clones the set under the lock. -/
  | current {t : ThreadId} (holds : (.registry, .read) ∈ (e.threads t).held) : Step e { e with taken := e.registry :: e.taken }
  /-- `VolumeRegistry::add` appends a volume that was just made. -/
  | add (volume : MountedVolume) (holds : (.registry, .write) ∈ (e.threads .supervisor).held) :
      Step e { e with registry := e.registry ++ [⟨e.found, volume⟩], found := e.found + 1 }
  /-- `VolumeRegistry::remove` keeps the order of the rest. -/
  | remove (guid : Bytes) (holds : (.registry, .write) ∈ (e.threads .supervisor).held) :
      Step e { e with registry := e.registry.filter (·.volume.guid ≠ guid) }

def Engine.Reachable (e : Engine) : Prop := Relation.ReflTransGen Engine.Step Engine.new e

/-- Indexes come first, in the order their volumes were found; what an index's guard is held over comes after. -/
def Lock.rank : Lock → ℕ ×ₗ ℕ
  | .index v => toLex (0, v)
  | .journalMaxBytes _ => toLex (2, 0)
  | _ => toLex (1, 0)

def Lock.before (a b : Lock) : Prop := a.rank < b.rank

instance : IsTrans Lock Lock.before := ⟨fun _ _ _ => lt_trans⟩

instance : Std.Irrefl Lock.before := ⟨fun _ => lt_irrefl _⟩

theorem index_before {v w : Nat} : (Lock.index v).before (.index w) ↔ v < w := by
  simp [Lock.before, Lock.rank, Prod.Lex.lt_iff]

theorem index_before_scopeCache (v w : Nat) : (Lock.index v).before (.scopeCache w) := by
  simp [Lock.before, Lock.rank, Prod.Lex.lt_iff]

theorem index_before_metadataPending (v w : Nat) : (Lock.index v).before (.metadataPending w) := by
  simp [Lock.before, Lock.rank, Prod.Lex.lt_iff]

theorem index_before_journalMaxBytes (v w : Nat) : (Lock.index v).before (.journalMaxBytes w) := by
  simp [Lock.before, Lock.rank, Prod.Lex.lt_iff]

theorem metadataPending_before_journalMaxBytes (v w : Nat) : (Lock.metadataPending v).before (.journalMaxBytes w) := by
  simp [Lock.before, Lock.rank, Prod.Lex.lt_iff]

abbrev Orderly (acts : Acts) : Prop := Locks.InOrder Lock.before [] acts

theorem orderly_briefly (lock : Lock) (mode : Locks.Mode) : Orderly (briefly lock mode) := by
  simp [briefly, Locks.InOrder, Locks.drop]

theorem orderly_searchVolume (v : Nat) (lookup : ScopeLookup) : Orderly (searchVolume v lookup) := by
  apply ((orderly_briefly _ _).append (orderly_briefly _ _)).append
  cases lookup <;> simp [resolveScopeCached, briefly, Locks.InOrder, Locks.drop, index_before_scopeCache]

theorem orderly_buildPage {vols : List Nat} (sorted : vols.Pairwise (· < ·)) : Orderly (buildPage vols) := by
  apply Locks.inOrder_all
  rw [pairwise_map]
  exact sorted.imp index_before.mpr

theorem orderly_buildStatus (set : VolumeSet) : Orderly (buildStatus set) := by
  apply Locks.inOrder_flatMap
  intro v _
  apply (orderly_briefly _ _).append
  simp [Locks.InOrder, Locks.drop, index_before_metadataPending, index_before_journalMaxBytes, metadataPending_before_journalMaxBytes]

theorem orderly_askPhases (set : VolumeSet) (asked : Nat) : Orderly (askPhases set asked) :=
  Locks.inOrder_flatMap _ _ fun _ _ => orderly_briefly _ _

theorem TailJob.orderly (v : Nat) (job : TailJob) : Orderly (job.acts v) := by
  cases job with
  | write | setPhase | countEntries => exact orderly_briefly _ _
  | compact planned => cases planned <;> simp [TailJob.acts, Locks.InOrder, Locks.drop, Locks.raise]
  | install =>
    apply Locks.InOrder.append _ (orderly_briefly _ _)
    simp [briefly, Locks.InOrder, Locks.drop, index_before_metadataPending, index_before_journalMaxBytes, index_before_scopeCache]

theorem targetsOf_sublist (set : VolumeSet) (scope : Option Bytes) : (targetsOf set scope).Sublist set := by
  cases scope with
  | none => exact List.Sublist.refl _
  | some path =>
    simp only [targetsOf]
    cases best : maxByKey Prod.snd (set.filterMap fun v => (scopeUnder path v.volume.mountPrefix).map fun at_ => (v, at_)) with
    | none => exact nil_sublist _
    | some pick =>
      obtain ⟨v, mem, same⟩ := mem_filterMap.mp (maxByKey_some best).1
      obtain ⟨at_, -, rfl⟩ := Option.map_eq_some_iff.mp same
      exact singleton_sublist.mpr mem

theorem orderly_streamQueryBinary {set : VolumeSet} (sorted : set.Pairwise (·.number < ·.number)) {searched : List (Numbered × ScopeLookup)}
    {vols : List Numbered} (within : (searched.map Prod.fst).Sublist set) (hits : vols.Sublist (searched.map Prod.fst)) (pages : Nat) :
    Orderly (streamQueryBinary searched vols pages) := by
  apply Locks.InOrder.append
  · exact Locks.inOrder_flatMap _ _ fun _ _ => orderly_searchVolume _ _
  · apply Locks.inOrder_flatMap
    intro page mem
    rw [eq_of_mem_replicate mem]
    apply orderly_buildPage
    rw [pairwise_map]
    exact sorted.sublist (hits.trans within)

/-- Volumes stand in the registry, and in every snapshot, in the order they were found. -/
structure Engine.InTurn (e : Engine) : Prop where
  sound : Locks.Sound Lock.before e.threads
  registry : e.registry.Pairwise (·.number < ·.number)
  found : ∀ v ∈ e.registry, v.number < e.found
  taken : ∀ set ∈ e.taken, set.Pairwise (·.number < ·.number)

variable {e e' : Engine}

theorem inTurn_new : Engine.new.InTurn :=
  ⟨Locks.sound_idle, Pairwise.nil, fun _ mem => absurd mem not_mem_nil, fun _ mem => absurd mem not_mem_nil⟩

theorem Begins.orderly (inTurn : e.InTurn) {t : ThreadId} {acts : Acts} (job : Begins e t acts) : Orderly acts := by
  cases job with
  | query n taken scope searched hits pages =>
    exact orderly_streamQueryBinary (inTurn.taken _ taken) (searched.sublist.trans (targetsOf_sublist _ _)) hits pages
  | status => exact orderly_buildStatus _
  | hello => exact orderly_askPhases _ _
  | tail _ job => exact job.orderly _
  | settle => exact (orderly_askPhases _ _).append (Locks.inOrder_flatMap _ _ fun _ _ => orderly_briefly _ _)
  | current | starter | look | change | watch => exact orderly_briefly _ _

theorem Engine.InTurn.step (inTurn : e.InTurn) (step : e.Step e') : e'.InTurn := by
  obtain ⟨sound, registry, found, taken⟩ := inTurn
  cases step with
  | locks step => exact ⟨sound.step step, registry, found, taken⟩
  | begins idle job => exact ⟨sound.begin idle (job.orderly ⟨sound, registry, found, taken⟩), registry, found, taken⟩
  | current => exact ⟨sound, registry, found, forall_mem_cons.mpr ⟨registry, taken⟩⟩
  | remove guid =>
    exact ⟨sound, registry.sublist filter_sublist, fun v mem => found v (mem_of_mem_filter mem), taken⟩
  | add volume =>
    refine ⟨sound, ?_, ?_, taken⟩
    · -- the new volume is the last found
      rw [pairwise_append]
      exact ⟨registry, pairwise_singleton _ _, fun v mem w last => by
        rw [mem_singleton.mp last]
        exact found v mem⟩
    · intro v mem
      rcases mem_append.mp mem with old | last
      · exact Nat.lt_succ_of_lt (found v old)
      · rw [mem_singleton.mp last]
        exact Nat.lt_succ_self _

theorem Engine.Reachable.inTurn (reachable : e.Reachable) : e.InTurn := by
  induction reachable with
  | refl => exact inTurn_new
  | tail _ step ih => exact ih.step step

/-- Whatever queries run on whatever snapshots while tails write and volumes come and go, no threads wait for each other
    in a circle. -/
theorem never_deadlocked (reachable : e.Reachable) (t : ThreadId) : ¬ Relation.TransGen (Locks.WaitsFor e.threads) t t :=
  reachable.inTurn.sound.no_cycle t

def meeting (supervisor client : Locks.Thread Lock) (registry : VolumeSet) : Engine where
  registry := registry
  found := registry.length
  taken := []
  threads := update (update (fun _ => .idle) .supervisor supervisor) (.client 0) client

section Meeting

variable {a b c : Locks.Thread Lock} {registry : VolumeSet}

theorem Engine.Reachable.supervisor (reachable : (meeting a b registry).Reachable)
    (step : (meeting a b registry).Step
      { meeting a b registry with threads := update (meeting a b registry).threads .supervisor c }) :
    (meeting c b registry).Reachable := by
  have next := Relation.ReflTransGen.tail reachable step
  simp only [meeting] at next
  rw [update_comm (by decide), update_idem] at next
  exact next

theorem Engine.Reachable.client (reachable : (meeting a b registry).Reachable)
    (step : (meeting a b registry).Step
      { meeting a b registry with threads := update (meeting a b registry).threads (.client 0) c }) :
    (meeting a c registry).Reachable := by
  have next := Relation.ReflTransGen.tail reachable step
  simp only [meeting, update_idem] at next
  exact next

theorem meeting_alone {lock : Lock} (next : a.todo.head? = some (.acquire lock .write)) (free : a.held = [] ∧ b.held = []) (u : ThreadId) :
    ¬ Locks.WaitsFor (meeting a b registry).threads .supervisor u := by
  rintro ⟨-, act, at_, blocked, -⟩
  obtain rfl : Locks.Act.acquire lock .write = act := Option.some.inj (next.symm.trans at_)
  have held : ((meeting a b registry).threads u).held = [] := by
    simp only [meeting, update_apply]
    split
    · exact free.2
    · split
      · exact free.1
      · rfl
  simp [Locks.Thread.blocks, held] at blocked

end Meeting

/-- The supervisor holds the registry to add a volume, and a query waits for its snapshot. -/
def adding : Engine := meeting ⟨[(.registry, .write)], [.release .registry], false⟩ ⟨[], briefly .registry .read, true⟩ [⟨0, [], []⟩]

theorem reachable_adding : adding.Reachable := by
  have begun : (meeting .idle .idle []).Reachable := by
    have same : meeting .idle .idle [] = .new := by
      simp [meeting, Engine.new]
    rw [same]
    exact .refl
  have changing := begun.supervisor (.begins rfl .change)
  have asking := changing.supervisor (.locks (.ask rfl nofun))
  have holding := asking.supervisor (.locks (.grant rfl rfl (meeting_alone rfl ⟨rfl, rfl⟩)))
  have added : (meeting _ _ [⟨0, [], []⟩]).Reachable := holding.tail (.add ⟨[], []⟩ (by decide))
  have coming := added.client (.begins rfl (.current 0))
  exact coming.client (.locks (.ask rfl nofun))

theorem adding_waits : adding.Reachable ∧ Locks.WaitsFor adding.threads (.client 0) .supervisor ∧
    ∀ t, ¬ Relation.TransGen (Locks.WaitsFor adding.threads) t t :=
  ⟨reachable_adding, ⟨rfl, _, rfl, by decide, nofun⟩, never_deadlocked reachable_adding⟩

end Goz.Daemon
