import Mathlib.Data.List.Nodup
import Mathlib.Data.List.Perm.Basic
import Mathlib.Logic.Function.Basic
import Mathlib.Tactic

namespace Intrusive

open Function List Option

variable {ι κ : Type*}
  {next prev : ι → Option ι} {node : ι} {nodes : List ι} {next' prev' : ι → Option ι} {front rest : List ι}
  {before : Option ι} {after : ι}

/-- Following `next` from `head` visits exactly `nodes`, in order, and stops. -/
def Linked (next : ι → Option ι) : Option ι → List ι → Prop
  | head, [] => head = none
  | head, node :: rest => head = some node ∧ Linked next (next node) rest

def BackLinked (prev : ι → Option ι) : Option ι → List ι → Prop
  | _, [] => True
  | before, node :: rest => prev node = before ∧ BackLinked prev (some node) rest

theorem Linked.head {head : Option ι} (linked : Linked next head nodes) : head = nodes.head? := by
  cases nodes with
  | nil => exact linked
  | cons node rest => exact linked.1

theorem Linked.unique {head : Option ι} {left right : List ι}
    (hl : Linked next head left) (hr : Linked next head right) : left = right := by
  induction left generalizing head right with
  | nil =>
    cases right with
    | nil => rfl
    | cons node rest =>
      have none := hl.symm.trans hr.1
      cases none
  | cons node rest ih =>
    cases right with
    | nil =>
      have none := hr.symm.trans hl.1
      cases none
    | cons other rest' =>
      have same : node = other := some.inj (hl.1.symm.trans hr.1)
      subst same
      rw [ih hl.2 hr.2]

theorem Linked.suffix {head : Option ι}
    (linked : Linked next head (front ++ node :: rest)) : Linked next (next node) rest := by
  induction front generalizing head with
  | nil => exact linked.2
  | cons first front ih => exact ih linked.2

/-- A chain that ends visits no node twice: a repeated node would repeat what follows it. -/
theorem Linked.nodup {head : Option ι} (linked : Linked next head nodes) : nodes.Nodup := by
  induction nodes generalizing head with
  | nil => exact nodup_nil
  | cons node rest ih =>
    refine nodup_cons.mpr ⟨fun mem => ?_, ih linked.2⟩
    obtain ⟨front, tail, split⟩ := append_of_mem mem
    have repeated : Linked next (next node) tail := by
      have step := linked.2
      rw [split] at step
      exact step.suffix
    have same := linked.2.unique repeated
    have length := congrArg List.length (split.symm.trans same)
    simp at length
    omega

theorem Linked.congr {head : Option ι}
    (linked : Linked next head nodes) (agree : ∀ node ∈ nodes, next' node = next node) :
    Linked next' head nodes := by
  induction nodes generalizing head with
  | nil => exact linked
  | cons node rest ih =>
    refine ⟨linked.1, ?_⟩
    rw [agree node (by simp)]
    exact ih linked.2 fun other mem => agree other (mem_cons_of_mem _ mem)

theorem Linked.append_last {head : Option ι}
    (linked : Linked next head nodes) (next' : ι → Option ι) (node : ι) (stop : next' node = none)
    (last : ∀ last ∈ nodes.getLast?, next' last = some node)
    (agree : ∀ other ∈ nodes.dropLast, next' other = next other) :
    Linked next' (nodes.head?.or (some node)) (nodes ++ [node]) := by
  induction nodes generalizing head with
  | nil => exact ⟨rfl, stop⟩
  | cons first rest ih =>
    refine ⟨by simp, ?_⟩
    cases rest with
    | nil =>
      have step := last first (by simp)
      rw [step]
      exact ⟨rfl, stop⟩
    | cons second rest =>
      have same : next' first = next first := agree first (by simp)
      have step := ih linked.2 (fun node mem => last node (by simpa using mem))
        (fun other mem => agree other (by simpa using Or.inr mem))
      rw [same, linked.2.head]
      simpa using step

theorem BackLinked.congr
    (back : BackLinked prev before nodes) (agree : ∀ node ∈ nodes, prev' node = prev node) :
    BackLinked prev' before nodes := by
  induction nodes generalizing before with
  | nil => exact True.intro
  | cons node rest ih =>
    refine ⟨(agree node (by simp)).trans back.1, ?_⟩
    exact ih back.2 fun other mem => agree other (mem_cons_of_mem _ mem)

/-- One doubly linked chain, threaded through the columns `next` and `prev`. -/
structure Chain (next prev : ι → Option ι) (head : Option ι) (nodes : List ι) : Prop where
  linked : Linked next head nodes
  back : BackLinked prev none nodes

theorem Chain.nodup {head : Option ι}
    (chain : Chain next prev head nodes) : nodes.Nodup := chain.linked.nodup

theorem Chain.congr {head : Option ι}
    (chain : Chain next prev head nodes) (hn : ∀ node ∈ nodes, next' node = next node)
    (hp : ∀ node ∈ nodes, prev' node = prev node) : Chain next' prev' head nodes :=
  ⟨chain.linked.congr hn, chain.back.congr hp⟩

theorem BackLinked.prev_eq
    (back : BackLinked prev before (front ++ node :: rest)) : prev node = front.getLast?.or before := by
  induction front generalizing before with
  | nil => simpa using back.1
  | cons first front ih =>
    rw [ih back.2]
    cases front with
    | nil => simp
    | cons second front => simp [getLast?_cons]

theorem Linked.bypass {head : Option ι}
    (linked : Linked next head (front ++ node :: rest))
    (joined : ∀ last ∈ front.getLast?, next' last = next node)
    (agree : ∀ other ∈ front.dropLast, next' other = next other)
    (after : ∀ other ∈ rest, next' other = next other) :
    Linked next' (front.head?.or (next node)) (front ++ rest) := by
  induction front generalizing head with
  | nil => simpa using linked.2.congr after
  | cons first front ih =>
    refine ⟨by simp, ?_⟩
    cases front with
    | nil =>
      rw [joined first (by simp)]
      simpa using linked.2.2.congr after
    | cons second front =>
      have same : next' first = next first := agree first (by simp)
      have step := ih linked.2 (fun last mem => joined last (by simpa using mem))
        (fun other mem => agree other (by simpa using Or.inr mem))
      rw [same, linked.2.head]
      simpa using step

theorem BackLinked.bypass
    (back : BackLinked prev before (front ++ node :: rest))
    (agree : ∀ other ∈ front, prev' other = prev other)
    (joined : ∀ first ∈ rest.head?, prev' first = front.getLast?.or before)
    (after : ∀ other ∈ rest.tail, prev' other = prev other) : BackLinked prev' before (front ++ rest) := by
  induction front generalizing before with
  | nil =>
    cases rest with
    | nil => exact True.intro
    | cons first rest =>
      refine ⟨by simpa using joined first (by simp), ?_⟩
      exact back.2.2.congr fun other mem => after other (by simpa using mem)
  | cons first front ih =>
    refine ⟨(agree first (by simp)).trans back.1, ?_⟩
    refine ih back.2 (fun other mem => agree other (mem_cons_of_mem _ mem)) ?_
    intro second mem
    rw [joined second mem]
    cases front with
    | nil => simp
    | cons third front => simp [getLast?_cons]

theorem Chain.prev_mem {head : Option ι} {before : ι}
    (chain : Chain next prev head nodes) (mem : node ∈ nodes) (prior : prev node = some before) :
    before ∈ nodes := by
  obtain ⟨front, rest, rfl⟩ := append_of_mem mem
  have value := chain.back.prev_eq
  rw [prior] at value
  have last : front.getLast? = some before := by simpa using value.symm
  exact mem_append_left _ (mem_of_getLast? last)

theorem Chain.next_mem {head : Option ι}
    (chain : Chain next prev head nodes) (mem : node ∈ nodes) (follow : next node = some after) :
    after ∈ nodes := by
  obtain ⟨front, rest, rfl⟩ := append_of_mem mem
  have value := chain.linked.suffix.head
  rw [follow] at value
  exact mem_append_right _ (mem_cons_of_mem _ (mem_of_mem_head? value.symm))

def walk (next : ι → Option ι) : Nat → Option ι → List ι
  | _, none => []
  | 0, some _ => []
  | fuel + 1, some node => node :: walk next fuel (next node)

theorem Linked.walk_eq {head : Option ι} {fuel : Nat}
    (linked : Linked next head nodes) (enough : nodes.length ≤ fuel) : walk next fuel head = nodes := by
  induction nodes generalizing head fuel with
  | nil =>
    rw [show head = none from linked]
    cases fuel <;> rfl
  | cons node rest ih =>
    cases fuel with
    | zero => simp at enough
    | succ fuel =>
      rw [linked.1, walk, ih linked.2 (by simpa using enough)]

theorem Linked.length_le {next : Nat → Option Nat} {head : Option Nat} {nodes : List Nat} {n : Nat}
    (linked : Linked next head nodes) (bound : ∀ node ∈ nodes, node < n) : nodes.length ≤ n := by
  have inside : nodes ⊆ range n := fun node mem => mem_range.mpr (bound node mem)
  simpa using (linked.nodup.subperm inside).length_le

section Columns

variable [DecidableEq ι] {other : ι}

def pushNext (next : ι → Option ι) (head : Option ι) (node : ι) : ι → Option ι :=
  update next node head

def pushPrev (prev : ι → Option ι) (head : Option ι) (node : ι) : ι → Option ι :=
  match head with
  | none => update prev node none
  | some first => update (update prev node none) first (some node)

def unlinkHead (next prev : ι → Option ι) (head : Option ι) (node : ι) : Option ι :=
  match prev node with
  | none => next node
  | some _ => head

def unlinkNext (next prev : ι → Option ι) (node : ι) : ι → Option ι :=
  match prev node with
  | none => update next node none
  | some before => update (update next before (next node)) node none

def unlinkPrev (next prev : ι → Option ι) (node : ι) : ι → Option ι :=
  match next node with
  | none => update prev node none
  | some after => update (update prev after (prev node)) node none

theorem pushNext_of_ne {head : Option ι} (ne : other ≠ node) :
    pushNext next head node other = next other := by simp [pushNext, ne]

theorem pushPrev_of_ne {head : Option ι} (ne : other ≠ node)
    (first : head ≠ some other) : pushPrev prev head node other = prev other := by
  cases head with
  | none => simp [pushPrev, ne]
  | some head =>
    have away : other ≠ head := fun same => first (by rw [same])
    simp [pushPrev, ne, away]

theorem Chain.push {head : Option ι}
    (chain : Chain next prev head nodes) (fresh : node ∉ nodes) :
    Chain (pushNext next head node) (pushPrev prev head node) (some node) (node :: nodes) := by
  have ne : ∀ other ∈ nodes, other ≠ node := fun other mem same => fresh (same ▸ mem)
  refine ⟨⟨rfl, ?_⟩, ?_, ?_⟩
  · have start : pushNext next head node node = head := by simp [pushNext]
    rw [start]
    exact chain.linked.congr fun other mem => pushNext_of_ne (ne other mem)
  · have hd := chain.linked.head
    cases head with
    | none => simp [pushPrev]
    | some first =>
      have mem : first ∈ nodes := mem_of_mem_head? hd.symm
      simp [pushPrev, (ne first mem).symm]
  · cases nodes with
    | nil => exact True.intro
    | cons first rest =>
      have hd : head = some first := chain.linked.1
      subst hd
      have distinct := nodup_cons.mp chain.nodup
      refine ⟨by simp [pushPrev], chain.back.2.congr fun other mem => ?_⟩
      have away : (some first : Option ι) ≠ some other :=
        fun same => distinct.1 (some.inj same ▸ mem)
      exact pushPrev_of_ne (ne other (mem_cons_of_mem _ mem)) away

theorem unlinkNext_of_ne (ne : other ≠ node)
    (prior : prev node ≠ some other) : unlinkNext next prev node other = next other := by
  unfold unlinkNext
  cases h : prev node with
  | none => simp [ne]
  | some before =>
    have away : other ≠ before := fun same => prior (by rw [h, same])
    simp [ne, away]

theorem unlinkPrev_of_ne (ne : other ≠ node)
    (follow : next node ≠ some other) : unlinkPrev next prev node other = prev other := by
  unfold unlinkPrev
  cases h : next node with
  | none => simp [ne]
  | some after =>
    have away : other ≠ after := fun same => follow (by rw [h, same])
    simp [ne, away]

theorem unlinkNext_prior {before : ι} (ne : before ≠ node)
    (prior : prev node = some before) : unlinkNext next prev node before = next node := by
  simp [unlinkNext, prior, ne]

theorem unlinkPrev_follow (ne : after ≠ node)
    (follow : next node = some after) : unlinkPrev next prev node after = prev node := by
  simp [unlinkPrev, follow, ne]

theorem Chain.unlink {head : Option ι}
    (chain : Chain next prev head nodes) (mem : node ∈ nodes) :
    Chain (unlinkNext next prev node) (unlinkPrev next prev node) (unlinkHead next prev head node)
      (nodes.erase node) := by
  obtain ⟨front, rest, rfl⟩ := append_of_mem mem
  have distinct := nodup_append.mp chain.nodup
  have clear : node ∉ front := fun inside => distinct.2.2 node inside node (by simp) rfl
  have later := nodup_cons.mp distinct.2.1
  have prior : prev node = front.getLast? := by simpa using chain.back.prev_eq
  have follow : next node = rest.head? := chain.linked.suffix.head
  have apart : ∀ left ∈ front, ∀ right ∈ rest, left ≠ right := fun left hl right hr =>
    distinct.2.2 left hl right (mem_cons_of_mem _ hr)
  have frontNe : ∀ other ∈ front, other ≠ node := fun other inside same => clear (same ▸ inside)
  have restNe : ∀ other ∈ rest, other ≠ node := fun other inside same => later.1 (same ▸ inside)
  have erased : (front ++ node :: rest).erase node = front ++ rest := by
    rw [erase_append_right _ clear, erase_cons_head]
  have start : unlinkHead next prev head node = front.head?.or (next node) := by
    have hd := chain.linked.head
    cases front with
    | nil => simp [unlinkHead, prior]
    | cons first front => simp [unlinkHead, prior, hd, getLast?_cons]
  rw [erased, start]
  constructor
  · refine chain.linked.bypass ?_ ?_ ?_
    · intro last inside
      exact unlinkNext_prior (frontNe last (mem_of_getLast? inside)) (prior.trans inside)
    · intro other inside
      refine unlinkNext_of_ne (frontNe other (mem_of_mem_dropLast inside)) ?_
      rw [prior]
      intro last
      obtain ⟨init, rfl⟩ := getLast?_eq_some_iff.mp last
      have twice := distinct.1
      simp only [dropLast_concat] at inside
      exact (nodup_append.mp twice).2.2 other inside other (by simp) rfl
    · intro other inside
      refine unlinkNext_of_ne (restNe other inside) ?_
      rw [prior]
      exact fun last => apart other (mem_of_getLast? last) other inside rfl
  · refine chain.back.bypass ?_ ?_ ?_
    · intro other inside
      refine unlinkPrev_of_ne (frontNe other inside) ?_
      rw [follow]
      exact fun first => apart other inside other (mem_of_mem_head? first) rfl
    · intro first inside
      rw [unlinkPrev_follow (restNe first (mem_of_mem_head? inside)) (follow.trans inside), prior]
      simp
    · intro other inside
      refine unlinkPrev_of_ne (restNe other (mem_of_mem_tail inside)) ?_
      rw [follow]
      cases rest with
      | nil => simp at inside
      | cons first rest =>
        intro same
        have eq : first = other := by simpa using same
        exact (nodup_cons.mp later.2).1 (eq ▸ inside)

end Columns

/-- Nodes held in one chain per key, all threaded through the same two columns. `held` says
    which nodes are in a chain now; the others may carry any key and any stale pointers. -/
structure Buckets (next prev : ι → Option ι) (heads : κ → Option ι) (key : ι → Option κ)
    (held : ι → Prop) (lists : κ → List ι) : Prop where
  chain : ∀ k, Chain next prev (heads k) (lists k)
  mem : ∀ k node, node ∈ lists k ↔ held node ∧ key node = some k

namespace Buckets

variable {next prev : ι → Option ι} {heads : κ → Option ι} {key : ι → Option κ}
  {held : ι → Prop} {lists : κ → List ι} {k : κ}

variable (buckets : Buckets next prev heads key held lists)
include buckets

theorem not_mem (out : ¬ held node) : node ∉ lists k := fun mem => out ((buckets.mem k node).mp mem).1

theorem head_held (first : heads k = some node) : held node ∧ key node = some k := by
  have hd := (buckets.chain k).linked.head
  rw [first] at hd
  exact (buckets.mem k node).mp (mem_of_mem_head? hd.symm)

theorem apart {j : κ}
    (left : node ∈ lists j) (right : node ∈ lists k) : j = k :=
  some.inj (((buckets.mem j node).mp left).2.symm.trans ((buckets.mem k node).mp right).2)

theorem empty_head (unused : ∀ node, held node → key node ≠ some k) : heads k = none := by
  cases first : heads k with
  | none => rfl
  | some node =>
    have inside := buckets.head_held first
    exact absurd inside.2 (unused node inside.1)

theorem congr {heads' : κ → Option ι} {key' : ι → Option κ}
    {held' : ι → Prop} (same : ∀ node, held' node ↔ held node)
    (hn : ∀ node, held node → next' node = next node) (hp : ∀ node, held node → prev' node = prev node)
    (hk : ∀ node, held node → key' node = key node) (hh : ∀ k, heads' k = heads k) :
    Buckets next' prev' heads' key' held' lists := by
  constructor
  · intro k
    rw [hh k]
    exact (buckets.chain k).congr (fun node mem => hn node ((buckets.mem k node).mp mem).1)
      (fun node mem => hp node ((buckets.mem k node).mp mem).1)
  · intro k node
    rw [buckets.mem k node, same node]
    constructor
    · rintro ⟨inside, at'⟩
      exact ⟨inside, (hk node inside).trans at'⟩
    · rintro ⟨inside, at'⟩
      exact ⟨inside, (hk node inside).symm.trans at'⟩

theorem congr_held {held' : ι → Prop} (same : ∀ node, held' node ↔ held node) : Buckets next prev heads key held' lists :=
  buckets.congr same (fun _ _ => rfl) (fun _ _ => rfl) (fun _ _ => rfl) fun _ => rfl

theorem drop_keyless (keyless : key node = none) :
    Buckets next prev heads key (fun other => held other ∧ other ≠ node) lists := by
  refine ⟨buckets.chain, fun k other => ?_⟩
  rw [buckets.mem k other]
  refine ⟨fun ⟨inside, at_⟩ => ⟨⟨inside, ?_⟩, at_⟩, fun ⟨⟨inside, _⟩, at_⟩ => ⟨inside, at_⟩⟩
  rintro rfl
  simp [keyless] at at_

omit buckets

variable [DecidableEq κ]

theorem detach (buckets : Buckets next prev heads key held lists) (k : κ) :
    Buckets next prev (update heads k none) key (fun node => held node ∧ key node ≠ some k)
      (update lists k []) := by
  constructor
  · intro j
    by_cases same : j = k
    · subst same
      simp only [update_self]
      exact ⟨rfl, True.intro⟩
    · simpa only [update_of_ne same] using buckets.chain j
  · intro j node
    by_cases same : j = k
    · subst same
      simp
    · simp only [update_of_ne same, buckets.mem]
      constructor
      · rintro ⟨inside, at'⟩
        exact ⟨⟨inside, fun other => same (some.inj (at'.symm.trans other))⟩, at'⟩
      · rintro ⟨⟨inside, -⟩, at'⟩
        exact ⟨inside, at'⟩

variable [DecidableEq ι]

theorem push (buckets : Buckets next prev heads key held lists) (node : ι) (k : κ)
    (out : ¬ held node) (at_ : key node = some k) :
    Buckets (pushNext next (heads k) node) (pushPrev prev (heads k) node)
      (update heads k (some node)) key (fun other => held other ∨ other = node)
      (update lists k (node :: lists k)) := by
  have ne : ∀ other, held other → other ≠ node := fun other inside same => out (same ▸ inside)
  constructor
  · intro j
    by_cases same : j = k
    · subst same
      simpa using (buckets.chain j).push (buckets.not_mem out)
    · simp only [update_of_ne same]
      refine (buckets.chain j).congr ?_ ?_
      · intro other mem
        exact pushNext_of_ne (ne other ((buckets.mem j other).mp mem).1)
      · intro other mem
        refine pushPrev_of_ne (ne other ((buckets.mem j other).mp mem).1) fun first => ?_
        have key' := (buckets.head_held first).2
        exact same (some.inj (((buckets.mem j other).mp mem).2.symm.trans key'))
  · intro j other
    by_cases same : j = k
    · subst same
      simp only [update_self, mem_cons, buckets.mem]
      constructor
      · rintro (rfl | ⟨inside, at'⟩)
        · exact ⟨Or.inr rfl, at_⟩
        · exact ⟨Or.inl inside, at'⟩
      · rintro ⟨inside | rfl, at'⟩
        · exact Or.inr ⟨inside, at'⟩
        · exact Or.inl rfl
    · simp only [update_of_ne same, buckets.mem]
      constructor
      · rintro ⟨inside, at'⟩
        exact ⟨Or.inl inside, at'⟩
      · rintro ⟨inside | rfl, at'⟩
        · exact ⟨inside, at'⟩
        · exact absurd (some.inj (at'.symm.trans at_)) same

theorem unlink (buckets : Buckets next prev heads key held lists)
    (inside : held node) (at_ : key node = some k) :
    Buckets (unlinkNext next prev node) (unlinkPrev next prev node)
      (update heads k (unlinkHead next prev (heads k) node)) key
      (fun other => held other ∧ other ≠ node) (update lists k ((lists k).erase node)) := by
  have mem : node ∈ lists k := (buckets.mem k node).mpr ⟨inside, at_⟩
  constructor
  · intro j
    by_cases same : j = k
    · subst same
      simpa using (buckets.chain j).unlink mem
    · simp only [update_of_ne same]
      have away : ∀ other ∈ lists j, other ∉ lists k := fun other left right =>
        same (buckets.apart left right)
      refine (buckets.chain j).congr ?_ ?_
      · intro other there
        refine unlinkNext_of_ne (fun eq => away other there (eq ▸ mem)) fun prior => ?_
        exact away other there ((buckets.chain k).prev_mem mem prior)
      · intro other there
        refine unlinkPrev_of_ne (fun eq => away other there (eq ▸ mem)) fun follow => ?_
        exact away other there ((buckets.chain k).next_mem mem follow)
  · intro j other
    by_cases same : j = k
    · subst same
      simp only [update_self, (buckets.chain j).nodup.mem_erase_iff, buckets.mem]
      tauto
    · simp only [update_of_ne same, buckets.mem]
      constructor
      · rintro ⟨there, at'⟩
        refine ⟨⟨there, fun eq => ?_⟩, at'⟩
        subst eq
        exact same (some.inj (at'.symm.trans at_))
      · rintro ⟨⟨there, -⟩, at'⟩
        exact ⟨there, at'⟩

end Buckets

end Intrusive
