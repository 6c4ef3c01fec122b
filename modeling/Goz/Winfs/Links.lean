import Goz.Library.Loop

namespace Goz.Winfs

def maxLinks : Nat := 4096

def errorHandleEof : UInt32 := 38
def errorMoreData : UInt32 := 234
def errorTooManyLinks : UInt32 := 1142

structure WinError where
  code : UInt32
  context : String
  deriving DecidableEq

/-- One `FindNextFileNameW`: what it returns, what it wrote into the buffer and the length it asks for. -/
structure Call where
  result : Except WinError Unit
  written : List UInt16
  len : UInt32

/-- The callee writes from the start of the buffer and not past its end. -/
def Call.fill (call : Call) (buf : List UInt16) : List UInt16 :=
  (call.written ++ buf.drop call.written.length).take buf.length

/-- Any callee: its answer may depend on the calls before and on the buffer. -/
abbrev Next := Nat → List UInt16 → Call

def takeName (buf : List UInt16) : List UInt16 := buf.takeWhile (· ≠ 0)

structure Drain where
  calls : Nat
  links : List (List UInt16)
  buf : List UInt16

def drainTurn (next : Next) (s : Drain) : Drain ⊕ Except WinError (List (List UInt16)) :=
  let call := next s.calls s.buf
  let buf := call.fill s.buf
  match call.result with
  | .ok () =>
    if s.links.length = maxLinks then .inr (.error ⟨errorTooManyLinks, "FindNextFileNameW"⟩)
    else .inl ⟨s.calls + 1, s.links ++ [takeName buf], buf⟩
  | .error e =>
    if e.code = errorHandleEof then .inr (.ok s.links)
    else if e.code = errorMoreData ∧ call.len.toNat > buf.length then
      .inl ⟨s.calls + 1, s.links, List.replicate call.len.toNat 0⟩
    else .inr (.error e)

def drainLinks (next : Next) (first buf : List UInt16) (fuel : Nat) : Option (Except WinError (List (List UInt16))) :=
  Loop.loop (drainTurn next) fuel ⟨0, [first], buf⟩

/-- After `calls` calls that did not end the walk: the buffer as it stands, and the names they delivered. -/
inductive Delivered (next : Next) (start : List UInt16) : Nat → List UInt16 → List (List UInt16) → Prop
  | none : Delivered next start 0 start []
  | name {calls buf names} (before : Delivered next start calls buf names) (ok : (next calls buf).result = .ok ()) :
    Delivered next start (calls + 1) ((next calls buf).fill buf) (names ++ [takeName ((next calls buf).fill buf)])
  | grow {calls buf names e} (before : Delivered next start calls buf names) (again : (next calls buf).result = .error e)
    (more : e.code = errorMoreData ∧ (next calls buf).len.toNat > buf.length) :
    Delivered next start (calls + 1) (List.replicate (next calls buf).len.toNat 0) names

def ReportsEnd (call : Call) : Prop := ∃ e, call.result = .error e ∧ e.code = errorHandleEof

variable {next : Next} {first start : List UInt16} {s again : Drain}

theorem length_fill (call : Call) (buf : List UInt16) : (call.fill buf).length = buf.length := by
  simp only [Call.fill, List.length_take, List.length_append, List.length_drop]
  omega

def Walking (next : Next) (first start : List UInt16) (s : Drain) : Prop :=
  ∃ names, s.links = first :: names ∧ Delivered next start s.calls s.buf names ∧ s.links.length ≤ maxLinks

def room (s : Drain) : Nat := maxLinks - s.links.length + (2 ^ 32 - s.buf.length)

theorem Walking.turn (walking : Walking next first start s) (goes : drainTurn next s = .inl again) :
    Walking next first start again ∧ room again < room s := by
  obtain ⟨names, links, delivered, few⟩ := walking
  cases result : (next s.calls s.buf).result with
  | ok _ =>
    simp only [drainTurn, result] at goes
    split at goes
    · cases goes
    · rename_i below
      cases goes
      have longer : (s.links ++ [takeName ((next s.calls s.buf).fill s.buf)]).length = s.links.length + 1 := by simp
      refine ⟨⟨_, by rw [links, List.cons_append], delivered.name result, ?_⟩, ?_⟩
      · simp only [longer]
        omega
      · simp only [room, longer, length_fill]
        omega
  | error e =>
    simp only [drainTurn, result, length_fill] at goes
    split at goes
    · cases goes
    · split at goes
      · rename_i grows
        cases goes
        have small := (next s.calls s.buf).len.toNat_lt
        refine ⟨⟨names, links, delivered.grow result grows, few⟩, ?_⟩
        simp only [room, List.length_replicate]
        omega
      · cases goes

theorem Walking.returned (walking : Walking next first start s) {result : Except WinError (List (List UInt16))}
    (goes : drainTurn next s = .inr result) (links : List (List UInt16)) (ok : result = .ok links) :
    ∃ calls buf names, Delivered next start calls buf names ∧ ReportsEnd (next calls buf) ∧ links = first :: names ∧
      links.length ≤ maxLinks := by
  obtain ⟨names, isLinks, delivered, few⟩ := walking
  subst ok
  cases result : (next s.calls s.buf).result with
  | ok _ =>
    simp only [drainTurn, result] at goes
    split at goes <;> cases goes
  | error e =>
    simp only [drainTurn, result] at goes
    split at goes
    · rename_i ends
      cases goes
      exact ⟨_, _, names, delivered, ⟨e, result, ends⟩, isLinks, few⟩
    · split at goes <;> cases goes

theorem drained_whole (next : Next) (first buf : List UInt16) :
    ∃ result, (∀ fuel, maxLinks + 2 ^ 32 < fuel → drainLinks next first buf fuel = some result) ∧
      ∀ links, result = .ok links → ∃ calls now names, Delivered next buf calls now names ∧
        ReportsEnd (next calls now) ∧ links = first :: names ∧ links.length ≤ maxLinks := by
  have start : Walking next first buf ⟨0, [first], buf⟩ := ⟨[], rfl, .none, Nat.le_of_ble_eq_true rfl⟩
  obtain ⟨result, enough⟩ := Loop.ends (Walking next first buf) room (fun _ _ walking => walking.turn) start
  refine ⟨result, ?_, ?_⟩
  · intro fuel many
    apply enough
    simp only [room, List.length_singleton]
    omega
  · exact Loop.correct (Walking next first buf) (fun _ _ walking goes => (walking.turn goes).1)
      (fun _ _ walking goes => walking.returned goes) start (enough _ (Nat.lt_succ_self _))

theorem drained_whole_two :
    let next : Next := fun n _ => if n = 0 then ⟨.ok (), [98, 0], 2⟩ else ⟨.error ⟨errorHandleEof, "FindNextFileNameW"⟩, [], 0⟩
    drainLinks next [97] [0, 0] 9 = some (.ok [[97], [98]]) ∧
      ∃ calls now, Delivered next [0, 0] calls now [[98]] ∧ ReportsEnd (next calls now) := by
  intro next
  have ran : ∀ fuel, drainLinks next [97] [0, 0] (fuel + 2) = some (.ok [[97], [98]]) := fun _ => rfl
  obtain ⟨result, enough, whole⟩ := drained_whole next [97] [0, 0]
  have same := (enough (maxLinks + 2 ^ 32 + 1 + 2) (by omega)).symm.trans (ran _)
  obtain ⟨calls, now, names, delivered, ended, links, -⟩ := whole _ (Option.some.inj same)
  cases links
  exact ⟨ran 7, calls, now, delivered, ended⟩

end Goz.Winfs
