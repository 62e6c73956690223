import ScalarGraph.Event
import ScalarGraph.Tape

/-! # Workspaces

A workspace holds any number of tapes, one of them active, the settings under
which evaluators are compiled, and a log. A step of building changes the
workspace also where it fails: what was appended before the fault stays.
-/
namespace ScalarGraph
variable {α β γ : Type} [DecidableEq α] [Hashable α]

structure Handle where
  tape : Nat
  index : Nat
deriving DecidableEq

/-- Switches that an evaluator keeps from the moment it is compiled. -/
structure Settings where
  warnNonFinite : Bool := false
  logDebugNodes : Bool := true
  /-- Whether a node whose adjoint is zero passes nothing on. -/
  skipZeroAdjoints : Bool := true
deriving DecidableEq

def Settings.fields (s : Settings) : List (String × Bool) :=
  [("warn_non_finite", s.warnNonFinite), ("log_debug_nodes", s.logDebugNodes),
    ("skip_zero_adjoints", s.skipZeroAdjoints)]

structure Workspace (α : Type) [DecidableEq α] [Hashable α] where
  tapes : Array (Tape α) := #[.empty]
  active : Nat := 0
  settings : Settings := {}
  log : Array (Event α) := #[]

/-- A step that may fail and that keeps its changes when it does. -/
abbrev Build (α : Type) [DecidableEq α] [Hashable α] : Type → Type :=
  ExceptT Fault (StateM (Workspace α))

namespace Workspace

def tape (w : Workspace α) (k : Nat) : Tape α := w.tapes.getD k .empty

/-- Replaces a tape and notes the node that it gained. -/
def putTape (w : Workspace α) (k : Nat) (t : Tape α) (size : Nat) : Workspace α :=
  let added :=
    match t.nodes[size]? with
    | some n => #[.appended size n]
    | none => #[]
  { w with tapes := w.tapes.setIfInBounds k t, log := w.log ++ added }

def onTape (w : Workspace α) (k : Nat) (f : Tape α → Tape α × γ) : Workspace α × γ :=
  let t := w.tape k
  let w := { w with tapes := w.tapes.setIfInBounds k .empty }
  let size := t.size
  let (t, c) := f t
  (w.putTape k t size, c)

def fresh (w : Workspace α) : Workspace α :=
  { w with tapes := w.tapes.push .empty, active := w.tapes.size }

end Workspace

namespace Build

def ofExcept (r : Except Fault γ) : Build α γ := fun w => (r, w)

def violate (v : Violation) : Build α γ := throw (.violation v)

def note (e : Event α) : Build α Unit := modify fun w => { w with log := w.log.push e }

def onTape (k : Nat) (f : Tape α → Tape α × γ) : Build α γ :=
  fun w => let (w, c) := w.onTape k f; (.ok c, w)

/-- Changes one tape, or leaves it as it is where that is a violation. -/
def onTape? (k : Nat) (f : Tape α → Except Violation (Tape α × γ)) : Build α γ :=
  fun w =>
    let (w, r) := w.onTape k fun t =>
      match f t with
      | .ok (t, c) => (t, Except.ok c)
      | .error v => (t, .error (.violation v))
    (r, w)

def newTape : Build α Nat := do
  modify Workspace.fresh
  return (← get).active

/-- Works with another tape active; afterwards the old one is active again. -/
def withTape (k : Nat) (b : Build α γ) : Build α γ :=
  fun w =>
    let (r, v) := b.run { w with active := k }
    (r, { v with active := w.active })

/-- Works on a tape of its own; afterwards the tapes are as many as before and the old one active. -/
def withFresh (b : Build α γ) : Build α γ :=
  fun w =>
    let (r, v) := b.run w.fresh
    (r, { v with tapes := v.tapes.take w.tapes.size, active := w.active })

end Build
end ScalarGraph
