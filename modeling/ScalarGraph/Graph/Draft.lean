import ScalarGraph.Binary64
import ScalarGraph.Graph
import ScalarGraph.Json.Shown

/-! # Drafts

A draft is what is given for a graph before any of it is checked: literals
instead of operators, edges between identifiers that need not be there, and any
value in the place of a slot.
-/
namespace ScalarGraph
variable {α : Type}

/-- What an edge names as its slot: one that some operator has, or any other value. -/
inductive Slot where
  | role (r : Role)
  | other (value : Json)

namespace Slot

def ofLabel (label : Option Text) : Slot :=
  match Role.named? label, label with
  | some r, _ => role r
  | none, some t => other (.text t)
  | none, none => other .null

def ofJson : Json → Slot
  | .null => ofLabel none
  | .text t => ofLabel (some t)
  | v => other v

def shown : Slot → Text
  | role r => (r.label?.map Text.quoted).getD (Text.ofString "None")
  | other v => v.shown

def plain : Slot → Text
  | role r => r.label?.getD (Text.ofString "None")
  | other v => v.plain

/-- What tells two slots apart. Numbers of all kinds are compared by value. -/
inductive Key where
  | role (r : Role)
  | text (t : Text)
  | whole (i : Int)
  | real (x : Float)
deriving DecidableEq

/-- Arrays and objects cannot be told apart and have no key. -/
def key? : Slot → Option Key
  | role r => some (.role r)
  | other .null => some (.role .only)
  | other (.bool b) => some (.whole (if b then 1 else 0))
  | other (.int i) => some (.whole i)
  | other (.real x) => some (((Binary64.toInt? x).map Key.whole).getD (.real x))
  | other (.text t) => some (.text t)
  | other (.array _) | other (.object _) => none

end Slot

structure DraftEdge where
  source : Text
  target : Text
  slot : Slot

namespace DraftEdge

def shown (e : DraftEdge) : Text :=
  Text.record "GraphEdge"
    [("source", e.source.quoted), ("target", e.target.quoted), ("role", e.slot.shown)]

/-- The edge, where it names a slot that some operator has. -/
def edge? (e : DraftEdge) : Option Edge :=
  match e.slot with
  | .role r => some ⟨e.source, e.target, r⟩
  | .other _ => none

end DraftEdge

structure Draft (α : Type) where
  nodes : List (Text × Literal α)
  edges : List DraftEdge
  primary : Option Text := none
  secondary : List Text := []
  /-- The length of the input vector; one past the largest position where it is not given. -/
  numInputs : Option Int := none

end ScalarGraph
