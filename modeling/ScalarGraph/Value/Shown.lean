import ScalarGraph.Decimal.Row
import ScalarGraph.Text.Row
import ScalarGraph.Value

/-! # Values in messages

A value is quoted by its parts; a handle by its index and its operator.
-/
namespace ScalarGraph
variable {α : Type}

def Text.tuple : List Text → Text
  | [] => Text.ofString "()"
  | [t] => Text.concat ["(", t, ",)"]
  | ts => Text.concat ["(", Text.join (Text.ofString ", ") ts, ")"]

def Text.braced (pairs : List (Text × Text)) : Text :=
  Text.concat ["\x7b", Text.join (Text.ofString ", ")
    (pairs.map fun p => Text.concat [p.1, ": ", p.2]), "\x7d"]

def Edge.shown (e : Edge) : Text :=
  Text.record "GraphEdge" [("source", e.source.quoted), ("target", e.target.quoted),
    ("role", (e.role.label?.map Text.quoted).getD "None")]

def Graph.shown [Written α] (g : Graph α) : Text :=
  Text.record "ExtractedGraph"
    [("nodes", Text.concat ["mappingproxy(",
        Text.braced (g.nodes.map fun p => (p.1.quoted, p.2.op.shown)), ")"]),
     ("edges", Text.tuple (g.edges.map Edge.shown)),
     ("order", Text.tuple (g.order.map Text.quoted)),
     ("primary", (g.primary.map Text.quoted).getD "None"),
     ("secondary", Text.tuple (g.secondary.map Text.quoted)),
     ("num_inputs", Text.ofInt g.numInputs)]

namespace Workspace

def node? (w : Workspace Float) (h : Handle) : Option (Node Float Nat) := (w.tape h.tape).nodes[h.index]?

def shownHandle (w : Workspace Float) (h : Handle) : Text :=
  Text.concat ["ADVar(", Text.ofNat h.index, ", ",
    ((w.node? h).map fun n => n.op.shown).getD [], ")"]

end Workspace

namespace Value

def shownVector (xs : List Float) : Text :=
  Row.quoted (Row.words Decimal.row xs)
    (Row.notes xs.length (if xs.isEmpty then some "float64" else none))

def shownHandles (w : Workspace Float) (hs : List Handle) : Text :=
  Row.quoted (Row.words (·.map w.shownHandle) hs) (Row.notes hs.length (some "object"))

def shownOutputs (o : Outputs Float) : Text :=
  Text.record "Outputs" [("primary", (o.primary.map Decimal.written).getD "None"),
    ("gradient", shownVector o.gradient.toList), ("secondary", shownVector o.secondary)]

mutual
def shown (w : Workspace Float) : Value → Text
  | nothing => "None"
  | bool b => (Numeral.bool b).written
  | int i => Text.ofInt i
  | real x => Decimal.written x
  | entry x => (Numeral.entry x).written
  | text t => t.quoted
  | list vs => Text.bracketed (shownAll w vs)
  | vector xs => shownVector xs
  | handle h => w.shownHandle h
  | handleVector hs => shownHandles w hs
  | ellipse a b c x y =>
    Text.record "ImplicitEllipse" [("a", shown w a), ("b", shown w b), ("c", shown w c),
      ("x", shown w x), ("y", shown w y)]
  | halfPlane a b c =>
    Text.record "ImplicitHalfPlane" [("a", shown w a), ("b", shown w b), ("c", shown w c)]
  | graph g => g.shown
  | program _ => "Evaluator"
  | outputs o => shownOutputs o
  | table fields => Text.braced (shownFields w fields)
  | arena _ _ => "Tape"

def shownAll (w : Workspace Float) : List Value → List Text
  | [] => []
  | v :: vs => shown w v :: shownAll w vs

def shownFields (w : Workspace Float) : List (Text × Value) → List (Text × Text)
  | [] => []
  | (k, v) :: fs => (k.quoted, shown w v) :: shownFields w fs
end

/-- A text or an entry as it is, an array without its kind, any other value as messages quote
it. -/
def plain (w : Workspace Float) : Value → Text
  | text t => t
  | entry x => Decimal.written x
  | vector xs => Row.plain (Row.words Decimal.row xs)
  | handleVector hs => Row.plain (Row.words (·.map w.shownHandle) hs)
  | v => v.shown w

/-- Whether a value can be looked up among names. -/
def isComparable : Value → Bool
  | list _ | vector _ | handleVector _ | graph _ | outputs _ | table _ | arena .. => false
  | ellipse a b c x y =>
    a.isComparable && b.isComparable && c.isComparable && x.isComparable && y.isComparable
  | halfPlane a b c => a.isComparable && b.isComparable && c.isComparable
  | _ => true

end Value
end ScalarGraph
