import ScalarGraph.Session.Execution

/-! # Sessions

A session runs commands one after the other. It keeps the tapes, the settings and
the result of every step, so that later steps can refer to them.
-/
namespace ScalarGraph

structure Session where
  workspace : Workspace Float := {}
  results : Array (Option Value) := #[]
  switches : Value := .ofSwitches []

/-- What a step answers. -/
structure Reply where
  outcome : Except Fault Value
  nodes : Nat
  log : List Text

namespace Session

/-- What stands in a log for the path of a file. -/
def filePlaceholder : Text := Text.ofString "FILE"

def step (s : Session) (c : Command) : Session × Reply :=
  let scope : Scope := { results := s.results, switches := s.switches }
  let (outcome, w) := (c.exec scope).run { s.workspace with log := #[] }
  let switches := match c, outcome with
    | .configure _, .ok v => v
    | _, _ => s.switches
  ({ workspace := { w with log := #[] }, results := s.results.push outcome.toOption, switches },
   { outcome, nodes := (w.tape w.active).size, log := w.log.toList.map (Event.line filePlaceholder) })

end Session
end ScalarGraph
