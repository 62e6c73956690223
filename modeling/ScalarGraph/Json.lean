import ScalarGraph.Keyed
import ScalarGraph.Text

/-! # JSON values

Integers of any size are kept apart from reals, and the fields of an object keep
the order in which their names first appeared.
-/
namespace ScalarGraph

inductive Json where
  | null
  | bool (b : Bool)
  | int (i : Int)
  | real (x : Float)
  | text (t : Text)
  | array (items : List Json)
  | object (fields : List (Text × Json))

instance Json.inhabited : Inhabited Json := ⟨.null⟩

namespace Json

def field? (name : String) : Json → Option Json
  | object fields => fields.lookup (Text.ofString name)
  | _ => none

end Json
end ScalarGraph
