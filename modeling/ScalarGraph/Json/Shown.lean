import ScalarGraph.Decimal.Notation
import ScalarGraph.Json
import ScalarGraph.Text.Quoted

/-! # JSON values in messages

Messages quote a value with its texts in quotes; a plain text is one without.
-/
namespace ScalarGraph.Json

def shownBool (b : Bool) : Text := Text.ofString (if b then "True" else "False")

mutual
def shown : Json → Text
  | null => Text.ofString "None"
  | bool b => shownBool b
  | int i => Text.ofInt i
  | real x => Decimal.written x
  | text t => t.quoted
  | array items => Text.bracketed (shownItems items)
  | object fields =>
    Text.ofString "\x7b" ++ Text.join (Text.ofString ", ") (shownFields fields) ++ Text.ofString "\x7d"

def shownItems : List Json → List Text
  | [] => []
  | v :: vs => shown v :: shownItems vs

def shownFields : List (Text × Json) → List Text
  | [] => []
  | (name, v) :: fs => (name.quoted ++ Text.ofString ": " ++ shown v) :: shownFields fs
end

/-- A text as it is, any other value as messages quote it. -/
def plain : Json → Text
  | text t => t
  | v => v.shown

end ScalarGraph.Json
