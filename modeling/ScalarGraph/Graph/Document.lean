import ScalarGraph.Decimal.Reading
import ScalarGraph.Graph.Assembly
import ScalarGraph.Json.Reader
import ScalarGraph.Json.Writer
import ScalarGraph.Numeral

/-! # Documents

A document is the JSON text of a graph: an object with the primary output, the
secondary ones where there are any, the nodes by identifier and the edges from
operands to users. A constant is a bare number, any other node an object whose
tag names its kind. Nodes and edges stand on one line each.
-/
namespace ScalarGraph

namespace Json

/-- Whole numbers below this magnitude are written without a fraction. -/
def wholeLimit : Nat := 1000000000000000000000

def ofNumber (x : Float) : Json :=
  match Binary64.toInt? x with
  | some i =>
    if wholeLimit ≤ i.natAbs ∨ (i = 0 ∧ Binary64.isNegative x) then real x else int i
  | none => real x

def record (fields : List (String × Json)) : Json :=
  object (fields.map fun f => (Text.ofString f.1, f.2))

def ofId? (id : Option Text) : Json := (id.map text).getD null

end Json

def Op.document (o : Op Float) : Json :=
  let tagged (tag : String) (fields : List (String × Json)) : Json :=
    Json.record (("tag", .text (Text.ofString tag)) :: fields)
  match o with
  | .const v => Json.ofNumber v
  | .input i s => tagged "Input" [("index", .int i), ("val", Json.ofNumber s)]
  | .unary o => tagged "Unary" [("unop", .text o.label)]
  | .binary o => tagged "Binary" [("binop", .text o.label)]
  | .select => tagged "Ternary" []
  | .nary o => tagged "Nary" [("op", .text o.label)]
  | .debug l => tagged "Debug" [("info", .text l)]

/-- An edge in a document; the slot of a single operand is left out. -/
def Edge.document (e : Edge) : Json :=
  Json.record <| [("from", .text e.source), ("to", .text e.target)] ++
    (e.role.label?.map fun l => ("role", Json.text l)).toList

namespace Graph

def block (name : String) (start stop : String) (items : List Text) (after : String) : List Text :=
  let head := Text.concat ["  ", Json.quote name, ": ", start]
  if items.isEmpty then [Text.concat [head, stop, after]]
  else [head, Text.join (Text.ofString ",\n") (items.map fun t => Text.ofString "    " ++ t),
    Text.concat ["  ", stop, after]]

def document (g : Graph Float) : Text :=
  let header (name : String) (v : Json) : Text :=
    .concat ["  ", Json.quote name, ": ", v.compact, ","]
  let secondary :=
    if g.secondary.isEmpty then [] else [header "secondary" (.array (g.secondary.map .text))]
  let nodes := g.nodes.map fun p =>
    Text.concat [Json.quote p.1, ": ", p.2.op.document.compact]
  let edges := g.edges.map fun e => e.document.compact
  let lines := [Text.ofString "\x7b", header "primary" (Json.ofId? g.primary)] ++ secondary ++
    block "nodes" "\x7b" "\x7d" nodes "," ++ block "edges" "[" "]" edges "" ++
    [Text.ofString "\x7d"]
  Text.join (Text.ofString "\n") lines ++ Text.ofString "\n"

end Graph

namespace Json

def typeName : Json → String
  | null => "NoneType"
  | bool _ => "bool"
  | int _ => "int"
  | real _ => "float"
  | text _ => "str"
  | array _ => "list"
  | object _ => "dict"

end Json

namespace Document
open Json

def malformed (id reason : Text) : Fault := .violation (.malformedField id reason)

/-- The sample value of an input; numerals in texts count. -/
def sample (id : Text) : Json → Except Fault Float
  | .bool b => .ok (Numeral.ofBool b)
  | .int i => Numeral.ofInt i
  | .real x => .ok x
  | .text t =>
    match Decimal.real? t with
    | some x => .ok x
    | none => .error (malformed id (.concat ["could not convert string to float: ", t.quoted]))
  | v =>
    .error (malformed id
      (.concat ["float() argument must be a string or a real number, not '", v.typeName, "'"]))

def required (id : Text) (name : String) (v : Json) : Except Fault Json :=
  match v.field? name with
  | some f => .ok f
  | none => .error (.violation (.missingField id name))

def requiredText (id : Text) (name : String) (v : Json) : Except Fault Text :=
  (required id name v).map plain

def position (id : Text) : Json → Except Fault Int
  | .int i => .ok i
  | v => .error (.violation (.indexNotInteger id v.shown))

def tagged (id tag : Text) (v : Json) : Except Fault (Literal Float) := do
  if tag = Text.ofString "Input" then
    let i ← position id (← required id "index" v)
    return .input i (← sample id ((v.field? "val").getD (.real 0.0)))
  else if tag = Text.ofString "Unary" then return .unary (← requiredText id "unop" v)
  else if tag = Text.ofString "Binary" then return .binary (← requiredText id "binop" v)
  else if tag = Text.ofString "Ternary" then return .select
  else if tag = Text.ofString "Nary" then return .nary (← requiredText id "op" v)
  else if tag = Text.ofString "Debug" then
    return .debug (((v.field? "info").map plain).getD [])
  else throw (.violation (.unknownTag id tag.quoted))

def node (id : Text) : Json → Except Fault (Literal Float)
  | .int i => (Numeral.ofInt i).map .const
  | .real x => .ok (.const x)
  | .object fields =>
    match (Json.object fields).field? "tag" with
    | some (.text tag) => tagged id tag (.object fields)
    | v => .error (.violation (.unknownTag id (v.getD .null).shown))
  | v => .error (.violation (.notANode id v.shown))

def edge (v : Json) : Except Fault DraftEdge :=
  match v.field? "from", v.field? "to" with
  | some source, some target =>
    .ok ⟨source.plain, target.plain, Slot.ofJson ((v.field? "role").getD .null)⟩
  | _, _ => .error (.violation (.malformedEdge v.shown))

/-- The identifiers that a value lists: the items of an array, the characters of a text, the
names of an object. -/
def listed : Json → Except Fault (List Text)
  | .array items => .ok (items.map plain)
  | .text t => .ok (t.map fun c => [c])
  | .object fields => .ok (fields.map (·.1))
  | _ => .error .wrongType

def primary : Json → Option Text
  | .null => none
  | v => some v.plain

def draft (v : Json) : Except Fault (Draft Float) :=
  match v.field? "nodes", v.field? "edges" with
  | some (.object nodes), some (.array edges) => do
    let nodes ← nodes.mapM fun p => return (p.1, ← node p.1 p.2)
    let edges ← edges.mapM edge
    let secondary ← listed ((v.field? "secondary").getD (.array []))
    return { nodes, edges, primary := primary ((v.field? "primary").getD .null), secondary }
  | some _, some _ => .error (.violation .wrongSections)
  | _, _ => .error (.violation .missingSections)

def read (t : Text) : Except Fault (Graph Float) :=
  match Json.read t with
  | .error .malformed => .error .notJson
  | .error .tooManyDigits => .error .badValue
  | .ok v => do (← draft v).assemble

end Document
end ScalarGraph
