import ScalarGraph.Text.Quoted

/-! # Faults

A fault is the cause for which an operation failed. Broken invariants of a tape,
a graph or a document are violations; each has a message.
-/
namespace ScalarGraph

/-- The number of operands that a family of operators takes. -/
inductive Family where
  | unary | binary | nary

def Family.name : Family → String
  | unary => "unary"
  | binary => "binary"
  | nary => "n-ary"

/-- A broken invariant. Literals, numbers and values that its message quotes are held as texts. -/
inductive Violation where
  | negativeInput (index : Int)
  | inputNotInteger (shown : Text)
  | redeclared (index : Nat) (old new : Text)
  | unknownOperator (family : Family) (shown : Text)
  | operandCount (kind : String) (shown : Text) (expected found : Nat)
  | terminalPushed
  | operandNotOnTape (index : Int)
  | mixedOperands
  | mixedOutputs
  | noOutputs
  | undefinedEnd (edge id : Text)
  | undefinedOutput (id : Text)
  | sharedInput (index : Nat) (first second : Text)
  | cycle (stuck : List Text)
  | repeatedRole (id role : Text)
  | terminalWithOperands (id : Text)
  | operandRoles (kind : String) (shown : Text) (found expected : List Text)
  | missingSections
  | wrongSections
  | notANode (id shown : Text)
  | unknownTag (id shown : Text)
  | indexNotInteger (id shown : Text)
  | missingField (id : Text) (field : String)
  | malformedField (id reason : Text)
  | malformedEdge (shown : Text)

inductive Fault where
  | violation (v : Violation)
  | notScalar (type : Text)
  | notHandle (type : Text)
  | wrongType
  /-- The value of an operator node was asked for. -/
  | notTerminal (shown : Text)
  | badValue
  | outOfRange
  | noSuchElement
  | noSuchKey
  | noSuchField
  | notJson
  | exit (code : Nat)
  /-- An operand is the result of a step that failed. -/
  | skipped

namespace Text

def concat (parts : List Text) : Text := parts.flatten

def quotedList (ts : List Text) : Text := bracketed (ts.map quoted)

end Text

def Violation.message : Violation → Text
  | negativeInput i => .concat ["input index must be non-negative, got ", .ofInt i]
  | inputNotInteger s => .concat ["input index must be an integer, got ", s]
  | redeclared i old new =>
    .concat ["input ", .ofNat i, " already declared with val=", old, ", got val=", new]
  | unknownOperator f s => .concat ["unknown ", f.name, " operator ", s]
  | operandCount k s e n =>
    .concat [k, " node ", s, " expects ", .ofNat e, " operand(s), got ", .ofNat n]
  | terminalPushed => "terminal nodes must be created with const()/input()"
  | operandNotOnTape i => .concat ["operand index ", .ofInt i, " is not on this tape"]
  | mixedOperands => "operands belong to different tapes"
  | mixedOutputs => "outputs belong to different tapes"
  | noOutputs => "make_graph needs a primary or at least one secondary output"
  | undefinedEnd e id => .concat ["edge ", e, " references undefined node ", id.quoted]
  | undefinedOutput id => .concat ["output references undefined node ", id.quoted]
  | sharedInput i a b => .concat ["input index ", .ofNat i, " used by both ", a, " and ", b]
  | cycle stuck => .concat ["cycle detected in graph (nodes ", .quotedList stuck, ")"]
  | repeatedRole id r => .concat ["node ", id, " has two operands in role ", r]
  | terminalWithOperands id => .concat ["terminal node ", id, " has operands"]
  | operandRoles k s found expected =>
    .concat [k, " node ", s, " has operand roles ", .quotedList found, ", expected ",
      .quotedList expected]
  | missingSections => "interchange document needs 'nodes' and 'edges'"
  | wrongSections => "'nodes' must be an object and 'edges' a list"
  | notANode id s => .concat ["node ", id, ": expected a number or an object, got ", s]
  | unknownTag id s => .concat ["node ", id, ": unknown tag ", s]
  | indexNotInteger id s => .concat ["node ", id, ": input index must be an integer, got ", s]
  | missingField id f => .concat ["node ", id, ": missing field ", Text.quoted f]
  | malformedField id r => .concat ["node ", id, ": malformed field (", r, ")"]
  | malformedEdge s => .concat ["malformed edge ", s]

def Fault.message? : Fault → Option Text
  | violation v => some v.message
  | notScalar t => some (.concat ["expected ADVar or real number, got ", t])
  | notHandle t => some (.concat ["outputs must be ADVar handles, got ", t])
  | notTerminal s => some (.concat [s, " is not a constant or input; use nums_of()"])
  | exit code => some (.ofNat code)
  | _ => none

end ScalarGraph
