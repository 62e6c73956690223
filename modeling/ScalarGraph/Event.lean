import ScalarGraph.Fault
import ScalarGraph.Literal

/-! # Events

What an operation tells its log, with the level and the source of each event.
-/
namespace ScalarGraph
variable {α : Type}

inductive Event (α : Type) where
  | appended (index : Nat) (node : Node α Nat)
  | extracted (nodes edges : Nat) (primary : Option Text) (secondary : Nat)
  | compiled (instructions onGradientPath secondary : Nat)
  | debugged (id label : Text) (value : α)
  | notFinite (value : α)
  | wrote (nodes edges : Nat)
  | loaded (nodes edges : Nat)
  | generated (seed : Int) (nodes : Nat) (primary : α)

namespace Event

def level : Event α → String
  | appended .. | extracted .. | compiled .. | debugged .. => "DEBUG"
  | notFinite .. => "WARNING"
  | wrote .. | loaded .. | generated .. => "INFO"

def origin : Event α → String
  | appended .. => "tape"
  | extracted .. => "extract"
  | compiled .. | debugged .. | notFinite .. => "engine"
  | wrote .. | loaded .. => "interchange"
  | generated .. => "fuzz"

/-- The text of an event; `file` stands for the path of a file. -/
def message [Written α] (file : Text) : Event α → Text
  | appended i n =>
    .concat ["tape: node ", .ofNat i, " = ", n.op.shown, " <- ",
      .bracketed (n.operands.map .ofNat)]
  | extracted n e p s =>
    .concat ["extracted graph: ", .ofNat n, " nodes, ", .ofNat e, " edges, primary=",
      p.getD "None", ", ", .ofNat s, " secondary"]
  | compiled n b s =>
    .concat ["compiled evaluator: ", .ofNat n, " instructions, ", .ofNat b,
      " on the gradient path, ", .ofNat s, " secondary"]
  | debugged id l v => .concat ["debug node ", id, " (", l, "): ", written v]
  | notFinite v => .concat ["primary output is not finite: ", written v]
  | wrote n e =>
    .concat ["wrote graph with ", .ofNat n, " nodes and ", .ofNat e, " edges to ", file]
  | loaded n e =>
    .concat ["loaded graph with ", .ofNat n, " nodes and ", .ofNat e, " edges from ", file]
  | generated seed n p =>
    .concat ["fuzz seed=", .ofInt seed, ": ", .ofNat n, " nodes, primary=", written p,
      ", written to ", file]

def line [Written α] (file : Text) (e : Event α) : Text :=
  .concat [e.level, " ", e.origin, " ", e.message file]

end Event
end ScalarGraph
