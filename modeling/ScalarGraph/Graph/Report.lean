import ScalarGraph.Graph.Statistics

/-! # Reports

The printed summary of a graph and the listing of its nodes.
-/
namespace ScalarGraph
variable {α : Type} [Written α]

namespace Graph

/-- The first `m` items, or all but the last `-m` where `m` is negative. -/
def firstOf {β : Type} (m : Int) (xs : List β) : List β :=
  if 0 ≤ m then xs.take m.toNat else xs.take (xs.length - m.natAbs)

def entry : Node α Text → Text
  | .const v => .concat ["const        (", written v, ")"]
  | .input i s => .concat ["input        (x[", .ofNat i, "], sample=", written s, ")"]
  | n =>
    let label := match n with
      | .debug l _ => Text.concat ["debug[", l, "]"]
      | n => n.op.shortName
    .concat [label.padRight 12, " <- [", Text.join (Text.ofString ", ") n.operands, "]"]

/-- A listing shows so many nodes where it is not said how many. -/
def listingLimit : Nat := 20

/-- The nodes in topological order, at most `limit` of them. -/
def listing (g : Graph α) (limit : Int) : List Text :=
  if g.nodes.isEmpty then [Text.ofString "Empty graph"]
  else
    let nodes : Std.HashMap Text (Node α Text) := .ofList g.nodes
    let rows := (firstOf limit g.order).filterMap fun id =>
      nodes[id]?.map fun n => Text.concat [id.padLeft 6, ": ", entry n]
    let rest : Int := g.order.length - limit
    if 0 < rest then rows ++ [Text.concat ["... (", Text.ofInt rest, " more nodes)"]] else rows

def rule : Text := Text.fill '=' 70

def operationRow (nodes : Nat) (p : Text × Nat) : Text :=
  let share := 100.0 * Float.ofNat p.2 / Float.ofNat nodes
  .concat ["  ", p.1.padRight 12, ": ", (Decimal.grouped p.2).padLeft 6, " (",
    (Decimal.fixed 1 share).padLeft 5, "%)"]

/-- At most so many operators are broken down in a summary. -/
def breakdownLimit : Nat := 10

/-- Graphs of at most so many nodes are listed in a detailed summary. -/
def detailLimit : Nat := 100

def summary (g : Graph α) (detailed : Bool) : List Text :=
  let s := g.statistics
  if s.nodes = 0 then [Text.ofString "Empty computation graph"]
  else
    let head : List Text := [
      "\n" ++ rule,
      "COMPUTATION GRAPH SUMMARY",
      rule,
      .concat ["Total nodes:        ", Decimal.grouped s.nodes],
      .concat ["Total edges:        ", Decimal.grouped s.edges],
      .concat ["Inputs:             ", Decimal.grouped s.inputs],
      .concat ["Max fan-in:         ", .ofNat (Statistics.largest s.fanIns)],
      .concat ["Avg fan-in:         ", Decimal.fixed 2 (Statistics.mean s.fanIns)],
      .concat ["Max fan-out:        ", .ofNat (Statistics.largest s.fanOuts)],
      .concat ["Avg fan-out:        ", Decimal.fixed 2 (Statistics.mean s.fanOuts)],
      .concat ["Primary:            ", g.primary.getD "None"],
      .concat ["Secondary:          ", .ofNat g.secondary.length],
      [],
      "Operation breakdown:"]
    let breakdown := (s.mostCommon breakdownLimit).map (operationRow s.nodes)
    let details : List Text :=
      if detailed && s.nodes ≤ detailLimit then
        [[], rule, "DETAILED NODE LIST", rule] ++ g.listing detailLimit
      else []
    head ++ breakdown ++ details ++ [rule ++ "\n"]

def printed (lines : List Text) : Text := lines.flatMap (· ++ Text.ofString "\n")

end Graph
end ScalarGraph
