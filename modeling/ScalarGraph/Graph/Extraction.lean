import ScalarGraph.Graph.Assembly
import ScalarGraph.Workspace

/-! # Extraction

The nodes of a tape from which some root can be computed are visited breadth
first from the roots, and named by the order of their first visit. The graph of
the same roots is the same whatever else is on the tape.
-/
namespace ScalarGraph
variable {α : Type} [DecidableEq α] [Hashable α]

namespace Tape

def operands (t : Tape α) (i : Nat) : List Nat := (t.nodes[i]?.map Node.operands).getD []

/-- The indices of a queue and all that they need, in the order of their first visit. Only
indices of `unseen` are visited. -/
def visit (t : Tape α) (unseen : List Nat) : List Nat → List Nat
  | [] => []
  | i :: queue =>
    if i ∈ unseen then i :: visit t (unseen.erase i) (queue ++ t.operands i)
    else visit t unseen queue
termination_by queue => (unseen.length, queue.length)
decreasing_by
  · next h =>
    rw [List.length_erase_of_mem h]
    exact Prod.Lex.left _ _ (Nat.sub_lt (List.length_pos_of_mem h) Nat.one_pos)
  · exact Prod.Lex.right _ (Nat.lt_succ_self _)

/-- The indices from which the roots can be computed, in the order of their first visit. -/
def reachable (t : Tape α) (roots : List Nat) : List Nat := t.visit (List.range t.size) roots

end Tape

def visitedName (k : Nat) : Text := Text.ofString "_" ++ Text.ofNat k

namespace Tape

def draft (t : Tape α) (primary : Option Nat) (secondary : List Nat) : Draft α :=
  let visited := t.reachable (primary.toList ++ secondary)
  let names : Std.HashMap Nat Text := .ofList (visited.zipIdx.map fun p => (p.1, visitedName p.2))
  let name (i : Nat) : Text := names.getD i []
  let found := visited.filterMap fun i => t.nodes[i]?.map (i, ·)
  { nodes := found.map fun p => (name p.1, p.2.op.literal)
    edges := found.flatMap fun p => p.2.edges.map fun e => ⟨name e.1, name p.1, .role e.2⟩
    primary := primary.map name
    secondary := secondary.map name
    numInputs := some t.numInputs }

def extract [Written α] (t : Tape α) (primary : Option Nat) (secondary : List Nat) :
    Except Fault (Graph α) :=
  (t.draft primary secondary).assemble

end Tape

def outputTape : List Handle → Except Violation Nat
  | [] => .error .noOutputs
  | h :: hs => if hs.all (·.tape == h.tape) then .ok h.tape else .error .mixedOutputs

/-- The graph of a primary output, which there may be, and any number of secondary ones. -/
def makeGraph [Written α] (primary : Option Handle) (secondary : List Handle) :
    Build α (Graph α) := do
  match outputTape (primary.toList ++ secondary) with
  | .error v => Build.violate v
  | .ok k =>
    let t := (← get).tape k
    let g ← Build.ofExcept (t.extract (primary.map (·.index)) (secondary.map (·.index)))
    Build.note (.extracted g.size g.edges.length g.primary g.secondary.length)
    return g

end ScalarGraph
