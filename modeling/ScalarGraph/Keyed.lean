/-! # Lists with keys

Pairs in the order in which their keys first appeared.
-/
namespace ScalarGraph.Keyed
variable {κ ν : Type} [DecidableEq κ]

/-- Sets the value of a key, in its first position where the key is there already. -/
def put (k : κ) (v : ν) : List (κ × ν) → List (κ × ν)
  | [] => [(k, v)]
  | p :: ps => if p.1 = k then (k, v) :: ps else p :: put k v ps

/-- The pairs of a list in which a later value of a key replaces the earlier one. -/
def ofList (ps : List (κ × ν)) : List (κ × ν) := ps.foldl (fun qs p => put p.1 p.2 qs) []

def counts (ks : List κ) : List (κ × Nat) :=
  ks.foldl (fun ps k => put k ((ps.lookup k).getD 0 + 1) ps) []

end ScalarGraph.Keyed
