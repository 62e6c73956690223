import Std.Data.HashMap

/-! # Topological order

Identifiers are listed so that the source of every edge stands before its
target. Those without open edges wait in a queue, first come first served; each
one that leaves the queue closes its edges, and a target whose last open edge is
closed joins the queue. What never joins it lies on a cycle or behind one.
-/
namespace ScalarGraph.Order
variable {ι : Type} [BEq ι] [Hashable ι]

/-- Why there is no order. -/
inductive Defect (ι : Type) where
  | unlistedTarget
  | cycle (stuck : List ι)

abbrev Degrees (ι : Type) [BEq ι] [Hashable ι] := Std.HashMap ι Nat

def unconnected (ids : List ι) : Degrees ι := ids.foldl (fun d x => d.insert x 0) {}

/-- One more edge to `x`; `none` where `x` is not listed. -/
def Degrees.opened (d : Degrees ι) (x : ι) : Option (Degrees ι) :=
  (d[x]?).map fun k => d.insert x (k + 1)

/-- The open edges before any is closed. -/
def degrees (ids : List ι) (edges : List (ι × ι)) : Option (Degrees ι) :=
  edges.foldlM (fun d e => d.opened e.2) (unconnected ids)

/-- The targets of the edges from each source, in the order of the edges. -/
def successors (edges : List (ι × ι)) : Std.HashMap ι (List ι) :=
  edges.foldr (fun e m => m.insert e.1 (e.2 :: m.getD e.1 [])) {}

/-- Closes one edge to each of the targets and lists those that have none left. -/
def close (d : Degrees ι) : List ι → Degrees ι × List ι
  | [] => (d, [])
  | x :: xs =>
    match d[x]? with
    | some (k + 1) =>
      let (d, released) := close (d.insert x k) xs
      (d, if k = 0 then x :: released else released)
    | _ => close d xs

/-- Serves the queue. Every identifier joins it at most once, which bounds the fuel. -/
def serve (next : Std.HashMap ι (List ι)) : Nat → Degrees ι → List ι → Degrees ι × List ι
  | 0, d, _ => (d, [])
  | _ + 1, d, [] => (d, [])
  | fuel + 1, d, x :: queue =>
    let (d, released) := close d (next.getD x [])
    let (d, rest) := serve next fuel d (queue ++ released)
    (d, x :: rest)

/-- The topological order of `ids`, with ties as the queue decides them. -/
def sort (ids : List ι) (edges : List (ι × ι)) : Except (Defect ι) (List ι) :=
  match degrees ids edges with
  | none => .error .unlistedTarget
  | some d =>
    let free := ids.filter fun x => d.getD x 0 == 0
    let (left, order) := serve (successors edges) (free.length + ids.length) d free
    if order.length = d.size then .ok order
    else .error (.cycle (ids.eraseDups.filter fun x => left.getD x 0 != 0))

end ScalarGraph.Order
