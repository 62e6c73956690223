import ScalarGraph.Value.Vector

/-! # Equality of values

Numbers of all kinds are compared by value, lists item by item, tables and the
nodes of graphs by their keys. An array is compared entry by entry with anything
else, which has an answer only where that is a single comparison.
-/
namespace ScalarGraph

/-- Whether two numbers of graphs are equal; there what is not a number equals its like. -/
def Numeral.alike (m n : Numeral) : Bool := m.equals n || (m.isNaN && n.isNaN)

def Op.equals : Op Numeral → Op Numeral → Bool
  | .const v, .const w => v.alike w
  | .input i s, .input j t => i == j && s.alike t
  | .unary o, .unary p => o = p
  | .binary o, .binary p => o = p
  | .select, .select => true
  | .nary o, .nary p => o = p
  | .debug l, .debug k => l == k
  | _, _ => false

/-- Whether two graphs have the same nodes, in any order, and agree in all else. -/
def Graph.equals (g h : Graph Numeral) : Bool :=
  let nodes : Std.HashMap Text (Node Numeral Text) := .ofList h.nodes
  g.size == h.size &&
    g.nodes.all (fun p => nodes[p.1]?.any fun n => p.2.op.equals n.op) &&
    g.edges = h.edges && g.order = h.order && g.primary = h.primary &&
    g.secondary = h.secondary && g.numInputs = h.numInputs

namespace Value

def isArray : Value → Bool
  | vector _ | handleVector _ => true
  | _ => false

/-- Whether something between two values is done entry by entry. -/
def isSpreadOver : Value → Value → Bool
  | handle _, _ => false
  | entry _, list _ | list _, entry _ => true
  | v, w => v.isArray || w.isArray

def equalsLeaf (v w : Value) : Bool :=
  match v, w with
  | handle h, handle k => h = k
  | v, w =>
    match v.numeral?, w.numeral? with
    | some m, some n => m.equals n
    | _, _ => false

def equalsArray (v w : Value) : Except Fault Bool :=
  match v.shape, w.shape, v.leaves, w.leaves with
  | some _, some _, [a], [b] => .ok (equalsLeaf a b)
  | _, _, _, _ => .error .badValue

def equalsOutputs (o p : Outputs Float) : Except Fault Bool := do
  let primary := match o.primary, p.primary with
    | some x, some y => x == y
    | none, none => true
    | _, _ => false
  if !primary then return false
  if !(← equalsArray (vector o.gradient.toList) (vector p.gradient.toList)) then return false
  equalsArray (vector o.secondary) (vector p.secondary)

mutual
def equals (v w : Value) : Except Fault Bool :=
  if v.isSpreadOver w then equalsArray v w
  else
    match v, w with
    | nothing, nothing => .ok true
    | text t, text u => .ok (t == u)
    | list vs, list ws => if vs.length = ws.length then equalsAll vs ws else .ok false
    | ellipse a b c x y, ellipse a' b' c' x' y' => do
      if !(← equals a a') then return false
      if !(← equals b b') then return false
      if !(← equals c c') then return false
      if !(← equals x x') then return false
      equals y y'
    | halfPlane a b c, halfPlane a' b' c' => do
      if !(← equals a a') then return false
      if !(← equals b b') then return false
      equals c c'
    | graph g, graph h => .ok (g.equals h)
    | outputs o, outputs p => equalsOutputs o p
    | table fs, table gs => if fs.length = gs.length then equalsFields fs gs else .ok false
    | v, w => .ok (equalsLeaf v w)

def equalsAll : List Value → List Value → Except Fault Bool
  | v :: vs, w :: ws => do
    if !(← equals v w) then return false
    equalsAll vs ws
  | _, _ => .ok true

def equalsFields : List (Text × Value) → List (Text × Value) → Except Fault Bool
  | (k, v) :: fs, gs => do
    match gs.lookup k with
    | some w =>
      if !(← equals v w) then return false
      equalsFields fs gs
    | none => return false
  | [], _ => .ok true
end

/-- Whether a value equals itself. What has parts does, whatever its parts are. -/
def equalsItself (v : Value) : Except Fault Bool :=
  match v.numeral? with
  | some n => .ok (n.equals n)
  | none => if v.isArray then equalsArray v v else .ok true

end Value
end ScalarGraph
