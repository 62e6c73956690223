import ScalarGraph.Session.Function

/-! # Expressions

What a step of a session is given in the place of a value. Parts are evaluated
from left to right, on the active tape.
-/
namespace ScalarGraph

/-- Operators between values of which one at least is a handle. -/
inductive Arithmetic where
  | unary (o : UnaryOp)
  | binary (o : BinaryOp)

inductive Expression where
  | value (v : Value)
  | list (es : List Expression)
  | slot (k : Int) (path : List Selector)
  | argument (i : Option Int)
  | call (f : Function) (args : List Expression)
  | arithmetic (o : Arithmetic) (args : List Expression)
  | ellipse (args : List Expression)
  | halfPlane (args : List Expression)

instance Expression.inhabited : Inhabited Expression := ⟨.value .nothing⟩

/-- What the names in an expression stand for. A step that failed has no result. -/
structure Scope where
  results : Array (Option Value) := #[]
  argument : Option Value := none
  switches : Value := .nothing

namespace Scope

def place? (s : Scope) (k : Int) : Option Nat := Value.place? s.results.size k

def result (s : Scope) (k : Int) : Except Fault Value :=
  match (s.place? k).bind (s.results[·]?) with
  | some (some v) => .ok v
  | some none => .error .skipped
  | none => .error .noSuchElement

def argumentAt (s : Scope) (i : Option Int) : Except Fault Value :=
  match s.argument, i with
  | some v, none => .ok v
  | some v, some i => v.index i
  | none, _ => .error .wrongType

end Scope

namespace Arithmetic

/-- An operator works on each entry of an array, unless a handle stands on its left. -/
def apply : Arithmetic → List Value → Build Float Value
  | unary o, [.handleVector hs] =>
    .handleVector <$> hs.mapM fun h => Function.handle (.unary o (.handle h))
  | unary o, [v] => Function.construct (.unary o v)
  | binary o, [v, w] => do
    if v.isSpreadOver w then
      let pairs ← Build.ofExcept (v.paired w)
      .handleVector <$> pairs.mapM fun p => Function.handle (.binary o p.1 p.2)
    else Function.construct (.binary o v w)
  | _, _ => throw .wrongType

end Arithmetic

namespace Expression

/-- Whether two expressions name one object. -/
def isSame (s : Scope) : Expression → Expression → Bool
  | slot k p, slot l q => s.place? k = s.place? l && p = q
  | argument i, argument j => i = j
  | _, _ => false

mutual
/-- Whether two expressions have equal values. Parts that name one object are equal. -/
def equal (s : Scope) : Expression → Value → Expression → Value → Except Fault Bool
  | list es, .list vs, list fs, .list ws =>
    if vs.length = ws.length then equalAll s es vs fs ws else .ok false
  | ellipse es, .ellipse a b c x y, ellipse fs, .ellipse a' b' c' x' y' =>
    equalAll s es [a, b, c, x, y] fs [a', b', c', x', y']
  | halfPlane es, .halfPlane a b c, halfPlane fs, .halfPlane a' b' c' =>
    equalAll s es [a, b, c] fs [a', b', c']
  | _, v, _, w => v.equals w

def equalAll (s : Scope) : List Expression → List Value → List Expression → List Value →
    Except Fault Bool
  | e :: es, v :: vs, f :: fs, w :: ws => do
    let first ← if e.isSame s f then pure true else equal s e v f w
    if first then equalAll s es vs fs ws else return false
  | _, _, _, _ => .ok true
end

def ellipseOf : List Value → Build Float Value
  | [a, b, c, x, y] => return .ellipse a b c x y
  | _ => throw .wrongType

def halfPlaneOf : List Value → Build Float Value
  | [a, b, c] => return .halfPlane a b c
  | _ => throw .wrongType

mutual
def eval (s : Scope) : Expression → Build Float Value
  | value v => return v
  | list es => do return .list (← evalAll s es)
  | slot k path => do
    let w ← get
    Build.ofExcept do path.foldlM (Value.select w) (← s.result k)
  | argument i => Build.ofExcept (s.argumentAt i)
  | call f args => do f.apply (← evalAll s args)
  | arithmetic o args => do o.apply (← evalAll s args)
  | ellipse args => do ellipseOf (← evalAll s args)
  | halfPlane args => do halfPlaneOf (← evalAll s args)

def evalAll (s : Scope) : List Expression → Build Float (List Value)
  | [] => return []
  | e :: es => do
    let v ← eval s e
    let vs ← evalAll s es
    return v :: vs
end

end Expression
end ScalarGraph
