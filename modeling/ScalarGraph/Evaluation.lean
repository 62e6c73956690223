import ScalarGraph.Program

/-! # Evaluation

Compiling and calling programs from a workspace, which keeps the log of it.
-/
namespace ScalarGraph
variable {α : Type} [DecidableEq α] [Hashable α]

namespace Graph

def compile (g : Graph α) (settings : Option Settings) : Build α (Program α) := do
  match g.compile? (settings.getD (← get).settings) with
  | none => throw .noSuchKey
  | some p =>
    Build.note (.compiled p.code.size p.gradientPath.length p.secondary.length)
    return p

end Graph

namespace Program

/-- A gradient has less entries than this. -/
def lengthLimit : Nat := 1152921504606846976

/-- The events of a forward sweep, one for each debug node where these are logged. -/
def debugEvents (p : Program α) (values : Array α) : List (Event α) :=
  if p.settings.logDebugNodes then
    (p.ids.zip (p.code.toList.zip values.toList)).filterMap fun (id, n, v) =>
      match n with
      | .debug label _ => some (.debugged id label v)
      | _ => none
  else []

def sweep (p : Program α) (R : Rules α) (xs : Array α) : Build α (Array α) := do
  match p.forward R xs with
  | none => throw .wrongType
  | some values =>
    (p.debugEvents values).forM Build.note
    return values

def call (p : Program α) (C : Calculus α) (xs : Array α) : Build α (Outputs α) := do
  let values ← p.sweep C.rules xs
  if lengthLimit ≤ p.gradientLength xs.size then throw .badValue
  match p.outputs C values xs.size with
  | none => throw .noSuchElement
  | some out =>
    if let some v := out.primary then
      if p.settings.warnNonFinite && !C.isFinite v then Build.note (.notFinite v)
    return out

def nodeTable (p : Program α) (R : Rules α) (xs : Array α) : Build α (List (Text × α)) := do
  return p.ids.zip (← p.sweep R xs).toList

end Program
end ScalarGraph
