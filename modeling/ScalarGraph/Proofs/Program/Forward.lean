import ScalarGraph.Proofs.Program.Compile

/-! # What the forward sweep computes

When the sweep comes to a slot it has the values of all earlier ones, and the operands
of the slot are among these. So it ends with the values that solve the equations of the
program's nodes, whatever the rules are.
-/
namespace ScalarGraph
variable {α : Type}

def valuesBelow (V : Nat → α) (n : Nat) : Array α := (Array.range n).map V

theorem valuesBelow_succ (V : Nat → α) (n : Nat) :
    valuesBelow V (n + 1) = (valuesBelow V n).push (V n) := by
  simp [valuesBelow, Array.range_succ]

theorem getElem?_valuesBelow {V : Nat → α} {n s : Nat} (h : s < n) :
    (valuesBelow V n)[s]? = some (V s) := by
  simp [valuesBelow, h]

namespace Program
variable {p : Program α} {R : Rules α} {xs : Array α} {V : Nat → α}

theorem mapM_valuesBelow {n : Node α Nat} {k : Nat} (hn : ∀ c ∈ n.operands, c < k) :
    n.mapM (fun c => (valuesBelow V k)[c]?) = some (n.map V) :=
  Node.mapM_eq_some fun c hc => getElem?_valuesBelow (hn c hc)

theorem forwardStep_eq (hp : p.Topological) (hV : p.net.Evaluates R xs V) {s : Nat}
    {n : Node α Nat} (hn : p.net s n) :
    forwardStep R xs (valuesBelow V s) n = some (valuesBelow V (s + 1)) := by
  have hread : n.mapM (fun c => (valuesBelow V s)[c]?) = some (n.map V) :=
    mapM_valuesBelow (hp hn)
  simp only [forwardStep, hread]
  rw [valuesBelow_succ, hV s n hn]
  rfl

theorem foldlM_forwardStep (hp : p.Topological) (hV : p.net.Evaluates R xs V)
    (done rest : List (Node α Nat)) (h : p.code.toList = done ++ rest) :
    rest.foldlM (forwardStep R xs) (valuesBelow V done.length) =
      some (valuesBelow V p.code.size) := by
  induction rest generalizing done with
  | nil =>
    have hsize : p.code.size = done.length := by simp [← Array.length_toList, h]
    rw [hsize]
    rfl
  | cons n rest ih =>
    have hn : p.net done.length n := by simp [net, ← Array.getElem?_toList, h]
    have hnext := ih (done ++ [n]) (by simp [h])
    rw [List.length_append, List.length_singleton] at hnext
    rw [List.foldlM_cons, forwardStep_eq hp hV hn]
    exact hnext

/-- The forward sweep computes the values that solve the equations of the nodes. -/
theorem forward_eq (hp : p.Topological) (hV : p.net.Evaluates R xs V) :
    p.forward R xs = some (valuesBelow V p.code.size) := by
  have hrun := foldlM_forwardStep hp hV [] p.code.toList rfl
  have hempty : valuesBelow V 0 = #[] := by simp [valuesBelow]
  rw [List.length_nil, hempty] at hrun
  rw [forward, ← Array.foldlM_toList]
  exact hrun

end Program
end ScalarGraph
