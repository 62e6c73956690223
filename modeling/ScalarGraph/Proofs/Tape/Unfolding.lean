import ScalarGraph.Proofs.Tape.Invariant
import ScalarGraph.Term

/-! # Unfoldings

Operands followed down to constants and inputs make a tree of every arena index. On a
consistent tape different indices have different trees, and no tree changes when the tape
grows, so a tree says what an index stands for without saying how the tape was built.
-/
namespace ScalarGraph
variable {α ι : Type}

def Node.term : Node α (Term α (Nat × α)) → Term α (Nat × α)
  | const v => .number v
  | input k s => .leaf (k, s)
  | unary o x => .unary o x
  | binary o x y => .binary o x y
  | select c t e => .select c t e
  | nary o xs => .nary o xs
  | debug l x => .debug l x

instance Term.inhabited {ν : Type} : Inhabited (Term α ν) := ⟨.nary .sum []⟩

theorem Node.term_injective {n m : Node α (Term α (Nat × α))} (h : n.term = m.term) : n = m := by
  cases n <;> cases m <;> simp_all [Node.term]

theorem Node.of_term_map_eq {κ : Type} {U : ι → Term α (Nat × α)} {V : κ → Term α (Nat × α)}
    {n : Node α ι} {m : Node α κ} (h : (n.map U).term = (m.map V).term) :
    n.op = m.op ∧ n.operands.map U = m.operands.map V := by
  have hnode : n.map U = m.map V := term_injective h
  constructor
  · rw [← op_map U n, hnode, op_map]
  · rw [← operands_map, hnode, operands_map]

variable [DecidableEq α] [Hashable α]

namespace Tape

/-- The tree of an arena index. An operand that does not stand before its user has none. -/
def unfolding (t : Tape α) (i : Nat) : Term α (Nat × α) :=
  match t.nodes[i]? with
  | some n => (n.map fun c => if c < i then t.unfolding c else default).term
  | none => default
termination_by i

variable {t u : Tape α}

theorem Valid.unfolding_eq (ht : t.Valid) {i : Nat} {n : Node α Nat} (hn : t.nodes[i]? = some n) :
    t.unfolding i = (n.map t.unfolding).term := by
  rw [unfolding, hn]
  dsimp only
  congr 1
  apply Node.map_congr
  intro c hc
  rw [if_pos (ht.operand_lt hn c hc)]

/-- Two indices with the same tree are the same index. -/
theorem Valid.unfolding_injective (ht : t.Valid) {i j : Nat} (hi : i < t.size) (hj : j < t.size)
    (h : t.unfolding i = t.unfolding j) : i = j := by
  induction i using Nat.strongRecOn generalizing j with
  | _ i ih =>
    obtain ⟨n, hn⟩ := exists_node hi
    obtain ⟨m, hm⟩ := exists_node hj
    rw [ht.unfolding_eq hn, ht.unfolding_eq hm] at h
    obtain ⟨hop, hoperands⟩ := Node.of_term_map_eq h
    have hsame : n.operands = m.operands := by
      apply eq_of_map_eq hoperands
      intro c hc d hd hcd
      have hci : c < i := ht.operand_lt hn c hc
      have hdj : d < j := ht.operand_lt hm d hd
      exact ih c hci (by omega) (by omega) hcd
    have hnode : n = m := Node.ext_operands hop hsame
    exact ht.index_unique hn (hnode ▸ hm)

theorem Valid.unfolding_eq_iff (ht : t.Valid) {i j : Nat} (hi : i < t.size) (hj : j < t.size) :
    t.unfolding i = t.unfolding j ↔ i = j := by
  constructor
  · exact ht.unfolding_injective hi hj
  · rintro rfl
    rfl

theorem Valid.of_unfolding_leaf (ht : t.Valid) {i : Nat} (hi : i < t.size)
    {j : Nat} {s : α} (h : t.unfolding i = .leaf (j, s)) : t.nodes[i]? = some (.input j s) := by
  obtain ⟨n, hn⟩ := exists_node hi
  rw [ht.unfolding_eq hn] at h
  cases n with
  | input l r =>
    cases h
    exact hn
  | _ => cases h

/-- What is appended later changes no tree. -/
theorem Extends.unfolding_eq (h : t.Extends u) (ht : t.Valid) (hu : u.Valid) {i : Nat}
    (hi : i < t.size) : u.unfolding i = t.unfolding i := by
  induction i using Nat.strongRecOn with
  | _ i ih =>
    obtain ⟨n, hn⟩ := exists_node hi
    rw [hu.unfolding_eq (h.getElem? hn), ht.unfolding_eq hn]
    congr 1
    apply Node.map_congr
    intro c hc
    have hci : c < i := ht.operand_lt hn c hc
    exact ih c hci (by omega)

end Tape
end ScalarGraph
