import ScalarGraph.Proofs.Tape.Settled

/-! # What folding constants keeps

A settled tree means the same as the tree itself in every way in which folded constants keep their
meaning, and settling it again changes nothing. So the nodes of a net mean what their trees do,
settled or not.
-/
namespace ScalarGraph
variable {α β ι : Type}

namespace Term

mutual
theorem node_induction {P : Term α (Nat × α) → Prop}
    (h : ∀ n : Node α (Term α (Nat × α)), (∀ e ∈ n.operands, P e) → P n.term) : ∀ e, P e
  | leaf p => h (.input p.1 p.2) (by simp [Node.operands])
  | number x => h (.const x) (by simp [Node.operands])
  | unary o t => h (.unary o t) (by simpa [Node.operands] using node_induction h t)
  | binary o t u =>
    h (.binary o t u) (by simpa [Node.operands] using ⟨node_induction h t, node_induction h u⟩)
  | select c t e =>
    h (.select c t e) (by
      simpa [Node.operands] using ⟨node_induction h c, node_induction h t, node_induction h e⟩)
  | nary o ts => h (.nary o ts) (node_inductionAll h ts)
  | debug l t => h (.debug l t) (by simpa [Node.operands] using node_induction h t)

theorem node_inductionAll {P : Term α (Nat × α) → Prop}
    (h : ∀ n : Node α (Term α (Nat × α)), (∀ e ∈ n.operands, P e) → P n.term) :
    ∀ ts : List (Term α (Nat × α)), ∀ e ∈ ts, P e
  | [] => by simp
  | t :: ts => List.forall_mem_cons.mpr ⟨node_induction h t, node_inductionAll h ts⟩
end

/-- What a tree means where the leaves mean what inputs do. -/
def meaning (f : Node α β → β) (e : Term α (Nat × α)) : β :=
  e.fold f fun p => f (.input p.1 p.2)

theorem meaning_term (f : Node α β → β) (n : Node α (Term α (Nat × α))) :
    n.term.meaning f = f (n.map (meaning f)) := by
  cases n with
  | nary o ts =>
    unfold meaning
    rw [Node.term, fold, folds_eq_map]
    rfl
  | _ => rfl

theorem eq_number_of_number? {ν : Type} {e : Term α ν} {x : α} (h : e.number? = some x) :
    e = .number x := by
  cases e <;> cases h
  rfl

theorem settled_terminal (R : Rules α) {n : Node α (Term α (Nat × α))}
    (hop : n.op.isTerminal = true) : n.term.settled R = n.term := by
  cases n with
  | const v => rfl
  | input k s => rfl
  | _ => cases hop

/-- Settling folds constants only, so it keeps every meaning that constants keep. -/
theorem meaning_settled {R : Rules α} {f : Node α β → β} (hf : R.Folds f) (e : Term α (Nat × α)) :
    (e.settled R).meaning f = e.meaning f := by
  induction e using node_induction with
  | _ n ih =>
    cases hop : n.op.isTerminal with
    | true => rw [settled_terminal R hop]
    | false =>
      have hoperands : (n.map (settled R)).map (meaning f) = n.map (meaning f) := by
        rw [Node.map_map]
        exact Node.map_congr ih
      rw [settled_term R hop, meaning_term, ← hoperands]
      cases hm : (n.map (settled R)).mapM number? with
      | none => rw [Node.settled, hm, meaning_term]
      | some m =>
        have hnumbers : (n.map (settled R)).map (meaning f) = m.map fun x => f (.const x) :=
          Node.map_eq_of_mapM_eq_some hm fun t _ x ht => by
            rw [eq_number_of_number? ht]
            rfl
        have hmop : m.op.isTerminal = false := by
          rw [(Node.of_mapM_eq_some hm).1, Node.op_map, hop]
        rw [Node.settled, hm, hnumbers, hf m hmop]
        rfl

theorem settled_of_number?_eq_none (R : Rules α) {n : Node α (Term α (Nat × α))}
    (hop : n.op.isTerminal = false) (hn : ∀ e ∈ n.operands, e.settled R = e)
    (hnone : n.mapM number? = none) : n.term.settled R = n.term := by
  rw [settled_term R hop, Node.map_eq_self hn, Node.settled, hnone]

/-- Settling leaves nothing to settle, whatever the rules are. -/
theorem settled_settled (R R' : Rules α) (e : Term α (Nat × α)) :
    (e.settled R).settled R' = e.settled R := by
  induction e using node_induction with
  | _ n ih =>
    cases hop : n.op.isTerminal with
    | true => rw [settled_terminal R hop, settled_terminal R' hop]
    | false =>
      rw [settled_term R hop]
      cases hm : (n.map (settled R)).mapM number? with
      | some m =>
        rw [Node.settled, hm]
        rfl
      | none =>
        rw [Node.settled, hm]
        apply settled_of_number?_eq_none R' _ _ hm
        · rw [Node.op_map, hop]
        · rw [Node.operands_map, List.forall_mem_map]
          exact ih

end Term

theorem Net.Solves.eq_meaning {N : Net α ι} {rank : ι → Nat} (hN : N.Ranked rank)
    (hclosed : ∀ {i n}, N i n → ∀ c ∈ n.operands, ∃ m, N c m) {f : Node α β → β} {V : ι → β}
    (hV : N.Solves f V) {U : ι → Term α (Nat × α)} (hU : N.Solves Node.term U) :
    ∀ i n, N i n → V i = (U i).meaning f := by
  intro i n hn
  induction hrank : rank i using Nat.strongRecOn generalizing i n with
  | _ _ ih =>
    subst hrank
    rw [hV i n hn, hU i n hn, Term.meaning_term, Node.map_map]
    congr 1
    apply Node.map_congr
    intro c hc
    obtain ⟨m, hm⟩ := hclosed hn c hc
    exact ih (rank c) (hN.operand_lt hn c hc) c m hm rfl

end ScalarGraph
