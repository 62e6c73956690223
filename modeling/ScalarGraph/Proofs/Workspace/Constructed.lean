import ScalarGraph.Proofs.Construct
import ScalarGraph.Proofs.Term.Folding

/-! # Tapes grown by constructors

Nodes that are pushed are not settled, but constructors leave no operator all of whose operands are
constants. On a tape that only constructors were called for, the trees of all indices are settled.
-/
namespace ScalarGraph
variable {α : Type} [DecidableEq α] [Hashable α]

namespace Tape
variable {t u : Tape α}

/-- Every operator on the tape has an operand that is no constant. -/
def Folded (t : Tape α) : Prop :=
  ∀ (i : Nat) (n : Node α Nat),
    t.nodes[i]? = some n → n.op.isTerminal = false → n.mapM t.constant? = none

theorem Folded.empty : (Tape.empty : Tape α).Folded := by
  intro i n hn
  simp [Tape.empty] at hn

theorem Extends.constant?_eq (h : t.Extends u) {i : Nat} (hi : i < t.size) :
    u.constant? i = t.constant? i := by
  obtain ⟨n, hn⟩ := exists_node hi
  rw [constant?, constant?, hn, h.getElem? hn]

theorem Extends.mapM_constant?_eq (h : t.Extends u) {n : Node α Nat}
    (hn : ∀ c ∈ n.operands, c < t.size) : n.mapM u.constant? = n.mapM t.constant? :=
  Node.mapM_congr fun c hc => h.constant?_eq (hn c hc)

theorem Folded.provides (h : t.Folded) (ht : t.Valid) {n : Node α Nat} {r : Tape α × Nat}
    (hr : t.Provides n r) (hlt : ∀ c ∈ n.operands, c < t.size)
    (hn : n.op.isTerminal = false → n.mapM t.constant? = none) : r.1.Folded := by
  intro i m hm hop
  rcases hr.node_cases hm with hold | rfl
  · have hoperands : ∀ c ∈ m.operands, c < t.size := fun c hc =>
      Nat.lt_trans (ht.operand_lt hold c hc) (lt_size hold)
    rw [hr.extends.mapM_constant?_eq hoperands]
    exact h i m hold hop
  · rw [hr.extends.mapM_constant?_eq hlt]
    exact hn hop

theorem Folded.provides_terminal (h : t.Folded) (ht : t.Valid) {n : Node α Nat} {r : Tape α × Nat}
    (hr : t.Provides n r) (hn : n.op.isTerminal = true) : r.1.Folded := by
  refine h.provides ht hr ?_ ?_
  · rw [Node.operands_of_isTerminal hn]
    simp
  · intro hop
    rw [hn] at hop
    cases hop

theorem Folded.settle (h : t.Folded) (ht : t.Valid) (R : Rules α) {n : Node α Nat}
    (hop : n.op.isTerminal = false) (hn : ∀ c ∈ n.operands, c < t.size) :
    (t.settle R n).1.Folded := by
  rcases ht.provides_settle R (Node.position?_of_not_isTerminal hop) hn with ⟨m, -, hr⟩ | ⟨hnone, hr⟩
  · exact h.provides_terminal ht hr rfl
  · exact h.provides ht hr hn fun _ => hnone

/-- On a folded tape there is nothing left to settle, whatever the rules are. -/
theorem Folded.settled_unfolding (h : t.Folded) (ht : t.Valid) (R : Rules α) {i : Nat}
    (hi : i < t.size) : (t.unfolding i).settled R = t.unfolding i := by
  induction i using Nat.strongRecOn with
  | _ i ih =>
    obtain ⟨n, hn⟩ := exists_node hi
    have hlt : ∀ c ∈ n.operands, c < t.size := fun c hc =>
      Nat.lt_trans (ht.operand_lt hn c hc) hi
    rw [ht.unfolding_eq hn]
    cases hop : n.op.isTerminal with
    | true => exact Term.settled_terminal R (by rw [Node.op_map, hop])
    | false =>
      apply Term.settled_of_number?_eq_none
      · rw [Node.op_map, hop]
      · rw [Node.operands_map, List.forall_mem_map]
        exact fun c hc => ih c (ht.operand_lt hn c hc) (hlt c hc)
      · rw [Node.mapM_map, ← h i n hn hop]
        exact Node.mapM_congr fun c hc => ht.number?_unfolding (hlt c hc)

end Tape

theorem run_sharedTape_snd (xs : List (Operand α)) (w : Workspace α) :
    ((sharedTape xs).run w).2 = w := by
  unfold sharedTape
  split
  · rfl
  · split <;> rfl

structure Workspace.FoldedAt (k : Nat) (w : Workspace α) : Prop where
  ready : w.Ready
  folded : (w.tape k).Folded

namespace Workspace.FoldedAt
variable {w : Workspace α} {k j : Nat}

theorem onTape (h : w.FoldedAt k) (hj : j < w.tapes.size) {f : Tape α → Tape α × Nat}
    {n : Node α Nat} (hn : (w.tape j).Provides n (f (w.tape j)))
    (hfolded : (w.tape j).Folded → (f (w.tape j)).1.Folded) : (w.onTape j f).1.FoldedAt k where
  ready := h.ready.onTape hj hn
  folded := by
    by_cases hjk : k = j
    · subst hjk
      rw [tape_onTape hj]
      exact hfolded h.folded
    · rw [tape_onTape_ne hjk]
      exact h.folded

theorem promote (h : w.FoldedAt k) (hj : j < w.tapes.size) (x : Operand α) :
    ((x.promote j).run w).2.FoldedAt k := by
  cases x with
  | handle y => exact h
  | unfit e => exact h
  | number a =>
    have hprovides := (h.ready.valid j).provides_const a
    refine h.onTape (f := (·.const a)) hj hprovides fun hfolded => ?_
    exact hfolded.provides_terminal (h.ready.valid j) hprovides rfl

/-- Constants that were made for the operands before an unfit one stay. -/
theorem promoteAll (h : w.FoldedAt k) (hj : j < w.tapes.size) {xs : List (Operand α)}
    (hxs : ∀ x ∈ xs, x.On w) (htape : ∀ y, .handle y ∈ xs → y.tape = j) :
    ((xs.mapM (Operand.promote j)).run w).2.FoldedAt k := by
  induction xs generalizing w with
  | nil => exact h
  | cons x xs ih =>
    rw [List.mapM_cons]
    refine Build.run_bind_induction (h.promote hj x) fun i v hrun => ?_
    have hx := safe_promote (f := fun _ => ()) h.ready hj (hxs x List.mem_cons_self)
      fun y hy => htape y (hy ▸ List.mem_cons_self)
    have hv := h.promote hj x
    have hgrows := hx.grows
    rw [hrun] at hv hgrows
    have hrest := ih hv (by rwa [hgrows.size_eq])
      (fun y hy => (hxs y (List.mem_cons_of_mem _ hy)).grows hgrows)
      fun y hy => htape y (List.mem_cons_of_mem _ hy)
    exact Build.run_bind_induction hrest fun is u hrun' => by
      rwa [hrun'] at hrest

/-- A constructor settles its node, whether it succeeds or not. -/
theorem construct (h : w.FoldedAt k) (R : Rules α) {n : Node α (Operand α)}
    (hop : n.op.isTerminal = false) (hn : ∀ x ∈ n.operands, x.On w) :
    ((construct R n).run w).2.FoldedAt k := by
  unfold ScalarGraph.construct
  refine Build.run_bind_induction (by rwa [run_sharedTape_snd]) fun j v hrun => ?_
  have hv : v = w := by
    have hstate := run_sharedTape_snd n.operands w
    rwa [hrun] at hstate
  obtain ⟨-, htape, hshared⟩ := (safe_sharedTape h.ready n.operands).of_ok j (by rw [hrun])
  subst hv
  have hj : j < v.tapes.size := by
    rcases hshared with rfl | ⟨y, hy, rfl⟩
    · exact h.ready.active_lt
    · exact (hn _ hy y rfl).1
  have hsafe := (safe_promoteAll (f := fun _ => ()) h.ready hj hn htape).mapM
  have hpromoted : ((n.mapM (Operand.promote j)).run v).2.FoldedAt k := by
    rw [(Build.run_some_mapM _ n v).2]
    exact h.promoteAll hj hn htape
  refine Build.run_bind_induction hpromoted fun m u hrun' => ?_
  have hgrows := hsafe.grows
  obtain ⟨hm, hlt, -⟩ := hsafe.of_ok m (by rw [hrun'])
  rw [hrun'] at hpromoted hgrows hlt
  have hju : j < u.tapes.size := by rwa [hgrows.size_eq]
  have hmop : m.op.isTerminal = false := by rw [hm, hop]
  have hvalid := hpromoted.ready.valid j
  obtain ⟨a, -, hprovides⟩ := hvalid.exists_provides_settle R hmop hlt
  exact hpromoted.onTape (f := (·.settle R m)) hju hprovides fun hfolded =>
    hfolded.settle hvalid R hmop hlt

end Workspace.FoldedAt

/-- The workspaces whose tape `k` was grown by constructors only, some of which may have failed. All
else may happen in between that leaves this tape as it is and the other ones consistent: tapes are
added, activated and pushed to, graphs are extracted, settings change. -/
inductive Workspace.Constructed [Written α] (R : Rules α) (k : Nat) : Workspace α → Prop where
  | start : Constructed R k {}
  | constant {w : Workspace α} (hw : Constructed R k w) (x : α) :
      Constructed R k ((makeConst x).run w).2
  | input {w : Workspace α} (hw : Constructed R k w) (p : Option Int) (s : α) :
      Constructed R k ((makeInput p s).run w).2
  | construct {w : Workspace α} (hw : Constructed R k w) {n : Node α (Operand α)}
      (hop : n.op.isTerminal = false) (hn : ∀ x ∈ n.operands, x.On w) :
      Constructed R k ((construct R n).run w).2
  | elsewhere {w v : Workspace α} (hw : Constructed R k w) (hv : v.Ready)
      (htape : v.tape k = w.tape k) : Constructed R k v

variable [Written α] {R : Rules α} {k : Nat} {w : Workspace α}

theorem Workspace.Constructed.foldedAt (hw : w.Constructed R k) : w.FoldedAt k := by
  induction hw with
  | start =>
    refine ⟨ready_start, ?_⟩
    cases k <;> exact Tape.Folded.empty
  | @constant w _ x ih =>
    have hvalid := ih.ready.valid w.active
    have hprovides := hvalid.provides_const x
    rw [run_makeConst]
    exact ih.onTape ih.ready.active_lt (f := (·.const x)) hprovides fun hfolded =>
      hfolded.provides_terminal hvalid hprovides rfl
  | @input w _ p s ih =>
    have hvalid := ih.ready.valid w.active
    cases hd : (w.tape w.active).declare p s with
    | error v => rwa [run_makeInput_error ih.ready.active_lt hd]
    | ok r =>
      have hprovides := hvalid.provides_declare hd
      rw [run_makeInput_ok hd]
      exact ih.onTape ih.ready.active_lt (f := fun _ => r) hprovides fun hfolded =>
        hfolded.provides_terminal hvalid hprovides rfl
  | construct _ hop hn ih => exact ih.construct R hop hn
  | elsewhere _ hv htape ih => exact ⟨hv, htape ▸ ih.folded⟩

end ScalarGraph
