import ScalarGraph.Proofs.Tape.Unfolding
import ScalarGraph.Proofs.Term.Meaning

/-! # Settled terms

Constructors settle every operator over constants as a constant. A term that is settled in the
same way is the tree of the index that building the term gives, on every tape. Where a tape has
an index with the tree of a node that is asked for, it gives that index and stays as it is.
-/
namespace ScalarGraph
variable {α : Type}

def Term.number? {ν : Type} : Term α ν → Option α
  | number x => some x
  | _ => none

def Node.settled (R : Rules α) (n : Node α (Term α (Nat × α))) : Term α (Nat × α) :=
  match n.mapM Term.number? with
  | some m => .number (m.value R #[])
  | none => n.term

namespace Term

def settled (R : Rules α) (e : Term α (Nat × α)) : Term α (Nat × α) :=
  e.fold (Node.settled R) .leaf

theorem folds_eq_map {β ν : Type} (f : Node α β → β) (leafMeaning : ν → β) (ts : List (Term α ν)) :
    folds f leafMeaning ts = ts.map (fold f leafMeaning) := by
  induction ts with
  | nil => rfl
  | cons t ts ih => rw [folds, ih, List.map_cons]

theorem settled_term (R : Rules α) {n : Node α (Term α (Nat × α))} (hop : n.op.isTerminal = false) :
    n.term.settled R = (n.map (settled R)).settled R := by
  cases n with
  | const v => cases hop
  | input k s => cases hop
  | nary o ts =>
    unfold settled
    rw [Node.term, fold, folds_eq_map, Node.map]
  | unary o t => rfl
  | binary o t u => rfl
  | select c t e => rfl
  | debug l t => rfl

def HasPart : Term α (Nat × α) → Term α (Nat × α) → Prop :=
  Relation.ReflTransGen fun e p => ∃ n : Node α (Term α (Nat × α)), n.term = e ∧ p ∈ n.operands

theorem HasPart.trans {e p q : Term α (Nat × α)} (h : e.HasPart p) (h' : p.HasPart q) :
    e.HasPart q :=
  Relation.ReflTransGen.trans h h'

theorem hasPart_operand {n : Node α (Term α (Nat × α))} {p : Term α (Nat × α)}
    (hp : p ∈ n.operands) : n.term.HasPart p :=
  Relation.ReflTransGen.single ⟨n, rfl, hp⟩

theorem HasPart.cases_term {n : Node α (Term α (Nat × α))} {p : Term α (Nat × α)}
    (h : n.term.HasPart p) : p = n.term ∨ ∃ e ∈ n.operands, e.HasPart p := by
  rcases Relation.ReflTransGen.cases_head h with he | ⟨e, ⟨m, hm, he⟩, hep⟩
  · exact .inl he.symm
  · rw [Node.term_injective hm] at he
    exact .inr ⟨e, he, hep⟩

end Term

variable [DecidableEq α] [Hashable α]

namespace Tape
variable {t u : Tape α} {R : Rules α}

theorem Valid.number?_unfolding (ht : t.Valid) {i : Nat} (hi : i < t.size) :
    (t.unfolding i).number? = t.constant? i := by
  obtain ⟨n, hn⟩ := exists_node hi
  rw [ht.unfolding_eq hn, constant?, hn]
  cases n <;> rfl

theorem Valid.unfolding_settle (ht : t.Valid) {n : Node α Nat} (hop : n.op.isTerminal = false)
    (hn : ∀ c ∈ n.operands, c < t.size) :
    (t.settle R n).1.unfolding (t.settle R n).2 = (n.map t.unfolding).settled R := by
  have hnumbers : (n.map t.unfolding).mapM Term.number? = n.mapM t.constant? := by
    rw [Node.mapM_map]
    apply Node.mapM_congr
    intro c hc
    exact ht.number?_unfolding (hn c hc)
  rcases ht.provides_settle R (Node.position?_of_not_isTerminal hop) hn with ⟨m, hm, hr⟩ | ⟨hnone, hr⟩
  · rw [hr.valid.unfolding_eq hr.node, Node.settled, hnumbers, hm]
    rfl
  · have hsame : n.map (t.settle R n).1.unfolding = n.map t.unfolding := by
      apply Node.map_congr
      intro c hc
      exact hr.extends.unfolding_eq ht hr.valid (hn c hc)
    rw [hr.valid.unfolding_eq hr.node, Node.settled, hnumbers, hnone, hsame]

/-- An operation that asks for a node whose tree an index has gives that index and changes nothing. -/
theorem Provides.eq_of_unfolding {n : Node α Nat} {r : Tape α × Nat} (h : t.Provides n r)
    (ht : t.Valid) {i : Nat} (hi : i < t.size) (hu : r.1.unfolding r.2 = t.unfolding i) :
    r = (t, i) := by
  have hir : i < r.1.size := Nat.lt_of_lt_of_le hi h.extends.size_le
  have hsame : r.2 = i := by
    apply h.valid.unfolding_injective h.lt_size hir
    rw [hu, h.extends.unfolding_eq ht h.valid hi]
  rcases h.found_or_appended with hfound | ⟨-, hnew⟩
  · exact Prod.ext hfound hsame
  · omega

/-- Every part of a term has an index with its settled tree. -/
def Holds (R : Rules α) (t : Tape α) (e : Term α (Nat × α)) : Prop :=
  ∀ p, e.HasPart p → ∃ i < t.size, t.unfolding i = p.settled R

theorem Holds.part {e p : Term α (Nat × α)} (h : t.Holds R e) (hp : e.HasPart p) : t.Holds R p :=
  fun q hq => h q (hp.trans hq)

theorem Holds.extends {e : Term α (Nat × α)} (h : t.Holds R e) (htu : t.Extends u) (ht : t.Valid)
    (hu : u.Valid) : u.Holds R e := by
  intro p hp
  obtain ⟨i, hi, hip⟩ := h p hp
  refine ⟨i, Nat.lt_of_lt_of_le hi htu.size_le, ?_⟩
  rw [htu.unfolding_eq ht hu hi, hip]

theorem Holds.term {n : Node α (Term α (Nat × α))} (hoperands : ∀ e ∈ n.operands, t.Holds R e)
    {i : Nat} (hi : i < t.size) (hn : t.unfolding i = n.term.settled R) : t.Holds R n.term := by
  intro p hp
  rcases hp.cases_term with rfl | ⟨e, he, hep⟩
  · exact ⟨i, hi, hn⟩
  · exact hoperands e he p hep

end Tape
end ScalarGraph
