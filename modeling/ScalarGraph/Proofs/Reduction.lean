import Mathlib.Data.List.Induction
import ScalarGraph.Proofs.Term.Derivative

/-! # Reductions

A reduction combines the values of its operands from the left, two at a time. A sum passes its
adjoint on to every operand, a maximum or minimum to the first operand that attains it. The operator
of two operands that is applied from the left instead does the same: it prefers its left
operand, so what it passes on goes to the first of the operands that are equal to the result.
-/
namespace ScalarGraph
variable {α : Type}

def NaryOp.pairwise : NaryOp → BinaryOp
  | .sum => .add
  | .max => .max
  | .min => .min

namespace Elementary

def calculusWith (E : Elementary α) (A : Adjoints α) : Calculus α := { E.calculus with adjoints := A }

@[simp] theorem rules_calculusWith (E : Elementary α) (A : Adjoints α) :
    (E.calculusWith A).rules = E.rules := rfl

@[simp] theorem calculusWith_adjoints (E : Elementary α) : E.calculusWith E.adjoints = E.calculus := rfl

/-- Numbers other than NaN are ordered, and of two of them a maximum or minimum is one that
attains it. Numbers may be equal without being the same, as the two zeros are. -/
structure Ordered (E : Elementary α) : Prop where
  le_total : ∀ {a b}, E.isNaN a = false → E.isNaN b = false → E.le a b = true ∨ E.le b a = true
  le_trans : ∀ {a b c}, E.isNaN a = false → E.isNaN b = false → E.isNaN c = false →
    E.le a b = true → E.le b c = true → E.le a c = true
  eq_iff : ∀ {a b}, E.isNaN a = false → E.isNaN b = false →
    (E.eq a b = true ↔ E.le a b = true ∧ E.le b a = true)
  max_cases : ∀ {a b}, E.isNaN a = false → E.isNaN b = false → E.max a b = a ∨ E.max a b = b
  le_max : ∀ {a b}, E.isNaN a = false → E.isNaN b = false →
    E.le a (E.max a b) = true ∧ E.le b (E.max a b) = true
  min_cases : ∀ {a b}, E.isNaN a = false → E.isNaN b = false → E.min a b = a ∨ E.min a b = b
  min_le : ∀ {a b}, E.isNaN a = false → E.isNaN b = false →
    E.le (E.min a b) a = true ∧ E.le (E.min a b) b = true

def prefers (E : Elementary α) (o : NaryOp) (a b : α) : Bool :=
  match o with
  | .min => E.le a b
  | _ => E.le b a

variable {E : Elementary α} {o : NaryOp}

theorem naryValue_cons (E : Elementary α) (o : NaryOp) (v : α) (vs : List α) :
    E.naryValue o (v :: vs) = vs.foldl (E.binaryValue o.pairwise) v := by
  cases o <;> rfl

namespace Ordered
variable (h : E.Ordered) {a b c : α} (ha : E.isNaN a = false) (hb : E.isNaN b = false)
include h ha hb

theorem prefers_total (o : NaryOp) : E.prefers o a b = true ∨ E.prefers o b a = true := by
  cases o with
  | min => exact h.le_total ha hb
  | _ => exact h.le_total hb ha

theorem prefers_trans (hc : E.isNaN c = false) (hab : E.prefers o a b = true)
    (hbc : E.prefers o b c = true) : E.prefers o a c = true := by
  cases o with
  | min => exact h.le_trans ha hb hc hab hbc
  | _ => exact h.le_trans hc hb ha hbc hab

theorem eq_iff_prefers (o : NaryOp) :
    E.eq a b = true ↔ E.prefers o a b = true ∧ E.prefers o b a = true := by
  cases o with
  | min => exact h.eq_iff ha hb
  | _ => exact (h.eq_iff ha hb).trans and_comm

omit hb in
theorem prefers_self (o : NaryOp) : E.prefers o a a = true := or_self_iff.mp (h.prefers_total ha ha o)

omit hb in
theorem eq_self : E.eq a a = true :=
  (h.eq_iff_prefers ha ha .max).mpr ⟨h.prefers_self ha _, h.prefers_self ha _⟩

theorem eq_congr (hc : E.isNaN c = false) (hab : E.prefers o a b = true) (hba : E.prefers o b a = true) :
    E.eq c a = E.eq c b := by
  rw [Bool.eq_iff_iff, h.eq_iff_prefers hc ha o, h.eq_iff_prefers hc hb o]
  constructor
  · rintro ⟨hca, hac⟩
    exact ⟨h.prefers_trans hc ha hb hca hab, h.prefers_trans hb ha hc hba hac⟩
  · rintro ⟨hcb, hbc⟩
    exact ⟨h.prefers_trans hc hb ha hcb hba, h.prefers_trans ha hb hc hab hbc⟩

theorem binaryValue_cases (ho : o ≠ .sum) :
    E.binaryValue o.pairwise a b = a ∨ E.binaryValue o.pairwise a b = b := by
  cases o with
  | sum => exact absurd rfl ho
  | max => exact h.max_cases ha hb
  | min => exact h.min_cases ha hb

theorem isNaN_binaryValue (ho : o ≠ .sum) : E.isNaN (E.binaryValue o.pairwise a b) = false := by
  rcases h.binaryValue_cases ha hb ho with he | he <;> rw [he]
  · exact ha
  · exact hb

theorem binaryValue_prefers (ho : o ≠ .sum) :
    E.prefers o (E.binaryValue o.pairwise a b) a = true ∧
      E.prefers o (E.binaryValue o.pairwise a b) b = true := by
  cases o with
  | sum => exact absurd rfl ho
  | max => exact h.le_max ha hb
  | min => exact h.min_le ha hb

end Ordered

section
variable [CommRing α] (A : Adjoints α) (xs : Array α) (i : Nat)

theorem tangent_binary (o : BinaryOp) (p q : α × α) :
    Node.tangent (E.calculusWith A) xs i (.binary o p q) =
      (E.binaryValue o p.1 q.1, (E.binaryPartial o p.1 q.1 (E.binaryValue o p.1 q.1)).1 * p.2 +
        (E.binaryPartial o p.1 q.1 (E.binaryValue o p.1 q.1)).2 * q.2) := by
  simp [Node.tangent, Node.map, Node.value, Node.derivative, Node.partials, Node.operands,
    calculusWith, calculus, rules, partials]

theorem tangent_nary (o : NaryOp) (ps : List (α × α)) :
    Node.tangent (E.calculusWith A) xs i (.nary o ps) =
      (E.naryValue o (ps.map Prod.fst), (List.zipWith (· * ·)
        (E.naryPartial o (ps.map Prod.fst) (E.naryValue o (ps.map Prod.fst))) (ps.map Prod.snd)).sum) :=
  rfl

theorem tangent_add (hone : E.one = 1) (p q : α × α) :
    Node.tangent (E.calculusWith A) xs i (.binary .add p q) = (E.add p.1 q.1, p.2 + q.2) := by
  rw [tangent_binary]
  simp [binaryValue, binaryPartial, hone]

theorem tangent_choice (hzero : E.zero = 0) (hone : E.one = 1) (ho : o ≠ .sum) (p q : α × α) :
    Node.tangent (E.calculusWith A) xs i (.binary o.pairwise p q) =
      (E.binaryValue o.pairwise p.1 q.1, if E.prefers o p.1 q.1 then p.2 else q.2) := by
  rw [tangent_binary]
  cases o with
  | sum => exact absurd rfl ho
  | max => by_cases hpq : E.le q.1 p.1 <;> simp [NaryOp.pairwise, binaryPartial, prefers, hpq, hzero, hone]
  | min => by_cases hpq : E.le p.1 q.1 <;> simp [NaryOp.pairwise, binaryPartial, prefers, hpq, hzero, hone]

theorem sum_zipWith_ones (hone : E.one = 1) (ps : List (α × α)) :
    (List.zipWith (· * ·) ((ps.map Prod.fst).map fun _ => E.one) (ps.map Prod.snd)).sum =
      (ps.map Prod.snd).sum := by
  induction ps with
  | nil => rfl
  | cons p ps ih => simp_all

theorem sum_zipWith_zeros (hzero : E.zero = 0) (ps : List (α × α)) :
    (List.zipWith (· * ·) ((ps.map Prod.fst).map fun _ => E.zero) (ps.map Prod.snd)).sum = 0 := by
  induction ps with
  | nil => rfl
  | cons p ps ih => simp_all

/-- Only the first operand that is equal to the result counts. -/
theorem sum_zipWith_firstEqual (hzero : E.zero = 0) (hone : E.one = 1) {y : α} {ps : List (α × α)}
    {q : α × α} (hq : ps.find? (fun p => E.eq p.1 y) = some q) :
    (List.zipWith (· * ·) (E.firstEqual y (ps.map Prod.fst)) (ps.map Prod.snd)).sum = q.2 := by
  induction ps with
  | nil => cases hq
  | cons p ps ih =>
    rw [List.find?_cons] at hq
    simp only [List.map_cons, firstEqual]
    split at hq
    · next hp =>
      cases hq
      rw [if_pos hp, List.zipWith_cons_cons, List.sum_cons, sum_zipWith_zeros hzero, hone, one_mul,
        add_zero]
    · next hp =>
      have hp : E.eq p.1 y = false := by simpa using hp
      rw [if_neg (by simp [hp]), List.zipWith_cons_cons, List.sum_cons, ih hq, hzero, zero_mul,
        zero_add]

theorem fst_foldl_tangent (o : BinaryOp) (p : α × α) (ps : List (α × α)) :
    (ps.foldl (fun p q => Node.tangent (E.calculusWith A) xs i (.binary o p q)) p).1 =
      (ps.map Prod.fst).foldl (E.binaryValue o) p.1 := by
  induction ps generalizing p with
  | nil => rfl
  | cons q ps ih =>
    rw [List.foldl_cons, ih, tangent_binary]
    rfl

theorem snd_foldl_tangent_add (hone : E.one = 1) (p : α × α) (ps : List (α × α)) :
    (ps.foldl (fun p q => Node.tangent (E.calculusWith A) xs i (.binary .add p q)) p).2 =
      ((p :: ps).map Prod.snd).sum := by
  induction ps generalizing p with
  | nil => simp
  | cons q ps ih =>
    rw [List.foldl_cons, ih, tangent_add A xs i hone]
    simp [add_assoc]

/-- The result of a maximum or minimum that is applied from the left is attained by some operand
and preferred to all, and its derivative is that of the first operand that attains it. -/
structure Attained (E : Elementary α) (o : NaryOp) (ps : List (α × α)) (m : α × α) : Prop where
  not_nan : E.isNaN m.1 = false
  prefers : ∀ q ∈ ps, E.prefers o m.1 q.1 = true
  first : ∃ q, ps.find? (fun q => E.eq q.1 m.1) = some q ∧ m.2 = q.2

omit [CommRing α] in
theorem Ordered.attained_single (h : E.Ordered) {p : α × α} (hp : E.isNaN p.1 = false) :
    E.Attained o [p] p where
  not_nan := hp
  prefers q hq := by
    obtain rfl := List.mem_singleton.mp hq
    exact h.prefers_self hp o
  first := ⟨p, by simp [h.eq_self hp], rfl⟩

theorem Attained.step (h : E.Ordered) (hzero : E.zero = 0) (hone : E.one = 1) (ho : o ≠ .sum)
    {ps : List (α × α)} (hps : ∀ q ∈ ps, E.isNaN q.1 = false) {m q : α × α} (hm : E.Attained o ps m)
    (hq : E.isNaN q.1 = false) :
    E.Attained o (ps ++ [q]) (Node.tangent (E.calculusWith A) xs i (.binary o.pairwise m q)) := by
  obtain ⟨z, hz, hmz⟩ := hm.first
  have hmn := hm.not_nan
  rw [tangent_choice A xs i hzero hone ho]
  have hvalue := h.isNaN_binaryValue hmn hq ho
  obtain ⟨hleft, hright⟩ := h.binaryValue_prefers hmn hq ho
  refine ⟨hvalue, fun u hu => ?_, ?_⟩
  · rcases List.mem_append.mp hu with hu | hu
    · exact h.prefers_trans hvalue hmn (hps u hu) hleft (hm.prefers u hu)
    · obtain rfl := List.mem_singleton.mp hu
      exact hright
  dsimp only
  by_cases hmq : E.prefers o m.1 q.1 = true
  · -- the result is equal to the one before, so the first operand equal to it is the same
    have hsame : E.prefers o m.1 (E.binaryValue o.pairwise m.1 q.1) = true := by
      rcases h.binaryValue_cases hmn hq ho with he | he <;> rw [he]
      · exact h.prefers_self hmn o
      · exact hmq
    obtain ⟨heq, l, r, hsplit, hl⟩ := List.find?_eq_some_iff_append.mp hz
    refine ⟨z, List.find?_eq_some_iff_append.mpr ⟨?_, l, r ++ [q], by simp [hsplit], fun u hu => ?_⟩, ?_⟩
    · rw [h.eq_congr hvalue hmn (hps z (by simp [hsplit])) hleft hsame]
      exact heq
    · rw [h.eq_congr hvalue hmn (hps u (by simp [hsplit, hu])) hleft hsame]
      exact hl u hu
    · rw [if_pos hmq, hmz]
  · -- the operand is the result, and no earlier one is equal to it
    have hresult : E.binaryValue o.pairwise m.1 q.1 = q.1 := by
      refine (h.binaryValue_cases hmn hq ho).resolve_left fun he => ?_
      rw [he] at hright
      exact hmq hright
    rw [hresult]
    refine ⟨q, List.find?_eq_some_iff_append.mpr ⟨h.eq_self hq, ps, [], rfl, fun u hu => ?_⟩,
      if_neg hmq⟩
    have hne : E.eq u.1 q.1 ≠ true := fun he => by
      have huq := ((h.eq_iff_prefers (hps u hu) hq o).mp he).1
      exact hmq (h.prefers_trans hmn (hps u hu) hq (hm.prefers u hu) huq)
    simpa using hne

theorem attained_foldl (h : E.Ordered) (hzero : E.zero = 0) (hone : E.one = 1) (ho : o ≠ .sum)
    {p : α × α} {ps : List (α × α)} (hps : ∀ q ∈ p :: ps, E.isNaN q.1 = false) :
    E.Attained o (p :: ps)
      (ps.foldl (fun p q => Node.tangent (E.calculusWith A) xs i (.binary o.pairwise p q)) p) := by
  induction ps using List.reverseRecOn with
  | nil => exact h.attained_single (hps p List.mem_cons_self)
  | append_singleton ps q ih =>
    have hbefore : ∀ u ∈ p :: ps, E.isNaN u.1 = false := fun u hu => hps u (by
      rcases List.mem_cons.mp hu with rfl | hu <;> simp_all)
    rw [List.foldl_append, List.foldl_cons, List.foldl_nil, ← List.cons_append]
    exact (ih hbefore).step A xs i h hzero hone ho hbefore (hps q (by simp))

/-- A sum is added up in any numbers; a maximum or minimum is taken of ordered ones. -/
def Reducible (E : Elementary α) (o : NaryOp) (vs : List α) : Prop :=
  o = .sum ∨ E.Ordered ∧ ∀ v ∈ vs, E.isNaN v = false

theorem tangent_nary_attained (h : E.Ordered) (hzero : E.zero = 0) (hone : E.one = 1) (ho : o ≠ .sum)
    {p : α × α} {ps : List (α × α)} (hps : ∀ q ∈ p :: ps, E.isNaN q.1 = false) :
    ∃ q, (p :: ps).find? (fun q => E.eq q.1 (E.naryValue o ((p :: ps).map Prod.fst))) = some q ∧
      Node.tangent (E.calculusWith A) xs i (.nary o (p :: ps)) =
        (E.naryValue o ((p :: ps).map Prod.fst), q.2) ∧
      (ps.foldl (fun p q => Node.tangent (E.calculusWith A) xs i (.binary o.pairwise p q)) p).2 = q.2 := by
  obtain ⟨q, hq, hderivative⟩ := (attained_foldl A xs i h hzero hone ho hps).first
  rw [fst_foldl_tangent, ← naryValue_cons] at hq
  refine ⟨q, hq, ?_, hderivative⟩
  rw [tangent_nary]
  cases o with
  | sum => exact absurd rfl ho
  | max => exact congrArg _ (sum_zipWith_firstEqual hzero hone hq)
  | min => exact congrArg _ (sum_zipWith_firstEqual hzero hone hq)

/-- A reduction has the value and the derivative of its operator applied from the left. -/
theorem tangent_nary_eq_foldl (hzero : E.zero = 0) (hone : E.one = 1) {p : α × α}
    {ps : List (α × α)} (hps : E.Reducible o ((p :: ps).map Prod.fst)) :
    Node.tangent (E.calculusWith A) xs i (.nary o (p :: ps)) =
      ps.foldl (fun p q => Node.tangent (E.calculusWith A) xs i (.binary o.pairwise p q)) p := by
  refine Prod.ext ?_ ?_
  · rw [fst_foldl_tangent, tangent_nary]
    exact naryValue_cons E o p.1 (ps.map Prod.fst)
  · by_cases ho : o = .sum
    · subst ho
      rw [NaryOp.pairwise, snd_foldl_tangent_add A xs i hone, tangent_nary]
      exact sum_zipWith_ones hone (p :: ps)
    · obtain ⟨h, hnan⟩ := hps.resolve_left ho
      obtain ⟨q, -, hnary, hfold⟩ := tangent_nary_attained A xs i h hzero hone ho
        (List.forall_mem_map.mp hnan)
      rw [hnary, hfold]

end
end Elementary
end ScalarGraph
