import ScalarGraph.Proofs.Extended
import ScalarGraph.Proofs.Graph.Conversion
import ScalarGraph.Proofs.Graph.Gradient
import ScalarGraph.Proofs.Program.Over

/-! # Guarded denominators

A graph of rational numbers, whose operators cannot leave these but by division, is evaluated with infinities
and NaN. The guard is added to a denominator whatever its sign is, so a denominator can still be
zero: where an operand is the negated guard. Nothing else makes a value infinite, and where no
denominator is zero the graph gives the values and the gradient of rational arithmetic.
-/
namespace ScalarGraph
open Extended
variable {α ι κ : Type} {E : Elementary ℚ} {rest : Elementary Extended}

namespace Node

def isRational : Node α ι → Bool
  | nary .max [] | nary .min [] => false
  | n => n.isAlgebraic

/-- What the rule and the partials of a node divide by, where its operands have the values `V`. -/
def denominators (E : Elementary α) (V : ι → α) : Node α ι → List α
  | unary .inverse x => [E.add (V x) E.guard]
  | binary .div _ z =>
    let d := E.add (V z) E.guard
    [d, E.mul d d]
  | _ => []

theorem isAlgebraic_of_isRational {n : Node α ι} (h : n.isRational = true) : n.isAlgebraic = true := by
  unfold isRational at h
  split at h
  · cases h
  · cases h
  · exact h

theorem ne_nil_of_isRational {o : NaryOp} {cs : List ι} (h : (nary o cs : Node α ι).isRational = true)
    (ho : o ≠ .sum) : cs ≠ [] := by
  rintro rfl
  cases o with
  | sum => exact ho rfl
  | max | min => cases h

theorem isRational_map (r : ι → κ) (n : Node α ι) : (n.map r).isRational = n.isRational := by
  cases n with
  | nary o cs => cases o <;> cases cs <;> rfl
  | _ => rfl

theorem denominators_map (F : Elementary α) (V : κ → α) (r : ι → κ) (n : Node α ι) :
    (n.map r).denominators F V = n.denominators F (V ∘ r) := by
  cases n with
  | unary o x => cases o <;> rfl
  | binary o x z => cases o <;> rfl
  | _ => rfl

theorem denominators_congr (F : Elementary α) {V W : ι → α} {n : Node α ι}
    (h : ∀ c ∈ n.operands, V c = W c) : n.denominators F V = n.denominators F W := by
  cases n with
  | unary o x =>
    have hx : V x = W x := h x List.mem_cons_self
    cases o <;> simp only [denominators, hx]
  | binary o x z =>
    have hz : V z = W z := h z (List.mem_cons_of_mem x List.mem_cons_self)
    cases o <;> simp only [denominators, hz]
  | _ => rfl

theorem denominators_finite (n : Node ℚ ι) (V : ι → ℚ) :
    (n.embed finite).denominators (E.extended rest) (finite ∘ V) =
      (n.denominators E.ofField V).map finite := by
  cases n with
  | unary o x => cases o <;> rfl
  | binary o x z => cases o <;> rfl
  | _ => rfl

section
variable {n : Node ℚ ι} (hn : n.isRational = true) {V : ι → ℚ}
  (hd : ∀ d ∈ n.denominators E.ofField V, d ≠ 0)
include hn hd

theorem guarded_unary {o : UnaryOp} {x : ι} (h : n = .unary o x) (ho : o = .inverse) :
    V x + E.guard ≠ 0 := by
  subst h ho
  exact hd _ List.mem_cons_self

theorem guarded_binary {o : BinaryOp} {x z : ι} (h : n = .binary o x z) (ho : o = .div) :
    V z + E.guard ≠ 0 := by
  subst h ho
  exact hd _ List.mem_cons_self

/-- Where no denominator is zero, finite operands have a finite value. -/
theorem value_finite (xs : Array ℚ) :
    ((n.embed finite).map (finite ∘ V)).value (E.extended rest).rules (xs.map finite) =
      finite ((n.map V).value E.ofField.rules xs) := by
  have halg := isAlgebraic_of_isRational hn
  cases n with
  | const v => rfl
  | input k s =>
    show (xs.map finite)[k]?.getD (finite s) = finite (xs[k]?.getD s)
    rw [Array.getElem?_map, Option.getD_map]
  | unary o x => exact Elementary.unaryValue_finite E rest halg (guarded_unary hn hd rfl)
  | binary o x z => exact Elementary.binaryValue_finite E rest halg (guarded_binary hn hd rfl)
  | select c t e => exact (apply_ite finite (E.ofField.truthy (V c) = true) (V t) (V e)).symm
  | nary o cs =>
    show (E.extended rest).naryValue o (cs.map (finite ∘ V)) = finite (E.ofField.naryValue o (cs.map V))
    rw [← List.map_map]
    exact Elementary.naryValue_finite E rest fun ho => by
      simpa using ne_nil_of_isRational hn ho
  | debug l x => rfl

theorem shares_finite (y a : ℚ) :
    ((n.embed finite).map (finite ∘ V)).shares (E.extended rest).calculus (finite y) (finite a) =
      ((n.map V).shares E.ofField.calculus y a).map finite := by
  have halg := isAlgebraic_of_isRational hn
  cases n with
  | const v => rfl
  | input k s => rfl
  | unary o x =>
    show [Extended.mul (finite a) ((E.extended rest).unaryPartial o (finite (V x)) (finite y))] = _
    rw [Elementary.unaryPartial_finite E rest halg]
    rfl
  | binary o x z =>
    have hpartial := Elementary.binaryPartial_finite E rest halg (a := V x) y (guarded_binary hn hd rfl)
    show [Extended.mul (finite a) ((E.extended rest).binaryPartial o (finite (V x)) (finite (V z))
        (finite y)).1, Extended.mul (finite a) ((E.extended rest).binaryPartial o (finite (V x))
        (finite (V z)) (finite y)).2] = _
    rw [hpartial]
    rfl
  | select c t e =>
    show shares (E.extended rest).calculus _ _ (.select (finite (V c)) (finite (V t)) (finite (V e))) =
      (shares E.ofField.calculus y a (.select (V c) (V t) (V e))).map finite
    have htruthy : (E.extended rest).calculus.rules.truthy (finite (V c)) =
      E.ofField.calculus.rules.truthy (V c) := rfl
    rw [shares, shares, htruthy]
    cases E.ofField.calculus.rules.truthy (V c) <;> rfl
  | nary o cs =>
    show ((E.extended rest).naryPartial o (cs.map (finite ∘ V)) (finite y)).map _ = _
    rw [← List.map_map, Elementary.naryPartial_finite, List.map_map]
    show _ = (((E.ofField.naryPartial o (cs.map V) y)).map (a * ·)).map finite
    rw [List.map_map]
    rfl
  | debug l x => rfl

theorem passed_finite (y a : ℚ) :
    (n.embed finite).passed (E.extended rest).calculus (finite ∘ V) (finite y) (finite a) =
      (n.passed E.ofField.calculus V y a).map (Prod.map id finite) := by
  rw [passed, passed, operands_embed, shares_finite hn hd, List.zip_map_right]

end

theorem not_finite_div (a : Extended) : (Extended.div a (finite 0)).isFinite = false := by
  cases a with
  | finite x => by_cases hx : x = 0 <;> simp [Extended.div, hx, Extended.isFinite]
  | infinite s => rfl
  | nan => rfl

theorem eq_zero_of_mul_self {a : Extended} (h : Extended.mul a a = finite 0) : a = finite 0 := by
  cases a with
  | finite x => simpa [Extended.mul] using h
  | infinite s => cases h
  | nan => cases h

theorem not_finite_of_denominator {n : Node Extended ι} {W : ι → Extended} {ys : Array Extended}
    (hzero : (E.extended rest).zero ∈ n.denominators (E.extended rest) W) :
    ((n.map W).value (E.extended rest).rules ys).isFinite = false := by
  have hquotient : ∀ (a d : Extended), d = finite 0 → (Extended.div a d).isFinite = false := by
    rintro a d rfl
    exact not_finite_div a
  cases n with
  | unary o x =>
    cases o with
    | inverse => exact hquotient _ _ (List.mem_singleton.mp hzero).symm
    | _ => cases hzero
  | binary o x z =>
    cases o with
    | div =>
      refine hquotient _ _ ?_
      rcases List.mem_cons.mp hzero with h | h
      · exact h.symm
      · exact eq_zero_of_mul_self (List.mem_singleton.mp h).symm
    | _ => cases hzero
  | _ => cases hzero

end Node

theorem embeds_finite (E : Elementary ℚ) (rest : Elementary Extended) :
    E.ofField.calculus.adjoints.Embeds finite (E.extended rest).calculus.adjoints where
  zero := rfl
  one := rfl
  add _ _ := rfl
  isZero _ := rfl

theorem Program.Compiles.toList_valuesBelow {g : Graph α} {p : Program α} (h : p.Compiles g)
    (W : Text → α) : (valuesBelow (W ∘ p.name) p.code.size).toList = g.order.map W := by
  apply List.ext_getElem?
  intro i
  rw [Array.getElem?_toList, List.getElem?_map]
  by_cases hi : i < p.code.size
  · have hid := List.getElem?_eq_getElem (h.size ▸ hi)
    rw [getElem?_valuesBelow hi, hid, Option.map_some, Function.comp_apply, h.name_eq hid]
  · have hsize : (valuesBelow (W ∘ p.name) p.code.size).size ≤ i := by
      simpa [valuesBelow] using hi
    rw [Array.getElem?_eq_none hsize, List.getElem?_eq_none (by rw [← h.size]; omega), Option.map_none]

namespace Graph
variable {g : Graph ℚ} {xs : Array ℚ} {V : Text → ℚ} {W : Text → Extended}

/-- Where no denominator is zero the values are those of rational arithmetic, by induction along the
operands. -/
theorem WellFormed.eq_finite (hg : g.WellFormed) (hrational : ∀ id n, g.net id n → n.isRational = true)
    (hV : g.net.Evaluates E.ofField.rules xs V)
    (hW : (g.embed finite).net.Evaluates (E.extended rest).rules (xs.map finite) W)
    (hd : ∀ id n, (g.embed finite).net id n →
      ∀ d ∈ n.denominators (E.extended rest) W, d ≠ (E.extended rest).zero) :
    ∀ id n, g.net id n → W id = finite (V id) ∧ ∀ d ∈ n.denominators E.ofField V, d ≠ 0 := by
  intro id n hn
  induction hrank : g.slot id using Nat.strongRecOn generalizing id n with
  | _ _ ih =>
    subst hrank
    have hoperands : ∀ c ∈ n.operands, W c = (finite ∘ V) c := by
      intro c hc
      obtain ⟨m, hm⟩ := hg.exists_operand hn c hc
      exact (ih (g.slot c) (hg.ranked.operand_lt hn c hc) c m hm rfl).1
    have hoperands' : ∀ c ∈ (n.embed finite).operands, W c = (finite ∘ V) c := by
      rwa [n.operands_embed]
    have hdn : ∀ d ∈ n.denominators E.ofField V, d ≠ 0 := by
      rintro d hdn rfl
      refine hd id _ (net_embed hn) (finite 0) ?_ rfl
      rw [Node.denominators_congr _ hoperands', Node.denominators_finite]
      exact List.mem_map_of_mem hdn
    refine ⟨?_, hdn⟩
    rw [hW id _ (net_embed hn), Node.map_congr hoperands', hV id n hn]
    exact Node.value_finite (hrational id n hn) hdn xs

/-- A program of the graph over extended numbers gives the images of what the program over the rationals
gives, where the values are such images and no denominator is zero. -/
theorem WellFormed.run_finite (hg : g.WellFormed)
    (hrational : ∀ id n, g.net id n → n.isRational = true)
    (hV : g.net.Evaluates E.ofField.rules xs V)
    (hd : ∀ id n, g.net id n → ∀ d ∈ n.denominators E.ofField V, d ≠ 0)
    {q : Program ℚ} {p : Program Extended} (hq : q.Compiles g) (hp : p.Compiles (g.embed finite))
    (hsettings : p.settings = q.settings) :
    p.run (E.extended rest).calculus (xs.map finite) =
      (q.run E.ofField.calculus xs).map (Outputs.map finite) := by
  have hname : p.name = q.name := by
    have hids : p.ids = q.ids := by rw [hp.ids, hq.ids, embed_eq]
    funext i
    rw [Program.name, Program.name, hids]
  have hfV : (g.embed finite).net.Evaluates (E.extended rest).rules (xs.map finite) (finite ∘ V) := by
    intro id m hm
    obtain ⟨n, hn, rfl⟩ := of_net_embed hm
    rw [Function.comp_apply, hV id n hn]
    exact (Node.value_finite (hrational id n hn) (hd id n hn) xs).symm
  have hover : q.Over finite E.ofField.calculus (E.extended rest).calculus (V ∘ q.name) p :=
    { size := by rw [hp.size, hq.size, embed_eq]
      primary := by rw [hp.primary, hq.primary, slot_embed, embed_eq]
      settings := hsettings
      node := fun i n hn => by
        have hmap := hq.maps hn
        refine ⟨n.embed finite, net_of_compiles_embed hg hq hp hn, n.operands_embed finite,
          n.position?_embed finite, Node.passed_finite ?_ ?_ _⟩
        · rw [← n.isRational_map q.name]
          exact hrational _ _ hmap
        · rw [← Node.denominators_map]
          exact hd _ _ hmap }
  refine hover.run_map (embeds_finite E rest) hq.topological (hq.maps.evaluates hV) ?_ ?_ ?_
    (hq.primary_lt hg) (hq.secondary_lt hg)
  · rw [← Function.comp_assoc, ← hname]
    exact hp.maps.evaluates hfV
  · rw [hp.numInputs, hq.numInputs, embed_eq]
  · rw [hp.secondary, hq.secondary, slot_embed, embed_eq]

/-- The guard does not keep denominators from zero. A graph of rational numbers whose operators cannot
leave these but by division has finite values at all nodes exactly if no rule and no partial of a quotient or
an inverse divides by zero. Then its outputs and its gradient are those of rational arithmetic. -/
theorem finite_iff_denominators_ne_zero (hg : g.Assembled)
    (hrational : ∀ id n, g.net id n → n.isRational = true) (settings : Settings) (E : Elementary ℚ)
    (rest : Elementary Extended) (xs : Array ℚ) :
    ∃ p q W values, (g.embed finite).compile? settings = some p ∧ g.compile? settings = some q ∧
      (g.embed finite).net.Evaluates (E.extended rest).rules (xs.map finite) W ∧
      p.forward (E.extended rest).rules (xs.map finite) = some values ∧
      values.toList = g.order.map W ∧
      ((∀ v ∈ values, v.isFinite = true) ↔ ∀ id n, (g.embed finite).net id n →
        ∀ d ∈ n.denominators (E.extended rest) W, d ≠ (E.extended rest).zero) ∧
      ((∀ v ∈ values, v.isFinite = true) →
        p.run (E.extended rest).calculus (xs.map finite) =
          (q.run E.ofField.calculus xs).map (Outputs.map finite) ∧
        ∀ out, p.run (E.extended rest).calculus (xs.map finite) = some out →
          ∀ d ∈ out.gradient, d.isFinite = true) := by
  have hwf := hg.wellFormed
  have hwf' := hwf.embed finite
  obtain ⟨q, hcompile, hq, hsettings⟩ := hwf.exists_compile settings
  obtain ⟨p, hcompile', hp, hsettings'⟩ := hwf'.exists_compile settings
  obtain ⟨V, hV⟩ := hwf.ranked.exists_evaluates E.ofField.rules xs
  obtain ⟨W, hW⟩ := hwf'.ranked.exists_evaluates (E.extended rest).rules (xs.map finite)
  have hforward := p.forward_eq hp.topological (hp.maps.evaluates hW)
  have horder : (g.embed finite).order = g.order := by rw [embed_eq]
  have hvalues : (valuesBelow (W ∘ p.name) p.code.size).toList = g.order.map W := by
    rw [hp.toList_valuesBelow, horder]
  have hiff : (∀ v ∈ valuesBelow (W ∘ p.name) p.code.size, v.isFinite = true) ↔
      ∀ id n, (g.embed finite).net id n →
        ∀ d ∈ n.denominators (E.extended rest) W, d ≠ (E.extended rest).zero := by
    constructor
    · rintro hfinite id n hn d hd rfl
      have hid : id ∈ g.order := horder ▸ hwf'.mem_order hn
      have hvalue := hfinite (W id) (by
        rw [← Array.mem_toList_iff, hvalues]
        exact List.mem_map_of_mem hid)
      rw [hW id n hn, Node.not_finite_of_denominator hd] at hvalue
      cases hvalue
    · intro hd v hv
      rw [← Array.mem_toList_iff, hvalues] at hv
      obtain ⟨id, hid, rfl⟩ := List.mem_map.mp hv
      obtain ⟨n, hn⟩ := hwf.exists_node hid
      rw [(hwf.eq_finite hrational hV hW hd id n hn).1]
      rfl
  refine ⟨p, q, W, _, hcompile', hcompile, hW, hforward, hvalues, hiff, fun hfinite => ?_⟩
  have hd := fun id n hn => (hwf.eq_finite hrational hV hW (hiff.mp hfinite) id n hn).2
  have hrun : p.run (E.extended rest).calculus (xs.map finite) =
      (q.run E.ofField.calculus xs).map (Outputs.map finite) :=
    hwf.run_finite hrational hV hd hq hp (hsettings'.trans hsettings.symm)
  refine ⟨hrun, fun out hout d hdout => ?_⟩
  rw [hrun] at hout
  obtain ⟨out, -, rfl⟩ := Option.map_eq_some_iff.mp hout
  obtain ⟨x, -, rfl⟩ := Array.mem_map.mp hdout
  rfl

def inverseOfInput : List (Text × Node ℚ Text) := [("x", .input 0 0), ("p", .unary .inverse "x")]

def tenBillionth : Elementary ℚ := { (default : Elementary ℚ) with guard := 1 / 10 ^ 10 }

theorem listed_inverseOfInput :
    Draft.Listed inverseOfInput ((inverseOfInput.map (·.1)).idxOf ·) := by
  constructor <;> decide

/-- The inverse is finite at zero, and infinite where the input is the negated guard. -/
theorem finite_iff_denominators_ne_zero_inverse : ∃ g : Graph ℚ, g.nodes = inverseOfInput ∧
    (∃ p values, (g.embed finite).compile? {} = some p ∧
      p.forward (tenBillionth.extended default).rules #[finite 0] = some values ∧
        ∀ v ∈ values, v.isFinite = true) ∧
    ∃ p values, (g.embed finite).compile? {} = some p ∧
      p.forward (tenBillionth.extended default).rules #[finite (-(1 / 10 ^ 10))] = some values ∧
        ¬∀ v ∈ values, v.isFinite = true := by
  obtain ⟨g, hassembled, hnodes, -⟩ : ∃ g : Graph ℚ, g.Assembled ∧ g.nodes = inverseOfInput ∧
      g.primary = some ("p" : Text) ∧ g.secondary = [] ∧ g.numInputs = 1 :=
    listed_inverseOfInput.exists_graph (by decide) (by decide) 1
  have hmem : ∀ {id n}, (id, n) ∈ inverseOfInput → g.net id n := fun h => by
    rw [net, hnodes]
    exact h
  have hof : ∀ {id n}, g.net id n → (id, n) ∈ inverseOfInput := fun h => by
    rw [net, hnodes] at h
    exact h
  have hrational : ∀ id n, g.net id n → n.isRational = true := fun id n hn =>
    (by decide : ∀ a ∈ inverseOfInput, a.2.isRational = true) _ (hof hn)
  have hx : (g.embed finite).net "x" (.input 0 (finite 0)) := net_embed (hmem (n := .input 0 0) (by decide))
  have hp : (g.embed finite).net "p" (.unary .inverse "x") :=
    net_embed (hmem (n := .unary .inverse "x") (by decide))
  refine ⟨g, hnodes, ?_, ?_⟩
  · obtain ⟨p, -, W, values, hcompile, -, hW, hforward, -, hiff, -⟩ :=
      finite_iff_denominators_ne_zero hassembled hrational {}
        tenBillionth default #[0]
    rw [List.map_toArray] at hW hforward
    have hzero : W "x" = finite 0 := hW _ _ hx
    refine ⟨p, values, hcompile, hforward, hiff.mpr fun id m hm d hd => ?_⟩
    obtain ⟨n, hn, rfl⟩ := of_net_embed hm
    have hlisted := hof hn
    simp only [inverseOfInput, List.mem_cons, Prod.mk.injEq, List.not_mem_nil, or_false] at hlisted
    rcases hlisted with ⟨-, rfl⟩ | ⟨-, rfl⟩
    · cases hd
    · rw [List.mem_singleton.mp hd, hzero]
      show finite (0 + 1 / 10 ^ 10) ≠ finite 0
      norm_num
  · obtain ⟨p, -, W, values, hcompile, -, hW, hforward, -, hiff, -⟩ :=
      finite_iff_denominators_ne_zero hassembled hrational {}
        tenBillionth default #[-(1 / 10 ^ 10)]
    rw [List.map_toArray] at hW hforward
    have hnegated : W "x" = finite (-(1 / 10 ^ 10)) := hW _ _ hx
    refine ⟨p, values, hcompile, hforward, fun hfinite => ?_⟩
    refine hiff.mp hfinite _ _ hp _ List.mem_cons_self ?_
    rw [hnegated]
    show finite (-(1 / 10 ^ 10) + 1 / 10 ^ 10) = finite 0
    norm_num

end Graph
end ScalarGraph
