import ScalarGraph.Proofs.Program.Product
import ScalarGraph.Proofs.Tape.Adjoint
import ScalarGraph.Proofs.Tape.Distance

/-! # Shapes of nodes

Above the input at position 0 a node is told to be a constant, a product of some factors, or a power with a
constant exponent. A shape is a meaning that folding keeps, so that it can be read off a term as well as off
a tape, and it decides the gradient of the node's program.
-/
namespace ScalarGraph
open Extended
variable {E : Elementary ℚ} {rest : Elementary Extended}

/-- What a node stands for above the input at position 0. -/
inductive Shape where
  | constant (x : Extended)
  /-- A product of `m + 1` factors, each of which is the input. -/
  | factors (m : ℕ)
  | power (exponent : Extended)
  | other

namespace Shape

def constant? : Shape → Option Extended
  | constant x => some x
  | _ => none

def degree : Shape → ℕ
  | factors m => m
  | _ => 0

theorem eq_constant_of_constant? {s : Shape} {x : Extended} (h : s.constant? = some x) :
    s = constant x := by
  cases s <;> cases h
  rfl

end Shape

namespace Node
variable {R : Rules Extended}

def shape (R : Rules Extended) (n : Node Extended Shape) : Shape :=
  match n with
  | input 0 _ => .factors 0
  | input (_ + 1) _ => .other
  | binary .mul (.factors j) (.factors k) => .factors (j + k + 1)
  | binary .pow (.factors 0) (.constant x) => .power x
  | n =>
    match n.mapM Shape.constant? with
    | some m => .constant (m.value R #[])
    | none => .other

theorem folds_shape (R : Rules Extended) : R.Folds (shape R) := by
  have hconst : ∀ x, shape R (const x) = .constant x := fun _ => rfl
  intro n hn
  have hread : (n.map Shape.constant).mapM Shape.constant? = some n := by
    rw [mapM_map, mapM_eq_some (g := id) (f := Shape.constant? ∘ Shape.constant) fun _ _ => rfl]
    exact congrArg some (map_eq_self fun _ _ => rfl)
  simp only [hconst]
  show shape R (n.map Shape.constant) = .constant (n.value R #[])
  cases n with
  | const x => cases hn
  | input k s => cases hn
  | nary o xs =>
    show (match (map Shape.constant (nary o xs)).mapM Shape.constant? with
      | some m => Shape.constant (m.value R #[])
      | none => .other) = _
    rw [hread]
  | binary o x y => cases o <;> exact rfl
  | _ => exact rfl

theorem shape_eq_factors {ι : Type} {S : ι → Shape} {n : Node Extended ι} {m : ℕ}
    (h : (n.map S).shape R = .factors m) : (m = 0 ∧ ∃ s, n = .input 0 s) ∨
      ∃ a b, n = .binary .mul a b ∧ ∃ j k, S a = .factors j ∧ S b = .factors k ∧ m = j + k + 1 := by
  unfold shape at h
  split at h
  · next s hn =>
    cases h
    exact .inl ⟨rfl, s, eq_input_of_map_eq hn⟩
  · cases h
  · next j k hn =>
    cases h
    cases n with
    | binary o a b =>
      injection hn with ho ha hb
      exact .inr ⟨a, b, ho ▸ rfl, j, k, ha, hb, rfl⟩
    | _ => cases hn
  · cases h
  · split at h <;> cases h

theorem shape_eq_power {ι : Type} {S : ι → Shape} {n : Node Extended ι} {x : Extended}
    (h : (n.map S).shape R = .power x) :
    ∃ a b, n = .binary .pow a b ∧ S a = .factors 0 ∧ S b = .constant x := by
  unfold shape at h
  split at h
  · cases h
  · cases h
  · cases h
  · next y hn =>
    cases h
    cases n with
    | binary o a b =>
      injection hn with ho ha hb
      exact ⟨a, b, ho ▸ rfl, ha, hb⟩
    | _ => cases hn
  · split at h <;> cases h

theorem shape_eq_constant {ι : Type} {S : ι → Shape} {n : Node Extended ι} {x : Extended}
    (h : (n.map S).shape R = .constant x) : n.position? = none ∧
      ∃ m, (n.map S).mapM Shape.constant? = some m ∧ x = m.value R #[] := by
  unfold shape at h
  split at h
  · cases h
  · cases h
  · cases h
  · cases h
  · next hzero hsucc _ _ =>
    split at h
    · next m hm =>
      cases h
      refine ⟨?_, m, hm, rfl⟩
      cases n with
      | input k s =>
        cases k with
        | zero => exact (hzero s rfl).elim
        | succ k => exact (hsucc k s rfl).elim
      | _ => rfl
    · cases h

theorem operand_constant {ι : Type} {S : ι → Shape} {n : Node Extended ι} {x : Extended}
    (h : (n.map S).shape R = .constant x) {c : ι} (hc : c ∈ n.operands) : ∃ y, S c = .constant y := by
  obtain ⟨-, m, hm, -⟩ := shape_eq_constant h
  have hmem : (S c).constant? ∈ m.operands.map some := by
    rw [← (of_mapM_eq_some hm).2, operands_map, List.map_map]
    exact List.mem_map_of_mem (f := Shape.constant? ∘ S) hc
  obtain ⟨y, -, hy⟩ := List.mem_map.mp hmem
  exact ⟨y, Shape.eq_constant_of_constant? hy.symm⟩

end Node

/-- The power at `r` is used by no node of the list, and alone uses the input at `a`. -/
structure NodeList.IsPower (L : NodeList Extended Nat) (r a b : Nat) (s : Extended) : Prop where
  root_mem : (r, .binary .pow a b) ∈ L
  leaf_mem : (a, .input 0 s) ∈ L
  leaf_ne : a ≠ r
  exponent_ne : b ≠ a
  root_unused : ∀ q ∈ L, r ∉ q.2.operands
  leaf_user : ∀ q ∈ L, a ∈ q.2.operands → q = (r, .binary .pow a b)
  input : ∀ q ∈ L, ∀ l, q.2.position? = some l → q = (a, .input 0 s) ∧ l = 0

namespace NodeList.IsPower
variable {L : NodeList Extended Nat} {r a b : Nat} {s : Extended} (h : L.IsPower r a b s)
  (hnodup : L.Nodup) {skip : Bool} {W A : Nat → Extended}
include h hnodup

/-- The adjoint of the input is the partial of the power, whose adjoint is one. -/
theorem adjoint_leaf (hA : L.Solves (E.extended rest).calculus skip W A r) :
    A a = mul (W b) (pow rest.pow (W a) (sub (W b) (finite 1))) := by
  let C := (E.extended rest).calculus
  have hroot : A r = finite 1 := by
    rw [hA _ h.root_mem, total_passed_of_unused h.root_unused, if_pos rfl]
    rfl
  have hlive : (skip && C.adjoints.isZero (finite 1)) = false := by
    have hone : decide ((1 : ℚ) = 0) = false := decide_eq_false one_ne_zero
    exact Bool.and_eq_false_iff.mpr (.inr hone)
  rw [hA _ h.leaf_mem, total_passed_eq hnodup h.root_mem h.leaf_user, if_neg h.leaf_ne, hroot, hlive,
    if_neg Bool.false_ne_true]
  show C.adjoints.total (finite 0) a
    [(a, mul (finite 1) (mul (W b) (pow rest.pow (W a) (sub (W b) (finite 1))))), (b, _)] = _
  rw [Adjoints.total, List.foldl_cons, List.foldl_cons, List.foldl_nil, if_pos rfl, if_neg h.exponent_ne,
    one_mul_finite]
  exact add_zero_finite _

theorem total_entered (i : Nat) : (E.extended rest).calculus.adjoints.total (finite 0) i
    (L.entered (E.extended rest).calculus skip A) = if i = 0 then A a else finite 0 := by
  split
  · next hi =>
    subst hi
    rw [total_entered_eq hnodup h.leaf_mem fun q hq hl => (h.input q hq 0 hl).1]
    split
    · next hskip => exact (eq_zero_of_eq (Bool.and_eq_true_iff.mp hskip).2).symm
    · exact add_zero_finite _
  · next hi => exact total_entered_of_unused fun q hq hl => hi (h.input q hq i hl).2

end NodeList.IsPower

namespace Tape
variable {R : Rules Extended} {t : Tape Extended} {S : Nat → Shape} {r i : Nat}

section
variable (hS : t.net.Solves (Node.shape R) S)
include hS

theorem factors_of_needs {m : ℕ} (hr : S r = .factors m) (h : t.net.Needs r i) :
    ∃ k, S i = .factors k := by
  refine h.handed_down (P := fun j => ∃ k, S j = .factors k) (fun p n hn hp c hc => ?_) ⟨m, hr⟩
  obtain ⟨k, hk⟩ := hp
  rw [hS p n hn] at hk
  rcases Node.shape_eq_factors hk with ⟨-, s, rfl⟩ | ⟨a, b, rfl, j, l, ha, hb, -⟩
  · cases hc
  · rcases List.mem_cons.mp hc with rfl | hc
    · exact ⟨j, ha⟩
    · rw [List.mem_singleton.mp hc]
      exact ⟨l, hb⟩

theorem constant_of_needs {x : Extended} (hr : S r = .constant x) (h : t.net.Needs r i) :
    ∃ y, S i = .constant y := by
  refine h.handed_down (P := fun j => ∃ y, S j = .constant y) (fun p n hn hp c hc => ?_) ⟨x, hr⟩
  obtain ⟨y, hy⟩ := hp
  exact Node.operand_constant (hS p n hn ▸ hy) hc

theorem needs_of_power (ht : t.Valid) {a b : Nat} {s y : Extended} (hroot : t.net r (.binary .pow a b))
    (hleaf : t.net a (.input 0 s)) (hb : S b = .constant y) {j : Nat} {n : Node Extended Nat}
    (hneeds : t.net.Needs r j) (hn : t.net j n) :
    (j, n) = (r, .binary .pow a b) ∨ (j, n) = (a, .input 0 s) ∨ ∃ z, (n.map S).shape R = .constant z := by
  rcases Relation.ReflTransGen.cases_head hneeds with rfl | ⟨c, ⟨m, hm, hc⟩, hcj⟩
  · rw [ht.ranked.unique hn hroot]
    exact .inl rfl
  rw [ht.ranked.unique hm hroot] at hc
  rcases List.mem_cons.mp hc with rfl | hc
  · rcases Relation.ReflTransGen.cases_head hcj with rfl | ⟨d, ⟨k, hk, hd⟩, -⟩
    · rw [ht.ranked.unique hn hleaf]
      exact .inr (.inl rfl)
    · rw [ht.ranked.unique hk hleaf] at hd
      cases hd
  · rw [List.mem_singleton.mp hc] at hcj
    obtain ⟨z, hz⟩ := constant_of_needs hS hb hcj
    exact .inr (.inr ⟨z, hS j n hn ▸ hz⟩)

theorem exists_isPower (ht : t.Valid) (hr : r < t.size) {y : Extended} (h : S r = .power y)
    {L : NodeList Extended Nat} (hL : t.net.Lists r L) :
    ∃ a b s, L.IsPower r a b s ∧ S b = .constant y := by
  obtain ⟨m, hm⟩ := exists_node hr
  have hshape := h
  rw [hS r m hm] at hshape
  obtain ⟨a, b, rfl, ha, hb⟩ := Node.shape_eq_power hshape
  obtain ⟨k, hk⟩ := ht.exists_operand hm a List.mem_cons_self
  obtain ⟨s, rfl⟩ : ∃ s, k = .input 0 s := by
    have hfactors := ha
    rw [hS a k hk] at hfactors
    rcases Node.shape_eq_factors hfactors with ⟨-, s, rfl⟩ | ⟨_, _, _, j, l, -, -, hjl⟩
    · exact ⟨s, rfl⟩
    · omega
  have hcases : ∀ q ∈ L, q = (r, .binary .pow a b) ∨ q = (a, .input 0 s) ∨
      ∃ z, (q.2.map S).shape R = .constant z := fun q hq =>
    needs_of_power hS ht hm hk hb ((hL.mem_iff _ _).mp hq).1 ((hL.mem_iff _ _).mp hq).2
  refine ⟨a, b, s, ?_, hb⟩
  constructor
  case root_mem => exact (hL.mem_iff _ _).mpr ⟨.refl, hm⟩
  case leaf_mem => exact (hL.mem_iff _ _).mpr ⟨.single ⟨_, hm, List.mem_cons_self⟩, hk⟩
  case leaf_ne => exact Nat.ne_of_lt (ht.operand_lt hm a List.mem_cons_self)
  case exponent_ne =>
    rintro rfl
    cases ha.symm.trans hb
  case root_unused =>
    intro q hq hmem
    rcases hcases q hq with rfl | rfl | ⟨z, hz⟩
    · exact Nat.lt_irrefl r (ht.operand_lt hm r hmem)
    · cases hmem
    · obtain ⟨y', hy'⟩ := Node.operand_constant hz hmem
      cases h.symm.trans hy'
  case leaf_user =>
    intro q hq hmem
    rcases hcases q hq with rfl | rfl | ⟨z, hz⟩
    · rfl
    · cases hmem
    · obtain ⟨y', hy'⟩ := Node.operand_constant hz hmem
      cases ha.symm.trans hy'
  case input =>
    intro q hq l hl
    rcases hcases q hq with rfl | rfl | ⟨z, hz⟩
    · cases hl
    · exact ⟨rfl, (Option.some.inj hl).symm⟩
    · rw [(Node.shape_eq_constant hz).1] at hl
      cases hl

theorem value_of_constant (ht : t.Valid) {ys : Array Extended} {W : Nat → Extended}
    (hW : t.net.Evaluates R ys W) {n : Node Extended Nat} (hn : t.net i n) {x : Extended}
    (hx : S i = .constant x) : W i = x := by
  induction i using Nat.strongRecOn generalizing n x with
  | _ i ih =>
    rw [hS i n hn] at hx
    obtain ⟨hposition, m, hm, rfl⟩ := Node.shape_eq_constant hx
    rw [Node.mapM_map] at hm
    have hmap : n.map W = m.map id := Node.map_eq_of_mapM_eq_some hm fun c hc y hy => by
      obtain ⟨k, hk⟩ := ht.exists_operand hn c hc
      exact ih c (ht.operand_lt hn c hc) hk (Shape.eq_constant_of_constant? hy)
    have hid : m.map id = m := Node.map_eq_self fun _ _ => rfl
    rw [hW i n hn, hmap, hid]
    cases m with
    | input k s =>
      have hop := (Node.of_mapM_eq_some hm).1
      cases n with
      | input k' s' => cases hposition
      | _ => cases hop
    | _ => rfl

end

namespace Extracts
variable {g : Graph Extended} {p : Program Extended} {ys : Array Extended} {out : Outputs Extended}

section
variable (hg : t.Extracts (some r) [] g) (ht : t.Valid) (hr : r < t.size) (hp : p.Compiles g)
  (hS : t.net.Solves (Node.shape (E.extended rest).rules) S)
  (hrun : p.run (E.extended rest).calculus ys = some out)
include hg ht hr hp hS hrun

theorem gradient_of_constant {c : Extended} (h : S r = .constant c) {d : Extended}
    (hd : out.gradient[i]? = some d) : d = finite 0 := by
  obtain ⟨W, hW⟩ := ht.ranked.exists_evaluates (E.extended rest).calculus.rules ys
  obtain ⟨L, A, hL, -, hgradient⟩ := hg.exists_adjoints ht (List.forall_mem_singleton.mpr hr) hp hW
  rw [hgradient out hrun i d hd, NodeList.total_entered_of_unused]
  · rfl
  · rintro ⟨j, n⟩ hj hpos
    obtain ⟨hneeds, hn⟩ := (hL.mem_iff j n).mp hj
    obtain ⟨y, hy⟩ := constant_of_needs hS h hneeds
    rw [hS j n hn] at hy
    rw [(Node.shape_eq_constant hy).1] at hpos
    cases hpos

/-- The entry of the input is the partial of the power. -/
theorem gradient_of_power {n : ℕ} (h : S r = .power (finite n)) {x : ℚ} (hx : ys[0]? = some (finite x))
    {d : Extended} (hd : out.gradient[i]? = some d) :
    d = if i = 0 then (if n = 0 ∧ x = 0 then nan else finite (n * x ^ (n - 1))) else finite 0 := by
  obtain ⟨W, hW⟩ := ht.ranked.exists_evaluates (E.extended rest).calculus.rules ys
  obtain ⟨L, A, hL, hA, hgradient⟩ := hg.exists_adjoints ht (List.forall_mem_singleton.mpr hr) hp hW
  obtain ⟨a, b, s, hpower, hb⟩ := exists_isPower hS ht hr h hL
  have hWa : W a = finite x := by
    rw [hW a _ ((hL.mem_iff _ _).mp hpower.leaf_mem).2]
    show (ys[0]?).getD _ = _
    rw [hx, Option.getD_some]
  have hWb : W b = finite n := by
    have hroot := ((hL.mem_iff _ _).mp hpower.root_mem).2
    obtain ⟨k, hk⟩ := ht.exists_operand hroot b (List.mem_cons_of_mem a List.mem_cons_self)
    exact value_of_constant hS ht hW hk hb
  have hleaf := hpower.adjoint_leaf hL.nodup hA
  rw [hWa, hWb, Elementary.sub_finite, mul_pow_pred] at hleaf
  rw [hgradient out hrun i d hd, ← hleaf]
  exact hpower.total_entered hL.nodup i

omit hr hrun in
theorem multiplies {m : ℕ} (h : S r = .factors m) :
    p.Multiplies fun i => (S (t.index [r] (p.name i))).degree := by
  intro i n hn
  have hname := hp.maps hn
  have hnet : t.net (t.index [r] (p.name i)) ((n.map p.name).map (t.index [r])) := hg.maps ht hname
  rw [Graph.net, hg.nodes] at hname
  obtain ⟨j, hj, k, -, heq⟩ := mem_named.mp hname
  obtain ⟨r', hr', hneeds⟩ := needed_of_mem_visit j hj
  rw [List.mem_singleton.mp hr'] at hneeds
  have hij : t.index [r] (p.name i) = j := by
    rw [← (Prod.mk.inj heq).1]
    exact index_name hj
  obtain ⟨l, hl⟩ := factors_of_needs hS h hneeds
  have hshape : (n.map (S ∘ t.index [r] ∘ p.name)).shape (E.extended rest).rules = .factors l := by
    rw [← hl, ← hij, hS _ _ hnet, Node.map_map, Node.map_map]
    rfl
  rcases Node.shape_eq_factors hshape with ⟨rfl, s, rfl⟩ | ⟨a, b, rfl, c, e, ha, hb, rfl⟩
  · refine .inl ⟨?_, s, rfl⟩
    show (S (t.index [r] (p.name i))).degree = 0
    rw [hij, hl, Shape.degree]
  · rw [Function.comp_apply, Function.comp_apply] at ha hb
    refine .inr ⟨a, b, rfl, ?_⟩
    show (S (t.index [r] (p.name i))).degree =
      (S (t.index [r] (p.name a))).degree + (S (t.index [r] (p.name b))).degree + 1
    rw [hij, hl, ha, hb, Shape.degree, Shape.degree, Shape.degree]

theorem gradient_of_factors {m : ℕ} (h : S r = .factors m) {x : ℚ} (hx : ys[0]? = some (finite x))
    {d : Extended} (hd : out.gradient[i]? = some d) :
    d = if i = 0 then finite ((m + 1) * x ^ m) else finite 0 := by
  obtain ⟨s, hs, hlt, hsr⟩ := hg.exists_root (List.forall_mem_singleton.mpr hr) hp
  have hentry := (multiplies hg ht hp hS h).gradient_eq hp.topological hs hlt
    (hp.secondary_lt hg.assembled.wellFormed) hx hrun hd
  have hdegree : (S (t.index [r] (p.name s))).degree = m := by
    rw [show t.index [r] (p.name s) = r from hsr, h]
    rfl
  rwa [hdegree] at hentry

end

end Extracts

end Tape
end ScalarGraph
