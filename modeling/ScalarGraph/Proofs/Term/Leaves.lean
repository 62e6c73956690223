import ScalarGraph.Geometry.Pencil
import ScalarGraph.Proofs.Term.Derivative
import ScalarGraph.Proofs.Term.Placement
import ScalarGraph.Proofs.Workspace.Folding

/-! # Building over given leaves

What can be said of all leaves of some terms can be said of the leaves of all that vectors and shapes make
of these terms. Where the leaves are operands on tapes, building keeps a folded tape as it is
folded, and gives operands on tapes again.
-/
namespace ScalarGraph
variable {α β ν : Type}

namespace Term
variable {P : ν → Prop} {t u : Term α ν} {ts us : List (Term α ν)}

def Over (P : ν → Prop) (t : Term α ν) : Prop := ∀ l ∈ t.leaves, P l

theorem leavesOf_eq_flatMap (ts : List (Term α ν)) : leavesOf ts = ts.flatMap leaves := by
  induction ts with
  | nil => rfl
  | cons t ts ih => rw [leavesOf, ih, List.flatMap_cons]

@[simp] theorem over_leaf {l : ν} : (leaf l : Term α ν).Over P ↔ P l := by simp [Over, leaves]

@[simp] theorem over_number (x : α) : (number x : Term α ν).Over P := by simp [Over, leaves]

@[simp] theorem over_unary {o : UnaryOp} : (unary o t).Over P ↔ t.Over P := Iff.rfl

@[simp] theorem over_binary {o : BinaryOp} : (binary o t u).Over P ↔ t.Over P ∧ u.Over P :=
  List.forall_mem_append

@[simp] theorem over_select {c : Term α ν} : (select c t u).Over P ↔ c.Over P ∧ t.Over P ∧ u.Over P := by
  unfold Over
  rw [leaves, List.append_assoc, List.forall_mem_append, List.forall_mem_append]

@[simp] theorem over_nary {o : NaryOp} : (nary o ts).Over P ↔ ∀ t ∈ ts, t.Over P := by
  unfold Over
  rw [leaves, leavesOf_eq_flatMap]
  exact List.forall_mem_flatMap

@[simp] theorem over_debug {label : Text} : (debug label t).Over P ↔ t.Over P := Iff.rfl

theorem Over.imp {Q : ν → Prop} (h : t.Over P) (hPQ : ∀ l, P l → Q l) : t.Over Q :=
  fun l hl => hPQ l (h l hl)

section
variable {γ : Type} {S : β → γ → Prop} {f : Node α β → β} {g : Node α γ → γ} {m : ν → β} {m' : ν → γ}

mutual
/-- Two meanings that are related at the leaves, and keep to this at every operator, are related at the
root. -/
theorem fold_rel (hnumber : ∀ x, S (f (.const x)) (g (.const x)))
    (hnode : ∀ (n : Node α β) (n' : Node α γ), n.op.isTerminal = false → n.op = n'.op →
      List.Forall₂ S n.operands n'.operands → S (f n) (g n')) :
    ∀ e : Term α ν, (e.Over fun l => S (m l) (m' l)) → S (e.fold f m) (e.fold g m')
  | leaf l, h => h l List.mem_cons_self
  | number x, _ => hnumber x
  | unary o t, h =>
    hnode (.unary o _) (.unary o _) rfl rfl (.cons (fold_rel hnumber hnode t (over_unary.mp h)) .nil)
  | binary o t u, h => by
    obtain ⟨ht, hu⟩ := over_binary.mp h
    exact hnode (.binary o _ _) (.binary o _ _) rfl rfl
      (.cons (fold_rel hnumber hnode t ht) (.cons (fold_rel hnumber hnode u hu) .nil))
  | select c t e, h => by
    obtain ⟨hc, ht, he⟩ := over_select.mp h
    exact hnode (.select _ _ _) (.select _ _ _) rfl rfl (.cons (fold_rel hnumber hnode c hc)
      (.cons (fold_rel hnumber hnode t ht) (.cons (fold_rel hnumber hnode e he) .nil)))
  | nary o ts, h => hnode (.nary o _) (.nary o _) rfl rfl (folds_rel hnumber hnode ts (over_nary.mp h))
  | debug l t, h =>
    hnode (.debug l _) (.debug l _) rfl rfl (.cons (fold_rel hnumber hnode t (over_debug.mp h)) .nil)

theorem folds_rel (hnumber : ∀ x, S (f (.const x)) (g (.const x)))
    (hnode : ∀ (n : Node α β) (n' : Node α γ), n.op.isTerminal = false → n.op = n'.op →
      List.Forall₂ S n.operands n'.operands → S (f n) (g n')) :
    ∀ ts : List (Term α ν), (∀ t ∈ ts, t.Over fun l => S (m l) (m' l)) →
      List.Forall₂ S (folds f m ts) (folds g m' ts)
  | [], _ => .nil
  | t :: ts, h => by
    obtain ⟨ht, hts⟩ := List.forall_mem_cons.mp h
    exact .cons (fold_rel hnumber hnode t ht) (folds_rel hnumber hnode ts hts)
end

theorem fold_congr {m' : ν → β} (e : Term α ν) (h : e.Over fun l => m l = m' l) :
    e.fold f m = e.fold f m' := by
  refine fold_rel (fun _ => rfl) (fun n n' _ hop hoperands => congrArg f (Node.ext_operands hop ?_)) e h
  exact List.forall₂_eq_eq_eq ▸ hoperands

theorem fold_induction_over {P : β → Prop} (hnumber : ∀ x, P (f (.const x)))
    (hnode : ∀ n : Node α β, n.op.isTerminal = false → (∀ b ∈ n.operands, P b) → P (f n))
    (e : Term α ν) (h : e.Over fun l => P (m l)) : P (e.fold f m) := by
  let S : β → Unit → Prop := fun b _ => P b
  change S (e.fold f m) (e.fold (fun _ => ()) fun _ => ())
  refine fold_rel hnumber (fun n n' hop _ hoperands => hnode n hop fun b hb => ?_) e h
  obtain ⟨_, _, hpb⟩ := exists_of_forall₂ hoperands hb
  exact hpb

end

theorem place_eq_of_mem_leaves {active j : Nat} {leafPlace : ν → Option Nat} {e : Term α ν}
    {l : Option Nat} (h : e.place active leafPlace = some l) {v : ν} (hv : v ∈ e.leaves)
    (hj : leafPlace v = some j) : l = some j := by
  have hrel : (e.leaves.any fun v => leafPlace v = some j) = true →
      ∀ l, e.place active leafPlace = some l → l = some j := by
    rw [← fold_mentions 0]
    refine fold_rel (S := fun (r : Option (Option Nat)) b => b = true → ∀ l, r = some l → l = some j)
      ?_ ?_ e ?_
    · rintro x ⟨⟩
    · intro n n' hop hsame hoperands hmentions l hl
      rw [Node.mentions, Node.position?_of_not_isTerminal (hsame ▸ hop), Bool.or_eq_true] at hmentions
      rcases hmentions with hposition | hany
      · cases hposition
      obtain ⟨b, hb, hbtrue⟩ := List.any_eq_true.mp hany
      obtain ⟨r, hr, hrb⟩ := exists_of_forall₂_right hoperands hb
      rw [Node.place_eq hop] at hl
      obtain ⟨ls, hls, hl⟩ := Option.bind_eq_some_iff.mp hl
      obtain ⟨k, hk, hl⟩ := Option.bind_eq_some_iff.mp hl
      have hmem : r ∈ ls.map some := of_list_mapM_eq_some hls ▸ List.mem_map_of_mem hr
      obtain ⟨i, hi, rfl⟩ := List.mem_map.mp hmem
      obtain rfl : i = some j := hrb hbtrue i rfl
      rw [← Option.some.inj hl, (of_sharedPlace_eq_some hk).1 j hi]
    · intro v _ hvj l hl
      exact (Option.some.inj hl).symm.trans (of_decide_eq_true hvj)
  exact hrel (List.any_eq_true.mpr ⟨v, hv, decide_eq_true hj⟩) l h

section
variable [CommRing α] {C : Calculus α} {leafValue leafValue' leafDerivative leafDerivative' : ν → α}

/-- The derivative of a tree is decided by the values and derivatives of its leaves. -/
theorem derivative_congr (e : Term α ν) (h : e.Over fun l =>
    leafValue l = leafValue' l ∧ leafDerivative l = leafDerivative' l) :
    e.derivative C leafValue leafDerivative = e.derivative C leafValue' leafDerivative' := by
  have hfold : e.fold (Node.tangent C #[] 0) (fun l => (leafValue l, leafDerivative l)) =
      e.fold (Node.tangent C #[] 0) fun l => (leafValue' l, leafDerivative' l) :=
    fold_congr e (h.imp fun l hl => Prod.ext hl.1 hl.2)
  rw [fold_tangent, fold_tangent] at hfold
  exact (Prod.mk.inj hfold).2

theorem derivative_eq_zero (e : Term α ν) (h : e.Over fun l => leafDerivative l = 0) :
    e.derivative C leafValue leafDerivative = 0 := by
  have hfold : (e.fold (Node.tangent C #[] 0) fun l => (leafValue l, leafDerivative l)).2 = 0 := by
    refine fold_induction_over (P := fun p : α × α => p.2 = 0) (fun _ => rfl) (fun n hop hn => ?_) e h
    refine Node.derivative_eq_zero ?_ (List.forall_mem_map.mpr hn)
    simp [Node.position?_of_not_isTerminal hop]
  rwa [fold_tangent] at hfold

end

theorem over_zipWith {f : Term α ν → Term α ν → Term α ν}
    (hf : ∀ t u, t.Over P → u.Over P → (f t u).Over P) (hts : ∀ t ∈ ts, t.Over P)
    (hus : ∀ u ∈ us, u.Over P) : ∀ t ∈ List.zipWith f ts us, t.Over P := by
  intro t ht
  rw [← List.map_uncurry_zip_eq_zipWith] at ht
  obtain ⟨⟨a, b⟩, hab, rfl⟩ := List.mem_map.mp ht
  obtain ⟨ha, hb⟩ := List.of_mem_zip hab
  exact hf a b (hts a ha) (hus b hb)

end Term

namespace Vector
variable {P : ν → Prop} {u v p q : List (Term α ν)}

theorem over_plus (hu : ∀ t ∈ u, t.Over P) (hv : ∀ t ∈ v, t.Over P) : ∀ t ∈ plus u v, t.Over P :=
  Term.over_zipWith (fun _ _ ht hs => Term.over_binary.mpr ⟨ht, hs⟩) hu hv

theorem over_minus (hu : ∀ t ∈ u, t.Over P) (hv : ∀ t ∈ v, t.Over P) : ∀ t ∈ minus u v, t.Over P :=
  Term.over_zipWith (fun _ _ ht hs => Term.over_binary.mpr ⟨ht, hs⟩) hu hv

theorem over_scaled {c : Term α ν} (hc : c.Over P) (hv : ∀ t ∈ v, t.Over P) :
    ∀ t ∈ scaled c v, t.Over P :=
  List.forall_mem_map.mpr fun t ht => Term.over_binary.mpr ⟨hc, hv t ht⟩

theorem over_dot (hu : ∀ t ∈ u, t.Over P) (hv : ∀ t ∈ v, t.Over P) : (dot u v).Over P :=
  Term.over_nary.mpr (Term.over_zipWith (fun _ _ ht hs => Term.over_binary.mpr ⟨ht, hs⟩) hu hv)

theorem over_norm (hv : ∀ t ∈ v, t.Over P) : (norm v).Over P :=
  Term.over_unary.mpr (Term.over_nary.mpr (List.forall_mem_map.mpr fun t ht =>
    Term.over_unary.mpr (hv t ht)))

theorem over_normalized (hv : ∀ t ∈ v, t.Over P) : ∀ t ∈ normalized v, t.Over P :=
  List.forall_mem_map.mpr fun t ht => Term.over_binary.mpr ⟨hv t ht, over_norm hv⟩

theorem over_rotated {turned : List (Term α ν)} (hv : ∀ t ∈ v, t.Over P)
    (hturned : rotated? v = some turned) : ∀ t ∈ turned, t.Over P := by
  unfold rotated? at hturned
  split at hturned
  · cases hturned
    simp only [List.forall_mem_cons] at hv ⊢
    exact ⟨Term.over_unary.mpr hv.2.1, hv.1, hv.2.2⟩
  · cases hturned

theorem over_oriented (zero : α) {normal inside : List (Term α ν)} (hn : ∀ t ∈ normal, t.Over P)
    (hi : ∀ t ∈ inside, t.Over P) (hp : ∀ t ∈ p, t.Over P) :
    ∀ t ∈ oriented zero normal inside p, t.Over P := by
  refine List.forall_mem_map.mpr fun t ht => Term.over_select.mpr ⟨?_, hn t ht, ?_⟩
  · exact Term.over_binary.mpr ⟨over_dot hn (over_minus hi hp), Term.over_number zero⟩
  · exact Term.over_unary.mpr (hn t ht)

end Vector

structure Ellipse.Over (P : ν → Prop) (e : Ellipse (Term α ν)) : Prop where
  a : e.a.Over P
  b : e.b.Over P
  c : e.c.Over P
  x : e.x.Over P
  y : e.y.Over P

structure HalfPlane.Over (P : ν → Prop) (h : HalfPlane (Term α ν)) : Prop where
  a : h.a.Over P
  b : h.b.Over P
  c : h.c.Over P

section
open Term Pencil
variable {P : ν → Prop} {x y d : Term α ν}

theorem Ellipse.Over.level {e : Ellipse (Term α ν)} (h : e.Over P) (hx : x.Over P) (hy : y.Over P) :
    (e.level x y).Over P := by
  simp [Ellipse.level, sub, add, mul, squared, h.a, h.b, h.c, h.x, h.y, hx, hy]

theorem HalfPlane.Over.level {e : HalfPlane (Term α ν)} (h : e.Over P) (hx : x.Over P) (hy : y.Over P) :
    (e.level x y).Over P := by
  simp [HalfPlane.level, sub, add, mul, h.a, h.b, h.c, hx, hy]

theorem Ellipse.over_radii (hx : x.Over P) (hy : y.Over P) (hd : d.Over P) :
    ∀ t ∈ radii x y d, t.Over P := by
  simp [radii, add, hx, hy, hd]

theorem Ellipse.over_ofRadii (hx : x.Over P) (hy : y.Over P) (hd : d.Over P) :
    ∀ t ∈ ofRadii x y d, t.Over P := by
  simp [ofRadii, add, div, mul, hx, hy, hd]

theorem Pencil.over_steps (numeral : Nat → α) {p q : Ellipse (Term α ν)} (hp : p.Over P) (hq : q.Over P) :
    ∀ t ∈ steps numeral p q, t.Over P := by
  simp [steps, alpha0, alpha1, scale, quadraticC, quadraticX, quadraticY, alpha2, alpha3, alpha4, num,
    add, sub, mul, neg, squared, hp.a, hp.b, hp.c, hp.x, hp.y, hq.a, hq.b, hq.c, hq.x, hq.y]

theorem Pencil.over_coefficients (numeral : Nat → α) {p q : Ellipse (Term α ν)} (hp : p.Over P)
    (hq : q.Over P) : ∀ t ∈ coefficients numeral p q, t.Over P := by
  intro t ht
  apply over_steps numeral hp hq
  unfold coefficients at ht
  simp only [List.mem_cons, List.not_mem_nil, or_false] at ht
  rcases ht with rfl | rfl | rfl | rfl | rfl <;> simp [steps]

theorem Pencil.over_monic {ts : List (Term α ν)} (h : ∀ t ∈ ts, t.Over P) (degree : Nat) :
    ∀ t ∈ monic ts degree, t.Over P := by
  unfold monic
  split
  · next lead hlead =>
    refine List.forall_mem_map.mpr fun t ht => over_binary.mpr ⟨?_, ?_⟩
    · exact h t (List.mem_of_mem_take ht)
    · exact h lead (List.mem_of_getElem? hlead)
  · simp

end

variable [DecidableEq α] [Hashable α] {R : Rules α} {k : Nat} {find : ν → Build α (Operand α)}
  {P : Workspace α → ν → Prop} {w : Workspace α}

namespace Term

/-- A leaf that satisfies `P` is found as an operand on the tapes, and goes on to satisfy it while the
tapes grow. -/
structure Grounds (k : Nat) (find : ν → Build α (Operand α)) (P : Workspace α → ν → Prop) : Prop where
  kept : ∀ w v l, P w l → w.Grows v → P v l
  found : ∀ w l, w.FoldedAt k → P w l → (find l).KeepsFolded k w fun x v => x.On v

theorem Over.grows (h : Grounds k find P) {v : Workspace α} (hwv : w.Grows v) {t : Term α ν}
    (ht : t.Over (P w)) : t.Over (P v) := ht.imp fun l hl => h.kept w v l hl hwv

theorem keepsFolded_handle (hw : w.FoldedAt k) {n : Node α (Operand α)} (hop : n.op.isTerminal = false)
    (hn : ∀ x ∈ n.operands, x.On w) :
    (do return .handle (← construct R n) : Build α (Operand α)).KeepsFolded k w fun x v => x.On v := by
  apply (keepsFolded_construct hw hop hn).bind
  intro h v hv _ hh
  exact Build.keepsFolded_pure hv hh

theorem number_on (x : α) : (Operand.number x).On w := by
  rintro y ⟨⟩

mutual
theorem keepsFolded_build (h : Grounds k find P) :
    ∀ (e : Term α ν) (w : Workspace α), w.FoldedAt k → e.Over (P w) →
      (e.build R find).KeepsFolded k w fun x v => x.On v
  | leaf l, w, hw, he => by
    rw [build]
    exact h.found w l hw (over_leaf.mp he)
  | number x, w, hw, _ => by
    rw [build]
    exact Build.keepsFolded_pure hw (number_on x)
  | unary o t, w, hw, he => by
    rw [build]
    apply (keepsFolded_build h t w hw he).bind
    intro x v hv _ hx
    exact keepsFolded_handle hv rfl (by simpa [Node.operands] using hx)
  | binary o t u, w, hw, he => by
    obtain ⟨ht, hu⟩ := over_binary.mp he
    rw [build]
    apply (keepsFolded_build h t w hw ht).bind
    intro x v hv hwv hx
    apply (keepsFolded_build h u v hv (hu.grows h hwv)).bind
    intro y v' hv' hgrows hy
    exact keepsFolded_handle hv' rfl (by simpa [Node.operands] using ⟨hx.grows hgrows, hy⟩)
  | select c t e, w, hw, he => by
    obtain ⟨hc, ht, he⟩ := over_select.mp he
    rw [build]
    apply (keepsFolded_build h c w hw hc).bind
    intro x v hv hwv hx
    apply (keepsFolded_build h t v hv (ht.grows h hwv)).bind
    intro y v' hv' hgrows hy
    apply (keepsFolded_build h e v' hv' (he.grows h (hwv.trans hgrows))).bind
    intro z u hu hgrows' hz
    have hx' := hx.grows (hgrows.trans hgrows')
    exact keepsFolded_handle hu rfl (by simpa [Node.operands] using ⟨hx', hy.grows hgrows', hz⟩)
  | nary o ts, w, hw, he => by
    rw [build]
    apply (keepsFolded_buildAll h ts w hw (over_nary.mp he)).bind
    intro xs v hv _ hxs
    exact keepsFolded_handle hv rfl hxs
  | debug l t, w, hw, he => by
    rw [build]
    apply (keepsFolded_build h t w hw he).bind
    intro x v hv _ hx
    exact keepsFolded_handle hv rfl (by simpa [Node.operands] using hx)

theorem keepsFolded_buildAll (h : Grounds k find P) :
    ∀ (ts : List (Term α ν)) (w : Workspace α), w.FoldedAt k → (∀ t ∈ ts, t.Over (P w)) →
      (buildAll R find ts).KeepsFolded k w fun xs v => ∀ x ∈ xs, x.On v
  | [], w, hw, _ => by
    rw [buildAll]
    exact Build.keepsFolded_pure hw (by simp)
  | t :: ts, w, hw, hts => by
    obtain ⟨ht, hts⟩ := List.forall_mem_cons.mp hts
    rw [buildAll]
    apply (keepsFolded_build h t w hw ht).bind
    intro x v hv hwv hx
    apply (keepsFolded_buildAll h ts v hv fun t ht => (hts t ht).grows h hwv).bind
    intro xs u hu hvu hxs
    exact Build.keepsFolded_pure hu (List.forall_mem_cons.mpr ⟨hx.grows hvu, hxs⟩)
end

theorem keepsFolded_buildAfter (h : Grounds k find P) {first results : List (Term α ν)}
    (hw : w.FoldedAt k) (hfirst : ∀ t ∈ first, t.Over (P w)) (hresults : ∀ t ∈ results, t.Over (P w)) :
    (buildAfter R find first results).KeepsFolded k w fun xs v => ∀ x ∈ xs, x.On v := by
  apply (keepsFolded_buildAll h first w hw hfirst).discard.bind
  intro _ v hv hwv _
  exact keepsFolded_buildAll h results v hv fun t ht => (hresults t ht).grows h hwv

end Term

namespace Vector
variable {u v p q : List (Term α ν)}

theorem keepsFolded_buildNormalized (h : Term.Grounds k find P) (hw : w.FoldedAt k)
    (hv : ∀ t ∈ v, t.Over (P w)) :
    (buildNormalized R find v).KeepsFolded k w fun xs u => ∀ x ∈ xs, x.On u :=
  Term.keepsFolded_buildAfter h hw (List.forall_mem_singleton.mpr (over_norm hv)) (over_normalized hv)

theorem keepsFolded_buildNormal (h : Term.Grounds k find P) (hw : w.FoldedAt k)
    (hp : ∀ t ∈ p, t.Over (P w)) (hq : ∀ t ∈ q, t.Over (P w)) :
    (buildNormal R find p q).KeepsFolded k w fun normal u => ∀ t ∈ normal, t.Over (P u) := by
  have hminus := over_minus hq hp
  unfold buildNormal
  apply (Term.keepsFolded_buildAll h _ w hw hminus).discard.bind
  intro _ v hv hwv _
  split
  · exact Build.keepsFolded_throw hv _
  · next turned hturned =>
    have hover : ∀ u, w.Grows u → ∀ t ∈ turned, t.Over (P u) := fun u hwu t ht =>
      (over_rotated hminus hturned t ht).grows h hwu
    apply (Term.keepsFolded_buildAll h turned v hv (hover v hwv)).discard.bind
    intro _ v' hv' hvv' _
    apply (keepsFolded_buildNormalized h hv' (hover v' (hwv.trans hvv'))).discard.bind
    intro _ u hu hvu _
    exact Build.keepsFolded_pure hu (over_normalized (hover u ((hwv.trans hvv').trans hvu)))

theorem keepsFolded_buildOutward (h : Term.Grounds k find P) (hw : w.FoldedAt k) (zero : α)
    (hp : ∀ t ∈ p, t.Over (P w)) (hq : ∀ t ∈ q, t.Over (P w))
    {inside : Except Fault (List (Term α ν))} (hi : ∀ ts, inside = .ok ts → ∀ t ∈ ts, t.Over (P w)) :
    (buildOutward R find zero p q inside).KeepsFolded k w fun normal u =>
      ∀ n ∈ normal, n.1.Over (P u) ∧ n.2.On u := by
  unfold buildOutward
  apply (keepsFolded_buildNormal h hw hp hq).bind
  intro normal v hv hwv hnormal
  apply (Build.keepsFolded_ofExcept (P := fun ts => ∀ t ∈ ts, t.Over (P v)) hv
    fun ts hts t ht => (hi ts hts t ht).grows h hwv).bind_unchanged
  intro inside hinside
  have hpv : ∀ t ∈ p, t.Over (P v) := fun t ht => (hp t ht).grows h hwv
  have houtward := over_oriented zero hnormal hinside hpv
  apply (Term.keepsFolded_buildAfter h hv (over_minus hinside hpv) houtward).bind
  intro xs u hu hvu hxs
  refine Build.keepsFolded_pure hu fun n hn => ?_
  obtain ⟨ht, hx⟩ := List.of_mem_zip hn
  exact ⟨(houtward _ ht).grows h hvu, hxs _ hx⟩

end Vector

theorem Ellipse.keepsFolded_buildOfRadii (h : Term.Grounds k find P) (hw : w.FoldedAt k)
    {rx ry d : Term α ν} (hx : rx.Over (P w)) (hy : ry.Over (P w)) (hd : d.Over (P w)) :
    (buildOfRadii R find rx ry d).KeepsFolded k w fun xs u => ∀ x ∈ xs, x.On u :=
  Term.keepsFolded_buildAfter h hw (over_radii hx hy hd) (over_ofRadii hx hy hd)

theorem HalfPlane.keepsFolded_build (h : Term.Grounds k find P) (hw : w.FoldedAt k) (zero : α)
    {p q : List (Term α ν)} (hp : ∀ t ∈ p, t.Over (P w)) (hq : ∀ t ∈ q, t.Over (P w))
    {inside start : Except Fault (List (Term α ν))}
    (hi : ∀ ts, inside = .ok ts → ∀ t ∈ ts, t.Over (P w))
    (hs : ∀ ts, start = .ok ts → ∀ t ∈ ts, t.Over (P w)) {d : Term α ν} (hd : d.Over (P w)) :
    (HalfPlane.build R find zero p q inside start d).KeepsFolded k w fun e u =>
      e.a.On u ∧ e.b.On u ∧ e.c.On u := by
  unfold HalfPlane.build
  apply (Vector.keepsFolded_buildOutward h hw zero hp hq hi).bind
  intro normal v hv hwv hnormal
  split
  · next a b =>
    obtain ⟨⟨ha, hax⟩, hb⟩ := List.forall_mem_cons.mp hnormal
    obtain ⟨hb, hbx⟩ := List.forall_mem_singleton.mp hb
    apply (Build.keepsFolded_ofExcept (P := fun ts => ∀ t ∈ ts, t.Over (P v)) hv
      fun ts hts t ht => (hs ts hts t ht).grows h hwv).bind_unchanged
    intro start hstart
    have hoffset : (offset [a.1, b.1] start d).Over (P v) := by
      refine Term.over_binary.mpr ⟨Vector.over_dot ?_ hstart, hd.grows h hwv⟩
      exact List.forall_mem_cons.mpr ⟨ha, List.forall_mem_singleton.mpr hb⟩
    apply (Term.keepsFolded_build h _ v hv hoffset).bind
    intro c u hu hvu hc
    exact Build.keepsFolded_pure hu ⟨hax.grows hvu, hbx.grows hvu, hc⟩
  · exact Build.keepsFolded_throw hv _

namespace Pencil
variable {p q : Ellipse (Term α ν)}

theorem keepsFolded_buildCoefficients (h : Term.Grounds k find P) (hw : w.FoldedAt k)
    (numeral : Nat → α) (hp : p.Over (P w)) (hq : q.Over (P w)) :
    (buildCoefficients numeral find R p q).KeepsFolded k w fun xs u => ∀ x ∈ xs, x.On u :=
  Term.keepsFolded_buildAfter h hw (over_steps numeral hp hq) (over_coefficients numeral hp hq)

theorem keepsFolded_buildPolynomial [Written α] (h : Term.Grounds k find P) (hw : w.FoldedAt k)
    (numeral : Nat → α) (C : Calculus α) (hp : p.Over (P w)) (hq : q.Over (P w)) :
    (buildPolynomial numeral find C p q).KeepsFolded k w fun xs u => ∀ x ∈ xs, x.On u := by
  unfold buildPolynomial
  apply (keepsFolded_buildCoefficients h hw numeral hp hq).bind
  intro os v hv hwv _
  apply ((logsOnly_numbersOf C os).keepsFolded hv).bind
  intro values u hu hvu _
  apply Term.keepsFolded_buildAll h _ u hu
  exact fun t ht => (over_monic (over_coefficients numeral hp hq) _ t ht).grows h (hwv.trans hvu)

end Pencil
end ScalarGraph
