import ScalarGraph.Geometry.Shape
import ScalarGraph.Proofs.Dual
import ScalarGraph.Proofs.Term.Arithmetic
import ScalarGraph.Proofs.Term.Items
import ScalarGraph.Proofs.Term.Reduction

/-! # Half-planes of a segment

The unit normal of a segment is turned away from a point by a condition on the tape. So the level of the
half-plane, which is the padding on the border, is at most the padding at that point wherever the points
move. When the segment is reversed the normal changes its sign and the condition its outcome, unless the
point is on the line.
-/
namespace ScalarGraph
variable {α τ σ : Type}

def HalfPlane.map (f : τ → σ) (h : HalfPlane τ) : HalfPlane σ := ⟨f h.a, f h.b, f h.c⟩

namespace Plane
variable {K : Type} [Field K]

def dot (u v : K × K) : K := u.1 * v.1 + u.2 * v.2

/-- The line through `p` and `q`; of one point twice, that point. -/
def OnLine (p q x : K × K) : Prop := ∃ s : K, x = p + s • (q - p)

def normal (length : K) (p q : K × K) : K × K := (-(q.2 - p.2) / length, (q.1 - p.1) / length)

variable {length : K} {p q x : K × K}

theorem normal_swap : normal length q p = -normal length p q := by
  unfold normal
  ext <;> simp only [Prod.neg_mk] <;> ring

theorem dot_normal_self : dot (normal length p q) (q - p) = 0 := by
  simp only [dot, normal, Prod.fst_sub, Prod.snd_sub]
  ring

/-- Both ends of a segment have the same offset along the normal. -/
theorem dot_normal_ends : dot (normal length p q) q = dot (normal length p q) p := by
  have h : dot (normal length p q) (q - p) = 0 := dot_normal_self
  simp only [dot, Prod.fst_sub, Prod.snd_sub] at h ⊢
  linear_combination h

theorem onLine_of_dot_normal_eq_zero (h : dot (normal length p q) (x - p) = 0) :
    normal length p q = 0 ∨ OnLine p q x := by
  by_cases hlength : length = 0
  · left
    simp [normal, hlength]
  have hcross : (q.1 - p.1) * (x.2 - p.2) = (q.2 - p.2) * (x.1 - p.1) := by
    simp only [dot, normal, Prod.fst_sub, Prod.snd_sub] at h
    field_simp at h
    linear_combination h
  by_cases hx : q.1 - p.1 = 0
  · by_cases hy : q.2 - p.2 = 0
    · left
      simp [normal, hx, hy]
    · right
      refine ⟨(x.2 - p.2) / (q.2 - p.2), ?_⟩
      have hx1 : x.1 - p.1 = 0 := by simpa [hx, hy] using hcross
      ext
      · simpa [hx] using sub_eq_zero.mp hx1
      · simp [div_mul_cancel₀ _ hy]
  · right
    refine ⟨(x.1 - p.1) / (q.1 - p.1), ?_⟩
    ext
    · simp [div_mul_cancel₀ _ hx]
    · simp only [Prod.snd_add, Prod.smul_snd, Prod.snd_sub, smul_eq_mul]
      field_simp
      linear_combination hcross

variable [LinearOrder K]

/-- A normal, turned away from the point `x` where `p` is on the border. -/
def outward (n p x : K × K) : K × K := if dot n (x - p) < 0 then n else -n

theorem dot_outward_ends : dot (outward (normal length p q) p x) q = dot (outward (normal length p q) p x) p := by
  have h : dot (normal length p q) q = dot (normal length p q) p := dot_normal_ends
  unfold outward
  split
  · exact h
  · simp only [dot, Prod.fst_neg, Prod.snd_neg] at h ⊢
    linear_combination -h

section
variable [IsStrictOrderedRing K] {n : K × K}

theorem dot_outward_nonpos : dot (outward n p x) (x - p) ≤ 0 := by
  unfold outward
  split
  · next h => exact h.le
  · next h =>
    have hneg : dot (-n) (x - p) = -dot n (x - p) := by
      simp only [dot, Prod.fst_neg, Prod.snd_neg]
      ring
    rw [hneg]
    exact neg_nonpos.mpr (not_lt.mp h)

/-- The outward normals of a segment and of its reverse are one, unless the point is on the line. -/
theorem outward_swap (h : ¬OnLine p q x) :
    outward (normal length q p) q x = outward (normal length p q) p x := by
  have hdot : dot (-normal length p q) (x - q) = -dot (normal length p q) (x - p) := by
    have h : dot (normal length p q) q = dot (normal length p q) p := dot_normal_ends
    simp only [dot, Prod.fst_sub, Prod.snd_sub, Prod.fst_neg, Prod.snd_neg] at h ⊢
    linear_combination h
  unfold outward
  simp only [normal_swap (p := p) (q := q), hdot, neg_neg, neg_lt_zero]
  rcases lt_trichotomy (dot (normal length p q) (x - p)) 0 with hlt | heq | hgt
  · rw [if_neg hlt.not_gt, if_pos hlt]
  · rcases onLine_of_dot_normal_eq_zero heq with hzero | hline
    · simp [hzero]
    · exact (h hline).elim
  · rw [if_pos hgt, if_neg hgt.not_gt]

end

def level (h : HalfPlane K) (x : K × K) : K := h.a * x.1 + h.b * x.2 - h.c

/-- The half-plane with an outward normal whose border has the point `p` at the distance `padding`. -/
def halfPlane (n p : K × K) (padding : K) : HalfPlane K := ⟨n.1, n.2, dot n p - padding⟩

def guardedLength (rest : Elementary K) (p q : K × K) : K :=
  rest.sqrt (-(q.2 - p.2) * -(q.2 - p.2) + (q.1 - p.1) * (q.1 - p.1)) + rest.guard

def outwardNormal (rest : Elementary K) (p q x : K × K) : K × K :=
  outward (normal (guardedLength rest p q) p q) p x

/-- The half-plane of a segment that contains the point `x`. -/
def bounded (rest : Elementary K) (p q x : K × K) (padding : K) : HalfPlane K :=
  halfPlane (outwardNormal rest p q x) p padding

omit [LinearOrder K] in
theorem guardedLength_swap (rest : Elementary K) : guardedLength rest q p = guardedLength rest p q := by
  unfold guardedLength
  congr 2
  ring

variable (rest : Elementary K) (padding : K)

theorem level_bounded_start : level (bounded rest p q x padding) p = padding := by
  simp only [level, bounded, halfPlane, dot]
  ring

theorem level_bounded_finish : level (bounded rest p q x padding) q = padding := by
  have h : dot (outwardNormal rest p q x) q = dot (outwardNormal rest p q x) p := dot_outward_ends
  simp only [level, bounded, halfPlane, dot] at h ⊢
  linear_combination h

theorem level_bounded_inside [IsStrictOrderedRing K] :
    level (bounded rest p q x padding) x ≤ padding := by
  have h : dot (outwardNormal rest p q x) (x - p) ≤ 0 := dot_outward_nonpos
  simp only [level, bounded, halfPlane, dot, Prod.fst_sub, Prod.snd_sub] at h ⊢
  linarith

theorem bounded_swap [IsStrictOrderedRing K] (h : ¬OnLine p q x) :
    bounded rest q p x padding = bounded rest p q x padding := by
  have hnormal : outwardNormal rest q p x = outwardNormal rest p q x := by
    unfold outwardNormal
    rw [guardedLength_swap]
    exact outward_swap h
  have hends : dot (outwardNormal rest p q x) q = dot (outwardNormal rest p q x) p := dot_outward_ends
  unfold bounded halfPlane
  rw [hnormal, hends]

end Plane

section
variable [DecidableEq α] [Hashable α]

abbrev Workspace.Point (w : Workspace α) : Type := w.Item × w.Item

namespace Workspace.Point
variable {w v : Workspace α}

def terms (p : w.Point) : List (Term α w.Item) := [.leaf p.1, .leaf p.2]

def value (R : Rules α) (xs : Array α) (p : w.Point) : α × α := (p.1.value R xs, p.2.value R xs)

def grows (p : w.Point) (h : w.Grows v) : v.Point := (p.1.grows h, p.2.grows h)

def turned (p q : w.Point) : List (Term α w.Item) :=
  [.neg (.sub (.leaf q.2) (.leaf p.2)), .sub (.leaf q.1) (.leaf p.1)]

theorem value_grows (p : w.Point) (hw : w.Ready) (hv : v.Ready) (h : w.Grows v) (R : Rules α) (xs : Array α) :
    (p.grows h).value R xs = p.value R xs :=
  Prod.ext (p.1.value_grows hw hv h R xs) (p.2.value_grows hw hv h R xs)

theorem over_terms {P : w.Item → Prop} (p : w.Point) (hx : P p.1) (hy : P p.2) :
    ∀ t ∈ p.terms, t.Over P := by
  unfold terms
  simp [hx, hy]

end Workspace.Point

variable {w v u : Workspace α} {P : w.Item → Prop} {p q inside start turned : List (Term α w.Item)}

namespace Vector
open Term

theorem safe_buildNormal (R : Rules α) (hw : w.Ready) (hv : v.Ready) (hwv : w.Grows v)
    (hp : ∀ t ∈ p, t.Over P) (hq : ∀ t ∈ q, t.Over P) (hturned : rotated? (minus q p) = some turned) :
    (buildNormal R Workspace.Item.find p q).Safe v (w.Misplaced P) fun normal _ =>
      normal = normalized turned := by
  have hminus := over_minus hq hp
  have hover := over_rotated hminus hturned
  unfold buildNormal
  refine Build.Safe.bind (safe_buildAll_over R hw hv hwv hminus).discard ?_
  rintro - v' hv' hvv' -
  rw [hturned]
  have hwv' := hwv.trans hvv'
  refine Build.Safe.bind (safe_buildAll_over R hw hv' hwv' hover).discard ?_
  rintro - u hu hvu -
  have hnormalized := safe_buildAfter_over R hw hu (hwv'.trans hvu)
    (List.forall_mem_singleton.mpr (over_norm hover)) (over_normalized hover)
  refine Build.Safe.bind hnormalized.discard ?_
  rintro - s hs - -
  exact Build.safe_pure hs rfl

theorem safe_buildOutward (R : Rules α) (zero : α) (hw : w.Ready) (hv : v.Ready) (hwv : w.Grows v)
    (hp : ∀ t ∈ p, t.Over P) (hq : ∀ t ∈ q, t.Over P) (hinside : ∀ t ∈ inside, t.Over P)
    (hturned : rotated? (minus q p) = some turned) :
    (buildOutward R Workspace.Item.find zero p q (.ok inside)).Safe v (w.Misplaced P) fun ns u =>
      List.Forall₂ (fun e n => n.1 = e ∧ e.Amounts R w.active u n.2)
        (oriented zero (normalized turned) inside p) ns := by
  unfold buildOutward
  refine Build.Safe.bind (safe_buildNormal R hw hv hwv hp hq hturned) ?_
  rintro _ v' hv' hvv' rfl
  have hnormal := over_normalized (over_rotated (over_minus hq hp) hturned)
  rw [Build.ofExcept_ok, pure_bind]
  refine Build.Safe.bind (safe_buildAfter_over R hw hv' (hwv.trans hvv') (over_minus hinside hp)
    (over_oriented zero hnormal hinside hp)) ?_
  rintro xs u hu - ⟨-, hxs⟩
  exact Build.safe_pure hu (forall₂_zip_right hxs)

end Vector

/-- The half-plane of two points is built with the terms of an outward normal, unless one has no place. -/
theorem HalfPlane.safe_build (R : Rules α) (zero : α) (hw : w.Ready) (hv : v.Ready) (hwv : w.Grows v)
    (hp : ∀ t ∈ p, t.Over P) (hq : ∀ t ∈ q, t.Over P) (hinside : ∀ t ∈ inside, t.Over P)
    (hstart : ∀ t ∈ start, t.Over P) {padding : Term α w.Item} (hpadding : padding.Over P)
    (hturned : Vector.rotated? (Vector.minus q p) = some turned) {a b : Term α w.Item}
    (hab : Vector.oriented zero (Vector.normalized turned) inside p = [a, b]) :
    (HalfPlane.build R Workspace.Item.find zero p q (.ok inside) (.ok start) padding).Safe v
      (w.Misplaced P) fun h u => a.Amounts R w.active u h.a ∧ b.Amounts R w.active u h.b ∧
        (offset [a, b] start padding).Amounts R w.active u h.c := by
  have hnormal := Vector.over_oriented zero
    (Vector.over_normalized (Vector.over_rotated (Vector.over_minus hq hp) hturned)) hinside hp
  rw [hab] at hnormal
  unfold HalfPlane.build
  refine Build.Safe.bind (Vector.safe_buildOutward R zero hw hv hwv hp hq hinside hturned) ?_
  rintro ns v' hv' hvv' hns
  rw [hab] at hns
  obtain ⟨m, n, ⟨rfl, ha⟩, ⟨rfl, hb⟩, rfl⟩ : ∃ m n, (m.1 = a ∧ a.Amounts R w.active v' m.2) ∧
      (n.1 = b ∧ b.Amounts R w.active v' n.2) ∧ ns = [m, n] := by
    cases hns with
    | cons hm hns =>
      cases hns with
      | cons hn hns =>
        cases hns
        exact ⟨_, _, hm, hn, rfl⟩
  dsimp only
  rw [Build.ofExcept_ok, pure_bind]
  have hoffset : (offset [m.1, n.1] start padding).Over P :=
    Term.over_binary.mpr ⟨Vector.over_dot hnormal hstart, hpadding⟩
  have hsafe := Term.safe_build_amounts R hw hv' (hwv.trans hvv') (offset [m.1, n.1] start padding)
  rw [(hwv.trans hvv').active_eq] at hsafe
  refine Build.Safe.bind (hsafe.weaken fun hnone => ⟨_, hoffset, hnone⟩) ?_
  rintro c u hu hvu ⟨-, hc⟩
  exact Build.safe_pure hu ⟨ha.grows hvu, hb.grows hvu, hc⟩
end

section
variable {ν K : Type} [Field K] [LinearOrder K] (rest : Elementary K)

theorem Elementary.truthy_truth (b : Bool) : rest.ofField.truthy (rest.ofField.truth b) = b := by
  cases b <;> simp [truthy, truth, ofField]

theorem Term.value_select_lt (leafValue : ν → K) (t x y : Term K ν) :
    (Term.select (.binary .lt t (.number 0)) x y).value rest.ofField.rules leafValue =
      if t.value rest.ofField.rules leafValue < 0 then x.value rest.ofField.rules leafValue
      else y.value rest.ofField.rules leafValue := by
  change (if rest.ofField.truthy (rest.ofField.truth (decide _)) then _ else _) = _
  simp only [Elementary.truthy_truth, decide_eq_true_eq]
  rfl

variable [DecidableEq K] [Hashable K] {w : Workspace K} (p q inside : w.Point)

theorem Vector.exists_oriented : ∃ a b : Term K w.Item,
    Vector.oriented 0 (Vector.normalized (p.turned q)) inside.terms p.terms = [a, b] ∧
      a.IsOperator ∧ b.IsOperator ∧ ∀ xs, let m := Workspace.Item.value rest.ofField.rules xs
        (a.value rest.ofField.rules m, b.value rest.ofField.rules m) =
          Plane.outwardNormal rest (p.value rest.ofField.rules xs) (q.value rest.ofField.rules xs)
            (inside.value rest.ofField.rules xs) := by
  refine ⟨_, _, rfl, trivial, trivial, fun xs => ?_⟩
  simp only [Vector.facesAway, Term.value_select_lt]
  unfold Plane.outwardNormal Plane.outward
  split
  · next h => exact (if_pos h).symm
  · next h => exact (if_neg h).symm

end

section
variable [DecidableEq α] [Hashable α] {w v : Workspace α}

/-- The half-plane of the segment from `p` to `q` that contains `inside`, over the plain arithmetic of
`E`. -/
def HalfPlane.ofSegment (E : Elementary α) (p q inside : w.Point) (padding : w.Item) :
    Build α (HalfPlane (Operand α)) :=
  HalfPlane.build E.rules Workspace.Item.find E.zero p.terms q.terms (.ok inside.terms) (.ok p.terms)
    (.leaf padding)

def HalfPlane.levelAt (h : HalfPlane w.Item) (p : w.Point) : Term α w.Item :=
  (h.map Term.leaf).level (.leaf p.1) (.leaf p.2)

variable [Written α]

/-- The parameters are handles, and programs of them give those of `f xs` at every vector `xs`. -/
structure HalfPlane.Computes (C : Calculus α) (w : Workspace α) (h : HalfPlane (Operand α))
    (f : Array α → HalfPlane α) : Prop where
  a : h.a.Computes C w fun xs => (f xs).a
  b : h.b.Computes C w fun xs => (f xs).b
  c : h.c.Computes C w fun xs => (f xs).c

/-- The level is the padding at both ends of the segment, and at most the padding at the inner point. -/
structure HalfPlane.Bounds [LE α] (C : Calculus α) (h : HalfPlane w.Item) (p q inside : w.Point)
    (padding : w.Item) : Prop where
  start : (h.levelAt p).Computes C fun xs => padding.value C.rules xs
  finish : (h.levelAt q).Computes C fun xs => padding.value C.rules xs
  inside : ∃ f, (h.levelAt inside).Computes C f ∧ ∀ xs, f xs ≤ padding.value C.rules xs

end

section
variable {K : Type} [Field K] [LinearOrder K] [DecidableEq K] [Hashable K] [Written K] (rest : Elementary K)
  {w v u : Workspace K} (p q inside : w.Point) (padding : w.Item)

theorem HalfPlane.safe_ofSegment {P : w.Item → Prop} (hw : w.Ready) (hv : v.Ready) (hwv : w.Grows v)
    (hgiven : ∀ x ∈ [p.1, p.2, q.1, q.2, inside.1, inside.2, padding], P x) :
    (ofSegment rest.ofField p q inside padding).Safe v (w.Misplaced P) fun h u =>
      ∃ H : HalfPlane u.Item, H.map Workspace.Item.operand = h ∧
        (∀ xs, H.map (Workspace.Item.value rest.ofField.rules xs) =
          Plane.bounded rest (p.value rest.ofField.rules xs) (q.value rest.ofField.rules xs)
            (inside.value rest.ofField.rules xs) (padding.value rest.ofField.rules xs)) ∧
        h.Computes rest.ofField.calculus u fun xs => H.map (Workspace.Item.value rest.ofField.rules xs) := by
  simp only [List.forall_mem_cons] at hgiven
  obtain ⟨hp₁, hp₂, hq₁, hq₂, hi₁, hi₂, hpadding, -⟩ := hgiven
  have hp := p.over_terms hp₁ hp₂
  obtain ⟨a, b, hab, haOperator, hbOperator, hnormal⟩ := Vector.exists_oriented rest p q inside
  refine (safe_build rest.ofField.rules rest.ofField.zero hw hv hwv hp (q.over_terms hq₁ hq₂)
    (inside.over_terms hi₁ hi₂) hp (Term.over_leaf.mpr hpadding) rfl hab).imp ?_
  rintro h u hu - ⟨ha, hb, hc⟩
  obtain ⟨A, _, hA, hplaceA, hvalueA⟩ := ha.exists_item haOperator hu
  obtain ⟨B, _, hB, hplaceB, hvalueB⟩ := hb.exists_item hbOperator hu
  obtain ⟨D, _, hD, hplaceD, hvalueD⟩ := hc.exists_item trivial hu
  refine ⟨⟨A, B, D⟩, ?_, fun xs => ?_, ?_⟩
  · simp only [HalfPlane.map, hA, hB, hD]
  · rw [Plane.bounded, ← hnormal xs]
    simp only [HalfPlane.map, hvalueA, hvalueB, hvalueD]
    rfl
  · exact ⟨hA ▸ A.computes hu hplaceA, hB ▸ B.computes hu hplaceB, hD ▸ D.computes hu hplaceD⟩

/-- The half-plane of a segment can be built on the active tape. Wherever it is built, its level is the
padding at both ends of the segment and at most the padding at the inner point, at every vector. When the
segment is reversed the parameters are the same wherever the inner point is not on the line. -/
theorem HalfPlane.ofSegment_bounds [IsStrictOrderedRing K] (hw : w.Ready) :
    ((∀ x ∈ [p.1, p.2, q.1, q.2, inside.1, inside.2, padding], x.Active) →
      ∃ h v, (ofSegment rest.ofField p q inside padding).run w = (.ok h, v)) ∧
    ∀ h v, (ofSegment rest.ofField p q inside padding).run w = (.ok h, v) →
      (∃ (hwv : w.Grows v) (H : HalfPlane v.Item), H.map Workspace.Item.operand = h ∧
        H.Bounds rest.ofField.calculus (p.grows hwv) (q.grows hwv) (inside.grows hwv)
          (padding.grows hwv)) ∧
      ∃ f, h.Computes rest.ofField.calculus v f ∧
        ∀ (u s : Workspace K) g, u.Ready → w.Grows u →
          (ofSegment rest.ofField q p inside padding).run u = (.ok g, s) →
          ∃ f', g.Computes rest.ofField.calculus s f' ∧
            ∀ xs, ¬Plane.OnLine (p.value rest.ofField.rules xs) (q.value rest.ofField.rules xs)
              (inside.value rest.ofField.rules xs) → f' xs = f xs := by
  refine ⟨fun hactive => ?_, fun h v hrun => ?_⟩
  · obtain ⟨h, v, hrun, -⟩ := ((safe_ofSegment rest p q inside padding hw hw (.refl w) hactive).weaken
      Workspace.not_misplaced).exists_run
    exact ⟨h, v, hrun⟩
  have hany : ∀ x ∈ [p.1, p.2, q.1, q.2, inside.1, inside.2, padding], True := fun _ _ => trivial
  obtain ⟨hv, hwv, H, hH, hvalues, hcomputes⟩ :=
    (safe_ofSegment rest p q inside padding hw hw (.refl w) hany).of_run hrun
  refine ⟨⟨hwv, H, hH, ?_⟩, _, hcomputes, fun u s g hu hwu hrun' => ?_⟩
  · have hlevel : ∀ (x : w.Point) xs, (H.levelAt (x.grows hwv)).value rest.ofField.rules
        (Workspace.Item.value rest.ofField.rules xs) = Plane.level
          (Plane.bounded rest (p.value rest.ofField.rules xs) (q.value rest.ofField.rules xs)
            (inside.value rest.ofField.rules xs) (padding.value rest.ofField.rules xs))
          (x.value rest.ofField.rules xs) := fun x xs => by
      rw [← hvalues, ← x.value_grows hw hv hwv]
      rfl
    have hpadding := fun xs => padding.value_grows hw hv hwv rest.ofField.rules xs
    have hoperator : ∀ x : v.Point, (H.levelAt x).IsOperator := fun _ => trivial
    refine ⟨(hoperator _).computes hv fun xs => ?_, (hoperator _).computes hv fun xs => ?_, _,
      (hoperator _).computes hv fun _ => rfl, fun xs => ?_⟩
    · exact ((hlevel p xs).trans (Plane.level_bounded_start rest _)).trans (hpadding xs).symm
    · exact ((hlevel q xs).trans (Plane.level_bounded_finish rest _)).trans (hpadding xs).symm
    · exact ((hlevel inside xs).trans_le (Plane.level_bounded_inside rest _)).trans_eq (hpadding xs).symm
  · have hany' : ∀ x ∈ [q.1, q.2, p.1, p.2, inside.1, inside.2, padding], True := fun _ _ => trivial
    obtain ⟨-, -, G, -, hvalues', hcomputes'⟩ :=
      (safe_ofSegment rest q p inside padding hw hu hwu hany').of_run hrun'
    refine ⟨_, hcomputes', fun xs hline => ?_⟩
    rw [hvalues, hvalues']
    exact Plane.bounded_swap rest _ hline

end

/-- The segment from the origin to a point with an input, with the square roots of squares. -/
theorem HalfPlane.ofSegment_bounds_inputEnd : ∃ (rest : Elementary ℚ) (w : Workspace ℚ) (x : w.Item),
    rest.sqrt 25 = 5 ∧ w.Ready ∧ x.place = some w.active ∧
      let number := Workspace.Item.number w
      let p : w.Point := (number 0, number 0)
      let q : w.Point := (x, number 4)
      let inside : w.Point := (number 0, number 1)
      ∃ h v g u f f', (ofSegment rest.ofField p q inside (number (1 / 2))).run w = (.ok h, v) ∧
        (∃ (hwv : w.Grows v) (H : HalfPlane v.Item), H.map Workspace.Item.operand = h ∧
          H.Bounds rest.ofField.calculus (p.grows hwv) (q.grows hwv) (inside.grows hwv)
            ((number (1 / 2)).grows hwv)) ∧
        (ofSegment rest.ofField q p inside (number (1 / 2))).run w = (.ok g, u) ∧
        h.Computes rest.ofField.calculus v f ∧ g.Computes rest.ofField.calculus u f' ∧
        f' #[3] = f #[3] := by
  let rest : Elementary ℚ :=
    { (default : Elementary ℚ) with
      guard := 1 / 10 ^ 10
      sqrt := fun a => (a.num.toNat.sqrt : ℚ) / a.den.sqrt }
  obtain ⟨w, x, hw, hplace, -, hx, -⟩ := Workspace.Item.exists_input (7 : ℚ)
  let number := Workspace.Item.number w
  let p : w.Point := (number 0, number 0)
  let q : w.Point := (x, number 4)
  let inside : w.Point := (number 0, number 1)
  have hnumber : ∀ a, (number a).Active := fun a => .inl rfl
  have hinput : x.Active := .inr hplace
  have hsqrt : rest.sqrt 25 = 5 := by
    have hroot : Nat.sqrt 25 = 5 := by norm_num
    change ((Nat.sqrt 25 : ℚ) / Nat.sqrt 1) = 5
    rw [hroot, Nat.sqrt_one]
    norm_num
  obtain ⟨hexists, hbounds⟩ := HalfPlane.ofSegment_bounds rest p q inside (number (1 / 2)) hw
  obtain ⟨hreverse, -⟩ := HalfPlane.ofSegment_bounds rest q p inside (number (1 / 2)) hw
  obtain ⟨h, v, hrun⟩ := hexists (by simp [p, q, inside, hnumber, hinput])
  obtain ⟨g, u, hrun'⟩ := hreverse (by simp [p, q, inside, hnumber, hinput])
  obtain ⟨hlevels, f, hf, hsame⟩ := hbounds h v hrun
  obtain ⟨f', hf', hswap⟩ := hsame w u g hw (.refl w) hrun'
  refine ⟨rest, w, x, hsqrt, hw, hplace, h, v, g, u, f, f', hrun, hlevels, hrun', hf, hf', hswap #[3] ?_⟩
  rintro ⟨s, hs⟩
  obtain ⟨hfirst, hsecond⟩ := Prod.mk.inj hs
  have hzero : s = 0 := by simpa [p, q, inside, number, Workspace.Point.value, hx] using hfirst
  simp [p, q, inside, number, Workspace.Point.value, hzero] at hsecond

end ScalarGraph
