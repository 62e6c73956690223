import ScalarGraph.Proofs.Session.Constructor
import ScalarGraph.Proofs.Term.Leaves

/-! # Functions on folded tapes

A function of a session takes handles out of any values and puts them into the value that it gives. As
long as the handles that it is given are those of nodes, it is made of steps that keep a folded tape as
it is folded, and its result holds handles of nodes again.
-/
namespace ScalarGraph

/-- The value is the handle or has it in one of its parts. The values in a table are never taken as
operands. -/
inductive Value.Holds (h : Handle) : Value → Prop where
  | handle : Holds h (.handle h)
  | list {vs : List Value} {v : Value} (hv : v ∈ vs) (hh : Holds h v) : Holds h (.list vs)
  | handleVector {hs : List Handle} (hh : h ∈ hs) : Holds h (.handleVector hs)
  | ellipse {a b c x y v : Value} (hv : v ∈ [a, b, c, x, y]) (hh : Holds h v) :
      Holds h (.ellipse a b c x y)
  | halfPlane {a b c v : Value} (hv : v ∈ [a, b, c]) (hh : Holds h v) : Holds h (.halfPlane a b c)

def Value.On (w : Workspace Float) (v : Value) : Prop :=
  ∀ h, v.Holds h → (Operand.handle h : Operand Float).On w

namespace Value
variable {w : Workspace Float} {v : Value} {vs : List Value}

theorem On.grows {u : Workspace Float} (h : v.On w) (hu : w.Grows u) : v.On u :=
  fun y hy => (h y hy).grows hu

theorem on_handle {h : Handle} : (handle h).On w ↔ (Operand.handle h : Operand Float).On w := by
  constructor
  · exact fun hon => hon h .handle
  · rintro hon y ⟨⟩
    exact hon

theorem on_list : (list vs).On w ↔ ∀ v ∈ vs, v.On w := by
  constructor
  · exact fun hon v hv h hh => hon h (.list hv hh)
  · rintro hon h (⟨⟩ | ⟨hv, hh⟩)
    exact hon _ hv h hh

theorem on_ellipse {a b c x y : Value} :
    (ellipse a b c x y).On w ↔ ∀ v ∈ [a, b, c, x, y], v.On w := by
  constructor
  · exact fun hon v hv h hh => hon h (.ellipse hv hh)
  · intro hon h hh
    cases hh with
    | ellipse hv hh => exact hon _ hv h hh

theorem on_halfPlane {a b c : Value} : (halfPlane a b c).On w ↔ ∀ v ∈ [a, b, c], v.On w := by
  constructor
  · exact fun hon v hv h hh => hon h (.halfPlane hv hh)
  · intro hon h hh
    cases hh with
    | halfPlane hv hh => exact hon _ hv h hh

theorem On.operand (h : v.On w) : v.operand.On w := by
  intro y hy
  rw [eq_handle_of_operand hy] at h
  exact on_handle.mp h y rfl

theorem on_ofOperand {x : Operand Float} (h : x.On w) : (ofOperand x).On w := by
  cases x with
  | handle y => exact on_handle.mpr h
  | number a => rintro y ⟨⟩
  | unfit e => rintro y ⟨⟩

theorem On.items (h : v.On w) (hvs : v.items = .ok vs) : ∀ u ∈ vs, u.On w := by
  unfold Value.items at hvs
  split at hvs
  · cases hvs
    exact on_list.mp h
  · cases hvs
    exact List.forall_mem_map.mpr fun x _ y hy => by cases hy
  · next hs =>
    cases hvs
    exact List.forall_mem_map.mpr fun y hy => on_handle.mpr (h y (.handleVector hy))
  · cases hvs
    exact List.forall_mem_map.mpr fun c _ y hy => by cases hy
  · cases hvs
    exact List.forall_mem_map.mpr fun f _ y hy => by cases hy
  · cases hvs

theorem On.itemAt (h : ∀ u ∈ vs, u.On w) {i : Int} (hv : itemAt vs i = .ok v) : v.On w := by
  unfold Value.itemAt at hv
  split at hv
  · next u hu =>
    cases hv
    obtain ⟨n, -, hn⟩ := Option.bind_eq_some_iff.mp hu
    exact h _ (List.mem_of_getElem? hn)
  · cases hv

theorem On.index {u : Value} (h : v.On w) {i : Int} (hu : v.index i = .ok u) : u.On w := by
  unfold Value.index at hu
  split at hu
  · cases hu
  · cases hu
  · obtain ⟨vs, hvs, hu⟩ := bind_eq_ok.mp hu
    exact On.itemAt (h.items hvs) hu

theorem on_ofReal? (x : Option Float) : (ofReal? x).On w := by
  cases x <;> rintro y ⟨⟩

theorem on_ids (ts : List Text) : (ids ts).On w :=
  on_list.mpr (List.forall_mem_map.mpr fun t _ y hy => by cases hy)

theorem On.parts (h : v.On w) : ∀ p ∈ v.parts, p.2.On w := by
  unfold Value.parts
  split
  · have hparts := on_ellipse.mp h
    simpa using hparts
  · have hparts := on_halfPlane.mp h
    simpa using hparts
  · simp only [List.forall_mem_cons, List.not_mem_nil, false_implies, implies_true, and_true]
    refine ⟨on_ofReal? _, ?_, ?_⟩ <;> rintro y ⟨⟩
  · next g =>
    have hprimary : ((g.primary.map text).getD nothing).On w := by
      cases g.primary <;> rintro y ⟨⟩
    simp only [List.forall_mem_cons, List.not_mem_nil, false_implies, implies_true, and_true]
    refine ⟨hprimary, on_ids _, on_ids _, ?_⟩
    rintro y ⟨⟩
  · simp

theorem On.parameter {u : Value} (h : v.On w) {name : Text} (hu : v.parameter name = .ok u) :
    u.On w := by
  unfold Value.parameter partNamed at hu
  split at hu
  · next p hp =>
    cases hu
    exact h.parts p (List.mem_of_find?_eq_some hp)
  · cases hu

end Value

section
variable {k : Nat} {w : Workspace Float}

def Leaf.On (w : Workspace Float) (l : Leaf) : Prop := ∀ v, l = .ok v → v.On w

namespace Leaf
open Build

theorem grounds : Term.Grounds k find On where
  kept _ _ _ hl hwv v hv := (hl v hv).grows hwv
  found w l hw hl := by
    apply (keepsFolded_ofExcept (P := fun x => x.On w) hw ?_).imp
    · rintro x v ⟨rfl, hx⟩
      exact hx
    · intro x hx
      cases l with
      | error e => cases hx
      | ok v =>
        cases hx
        exact (hl v rfl).operand

theorem over_term {v : Value} (h : v.On w) : (term v).Over (On w) :=
  Term.over_leaf.mpr fun _ hu => Except.ok.inj hu ▸ h

theorem over_terms {vs : List Value} (h : ∀ v ∈ vs, v.On w) : ∀ t ∈ terms vs, t.Over (On w) :=
  List.forall_mem_map.mpr fun v hv => over_term (h v hv)

theorem over_field {v : Value} (h : v.On w) (name : String) : (field v name).Over (On w) :=
  Term.over_leaf.mpr fun _ hu => h.parameter hu

theorem over_ellipse {v : Value} (h : v.On w) : (ellipse v).Over (On w) :=
  ⟨over_field h _, over_field h _, over_field h _, over_field h _, over_field h _⟩

theorem over_halfPlane {v : Value} (h : v.On w) : (halfPlane v).Over (On w) :=
  ⟨over_field h _, over_field h _, over_field h _⟩

theorem over_of_items {v : Value} (h : v.On w) {ts : List Expression}
    (hts : v.items.map terms = .ok ts) : ∀ t ∈ ts, t.Over (On w) := by
  cases hvs : v.items with
  | error e =>
    rw [hvs] at hts
    cases hts
  | ok vs =>
    rw [hvs] at hts
    cases hts
    exact over_terms (h.items hvs)

theorem keepsFolded_vector (hw : w.FoldedAt k) {v : Value} (h : v.On w) :
    (vector v).KeepsFolded k w fun ts u => u = w ∧ ∀ t ∈ ts, t.Over (On w) :=
  keepsFolded_ofExcept hw fun _ hts => over_of_items h hts

theorem keepsFolded_pair (hw : w.FoldedAt k) {v : Value} (h : v.On w) :
    (pair v).KeepsFolded k w fun p u => u = w ∧ p.1.On w ∧ p.2.On w := by
  unfold pair
  apply (keepsFolded_ofExcept hw fun _ hvs => h.items hvs).bind_unchanged
  intro vs hvs
  split
  · next p q =>
    exact keepsFolded_pure hw ⟨rfl, hvs p (by simp), hvs q (by simp)⟩
  · exact keepsFolded_throw hw _

theorem keepsFolded_segment (hw : w.FoldedAt k) {v : Value} (h : v.On w) :
    (segment v).KeepsFolded k w fun p u =>
      u = w ∧ (∀ t ∈ p.1, t.Over (On w)) ∧ ∀ t ∈ p.2, t.Over (On w) := by
  unfold segment
  apply (keepsFolded_pair hw h).bind_unchanged
  rintro ⟨p, q⟩ ⟨hp, hq⟩
  apply (keepsFolded_vector hw hq).bind_unchanged
  intro qs hqs
  apply (keepsFolded_vector hw hp).bind_unchanged
  exact fun ps hps => keepsFolded_pure hw ⟨rfl, hps, hqs⟩

theorem keepsFolded_build (hw : w.FoldedAt k) {t : Expression} (ht : t.Over (On w)) :
    (build t).KeepsFolded k w fun v u => v.On u :=
  (Term.keepsFolded_build grounds t w hw ht).map fun _ _ => Value.on_ofOperand

theorem keepsFolded_ofOperands {b : Build Float (List (Operand Float))}
    (hb : b.KeepsFolded k w fun xs u => ∀ x ∈ xs, x.On u) :
    (Function.ofOperands b).KeepsFolded k w fun vs u => ∀ v ∈ vs, v.On u :=
  hb.map fun _ _ hxs => List.forall_mem_map.mpr fun x hx => Value.on_ofOperand (hxs x hx)

theorem keepsFolded_buildAll (hw : w.FoldedAt k) {ts : List Expression} (hts : ∀ t ∈ ts, t.Over (On w)) :
    (buildAll ts).KeepsFolded k w fun vs u => ∀ v ∈ vs, v.On u :=
  keepsFolded_ofOperands (Term.keepsFolded_buildAll grounds ts w hw hts)

end Leaf

namespace Function
open Build Leaf

theorem keepsFolded_construct (hw : w.FoldedAt k) {n : Node Float Value} (hop : n.op.isTerminal = false)
    (hn : ∀ v ∈ n.operands, v.On w) : (construct n).KeepsFolded k w fun v u => v.On u := by
  refine (ScalarGraph.keepsFolded_construct hw ?_ ?_).map fun _ _ => Value.on_handle.mpr
  · rwa [Node.op_map]
  · rw [Node.operands_map]
    exact List.forall_mem_map.mpr fun v hv => (hn v hv).operand

theorem logsOnly_named {β : Type} (family : Family) (find : Text → Option β) (v : Value) :
    (named family find v).LogsOnly := by
  have hunknown : ∀ u : Value,
      (do violate (.unknownOperator family (u.shown (← get))) : Build Float β).LogsOnly :=
    fun u => logsOnly_get.bind fun _ => logsOnly_throw _
  cases v with
  | text t =>
    intro w
    exact ⟨w.log, by rw [run_named]⟩
  | _ =>
    unfold named
    dsimp only
    split
    · exact (logsOnly_throw _).bind fun _ => hunknown _
    · exact hunknown _

theorem keepsFolded_named {β : Type} {family : Family} {find : Text → Option β} {name : Value}
    {next : β → Build Float Value} (hw : w.FoldedAt k)
    (hnext : ∀ o u, u.FoldedAt k → w.Grows u → (next o).KeepsFolded k u fun v u => v.On u) :
    (named family find name >>= next).KeepsFolded k w fun v u => v.On u :=
  ((logsOnly_named family find name).keepsFolded hw).bind fun o u hu hwu _ => hnext o u hu hwu

theorem keepsFolded_makeInput (hw : w.FoldedAt k) (position sample : Value) :
    (makeInput position sample).KeepsFolded k w fun v u => v.On u := by
  rcases makeInput_cases position sample with ⟨i, -, hperform⟩ | herror
  · rw [hperform]
    refine KeepsFolded.map (Q := fun h v => (Operand.handle h : Operand Float).On v) ?_ fun _ _ =>
      Value.on_handle.mpr
    apply (keepsFolded_ofExcept (P := fun _ => True) hw fun _ _ => trivial).bind_unchanged
    intro p _
    apply (keepsFolded_ofExcept (P := fun _ => True) hw fun _ _ => trivial).bind_unchanged
    exact fun x _ => ScalarGraph.keepsFolded_makeInput hw p x
  · obtain ⟨v, hrun⟩ := herror w
    exact (keepsFolded_throw hw _).of_run_eq hrun

theorem keepsFolded_valueOf (hw : w.FoldedAt k) {v : Value} (h : v.On w) :
    (valueOf v).KeepsFolded k w fun v u => v.On u := by
  unfold valueOf
  split
  · apply (logsOnly_get.keepsFolded hw).bind
    intro u v hv _ _
    split
    · exact keepsFolded_pure hv fun y hy => by cases hy
    · exact keepsFolded_throw hv _
  · exact keepsFolded_pure hw h

theorem keepsFolded_list {b : Build Float (List Value)}
    (hb : b.KeepsFolded k w fun vs u => ∀ v ∈ vs, v.On u) :
    (do return .list (← b) : Build Float Value).KeepsFolded k w fun v u => v.On u :=
  hb.bind fun _ _ hu _ hvs => keepsFolded_pure hu (Value.on_list.mpr hvs)

theorem keepsFolded_vectors (hw : w.FoldedAt k) {u v : Value} (hu : u.On w) (hv : v.On w)
    {next : List Expression → List Expression → Build Float Value}
    (hnext : ∀ us vs, (∀ t ∈ us, t.Over (Leaf.On w)) → (∀ t ∈ vs, t.Over (Leaf.On w)) →
      (next us vs).KeepsFolded k w fun v u => v.On u) :
    (do next (← vector u) (← vector v) : Build Float Value).KeepsFolded k w fun v u => v.On u := by
  apply (keepsFolded_vector hw hu).bind_unchanged
  intro us hus
  apply (keepsFolded_vector hw hv).bind_unchanged
  exact fun vs hvs => hnext us vs hus hvs

theorem keepsFolded_const (hw : w.FoldedAt k) (v : Value) :
    (const.apply [v]).KeepsFolded k w fun v u => v.On u := by
  apply (keepsFolded_ofExcept (P := fun _ => True) hw fun _ _ => trivial).bind_unchanged
  intro x _
  exact (keepsFolded_makeConst hw x).map fun _ _ => Value.on_handle.mpr

theorem keepsFolded_nary (hw : w.FoldedAt k) {v : Value} (h : v.On w) (o : NaryOp) :
    (do construct (.nary o (← Build.ofExcept v.items)) : Build Float Value).KeepsFolded k w
      fun v u => v.On u :=
  (keepsFolded_ofExcept hw fun _ hvs => h.items hvs).bind_unchanged fun _ hvs =>
    keepsFolded_construct hw rfl hvs

theorem keepsFolded_valuesOf (hw : w.FoldedAt k) (v : Value) :
    (values.apply [v]).KeepsFolded k w fun v u => v.On u := by
  apply (keepsFolded_ofExcept (P := fun _ => True) hw fun _ _ => trivial).bind_unchanged
  intro vs _
  apply ((logsOnly_numbersOf _ _).keepsFolded hw).bind
  intro xs u hu _ _
  exact keepsFolded_pure hu (Value.on_list.mpr (List.forall_mem_map.mpr fun x _ y hy => by cases hy))

theorem keepsFolded_rotated (hw : w.FoldedAt k) {v : Value} (h : v.On w) :
    (rotated.apply [v]).KeepsFolded k w fun v u => v.On u := by
  apply (keepsFolded_pair hw h).bind_unchanged
  rintro ⟨x, y⟩ ⟨hx, hy⟩
  apply (keepsFolded_build hw (Term.over_unary.mpr (over_term hy))).bind
  intro z u hu hwu hz
  apply keepsFolded_pure hu
  exact Value.on_list.mpr (List.forall_mem_cons.mpr ⟨hz, List.forall_mem_singleton.mpr (hx.grows hwu)⟩)

theorem keepsFolded_outwardNormal (hw : w.FoldedAt k) {s i : Value} (hs : s.On w) (hi : i.On w) :
    (outwardNormal.apply [s, i]).KeepsFolded k w fun v u => v.On u := by
  apply (keepsFolded_segment hw hs).bind_unchanged
  rintro ⟨p, q⟩ ⟨hp, hq⟩
  apply (Vector.keepsFolded_buildOutward grounds hw 0.0 hp hq fun _ => over_of_items hi).bind
  intro normal u hu _ hnormal
  apply keepsFolded_pure hu
  exact Value.on_list.mpr (List.forall_mem_map.mpr fun n hn => Value.on_ofOperand (hnormal n hn).2)

theorem keepsFolded_center (hw : w.FoldedAt k) {p a b c : Value} (hp : p.On w)
    (habc : ∀ v ∈ [a, b, c], v.On w) :
    (do return .ellipse a b c (← Build.ofExcept (p.index 0)) (← Build.ofExcept (p.index 1)) :
      Build Float Value).KeepsFolded k w fun v u => v.On u := by
  apply (keepsFolded_ofExcept hw fun _ hx => hp.index hx).bind_unchanged
  intro x hx
  apply (keepsFolded_ofExcept hw fun _ hy => hp.index hy).bind_unchanged
  intro y hy
  apply keepsFolded_pure hw
  simp only [List.forall_mem_cons] at habc
  simp [Value.on_ellipse, habc, hx, hy]

theorem keepsFolded_circle (hw : w.FoldedAt k) {p r d : Value} (hp : p.On w) (hr : r.On w)
    (hd : d.On w) : (circle.apply [p, r, d]).KeepsFolded k w fun v u => v.On u := by
  have hradius : (Ellipse.ofRadius (term r) (term d)).Over (Leaf.On w) :=
    Term.over_unary.mpr (Term.over_binary.mpr ⟨over_term hr, over_term hd⟩)
  apply (keepsFolded_build hw hradius).bind
  intro c u hu hwu hc
  apply keepsFolded_center hu (hp.grows hwu)
  have hone : (Value.int 1).On u := fun y hy => by cases hy
  exact List.forall_mem_cons.mpr ⟨hone, List.forall_mem_cons.mpr ⟨hone, List.forall_mem_singleton.mpr hc⟩⟩

theorem keepsFolded_ellipse (hw : w.FoldedAt k) {p rx ry d : Value} (hp : p.On w) (hx : rx.On w)
    (hy : ry.On w) (hd : d.On w) :
    (ellipse.apply [p, rx, ry, d]).KeepsFolded k w fun v u => v.On u := by
  apply (keepsFolded_ofOperands (Ellipse.keepsFolded_buildOfRadii grounds hw (over_term hx)
    (over_term hy) (over_term hd))).bind
  intro vs u hu hwu hvs
  split
  · exact keepsFolded_center hu (hp.grows hwu) hvs
  · exact keepsFolded_throw hu _

theorem keepsFolded_halfPlane (hw : w.FoldedAt k) {s i d : Value} (hs : s.On w) (hi : i.On w)
    (hd : d.On w) : (halfPlane.apply [s, i, d]).KeepsFolded k w fun v u => v.On u := by
  have hstart : ∀ ts, ((s.index 0).bind fun v => v.items.map terms) = .ok ts →
      ∀ t ∈ ts, t.Over (Leaf.On w) := by
    intro ts hts
    obtain ⟨v, hv, hts⟩ := bind_eq_ok.mp hts
    exact over_of_items (hs.index hv) hts
  apply (keepsFolded_segment hw hs).bind_unchanged
  rintro ⟨p, q⟩ ⟨hp, hq⟩
  apply (HalfPlane.keepsFolded_build grounds hw 0.0 hp hq (fun _ => over_of_items hi) hstart
    (over_term hd)).bind
  rintro e u hu - ⟨ha, hb, hc⟩
  apply keepsFolded_pure hu
  simp [Value.on_halfPlane, Value.on_ofOperand, ha, hb, hc]

/-- Whatever function is called on whatever values, a folded tape stays folded, and what is given has handles
of nodes on tapes again. -/
theorem keepsFolded_apply (f : Function) {args : List Value} (hw : w.FoldedAt k)
    (hargs : ∀ v ∈ args, v.On w) : (f.apply args).KeepsFolded k w fun v u => v.On u := by
  cases f with
  | const =>
    match args, hargs with
    | [v], _ => exact keepsFolded_const hw v
    | [], _ | _ :: _ :: _, _ => exact keepsFolded_throw hw _
  | input =>
    match args, hargs with
    | [], _ => exact keepsFolded_makeInput hw .nothing (.real 0.0)
    | [i], _ => exact keepsFolded_makeInput hw i (.real 0.0)
    | [i, s], _ => exact keepsFolded_makeInput hw i s
    | _ :: _ :: _ :: _, _ => exact keepsFolded_throw hw _
  | unary o =>
    match args, hargs with
    | [v], hargs => exact keepsFolded_construct hw rfl hargs
    | [], _ | _ :: _ :: _, _ => exact keepsFolded_throw hw _
  | binary o =>
    match args, hargs with
    | [v, u], hargs => exact keepsFolded_construct hw rfl hargs
    | [], _ | [_], _ | _ :: _ :: _ :: _, _ => exact keepsFolded_throw hw _
  | select =>
    match args, hargs with
    | [c, t, e], hargs => exact keepsFolded_construct hw rfl hargs
    | [], _ | [_], _ | [_, _], _ | _ :: _ :: _ :: _ :: _, _ => exact keepsFolded_throw hw _
  | nary o =>
    match args, hargs with
    | [v], hargs => exact keepsFolded_nary hw (hargs v (by simp)) o
    | [], _ | _ :: _ :: _, _ => exact keepsFolded_throw hw _
  | debug =>
    match args, hargs with
    | [v], hargs => exact keepsFolded_construct hw rfl hargs
    | [v, l], hargs =>
      apply (logsOnly_get.keepsFolded hw).bind
      intro s u hu hwu _
      refine keepsFolded_construct hu rfl (List.forall_mem_singleton.mpr ?_)
      exact (hargs v (by simp)).grows hwu
    | [], _ | _ :: _ :: _ :: _, _ => exact keepsFolded_throw hw _
  | unaryNamed =>
    match args, hargs with
    | [v, name], hargs =>
      refine keepsFolded_named hw fun o u hu hwu => ?_
      refine keepsFolded_construct hu rfl (List.forall_mem_singleton.mpr ?_)
      exact (hargs v (by simp)).grows hwu
    | [], _ | [_], _ | _ :: _ :: _ :: _, _ => exact keepsFolded_throw hw _
  | binaryNamed =>
    match args, hargs with
    | [v, v', name], hargs =>
      refine keepsFolded_named hw fun o u hu hwu => ?_
      refine keepsFolded_construct hu rfl (List.forall_mem_cons.mpr ⟨?_, List.forall_mem_singleton.mpr ?_⟩)
      · exact (hargs v (by simp)).grows hwu
      · exact (hargs v' (by simp)).grows hwu
    | [], _ | [_], _ | [_, _], _ | _ :: _ :: _ :: _ :: _, _ => exact keepsFolded_throw hw _
  | naryNamed =>
    match args, hargs with
    | [v, name], hargs =>
      refine keepsFolded_named hw fun o u hu hwu => ?_
      exact keepsFolded_nary hu ((hargs v (by simp)).grows hwu) o
    | [], _ | [_], _ | _ :: _ :: _ :: _, _ => exact keepsFolded_throw hw _
  | value =>
    match args, hargs with
    | [v], hargs => exact keepsFolded_valueOf hw (hargs v (by simp))
    | [], _ | _ :: _ :: _, _ => exact keepsFolded_throw hw _
  | values =>
    match args, hargs with
    | [v], _ => exact keepsFolded_valuesOf hw v
    | [], _ | _ :: _ :: _, _ => exact keepsFolded_throw hw _
  | plus =>
    match args, hargs with
    | [u, v], hargs =>
      refine keepsFolded_vectors hw (hargs u (by simp)) (hargs v (by simp)) fun us vs hus hvs => ?_
      exact keepsFolded_list (keepsFolded_buildAll hw (Vector.over_plus hus hvs))
    | [], _ | [_], _ | _ :: _ :: _ :: _, _ => exact keepsFolded_throw hw _
  | minus =>
    match args, hargs with
    | [u, v], hargs =>
      refine keepsFolded_vectors hw (hargs u (by simp)) (hargs v (by simp)) fun us vs hus hvs => ?_
      exact keepsFolded_list (keepsFolded_buildAll hw (Vector.over_minus hus hvs))
    | [], _ | [_], _ | _ :: _ :: _ :: _, _ => exact keepsFolded_throw hw _
  | scaled =>
    match args, hargs with
    | [c, v], hargs =>
      apply (keepsFolded_vector hw (hargs v (by simp))).bind_unchanged
      intro vs hvs
      have hc := over_term (hargs c (by simp))
      exact keepsFolded_list (keepsFolded_buildAll hw (Vector.over_scaled hc hvs))
    | [], _ | [_], _ | _ :: _ :: _ :: _, _ => exact keepsFolded_throw hw _
  | dot =>
    match args, hargs with
    | [u, v], hargs =>
      refine keepsFolded_vectors hw (hargs u (by simp)) (hargs v (by simp)) fun us vs hus hvs => ?_
      exact keepsFolded_build hw (Vector.over_dot hus hvs)
    | [], _ | [_], _ | _ :: _ :: _ :: _, _ => exact keepsFolded_throw hw _
  | norm =>
    match args, hargs with
    | [v], hargs =>
      apply (keepsFolded_vector hw (hargs v (by simp))).bind_unchanged
      exact fun vs hvs => keepsFolded_build hw (Vector.over_norm hvs)
    | [], _ | _ :: _ :: _, _ => exact keepsFolded_throw hw _
  | normalized =>
    match args, hargs with
    | [v], hargs =>
      apply (keepsFolded_vector hw (hargs v (by simp))).bind_unchanged
      intro vs hvs
      exact keepsFolded_list (keepsFolded_ofOperands (Vector.keepsFolded_buildNormalized grounds hw hvs))
    | [], _ | _ :: _ :: _, _ => exact keepsFolded_throw hw _
  | rotated =>
    match args, hargs with
    | [v], hargs => exact keepsFolded_rotated hw (hargs v (by simp))
    | [], _ | _ :: _ :: _, _ => exact keepsFolded_throw hw _
  | outwardNormal =>
    match args, hargs with
    | [s, i], hargs => exact keepsFolded_outwardNormal hw (hargs s (by simp)) (hargs i (by simp))
    | [], _ | [_], _ | _ :: _ :: _ :: _, _ => exact keepsFolded_throw hw _
  | circle =>
    match args, hargs with
    | [p, r, d], hargs =>
      exact keepsFolded_circle hw (hargs p (by simp)) (hargs r (by simp)) (hargs d (by simp))
    | [], _ | [_], _ | [_, _], _ | _ :: _ :: _ :: _ :: _, _ => exact keepsFolded_throw hw _
  | ellipse =>
    match args, hargs with
    | [p, rx, ry, d], hargs =>
      exact keepsFolded_ellipse hw (hargs p (by simp)) (hargs rx (by simp)) (hargs ry (by simp))
        (hargs d (by simp))
    | [], _ | [_], _ | [_, _], _ | [_, _, _], _ | _ :: _ :: _ :: _ :: _ :: _, _ =>
      exact keepsFolded_throw hw _
  | halfPlane =>
    match args, hargs with
    | [s, i, d], hargs =>
      exact keepsFolded_halfPlane hw (hargs s (by simp)) (hargs i (by simp)) (hargs d (by simp))
    | [], _ | [_], _ | [_, _], _ | _ :: _ :: _ :: _ :: _, _ => exact keepsFolded_throw hw _
  | ellipseLevel =>
    match args, hargs with
    | [e, x, y], hargs =>
      have hlevel := (over_ellipse (hargs e (by simp))).level (over_term (hargs x (by simp)))
        (over_term (hargs y (by simp)))
      exact keepsFolded_build hw hlevel
    | [], _ | [_], _ | [_, _], _ | _ :: _ :: _ :: _ :: _, _ => exact keepsFolded_throw hw _
  | halfPlaneLevel =>
    match args, hargs with
    | [e, x, y], hargs =>
      have hlevel := (over_halfPlane (hargs e (by simp))).level (over_term (hargs x (by simp)))
        (over_term (hargs y (by simp)))
      exact keepsFolded_build hw hlevel
    | [], _ | [_], _ | [_, _], _ | _ :: _ :: _ :: _ :: _, _ => exact keepsFolded_throw hw _
  | coefficients =>
    match args, hargs with
    | [p, q], hargs =>
      have hp := over_ellipse (hargs p (by simp))
      have hq := over_ellipse (hargs q (by simp))
      exact keepsFolded_list (keepsFolded_ofOperands
        (Pencil.keepsFolded_buildCoefficients grounds hw numeral hp hq))
    | [], _ | [_], _ | _ :: _ :: _ :: _, _ => exact keepsFolded_throw hw _
  | polynomial =>
    match args, hargs with
    | [p, q], hargs =>
      have hp := over_ellipse (hargs p (by simp))
      have hq := over_ellipse (hargs q (by simp))
      exact keepsFolded_list (keepsFolded_ofOperands
        (Pencil.keepsFolded_buildPolynomial grounds hw numeral Binary64.calculus hp hq))
    | [], _ | [_], _ | _ :: _ :: _ :: _, _ => exact keepsFolded_throw hw _
  | degree =>
    match args, hargs with
    | [v], _ =>
      apply (keepsFolded_ofExcept (P := fun _ => True) hw fun _ _ => trivial).bind_unchanged
      exact fun n _ => keepsFolded_pure hw fun y hy => by cases hy
    | [], _ | _ :: _ :: _, _ => exact keepsFolded_throw hw _

end Function
end
end ScalarGraph
