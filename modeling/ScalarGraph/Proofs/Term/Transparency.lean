import ScalarGraph.Proofs.Tape.Canonical
import ScalarGraph.Proofs.Term.Around
import ScalarGraph.Proofs.Workspace.Secondary

/-! # Terms with debug nodes put in

Debug nodes around subterms change which nodes are shared and which labels are kept, and a number that
is wrapped is a node of the active tape. The terms mean the same all the same, in every way in which
a debug node means what its operand does; so their programs have the same values and derivatives.
-/
namespace ScalarGraph
variable {α β ν : Type}

namespace Term

mutual
/-- The second term is the first one with debug nodes put around any of its subterms. -/
inductive Wrapped : Term α ν → Term α ν → Prop
  | leaf (v : ν) : Wrapped (leaf v) (leaf v)
  | number (x : α) : Wrapped (number x) (number x)
  | unary (o : UnaryOp) {t t' : Term α ν} (ht : Wrapped t t') : Wrapped (unary o t) (unary o t')
  | binary (o : BinaryOp) {t t' u u' : Term α ν} (ht : Wrapped t t') (hu : Wrapped u u') :
      Wrapped (binary o t u) (binary o t' u')
  | select {c c' t t' e e' : Term α ν} (hc : Wrapped c c') (ht : Wrapped t t') (he : Wrapped e e') :
      Wrapped (select c t e) (select c' t' e')
  | nary (o : NaryOp) {ts ts' : List (Term α ν)} (hts : WrappedAll ts ts') :
      Wrapped (nary o ts) (nary o ts')
  | debug (label : Text) {t t' : Term α ν} (ht : Wrapped t t') :
      Wrapped (debug label t) (debug label t')
  | wrap (label : Text) {t t' : Term α ν} (ht : Wrapped t t') : Wrapped t (debug label t')

inductive WrappedAll : List (Term α ν) → List (Term α ν) → Prop
  | nil : WrappedAll [] []
  | cons {t t' : Term α ν} {ts ts' : List (Term α ν)} (ht : Wrapped t t') (hts : WrappedAll ts ts') :
      WrappedAll (t :: ts) (t' :: ts')
end

structure Keeps (f : Node α β → β) (leafMeaning : ν → β) (Q : β → β → Prop) : Prop where
  leaf : ∀ v, Q (leafMeaning v) (leafMeaning v)
  node : ∀ n m : Node α β, m.op = n.op → List.Forall₂ Q n.operands m.operands → Q (f n) (f m)
  wrap : ∀ l b c, Q b c → Q b (f (.debug l c))

section
variable {f : Node α β → β} {leafMeaning : ν → β} {Q : β → β → Prop}

mutual
theorem Wrapped.rel_fold (hQ : Keeps f leafMeaning Q) {e e' : Term α ν} :
    e.Wrapped e' → Q (e.fold f leafMeaning) (e'.fold f leafMeaning)
  | .leaf v => hQ.leaf v
  | .number x => hQ.node (.const x) (.const x) rfl .nil
  | .unary o ht => hQ.node (.unary o _) (.unary o _) rfl (.cons (ht.rel_fold hQ) .nil)
  | .binary o ht hu =>
    hQ.node (.binary o _ _) (.binary o _ _) rfl (.cons (ht.rel_fold hQ) (.cons (hu.rel_fold hQ) .nil))
  | .select hc ht he => hQ.node (.select _ _ _) (.select _ _ _) rfl
      (.cons (hc.rel_fold hQ) (.cons (ht.rel_fold hQ) (.cons (he.rel_fold hQ) .nil)))
  | .nary o hts => hQ.node (.nary o _) (.nary o _) rfl (hts.rel_folds hQ)
  | .debug l ht => hQ.node (.debug l _) (.debug l _) rfl (.cons (ht.rel_fold hQ) .nil)
  | .wrap l ht => hQ.wrap l _ _ (ht.rel_fold hQ)

theorem WrappedAll.rel_folds (hQ : Keeps f leafMeaning Q) {ts ts' : List (Term α ν)} :
    WrappedAll ts ts' → List.Forall₂ Q (folds f leafMeaning ts) (folds f leafMeaning ts')
  | .nil => .nil
  | .cons ht hts => .cons (ht.rel_fold hQ) (hts.rel_folds hQ)
end

/-- Where a debug node means what its operand does, a wrapped term means the same. -/
theorem Wrapped.fold_eq (hf : ∀ l b, f (.debug l b) = b) (leafMeaning : ν → β) {e e' : Term α ν}
    (h : e.Wrapped e') : e'.fold f leafMeaning = e.fold f leafMeaning := by
  have hkeeps : Keeps f leafMeaning Eq := by
    constructor
    case leaf => exact fun _ => rfl
    case node =>
      intro n m hop hnm
      rw [List.forall₂_eq_eq_eq] at hnm
      exact congrArg f (Node.ext_operands hop.symm hnm)
    case wrap =>
      intro l b c hbc
      rw [hf, hbc]
  exact (h.rel_fold hkeeps).symm

end

def Moved (active : Nat) (l l' : Option Nat) : Prop := l = l' ∨ l = none ∧ l' = some active

theorem sharedPlace_of_moved {active j : Nat} {ls ls' : List (Option Nat)}
    (h : List.Forall₂ (Moved active) ls ls') (hj : sharedPlace active ls' = some j) :
    sharedPlace active ls = some j := by
  obtain ⟨hsame, hmem⟩ := of_sharedPlace_eq_some hj
  apply sharedPlace_eq_some
  · intro i hi
    obtain ⟨l', hl', rfl | ⟨hnone, -⟩⟩ := exists_of_forall₂ h hi
    · exact hsame i hl'
    · cases hnone
  · rcases hmem with hactive | hmem
    · exact .inl hactive
    · obtain ⟨l, hl, rfl | ⟨-, hactive⟩⟩ := exists_of_forall₂_right h hmem
      · exact .inr hl
      · exact .inl (Option.some.inj hactive)

def PlacedLike (active : Nat) (r r' : Option (Option Nat)) : Prop :=
  ∀ l', r' = some l' → ∃ l, r = some l ∧ Moved active l l'

theorem exists_places {active : Nat} {rs rs' : List (Option (Option Nat))}
    (h : List.Forall₂ (PlacedLike active) rs rs') {ls' : List (Option Nat)}
    (hls' : rs'.mapM id = some ls') :
    ∃ ls, rs.mapM id = some ls ∧ List.Forall₂ (Moved active) ls ls' := by
  induction h generalizing ls' with
  | nil =>
    cases hls'
    exact ⟨[], rfl, .nil⟩
  | cons hr _ ih =>
    rw [List.mapM_cons] at hls'
    obtain ⟨l', hl', hls'⟩ := Option.bind_eq_some_iff.mp hls'
    obtain ⟨ks', hks', hcons⟩ := Option.bind_eq_some_iff.mp hls'
    cases hcons
    obtain ⟨l, rfl, hl⟩ := hr l' hl'
    obtain ⟨ks, hks, hmoved⟩ := ih hks'
    refine ⟨l :: ks, ?_, .cons hl hmoved⟩
    rw [List.mapM_cons, hks]
    rfl

theorem keeps_placedLike (active : Nat) (leafPlace : ν → Option Nat) :
    Keeps (Node.place (α := α) active) (fun v => some (leafPlace v)) (PlacedLike active) where
  leaf v l' hl' := ⟨l', hl', .inl rfl⟩
  node n m hop hnm := by
    intro l' hm
    cases hterminal : m.op.isTerminal with
    | true =>
      -- a number or an input has no operands
      have hnil : m.operands = [] := Node.operands_of_isTerminal hterminal
      rw [hnil] at hnm
      have heq : n = m :=
        Node.ext_operands hop.symm ((List.forall₂_nil_right_iff.mp hnm).trans hnil.symm)
      exact ⟨l', heq ▸ hm, .inl rfl⟩
    | false =>
      rw [Node.place_eq hterminal] at hm
      obtain ⟨ls', hls', hm⟩ := Option.bind_eq_some_iff.mp hm
      obtain ⟨j, hj, hm⟩ := Option.bind_eq_some_iff.mp hm
      cases hm
      obtain ⟨ls, hls, hmoved⟩ := exists_places hnm hls'
      refine ⟨some j, ?_, .inl rfl⟩
      rw [Node.place_eq (hop ▸ hterminal), hls, Option.bind_eq_bind, Option.bind_some,
        sharedPlace_of_moved hmoved hj]
      rfl
  wrap label r r' h := by
    intro j hj
    rw [Node.place_debug] at hj
    obtain ⟨l', hl', rfl⟩ := Option.map_eq_some_iff.mp hj
    obtain ⟨l, hl, rfl | ⟨rfl, rfl⟩⟩ := h l' hl'
    · cases l with
      | none => exact ⟨none, hl, .inr ⟨rfl, rfl⟩⟩
      | some i => exact ⟨some i, hl, .inl rfl⟩
    · exact ⟨none, hl, .inr ⟨rfl, rfl⟩⟩

theorem Wrapped.rootTape_eq {e e' : Term α ν} (h : e.Wrapped e') {active j : Nat}
    {leafPlace : ν → Option Nat} (hj : e'.rootTape active leafPlace = some j) :
    e.rootTape active leafPlace = some j := by
  obtain ⟨l', hl', rfl⟩ := Option.map_eq_some_iff.mp hj
  obtain ⟨l, hl, hmoved⟩ := h.rel_fold (keeps_placedLike active leafPlace) l' hl'
  refine Option.map_eq_some_iff.mpr ⟨l, hl, ?_⟩
  rcases hmoved with rfl | ⟨rfl, rfl⟩ <;> rfl

end Term

namespace Node

theorem value_debug (R : Rules α) (xs : Array α) (label : Text) (x : α) :
    (debug label x).value R xs = x := rfl

theorem tangent_debug [CommRing α] (C : Calculus α) (xs : Array α) (i : Nat) (label : Text) (x : α × α) :
    (debug label x).tangent C xs i = x := by
  simp [tangent, map, value, derivative, partials, operands]

end Node

variable [DecidableEq α] [Hashable α] [Written α]

namespace Workspace.Part
variable {w : Workspace α} {k : Nat}

def outputs (R : Rules α) (settings : Option Settings) (primary : Option (Term α (w.Part k)))
    (secondary : List (Term α (w.Part k))) : Build α (Program α) :=
  Term.outputs R (fun x => pure x.operand) settings primary secondary

def means (primary : Option (Term α (w.Part k))) (secondary : List (Term α (w.Part k))) (β : Type)
    (f : Node α β → β) : Option β × List β :=
  (primary.map (Term.fold f fun x => (x.operand.tree w).meaning f),
    secondary.map (Term.fold f fun x => (x.operand.tree w).meaning f))

theorem exists_outputs {R : Rules α} (hw : w.Ready) (settings : Option Settings)
    {primary : Option (Term α (w.Part k))} {secondary : List (Term α (w.Part k))}
    (hne : primary.toList ++ secondary ≠ []) {j : Nat}
    (hj : ∀ e ∈ primary.toList ++ secondary,
      e.rootTape w.active (fun x => x.operand.tape?) = some j) :
    ∃ p v, (outputs R settings primary secondary).run w = (.ok p, v) ∧
      p.Yields R (w.tape j).numInputs (means primary secondary) :=
  Term.exists_outputs (fun _ _ hf => locates hw hf) (fun _ h => h.1) hw ⟨fun _ _ _ _ h => h, .refl w⟩
    settings hne hj

end Workspace.Part

omit [Written α] in
theorem means_eq_of_wrapped {w : Workspace α} {k : Nat} {primary primary' : Option (Term α (w.Part k))}
    {secondary secondary' : List (Term α (w.Part k))}
    (hprimary : Option.Rel Term.Wrapped primary primary')
    (hsecondary : List.Forall₂ Term.Wrapped secondary secondary') {f : Node α β → β}
    (hf : ∀ l b, f (.debug l b) = b) :
    Workspace.Part.means primary' secondary' β f = Workspace.Part.means primary secondary β f := by
  unfold Workspace.Part.means
  apply Prod.ext
  · cases hprimary with
    | none => rfl
    | some h => exact congrArg some (h.fold_eq hf _)
  · exact (map_eq_of_forall₂ hsecondary fun _ _ h => (h.fold_eq hf _).symm).symm

/-- Programs whose outputs mean the same, as values and as values with derivatives, give the same
outputs and, with exact adjoints, the same gradient. -/
theorem Program.Yields.exists_gives {C : Calculus α} {p p' : Program α} {n : Nat}
    {M M' : ∀ β : Type, (Node α β → β) → Option β × List β} (hp : p.Yields C.rules n M)
    (hp' : p'.Yields C.rules n M') (xs : Array α)
    (hvalue : M' α (Node.value C.rules xs) = M α (Node.value C.rules xs))
    (htangent : ∀ [CommRing α] (i : Nat), M' (α × α) (Node.tangent C xs i) = M (α × α) (Node.tangent C xs i)) :
    ∃ out out', p.Gives C xs out ∧ p'.Gives C xs out' ∧ out'.primary = out.primary ∧
      out'.secondary = out.secondary ∧ out'.gradient.size = out.gradient.size ∧
      ∀ [CommRing α], C.adjoints.Exact → out'.gradient = out.gradient := by
  obtain ⟨out, hrun, hprimary, hsecondary, hsize, hgradient⟩ := hp.exists_run xs
  obtain ⟨out', hrun', hprimary', hsecondary', hsize', hgradient'⟩ := hp'.exists_run xs
  have hgives : p.Gives C xs out := by
    intro w
    rw [hsize, ← hp.gradientLength_eq]
    exact run_call hrun
  have hgives' : p'.Gives C xs out' := by
    intro w
    rw [hsize', ← hp'.gradientLength_eq]
    exact run_call hrun'
  refine ⟨out, out', hgives, hgives', ?_, ?_, hsize'.trans hsize.symm, fun hC => ?_⟩
  · rw [hprimary, hprimary', hvalue]
  · rw [hsecondary, hsecondary', hvalue]
  · apply Array.ext (hsize'.trans hsize.symm)
    intro i hi hi'
    have hentry : out'.gradient.getD i 0 = out.gradient.getD i 0 := by
      rw [hgradient hC, hgradient' hC, htangent]
    rwa [Array.getD_eq_getD_getElem?, Array.getD_eq_getD_getElem?, Array.getElem?_eq_getElem hi,
      Array.getElem?_eq_getElem hi'] at hentry

/-- Outputs over numbers and the nodes of one tape, with debug nodes put around any of their subterms:
where the outputs are on the active tape both can be built, and where the wrapped ones can be built the
bare ones can as well. Their programs then give the same values at every vector under all settings and,
with exact adjoints, the same gradient. -/
theorem Workspace.Reached.debug_transparent {C : Calculus α} {w : Workspace α} (hw : w.Reached C.rules)
    {k : Nat} {primary primary' : Option (Term α (w.Part k))}
    {secondary secondary' : List (Term α (w.Part k))}
    (hprimary : Option.Rel Term.Wrapped primary primary')
    (hsecondary : List.Forall₂ Term.Wrapped secondary secondary') (settings : Option Settings) :
    (k = w.active → primary.toList ++ secondary ≠ [] → ∃ p' v',
      (Part.outputs C.rules settings primary' secondary').run w = (.ok p', v')) ∧
    ∀ p' v', (Part.outputs C.rules settings primary' secondary').run w = (.ok p', v') →
      ∃ p v, (Part.outputs C.rules settings primary secondary).run w = (.ok p, v) ∧
        ∀ xs, ∃ out out', p.Gives C xs out ∧ p'.Gives C xs out' ∧ out'.primary = out.primary ∧
          out'.secondary = out.secondary ∧ out'.gradient.size = out.gradient.size ∧
          ∀ [CommRing α], C.adjoints.Exact → out'.gradient = out.gradient := by
  have hall : List.Forall₂ Term.Wrapped (primary.toList ++ secondary) (primary'.toList ++ secondary') :=
    List.rel_append (forall₂_toList hprimary) hsecondary
  constructor
  · rintro rfl hne
    have hne' : primary'.toList ++ secondary' ≠ [] := by
      intro hnil
      rw [hnil] at hall
      exact hne (List.forall₂_nil_right_iff.mp hall)
    obtain ⟨p', v', hrun, -⟩ := Part.exists_outputs (R := C.rules) hw.ready settings hne'
      fun e _ => e.rootTape_of_active Part.tape?_cases
    exact ⟨p', v', hrun⟩
  · intro p' v' hrun
    have hfolds : C.rules.Folds fun _ : Node α Unit => () := fun _ _ => rfl
    obtain ⟨hne', j, hj'⟩ := Term.rootTape_of_outputs (Part.locates hw.ready hfolds) hw.ready
      ⟨fun _ _ _ _ h => h, .refl w⟩ hrun
    have hj : ∀ e ∈ primary.toList ++ secondary, e.rootTape w.active (fun x => x.operand.tape?) = some j := by
      intro e he
      obtain ⟨e', he', hwrapped⟩ := exists_of_forall₂ hall he
      exact hwrapped.rootTape_eq (hj' e' he')
    have hne : primary.toList ++ secondary ≠ [] := by
      intro hnil
      rw [hnil] at hall
      exact hne' (List.forall₂_nil_left_iff.mp hall)
    obtain ⟨q, u, hrun', hq⟩ := Part.exists_outputs (R := C.rules) hw.ready settings hne' hj'
    obtain rfl : p' = q := by
      rw [hrun] at hrun'
      exact Except.ok.inj (congrArg Prod.fst hrun')
    obtain ⟨p, v, hbare, hp⟩ := Part.exists_outputs (R := C.rules) hw.ready settings hne hj
    refine ⟨p, v, hbare, fun xs => hp.exists_gives hq xs ?_ ?_⟩
    · exact means_eq_of_wrapped hprimary hsecondary (Node.value_debug C.rules xs)
    · intro _ i
      exact means_eq_of_wrapped hprimary hsecondary (Node.tangent_debug C xs i)

def Term.notedSquare (x : ν) : Term α ν :=
  .debug (Text.ofString "product")
    (.mul (.debug (Text.ofString "factor") (.debug (Text.ofString "factor") (.leaf x))) (.leaf x))

omit [DecidableEq α] [Hashable α] [Written α] in
theorem Term.wrapped_notedSquare (x : ν) :
    (mul (leaf x) (leaf x) : Term α ν).Wrapped (notedSquare x) :=
  .wrap _ (.binary .mul (.wrap _ (.wrap _ (.leaf x))) (.leaf x))

/-- The square of a node, with a number as a secondary output that is noted as well. -/
theorem debug_transparent_notedSquare : ∃ (w : Workspace Int) (x : w.Part w.active) (p p' : Program Int)
    (v v' : Workspace Int) (out out' : Outputs Int), w.Reached Graph.polynomials.rules ∧
      (Workspace.Part.outputs Graph.polynomials.rules none (some (.mul (.leaf x) (.leaf x)))
        [.number 5]).run w = (.ok p, v) ∧
      (Workspace.Part.outputs Graph.polynomials.rules none (some (Term.notedSquare x))
        [.debug (Text.ofString "number") (.number 5)]).run w = (.ok p', v') ∧
      p.Gives Graph.polynomials #[7] out ∧ p'.Gives Graph.polynomials #[7] out' ∧
      out'.primary = out.primary ∧ out'.secondary = out.secondary ∧ out'.gradient = out.gradient := by
  obtain ⟨-, w, -, y, -, -, hw, htape, hindex⟩ := exists_inputPlusTwo Graph.polynomials.rules
  let x : w.Part w.active := ⟨.handle y, htape, hindex⟩
  have hnumber : (.number 5 : Term Int (w.Part w.active)).Wrapped
      (.debug (Text.ofString "number") (.number 5)) := .wrap _ (.number 5)
  obtain ⟨hbuilt, htransparent⟩ := hw.debug_transparent (C := Graph.polynomials)
    (.some (Term.wrapped_notedSquare x)) (.cons hnumber .nil) none
  obtain ⟨p', v', hp'⟩ := hbuilt rfl (by simp)
  obtain ⟨p, v, hp, hgives⟩ := htransparent p' v' hp'
  obtain ⟨out, out', hout, hout', hvalue, hvalues, -, hgradient⟩ := hgives #[7]
  exact ⟨w, x, p, p', v, v', out, out', hw, hp, hp', hout, hout', hvalue, hvalues,
    hgradient Graph.exact_polynomials⟩

end ScalarGraph
