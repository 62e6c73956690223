import ScalarGraph.Proofs.Graph.RoundTrip
import ScalarGraph.Proofs.Term.Placement
import ScalarGraph.Proofs.Term.Program

/-! # Programs of several terms

The terms of a primary and of secondary outputs are built one after the other. Where all of them have one
tape there is a program, and it gives at each output what the tree of the term means: its value and, with
exact adjoints, its derivatives.
-/
namespace ScalarGraph
variable {α β ν : Type} [DecidableEq α] [Hashable α]

namespace Term
variable {R : Rules α} {f : Node α β → β} {find : ν → Build α (Operand α)} {active : Nat}
  {leafPlace : ν → Option Nat} {leafMeaning : ν → β} {I : Workspace α → Prop} {w v : Workspace α}

/-- The handle that a term amounts to; a number becomes a constant. -/
def root (R : Rules α) (find : ν → Build α (Operand α)) (e : Term α ν) : Build α Handle :=
  e.build R find >>= Operand.ensured

structure Stands (f : Node α β → β) (active : Nat) (leafPlace : ν → Option Nat) (leafMeaning : ν → β)
    (v : Workspace α) (e : Term α ν) (y : Handle) : Prop where
  tape : e.rootTape active leafPlace = some y.tape
  denotes : (Operand.handle y).Denotes f v (e.fold f leafMeaning)

theorem Stands.grows {e : Term α ν} {y : Handle} (h : e.Stands f active leafPlace leafMeaning w y)
    (hv : w.Grows v) : e.Stands f active leafPlace leafMeaning v y := ⟨h.tape, h.denotes.grows hv⟩

theorem Stands.meaning_eq {e : Term α ν} {y : Handle} {j : Nat}
    (h : e.Stands f active leafPlace leafMeaning v y) (hj : e.rootTape active leafPlace = some j)
    {V : Nat → β} (hV : (v.tape j).net.Solves f V) : V y.index = e.fold f leafMeaning := by
  obtain ⟨htape, hy⟩ := h
  obtain rfl : y.tape = j := Option.some.inj (htape.symm.trans hj)
  cases hy with
  | handle _ hmeaning => exact hmeaning V hV

theorem map_index_eq {es : List (Term α ν)} {ys : List Handle} {j : Nat}
    (h : List.Forall₂ (Stands f active leafPlace leafMeaning v) es ys)
    (hj : ∀ e ∈ es, e.rootTape active leafPlace = some j) {V : Nat → β}
    (hV : (v.tape j).net.Solves f V) : (ys.map (·.index)).map V = es.map (fold f leafMeaning) := by
  induction h with
  | nil => rfl
  | cons hy _ ih =>
    obtain ⟨he, hes⟩ := List.forall_mem_cons.mp hj
    rw [List.map_cons, List.map_cons, List.map_cons, hy.meaning_eq he hV, ih hes]

/-- Roots are built one after the other where all terms have a tape for theirs. -/
theorem safe_roots (h : Locates R f find active leafPlace leafMeaning I) (es : List (Term α ν))
    (hw : w.Ready) (hi : I w) :
    (es.mapM (root R find)).Safe w (∃ e ∈ es, e.rootTape active leafPlace = none) fun ys v =>
      I v ∧ List.Forall₂ (Stands f active leafPlace leafMeaning v) es ys := by
  induction es generalizing w with
  | nil => exact Build.safe_pure hw ⟨hi, .nil⟩
  | cons e es ih =>
    rw [List.mapM_cons]
    refine Build.Safe.bind ((safe_root_denotes h e hw hi).weaken fun he =>
      ⟨e, List.mem_cons_self, he⟩) ?_
    intro y v hv hwv ⟨hiv, htape, hy⟩
    refine Build.Safe.bind ((ih hv hiv).weaken fun ⟨t, ht, hnone⟩ =>
      ⟨t, List.mem_cons_of_mem e ht, hnone⟩) ?_
    intro ys u hu hvu ⟨hiu, hys⟩
    exact Build.safe_pure hu ⟨hiu, .cons ⟨htape, hy.grows hvu⟩ hys⟩

def roots (R : Rules α) (find : ν → Build α (Operand α)) (primary : Option (Term α ν))
    (secondary : List (Term α ν)) : Build α (Option Handle × List Handle) := do
  let y ← primary.mapM (root R find)
  return (y, ← secondary.mapM (root R find))

theorem safe_outputRoots (h : Locates R f find active leafPlace leafMeaning I)
    (primary : Option (Term α ν)) (secondary : List (Term α ν)) (hw : w.Ready) (hi : I w) :
    (roots R find primary secondary).Safe w
      (∃ e ∈ primary.toList ++ secondary, e.rootTape active leafPlace = none) fun y v => I v ∧
        Option.Rel (Stands f active leafPlace leafMeaning v) primary y.1 ∧
          List.Forall₂ (Stands f active leafPlace leafMeaning v) secondary y.2 := by
  unfold roots
  cases primary with
  | none =>
    rw [Option.mapM_none, pure_bind]
    refine Build.Safe.bind (safe_roots h secondary hw hi) ?_
    intro ys v hv _ ⟨hiv, hys⟩
    exact Build.safe_pure hv ⟨hiv, .none, hys⟩
  | some e =>
    have hy : (Option.mapM (root R find) (some e)).Safe w (e.rootTape active leafPlace = none) fun y v =>
        I v ∧ ∃ z, y = some z ∧ e.Stands f active leafPlace leafMeaning v z := by
      refine Build.Safe.bind (safe_root_denotes h e hw hi) ?_
      intro z v hv _ ⟨hiv, htape, hz⟩
      exact Build.safe_pure hv ⟨hiv, z, rfl, htape, hz⟩
    refine Build.Safe.bind (hy.weaken fun he => ⟨e, List.mem_cons_self, he⟩) ?_
    rintro _ v hv - ⟨hiv, z, rfl, hz⟩
    refine Build.Safe.bind ((safe_roots h secondary hv hiv).weaken fun ⟨t, ht, hnone⟩ =>
      ⟨t, List.mem_cons_of_mem e ht, hnone⟩) ?_
    intro ys u hu hvu ⟨hiu, hys⟩
    exact Build.safe_pure hu ⟨hiu, .some (hz.grows hvu), hys⟩

end Term

variable [Written α]

/-- The program of outputs on a consistent tape with `n` positions. In every way that folding keeps the
outputs mean what `M` gives. -/
def Program.Yields (R : Rules α) (p : Program α) (n : Nat)
    (M : ∀ β : Type, (Node α β → β) → Option β × List β) : Prop :=
  ∃ (t : Tape α) (primary : Option Nat) (secondary : List Nat) (g : Graph α), t.Valid ∧
    (∀ i ∈ primary.toList ++ secondary, i < t.size) ∧ t.Extracts primary secondary g ∧ p.Compiles g ∧
    t.numInputs = n ∧ ∀ (β : Type) (f : Node α β → β), R.Folds f → ∀ V, t.net.Solves f V →
      (primary.map V, secondary.map V) = M β f

theorem Program.Yields.gradientLength_eq {R : Rules α} {p : Program α} {n : Nat}
    {M : ∀ β : Type, (Node α β → β) → Option β × List β} (h : p.Yields R n M) (k : Nat) :
    p.gradientLength k = max n k := by
  obtain ⟨t, primary, secondary, g, -, -, hextracts, hp, rfl, -⟩ := h
  unfold gradientLength
  rw [hp.numInputs, hextracts.numInputs, Int.toNat_natCast]

/-- A program gives the values that its outputs mean and, with exact adjoints, the derivatives of the
primary one. -/
theorem Program.Yields.exists_run {C : Calculus α} {p : Program α} {n : Nat}
    {M : ∀ β : Type, (Node α β → β) → Option β × List β} (h : p.Yields C.rules n M) (xs : Array α) :
    ∃ out, p.run C xs = some out ∧ out.primary = (M α (Node.value C.rules xs)).1 ∧
      out.secondary = (M α (Node.value C.rules xs)).2 ∧ out.gradient.size = max n xs.size ∧
      ∀ [CommRing α], C.adjoints.Exact → ∀ i,
        out.gradient.getD i 0 = (((M (α × α) (Node.tangent C xs i)).1).map Prod.snd).getD 0 := by
  obtain ⟨t, primary, secondary, g, ht, hroots, hextracts, hp, rfl, hmeaning⟩ := h
  have : Nonempty α := ⟨C.adjoints.zero⟩
  obtain ⟨V, hV⟩ := ht.ranked.exists_evaluates C.rules xs
  obtain ⟨out, hrun, hprimary, hsecondary, hsize⟩ := hextracts.exists_outputs ht hroots hp hV
  have hvalue := hmeaning α _ (Node.folds_value C.rules xs) V hV
  refine ⟨out, hrun, ?_, ?_, hsize, fun hC i => ?_⟩
  · rw [hprimary, ← hvalue]
  · rw [hsecondary, ← hvalue]
  · obtain ⟨D, hD⟩ := ht.ranked.exists_chainRule C V i
    rw [← hmeaning (α × α) _ (Node.folds_tangent C xs i) _ (hD.solves_tangent hV)]
    cases primary with
    | some r =>
      exact hextracts.gradient_eq ht (hroots r List.mem_cons_self) hp hC hV hD hrun hsize
    | none =>
      have hnone : p.primary = none := by
        rw [hp.primary, hextracts.primary_eq]
        rfl
      have hzeros := hp.topological.run_eq_of_none (hp.maps.evaluates ((hextracts.maps ht).evaluates hV))
        hnone (hp.secondary_lt hextracts.assembled.wellFormed)
      rw [hrun] at hzeros
      cases hzeros
      rw [Array.getD_eq_getD_getElem?, Array.getElem?_replicate, hC.zero]
      split <;> rfl

namespace Term

def outputs (R : Rules α) (find : ν → Build α (Operand α)) (settings : Option Settings)
    (primary : Option (Term α ν)) (secondary : List (Term α ν)) : Build α (Program α) := do
  let (y, ys) ← roots R find primary secondary
  (← makeGraph y ys).compile settings

section
variable {R : Rules α} {find : ν → Build α (Operand α)} {leafPlace : ν → Option Nat}
  {leafMeaning : ∀ β : Type, (Node α β → β) → ν → β} {I : Workspace α → Prop} {w : Workspace α}
  {primary : Option (Term α ν)} {secondary : List (Term α ν)}

/-- Outputs that all have one tape are built there, and their program yields what the trees mean. -/
theorem exists_outputs
    (h : ∀ (β : Type) (f : Node α β → β), R.Folds f →
      Locates R f find w.active leafPlace (leafMeaning β f) I)
    (hinput : ∀ v, I v → w.AddsNoInput v) (hw : w.Ready) (hi : I w) (settings : Option Settings)
    (hne : primary.toList ++ secondary ≠ []) {j : Nat}
    (hj : ∀ e ∈ primary.toList ++ secondary, e.rootTape w.active leafPlace = some j) :
    ∃ p v, (outputs R find settings primary secondary).run w = (.ok p, v) ∧
      p.Yields R (w.tape j).numInputs fun β f => (primary.map (fold f (leafMeaning β f)),
        secondary.map (fold f (leafMeaning β f))) := by
  have hplaced : ¬∃ e ∈ primary.toList ++ secondary, e.rootTape w.active leafPlace = none := by
    rintro ⟨e, he, hnone⟩
    rw [hj e he] at hnone
    cases hnone
  -- the roots are built in the same way for all meanings
  have hroots := fun (β : Type) (f : Node α β → β) (hf : R.Folds f) =>
    (safe_outputRoots (h β f hf) primary secondary hw hi).weaken hplaced
  obtain ⟨⟨y, ys⟩, u, hrun, hu, hwu, hiu, hy, hys⟩ :=
    (hroots Unit (fun _ => ()) fun _ _ => rfl).exists_run
  have hstands : List.Forall₂ (Stands (fun _ => ()) w.active leafPlace (leafMeaning Unit fun _ => ()) u)
      (primary.toList ++ secondary) (y.toList ++ ys) := List.rel_append (forall₂_toList hy) hys
  have hon : ∀ z ∈ y.toList ++ ys, z.tape = j ∧ z.index < (u.tape j).size := by
    intro z hz
    obtain ⟨e, he, hez⟩ := exists_of_forall₂_right hstands hz
    have htape : z.tape = j := Option.some.inj (hez.tape.symm.trans (hj e he))
    exact ⟨htape, htape ▸ (hez.denotes.on z rfl).2⟩
  have hne' : y.toList ++ ys ≠ [] := by
    intro hnil
    rw [hnil] at hstands
    exact hne (List.forall₂_nil_right_iff.mp hstands)
  obtain ⟨g, log, hgraph, hextracts⟩ := exists_makeGraph (hu.valid j) hne' hon
  obtain ⟨p, log', hcompile, hp, -⟩ :=
    hextracts.assembled.wellFormed.exists_compile_run settings (w := { u with log })
  refine ⟨p, { u with log := log' }, ?_, u.tape j, _, _, g, hu.valid j, roots_lt hon, hextracts, hp, ?_,
    fun β f hf V hV => ?_⟩
  · unfold outputs
    rw [Build.run_bind_ok hrun]
    dsimp only
    rw [Build.run_bind_ok hgraph, hcompile]
  · exact hwu.numInputs_eq hw hu (hinput u hiu) j
  · obtain ⟨-, hy, hys⟩ := (hroots β f hf).of_ok (y, ys) (by rw [hrun])
    rw [hrun] at hy hys
    refine Prod.ext ?_ (map_index_eq hys (fun e he => hj e (List.mem_append_right _ he)) hV)
    cases hy with
    | none => rfl
    | some hez => exact congrArg some (hez.meaning_eq (hj _ List.mem_cons_self) hV)

theorem rootTape_of_outputs {f : Node α Unit → Unit} {leafMeaning : ν → Unit}
    (h : Locates R f find w.active leafPlace leafMeaning I) (hw : w.Ready) (hi : I w)
    {settings : Option Settings} {p : Program α} {v : Workspace α}
    (hrun : (outputs R find settings primary secondary).run w = (.ok p, v)) :
    primary.toList ++ secondary ≠ [] ∧
      ∃ j, ∀ e ∈ primary.toList ++ secondary, e.rootTape w.active leafPlace = some j := by
  have hsafe := safe_outputRoots h primary secondary hw hi
  unfold outputs at hrun
  rcases hroots : (roots R find primary secondary).run w with ⟨e | ⟨y, ys⟩, u⟩
  · rw [Build.run_bind_error hroots] at hrun
    cases hrun
  · obtain ⟨-, hy, hys⟩ := hsafe.of_ok (y, ys) (by rw [hroots])
    have hu := hsafe.ready
    rw [hroots] at hy hys hu
    have hstands : List.Forall₂ (Stands f w.active leafPlace leafMeaning u) (primary.toList ++ secondary)
        (y.toList ++ ys) := List.rel_append (forall₂_toList hy) hys
    rw [Build.run_bind_ok hroots] at hrun
    dsimp only at hrun
    rcases hgraph : (makeGraph y ys).run u with ⟨e | g, u'⟩
    · rw [Build.run_bind_error hgraph] at hrun
      cases hrun
    · have hon : ∀ z ∈ y.toList ++ ys, z.index < (u.tape z.tape).size := by
        intro z hz
        obtain ⟨e, -, hez⟩ := exists_of_forall₂_right hstands hz
        exact (hez.denotes.on z rfl).2
      obtain ⟨j, hne, hj, -⟩ := exists_extracts_of_makeGraph hu hon hgraph
      refine ⟨fun hnil => ?_, j, fun e he => ?_⟩
      · rw [hnil] at hstands
        exact hne (List.forall₂_nil_left_iff.mp hstands)
      · obtain ⟨z, hz, hez⟩ := exists_of_forall₂ hstands he
        rw [hez.tape, (hj z hz).1]

end

end Term
end ScalarGraph
