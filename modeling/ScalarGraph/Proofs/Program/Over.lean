import ScalarGraph.Proofs.Program.Adjoint

/-! # Programs over more numbers

Two programs have the same instructions over two kinds of numbers, one of which is embedded in the
other. As long as every slot passes on the images of what it passes on in the other program, both sweeps
add up the same, and the gradient is the image of the gradient.
-/
namespace ScalarGraph
variable {α β : Type} {f : β → α}

structure Adjoints.Embeds (f : β → α) (B : Adjoints β) (A : Adjoints α) : Prop where
  zero : A.zero = f B.zero
  one : A.one = f B.one
  add : ∀ a b, A.add (f a) (f b) = f (B.add a b)
  isZero : ∀ a, A.isZero (f a) = B.isZero a

def Outputs.map (f : β → α) (out : Outputs β) : Outputs α where
  primary := out.primary.map f
  gradient := out.gradient.map f
  secondary := out.secondary.map f

namespace Program

def Sweep.map (f : β → α) (s : Sweep β) : Sweep α where
  adjoints := s.adjoints.map f
  gradient := s.gradient.map f

section
variable {A : Adjoints α} {B : Adjoints β}

theorem addAt_map (h : B.Embeds f A) (xs : Array β) (i : Nat) (d : β) :
    addAt A (xs.map f) i (f d) = (addAt B xs i d).map (Array.map f) := by
  by_cases hi : i < xs.size
  · have hi' : i < (xs.map f).size := by rwa [Array.size_map]
    rw [addAt_eq B hi, addAt_eq A hi', Array.getElem_map, h.add, Option.map_some, Array.map_set]
  · simp [addAt, hi]

theorem addShares_map (h : B.Embeds f A) (xs : Array β) (ds : List (Nat × β)) :
    addShares A (xs.map f) (ds.map (Prod.map id f)) = (addShares B xs ds).map (Array.map f) := by
  induction ds generalizing xs with
  | nil => rfl
  | cons d ds ih =>
    unfold addShares at ih ⊢
    rw [List.map_cons, List.foldlM_cons, List.foldlM_cons]
    dsimp only [Prod.map, id]
    rw [addAt_map h]
    cases addAt B xs d.1 d.2 with
    | none => rfl
    | some ys => exact ih ys

end

/-- The program over more numbers has the same instructions, and where the values are images it passes on
the images of what is passed on. -/
structure Over (f : β → α) (D : Calculus β) (C : Calculus α) (V : Nat → β) (q : Program β)
    (p : Program α) : Prop where
  size : p.code.size = q.code.size
  primary : p.primary = q.primary
  settings : p.settings = q.settings
  node : ∀ i n, q.net i n → ∃ m, p.net i m ∧ m.operands = n.operands ∧ m.position? = n.position? ∧
    ∀ a, m.passed C (f ∘ V) (f (V i)) (f a) = (n.passed D V (V i) a).map (Prod.map id f)

namespace Over
variable {D : Calculus β} {C : Calculus α} {V : Nat → β} {q : Program β} {p : Program α}

theorem operands_eq (h : q.Over f D C V p) (i : Nat) :
    p.code[i]?.map Node.operands = q.code[i]?.map Node.operands := by
  by_cases hi : i < q.code.size
  · obtain ⟨n, hn⟩ : ∃ n, q.net i n := ⟨_, Array.getElem?_eq_getElem hi⟩
    obtain ⟨m, hm, hoperands, -⟩ := h.node i n hn
    rw [net] at hn hm
    rw [hn, hm, Option.map_some, Option.map_some, hoperands]
  · have hi' : ¬i < p.code.size := by rwa [h.size]
    rw [Array.getElem?_eq_none (Nat.le_of_not_lt hi), Array.getElem?_eq_none (Nat.le_of_not_lt hi')]
    rfl

theorem gradientPath_eq (h : q.Over f D C V p) : p.gradientPath = q.gradientPath := by
  have hspread : p.spread = q.spread := by
    funext live i
    rw [spread, spread, h.operands_eq]
  unfold gradientPath
  rw [h.primary, h.size, hspread]

theorem topological (h : q.Over f D C V p) (hq : q.Topological) : p.Topological := by
  intro i m hm c hc
  have hi := net_lt_size hm
  rw [h.size] at hi
  obtain ⟨m', hm', hoperands, -⟩ := h.node i _ (Array.getElem?_eq_getElem hi)
  cases Option.some.inj (hm'.symm.trans hm)
  exact hq (Array.getElem?_eq_getElem hi) c (hoperands ▸ hc)

/-- A step from images of adjoints leads to images of adjoints. -/
theorem reverseStep_map (h : q.Over f D C V p) (hadjoints : D.adjoints.Embeds f C.adjoints)
    (hq : q.Topological) {i : Nat} {n : Node β Nat} (hn : q.net i n) {s : Sweep β}
    (hsize : s.adjoints.size = q.code.size) :
    p.reverseStep C (valuesBelow (f ∘ V) p.code.size) (s.map f) i =
      (q.reverseStep D (valuesBelow V q.code.size) s i).map (Sweep.map f) := by
  obtain ⟨xs, ys⟩ := s
  obtain ⟨m, hm, -, hposition, hpassed⟩ := h.node i n hn
  have hi := net_lt_size hn
  obtain ⟨a, ha⟩ : ∃ a, xs[i]? = some a := ⟨_, Array.getElem?_eq_getElem (hsize ▸ hi)⟩
  have ha' : (xs.map f)[i]? = some (f a) := by rw [Array.getElem?_map, ha, Option.map_some]
  have hsize' : (xs.map f).size = p.code.size := by
    rw [Array.size_map, h.size]
    exact hsize
  show p.reverseStep C (valuesBelow (f ∘ V) p.code.size) ⟨xs.map f, ys.map f⟩ i = _
  rw [(h.topological hq).reverseStep_eq hm ha' hsize', hq.reverseStep_eq hn ha hsize, h.settings,
    hadjoints.isZero, hposition, Function.comp_apply, hpassed]
  cases q.settings.skipZeroAdjoints && D.adjoints.isZero a with
  | true => rfl
  | false =>
    have hentered : (n.position?.map (·, f a)).toList =
        (n.position?.map (·, a)).toList.map (Prod.map id f) := by
      cases n.position? <;> rfl
    simp only [Bool.false_eq_true, if_false]
    rw [hentered, addShares_map hadjoints, addShares_map hadjoints]
    cases addShares D.adjoints xs (n.passed D V (V i) a) with
    | none => rfl
    | some xs' =>
      rw [Option.map_some, Option.bind_some, Option.bind_some]
      cases addShares D.adjoints ys (n.position?.map (·, a)).toList <;> rfl

theorem seed_map (h : q.Over f D C V p) (hadjoints : D.adjoints.Embeds f C.adjoints)
    (length r : Nat) : p.seed C.adjoints length r = (q.seed D.adjoints length r).map f := by
  unfold seed Sweep.map
  rw [h.size, hadjoints.zero, hadjoints.one]
  simp only [Array.map_setIfInBounds, Array.map_replicate]

theorem reverse_map (h : q.Over f D C V p) (hadjoints : D.adjoints.Embeds f C.adjoints)
    (hq : q.Topological) {r : Nat} (hr : q.primary = some r) (hlt : r < q.code.size) (length : Nat) :
    p.reverse C (valuesBelow (f ∘ V) p.code.size) length r =
      (q.reverse D (valuesBelow V q.code.size) length r).map (Sweep.map f) := by
  have hl := hq.descends_gradientPath hr hlt
  have hs := q.fits_seed D.adjoints length r
  unfold reverse
  rw [h.gradientPath_eq, h.seed_map hadjoints]
  generalize q.seed D.adjoints length r = s at hs
  generalize q.gradientPath = l at hl
  induction l generalizing s with
  | nil => rfl
  | cons i l ih =>
    obtain ⟨n, hn⟩ := hl.exists_node
    rw [List.foldlM_cons, List.foldlM_cons, h.reverseStep_map hadjoints hq hn hs.adjoints]
    cases hstep : q.reverseStep D (valuesBelow V q.code.size) s i with
    | none => rfl
    | some t => exact ih t (hq.passes hs hn hstep).1 (hl.tail hq)

/-- Where the values are images, a run gives the images of the outputs. -/
theorem run_map (h : q.Over f D C V p) (hadjoints : D.adjoints.Embeds f C.adjoints)
    (hq : q.Topological) {xs : Array β} (hV : q.net.Evaluates D.rules xs V)
    (hfV : p.net.Evaluates C.rules (xs.map f) (f ∘ V)) (hnum : p.numInputs = q.numInputs)
    (hsecondary : p.secondary = q.secondary) (hprimary : ∀ r ∈ q.primary, r < q.code.size)
    (hlt : ∀ i ∈ q.secondary, i < q.code.size) :
    p.run C (xs.map f) = (q.run D xs).map (Outputs.map f) := by
  have hp := h.topological hq
  have hlt' : ∀ i ∈ p.secondary, i < p.code.size := by rwa [hsecondary, h.size]
  have hlength : p.gradientLength (xs.map f).size = q.gradientLength xs.size := by
    rw [gradientLength, gradientLength, hnum, Array.size_map]
  cases hr : q.primary with
  | none =>
    rw [hq.run_eq_of_none hV hr hlt, hp.run_eq_of_none hfV (h.primary.trans hr) hlt', hlength, hsecondary,
      hadjoints.zero]
    simp [Outputs.map]
  | some r =>
    have hrlt := hprimary r hr
    rw [hq.run_eq hV hr hrlt hlt, hp.run_eq hfV (h.primary.trans hr) (h.size ▸ hrlt) hlt', hlength,
      h.reverse_map hadjoints hq hr hrlt, hsecondary, Option.map_map, Option.map_map]
    refine Option.map_congr fun s _ => ?_
    simp [Outputs.map, Sweep.map]

end Over
end Program
end ScalarGraph
