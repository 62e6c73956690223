import ScalarGraph.Derivative
import ScalarGraph.Proofs.Evaluation
import ScalarGraph.Proofs.Tape.Program
import ScalarGraph.Proofs.Term.Derivative
import ScalarGraph.Proofs.Workspace.Reached

/-! # Programs of terms

A term over inputs and constants that is built on any reachable tape, extracted, compiled and
called computes its own recursive value, and with exact adjoints its derivatives by the chain rule.
Sharing, folding, renaming and reordering cannot be observed.
-/
namespace ScalarGraph
variable {α β ν : Type}

inductive Terminal (α : Type) where
  | input (k : Nat)
  | constant (x : α)
deriving DecidableEq

namespace Terminal

def value (sample : Nat → α) (xs : Array α) : Terminal α → α
  | input k => xs[k]?.getD (sample k)
  | constant x => x

def derivative [CommRing α] (i : Nat) : Terminal α → α
  | input k => if k = i then 1 else 0
  | constant _ => 0

def node (sample : Nat → α) : Terminal α → Node α β
  | input k => .input k (sample k)
  | constant x => .const x

theorem value_node (R : Rules α) (sample : Nat → α) (xs : Array α) (l : Terminal α) :
    (l.node sample : Node α α).value R xs = l.value sample xs := by
  cases l <;> rfl

theorem tangent_node [CommRing α] (C : Calculus α) (sample : Nat → α) (xs : Array α) (i : Nat)
    (l : Terminal α) :
    (l.node sample).tangent C xs i = (l.value sample xs, l.derivative i) := by
  cases l <;> rfl

theorem mentions_node (sample : Nat → α) (k : Nat) :
    ((input k : Terminal α).node sample).mentions k = true := by
  simp [node, Node.mentions, Node.position?]

variable [DecidableEq α] [Hashable α] [Written α]

def make (sample : Nat → α) : Terminal α → Build α (Operand α)
  | input k => do return .handle (← makeInput (some (k : Int)) (sample k))
  | constant x => do return .handle (← makeConst x)

theorem finds {R : Rules α} {f : Node α β → β} (hf : R.Folds f) (sample : Nat → α) :
    Term.Finds R f (make sample) (fun l => f (l.node sample)) (·.Samples sample) where
  folds := hf
  kept w v hs hv hinput := hs.of_addsNoInput hv hinput
  found l w hw hs := by
    cases l with
    | input k =>
      refine Build.Safe.bind (safe_makeInput hw hs k) ?_
      rintro h v hv - ⟨htape, hnode, hs'⟩
      exact Build.safe_pure hv ⟨hs', Operand.means_of_node htape hnode fun _ _ => rfl⟩
    | constant x =>
      refine Build.Safe.bind (safe_makeConst hw x) ?_
      rintro h v hv hwv ⟨htape, hnode, hinput⟩
      exact Build.safe_pure hv ⟨hs.of_addsNoInput hwv hinput,
        Operand.means_of_node htape hnode fun _ _ => rfl⟩

end Terminal

/-- Values and derivatives of nodes solve the equations of both together. -/
theorem Net.ChainRule.solves_tangent {ι : Type} [CommRing α] {N : Net α ι} {C : Calculus α}
    {xs : Array α} {V D : ι → α} {i : Nat} (hD : N.ChainRule C V i D)
    (hV : N.Evaluates C.rules xs V) : N.Solves (Node.tangent C xs i) fun j => (V j, D j) := by
  intro j n hn
  have hfst : (n.map fun j => (V j, D j)).map Prod.fst = n.map V := Node.map_map _ _ n
  dsimp only
  rw [Node.tangent, hfst, ← hV j n hn, hD j n hn, Node.operands_map, List.map_map]
  rfl

section
variable [DecidableEq α] [Hashable α]

theorem Tape.Valid.exists_input {t : Tape α} (ht : t.Valid) {k : Nat} {V : Nat → Bool}
    (hV : t.net.Solves (Node.mentions k) V) {i : Nat} (hi : i < t.size) (hk : V i = true) :
    ∃ j s, t.net j (.input k s) := by
  induction i using Nat.strongRecOn with
  | _ i ih =>
    obtain ⟨n, hn⟩ := exists_node hi
    rw [hV i n hn, Node.mentions, Node.position?_map, Node.operands_map, List.any_map,
      Bool.or_eq_true] at hk
    rcases hk with hpos | hbelow
    · obtain ⟨s, rfl⟩ := Node.eq_input_of_position? (eq_of_beq hpos)
      exact ⟨i, s, hn⟩
    · obtain ⟨c, hc, hck⟩ := List.any_eq_true.mp hbelow
      have hlt : c < i := ht.operand_lt hn c hc
      exact ih c hlt (Nat.lt_trans hlt hi) hck

theorem safe_ensured {R : Rules α} {f : Node α β → β} {find : ν → Build α (Operand α)}
    {leafMeaning : ν → β} {I : Workspace α → Prop} (h : Term.Finds R f find leafMeaning I)
    {w : Workspace α} (hw : w.Ready) (hi : I w) {x : Operand α} {b : β} (hx : x.Means f w b) :
    x.ensured.Safe w False fun y v => I v ∧ (Operand.handle y).Means f v b := by
  cases x with
  | handle y => exact Build.safe_pure hw ⟨hi, hx⟩
  | number a =>
    refine (safe_makeConst hw a).imp ?_
    rintro y v - hv ⟨htape, hnode, hinput⟩
    refine ⟨h.kept w v hi hv hinput, Operand.means_of_node htape hnode fun V hV => ?_⟩
    exact (hx.grows hv).meaning V hV
  | unfit e => exact hx.fit.elim

end

namespace Term
variable [DecidableEq α] [Hashable α]

theorem safe_root {R : Rules α} {f : Node α β → β} {find : ν → Build α (Operand α)}
    {leafMeaning : ν → β} {I : Workspace α → Prop} (h : Finds R f find leafMeaning I) (e : Term α ν)
    {w : Workspace α} (hw : w.Ready) (hi : I w) :
    (e.build R find >>= Operand.ensured).Safe w False fun y v =>
      I v ∧ (Operand.handle y).Means f v (e.fold f leafMeaning) := by
  refine Build.Safe.bind (safe_build h e w hw hi) ?_
  rintro x v hv - ⟨hiv, hx⟩
  exact safe_ensured h hv hiv hx

variable [Written α]

/-- Builds a term on the active tape, extracts its graph and compiles it. -/
def program (R : Rules α) (find : ν → Build α (Operand α)) (settings : Option Settings)
    (e : Term α ν) : Build α (Program α) := do
  let h ← (← e.build R find).ensured
  (← makeGraph (some h) []).compile settings

theorem exists_compile_root {w : Workspace α} (hw : w.Ready) {y : Handle}
    (hindex : y.index < (w.tape y.tape).size) (settings : Option Settings) :
    ∃ g p log, (makeGraph (some y) [] >>= fun g => g.compile settings).run w = (.ok p, { w with log }) ∧
      (w.tape y.tape).Extracts (some y.index) [] g ∧ p.Compiles g := by
  obtain ⟨g, log, hgraph, hextracts⟩ : ∃ g log,
      (makeGraph (some y) []).run w = (.ok g, { w with log }) ∧
        (w.tape y.tape).Extracts (some y.index) [] g :=
    exists_makeGraph (hw.valid y.tape) (List.cons_ne_nil y []) (by simpa using hindex)
  obtain ⟨p, log', hcompile, hp, -⟩ : ∃ p log', (g.compile settings).run { w with log } =
      (.ok p, { w with log := log' }) ∧ p.Compiles g ∧ p.settings = settings.getD w.settings :=
    hextracts.assembled.wellFormed.exists_compile_run settings
  exact ⟨g, p, log', by rw [Build.run_bind_ok hgraph, hcompile], hextracts, hp⟩

/-- The program of a term is that of a root on a consistent tape, which means what the tree does
in every way that folding keeps. -/
theorem exists_program {R : Rules α} {sample : Nat → α} (e : Term α (Terminal α)) {w : Workspace α}
    (hw : w.Ready) (hs : w.Samples sample) (settings : Option Settings) :
    ∃ (t : Tape α) (r : Nat) (g : Graph α) (p : Program α) (v : Workspace α),
      (e.program R (Terminal.make sample) settings).run w = (.ok p, v) ∧ t.Valid ∧ r < t.size ∧
      t.Extracts (some r) [] g ∧ p.Compiles g ∧
      ∀ (β : Type) (f : Node α β → β), R.Folds f → ∀ V, t.net.Solves f V →
        V r = e.fold f fun l => f (l.node sample) := by
  have hunit : R.Folds fun _ : Node α Unit => () := fun _ _ => rfl
  obtain ⟨y, u, hroot, hu, -, -, hy⟩ := (safe_root (Terminal.finds hunit sample) e hw hs).exists_run
  have htape : y.tape = u.active := hy.fit.1
  have hindex : y.index < (u.tape y.tape).size := by
    rw [htape]
    exact hy.fit.2
  obtain ⟨g, p, log, hcompile, hextracts, hp⟩ := exists_compile_root hu hindex settings
  have hprogram : (e.program R (Terminal.make sample) settings).run w = (.ok p, { u with log }) := by
    unfold program
    rw [← bind_assoc, Build.run_bind_ok hroot, hcompile]
  refine ⟨u.tape y.tape, y.index, g, p, _, hprogram, hu.valid _, hindex, hextracts, hp,
    fun β f hf V hV => ?_⟩
  have hmeans := (safe_root (Terminal.finds hf sample) e hw hs).of_ok y (congrArg Prod.fst hroot)
  rw [hroot] at hmeans
  rw [htape] at hV
  exact hmeans.2.meaning V hV

/-- From every reachable workspace whose inputs have the sample values the program of a term is
built, runs at every vector, and gives the value of the tree and, with exact adjoints, its
derivatives; under any settings, and whatever else is on the tapes. A call fails only where the
gradient would be too long to be stored. -/
theorem program_computes {C : Calculus α} {sample : Nat → α} (e : Term α (Terminal α))
    {w : Workspace α} (hw : w.Reached C.rules) (hs : w.Samples sample) (settings : Option Settings)
    (xs : Array α) :
    ∃ p v out log, (e.program C.rules (Terminal.make sample) settings).run w = (.ok p, v) ∧
      p.run C xs = some out ∧
      (p.call C xs).run v = (if p.gradientLength xs.size < Program.lengthLimit then .ok out
        else .error .badValue, { v with log }) ∧
      out.primary = some (e.value C.rules (Terminal.value sample xs)) ∧
      out.gradient.size = p.gradientLength xs.size ∧
      (∀ k, .input k ∈ e.leaves → k < out.gradient.size) ∧
      ∀ [CommRing α], C.adjoints.Exact → ∀ i, out.gradient.getD i 0 =
        e.derivative C (Terminal.value sample xs) (Terminal.derivative i) := by
  obtain ⟨t, r, g, p, v, hprogram, ht, hr, hextracts, hp, hmeaning⟩ :=
    exists_program (R := C.rules) e hw.ready hs settings
  have : Nonempty α := ⟨sample 0⟩
  obtain ⟨V, hV⟩ := ht.ranked.exists_evaluates C.rules xs
  obtain ⟨out, hrun, hprimary, -, hsize⟩ := hextracts.exists_run ht (by simpa using hr) hp hV
  have hlength : p.gradientLength xs.size = max t.numInputs xs.size := by
    rw [Program.gradientLength, hp.numInputs, hextracts.numInputs, Int.toNat_natCast]
  obtain ⟨log, hcall⟩ := Program.run_call (w := v) hrun
  refine ⟨p, v, out, log, hprogram, hrun, hcall, ?_, hsize.trans hlength.symm, fun k hk => ?_, ?_⟩
  · have hvalue := hmeaning α _ (Node.folds_value C.rules xs) V hV
    rw [fold_value] at hvalue
    rw [hprimary, hvalue]
    simp only [Terminal.value_node]
  · obtain ⟨W, hW⟩ := ht.ranked.exists_solves (Node.mentions (α := α) k)
    have hroot : W r = true := by
      rw [hmeaning Bool _ (Node.folds_mentions C.rules k) W hW, fold_mentions]
      exact List.any_eq_true.mpr ⟨.input k, hk, Terminal.mentions_node sample k⟩
    obtain ⟨j, s, hj⟩ := ht.exists_input hW hr hroot
    have hlt := ht.position_lt hj
    omega
  · intro hring hC i
    obtain ⟨D, hD⟩ := ht.ranked.exists_chainRule C V i
    have htangent := hmeaning (α × α) _ (Node.folds_tangent C xs i) _ (hD.solves_tangent hV)
    simp only [Terminal.tangent_node] at htangent
    rw [fold_tangent] at htangent
    rw [hextracts.gradient_eq ht hr hp hC hV hD hrun hsize]
    exact congrArg Prod.snd htangent

def squarePlusFive : Term Int (Terminal Int) :=
  .add (.mul (.leaf (.input 0)) (.leaf (.input 0)))
    (.debug "five" (.add (.number 2) (.leaf (.constant 3))))

def afterInput : Workspace Int :=
  ((Request.input (.ok (some 0)) (.ok 3) : Request Int Int).perform.run {}).2

theorem samples_afterInput : afterInput.Samples fun _ => 3 := by
  have hempty : Workspace.Samples ({} : Workspace Int) fun _ => 3 := by
    intro i k s h
    simp [Workspace.tape, Tape.empty] at h
  obtain ⟨h, v, hrun, -, -, -, -, hs⟩ :=
    (safe_makeInput (F := False) Workspace.ready_start hempty 0).exists_run
  have hv : afterInput = v := congrArg Prod.snd hrun
  rw [hv]
  exact hs

theorem program_computes_squarePlusFive :
    afterInput.Reached Graph.polynomials.rules ∧ (afterInput.Samples fun _ => 3) ∧
      Graph.polynomials.adjoints.Exact ∧
      ∃ p v out, (squarePlusFive.program Graph.polynomials.rules (Terminal.make fun _ => 3) none).run
          afterInput = (.ok p, v) ∧
        p.run Graph.polynomials #[5] = some out ∧ out.primary = some 30 ∧
        out.gradient.getD 0 0 = 10 := by
  have hreached : afterInput.Reached Graph.polynomials.rules := .request .start _
  obtain ⟨p, v, out, -, hprogram, hrun, -, hprimary, -, -, hgradient⟩ :=
    program_computes squarePlusFive hreached samples_afterInput none #[5]
  refine ⟨hreached, samples_afterInput, Graph.exact_polynomials, p, v, out, hprogram, hrun, ?_, ?_⟩
  · rw [hprimary]
    rfl
  · rw [hgradient Graph.exact_polynomials 0]
    rfl

end Term
end ScalarGraph
