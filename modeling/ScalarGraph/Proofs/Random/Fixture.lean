import ScalarGraph.Proofs.Graph.Sample
import ScalarGraph.Proofs.Random.Unused
import ScalarGraph.Proofs.Workspace.Reached
import ScalarGraph.Random.Fixture

/-! # Fixtures and their graphs

The graph of a random expression is read back from its document with the least length of its input
vector. Evaluated at its own sample point it reproduces the outputs of the fixture, but for zeros at
the end of the gradient: these belong to inputs behind the last one that the expression depends on.
-/
namespace ScalarGraph
variable {σ : Type}

/-- The graph was extracted from a tape with the inputs and the operators of the recipe. -/
structure Recipe.Extracted (r : Recipe) (t : Tape Float) (i : Nat) (g : Graph Float) : Prop where
  valid : t.Valid
  lt_size : i < t.size
  operators : t.OperatorsIn r.Speaks
  inputs : ∀ k, t.HasInput k ↔ k < r.inputs
  extract : t.extract (some i) [] = .ok g

namespace Recipe.Extracted
variable {r : Recipe} {t : Tape Float} {i : Nat} {g : Graph Float} (h : r.Extracted t i g)
include h

theorem roots_lt : ∀ j ∈ (some i).toList ++ [], j < t.size := by
  intro j hj
  obtain rfl : j = i := by simpa using hj
  exact h.lt_size

theorem extracts : t.Extracts (some i) [] g := by
  obtain ⟨m, hm, hextracts⟩ := h.valid.exists_extract h.roots_lt
  obtain rfl : m = g := Except.ok.inj (hm.symm.trans h.extract)
  exact hextracts

theorem returned : g.Returned := by
  refine .built ?_ h.extract
  rw [h.valid.draft_eq h.roots_lt]
  exact Draft.given_ofNodes h.valid.listed_named.ids_nodup _ _ _

theorem numInputs : g.numInputs = r.inputs := by
  rw [h.extracts.numInputs, h.valid.numInputs_eq h.inputs]

theorem position_lt {id : Text} {k : Nat} {s : Float} (hn : g.net id (.input k s)) : k < r.inputs :=
  (h.inputs k).mp ⟨_, s, h.extracts.maps h.valid hn⟩

theorem portable (hlimit : r.inputs < Program.lengthLimit) : g.Portable where
  id p hp := by
    rw [h.extracts.nodes] at hp
    obtain ⟨j, -, n, -, rfl⟩ := Tape.mem_named.mp hp
    exact Json.roundTrips_text_iff.mpr (whole_append_ofNat (by decide) _)
  op p hp := by
    obtain ⟨id, n⟩ := p
    have htape := h.extracts.maps h.valid hp
    cases n with
    | input k s =>
      have hk : k < Program.lengthLimit := Nat.lt_trans (h.position_lt hp) hlimit
      have hdigits : Program.lengthLimit ≤ 10 ^ Decimal.digitLimit :=
        Nat.le_trans (show Program.lengthLimit ≤ 10 ^ 19 by decide)
          (Nat.pow_le_pow_right (by decide) (by decide))
      exact Json.roundTrips_int_iff.mpr (Nat.lt_of_lt_of_le hk hdigits)
    | debug l x =>
      obtain ⟨-, k, rfl⟩ := h.operators _ _ htape rfl
      exact Json.roundTrips_text_iff.mpr (whole_append_ofNat (by decide) k)
    | _ => trivial

end Recipe.Extracted

namespace Fixture
variable {S : Source σ} {s : σ} {r : Recipe} {w : Workspace Float} {F : Prop}

def drawn (S : Source σ) (s : σ) (r : Recipe) : Build Float (Handle × List Handle) := do
  return (← (Draw.expression S r).run s).1

theorem generate_eq (seed : Int) (r : Recipe) :
    generate seed r = ofExpression seed (drawn Mixing.source (Mixing.seeded seed) r) := rfl

theorem pooled_fresh (r : Recipe) (w : Workspace Float) : Draw.Pooled r 0 #[] w.fresh :=
  Draw.pooled_empty (by simp [Workspace.fresh, Workspace.tape])

theorem safe_drawn (hw : w.Ready) (hF : (Draw.Regular S r ∧ 0 < r.inputs) ∨ F) :
    (drawn S s r).Safe w.fresh F fun c v => Draw.Pooled r r.inputs #[c.1] v :=
  Build.Safe.bind (Draw.safe_expression hw.fresh (pooled_fresh r w) hF s) fun _ _ hv _ hc =>
    Build.safe_pure hv hc

/-- The primary output of an expression whose draws spare the input at `k` does not depend on it. -/
theorem safe_drawn_spares (hw : w.Ready) (hS : S.KeepsRange) {window : Nat}
    (hr : r.window = .whole window) (hwindow : 0 < window) {k : Nat} (hk : k < r.inputs)
    (htail : k + Draw.tailLength < r.inputs + r.operators)
    (hspares : Draw.Spares S r window k r.operators r.inputs ((Draw.afterInput S)^[r.inputs] s)) :
    (drawn S s r).Safe w.fresh F fun c v =>
      Draw.Pooled r r.inputs #[c.1] v ∧ (v.tape v.active).Avoids k c.1.index :=
  Build.Safe.bind
    (Draw.safe_expression_spares hS hr hwindow hw.fresh (pooled_fresh r w) hk htail hspares)
    fun _ _ hv _ hc => Build.safe_pure hv hc

theorem safe_makeGraph (hw : w.Ready) {h : Handle} (hp : Draw.Pooled r r.inputs #[h] w) :
    (makeGraph (some h) []).Safe w F fun g _ => r.Extracted (w.tape w.active) h.index g := by
  have hh := hp.on_active h (by simp)
  have hk : ∀ y ∈ (some h).toList ++ [], y.tape = w.active ∧ y.index < (w.tape w.active).size := by
    intro y hy
    obtain rfl : y = h := by simpa using hy
    exact hh
  have hvalid := hw.valid w.active
  obtain ⟨g, hg, -⟩ := hvalid.exists_extract (roots_lt hk)
  obtain ⟨log, hrun⟩ := run_makeGraph (by simp) (fun y hy => (hk y hy).1) hg
  refine ⟨?_, ?_, ?_, ?_⟩ <;> rw [hrun]
  · exact ⟨hw.active_lt, hw.valid⟩
  · exact ⟨rfl, rfl, fun _ => .refl _⟩
  · rintro m ⟨⟩
    exact ⟨hvalid, hh.2, hp.operators, hp.declared, hg⟩
  · rintro e ⟨⟩

section
variable {P : Tape Float → Nat → Prop}
  (hdrawn : (drawn S s r).Safe w.fresh F fun c v =>
    Draw.Pooled r r.inputs #[c.1] v ∧ P (v.tape v.active) c.1.index)
include hdrawn

theorem safe_extract : (do
    let (h, _) ← drawn S s r
    makeGraph (some h) [] : Build Float (Graph Float)).Safe w.fresh F
      fun g _ => ∃ t i, r.Extracted t i g ∧ P t i :=
  Build.Safe.bind hdrawn fun _ _ hv _ ⟨hc, hP⟩ =>
    (safe_makeGraph hv hc).imp fun _ _ _ _ hg => ⟨_, _, hg, hP⟩

theorem extracted_of_run {g : Graph Float} {u : Workspace Float}
    (h : (extract (drawn S s r)).run w = (.ok g, u)) : ∃ t i, r.Extracted t i g ∧ P t i :=
  (safe_extract hdrawn).of_ok g (congrArg Prod.fst h)

end

theorem exists_run_extract {P : Tape Float → Nat → Prop}
    (hdrawn : (drawn S s r).Safe w.fresh False fun c v =>
      Draw.Pooled r r.inputs #[c.1] v ∧ P (v.tape v.active) c.1.index) :
    ∃ g u t i, (extract (drawn S s r)).run w = (.ok g, u) ∧ r.Extracted t i g ∧ P t i := by
  obtain ⟨g, v, hrun, -, -, t, i, hg, hP⟩ := (safe_extract hdrawn).exists_run
  have hresult : ((extract (drawn S s r)).run w).1 = .ok g := congrArg Prod.fst hrun
  exact ⟨g, ((extract (drawn S s r)).run w).2, t, i, Prod.ext hresult rfl, hg, hP⟩

theorem run_ofExpression {e : Build Float (Handle × List Handle)} {g : Graph Float} {u : Workspace Float}
    (hextract : (extract e).run w = (.ok g, u)) {p : Program Float} {point : Array Float}
    {out : Outputs Float} {values : List (Text × Float)}
    (hg : g.SampledBy u.settings p point out values) (seed : Int) :
    ∃ log, (ofExpression seed e).run w =
      (.ok { graph := g, point, outputs := out, values }, { u with log }) := by
  obtain ⟨log₁, hcompile⟩ := hg.compile u rfl
  obtain ⟨log₂, hcall⟩ := hg.call { u with log := log₁ }
  obtain ⟨log₃, htable⟩ := hg.nodeTable { u with log := log₂.push (.wrote g.size g.edges.length) }
  refine ⟨log₃.push (.generated seed g.size (out.primary.getD 0.0)), ?_⟩
  unfold ofExpression
  rw [Build.run_bind_ok hextract, Build.run_bind_ok hcompile, hg.samplePoint,
    Build.run_bind_ok (Build.run_ofExcept _ _), Build.run_bind_ok hcall,
    Build.run_bind_ok (Build.run_note _ _), Build.run_bind_ok htable,
    Build.run_bind_ok (Build.run_note _ _), Build.run_pure]

theorem exists_of_run {e : Build Float (Handle × List Handle)} {seed : Int} {f : Fixture}
    {w' : Workspace Float} (h : (ofExpression seed e).run w = (.ok f, w')) :
    ∃ g u point, (extract e).run w = (.ok g, u) ∧ g.samplePoint .ok = .ok point := by
  obtain ⟨g, u, hextract, h⟩ := Build.of_run_bind_ok h
  obtain ⟨p, u₁, -, h⟩ := Build.of_run_bind_ok h
  obtain ⟨point, u₂, hpoint, -⟩ := Build.of_run_bind_ok h
  exact ⟨g, u, point, hextract, congrArg Prod.fst hpoint⟩

/-- The graph of a fixture with `n` inputs is read back from its document as `g`, with the least length
`m` of its input vector. Evaluated at its own sample point `g` has the outputs `out`: these are the
outputs of the fixture, but for the last `n - m` entries of the gradient, which are zeros there. The
values of all nodes are the same. -/
structure Reproduces (f : Fixture) (n : Nat) (settings : Settings) (g : Graph Float) (p : Program Float)
    (point : Array Float) (out : Outputs Float) : Prop where
  read : Document.read f.graph.document = .ok g
  graph_eq : g = { f.graph with numInputs := f.graph.leastLength }
  sampled : g.SampledBy settings p point out f.values
  size_gradient : out.gradient.size = f.graph.leastLength
  outputs_eq : f.outputs = { out with
    gradient := out.gradient ++ Array.replicate (n - f.graph.leastLength) 0.0 }
  leastLength_le : f.graph.leastLength ≤ n

theorem exists_reproduces {e : Build Float (Handle × List Handle)} {t : Tape Float} {i : Nat}
    {g : Graph Float} {u : Workspace Float} (hextract : (extract e).run w = (.ok g, u))
    (hg : r.Extracted t i g) (hlimit : r.inputs < Program.lengthLimit) (seed : Int) :
    ∃ f w', (ofExpression seed e).run w = (.ok f, w') ∧ f.graph = g ∧
      ∃ g p point out, f.Reproduces r.inputs w'.settings g p point out := by
  have hle : g.leastLength ≤ r.inputs := Graph.leastLength_le fun id k s hn => hg.position_lt hn
  have hlength : g.leastLength + (r.inputs - g.leastLength) = r.inputs := Nat.add_sub_cancel' hle
  obtain ⟨p, point, p', point', out, values, hread, hsize, hwritten⟩ :=
    hg.extracts.assembled.wellFormed.exists_sampledBy (fun id k s hn => Graph.position_lt_leastLength hn)
      (r.inputs - g.leastLength) (by rwa [hlength]) u.settings
  have hsame : ({ g with numInputs := (r.inputs : Nat) } : Graph Float) = g := by
    rw [← hg.numInputs]
  rw [hlength, hsame] at hwritten
  obtain ⟨log, hrun⟩ := run_ofExpression hextract hwritten seed
  exact ⟨_, _, hrun, rfl, _, p, point, out,
    (hg.returned.read_document_eq (hg.portable hlimit)).1, rfl, hread, hsize, rfl, hle⟩

/-- Every fixture is reproduced from the document of its graph, whatever the source is that its
expression was drawn from, and in whatever workspace. -/
theorem reproduced (S : Source σ) (s : σ) (r : Recipe) (seed : Int) {w w' : Workspace Float}
    (hw : w.Ready) {f : Fixture} (h : (ofExpression seed (drawn S s r)).run w = (.ok f, w')) :
    ∃ g p point out, f.Reproduces r.inputs w'.settings g p point out := by
  obtain ⟨g, u, point, hextract, hpoint⟩ := exists_of_run h
  have hdrawn := safe_drawn (S := S) (s := s) (r := r) (F := True) hw (.inr trivial)
  obtain ⟨t, i, hg, -⟩ := extracted_of_run (P := fun _ _ => True)
    (hdrawn.imp fun _ _ _ _ hc => ⟨hc, trivial⟩) hextract
  have hlimit : r.inputs < Program.lengthLimit := by
    have hlength := (Graph.samplePoint_eq_ok.mp hpoint).2.1
    rwa [hg.numInputs, Int.toNat_natCast] at hlength
  obtain ⟨f', u', hrun, -, hreproduces⟩ := exists_reproduces hextract hg hlimit seed
  rw [h] at hrun
  obtain ⟨hf, rfl⟩ := Prod.mk.inj hrun
  obtain rfl := Except.ok.inj hf
  exact hreproduces

/-- From a regular source there is a fixture of every recipe with inputs. -/
theorem exists_run_ofExpression (hw : w.Ready) (hS : Draw.Regular S r) (hinputs : 0 < r.inputs)
    (hlimit : r.inputs < Program.lengthLimit) (s : σ) (seed : Int) :
    ∃ f w', (ofExpression seed (drawn S s r)).run w = (.ok f, w') := by
  have hdrawn := safe_drawn (s := s) (F := False) hw (.inl ⟨hS, hinputs⟩)
  obtain ⟨g, u, t, i, hextract, hg, -⟩ := exists_run_extract (P := fun _ _ => True)
    (hdrawn.imp fun _ _ _ _ hc => ⟨hc, trivial⟩)
  obtain ⟨f, w', hrun, -⟩ := exists_reproduces hextract hg hlimit seed
  exact ⟨f, w', hrun⟩

theorem reproduced_defaultRecipe : ∃ f w', (generate 1 {}).run {} = (.ok f, w') ∧
    ∃ g p point out, f.Reproduces 4 w'.settings g p point out := by
  rw [generate_eq]
  have hS : Draw.Regular Mixing.source {} := ⟨Mixing.keepsRange, 8, by decide, rfl⟩
  obtain ⟨f, w', h⟩ := exists_run_ofExpression Workspace.ready_start hS (by decide) (by decide)
    (Mixing.seeded 1) 1
  exact ⟨f, w', h, reproduced Mixing.source (Mixing.seeded 1) {} 1 Workspace.ready_start h⟩

/-- The gradient can get shorter: here all four results are unary operators on the first input or on
results above it, so the graph that is read back does not know of the second one. -/
theorem gradient_shorter_unusedInput : ∃ f w' g p point out,
    (generate 35744 { inputs := 2, operators := 4 }).run {} = (.ok f, w') ∧
      Document.read f.graph.document = .ok g ∧ g.SampledBy w'.settings p point out f.values ∧
      f.outputs.gradient.size = 2 ∧ out.gradient.size < 2 := by
  rw [generate_eq]
  have hspares : Draw.Spares Mixing.source { inputs := 2, operators := 4 } 8 1 4 2
      ((Draw.afterInput Mixing.source)^[2] (Mixing.seeded 35744)) := by
    decide +kernel
  obtain ⟨g, u, t, i, hextract, hg, havoids⟩ := exists_run_extract (P := fun t i => t.Avoids 1 i)
    (safe_drawn_spares Workspace.ready_start Mixing.keepsRange rfl (by decide) (by decide) (by decide)
      hspares)
  obtain ⟨f, w', hrun, rfl, g, p, point, out, h⟩ := exists_reproduces hextract hg (by decide) 35744
  have hleast : f.graph.leastLength ≤ 1 := Graph.leastLength_le fun id k x hn => by
    have hk : k < 2 := hg.position_lt hn
    rcases Nat.lt_succ_iff_lt_or_eq.mp hk with hk | rfl
    · exact hk
    · exact absurd hn (havoids.not_net hg.valid hg.lt_size hg.extracts)
  have hsize := h.size_gradient
  refine ⟨f, w', g, p, point, out, hrun, h.read, h.sampled, ?_, by omega⟩
  rw [h.outputs_eq, Array.size_append, Array.size_replicate, hsize]
  show f.graph.leastLength + (2 - f.graph.leastLength) = 2
  omega

end Fixture
end ScalarGraph
