import ScalarGraph.Proofs.Binary64
import ScalarGraph.Proofs.Graph.Gradient
import ScalarGraph.Proofs.Program.Blocked

/-! # Gradients behind blocked slots

What machine numbers leave in the gradient at a position that blocked slots separate from the
primary output. The partial of a blocked slot is a literal zero that the adjoint is
multiplied with, so the entry is zero only as long as these adjoints are finite.
-/
namespace ScalarGraph
variable {g : Graph Float} {r : Text} {xs : Array Float}

open Binary64 in
/-- Where every path from the primary output to the inputs at position `i` crosses a blocked slot,
and zero adjoints are not passed on, the gradient is zero there exactly if in the end the adjoint of
every node is finite that has a blocked slot above such an input; otherwise it is NaN. -/
theorem Graph.blocked_gradient_eq_zero_iff (hg : g.Assembled) (hr : g.primary = some r)
    (settings : Settings) (hskip : settings.skipZeroAdjoints = true) {V : Text → Float}
    (hV : g.net.Evaluates calculus.rules xs V) {i : Nat} (hi : i < max g.numInputs.toNat xs.size)
    (hblocked : ∀ id sample, g.net id (.input i sample) → ¬ g.net.OpenPath elementary V r id) :
    ∃ p values, g.compile? settings = some p ∧ p.forward calculus.rules xs = some values ∧
      ((∀ id k sample, g.net id (.input k sample) → k < max g.numInputs.toNat xs.size) →
        ∃ out, p.run calculus xs = some out) ∧
      ∀ out, p.run calculus xs = some out → ∃ sweep,
        p.reverse calculus values (p.gradientLength xs.size) (g.slot r) = some sweep ∧
        out.gradient = sweep.gradient ∧
        (out.gradient[i]? = some 0.0 ↔ ∀ u, g.net.Needs r u → g.net.Guards elementary V i u →
          ∃ a, sweep.adjoints[g.slot u]? = some a ∧ a.isFinite = true) ∧
        (out.gradient[i]? = some 0.0 ∨ out.gradient[i]? = some notANumber) := by
  have hwf := hg.wellFormed
  obtain ⟨p, hcompile, hp, rfl⟩ := hwf.exists_compile settings
  have hVp := hp.maps.evaluates hV
  have hs : p.primary = some (g.slot r) := by rw [hp.primary, hr, Option.map_some]
  have hmem := hwf.primary_mem r hr
  have hlt := hp.slot_lt hmem
  refine ⟨p, _, hcompile, p.forward_eq hp.topological hVp, fun hinput => ?_, fun out hrun => ?_⟩
  · obtain ⟨out, hrun, -⟩ := hp.exists_run hwf hr hV hinput
    exact ⟨out, hrun⟩
  rw [hp.topological.run_eq hVp hs hlt (hp.secondary_lt hwf)] at hrun
  obtain ⟨sweep, hsweep, rfl⟩ := Option.map_eq_some_iff.mp hrun
  refine ⟨sweep, hsweep, rfl, ?_⟩
  have hopen : ∀ j sample, p.net j (.input i sample) →
      ¬ p.net.OpenPath elementary (V ∘ p.name) (g.slot r) j := by
    intro j sample hj hpath
    have hgraph := hp.maps.openPath hpath
    rw [hp.name_slot hmem] at hgraph
    exact hblocked _ sample (hp.maps hj) hgraph
  have hlength : i < p.gradientLength xs.size := by
    rw [Program.gradientLength, hp.numInputs]
    exact hi
  have hvalue : ∀ u n, g.net u n → ((V ∘ p.name) ∘ g.slot) u = V u ∧
      ∀ c ∈ n.operands, ((V ∘ p.name) ∘ g.slot) c = V c := by
    intro u n hn
    have hback : ∀ c ∈ g.order, ((V ∘ p.name) ∘ g.slot) c = V c := fun c hc => by
      rw [Function.comp_apply, Function.comp_apply, hp.name_slot hc]
    refine ⟨hback u (hwf.mem_order hn), fun c hc => ?_⟩
    obtain ⟨m, hm⟩ := hwf.exists_operand hn c hc
    exact hback c (hwf.mem_order hm)
  rcases hp.topological.zero_or_nan_of_blocked ieee_elementary hskip hs hlt hopen hlength hsweep with
    ⟨hzero, hfinite⟩ | ⟨hnan, u, hu, hguards, a, ha, hinf⟩
  · refine ⟨⟨fun _ u hu hguards => ?_, fun _ => hzero⟩, .inl hzero⟩
    exact hfinite _ (hp.slots.needs hu) (hp.slots.guards (hguards.congr (hvalue u)))
  · refine ⟨⟨fun hzero => ?_, fun hall => ?_⟩, .inr hnan⟩
    · rw [hnan] at hzero
      exact absurd hzero (by decide +kernel)
    · have hneeds := hp.maps.needs hu
      rw [hp.name_slot hmem] at hneeds
      obtain ⟨b, hb, hfin⟩ := hall _ hneeds (hp.maps.guards hguards)
      rw [hp.slot_name hwf (Nat.lt_of_le_of_lt (hp.topological.le_of_needs hu) hlt), ha] at hb
      cases hb
      rw [show Binary64.elementary.isFinite a = a.isFinite from rfl, hfin] at hinf
      cases hinf

/-- The nodes of the square root of the sign of an input. -/
def rootOfSign : List (Text × Node Float Text) :=
  [("x", .input 0 0.5), ("t", .unary .sign "x"), ("p", .unary .sqrt "t")]

theorem listed_rootOfSign : Draft.Listed rootOfSign ((rootOfSign.map (·.1)).idxOf ·) := by
  constructor <;> decide

def rootOfSignProgram : Program Float where
  code := #[.input 0 0.5, .unary .sign 0, .unary .sqrt 1]
  ids := rootOfSign.map (·.1)
  primary := some 2
  secondary := []
  numInputs := 1
  settings := {}

theorem compiles_rootOfSign (hg : g.WellFormed) (hnodes : g.nodes = rootOfSign)
    {p : Program Float} (hp : p.Compiles g) :
    g.slot "t" = 1 ∧ g.slot "p" = 2 ∧ p.code = rootOfSignProgram.code := by
  have hmem : ∀ {id n}, (id, n) ∈ rootOfSign → g.net id n := fun h => by
    rw [Graph.net, hnodes]
    exact h
  have hx : g.net "x" (.input 0 0.5) := hmem (by decide)
  have ht : g.net "t" (.unary .sign "x") := hmem (by decide)
  have hq : g.net "p" (.unary .sqrt "t") := hmem (by decide)
  have hsize : p.code.size = 3 := by
    rw [hp.size, hg.order_perm.length_eq, Graph.ids, List.length_map, hnodes]
    rfl
  have hxt := hg.ranked.operand_lt ht "x" (by simp [Node.operands])
  have htq := hg.ranked.operand_lt hq "t" (by simp [Node.operands])
  have hlt := hp.slot_lt (hg.mem_order hq)
  have hsx : g.slot "x" = 0 := by omega
  have hst : g.slot "t" = 1 := by omega
  have hsq : g.slot "p" = 2 := by omega
  have h0 := hp.slots hx
  have h1 := hp.slots ht
  have h2 := hp.slots hq
  simp only [Program.net, Node.map, hsx, hst, hsq] at h0 h1 h2
  refine ⟨hst, hsq, Array.ext_getElem? fun i => ?_⟩
  rcases i with _ | _ | _ | i
  · simpa [rootOfSignProgram] using h0
  · simpa [rootOfSignProgram] using h1
  · simpa [rootOfSignProgram] using h2
  · simp [hsize, rootOfSignProgram]

theorem Program.reverse_congr {p q : Program Float} (hcode : p.code = q.code)
    (hprimary : p.primary = q.primary) (hsettings : p.settings = q.settings) :
    p.reverse = q.reverse := by
  cases p
  cases q
  cases hcode
  cases hprimary
  cases hsettings
  rfl

open Binary64 in
theorem reverse_rootOfSignProgram :
    (rootOfSignProgram.forward calculus.rules #[0.0]) = some #[0.0, 0.0, 0.0] ∧
      (rootOfSignProgram.reverse calculus #[0.0, 0.0, 0.0] 1 2).map Program.Sweep.adjoints =
        some #[notANumber, infinity, 1.0] := by
  decide +kernel

open Binary64 in
theorem blocked_gradient_rootOfSign : ∃ g : Graph Float, g.nodes = rootOfSign ∧
    ∃ p out, g.compile? {} = some p ∧ p.run calculus #[0.0] = some out ∧
      out.gradient[0]? = some notANumber := by
  obtain ⟨g, hassembled, hnodes, hprimary, -, hnum⟩ : ∃ g : Graph Float, g.Assembled ∧
      g.nodes = rootOfSign ∧ g.primary = some ("p" : Text) ∧ g.secondary = [] ∧ g.numInputs = 1 :=
    listed_rootOfSign.exists_graph (by decide) (by decide) 1
  have hwf := hassembled.wellFormed
  have hnet : ∀ id n, g.net id n → (id, n) ∈ rootOfSign := fun id n h => by
    rwa [Graph.net, hnodes] at h
  have hmem : ∀ {id n}, (id, n) ∈ rootOfSign → g.net id n := fun h => by
    rwa [Graph.net, hnodes]
  have hinput : ∀ id k sample, g.net id (.input k sample) → id = "x" ∧ k = 0 := by
    intro id k sample h
    have hn := hnet _ _ h
    simp only [rootOfSign, List.mem_cons, Prod.mk.injEq, Node.input.injEq, reduceCtorEq, and_false,
      List.not_mem_nil, or_false] at hn
    exact ⟨hn.1, hn.2.1⟩
  obtain ⟨V, hV⟩ := hwf.ranked.exists_evaluates calculus.rules #[0.0]
  have hblocked : ∀ id sample, g.net id (.input 0 sample) →
      ¬ g.net.OpenPath elementary V "p" id := by
    intro id sample hid hpath
    obtain ⟨rfl, -⟩ := hinput id 0 sample hid
    rcases Relation.ReflTransGen.cases_tail hpath with heq | ⟨b, -, n, k, hn, hc, hb⟩
    · exact absurd heq (by decide)
    have hcases := hnet b n hn
    simp only [rootOfSign, List.mem_cons, Prod.mk.injEq, List.not_mem_nil, or_false] at hcases
    rcases hcases with ⟨-, rfl⟩ | ⟨-, rfl⟩ | ⟨-, rfl⟩
    · cases hc
    · cases k <;> cases hb
    · cases k with
      | zero => exact absurd (Option.some.inj hc) (by decide)
      | succ k => cases hc
  obtain ⟨q, hcompile, hq, hsettings⟩ := hwf.exists_compile {}
  obtain ⟨q', values, hcompile', hforward, hruns, hgradient⟩ :=
    Graph.blocked_gradient_eq_zero_iff hassembled hprimary {} rfl hV (by simp) hblocked
  cases Option.some.inj (hcompile'.symm.trans hcompile)
  obtain ⟨out, hrun⟩ := hruns fun id k sample hid => by simp [(hinput id k sample hid).2]
  obtain ⟨sweep, hsweep, -, hiff, hzero | hnan⟩ := hgradient out hrun
  · obtain ⟨hst, hsq, hcode⟩ := compiles_rootOfSign hwf hnodes hq
    have hneeds : g.net.Needs "p" "t" := .single ⟨_, hmem (n := .unary .sqrt "t") (by decide), by decide⟩
    have hguards : g.net.Guards elementary V 0 "t" :=
      ⟨"x", ⟨.unary .sign "x", 0, hmem (by decide), rfl, rfl⟩, "x", 0.5, hmem (by decide), .refl⟩
    obtain ⟨a, ha, hfinite⟩ := hiff.mp hzero "t" hneeds hguards
    have hprimary' : q.primary = rootOfSignProgram.primary := by
      rw [hq.primary, hprimary, Option.map_some, hsq]
      rfl
    have hvalues : values = #[0.0, 0.0, 0.0] := by
      rw [Program.forward, hcode] at hforward
      exact Option.some.inj (hforward.symm.trans reverse_rootOfSignProgram.1)
    have hlength : q.gradientLength (#[0.0] : Array Float).size = 1 := by
      simp [Program.gradientLength, hq.numInputs, hnum]
    rw [Program.reverse_congr hcode hprimary' hsettings, hvalues, hlength, hsq] at hsweep
    have hadjoints := reverse_rootOfSignProgram.2
    rw [hsweep] at hadjoints
    rw [Option.some.inj hadjoints, hst] at ha
    cases ha
    exact absurd hfinite (by decide +kernel)
  · exact ⟨g, hnodes, q, out, hcompile, hrun, hnan⟩

end ScalarGraph
