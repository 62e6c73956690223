import ScalarGraph.Proofs.Graph.RoundTrip
import ScalarGraph.Proofs.Graph.Wiring

/-! # Safe evaluation

Every assembled graph compiles, and its program gives each node the one value that its operator
has at the values of its operands. A graph that was extracted or read has an entry in the gradient
for every input, so its program can be called as well.
-/
namespace ScalarGraph
variable {α : Type}

namespace Graph

def FitsInputs (g : Graph α) : Prop :=
  ∀ id k s, g.net id (.input k s) → (k : Int) < g.numInputs

theorem position_lt_leastLength {g : Graph α} {id : Text} {k : Nat} {s : α}
    (h : g.net id (.input k s)) : k < g.leastLength := by
  have hmem : k ∈ g.positions := List.mem_filterMap.mpr ⟨_, h, rfl⟩
  unfold leastLength
  cases hmax : g.positions.max? with
  | none =>
    rw [List.max?_eq_none_iff.mp hmax] at hmem
    cases hmem
  | some m =>
    have hle : k ≤ m := (List.max?_eq_some_iff.mp hmax).2 k hmem
    show k < 1 + m
    omega

theorem leastLength_le {g : Graph α} {n : Nat} (h : ∀ id k s, g.net id (.input k s) → k < n) :
    g.leastLength ≤ n := by
  unfold leastLength
  cases hmax : g.positions.max? with
  | none => exact Nat.zero_le n
  | some m =>
    obtain ⟨⟨id, node⟩, hmem, hm⟩ := List.mem_filterMap.mp (List.max?_mem hmax)
    obtain ⟨s, rfl⟩ := Node.eq_input_of_position? hm
    have hlt := h id m s hmem
    show 1 + m ≤ n
    omega

end Graph

theorem Draft.Given.fitsInputs [Written α] {d : Draft α} (hd : d.Given) (hnone : d.numInputs = none)
    {g : Graph α} (h : d.assemble = .ok g) : g.FitsInputs := by
  intro id k s hn
  rw [hd.numInputs_eq hnone h]
  exact Int.ofNat_lt.mpr (Graph.position_lt_leastLength hn)

namespace Graph

/-- Every node has in the table the value of its operator at the values of its operands there. -/
structure Assigns (g : Graph α) (R : Rules α) (xs : Array α) (vs : List (Text × α)) : Prop where
  ids : vs.map Prod.fst = g.order
  node : ∀ id n, g.net id n → ∃ m, n.mapM (fun c => vs.lookup c) = some m ∧
    vs.lookup id = some (m.value R xs)

def tabulated (g : Graph α) (V : Text → α) : List (Text × α) := g.order.map fun id => (id, V id)

variable {g : Graph α} {R : Rules α} {xs : Array α}

@[simp] theorem tabulated_fst (V : Text → α) : (g.tabulated V).map Prod.fst = g.order := by
  rw [tabulated, List.map_map]
  exact List.map_id g.order

theorem WellFormed.lookup_tabulated (hg : g.WellFormed) (V : Text → α) {id : Text}
    (hid : id ∈ g.order) : (g.tabulated V).lookup id = some (V id) := by
  apply lookup_of_mem
  · rw [tabulated_fst]
    exact hg.order_nodup
  · exact List.mem_map.mpr ⟨id, hid, rfl⟩

theorem WellFormed.assigns_tabulated (hg : g.WellFormed) {V : Text → α}
    (hV : g.net.Evaluates R xs V) : g.Assigns R xs (g.tabulated V) where
  ids := tabulated_fst V
  node id n hn := by
    refine ⟨n.map V, Node.mapM_eq_some fun c hc => ?_, ?_⟩
    · obtain ⟨m, hm⟩ := hg.exists_operand hn c hc
      exact hg.lookup_tabulated V (hg.mem_order hm)
    · rw [hg.lookup_tabulated V (hg.mem_order hn), hV id n hn]

theorem Assigns.exists_evaluates (hg : g.WellFormed) {vs : List (Text × α)}
    (h : g.Assigns R xs vs) : ∃ V, g.net.Evaluates R xs V ∧ vs = g.tabulated V := by
  refine ⟨fun id => (vs.lookup id).getD (R.nary .sum []), fun id n hn => ?_, ?_⟩
  · obtain ⟨m, hm, hid⟩ := h.node id n hn
    have hsame : n.map (fun c => (vs.lookup c).getD (R.nary .sum [])) = m.map fun v => v :=
      Node.map_eq_of_mapM_eq_some hm fun c _ x hc => by rw [hc, Option.getD_some]
    dsimp only
    rw [hid, hsame, Node.map_eq_self fun _ _ => rfl, Option.getD_some]
  · have hnodup : (vs.map Prod.fst).Nodup := by
      rw [h.ids]
      exact hg.order_nodup
    unfold tabulated
    rw [← h.ids, List.map_map]
    have hself : ∀ p ∈ vs, ((fun id => (id, (vs.lookup id).getD (R.nary .sum []))) ∘ Prod.fst) p = p := by
      rintro ⟨id, v⟩ hp
      rw [Function.comp_apply, lookup_of_mem hnodup hp, Option.getD_some]
    rw [List.map_congr_left hself, List.map_id']

end Graph

namespace Program.Compiles
variable {p : Program α} {g : Graph α} (h : p.Compiles g)
include h

theorem map_name_range : (List.range p.code.size).map p.name = g.order := by
  apply List.ext_getElem
  · rw [List.length_map, List.length_range, h.size]
  · intro s hs hs'
    rw [List.getElem_map, List.getElem_range]
    exact h.name_eq (List.getElem?_eq_getElem hs')

/-- The values of the slots beside their identifiers are the table of the graph. -/
theorem zip_valuesBelow (V : Text → α) :
    p.ids.zip (valuesBelow (V ∘ p.name) p.code.size).toList = g.tabulated V := by
  have hvalues : (valuesBelow (V ∘ p.name) p.code.size).toList = g.order.map V := by
    rw [← h.map_name_range, List.map_map]
    simp [valuesBelow]
  rw [hvalues, h.ids, Graph.tabulated]
  have hzip := List.zip_map' (f := id) (g := V) (l := g.order)
  rwa [List.map_id] at hzip

end Program.Compiles

variable [DecidableEq α] [Hashable α]

/-- The program reads no slot before it is written, and at every vector it gives the only table
that assigns values to the nodes of the graph. -/
structure Program.Tabulates (p : Program α) (g : Graph α) : Prop where
  topological : p.Topological
  nodeTable : ∀ (R : Rules α) (xs : Array α) (w : Workspace α), ∃ vs log,
    (p.nodeTable R xs).run w = (.ok vs, { w with log }) ∧ g.Assigns R xs vs ∧
      ∀ us, g.Assigns R xs us → us = vs

/-- A call gives the values of the outputs in the table of the nodes, and a gradient as long as the
vector and the one that the graph was built against. It fails only where the gradient would be too
long to be stored. -/
def Program.Answers (p : Program α) (g : Graph α) : Prop :=
  ∀ (C : Calculus α) (xs : Array α) (w : Workspace α), ∃ vs out log log',
    (p.nodeTable C.rules xs).run w = (.ok vs, { w with log }) ∧
    (p.call C xs).run w =
      (if out.gradient.size < Program.lengthLimit then .ok out else .error .badValue,
        { w with log := log' }) ∧
    (out.gradient.size : Int) = max g.numInputs xs.size ∧
    out.primary.map some = g.primary.map (vs.lookup ·) ∧
    out.secondary.map some = g.secondary.map (vs.lookup ·)

/-- Under any settings and in every workspace the graph compiles to a program that satisfies `P`. -/
def Graph.CompilesTo (g : Graph α) (P : Program α → Prop) : Prop :=
  ∀ (settings : Option Settings) (w : Workspace α), ∃ p log,
    (g.compile settings).run w = (.ok p, { w with log }) ∧ P p

namespace Program.Compiles
variable {p : Program α} {g : Graph α}

theorem run_nodeTable (h : p.Compiles g) {R : Rules α} {xs : Array α} {V : Text → α}
    (hV : g.net.Evaluates R xs V) (w : Workspace α) :
    ∃ log, (p.nodeTable R xs).run w = (.ok (g.tabulated V), { w with log }) := by
  obtain ⟨log, hsweep⟩ := run_sweep (w := w) (forward_eq h.topological (h.maps.evaluates hV))
  refine ⟨log, ?_⟩
  unfold nodeTable
  rw [Build.run_bind_ok hsweep, Build.run_pure, h.zip_valuesBelow]

theorem run_call_answer (h : p.Compiles g) {C : Calculus α} {xs : Array α} {V : Text → α}
    (hV : g.net.Evaluates C.rules xs V) (w : Workspace α) :
    ((p.call C xs).run w).1 = p.answer C xs := by
  obtain ⟨log, hcall⟩ := Program.run_call_answer (w := w) (forward_eq h.topological (h.maps.evaluates hV))
  rw [hcall]

theorem tabulates (h : p.Compiles g) (hg : g.WellFormed) : p.Tabulates g where
  topological := h.topological
  nodeTable R xs w := by
    have : Nonempty α := ⟨R.nary .sum []⟩
    obtain ⟨V, hV⟩ := hg.ranked.exists_evaluates R xs
    obtain ⟨log, hrun⟩ := h.run_nodeTable hV w
    refine ⟨_, log, hrun, hg.assigns_tabulated hV, fun us hus => ?_⟩
    obtain ⟨W, hW, rfl⟩ := hus.exists_evaluates hg
    -- the table does not depend on the solution that it is made of
    obtain ⟨log', hrun'⟩ := h.run_nodeTable hW w
    rw [hrun] at hrun'
    exact (Except.ok.inj (congrArg Prod.fst hrun')).symm

theorem answers (h : p.Compiles g) (hg : g.WellFormed) (hfits : g.FitsInputs) : p.Answers g := by
  intro C xs w
  have : Nonempty α := ⟨C.adjoints.zero⟩
  obtain ⟨V, hV⟩ := hg.ranked.exists_evaluates C.rules xs
  obtain ⟨log, htable⟩ := h.run_nodeTable hV w
  obtain ⟨out, hrun, hprimary, hsecondary, hsize⟩ := h.exists_outputs hg hV fun id k s hn => by
    have hk := hfits id k s hn
    omega
  obtain ⟨log', hcall⟩ := run_call (w := w) hrun
  have hlength : p.gradientLength xs.size = out.gradient.size := by
    rw [hsize, gradientLength, h.numInputs]
  rw [hlength] at hcall
  refine ⟨_, out, log, log', htable, hcall, by omega, ?_, ?_⟩
  · rw [hprimary, Option.map_map]
    exact Option.map_congr fun id hid => (hg.lookup_tabulated V (hg.primary_mem id hid)).symm
  · rw [hsecondary, List.map_map]
    exact List.map_congr_left fun id hid => (hg.lookup_tabulated V (hg.secondary_mem id hid)).symm

end Program.Compiles

namespace Graph
variable {g : Graph α}

theorem WellFormed.compilesTo (hg : g.WellFormed) {P : Program α → Prop}
    (hP : ∀ p, p.Compiles g → P p) : g.CompilesTo P := by
  intro settings w
  obtain ⟨p, log, hrun, hp, -⟩ := hg.exists_compile_run settings (w := w)
  exact ⟨p, log, hrun, hP p hp⟩

end Graph

theorem Tape.Extracts.fitsInputs [Written α] {t : Tape α} {primary : Option Nat}
    {secondary : List Nat} {g : Graph α} (hg : t.Extracts primary secondary g) (ht : t.Valid) :
    g.FitsInputs := by
  intro id k s hn
  have hk : k < t.numInputs := ht.position_lt (hg.maps ht hn)
  rw [hg.numInputs]
  exact Int.ofNat_lt.mpr hk

/-- Every graph that is assembled compiles to a program that gives its nodes their only values, the
operands being the sources of the edges by the slots that these name. A graph that is extracted from
handles or read from a document can also be called: no input is without an entry in the gradient, and
the outputs have the values of their nodes. -/
theorem Graph.evaluation_safe [Written α] :
    (∀ (d : Draft α) (g : Graph α), d.Given → d.assemble = .ok g →
      g.Wired ∧ g.CompilesTo fun p => p.Tabulates g) ∧
    (∀ (R : Rules α) (w v : Workspace α) (primary : Option Handle) (secondary : List Handle)
      (g : Graph α), w.Reached R →
      (∀ h ∈ primary.toList ++ secondary, h.index < (w.tape h.tape).size) →
      (makeGraph primary secondary).run w = (.ok g, v) →
      g.Wired ∧ g.CompilesTo fun p => p.Tabulates g ∧ p.Answers g) ∧
    ∀ (t : Text) (g : Graph Float), Document.read t = .ok g →
      g.Wired ∧ g.CompilesTo fun p => p.Tabulates g ∧ p.Answers g := by
  refine ⟨fun d g hd h => ?_, fun R w v primary secondary g hw hon hrun => ?_, fun t g h => ?_⟩
  · have hg : g.WellFormed := Assembled.wellFormed ⟨d, hd.ids_nodup, h⟩
    exact ⟨hd.wired h, hg.compilesTo fun p hp => hp.tabulates hg⟩
  · obtain ⟨d, hd, h⟩ := exists_given_of_makeGraph hw.ready hon hrun
    obtain ⟨k, -, -, -, hextracts⟩ := exists_extracts_of_makeGraph hw.ready hon hrun
    have hg : g.WellFormed := hextracts.assembled.wellFormed
    have hfits : g.FitsInputs := hextracts.fitsInputs (hw.ready.valid k)
    exact ⟨hd.wired h, hg.compilesTo fun p hp => ⟨hp.tabulates hg, hp.answers hg hfits⟩⟩
  · obtain ⟨d, hd, hnone, hassemble⟩ := Document.exists_given_of_read h
    have hg : g.WellFormed := Assembled.wellFormed ⟨d, hd.ids_nodup, hassemble⟩
    have hfits : g.FitsInputs := hd.fitsInputs hnone hassemble
    exact ⟨hd.wired hassemble, hg.compilesTo fun p hp => ⟨hp.tabulates hg, hp.answers hg hfits⟩⟩

/-- The sum of the input at position 0 and 2: its program gives the outputs, the primary one twice,
the value of their node. -/
theorem Graph.evaluation_safe_inputPlusTwo : ∃ (w : Workspace Int) (x : Handle) (g : Graph Int) (log : _),
    w.Reached polynomials.rules ∧ (makeGraph (some x) [x]).run w = (.ok g, { w with log }) ∧
      g.Wired ∧ g.CompilesTo fun p => p.Tabulates g ∧ p.Answers g := by
  obtain ⟨-, w, -, x, -, -, hw, htape, hindex⟩ := exists_inputPlusTwo polynomials.rules
  have hon : ∀ h ∈ (some x).toList ++ [x], h.tape = w.active ∧ h.index < (w.tape w.active).size := by
    simp [htape, hindex]
  obtain ⟨g, log, hrun, -⟩ := exists_makeGraph (hw.ready.valid _) (by simp) hon
  refine ⟨w, x, g, log, hw, hrun, ?_⟩
  refine evaluation_safe.2.1 polynomials.rules w _ _ _ g hw (fun h hh => ?_) hrun
  rw [(hon h hh).1]
  exact (hon h hh).2

end ScalarGraph
