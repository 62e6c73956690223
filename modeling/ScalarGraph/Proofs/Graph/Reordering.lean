import ScalarGraph.Proofs.Graph.Acceptance
import ScalarGraph.Proofs.Graph.Evaluation
import ScalarGraph.Proofs.Program.Adjoint

/-! # The order of listing

The order in which the nodes and the edges of a draft are listed decides the topological order, the
slots of a program and the order in which adjoints are added up, but nothing that a graph means. The
same draft in another order is assembled to the same nodes, with their operands in the same order,
and the programs of both give the same values. Where adjoints can be added in any order they give the
same gradient as well.
-/
namespace ScalarGraph
variable {α ι : Type}

theorem Node.eq_of_edges {n m : Node α ι} (hop : n.op = m.op) (h : ∀ e, e ∈ n.edges ↔ e ∈ m.edges) :
    n = m := by
  have hperm : n.edges.Perm m.edges := (List.perm_ext_iff_of_nodup n.nodup_edges_snd.of_map
    m.nodup_edges_snd.of_map).mpr h
  have hlength : n.operands.length = m.operands.length := by
    rw [← n.length_edges, ← m.length_edges, hperm.length_eq]
  have hedges : n.edges = m.edges := by
    refine eq_of_map_snd_eq ?_ m.nodup_edges_snd fun e he => (h e).mp he
    rw [n.edges_snd, m.edges_snd, hop, hlength]
  refine ext_operands hop ?_
  rw [← n.edges_fst, ← m.edges_fst, hedges]

theorem Op.literal_injective : Function.Injective (Op.literal (α := α)) := by
  intro o o' h
  have hop := congrArg Literal.op? h
  rw [literal_op?, literal_op?] at hop
  exact Except.ok.inj hop

theorem Edge.draft_injective : Function.Injective draft := by
  rintro ⟨a, b, r⟩ ⟨a', b', r'⟩ h
  obtain ⟨rfl, rfl, hslot⟩ := DraftEdge.mk.inj h
  cases hslot
  rfl

/-- The same draft with its nodes and edges in another order. -/
structure Draft.Reorders (d d' : Draft α) : Prop where
  nodes : d.nodes.Perm d'.nodes
  edges : d.edges.Perm d'.edges
  primary : d'.primary = d.primary
  secondary : d'.secondary = d.secondary
  numInputs : d'.numInputs = d.numInputs

structure Graph.Reorders (g g' : Graph α) : Prop where
  nodes : g.nodes.Perm g'.nodes
  edges : g.edges.Perm g'.edges
  primary : g'.primary = g.primary
  secondary : g'.secondary = g.secondary
  numInputs : g'.numInputs = g.numInputs

namespace Graph
variable {g g' : Graph α}

theorem Reorders.net_eq (h : g.Reorders g') : g'.net = g.net := by
  funext id n
  exact propext h.nodes.mem_iff.symm

theorem leastLength_perm (h : g.nodes.Perm g'.nodes) : g'.leastLength = g.leastLength := by
  have hpositions : g.positions.Perm g'.positions := h.filterMap _
  have hmax : g'.positions.max? = g.positions.max? := by
    cases hg : g.positions.max? with
    | none =>
      rw [List.max?_eq_none_iff] at hg ⊢
      exact List.perm_nil.mp (hg ▸ hpositions.symm)
    | some m =>
      rw [List.max?_eq_some_iff] at hg ⊢
      exact ⟨hpositions.mem_iff.mp hg.1, fun k hk => hg.2 k (hpositions.mem_iff.mpr hk)⟩
  unfold leastLength
  rw [hmax]

/-- A node is known from its literal and the edges. -/
theorem mem_nodes_of_literals
    (hliterals : (g.nodes.map fun p => (p.1, p.2.op.literal)).Perm
      (g'.nodes.map fun p => (p.1, p.2.op.literal)))
    (hedges : g.edges.Perm g'.edges) (hg : g.Wired) (hg' : g'.Wired) :
    ∀ p ∈ g.nodes, p ∈ g'.nodes := by
  rintro ⟨id, n⟩ hn
  obtain ⟨⟨id', m⟩, hm, heq⟩ := List.mem_map.mp (hliterals.mem_iff.mp (List.mem_map_of_mem hn))
  obtain ⟨rfl, hliteral⟩ := Prod.mk.inj heq
  have hop : n.op = m.op := Op.literal_injective hliteral.symm
  have hedge : ∀ e, e ∈ n.edges ↔ e ∈ m.edges := fun e => by
    rw [hg _ n hn, hg' _ m hm, hedges.mem_iff]
  rw [Node.eq_of_edges hop hedge]
  exact hm

theorem nodes_perm (hids : g.ids.Nodup) (hids' : g'.ids.Nodup)
    (hliterals : (g.nodes.map fun p => (p.1, p.2.op.literal)).Perm
      (g'.nodes.map fun p => (p.1, p.2.op.literal)))
    (hedges : g.edges.Perm g'.edges) (hg : g.Wired) (hg' : g'.Wired) : g.nodes.Perm g'.nodes :=
  (List.perm_ext_iff_of_nodup hids.of_map hids'.of_map).mpr fun p =>
    ⟨mem_nodes_of_literals hliterals hedges hg hg' p,
      mem_nodes_of_literals hliterals.symm hedges.symm hg' hg p⟩

end Graph

theorem Draft.Given.reorders [Written α] {d d' : Draft α} (hd : d.Given) (h : d.Reorders d') : d'.Given where
  ids_nodup := (h.nodes.map _).nodup_iff.mp hd.ids_nodup
  slots e he := hd.slots e (h.edges.mem_iff.mpr he)

theorem Draft.Given.numInputs_eq_getD [Written α] {d : Draft α} (hd : d.Given) {g : Graph α}
    (h : d.assemble = .ok g) : g.numInputs = d.numInputs.getD g.leastLength := by
  cases hnum : d.numInputs with
  | none => exact hd.numInputs_eq hnum h
  | some n =>
    obtain ⟨ps, order, named, rows, nodes, -, rfl⟩ := assemble_eq_ok.mp h
    simp [vectorLength, hnum]

theorem Draft.Given.assembled [Written α] {d : Draft α} (hd : d.Given) {g : Graph α}
    (h : d.assemble = .ok g) : g.Assembled := ⟨d, hd.ids_nodup, h⟩

/-- A draft is assembled in any order, to the same graph in some order. -/
theorem Draft.Given.exists_assemble_reorders [Written α] {d d' : Draft α} (hd : d.Given)
    (hr : d.Reorders d') {g : Graph α} (h : d.assemble = .ok g) :
    ∃ g', d'.assemble = .ok g' ∧ g.Reorders g' := by
  have hd' := hd.reorders hr
  have haccepted := (exists_assemble_iff hd.ids_nodup).mp ⟨g, h⟩
  obtain ⟨g', h'⟩ := (exists_assemble_iff hd'.ids_nodup).mpr
    (haccepted.perm hr.nodes hr.edges hr.primary hr.secondary)
  have hdraft := hd.eq_draft h
  have hdraft' := hd'.eq_draft h'
  have hedges : g.edges.Perm g'.edges := by
    refine (List.map_perm_map_iff Edge.draft_injective).mp ?_
    show g.draft.edges.Perm g'.draft.edges
    rw [← hdraft, ← hdraft']
    exact hr.edges
  have hliterals : g.draft.nodes.Perm g'.draft.nodes := by
    rw [← hdraft, ← hdraft']
    exact hr.nodes
  have hnodes := Graph.nodes_perm (hd.assembled h).wellFormed.ids_nodup
    (hd'.assembled h').wellFormed.ids_nodup hliterals hedges (hd.wired h) (hd'.wired h')
  refine ⟨g', h', hnodes, hedges, ?_, ?_, ?_⟩
  · show g'.draft.primary = g.draft.primary
    rw [← hdraft, ← hdraft']
    exact hr.primary
  · show g'.draft.secondary = g.draft.secondary
    rw [← hdraft, ← hdraft']
    exact hr.secondary
  · rw [hd.numInputs_eq_getD h, hd'.numInputs_eq_getD h', hr.numInputs, Graph.leastLength_perm hnodes]

namespace Graph.Reorders
variable {g g' : Graph α}

theorem lookup_operands (h : g.Reorders g') (hg : g.WellFormed) (id : Text) :
    g'.operands.lookup id = g.operands.lookup id := by
  refine (lookup_perm ?_ (h.nodes.map _) id).symm
  rw [List.map_map]
  exact hg.ids_nodup

theorem order_perm (h : g.Reorders g') (hg : g.WellFormed) (hg' : g'.WellFormed) : g.order.Perm g'.order :=
  hg.order_perm.trans ((h.nodes.map _).trans hg'.order_perm.symm)

theorem lookup_tabulated (h : g.Reorders g') (hg : g.WellFormed) (hg' : g'.WellFormed)
    (V : Text → α) (id : Text) :
    (g'.tabulated V).lookup id = (g.tabulated V).lookup id := by
  refine (lookup_perm ?_ ((h.order_perm hg hg').map _) id).symm
  have hids : (g.tabulated V).map Prod.fst = g.order := tabulated_fst V
  rw [tabulated] at hids
  rw [hids]
  exact hg.order_nodup

end Graph.Reorders

theorem Program.answer_eq_ok {p : Program α} {C : Calculus α} {xs : Array α} {out : Outputs α} :
    p.answer C xs = .ok out ↔ p.run C xs = some out ∧ p.gradientLength xs.size < lengthLimit := by
  unfold answer
  cases p.run C xs <;> split <;> simp_all

theorem Program.Compiles.answer_outputs {p : Program α} {g : Graph α} (h : p.Compiles g)
    (hg : g.WellFormed) {C : Calculus α} {xs : Array α} {V : Text → α}
    (hV : g.net.Evaluates C.rules xs V) {out : Outputs α} (hout : p.answer C xs = .ok out) :
    out.primary = g.primary.map V ∧ out.secondary = g.secondary.map V := by
  have hrun := (answer_eq_ok.mp hout).1
  rw [h.run_eq_map hg hV] at hrun
  obtain ⟨gs, -, rfl⟩ := Option.map_eq_some_iff.mp hrun
  exact ⟨rfl, rfl⟩

variable [DecidableEq α] [Hashable α]

/-- The programs of two graphs give all identifiers the same values. Calls that return give the same
primary and secondary outputs, which they do where every input has an entry in the gradient. Calls
come to the same result, gradient included, where adjoints can be added in any order. -/
structure Program.Agrees (p p' : Program α) (g : Graph α) : Prop where
  nodeTable : ∀ (R : Rules α) (xs : Array α) (w : Workspace α), ∃ vs vs' log log',
    (p.nodeTable R xs).run w = (.ok vs, { w with log }) ∧
    (p'.nodeTable R xs).run w = (.ok vs', { w with log := log' }) ∧
    ∀ id, vs'.lookup id = vs.lookup id
  outputs : ∀ (C : Calculus α) (xs : Array α), ∃ (y : Option α) (ys : List α), ∀ w out,
    ((p.call C xs).run w).1 = .ok out ∨ ((p'.call C xs).run w).1 = .ok out →
      out.primary = y ∧ out.secondary = ys
  returns : ∀ (C : Calculus α) (xs : Array α) (w : Workspace α),
    (∀ id k s, g.net id (.input k s) → k < max g.numInputs.toNat xs.size) →
    max g.numInputs.toNat xs.size < Program.lengthLimit →
    ∃ out out', ((p.call C xs).run w).1 = .ok out ∧ ((p'.call C xs).run w).1 = .ok out'
  call : ∀ (C : Calculus α) (xs : Array α) (w : Workspace α), C.adjoints.Unordered →
    ((p'.call C xs).run w).1 = ((p.call C xs).run w).1

/-- Two graphs have the same operands for every identifier, and their programs agree. -/
structure Graph.Interchangeable (g g' : Graph α) : Prop where
  operands : ∀ id, g'.operands.lookup id = g.operands.lookup id
  programs : ∀ (settings : Option Settings) (w : Workspace α), ∃ p p' log log',
    (g.compile settings).run w = (.ok p, { w with log }) ∧
    (g'.compile settings).run w = (.ok p', { w with log := log' }) ∧ p.Agrees p' g

theorem Graph.Reorders.agrees {g g' : Graph α} (h : g.Reorders g') (hg : g.WellFormed)
    (hg' : g'.WellFormed) {p p' : Program α} (hp : p.Compiles g) (hp' : p'.Compiles g')
    (hsettings : p.settings = p'.settings) : p.Agrees p' g := by
  have hsolve : ∀ (R : Rules α) (xs : Array α), ∃ V, g.net.Evaluates R xs V ∧ g'.net.Evaluates R xs V := by
    intro R xs
    have : Nonempty α := ⟨R.nary .sum []⟩
    obtain ⟨V, hV⟩ := hg.ranked.exists_evaluates R xs
    exact ⟨V, hV, h.net_eq ▸ hV⟩
  have hnum : p.numInputs = p'.numInputs := by rw [hp.numInputs, hp'.numInputs, h.numInputs]
  constructor
  case nodeTable =>
    intro R xs w
    obtain ⟨V, hV, hV'⟩ := hsolve R xs
    obtain ⟨log, hrun⟩ := hp.run_nodeTable hV w
    obtain ⟨log', hrun'⟩ := hp'.run_nodeTable hV' w
    exact ⟨_, _, log, log', hrun, hrun', h.lookup_tabulated hg hg' V⟩
  case outputs =>
    intro C xs
    obtain ⟨V, hV, hV'⟩ := hsolve C.rules xs
    refine ⟨g.primary.map V, g.secondary.map V, fun w out hout => ?_⟩
    rw [hp.run_call_answer hV, hp'.run_call_answer hV'] at hout
    rcases hout with hout | hout
    · exact hp.answer_outputs hg hV hout
    · rw [← h.primary, ← h.secondary]
      exact hp'.answer_outputs hg' hV' hout
  case returns =>
    intro C xs w hinput hlimit
    obtain ⟨V, hV, hV'⟩ := hsolve C.rules xs
    obtain ⟨out, hrun, -⟩ := hp.exists_outputs hg hV hinput
    obtain ⟨out', hrun', -⟩ := hp'.exists_outputs hg' hV' (by rwa [h.net_eq, h.numInputs])
    rw [hp.run_call_answer hV, hp'.run_call_answer hV']
    refine ⟨out, out', Program.answer_eq_ok.mpr ⟨hrun, ?_⟩, Program.answer_eq_ok.mpr ⟨hrun', ?_⟩⟩
    · rwa [Program.gradientLength, hp.numInputs]
    · rwa [Program.gradientLength, ← hnum, hp.numInputs]
  case call =>
    intro C xs w hC
    obtain ⟨V, hV, hV'⟩ := hsolve C.rules xs
    have hgradient : (p.run C xs).map Outputs.gradient = (p'.run C xs).map Outputs.gradient := by
      refine (hp.reads hg).run_gradient_eq hC (h.net_eq ▸ hp'.reads hg') hg.ranked hsettings hnum ?_
        (hp.primary_lt hg) (hp'.primary_lt hg') (hp.secondary_lt hg) (hp'.secondary_lt hg') hV
      rw [hp.map_name_primary hg, hp'.map_name_primary hg', h.primary]
    have hrun : p'.run C xs = p.run C xs := by
      rw [hp'.run_eq_map hg' hV', ← hgradient, h.primary, h.secondary, ← hp.run_eq_map hg hV]
    rw [hp.run_call_answer hV, hp'.run_call_answer hV', Program.answer, Program.answer, hrun,
      Program.gradientLength, Program.gradientLength, hnum]

theorem Graph.Reorders.interchangeable {g g' : Graph α} (h : g.Reorders g') (hg : g.WellFormed)
    (hg' : g'.WellFormed) : g.Interchangeable g' where
  operands := h.lookup_operands hg
  programs settings w := by
    obtain ⟨p, log, hrun, hp, hsettings⟩ := hg.exists_compile_run settings (w := w)
    obtain ⟨p', log', hrun', hp', hsettings'⟩ := hg'.exists_compile_run settings (w := w)
    exact ⟨p, p', log, log', hrun, hrun', h.agrees hg hg' hp hp' (hsettings.trans hsettings'.symm)⟩

/-- Two values describe the same graph, with its nodes and edges in another order. -/
structure Document.Reorders (v v' : Json) : Prop where
  nodes : ∃ ns ns', v.field? "nodes" = some (.object ns) ∧ v'.field? "nodes" = some (.object ns') ∧ ns.Perm ns'
  edges : ∃ es es', v.field? "edges" = some (.array es) ∧ v'.field? "edges" = some (.array es') ∧ es.Perm es'
  primary : v'.field? "primary" = v.field? "primary"
  secondary : v'.field? "secondary" = v.field? "secondary"

theorem Document.Reorders.exists_draft {v v' : Json} (h : Document.Reorders v v') {d : Draft Float}
    (hd : Document.draft v = .ok d) : ∃ d', Document.draft v' = .ok d' ∧ d.Reorders d' := by
  obtain ⟨ns, ns', hns, hns', hnodes⟩ := h.nodes
  obtain ⟨es, es', hes, hes', hedges⟩ := h.edges
  unfold Document.draft at hd ⊢
  rw [hns, hes] at hd
  rw [hns', hes', h.primary, h.secondary]
  obtain ⟨nodes, hn, hd⟩ := bind_eq_ok.mp hd
  obtain ⟨edges, he, hd⟩ := bind_eq_ok.mp hd
  obtain ⟨secondary, hs, hd⟩ := bind_eq_ok.mp hd
  cases hd
  obtain ⟨nodes', hn', hnodes'⟩ := mapM_perm hnodes hn
  obtain ⟨edges', he', hedges'⟩ := mapM_perm hedges he
  exact ⟨_, bind_eq_ok.mpr ⟨nodes', hn', bind_eq_ok.mpr ⟨edges', he', bind_eq_ok.mpr ⟨secondary, hs, rfl⟩⟩⟩,
    hnodes', hedges', rfl, rfl, rfl⟩

/-- A draft that is given in another order is assembled as well, and a document in another order is
read as well. The graph has the same nodes and edges, every identifier has the same operands, and
programs agree. -/
theorem Graph.interchangeable_of_reorders [Written α] :
    (∀ (d d' : Draft α) (g : Graph α), d.Given → d.Reorders d' → d.assemble = .ok g →
      ∃ g', d'.assemble = .ok g' ∧ g.Reorders g' ∧ g.Interchangeable g') ∧
    ∀ (t t' : Text) (v v' : Json) (g : Graph Float), Json.read t = .ok v → Json.read t' = .ok v' →
      Document.Reorders v v' → Document.read t = .ok g →
      ∃ g', Document.read t' = .ok g' ∧ g.Reorders g' ∧ g.Interchangeable g' := by
  refine ⟨fun d d' g hd hr h => ?_, fun t t' v v' g hv hv' hr h => ?_⟩
  · obtain ⟨g', h', hgr⟩ := hd.exists_assemble_reorders hr h
    exact ⟨g', h', hgr, hgr.interchangeable (hd.assembled h).wellFormed
      ((hd.reorders hr).assembled h').wellFormed⟩
  · unfold Document.read at h ⊢
    rw [hv] at h
    rw [hv']
    obtain ⟨d, hdraft, h⟩ := bind_eq_ok.mp h
    obtain ⟨d', hdraft', hdr⟩ := hr.exists_draft hdraft
    obtain ⟨hd, -⟩ := Document.given_of_draft (Json.distinct_of_read hv) hdraft
    obtain ⟨g', h', hgr⟩ := hd.exists_assemble_reorders hdr h
    exact ⟨g', bind_eq_ok.mpr ⟨d', hdraft', h'⟩, hgr, hgr.interchangeable (hd.assembled h).wellFormed
      ((hd.reorders hdr).assembled h').wellFormed⟩

/-- A sum of eleven operands, of which the last two stand for different inputs than the first. -/
def elevenTerms : List (Text × Node Float Text) :=
  [("s", .nary .sum ["a", "a", "b", "a", "a", "a", "a", "a", "a", "b", "c"]), ("a", .input 0 1.5),
    ("b", .input 1 (-0.0)), ("c", .debug "note" "b")]

theorem listed_elevenTerms :
    Draft.Listed elevenTerms fun id => if id = "s" then 2 else if id = "c" then 1 else 0 := by
  constructor <;> decide

open ScalarGraph.Graph ScalarGraph.Json in
theorem portable_elevenTerms {g : Graph Float} (hg : g.nodes.Perm elevenTerms) : g.Portable := by
  have hposition (k : Nat) (hk : k < 10) : (Json.int k).RoundTrips :=
    roundTrips_int_iff.mpr (Nat.lt_of_lt_of_le hk (Nat.le_self_pow (by decide) 10))
  have hid : ∀ p ∈ elevenTerms, (Json.text p.1).RoundTrips := by
    simp only [elevenTerms, List.forall_mem_cons, roundTrips_text_iff]
    exact ⟨Text.whole_of_ascii (by decide), Text.whole_of_ascii (by decide),
      Text.whole_of_ascii (by decide), Text.whole_of_ascii (by decide), by simp⟩
  have hop : ∀ p ∈ elevenTerms, p.2.op.Portable := by
    simp only [elevenTerms, List.forall_mem_cons]
    exact ⟨trivial, hposition 0 (by decide), hposition 1 (by decide),
      roundTrips_text_iff.mpr (Text.whole_of_ascii (by decide)), by simp⟩
  exact ⟨fun p hp => hid p (hg.mem_iff.mp hp), fun p hp => hop p (hg.mem_iff.mp hp)⟩

/-- The sum of eleven operands with its nodes and edges in reverse. -/
theorem interchangeable_elevenTerms : ∃ g g' : Graph Float, g.nodes = elevenTerms ∧
    g'.ids = ["c", "b", "a", "s"] ∧ g.Interchangeable g' ∧
    ∃ u u', Document.read g.document = .ok u ∧ Document.read g'.document = .ok u' ∧
      u.Interchangeable u' := by
  have hids : (elevenTerms.map (·.1)).Nodup := listed_elevenTerms.ids_nodup
  have hprimary : ∀ id ∈ (some "s" : Option Text), id ∈ elevenTerms.map (·.1) := by decide
  have hsecondary : ∀ id ∈ (["b"] : List Text), id ∈ elevenTerms.map (·.1) := by decide
  obtain ⟨g, hg, hnodes, -, -, hsec, -⟩ :=
    Draft.assemble_ofNodes none listed_elevenTerms hprimary hsecondary
  let d : Draft Float := Draft.ofNodes elevenTerms (some "s") ["b"] none
  have hd : d.Given := Draft.given_ofNodes hids _ _ _
  let d' : Draft Float := { d with nodes := d.nodes.reverse, edges := d.edges.reverse }
  have hr : d.Reorders d' := ⟨d.nodes.reverse_perm.symm, d.edges.reverse_perm.symm, rfl, rfl, rfl⟩
  obtain ⟨g', hg', hgr, hsame⟩ := Graph.interchangeable_of_reorders.1 d d' g hd hr hg
  have hids' : g'.ids = ["c", "b", "a", "s"] := by
    have hdraft := congrArg Draft.ids ((hd.reorders hr).eq_draft hg')
    rw [Graph.ids_draft] at hdraft
    rw [← hdraft]
    rfl
  refine ⟨g, g', hnodes, hids', hsame, ?_⟩
  have hread {u : Graph Float} {c : Draft Float} (hc : c.Given) (hu : c.assemble = .ok u)
      (hp : u.nodes.Perm elevenTerms) : Json.read u.document = .ok (Document.value u) ∧
        ∃ m, Document.read u.document = .ok m := by
    have hreturned : u.Returned := .built hc hu
    exact ⟨Graph.read_document (portable_elevenTerms hp) hreturned.closed, _,
      (hreturned.read_document_eq (portable_elevenTerms hp)).1⟩
  obtain ⟨hv, u, hu⟩ := hread hd hg (by rw [hnodes])
  obtain ⟨hv', -⟩ := hread (hd.reorders hr) hg' (hnodes ▸ hgr.nodes.symm)
  have hvr : Document.Reorders (Document.value g) (Document.value g') := by
    obtain ⟨hprimary, -, hns, hes⟩ := Document.field?_value g
    obtain ⟨hprimary', -, hns', hes'⟩ := Document.field?_value g'
    refine ⟨⟨_, _, hns, hns', hgr.nodes.map _⟩, ⟨_, _, hes, hes', hgr.edges.map _⟩, ?_, ?_⟩
    · rw [hprimary, hprimary', hgr.primary]
    · unfold Document.value Graph.sections
      rw [hgr.secondary, hgr.primary, hsec]
      rfl
  obtain ⟨u', hu', -, hsame'⟩ := Graph.interchangeable_of_reorders (α := Float).2 _ _ _ _ u hv hv' hvr hu
  exact ⟨u, u', hu, hu', hsame'⟩

end ScalarGraph
