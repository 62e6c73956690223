import ScalarGraph.Proofs.Graph.Conversion
import ScalarGraph.Proofs.Graph.Evaluation
import ScalarGraph.Proofs.Term.Program
import ScalarGraph.Proofs.Workspace.Canonical

/-! # Replays on reachable workspaces

A graph that is replayed on any tape gives there, after folding and sharing, outputs with the values
and derivatives that it has itself. Nothing that was on the tape changes its meaning, whether the
replay succeeds or stops at an input that is declared with another sample value.
-/
namespace ScalarGraph
variable {α β : Type}

theorem Program.getElem?_gradient_of_primary_eq_none {p : Program α} {C : Calculus α} {xs : Array α}
    {out : Outputs α} (hr : p.primary = none) (h : p.run C xs = some out) {i : Nat}
    (hi : i < p.gradientLength xs.size) : out.gradient[i]? = some C.adjoints.zero := by
  obtain ⟨values, -, h⟩ := Option.bind_eq_some_iff.mp h
  unfold outputs at h
  rw [hr] at h
  obtain ⟨gradient, hgradient, h⟩ := Option.bind_eq_some_iff.mp h
  obtain ⟨primary, -, h⟩ := Option.bind_eq_some_iff.mp h
  obtain ⟨secondary, -, ⟨⟩⟩ := Option.bind_eq_some_iff.mp h
  cases hgradient
  rw [Array.getElem?_replicate, if_pos hi]

/-- Under any settings the programs of two graphs have the same outputs at every vector, and with
exact adjoints the same derivatives in the positions of all inputs of the first graph. -/
def Graph.Agrees (C : Calculus α) (g e : Graph α) : Prop :=
  ∀ (settings settings' : Settings) (xs : Array α), ∃ p q out out',
    g.compile? settings = some p ∧ e.compile? settings' = some q ∧
    p.run C xs = some out ∧ q.run C xs = some out' ∧
    out'.primary = out.primary ∧ out'.secondary = out.secondary ∧
    ∀ [CommRing α], C.adjoints.Exact → ∀ id i s, g.net id (.input i s) →
      ∃ d, out.gradient[i]? = some d ∧ out'.gradient[i]? = some d

variable [DecidableEq α] [Hashable α]

/-- The same tape is active, all arenas go on, and outputs that were there have the graphs that they
had, up to the length of the input vector. -/
structure Workspace.Keeps [Written α] (w v : Workspace α) : Prop where
  grows : w.Grows v
  makeGraph : ∀ (primary : Option Handle) (secondary : List Handle) (j : Nat),
    primary.toList ++ secondary ≠ [] →
    (∀ h ∈ primary.toList ++ secondary, h.tape = j ∧ h.index < (w.tape j).size) →
    ∃ g log m log', (makeGraph primary secondary).run w = (.ok g, { w with log }) ∧
      (makeGraph primary secondary).run v = (.ok { g with numInputs := m }, { v with log := log' })

theorem Workspace.Grows.keeps [Written α] {w v : Workspace α} (h : w.Grows v) (hw : w.Ready)
    (hv : v.Ready) : w.Keeps v where
  grows := h
  makeGraph primary secondary j hne hj := by
    have hsame : ∀ x ∈ primary.toList ++ secondary,
        (w.tape j).unfolding x.index = (v.tape j).unfolding x.index := fun x hx =>
      ((h.tape j).unfolding_eq (hw.valid j) (hv.valid j) (hj x hx).2).symm
    obtain ⟨g, log, hg, m, log', hm⟩ := exists_makeGraph_canonical hw hv hne hj
      (fun x hx => ⟨(hj x hx).1, Nat.lt_of_lt_of_le (hj x hx).2 (h.tape j).size_le⟩)
      (Option.map_congr fun x hx => hsame x (by simp [Option.mem_def.mp hx]))
      (List.map_congr_left fun x hx => hsame x (List.mem_append_right _ hx))
    exact ⟨g, log, m, log', hg, hm⟩

namespace Graph.Replays
variable {g : Graph α} {R : Rules α} {U : Text → Term α (Nat × α)} {k : Nat} {w v : Workspace α}
variable {m : Replayed}

theorem meaning_eq (h : g.Replays R U k w v g.order m) (hg : g.WellFormed)
    (hU : g.net.Solves Node.term U) {f : Node α β → β} (hf : R.Folds f) {V : Nat → β}
    (hV : (v.tape k).net.Solves f V) {W : Text → β} (hW : g.net.Solves f W) {id : Text}
    (hid : id ∈ g.order) : V (m.indexD id) = W id := by
  have ht : (v.tape k).Valid := h.ready.valid k
  obtain ⟨n, hn⟩ := hg.exists_node hid
  obtain ⟨a, ha⟩ := Tape.exists_node (h.index_lt id hid)
  calc V (m.indexD id) = ((v.tape k).unfolding (m.indexD id)).meaning f :=
        hV.eq_meaning ht.ranked ht.exists_operand ht.solves_unfolding _ a ha
    _ = ((U id).settled R).meaning f := by rw [h.unfolding_eq id hid]
    _ = (U id).meaning f := Term.meaning_settled hf _
    _ = W id := (hW.eq_meaning hg.ranked hg.exists_operand hU id n hn).symm

theorem position_lt (h : g.Replays R U k w v g.order m) (hg : g.WellFormed)
    (hU : g.net.Solves Node.term U) {id : Text} {i : Nat} {s : α} (hn : g.net id (.input i s)) :
    i < (v.tape k).numInputs := by
  have hid := hg.mem_order hn
  have htree : (v.tape k).unfolding (m.indexD id) = .leaf (i, s) := by
    rw [h.unfolding_eq id hid, hU id _ hn]
    rfl
  exact (h.ready.valid k).position_lt ((h.ready.valid k).of_unfolding_leaf (h.index_lt id hid) htree)

theorem handle_mem (h : g.Replays R U k w v g.order m) (hg : g.WellFormed) :
    ∀ x ∈ (g.primary.map (m.handle k)).toList ++ g.secondary.map (m.handle k),
      x.tape = k ∧ x.index < (v.tape k).size := by
  rw [outputs_map, List.forall_mem_map]
  exact fun id hid => ⟨rfl, h.index_lt id (hg.output_mem id hid)⟩

variable [Written α] {C : Calculus α}

theorem exists_makeGraph (h : g.Replays R U k w v g.order m) (hg : g.WellFormed)
    (hne : g.primary.toList ++ g.secondary ≠ []) :
    ∃ e log, (makeGraph (g.primary.map (m.handle k)) (g.secondary.map (m.handle k))).run v =
        (.ok e, { v with log }) ∧
      (v.tape k).Extracts ((g.primary.map (m.handle k)).map (·.index))
        ((g.secondary.map (m.handle k)).map (·.index)) e := by
  refine ScalarGraph.exists_makeGraph (h.ready.valid k) ?_ (h.handle_mem hg)
  rw [outputs_map]
  exact fun hnil => hne (List.map_eq_nil_iff.mp hnil)

/-- With exact adjoints both programs have the same derivative in the position of an input. -/
theorem exists_entry [CommRing α] (h : g.Replays C.rules U k w v g.order m) (hg : g.WellFormed)
    (hU : g.net.Solves Node.term U) (hfits : g.FitsInputs) (hC : C.adjoints.Exact) {e : Graph α}
    (he : (v.tape k).Extracts ((g.primary.map (m.handle k)).map (·.index))
      ((g.secondary.map (m.handle k)).map (·.index)) e)
    {p q : Program α} (hp : p.Compiles g) (hq : q.Compiles e) {xs : Array α} {out out' : Outputs α}
    (hout : p.run C xs = some out) (hout' : q.run C xs = some out')
    (hsize : out'.gradient.size = max (v.tape k).numInputs xs.size) {id : Text} {i : Nat} {s : α}
    (hn : g.net id (.input i s)) : ∃ d, out.gradient[i]? = some d ∧ out'.gradient[i]? = some d := by
  have ht : (v.tape k).Valid := h.ready.valid k
  have hi : i < max g.numInputs.toNat xs.size := by
    have hlt := hfits id i s hn
    omega
  have hi' : i < max (v.tape k).numInputs xs.size := by
    have hlt := h.position_lt hg hU hn
    omega
  cases hr : g.primary with
  | none =>
    refine ⟨C.adjoints.zero, ?_, ?_⟩
    · refine Program.getElem?_gradient_of_primary_eq_none (by rw [hp.primary, hr]; rfl) hout ?_
      rwa [Program.gradientLength, hp.numInputs]
    · refine Program.getElem?_gradient_of_primary_eq_none
        (by rw [hq.primary, he.primary_eq, hr]; rfl) hout' ?_
      rwa [Program.gradientLength, hq.numInputs, he.numInputs, Int.toNat_natCast]
  | some r =>
    have hrid := hg.primary_mem r hr
    obtain ⟨W, hW⟩ := hg.ranked.exists_evaluates C.rules xs
    obtain ⟨V, hV⟩ := ht.ranked.exists_evaluates C.rules xs
    obtain ⟨D, hD⟩ := hg.ranked.exists_chainRule C W i
    obtain ⟨E, hE⟩ := ht.ranked.exists_chainRule C V i
    have hboth := h.meaning_eq hg hU (Node.folds_tangent C xs i) (hE.solves_tangent hV)
      (hD.solves_tangent hW) hrid
    have hderivative : E (m.indexD r) = D r := congrArg Prod.snd hboth
    rw [hr, Option.map_some, Option.map_some] at he
    have hgradient : out'.gradient.getD i 0 = E (m.indexD r) :=
      he.gradient_eq ht (h.index_lt r hrid) hq hC hV hE hout' hsize
    refine ⟨D r, hp.gradient_eq hg hC hr hW hD hout hi, ?_⟩
    rw [← hderivative, ← hgradient, Array.getD_eq_getD_getElem?,
      Array.getElem?_eq_getElem (by omega), Option.getD_some]

/-- What is extracted at the handles of the outputs agrees with the graph. -/
theorem exists_agrees (h : g.Replays C.rules U k w v g.order m) (hg : g.WellFormed)
    (hU : g.net.Solves Node.term U) (hfits : g.FitsInputs)
    (hne : g.primary.toList ++ g.secondary ≠ []) :
    ∃ e log, (makeGraph (g.primary.map (m.handle k)) (g.secondary.map (m.handle k))).run v =
      (.ok e, { v with log }) ∧ g.Agrees C e := by
  have ht : (v.tape k).Valid := h.ready.valid k
  obtain ⟨e, log, hrun, he⟩ := h.exists_makeGraph hg hne
  refine ⟨e, log, hrun, fun settings settings' xs => ?_⟩
  have : Nonempty α := ⟨C.adjoints.zero⟩
  obtain ⟨p, hp, hpg, -⟩ := hg.exists_compile settings
  obtain ⟨q, hq, hqe, -⟩ := he.assembled.wellFormed.exists_compile settings'
  obtain ⟨W, hW⟩ := hg.ranked.exists_evaluates C.rules xs
  obtain ⟨V, hV⟩ := ht.ranked.exists_evaluates C.rules xs
  obtain ⟨out, hout, hprimary, hsecondary, -⟩ := hpg.exists_outputs hg hW fun id i s hn => by
    have hi := hfits id i s hn
    omega
  obtain ⟨out', hout', hprimary', hsecondary', hsize⟩ :=
    he.exists_outputs ht (roots_lt (h.handle_mem hg)) hqe hV
  have hvalue : ∀ id ∈ g.order, V (m.indexD id) = W id := fun id hid =>
    h.meaning_eq hg hU (Node.folds_value C.rules xs) hV hW hid
  refine ⟨p, q, out, out', hp, hq, hout, hout', ?_, ?_, ?_⟩
  · rw [hprimary, hprimary', Option.map_map, Option.map_map]
    exact Option.map_congr fun id hid => hvalue id (hg.primary_mem id hid)
  · rw [hsecondary, hsecondary', List.map_map, List.map_map]
    exact List.map_congr_left fun id hid => hvalue id (hg.secondary_mem id hid)
  · intro hring hC id i s hn
    exact h.exists_entry hg hU hfits hC he hpg hqe hout hout' hsize hn

end Graph.Replays

omit [DecidableEq α] [Hashable α] in
theorem Graph.FitsInputs.convert {ε : Type} {read : β → Except ε α} {g : Graph β} {h : Graph α}
    (hg : g.FitsInputs) (hread : g.convertM read = .ok h) : h.FitsInputs := by
  intro id i s hm
  obtain ⟨n, hn, hnm⟩ := net_of_convertM hread hm
  obtain ⟨-, hposition⟩ := Node.of_convertM_eq_ok hnm
  obtain ⟨r, rfl⟩ := Node.eq_input_of_position? hposition.symm
  have hnum : h.numInputs = g.numInputs :=
    congrArg Graph.numInputs (exists_nodes_of_convertM hread).2
  rw [hnum]
  exact hg id i r hn

/-- A graph whose numbers are read as `h` is replayed on any tape of a reachable workspace. If the
tape declares the position of one of its inputs with another sample value, this is a violation; else
the handles of the outputs are given, and what is extracted at them agrees with the graph under all
settings and at every vector. In both cases the same tape is active afterwards, and all that was on
the tapes keeps its meaning. -/
theorem Workspace.Reached.replay_preserves [Written α] [Written β] {C : Calculus α} {w : Workspace α}
    (hw : w.Reached C.rules) {k : Nat} (hk : k < w.tapes.size) {g : Graph β} (hg : g.Assembled)
    (hfits : g.FitsInputs) {read : β → Except Fault α} {h : Graph α} (hread : g.convertM read = .ok h) :
    ((∃ p r s, h.Clashes (w.tape k) p r s) → ∃ p r s v, h.Clashes (w.tape k) p r s ∧
      (g.replay C.rules read k).run w =
        (.error (.violation (.redeclared p (written r) (written s))), v) ∧ w.Keeps v) ∧
    ((¬ ∃ p r s, h.Clashes (w.tape k) p r s) → ∃ primary secondary v,
      (g.replay C.rules read k).run w = (.ok (primary, secondary), v) ∧ w.Keeps v ∧
      primary.map Handle.tape = h.primary.map (fun _ => k) ∧
      secondary.map Handle.tape = h.secondary.map (fun _ => k) ∧
      (h.primary.toList ++ h.secondary ≠ [] → ∃ e log,
        (makeGraph primary secondary).run v = (.ok e, { v with log }) ∧ h.Agrees C e)) := by
  have hwf : h.WellFormed := hg.wellFormed.convert hread
  have hpos : h.positions.Nodup := Graph.positions_of_convertM hread ▸ hg.nodup_positions
  rw [Graph.replay_convert hg.wellFormed.ids_nodup hread]
  constructor
  · intro hclash
    obtain ⟨p, r, s, v, hprs, hrun, hv, hgrows⟩ :=
      Graph.exists_replay_error hw.ready hk hwf hpos hclash (R := C.rules)
    exact ⟨p, r, s, v, hprs, hrun, hgrows.keeps hw.ready hv⟩
  · intro hfree
    obtain ⟨U, hU⟩ := hwf.ranked.exists_solves (Node.term (α := α))
    obtain ⟨m, v, hrun, hreplays⟩ := Graph.exists_replay (R := C.rules) hw.ready hk hwf hpos hU
      fun p r s hprs => hfree ⟨p, r, s, hprs⟩
    refine ⟨_, _, v, hrun, hreplays.grows.keeps hw.ready hreplays.ready, ?_, ?_, fun hne => ?_⟩
    · rw [Option.map_map]
      rfl
    · rw [List.map_map]
      rfl
    · exact hreplays.exists_agrees hwf hU (hfits.convert hread) hne

/-- `x * x + x` is replayed on an empty tape. -/
theorem Workspace.replay_preserves_squarePlusSelf : ∃ (g : Graph Int) (primary : _) (secondary : _)
    (v : Workspace Int) (e : _) (log : _), g.nodes = Graph.squarePlusSelf ∧
      (g.replay Graph.polynomials.rules .ok 0).run {} = (.ok (primary, secondary), v) ∧
        (makeGraph primary secondary).run v = (.ok e, { v with log }) ∧
          g.Agrees Graph.polynomials e := by
  obtain ⟨g, hassembled, hnodes, hprimary, -, hnum⟩ : ∃ g : Graph Int, g.Assembled ∧
      g.nodes = Graph.squarePlusSelf ∧ g.primary = some ("p" : Text) ∧ g.secondary = [] ∧
        g.numInputs = 1 :=
    Graph.listed_squarePlusSelf.exists_graph (by decide) (by decide) 1
  have hfits : g.FitsInputs := by
    intro id k s hn
    simp only [Graph.net, hnodes, Graph.squarePlusSelf, List.mem_cons, Prod.mk.injEq,
      Node.input.injEq, reduceCtorEq, and_false, List.not_mem_nil, or_false] at hn
    simp [hnum, hn.2.1]
  have hfree : ¬ ∃ p r s, g.Clashes (({} : Workspace Int).tape 0) p r s := by
    rintro ⟨p, r, s, -, ⟨i, hi⟩, -⟩
    simp [Tape.net, Workspace.tape, Tape.empty] at hi
  obtain ⟨-, hreplay⟩ := Workspace.Reached.start.replay_preserves (C := Graph.polynomials)
    Nat.zero_lt_one hassembled hfits g.convertM_ok
  obtain ⟨primary, secondary, v, hrun, -, -, -, hextract⟩ := hreplay hfree
  obtain ⟨e, log, he, hagrees⟩ := hextract (by simp [hprimary])
  exact ⟨g, primary, secondary, v, e, log, hnodes, hrun, he, hagrees⟩

end ScalarGraph
