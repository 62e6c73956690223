import ScalarGraph.Proofs.Blocked
import ScalarGraph.Proofs.Evaluation
import ScalarGraph.Proofs.Session.Function
import ScalarGraph.Proofs.Tape.Distance

/-! # Folding is complete

Whatever functions are called and whatever graphs are replayed on a tape, no operator and no debug node
is left over constants alone. So every one of them depends on an input, and what depends on none is a
constant.
-/
namespace ScalarGraph
variable {α : Type}

theorem Node.exists_operand_of_mapM_eq_none {ι κ : Type} {f : ι → Option κ} {n : Node α ι}
    (h : n.mapM f = none) : ∃ c ∈ n.operands, f c = none := by
  have hnode := Node.some_mapM f n
  rw [h] at hnode
  apply exists_of_mapM_eq_none
  cases hm : n.operands.mapM f with
  | none => rfl
  | some ys =>
    rw [hm] at hnode
    cases hnode

/-- The graph that has one constant as its only node, which is all of its outputs. -/
def Graph.ofConstant {ι : Type} (x : α) (primary : Option ι) (secondary : List ι) (numInputs : Int) :
    Graph α where
  nodes := [(visitedName 0, .const x)]
  edges := []
  order := [visitedName 0]
  primary := primary.map fun _ => visitedName 0
  secondary := secondary.map fun _ => visitedName 0
  numInputs := numInputs

variable [DecidableEq α] [Hashable α]

namespace Tape
variable {t : Tape α} {i : Nat}

def NeedsInput (t : Tape α) (i : Nat) : Prop := ∃ p, t.net.Carries p i

theorem needsInput_of_operand {n : Node α Nat} {c : Nat} (hn : t.nodes[i]? = some n)
    (hc : c ∈ n.operands) (h : t.NeedsInput c) : t.NeedsInput i := by
  obtain ⟨p, j, s, hj, hneeds⟩ := h
  exact ⟨p, j, s, hj, .head ⟨n, hn, hc⟩ hneeds⟩

theorem eq_of_needs_constant {x : α} {j : Nat} (hi : t.nodes[i]? = some (.const x))
    (h : t.net.Needs i j) : j = i := by
  rcases Relation.ReflTransGen.cases_head h with rfl | ⟨c, ⟨n, hn, hc⟩, -⟩
  · rfl
  · rw [net, hi] at hn
    cases hn
    cases hc

theorem not_needsInput_of_constant {x : α} (hi : t.nodes[i]? = some (.const x)) : ¬t.NeedsInput i := by
  rintro ⟨p, j, s, hj, hneeds⟩
  obtain rfl := eq_of_needs_constant hi hneeds
  rw [net, hi] at hj
  cases hj

theorem Folded.exists_operand (h : t.Folded) {n : Node α Nat} (hn : t.nodes[i]? = some n)
    (hop : n.op.isTerminal = false) : ∃ c ∈ n.operands, t.constant? c = none :=
  Node.exists_operand_of_mapM_eq_none (h i n hn hop)

/-- On a folded tape what is no constant needs an input, as one of its operands is no constant
either. -/
theorem Folded.needsInput (h : t.Folded) (ht : t.Valid) (hi : i < t.size) (hc : t.constant? i = none) :
    t.NeedsInput i := by
  induction i using Nat.strongRecOn with
  | _ i ih =>
    obtain ⟨n, hn⟩ := exists_node hi
    cases hop : n.op.isTerminal with
    | false =>
      obtain ⟨c, hcn, hcnone⟩ := h.exists_operand hn hop
      have hlt := ht.operand_lt hn c hcn
      exact needsInput_of_operand hn hcn (ih c hlt (Nat.lt_trans hlt hi) hcnone)
    | true =>
      cases n with
      | const x =>
        rw [constant?, hn] at hc
        cases hc
      | input p s => exact ⟨p, i, s, hn, .refl⟩
      | _ => cases hop

theorem Folded.constant_iff (h : t.Folded) (ht : t.Valid) (hi : i < t.size) :
    (∃ x, t.constant? i = some x) ↔ ¬t.NeedsInput i := by
  constructor
  · rintro ⟨x, hx⟩
    exact not_needsInput_of_constant (node_of_constant? hx)
  · intro hnot
    cases hc : t.constant? i with
    | none => exact absurd (h.needsInput ht hi hc) hnot
    | some x => exact ⟨x, rfl⟩

theorem Valid.reachable_eq_of_constant (ht : t.Valid) {x : α} (hi : t.nodes[i]? = some (.const x))
    {roots : List Nat} (hne : roots ≠ []) (hroots : ∀ r ∈ roots, r = i) : t.reachable roots = [i] := by
  have hlt : ∀ r ∈ roots, r < t.size := fun r hr => hroots r hr ▸ lt_size hi
  obtain ⟨r, hr⟩ := List.exists_mem_of_ne_nil roots hne
  obtain rfl := hroots r hr
  apply List.perm_singleton.mp
  apply (List.perm_ext_iff_of_nodup nodup_reachable (List.nodup_singleton r)).mpr
  intro j
  rw [ht.mem_reachable_iff hlt, List.mem_singleton]
  constructor
  · rintro ⟨r', hr', hneeds⟩
    obtain rfl := hroots r' hr'
    exact eq_of_needs_constant hi hneeds
  · rintro rfl
    exact ⟨j, hr, .refl⟩

/-- What is extracted at a constant is this one node, whatever it is an output for. -/
theorem Extracts.eq_of_constant [Written α] (ht : t.Valid) {primary : Option Nat} {secondary : List Nat}
    {g : Graph α} (hg : t.Extracts primary secondary g) {x : α} (hi : t.nodes[i]? = some (.const x))
    (hne : primary.toList ++ secondary ≠ []) (hroots : ∀ r ∈ primary.toList ++ secondary, r = i) :
    g = .ofConstant x primary secondary t.numInputs := by
  have hreachable := ht.reachable_eq_of_constant hi hne hroots
  have hname : t.name (primary.toList ++ secondary) i = visitedName 0 := by
    rw [name, hreachable, List.idxOf_cons_self]
  have hnamed : t.named (primary.toList ++ secondary) = [(visitedName 0, .const x)] := by
    rw [named, found, hreachable, List.filterMap_cons, hi]
    simp [hname, Node.map]
  have horder : g.order = [visitedName 0] := by
    have hperm := hg.assembled.wellFormed.order_perm
    rw [Graph.ids, hg.nodes, hnamed] at hperm
    exact List.perm_singleton.mp hperm
  have hprimary : g.primary = primary.map fun _ => visitedName 0 := by
    rw [hg.primary_eq]
    exact Option.map_congr fun r hr => by rw [hroots r (by simp [Option.mem_def.mp hr]), hname]
  have hsecondary : g.secondary = secondary.map fun _ => visitedName 0 := by
    rw [hg.secondary_eq]
    exact List.map_congr_left fun r hr => by rw [hroots r (List.mem_append_right _ hr), hname]
  have hedges : g.edges = [] := by
    rw [hg.edges, hnamed]
    rfl
  have hnodes : g.nodes = [(visitedName 0, .const x)] := hg.nodes.trans hnamed
  have hnum := hg.numInputs
  cases g
  exact (Graph.mk.injEq ..).mpr ⟨hnodes, hedges, horder, hprimary, hsecondary, hnum⟩

end Tape

/-- No folding is left to be done on tape `k`: every operator and every debug node has an operand that
is no constant and needs some input, the constants are the nodes that need none, and what needs no input is
extracted as a single constant. -/
structure Workspace.FoldedCompletely [Written α] (w : Workspace α) (k : Nat) : Prop where
  exists_operand : ∀ (i : Nat) (n : Node α Nat), (w.tape k).nodes[i]? = some n →
    n.op.isTerminal = false → ∃ c ∈ n.operands, (w.tape k).constant? c = none
  needsInput : ∀ (i : Nat) (n : Node α Nat), (w.tape k).nodes[i]? = some n →
    n.op.isTerminal = false → (w.tape k).NeedsInput i
  constant_iff : ∀ i, i < (w.tape k).size →
    ((∃ x, (w.tape k).constant? i = some x) ↔ ¬(w.tape k).NeedsInput i)
  makeGraph : ∀ (i : Nat) (primary : Option Handle) (secondary : List Handle),
    i < (w.tape k).size → ¬(w.tape k).NeedsInput i → primary.toList ++ secondary ≠ [] →
    (∀ h ∈ primary.toList ++ secondary, h = ⟨k, i⟩) → ∃ x log,
      (w.tape k).constant? i = some x ∧ (makeGraph primary secondary).run w =
        (.ok (.ofConstant x primary secondary (w.tape k).numInputs), { w with log })

theorem Workspace.FoldedAt.completely [Written α] {w : Workspace α} {k : Nat} (hw : w.FoldedAt k) :
    w.FoldedCompletely k where
  exists_operand i n hn hop := hw.folded.exists_operand hn hop
  needsInput i n hn hop := by
    apply hw.folded.needsInput (hw.ready.valid k) (Tape.lt_size hn)
    cases hc : (w.tape k).constant? i with
    | none => rfl
    | some x =>
      rw [Tape.node_of_constant? hc] at hn
      cases hn
      cases hop
  constant_iff i hi := hw.folded.constant_iff (hw.ready.valid k) hi
  makeGraph i primary secondary hi hnot hne hroots := by
    have ht := hw.ready.valid k
    obtain ⟨x, hx⟩ := (hw.folded.constant_iff ht hi).mpr hnot
    obtain ⟨g, log, hrun, hg⟩ := exists_makeGraph ht hne fun h hh => by
      rw [hroots h hh]
      exact ⟨rfl, hi⟩
    have hroots' : ∀ r ∈ (primary.map Handle.index).toList ++ secondary.map Handle.index, r = i := by
      rw [outputs_map]
      exact List.forall_mem_map.mpr fun h hh => congrArg Handle.index (hroots h hh)
    have hne' : (primary.map Handle.index).toList ++ secondary.map Handle.index ≠ [] := by
      rw [outputs_map]
      exact fun hnil => hne (List.map_eq_nil_iff.mp hnil)
    have hgraph := hg.eq_of_constant ht (Tape.node_of_constant? hx) hne' hroots'
    refine ⟨x, log, hx, ?_⟩
    rw [hrun, hgraph, Graph.ofConstant, Option.map_map, List.map_map]
    rfl

/-- The workspaces whose tape `k` was grown by calls of functions and by replays only, some of which may have
failed. A function is called with the handles of any nodes, on whatever tapes. All else may happen in
between that leaves this tape as it is and the other ones consistent. -/
inductive Workspace.Composed (k : Nat) : Workspace Float → Prop where
  | start : Composed k {}
  | call {w : Workspace Float} (hw : Composed k w) (f : Function) {args : List Value}
      (hargs : ∀ v ∈ args, v.On w) : Composed k ((f.apply args).run w).2
  | replay {w : Workspace Float} (hw : Composed k w) {β : Type} (g : Graph β)
      (read : β → Except Fault Float) {j : Nat} (hj : j < w.tapes.size) :
      Composed k ((g.replay Leaf.rules read j).run w).2
  | elsewhere {w v : Workspace Float} (hw : Composed k w) (hv : v.Ready)
      (htape : v.tape k = w.tape k) : Composed k v

namespace Workspace.Composed
variable {w : Workspace Float} {k : Nat}

theorem foldedAt (hw : w.Composed k) : w.FoldedAt k := by
  induction hw with
  | start => exact (Workspace.Constructed.start (R := Leaf.rules)).foldedAt
  | call _ f hargs ih => exact (f.keepsFolded_apply ih hargs).foldedAt
  | replay _ g read hj ih => exact (g.keepsFolded_replay ih hj).foldedAt
  | elsewhere _ hv htape ih => exact ⟨hv, htape ▸ ih.folded⟩

/-- Whatever functions are called and whatever graphs are replayed, in any order and also where
they fail, no folding is left to be done on the tape. -/
theorem folding_complete (hw : w.Composed k) : w.FoldedCompletely k := hw.foldedAt.completely

end Workspace.Composed

/-- An input is added to a number on a tape of its own. -/
theorem folding_complete_inputPlusTwo : ∃ (w v : Workspace Float) (y : Handle),
    (Function.input.apply [.int 0, .real 0.5]).run {} = (.ok (.handle y), w) ∧
      (((Function.nary .sum).apply [.list [.handle y, .real 2]]).run w).2 = v ∧ v.Composed 0 ∧
        v.FoldedCompletely 0 := by
  obtain ⟨w, y, hy, hreached, htape, hnode⟩ := exists_input Leaf.rules (0.5 : Float)
  have hinput : (Function.input.apply [.int 0, .real 0.5]).run {} = (.ok (.handle y), w) := by
    have hmap : Function.input.apply [.int 0, .real 0.5] = Value.handle <$> makeInput (some 0) 0.5 := rfl
    rw [hmap, Build.run_map, hy]
    rfl
  have hw : w.Composed 0 := by
    have hargs : ∀ v ∈ [Value.int 0, .real 0.5], v.On {} := by
      refine List.forall_mem_cons.mpr ⟨?_, List.forall_mem_singleton.mpr ?_⟩ <;> rintro z ⟨⟩
    have hcall := (Workspace.Composed.start (k := 0)).call .input hargs
    rwa [hinput] at hcall
  have hon : (Value.handle y).On w := by
    apply Value.on_handle.mpr
    rintro z ⟨⟩
    rw [htape]
    exact ⟨hreached.ready.active_lt, Tape.lt_size hnode⟩
  have htwo : (Value.real 2).On w := by rintro z ⟨⟩
  have hsum : (Value.list [.handle y, .real 2]).On w :=
    Value.on_list.mpr (List.forall_mem_cons.mpr ⟨hon, List.forall_mem_singleton.mpr htwo⟩)
  have hv := hw.call (.nary .sum) (List.forall_mem_singleton.mpr hsum)
  exact ⟨w, _, y, hinput, rfl, hv, hv.folding_complete⟩

end ScalarGraph
