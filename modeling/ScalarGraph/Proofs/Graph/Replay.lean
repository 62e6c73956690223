import Mathlib.Data.List.Pairwise
import ScalarGraph.Graph.Replay
import ScalarGraph.Proofs.Graph.Redraft
import ScalarGraph.Proofs.Program.Compile
import ScalarGraph.Proofs.Term.Folding
import ScalarGraph.Proofs.Workspace.History

/-! # Replaying a graph on a tape

The nodes of a graph are built in its order on a tape that may hold anything. Every identifier that
is done has an index there with the settled tree of the identifier. The replay stops at the first
input whose position the tape declares with another sample value, and nowhere else.
-/
namespace ScalarGraph
variable {α : Type}

namespace Draft

theorem nodup_positions {ps : List (Text × Literal α)} {seen seen' : List (Nat × Text)}
    (h : ps.foldlM notePosition seen = .ok seen') (hseen : (seen.map Prod.fst).Nodup) :
    (seen'.map Prod.fst).Nodup := by
  induction ps generalizing seen with
  | nil =>
    cases h
    exact hseen
  | cons p ps ih =>
    rw [List.foldlM_cons] at h
    obtain ⟨seen₁, h₁, h⟩ := bind_eq_ok.mp h
    refine ih h ?_
    unfold notePosition at h₁
    split at h₁
    · next i s hp =>
      split at h₁
      · cases h₁
      · split at h₁
        · cases h₁
        · next hfree =>
          cases h₁
          rw [List.map_append, List.map_singleton, List.nodup_append]
          refine ⟨hseen, List.nodup_singleton _, ?_⟩
          intro k hk l hl hkl
          obtain ⟨q, hq, rfl⟩ := List.mem_map.mp hk
          have hne := List.lookup_eq_none_iff.mp hfree q hq
          rw [hkl, List.mem_singleton.mp hl, bne_self_eq_false] at hne
          cases hne
    · cases h₁
      exact hseen

end Draft

namespace Graph

theorem Assembled.nodup_positions [Written α] {g : Graph α} (hg : g.Assembled) :
    g.positions.Nodup := by
  obtain ⟨d, -, h⟩ := hg
  obtain ⟨ps, order, named, rows, nodes, hassembles, rfl⟩ := Draft.assemble_eq_ok.mp h
  have hps := hassembles.positions_ok
  unfold Draft.positions at hps
  rw [← Draft.nodes_eq hassembles.rows_ok hassembles.nodes_ok] at hps
  have hnodup := Draft.nodup_positions hps List.nodup_nil
  rwa [Draft.positions_eq hps] at hnodup

theorem input_unique {g : Graph α} (hpos : g.positions.Nodup)
    {id id' : Text} {p : Nat} {r s : α} (hr : g.net id (.input p r)) (hs : g.net id' (.input p s)) :
    id = id' := by
  have hpairs : g.nodes.Pairwise fun a b => ∀ k, a.2.position? = some k → b.2.position? ≠ some k :=
    (List.pairwise_filterMap.mp hpos).imp fun hab k ha hb => hab k ha k hb rfl
  have hsymm : Std.Symm fun a b : Text × Node α Text =>
      ∀ k, a.2.position? = some k → b.2.position? ≠ some k := ⟨fun a b hab k hb ha => hab k ha hb⟩
  by_contra hne
  have hdiff : ((id, .input p r) : Text × Node α Text) ≠ (id', .input p s) := fun h =>
    hne (congrArg Prod.fst h)
  exact hpairs.forall hr hs hdiff p rfl rfl

end Graph

variable [DecidableEq α] [Hashable α]

def Tape.Declares (t : Tape α) (p : Nat) (s : α) : Prop := ∃ i, t.net i (.input p s)

namespace Tape.Valid
variable [Written α] {t : Tape α} (ht : t.Valid)
include ht

theorem input_eq_error {p : Nat} {r s : α} (h : t.Declares p r) (hne : r ≠ s) :
    t.input p s = .error (.redeclared p (written r) (written s)) := by
  obtain ⟨i, hi⟩ := h
  have hp : t.inputs[p]? = some i := ht.inputs_iff.mpr ⟨r, hi⟩
  have hr : t.sample? i = some r := by
    unfold net at hi
    rw [sample?, hi]
  unfold input
  rw [hp]
  dsimp only
  rw [hr]
  exact if_neg hne

theorem exists_input_eq_ok {p : Nat} {s : α} (h : ∀ r, t.Declares p r → r = s) :
    ∃ r, t.input p s = .ok r := by
  unfold input
  cases hp : t.inputs[p]? with
  | none => exact ⟨_, rfl⟩
  | some i =>
    obtain ⟨old, hi, hold⟩ := ht.sample?_eq hp
    dsimp only
    rw [hold]
    exact ⟨_, if_pos (h old ⟨i, hi⟩)⟩

end Tape.Valid

section
variable [Written α] {R : Rules α} {w : Workspace α} {k : Nat}

theorem replayNode_operator {n : Node α Nat} (hop : n.op.isTerminal = false) :
    replayNode R .ok k n = Build.onTape k (·.settle R n) := by
  cases n with
  | const v => cases hop
  | input p s => cases hop
  | _ => rfl

/-- An input whose position is declared with another sample value is a violation, which changes
nothing. -/
theorem run_replayNode_error (hw : w.Ready) (hk : k < w.tapes.size) {p : Nat} {r s : α}
    (hr : (w.tape k).Declares p r) (hne : r ≠ s) :
    (replayNode R .ok k (.input p s)).run w =
      (.error (.violation (.redeclared p (written r) (written s))), w) := by
  have hinput := (hw.valid k).input_eq_error hr hne
  exact (Build.run_bind_ok (Build.run_ofExcept _ w)).trans (Build.run_onTape?_error hk hinput)

/-- Any other node is provided on the tape, and the index has the settled tree of the node. -/
theorem exists_replayNode (hw : w.Ready) {n : Node α Nat} {m : Node α (Term α (Nat × α))}
    (hn : ∀ c ∈ n.operands, c < (w.tape k).size)
    (hm : n.map (w.tape k).unfolding = m.map (Term.settled R))
    (hfree : ∀ p s, n = .input p s → ∀ r, (w.tape k).Declares p r → r = s) :
    ∃ a r, (w.tape k).Provides a r ∧ (∀ p s, a = .input p s → n = .input p s) ∧
      (replayNode R .ok k n).run w = (.ok r.2, (w.onTape k fun _ => r).1) ∧
      r.1.unfolding r.2 = m.term.settled R := by
  have ht : (w.tape k).Valid := hw.valid k
  have hop : n.op = m.op := by
    have h := congrArg Node.op hm
    rwa [Node.op_map, Node.op_map] at h
  cases hterminal : n.op.isTerminal with
  | false =>
    obtain ⟨a, ha, hprovides⟩ := ht.exists_provides_settle R hterminal hn
    refine ⟨a, _, hprovides, ?_, ?_, ?_⟩
    · rintro p s rfl
      cases ha
    · rw [replayNode_operator hterminal]
      rfl
    · rw [ht.unfolding_settle hterminal hn, hm, Term.settled_term R (hop ▸ hterminal)]
  | true =>
    have hempty : n.operands = [] := Node.operands_of_isTerminal hterminal
    have hempty' : m.operands = [] := Node.operands_of_isTerminal (hop ▸ hterminal)
    rw [Term.settled_terminal R (hop ▸ hterminal)]
    cases n with
    | const v =>
      have hprovides := ht.provides_const v
      exact ⟨_, _, hprovides, fun p s h => h, rfl, hprovides.unfolding_terminal hop hempty' rfl⟩
    | input p s =>
      obtain ⟨r, hr⟩ := ht.exists_input_eq_ok (hfree p s rfl)
      have hprovides := ht.provides_input hr
      refine ⟨_, r, hprovides, fun q x h => h, ?_, hprovides.unfolding_terminal hop hempty' rfl⟩
      exact (Build.run_bind_ok (Build.run_ofExcept _ w)).trans (Build.run_onTape?_ok hr)
    | _ => cases hterminal

end

def Replayed.indexD (m : Replayed) (id : Text) : Nat := m.getD id 0

theorem Replayed.indexD_insert_self (m : Replayed) (id : Text) (i : Nat) :
    Replayed.indexD (m.insert id i) id = i :=
  Std.HashMap.getD_insert_self

theorem Replayed.indexD_insert_of_ne (m : Replayed) {id id' : Text} (i : Nat) (h : id ≠ id') :
    Replayed.indexD (m.insert id i) id' = m.indexD id' := by
  unfold Replayed.indexD
  rw [Std.HashMap.getD_insert, if_neg (by simpa using h)]

/-- From `w` to `v` the identifiers that are done were built on tape `k`: each has an index with its
settled tree, and every input that the tape declares was there before or is one of them. -/
structure Graph.Replays (g : Graph α) (R : Rules α) (U : Text → Term α (Nat × α)) (k : Nat)
    (w v : Workspace α) (done : List Text) (m : Replayed) : Prop where
  ready : v.Ready
  grows : w.Grows v
  found : ∀ id ∈ done, m[id]? = some (m.indexD id)
  index_lt : ∀ id ∈ done, m.indexD id < (v.tape k).size
  unfolding_eq : ∀ id ∈ done, (v.tape k).unfolding (m.indexD id) = (U id).settled R
  declares : ∀ p s, (v.tape k).Declares p s →
    (w.tape k).Declares p s ∨ ∃ id ∈ done, g.net id (.input p s)

section
variable [Written α] {g : Graph α} {R : Rules α} {U : Text → Term α (Nat × α)} {k : Nat}
variable {w v : Workspace α} {done rest : List Text} {m : Replayed}

theorem Graph.Replays.replayId_eq (h : g.Replays R U k w v done m) (hg : g.WellFormed) {id : Text}
    {n : Node α Text} (hn : g.net id n) (hdone : ∀ c ∈ n.operands, c ∈ done) :
    replayId R .ok k (.ofList g.nodes) m id = (do
      let i ← replayNode R .ok k (n.map m.indexD)
      return m.insert id i) := by
  have hoperands : n.mapM m.index = (pure (n.map m.indexD) : Build α (Node α Nat)) :=
    Node.mapM_eq fun c hc => by
      unfold Replayed.index
      rw [h.found c (hdone c hc)]
  unfold replayId
  rw [hg.getElem?_nodes hn]
  dsimp only
  rw [hoperands, pure_bind]

omit [Written α] in
theorem Graph.Replays.provide (h : g.Replays R U k w v done m) (hk : k < v.tapes.size)
    {a : Node α Nat} {r : Tape α × Nat} (hr : (v.tape k).Provides a r) {id : Text} (hnew : id ∉ done)
    (hinput : ∀ p s, a = .input p s → g.net id (.input p s))
    (htree : r.1.unfolding r.2 = (U id).settled R) :
    g.Replays R U k w (v.onTape k fun _ => r).1 (done ++ [id]) (m.insert id r.2) := by
  have htape : (v.onTape k fun _ => r).1.tape k = r.1 := Workspace.tape_onTape hk
  have hself : Replayed.indexD (m.insert id r.2) id = r.2 := m.indexD_insert_self id r.2
  have hold : ∀ c ∈ done, Replayed.indexD (m.insert id r.2) c = m.indexD c := fun c hc =>
    m.indexD_insert_of_ne r.2 fun he => hnew (he ▸ hc)
  constructor
  case ready => exact h.ready.onTape hk hr
  case grows => exact h.grows.trans (Workspace.grows_onTape hk hr)
  case found =>
    intro c hc
    rcases List.mem_append.mp hc with hc | hc
    · have hne : id ≠ c := fun he => hnew (he ▸ hc)
      rw [hold c hc, Std.HashMap.getElem?_insert, if_neg (by simpa using hne), h.found c hc]
    · rw [List.mem_singleton.mp hc, hself, Std.HashMap.getElem?_insert_self]
  case index_lt =>
    intro c hc
    rw [htape]
    rcases List.mem_append.mp hc with hc | hc
    · rw [hold c hc]
      exact Nat.lt_of_lt_of_le (h.index_lt c hc) hr.extends.size_le
    · rw [List.mem_singleton.mp hc, hself]
      exact hr.lt_size
  case unfolding_eq =>
    intro c hc
    rw [htape]
    rcases List.mem_append.mp hc with hc | hc
    · rw [hold c hc, hr.extends.unfolding_eq (h.ready.valid k) hr.valid (h.index_lt c hc),
        h.unfolding_eq c hc]
    · rw [List.mem_singleton.mp hc, hself, htree]
  case declares =>
    rintro p s ⟨i, hi⟩
    unfold Tape.net at hi
    rw [htape] at hi
    rcases hr.node_cases hi with hi | hi
    · refine (h.declares p s ⟨i, hi⟩).imp_right ?_
      rintro ⟨id', hid', hn'⟩
      exact ⟨id', List.mem_append_left _ hid', hn'⟩
    · exact .inr ⟨id, by simp, hinput p s hi.symm⟩

/-- One step: an identifier whose operands are done and whose input can be declared is done. -/
theorem Graph.Replays.step (h : g.Replays R U k w v done m) (hg : g.WellFormed)
    (hpos : g.positions.Nodup) (hU : g.net.Solves Node.term U) (hk : k < w.tapes.size) {id : Text}
    {n : Node α Text} (hn : g.net id n) (hnew : id ∉ done) (hdone : ∀ c ∈ n.operands, c ∈ done)
    (hfree : ∀ p s, n = .input p s → ∀ r, (w.tape k).Declares p r → r = s) :
    ∃ m' v', (replayId R .ok k (.ofList g.nodes) m id).run v = (.ok m', v') ∧
      g.Replays R U k w v' (done ++ [id]) m' := by
  have hkv : k < v.tapes.size := by rwa [h.grows.size_eq]
  have hlt : ∀ c ∈ (n.map m.indexD).operands, c < (v.tape k).size := by
    rw [Node.operands_map, List.forall_mem_map]
    exact fun c hc => h.index_lt c (hdone c hc)
  have htrees : (n.map m.indexD).map (v.tape k).unfolding = (n.map U).map (Term.settled R) := by
    rw [Node.map_map, Node.map_map]
    exact Node.map_congr fun c hc => h.unfolding_eq c (hdone c hc)
  have hfreev : ∀ p s, n.map m.indexD = .input p s → ∀ r, (v.tape k).Declares p r → r = s := by
    intro p s hp r hr
    have hps : n = .input p s := Node.eq_input_of_map_eq hp
    rcases h.declares p r hr with hold | ⟨id', hid', hn'⟩
    · exact hfree p s hps r hold
    · -- the position belongs to one identifier, and this one is not done
      rw [hps] at hn
      exact absurd (Graph.input_unique hpos hn' hn ▸ hid') hnew
  obtain ⟨a, r, hprovides, hinput, hrun, htree⟩ := exists_replayNode h.ready hlt htrees hfreev
  refine ⟨m.insert id r.2, (v.onTape k fun _ => r).1, ?_, ?_⟩
  · rw [h.replayId_eq hg hn hdone, Build.run_bind_ok hrun, Build.run_pure]
  · refine h.provide hkv hprovides hnew (fun p s ha => ?_) ?_
    · rwa [← Node.eq_input_of_map_eq (hinput p s ha)]
    · rw [htree, hU id n hn]

/-- The tape declares the position of some input of the graph with another sample value. -/
def Graph.Clashes (g : Graph α) (t : Tape α) (p : Nat) (r s : α) : Prop :=
  (∃ id, g.net id (.input p s)) ∧ t.Declares p r ∧ r ≠ s

/-- The replay goes on to the end of the order, or it stops at an input that clashes. -/
theorem Graph.Replays.run (h : g.Replays R U k w v done m) (hg : g.WellFormed)
    (hpos : g.positions.Nodup) (hU : g.net.Solves Node.term U) (hk : k < w.tapes.size)
    (horder : g.order = done ++ rest) :
    ((∀ id ∈ rest, ∀ p s, g.net id (.input p s) → ∀ r, (w.tape k).Declares p r → r = s) ∧
      ∃ m' v', (rest.foldlM (replayId R .ok k (.ofList g.nodes)) m).run v = (.ok m', v') ∧
        g.Replays R U k w v' g.order m') ∨
    ∃ p r s v', g.Clashes (w.tape k) p r s ∧ w.Grows v' ∧ v'.Ready ∧
      (rest.foldlM (replayId R .ok k (.ofList g.nodes)) m).run v =
        (.error (.violation (.redeclared p (written r) (written s))), v') := by
  induction rest generalizing done m v with
  | nil =>
    rw [List.append_nil] at horder
    exact .inl ⟨by simp, m, v, rfl, horder ▸ h⟩
  | cons id rest ih =>
    have hid : id ∈ g.order := by simp [horder]
    obtain ⟨n, hn⟩ := hg.exists_node hid
    have hdone : ∀ c ∈ n.operands, c ∈ done := hg.operands_before done id rest horder n hn
    have hnew : id ∉ done := by
      have hnodup := hg.order_nodup
      rw [horder] at hnodup
      exact fun hmem => (List.nodup_append.mp hnodup).2.2 id hmem id List.mem_cons_self rfl
    rw [List.foldlM_cons]
    by_cases hfree : ∀ p s, n = .input p s → ∀ r, (w.tape k).Declares p r → r = s
    · obtain ⟨m', v', hrun, h'⟩ := h.step hg hpos hU hk hn hnew hdone hfree
      rw [Build.run_bind_ok hrun]
      rcases ih h' (by simp [horder]) with ⟨hrest, hend⟩ | hclash
      · refine .inl ⟨List.forall_mem_cons.mpr ⟨fun p s hps => ?_, hrest⟩, hend⟩
        exact hfree p s (hg.ranked.unique hn hps)
      · exact .inr hclash
    · push Not at hfree
      obtain ⟨p, s, rfl, r, hr, hne⟩ := hfree
      have hkv : k < v.tapes.size := by rwa [h.grows.size_eq]
      have hrv : (v.tape k).Declares p r := hr.imp fun i hi => (h.grows.tape k).getElem? hi
      refine .inr ⟨p, r, s, v, ⟨⟨id, hn⟩, hr, hne⟩, h.grows, h.ready, ?_⟩
      have herror := run_replayNode_error (R := R) h.ready hkv hrv hne
      refine Build.run_bind_error ?_
      rw [h.replayId_eq hg hn hdone]
      exact Build.run_bind_error herror

omit [Written α] in
theorem Graph.replays_start (hw : w.Ready) : g.Replays R U k w w [] {} where
  ready := hw
  grows := .refl w
  found := by simp
  index_lt := by simp
  unfolding_eq := by simp
  declares p s h := .inl h

def Replayed.handle (m : Replayed) (k : Nat) (id : Text) : Handle := ⟨k, m.indexD id⟩

theorem Graph.exists_replay (hw : w.Ready) (hk : k < w.tapes.size) (hg : g.WellFormed)
    (hpos : g.positions.Nodup) (hU : g.net.Solves Node.term U)
    (hfree : ∀ p r s, ¬ g.Clashes (w.tape k) p r s) :
    ∃ m v, (g.replay R .ok k).run w =
        (.ok (g.primary.map (m.handle k), g.secondary.map (m.handle k)), v) ∧
      g.Replays R U k w v g.order m := by
  rcases (replays_start hw).run hg hpos hU hk (List.nil_append _).symm (R := R) with
    ⟨-, m, v, hrun, h⟩ | ⟨p, r, s, v, hclash, -⟩
  · refine ⟨m, v, ?_, h⟩
    have hindex : ∀ id ∈ g.order, (do return ⟨k, ← m.index id⟩ : Build α Handle) = pure (m.handle k id) := by
      intro id hid
      unfold Replayed.index
      rw [h.found id hid]
      rfl
    have hprimary : g.primary.mapM (fun id => (do return ⟨k, ← m.index id⟩ : Build α Handle)) =
        pure (g.primary.map (m.handle k)) := by
      cases hp : g.primary with
      | none => rfl
      | some r =>
        rw [Option.mapM_some, hindex r (hg.primary_mem r hp)]
        rfl
    have hsecondary : g.secondary.mapM (fun id => (do return ⟨k, ← m.index id⟩ : Build α Handle)) =
        pure (g.secondary.map (m.handle k)) :=
      mapM_list_eq fun id hid => hindex id (hg.secondary_mem id hid)
    unfold replay
    rw [Build.run_bind_ok hrun]
    dsimp only
    rw [hprimary, hsecondary]
    rfl
  · exact absurd hclash (hfree p r s)

theorem Graph.exists_replay_error (hw : w.Ready) (hk : k < w.tapes.size) (hg : g.WellFormed)
    (hpos : g.positions.Nodup) (hclash : ∃ p r s, g.Clashes (w.tape k) p r s) :
    ∃ p r s v, g.Clashes (w.tape k) p r s ∧ (g.replay R .ok k).run w =
        (.error (.violation (.redeclared p (written r) (written s))), v) ∧ v.Ready ∧ w.Grows v := by
  obtain ⟨U, hU⟩ := hg.ranked.exists_solves (Node.term (α := α))
  rcases (replays_start hw).run hg hpos hU hk (List.nil_append _).symm (R := R) with
    ⟨hfree, -⟩ | ⟨p, r, s, v, hclash, hgrows, hv, hrun⟩
  · obtain ⟨p, r, s, ⟨id, hn⟩, hr, hne⟩ := hclash
    exact absurd (hfree id (hg.mem_order hn) p s hn r hr) hne
  · exact ⟨p, r, s, v, hclash, Build.run_bind_error hrun, hv, hgrows⟩

end
end ScalarGraph
