import ScalarGraph.Proofs.Evaluation
import ScalarGraph.Proofs.Tape.Distance
import ScalarGraph.Proofs.Workspace.Reached

/-! # Extraction from reachable workspaces

The graph of some outputs is the part of their tape that the outputs need. Extraction cannot fail,
and it numbers the nodes in the order of their distance from the outputs.
-/
namespace ScalarGraph
variable {α : Type}

theorem Node.nodup_edgesTo (id : Text) (n : Node α Text) : (n.edgesTo id).Nodup := by
  have hroles : ((n.edgesTo id).map Edge.role).Nodup := by
    have h := n.nodup_edges_snd
    rw [edgesTo, List.map_map]
    exact h
  exact hroles.of_map

theorem nodup_edgesOf {nodes : List (Text × Node α Text)} (hids : (nodes.map (·.1)).Nodup) :
    (edgesOf nodes).Nodup := by
  refine List.nodup_flatMap.mpr ⟨fun p _ => p.2.nodup_edgesTo p.1, ?_⟩
  refine (List.pairwise_map.mp hids).imp fun {p q} hpq => ?_
  intro e hp hq
  apply hpq
  rw [← (Node.target_of_mem_edgesTo hp).1, (Node.target_of_mem_edgesTo hq).1]

variable [DecidableEq α] [Hashable α]

namespace Tape
variable {t : Tape α} {roots : List Nat}

def number (t : Tape α) (roots : List Nat) (i : Nat) : Nat := (t.reachable roots).idxOf i

theorem length_named : (t.named roots).length = (t.reachable roots).length := by
  rw [named, List.length_map, ← found_fst, List.length_map]

theorem named_getElem? {i : Nat} (hi : i ∈ t.reachable roots) {n : Node α Nat}
    (hn : t.nodes[i]? = some n) :
    (t.named roots)[t.number roots i]? = some (t.name roots i, n.map (t.name roots)) := by
  have hat : (t.reachable roots)[t.number roots i]? = some i := by
    rw [number, List.getElem?_eq_getElem (List.idxOf_lt_length_of_mem hi), List.getElem_idxOf]
  rw [← found_fst, List.getElem?_map] at hat
  obtain ⟨⟨j, m⟩, hp, hj⟩ := Option.map_eq_some_iff.mp hat
  have hji : j = i := hj
  have hm : t.nodes[j]? = some m := (mem_found.mp (List.mem_of_getElem? hp)).2
  rw [hji, hn] at hm
  rw [named, List.getElem?_map, hp, hji, Option.some.inj hm]
  rfl

theorem ids_named :
    (t.named roots).map (·.1) = (List.range (t.reachable roots).length).map visitedName := by
  rw [named_fst]
  apply List.ext_getElem
  · simp
  · intro j hj _
    rw [List.length_map] at hj
    have hidx : (t.reachable roots).idxOf (t.reachable roots)[j] = j :=
      List.Nodup.idxOf_getElem nodup_reachable j hj
    simp [name, hidx]

end Tape

/-- The graph shows what some roots on a tape need: `number` takes the arena indices that are
needed to the numbers of the identifiers, and with them the nodes and their operands. -/
structure Graph.Shows (g : Graph α) (t : Tape α) (primary : Option Nat) (secondary : List Nat)
    (number : Nat → Nat) : Prop where
  ids : g.ids = (List.range g.size).map visitedName
  bijective : Set.BijOn number { i | t.net.Needed (primary.toList ++ secondary) i }
    { j | j < g.size }
  node : ∀ i n, t.net.Needed (primary.toList ++ secondary) i → t.nodes[i]? = some n →
    g.nodes[number i]? = some (visitedName (number i), n.map fun c => visitedName (number c))
  edges_nodup : g.edges.Nodup
  mem_edges : ∀ e, e ∈ g.edges ↔ ∃ i n, t.net.Needed (primary.toList ++ secondary) i ∧
    t.nodes[i]? = some n ∧
      ∃ s ∈ n.edges, e = ⟨visitedName (number s.1), visitedName (number i), s.2⟩
  primary_eq : g.primary = primary.map fun r => visitedName (number r)
  secondary_eq : g.secondary = secondary.map fun r => visitedName (number r)
  nearest_first : ∀ i j, t.net.Needed (primary.toList ++ secondary) i →
    t.net.Needed (primary.toList ++ secondary) j → number i ≤ number j →
      t.net.distance (primary.toList ++ secondary) i ≤
        t.net.distance (primary.toList ++ secondary) j
  order_perm : g.order.Perm g.ids
  operands_before : ∀ l₁ id l₂, g.order = l₁ ++ id :: l₂ →
    ∀ n, (id, n) ∈ g.nodes → ∀ c ∈ n.operands, c ∈ l₁
  position_lt : ∀ (id : Text) (k : Nat) (s : α), (id, .input k s) ∈ g.nodes → (k : Int) < g.numInputs

namespace Tape
variable {t : Tape α} {primary : Option Nat} {secondary : List Nat}

theorem Extracts.shows [Written α] {g : Graph α} (hg : t.Extracts primary secondary g)
    (ht : t.Valid) (hroots : ∀ r ∈ primary.toList ++ secondary, r < t.size) :
    g.Shows t primary secondary (t.number (primary.toList ++ secondary)) := by
  have hlive : ∀ {i}, t.net.Needed (primary.toList ++ secondary) i →
      i ∈ t.reachable (primary.toList ++ secondary) := (ht.mem_reachable_iff hroots).mpr
  have hsize : g.size = (t.reachable (primary.toList ++ secondary)).length := by
    rw [Graph.size, hg.nodes, length_named]
  have hwell := hg.assembled.wellFormed
  constructor
  case ids => rw [Graph.ids, hg.nodes, ids_named, hsize]
  case bijective =>
    refine ⟨fun i hi => ?_, fun i hi j hj hij => ?_, fun j hj => ?_⟩
    · have hlt := List.idxOf_lt_length_of_mem (hlive hi)
      rwa [← hsize] at hlt
    · exact (List.idxOf_inj (hlive hi)).mp hij
    · have hlt : j < (t.reachable (primary.toList ++ secondary)).length := by
        rw [← hsize]
        exact hj
      refine ⟨_, (ht.mem_reachable_iff hroots).mp (List.getElem_mem hlt), ?_⟩
      exact List.Nodup.idxOf_getElem nodup_reachable j hlt
  case node =>
    intro i n hi hn
    rw [hg.nodes]
    exact named_getElem? (hlive hi) hn
  case edges_nodup =>
    rw [hg.edges]
    refine nodup_edgesOf ?_
    rw [← hg.nodes]
    exact hwell.ids_nodup
  case mem_edges =>
    intro e
    rw [hg.edges, edgesOf, List.mem_flatMap]
    constructor
    · rintro ⟨p, hp, he⟩
      obtain ⟨i, hi, n, hn, rfl⟩ := mem_named.mp hp
      rw [Node.edgesTo, Node.edges_map, List.map_map] at he
      obtain ⟨s, hs, rfl⟩ := List.mem_map.mp he
      exact ⟨i, n, (ht.mem_reachable_iff hroots).mp hi, hn, s, hs, rfl⟩
    · rintro ⟨i, n, hi, hn, s, hs, rfl⟩
      refine ⟨_, mem_named.mpr ⟨i, hlive hi, n, hn, rfl⟩, ?_⟩
      rw [Node.edgesTo, Node.edges_map, List.map_map]
      exact List.mem_map_of_mem (f := fun s => (⟨_, _, _⟩ : Edge)) hs
  case primary_eq => exact hg.primary_eq
  case secondary_eq => exact hg.secondary_eq
  case nearest_first =>
    intro i j hi hj hij
    rcases Nat.lt_or_eq_of_le hij with hlt | heq
    · have hpairs := List.pairwise_iff_getElem.mp (ht.pairwise_distance hroots)
      have hi' := List.idxOf_lt_length_of_mem (hlive hi)
      have hj' := List.idxOf_lt_length_of_mem (hlive hj)
      have hle := hpairs _ _ hi' hj' hlt
      rwa [List.getElem_idxOf, List.getElem_idxOf] at hle
    · rw [(List.idxOf_inj (hlive hi)).mp heq]
  case order_perm => exact hwell.order_perm
  case operands_before => exact hwell.operands_before
  case position_lt =>
    intro id k s hmem
    rw [hg.nodes] at hmem
    obtain ⟨i, hi, n, hn, hp⟩ := mem_named.mp hmem
    obtain ⟨-, hinput⟩ := Prod.mk.inj hp
    cases n with
    | input l r =>
      obtain ⟨rfl, rfl⟩ := Node.input.inj hinput
      have hlt := ht.position_lt hn
      rw [hg.numInputs]
      omega
    | _ => cases hinput

end Tape

/-- On every reachable workspace and for all outputs on one of its tapes a graph is extracted, and
it shows exactly what the outputs need. -/
theorem Workspace.Reached.makeGraph_shows [Written α] {R : Rules α} {w : Workspace α}
    (hw : w.Reached R) {k : Nat} {primary : Option Handle} {secondary : List Handle}
    (hne : primary.toList ++ secondary ≠ [])
    (hk : ∀ h ∈ primary.toList ++ secondary, h.tape = k ∧ h.index < (w.tape k).size) :
    ∃ g log number, (makeGraph primary secondary).run w = (.ok g, { w with log }) ∧
      g.Shows (w.tape k) (primary.map (·.index)) (secondary.map (·.index)) number := by
  have ht : (w.tape k).Valid := hw.ready.valid k
  obtain ⟨g, log, hrun, hextracts⟩ := exists_makeGraph ht hne hk
  exact ⟨g, log, _, hrun, hextracts.shows ht (roots_lt hk)⟩

theorem makeGraph_shows_inputPlusTwo : ∃ (w : Workspace Int) (x : Handle),
    w.Reached Graph.polynomials.rules ∧ ∃ g log number,
      (makeGraph (some x) [x]).run w = (.ok g, { w with log }) ∧
        g.Shows (w.tape w.active) (some x.index) [x.index] number := by
  obtain ⟨-, w, -, x, -, -, hw, htape, hindex⟩ := exists_inputPlusTwo Graph.polynomials.rules
  have hk : ∀ h ∈ (some x).toList ++ [x], h.tape = w.active ∧ h.index < (w.tape w.active).size := by
    simp [htape, hindex]
  exact ⟨w, x, hw, hw.makeGraph_shows (by simp) hk⟩

end ScalarGraph
