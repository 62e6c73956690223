import ScalarGraph.Graph.Extraction
import ScalarGraph.Proofs.Graph.Listing
import ScalarGraph.Proofs.Program.Compile
import ScalarGraph.Proofs.Tape.Invariant
import ScalarGraph.Proofs.Text

/-! # What extraction gives

From roots on a consistent tape a graph is always extracted. Its nodes are those that are
visited, under the names of their visits, and reading names as the indices visited takes them
back to the nodes of the tape.
-/
namespace ScalarGraph
variable {α : Type} [DecidableEq α] [Hashable α]

theorem visitedName_injective {j k : Nat} (h : visitedName j = visitedName k) : j = k :=
  Text.ofNat_injective (List.append_cancel_left h)

namespace Tape
variable {t : Tape α}

theorem operands_eq {i : Nat} {n : Node α Nat} (h : t.nodes[i]? = some n) :
    t.operands i = n.operands := by
  simp [operands, h]

theorem mem_of_mem_visit {unseen queue : List Nat} : ∀ i ∈ t.visit unseen queue, i ∈ unseen := by
  fun_induction visit t unseen queue with
  | case1 unseen => simp
  | case2 unseen j queue hj ih =>
    intro i hi
    rcases List.mem_cons.mp hi with rfl | hi
    · exact hj
    · exact List.mem_of_mem_erase (ih i hi)
  | case3 unseen j queue hj ih => exact ih

theorem nodup_visit {unseen queue : List Nat} (h : unseen.Nodup) : (t.visit unseen queue).Nodup := by
  fun_induction visit t unseen queue with
  | case1 unseen => exact List.nodup_nil
  | case2 unseen j queue hj ih =>
    refine List.nodup_cons.mpr ⟨fun hmem => ?_, ih (h.erase j)⟩
    exact h.not_mem_erase (mem_of_mem_visit j hmem)
  | case3 unseen j queue hj ih => exact ih h

theorem mem_visit_of_mem_queue {unseen queue : List Nat} :
    ∀ i ∈ queue, i ∈ unseen → i ∈ t.visit unseen queue := by
  fun_induction visit t unseen queue with
  | case1 unseen => simp
  | case2 unseen j queue hj ih =>
    intro i hi hunseen
    by_cases hij : i = j
    · exact hij ▸ List.mem_cons_self
    · have hqueue : i ∈ queue := (List.mem_cons.mp hi).resolve_left hij
      refine List.mem_cons_of_mem _ (ih i (List.mem_append_left _ hqueue) ?_)
      exact (List.mem_erase_of_ne hij).mpr hunseen
  | case3 unseen j queue hj ih =>
    intro i hi hunseen
    rcases List.mem_cons.mp hi with rfl | hi
    · exact absurd hunseen hj
    · exact ih i hi hunseen

theorem mem_visit_of_mem_operands {unseen queue : List Nat} :
    ∀ i ∈ t.visit unseen queue, ∀ c ∈ t.operands i, c ∈ unseen → c ∈ t.visit unseen queue := by
  fun_induction visit t unseen queue with
  | case1 unseen => simp
  | case2 unseen j queue hj ih =>
    intro i hi c hc hunseen
    by_cases hcj : c = j
    · exact hcj ▸ List.mem_cons_self
    · have herase : c ∈ unseen.erase j := (List.mem_erase_of_ne hcj).mpr hunseen
      refine List.mem_cons_of_mem _ ?_
      rcases List.mem_cons.mp hi with rfl | hi
      · exact mem_visit_of_mem_queue c (List.mem_append_right _ hc) herase
      · exact ih i hi c hc herase
  | case3 unseen j queue hj ih => exact ih

variable {roots : List Nat}

theorem nodup_reachable : (t.reachable roots).Nodup := nodup_visit List.nodup_range

theorem lt_size_of_mem_reachable {i : Nat} (h : i ∈ t.reachable roots) : i < t.size :=
  List.mem_range.mp (mem_of_mem_visit i h)

theorem exists_node_of_mem_reachable {i : Nat} (h : i ∈ t.reachable roots) :
    ∃ n, t.nodes[i]? = some n :=
  exists_node (lt_size_of_mem_reachable h)

theorem root_mem_reachable {i : Nat} (h : i ∈ roots) (hi : i < t.size) : i ∈ t.reachable roots :=
  mem_visit_of_mem_queue i h (List.mem_range.mpr hi)

theorem Valid.operand_mem_reachable (ht : t.Valid) {i : Nat} (hi : i ∈ t.reachable roots)
    {n : Node α Nat} (hn : t.nodes[i]? = some n) : ∀ c ∈ n.operands, c ∈ t.reachable roots := by
  intro c hc
  have hlt : c < i := ht.operand_lt hn c hc
  refine mem_visit_of_mem_operands i hi c (by rwa [operands_eq hn]) (List.mem_range.mpr ?_)
  exact Nat.lt_trans hlt (lt_size_of_mem_reachable hi)

def name (t : Tape α) (roots : List Nat) (i : Nat) : Text :=
  visitedName ((t.reachable roots).idxOf i)

def index (t : Tape α) (roots : List Nat) (id : Text) : Nat :=
  ((t.reachable roots).find? fun i => t.name roots i == id).getD 0

theorem name_inj {i j : Nat} (hi : i ∈ t.reachable roots) (h : t.name roots i = t.name roots j) :
    i = j :=
  (List.idxOf_inj hi).mp (visitedName_injective h)

theorem index_name {i : Nat} (hi : i ∈ t.reachable roots) : t.index roots (t.name roots i) = i := by
  unfold index
  cases hfind : (t.reachable roots).find? fun j => t.name roots j == t.name roots i with
  | none =>
    have hnot := List.find?_eq_none.mp hfind i hi
    simp at hnot
  | some j =>
    have hname := List.find?_some hfind
    exact (name_inj hi (eq_of_beq hname).symm).symm

theorem index_name_root {i : Nat} (h : i ∈ roots) (hi : i < t.size) :
    t.index roots (t.name roots i) = i :=
  index_name (root_mem_reachable h hi)

theorem getD_names {i : Nat} (hi : i ∈ t.reachable roots) :
    (Std.HashMap.ofList ((t.reachable roots).zipIdx.map fun p => (p.1, visitedName p.2)) :
      Std.HashMap Nat Text).getD i [] = t.name roots i := by
  have hkeys : ((t.reachable roots).zipIdx.map fun p => (p.1, visitedName p.2)).Pairwise
      fun a b => (a.1 == b.1) = false := by
    have hnodup : (t.reachable roots).Nodup := nodup_reachable
    rw [← List.zipIdx_map_fst 0 (t.reachable roots), List.Nodup, List.pairwise_map] at hnodup
    exact List.pairwise_map.mpr (hnodup.imp fun h => by simpa using h)
  refine Std.HashMap.getD_ofList_of_mem BEq.rfl hkeys (List.mem_map.mpr ⟨(i, _), ?_, rfl⟩)
  rw [List.mem_zipIdx_iff_getElem?]
  exact List.getElem?_eq_some_iff.mpr ⟨List.idxOf_lt_length_of_mem hi, List.getElem_idxOf _⟩

def found (t : Tape α) (roots : List Nat) : List (Nat × Node α Nat) :=
  (t.reachable roots).filterMap fun i => t.nodes[i]?.map (i, ·)

theorem mem_found {p : Nat × Node α Nat} :
    p ∈ t.found roots ↔ p.1 ∈ t.reachable roots ∧ t.nodes[p.1]? = some p.2 := by
  obtain ⟨i, n⟩ := p
  simp [found]

theorem found_fst : (t.found roots).map (·.1) = t.reachable roots := by
  have hsome : ∀ i ∈ t.reachable roots,
      (t.nodes[i]?.map fun n => (i, n)).map (·.1) = some i := by
    intro i hi
    obtain ⟨n, hn⟩ := exists_node_of_mem_reachable hi
    simp [hn]
  rw [found, List.map_filterMap, List.filterMap_congr hsome]
  exact List.filterMap_some

def named (t : Tape α) (roots : List Nat) : List (Text × Node α Text) :=
  (t.found roots).map fun p => (t.name roots p.1, p.2.map (t.name roots))

theorem mem_named {p : Text × Node α Text} : p ∈ t.named roots ↔
    ∃ i ∈ t.reachable roots, ∃ n, t.nodes[i]? = some n ∧ (t.name roots i, n.map (t.name roots)) = p := by
  simp [named, mem_found, and_assoc]

theorem named_fst : (t.named roots).map (·.1) = (t.reachable roots).map (t.name roots) := by
  rw [← found_fst, named, List.map_map, List.map_map]
  rfl

theorem name_mem_named {i : Nat} (hi : i ∈ t.reachable roots) :
    t.name roots i ∈ (t.named roots).map (·.1) := by
  rw [named_fst]
  exact List.mem_map_of_mem hi

theorem Valid.listed_named (ht : t.Valid) : Draft.Listed (t.named roots) (t.index roots) where
  ids_nodup := by
    rw [named_fst]
    exact nodup_reachable.map_on fun i hi j _ h => name_inj hi h
  positions_nodup := by
    rw [named, found, List.map_filterMap, List.filterMap_filterMap]
    refine nodup_reachable.filterMap fun i j k hi hj => ?_
    simp only [Option.mem_def, Option.map_map, Option.bind_eq_some_iff, Option.map_eq_some_iff] at hi hj
    obtain ⟨-, ⟨n, hn, rfl⟩, hk⟩ := hi
    obtain ⟨-, ⟨m, hm, rfl⟩, hk'⟩ := hj
    simp only [Function.comp_apply, Node.position?_map] at hk hk'
    obtain ⟨r, rfl⟩ := Node.eq_input_of_position? hk
    obtain ⟨s, rfl⟩ := Node.eq_input_of_position? hk'
    exact ht.input_unique hn hm
  operand_mem p hp c hc := by
    obtain ⟨i, hi, n, hn, rfl⟩ := mem_named.mp hp
    rw [Node.operands_map] at hc
    obtain ⟨d, hd, rfl⟩ := List.mem_map.mp hc
    exact name_mem_named (ht.operand_mem_reachable hi hn d hd)
  operand_rank p hp c hc := by
    obtain ⟨i, hi, n, hn, rfl⟩ := mem_named.mp hp
    rw [Node.operands_map] at hc
    obtain ⟨d, hd, rfl⟩ := List.mem_map.mp hc
    rw [index_name hi, index_name (ht.operand_mem_reachable hi hn d hd)]
    exact ht.operand_lt hn d hd

variable {primary : Option Nat} {secondary : List Nat}

/-- What is drafted for some roots are their reachable nodes under their names. -/
theorem Valid.draft_eq (ht : t.Valid) (hroots : ∀ i ∈ primary.toList ++ secondary, i < t.size) :
    t.draft primary secondary =
      Draft.ofNodes (t.named (primary.toList ++ secondary))
        (primary.map (t.name (primary.toList ++ secondary)))
        (secondary.map (t.name (primary.toList ++ secondary))) (some (t.numInputs : Int)) := by
  have hroot : ∀ i ∈ primary.toList ++ secondary, i ∈ t.reachable (primary.toList ++ secondary) :=
    fun i hi => root_mem_reachable hi (hroots i hi)
  have hname : ∀ i ∈ t.reachable (primary.toList ++ secondary),
      (Std.HashMap.ofList ((t.reachable (primary.toList ++ secondary)).zipIdx.map
        fun p => (p.1, visitedName p.2)) : Std.HashMap Nat Text).getD i [] =
          t.name (primary.toList ++ secondary) i := fun i hi => getD_names hi
  unfold draft Draft.ofNodes
  simp only [Draft.mk.injEq, and_true]
  refine ⟨?_, ?_, ?_, ?_⟩
  · rw [named, List.map_map]
    refine List.map_congr_left fun p hp => ?_
    rw [hname p.1 (mem_found.mp hp).1]
    simp
  · rw [edgesOf, named, List.flatMap_map, List.map_flatMap]
    refine List.flatMap_congr fun p hp => ?_
    obtain ⟨hi, hn⟩ := mem_found.mp hp
    rw [Node.edgesTo, Node.edges_map, List.map_map, List.map_map]
    refine List.map_congr_left fun e he => ?_
    have hc : e.1 ∈ p.2.operands := by
      rw [← Node.edges_fst]
      exact List.mem_map_of_mem he
    rw [hname p.1 hi, hname e.1 (ht.operand_mem_reachable hi hn e.1 hc)]
    rfl
  · refine Option.map_congr fun i hi => hname i (hroot i ?_)
    simp [hi]
  · exact List.map_congr_left fun i hi => hname i (hroot i (List.mem_append_right _ hi))

/-- The graph has the nodes reachable from the roots, under their names. -/
structure Extracts [Written α] (t : Tape α) (primary : Option Nat) (secondary : List Nat)
    (g : Graph α) : Prop where
  assembled : g.Assembled
  nodes : g.nodes = t.named (primary.toList ++ secondary)
  edges : g.edges = edgesOf (t.named (primary.toList ++ secondary))
  primary_eq : g.primary = primary.map (t.name (primary.toList ++ secondary))
  secondary_eq : g.secondary = secondary.map (t.name (primary.toList ++ secondary))
  numInputs : g.numInputs = t.numInputs

/-- Extraction from roots on a consistent tape cannot fail. -/
theorem Valid.exists_extract [Written α] (ht : t.Valid)
    (hroots : ∀ i ∈ primary.toList ++ secondary, i < t.size) :
    ∃ g, t.extract primary secondary = .ok g ∧ t.Extracts primary secondary g := by
  have hnamed : ∀ i ∈ primary.toList ++ secondary, t.name (primary.toList ++ secondary) i ∈
      (t.named (primary.toList ++ secondary)).map (·.1) := fun i hi =>
    name_mem_named (root_mem_reachable hi (hroots i hi))
  have hprimary : ∀ id ∈ primary.map (t.name (primary.toList ++ secondary)),
      id ∈ (t.named (primary.toList ++ secondary)).map (·.1) := by
    intro id hid
    obtain ⟨i, hi, rfl⟩ := Option.map_eq_some_iff.mp hid
    exact hnamed i (by simp [hi])
  have hsecondary : ∀ id ∈ secondary.map (t.name (primary.toList ++ secondary)),
      id ∈ (t.named (primary.toList ++ secondary)).map (·.1) := by
    intro id hid
    obtain ⟨i, hi, rfl⟩ := List.mem_map.mp hid
    exact hnamed i (List.mem_append_right _ hi)
  obtain ⟨g, hg, hnodes, hedges, hp, hs, hnum⟩ :=
    Draft.assemble_ofNodes (some (t.numInputs : Int)) ht.listed_named hprimary hsecondary
  rw [← ht.draft_eq hroots] at hg
  refine ⟨g, hg, ⟨_, ?_, hg⟩, hnodes, hedges, hp, hs, hnum _ rfl⟩
  rw [ht.draft_eq hroots, Draft.ids_ofNodes]
  exact ht.listed_named.ids_nodup

theorem Extracts.name_mem_order [Written α] {g : Graph α} (hg : t.Extracts primary secondary g)
    {i : Nat} (hi : i ∈ primary.toList ++ secondary) (hlt : i < t.size) :
    t.name (primary.toList ++ secondary) i ∈ g.order := by
  rw [hg.assembled.wellFormed.order_perm.mem_iff, Graph.ids, hg.nodes]
  exact name_mem_named (root_mem_reachable hi hlt)

theorem Extracts.maps [Written α] {g : Graph α} (hg : t.Extracts primary secondary g)
    (ht : t.Valid) : Net.Maps (t.index (primary.toList ++ secondary)) g.net t.net := by
  intro id n hn
  rw [Graph.net, hg.nodes] at hn
  obtain ⟨i, hi, m, hm, hp⟩ := mem_named.mp hn
  cases hp
  rw [index_name hi, Node.map_map]
  have hself : m.map
      (t.index (primary.toList ++ secondary) ∘ t.name (primary.toList ++ secondary)) = m :=
    Node.map_eq_self fun c hc => index_name (ht.operand_mem_reachable hi hm c hc)
  rw [hself]
  exact hm

end Tape
end ScalarGraph
