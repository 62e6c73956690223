import ScalarGraph.Proofs.Tape.Extraction
import ScalarGraph.Proofs.Tape.Unfolding

/-! # Canonical extraction

Roots with the same trees are visited in lock-step: two queues hold indices with the same trees in
the same places, and either both or none of two such indices have been visited. So the names, the
nodes and the edges agree, and what is drafted differs in the length of the input vector only.
-/
namespace ScalarGraph
variable {α : Type}

variable [DecidableEq α] [Hashable α]

namespace Tape
variable {t u : Tape α}

/-- Indices of two tapes have the same tree. -/
structure Alike (t u : Tape α) (i j : Nat) : Prop where
  left_lt : i < t.size
  right_lt : j < u.size
  unfolding_eq : t.unfolding i = u.unfolding j

namespace Alike
variable {i j i' j' : Nat}

theorem eq_iff (h : t.Alike u i j) (h' : t.Alike u i' j') (ht : t.Valid) (hu : u.Valid) :
    i = i' ↔ j = j' := by
  rw [← ht.unfolding_eq_iff h.left_lt h'.left_lt, ← hu.unfolding_eq_iff h.right_lt h'.right_lt,
    h.unfolding_eq, h'.unfolding_eq]

theorem nodes (h : t.Alike u i j) (ht : t.Valid) (hu : u.Valid) :
    ∃ n m, t.nodes[i]? = some n ∧ u.nodes[j]? = some m ∧ n.op = m.op ∧
      List.Forall₂ (t.Alike u) n.operands m.operands := by
  obtain ⟨n, hn⟩ := exists_node h.left_lt
  obtain ⟨m, hm⟩ := exists_node h.right_lt
  have htree := h.unfolding_eq
  rw [ht.unfolding_eq hn, hu.unfolding_eq hm] at htree
  obtain ⟨hop, hoperands⟩ := Node.of_term_map_eq htree
  refine ⟨n, m, hn, hm, hop, (forall₂_mem (map_eq_map_iff.mp hoperands)).imp fun c d hcd => ?_⟩
  have hc : c < i := ht.operand_lt hn c hcd.1
  have hd : d < j := hu.operand_lt hm d hcd.2.1
  exact ⟨Nat.lt_trans hc h.left_lt, Nat.lt_trans hd h.right_lt, hcd.2.2⟩

theorem operands (h : t.Alike u i j) (ht : t.Valid) (hu : u.Valid) :
    List.Forall₂ (t.Alike u) (t.operands i) (u.operands j) := by
  obtain ⟨n, m, hn, hm, -, hoperands⟩ := h.nodes ht hu
  rw [operands_eq hn, operands_eq hm]
  exact hoperands

end Alike

/-- Two visits that begin alike go on alike. -/
theorem forall₂_visit (ht : t.Valid) (hu : u.Valid) {unseen queue unseen' queue' : List Nat}
    (hqueue : List.Forall₂ (t.Alike u) queue queue')
    (hunseen : ∀ i j, t.Alike u i j → (i ∈ unseen ↔ j ∈ unseen'))
    (hnodup : unseen.Nodup) (hnodup' : unseen'.Nodup) :
    List.Forall₂ (t.Alike u) (t.visit unseen queue) (u.visit unseen' queue') := by
  fun_induction visit t unseen queue generalizing unseen' queue' with
  | case1 unseen =>
    cases hqueue
    rw [visit]
    exact .nil
  | case2 unseen i queue hi ih =>
    obtain ⟨j, queue', hij, hrest, rfl⟩ := List.forall₂_cons_left_iff.mp hqueue
    have hj : j ∈ unseen' := (hunseen i j hij).mp hi
    rw [visit, if_pos hj]
    refine .cons hij (ih ?_ ?_ (hnodup.erase i) (hnodup'.erase j))
    · exact List.rel_append hrest (hij.operands ht hu)
    · intro a b hab
      rw [hnodup.mem_erase_iff, hnodup'.mem_erase_iff, hunseen a b hab, ne_eq, ne_eq,
        hab.eq_iff hij ht hu]
  | case3 unseen i queue hi ih =>
    obtain ⟨j, queue', hij, hrest, rfl⟩ := List.forall₂_cons_left_iff.mp hqueue
    have hj : j ∉ unseen' := fun hj => hi ((hunseen i j hij).mpr hj)
    rw [visit, if_neg hj]
    exact ih hrest hunseen hnodup hnodup'

section
variable {roots roots' : List Nat}

theorem forall₂_reachable (ht : t.Valid) (hu : u.Valid)
    (hroots : List.Forall₂ (t.Alike u) roots roots') :
    List.Forall₂ (t.Alike u) (t.reachable roots) (u.reachable roots') := by
  refine forall₂_visit ht hu hroots (fun i j hij => ?_) List.nodup_range List.nodup_range
  rw [List.mem_range, List.mem_range]
  exact iff_of_true hij.left_lt hij.right_lt

theorem idxOf_eq_of_alike (ht : t.Valid) (hu : u.Valid) {xs ys : List Nat}
    (h : List.Forall₂ (t.Alike u) xs ys) {i j : Nat} (hij : t.Alike u i j) :
    xs.idxOf i = ys.idxOf j := by
  induction h with
  | nil => rfl
  | @cons x y xs ys hxy h ih =>
    rw [List.idxOf_cons, List.idxOf_cons, ih]
    have hsame : (x == i) = (y == j) := by
      rw [Bool.eq_iff_iff, beq_iff_eq, beq_iff_eq]
      exact hxy.eq_iff hij ht hu
    rw [hsame]

theorem name_eq_of_alike (ht : t.Valid) (hu : u.Valid)
    (hroots : List.Forall₂ (t.Alike u) roots roots') {i j : Nat} (hij : t.Alike u i j) :
    t.name roots i = u.name roots' j := by
  unfold name
  rw [idxOf_eq_of_alike ht hu (forall₂_reachable ht hu hroots) hij]

theorem named_eq_of_alike (ht : t.Valid) (hu : u.Valid)
    (hroots : List.Forall₂ (t.Alike u) roots roots') : t.named roots = u.named roots' := by
  have hname : ∀ i j, t.Alike u i j → t.name roots i = u.name roots' j :=
    fun i j hij => name_eq_of_alike ht hu hroots hij
  have hfound : ∀ {xs ys}, List.Forall₂ (t.Alike u) xs ys →
      (xs.filterMap fun i => t.nodes[i]?.map (i, ·)).map
          (fun p => (t.name roots p.1, p.2.map (t.name roots))) =
        (ys.filterMap fun j => u.nodes[j]?.map (j, ·)).map
          (fun p => (u.name roots' p.1, p.2.map (u.name roots'))) := by
    intro xs ys h
    induction h with
    | nil => rfl
    | @cons i j xs ys hij h ih =>
      obtain ⟨n, m, hn, hm, hop, hoperands⟩ := hij.nodes ht hu
      have hnode : n.map (t.name roots) = m.map (u.name roots') := by
        apply Node.ext_operands
        · rw [Node.op_map, Node.op_map, hop]
        · rw [Node.operands_map, Node.operands_map]
          exact map_eq_of_forall₂ hoperands hname
      simp only [List.filterMap_cons, hn, hm, Option.map_some, List.map_cons, ih, hnode,
        hname i j hij]
  exact hfound (forall₂_reachable ht hu hroots)

end

variable {primary primary' : Option Nat} {secondary secondary' : List Nat}

theorem draft_eq_of_alike (ht : t.Valid) (hu : u.Valid)
    (hroots : ∀ i ∈ primary.toList ++ secondary, i < t.size)
    (hroots' : ∀ j ∈ primary'.toList ++ secondary', j < u.size)
    (hprimary : primary.map t.unfolding = primary'.map u.unfolding)
    (hsecondary : secondary.map t.unfolding = secondary'.map u.unfolding) :
    u.draft primary' secondary' =
      { t.draft primary secondary with numInputs := some (u.numInputs : Int) } := by
  have hall : (primary.toList ++ secondary).map t.unfolding =
      (primary'.toList ++ secondary').map u.unfolding := by
    rw [← outputs_map, ← outputs_map, hprimary, hsecondary]
  have halike : List.Forall₂ (t.Alike u) (primary.toList ++ secondary)
      (primary'.toList ++ secondary') :=
    (forall₂_mem (map_eq_map_iff.mp hall)).imp fun i j hij => ⟨hroots i hij.1, hroots' j hij.2.1, hij.2.2⟩
  have hname : ∀ i j, t.Alike u i j → t.name (primary.toList ++ secondary) i =
      u.name (primary'.toList ++ secondary') j := fun i j hij => name_eq_of_alike ht hu halike hij
  have hnames : (primary.toList ++ secondary).map (t.name (primary.toList ++ secondary)) =
      (primary'.toList ++ secondary').map (u.name (primary'.toList ++ secondary')) :=
    map_eq_of_forall₂ halike hname
  have hlength : (primary.toList.map (t.name (primary.toList ++ secondary))).length =
      (primary'.toList.map (u.name (primary'.toList ++ secondary'))).length := by
    have h := congrArg (fun o => o.toList.length) hprimary
    simpa [Option.toList_map] using h
  rw [List.map_append, List.map_append] at hnames
  obtain ⟨hp, hs⟩ := List.append_inj hnames hlength
  have hprimary' : primary.map (t.name (primary.toList ++ secondary)) =
      primary'.map (u.name (primary'.toList ++ secondary')) := by
    rw [← Option.toList_map, ← Option.toList_map] at hp
    simpa using congrArg List.head? hp
  rw [hu.draft_eq hroots', ht.draft_eq hroots, ← named_eq_of_alike ht hu halike, ← hprimary', ← hs]
  rfl

/-- Roots with the same trees have the same graph up to the length of the input vector. -/
theorem Valid.extract_canonical [Written α] (ht : t.Valid) (hu : u.Valid)
    (hroots : ∀ i ∈ primary.toList ++ secondary, i < t.size)
    (hroots' : ∀ j ∈ primary'.toList ++ secondary', j < u.size)
    (hprimary : primary.map t.unfolding = primary'.map u.unfolding)
    (hsecondary : secondary.map t.unfolding = secondary'.map u.unfolding) :
    ∃ g, t.extract primary secondary = .ok g ∧
      ∃ m, u.extract primary' secondary' = .ok { g with numInputs := m } := by
  obtain ⟨g, hg, -⟩ := ht.exists_extract hroots
  refine ⟨g, hg, ?_⟩
  unfold extract
  rw [draft_eq_of_alike ht hu hroots hroots' hprimary hsecondary]
  exact Draft.assemble_withLength hg _

end Tape
end ScalarGraph
