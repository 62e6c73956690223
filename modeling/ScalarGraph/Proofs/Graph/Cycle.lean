import ScalarGraph.Proofs.Graph.Order
import ScalarGraph.Proofs.List
import ScalarGraph.Session.Execution

/-! # Identifiers without an order

What is never served lies on a cycle of the edges or behind one: every source that is not served
has such a source itself, and nothing on a cycle can be the first that is served. So distinct
identifiers are put into an order exactly where the edges between them have no cycle, and
where they have one all that it leads to is reported.
-/
namespace ScalarGraph

namespace Order
variable {ι : Type}

def Feeds (edges : List (ι × ι)) (x y : ι) : Prop := (x, y) ∈ edges

def Acyclic (edges : List (ι × ι)) : Prop := ∀ x, ¬ Relation.TransGen (Feeds edges) x x

/-- On a cycle, or where a cycle leads to. -/
def BehindCycle (edges : List (ι × ι)) (x : ι) : Prop :=
  ∃ c, Relation.TransGen (Feeds edges) c c ∧ Relation.ReflTransGen (Feeds edges) c x

def FeedsOnWay (edges : List (ι × ι)) (x y z : ι) : Prop :=
  Feeds edges y z ∧ Relation.ReflTransGen (Feeds edges) z x

variable {ids : List ι} {edges : List (ι × ι)}

theorem behindCycle_of_onWay {x c : ι} (h : Relation.TransGen (FeedsOnWay edges x) c c) :
    BehindCycle edges x := by
  obtain ⟨b, -, -, hcx⟩ := Relation.TransGen.tail'_iff.mp h
  exact ⟨c, Relation.TransGen.mono (fun _ _ hab => hab.1) c c h, hcx⟩

theorem not_acyclic_iff : ¬ Acyclic edges ↔ ∃ x, BehindCycle edges x := by
  constructor
  · intro h
    obtain ⟨c, hc⟩ := not_forall_not.mp h
    exact ⟨c, c, hc, .refl⟩
  · rintro ⟨x, c, hc, -⟩ h
    exact h c hc

theorem BehindCycle.mem (hends : ∀ e ∈ edges, e.1 ∈ ids ∧ e.2 ∈ ids) {x : ι}
    (h : BehindCycle edges x) : x ∈ ids := by
  obtain ⟨c, hc, hx⟩ := h
  obtain ⟨y, -, hyx⟩ := Relation.TransGen.tail'_iff.mp (hc.trans_left hx)
  exact (hends _ hyx).2

variable [BEq ι] [LawfulBEq ι]

theorem Precedes.idxOf_lt_of_transGen {order : List ι} (h : Precedes edges [] order) {x y : ι}
    (hxy : Relation.TransGen (Feeds edges) x y) (hy : y ∈ order) : order.idxOf x < order.idxOf y := by
  induction hxy using Relation.TransGen.head_induction_on with
  | single hab => exact h.idxOf_lt hab hy
  | head hab _ ih =>
    have hmem : _ ∈ order := List.idxOf_lt_length_iff.mp (ih.trans (List.idxOf_lt_length_of_mem hy))
    exact (h.idxOf_lt hab hmem).trans ih

variable [Hashable ι]

/-- What is never served is what cycles lead to. -/
theorem Serving.notMem_iff {order : List ι} {left : Degrees ι} (h : Serving ids edges order left [])
    (hprec : Precedes edges [] order) (hends : ∀ e ∈ edges, e.1 ∈ ids ∧ e.2 ∈ ids) {x : ι}
    (hx : x ∈ ids) : x ∉ order ↔ BehindCycle edges x := by
  constructor
  · intro hserved
    by_contra hfree
    -- the edges on the way to `x` go up in some rank, so all on that way is served
    have hacyclic : ∀ c, ¬ Relation.TransGen (FeedsOnWay edges x) c c :=
      fun c hc => hfree (behindCycle_of_onWay hc)
    have hsource : ∀ a b, FeedsOnWay edges x a b → a ∈ ids := fun a b hab => (hends _ hab.1).1
    obtain ⟨rank, hrank⟩ := exists_rank_of_acyclic hsource hacyclic
    have hall : ∀ n y, rank y = n → y ∈ ids → Relation.ReflTransGen (Feeds edges) y x → y ∈ order := by
      intro n
      induction n using Nat.strongRecOn with
      | _ n ih =>
        rintro y rfl hy hyx
        have hzero : openTo edges order y = 0 := openTo_eq_zero.mpr fun e he hey => by
          have hfeeds : Feeds edges e.1 y := hey ▸ he
          exact ih (rank e.1) (hrank e.1 y ⟨hfeeds, hyx⟩) e.1 rfl (hends e he).1 (.head hfeeds hyx)
        simpa using (h.free_iff y hy).mpr hzero
    exact hserved (hall (rank x) x rfl hx .refl)
  · rintro ⟨c, hc, hcx⟩ hserved
    have hcorder : c ∈ order := by
      rcases Relation.reflTransGen_iff_eq_or_transGen.mp hcx with rfl | hpath
      · exact hserved
      · have hlt := hprec.idxOf_lt_of_transGen hpath hserved
        exact List.idxOf_lt_length_iff.mp (hlt.trans (List.idxOf_lt_length_of_mem hserved))
    exact Nat.lt_irrefl _ (hprec.idxOf_lt_of_transGen hc hcorder)

/-- Sorting stops with a cycle where there is one, and names all identifiers that cycles lead to. -/
theorem sort_eq_cycle (hids : ids.Nodup) (hends : ∀ e ∈ edges, e.1 ∈ ids ∧ e.2 ∈ ids)
    (hcycle : ¬ Acyclic edges) :
    ∃ stuck, sort ids edges = .error (.cycle stuck) ∧ stuck.Sublist ids ∧
      ∀ x, x ∈ stuck ↔ BehindCycle edges x := by
  obtain ⟨d, hd⟩ := exists_degrees edges (unconnected ids) fun e he =>
    mem_unconnected.mpr (hends e he).2
  obtain ⟨left, order, hserved, hprec, hsort⟩ := sort_cases hids hd
  have hstuck : ∀ x ∈ ids, left.getD x 0 ≠ 0 ↔ BehindCycle edges x := by
    intro x hx
    have hfree := hserved.free_iff x hx
    rw [List.append_nil] at hfree
    rw [← hserved.notMem_iff hprec hends hx, hfree, Std.HashMap.getD_eq_getD_getElem?, hserved.degree,
      if_pos hx, Option.getD_some]
  have hlength : order.length ≠ ids.length := by
    intro hlength
    obtain ⟨x, hx⟩ := not_acyclic_iff.mp hcycle
    have hmem := hx.mem hends
    exact (hserved.notMem_iff hprec hends hmem).mpr hx
      ((hserved.perm (Nat.le_of_eq hlength.symm)).mem_iff.mpr hmem)
  rw [if_neg hlength, eraseDups_eq_self hids] at hsort
  refine ⟨_, hsort, List.filter_sublist, fun x => ?_⟩
  rw [List.mem_filter, bne_iff_ne]
  exact ⟨fun hx => (hstuck x hx.1).mp hx.2, fun hx => ⟨hx.mem hends, (hstuck x (hx.mem hends)).mpr hx⟩⟩

end Order

namespace Command
open ScalarGraph.Order (Acyclic BehindCycle)

theorem topologicalOrder_eq (ids : List Text) (edges : List (Text × Text)) :
    topologicalOrder ids edges = match Order.sort ids edges with
      | .ok sorted => .ok sorted
      | .error .unlistedTarget => .error .noSuchKey
      | .error (.cycle stuck) =>
        .error (.violation (.cycle ((Text.sorted stuck).take Draft.stuckLimit))) := by
  have hids : (ids.map fun id => (id, (.select : Literal Float))).map (·.1) = ids := by
    rw [List.map_map]
    exact List.map_id ids
  have hedges : (edges.map fun e => (⟨e.1, e.2, .role .only⟩ : DraftEdge)).map
      (fun e => (e.source, e.target)) = edges := by
    rw [List.map_map]
    exact List.map_id edges
  unfold topologicalOrder Draft.order Draft.ids
  rw [hids]
  generalize (edges.map fun e => (⟨e.1, e.2, .role .only⟩ : DraftEdge)).map
    (fun e => (e.source, e.target)) = given at hedges ⊢
  subst hedges
  rfl

/-- Distinct identifiers with edges between them, any number of them between the same two, are put
into an order in which every edge goes up, or the edges have a cycle. That is a violation which names
the first of those that a cycle leads to. -/
theorem topologicalOrder_total {ids : List Text} {edges : List (Text × Text)} (hids : ids.Nodup)
    (hends : ∀ e ∈ edges, e.1 ∈ ids ∧ e.2 ∈ ids) :
    (Acyclic edges → ∃ order, topologicalOrder ids edges = .ok order ∧ order.Perm ids ∧
      ∀ e ∈ edges, order.idxOf e.1 < order.idxOf e.2) ∧
    (¬ Acyclic edges → ∃ stuck, topologicalOrder ids edges =
        .error (.violation (.cycle ((Text.sorted stuck).take Draft.stuckLimit))) ∧
      stuck.Sublist ids ∧ ∀ x, x ∈ stuck ↔ BehindCycle edges x) := by
  constructor
  · intro hacyclic
    obtain ⟨order, hsort⟩ := (Order.exists_sort_iff hids hends).mpr hacyclic
    obtain ⟨hperm, hprec⟩ := Order.sort_spec hids hsort
    refine ⟨order, by rw [topologicalOrder_eq, hsort], hperm, fun e he => ?_⟩
    exact hprec.idxOf_lt he (hperm.mem_iff.mpr (hends e he).2)
  · intro hcycle
    obtain ⟨stuck, hsort, hstuck⟩ := Order.sort_eq_cycle hids hends hcycle
    exact ⟨stuck, by rw [topologicalOrder_eq, hsort], hstuck⟩

def twoEdges : List (Text × Text) := [("b", "a"), ("b", "a")]

theorem feeds_twoEdges {x y : Text} : Order.Feeds twoEdges x y ↔ x = "b" ∧ y = "a" := by
  simp [Order.Feeds, twoEdges]

theorem acyclic_twoEdges : Acyclic twoEdges := by
  intro x hx
  obtain ⟨y, hxy, -⟩ := Relation.TransGen.head'_iff.mp hx
  obtain ⟨z, -, hzx⟩ := Relation.TransGen.tail'_iff.mp hx
  have hsource := (feeds_twoEdges.mp hxy).1
  have htarget := (feeds_twoEdges.mp hzx).2
  exact absurd (hsource.symm.trans htarget) (by decide)

/-- The two edges alone, and with an edge from the first node to itself. -/
theorem topologicalOrder_total_twoEdges :
    (∃ order : List Text, topologicalOrder ["a", "b"] twoEdges = .ok order ∧
      order.Perm ["a", "b"] ∧ ∀ e ∈ twoEdges, order.idxOf e.1 < order.idxOf e.2) ∧
    ∃ stuck : List Text, topologicalOrder ["a", "b"] (("a", "a") :: twoEdges) =
        .error (.violation (.cycle ((Text.sorted stuck).take Draft.stuckLimit))) ∧
      ("a" : Text) ∈ stuck ∧ ("b" : Text) ∉ stuck := by
  constructor
  · exact (topologicalOrder_total (by decide) (by decide)).1 acyclic_twoEdges
  · have hself : Order.Feeds ((("a" : Text), ("a" : Text)) :: twoEdges) "a" "a" := List.mem_cons_self
    have hends : ∀ e ∈ (("a" : Text), ("a" : Text)) :: twoEdges,
        e.1 ∈ (["a", "b"] : List Text) ∧ e.2 ∈ (["a", "b"] : List Text) := by decide
    obtain ⟨stuck, herror, -, hmem⟩ :=
      (topologicalOrder_total (by decide) hends).2 fun h => h "a" (.single hself)
    refine ⟨stuck, herror, (hmem "a").mpr ⟨"a", .single hself, .refl⟩, fun hb => ?_⟩
    -- no edge leads to the second node
    obtain ⟨c, hc, hcb⟩ := (hmem "b").mp hb
    obtain ⟨y, -, hy⟩ := Relation.TransGen.tail'_iff.mp (hc.trans_left hcb)
    have hba : ("b" : Text) = "a" := by
      rcases List.mem_cons.mp hy with he | he
      · exact congrArg Prod.snd he
      · exact (feeds_twoEdges.mp he).2
    exact absurd hba (by decide)

end Command
end ScalarGraph
