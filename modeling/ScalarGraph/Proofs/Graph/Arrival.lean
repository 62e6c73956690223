import ScalarGraph.Proofs.Graph.Cycle

/-! # First come, first served

Identifiers arrive in the queue in an order that the served ones determine: those that no edge leads to
as they are listed, and then every other one with the last edge to it that is closed. Each identifier
is served as the first arrival that is not served yet. So a tie is broken by position in the list only
between two that arrive before anything is served; any other one is broken by the order of the sources
and by the order in which edges from the same source are listed.
-/
namespace ScalarGraph

namespace Order
variable {ι : Type} [BEq ι]

def targets (edges : List (ι × ι)) (x : ι) : List ι := (edges.filter (·.1 == x)).map Prod.snd

theorem mem_targets [LawfulBEq ι] {edges : List (ι × ι)} {x y : ι} :
    y ∈ targets edges x ↔ (x, y) ∈ edges := by
  simp [targets]

variable [DecidableEq ι]

/-- What has arrived when `done` is served, in the order of arrival. Where several edges lead to an
identifier, it arrives with the one that is closed last. -/
def arrivals (ids : List ι) (edges : List (ι × ι)) (done : List ι) : List ι :=
  ids.filter (openTo edges [] · == 0) ++
    (done.flatMap (targets edges)).dedup.filter (openTo edges done · == 0)

/-- Every identifier is the first arrival that does not stand before it. -/
def FirstCome (ids : List ι) (edges : List (ι × ι)) (order : List ι) : Prop :=
  ∀ l₁ x l₂, order = l₁ ++ x :: l₂ → ∃ waiting, arrivals ids edges l₁ = l₁ ++ x :: waiting

variable {ids : List ι} {edges : List (ι × ι)}

theorem FirstCome.unique {order order' : List ι} (h : FirstCome ids edges order)
    (h' : FirstCome ids edges order') (hlength : order.length = order'.length) : order = order' := by
  -- behind a common beginning the next identifier is the same
  have hrest : ∀ l₂ l₁ l₂', order = l₁ ++ l₂ → order' = l₁ ++ l₂' → l₂ = l₂' := by
    intro l₂
    induction l₂ with
    | nil =>
      rintro l₁ l₂' rfl rfl
      simpa using hlength
    | cons x l₂ ih =>
      intro l₁ l₂' ho ho'
      cases l₂' with
      | nil =>
        rw [ho, ho'] at hlength
        simp at hlength
      | cons y l₂' =>
        obtain ⟨waiting, hx⟩ := h l₁ x l₂ ho
        obtain ⟨waiting', hy⟩ := h' l₁ y l₂' ho'
        have hcons := List.append_cancel_left (hx.symm.trans hy)
        obtain ⟨rfl, -⟩ := List.cons.inj hcons
        rw [ih (l₁ ++ [x]) l₂' (by simp [ho]) (by simp [ho'])]
  exact hrest order [] order' rfl rfl

/-- It is enough to compare the arrivals with each beginning of the order. -/
theorem firstCome_iff {order : List ι} : FirstCome ids edges order ↔
    ∀ i < order.length, order.take (i + 1) <+: arrivals ids edges (order.take i) := by
  constructor
  · intro h i hi
    have hsplit : order = order.take i ++ order[i] :: order.drop (i + 1) := by
      rw [← List.drop_eq_getElem_cons hi, List.take_append_drop]
    obtain ⟨waiting, hwaiting⟩ := h _ _ _ hsplit
    refine ⟨waiting, ?_⟩
    rw [hwaiting, List.take_succ_eq_append_getElem hi, List.append_assoc, List.singleton_append]
  · rintro h l₁ x l₂ rfl
    obtain ⟨waiting, hwaiting⟩ := h l₁.length (by simp)
    have hnext : (l₁ ++ x :: l₂).take (l₁.length + 1) = l₁ ++ [x] := by simp [List.take_append]
    rw [hnext, List.take_left, List.append_assoc] at hwaiting
    exact ⟨waiting, hwaiting.symm⟩

instance (ids : List ι) (edges : List (ι × ι)) (order : List ι) : Decidable (FirstCome ids edges order) :=
  decidable_of_iff _ firstCome_iff.symm

theorem FirstCome.free_isPrefix {order : List ι} (h : FirstCome ids edges order)
    (hlength : ids.length = order.length) : ids.filter (openTo edges [] · == 0) <+: order := by
  have hle : (ids.filter (openTo edges [] · == 0)).length ≤ order.length :=
    hlength ▸ List.length_filter_le _ _
  rcases List.eq_nil_or_concat order with rfl | ⟨l₁, x, rfl⟩
  · exact (List.eq_nil_of_length_eq_zero (Nat.le_zero.mp hle)).symm ▸ List.prefix_rfl
  · obtain ⟨waiting, hwaiting⟩ := h l₁ x [] (by simp)
    have hfree : ids.filter (openTo edges [] · == 0) <+: arrivals ids edges l₁ := List.prefix_append _ _
    have horder : l₁.concat x <+: arrivals ids edges l₁ := ⟨waiting, by simp [hwaiting]⟩
    exact List.prefix_of_prefix_length_le hfree horder hle

variable [LawfulBEq ι]

theorem mem_arrivals (hends : ∀ e ∈ edges, e.2 ∈ ids) {done : List ι} {y : ι} :
    y ∈ arrivals ids edges done ↔ y ∈ ids ∧ ∀ e ∈ edges, e.2 = y → e.1 ∈ done := by
  simp only [arrivals, List.mem_append, List.mem_filter, beq_iff_eq, openTo_eq_zero, List.mem_dedup,
    List.mem_flatMap, mem_targets]
  constructor
  · rintro (⟨hy, hfree⟩ | ⟨⟨x, -, hxy⟩, hdone⟩)
    · exact ⟨hy, fun e he hey => absurd (hfree e he hey) List.not_mem_nil⟩
    · exact ⟨hends _ hxy, hdone⟩
  · rintro ⟨hy, hdone⟩
    by_cases hfree : ∀ e ∈ edges, e.2 ≠ y
    · exact .inl ⟨hy, fun e he hey => absurd hey (hfree e he)⟩
    · push Not at hfree
      obtain ⟨⟨x, y⟩, he, rfl⟩ := hfree
      exact .inr ⟨⟨x, hdone _ he rfl, he⟩, hdone⟩

/-- Where the targets of every source are last listed in the same order, they are so for any
sources one after the other. -/
theorem dedup_flatMap_targets {edges' : List (ι × ι)}
    (h : ∀ x, (targets edges' x).dedup = (targets edges x).dedup) (done : List ι) :
    (done.flatMap (targets edges')).dedup = (done.flatMap (targets edges)).dedup := by
  induction done with
  | nil => rfl
  | cons x done ih =>
    have hmem : ∀ y, y ∈ done.flatMap (targets edges') ↔ y ∈ done.flatMap (targets edges) := by
      intro y
      rw [← List.mem_dedup, ih, List.mem_dedup]
    rw [List.flatMap_cons, List.flatMap_cons, dedup_append_eq, dedup_append_eq, h, ih]
    simp only [hmem]

theorem mem_edges_iff {edges' : List (ι × ι)}
    (h : ∀ x, (targets edges' x).dedup = (targets edges x).dedup) (e : ι × ι) :
    e ∈ edges' ↔ e ∈ edges := by
  rw [← mem_targets (x := e.1) (y := e.2), ← mem_targets (x := e.1) (y := e.2), ← List.mem_dedup, h,
    List.mem_dedup]

theorem arrivals_congr {edges' : List (ι × ι)}
    (h : ∀ x, (targets edges' x).dedup = (targets edges x).dedup) (ids done : List ι) :
    arrivals ids edges' done = arrivals ids edges done := by
  have hopen : ∀ l y, (openTo edges' l y == 0) = (openTo edges l y == 0) := by
    intro l y
    rw [Bool.eq_iff_iff, beq_iff_eq, beq_iff_eq, openTo_eq_zero, openTo_eq_zero]
    simp only [mem_edges_iff h]
  simp only [arrivals, hopen, dedup_flatMap_targets h]

variable [Hashable ι]

/-- Closing edges releases targets in the order in which they are last listed. -/
theorem released_eq {d : Degrees ι} {xs : List ι} (h : ∀ x ∈ xs, ∃ k, d[x]? = some k ∧ xs.count x ≤ k) :
    (close d xs).2 = xs.dedup.filter fun y => d.getD y 0 == xs.count y := by
  induction xs generalizing d with
  | nil => rfl
  | cons x xs ih =>
    obtain ⟨k, hk, hle⟩ := h x List.mem_cons_self
    rw [List.count_cons_self] at hle
    obtain ⟨j, rfl⟩ : ∃ j, k = j + 1 := ⟨k - 1, by omega⟩
    have hx : d.getD x 0 = j + 1 := by rw [Std.HashMap.getD_eq_getD_getElem?, hk, Option.getD_some]
    have hxs : ∀ y ∈ xs, ∃ k, (d.insert x j)[y]? = some k ∧ xs.count y ≤ k := by
      intro y hy
      by_cases hxy : x = y
      · subst hxy
        exact ⟨j, by simp, by omega⟩
      · obtain ⟨l, hl, hyl⟩ := h y (List.mem_cons_of_mem _ hy)
        exact ⟨l, by simp [Std.HashMap.getElem?_insert, hxy, hl], by simpa [hxy] using hyl⟩
    -- one edge less to `x` is open, and one less is left to be closed
    have hsame : ∀ y ∈ xs.dedup, ((d.insert x j).getD y 0 == xs.count y) =
        (d.getD y 0 == (x :: xs).count y) := by
      intro y _
      by_cases hxy : x = y
      · subst hxy
        simp [hx]
      · simp [Std.HashMap.getD_insert, hxy]
    simp only [close, hk, ih hxs, List.filter_congr hsame]
    by_cases hmem : x ∈ xs
    · have hpos := List.count_pos_iff.mpr hmem
      rw [List.dedup_cons_of_mem hmem, if_neg (by omega)]
    · rw [List.dedup_cons_of_notMem hmem, List.filter_cons, hx, List.count_cons_self,
        List.count_eq_zero.mpr hmem]
      by_cases hj : j = 0 <;> simp [hj]

theorem Serving.arrivals_append {done queue : List ι} {d : Degrees ι} {x : ι}
    (h : Serving ids edges done d (x :: queue)) (hends : ∀ e ∈ edges, e.2 ∈ ids) :
    arrivals ids edges (done ++ [x]) =
      arrivals ids edges done ++ (close d ((successors edges).getD x [])).2 := by
  have hx : x ∉ done := fun hx =>
    (List.nodup_append.mp h.nodup).2.2 x hx x List.mem_cons_self rfl
  have hopen : ∀ y, openTo edges done y = openTo edges (done ++ [x]) y + (targets edges x).count y :=
    openTo_append edges hx
  have hids : ∀ y ∈ targets edges x, y ∈ ids := fun y hy => hends _ (mem_targets.mp hy)
  have hcounted : ∀ y ∈ targets edges x, ∃ k, d[y]? = some k ∧ (targets edges x).count y ≤ k := by
    intro y hy
    refine ⟨openTo edges done y, by rw [h.degree, if_pos (hids y hy)], ?_⟩
    rw [hopen]
    omega
  have hreleased := released_eq hcounted
  have hold : ∀ y ∈ (done.flatMap (targets edges)).dedup,
      (openTo edges (done ++ [x]) y == 0 && decide (y ∉ targets edges x)) =
        (openTo edges done y == 0) := by
    intro y _
    rw [Bool.eq_iff_iff, Bool.and_eq_true, decide_eq_true_eq, beq_iff_eq, beq_iff_eq, hopen y,
      ← List.count_eq_zero]
    omega
  have hnew : ∀ y ∈ (targets edges x).dedup, (openTo edges (done ++ [x]) y == 0) =
      (d.getD y 0 == (targets edges x).count y) := by
    intro y hy
    rw [Std.HashMap.getD_eq_getD_getElem?, h.degree, if_pos (hids y (List.mem_dedup.mp hy)),
      Option.getD_some, hopen y, Bool.eq_iff_iff, beq_iff_eq, beq_iff_eq]
    omega
  have hnext : (successors edges).getD x [] = targets edges x := getD_successors edges x
  rw [hnext, hreleased, arrivals, arrivals, List.append_assoc, List.flatMap_append,
    List.flatMap_singleton, dedup_append_eq, List.filter_append, List.filter_filter,
    List.filter_congr hold, List.filter_congr hnew]

/-- While the queue holds the arrivals that are not served, its first entry is served next. -/
theorem Serving.firstCome {done queue : List ι} {d : Degrees ι} (h : Serving ids edges done d queue)
    (hends : ∀ e ∈ edges, e.2 ∈ ids) (hqueue : arrivals ids edges done = done ++ queue) (fuel : Nat) :
    ∀ l₁ x l₂, (Order.serve (successors edges) fuel d queue).2 = l₁ ++ x :: l₂ →
      ∃ waiting, arrivals ids edges (done ++ l₁) = done ++ l₁ ++ x :: waiting := by
  induction fuel generalizing done d queue with
  | zero =>
    intro l₁ x l₂ hl
    simp [Order.serve] at hl
  | succ fuel ih =>
    cases queue with
    | nil =>
      intro l₁ x l₂ hl
      simp [Order.serve] at hl
    | cons z queue =>
      have hstep : arrivals ids edges (done ++ [z]) =
          done ++ [z] ++ (queue ++ (close d ((successors edges).getD z [])).2) := by
        rw [h.arrivals_append hends, hqueue]
        simp
      intro l₁ x l₂ hl
      simp only [Order.serve] at hl
      cases l₁ with
      | nil =>
        obtain ⟨rfl, -⟩ := List.cons.inj hl
        exact ⟨queue, by simpa using hqueue⟩
      | cons y l₁ =>
        obtain ⟨rfl, htail⟩ := List.cons.inj hl
        simpa using ih (h.step hends) hstep l₁ x l₂ htail

theorem firstCome_of_sort (hids : ids.Nodup) {order : List ι} (h : sort ids edges = .ok order) :
    FirstCome ids edges order := by
  cases hd : degrees ids edges with
  | none => simp [sort, hd] at h
  | some d =>
    have hends : ∀ e ∈ edges, e.2 ∈ ids := fun e he =>
      mem_unconnected.mp ((degrees_spec hd).2.1 e he)
    have hstart := serving_start hids hd
    have hqueue : arrivals ids edges [] = [] ++ ids.filter fun x => d.getD x 0 == 0 := by
      have hfree : ∀ x ∈ ids, (openTo edges [] x == 0) = (d.getD x 0 == 0) := by
        intro x hx
        rw [Std.HashMap.getD_eq_getD_getElem?, hstart.degree, if_pos hx, Option.getD_some]
      simp [arrivals, List.filter_congr hfree]
    have hfirst := hstart.firstCome hends hqueue
    simp only [sort, hd] at h
    split at h
    · cases h
      intro l₁ x l₂ hl
      simpa using hfirst _ l₁ x l₂ hl
    · cases h

omit [BEq ι] [DecidableEq ι] [LawfulBEq ι] [Hashable ι] in
theorem acyclic_of_rank {edges : List (ι × ι)} (rank : ι → Nat) (h : ∀ e ∈ edges, rank e.1 < rank e.2) :
    Acyclic edges := by
  have hlt : ∀ x y, Relation.TransGen (Feeds edges) x y → rank x < rank y := by
    intro x y hxy
    induction hxy with
    | single hab => exact h _ hab
    | tail _ hab ih => exact ih.trans (h _ hab)
  exact fun x hx => Nat.lt_irrefl _ (hlt x x hx)

end Order

namespace Command
open ScalarGraph.Order (Acyclic FirstCome arrivals openTo targets)

/-- Distinct identifiers with edges between them that have no cycle are put into an order in which
every identifier is the first of those that have arrived by then and are not served yet. Arrived have
the identifiers whose sources are all served: those that no edge leads to as they are listed, and these are
served first; every other one with the last edge to it that is closed, source by source in this
order, and from one source as the edges are listed. Nothing but this rule fixes the order. Of the edges
it depends only on the order in which each source lists its targets, a target that it lists again
counting where it stands last. -/
theorem topologicalOrder_firstCome {ids : List Text} {edges : List (Text × Text)} (hids : ids.Nodup)
    (hends : ∀ e ∈ edges, e.1 ∈ ids ∧ e.2 ∈ ids) (hacyclic : Acyclic edges) :
    ∃ order, topologicalOrder ids edges = .ok order ∧ order.Perm ids ∧
      (∀ l₁ x l₂, order = l₁ ++ x :: l₂ →
        (∀ y, y ∈ arrivals ids edges l₁ ↔ y ∈ ids ∧ ∀ e ∈ edges, e.2 = y → e.1 ∈ l₁) ∧
        ∃ waiting, arrivals ids edges l₁ = l₁ ++ x :: waiting) ∧
      (ids.filter fun x => openTo edges [] x == 0) <+: order ∧
      (∀ order' : List Text, order'.Perm ids → FirstCome ids edges order' → order' = order) ∧
      ∀ edges' : List (Text × Text), (∀ x, (targets edges' x).dedup = (targets edges x).dedup) →
        topologicalOrder ids edges' = .ok order := by
  have hsorted : ∀ edges' : List (Text × Text), (∀ e, e ∈ edges' ↔ e ∈ edges) →
      ∃ order, topologicalOrder ids edges' = .ok order ∧ order.Perm ids ∧ FirstCome ids edges' order := by
    intro edges' hmem
    have hends' : ∀ e ∈ edges', e.1 ∈ ids ∧ e.2 ∈ ids := fun e he => hends e ((hmem e).mp he)
    have hacyclic' : Acyclic edges' := fun x hx =>
      hacyclic x (Relation.TransGen.mono (fun a b hab => (hmem (a, b)).mp hab) x x hx)
    obtain ⟨order, hsort⟩ := (Order.exists_sort_iff hids hends').mpr hacyclic'
    exact ⟨order, by rw [topologicalOrder_eq, hsort], (Order.sort_spec hids hsort).1,
      Order.firstCome_of_sort hids hsort⟩
  obtain ⟨order, horder, hperm, hfirst⟩ := hsorted edges fun _ => Iff.rfl
  refine ⟨order, horder, hperm, fun l₁ x l₂ hl => ⟨fun y => ?_, hfirst l₁ x l₂ hl⟩, ?_, ?_, ?_⟩
  · exact Order.mem_arrivals fun e he => (hends e he).2
  · exact hfirst.free_isPrefix hperm.length_eq.symm
  · intro order' hperm' hfirst'
    exact hfirst'.unique hfirst (hperm'.length_eq.trans hperm.length_eq.symm)
  · intro edges' htargets
    obtain ⟨order', horder', hperm', hfirst'⟩ := hsorted edges' (Order.mem_edges_iff htargets)
    have hfirst'' : FirstCome ids edges order' := by
      intro l₁ x l₂ hl
      rw [← Order.arrivals_congr htargets]
      exact hfirst' l₁ x l₂ hl
    rw [horder', hfirst''.unique hfirst (hperm'.length_eq.trans hperm.length_eq.symm)]

def threeNodes : List Text := ["a", "b", "c"]

/-- Two nodes that wait for the first one are served in the order in which the edges to them are
listed, and the first one, where it waits for the second, is served after a third that waits for none. -/
theorem topologicalOrder_firstCome_threeNodes :
    topologicalOrder threeNodes [("a", "c"), ("a", "b")] = .ok ["a", "c", "b"] ∧
      topologicalOrder threeNodes [("a", "b"), ("a", "c")] = .ok ["a", "b", "c"] ∧
        topologicalOrder threeNodes [("b", "a")] = .ok ["b", "c", "a"] := by
  have hserved : ∀ (edges : List (Text × Text)) (order : List Text),
      (∀ e ∈ edges, e.1 ∈ threeNodes ∧ e.2 ∈ threeNodes) →
      (∀ e ∈ edges, order.idxOf e.1 < order.idxOf e.2) → order.Perm threeNodes →
      FirstCome threeNodes edges order → topologicalOrder threeNodes edges = .ok order := by
    intro edges order hends hrank hperm hfirst
    obtain ⟨served, horder, -, -, -, hunique, -⟩ :=
      topologicalOrder_firstCome (by decide) hends (Order.acyclic_of_rank order.idxOf hrank)
    rw [horder, hunique order hperm hfirst]
  refine ⟨hserved _ _ ?_ ?_ ?_ ?_, hserved _ _ ?_ ?_ ?_ ?_, hserved _ _ ?_ ?_ ?_ ?_⟩ <;> decide

end Command
end ScalarGraph
