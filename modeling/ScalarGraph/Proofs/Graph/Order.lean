import Mathlib.Data.Finset.Card
import Mathlib.Data.List.Perm.Subperm
import Mathlib.Data.List.Nodup
import Mathlib.Logic.Relation
import ScalarGraph.Graph.Order

/-! # What the topological order is

While the queue is served, the degree of an identifier is the number of edges to it
whose sources are not served yet, and an identifier is served or waits exactly if
that number is zero. So an order that is found lists every identifier once, after
the sources of all edges to it, and one is found wherever the edges go up
in some rank.
-/
namespace ScalarGraph.Order
variable {ι : Type} [BEq ι] [Hashable ι]

def openTo (edges : List (ι × ι)) (done : List ι) (x : ι) : Nat :=
  edges.countP fun e => e.2 == x && !done.contains e.1

/-- Every identifier stands after the sources of all edges to it. -/
def Precedes (edges : List (ι × ι)) (before order : List ι) : Prop :=
  ∀ l₁ x l₂, order = l₁ ++ x :: l₂ → ∀ e ∈ edges, e.2 = x → e.1 ∈ before ++ l₁

variable [LawfulBEq ι]

omit [Hashable ι] in
theorem openTo_eq_zero {edges : List (ι × ι)} {done : List ι} {x : ι} :
    openTo edges done x = 0 ↔ ∀ e ∈ edges, e.2 = x → e.1 ∈ done := by
  simp [openTo, List.countP_eq_zero]

omit [Hashable ι] in
theorem openTo_append (edges : List (ι × ι)) {done : List ι} {x : ι} (hx : x ∉ done) (y : ι) :
    openTo edges done y = openTo edges (done ++ [x]) y +
      ((edges.filter (·.1 == x)).map Prod.snd).count y := by
  induction edges with
  | nil => rfl
  | cons e edges ih =>
    simp only [openTo] at ih ⊢
    rw [List.countP_cons, List.countP_cons, ih, List.filter_cons]
    by_cases h1 : e.1 = x
    · subst h1
      by_cases h2 : e.2 = y
      · simp [hx, h2]
        omega
      · simp [hx, h2]
    · have hdone : (done ++ [x]).contains e.1 = done.contains e.1 := by simp [h1]
      have hx1 : (e.1 == x) = false := by simpa using h1
      rw [hdone, hx1]
      simp only [Bool.false_eq_true, if_false]
      omega

theorem getElem?_insertZeros (ids : List ι) (d : Degrees ι) (x : ι) :
    (ids.foldl (fun d x => d.insert x 0) d)[x]? = if x ∈ ids then some 0 else d[x]? := by
  induction ids generalizing d with
  | nil => simp
  | cons y ids ih =>
    rw [List.foldl_cons, ih, Std.HashMap.getElem?_insert]
    by_cases hxy : y = x
    · simp [hxy]
    · simp [hxy, Ne.symm hxy]

theorem size_insertZeros {ids : List ι} {d : Degrees ι} (hids : ids.Nodup)
    (hd : ∀ x ∈ ids, x ∉ d) :
    (ids.foldl (fun d x => d.insert x 0) d).size = d.size + ids.length := by
  induction ids generalizing d with
  | nil => simp
  | cons y ids ih =>
    obtain ⟨hy, hids⟩ := List.nodup_cons.mp hids
    rw [List.foldl_cons, ih hids, Std.HashMap.size_insert, if_neg (hd y List.mem_cons_self)]
    · simp only [List.length_cons]
      omega
    · intro x hx
      have hxy : y ≠ x := fun h => hy (h ▸ hx)
      simpa [Std.HashMap.mem_insert, hxy] using hd x (List.mem_cons_of_mem _ hx)

theorem degrees_spec {edges : List (ι × ι)} {d d' : Degrees ι}
    (h : edges.foldlM (fun d e => d.opened e.2) d = some d') :
    d'.size = d.size ∧ (∀ e ∈ edges, e.2 ∈ d) ∧
      ∀ x, d'[x]? = d[x]?.map (· + edges.countP (·.2 == x)) := by
  induction edges generalizing d with
  | nil =>
    cases h
    exact ⟨rfl, by simp, fun x => by simp⟩
  | cons e edges ih =>
    rw [List.foldlM_cons] at h
    obtain ⟨d₁, h₁, h⟩ := Option.bind_eq_some_iff.mp h
    obtain ⟨k, hk, rfl⟩ := Option.map_eq_some_iff.mp h₁
    obtain ⟨hsize, hlisted, hget⟩ := ih h
    have hmem : e.2 ∈ d := Std.HashMap.mem_iff_isSome_getElem?.mpr (by simp [hk])
    refine ⟨by rw [hsize, Std.HashMap.size_insert, if_pos hmem], fun f hf => ?_, fun x => ?_⟩
    · rcases List.mem_cons.mp hf with rfl | hf
      · exact hmem
      · rcases Std.HashMap.mem_insert.mp (hlisted f hf) with hef | hf
        · exact eq_of_beq hef ▸ hmem
        · exact hf
    rw [hget, Std.HashMap.getElem?_insert, List.countP_cons]
    by_cases hx : e.2 = x
    · subst hx
      simp [hk]
      omega
    · simp [hx]

theorem exists_degrees (edges : List (ι × ι)) (d : Degrees ι) (h : ∀ e ∈ edges, e.2 ∈ d) :
    ∃ d', edges.foldlM (fun d e => d.opened e.2) d = some d' := by
  induction edges generalizing d with
  | nil => exact ⟨d, rfl⟩
  | cons e edges ih =>
    obtain ⟨k, hk⟩ := Option.isSome_iff_exists.mp
      (Std.HashMap.mem_iff_isSome_getElem?.mp (h e List.mem_cons_self))
    have hopen : d.opened e.2 = some (d.insert e.2 (k + 1)) := by simp [Degrees.opened, hk]
    obtain ⟨d', hd'⟩ := ih (d.insert e.2 (k + 1)) fun f hf => by
      simp [Std.HashMap.mem_insert, h f (List.mem_cons_of_mem _ hf)]
    exact ⟨d', by rw [List.foldlM_cons, hopen]; exact hd'⟩

theorem getD_successors (edges : List (ι × ι)) (x : ι) :
    (successors edges).getD x [] = (edges.filter (·.1 == x)).map Prod.snd := by
  induction edges with
  | nil => simp [successors]
  | cons e edges ih =>
    simp only [successors] at ih
    simp only [successors, List.foldr_cons, Std.HashMap.getD_insert, List.filter_cons]
    by_cases hx : e.1 = x
    · subst hx
      simp [ih]
    · simp [hx, ih]

/-- Closing edges takes their number from the degrees, and releases what has none left. -/
theorem close_spec (d : Degrees ι) (xs : List ι)
    (h : ∀ x ∈ xs, ∃ k, d[x]? = some k ∧ xs.count x ≤ k) :
    (∀ y, (close d xs).1[y]? = d[y]?.map (· - xs.count y)) ∧ (close d xs).2.Nodup ∧
      ∀ y, y ∈ (close d xs).2 ↔ y ∈ xs ∧ d[y]? = some (xs.count y) := by
  induction xs generalizing d with
  | nil => simp [close]
  | cons x xs ih =>
    obtain ⟨k, hk, hle⟩ := h x List.mem_cons_self
    rw [List.count_cons_self] at hle
    obtain ⟨j, rfl⟩ : ∃ j, k = j + 1 := ⟨k - 1, by omega⟩
    have hxs : ∀ y ∈ xs, ∃ k, (d.insert x j)[y]? = some k ∧ xs.count y ≤ k := by
      intro y hy
      by_cases hxy : x = y
      · subst hxy
        exact ⟨j, by simp, by omega⟩
      · obtain ⟨l, hl, hyl⟩ := h y (List.mem_cons_of_mem _ hy)
        exact ⟨l, by simp [Std.HashMap.getElem?_insert, hxy, hl], by simpa [hxy] using hyl⟩
    obtain ⟨hget, hnodup, hmem⟩ := ih _ hxs
    simp only [close, hk]
    refine ⟨fun y => ?_, ?_, fun y => ?_⟩
    · rw [hget, Std.HashMap.getElem?_insert]
      by_cases hxy : x = y
      · subst hxy
        simp [hk]
      · simp [hxy]
    · split
      · next hj =>
        refine List.nodup_cons.mpr ⟨fun hx => ?_, hnodup⟩
        obtain ⟨hx, hcount⟩ := (hmem x).mp hx
        have hpos := List.count_pos_iff.mpr hx
        omega
      · exact hnodup
    · have hrec := hmem y
      rw [Std.HashMap.getElem?_insert] at hrec
      by_cases hxy : x = y
      · subst hxy
        have hpos := List.count_pos_iff (a := x) (l := xs)
        split
        · next hj =>
          simp only [hj, List.mem_cons, true_or, true_and, hk, List.count_cons_self,
            Option.some.injEq, true_iff]
          omega
        · next hj =>
          simp only [hrec, beq_self_eq_true, if_true, Option.some.injEq, List.mem_cons, true_or,
            true_and, hk, List.count_cons_self, Nat.add_right_cancel_iff, and_iff_right_iff_imp]
          intro he
          exact hpos.mp (by omega)
      · have hyx : y ≠ x := Ne.symm hxy
        split <;> simpa [hxy, hyx] using hrec

/-- The degrees count the open edges, and what has none is done or waits, once. -/
structure Serving (ids : List ι) (edges : List (ι × ι)) (done : List ι) (d : Degrees ι)
    (queue : List ι) : Prop where
  nodup : (done ++ queue).Nodup
  mem_ids : ∀ x ∈ done ++ queue, x ∈ ids
  degree : ∀ x, d[x]? = if x ∈ ids then some (openTo edges done x) else none
  free_iff : ∀ x ∈ ids, x ∈ done ++ queue ↔ openTo edges done x = 0

variable {ids : List ι} {edges : List (ι × ι)}

theorem Serving.sources {done queue : List ι} {d : Degrees ι} {x : ι}
    (h : Serving ids edges done d (x :: queue)) : ∀ e ∈ edges, e.2 = x → e.1 ∈ done := by
  have hx : x ∈ done ++ x :: queue := by simp
  exact openTo_eq_zero.mp ((h.free_iff x (h.mem_ids x hx)).mp hx)

/-- What one service does: it closes the edges from `x` and lets in what waits for nothing else. -/
theorem Serving.step {done queue : List ι} {d : Degrees ι} {x : ι}
    (h : Serving ids edges done d (x :: queue)) (hends : ∀ e ∈ edges, e.2 ∈ ids) :
    Serving ids edges (done ++ [x]) (close d ((successors edges).getD x [])).1
      (queue ++ (close d ((successors edges).getD x [])).2) := by
  rw [getD_successors]
  have hx : x ∉ done := fun hx =>
    (List.nodup_append.mp h.nodup).2.2 x hx x List.mem_cons_self rfl
  have hopen := openTo_append edges hx
  have hnext : ∀ y ∈ (edges.filter (·.1 == x)).map Prod.snd, y ∈ ids := by
    intro y hy
    obtain ⟨e, he, rfl⟩ := List.mem_map.mp hy
    exact hends e (List.mem_filter.mp he).1
  generalize (edges.filter (·.1 == x)).map Prod.snd = next at hopen hnext ⊢
  obtain ⟨hget, hnodup, hmem⟩ := close_spec d next fun y hy =>
    ⟨_, by rw [h.degree, if_pos (hnext y hy)], by rw [hopen]; omega⟩
  have hreleased : ∀ y, y ∈ (close d next).2 ↔ y ∈ next ∧ openTo edges (done ++ [x]) y = 0 := by
    intro y
    rw [hmem, h.degree]
    refine and_congr_right fun hy => ?_
    rw [if_pos (hnext y hy), hopen, Option.some.injEq]
    omega
  have hwaits : ∀ y ∈ next, y ∉ done ++ x :: queue := by
    intro y hy hd
    have hzero := (h.free_iff y (hnext y hy)).mp hd
    have hpos := List.count_pos_iff.mpr hy
    rw [hopen] at hzero
    omega
  constructor
  · rw [List.append_assoc, ← List.append_assoc [x], List.singleton_append, ← List.append_assoc,
      List.nodup_append]
    refine ⟨h.nodup, hnodup, fun y hy z hz => ?_⟩
    rintro rfl
    exact hwaits y ((hreleased y).mp hz).1 hy
  · intro y hy
    simp only [List.append_assoc, List.mem_append, List.mem_singleton] at hy
    rcases hy with hy | hy | hy | hy
    · exact h.mem_ids y (by simp [hy])
    · exact h.mem_ids y (by simp [hy])
    · exact h.mem_ids y (by simp [hy])
    · exact hnext y ((hreleased y).mp hy).1
  · intro y
    rw [hget, h.degree]
    split
    · simp [hopen y]
    · rfl
  · intro y hy
    have hfree := h.free_iff y hy
    have hsplit : y ∈ done ++ [x] ++ (queue ++ (close d next).2) ↔
        y ∈ done ++ x :: queue ∨ y ∈ (close d next).2 := by simp [or_assoc]
    rw [hsplit, hfree, hreleased, hopen]
    by_cases hn : y ∈ next
    · have hpos := List.count_pos_iff.mpr hn
      simp [hn]
      omega
    · simp [hn, List.count_eq_zero.mpr hn]

/-- Serving the queue to its end, all that was free is done, each after its sources. -/
theorem Serving.serve {done queue : List ι} {d : Degrees ι} (h : Serving ids edges done d queue)
    (hends : ∀ e ∈ edges, e.2 ∈ ids) (fuel : Nat) (hfuel : ids.length ≤ done.length + fuel) :
    Serving ids edges (done ++ (Order.serve (successors edges) fuel d queue).2)
      (Order.serve (successors edges) fuel d queue).1 [] ∧
    Precedes edges done (Order.serve (successors edges) fuel d queue).2 := by
  induction fuel generalizing done d queue with
  | zero =>
    have hlen := (List.subperm_of_subset h.nodup h.mem_ids).length_le
    have hq : queue = [] := List.eq_nil_of_length_eq_zero (by
      rw [List.length_append] at hlen
      omega)
    subst hq
    exact ⟨by simpa [Order.serve] using h, by simp [Order.serve, Precedes]⟩
  | succ fuel ih =>
    cases queue with
    | nil => exact ⟨by simpa [Order.serve] using h, by simp [Order.serve, Precedes]⟩
    | cons x queue =>
      obtain ⟨hs, hp⟩ := ih (h.step hends)
        (by simp only [List.length_append, List.length_singleton]; omega)
      simp only [Order.serve]
      refine ⟨by simpa using hs, ?_⟩
      intro l₁ y l₂ hl e he hey
      cases l₁ with
      | nil =>
        obtain ⟨rfl, -⟩ := List.cons.inj hl
        simpa using h.sources e he hey
      | cons z l₁ =>
        obtain ⟨rfl, htail⟩ := List.cons.inj hl
        simpa using hp l₁ y l₂ htail e he hey

theorem mem_unconnected {x : ι} : x ∈ unconnected ids ↔ x ∈ ids := by
  rw [Std.HashMap.mem_iff_isSome_getElem?, unconnected, getElem?_insertZeros]
  split <;> simp_all

theorem serving_start (hids : ids.Nodup) {d : Degrees ι} (hd : degrees ids edges = some d) :
    Serving ids edges [] d (ids.filter fun x => d.getD x 0 == 0) := by
  obtain ⟨-, -, hget⟩ := degrees_spec hd
  have hdeg : ∀ x, d[x]? = if x ∈ ids then some (openTo edges [] x) else none := by
    intro x
    rw [hget, unconnected, getElem?_insertZeros]
    split <;> simp [openTo]
  refine ⟨by simpa using hids.filter _, fun x hx => (List.mem_filter.mp hx).1, hdeg, ?_⟩
  intro x hx
  simp [hx, Std.HashMap.getD_eq_getD_getElem?, hdeg]

/-- The order is what is served, where that is everything. -/
theorem sort_cases (hids : ids.Nodup) {d : Degrees ι} (hd : degrees ids edges = some d) :
    ∃ left order, Serving ids edges order left [] ∧ Precedes edges [] order ∧
      sort ids edges = if order.length = ids.length then .ok order
        else .error (.cycle (ids.eraseDups.filter fun x => left.getD x 0 != 0)) := by
  obtain ⟨hsize, hlisted, -⟩ := degrees_spec hd
  have hends : ∀ e ∈ edges, e.2 ∈ ids := fun e he => mem_unconnected.mp (hlisted e he)
  obtain ⟨hend, hprec⟩ := (serving_start hids hd).serve hends
    ((ids.filter fun x => d.getD x 0 == 0).length + ids.length) (by simp)
  refine ⟨_, _, by simpa using hend, hprec, ?_⟩
  have hlength : d.size = ids.length := by
    rw [hsize, unconnected, size_insertZeros hids (by simp)]
    simp
  simp only [sort, hd, hlength]

theorem Serving.perm {order : List ι} {left : Degrees ι} (h : Serving ids edges order left [])
    (hlen : ids.length ≤ order.length) : order.Perm ids := by
  have hnodup : order.Nodup := by simpa using h.nodup
  have hsub : order ⊆ ids := fun x hx => h.mem_ids x (by simpa using hx)
  exact (List.subperm_of_subset hnodup hsub).perm_of_length_le hlen

theorem sort_spec (hids : ids.Nodup) {order : List ι} (h : sort ids edges = .ok order) :
    order.Perm ids ∧ Precedes edges [] order := by
  cases hd : degrees ids edges with
  | none => simp [sort, hd] at h
  | some d =>
    obtain ⟨left, served, hserved, hprec, hsort⟩ := sort_cases hids hd
    rw [hsort] at h
    split at h
    · next hlen =>
      cases h
      exact ⟨hserved.perm (Nat.le_of_eq hlen.symm), hprec⟩
    · cases h

theorem exists_sort (hids : ids.Nodup) (hends : ∀ e ∈ edges, e.1 ∈ ids ∧ e.2 ∈ ids)
    {rank : ι → Nat} (hrank : ∀ e ∈ edges, rank e.1 < rank e.2) :
    ∃ order, sort ids edges = .ok order := by
  obtain ⟨d, hd⟩ := exists_degrees edges (unconnected ids) fun e he =>
    mem_unconnected.mpr (hends e he).2
  obtain ⟨left, order, hserved, -, hsort⟩ := sort_cases hids hd
  -- what has the least rank of all that is not served has no open edge
  have hall : ∀ n, ∀ x ∈ ids, rank x = n → x ∈ order := by
    intro n
    induction n using Nat.strongRecOn with
    | _ n ih =>
      rintro x hx rfl
      have hzero : openTo edges order x = 0 := openTo_eq_zero.mpr fun e he hex =>
        ih (rank e.1) (hex ▸ hrank e he) e.1 (hends e he).1 rfl
      simpa using (hserved.free_iff x hx).mpr hzero
  have hnodup : order.Nodup := by simpa using hserved.nodup
  have hle := (List.subperm_of_subset hids fun x hx => hall (rank x) x hx rfl).length_le
  have hge := (List.subperm_of_subset hnodup fun x hx =>
    hserved.mem_ids x (by simpa using hx)).length_le
  exact ⟨order, by rw [hsort, if_pos (Nat.le_antisymm hge hle)]⟩

omit [BEq ι] [Hashable ι] [LawfulBEq ι] in
/-- A relation without cycles goes up in some rank: how many elements lead to each one. -/
theorem exists_rank_of_acyclic {r : ι → ι → Prop} (hids : ∀ x y, r x y → x ∈ ids)
    (hr : ∀ x, ¬ Relation.TransGen r x x) : ∃ rank : ι → Nat, ∀ x y, r x y → rank x < rank y := by
  classical
  refine ⟨fun x => (ids.toFinset.filter fun y => Relation.TransGen r y x).card, fun x y hxy => ?_⟩
  apply Finset.card_lt_card
  refine (Finset.ssubset_iff_of_subset fun z hz => ?_).mpr ⟨x, ?_, ?_⟩
  · obtain ⟨hmem, hzx⟩ := Finset.mem_filter.mp hz
    exact Finset.mem_filter.mpr ⟨hmem, hzx.tail hxy⟩
  · exact Finset.mem_filter.mpr ⟨List.mem_toFinset.mpr (hids x y hxy), .single hxy⟩
  · exact fun hx => hr x (Finset.mem_filter.mp hx).2

omit [Hashable ι] in
theorem Precedes.idxOf_lt {order : List ι} (h : Precedes edges [] order) {e : ι × ι} (he : e ∈ edges)
    (hmem : e.2 ∈ order) : order.idxOf e.1 < order.idxOf e.2 := by
  have hlt := List.idxOf_lt_length_of_mem hmem
  have hsplit : order = order.take (order.idxOf e.2) ++ e.2 :: order.drop (order.idxOf e.2 + 1) := by
    conv_lhs => rw [← List.take_append_drop (order.idxOf e.2) order, List.drop_eq_getElem_cons hlt,
      List.getElem_idxOf]
  have hbefore : e.1 ∈ order.take (order.idxOf e.2) := by
    simpa using h _ _ _ hsplit e he rfl
  have hidx : order.idxOf e.1 = (order.take (order.idxOf e.2)).idxOf e.1 := by
    conv_lhs => rw [← List.take_append_drop (order.idxOf e.2) order]
    exact List.idxOf_append_of_mem hbefore
  rw [hidx]
  exact Nat.lt_of_lt_of_le (List.idxOf_lt_length_of_mem hbefore) (List.length_take_le _ _)

/-- There is an order exactly if the edges have no cycle. -/
theorem exists_sort_iff (hids : ids.Nodup) (hends : ∀ e ∈ edges, e.1 ∈ ids ∧ e.2 ∈ ids) :
    (∃ order, sort ids edges = .ok order) ↔
      ∀ x, ¬ Relation.TransGen (fun a b => (a, b) ∈ edges) x x := by
  constructor
  · rintro ⟨order, h⟩ x hx
    obtain ⟨hperm, hprec⟩ := sort_spec hids h
    have hlt : ∀ y, Relation.TransGen (fun a b => (a, b) ∈ edges) x y →
        order.idxOf x < order.idxOf y := by
      intro y hy
      have hup : ∀ a b, (a, b) ∈ edges → order.idxOf a < order.idxOf b := fun a b hab =>
        hprec.idxOf_lt hab (hperm.mem_iff.mpr (hends _ hab).2)
      induction hy with
      | single hab => exact hup _ _ hab
      | tail _ hab ih => exact Nat.lt_trans ih (hup _ _ hab)
    exact Nat.lt_irrefl _ (hlt x hx)
  · intro h
    obtain ⟨rank, hrank⟩ := exists_rank_of_acyclic (fun a b hab => (hends _ hab).1) h
    exact exists_sort hids hends fun e he => hrank e.1 e.2 he

end ScalarGraph.Order
