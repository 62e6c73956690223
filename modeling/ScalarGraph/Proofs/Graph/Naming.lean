import Mathlib.Data.List.Nodup
import ScalarGraph.Graph.Assembly
import ScalarGraph.Proofs.Node

/-! # What is named for a node

Assembly notes every edge for its target, under the key of its slot. This succeeds exactly if the edges
have keys, different ones for each node. Then the edges to each node are noted in their order.
-/
namespace ScalarGraph
namespace Draft

def keyed? (e : DraftEdge) : Option (Slot.Key × DraftEdge) := e.slot.key?.map (·, e)

theorem Named.add_eq_ok {m m' : Named} {e : DraftEdge} : m.add e = .ok m' ↔
    ∃ k, e.slot.key? = some k ∧ k ∉ (m.getD e.target []).map Prod.fst ∧
      m' = m.insert e.target (m.getD e.target [] ++ [(k, e)]) := by
  unfold Named.add
  dsimp only
  cases hk : e.slot.key? with
  | none => simp
  | some k =>
    simp only [Option.some.injEq, exists_eq_left']
    split
    · next hsome =>
      obtain ⟨f, hf⟩ := Option.isSome_iff_exists.mp hsome
      obtain ⟨l₁, l₂, hl, -⟩ := List.lookup_eq_some_iff.mp hf
      simp [hl]
    · next hnone =>
      have hfree : k ∉ (m.getD e.target []).map Prod.fst := by
        intro hmem
        obtain ⟨q, hq, rfl⟩ := List.mem_map.mp hmem
        rw [Option.not_isSome_iff_eq_none, List.lookup_eq_none_iff] at hnone
        simpa using hnone q hq
      simp only [hfree, not_false_eq_true, true_and, Except.ok.injEq]
      exact eq_comm

theorem getD_named_insert (m : Named) (es : List DraftEdge) {e : DraftEdge} {k : Slot.Key}
    (hk : e.slot.key? = some k) (id : Text) :
    (m.insert e.target (m.getD e.target [] ++ [(k, e)])).getD id [] ++
        (es.filter (·.target == id)).filterMap keyed? =
      m.getD id [] ++ ((e :: es).filter (·.target == id)).filterMap keyed? := by
  rw [Std.HashMap.getD_insert, List.filter_cons]
  by_cases he : e.target = id
  · simp [he, keyed?, hk]
  · simp [he]

theorem getD_foldlM_add {es : List DraftEdge} {m m' : Named} (h : es.foldlM Named.add m = .ok m') (id : Text) :
    m'.getD id [] = m.getD id [] ++ (es.filter (·.target == id)).filterMap keyed? := by
  induction es generalizing m with
  | nil =>
    cases h
    simp
  | cons e es ih =>
    rw [List.foldlM_cons] at h
    obtain ⟨m₁, h₁, h⟩ := bind_eq_ok.mp h
    obtain ⟨k, hk, -, rfl⟩ := Named.add_eq_ok.mp h₁
    rw [ih h, getD_named_insert m es hk]

theorem exists_foldlM_add_iff {es : List DraftEdge} {m : Named}
    (hm : ∀ id, ((m.getD id []).map Prod.fst).Nodup) : (∃ m', es.foldlM Named.add m = .ok m') ↔
      (∀ e ∈ es, ∃ k, e.slot.key? = some k) ∧
        ∀ id, ((m.getD id [] ++ (es.filter (·.target == id)).filterMap keyed?).map Prod.fst).Nodup := by
  induction es generalizing m with
  | nil => simpa [pure, Except.pure] using hm
  | cons e es ih =>
    have hnoted {k : Slot.Key} (hfree : k ∉ (m.getD e.target []).map Prod.fst) (id : Text) :
        (((m.insert e.target (m.getD e.target [] ++ [(k, e)])).getD id []).map Prod.fst).Nodup := by
      rw [Std.HashMap.getD_insert]
      split
      · simpa using (hm e.target).concat hfree
      · exact hm id
    rw [List.foldlM_cons, List.forall_mem_cons]
    constructor
    · rintro ⟨m', h⟩
      obtain ⟨m₁, h₁, h⟩ := bind_eq_ok.mp h
      obtain ⟨k, hk, hfree, rfl⟩ := Named.add_eq_ok.mp h₁
      obtain ⟨hkeys, hnodup⟩ := (ih (hnoted hfree)).mp ⟨m', h⟩
      exact ⟨⟨⟨k, hk⟩, hkeys⟩, fun id => getD_named_insert m es hk id ▸ hnodup id⟩
    · rintro ⟨⟨⟨k, hk⟩, hkeys⟩, hnodup⟩
      have hfree : k ∉ (m.getD e.target []).map Prod.fst := by
        have hself := hnodup e.target
        rw [← getD_named_insert m es hk, Std.HashMap.getD_insert_self, List.append_assoc,
          List.map_append, List.nodup_append] at hself
        exact fun hmem => hself.2.2 k hmem k List.mem_cons_self rfl
      obtain ⟨m', h⟩ := (ih (hnoted hfree)).mpr
        ⟨hkeys, fun id => (getD_named_insert m es hk id).symm ▸ hnodup id⟩
      exact ⟨m', bind_eq_ok.mpr ⟨_, Named.add_eq_ok.mpr ⟨k, hk, hfree, rfl⟩, h⟩⟩

section
variable {α : Type} {d : Draft α} {named : Named}

theorem exists_named_iff : (∃ named, d.named = .ok named) ↔
    (∀ e ∈ d.edges, ∃ k, e.slot.key? = some k) ∧
      ∀ id, (((d.edges.filter (·.target == id)).filterMap keyed?).map Prod.fst).Nodup := by
  have hall : (∃ named, d.edges.foldlM Named.add {} = .ok named) ↔ _ := exists_foldlM_add_iff (by simp)
  simp only [Std.HashMap.getD_empty, List.nil_append] at hall
  exact hall

variable (h : d.named = .ok named)
include h

/-- What is named for a node are the edges to it, in their order. -/
theorem getD_named (id : Text) :
    named.getD id [] = (d.edges.filter (·.target == id)).filterMap keyed? := by
  rw [getD_foldlM_add h, Std.HashMap.getD_empty, List.nil_append]

theorem exists_key : ∀ e ∈ d.edges, ∃ k, e.slot.key? = some k := (exists_named_iff.mp ⟨named, h⟩).1

theorem nodup_named (id : Text) : ((named.getD id []).map Prod.fst).Nodup := by
  rw [getD_named h]
  exact (exists_named_iff.mp ⟨named, h⟩).2 id

theorem mem_named {id : Text} {k : Slot.Key} {e : DraftEdge} :
    (k, e) ∈ named.getD id [] ↔ e ∈ d.edges ∧ e.target = id ∧ e.slot.key? = some k := by
  rw [getD_named h, List.mem_filterMap]
  constructor
  · rintro ⟨f, hf, hkf⟩
    obtain ⟨hmem, htarget⟩ := List.mem_filter.mp hf
    obtain ⟨j, hj, heq⟩ := Option.map_eq_some_iff.mp hkf
    cases heq
    exact ⟨hmem, eq_of_beq htarget, hj⟩
  · rintro ⟨he, rfl, hk⟩
    exact ⟨e, List.mem_filter.mpr ⟨he, beq_self_eq_true _⟩, by rw [keyed?, hk, Option.map_some]⟩

end

end Draft
end ScalarGraph
