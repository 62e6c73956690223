import Mathlib.Data.List.Perm.Subperm
import ScalarGraph.Proofs.Graph.Listing

/-! # Drafts of assembled graphs

An assembled graph determines the draft that it was made of, but for the length of the input vector:
the same graph is assembled from it again, with the least length that its inputs need.
-/
namespace ScalarGraph
variable {α ι : Type}

theorem UnaryOp.label_of_named? {t : Text} {o : UnaryOp} (h : UnaryOp.named? t = some o) : o.label = t := by
  have hlabel := List.find?_some h
  exact of_decide_eq_true hlabel

theorem BinaryOp.label_of_named? {t : Text} {o : BinaryOp} (h : BinaryOp.named? t = some o) :
    o.label = t := by
  have hlabel := List.find?_some h
  exact of_decide_eq_true hlabel

theorem NaryOp.label_of_named? {t : Text} {o : NaryOp} (h : NaryOp.named? t = some o) : o.label = t := by
  have hlabel := List.find?_some h
  exact of_decide_eq_true hlabel

namespace Literal

theorem literal_of_op? {l : Literal α} {o : Op α} (h : l.op? = .ok o) : o.literal = l := by
  cases l with
  | const v =>
    cases h
    rfl
  | input i s =>
    simp only [op?] at h
    split at h
    · cases h
    · cases h
      rw [Op.literal, Int.toNat_of_nonneg (by omega)]
  | unary n =>
    simp only [op?] at h
    split at h
    · next o ho =>
      cases h
      rw [Op.literal, UnaryOp.label_of_named? ho]
    · cases h
  | binary n =>
    simp only [op?] at h
    split at h
    · next o ho =>
      cases h
      rw [Op.literal, BinaryOp.label_of_named? ho]
    · cases h
  | select =>
    cases h
    rfl
  | nary n =>
    simp only [op?] at h
    split at h
    · next o ho =>
      cases h
      rw [Op.literal, NaryOp.label_of_named? ho]
    · cases h
  | debug l =>
    cases h
    rfl

theorem literal_of_node? [Written α] {l : Literal α} {xs : List ι} {n : Node α ι} (h : l.node? xs = .ok n) :
    n.op.literal = l := by
  obtain ⟨o, ho, h⟩ := bind_eq_ok.mp h
  split at h
  · next m hm =>
    cases h
    rw [(Node.of_node?_eq_some hm).1]
    exact literal_of_op? ho
  · cases h

end Literal

theorem Slot.eq_role_of_key? {v : Json} {r : Role} (h : (Slot.ofJson v).key? = some (.role r)) :
    Slot.ofJson v = .role r := by
  have hlabel (t : Option Text) (ht : (Slot.ofLabel t).key? = some (.role r)) :
      Slot.ofLabel t = .role r := by
    unfold Slot.ofLabel at ht ⊢
    cases hr : Role.named? t with
    | some s =>
      rw [hr] at ht
      cases ht
      rfl
    | none =>
      rw [hr] at ht
      cases t with
      | none => cases hr
      | some t => cases ht
  cases v with
  | null => exact hlabel none h
  | text t => exact hlabel (some t) h
  | real x =>
    have hkey : some (((Binary64.toInt? x).map Slot.Key.whole).getD (.real x)) = some (.role r) := h
    cases hx : Binary64.toInt? x with
    | none =>
      rw [hx] at hkey
      cases hkey
    | some i =>
      rw [hx] at hkey
      cases hkey
  | _ => cases h

namespace Draft

/-- What is given has distinct identifiers and names its slots as documents do. -/
structure Given (d : Draft α) : Prop where
  ids_nodup : d.ids.Nodup
  slots : ∀ e ∈ d.edges, ∃ v, e.slot = Slot.ofJson v

theorem perm_of_arranged? {l : Literal α} {named : List (Slot.Key × DraftEdge)} {xs : List Text}
    (h : arranged? l named = some xs) :
    ((l.roles named.length).map Slot.Key.role).Perm (named.map (·.1)) := by
  simp only [arranged?] at h
  split at h
  · next hlength =>
    have hfound : (l.roles named.length).map Slot.Key.role ⊆ named.map (·.1) := by
      intro k hk
      obtain ⟨r, hr, rfl⟩ := List.mem_map.mp hk
      have hsome := of_list_mapM_eq_some h
      have hr' : (named.lookup (.role r)).map DraftEdge.source ∈ xs.map some := by
        rw [← hsome]
        exact List.mem_map_of_mem hr
      obtain ⟨x, -, hx⟩ := List.mem_map.mp hr'
      obtain ⟨e, he, -⟩ := Option.map_eq_some_iff.mp hx.symm
      obtain ⟨l₁, l₂, hl, -⟩ := List.lookup_eq_some_iff.mp he
      rw [hl]
      simp
    have hnodup : ((l.roles named.length).map Slot.Key.role).Nodup :=
      (Role.nodup_slots _ _).map fun r s hrs => Slot.Key.role.inj hrs
    apply (List.subperm_of_subset hnodup hfound).perm_of_length_le
    apply Nat.le_of_eq
    rw [List.length_map, List.length_map, hlength]
  · cases h

theorem exists_role_of_arranged? {l : Literal α} {named : List (Slot.Key × DraftEdge)} {xs : List Text}
    (h : arranged? l named = some xs) : ∀ p ∈ named, ∃ r, p.1 = .role r := by
  intro p hp
  obtain ⟨r, -, hr⟩ :=
    List.mem_map.mp ((perm_of_arranged? h).mem_iff.mpr (List.mem_map_of_mem hp))
  exact ⟨r, hr.symm⟩

end Draft

namespace Graph

/-- The draft that a graph was made of, but for the length of the input vector. -/
def draft (g : Graph α) : Draft α where
  nodes := g.nodes.map fun p => (p.1, p.2.op.literal)
  edges := g.edges.map Edge.draft
  primary := g.primary
  secondary := g.secondary

def positions (g : Graph α) : List Nat := g.nodes.filterMap fun p => p.2.position?

/-- One more than the largest position of an input, 0 where there is no input. -/
def leastLength (g : Graph α) : Nat := (g.positions.max?.map (1 + ·)).getD 0

end Graph

namespace Draft

theorem nodes_eq [Written α] {d : Draft α} {named : Named} {rows : List (Text × Literal α × List Text)}
    {nodes : List (Text × Node α Text)} (hrows : d.rows named = .ok rows) (hnodes : nodesOf rows = .ok nodes) :
    nodes.map (fun p => (p.1, p.2.op.literal)) = d.nodes := by
  have hliterals : nodes.map (fun p => (p.1, p.2.op.literal)) = rows.map fun r => (r.1, r.2.1) :=
    map_of_mapM_eq_ok hnodes fun r p h => by
      obtain ⟨n, hn, ⟨⟩⟩ := bind_eq_ok.mp h
      rw [Literal.literal_of_node? hn]
  have hdrafted : rows.map (fun r => (r.1, r.2.1)) = d.nodes.map id :=
    map_of_mapM_eq_ok hrows fun p r h => by
      obtain ⟨xs, -, ⟨⟩⟩ := bind_eq_ok.mp h
      rfl
  rw [hliterals, hdrafted, List.map_id]

theorem edges_eq [Written α] {d : Draft α} (hd : d.Given) {named : Named}
    {rows : List (Text × Literal α × List Text)} (hends : d.checkEnds = .ok ()) (hnamed : d.named = .ok named)
    (hrows : d.rows named = .ok rows) : (d.edges.filterMap DraftEdge.edge?).map Edge.draft = d.edges := by
  have hrole : ∀ e ∈ d.edges, ∃ r, e.slot = .role r := by
    intro e he
    obtain ⟨k, hk⟩ := exists_key hnamed e he
    have hmem := (mem_named hnamed).mpr ⟨he, rfl, hk⟩
    obtain ⟨p, hp, htarget⟩ := List.mem_map.mp (checkEnds_eq_ok.mp hends e he).2
    obtain ⟨row, -, hrow⟩ := exists_of_list_mapM_eq_ok hrows p hp
    obtain ⟨xs, hxs, -⟩ := bind_eq_ok.mp hrow
    unfold arrange at hxs
    split at hxs
    · next harranged =>
      rw [htarget] at harranged
      obtain ⟨r, hr⟩ := exists_role_of_arranged? harranged _ hmem
      obtain ⟨v, hv⟩ := hd.slots e he
      rw [show k = .role r from hr, hv] at hk
      exact ⟨r, hv.trans (Slot.eq_role_of_key? hk)⟩
    · cases hxs
  have hself : ∀ e ∈ d.edges, e.edge?.map Edge.draft = some e := by
    intro e he
    obtain ⟨r, hr⟩ := hrole e he
    obtain ⟨source, target, slot⟩ := e
    cases hr
    rfl
  rw [List.map_filterMap, List.filterMap_congr hself, List.filterMap_some]

/-- A draft that is assembled is the draft of its graph. -/
theorem Given.eq_draft [Written α] {d : Draft α} (hd : d.Given) {g : Graph α} (h : d.assemble = .ok g) :
    { d with numInputs := none } = g.draft := by
  obtain ⟨ps, order, named, rows, nodes, hassembles, rfl⟩ := assemble_eq_ok.mp h
  have hnodes := nodes_eq hassembles.rows_ok hassembles.nodes_ok
  have hedges := edges_eq hd hassembles.ends_ok hassembles.named_ok hassembles.rows_ok
  unfold Graph.draft
  simp only [hnodes, hedges]

theorem positions_eq {nodes : List (Text × Node α Text)} {seen ps : List (Nat × Text)}
    (h : (nodes.map fun p => (p.1, p.2.op.literal)).foldlM notePosition seen = .ok ps) :
    ps.map (·.1) = seen.map (·.1) ++ nodes.filterMap fun p => p.2.position? := by
  induction nodes generalizing seen with
  | nil =>
    cases h
    exact (List.append_nil _).symm
  | cons p nodes ih =>
    rw [List.map_cons, List.foldlM_cons] at h
    obtain ⟨seen', hseen, h⟩ := bind_eq_ok.mp h
    rw [ih h, List.filterMap_cons]
    obtain ⟨id, n⟩ := p
    cases n with
    | input i s =>
      unfold notePosition at hseen
      simp only [Node.op, Op.literal] at hseen
      rw [if_neg (by omega)] at hseen
      split at hseen
      · cases hseen
      · cases hseen
        rw [List.map_append, List.append_assoc]
        rfl
    | _ =>
      cases hseen
      rfl

end Draft

theorem foldl_position_succ (ps : List (Nat × Text)) (m : Nat) :
    ps.foldl (fun m p => max m (p.1 + 1)) (1 + m) = 1 + (ps.map (·.1)).foldl max m := by
  induction ps generalizing m with
  | nil => rfl
  | cons p ps ih =>
    have hmax : max (1 + m) (p.1 + 1) = 1 + max m p.1 := by omega
    rw [List.foldl_cons, hmax, ih, List.map_cons, List.foldl_cons]

theorem foldl_position (ps : List (Nat × Text)) :
    ps.foldl (fun m p => max m (p.1 + 1)) 0 = ((ps.map (·.1)).max?.map (1 + ·)).getD 0 := by
  cases ps with
  | nil => rfl
  | cons p ps =>
    have hmax : max 0 (p.1 + 1) = 1 + p.1 := by omega
    rw [List.foldl_cons, hmax, foldl_position_succ]
    rfl

/-- A graph is assembled from its draft again, with the least length of the input vector. -/
theorem Graph.assemble_draft [Written α] {d : Draft α} (hd : d.Given) {g : Graph α}
    (h : d.assemble = .ok g) :
    g.draft.assemble = .ok { g with numInputs := g.leastLength } := by
  obtain ⟨m, hm⟩ := Draft.assemble_withLength h none
  rw [hd.eq_draft h] at hm
  obtain ⟨ps, order, named, rows, nodes, hassembles, hsame⟩ := Draft.assemble_eq_ok.mp hm
  have hlength : m = g.leastLength := by
    have hnum : m = g.draft.vectorLength ps := congrArg Graph.numInputs hsame
    have hpositions := Draft.positions_eq hassembles.positions_ok
    rw [hnum]
    unfold Draft.vectorLength leastLength positions
    rw [foldl_position, hpositions]
    rfl
  rw [hm, hlength]

theorem Draft.Given.numInputs_eq [Written α] {d : Draft α} (hd : d.Given) (hnone : d.numInputs = none)
    {g : Graph α} (h : d.assemble = .ok g) : g.numInputs = g.leastLength := by
  have hdraft : d = g.draft := by
    rw [← hd.eq_draft h, ← hnone]
  have hsame := Graph.assemble_draft hd h
  rw [← hdraft, h] at hsame
  exact congrArg Graph.numInputs (Except.ok.inj hsame)

end ScalarGraph
