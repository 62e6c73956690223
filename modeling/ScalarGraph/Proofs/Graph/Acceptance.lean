import ScalarGraph.Proofs.Graph.Faults

/-! # Which drafts are accepted

A draft is assembled exactly if its ends and outputs are listed, its positions are distinct and not
negative, its edges have no cycle, each of its nodes is given exactly the slots of its operator, and
its operators are known. Nothing of this depends on the order of the nodes and the edges. Of parts
whose slots are given by name, these conditions say what a caller has to know, and every other
parts break an invariant.
-/
namespace ScalarGraph
variable {α : Type}

namespace Literal

def position? : Literal α → Option Int
  | input i _ => some i
  | _ => none

theorem node?_eq_ok_of_length [Written α] {ι : Type} {l : Literal α} {o : Op α} (ho : l.op? = .ok o)
    {xs : List ι} (h : (l.roles xs.length).length = xs.length) : ∃ n, l.node? xs = .ok n := by
  have hnode : ∃ n, o.node? xs = some n := by
    rw [← literal_of_op? ho, Op.literal_roles] at h
    cases o with
    | const v =>
      obtain rfl := List.eq_nil_of_length_eq_zero h.symm
      exact ⟨_, rfl⟩
    | input i s =>
      obtain rfl := List.eq_nil_of_length_eq_zero h.symm
      exact ⟨_, rfl⟩
    | unary o =>
      obtain ⟨x, rfl⟩ := List.length_eq_one_iff.mp h.symm
      exact ⟨_, rfl⟩
    | binary o =>
      obtain ⟨x, y, rfl⟩ := List.length_eq_two.mp h.symm
      exact ⟨_, rfl⟩
    | select =>
      obtain ⟨c, t, e, rfl⟩ := List.length_eq_three.mp h.symm
      exact ⟨_, rfl⟩
    | nary o => cases xs <;> exact ⟨_, rfl⟩
    | debug l =>
      obtain ⟨x, rfl⟩ := List.length_eq_one_iff.mp h.symm
      exact ⟨_, rfl⟩
  obtain ⟨n, hn⟩ := hnode
  refine ⟨n, bind_eq_ok.mpr ⟨o, ho, ?_⟩⟩
  rw [hn]
  rfl

theorem op?_of_node? [Written α] {ι : Type} {l : Literal α} {xs : List ι} {n : Node α ι}
    (h : l.node? xs = .ok n) : ∃ o, l.op? = .ok o := by
  obtain ⟨o, ho, -⟩ := bind_eq_ok.mp h
  exact ⟨o, ho⟩

end Literal

namespace Draft
variable {d d' : Draft α}

def inputs (d : Draft α) : List Int := d.nodes.filterMap (·.2.position?)

theorem notePosition_of_none {seen : List (Nat × Text)} {p : Text × Literal α}
    (h : p.2.position? = none) : notePosition seen p = .ok seen := by
  obtain ⟨id, l⟩ := p
  cases l with
  | input i s => cases h
  | _ => rfl

theorem notePosition_eq_ok {seen seen' : List (Nat × Text)} {p : Text × Literal α} {i : Int}
    (hi : p.2.position? = some i) : notePosition seen p = .ok seen' ↔
      0 ≤ i ∧ i.toNat ∉ seen.map Prod.fst ∧ seen' = seen ++ [(i.toNat, p.1)] := by
  obtain ⟨id, l⟩ := p
  cases l with
  | input j s =>
    cases hi
    unfold notePosition
    dsimp only
    split
    · next hneg => simp [Int.not_le.mpr hneg]
    · next hnonneg =>
      have hle : 0 ≤ i := Int.not_lt.mp hnonneg
      split
      · next first hfirst =>
        have hmem : i.toNat ∈ seen.map Prod.fst := by
          obtain ⟨l₁, l₂, hl, -⟩ := List.lookup_eq_some_iff.mp hfirst
          simp [hl]
        simp [hmem]
      · next hnone =>
        have hfree : i.toNat ∉ seen.map Prod.fst := by
          intro hmem
          obtain ⟨q, hq, hqi⟩ := List.mem_map.mp hmem
          simpa [hqi] using List.lookup_eq_none_iff.mp hnone q hq
        simp only [Except.ok.injEq, hle, hfree, not_false_eq_true, true_and]
        exact eq_comm
  | _ => cases hi

theorem exists_notePositions_iff (nodes : List (Text × Literal α)) (seen : List (Nat × Text))
    (hseen : (seen.map Prod.fst).Nodup) : (∃ ps, nodes.foldlM notePosition seen = .ok ps) ↔
      (∀ i ∈ nodes.filterMap (·.2.position?), 0 ≤ i) ∧
        (seen.map (fun q => (q.1 : Int)) ++ nodes.filterMap (·.2.position?)).Nodup := by
  induction nodes generalizing seen with
  | nil =>
    have hcast : (seen.map fun q => (q.1 : Int)).Nodup := by
      have := hseen.map fun i j h => Int.ofNat.inj h
      rwa [List.map_map] at this
    simp [hcast, pure, Except.pure]
  | cons p nodes ih =>
    rw [List.foldlM_cons, List.filterMap_cons]
    cases hp : p.2.position? with
    | none =>
      rw [notePosition_of_none hp]
      exact ih _ hseen
    | some i =>
      have hstep : (∃ ps, (notePosition seen p >>= fun s => nodes.foldlM notePosition s) = .ok ps) ↔
          0 ≤ i ∧ i.toNat ∉ seen.map Prod.fst ∧
            ∃ ps, nodes.foldlM notePosition (seen ++ [(i.toNat, p.1)]) = .ok ps := by
        constructor
        · rintro ⟨ps, h⟩
          obtain ⟨s, hs, h⟩ := bind_eq_ok.mp h
          obtain ⟨hle, hfree, rfl⟩ := (notePosition_eq_ok hp).mp hs
          exact ⟨hle, hfree, ps, h⟩
        · rintro ⟨hle, hfree, ps, h⟩
          exact ⟨ps, bind_eq_ok.mpr ⟨_, (notePosition_eq_ok hp).mpr ⟨hle, hfree, rfl⟩, h⟩⟩
      have hmem : 0 ≤ i → (i ∈ seen.map (fun q => (q.1 : Int)) ↔ i.toNat ∈ seen.map Prod.fst) := by
        intro hle
        simp only [List.mem_map]
        exact exists_congr fun q => and_congr_right fun _ => by omega
      have hnoted (hfree : i.toNat ∉ seen.map Prod.fst) :
          ((seen ++ [(i.toNat, p.1)]).map Prod.fst).Nodup := by
        simpa using hseen.concat hfree
      rw [hstep, List.forall_mem_cons]
      constructor
      · rintro ⟨hle, hfree, hrest⟩
        obtain ⟨hnonneg, hnodup⟩ := (ih _ (hnoted hfree)).mp hrest
        refine ⟨⟨hle, hnonneg⟩, ?_⟩
        simpa [Int.toNat_of_nonneg hle] using hnodup
      · rintro ⟨⟨hle, hnonneg⟩, hnodup⟩
        have hfree : i.toNat ∉ seen.map Prod.fst := fun h =>
          (List.nodup_append.mp hnodup).2.2 i ((hmem hle).mpr h) i List.mem_cons_self rfl
        refine ⟨hle, hfree, (ih _ (hnoted hfree)).mpr ⟨hnonneg, ?_⟩⟩
        simpa [Int.toNat_of_nonneg hle] using hnodup

/-- Operands are arranged exactly if the keys are those of the wanted slots. -/
theorem exists_arranged?_iff {l : Literal α} {named : List (Slot.Key × DraftEdge)} :
    (∃ xs, arranged? l named = some xs) ↔
      ((l.roles named.length).map Slot.Key.role).Perm (named.map (·.1)) := by
  constructor
  · rintro ⟨xs, h⟩
    exact perm_of_arranged? h
  · intro h
    have hlength : (l.roles named.length).length = named.length := by simpa using h.length_eq
    have hfound : ∀ r ∈ l.roles named.length,
        ∃ x, (named.lookup (.role r)).map DraftEdge.source = some x := by
      intro r hr
      obtain ⟨p, hp, hpr⟩ := List.mem_map.mp (h.mem_iff.mp (List.mem_map_of_mem hr))
      cases hl : named.lookup (.role r) with
      | none =>
        rw [List.lookup_eq_none_iff] at hl
        simpa [hpr] using hl p hp
      | some e => exact ⟨e.source, rfl⟩
    unfold arranged?
    dsimp only
    rw [if_pos hlength]
    exact exists_list_mapM hfound

theorem length_of_arranged? {l : Literal α} {named : List (Slot.Key × DraftEdge)} {xs : List Text}
    (h : arranged? l named = some xs) : (l.roles xs.length).length = xs.length := by
  have hroles := (perm_of_arranged? h).length_eq
  rw [List.length_map, List.length_map] at hroles
  simp only [arranged?, hroles, if_true] at h
  have hlength := congrArg List.length (of_list_mapM_eq_some h)
  rw [List.length_map, List.length_map, hroles] at hlength
  rw [← hlength, hroles]

/-- The keys of the edges to a node; `none` for a slot that has no key. -/
def keysTo (d : Draft α) (id : Text) : List (Option Slot.Key) :=
  (d.edges.filter (·.target == id)).map (·.slot.key?)

def Feeds (d : Draft α) (a b : Text) : Prop := ∃ e ∈ d.edges, e.source = a ∧ e.target = b

/-- The conditions under which a draft is assembled. -/
structure Accepted (d : Draft α) : Prop where
  ends_mem : ∀ e ∈ d.edges, e.source ∈ d.ids ∧ e.target ∈ d.ids
  primary_mem : ∀ id ∈ d.primary, id ∈ d.ids
  secondary_mem : ∀ id ∈ d.secondary, id ∈ d.ids
  inputs_nonneg : ∀ i ∈ d.inputs, 0 ≤ i
  inputs_nodup : d.inputs.Nodup
  acyclic : ∀ x, ¬ Relation.TransGen d.Feeds x x
  slots : ∀ p ∈ d.nodes,
    ((p.2.roles (d.keysTo p.1).length).map fun r => some (Slot.Key.role r)).Perm (d.keysTo p.1)
  known : ∀ p ∈ d.nodes, ∃ o, p.2.op? = .ok o

theorem exists_order_iff (hids : d.ids.Nodup) (hends : ∀ e ∈ d.edges, e.source ∈ d.ids ∧ e.target ∈ d.ids) :
    (∃ order, d.order = .ok order) ↔ ∀ x, ¬ Relation.TransGen d.Feeds x x := by
  have hrel : d.Feeds = fun a b => (a, b) ∈ d.edges.map fun e => (e.source, e.target) := by
    funext a b
    simp [Feeds]
  rw [hrel, ← Order.exists_sort_iff hids (List.forall_mem_map.mpr hends)]
  refine exists_congr fun order => ⟨order_eq_ok, fun h => ?_⟩
  unfold Draft.order
  rw [h]

theorem map_key?_eq {es : List DraftEdge} (h : ∀ e ∈ es, ∃ k, e.slot.key? = some k) :
    es.map (·.slot.key?) = ((es.filterMap keyed?).map Prod.fst).map some := by
  induction es with
  | nil => rfl
  | cons e es ih =>
    obtain ⟨⟨k, hk⟩, hes⟩ := List.forall_mem_cons.mp h
    rw [List.map_cons, ih hes, List.filterMap_cons, keyed?, hk]
    rfl

theorem keysTo_eq {named : Named} (h : d.named = .ok named) (id : Text) :
    d.keysTo id = ((named.getD id []).map Prod.fst).map some := by
  rw [getD_named h, keysTo]
  exact map_key?_eq fun e he => exists_key h e (List.mem_filter.mp he).1

theorem perm_roles_iff {named : Named} (h : d.named = .ok named) {id : Text} {l : Literal α} :
    ((l.roles (d.keysTo id).length).map fun r => some (Slot.Key.role r)).Perm (d.keysTo id) ↔
      ∃ xs, arranged? l (named.getD id []) = some xs := by
  have hsome : (fun r => some (Slot.Key.role r)) = some ∘ Slot.Key.role := rfl
  rw [exists_arranged?_iff, keysTo_eq h, List.length_map, List.length_map, hsome, ← List.map_map,
    List.map_perm_map_iff (Option.some_injective _)]

theorem Accepted.exists_named (h : d.Accepted) : ∃ named, d.named = .ok named := by
  have hkeysTo : ∀ id ∈ d.ids, (d.keysTo id).Nodup ∧ none ∉ d.keysTo id := by
    intro id hid
    obtain ⟨p, hp, rfl⟩ := List.mem_map.mp hid
    have hperm := h.slots p hp
    constructor
    · exact hperm.nodup_iff.mp ((Role.nodup_slots _ _).map fun r s hrs => by simpa using hrs)
    · exact fun hnone => by simpa using hperm.mem_iff.mpr hnone
  have hkeys : ∀ e ∈ d.edges, ∃ k, e.slot.key? = some k := by
    intro e he
    have hmem : e.slot.key? ∈ d.keysTo e.target :=
      List.mem_map_of_mem (List.mem_filter.mpr ⟨he, by simp⟩)
    exact Option.ne_none_iff_exists'.mp fun hnone =>
      (hkeysTo _ (h.ends_mem e he).2).2 (hnone ▸ hmem)
  refine exists_named_iff.mpr ⟨hkeys, fun id => ?_⟩
  by_cases hid : id ∈ d.ids
  · have hnodup := (hkeysTo id hid).1
    rw [keysTo, map_key?_eq fun e he => hkeys e (List.mem_filter.mp he).1] at hnodup
    exact hnodup.of_map _
  · have hnone : d.edges.filter (·.target == id) = [] := List.filter_eq_nil_iff.mpr fun e he htarget =>
      hid (eq_of_beq htarget ▸ (h.ends_mem e he).2)
    rw [hnone]
    exact List.nodup_nil

section
variable [Written α]

theorem arrange_eq_ok {id : Text} {l : Literal α} {named : List (Slot.Key × DraftEdge)} {xs : List Text} :
    arrange id l named = .ok xs ↔ arranged? l named = some xs := by
  refine ⟨exists_arranged?, fun h => ?_⟩
  unfold arrange
  rw [h]

theorem exists_rows_iff {named : Named} : (∃ rows, d.rows named = .ok rows) ↔
    ∀ p ∈ d.nodes, ∃ xs, arranged? p.2 (named.getD p.1 []) = some xs := by
  refine exists_mapM_eq_ok.trans (forall₂_congr fun p _ => ?_)
  constructor
  · rintro ⟨r, h⟩
    obtain ⟨xs, hxs, -⟩ := bind_eq_ok.mp h
    exact ⟨xs, arrange_eq_ok.mp hxs⟩
  · rintro ⟨xs, hxs⟩
    exact ⟨_, bind_eq_ok.mpr ⟨xs, arrange_eq_ok.mpr hxs, rfl⟩⟩

theorem exists_nodesOf_iff {named : Named} {rows : List (Text × Literal α × List Text)}
    (hrows : d.rows named = .ok rows) :
    (∃ nodes, nodesOf rows = .ok nodes) ↔ ∀ p ∈ d.nodes, ∃ o, p.2.op? = .ok o := by
  refine exists_mapM_eq_ok.trans ⟨fun h p hp => ?_, fun h r hr => ?_⟩
  · obtain ⟨r, hr, hpr⟩ := exists_of_list_mapM_eq_ok hrows p hp
    obtain ⟨xs, -, ⟨⟩⟩ := bind_eq_ok.mp hpr
    obtain ⟨q, hq⟩ := h _ hr
    obtain ⟨n, hn, -⟩ := bind_eq_ok.mp hq
    exact Literal.op?_of_node? hn
  · obtain ⟨p, hp, hpr⟩ := of_list_mapM_eq_ok hrows r hr
    obtain ⟨xs, hxs, ⟨⟩⟩ := bind_eq_ok.mp hpr
    obtain ⟨o, ho⟩ := h p hp
    obtain ⟨n, hn⟩ := Literal.node?_eq_ok_of_length ho (length_of_arranged? (arrange_eq_ok.mp hxs))
    exact ⟨_, bind_eq_ok.mpr ⟨n, hn, rfl⟩⟩

/-- A draft is assembled exactly if it is accepted. -/
theorem exists_assemble_iff (hids : d.ids.Nodup) : (∃ g, d.assemble = .ok g) ↔ d.Accepted := by
  constructor
  · rintro ⟨g, h⟩
    obtain ⟨ps, order, named, rows, nodes, hd, -⟩ := assemble_eq_ok.mp h
    have hends := checkEnds_eq_ok.mp hd.ends_ok
    obtain ⟨hprimary, hsecondary⟩ := checkOutputs_eq_ok.mp hd.outputs_ok
    obtain ⟨hnonneg, hnodup⟩ := (exists_notePositions_iff d.nodes [] List.nodup_nil).mp
      ⟨ps, hd.positions_ok⟩
    constructor
    case ends_mem => exact hends
    case primary_mem => exact hprimary
    case secondary_mem => exact hsecondary
    case inputs_nonneg => exact hnonneg
    case inputs_nodup => exact hnodup
    case acyclic => exact (exists_order_iff hids hends).mp ⟨order, hd.order_ok⟩
    case slots =>
      exact fun p hp => (perm_roles_iff hd.named_ok).mpr (exists_rows_iff.mp ⟨rows, hd.rows_ok⟩ p hp)
    case known => exact (exists_nodesOf_iff hd.rows_ok).mp ⟨nodes, hd.nodes_ok⟩
  · intro h
    obtain ⟨ps, hps⟩ := (exists_notePositions_iff d.nodes [] List.nodup_nil).mpr
      ⟨h.inputs_nonneg, h.inputs_nodup⟩
    obtain ⟨order, horder⟩ := (exists_order_iff hids h.ends_mem).mpr h.acyclic
    obtain ⟨named, hnamed⟩ := h.exists_named
    obtain ⟨rows, hrows⟩ := exists_rows_iff.mpr fun p hp => (perm_roles_iff hnamed).mp (h.slots p hp)
    obtain ⟨nodes, hnodes⟩ := (exists_nodesOf_iff hrows).mpr h.known
    exact ⟨_, assemble_eq_ok.mpr ⟨ps, order, named, rows, nodes,
      ⟨checkEnds_eq_ok.mpr h.ends_mem, checkOutputs_eq_ok.mpr ⟨h.primary_mem, h.secondary_mem⟩, hps,
        horder, hnamed, hrows, hnodes⟩, rfl⟩⟩

end

/-- Whether a draft is accepted does not depend on the order of its nodes and edges. -/
theorem Accepted.perm (h : d.Accepted) (hnodes : d.nodes.Perm d'.nodes) (hedges : d.edges.Perm d'.edges)
    (hprimary : d'.primary = d.primary) (hsecondary : d'.secondary = d.secondary) : d'.Accepted := by
  have hids : d.ids.Perm d'.ids := hnodes.map _
  have hinputs : d.inputs.Perm d'.inputs := hnodes.filterMap _
  have hfeeds : d'.Feeds = d.Feeds := by
    funext a b
    simp only [Feeds, hedges.mem_iff]
  have hkeys (id : Text) : (d.keysTo id).Perm (d'.keysTo id) := (hedges.filter _).map _
  constructor
  case ends_mem =>
    intro e he
    obtain ⟨hsource, htarget⟩ := h.ends_mem e (hedges.mem_iff.mpr he)
    exact ⟨hids.mem_iff.mp hsource, hids.mem_iff.mp htarget⟩
  case primary_mem => exact fun id hid => hids.mem_iff.mp (h.primary_mem id (hprimary ▸ hid))
  case secondary_mem => exact fun id hid => hids.mem_iff.mp (h.secondary_mem id (hsecondary ▸ hid))
  case inputs_nonneg => exact fun i hi => h.inputs_nonneg i (hinputs.mem_iff.mpr hi)
  case inputs_nodup => exact hinputs.nodup_iff.mp h.inputs_nodup
  case acyclic => exact hfeeds ▸ h.acyclic
  case slots =>
    intro p hp
    rw [← (hkeys p.1).length_eq]
    exact (h.slots p (hnodes.mem_iff.mpr hp)).trans (hkeys p.1)
  case known => exact fun p hp => h.known p (hnodes.mem_iff.mpr hp)

end Draft

theorem Text.eq_of_natural? {t : Text} {k : Nat} (h : natural? t = some k) : ofNat k = t := by
  unfold natural? at h
  split at h
  · dsimp only at h
    split at h
    · next heq =>
      cases h
      exact heq
    · cases h
  · cases h

theorem Role.label?_of_named? {t : Option Text} {r : Role} (h : named? t = some r) : r.label? = t := by
  cases t with
  | none =>
    cases h
    rfl
  | some t =>
    simp only [named?] at h
    split at h
    · next ht =>
      cases h
      rw [ht, label?]
    split at h
    · next ht =>
      cases h
      rw [ht, label?]
    split at h
    · next ht =>
      cases h
      rw [ht, label?]
    split at h
    · next ht =>
      cases h
      rw [ht, label?]
    split at h
    · next ht =>
      cases h
      rw [ht, label?]
    · obtain ⟨k, hk, rfl⟩ := Option.map_eq_some_iff.mp h
      rw [label?, Text.eq_of_natural? hk]

namespace Slot

def Key.label : Key → Option Text
  | .role r => r.label?
  | .text t => some t
  | _ => none

theorem key?_ofLabel (l : Option Text) : ∃ k, (ofLabel l).key? = some k ∧ k.label = l := by
  unfold ofLabel
  cases hr : Role.named? l with
  | some r => exact ⟨.role r, rfl, Role.label?_of_named? hr⟩
  | none =>
    cases l with
    | none => cases hr
    | some t => exact ⟨.text t, rfl, rfl⟩

theorem key?_ofLabel_injective : Function.Injective fun l => (ofLabel l).key? := by
  intro l l' h
  obtain ⟨k, hk, rfl⟩ := key?_ofLabel l
  obtain ⟨k', hk', rfl⟩ := key?_ofLabel l'
  have hkk : some k = some k' := by rw [← hk, ← hk']; exact h
  rw [Option.some.inj hkk]

end Slot

namespace Literal

def labels (l : Literal α) (n : Nat) : List (Option Text) :=
  match l with
  | const _ | input _ _ => []
  | unary _ | debug _ => [none]
  | binary _ => [some (Text.ofString "left"), some (Text.ofString "right")]
  | select => [some (Text.ofString "cond"), some (Text.ofString "then"), some (Text.ofString "els")]
  | nary _ => (List.range n).map fun k => some (Text.ofNat k)

theorem labels_eq (l : Literal α) (n : Nat) : l.labels n = (l.roles n).map Role.label? := by
  cases l with
  | nary t =>
    rw [labels, roles, arity?, Role.slots, List.map_map]
    rfl
  | _ => rfl

def Known : Literal α → Prop
  | unary t => t ∈ UnaryOp.all.map UnaryOp.label
  | binary t => t ∈ BinaryOp.all.map BinaryOp.label
  | nary t => t ∈ NaryOp.all.map NaryOp.label
  | _ => True

theorem exists_find?_iff {κ : Type} {os : List κ} {label : κ → Text} {t : Text} :
    (∃ o, os.find? (fun o => label o = t) = some o) ↔ t ∈ os.map label := by
  rw [← Option.isSome_iff_exists, List.find?_isSome]
  simp

theorem exists_op?_iff {l : Literal α} :
    (∃ o, l.op? = .ok o) ↔ l.Known ∧ ∀ i ∈ l.position?, 0 ≤ i := by
  cases l with
  | input i s =>
    by_cases hi : i < 0
    · simp [op?, Known, position?, hi]
    · simp [op?, Known, position?, hi, Int.not_lt.mp hi]
  | unary t =>
    have hfound : (∃ o, UnaryOp.named? t = some o) ↔ t ∈ UnaryOp.all.map UnaryOp.label := exists_find?_iff
    simp only [op?, Known, ← hfound, position?, Option.not_mem_none, false_imp_iff, implies_true, and_true]
    cases UnaryOp.named? t <;> simp
  | binary t =>
    have hfound : (∃ o, BinaryOp.named? t = some o) ↔ t ∈ BinaryOp.all.map BinaryOp.label := exists_find?_iff
    simp only [op?, Known, ← hfound, position?, Option.not_mem_none, false_imp_iff, implies_true, and_true]
    cases BinaryOp.named? t <;> simp
  | nary t =>
    have hfound : (∃ o, NaryOp.named? t = some o) ↔ t ∈ NaryOp.all.map NaryOp.label := exists_find?_iff
    simp only [op?, Known, ← hfound, position?, Option.not_mem_none, false_imp_iff, implies_true, and_true]
    cases NaryOp.named? t <;> simp
  | _ => simp [op?, Known, position?]

end Literal

/-- An edge as a caller gives it, whose slot has any name or none. -/
structure LabelledEdge where
  source : Text
  target : Text
  label : Option Text

def LabelledEdge.draft (e : LabelledEdge) : DraftEdge := ⟨e.source, e.target, .ofLabel e.label⟩

def Edge.labelled (e : Edge) : LabelledEdge := ⟨e.source, e.target, e.role.label?⟩

theorem Edge.draft_labelled (e : Edge) : e.labelled.draft = e.draft := by
  unfold labelled LabelledEdge.draft Edge.draft
  rw [Slot.ofLabel_label?]

theorem LabelledEdge.draft_injective : Function.Injective draft := by
  rintro ⟨a, b, l⟩ ⟨a', b', l'⟩ h
  obtain ⟨rfl, rfl, hslot⟩ := DraftEdge.mk.inj h
  obtain rfl : l = l' := Slot.key?_ofLabel_injective (congrArg Slot.key? hslot)
  rfl

/-- The parts of a graph: a map from identifiers to literals, edges with named slots, and outputs. -/
structure Parts (α : Type) where
  nodes : List (Text × Literal α)
  ids_nodup : (nodes.map (·.1)).Nodup
  edges : List LabelledEdge
  primary : Option Text
  secondary : List Text
  numInputs : Option Int

namespace Parts
variable {ps : Parts α}

def draft (ps : Parts α) : Draft α where
  nodes := ps.nodes
  edges := ps.edges.map LabelledEdge.draft
  primary := ps.primary
  secondary := ps.secondary
  numInputs := ps.numInputs

def ids (ps : Parts α) : List Text := ps.nodes.map (·.1)

def Feeds (ps : Parts α) (a b : Text) : Prop := ∃ e ∈ ps.edges, e.source = a ∧ e.target = b

def labelsTo (ps : Parts α) (id : Text) : List (Option Text) :=
  (ps.edges.filter (·.target == id)).map (·.label)

/-- What the parts of a graph have to meet. -/
structure WellFormed (ps : Parts α) : Prop where
  ends_mem : ∀ e ∈ ps.edges, e.source ∈ ps.ids ∧ e.target ∈ ps.ids
  outputs_mem : ∀ id ∈ ps.primary.toList ++ ps.secondary, id ∈ ps.ids
  index_nonneg : ∀ id i s, (id, .input i s) ∈ ps.nodes → 0 ≤ i
  index_unique : ∀ id id' i s s', (id, .input i s) ∈ ps.nodes → (id', .input i s') ∈ ps.nodes → id = id'
  acyclic : ∀ x, ¬ Relation.TransGen ps.Feeds x x
  slots : ∀ id l, (id, l) ∈ ps.nodes → (ps.labelsTo id).Perm (l.labels (ps.labelsTo id).length)
  known : ∀ id l, (id, l) ∈ ps.nodes → l.Known

theorem keysTo_draft (id : Text) :
    ps.draft.keysTo id = (ps.labelsTo id).map fun l => (Slot.ofLabel l).key? := by
  unfold Draft.keysTo labelsTo draft
  rw [List.filter_map, List.map_map, List.map_map]
  rfl

theorem slots_iff {id : Text} {l : Literal α} :
    ((l.roles (ps.draft.keysTo id).length).map fun r => some (Slot.Key.role r)).Perm (ps.draft.keysTo id) ↔
      (ps.labelsTo id).Perm (l.labels (ps.labelsTo id).length) := by
  have hkeys (rs : List Role) : (rs.map fun r => some (Slot.Key.role r)) =
      (rs.map Role.label?).map fun l => (Slot.ofLabel l).key? := by
    simp only [List.map_map, Function.comp_def, Slot.ofLabel_label?, Slot.key?]
  rw [keysTo_draft, List.length_map, hkeys, ← Literal.labels_eq,
    List.map_perm_map_iff Slot.key?_ofLabel_injective]
  exact List.perm_comm

theorem mem_inputs {i : Int} : i ∈ ps.draft.inputs ↔ ∃ id s, (id, .input i s) ∈ ps.nodes := by
  unfold Draft.inputs
  rw [List.mem_filterMap]
  constructor
  · rintro ⟨⟨id, l⟩, hp, hi⟩
    cases l with
    | input j s =>
      cases hi
      exact ⟨id, s, hp⟩
    | _ => cases hi
  · rintro ⟨id, s, hp⟩
    exact ⟨_, hp, rfl⟩

theorem nodup_inputs_iff : ps.draft.inputs.Nodup ↔ ∀ id id' i s s', (id, .input i s) ∈ ps.nodes →
    (id', .input i s') ∈ ps.nodes → id = id' := by
  have hids : ps.nodes.Pairwise fun p q => p.1 ≠ q.1 := List.pairwise_map.mp ps.ids_nodup
  unfold Draft.inputs
  rw [List.Nodup, List.pairwise_filterMap]
  constructor
  · intro h id id' i s s' hp hq
    by_contra hne
    have : Std.Symm fun p q : Text × Literal α => ∀ i ∈ p.2.position?, ∀ j ∈ q.2.position?, i ≠ j :=
      ⟨fun p q hpq i hi j hj => (hpq j hj i hi).symm⟩
    exact h.forall hp hq (fun heq => hne (congrArg Prod.fst heq)) i rfl i rfl rfl
  · intro h
    refine hids.imp_of_mem ?_
    rintro ⟨id, l⟩ ⟨id', l'⟩ hp hq hne i hi j hj rfl
    cases l with
    | input k s =>
      cases l' with
      | input k' s' =>
        cases hi
        cases hj
        exact hne (h id id' i s s' hp hq)
      | _ => cases hj
    | _ => cases hi

theorem accepted_draft_iff : ps.draft.Accepted ↔ ps.WellFormed := by
  have hfeeds : ps.draft.Feeds = ps.Feeds := by
    funext a b
    simp [Draft.Feeds, Feeds, draft, LabelledEdge.draft]
  constructor
  · intro h
    constructor
    case ends_mem => exact List.forall_mem_map.mp h.ends_mem
    case outputs_mem =>
      intro id hid
      rcases List.mem_append.mp hid with hid | hid
      · exact h.primary_mem id (Option.mem_toList.mp hid)
      · exact h.secondary_mem id hid
    case index_nonneg => exact fun id i s hp => h.inputs_nonneg i (mem_inputs.mpr ⟨id, s, hp⟩)
    case index_unique => exact nodup_inputs_iff.mp h.inputs_nodup
    case acyclic => exact hfeeds ▸ h.acyclic
    case slots => exact fun id l hp => slots_iff.mp (h.slots (id, l) hp)
    case known => exact fun id l hp => (Literal.exists_op?_iff.mp (h.known (id, l) hp)).1
  · intro h
    have hnonneg : ∀ i ∈ ps.draft.inputs, 0 ≤ i := by
      intro i hi
      obtain ⟨id, s, hp⟩ := mem_inputs.mp hi
      exact h.index_nonneg id i s hp
    constructor
    case ends_mem => exact List.forall_mem_map.mpr h.ends_mem
    case primary_mem =>
      exact fun id hid => h.outputs_mem id (List.mem_append_left _ (Option.mem_toList.mpr hid))
    case secondary_mem => exact fun id hid => h.outputs_mem id (List.mem_append_right _ hid)
    case inputs_nonneg => exact hnonneg
    case inputs_nodup => exact nodup_inputs_iff.mpr h.index_unique
    case acyclic => exact hfeeds ▸ h.acyclic
    case slots => exact fun p hp => slots_iff.mpr (h.slots p.1 p.2 hp)
    case known =>
      exact fun p hp => Literal.exists_op?_iff.mpr ⟨h.known p.1 p.2 hp, fun i hi =>
        hnonneg i (List.mem_filterMap.mpr ⟨p, hp, hi⟩)⟩

theorem given_draft : ps.draft.Given where
  ids_nodup := ps.ids_nodup
  slots e he := by
    obtain ⟨l, -, rfl⟩ := List.mem_map.mp he
    cases hl : l.label with
    | none => exact ⟨.null, congrArg Slot.ofLabel hl⟩
    | some t => exact ⟨.text t, congrArg Slot.ofLabel hl⟩

/-- A graph is assembled exactly from well-formed parts. It has these parts unchanged, and all
other parts break an invariant. -/
theorem assemble_iff_wellFormed [Written α] (ps : Parts α) :
    ((∃ g, ps.draft.assemble = .ok g) ↔ ps.WellFormed) ∧
    (∀ g, ps.draft.assemble = .ok g → g.nodes.map (fun p => (p.1, p.2.op.literal)) = ps.nodes ∧
      g.edges.map Edge.labelled = ps.edges ∧ g.primary = ps.primary ∧ g.secondary = ps.secondary) ∧
    (¬ ps.WellFormed → ∃ v, ps.draft.assemble = .error (.violation v)) := by
  have hiff : (∃ g, ps.draft.assemble = .ok g) ↔ ps.WellFormed :=
    (Draft.exists_assemble_iff given_draft.ids_nodup).trans accepted_draft_iff
  refine ⟨hiff, fun g h => ?_, fun hps => ?_⟩
  · have hdraft := given_draft.eq_draft h
    have hedges : ps.edges.map LabelledEdge.draft = g.edges.map Edge.draft := congrArg Draft.edges hdraft
    refine ⟨(congrArg Draft.nodes hdraft).symm, ?_, (congrArg Draft.primary hdraft).symm,
      (congrArg Draft.secondary hdraft).symm⟩
    apply List.map_injective_iff.mpr LabelledEdge.draft_injective
    rw [hedges, List.map_map]
    exact List.map_congr_left fun e _ => e.draft_labelled
  · cases h : ps.draft.assemble with
    | ok g => exact absurd (hiff.mp ⟨g, h⟩) hps
    | error f =>
      by_contra hv
      -- a slot with a name has a key, so no edge is of the kind that has none
      obtain ⟨-, -, l₁, e, l₂, -, hsplit, -, hkey⟩ := Draft.assemble_eq_error.mp ⟨h, fun hf =>
        hv (hf.imp fun v hfv => congrArg Except.error hfv)⟩
      have he : e ∈ ps.draft.edges := by simp [hsplit]
      obtain ⟨l, -, rfl⟩ := List.mem_map.mp he
      obtain ⟨k, hk, -⟩ := Slot.key?_ofLabel l.label
      rw [show (Slot.ofLabel l.label).key? = none from hkey] at hk
      cases hk

end Parts

end ScalarGraph
