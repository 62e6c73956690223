import ScalarGraph.Program
import ScalarGraph.Proofs.Graph.Assembly
import ScalarGraph.Proofs.Net

/-! # What compiling gives

The program of a well-formed graph has one instruction for every identifier of its
order, whose operands are earlier slots. Reading slots as the identifiers at their
places takes the instructions to the nodes of the graph.
-/
namespace ScalarGraph
variable {α : Type}

def Graph.net (g : Graph α) : Net α Text := fun id n => (id, n) ∈ g.nodes

namespace Program

def net (p : Program α) : Net α Nat := fun s n => p.code[s]? = some n

def name (p : Program α) (s : Nat) : Text := p.ids.getD s []

/-- Operands stand at earlier slots. -/
def Topological (p : Program α) : Prop := ∀ ⦃s n⦄, p.net s n → ∀ c ∈ n.operands, c < s

theorem net_lt_size {p : Program α} {s : Nat} {n : Node α Nat} (h : p.net s n) : s < p.code.size :=
  (Array.getElem?_eq_some_iff.mp h).1

end Program

namespace Graph

def slot (g : Graph α) (id : Text) : Nat := g.order.idxOf id

theorem getElem?_slot {g : Graph α} {id : Text} (h : id ∈ g.order) : g.order[g.slot id]? = some id :=
  List.getElem?_eq_some_iff.mpr ⟨List.idxOf_lt_length_of_mem h, List.getElem_idxOf _⟩

end Graph

structure Program.Compiles (p : Program α) (g : Graph α) : Prop where
  ids : p.ids = g.order
  size : p.code.size = g.order.length
  topological : p.Topological
  maps : Net.Maps p.name p.net g.net
  slots : Net.Maps g.slot g.net p.net
  primary : p.primary = g.primary.map g.slot
  secondary : p.secondary = g.secondary.map g.slot
  numInputs : p.numInputs = g.numInputs

namespace Graph

theorem getElem?_ofList_nodes {g : Graph α} (hids : g.ids.Nodup) {id : Text} {n : Node α Text}
    (h : g.net id n) :
    (Std.HashMap.ofList g.nodes : Std.HashMap Text (Node α Text))[id]? = some n := by
  have hkeys : g.nodes.Pairwise fun a b => (a.1 == b.1) = false := by
    rw [ids, List.Nodup, List.pairwise_map] at hids
    exact hids.imp fun h => by simpa using h
  exact Std.HashMap.getElem?_ofList_of_mem BEq.rfl hkeys h

theorem getElem?_ofList_nodes_of_notMem {g : Graph α} {id : Text} (h : id ∉ g.ids) :
    (Std.HashMap.ofList g.nodes : Std.HashMap Text (Node α Text))[id]? = none :=
  Std.HashMap.getElem?_ofList_of_contains_eq_false (by simpa [ids] using h)

theorem net_of_getElem?_ofList_nodes {g : Graph α} {id : Text} {n : Node α Text}
    (h : (Std.HashMap.ofList g.nodes : Std.HashMap Text (Node α Text))[id]? = some n) : g.net id n := by
  rw [Std.HashMap.ofList_eq_insertMany_empty, Std.HashMap.getElem?_insertMany_list,
    Std.HashMap.getElem?_empty, Option.or_none, List.findSomeRev?_eq_findSome?_reverse] at h
  obtain ⟨⟨id', m⟩, hm, hsame⟩ := List.exists_of_findSome?_eq_some h
  dsimp only at hsame
  split at hsame
  · next he =>
    cases hsame
    rw [← eq_of_beq he]
    exact List.mem_reverse.mp hm
  · cases hsame

namespace WellFormed
variable {g : Graph α} (hg : g.WellFormed)
include hg

theorem order_nodup : g.order.Nodup := hg.order_perm.nodup_iff.mpr hg.ids_nodup

theorem exists_node {id : Text} (h : id ∈ g.order) : ∃ n, g.net id n := by
  obtain ⟨p, hp, rfl⟩ := List.mem_map.mp (hg.order_perm.mem_iff.mp h)
  exact ⟨p.2, hp⟩

theorem mem_order {id : Text} {n : Node α Text} (h : g.net id n) : id ∈ g.order :=
  hg.order_perm.mem_iff.mpr (List.mem_map_of_mem h)

theorem operand_before {s : Nat} {id : Text} {n : Node α Text} (hs : g.order[s]? = some id)
    (hn : g.net id n) : ∀ c ∈ n.operands, c ∈ g.order.take s := by
  obtain ⟨hlt, rfl⟩ := List.getElem?_eq_some_iff.mp hs
  have hsplit : g.order = g.order.take s ++ g.order[s] :: g.order.drop (s + 1) := by simp
  exact hg.operands_before _ _ _ hsplit n hn

theorem slot_lt {s : Nat} {id c : Text} {n : Node α Text} (hs : g.order[s]? = some id)
    (hn : g.net id n) (hc : c ∈ n.operands) : g.slot c < s := by
  have hmem := hg.operand_before hs hn c hc
  have hlt := List.idxOf_lt_length_of_mem hmem
  have hidx : g.slot c = (g.order.take s).idxOf c := by
    unfold slot
    conv_lhs => rw [← List.take_append_drop s g.order]
    exact List.idxOf_append_of_mem hmem
  rw [hidx]
  exact Nat.lt_of_lt_of_le hlt (List.length_take_le _ _)

theorem getElem?_slots {id : Text} (h : id ∈ g.order) :
    (Std.HashMap.ofList g.order.zipIdx : Std.HashMap Text Nat)[id]? = some (g.slot id) := by
  have hkeys : g.order.zipIdx.Pairwise fun a b => (a.1 == b.1) = false := by
    have hnodup := hg.order_nodup
    rw [← List.zipIdx_map_fst 0 g.order, List.Nodup, List.pairwise_map] at hnodup
    exact hnodup.imp fun h => by simpa using h
  refine Std.HashMap.getElem?_ofList_of_mem BEq.rfl hkeys ?_
  rw [List.mem_zipIdx_iff_getElem?]
  exact List.getElem?_eq_some_iff.mpr ⟨List.idxOf_lt_length_of_mem h, List.getElem_idxOf _⟩

theorem getElem?_nodes {id : Text} {n : Node α Text} (h : g.net id n) :
    (Std.HashMap.ofList g.nodes : Std.HashMap Text (Node α Text))[id]? = some n :=
  getElem?_ofList_nodes hg.ids_nodup h

theorem slot_of_getElem? {s : Nat} {id : Text} (h : g.order[s]? = some id) : g.slot id = s := by
  obtain ⟨hlt, rfl⟩ := List.getElem?_eq_some_iff.mp h
  exact hg.order_nodup.idxOf_getElem s hlt

theorem ranked : g.net.Ranked g.slot where
  unique hn hm := Option.some.inj ((hg.getElem?_nodes hn).symm.trans (hg.getElem?_nodes hm))
  operand_lt hn := fun _ hc => hg.slot_lt (getElem?_slot (hg.mem_order hn)) hn hc

theorem exists_operand {id : Text} {n : Node α Text} (hn : g.net id n) :
    ∀ c ∈ n.operands, ∃ m, g.net c m := fun _ hc =>
  hg.exists_node (List.mem_of_mem_take (hg.operand_before (getElem?_slot (hg.mem_order hn)) hn _ hc))

/-- A program has the structure of the graph whose nodes, with slots for identifiers, are its code. -/
theorem compiles {p : Program α} (hids : p.ids = g.order) (hsize : p.code.size = g.order.length)
    (hcode : ∀ s n, p.net s n → ∃ id m, g.order[s]? = some id ∧ g.net id m ∧ n = m.map g.slot)
    (hprimary : p.primary = g.primary.map g.slot) (hsecondary : p.secondary = g.secondary.map g.slot)
    (hnum : p.numInputs = g.numInputs) : p.Compiles g := by
  refine ⟨hids, hsize, fun s n hn c hc => ?_, fun s n hn => ?_, fun id m hm => ?_, hprimary,
    hsecondary, hnum⟩
  · obtain ⟨id, m, hs, hm, rfl⟩ := hcode s n hn
    rw [Node.operands_map] at hc
    obtain ⟨x, hx, rfl⟩ := List.mem_map.mp hc
    exact hg.slot_lt hs hm hx
  · obtain ⟨id, m, hs, hm, rfl⟩ := hcode s n hn
    have hname : ∀ {s id}, g.order[s]? = some id → p.name s = id := fun hs => by
      rw [Program.name, hids, List.getD_eq_getElem?_getD, hs, Option.getD_some]
    have hback : (m.map g.slot).map p.name = m := by
      rw [Node.map_map]
      refine Node.map_eq_self fun c hc => ?_
      exact hname (getElem?_slot (List.mem_of_mem_take (hg.operand_before hs hm c hc)))
    rw [hname hs, hback]
    exact hm
  · have hid := getElem?_slot (hg.mem_order hm)
    have hlt : g.slot id < p.code.size := by
      rw [hsize]
      exact (List.getElem?_eq_some_iff.mp hid).1
    have hn : p.net (g.slot id) p.code[g.slot id] := Array.getElem?_eq_getElem hlt
    obtain ⟨id', m', hid', hm', hcode⟩ := hcode _ _ hn
    cases Option.some.inj (hid.symm.trans hid')
    rw [hcode, hg.ranked.unique hm' hm] at hn
    exact hn

/-- A well-formed graph compiles. -/
theorem exists_compile (settings : Settings) :
    ∃ p, g.compile? settings = some p ∧ p.Compiles g ∧ p.settings = settings := by
  have hinstruction : ∀ id ∈ g.order, ∃ n,
      ((Std.HashMap.ofList g.nodes : Std.HashMap Text (Node α Text))[id]? >>= fun n => n.mapM
        fun c => (Std.HashMap.ofList g.order.zipIdx : Std.HashMap Text Nat)[c]?) = some n ∧
      ∃ m, g.net id m ∧ n = m.map g.slot := by
    intro id hid
    obtain ⟨m, hm⟩ := hg.exists_node hid
    obtain ⟨s, hs⟩ := List.mem_iff_getElem?.mp hid
    refine ⟨m.map g.slot, ?_, m, hm, rfl⟩
    rw [hg.getElem?_nodes hm]
    exact Node.mapM_eq_some fun c hc =>
      hg.getElem?_slots (List.mem_of_mem_take (hg.operand_before hs hm c hc))
  obtain ⟨code, hcode⟩ := exists_list_mapM fun id hid => (hinstruction id hid).imp fun n h => h.1
  have hmap := of_list_mapM_eq_some hcode
  have hprimary : g.primary.mapM (fun id =>
      (Std.HashMap.ofList g.order.zipIdx : Std.HashMap Text Nat)[id]?) =
        some (g.primary.map g.slot) := by
    cases hp : g.primary with
    | none => rfl
    | some r => simp [hg.getElem?_slots (hg.primary_mem r hp)]
  have hsecondary : g.secondary.mapM (fun id =>
      (Std.HashMap.ofList g.order.zipIdx : Std.HashMap Text Nat)[id]?) =
        some (g.secondary.map g.slot) :=
    mapM_list_eq fun id hid => hg.getElem?_slots (hg.secondary_mem id hid)
  refine ⟨{ code := code.toArray, ids := g.order, primary := g.primary.map g.slot,
            secondary := g.secondary.map g.slot, numInputs := g.numInputs, settings }, ?_, ?_, rfl⟩
  · simp only [compile?, hcode, hprimary, hsecondary]
    rfl
  · have hlength : g.order.length = code.length := by simpa using congrArg List.length hmap
    refine hg.compiles rfl (by simp [hlength]) (fun s n hn => ?_) rfl rfl rfl
    have hs : code[s]? = some n := by simpa [Program.net] using hn
    have hfound := congrArg (fun l => l[s]?) hmap
    simp only [List.getElem?_map, hs, Option.map_some] at hfound
    obtain ⟨id, hid, hn⟩ := Option.map_eq_some_iff.mp hfound
    obtain ⟨n', hn', m, hm, rfl⟩ := hinstruction id (List.mem_of_getElem? hid)
    exact ⟨id, m, hid, hm, Option.some.inj (hn.symm.trans hn')⟩

end WellFormed
end Graph

namespace Program.Compiles
variable {p : Program α} {g : Graph α} (h : p.Compiles g)
include h

theorem name_eq {s : Nat} {id : Text} (hs : g.order[s]? = some id) : p.name s = id := by
  rw [name, h.ids, List.getD_eq_getElem?_getD, hs, Option.getD_some]

theorem name_slot {id : Text} (hid : id ∈ g.order) : p.name (g.slot id) = id :=
  h.name_eq (Graph.getElem?_slot hid)

theorem slot_lt {id : Text} (hid : id ∈ g.order) : g.slot id < p.code.size := by
  rw [h.size]
  exact List.idxOf_lt_length_of_mem hid

theorem primary_lt (hg : g.WellFormed) : ∀ i ∈ p.primary, i < p.code.size := by
  intro i hi
  rw [h.primary] at hi
  obtain ⟨id, hid, rfl⟩ := Option.map_eq_some_iff.mp hi
  exact h.slot_lt (hg.primary_mem id hid)

theorem secondary_lt (hg : g.WellFormed) : ∀ s ∈ p.secondary, s < p.code.size := by
  intro s hs
  rw [h.secondary] at hs
  obtain ⟨id, hid, rfl⟩ := List.mem_map.mp hs
  exact h.slot_lt (hg.secondary_mem id hid)

theorem map_name_primary (hg : g.WellFormed) : p.primary.map p.name = g.primary := by
  rw [h.primary, Option.map_map]
  exact (Option.map_congr fun id hid => h.name_slot (hg.primary_mem id hid)).trans Option.map_id'

theorem map_name_secondary (hg : g.WellFormed) :
    p.secondary.map p.name = g.secondary := by
  rw [h.secondary, List.map_map]
  exact (List.map_congr_left fun id hid => h.name_slot (hg.secondary_mem id hid)).trans (List.map_id' _)

theorem slot_name (hg : g.WellFormed) {s : Nat} (hs : s < p.code.size) : g.slot (p.name s) = s := by
  rw [h.size] at hs
  have hid := List.getElem?_eq_getElem hs
  rw [h.name_eq hid, hg.slot_of_getElem? hid]

end Program.Compiles
end ScalarGraph
