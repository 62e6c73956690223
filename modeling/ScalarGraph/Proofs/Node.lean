import ScalarGraph.Literal
import ScalarGraph.Proofs.List

/-! # Nodes and their operands

A node is determined by its operator and the list of its operands, so what a map
does to a node is what it does to that list. The literal of an operator passes the
check of its name and of the number of its operands, and gives the operator back.
-/
namespace ScalarGraph
variable {α ι κ μ : Type}

theorem UnaryOp.named?_label (o : UnaryOp) : UnaryOp.named? o.label = some o := by
  cases o <;> decide

theorem BinaryOp.named?_label (o : BinaryOp) : BinaryOp.named? o.label = some o := by
  cases o <;> decide

theorem NaryOp.named?_label (o : NaryOp) : NaryOp.named? o.label = some o := by
  cases o <;> decide

namespace Node

def position? : Node α ι → Option Nat
  | input k _ => some k
  | _ => none

theorem position?_of_not_isTerminal {n : Node α ι} (h : n.op.isTerminal = false) :
    n.position? = none := by
  cases n <;> simp_all [op, Op.isTerminal, position?]

@[simp] theorem op_map (f : ι → κ) (n : Node α ι) : (n.map f).op = n.op := by
  cases n <;> rfl

@[simp] theorem operands_map (f : ι → κ) (n : Node α ι) :
    (n.map f).operands = n.operands.map f := by
  cases n <;> rfl

@[simp] theorem position?_map (f : ι → κ) (n : Node α ι) : (n.map f).position? = n.position? := by
  cases n <;> rfl

theorem map_map (f : ι → κ) (g : κ → μ) (n : Node α ι) : (n.map f).map g = n.map (g ∘ f) := by
  cases n <;> simp [map]

theorem map_congr {f g : ι → κ} {n : Node α ι} (h : ∀ c ∈ n.operands, f c = g c) :
    n.map f = n.map g := by
  cases n <;> simp_all [map, operands]

theorem map_eq_self {f : ι → ι} {n : Node α ι} (h : ∀ c ∈ n.operands, f c = c) : n.map f = n := by
  have hid : n.map id = n := by cases n <;> simp [map]
  exact (map_congr h).trans hid

theorem ext_operands {n m : Node α ι} (ho : n.op = m.op) (hx : n.operands = m.operands) : n = m := by
  cases n <;> cases m <;> simp_all [op, operands]

theorem eq_input_of_position? {n : Node α ι} {k : Nat} (h : n.position? = some k) :
    ∃ s, n = .input k s := by
  cases n <;> simp_all [position?]

theorem position?_congr {n : Node α ι} {m : Node α κ} (h : n.op = m.op) : n.position? = m.position? := by
  cases n <;> cases m <;> simp_all [op, position?]

theorem eq_input_of_map_eq {f : ι → κ} {n : Node α ι} {k : Nat} {s : α}
    (h : n.map f = .input k s) : n = .input k s := by
  cases n <;> cases h
  rfl

theorem operands_of_isTerminal {n : Node α ι} (h : n.op.isTerminal = true) : n.operands = [] := by
  cases n <;> simp_all [op, Op.isTerminal, operands]

theorem mapM_eq {m : Type → Type} [Monad m] [LawfulMonad m] {f : ι → m κ} {g : ι → κ}
    {n : Node α ι} (h : ∀ c ∈ n.operands, f c = pure (g c)) : n.mapM f = pure (n.map g) := by
  cases n with
  | const v => rfl
  | input k s => rfl
  | unary o x => simp [mapM, map, h x (by simp [operands])]
  | binary o x y => simp [mapM, map, h x (by simp [operands]), h y (by simp [operands])]
  | select c t e =>
    simp [mapM, map, h c (by simp [operands]), h t (by simp [operands]), h e (by simp [operands])]
  | nary o xs =>
    have hxs : xs.mapM f = pure (xs.map g) := mapM_list_eq h
    simp [mapM, map, hxs]
  | debug l x => simp [mapM, map, h x (by simp [operands])]

theorem mapM_eq_some {f : ι → Option κ} {g : ι → κ} {n : Node α ι}
    (h : ∀ c ∈ n.operands, f c = some (g c)) : n.mapM f = some (n.map g) := mapM_eq h

theorem mapM_map {m : Type → Type} [Monad m] [LawfulMonad m] (f : ι → κ) (g : κ → m μ)
    (n : Node α ι) : (n.map f).mapM g = n.mapM (g ∘ f) := by
  cases n <;> simp [map, mapM, List.mapM_map, Function.comp_def]

theorem mapM_congr {m : Type → Type} [Monad m] [LawfulMonad m] {f g : ι → m κ} {n : Node α ι}
    (h : ∀ c ∈ n.operands, f c = g c) : n.mapM f = n.mapM g := by
  cases n with
  | nary o xs =>
    have hxs : xs.mapM f = xs.mapM g := mapM_list_congr h
    rw [mapM, mapM, hxs]
  | _ => simp_all [mapM, operands]

@[simp] theorem op_node? (n : Node α ι) : n.op.node? n.operands = some n := by
  cases n <;> rfl

theorem of_node?_eq_some {o : Op α} {xs : List ι} {n : Node α ι} (h : o.node? xs = some n) :
    n.op = o ∧ n.operands = xs := by
  unfold Op.node? at h
  split at h <;> cases h <;> exact ⟨rfl, rfl⟩

/-- What a map makes of a node is what it makes of the list of its operands. -/
theorem some_mapM {m : Type → Type} [Monad m] [LawfulMonad m] (f : ι → m κ) (n : Node α ι) :
    some <$> n.mapM f = n.op.node? <$> n.operands.mapM f := by
  cases n with
  | nary o xs =>
    have hnode : (Op.nary (α := α) o).node? = fun ys : List κ => some (nary o ys) := rfl
    simp [mapM, op, operands, hnode]
  | _ => simp [mapM, op, operands, Op.node?]

theorem of_mapM_eq_some {f : ι → Option κ} {n : Node α ι} {m : Node α κ} (h : n.mapM f = some m) :
    m.op = n.op ∧ n.operands.map f = m.operands.map some := by
  have hnode := some_mapM f n
  rw [h] at hnode
  obtain ⟨xs, hxs, hm⟩ := Option.map_eq_some_iff.mp hnode.symm
  obtain ⟨hop, rfl⟩ := of_node?_eq_some hm
  exact ⟨hop, of_list_mapM_eq_some hxs⟩

/-- What is found for a node means the same as the node, where this is so for every operand. -/
theorem map_eq_of_mapM_eq_some {f : ι → Option κ} {g : ι → μ} {h : κ → μ} {n : Node α ι}
    {m : Node α κ} (hm : n.mapM f = some m) (hg : ∀ c ∈ n.operands, ∀ x, f c = some x → g c = h x) :
    n.map g = m.map h := by
  obtain ⟨hop, hoperands⟩ := of_mapM_eq_some hm
  refine ext_operands (by rw [op_map, op_map, hop]) ?_
  rw [operands_map, operands_map]
  refine List.map_injective_iff.mpr (fun _ _ => Option.some.inj) ?_
  have hsome : ∀ c ∈ n.operands, some (g c) = (f c).map h := by
    intro c hc
    obtain ⟨x, -, hx⟩ : ∃ x ∈ m.operands, some x = f c := by
      simpa [hoperands] using List.mem_map_of_mem (f := f) hc
    rw [← hx, hg c hc x hx.symm, Option.map_some]
  calc (n.operands.map g).map some = (n.operands.map f).map (Option.map h) := by
        rw [List.map_map, List.map_map]
        exact List.map_congr_left hsome
    _ = (m.operands.map h).map some := by
        rw [hoperands, List.map_map, List.map_map]
        rfl

theorem of_mapM_eq_ok {ε : Type} {f : ι → Except ε κ} {n : Node α ι} {m : Node α κ}
    (h : n.mapM f = .ok m) : m.op = n.op ∧ ∀ c ∈ m.operands, ∃ x ∈ n.operands, f x = .ok c := by
  have hnode := some_mapM f n
  rw [h] at hnode
  cases hxs : n.operands.mapM f with
  | error e =>
    rw [hxs] at hnode
    cases hnode
  | ok xs =>
    rw [hxs] at hnode
    obtain ⟨hop, rfl⟩ := of_node?_eq_some (Except.ok.inj hnode).symm
    exact ⟨hop, of_list_mapM_eq_ok hxs⟩

end Node

@[simp] theorem Op.literal_op? (o : Op α) : o.literal.op? = .ok o := by
  cases o <;>
    simp [Op.literal, Literal.op?, UnaryOp.named?_label, BinaryOp.named?_label, NaryOp.named?_label]

@[simp] theorem Op.literal_arity? (o : Op α) : o.literal.arity? = o.arity? := by
  cases o <;> rfl

@[simp] theorem Op.literal_roles (o : Op α) (n : Nat) : o.literal.roles n = o.roles n := by
  simp [Literal.roles, Op.roles]

theorem Node.literal_node? [Written α] (n : Node α ι) : n.op.literal.node? n.operands = .ok n := by
  simp [Literal.node?, bind, Except.bind, pure, Except.pure]

end ScalarGraph
