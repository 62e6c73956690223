import Mathlib.Logic.Function.Iterate
import Mathlib.Logic.Relation
import ScalarGraph.Proofs.Node

/-! # Nets of nodes

Tapes, graphs and programs all say which node stands where, in arena indices,
identifiers and slots. What the nodes mean depends on that alone: their values solve
one equation for each node, and a solution for one net is one for every net
that maps into it. Where operands have lower ranks there always is one.
-/
namespace ScalarGraph
variable {α β ι κ : Type}

/-- Values that depend on those of lower rank only exist. -/
theorem exists_fixed [Nonempty β] (rank : ι → Nat) (step : (ι → β) → ι → β)
    (h : ∀ V W i, (∀ j, rank j < rank i → V j = W j) → step V i = step W i) :
    ∃ V, ∀ i, V i = step V i := by
  obtain ⟨b⟩ := ‹Nonempty β›
  -- the value at `i` does not change any more after `rank i + 1` rounds
  have hstable : ∀ n i, rank i < n →
      Nat.iterate step n (fun _ => b) i = Nat.iterate step (rank i + 1) (fun _ => b) i := by
    intro n
    induction n using Nat.strongRecOn with
    | _ n ih =>
      intro i hi
      obtain ⟨m, rfl⟩ : ∃ m, n = m + 1 := ⟨n - 1, by omega⟩
      rw [Function.iterate_succ_apply', Function.iterate_succ_apply']
      apply h
      intro j hj
      rw [ih m (by omega) j (by omega), ih (rank i) (by omega) j hj]
  refine ⟨fun i => Nat.iterate step (rank i + 1) (fun _ => b) i, fun i => ?_⟩
  dsimp only
  rw [Function.iterate_succ_apply']
  exact h _ _ i fun j hj => hstable (rank i) j hj

/-- Which node stands where. -/
def Net (α ι : Type) := ι → Node α ι → Prop

namespace Net

structure Ranked (N : Net α ι) (rank : ι → Nat) : Prop where
  unique : ∀ {i n m}, N i n → N i m → n = m
  operand_lt : ∀ {i n}, N i n → ∀ c ∈ n.operands, rank c < rank i

/-- Every equation that gives a node's value by those of its operands can be solved. -/
theorem Ranked.exists_solution [Nonempty β] {N : Net α ι} {rank : ι → Nat} (hN : N.Ranked rank)
    (f : ι → Node α ι → Node α β → β) : ∃ V : ι → β, ∀ i n, N i n → V i = f i n (n.map V) := by
  classical
  obtain ⟨b⟩ := ‹Nonempty β›
  have hstep : ∀ (V W : ι → β) (i : ι), (∀ j, rank j < rank i → V j = W j) →
      (if h : ∃ n, N i n then f i h.choose (h.choose.map V) else b) =
        if h : ∃ n, N i n then f i h.choose (h.choose.map W) else b := by
    intro V W i hVW
    by_cases h : ∃ n, N i n
    · simp only [dif_pos h]
      rw [Node.map_congr fun c hc => hVW c (hN.operand_lt h.choose_spec c hc)]
    · simp only [dif_neg h]
  obtain ⟨V, hV⟩ := exists_fixed rank _ hstep
  refine ⟨V, fun i n hn => ?_⟩
  have hex : ∃ n, N i n := ⟨n, hn⟩
  have hchoose : hex.choose = n := hN.unique hex.choose_spec hn
  rw [hV i, dif_pos hex, hchoose]

/-- What a node means follows by `f` from what its operands mean. -/
def Solves (N : Net α ι) (f : Node α β → β) (V : ι → β) : Prop := ∀ i n, N i n → V i = f (n.map V)

theorem Ranked.exists_solves [Nonempty β] {N : Net α ι} {rank : ι → Nat} (hN : N.Ranked rank)
    (f : Node α β → β) : ∃ V, N.Solves f V :=
  hN.exists_solution fun _ _ m => f m

def Evaluates (N : Net α ι) (R : Rules α) (xs : Array α) (V : ι → α) : Prop :=
  ∀ i n, N i n → V i = (n.map V).value R xs

theorem Ranked.exists_evaluates [Nonempty α] {N : Net α ι} {rank : ι → Nat} (hN : N.Ranked rank)
    (R : Rules α) (xs : Array α) : ∃ V, N.Evaluates R xs V :=
  hN.exists_solves (Node.value R xs)

def Maps (g : κ → ι) (M : Net α κ) (N : Net α ι) : Prop := ∀ ⦃i n⦄, M i n → N (g i) (n.map g)

theorem Maps.solves {g : κ → ι} {M : Net α κ} {N : Net α ι} (hg : Maps g M N) {f : Node α β → β}
    {V : ι → β} (hV : N.Solves f V) : M.Solves f (V ∘ g) := by
  intro i n hn
  rw [Function.comp_apply, hV _ _ (hg hn), Node.map_map]

theorem Maps.evaluates {g : κ → ι} {M : Net α κ} {N : Net α ι} (hg : Maps g M N) {R : Rules α}
    {xs : Array α} {V : ι → α} (hV : N.Evaluates R xs V) : M.Evaluates R xs (V ∘ g) :=
  hg.solves (f := Node.value R xs) hV

def Uses (N : Net α ι) (i c : ι) : Prop := ∃ n, N i n ∧ c ∈ n.operands

/-- The value at `r` is computed from that at `i`. -/
def Needs (N : Net α ι) : ι → ι → Prop := Relation.ReflTransGen N.Uses

/-- What nodes hand on to their operands holds of all that a root needs. -/
theorem Needs.handed_down {N : Net α ι} {P : ι → Prop} {r i : ι} (h : N.Needs r i)
    (hstep : ∀ j n, N j n → P j → ∀ c ∈ n.operands, P c) (hr : P r) : P i := by
  induction h with
  | refl => exact hr
  | tail _ huses ih =>
    obtain ⟨n, hn, hc⟩ := huses
    exact hstep _ n hn ih _ hc

theorem Needs.taken_over {N : Net α ι} {P : ι → Prop} {r i : ι} (h : N.Needs r i)
    (hstep : ∀ j n, N j n → ∀ c ∈ n.operands, P c → P j) (hi : P i) : P r := by
  induction h using Relation.ReflTransGen.head_induction_on with
  | refl => exact hi
  | head huses _ ih =>
    obtain ⟨n, hn, hc⟩ := huses
    exact hstep _ n hn _ hc ih

theorem Maps.needs {g : κ → ι} {M : Net α κ} {N : Net α ι} (hg : Maps g M N) {r i : κ}
    (h : M.Needs r i) : N.Needs (g r) (g i) := by
  refine Relation.ReflTransGen.lift g ?_ r i h
  rintro a b ⟨n, hn, hb⟩
  exact ⟨n.map g, hg hn, by simpa using ⟨b, hb, rfl⟩⟩

end Net
end ScalarGraph
