import ScalarGraph.Proofs.Random.Draw
import ScalarGraph.Proofs.Tape.Distance
import ScalarGraph.Proofs.Term.Derivative

/-! # Inputs that are not used

A recipe declares all of its inputs, but an expression depends on those only that operands were drawn
from. Where no operand is drawn from an input, and the primary output sums up other results, nothing
below the primary output is that input.
-/
namespace ScalarGraph

section
variable {α : Type}

theorem Net.mentions_of_needs {ι : Type} {N : Net α ι} {k : Nat} {V : ι → Bool}
    (hV : N.Solves (Node.mentions k) V) {i j : ι} (h : N.Needs i j) (hj : V j = true) : V i = true := by
  refine h.taken_over (P := fun a => V a = true) (fun a n hn c hc hmentions => ?_) hj
  rw [hV a n hn, Node.mentions, Node.operands_map, List.any_map, Bool.or_eq_true]
  exact .inr (List.any_eq_true.mpr ⟨c, hc, hmentions⟩)

namespace Tape
variable [DecidableEq α] [Hashable α] {t u : Tape α} {k i : Nat}

def Avoids (t : Tape α) (k i : Nat) : Prop :=
  ∀ V, t.net.Solves (Node.mentions k) V → V i = false

theorem Avoids.extends (h : t.Avoids k i) (htu : t.Extends u) : u.Avoids k i :=
  fun V hV => h V (htu.solves hV)

theorem avoids_input {j : Nat} {x : α} (hn : t.nodes[i]? = some (.input j x)) (hj : j ≠ k) :
    t.Avoids k i := by
  intro V hV
  rw [hV i _ hn]
  simp [Node.mentions, Node.map, Node.position?, Node.operands, hj]

theorem Avoids.not_net [Written α] (h : t.Avoids k i) (ht : t.Valid)
    (hi : i < t.size) {g : Graph α} (hg : t.Extracts (some i) [] g) {id : Text} {x : α} :
    ¬ g.net id (.input k x) := by
  intro hn
  rw [Graph.net, hg.nodes] at hn
  obtain ⟨j, hj, n, hnode, hp⟩ := mem_named.mp hn
  obtain ⟨-, hmap⟩ := Prod.mk.inj hp
  obtain rfl := Node.eq_input_of_map_eq hmap
  obtain ⟨r, hr, hneeds⟩ := (ht.mem_reachable_iff (by simpa using hi)).mp hj
  obtain rfl : r = i := by simpa using hr
  obtain ⟨V, hV⟩ := ht.ranked.exists_solves (Node.mentions (α := α) k)
  have htrue : V j = true := by
    rw [hV j _ hnode]
    simp [Node.mentions, Node.map, Node.position?]
  have hfalse := h V hV
  rw [Net.mentions_of_needs hV hneeds htrue] at hfalse
  cases hfalse

end Tape
end

namespace Draw
variable {σ : Type} {S : Source σ} {s : σ} {w : Workspace Float} {F : Prop} {r : Recipe}
  {pool : Array Handle} {n k window : Nat}

def picked (S : Source σ) (window m : Nat) (s : σ) : Nat × σ :=
  let u := S.unit s
  if u.1 < 0.75 then
    let d := S.between 1 (min window m + 1) u.2
    (m - d.1, d.2)
  else S.between 0 m u.2

theorem picked_lt (hS : S.KeepsRange) (hwindow : 0 < window) {m : Nat} (hm : 0 < m) :
    (picked S window m s).1 < m := by
  unfold picked
  dsimp only
  split
  · have hd := hS.between 1 (min window m + 1) (S.unit s).2 (by omega)
    dsimp only
    omega
  · exact (hS.between 0 m (S.unit s).2 hm).2

theorem run_entry {β : Type} {xs : Array β} {i : Nat} {x : β} (h : xs[i]? = some x) :
    (entry xs i).run s = pure (x, s) := by
  unfold entry
  rw [h]
  rfl

theorem run_between {low high : Nat} (h : low < high) :
    (between S low high).run s = pure (S.between low high s) := by
  unfold between
  rw [if_neg (Nat.not_le.mpr h)]
  rfl

theorem run_pick (hr : r.window = .whole window) (hwindow : 0 < window) {x : Handle}
    (hx : pool[(picked S window pool.size s).1]? = some x) :
    (pick S r pool).run s = pure (x, (picked S window pool.size s).2) := by
  have hpool : 0 < pool.size := Nat.zero_lt_of_lt (Array.getElem?_eq_some_iff.mp hx).1
  unfold picked at hx ⊢
  unfold pick
  rw [hr, StateT.run_bind]
  show (if (S.unit s).1 < 0.75 then _ else _ : Draw σ Handle).run (S.unit s).2 = _
  dsimp only at hx ⊢
  split at hx
  · next h =>
    rw [if_pos h, if_pos h, StateT.run_bind, distance, run_between (by omega), pure_bind, run_entry hx]
  · next h =>
    rw [if_neg h, if_neg h, StateT.run_bind, run_between hpool, pure_bind, run_entry hx]

/-- The next `n` results, beside `m` earlier ones, are unary operators on others than that at `k`. -/
def Spares (S : Source σ) (r : Recipe) (window k : Nat) : Nat → Nat → σ → Prop
  | 0, _, _ => True
  | n + 1, m, s =>
    (S.unit s).1 < 0.4 ∧ (picked S window m (S.unit s).2).1 ≠ k ∧
      Spares S r window k n (m + 1) (S.position r.unaryOps.length (picked S window m (S.unit s).2).2).2

instance decidableSpares : ∀ n m s, Decidable (Spares S r window k n m s)
  | 0, _, _ => inferInstanceAs (Decidable True)
  | n + 1, m, s =>
    have := decidableSpares n (m + 1)
      (S.position r.unaryOps.length (picked S window m (S.unit s).2).2).2
    inferInstanceAs (Decidable (_ ∧ _ ∧ _))

theorem run_item {β : Type} {xs : List β} {x : β} (h : xs[(S.position xs.length s).1]? = some x) :
    (item S xs).run s = pure (x, (S.position xs.length s).2) := by
  unfold item
  rw [StateT.run_bind, StateT.run_modifyGet, pure_bind, h]
  rfl

theorem run_result_unary (hS : S.KeepsRange) (hkind : (S.unit s).1 < 0.4) {x : Handle} {s' : σ}
    (hx : (pick S r pool).run (S.unit s).2 = pure (x, s')) : ∃ o ∈ r.unaryOps,
      (result S r pool).run s = (do
        let h ← ScalarGraph.construct Binary64.calculus.rules (.unary o (.handle x))
        return (h, (S.position r.unaryOps.length s').2)) := by
  have hlt := hS.position r.unaryOps.length s' (List.length_pos_iff.mpr r.unaryOps_ne_nil)
  refine ⟨r.unaryOps[(S.position r.unaryOps.length s').1], List.getElem_mem hlt, ?_⟩
  unfold result
  rw [StateT.run_bind]
  show (if (S.unit s).1 < 0.4 then _ else _ : Draw σ Handle).run (S.unit s).2 = _
  rw [if_pos hkind, StateT.run_bind, hx, pure_bind, StateT.run_bind, run_item (List.getElem?_eq_getElem hlt),
    pure_bind]
  simp [construct]

/-- Handles of results, of which only that at position `k` may have the input at `k` below it. -/
structure Spared (r : Recipe) (n k : Nat) (pool : Array Handle) (w : Workspace Float) : Prop where
  pooled : Pooled r n pool w
  avoids : ∀ (i : Nat) (h : Handle), pool[i]? = some h → i ≠ k → (w.tape w.active).Avoids k h.index

theorem Inputs.spared (h : Inputs r pool w) (k : Nat) : Spared r pool.size k pool w where
  pooled := h.pooled
  avoids i y hy hi := by
    obtain ⟨x, hx⟩ := h.node i y hy
    exact Tape.avoids_input hx hi

theorem Spared.push (h : Spared r n k pool w) {v : Workspace Float} (hwv : w.Grows v) {y : Handle}
    (hpooled : Pooled r n (pool.push y) v) (hy : (v.tape v.active).Avoids k y.index) :
    Spared r n k (pool.push y) v where
  pooled := hpooled
  avoids i z hz hi := by
    rw [Array.getElem?_push] at hz
    split at hz
    · cases hz
      exact hy
    · rw [hwv.active_eq]
      exact (h.avoids i z hz hi).extends (hwv.tape _)

/-- A constructor on results that have no input at `k` below them gives another one. -/
theorem safe_construct_spared (hw : w.Ready) (hp : Spared r n k pool w)
    {m : Node Float (Operand Float)} (hop : m.op.isTerminal = false) (hspeaks : r.Speaks m.op)
    (hm : ∀ x ∈ m.operands, ∃ i h, pool[i]? = some h ∧ i ≠ k ∧ x = .handle h) :
    (ScalarGraph.construct Binary64.calculus.rules m).Safe w F fun h v =>
      Spared r n k (pool.push h) v ∧ (v.tape v.active).Avoids k h.index := by
  have hearlier : ∀ x ∈ m.operands, Earlier pool x := by
    intro x hx
    obtain ⟨i, h, hi, -, rfl⟩ := hm x hx
    exact earlier_handle (Array.mem_of_getElem? hi)
  have hmeaning := safe_construct_earlier (F := F) hw hp.pooled hop hearlier
    (Node.folds_mentions Binary64.calculus.rules k)
  refine ((safe_construct_pooled hw hp.pooled hop hearlier hspeaks).and hmeaning).imp ?_
  rintro h v - hwv ⟨hpooled, -, -, -, hV⟩
  have havoids : (v.tape v.active).Avoids k h.index := by
    intro V hsolves
    rw [hV V hsolves, Node.mentions, Node.position?_map, Node.position?_of_not_isTerminal hop,
      Node.operands_map, List.any_map, Bool.or_eq_false_iff]
    refine ⟨rfl, List.any_eq_false.mpr fun x hx => ?_⟩
    obtain ⟨i, y, hi, hik, rfl⟩ := hm x hx
    have hy := hp.avoids i y hi hik V ((hwv.tape _).solves (hwv.active_eq ▸ hsolves))
    simp [Operand.meaning, hy]
  exact ⟨hp.push hwv hpooled havoids, havoids⟩

theorem safe_grown_spares (hS : S.KeepsRange) (hr : r.window = .whole window) (hwindow : 0 < window)
    (j : Nat) (hw : w.Ready) (hp : Spared r n k pool w) (hpool : 0 < pool.size) (s : σ)
    (hspares : Spares S r window k j pool.size s) :
    ((grown S r j pool).run s).Safe w F fun c v =>
      Spared r n k c.1 v ∧ c.1.size = pool.size + j := by
  induction j generalizing w pool s with
  | zero => exact Build.safe_pure hw ⟨hp, rfl⟩
  | succ j ih =>
    obtain ⟨hkind, hk, hrest⟩ := hspares
    have hlt := picked_lt (s := (S.unit s).2) hS hwindow hpool
    have hx := Array.getElem?_eq_getElem hlt
    obtain ⟨o, ho, hresult⟩ := run_result_unary hS hkind (run_pick hr hwindow hx)
    have hone : ((result S r pool).run s).Safe w F fun c v => Spared r n k (pool.push c.1) v ∧
        c.2 = (S.position r.unaryOps.length (picked S window pool.size (S.unit s).2).2).2 := by
      rw [hresult]
      refine Build.Safe.bind (safe_construct_spared (m := .unary o (.handle _)) hw hp rfl ho ?_)
        fun h v hv _ hh => Build.safe_pure hv ⟨hh.1, rfl⟩
      intro x hxm
      obtain rfl := List.mem_singleton.mp hxm
      exact ⟨_, _, hx, hk, rfl⟩
    rw [grown, StateT.run_bind]
    refine Build.Safe.bind hone fun c v hv _ ⟨hpush, hstate⟩ => ?_
    rw [← hstate] at hrest
    refine (ih hv hpush (by simp) c.2 (by rwa [Array.size_push])).imp ?_
    rintro c' u - - ⟨hspared, hsize⟩
    refine ⟨hspared, ?_⟩
    rw [hsize, Array.size_push]
    omega

/-- An expression whose draws spare the input at `k`, which is not among the last results, does not
depend on it. -/
theorem safe_expression_spares (hS : S.KeepsRange) (hr : r.window = .whole window) (hwindow : 0 < window)
    (hw : w.Ready) (hp : Pooled r 0 #[] w) (hk : k < r.inputs)
    (htail : k + tailLength < r.inputs + r.operators)
    (hspares : Spares S r window k r.operators r.inputs ((afterInput S)^[r.inputs] s)) :
    ((expression S r).run s).Safe w F fun c v =>
      Pooled r r.inputs #[c.1.1] v ∧ (v.tape v.active).Avoids k c.1.1.index := by
  unfold expression
  rw [StateT.run_bind]
  refine Build.Safe.bind (safe_inputs hw hp r.inputs s) fun c v hv _ ⟨hinputs, hsize, hstate⟩ => ?_
  rw [← hstate, ← hsize] at hspares
  have hspared := hinputs.spared k
  rw [hsize] at hspared
  rw [StateT.run_bind]
  refine Build.Safe.bind (safe_grown_spares hS hr hwindow _ hv hspared (by omega) c.2 hspares)
    fun c' u hu _ ⟨hspared', hsize'⟩ => ?_
  have htail : ∀ x ∈ (c'.1.toList.drop (c'.1.size - tailLength)).map Operand.handle,
      ∃ i h, c'.1[i]? = some h ∧ i ≠ k ∧ x = Operand.handle (α := Float) h := by
    refine List.forall_mem_map.mpr fun h hh => ?_
    obtain ⟨i, hi, rfl⟩ := List.mem_drop_iff_getElem.mp hh
    rw [Array.length_toList] at hi
    exact ⟨_, _, Array.getElem?_eq_getElem (by omega), by omega, rfl⟩
  have hsum := safe_liftM (σ := σ) <|
    safe_construct_spared (F := F) (m := .nary .sum _) hu hspared' rfl r.speaks_sum htail
  refine Safe.bind (d := construct _) (f := fun h => pure (h, c.1.toList))
    (P := fun p v => Pooled r r.inputs #[p.1] v ∧ (v.tape v.active).Avoids k p.1.index) hsum
    (fun h t ht _ hh => safe_pure ht ?_) c'.2
  refine ⟨⟨fun y hy => ?_, hh.1.pooled.operators, hh.1.pooled.declared⟩, hh.2⟩
  obtain rfl : y = h := by simpa using hy
  exact hh.1.pooled.on_active y (by simp)

end Draw
end ScalarGraph
