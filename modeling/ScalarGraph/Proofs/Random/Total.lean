import ScalarGraph.Proofs.Random.Draw
import ScalarGraph.Proofs.Session.Folding

/-! # Random expressions are total

From a source that keeps to its ranges an expression is drawn on an empty tape without any fault. What
carries this is that every result depends on an input: so no constructor folds, and the primary
output is the sum that was asked for, above some input. Smooth expressions consist of smooth operators.
-/
namespace ScalarGraph

section
variable {α : Type}

namespace Node

def liveOp (n : Node α (Option (Op α))) : Option (Op α) :=
  if n.position?.isSome || n.operands.any Option.isSome then some n.op else none

theorem folds_liveOp (R : Rules α) : R.Folds liveOp := by
  intro n hn
  have hconst : ∀ x : α, liveOp (const x) = none := fun _ => rfl
  rw [hconst, liveOp, position?_map, position?_of_not_isTerminal hn, operands_map]
  simp [hconst]

theorem isSome_liveOp (n : Node α (Option (Op α))) :
    n.liveOp.isSome = (n.position?.isSome || n.operands.any Option.isSome) := by
  unfold liveOp
  split
  · next h => exact h.symm
  · next h => exact (Bool.eq_false_iff.mpr h).symm

theorem op_eq_of_liveOp {n : Node α (Option (Op α))} {o : Op α} (h : n.liveOp = some o) : n.op = o := by
  unfold liveOp at h
  split at h
  · exact Option.some.inj h
  · cases h

end Node

namespace Tape
variable [DecidableEq α] [Hashable α] {t u : Tape α} {i : Nat} {V : Nat → Option (Op α)}

theorem NeedsInput.extends (h : t.NeedsInput i) (htu : t.Extends u) : u.NeedsInput i := by
  obtain ⟨k, j, s, hj, hneeds⟩ := h
  have huses : ∀ a b, t.net.Uses a b → u.net.Uses a b := fun _ _ ⟨n, hn, hc⟩ =>
    ⟨n, htu.getElem? hn, hc⟩
  exact ⟨k, j, s, htu.getElem? hj, Relation.ReflTransGen.mono huses _ _ hneeds⟩

theorem NeedsInput.isSome (h : t.NeedsInput i) (hV : t.net.Solves Node.liveOp V) : (V i).isSome := by
  obtain ⟨k, j, s, hj, hneeds⟩ := h
  refine hneeds.taken_over (P := fun a => (V a).isSome) (fun a n hn c hc hlive => ?_) ?_
  · rw [hV a n hn, Node.isSome_liveOp, Node.operands_map, List.any_map, Bool.or_eq_true]
    exact .inr (List.any_eq_true.mpr ⟨c, hc, hlive⟩)
  · rw [hV j _ hj]
    rfl

/-- What is live needs an input, by induction along the operands. -/
theorem Valid.needsInput_of_isSome (ht : t.Valid) (hV : t.net.Solves Node.liveOp V) (hi : i < t.size)
    (h : (V i).isSome) : t.NeedsInput i := by
  induction i using Nat.strongRecOn with
  | _ i ih =>
    obtain ⟨n, hn⟩ := exists_node hi
    rw [hV i n hn, Node.isSome_liveOp, Node.position?_map, Node.operands_map, List.any_map,
      Bool.or_eq_true] at h
    rcases h with hposition | hbelow
    · obtain ⟨k, hk⟩ := Option.isSome_iff_exists.mp hposition
      obtain ⟨s, rfl⟩ := Node.eq_input_of_position? hk
      exact ⟨k, i, s, hn, .refl⟩
    · obtain ⟨c, hc, hlive⟩ := List.any_eq_true.mp hbelow
      have hlt := ht.operand_lt hn c hc
      exact needsInput_of_operand hn hc (ih c hlt (Nat.lt_trans hlt hi) hlive)

end Tape

/-- Inputs, constants, and the operators that are differentiable everywhere and bounded enough. -/
def Op.IsSmooth : Op α → Prop
  | .const _ | .input _ _ => True
  | .unary o => o ∈ [UnaryOp.neg, .sin, .cos, .tanh, .atan, .asinh]
  | .binary o => o ∈ [BinaryOp.add, .sub, .mul]
  | .nary o => o = .sum
  | .select | .debug _ => False

end

theorem Recipe.Speaks.isSmooth {r : Recipe} (hr : r.smooth = true) {o : Op Float} (h : r.Speaks o) :
    o.IsSmooth := by
  cases o with
  | const x => exact h.elim
  | input k s => exact h.elim
  | unary o =>
    have hops : r.unaryOps = [.neg, .sin, .cos, .tanh, .atan, .asinh] := if_pos hr
    show o ∈ [UnaryOp.neg, .sin, .cos, .tanh, .atan, .asinh]
    rwa [← hops]
  | binary o =>
    have hops : r.binaryOps = [.add, .sub, .mul] := if_pos hr
    show o ∈ [BinaryOp.add, .sub, .mul]
    rwa [← hops]
  | nary o =>
    have hops : r.naryOps = [.sum] := if_pos hr
    exact List.mem_singleton.mp (hops ▸ h)
  | select => exact Bool.noConfusion (hr.symm.trans h)
  | debug l => exact Bool.noConfusion (hr.symm.trans h.1)

namespace Draw
variable {σ : Type} {S : Source σ} {w : Workspace Float} {F : Prop} {r : Recipe} {n : Nat}
  {pool : Array Handle}

/-- Handles of results, each of which needs an input. -/
structure Living (r : Recipe) (n : Nat) (pool : Array Handle) (w : Workspace Float) : Prop where
  pooled : Pooled r n pool w
  needsInput : ∀ h ∈ pool, (w.tape w.active).NeedsInput h.index

theorem Living.constant?_eq_none (h : Living r n pool w) {y : Handle} (hy : y ∈ pool) :
    (w.tape w.active).constant? y.index = none := by
  cases hc : (w.tape w.active).constant? y.index with
  | none => rfl
  | some x => exact absurd (h.needsInput y hy) (Tape.not_needsInput_of_constant (Tape.node_of_constant? hc))

theorem Inputs.living (h : Inputs r pool w) : Living r pool.size pool w where
  pooled := h.pooled
  needsInput y hy := by
    obtain ⟨i, hi⟩ := Array.mem_iff_getElem?.mp hy
    obtain ⟨x, hx⟩ := h.node i y hi
    exact ⟨i, y.index, x, hx, .refl⟩

theorem Living.push (h : Living r n pool w) {v : Workspace Float} (hwv : w.Grows v) {y : Handle}
    (hpooled : Pooled r n (pool.push y) v) (hy : (v.tape v.active).NeedsInput y.index) :
    Living r n (pool.push y) v where
  pooled := hpooled
  needsInput z hz := by
    rcases Array.mem_push.mp hz with hz | rfl
    · rw [hwv.active_eq]
      exact (h.needsInput z hz).extends (hwv.tape _)
    · exact hy

/-- A constructor with an earlier result as an operand does not fold: it gives a node with its own operator,
which needs an input again. -/
theorem safe_construct_living (hw : w.Ready) (hp : Living r n pool w) {m : Node Float (Operand Float)}
    (hop : m.op.isTerminal = false) (hspeaks : r.Speaks m.op) (hm : ∀ x ∈ m.operands, Earlier pool x)
    (hhandle : ∃ h, .handle h ∈ m.operands) :
    (construct (σ := σ) m).Safe w F fun h v => Living r n (pool.push h) v ∧
      ∃ k, (v.tape v.active).nodes[h.index]? = some k ∧ k.op = m.op := by
  have hmeaning := safe_construct_earlier (F := F) hw hp.pooled hop hm
    (Node.folds_liveOp Binary64.calculus.rules)
  refine safe_liftM (((safe_construct_pooled hw hp.pooled hop hm hspeaks).and hmeaning).imp ?_)
  rintro h v hv hwv ⟨hpooled, -, hactive, -, hV⟩
  have hvalid := hv.valid v.active
  obtain ⟨V, hsolves⟩ := hvalid.ranked.exists_solves Node.liveOp
  -- the operand needs an input, so the operator is not folded
  have hlive : V h.index = some m.op := by
    rw [hV V hsolves]
    obtain ⟨y, hy⟩ := hhandle
    have hpool : y ∈ pool := by
      rcases hm _ hy with ⟨z, hz, heq⟩ | ⟨a, heq⟩
      · cases heq
        exact hz
      · cases heq
    have hneeds : (v.tape v.active).NeedsInput y.index := by
      rw [hwv.active_eq]
      exact (hp.needsInput y hpool).extends (hwv.tape _)
    have hany : (m.map (Operand.meaning Node.liveOp V)).operands.any Option.isSome = true := by
      rw [Node.operands_map, List.any_map]
      exact List.any_eq_true.mpr ⟨_, hy, hneeds.isSome hsolves⟩
    rw [Node.liveOp, hany, Bool.or_true, if_pos rfl, Node.op_map]
  obtain ⟨-, hindex⟩ := hpooled.on_active h (Array.mem_push_self ..)
  have hneeds := hvalid.needsInput_of_isSome hsolves hindex (by rw [hlive, Option.isSome_some])
  obtain ⟨k, hk⟩ := Tape.exists_node hindex
  refine ⟨hp.push hwv hpooled hneeds, k, hk, ?_⟩
  rw [hsolves _ k hk] at hlive
  rw [← Node.op_eq_of_liveOp hlive, Node.op_map]

theorem safe_result_living (hr : Regular S r) (hw : w.Ready) (hp : Living r n pool w)
    (hpool : 0 < pool.size) :
    (result S r pool).Safe w F fun h v => Living r n (pool.push h) v :=
  safe_result_of hw (.inl ⟨hr, hpool⟩) fun _ hop hspeaks hm hhandle s =>
    (safe_construct_living hw hp hop hspeaks hm (hhandle hr.keeps_range) s).imp fun _ _ _ _ h => h.1

theorem safe_grown_living (hr : Regular S r) (k : Nat) (hw : w.Ready) (hp : Living r n pool w)
    (hpool : 0 < pool.size) :
    (grown S r k pool).Safe w F fun pool' v => Living r n pool' v ∧ pool'.size = pool.size + k := by
  induction k generalizing w pool with
  | zero => exact safe_pure hw ⟨hp, rfl⟩
  | succ k ih =>
    refine Safe.bind (safe_result_living hr hw hp hpool) fun h v hv _ hpush => ?_
    intro s
    refine (ih hv hpush (by simp) s).imp ?_
    rintro c u - - ⟨hliving, hsize⟩
    refine ⟨hliving, ?_⟩
    rw [hsize, Array.size_push]
    omega

theorem safe_inputs_living (hw : w.Ready) (hp : Pooled r 0 #[] w) :
    (inputs S r.inputs).Safe w F fun pool v => Living r r.inputs pool v ∧ pool.size = r.inputs := fun s =>
  (safe_inputs hw hp r.inputs s).imp fun _ _ _ _ ⟨hpool, hsize, _⟩ => ⟨hsize ▸ hpool.living, hsize⟩

theorem safe_results_living (hr : Regular S r) (hinputs : 0 < r.inputs) (hw : w.Ready)
    (hp : Pooled r 0 #[] w) (m : Nat) :
    (inputs S r.inputs >>= grown S r m).Safe w F fun pool v =>
      Living r r.inputs pool v ∧ pool.size = r.inputs + m := by
  refine Safe.bind (safe_inputs_living hw hp) fun pool v hv _ ⟨hpool, hsize⟩ => ?_
  have hgrown := safe_grown_living (F := F) hr m hv hpool (hsize ▸ hinputs)
  rwa [hsize] at hgrown

/-- The primary output is a sum of the last results, above some input. -/
theorem safe_expression_living (hr : Regular S r) (hinputs : 0 < r.inputs) (hw : w.Ready)
    (hp : Pooled r 0 #[] w) : (expression S r).Safe w F fun c v => c.1.tape = v.active ∧
      (v.tape v.active).OperatorsIn r.Speaks ∧ (v.tape v.active).NeedsInput c.1.index ∧
        ∃ xs, (v.tape v.active).nodes[c.1.index]? = some (.nary .sum xs) := by
  unfold expression
  refine Safe.bind (safe_inputs_living hw hp) fun inputs v hv _ ⟨hpool, hsize⟩ => ?_
  refine Safe.bind (safe_grown_living hr r.operators hv hpool (hsize ▸ hinputs))
    fun pool u hu _ ⟨hpool', hsize'⟩ => ?_
  have htail : ∀ h ∈ pool.toList.drop (pool.size - tailLength), h ∈ pool := fun h hh =>
    Array.mem_toList_iff.mp (List.mem_of_mem_drop hh)
  have hlast : ∃ h, .handle h ∈
      ((pool.toList.drop (pool.size - tailLength)).map .handle : List (Operand Float)) := by
    have hlt : 0 < (pool.toList.drop (pool.size - tailLength)).length := by
      rw [List.length_drop, Array.length_toList, tailLength]
      omega
    exact ⟨_, List.mem_map_of_mem (List.getElem_mem hlt)⟩
  refine Safe.bind (safe_construct_living hu hpool' rfl r.speaks_sum
    (List.forall_mem_map.mpr fun h hh => earlier_handle (htail h hh)) hlast) ?_
  rintro h t ht - ⟨hpush, k, hk, hop⟩
  have hmem : h ∈ pool.push h := Array.mem_push_self ..
  refine safe_pure ht ⟨(hpush.pooled.on_active h hmem).1, hpush.pooled.operators,
    hpush.needsInput h hmem, ?_⟩
  cases k with
  | nary o xs =>
    cases hop
    exact ⟨xs, hk⟩
  | _ => cases hop

/-- On an empty tape an expression with some inputs is drawn without a fault, from every state of every
source that keeps to its ranges. Operands are drawn from within the results, none of which ever is a
constant, and the primary output is a sum that depends on an input. Where the recipe is for smooth
expressions, all it depends on is smooth. -/
theorem expression_total (hr : Regular S r) (hinputs : 0 < r.inputs) (hw : w.Ready)
    (hempty : w.tape w.active = Tape.empty) (s : σ) :
    (∀ (u : Workspace Float) (n : Nat) (s : σ), u.Ready → 0 < n → ∃ d s',
      ((distance S r.window n).run s).run u = (.ok (d, s'), u) ∧ 1 ≤ d ∧ d ≤ n) ∧
    (∀ m, ∃ pool s' v, ((inputs S r.inputs >>= grown S r m).run s).run w = (.ok (pool, s'), v) ∧
      pool.size = r.inputs + m ∧ ∀ h ∈ pool, h.tape = w.active ∧
        h.index < (v.tape w.active).size ∧ (v.tape w.active).constant? h.index = none) ∧
    ∃ h inputs s' v xs, ((expression S r).run s).run w = (.ok ((h, inputs), s'), v) ∧
      h.tape = w.active ∧ (v.tape w.active).nodes[h.index]? = some (.nary .sum xs) ∧
      (v.tape w.active).NeedsInput h.index ∧
      (r.smooth = true → ∀ j n, (v.tape w.active).net.Needs h.index j → (v.tape w.active).net j n →
        n.op.IsSmooth) := by
  have hp : Pooled r 0 #[] w := pooled_empty hempty
  refine ⟨fun u n s hu hn => ?_, fun m => ?_, ?_⟩
  · obtain ⟨⟨d, s'⟩, v, hrun, -, -, rfl, hd⟩ :=
      (asks_distance (F := False) hu (.inl ⟨hr, hn⟩) s).exists_run
    exact ⟨d, s', hrun, hd.resolve_right id⟩
  · obtain ⟨⟨pool, s'⟩, v, hrun, -, hwv, hpool, hsize⟩ :=
      (safe_results_living (F := False) hr hinputs hw hp m s).exists_run
    refine ⟨pool, s', v, hrun, hsize, fun h hh => ?_⟩
    rw [← hwv.active_eq]
    obtain ⟨htape, hindex⟩ := hpool.pooled.on_active h hh
    exact ⟨htape, hindex, hpool.constant?_eq_none hh⟩
  · obtain ⟨⟨⟨h, inputs⟩, s'⟩, v, hrun, -, hwv, htape, hoperators, hneeds, xs, hnode⟩ :=
      (safe_expression_living (F := False) hr hinputs hw hp s).exists_run
    refine ⟨h, inputs, s', v, xs, hrun, ?_⟩
    rw [← hwv.active_eq]
    refine ⟨htape, hnode, hneeds, fun hsmooth j n _ hn => ?_⟩
    cases hop : n.op.isTerminal with
    | false => exact (hoperators j n hn hop).isSmooth hsmooth
    | true =>
      cases n with
      | const x => trivial
      | input k x => trivial
      | _ => cases hop

/-- A smooth expression of the default size, and the results before its last ten operators. -/
theorem expression_total_smooth : Regular Mixing.source { smooth := true } ∧
    (∃ pool s' v, ((inputs Mixing.source 4 >>= grown Mixing.source { smooth := true } 40).run
      (Mixing.seeded 1)).run {} = (.ok (pool, s'), v) ∧ pool.size = 44 ∧
        ∀ h ∈ pool, (v.tape 0).constant? h.index = none) ∧
    ∃ h inputs s' v xs, ((expression Mixing.source { smooth := true }).run (Mixing.seeded 1)).run {} =
      (.ok ((h, inputs), s'), v) ∧ (v.tape 0).nodes[h.index]? = some (.nary .sum xs) ∧
        (v.tape 0).NeedsInput h.index ∧
        ∀ j n, (v.tape 0).net.Needs h.index j → (v.tape 0).net j n → n.op.IsSmooth := by
  have hr : Regular Mixing.source { smooth := true } := ⟨Mixing.keepsRange, 8, by decide, rfl⟩
  obtain ⟨-, hresults, h, inputs, s', v, xs, hrun, -, hnode, hneeds, hsmooth⟩ :=
    expression_total hr (by decide) Workspace.ready_start rfl (Mixing.seeded 1)
  obtain ⟨pool, t, u, hpool, hsize, hconstant⟩ := hresults 40
  exact ⟨hr, ⟨pool, t, u, hpool, hsize, fun y hy => (hconstant y hy).2.2⟩,
    h, inputs, s', v, xs, hrun, hnode, hneeds, hsmooth rfl⟩

end Draw
end ScalarGraph
