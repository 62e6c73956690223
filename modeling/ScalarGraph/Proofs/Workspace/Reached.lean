import ScalarGraph.Proofs.Construct
import ScalarGraph.Proofs.Graph.Gradient

/-! # Reachable workspaces

A session calls constructors in any order, on the tapes that it has and with the handles that it
was given. Calls may fail, and what they appended before stays. All tapes are consistent after
every call, and no call takes anything from a tape.
-/
namespace ScalarGraph
variable {α : Type} [DecidableEq α] [Hashable α] [Written α]

/-- The workspaces that calls lead to, from one empty tape. -/
inductive Workspace.Reached (R : Rules α) : Workspace α → Prop where
  | start : Reached R {}
  | construct {w : Workspace α} (hw : Reached R w) {n : Node α (Operand α)}
      (hop : n.op.isTerminal = false) (hn : ∀ x ∈ n.operands, x.On w) :
      Reached R ((construct R n).run w).2
  | request {w : Workspace α} (hw : Reached R w) {β : Type} [Written β] (q : Request α β) :
      Reached R (q.perform.run w).2
  | fresh {w : Workspace α} (hw : Reached R w) : Reached R w.fresh
  | activate {w : Workspace α} (hw : Reached R w) {k : Nat} (hk : k < w.tapes.size) :
      Reached R { w with active := k }
  | configure {w : Workspace α} (hw : Reached R w) (settings : Settings) :
      Reached R { w with settings }

omit [Written α] in
@[simp] theorem Workspace.tape_fresh (w : Workspace α) (k : Nat) : w.fresh.tape k = w.tape k := by
  by_cases hk : k = w.tapes.size
  · simp [fresh, tape, hk]
  · simp [fresh, tape, Array.getElem?_push, hk]

omit [Written α] in
theorem Workspace.Ready.fresh {w : Workspace α} (hw : w.Ready) : w.fresh.Ready where
  active_lt := by simp [Workspace.fresh]
  valid k := by
    rw [tape_fresh]
    exact hw.valid k

inductive Workspace.Step (R : Rules α) (w : Workspace α) : Workspace α → Prop where
  | construct {n : Node α (Operand α)} (hop : n.op.isTerminal = false)
      (hn : ∀ x ∈ n.operands, x.On w) : Step R w ((construct R n).run w).2
  | request {β : Type} [Written β] (q : Request α β) : Step R w (q.perform.run w).2
  | fresh : Step R w w.fresh
  | activate {k : Nat} (hk : k < w.tapes.size) : Step R w { w with active := k }
  | configure (settings : Settings) : Step R w { w with settings }

/-- All tapes of a workspace are still there in another one, where they may have grown. -/
structure Workspace.Continues (w v : Workspace α) : Prop where
  size_le : w.tapes.size ≤ v.tapes.size
  tape : ∀ k, (w.tape k).Extends (v.tape k)

namespace Workspace
variable {R : Rules α} {w v u : Workspace α}

omit [Written α] in
theorem Continues.refl (w : Workspace α) : w.Continues w := ⟨Nat.le_refl _, fun _ => .refl _⟩

omit [Written α] in
theorem Continues.trans (h : w.Continues v) (h' : v.Continues u) : w.Continues u :=
  ⟨Nat.le_trans h.size_le h'.size_le, fun k => (h.tape k).trans (h'.tape k)⟩

omit [Written α] in
theorem Grows.continues (h : w.Grows v) : w.Continues v := ⟨Nat.le_of_eq h.size_eq.symm, h.tape⟩

omit [Written α] in
theorem continues_fresh (w : Workspace α) : w.Continues w.fresh where
  size_le := by simp [fresh]
  tape k := by
    rw [tape_fresh]
    exact .refl _

theorem Reached.step (h : w.Reached R) (hv : w.Step R v) : v.Reached R := by
  cases hv with
  | construct hop hn => exact .construct h hop hn
  | request q => exact .request h q
  | fresh => exact .fresh h
  | activate hk => exact .activate h hk
  | configure settings => exact .configure h settings

theorem Step.ready (hv : w.Step R v) (hw : w.Ready) : v.Ready := by
  cases hv with
  | construct hop hn => exact (safe_construct_settles (fun _ => ()) hw hop hn).ready
  | request q => exact q.ready_perform hw
  | fresh => exact hw.fresh
  | activate hk => exact ⟨hk, hw.valid⟩
  | configure settings => exact ⟨hw.active_lt, hw.valid⟩

theorem Reached.ready (h : w.Reached R) : w.Ready := by
  induction h with
  | start => exact ready_start
  | construct hw hop hn ih => exact (Step.construct (R := R) hop hn).ready ih
  | request hw q ih => exact (Step.request (R := R) q).ready ih
  | fresh hw ih => exact ih.fresh
  | activate hw hk ih => exact (Step.activate (R := R) hk).ready ih
  | configure hw settings ih => exact (Step.configure (R := R) settings).ready ih

theorem Step.continues (hv : w.Step R v) (hw : w.Ready) : w.Continues v := by
  cases hv with
  | construct hop hn => exact (safe_construct_settles (fun _ => ()) hw hop hn).grows.continues
  | request q =>
    rcases q.perform_cases hw with ⟨f, h⟩ | ⟨n, r, hr, h⟩
    · rw [h]
      exact .refl w
    · rw [h]
      exact (grows_onTape (f := fun _ => r) hw.active_lt hr).continues
  | fresh => exact continues_fresh w
  | activate hk => exact ⟨Nat.le_refl _, fun _ => .refl _⟩
  | configure settings => exact ⟨Nat.le_refl _, fun _ => .refl _⟩

end Workspace

theorem exists_input (R : Rules α) (s : α) :
    ∃ (w : Workspace α) (y : Handle), (makeInput (some 0) s).run {} = (.ok y, w) ∧ w.Reached R ∧
      y.tape = w.active ∧ (w.tape w.active).nodes[y.index]? = some (.input 0 s) := by
  have hempty : Workspace.Samples ({} : Workspace α) fun _ => s := by
    intro i k s' h
    simp [Workspace.tape, Tape.empty] at h
  obtain ⟨y, w, hy, -, -, htape, hnode, -⟩ :=
    (safe_makeInput (F := False) Workspace.ready_start hempty 0).exists_run
  have hw : ((makeInput (some 0) s).run ({} : Workspace α)).2 = w := congrArg Prod.snd hy
  refine ⟨w, y, hy, ?_, htape, hnode⟩
  rw [← hw]
  exact Workspace.Reached.start.request (.input (.ok (some 0)) (.ok s) : Request α α)

theorem exists_inputPlusTwo_on (R : Rules Int) : ∃ (w v : Workspace Int) (y x : Handle),
    (makeInput (some 0) 3).run {} = (.ok y, w) ∧
      (∀ z ∈ (Node.binary .add (.handle y) (.number 2) : Node Int (Operand Int)).operands, z.On w) ∧
      (construct R (.binary .add (.handle y) (.number 2))).run w = (.ok x, v) ∧
      v.Reached R ∧ x.tape = v.active ∧ x.index < (v.tape v.active).size := by
  obtain ⟨w, y, hy, hreached, htape, hnode⟩ := exists_input R (3 : Int)
  have hw : w.Ready := hreached.ready
  have hon : ∀ z ∈ (Node.binary .add (.handle y) (.number 2) : Node Int (Operand Int)).operands,
      z.On w := by
    intro z hz u hu
    simp only [Node.operands, List.mem_cons, hu, Operand.handle.injEq, reduceCtorEq, List.not_mem_nil,
      or_false] at hz
    rw [hz, htape]
    exact ⟨hw.active_lt, Tape.lt_size hnode⟩
  have hsafe := safe_construct (R := R) (f := fun _ => ()) hw (fun _ _ => rfl) rfl hon
  have hcannot : ¬ ((∃ z u, Operand.handle z ∈ [Operand.handle y, Operand.number (2 : Int)] ∧
      Operand.handle u ∈ [Operand.handle y, Operand.number (2 : Int)] ∧ z.tape ≠ u.tape) ∨
        ∃ e, Operand.unfit e ∈ [Operand.handle y, Operand.number (2 : Int)]) := by
    simp
  obtain ⟨x, v, hx, -, hwv, hxon, -, hshared, -⟩ := (hsafe.weaken hcannot).exists_run
  have hxtape : x.tape = v.active := by
    rw [hwv.active_eq]
    rcases hshared with hactive | ⟨z, hz, hzx⟩
    · exact hactive
    · have hzy : z = y := by simpa [Node.operands] using hz
      rw [← hzx, hzy, htape]
  refine ⟨w, v, y, x, hy, hon, hx, ?_, hxtape, ?_⟩
  · have hv : ((construct R (.binary .add (.handle y) (.number 2))).run w).2 = v :=
      congrArg Prod.snd hx
    rw [← hv]
    exact hreached.construct rfl hon
  · rw [← hxtape]
    exact (hxon x rfl).2

theorem exists_inputPlusTwo (R : Rules Int) : ∃ (w v : Workspace Int) (y x : Handle),
    (makeInput (some 0) 3).run {} = (.ok y, w) ∧
      (construct R (.binary .add (.handle y) (.number 2))).run w = (.ok x, v) ∧
      v.Reached R ∧ x.tape = v.active ∧ x.index < (v.tape v.active).size := by
  obtain ⟨w, v, y, x, hy, -, hx, hv⟩ := exists_inputPlusTwo_on R
  exact ⟨w, v, y, x, hy, hx, hv⟩

end ScalarGraph
