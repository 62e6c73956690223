import ScalarGraph.Proofs.Workspace.Footprint
import ScalarGraph.Proofs.Workspace.Reached
import ScalarGraph.Session.Function

/-! # Calls of constructors

A session calls constructors with values of any kind and with operators by name. Whatever they are, a call
changes at most the tape that its handles belong to, or the active one, and there it leaves behind
constants and its result only.
-/
namespace ScalarGraph

/-- A call of a constructor; operators are given by their names. -/
inductive ConstructorCall where
  | const (v : Value)
  | input (position sample : Value)
  | unary (v : Value) (name : Text)
  | binary (v u : Value) (name : Text)
  | select (c t e : Value)
  | nary (v : Value) (name : Text)
  | debug (v label : Value)

namespace ConstructorCall

def run : ConstructorCall → Build Float Value
  | const v => Function.const.apply [v]
  | input position sample => Function.input.apply [position, sample]
  | unary v name => Function.unaryNamed.apply [v, .text name]
  | binary v u name => Function.binaryNamed.apply [v, u, .text name]
  | select c t e => Function.select.apply [c, t, e]
  | nary v name => Function.naryNamed.apply [v, .text name]
  | debug v label => Function.debug.apply [v, label]

def values : ConstructorCall → List Value
  | const v | unary v _ | debug v _ => [v]
  | input position sample => [position, sample]
  | binary v u _ => [v, u]
  | select c t e => [c, t, e]
  | nary v _ => (v.items.toOption).getD []

def operands (c : ConstructorCall) : List (Operand Float) := c.values.map Value.operand

theorem operands_nary (v : Value) (name : Text) :
    (nary v name).operands = ((v.items.toOption).getD []).map Value.operand := rfl

end ConstructorCall

/-- The call gives a handle or fails, leaves behind what constructors do, and leads to a workspace of
the session. -/
def Workspace.Calls (w : Workspace Float) (xs : List (Operand Float)) (b : Build Float Value) : Prop :=
  ∃ r v, b.run w = (r.map Value.handle, v) ∧ Leaves w xs r v ∧ v.Reached Leaf.rules

namespace Workspace.Reached
variable {w : Workspace Float} (hw : w.Reached Leaf.rules)
include hw

theorem calls_error {xs : List (Operand Float)} {b : Build Float Value} {e : Fault}
    (hrun : b.run w = (.error e, w))
    (hmixed : ∀ y z, .handle y ∈ xs → .handle z ∈ xs → y.tape ≠ z.tape → ∃ v, e = .violation v) :
    w.Calls xs b :=
  ⟨.error e, w, hrun, leaves_of_error hmixed, hw⟩

theorem calls_construct {b : Build Float Value} {n : Node Float Value}
    (hrun : b.run w = (Function.construct n).run w) (hop : n.op.isTerminal = false)
    (hn : ∀ x ∈ n.operands.map Value.operand, x.On w) :
    w.Calls (n.operands.map Value.operand) b := by
  have hop' : (n.map Value.operand).op.isTerminal = false := by rwa [Node.op_map]
  rw [← Node.operands_map] at hn ⊢
  refine ⟨_, _, ?_, leaves_construct hw.ready hop' hn, .construct hw hop' hn⟩
  rw [hrun, Function.construct, Build.run_map]
  rfl

theorem calls_perform {xs : List (Operand Float)} {b : Build Float Value} (q : Request Float Float)
    (hrun : b.run w = (Value.handle <$> q.perform).run w)
    (hmixed : ∀ y z, .handle y ∈ xs → .handle z ∈ xs → y = z)
    (hxs : ∀ h, (q.perform.run w).1 = .ok h → ∀ y, .handle y ∉ xs) : w.Calls xs b := by
  refine ⟨_, _, ?_, leaves_perform hw.ready q hmixed hxs, .request hw q⟩
  rw [hrun, Build.run_map]

end Workspace.Reached

theorem Function.run_named {β : Type} (family : Family) (find : Text → Option β) (name : Text)
    (w : Workspace Float) : (named family find (.text name)).run w =
      ((find name).elim (.error (.violation (.unknownOperator family name.quoted))) .ok, w) := by
  unfold named
  cases hfind : find name with
  | none =>
    simp only [hfind]
    rfl
  | some o =>
    simp only [hfind]
    rfl

theorem Value.eq_handle_of_operand {v : Value} {y : Handle} (h : v.operand = .handle y) :
    v = .handle y := by
  unfold operand at h
  split at h
  · cases h
    rfl
  · cases h
  · split at h <;> cases h

theorem Value.operand_ne_handle {v : Value} {x : Float} (h : v.toFloat = .ok x) (y : Handle) :
    v.operand ≠ .handle y := by
  intro hy
  rw [eq_handle_of_operand hy] at h
  cases h

/-- The position of an input is looked at first; one that is no whole number is a violation. -/
theorem Function.makeInput_cases (position sample : Value) :
    (∃ i : Option Int, (∀ y, position ≠ .handle y) ∧ makeInput position sample =
      Value.handle <$> (Request.input (.ok i) sample.toFloat : Request Float Float).perform) ∨
    ∀ w, ∃ v, (makeInput position sample).run w = (.error (.violation v), w) := by
  have hperform : ∀ i : Option Int, (do
      let x ← Build.ofExcept sample.toFloat
      return .handle (← ScalarGraph.makeInput i x) : Build Float Value) =
      Value.handle <$> (Request.input (.ok i) sample.toFloat : Request Float Float).perform := by
    intro i
    unfold Request.perform
    simp only [map_bind]
    rfl
  cases position with
  | nothing => exact .inl ⟨none, by simp, hperform none⟩
  | int i => exact .inl ⟨some i, by simp, hperform (some i)⟩
  | _ => exact .inr fun w => ⟨_, rfl⟩

namespace Workspace.Reached
variable {w : Workspace Float} (hw : w.Reached Leaf.rules)
include hw

theorem calls_const (v : Value) : w.Calls [v.operand] (Function.const.apply [v]) := by
  have happly : Function.const.apply [v] =
      Value.handle <$> (Request.const v.toFloat : Request Float Float).perform := by
    unfold Function.apply Request.perform
    rw [map_bind]
    rfl
  refine hw.calls_perform (.const v.toFloat) (congrArg (fun b => b.run w) happly) ?_ ?_
  · intro y z hy hz
    rw [List.mem_singleton] at hy hz
    exact Operand.handle.inj (hy.trans hz.symm)
  · intro h hh y hy
    cases hx : v.toFloat with
    | error e =>
      rw [hx] at hh
      cases hh
    | ok x => exact Value.operand_ne_handle hx y (List.mem_singleton.mp hy).symm

theorem calls_input (position sample : Value) :
    w.Calls [position.operand, sample.operand] (Function.input.apply [position, sample]) := by
  rcases Function.makeInput_cases position sample with ⟨i, hposition, hperform⟩ | herror
  · have hnone : ∀ y, .handle y ∈ [position.operand, sample.operand] → sample = .handle y := by
      intro y hy
      rcases List.mem_cons.mp hy with hy | hy
      · exact absurd (Value.eq_handle_of_operand hy.symm) (hposition y)
      · exact Value.eq_handle_of_operand (List.mem_singleton.mp hy).symm
    refine hw.calls_perform (.input (.ok i) sample.toFloat) (congrArg (fun b => b.run w) hperform) ?_ ?_
    · intro y z hy hz
      exact Value.handle.inj ((hnone y hy).symm.trans (hnone z hz))
    · intro h hh y hy
      rw [hnone y hy] at hh
      cases hh
  · obtain ⟨v, hrun⟩ := herror w
    exact hw.calls_error hrun fun _ _ _ _ _ => ⟨v, rfl⟩

theorem calls_named {β : Type} (family : Family) (find : Text → Option β) (name : Text)
    {xs : List (Operand Float)} {next : β → Build Float Value} {b : Build Float Value}
    (hb : b = Function.named family find (.text name) >>= next) (hnext : ∀ o, w.Calls xs (next o)) :
    w.Calls xs b := by
  have hnamed := Function.run_named family find name w
  subst hb
  cases hfind : find name with
  | none =>
    rw [hfind] at hnamed
    exact hw.calls_error (Build.run_bind_error hnamed) fun _ _ _ _ _ => ⟨_, rfl⟩
  | some o =>
    rw [hfind] at hnamed
    obtain ⟨r, v, hrun, hv⟩ := hnext o
    exact ⟨r, v, (Build.run_bind_ok hnamed).trans hrun, hv⟩

theorem calls_run (c : ConstructorCall) (hc : ∀ x ∈ c.operands, x.On w) :
    w.Calls c.operands c.run := by
  cases c with
  | const v => exact hw.calls_const v
  | input position sample => exact hw.calls_input position sample
  | unary v name =>
    refine hw.calls_named .unary UnaryOp.named? name rfl fun o => ?_
    exact hw.calls_construct (n := .unary o v) rfl rfl hc
  | binary v u name =>
    refine hw.calls_named .binary BinaryOp.named? name rfl fun o => ?_
    exact hw.calls_construct (n := .binary o v u) rfl rfl hc
  | select c t e => exact hw.calls_construct (n := .select c t e) rfl rfl hc
  | nary v name =>
    refine hw.calls_named .nary NaryOp.named? name rfl fun o => ?_
    cases hitems : v.items with
    | error e =>
      have hnone : (ConstructorCall.nary v name).operands = [] := by
        rw [ConstructorCall.operands_nary, hitems]
        rfl
      rw [hnone]
      refine hw.calls_error (e := e) (Build.run_bind_error rfl) fun y _ hy => ?_
      cases hy
    | ok vs =>
      have hvalues : (ConstructorCall.nary v name).operands = vs.map Value.operand := by
        rw [ConstructorCall.operands_nary, hitems]
        rfl
      rw [hvalues] at hc ⊢
      exact hw.calls_construct (n := .nary o vs) (Build.run_bind_ok rfl) rfl hc
  | debug v label =>
    have hrun : (ConstructorCall.debug v label).run.run w =
        (Function.construct (.debug (label.plain w) v)).run w := Build.run_bind_ok (Build.run_get w)
    exact hw.calls_construct hrun rfl hc

/-- In a session with any tapes, a call of a constructor on any values leaves behind no more than its
constants and its result, on the tape of its handles or on the active one. After it the operands of
every node are earlier nodes of the same tape, and every handle has the node that it had before. -/
theorem constructorCall_footprint (c : ConstructorCall) (hc : ∀ x ∈ c.operands, x.On w) :
    ∃ r v, c.run.run w = (r.map Value.handle, v) ∧ Leaves w c.operands r v ∧ v.Reached Leaf.rules ∧
      (∀ (j i : Nat) (n : Node Float Nat), (v.tape j).nodes[i]? = some n →
        ∀ child ∈ n.operands, child < i) ∧
      ∀ (h : Handle) (n : Node Float Nat), (w.tape h.tape).nodes[h.index]? = some n →
        (v.tape h.tape).nodes[h.index]? = some n := by
  obtain ⟨r, v, hrun, hleaves, hv⟩ := hw.calls_run c hc
  refine ⟨r, v, hrun, hleaves, hv, ?_, ?_⟩
  · exact fun j _ _ hn => (hv.ready.valid j).operand_lt hn
  · exact fun h _ hn => (hleaves.extends h.tape).getElem? hn

end Workspace.Reached

/-- A selection between an input, the number 7 and a value that is no operand. -/
theorem constructorCall_footprint_select : ∃ (w v : Workspace Float) (y : Handle)
    (r : Except Fault Handle), w.Reached Leaf.rules ∧ (Operand.handle y : Operand Float).On w ∧
    (ConstructorCall.select (.handle y) (.real 7) .nothing).run.run w = (r.map Value.handle, v) ∧
    Leaves w [.handle y, .number 7, .unfit (.notScalar Value.nothing.typeText)] r v ∧
    v.Reached Leaf.rules := by
  obtain ⟨w, y, -, hw, htape, hnode⟩ := exists_input Leaf.rules 0.5
  have hy : (Operand.handle y : Operand Float).On w := by
    rintro z ⟨⟩
    rw [htape]
    exact ⟨hw.ready.active_lt, Tape.lt_size hnode⟩
  have hon : ∀ x ∈ (ConstructorCall.select (.handle y) (.real 7) .nothing).operands, x.On w := by
    intro x hx
    rcases List.mem_cons.mp hx with rfl | hx
    · exact hy
    · rintro z rfl
      rcases List.mem_cons.mp hx with hx | hx
      · cases hx
      · cases List.mem_singleton.mp hx
  obtain ⟨r, v, hrun, hleaves, hv, -⟩ := hw.constructorCall_footprint _ hon
  exact ⟨w, v, y, r, hw, hy, hrun, hleaves, hv⟩

end ScalarGraph
