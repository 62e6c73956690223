import ScalarGraph.Proofs.Tape.Settled
import ScalarGraph.Proofs.Workspace.Reached

/-! # Histories

A history records the expression that each handle was built for. Whatever else happened before
and in between, the handle still has the settled tree of its expression, and its tape holds
every part of it.
-/
namespace ScalarGraph
variable {α : Type} [DecidableEq α] [Hashable α]

/-- A call of a constructor; an input without a position is declared at the next free one. -/
inductive Call (α : Type) where
  | const (x : α)
  | input (position : Option Nat) (s : α)
  | construct (n : Node α (Operand α))

namespace Call

def operands : Call α → List (Operand α)
  | construct n => n.operands
  | _ => []

def build [Written α] (R : Rules α) : Call α → Build α Handle
  | const x => makeConst x
  | input p s => makeInput (p.map Int.ofNat) s
  | construct n => ScalarGraph.construct R n

def GoesTo (w : Workspace α) (c : Call α) (k : Nat) : Prop :=
  (∀ y, .handle y ∈ c.operands → y.tape = k) ∧
    (k = w.active ∨ ∃ y, .handle y ∈ c.operands ∧ y.tape = k)

end Call

/-- An operand for an expression is a handle that was built for it, or the number that it is. -/
inductive Operand.For (built : List (Handle × Term α (Nat × α))) :
    Operand α → Term α (Nat × α) → Prop where
  | handle {h : Handle} {e : Term α (Nat × α)} (hmem : (h, e) ∈ built) : For built (.handle h) e
  | number (x : α) : For built (.number x) (.number x)

/-- The call builds an expression from operands for the expressions below it. -/
inductive Call.For (w : Workspace α) (built : List (Handle × Term α (Nat × α))) :
    Call α → Term α (Nat × α) → Prop where
  | const (x : α) : For w built (.const x) (.number x)
  | input (k : Nat) (s : α) : For w built (.input (some k) s) (.leaf (k, s))
  | next (s : α) : For w built (.input none s) (.leaf ((w.tape w.active).numInputs, s))
  | construct {n : Node α (Operand α × Term α (Nat × α))} (hop : n.op.isTerminal = false)
      (hn : ∀ q ∈ n.operands, q.1.For built q.2) :
      For w built (.construct (n.map Prod.fst)) (n.map Prod.snd).term

/-- Sessions with the handles that their calls gave and the expressions these were built for. -/
inductive Workspace.History [Written α] (R : Rules α) :
    Workspace α → List (Handle × Term α (Nat × α)) → Prop where
  | start : History R {} []
  | call {w v : Workspace α} {built : List (Handle × Term α (Nat × α))} (h : History R w built)
      {c : Call α} {e : Term α (Nat × α)} (hc : c.For w built e) {x : Handle}
      (hrun : (c.build R).run w = (.ok x, v)) : History R v ((x, e) :: built)
  | step {w v : Workspace α} {built : List (Handle × Term α (Nat × α))} (h : History R w built)
      (hv : w.Step R v) : History R v built

/-- The handle has the settled tree of an expression, and its tape holds all parts of that. -/
structure Handle.StandsFor (R : Rules α) (w : Workspace α) (x : Handle) (e : Term α (Nat × α)) :
    Prop where
  tape_lt : x.tape < w.tapes.size
  index_lt : x.index < (w.tape x.tape).size
  unfolding_eq : (w.tape x.tape).unfolding x.index = e.settled R
  holds : (w.tape x.tape).Holds R e

namespace Tape
variable {t : Tape α}

/-- The trees of the indices solve the equations of their nodes. -/
theorem Valid.solves_unfolding (ht : t.Valid) : t.net.Solves Node.term t.unfolding :=
  fun _ _ hn => ht.unfolding_eq hn

theorem Provides.unfolding_terminal {n : Node α Nat} {r : Tape α × Nat} (h : t.Provides n r)
    {m : Node α (Term α (Nat × α))} (hop : n.op = m.op) (hm : m.operands = []) (hn : n.operands = []) :
    r.1.unfolding r.2 = m.term := by
  rw [h.valid.unfolding_eq h.node]
  congr 1
  apply Node.ext_operands
  · rw [Node.op_map, hop]
  · rw [Node.operands_map, hn, hm, List.map_nil]

end Tape

section
variable {R : Rules α} {w v : Workspace α} {built : List (Handle × Term α (Nat × α))}

theorem Handle.StandsFor.continues {x : Handle} {e : Term α (Nat × α)} (h : x.StandsFor R w e)
    (hwv : w.Continues v) (hw : w.Ready) (hv : v.Ready) : x.StandsFor R v e where
  tape_lt := Nat.lt_of_lt_of_le h.tape_lt hwv.size_le
  index_lt := Nat.lt_of_lt_of_le h.index_lt (hwv.tape _).size_le
  unfolding_eq := by
    rw [(hwv.tape _).unfolding_eq (hw.valid _) (hv.valid _) h.index_lt, h.unfolding_eq]
  holds := h.holds.extends (hwv.tape _) (hw.valid _) (hv.valid _)

theorem Operand.For.on {x : Operand α} {e : Term α (Nat × α)} (hx : x.For built e)
    (hbuilt : ∀ p ∈ built, p.1.StandsFor R w p.2) : x.On w := by
  rintro y rfl
  cases hx with
  | handle hmem => exact ⟨(hbuilt _ hmem).tape_lt, (hbuilt _ hmem).index_lt⟩

theorem standsFor_terminal (hw : w.Ready) {n : Node α Nat} {r : Tape α × Nat}
    (hr : (w.tape w.active).Provides n r) {m : Node α (Term α (Nat × α))} (hop : n.op = m.op)
    (hm : m.operands = []) (hn : n.operands = []) (hsettled : m.term.settled R = m.term) :
    (Handle.mk w.active r.2).StandsFor R (w.onTape w.active fun _ => r).1 m.term := by
  have htape : (w.onTape w.active fun _ => r).1.tape w.active = r.1 :=
    Workspace.tape_onTape (f := fun _ => r) hw.active_lt
  have hunfolding : r.1.unfolding r.2 = m.term.settled R := by
    rw [hsettled]
    exact hr.unfolding_terminal hop hm hn
  refine ⟨?_, ?_, ?_, ?_⟩
  · rw [Workspace.size_onTape]
    exact hw.active_lt
  · rw [htape]
    exact hr.lt_size
  · rw [htape]
    exact hunfolding
  · rw [htape]
    refine Tape.Holds.term ?_ hr.lt_size hunfolding
    rw [hm]
    intro e he
    cases he

theorem meaning_of_for {n : Node α (Operand α × Term α (Nat × α))}
    (hn : ∀ q ∈ n.operands, q.1.For built q.2) (hbuilt : ∀ p ∈ built, p.1.StandsFor R w p.2)
    {k : Nat} (hk : ∀ y, .handle y ∈ (n.map Prod.fst).operands → y.tape = k) :
    (n.map Prod.fst).map (Operand.meaning Node.term (w.tape k).unfolding) =
      (n.map Prod.snd).map (Term.settled R) := by
  rw [Node.map_map, Node.map_map]
  apply Node.map_congr
  rintro ⟨x, e⟩ hq
  have hx : x ∈ (n.map Prod.fst).operands := by
    rw [Node.operands_map]
    exact List.mem_map_of_mem hq
  cases hn (x, e) hq with
  | @handle y _ hmem =>
    have hy := (hbuilt (y, e) hmem).unfolding_eq
    rw [hk y hx] at hy
    exact hy
  | number a => rfl

/-- When a constructor settles its node, the tape holds the expressions of all operands. -/
theorem Settles.holds {n : Node α (Operand α × Term α (Nat × α))} {x : Handle}
    {u : Workspace α} {m : Node α Nat} (h : Settles R Node.term w (n.map Prod.fst) x v u m)
    (hn : ∀ q ∈ n.operands, q.1.For built q.2) (hbuilt : ∀ p ∈ built, p.1.StandsFor R u p.2) :
    ∀ e ∈ (n.map Prod.snd).operands, (u.tape x.tape).Holds R e := by
  have hu : (u.tape x.tape).Valid := h.ready.valid x.tape
  have hsame := h.meaning _ hu.solves_unfolding
  rw [meaning_of_for hn hbuilt h.tape_eq] at hsame
  rw [Node.operands_map, List.forall_mem_map]
  rintro ⟨y, e⟩ hq
  cases hn (y, e) hq with
  | @handle y _ hmem =>
    have hy : Operand.handle y ∈ (n.map Prod.fst).operands := by
      rw [Node.operands_map]
      exact List.mem_map_of_mem hq
    have hholds := (hbuilt (y, e) hmem).holds
    rw [h.tape_eq y hy] at hholds
    exact hholds
  | number a =>
    have hmem : Term.number a ∈ (m.map (u.tape x.tape).unfolding).operands := by
      rw [hsame, Node.operands_map, Node.operands_map, List.map_map]
      exact List.mem_map_of_mem (f := Term.settled R ∘ Prod.snd) hq
    rw [Node.operands_map] at hmem
    obtain ⟨c, hc, hca⟩ := List.mem_map.mp hmem
    refine Tape.Holds.term (n := .const a) ?_ (h.operand_lt c hc) hca
    rintro e ⟨⟩

theorem standsFor_construct {n : Node α (Operand α × Term α (Nat × α))}
    (hop : n.op.isTerminal = false) (hn : ∀ q ∈ n.operands, q.1.For built q.2) (hw : w.Ready)
    (hbuilt : ∀ p ∈ built, p.1.StandsFor R w p.2) {x : Handle}
    (hrun : (construct R (n.map Prod.fst)).run w = (.ok x, v)) :
    x.StandsFor R v (n.map Prod.snd).term := by
  have hnop : (n.map Prod.fst).op.isTerminal = false := by rwa [Node.op_map]
  have hon : ∀ y ∈ (n.map Prod.fst).operands, y.On w := by
    rw [Node.operands_map, List.forall_mem_map]
    intro q hq
    exact (hn q hq).on hbuilt
  have hsafe := safe_construct_settles (R := R) Node.term hw hnop hon
  obtain ⟨u, m, h⟩ := hsafe.of_ok x (congrArg Prod.fst hrun)
  have hv : ((construct R (n.map Prod.fst)).run w).2 = v := congrArg Prod.snd hrun
  rw [hv] at h
  have hk := h.tape_lt
  have hu : (u.tape x.tape).Valid := h.ready.valid x.tape
  obtain ⟨a, -, hprovides⟩ := hu.exists_provides_settle R h.operator h.operand_lt
  have htape : v.tape x.tape = ((u.tape x.tape).settle R m).1 := by
    rw [h.result_eq, Workspace.tape_onTape hk]
  have hbuiltu : ∀ p ∈ built, p.1.StandsFor R u p.2 := fun p hp =>
    (hbuilt p hp).continues h.grows.continues hw h.ready
  have hindex : x.index < (v.tape x.tape).size := by
    rw [htape, h.index_eq]
    exact hprovides.lt_size
  have hunfolding : (v.tape x.tape).unfolding x.index = (n.map Prod.snd).term.settled R := by
    rw [Term.settled_term R (by rwa [Node.op_map]), ← meaning_of_for hn hbuiltu h.tape_eq,
      ← h.meaning _ hu.solves_unfolding, htape, h.index_eq]
    exact hu.unfolding_settle h.operator h.operand_lt
  refine ⟨?_, hindex, hunfolding, Tape.Holds.term ?_ hindex hunfolding⟩
  · rw [h.result_eq, Workspace.size_onTape]
    exact hk
  · intro e he
    rw [htape]
    exact (h.holds hn hbuiltu e he).extends hprovides.extends hu hprovides.valid

variable [Written α]

theorem Call.For.step {c : Call α} {e : Term α (Nat × α)} (hc : c.For w built e)
    (hbuilt : ∀ p ∈ built, p.1.StandsFor R w p.2) : w.Step R ((c.build R).run w).2 := by
  cases hc with
  | const x => exact .request (.const (.ok x) : Request α α)
  | input k s => exact .request (.input (.ok (some (k : Int))) (.ok s) : Request α α)
  | next s => exact .request (.input (.ok none) (.ok s) : Request α α)
  | construct hop hn =>
    refine .construct (by rwa [Node.op_map]) ?_
    rw [Node.operands_map, List.forall_mem_map]
    intro q hq
    exact (hn q hq).on hbuilt

theorem Call.For.standsFor {c : Call α} {e : Term α (Nat × α)} (hc : c.For w built e)
    (hw : w.Ready) (hbuilt : ∀ p ∈ built, p.1.StandsFor R w p.2) {x : Handle}
    (hrun : (c.build R).run w = (.ok x, v)) : x.StandsFor R v e := by
  have hinput : ∀ (p : Option Int) (s : α), (makeInput p s).run w = (.ok x, v) →
      x.StandsFor R v (.leaf ((p.getD (w.tape w.active).numInputs).toNat, s)) := by
    intro p s hrun
    cases hd : (w.tape w.active).declare p s with
    | error violation =>
      rw [run_makeInput_error hw.active_lt hd] at hrun
      cases hrun
    | ok r =>
      rw [run_makeInput_ok hd] at hrun
      cases hrun
      have hprovides := (hw.valid w.active).provides_declare hd
      exact standsFor_terminal hw hprovides (m := .input _ s) rfl rfl rfl rfl
  cases hc with
  | const a =>
    cases hrun
    have hprovides := (hw.valid w.active).provides_const a
    exact standsFor_terminal hw hprovides (m := .const a) rfl rfl rfl rfl
  | input k s => exact hinput (some (k : Int)) s hrun
  | next s => exact hinput none s hrun
  | construct hop hn => exact standsFor_construct hop hn hw hbuilt hrun

theorem Workspace.History.standsFor (h : w.History R built) :
    w.Ready ∧ ∀ p ∈ built, p.1.StandsFor R w p.2 := by
  induction h with
  | start => exact ⟨ready_start, fun p hp => by cases hp⟩
  | @call w v built h c e hc x hrun ih =>
    obtain ⟨hw, hbuilt⟩ := ih
    have hstep := hc.step hbuilt
    rw [hrun] at hstep
    have hv := hstep.ready hw
    refine ⟨hv, List.forall_mem_cons.mpr ⟨hc.standsFor hw hbuilt hrun, fun p hp => ?_⟩⟩
    exact (hbuilt p hp).continues (hstep.continues hw) hw hv
  | step h hv ih =>
    obtain ⟨hw, hbuilt⟩ := ih
    exact ⟨hv.ready hw, fun p hp => (hbuilt p hp).continues (hv.continues hw) hw (hv.ready hw)⟩

end
end ScalarGraph
