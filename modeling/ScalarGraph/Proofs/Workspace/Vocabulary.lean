import ScalarGraph.Proofs.Workspace.Constructed

/-! # Which operators a tape has

Constructors append constants and the operator that they are called with. So all operators of a tape
are among those that constructors were called with, and what holds of these holds of every graph
from the tape.
-/
namespace ScalarGraph
variable {α : Type} [DecidableEq α] [Hashable α]

namespace Build
variable {β ι κ : Type} {I : Workspace α → Prop} {w : Workspace α}

/-- Whether it fails or not, the step keeps the invariant. -/
def Keeps (b : Build α κ) (I : Workspace α → Prop) : Prop := ∀ w, I w → I (b.run w).2

theorem keeps_pure (c : κ) : (pure c : Build α κ).Keeps I := fun _ hw => hw

theorem keeps_throw (e : Fault) : (throw e : Build α κ).Keeps I := fun _ hw => hw

theorem keeps_ofExcept (r : Except Fault κ) : (ofExcept r : Build α κ).Keeps I := fun _ hw => hw

theorem Keeps.bind {b : Build α ι} {f : ι → Build α κ} (hb : b.Keeps I)
    (hf : ∀ c w v, b.run w = (.ok c, v) → (f c).Keeps I) : (b >>= f).Keeps I := by
  intro w hw
  refine run_bind_induction (hb w hw) fun c v hc => hf c w v hc v ?_
  have hv := hb w hw
  rwa [hc] at hv

/-- What every single step keeps is kept by the steps on a list, also where one of them fails. -/
theorem keeps_mapM {g : ι → Build α κ} {xs : List ι} (hg : ∀ x ∈ xs, (g x).Keeps I) :
    (xs.mapM g).Keeps I := by
  induction xs with
  | nil => exact keeps_pure _
  | cons x xs ih =>
    obtain ⟨hx, hxs⟩ := List.forall_mem_cons.mp hg
    rw [List.mapM_cons]
    exact hx.bind fun c _ _ _ => (ih hxs).bind fun cs _ _ _ => keeps_pure _

theorem keeps_foldlM {g : κ → ι → Build α κ} {xs : List ι} (hg : ∀ c x, (g c x).Keeps I) (c : κ) :
    (xs.foldlM g c).Keeps I := by
  induction xs generalizing c with
  | nil => exact keeps_pure c
  | cons x xs ih =>
    rw [List.foldlM_cons]
    exact (hg c x).bind fun d _ _ _ => ih d

theorem keeps_node_mapM {g : ι → Build α κ} {n : Node β ι} (hg : ∀ x ∈ n.operands, (g x).Keeps I) :
    (n.mapM g).Keeps I := by
  intro w hw
  rw [(run_some_mapM g n w).2]
  exact keeps_mapM hg w hw

theorem op_of_run_mapM {g : ι → Build α κ} {n : Node β ι} {m : Node β κ} {v : Workspace α}
    (h : (n.mapM g).run w = (.ok m, v)) : m.op = n.op := by
  have hresult := (run_some_mapM g n w).1
  rw [h] at hresult
  cases hlist : ((n.operands.mapM g).run w).1 with
  | error e =>
    rw [hlist] at hresult
    cases hresult
  | ok ys =>
    rw [hlist] at hresult
    exact (Node.of_node?_eq_some (Except.ok.inj hresult).symm).1

theorem Safe.and {b : Build α κ} {F : Prop} {P Q : κ → Workspace α → Prop} (hP : b.Safe w F P)
    (hQ : b.Safe w F Q) : b.Safe w F fun c v => P c v ∧ Q c v :=
  ⟨hP.ready, hP.grows, fun c hc => ⟨hP.of_ok c hc, hQ.of_ok c hc⟩, hP.of_error⟩

theorem Safe.and_after {b : Build α κ} {F : Prop} {Q : κ → Workspace α → Prop} (hb : b.Safe w F Q)
    (h : I (b.run w).2) : b.Safe w F fun c v => Q c v ∧ I v :=
  ⟨hb.ready, hb.grows, fun c hc => ⟨hb.of_ok c hc, h⟩, hb.of_error⟩

end Build

namespace Tape
variable {t : Tape α} {P : Op α → Prop} {Q : Node α Nat → Prop}

def Every (t : Tape α) (Q : Node α Nat → Prop) : Prop :=
  ∀ (i : Nat) (n : Node α Nat), t.nodes[i]? = some n → Q n

theorem every_empty : (empty : Tape α).Every Q := by
  intro i n hn
  simp [empty] at hn

theorem Every.push {n : Node α Nat} (ht : t.Every Q) (hn : Q n) {u : Tape α}
    (hu : u.nodes = t.nodes.push n) : u.Every Q := by
  intro i m hm
  rw [hu, Array.getElem?_push] at hm
  split at hm
  · cases hm
    exact hn
  · exact ht i m hm

theorem Every.share {n : Node α Nat} (ht : t.Every Q) (hn : Q n) : (t.share n).1.Every Q := by
  unfold Tape.share
  split
  · exact ht
  · exact ht.push hn rfl

theorem Every.const {x : α} (ht : t.Every Q) (hx : Q (.const x)) : (t.const x).1.Every Q :=
  ht.share hx

theorem Every.settle {R : Rules α} {n : Node α Nat} (ht : t.Every Q) (hconst : ∀ x, Q (.const x))
    (hn : Q n) : (t.settle R n).1.Every Q := by
  unfold Tape.settle
  split
  · exact ht.const (hconst _)
  · exact ht.share hn

theorem Every.input [Written α] {p : Nat} {s : α} (ht : t.Every Q) (hp : Q (.input p s))
    {r : Tape α × Nat} (h : t.input p s = .ok r) : r.1.Every Q := by
  unfold Tape.input at h
  split at h
  · cases h
    exact ht.push hp rfl
  · split at h
    · cases h
      exact ht
    · split at h
      · cases h
        exact ht
      · cases h

theorem Every.declare [Written α] {position : Option Int} {s : α} (ht : t.Every Q)
    (hp : Q (.input (position.getD t.numInputs).toNat s)) {r : Tape α × Nat}
    (h : t.declare position s = .ok r) : r.1.Every Q := by
  unfold Tape.declare at h
  dsimp only at h
  split at h
  · cases h
  · exact ht.input hp h

def OperatorsIn (t : Tape α) (P : Op α → Prop) : Prop :=
  ∀ (i : Nat) (n : Node α Nat), t.nodes[i]? = some n → n.op.isTerminal = false → P n.op

theorem operatorsIn_empty : (empty : Tape α).OperatorsIn P := every_empty

theorem OperatorsIn.declare [Written α] {position : Option Int} {s : α} (ht : t.OperatorsIn P)
    {r : Tape α × Nat} (h : t.declare position s = .ok r) : r.1.OperatorsIn P :=
  Every.declare ht (fun hop => by cases hop) h

end Tape

section
variable {P : Op α → Prop} {Q : Node α Nat → Prop} {w : Workspace α} {j k : Nat}

theorem every_onTape {γ : Type} {f : Tape α → Tape α × γ} (hw : (w.tape k).Every Q)
    (hf : (w.tape j).Every Q → (f (w.tape j)).1.Every Q) : ((w.onTape j f).1.tape k).Every Q := by
  by_cases hjk : k = j
  · subst hjk
    by_cases hk : k < w.tapes.size
    · rw [Workspace.tape_onTape hk]
      exact hf hw
    · have hempty : (w.onTape k f).1.tape k = Tape.empty := by
        simp [Workspace.tape, Nat.le_of_not_lt hk]
      rw [hempty]
      exact Tape.every_empty
  · rw [Workspace.tape_onTape_ne hjk]
    exact hw

theorem keeps_onTape {γ : Type} {f : Tape α → Tape α × γ}
    (hf : ∀ t : Tape α, t.Every Q → (f t).1.Every Q) :
    (Build.onTape j f).Keeps fun v => (v.tape k).Every Q :=
  fun w hw => every_onTape hw (hf (w.tape j))

theorem keeps_onTape? {γ : Type} {f : Tape α → Except Violation (Tape α × γ)}
    (hf : ∀ (t : Tape α) (r : Tape α × γ), t.Every Q → f t = .ok r → r.1.Every Q) :
    (Build.onTape? j f).Keeps fun v => (v.tape k).Every Q := by
  intro w hw
  cases hr : f (w.tape j) with
  | ok r =>
    rw [Build.run_onTape?_ok hr]
    exact every_onTape (f := fun _ => r) hw fun ht => hf _ r ht hr
  | error e =>
    rw [Build.run_onTape?_violation hr]
    exact every_onTape (f := fun t => (t, ())) hw id

theorem keeps_makeConst (hconst : ∀ x : α, Q (.const x)) (x : α) :
    (makeConst x).Keeps fun v => (v.tape k).Every Q := by
  intro w hw
  rw [run_makeConst]
  exact every_onTape (f := (·.const x)) hw fun ht => ht.const (hconst x)

/-- A constructor adds constants and nodes of the operator that it is called with, and nothing else. -/
theorem keeps_construct {R : Rules α} {n : Node α (Operand α)} (hconst : ∀ x : α, Q (.const x))
    (hn : ∀ m : Node α Nat, m.op = n.op → Q m) :
    (construct R n).Keeps fun v => (v.tape k).Every Q := by
  have hpromote : ∀ (j : Nat) (x : Operand α),
      (x.promote j).Keeps fun v => (v.tape k).Every Q := by
    intro j x
    cases x with
    | handle h => exact Build.keeps_pure _
    | number a => exact keeps_onTape fun t ht => ht.const (hconst a)
    | unfit e => exact Build.keeps_throw e
  have hshared : (sharedTape n.operands).Keeps fun v => (v.tape k).Every Q := by
    intro w hw
    rwa [run_sharedTape_snd]
  unfold construct
  refine hshared.bind fun j _ _ _ => (Build.keeps_node_mapM fun x _ => hpromote j x).bind ?_
  intro m w v hm
  have hsettle : (Build.onTape j (·.settle R m)).Keeps fun v => (v.tape k).Every Q :=
    keeps_onTape fun t ht => ht.settle hconst (hn m (Build.op_of_run_mapM hm))
  exact hsettle.bind fun i _ _ _ => Build.keeps_pure _

theorem operatorsIn_construct {R : Rules α} {n : Node α (Operand α)}
    (hw : (w.tape k).OperatorsIn P) (hn : P n.op) :
    ((((construct R n).run w).2).tape k).OperatorsIn P := by
  refine keeps_construct (fun x h => by cases h) (fun m hm _ => ?_) w hw
  rwa [hm]

end
end ScalarGraph
