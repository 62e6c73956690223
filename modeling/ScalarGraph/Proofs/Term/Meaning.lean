import ScalarGraph.Proofs.Construct
import ScalarGraph.Term

/-! # What terms mean

A term means what its tree makes of the meanings of its leaves. Building it on a tape, in
any state of the tape, gives an operand of the same meaning: subterms that are found
again, folded to constants or appended mean the same, and keep it when the tape grows.
-/
namespace ScalarGraph
variable {α β ν : Type}

namespace Term

mutual
/-- The meaning of a tree, where `f` gives that of a node by those of its operands. -/
def fold (f : Node α β → β) (leafMeaning : ν → β) : Term α ν → β
  | leaf v => leafMeaning v
  | number x => f (.const x)
  | unary o t => f (.unary o (fold f leafMeaning t))
  | binary o t u => f (.binary o (fold f leafMeaning t) (fold f leafMeaning u))
  | select c t e =>
    f (.select (fold f leafMeaning c) (fold f leafMeaning t) (fold f leafMeaning e))
  | nary o ts => f (.nary o (folds f leafMeaning ts))
  | debug l t => f (.debug l (fold f leafMeaning t))

def folds (f : Node α β → β) (leafMeaning : ν → β) : List (Term α ν) → List β
  | [] => []
  | t :: ts => fold f leafMeaning t :: folds f leafMeaning ts
end

end Term

variable [DecidableEq α] [Hashable α] {f : Node α β → β} {R : Rules α}

def Operand.Fit (w : Workspace α) : Operand α → Prop
  | handle h => h.tape = w.active ∧ h.index < (w.tape w.active).size
  | number _ => True
  | unfit _ => False

structure Operand.Means (f : Node α β → β) (w : Workspace α) (x : Operand α) (b : β) : Prop where
  fit : x.Fit w
  meaning : ∀ V, (w.tape w.active).net.Solves f V → x.meaning f V = b

namespace Operand
variable {w v : Workspace α} {x : Operand α} {b : β}

theorem Fit.grows (h : x.Fit w) (hv : w.Grows v) : x.Fit v := by
  cases x with
  | handle y =>
    obtain ⟨htape, hindex⟩ := h
    rw [Fit, hv.active_eq]
    exact ⟨htape, Nat.lt_of_lt_of_le hindex (hv.tape _).size_le⟩
  | number a => trivial
  | unfit e => exact h

theorem Fit.on (h : x.Fit w) (hw : w.Ready) : x.On w := by
  rintro y rfl
  rw [h.1]
  exact ⟨hw.active_lt, h.2⟩

theorem Means.grows (h : x.Means f w b) (hv : w.Grows v) : x.Means f v b where
  fit := h.fit.grows hv
  meaning V hV := by
    rw [hv.active_eq] at hV
    exact h.meaning V ((hv.tape _).solves hV)

theorem means_of_node {h : Handle} {n : Node α Nat} (htape : h.tape = w.active)
    (hn : (w.tape w.active).nodes[h.index]? = some n)
    (hb : ∀ V, (w.tape w.active).net.Solves f V → f (n.map V) = b) : (handle h).Means f w b where
  fit := ⟨htape, Tape.lt_size hn⟩
  meaning V hV := (hV _ _ hn).trans (hb V hV)

end Operand

section Steps
variable {w : Workspace α}

theorem safe_construct_means (hw : w.Ready) (hf : R.Folds f) {n : Node α (Operand α)} {m : Node α β}
    (hop : n.op.isTerminal = false) (hfit : ∀ x ∈ n.operands, x.Fit w)
    (hmeaning : ∀ V, (w.tape w.active).net.Solves f V → n.map (Operand.meaning f V) = m) :
    (construct R n).Safe w False fun h v => w.AddsNoInput v ∧ (Operand.handle h).Means f v (f m) := by
  have hsafe := safe_construct (f := f) hw hf hop fun x hx => (hfit x hx).on hw
  refine (hsafe.weaken ?_).imp ?_
  · rintro (⟨y, z, hy, hz, hne⟩ | ⟨e, he⟩)
    · exact hne ((hfit _ hy).1.trans (hfit _ hz).1.symm)
    · exact hfit _ he
  · rintro h v hv hwv ⟨hon, hinput, hshared, hnode⟩
    have htape : h.tape = v.active := by
      rw [hwv.active_eq]
      rcases hshared with hactive | ⟨y, hy, hyh⟩
      · exact hactive
      · exact hyh.symm.trans (hfit _ hy).1
    refine ⟨hinput, ⟨htape, ?_⟩, fun V hV => ?_⟩
    · exact htape ▸ (hon h rfl).2
    · rw [← htape] at hV
      rw [Operand.meaning, hnode V hV, hmeaning V]
      rw [htape, hwv.active_eq] at hV
      exact (hwv.tape _).solves hV

theorem safe_handle {I : Workspace α → Prop} (hw : w.Ready) (hi : I w)
    (hI : ∀ w v, I w → w.Grows v → w.AddsNoInput v → I v) (hf : R.Folds f)
    {n : Node α (Operand α)} {m : Node α β} (hop : n.op.isTerminal = false)
    (hfit : ∀ x ∈ n.operands, x.Fit w)
    (hmeaning : ∀ V, (w.tape w.active).net.Solves f V → n.map (Operand.meaning f V) = m) :
    (do return .handle (← construct R n) : Build α (Operand α)).Safe w False fun x v =>
      I v ∧ x.Means f v (f m) := by
  refine Build.Safe.bind (safe_construct_means hw hf hop hfit hmeaning) ?_
  rintro h v hv hwv ⟨hinput, hh⟩
  exact Build.safe_pure hv ⟨hI w v hi hwv hinput, hh⟩

end Steps

namespace Term

/-- As long as `I` holds of the workspace every leaf is found on the active tape with its meaning,
and `I` holds on as long as no other input is added. -/
structure Finds (R : Rules α) (f : Node α β → β) (find : ν → Build α (Operand α))
    (leafMeaning : ν → β) (I : Workspace α → Prop) : Prop where
  folds : R.Folds f
  kept : ∀ w v, I w → w.Grows v → w.AddsNoInput v → I v
  found : ∀ l w, w.Ready → I w →
    (find l).Safe w False fun x v => I v ∧ x.Means f v (leafMeaning l)

variable {find : ν → Build α (Operand α)} {leafMeaning : ν → β} {I : Workspace α → Prop}

mutual
/-- Building gives an operand on the active tape that means what the tree does. -/
theorem safe_build (h : Finds R f find leafMeaning I) :
    ∀ (e : Term α ν) (w : Workspace α), w.Ready → I w →
      (e.build R find).Safe w False fun x v => I v ∧ x.Means f v (e.fold f leafMeaning)
  | leaf l, w, hw, hi => by
    rw [build, fold]
    exact h.found l w hw hi
  | number x, w, hw, hi => by
    rw [build, fold]
    exact Build.safe_pure hw ⟨hi, trivial, fun _ _ => rfl⟩
  | unary o t, w, hw, hi => by
    rw [build, fold]
    refine Build.Safe.bind (safe_build h t w hw hi) ?_
    intro x v hv hwv ⟨hiv, hx⟩
    refine safe_handle hv hiv h.kept h.folds rfl (by simpa [Node.operands] using hx.fit) fun V hV => ?_
    rw [Node.map, hx.meaning V hV]
  | binary o t u, w, hw, hi => by
    rw [build, fold]
    refine Build.Safe.bind (safe_build h t w hw hi) ?_
    intro x v hv hwv ⟨hiv, hx⟩
    refine Build.Safe.bind (safe_build h u v hv hiv) ?_
    intro y v' hv' hgrows ⟨hiv', hy⟩
    have hx' := hx.grows hgrows
    have hfit : ∀ z ∈ (Node.binary o x y : Node α (Operand α)).operands, z.Fit v' := by
      simp [Node.operands, hx'.fit, hy.fit]
    refine safe_handle hv' hiv' h.kept h.folds rfl hfit fun V hV => ?_
    rw [Node.map, hx'.meaning V hV, hy.meaning V hV]
  | select c t e, w, hw, hi => by
    rw [build, fold]
    refine Build.Safe.bind (safe_build h c w hw hi) ?_
    intro x v hv hwv ⟨hiv, hx⟩
    refine Build.Safe.bind (safe_build h t v hv hiv) ?_
    intro y v' hv' hgrows ⟨hiv', hy⟩
    refine Build.Safe.bind (safe_build h e v' hv' hiv') ?_
    intro z u hu hgrows' ⟨hiu, hz⟩
    have hx' := hx.grows (hgrows.trans hgrows')
    have hy' := hy.grows hgrows'
    have hfit : ∀ a ∈ (Node.select x y z : Node α (Operand α)).operands, a.Fit u := by
      simp [Node.operands, hx'.fit, hy'.fit, hz.fit]
    refine safe_handle hu hiu h.kept h.folds rfl hfit fun V hV => ?_
    rw [Node.map, hx'.meaning V hV, hy'.meaning V hV, hz.meaning V hV]
  | nary o ts, w, hw, hi => by
    rw [build, fold]
    refine Build.Safe.bind (safe_buildAll h ts w hw hi) ?_
    intro xs v hv hwv ⟨hiv, hfit, hxs⟩
    refine safe_handle hv hiv h.kept h.folds rfl hfit fun V hV => ?_
    rw [Node.map, hxs V hV]
  | debug l t, w, hw, hi => by
    rw [build, fold]
    refine Build.Safe.bind (safe_build h t w hw hi) ?_
    intro x v hv hwv ⟨hiv, hx⟩
    refine safe_handle hv hiv h.kept h.folds rfl (by simpa [Node.operands] using hx.fit) fun V hV => ?_
    rw [Node.map, hx.meaning V hV]

theorem safe_buildAll (h : Finds R f find leafMeaning I) :
    ∀ (ts : List (Term α ν)) (w : Workspace α), w.Ready → I w →
      (buildAll R find ts).Safe w False fun xs v => I v ∧ (∀ x ∈ xs, x.Fit v) ∧
        ∀ V, (v.tape v.active).net.Solves f V →
          xs.map (Operand.meaning f V) = folds f leafMeaning ts
  | [], w, hw, hi => by
    rw [buildAll, folds]
    exact Build.safe_pure hw ⟨hi, by simp, fun _ _ => rfl⟩
  | t :: ts, w, hw, hi => by
    rw [buildAll, folds]
    refine Build.Safe.bind (safe_build h t w hw hi) ?_
    intro x v hv hwv ⟨hiv, hx⟩
    refine Build.Safe.bind (safe_buildAll h ts v hv hiv) ?_
    intro xs u hu hvu ⟨hiu, hfit, hxs⟩
    have hxu := hx.grows hvu
    refine Build.safe_pure hu ⟨hiu, ?_, fun V hV => ?_⟩
    · exact List.forall_mem_cons.mpr ⟨hxu.fit, hfit⟩
    · rw [List.map_cons, hxu.meaning V hV, hxs V hV]
end

end Term
end ScalarGraph
