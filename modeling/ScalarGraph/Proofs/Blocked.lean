import ScalarGraph.Binary64.Elementary
import ScalarGraph.Proofs.Net

/-! # Blocked slots

A slot is blocked where the node's value does not depend on the operand in it to first order: the
condition and the branch that is not taken, the operands of comparisons and of rounding, and
the operands that do not attain a maximum or minimum. Its partial is zero, so a finite adjoint gives it
a zero and any other adjoint gives it NaN.
-/
namespace ScalarGraph
variable {α ι κ : Type}

/-- The operators with partial zero everywhere. -/
def UnaryOp.isStep : UnaryOp → Bool
  | .ceil | .floor | .round | .sign | .trunc => true
  | _ => false

def Elementary.otherThanFirst (E : Elementary α) (y : α) : List α → List Bool
  | [] => []
  | v :: vs => if E.eq v y then false :: vs.map fun _ => true else true :: E.otherThanFirst y vs

/-- Which slots of a node with value `y` are blocked. -/
def Node.blocked (E : Elementary α) (y : α) : Node α α → List Bool
  | const _ | input _ _ => []
  | unary o _ => [o.isStep]
  | binary .max a b => [!E.le b a, E.le b a]
  | binary .min a b => [!E.le a b, E.le a b]
  | binary .gt _ _ | binary .lt _ _ | binary .eq _ _ | binary .and _ _ | binary .or _ _ =>
    [true, true]
  | binary _ _ _ => [false, false]
  | select c _ _ => [true, !E.truthy c, E.truthy c]
  | nary .sum vs => vs.map fun _ => false
  | nary _ vs => E.otherThanFirst y vs
  | debug _ _ => [false]

/-- What is assumed of zeros, infinities and NaN. -/
structure Elementary.Ieee (E : Elementary α) (nan : α) : Prop where
  zero_eq : E.eq E.zero E.zero = true
  nan_eq : E.eq nan E.zero = false
  finite_of_eq : ∀ a, E.eq a E.zero = true → E.isFinite a = true
  nan_mul : ∀ a, E.mul nan a = nan
  nan_add : ∀ a, E.add nan a = nan
  add_nan : ∀ a, E.add a nan = nan
  zero_add_mul_zero : ∀ a, E.isFinite a = true → E.add E.zero (E.mul a E.zero) = E.zero
  mul_zero : ∀ a, E.isFinite a = false → E.mul a E.zero = nan

namespace Elementary
variable (E : Elementary α)

theorem length_otherThanFirst (y : α) (vs : List α) :
    (E.otherThanFirst y vs).length = vs.length := by
  induction vs with
  | nil => rfl
  | cons v vs ih =>
    unfold otherThanFirst
    split <;> simp [ih]

theorem length_firstEqual (y : α) (vs : List α) : (E.firstEqual y vs).length = vs.length := by
  induction vs with
  | nil => rfl
  | cons v vs ih =>
    unfold firstEqual
    split <;> simp [ih]

theorem firstEqual_of_otherThanFirst {y : α} {vs : List α} {k : Nat}
    (h : (E.otherThanFirst y vs)[k]? = some true) : (E.firstEqual y vs)[k]? = some E.zero := by
  induction vs generalizing k with
  | nil => simp [otherThanFirst] at h
  | cons v vs ih =>
    unfold otherThanFirst at h
    unfold firstEqual
    split
    · next hv =>
      rw [if_pos hv] at h
      cases k with
      | zero => simp at h
      | succ k =>
        rw [List.getElem?_cons_succ, List.getElem?_map] at h ⊢
        obtain ⟨w, hw, -⟩ := Option.map_eq_some_iff.mp h
        rw [hw]
        rfl
    · next hv =>
      rw [if_neg hv] at h
      cases k with
      | zero => rfl
      | succ k =>
        rw [List.getElem?_cons_succ] at h ⊢
        exact ih h

end Elementary

namespace Node
variable {E : Elementary α}

theorem length_blocked (E : Elementary α) (y : α) (n : Node α α) :
    (n.blocked E y).length = n.operands.length := by
  cases n with
  | binary o a b => cases o <;> rfl
  | nary o vs => cases o <;> simp [blocked, operands, E.length_otherThanFirst]
  | _ => rfl

theorem length_shares (E : Elementary α) (y a : α) (n : Node α α) :
    (n.shares E.calculus y a).length = n.operands.length := by
  cases n with
  | nary o vs =>
    cases o <;> simp [shares, operands, Elementary.calculus, Elementary.partials,
      Elementary.naryPartial, E.length_firstEqual]
  | _ => rfl

theorem unaryPartial_of_isStep {o : UnaryOp} (h : o.isStep = true) (x y : α) :
    E.unaryPartial o x y = E.zero := by
  cases o with
  | ceil => rfl
  | floor => rfl
  | round => rfl
  | sign => rfl
  | trunc => rfl
  | _ => cases h

/-- A blocked slot receives the adjoint times zero. -/
theorem shares_of_blocked {y a : α} {n : Node α α} {k : Nat}
    (h : (n.blocked E y)[k]? = some true) :
    (n.shares E.calculus y a)[k]? = some (E.mul a E.zero) := by
  cases n with
  | const v => simp [blocked] at h
  | input j s => simp [blocked] at h
  | unary o x =>
    cases k with
    | zero =>
      have hstep : o.isStep = true := by simpa [blocked] using h
      exact congrArg (fun d => some (E.mul a d)) (unaryPartial_of_isStep hstep x y)
    | succ k => simp [blocked] at h
  | binary o x z =>
    rcases k with _ | _ | k
    · cases o <;> simp_all [blocked, shares, Elementary.calculus, Elementary.partials,
        Elementary.binaryPartial, Elementary.adjoints]
    · cases o <;> simp_all [blocked, shares, Elementary.calculus, Elementary.partials,
        Elementary.binaryPartial, Elementary.adjoints]
    · cases o <;> simp [blocked] at h
  | select c t e =>
    rcases k with _ | _ | _ | k
    · rfl
    · have hc : E.truthy c = false := by simpa [blocked] using h
      simp [shares, Elementary.calculus, Elementary.rules, Elementary.adjoints, hc]
    · have hc : E.truthy c = true := by simpa [blocked] using h
      simp [shares, Elementary.calculus, Elementary.rules, Elementary.adjoints, hc]
    · simp [blocked] at h
  | nary o vs =>
    cases o with
    | sum =>
      rw [blocked, List.getElem?_map] at h
      obtain ⟨w, -, hw⟩ := Option.map_eq_some_iff.mp h
      cases hw
    | max =>
      have hzero := E.firstEqual_of_otherThanFirst h
      exact (List.getElem?_map ..).trans (congrArg (Option.map (E.mul a)) hzero)
    | min =>
      have hzero := E.firstEqual_of_otherThanFirst h
      exact (List.getElem?_map ..).trans (congrArg (Option.map (E.mul a)) hzero)
  | debug l x => cases k <;> simp [blocked] at h

theorem shares_nan {nan : α} (hE : E.Ieee nan) {y : α} {n : Node α α} :
    ∀ d ∈ n.shares E.calculus y nan, d = nan := by
  cases n <;>
    simp +contextual [shares, Elementary.calculus, Elementary.adjoints, hE.nan_mul]

end Node

namespace Net
variable {N : Net α ι} {M : Net α κ} {E : Elementary α} {V : ι → α}

def Slot (N : Net α ι) (E : Elementary α) (V : ι → α) (isBlocked : Bool) (i c : ι) : Prop :=
  ∃ (n : Node α ι) (k : Nat), N i n ∧ n.operands[k]? = some c ∧
    ((n.map V).blocked E (V i))[k]? = some isBlocked

/-- A path from `r` down to `i` crosses no blocked slot. -/
def OpenPath (N : Net α ι) (E : Elementary α) (V : ι → α) : ι → ι → Prop :=
  Relation.ReflTransGen (N.Slot E V false)

/-- An input at position `k` is needed at `i`. -/
def Carries (N : Net α ι) (k : Nat) (i : ι) : Prop :=
  ∃ j sample, N j (.input k sample) ∧ N.Needs i j

/-- A blocked slot of the node at `i` stands above an input at position `k`. -/
def Guards (N : Net α ι) (E : Elementary α) (V : ι → α) (k : Nat) (i : ι) : Prop :=
  ∃ c, N.Slot E V true i c ∧ N.Carries k c

theorem Slot.uses {b : Bool} {i c : ι} (h : N.Slot E V b i c) : N.Uses i c := by
  obtain ⟨n, k, hn, hc, -⟩ := h
  exact ⟨n, hn, List.mem_of_getElem? hc⟩

theorem Maps.slot {g : κ → ι} (hg : Maps g M N) {b : Bool} {i c : κ}
    (h : M.Slot E (V ∘ g) b i c) : N.Slot E V b (g i) (g c) := by
  obtain ⟨n, k, hn, hc, hb⟩ := h
  refine ⟨n.map g, k, hg hn, ?_, ?_⟩
  · simp [hc]
  · rw [Node.map_map]
    exact hb

theorem Maps.openPath {g : κ → ι} (hg : Maps g M N) {r i : κ} (h : M.OpenPath E (V ∘ g) r i) :
    N.OpenPath E V (g r) (g i) :=
  Relation.ReflTransGen.lift g (fun _ _ hab => hg.slot hab) r i h

theorem Maps.carries {g : κ → ι} (hg : Maps g M N) {k : Nat} {i : κ} (h : M.Carries k i) :
    N.Carries k (g i) := by
  obtain ⟨j, sample, hj, hneeds⟩ := h
  exact ⟨g j, sample, hg hj, hg.needs hneeds⟩

theorem Maps.guards {g : κ → ι} (hg : Maps g M N) {k : Nat} {i : κ}
    (h : M.Guards E (V ∘ g) k i) : N.Guards E V k (g i) := by
  obtain ⟨c, hslot, hcarries⟩ := h
  exact ⟨g c, hg.slot hslot, hg.carries hcarries⟩

theorem Guards.congr {W : ι → α} {k : Nat} {i : ι}
    (hVW : ∀ n, N i n → W i = V i ∧ ∀ c ∈ n.operands, W c = V c) (h : N.Guards E V k i) :
    N.Guards E W k i := by
  obtain ⟨c, ⟨n, j, hn, hc, hb⟩, hcarries⟩ := h
  obtain ⟨hi, hoperands⟩ := hVW n hn
  refine ⟨c, ⟨n, j, hn, hc, ?_⟩, hcarries⟩
  rw [hi, Node.map_congr hoperands]
  exact hb

end Net
end ScalarGraph
