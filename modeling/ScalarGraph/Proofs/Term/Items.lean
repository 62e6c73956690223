import ScalarGraph.Proofs.Tape.Settled
import ScalarGraph.Proofs.Term.Around
import ScalarGraph.Proofs.Term.Leaves
import ScalarGraph.Proofs.Workspace.Inputs
import ScalarGraph.Proofs.Workspace.Secondary

/-! # Terms over items

An item is a plain number or the handle of a node on any tape of a workspace. Terms over items are
built wherever their items are of one tape. The handles that are given then compute, at every
vector, what the trees say of the values of the items; the tapes may grow in between.
-/
namespace ScalarGraph
variable {α β ν : Type}

section
variable [DecidableEq α] [Hashable α]

/-- A plain number, or the handle of a node on one of the tapes. -/
structure Workspace.Item (w : Workspace α) where
  operand : Operand α
  on : operand.On w
  fit : ∀ e, operand ≠ .unfit e

namespace Workspace.Item
variable {w v : Workspace α} {R : Rules α}

def place (x : w.Item) : Option Nat := x.operand.tape?

def find (x : w.Item) : Build α (Operand α) := pure x.operand

def part (x : w.Item) : w.Part (x.place.getD w.active) where
  operand := x.operand
  within := by
    obtain ⟨x, hon, hfit⟩ := x
    cases x with
    | handle h => exact ⟨rfl, (hon h rfl).2⟩
    | number a => trivial
    | unfit e => exact (hfit e rfl).elim

def Active (x : w.Item) : Prop := x.place = none ∨ x.place = some w.active

def value (R : Rules α) (xs : Array α) (x : w.Item) : α := x.part.value R xs

/-- The derivative of an item at `xs` in position `i` of the vector for its tape. -/
def derivative [CommRing α] (C : Calculus α) (xs : Array α) (i : Nat) (x : w.Item) : α :=
  x.part.derivative C xs i

def number (w : Workspace α) (a : α) : w.Item where
  operand := .number a
  on := by rintro h ⟨⟩
  fit := by rintro e ⟨⟩

@[simp] theorem value_number (R : Rules α) (xs : Array α) (a : α) : (number w a).value R xs = a := rfl

theorem place_lt (x : w.Item) {k : Nat} (hk : x.place = some k) : k < w.tapes.size := by
  obtain ⟨x, hon, hfit⟩ := x
  cases x with
  | handle h => exact Option.some.inj hk ▸ (hon h rfl).1
  | number a => cases hk
  | unfit e => cases hk

theorem derivative_eq_zero [CommRing α] {C : Calculus α} {xs : Array α} {i : Nat} (x : w.Item)
    (hx : x.place = none) : x.derivative C xs i = 0 := by
  obtain ⟨x, hon, hfit⟩ := x
  cases x with
  | handle h => cases hx
  | number a => rfl
  | unfit e => exact (hfit e rfl).elim

theorem denotes (hw : w.Ready) (f : Node α β → β) (x : w.Item) :
    x.operand.Denotes f w ((x.operand.tree w).meaning f) := x.part.denotes hw f

theorem meaning_value (R : Rules α) (xs : Array α) (x : w.Item) :
    (x.operand.tree w).meaning (Node.value R xs) = x.value R xs := x.part.meaning_value R xs

theorem meaning_tangent [CommRing α] (C : Calculus α) (xs : Array α) (i : Nat) (x : w.Item) :
    (x.operand.tree w).meaning (Node.tangent C xs i) = (x.value C.rules xs, x.derivative C xs i) :=
  x.part.meaning_tangent C xs i

theorem locates (hw : w.Ready) {f : Node α β → β} (hf : R.Folds f) (hwv : w.Grows v) :
    Term.Locates R f (find (w := w)) v.active place (fun x => (x.operand.tree w).meaning f)
      fun u => v.AddsNoInput u ∧ v.Grows u where
  folds := hf
  active_eq _ hu := hu.2.active_eq
  kept _ _ hu hus hinput := ⟨hu.1.trans hinput, hu.2.trans hus⟩
  found x _ hu hi := Build.safe_pure hu ⟨hi, rfl, (x.denotes hw f).grows (hwv.trans hi.2)⟩

theorem value_of_input (hw : w.Ready) (x : w.Item) {h : Handle} (hx : x.operand = .handle h) {k : Nat}
    {s : α} (hnode : (w.tape h.tape).nodes[h.index]? = some (.input k s)) (R : Rules α) (xs : Array α) :
    x.value R xs = xs[k]?.getD s := by
  change (x.operand.tree w).value R _ = _
  rw [hx, Operand.tree, (hw.valid h.tape).unfolding_eq hnode]
  rfl

theorem derivative_of_input [CommRing α] (hw : w.Ready) (x : w.Item) {h : Handle}
    (hx : x.operand = .handle h) {k : Nat} {s : α}
    (hnode : (w.tape h.tape).nodes[h.index]? = some (.input k s)) (C : Calculus α) (xs : Array α) (i : Nat) :
    x.derivative C xs i = if k = i then 1 else 0 := by
  change (x.operand.tree w).derivative C _ _ = _
  rw [hx, Operand.tree, (hw.valid h.tape).unfolding_eq hnode]
  rfl

theorem value_eq (hw : w.Ready) (x : w.Item) {R : Rules α} {xs : Array α} {a : α}
    (h : x.operand.Denotes (Node.value R xs) w a) : x.value R xs = a := by
  have : Nonempty α := ⟨a⟩
  obtain ⟨k, hk⟩ : ∃ k, ∀ y, x.operand = .handle y → y.tape = k := by
    obtain ⟨x, hon, hfit⟩ := x
    cases x with
    | handle y => exact ⟨y.tape, by rintro z ⟨⟩; rfl⟩
    | number b => exact ⟨0, by rintro z ⟨⟩⟩
    | unfit e => exact (hfit e rfl).elim
  obtain ⟨V, hV⟩ := (hw.valid k).ranked.exists_evaluates R xs
  rw [← meaning_value, ← (x.denotes hw _).meaning_eq (.refl w) hk hV]
  exact h.meaning_eq (.refl w) hk hV

def grows (x : w.Item) (h : w.Grows v) : v.Item where
  operand := x.operand
  on := x.on.grows h
  fit := x.fit

theorem value_grows (x : w.Item) (hw : w.Ready) (hv : v.Ready) (h : w.Grows v) (R : Rules α)
    (xs : Array α) : (x.grows h).value R xs = x.value R xs := by
  have htree : x.operand.tree v = x.operand.tree w := by
    obtain ⟨x, hon, hfit⟩ := x
    cases x with
    | handle y => exact (h.tape y.tape).unfolding_eq (hw.valid _) (hv.valid _) (hon y rfl).2
    | number a => rfl
    | unfit e => rfl
  change (x.operand.tree v).value R _ = (x.operand.tree w).value R _
  rw [htree]

end Workspace.Item
end

namespace Term

/-- Where the leaves that occur are numbers or on the active tape, a term can be built. -/
theorem exists_place_of_over {active : Nat} {leafPlace : ν → Option Nat} {e : Term α ν}
    (h : e.Over fun v => leafPlace v = none ∨ leafPlace v = some active) :
    ∃ l, e.place active leafPlace = some l ∧ (l = none ∨ l = some active) := by
  have hplace : e.place active leafPlace =
      e.place active fun v => if leafPlace v = some active then some active else none :=
    fold_congr e fun v hv => by
      rcases h v hv with hnone | hactive
      · simp [hnone]
      · simp [hactive]
  rw [hplace]
  exact e.exists_place_of_active fun v => by
    split
    · exact .inr rfl
    · exact .inl rfl

def IsOperator : Term α ν → Prop
  | leaf _ | number _ => False
  | _ => True

theorem IsOperator.exists_place {e : Term α ν} (he : e.IsOperator) {active : Nat}
    {leafPlace : ν → Option Nat} {l : Option Nat} (h : e.place active leafPlace = some l) :
    ∃ k, l = some k := by
  have hnode : ∃ n : Node α (Option (Option Nat)), n.op.isTerminal = false ∧
      e.place active leafPlace = n.place active := by
    cases e with
    | leaf v => exact he.elim
    | number x => exact he.elim
    | unary o t => exact ⟨.unary o _, rfl, rfl⟩
    | binary o t u => exact ⟨.binary o _ _, rfl, rfl⟩
    | select c t u => exact ⟨.select _ _ _, rfl, rfl⟩
    | nary o ts => exact ⟨.nary o _, rfl, rfl⟩
    | debug label t => exact ⟨.debug label _, rfl, rfl⟩
  obtain ⟨n, hop, hn⟩ := hnode
  rw [hn, Node.place_eq hop] at h
  obtain ⟨ls, -, h⟩ := Option.bind_eq_some_iff.mp h
  obtain ⟨k, -, h⟩ := Option.bind_eq_some_iff.mp h
  exact ⟨k, (Option.some.inj h).symm⟩

end Term

section
variable [DecidableEq α] [Hashable α] {w v u : Workspace α}

/-- Some term over the items that satisfy `P` has no place. -/
def Workspace.Misplaced (w : Workspace α) (P : w.Item → Prop) : Prop :=
  ∃ e : Term α w.Item, e.Over P ∧ e.place w.active Item.place = none

theorem Workspace.not_misplaced : ¬w.Misplaced Item.Active := by
  rintro ⟨e, he, hnone⟩
  obtain ⟨l, hl, -⟩ := Term.exists_place_of_over he
  rw [hnone] at hl
  cases hl

namespace Term
variable {R : Rules α} {f : Node α β → β} {find : ν → Build α (Operand α)} {active : Nat}
  {leafPlace : ν → Option Nat} {leafMeaning : ν → β} {I : Workspace α → Prop}
  {P : w.Item → Prop}

omit [DecidableEq α] [Hashable α] in
theorem none_mem_folds_place {ts : List (Term α ν)}
    (h : none ∈ folds (Node.place active) (fun v => some (leafPlace v)) ts) :
    ∃ t ∈ ts, t.place active leafPlace = none := by
  rw [folds_eq_map] at h
  exact List.mem_map.mp h

/-- The operand is in the place of the term and means what the tree does. -/
structure Builds (f : Node α β → β) (active : Nat) (leafPlace : ν → Option Nat) (leafMeaning : ν → β)
    (v : Workspace α) (e : Term α ν) (x : Operand α) : Prop where
  place : e.place active leafPlace = some x.tape?
  denotes : x.Denotes f v (e.fold f leafMeaning)

/-- Terms are built to operands in their places, unless one of them has none. -/
theorem safe_buildAll_builds (h : Locates R f find active leafPlace leafMeaning I)
    (ts : List (Term α ν)) (hw : w.Ready) (hi : I w) :
    (buildAll R find ts).Safe w (∃ t ∈ ts, t.place active leafPlace = none) fun xs v =>
      I v ∧ List.Forall₂ (Builds f active leafPlace leafMeaning v) ts xs := by
  refine ((safe_buildAll_denotes h ts w hw hi).weaken none_mem_folds_place).imp ?_
  rintro xs v - - ⟨hiv, hplaces, hdenotes⟩
  refine ⟨hiv, ?_⟩
  rw [folds_eq_map, ← List.forall₂_eq_eq_eq, List.forall₂_map_left_iff, List.forall₂_map_right_iff]
    at hplaces
  rw [folds_eq_map, List.forall₂_map_right_iff] at hdenotes
  exact hplaces.mp (fun _ _ hplace hx => ⟨hplace, hx⟩) hdenotes.flip

structure Amounts (R : Rules α) (active : Nat) (u : Workspace α) (e : Term α w.Item) (x : Operand α) :
    Prop where
  place : e.place active Workspace.Item.place = some x.tape?
  denotes : ∀ xs, x.Denotes (Node.value R xs) u (e.value R (Workspace.Item.value R xs))

theorem Amounts.grows {e : Term α w.Item} {x : Operand α} (h : e.Amounts R active v x)
    (hvu : v.Grows u) : e.Amounts R active u x := ⟨h.place, fun xs => (h.denotes xs).grows hvu⟩

theorem Amounts.exists_handle {e : Term α w.Item} {x : Operand α} (h : e.Amounts R active u x)
    (he : e.IsOperator) :
    ∃ y, x = .handle y ∧ e.place active Workspace.Item.place = some (some y.tape) := by
  have hplace := h.place
  obtain ⟨k, hk⟩ := he.exists_place hplace
  cases x with
  | handle y => exact ⟨y, rfl, hplace⟩
  | number a => cases hk
  | unfit e => cases hk

theorem Amounts.exists_item {e : Term α w.Item} {x : Operand α}
    (h : e.Amounts R active u x) (he : e.IsOperator) (hu : u.Ready) :
    ∃ (y : u.Item) (k : Nat), y.operand = x ∧ y.place = some k ∧
      ∀ xs, y.value R xs = e.value R (Workspace.Item.value R xs) := by
  obtain ⟨z, rfl, -⟩ := h.exists_handle he
  let y : u.Item := ⟨.handle z, (h.denotes #[]).on, by rintro e ⟨⟩⟩
  exact ⟨y, z.tape, rfl, rfl, fun xs => y.value_eq hu (h.denotes xs)⟩

theorem amounts_of_builds {e : Term α w.Item} {x : Operand α}
    (h : ∀ xs, e.Builds (Node.value R xs) active Workspace.Item.place
      (fun y => (y.operand.tree w).meaning (Node.value R xs)) u x) : e.Amounts R active u x where
  place := (h #[]).place
  denotes xs := by
    rw [← fold_value R xs]
    convert (h xs).denotes using 3
    rw [Workspace.Item.meaning_value]

theorem safe_build_amounts (R : Rules α) (hw : w.Ready) (hv : v.Ready) (hwv : w.Grows v)
    (e : Term α w.Item) :
    (e.build R Workspace.Item.find).Safe v (e.place v.active Workspace.Item.place = none) fun x u =>
      v.AddsNoInput u ∧ e.Amounts R v.active u x := by
  have hsafe := Build.safe_forall fun xs : Array α => safe_build_denotes
    (Workspace.Item.locates hw (Node.folds_value R xs) hwv) e v hv ⟨fun _ _ _ _ h => h, .refl v⟩
  refine hsafe.imp ?_
  intro x u _ _ h
  exact ⟨(h #[]).1.1, amounts_of_builds fun xs => ⟨(h xs).2.1, (h xs).2.2⟩⟩

theorem safe_buildAll_amounts (R : Rules α) (hw : w.Ready) (hv : v.Ready) (hwv : w.Grows v)
    (ts : List (Term α w.Item)) :
    (buildAll R Workspace.Item.find ts).Safe v
      (∃ e ∈ ts, e.place v.active Workspace.Item.place = none) fun ops u =>
        v.AddsNoInput u ∧ List.Forall₂ (Amounts R v.active u) ts ops := by
  have hsafe := Build.safe_forall fun xs : Array α => safe_buildAll_builds
    (Workspace.Item.locates hw (Node.folds_value R xs) hwv) ts hv ⟨fun _ _ _ _ h => h, .refl v⟩
  refine hsafe.imp ?_
  intro ops u _ _ h
  exact ⟨(h #[]).1.1, (forall₂_forall fun xs => (h xs).2).imp fun _ _ => amounts_of_builds⟩

theorem safe_buildAll_over (R : Rules α) (hw : w.Ready) (hv : v.Ready) (hwv : w.Grows v)
    {ts : List (Term α w.Item)} (hts : ∀ t ∈ ts, t.Over P) :
    (buildAll R Workspace.Item.find ts).Safe v (w.Misplaced P) fun ops u =>
      v.AddsNoInput u ∧ List.Forall₂ (Amounts R w.active u) ts ops := by
  have hsafe := safe_buildAll_amounts R hw hv hwv ts
  rw [hwv.active_eq] at hsafe
  exact hsafe.weaken fun ⟨t, ht, hnone⟩ => ⟨t, hts t ht, hnone⟩

theorem safe_buildAfter_over (R : Rules α) (hw : w.Ready) (hv : v.Ready) (hwv : w.Grows v)
    {first results : List (Term α w.Item)} (hfirst : ∀ t ∈ first, t.Over P)
    (hresults : ∀ t ∈ results, t.Over P) :
    (buildAfter R Workspace.Item.find first results).Safe v (w.Misplaced P) fun ops u =>
      v.AddsNoInput u ∧ List.Forall₂ (Amounts R w.active u) results ops := by
  refine Build.Safe.bind (safe_buildAll_over R hw hv hwv hfirst).discard ?_
  rintro - u hu hvu ⟨-, hinput, -⟩
  refine (safe_buildAll_over R hw hu (hwv.trans hvu) hresults).imp ?_
  rintro ops s - - ⟨hinput', hops⟩
  exact ⟨hinput.trans hinput', hops⟩

end Term
end

section
variable [DecidableEq α] [Hashable α] [Written α] {C : Calculus α} {w v u : Workspace α}

/-- The operand is a handle, and programs of it give `a xs` at every vector `xs`. -/
def Operand.Computes (C : Calculus α) (w : Workspace α) (x : Operand α) (a : Array α → α) : Prop :=
  ∃ h, x = .handle h ∧ ∀ settings, ∃ p, w.Evaluator settings (some h) [] p ∧
    ∀ xs, ∃ out, p.Gives C xs out ∧ out.primary = some (a xs)

theorem Operand.Denotes.computes (hw : w.Ready) {h : Handle} {a : Array α → α}
    (ha : ∀ xs, (Operand.handle h).Denotes (Node.value C.rules xs) w (a xs)) :
    (Operand.handle h).Computes C w a := by
  have hindex : h.index < (w.tape h.tape).size := ((ha #[]).on h rfl).2
  have ht := hw.valid h.tape
  have hne : (some h).toList ++ [] ≠ [] := List.cons_ne_nil h []
  refine ⟨h, rfl, fun settings => ?_⟩
  obtain ⟨g, p, hp, hg, hcompiles, -⟩ :=
    Workspace.exists_evaluator ht settings hne (by simpa using hindex)
  refine ⟨p, hp, fun xs => ?_⟩
  have : Nonempty α := ⟨C.adjoints.zero⟩
  obtain ⟨V, hV⟩ := ht.ranked.exists_evaluates C.rules xs
  obtain ⟨out, -, hgives, hprimary, -⟩ := hg.exists_gives ht (by simp [hindex]) hcompiles hV
  refine ⟨out, hgives, ?_⟩
  cases ha xs with
  | handle _ hmeaning => exact hprimary.trans (congrArg some (hmeaning V hV))

namespace Workspace.Item

theorem exists_declared (s : α) : ∃ (w : Workspace α) (x : w.Item) (h : Handle), w.Ready ∧
    x.operand = .handle h ∧ h.tape = w.active ∧
    (w.tape h.tape).nodes[h.index]? = some (.input 0 s) ∧ (w.tape w.active).numInputs = 1 := by
  obtain ⟨y, w, -, hw, -, htape, hnode, hdeclares, -⟩ :=
    (safe_declareInput (F := False) ready_start declares_start s).exists_run
  have hon : (Operand.handle y : Operand α).On w := by
    rintro z ⟨⟩
    rw [htape]
    exact ⟨hw.active_lt, Tape.lt_size hnode⟩
  rw [← htape] at hnode
  exact ⟨w, ⟨.handle y, hon, by rintro e ⟨⟩⟩, y, hw, rfl, htape, hnode, hdeclares.numInputs_eq hw⟩

theorem exists_input (s : α) : ∃ (w : Workspace α) (x : w.Item), w.Ready ∧ x.place = some w.active ∧
    (w.tape w.active).numInputs = 1 ∧ (∀ R xs, x.value R xs = xs[0]?.getD s) ∧
      ∀ [CommRing α] (C : Calculus α) xs i, x.derivative C xs i = if 0 = i then 1 else 0 := by
  obtain ⟨w, x, h, hw, hx, htape, hnode, hnum⟩ := exists_declared s
  refine ⟨w, x, hw, ?_, hnum, fun R xs => x.value_of_input hw hx hnode R xs,
    fun C xs i => x.derivative_of_input hw hx hnode C xs i⟩
  rw [place, hx, ← htape]
  rfl

theorem computes (hw : w.Ready) (x : w.Item) {k : Nat} (hx : x.place = some k) :
    x.operand.Computes C w fun xs => x.value C.rules xs := by
  have hdenotes := fun xs => x.denotes hw (Node.value C.rules xs)
  simp only [meaning_value] at hdenotes
  obtain ⟨x, hon, hfit⟩ := x
  cases x with
  | handle h => exact Operand.Denotes.computes hw hdenotes
  | number a => cases hx
  | unfit e => cases hx

end Workspace.Item

namespace Term

/-- An operator that is built computes the value of its tree. -/
theorem Amounts.computes {active : Nat} {e : Term α w.Item} {x : Operand α}
    (h : e.Amounts C.rules active u x) (he : e.IsOperator) (hu : u.Ready) :
    x.Computes C u fun xs => e.value C.rules (Workspace.Item.value C.rules xs) := by
  obtain ⟨y, rfl, -⟩ := h.exists_handle he
  exact Operand.Denotes.computes hu h.denotes

def Computes (C : Calculus α) (e : Term α w.Item) (a : Array α → α) : Prop :=
  ∀ v, v.Ready → w.Grows v →
    (e.Over Workspace.Item.Active → ∃ x u, (e.build C.rules Workspace.Item.find).run v = (.ok x, u)) ∧
    ∀ x u, (e.build C.rules Workspace.Item.find).run v = (.ok x, u) → x.Computes C u a

theorem IsOperator.computes {e : Term α w.Item} (he : e.IsOperator) (hw : w.Ready) {a : Array α → α}
    (ha : ∀ xs, e.value C.rules (Workspace.Item.value C.rules xs) = a xs) : e.Computes C a := by
  obtain rfl : (fun xs => e.value C.rules (Workspace.Item.value C.rules xs)) = a := funext ha
  intro v hv hwv
  have hsafe := safe_build_amounts C.rules hw hv hwv e
  refine ⟨fun hover => ?_, fun x u hrun => ?_⟩
  · have hplace : ¬e.place v.active Workspace.Item.place = none := by
      rw [hwv.active_eq]
      obtain ⟨l, hl, -⟩ := exists_place_of_over hover
      rw [hl]
      exact Option.some_ne_none l
    obtain ⟨x, u, hrun, -⟩ := (hsafe.weaken hplace).exists_run
    exact ⟨x, u, hrun⟩
  · obtain ⟨hu, -, -, hx⟩ := hsafe.of_run hrun
    exact hx.computes he hu

end Term
end
end ScalarGraph
