import ScalarGraph.Proofs.Term.Outputs

/-! # Programs around an operand

A program is built around a hole, for which some code gives an operand. All that counts of this code is
the tape that its operand is on and what that means: the tape tells whether the program can be built, and
the meaning what it gives.
-/
namespace ScalarGraph
variable {α β : Type} [DecidableEq α] [Hashable α]

def Operand.Within (w : Workspace α) (k : Nat) : Operand α → Prop
  | handle h => h.tape = k ∧ h.index < (w.tape k).size
  | number _ => True
  | unfit _ => False

structure Workspace.Part (w : Workspace α) (k : Nat) where
  operand : Operand α
  within : operand.Within w k

/-- The tree of an operand. -/
def Operand.tree (w : Workspace α) : Operand α → Term α (Nat × α)
  | handle h => (w.tape h.tape).unfolding h.index
  | number x => .number x
  | unfit _ => default

variable {R : Rules α} {f : Node α β → β} {w v : Workspace α} {k : Nat}

namespace Workspace.Part

theorem tape?_cases (x : w.Part k) : x.operand.tape? = none ∨ x.operand.tape? = some k := by
  obtain ⟨x, hx⟩ := x
  cases x with
  | handle h => exact .inr (congrArg some hx.1)
  | number a => exact .inl rfl
  | unfit e => exact .inl rfl

theorem denotes (hw : w.Ready) (f : Node α β → β) (x : w.Part k) :
    x.operand.Denotes f w ((x.operand.tree w).meaning f) := by
  obtain ⟨x, hx⟩ := x
  cases x with
  | handle h =>
    obtain ⟨rfl, hindex⟩ := hx
    have ht := hw.valid h.tape
    obtain ⟨n, hn⟩ := Tape.exists_node hindex
    refine .handle ?_ fun V hV => ?_
    · rintro y ⟨⟩
      exact ⟨Workspace.lt_size_of_lt_tape hindex, hindex⟩
    · exact hV.eq_meaning ht.ranked ht.exists_operand (fun _ _ hn => ht.unfolding_eq hn) _ n hn
  | number a => exact .number a
  | unfit e => exact hx.elim

theorem forall₂_denotes (hw : w.Ready) (f : Node α β → β) (xs : List (w.Part k)) :
    List.Forall₂ (Operand.Denotes f w) (xs.map operand) (xs.map fun x => (x.operand.tree w).meaning f) := by
  rw [List.forall₂_map_left_iff, List.forall₂_map_right_iff, List.forall₂_same]
  exact fun x _ => x.denotes hw f

def value (R : Rules α) (pts : Array α) (x : w.Part k) : α :=
  (x.operand.tree w).value R fun p => pts[p.1]?.getD p.2

def derivative [CommRing α] (C : Calculus α) (pts : Array α) (i : Nat) (x : w.Part k) : α :=
  (x.operand.tree w).derivative C (fun p => pts[p.1]?.getD p.2) fun p => if p.1 = i then 1 else 0

theorem meaning_value (R : Rules α) (pts : Array α) (x : w.Part k) :
    (x.operand.tree w).meaning (Node.value R pts) = x.value R pts :=
  Term.fold_value R pts (fun p : Nat × α => pts[p.1]?.getD p.2) (x.operand.tree w)

def tangent [CommRing α] (C : Calculus α) (pts : Array α) (i : Nat) (x : w.Part k) : α × α :=
  (x.value C.rules pts, x.derivative C pts i)

theorem meaning_tangent [CommRing α] (C : Calculus α) (pts : Array α) (i : Nat) (x : w.Part k) :
    (x.operand.tree w).meaning (Node.tangent C pts i) = x.tangent C pts i :=
  Term.fold_tangent C pts i _ _ (x.operand.tree w)

theorem locates (hw : w.Ready) (hf : R.Folds f) :
    Term.Locates R f (fun x : w.Part k => pure x.operand) w.active (fun x => x.operand.tape?)
      (fun x => (x.operand.tree w).meaning f) fun u => w.AddsNoInput u ∧ w.Grows u where
  folds := hf
  active_eq _ hu := hu.2.active_eq
  kept _ _ hu hus hinput := ⟨hu.1.trans hinput, hu.2.trans hus⟩
  found x _ hu hi := Build.safe_pure hu ⟨hi, rfl, (x.denotes hw f).grows hi.2⟩

end Workspace.Part

def Operand.orHole (y : Operand α) : Option (w.Part k) → Operand α
  | none => y
  | some x => x.operand

def Workspace.Part.placeOr (l : Option Nat) : Option (w.Part k) → Option Nat
  | none => l
  | some x => x.operand.tape?

def Workspace.Part.meaningOr (f : Node α β → β) (b : β) : Option (w.Part k) → β
  | none => b
  | some x => (x.operand.tree w).meaning f

/-- The root of a term around the operand that `b` gives. -/
def Term.rootAround (R : Rules α) (b : Build α (Operand α)) (e : Term α (Option (w.Part k))) :
    Build α Handle := do
  let y ← b
  (← e.build R fun v => pure (y.orHole v)).ensured

theorem locates_orHole (hw : w.Ready) (hf : R.Folds f) {y : Operand α} {b : β} (hwv : w.Grows v)
    (hy : y.Denotes f v b) :
    Term.Locates R f (fun l => pure (y.orHole l)) w.active (Workspace.Part.placeOr (w := w) (k := k) y.tape?)
      (Workspace.Part.meaningOr f b) fun u => w.AddsNoInput u ∧ v.Grows u where
  folds := hf
  active_eq u hu := hu.2.active_eq.trans hwv.active_eq
  kept u s hu hus hinput := ⟨hu.1.trans hinput, hu.2.trans hus⟩
  found l u hu hi := by
    refine Build.safe_pure hu ⟨hi, ?_⟩
    cases l with
    | none => exact ⟨rfl, hy.grows hi.2⟩
    | some x => exact ⟨rfl, (x.denotes hw f).grows (hwv.trans hi.2)⟩

/-- Around an operand that can be given the root is built wherever the term has a tape for it, and means
what the tree does. -/
theorem Term.safe_rootAround (hw : w.Ready) (hf : R.Folds f) {b : Build α (Operand α)}
    {l : Option Nat} {c : β} (hb : b.Safe w False fun y v => w.AddsNoInput v ∧ y.tape? = l ∧ y.Denotes f v c)
    (e : Term α (Option (w.Part k))) :
    (e.rootAround R b).Safe w (e.rootTape w.active (Workspace.Part.placeOr l) = none) fun y v =>
      w.AddsNoInput v ∧ e.rootTape w.active (Workspace.Part.placeOr l) = some y.tape ∧
        (Operand.handle y).Denotes f v (e.fold f (Workspace.Part.meaningOr f c)) := by
  refine Build.Safe.bind (hb.weaken False.elim) ?_
  rintro y v hv hwv ⟨hinput, rfl, hy⟩
  refine (safe_root_denotes (locates_orHole hw hf hwv hy) e hv ⟨hinput, .refl v⟩).imp ?_
  rintro x u - - ⟨⟨hinput', -⟩, hplace, hx⟩
  exact ⟨hinput', hplace, hx⟩

theorem Term.fold_meaningOr_value (R : Rules α) (pts : Array α) (b : α) (e : Term α (Option (w.Part k))) :
    e.fold (Node.value R pts) (Workspace.Part.meaningOr (Node.value R pts) b) =
      e.value R fun l => l.elim b (Workspace.Part.value R pts) := by
  rw [← Term.fold_value R pts]
  congr 1
  funext l
  cases l with
  | none => rfl
  | some x => exact x.meaning_value R pts

theorem Term.fold_meaningOr_tangent [CommRing α] (C : Calculus α) (pts : Array α) (i : Nat) (b : α × α)
    (e : Term α (Option (w.Part k))) :
    e.fold (Node.tangent C pts i) (Workspace.Part.meaningOr (Node.tangent C pts i) b) =
      (e.value C.rules fun l => l.elim b.1 (Workspace.Part.value C.rules pts),
        e.derivative C (fun l => l.elim b.1 (Workspace.Part.value C.rules pts))
          fun l => l.elim b.2 (Workspace.Part.derivative C pts i)) := by
  rw [← Term.fold_tangent C pts i]
  congr 1
  funext l
  cases l with
  | none => rfl
  | some x => exact x.meaning_tangent C pts i

theorem rootTape_placeOr_active (e : Term α (Option (w.Part k))) (hk : k = w.active) {l : Option Nat}
    (hl : l = none ∨ l = some k) : e.rootTape w.active (Workspace.Part.placeOr l) = some w.active := by
  subst hk
  apply Term.rootTape_of_active
  rintro (_ | y)
  · exact hl
  · exact y.tape?_cases

variable [Written α]

def Term.programAround (R : Rules α) (b : Build α (Operand α)) (settings : Option Settings)
    (e : Term α (Option (w.Part k))) : Build α (Program α) := do
  let y ← b
  e.program R (fun v => pure (y.orHole v)) settings

/-- The program of a root on a consistent tape with `n` positions. In every way that folding keeps the root
means what `M` gives. -/
def Program.Means (R : Rules α) (p : Program α) (n : Nat) (M : ∀ β : Type, (Node α β → β) → β) : Prop :=
  ∃ (t : Tape α) (r : Nat) (g : Graph α), t.Valid ∧ r < t.size ∧ t.Extracts (some r) [] g ∧
    p.Compiles g ∧ t.numInputs = n ∧
    ∀ (β : Type) (f : Node α β → β), R.Folds f → ∀ V, t.net.Solves f V → V r = M β f

theorem Program.Means.yields {p : Program α} {n : Nat} {M : ∀ β : Type, (Node α β → β) → β}
    (h : p.Means R n M) : p.Yields R n fun β f => (some (M β f), []) := by
  obtain ⟨t, r, g, ht, hr, hextracts, hp, hn, hmeaning⟩ := h
  refine ⟨t, some r, [], g, ht, by simpa using hr, hextracts, hp, hn, fun β f hf V hV => ?_⟩
  exact congrArg (fun b => (some b, [])) (hmeaning β f hf V hV)

/-- A program gives the value that its root means and, with exact adjoints, its derivatives. -/
theorem Program.Means.exists_run {C : Calculus α} {p : Program α} {n : Nat}
    {M : ∀ β : Type, (Node α β → β) → β} (h : p.Means C.rules n M) (xs : Array α) :
    ∃ out, p.run C xs = some out ∧ out.primary = some (M α (Node.value C.rules xs)) ∧
      out.gradient.size = max n xs.size ∧
      ∀ [CommRing α], C.adjoints.Exact → ∀ i,
        out.gradient.getD i 0 = (M (α × α) (Node.tangent C xs i)).2 := by
  obtain ⟨out, hrun, hprimary, -, hsize, hgradient⟩ := h.yields.exists_run xs
  exact ⟨out, hrun, hprimary, hsize, hgradient⟩

theorem exists_program_of_root {F : Prop} {T : Handle → Prop} {root : Build α Handle}
    {M : ∀ β : Type, (Node α β → β) → β} (hw : w.Ready)
    (hroot : ∀ (β : Type) (f : Node α β → β), R.Folds f →
      root.Safe w F fun y v => w.AddsNoInput v ∧ T y ∧ (Operand.handle y).Denotes f v (M β f))
    {y : Handle} {u : Workspace α} (hrun : root.run w = (.ok y, u)) (settings : Option Settings) :
    ∃ p log, (makeGraph (some y) [] >>= fun g => g.compile settings).run u = (.ok p, { u with log }) ∧
      p.Means R (w.tape y.tape).numInputs M := by
  obtain ⟨hu, hgrows, hinput, -, hy⟩ := (hroot Unit (fun _ => ()) fun _ _ => rfl).of_run hrun
  have hindex := (hy.on y rfl).2
  obtain ⟨g, p, log, hcompile, hextracts, hp⟩ := Term.exists_compile_root hu hindex settings
  refine ⟨p, log, hcompile, u.tape y.tape, y.index, g, hu.valid _, hindex, hextracts, hp, ?_,
    fun β f hf V hV => ?_⟩
  · exact hgrows.numInputs_eq hw hu hinput y.tape
  · obtain ⟨-, -, -, -, hmeans⟩ := (hroot β f hf).of_run hrun
    cases hmeans with
    | handle _ hmeaning => exact hmeaning V hV

theorem Term.programAround_eq (R : Rules α) (b : Build α (Operand α)) (settings : Option Settings)
    (e : Term α (Option (w.Part k))) : e.programAround R b settings =
      e.rootAround R b >>= fun h => makeGraph (some h) [] >>= fun g => g.compile settings := by
  unfold programAround program rootAround
  simp only [bind_assoc]

/-- What is built around an operand that can be given fails where the term has no tape for its root, and
else has a program whose root means what the tree does. -/
theorem Term.programAround_cases {b : Build α (Operand α)} {l : Option Nat}
    {M : ∀ β : Type, (Node α β → β) → β} (hw : w.Ready)
    (hb : ∀ (β : Type) (f : Node α β → β), R.Folds f →
      b.Safe w False fun y v => w.AddsNoInput v ∧ y.tape? = l ∧ y.Denotes f v (M β f))
    (settings : Option Settings) (e : Term α (Option (w.Part k))) :
    (e.rootTape w.active (Workspace.Part.placeOr l) = none ∧
      ∃ err v, (e.programAround R b settings).run w = (.error err, v)) ∨
    ∃ j p v, e.rootTape w.active (Workspace.Part.placeOr l) = some j ∧
      (e.programAround R b settings).run w = (.ok p, v) ∧
      p.Means R (w.tape j).numInputs fun β f =>
        e.fold f (Workspace.Part.meaningOr f (M β f)) := by
  -- the root is built in the same way for all meanings
  have hroot := fun (β : Type) (f : Node α β → β) (hf : R.Folds f) =>
    e.safe_rootAround hw hf (hb β f hf)
  have hunit := hroot Unit (fun _ => ()) fun _ _ => rfl
  rw [programAround_eq]
  rcases hrun : (e.rootAround R b).run w with ⟨err | y, u⟩
  · exact .inl ⟨hunit.of_error err (by rw [hrun]), err, u, Build.run_bind_error hrun⟩
  · obtain ⟨-, -, -, htape, -⟩ := hunit.of_run hrun
    obtain ⟨p, log, hcompile, hp⟩ := exists_program_of_root hw hroot hrun settings
    exact .inr ⟨y.tape, p, { u with log }, htape, (Build.run_bind_ok hrun).trans hcompile, hp⟩

end ScalarGraph
