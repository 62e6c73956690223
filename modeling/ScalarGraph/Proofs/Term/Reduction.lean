import ScalarGraph.Proofs.Dual
import ScalarGraph.Proofs.Term.Around

/-! # Reductions as one node and from the left

A reduction is one node over all its operands. Its operator of two operands can be applied from the left
instead, which folds constants on the way. Programs that are built around the two agree, wherever the first
handle comes early enough for the intermediate results to stand on its tape.
-/
namespace ScalarGraph
variable {α β : Type} [DecidableEq α] [Hashable α] {R : Rules α} {o : NaryOp} {f : Node α β → β}
  {w v : Workspace α} {k : Nat}

def reduceOnce (R : Rules α) (o : NaryOp) (xs : List (Operand α)) : Build α (Operand α) := do
  return .handle (← construct R (.nary o xs))

def reduceStep (R : Rules α) (o : NaryOp) (x y : Operand α) : Build α (Operand α) := do
  return .handle (← construct R (.binary o.pairwise x y))

/-- The operator of two operands, applied from the left. -/
def reduceLeft (R : Rules α) (o : NaryOp) (x : Operand α) (xs : List (Operand α)) :
    Build α (Operand α) := xs.foldlM (reduceStep R o) x

theorem safe_handle_of_place (hw : w.Ready) (hf : R.Folds f) {n : Node α (Operand α)} {m : Node α β}
    (hop : n.op.isTerminal = false) (hsame : m.op = n.op)
    (hn : List.Forall₂ (Operand.Denotes f w) n.operands m.operands)
    (hk : sharedPlace w.active (n.operands.map Operand.tape?) = some k) :
    (do return .handle (← construct R n) : Build α (Operand α)).Safe w False fun x v =>
      w.AddsNoInput v ∧ x.tape? = some k ∧ x.Denotes f v (f m) := by
  have hsafe := safe_construct_denotes hw hf hop hsame hn
  refine Build.Safe.bind (hsafe.weaken fun hnone => by rw [hk] at hnone; cases hnone) ?_
  rintro h v hv - ⟨hshared, hinput, hh⟩
  exact Build.safe_pure hv ⟨hinput, hshared.symm.trans hk, hh⟩

theorem sharedPlace_of_within {xs : List (Operand α)}
    (hwithin : ∀ x ∈ xs, x.tape? = none ∨ x.tape? = some k)
    (hk : k = w.active ∨ some k ∈ xs.map Operand.tape?) :
    sharedPlace w.active (xs.map Operand.tape?) = some k := by
  refine sharedPlace_eq_some (fun j hj => ?_) hk
  obtain ⟨x, hx, hxj⟩ := List.mem_map.mp hj
  rcases hwithin x hx with h | h
  · rw [h] at hxj
    cases hxj
  · exact Option.some.inj (hxj.symm.trans h)

theorem safe_reduceOnce (hw : w.Ready) (hf : R.Folds f) {xs : List (Operand α)} {bs : List β}
    (hxs : List.Forall₂ (Operand.Denotes f w) xs bs)
    (hwithin : ∀ x ∈ xs, x.tape? = none ∨ x.tape? = some k)
    (hk : k = w.active ∨ some k ∈ xs.map Operand.tape?) :
    (reduceOnce R o xs).Safe w False fun y v =>
      w.AddsNoInput v ∧ y.tape? = some k ∧ y.Denotes f v (f (.nary o bs)) :=
  safe_handle_of_place (n := .nary o xs) (m := .nary o bs) hw hf rfl rfl hxs
    (sharedPlace_of_within hwithin hk)

theorem safe_reduceLeft (hw : w.Ready) (hf : R.Folds f) {x : Operand α} {xs : List (Operand α)} {b : β}
    {bs : List β} (hx : x.Denotes f w b) (hxs : List.Forall₂ (Operand.Denotes f w) xs bs)
    (hwithin : ∀ y ∈ x :: xs, y.tape? = none ∨ y.tape? = some k)
    (hk : k = w.active ∨ some k ∈ ((x :: xs).take 2).map Operand.tape?) :
    (reduceLeft R o x xs).Safe w False fun y v => w.AddsNoInput v ∧
      y.tape? = (if xs.isEmpty then x.tape? else some k) ∧
      y.Denotes f v (bs.foldl (fun b c => f (.binary o.pairwise b c)) b) := by
  induction xs generalizing w x b bs with
  | nil =>
    cases hxs
    exact Build.safe_pure hw ⟨fun _ _ _ _ h => h, rfl, hx⟩
  | cons y xs ih =>
    obtain ⟨c, cs, hy, hys, rfl⟩ := List.forall₂_cons_left_iff.mp hxs
    obtain ⟨hxk, hyk, hxsk⟩ : _ ∧ _ ∧ _ := by simpa using hwithin
    have hstep := safe_handle_of_place (n := .binary o.pairwise x y) (m := .binary o.pairwise b c) hw hf
      rfl rfl (.cons hx (.cons hy .nil)) (sharedPlace_of_within (by simp [Node.operands, hxk, hyk]) hk)
    rw [reduceLeft, List.foldlM_cons]
    refine Build.Safe.bind hstep ?_
    rintro z v hv hwv ⟨hinput, hz, hzb⟩
    have hrest := ih hv hzb (hys.imp fun _ _ h => h.grows hwv)
      (List.forall_mem_cons.mpr ⟨.inr hz, hxsk⟩) (.inr (by simp [hz]))
    refine hrest.imp ?_
    rintro u s - - ⟨hinput', hu, hub⟩
    refine ⟨hinput.trans hinput', ?_, hub⟩
    rw [hu, hz, ite_self]
    rfl

variable {x : w.Part k} {xs : List (w.Part k)}

def onceMeaning (o : NaryOp) (xs : List (w.Part k)) (β : Type) (f : Node α β → β) : β :=
  f (.nary o (xs.map fun y => (y.operand.tree w).meaning f))

def leftMeaning (o : NaryOp) (x : w.Part k) (xs : List (w.Part k)) (β : Type) (f : Node α β → β) : β :=
  (xs.map fun y => (y.operand.tree w).meaning f).foldl (fun b c => f (.binary o.pairwise b c))
    ((x.operand.tree w).meaning f)

theorem safe_reduceOnce_parts (hw : w.Ready) (hf : R.Folds f)
    (hk : k = w.active ∨ some k ∈ xs.map fun y => y.operand.tape?) :
    (reduceOnce R o (xs.map Workspace.Part.operand)).Safe w False fun y v =>
      w.AddsNoInput v ∧ y.tape? = some k ∧ y.Denotes f v (onceMeaning o xs β f) := by
  refine safe_reduceOnce hw hf (Workspace.Part.forall₂_denotes hw f xs)
    (List.forall_mem_map.mpr fun y _ => y.tape?_cases) ?_
  rwa [List.map_map]

theorem safe_reduceLeft_parts (hw : w.Ready) (hf : R.Folds f)
    (hk : k = w.active ∨ some k ∈ ((x :: xs).take 2).map fun y => y.operand.tape?) :
    (reduceLeft R o x.operand (xs.map Workspace.Part.operand)).Safe w False fun y v =>
      w.AddsNoInput v ∧ y.tape? = (if xs.isEmpty then x.operand.tape? else some k) ∧
        y.Denotes f v (leftMeaning o x xs β f) := by
  have hsafe := safe_reduceLeft (o := o) (k := k) hw hf (x.denotes hw f)
    (Workspace.Part.forall₂_denotes hw f xs) ?_ ?_
  · rwa [List.isEmpty_map] at hsafe
  · rw [← List.map_cons]
    exact List.forall_mem_map.mpr fun y _ => y.tape?_cases
  · rw [← List.map_cons, ← List.map_take, List.map_map]
    exact hk

/-- What the operator of two operands gives is on the same tape as the one node, or it is a number
where that is on the active tape. -/
theorem rootTape_placeOr (e : Term α (Option (w.Part k)))
    (hk : k = w.active ∨ some k ∈ ((x :: xs).take 2).map fun y => y.operand.tape?) :
    e.rootTape w.active (Workspace.Part.placeOr (if xs.isEmpty then x.operand.tape? else some k)) =
      e.rootTape w.active (Workspace.Part.placeOr (some k)) := by
  rcases hk with hk | hk
  · rw [rootTape_placeOr_active e hk (.inr rfl), rootTape_placeOr_active e hk]
    split
    · exact x.tape?_cases
    · exact .inr rfl
  · cases xs with
    | nil =>
      have hx : some k = x.operand.tape? := List.mem_singleton.mp hk
      rw [hx]
      rfl
    | cons y ys => rfl

section
variable {E : Elementary α} {A : Adjoints α} {pts : Array α} {i : Nat}

theorem onceMeaning_value (E : Elementary α) (pts : Array α) (o : NaryOp) (xs : List (w.Part k)) :
    onceMeaning o xs α (Node.value E.rules pts) =
      E.naryValue o (xs.map (Workspace.Part.value E.rules pts)) := by
  rw [onceMeaning, List.map_congr_left fun y _ => y.meaning_value E.rules pts]
  rfl

theorem leftMeaning_value (E : Elementary α) (pts : Array α) (o : NaryOp) (x : w.Part k)
    (xs : List (w.Part k)) : leftMeaning o x xs α (Node.value E.rules pts) =
      E.naryValue o ((x :: xs).map (Workspace.Part.value E.rules pts)) := by
  rw [leftMeaning, List.map_congr_left fun y _ => y.meaning_value E.rules pts, x.meaning_value,
    List.map_cons, Elementary.naryValue_cons]
  rfl

theorem onceMeaning_tangent [CommRing α] (C : Calculus α) (pts : Array α) (i : Nat) (o : NaryOp)
    (xs : List (w.Part k)) : onceMeaning o xs (α × α) (Node.tangent C pts i) =
      Node.tangent C pts i (.nary o (xs.map (Workspace.Part.tangent C pts i))) := by
  rw [onceMeaning, List.map_congr_left fun y _ => y.meaning_tangent C pts i]

theorem leftMeaning_tangent [CommRing α] (C : Calculus α) (pts : Array α) (i : Nat) (o : NaryOp)
    (x : w.Part k) (xs : List (w.Part k)) : leftMeaning o x xs (α × α) (Node.tangent C pts i) =
      (xs.map (Workspace.Part.tangent C pts i)).foldl
        (fun p q => Node.tangent C pts i (.binary o.pairwise p q)) (x.tangent C pts i) := by
  rw [leftMeaning, List.map_congr_left fun y _ => y.meaning_tangent C pts i, x.meaning_tangent]

theorem map_fst_tangent [CommRing α] (C : Calculus α) (pts : Array α) (i : Nat) (xs : List (w.Part k)) :
    (xs.map (Workspace.Part.tangent C pts i)).map Prod.fst = xs.map (Workspace.Part.value C.rules pts) := by
  rw [List.map_map]
  rfl

/-- The two reductions have one derivative. -/
theorem leftMeaning_eq_onceMeaning [CommRing α] (A : Adjoints α) (hzero : E.zero = 0) (hone : E.one = 1)
    (i : Nat) (hvalues : E.Reducible o ((x :: xs).map (Workspace.Part.value E.rules pts))) :
    leftMeaning o x xs (α × α) (Node.tangent (E.calculusWith A) pts i) =
      onceMeaning o (x :: xs) (α × α) (Node.tangent (E.calculusWith A) pts i) := by
  rw [leftMeaning_tangent, onceMeaning_tangent, List.map_cons]
  refine (Elementary.tangent_nary_eq_foldl A pts i hzero hone ?_).symm
  rwa [← List.map_cons, map_fst_tangent]

/-- A maximum or minimum has the derivative of the first operand whose value is the result. -/
theorem exists_onceMeaning_eq [CommRing α] (A : Adjoints α) (h : E.Ordered) (hzero : E.zero = 0)
    (hone : E.one = 1) (ho : o ≠ .sum)
    (hvalues : ∀ y ∈ x :: xs, E.isNaN (y.value E.rules pts) = false) :
    ∃ z, (x :: xs).find? (fun z => E.eq (z.value E.rules pts)
        (E.naryValue o ((x :: xs).map (Workspace.Part.value E.rules pts)))) = some z ∧
      ∀ i, onceMeaning o (x :: xs) (α × α) (Node.tangent (E.calculusWith A) pts i) =
        (E.naryValue o ((x :: xs).map (Workspace.Part.value E.rules pts)),
          z.derivative (E.calculusWith A) pts i) := by
  have hfirst : ∀ i, ∃ q, ((x :: xs).map (Workspace.Part.tangent (E.calculusWith A) pts i)).find?
        (fun q => E.eq q.1 (E.naryValue o ((x :: xs).map (Workspace.Part.value E.rules pts)))) = some q ∧
      onceMeaning o (x :: xs) (α × α) (Node.tangent (E.calculusWith A) pts i) =
        (E.naryValue o ((x :: xs).map (Workspace.Part.value E.rules pts)), q.2) := by
    intro i
    have hnan : ∀ q ∈ (x :: xs).map (Workspace.Part.tangent (E.calculusWith A) pts i),
        E.isNaN q.1 = false := List.forall_mem_map.mpr hvalues
    obtain ⟨q, hq, htangent, -⟩ := Elementary.tangent_nary_attained A pts i h hzero hone ho hnan
    rw [← List.map_cons, map_fst_tangent] at hq htangent
    exact ⟨q, hq, (onceMeaning_tangent _ _ _ _ _).trans htangent⟩
  simp only [List.find?_map, Option.map_eq_some_iff] at hfirst
  obtain ⟨_, ⟨z, hz, -⟩, -⟩ := hfirst 0
  refine ⟨z, hz, fun i => ?_⟩
  obtain ⟨_, ⟨y, hy, rfl⟩, htangent⟩ := hfirst i
  cases hy.symm.trans hz
  exact htangent

end

section
variable [Written α]

def Term.programOnce (R : Rules α) (o : NaryOp) (x : w.Part k) (xs : List (w.Part k))
    (settings : Option Settings) (e : Term α (Option (w.Part k))) : Build α (Program α) :=
  e.programAround R (reduceOnce R o ((x :: xs).map Workspace.Part.operand)) settings

def Term.programLeft (R : Rules α) (o : NaryOp) (x : w.Part k) (xs : List (w.Part k))
    (settings : Option Settings) (e : Term α (Option (w.Part k))) : Build α (Program α) :=
  e.programAround R (reduceLeft R o x.operand (xs.map Workspace.Part.operand)) settings

theorem Term.programOnce_programLeft_cases (hw : w.Ready)
    (hk : k = w.active ∨ some k ∈ ((x :: xs).take 2).map fun y => y.operand.tape?)
    (e : Term α (Option (w.Part k))) (settings : Option Settings) :
    (e.rootTape w.active (Workspace.Part.placeOr (some k)) = none ∧
      (∃ err v, (e.programOnce R o x xs settings).run w = (.error err, v)) ∧
      ∃ err v, (e.programLeft R o x xs settings).run w = (.error err, v)) ∨
    ∃ n p v q u, (e.programOnce R o x xs settings).run w = (.ok p, v) ∧
      (e.programLeft R o x xs settings).run w = (.ok q, u) ∧
      p.Means R n (fun _ f => e.fold f (Workspace.Part.meaningOr f (onceMeaning o (x :: xs) _ f))) ∧
      q.Means R n fun _ f => e.fold f (Workspace.Part.meaningOr f (leftMeaning o x xs _ f)) := by
  have hmem : k = w.active ∨ some k ∈ (x :: xs).map fun y => y.operand.tape? :=
    hk.imp_right fun h => List.mem_of_mem_take (List.map_take ▸ h)
  have honce := Term.programAround_cases (R := R) hw
    (fun _ _ hf => safe_reduceOnce_parts (o := o) hw hf hmem) settings e
  have hleft := Term.programAround_cases (R := R) hw
    (fun _ _ hf => safe_reduceLeft_parts (o := o) hw hf hk) settings e
  rw [rootTape_placeOr e hk] at hleft
  rcases honce with ⟨hnone, honce⟩ | ⟨j, p, v, hj, honce, hp⟩
  · rcases hleft with ⟨-, hleft⟩ | ⟨j, q, u, hj, -, -⟩
    · exact .inl ⟨hnone, honce, hleft⟩
    · cases hnone.symm.trans hj
  · rcases hleft with ⟨hnone, -⟩ | ⟨j', q, u, hj', hleft, hq⟩
    · cases hnone.symm.trans hj
    · cases hj.symm.trans hj'
      exact .inr ⟨_, p, v, q, u, honce, hleft, hp, hq⟩

/-- One node over the operands and its operator applied from the left serve alike in a larger program:
it is built around both or around none, always on the active tape, and gives the same
values and gradients. The gradient of a maximum or minimum goes to the first operand that attains it. -/
theorem programOnce_agrees {E : Elementary α} (hw : w.Reached E.rules) (A : Adjoints α) (o : NaryOp)
    (x : w.Part k) (xs : List (w.Part k))
    (hk : k = w.active ∨ some k ∈ ((x :: xs).take 2).map fun y => y.operand.tape?)
    (e : Term α (Option (w.Part k))) (settings : Option Settings) :
    ((∃ p v, (e.programOnce E.rules o x xs settings).run w = (.ok p, v)) ↔
      ∃ q u, (e.programLeft E.rules o x xs settings).run w = (.ok q, u)) ∧
    (k = w.active ∨ e = .leaf none →
      ∃ p v, (e.programOnce E.rules o x xs settings).run w = (.ok p, v)) ∧
    ∀ p v q u, (e.programOnce E.rules o x xs settings).run w = (.ok p, v) →
      (e.programLeft E.rules o x xs settings).run w = (.ok q, u) → ∀ pts : Array α,
      let y := E.naryValue o ((x :: xs).map (Workspace.Part.value E.rules pts))
      let leafValue := fun l : Option (w.Part k) => l.elim y (Workspace.Part.value E.rules pts)
      ∃ out out', p.run (E.calculusWith A) pts = some out ∧ q.run (E.calculusWith A) pts = some out' ∧
        out.primary = some (e.value E.rules leafValue) ∧ out'.primary = out.primary ∧
        out'.gradient.size = out.gradient.size ∧
        ∀ [CommRing α], A.Exact → E.zero = 0 → E.one = 1 →
          E.Reducible o ((x :: xs).map (Workspace.Part.value E.rules pts)) →
          out'.gradient = out.gradient ∧
          (o ≠ .sum → ∃ z, (x :: xs).find? (fun z => E.eq (z.value E.rules pts) y) = some z ∧
            ∀ i, out.gradient.getD i 0 = e.derivative (E.calculusWith A) leafValue fun l =>
              l.elim (z.derivative (E.calculusWith A) pts i)
                (Workspace.Part.derivative (E.calculusWith A) pts i)) := by
  rcases e.programOnce_programLeft_cases (R := E.rules) (o := o) hw.ready hk settings with
    ⟨hnone, ⟨err, v, honce⟩, err', u, hleft⟩ | ⟨n, p, v, q, u, honce, hleft, hp, hq⟩
  · rw [honce, hleft]
    refine ⟨⟨?_, ?_⟩, ?_, ?_⟩
    · rintro ⟨p, v, ⟨⟩⟩
    · rintro ⟨q, u, ⟨⟩⟩
    · rintro (hactive | rfl)
      · cases hnone.symm.trans (rootTape_placeOr_active e hactive (.inr rfl))
      · cases hnone
    · rintro p v q u ⟨⟩
  · refine ⟨⟨fun _ => ⟨q, u, hleft⟩, fun _ => ⟨p, v, honce⟩⟩, fun _ => ⟨p, v, honce⟩, ?_⟩
    intro p' v' q' u' honce' hleft' pts y leafValue
    cases honce.symm.trans honce'
    cases hleft.symm.trans hleft'
    obtain ⟨out, hrun, hprimary, hsize, hgradient⟩ := hp.exists_run (C := E.calculusWith A) pts
    obtain ⟨out', hrun', hprimary', hsize', hgradient'⟩ := hq.exists_run (C := E.calculusWith A) pts
    refine ⟨out, out', hrun, hrun', ?_, ?_, hsize'.trans hsize.symm, fun hA hzero hone hvalues => ?_⟩
    · rw [hprimary, Term.fold_meaningOr_value, Elementary.rules_calculusWith, onceMeaning_value]
    · rw [hprimary, hprimary', Elementary.rules_calculusWith, onceMeaning_value, leftMeaning_value]
    · refine ⟨Array.ext (hsize'.trans hsize.symm) fun i _ _ => ?_, fun ho => ?_⟩
      · rw [Array.getElem_eq_getD 0, Array.getElem_eq_getD 0, hgradient hA i, hgradient' hA i,
          leftMeaning_eq_onceMeaning A hzero hone i hvalues]
      · obtain ⟨hordered, hnan⟩ := hvalues.resolve_left ho
        obtain ⟨z, hz, hmeaning⟩ := exists_onceMeaning_eq A hordered hzero hone ho
          (List.forall_mem_map.mp hnan)
        refine ⟨z, hz, fun i => ?_⟩
        rw [hgradient hA i, hmeaning i, Term.fold_meaningOr_tangent]
        rfl

/-- The operations of the ordered field of rational numbers, and no others. -/
abbrev Elementary.rationals : Elementary ℚ := .ofField default

/-- The greatest of an input, 5 and the input again, squared. -/
theorem programOnce_agrees_squaredGreatest : ∃ (w : Workspace ℚ) (x : w.Part w.active),
    w.Reached Elementary.rationals.rules ∧
    ∃ p v q u out out',
      (Term.programOnce Elementary.rationals.rules .max x [⟨.number 5, trivial⟩, x] none
        (.binary .mul (.leaf none) (.leaf none))).run w = (.ok p, v) ∧
      (Term.programLeft Elementary.rationals.rules .max x [⟨.number 5, trivial⟩, x] none
        (.binary .mul (.leaf none) (.leaf none))).run w = (.ok q, u) ∧
      p.run Elementary.rationals.calculus #[7] = some out ∧
      q.run Elementary.rationals.calculus #[7] = some out' ∧
      out.primary = some 49 ∧ out'.primary = some 49 ∧ out'.gradient = out.gradient ∧
      out.gradient.getD 0 0 = 14 := by
  obtain ⟨w, y, -, hw, htape, hnode⟩ := exists_input Elementary.rationals.rules (3 : ℚ)
  have hx : (Operand.handle y).Within w w.active := ⟨htape, Tape.lt_size hnode⟩
  let x : w.Part w.active := ⟨.handle y, hx⟩
  have htree : x.operand.tree w = .leaf (0, 3) := by
    rw [← htape] at hnode
    exact (hw.ready.valid y.tape).unfolding_eq hnode
  obtain ⟨hboth, hbuilt, hagree⟩ := programOnce_agrees hw Elementary.rationals.adjoints .max x
    [⟨.number 5, trivial⟩, x] (.inl rfl) (.binary .mul (.leaf none) (.leaf none)) none
  obtain ⟨p, v, honce⟩ := hbuilt (.inl rfl)
  obtain ⟨q, u, hleft⟩ := hboth.mp ⟨p, v, honce⟩
  obtain ⟨out, out', hrun, hrun', hprimary, hsame, -, hgradient⟩ := hagree p v q u honce hleft #[7]
  have hvalue : x.value Elementary.rationals.rules #[7] = 7 := by
    rw [Workspace.Part.value, htree]
    rfl
  have hderivative : x.derivative Elementary.rationals.calculus #[7] 0 = 1 := by
    rw [Workspace.Part.derivative, htree]
    rfl
  obtain ⟨hgradients, hfirst⟩ := hgradient (Elementary.exact_ofField default) rfl rfl
    (.inr ⟨Elementary.ordered_ofField default, fun _ _ => rfl⟩)
  obtain ⟨z, hz, hmoved⟩ := hfirst (by decide)
  have hmax : Elementary.rationals.naryValue .max
      ([x, ⟨.number 5, trivial⟩, x].map (Workspace.Part.value Elementary.rationals.rules #[7])) =
        7 := by
    have hvalues : [x, ⟨.number 5, trivial⟩, x].map
        (Workspace.Part.value Elementary.rationals.rules #[7]) = [7, 5, 7] := by
      rw [List.map_cons, List.map_cons, List.map_cons, hvalue]
      rfl
    rw [hvalues]
    decide
  have hzx : x = z := by
    rw [hmax, List.find?_cons_of_pos (by rw [hvalue]; decide)] at hz
    exact Option.some.inj hz
  have hprimary : out.primary = some 49 := by
    rw [hprimary, hmax]
    exact congrArg some (by norm_num : (7 : ℚ) * 7 = 49)
  refine ⟨w, x, hw, p, v, q, u, out, out', honce, hleft, hrun, hrun', hprimary, hsame.trans hprimary,
    hgradients, ?_⟩
  rw [hmoved 0, ← hzx, hmax]
  have hproduct : (7 : ℚ) * x.derivative Elementary.rationals.calculus #[7] 0 +
      7 * x.derivative Elementary.rationals.calculus #[7] 0 = 14 := by
    rw [hderivative]
    norm_num
  exact hproduct

omit [Written α] in
theorem run_reduceLeft_mixed (hw : w.Ready) (hne : k ≠ w.active) {x : Operand α} {xs : List (Operand α)}
    (hx : x.Denotes (fun _ => ()) w ()) (hactive : x.tape? = some w.active)
    (hxs : ∀ y ∈ xs, y.Denotes (fun _ => ()) w ())
    (hwithin : ∀ y ∈ xs, y.tape? = none ∨ y.tape? = some k) (hmem : some k ∈ xs.map Operand.tape?) :
    ∃ v, (reduceLeft R o x xs).run w = (.error (.violation .mixedOperands), v) := by
  induction xs generalizing w x with
  | nil => cases hmem
  | cons y ys ih =>
    obtain ⟨hy, hys⟩ := List.forall_mem_cons.mp hxs
    obtain ⟨hyk, hysk⟩ := List.forall_mem_cons.mp hwithin
    rcases hyk with hyk | hyk
    · have hplace : sharedPlace w.active [x.tape?, y.tape?] = some w.active :=
        sharedPlace_eq_some (by simp [hactive, hyk]) (.inl rfl)
      obtain ⟨z, v, hrun, hv, hwv, -, hz, hzv⟩ := (safe_handle_of_place (R := R)
        (n := .binary o.pairwise x y) (m := .binary o.pairwise () ()) hw (fun _ _ => rfl) rfl rfl
        (.cons hx (.cons hy .nil)) hplace).exists_run
      rw [← hwv.active_eq] at hz hne
      have hmem : some k ∈ ys.map Operand.tape? := by simpa [hyk] using hmem
      obtain ⟨u, hu⟩ := ih hv hne hzv hz (fun y hy => (hys y hy).grows hwv) hysk hmem
      exact ⟨u, (Build.run_bind_ok hrun).trans hu⟩
    · have hplace : sharedPlace w.active [x.tape?, y.tape?] = none :=
        sharedPlace_eq_none (by simp [hactive]) (by simp [hyk]) hne.symm
      refine ⟨w, ?_⟩
      rw [reduceLeft, List.foldlM_cons]
      exact Build.run_bind_error (Build.run_bind_error
        (run_construct_mixed (n := .binary o.pairwise x y) hplace))

/-- Behind two numbers, which go to the active tape, a handle of another tape comes too late. One node
over all operands is built there. -/
theorem programLeft_late (hw : w.Ready) (hne : k ≠ w.active) {x y : w.Part k} {xs : List (w.Part k)}
    (hx : x.operand.tape? = none) (hy : y.operand.tape? = none)
    (hmem : some k ∈ xs.map fun z => z.operand.tape?) (settings : Option Settings) :
    (∃ p v, (Term.programOnce R o x (y :: xs) settings (.leaf none)).run w = (.ok p, v)) ∧
      ∀ e, ∃ v, (Term.programLeft R o x (y :: xs) settings e).run w =
        (.error (.violation .mixedOperands), v) := by
  constructor
  · have hmem : some k ∈ (x :: y :: xs).map fun z => z.operand.tape? :=
      List.mem_cons_of_mem _ (List.mem_cons_of_mem _ hmem)
    rcases Term.programAround_cases (R := R) hw
      (fun _ _ hf => safe_reduceOnce_parts (o := o) hw hf (.inr hmem)) settings (.leaf none) with
      ⟨hnone, -⟩ | ⟨-, p, v, -, hrun, -⟩
    · cases hnone
    · exact ⟨p, v, hrun⟩
  · intro e
    have hplace : sharedPlace w.active [x.operand.tape?, y.operand.tape?] = some w.active :=
      sharedPlace_eq_some (by simp [hx, hy]) (.inl rfl)
    obtain ⟨z, v, hrun, hv, hwv, -, hz, hzv⟩ := (safe_handle_of_place (R := R) (f := fun _ => ())
      (n := .binary o.pairwise x.operand y.operand) (m := .binary o.pairwise () ()) hw (fun _ _ => rfl)
      rfl rfl (.cons (x.denotes hw _) (.cons (y.denotes hw _) .nil)) hplace).exists_run
    rw [← hwv.active_eq] at hz hne
    have hrest : ∀ y ∈ xs.map Workspace.Part.operand, y.Denotes (fun _ => ()) v () :=
      List.forall_mem_map.mpr fun y _ => (y.denotes hw _).grows hwv
    obtain ⟨u, hu⟩ := run_reduceLeft_mixed (R := R) (o := o) hv hne hzv hz hrest
      (List.forall_mem_map.mpr fun y _ => y.tape?_cases) (by rwa [List.map_map])
    exact ⟨u, Build.run_bind_error ((Build.run_bind_ok hrun).trans hu)⟩

/-- The sum of 1, 2 and an input on the tape before the active one: one node is built, and the sum from the
left is not. -/
theorem programLeft_inputOnFormerTape : ∃ (w : Workspace ℚ) (k : Nat) (y : w.Part k),
    w.Reached Elementary.rationals.rules ∧ k ≠ w.active ∧ y.operand.tape? = some k ∧
    (∃ p v, (Term.programOnce Elementary.rationals.rules .sum (k := k) ⟨.number 1, trivial⟩
      [⟨.number 2, trivial⟩, y] none (.leaf none)).run w = (.ok p, v)) ∧
    ∃ v, (Term.programLeft Elementary.rationals.rules .sum (k := k) ⟨.number 1, trivial⟩
      [⟨.number 2, trivial⟩, y] none (.leaf none)).run w = (.error (.violation .mixedOperands), v) := by
  obtain ⟨w, y, -, hw, htape, hnode⟩ := exists_input Elementary.rationals.rules (3 : ℚ)
  have hlt : w.active < w.tapes.size := hw.ready.active_lt
  have hindex : y.index < (w.fresh.tape w.active).size := by
    rw [Workspace.tape_fresh]
    exact Tape.lt_size hnode
  let z : w.fresh.Part w.active := ⟨.handle y, htape, hindex⟩
  have hz : some w.active ∈ [z].map fun u => u.operand.tape? :=
    List.mem_singleton.mpr (congrArg some htape.symm)
  obtain ⟨honce, hleft⟩ := programLeft_late (R := Elementary.rationals.rules) (o := .sum)
    (x := ⟨.number 1, trivial⟩) (y := ⟨.number 2, trivial⟩) hw.fresh.ready hlt.ne rfl rfl hz none
  exact ⟨w.fresh, w.active, z, hw.fresh, hlt.ne, congrArg some htape, honce, hleft (.leaf none)⟩

end
end ScalarGraph
