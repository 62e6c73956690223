import ScalarGraph.Proofs.Graph.Replay
import ScalarGraph.Proofs.Graph.Sample
import ScalarGraph.Proofs.Workspace.Secondary

/-! # Incomplete input vectors

An input behind the end of the vector has its sample value, so a program does not tell a vector from
the one that is filled up with samples, and it gives at the sample point what it gives at the empty
vector. Entries behind the length that the graph was built against only put zeros behind the gradient.
-/
namespace ScalarGraph
variable {α : Type}

namespace Graph
variable {g : Graph α}

/-- The vector `ys` is `xs`, extended to the length of the graph with the samples of the inputs that
have no entry in `xs`. At positions of no input it has any numbers. -/
structure Fills (g : Graph α) (xs ys : Array α) : Prop where
  size_eq : ys.size = max g.numInputs.toNat xs.size
  entry : ∀ k, k < xs.size → ys[k]? = xs[k]?
  sample : ∀ id k s, g.net id (.input k s) → xs.size ≤ k → ys[k]? = some s

theorem Fills.sameInputs {xs ys : Array α} (h : g.Fills xs ys) : g.net.SameInputs xs ys := by
  intro id k s hn
  by_cases hk : k < xs.size
  · rw [h.entry k hk]
  · rw [h.sample id k s hn (Nat.le_of_not_lt hk), Array.getElem?_eq_none (Nat.le_of_not_lt hk)]
    rfl

theorem Fills.gradientLength_eq {xs ys : Array α} (h : g.Fills xs ys) {p : Program α}
    (hp : p.Compiles g) : p.gradientLength ys.size = p.gradientLength xs.size := by
  unfold Program.gradientLength
  rw [h.size_eq, hp.numInputs]
  omega

def sampleAt? (g : Graph α) (k : Nat) : Option α :=
  g.nodes.findSome? fun p =>
    match p.2 with
    | .input i s => if i = k then some s else none
    | _ => none

def filled (g : Graph α) (blank : α) (xs : Array α) : Array α :=
  Array.ofFn fun k : Fin (max g.numInputs.toNat xs.size) =>
    xs[k.val]?.getD ((g.sampleAt? k).getD blank)

theorem exists_input_of_sampleAt? {k : Nat} {s : α} (h : g.sampleAt? k = some s) :
    ∃ id, g.net id (.input k s) := by
  obtain ⟨⟨id, n⟩, hmem, hn⟩ := List.exists_of_findSome?_eq_some h
  cases n with
  | input i r =>
    dsimp only at hn
    split at hn
    · next hi =>
      cases hn
      exact ⟨id, hi ▸ hmem⟩
    · cases hn
  | _ => cases hn

theorem sampleAt?_eq (hids : (g.nodes.map (·.1)).Nodup) (hpos : g.positions.Nodup) {id : Text}
    {k : Nat} {s : α} (h : g.net id (.input k s)) : g.sampleAt? k = some s := by
  cases hk : g.sampleAt? k with
  | none =>
    have hfree := List.findSome?_eq_none_iff.mp hk _ h
    simp at hfree
  | some r =>
    obtain ⟨id', hr⟩ := exists_input_of_sampleAt? hk
    obtain rfl : id = id' := input_unique hpos h hr
    have hnode : g.node? id = some (.input k s) := lookup_of_mem hids h
    have hnode' : g.node? id = some (.input k r) := lookup_of_mem hids hr
    rw [hnode] at hnode'
    cases hnode'
    rfl

theorem fills_filled (hids : (g.nodes.map (·.1)).Nodup) (hpos : g.positions.Nodup)
    (hfits : g.FitsInputs) (blank : α) (xs : Array α) : g.Fills xs (g.filled blank xs) where
  size_eq := Array.size_ofFn
  entry k hk := by
    have hlt : k < max g.numInputs.toNat xs.size := Nat.lt_of_lt_of_le hk (Nat.le_max_right _ _)
    unfold filled
    rw [Array.getElem?_ofFn, dif_pos hlt, Array.getElem?_eq_getElem hk]
    rfl
  sample id k s hn hk := by
    have hfit : (k : Int) < g.numInputs := hfits id k s hn
    have hlt : k < max g.numInputs.toNat xs.size := by omega
    unfold filled
    rw [Array.getElem?_ofFn, dif_pos hlt]
    dsimp only
    rw [Array.getElem?_eq_none hk, sampleAt?_eq hids hpos hn]
    rfl

end Graph

theorem setSample_input {xs ys : Array Float} {i : Nat} {s : Float}
    (h : setSample .ok xs (.input i s : Node Float Text) = .ok ys) :
    i < xs.size ∧ ys = xs.setIfInBounds i s := by
  obtain ⟨x, hx, h⟩ := bind_eq_ok.mp h
  cases hx
  split at h
  · next hi =>
    cases h
    exact ⟨hi, rfl⟩
  · cases h

theorem getElem?_of_foldlM_setSample {nodes : List (Text × Node Float Text)} {xs ys : Array Float}
    (h : nodes.foldlM (fun xs p => setSample .ok xs p.2) xs = .ok ys) {k : Nat}
    (hfree : ∀ p ∈ nodes, p.2.position? ≠ some k) : ys[k]? = xs[k]? := by
  induction nodes generalizing xs with
  | nil =>
    cases h
    rfl
  | cons p nodes ih =>
    rw [List.foldlM_cons] at h
    obtain ⟨us, hus, h⟩ := bind_eq_ok.mp h
    have hrest : ys[k]? = us[k]? := ih h fun q hq => hfree q (List.mem_cons_of_mem p hq)
    have hp : p.2.position? ≠ some k := hfree p List.mem_cons_self
    rw [hrest]
    rcases p with ⟨id, n⟩
    cases n with
    | input i s =>
      obtain ⟨-, rfl⟩ := setSample_input hus
      have hne : i ≠ k := fun hik => hp (congrArg some hik)
      exact Array.getElem?_setIfInBounds_ne hne
    | _ =>
      cases hus
      rfl

/-- Where no two inputs have one position, each position has the sample of its input. -/
theorem sample_of_foldlM_setSample {nodes : List (Text × Node Float Text)} {xs ys : Array Float}
    (h : nodes.foldlM (fun xs p => setSample .ok xs p.2) xs = .ok ys)
    (hpos : (nodes.filterMap (·.2.position?)).Nodup) {id : Text} {k : Nat} {s : Float}
    (hmem : (id, Node.input k s) ∈ nodes) : ys[k]? = some s := by
  induction nodes generalizing xs with
  | nil => cases hmem
  | cons p nodes ih =>
    rw [List.foldlM_cons] at h
    obtain ⟨us, hus, h⟩ := bind_eq_ok.mp h
    rcases List.mem_cons.mp hmem with rfl | hmem
    · -- the positions behind this input are others
      have hfree : ∀ p ∈ nodes, p.2.position? ≠ some k := by
        intro p hp hk
        have hnot : k ∉ nodes.filterMap (·.2.position?) := (List.nodup_cons.mp hpos).1
        exact hnot (List.mem_filterMap.mpr ⟨p, hp, hk⟩)
      obtain ⟨hk, rfl⟩ := setSample_input hus
      rw [getElem?_of_foldlM_setSample h hfree]
      exact Array.getElem?_setIfInBounds_self_of_lt hk
    · refine ih h ?_ hmem
      exact hpos.sublist ((List.sublist_cons_self p nodes).filterMap _)

theorem Graph.fills_samplePoint {g : Graph Float} (hpos : g.positions.Nodup) (hfits : g.FitsInputs)
    {point : Array Float} (h : g.samplePoint .ok = .ok point) : g.Fills #[] point := by
  obtain ⟨hnonneg, hlimit, hfold⟩ := samplePoint_eq_ok.mp h
  obtain ⟨xs, hxs, hsize⟩ := hfits.exists_samplePoint hnonneg hlimit
  obtain rfl : point = xs := Except.ok.inj (h.symm.trans hxs)
  constructor
  case size_eq =>
    rw [hsize]
    exact (Nat.max_eq_left (Nat.zero_le _)).symm
  case entry => exact fun k hk => absurd hk (Nat.not_lt_zero k)
  case sample => exact fun id k s hn _ => sample_of_foldlM_setSample hfold hpos hn

section
variable [DecidableEq α] [Hashable α] {g : Graph α} {p : Program α} {C : Calculus α} {xs ys : Array α}

theorem Program.call_congr (hforward : p.forward C.rules ys = p.forward C.rules xs)
    (hlength : p.gradientLength ys.size = p.gradientLength xs.size) : p.call C ys = p.call C xs := by
  have hsweep : p.sweep C.rules ys = p.sweep C.rules xs := by
    unfold sweep
    rw [hforward]
  have houtputs : ∀ values, p.outputs C values ys.size = p.outputs C values xs.size := by
    intro values
    unfold outputs
    rw [hlength]
  unfold call
  rw [hsweep, hlength]
  simp only [houtputs]

/-- A call does not tell a vector from the one that is filled up. -/
theorem Program.Compiles.call_eq_of_fills (hp : p.Compiles g) (hg : g.WellFormed)
    (h : g.Fills xs ys) : p.call C ys = p.call C xs := by
  have : Nonempty α := ⟨C.adjoints.zero⟩
  obtain ⟨V, hV⟩ := hg.ranked.exists_evaluates C.rules xs
  have hV' : g.net.Evaluates C.rules ys V := hV.of_sameInputs h.sameInputs
  apply Program.call_congr
  · rw [forward_eq hp.topological (hp.maps.evaluates hV),
      forward_eq hp.topological (hp.maps.evaluates hV')]
  · exact h.gradientLength_eq hp

/-- Entries behind the length of the graph put zeros behind the gradient. -/
theorem Program.Compiles.exists_gives_append (hp : p.Compiles g) (hg : g.WellFormed)
    (hfits : g.FitsInputs) (C : Calculus α) {xs : Array α} (hlength : g.numInputs ≤ xs.size)
    (ys : Array α) : ∃ out, p.Gives C xs out ∧ p.Gives C (xs ++ ys) { out with
      gradient := out.gradient ++ Array.replicate ys.size C.adjoints.zero } := by
  have : Nonempty α := ⟨C.adjoints.zero⟩
  obtain ⟨V, hV⟩ := hg.ranked.exists_evaluates C.rules xs
  have hinput : ∀ id k s, g.net id (.input k s) → k < xs.size := by
    intro id k s hn
    have hk : (k : Int) < g.numInputs := hfits id k s hn
    omega
  obtain ⟨out, hrun, -, -, hsize⟩ := hp.exists_outputs hg hV fun id k s hn =>
    Nat.lt_of_lt_of_le (hinput id k s hn) (Nat.le_max_right _ _)
  have hle : p.numInputs.toNat ≤ xs.size := by
    rw [hp.numInputs]
    omega
  have hpadded := hp.topological.run_append (hp.maps.evaluates hV) (hp.primary_lt hg)
    (hp.secondary_lt hg) (fun i k s hn => hinput _ k s (hp.maps hn)) hle hrun ys
  have hshort : p.gradientLength xs.size = out.gradient.size := by
    rw [hsize, gradientLength, hp.numInputs]
  have hlong : p.gradientLength (xs ++ ys).size =
      (out.gradient ++ Array.replicate ys.size C.adjoints.zero).size := by
    rw [Array.size_append, Array.size_append, Array.size_replicate, ← hshort, gradientLength,
      gradientLength]
    omega
  refine ⟨out, fun w => ?_, fun w => ?_⟩
  · rw [← hshort]
    exact run_call hrun
  · dsimp only
    rw [← hlong]
    exact run_call hpadded

end

namespace Graph
variable {g : Graph Float} {p : Program Float}

/-- Every vector can be filled up, which makes no difference to the program; it gives at the sample
point what it gives at the empty vector; and entries behind the length of the graph put zeros behind
the gradient. -/
structure FilledBy (g : Graph Float) (p : Program Float) : Prop where
  exists_fills : ∀ xs, ∃ ys, g.Fills xs ys
  call_fills : ∀ C xs ys, g.Fills xs ys → p.call C ys = p.call C xs
  call_samplePoint : ∀ C w, ((do p.call C (← Build.ofExcept (g.samplePoint .ok))).run w).1 =
    ((p.call C #[]).run w).1
  call_append : ∀ C xs, g.numInputs ≤ xs.size → ∀ ys, ∃ out, p.Gives C xs out ∧
    p.Gives C (xs ++ ys) { out with
      gradient := out.gradient ++ Array.replicate ys.size C.adjoints.zero }

theorem run_call_samplePoint (hp : p.Compiles g) (hg : g.WellFormed) (hpos : g.positions.Nodup)
    (hfits : g.FitsInputs) (hnonneg : 0 ≤ g.numInputs) (C : Calculus Float) (w : Workspace Float) :
    ((do p.call C (← Build.ofExcept (g.samplePoint .ok))).run w).1 = ((p.call C #[]).run w).1 := by
  by_cases hlimit : g.numInputs.toNat < Program.lengthLimit
  · obtain ⟨point, hpoint, -⟩ := hfits.exists_samplePoint hnonneg hlimit
    have hcall : p.call C point = p.call C #[] :=
      hp.call_eq_of_fills hg (fills_samplePoint hpos hfits hpoint)
    rw [hpoint, Build.run_bind_ok (Build.run_ofExcept _ w), hcall]
  · have hpoint : g.samplePoint .ok = .error .badValue := by
      unfold samplePoint
      rw [if_pos (Or.inr (Nat.le_of_not_lt hlimit))]
      rfl
    have : Nonempty Float := ⟨0.0⟩
    obtain ⟨V, hV⟩ := hg.ranked.exists_evaluates C.rules #[]
    have hlong : ¬p.gradientLength (#[] : Array Float).size < Program.lengthLimit := by
      intro h
      apply hlimit
      rw [← hp.numInputs]
      exact Nat.lt_of_le_of_lt (Nat.le_max_left _ _) h
    rw [hpoint, Build.run_bind_error (Build.run_ofExcept _ w), hp.run_call_answer hV w]
    unfold Program.answer
    rw [if_neg hlong]

theorem Assembled.filledBy (hg : g.Assembled) (hfits : g.FitsInputs) (hnonneg : 0 ≤ g.numInputs)
    (hp : p.Compiles g) : g.FilledBy p where
  exists_fills xs :=
    ⟨_, fills_filled hg.wellFormed.ids_nodup hg.nodup_positions hfits 0.0 xs⟩
  call_fills _ _ _ h := hp.call_eq_of_fills hg.wellFormed h
  call_samplePoint := run_call_samplePoint hp hg.wellFormed hg.nodup_positions hfits hnonneg
  call_append C _ hlength ys := hp.exists_gives_append hg.wellFormed hfits C hlength ys

/-- On every graph that is extracted from handles or read from a document, under any settings, the
program takes the samples of inputs for the entries that a vector lacks. -/
theorem inputs_filled :
    (∀ (R : Rules Float) (w v : Workspace Float) (primary : Option Handle) (secondary : List Handle)
      (g : Graph Float), w.Reached R →
      (∀ h ∈ primary.toList ++ secondary, h.index < (w.tape h.tape).size) →
      (makeGraph primary secondary).run w = (.ok g, v) → g.CompilesTo g.FilledBy) ∧
    ∀ (t : Text) (g : Graph Float), Document.read t = .ok g → g.CompilesTo g.FilledBy := by
  constructor
  · intro R w v primary secondary g hw hon hrun
    obtain ⟨k, -, -, -, hextracts⟩ := exists_extracts_of_makeGraph hw.ready hon hrun
    have hfits : g.FitsInputs := hextracts.fitsInputs (hw.ready.valid k)
    have hnonneg : 0 ≤ g.numInputs := by
      rw [hextracts.numInputs]
      exact Int.natCast_nonneg _
    apply hextracts.assembled.wellFormed.compilesTo
    intro p hp
    exact hextracts.assembled.filledBy hfits hnonneg hp
  · intro t g h
    obtain ⟨d, hd, hnone, hassemble⟩ := Document.exists_given_of_read h
    have hg : g.Assembled := ⟨d, hd.ids_nodup, hassemble⟩
    have hnonneg : 0 ≤ g.numInputs := by
      rw [numInputs_of_read h]
      exact Int.natCast_nonneg _
    apply hg.wellFormed.compilesTo
    intro p hp
    exact hg.filledBy (hd.fitsInputs hnone hassemble) hnonneg hp

/-- The input at position 2 with a note of it, read from a document, and an input as both outputs. -/
theorem inputs_filled_noted : ∃ (t : Text) (g h : Graph Float) (w v : Workspace Float) (x : Handle),
    Document.read t = .ok g ∧ g.nodes = noted ∧ g.CompilesTo g.FilledBy ∧
      w.Reached Binary64.calculus.rules ∧ x.index < (w.tape x.tape).size ∧
        (makeGraph (some x) [x]).run w = (.ok h, v) ∧ h.CompilesTo h.FilledBy := by
  obtain ⟨g, hnodes, -, -, hread, -⟩ := read_document_eq_noted
  obtain ⟨w, x, -, hw, htape, hnode⟩ := exists_input Binary64.calculus.rules 0.5
  have hx : ∀ u ∈ (some x).toList ++ [x], u.tape = w.active ∧ u.index < (w.tape w.active).size := by
    intro u hu
    obtain rfl : u = x := by simpa using hu
    exact ⟨htape, Tape.lt_size hnode⟩
  have hon : ∀ u ∈ (some x).toList ++ [x], u.index < (w.tape u.tape).size := by
    intro u hu
    rw [(hx u hu).1]
    exact (hx u hu).2
  obtain ⟨h, log, hrun, -⟩ := exists_makeGraph (hw.ready.valid _) (by simp) hx
  exact ⟨_, _, h, w, _, x, hread, hnodes, inputs_filled.2 _ _ hread, hw, hon x (by simp), hrun,
    inputs_filled.1 _ w _ _ _ h hw hon hrun⟩

end Graph
end ScalarGraph
