import ScalarGraph.Proofs.Graph.RoundTrip
import ScalarGraph.Proofs.Term.Placement
import ScalarGraph.Proofs.Tape.Program
import ScalarGraph.Proofs.Workspace.Secondary

/-! # Numbers of operands

Operands are turned into numbers by one program for all handles among them, which is called without
inputs. Its outputs are merged with the plain numbers, in the places where the handles were.
-/
namespace ScalarGraph
variable {α : Type} [DecidableEq α] [Hashable α] {w v : Workspace α} {C : Calculus α}

omit [DecidableEq α] [Hashable α] in
theorem merge_handles {V : Nat → α} {os : List (Operand α)} (hfit : ∀ e, .unfit e ∉ os) :
    merge os ((os.filterMap Operand.handle?).map fun h => V h.index) =
      .ok (os.map (Operand.meaning (Node.value C.rules #[]) V)) := by
  induction os with
  | nil => rfl
  | cons x os ih =>
    have ih := ih fun e he => hfit e (List.mem_cons_of_mem x he)
    cases x with
    | handle h => exact congrArg (· >>= fun xs => .ok (V h.index :: xs)) ih
    | number a => exact congrArg (· >>= fun xs => .ok (a :: xs)) ih
    | unfit e => exact (hfit e List.mem_cons_self).elim

omit [DecidableEq α] [Hashable α] in
theorem mem_handles {os : List (Operand α)} {h : Handle} :
    h ∈ os.filterMap Operand.handle? ↔ .handle h ∈ os := by
  rw [List.mem_filterMap]
  constructor
  · rintro ⟨x, hx, hxh⟩
    cases x with
    | handle y =>
      cases hxh
      exact hx
    | number a => cases hxh
    | unfit e => cases hxh
  · intro hh
    exact ⟨_, hh, rfl⟩

section
variable {os : List (Operand α)} {bs : List α} {k : Nat}

theorem not_unfit_of_denotes {f : Node α α → α} (h : List.Forall₂ (Operand.Denotes f w) os bs) :
    ∀ e, .unfit e ∉ os := by
  intro e he
  obtain ⟨b, -, hb⟩ := exists_of_forall₂ h he
  cases hb

theorem map_meaning_eq {f : Node α α → α} (h : List.Forall₂ (Operand.Denotes f w) os bs)
    (hk : ∀ y, .handle y ∈ os → y.tape = k) {V : Nat → α} (hV : (w.tape k).net.Solves f V) :
    os.map (Operand.meaning f V) = bs := by
  have htape : ∀ x ∈ os, ∀ y, x = .handle y → y.tape = k := fun x hx y hy => hk y (hy ▸ hx)
  have hmeaning := (List.forall₂_and_left _ _).mpr ⟨htape, h⟩
  rw [← List.forall₂_eq_eq_eq, List.forall₂_map_left_iff]
  exact hmeaning.imp fun x b hx => hx.2.meaning_eq (.refl w) hx.1 hV

variable [Written α]

theorem run_sampleValues (ht : (w.tape k).Valid) {hs : List Handle} (hne : hs ≠ [])
    (hk : ∀ h ∈ hs, h.tape = k ∧ h.index < (w.tape k).size) {V : Nat → α}
    (hV : (w.tape k).net.Evaluates C.rules #[] V) :
    ∃ log, (sampleValues C hs).run w = (if (w.tape k).numInputs < Program.lengthLimit then
      .ok (hs.map fun h => V h.index) else .error .badValue, { w with log }) := by
  have hne' : (none : Option Handle).toList ++ hs ≠ [] := hne
  obtain ⟨g, p, ⟨log, hp⟩, hg, hcompiles, -⟩ := Workspace.exists_evaluator ht none hne' hk
  obtain ⟨out, hrun, -, hsecondary, -⟩ := hg.exists_outputs ht (roots_lt hk) hcompiles hV
  obtain ⟨log', hcall⟩ := Program.run_call (w := { w with log }) hrun
  have hlength : p.gradientLength (#[] : Array α).size = (w.tape k).numInputs := by
    rw [Program.gradientLength, hcompiles.numInputs, hg.numInputs, Int.toNat_natCast]
    exact Nat.max_zero _
  refine ⟨log', ?_⟩
  unfold sampleValues
  rw [← bind_assoc, Build.run_bind_ok hp]
  rw [hlength] at hcall
  split at hcall
  · next hlimit =>
    rw [Build.run_bind_ok hcall, if_pos hlimit, hsecondary, List.map_map]
    rfl
  · next hlimit => rw [Build.run_bind_error hcall, if_neg hlimit]

/-- Operands with handles of one tape are turned into what they denote. This fails only where the vector for
the tape is too long. -/
theorem run_numbersOf (hw : w.Ready) (h : List.Forall₂ (Operand.Denotes (Node.value C.rules #[]) w) os bs)
    (hk : ∀ y, .handle y ∈ os → y.tape = k) :
    ∃ log, (numbersOf C os).run w = (if os.filterMap Operand.handle? = [] ∨
      (w.tape k).numInputs < Program.lengthLimit then .ok bs else .error .badValue, { w with log }) := by
  have : Nonempty α := ⟨C.adjoints.zero⟩
  obtain ⟨V, hV⟩ := (hw.valid k).ranked.exists_evaluates C.rules #[]
  have hmerge := merge_handles (C := C) (V := V) (not_unfit_of_denotes h)
  rw [map_meaning_eq h hk hV] at hmerge
  unfold numbersOf
  dsimp only
  cases hhandles : os.filterMap Operand.handle? with
  | nil =>
    rw [hhandles] at hmerge
    refine ⟨w.log, ?_⟩
    rw [if_pos List.isEmpty_nil, pure_bind, if_pos (.inl rfl)]
    exact congrArg (·, w) hmerge
  | cons y ys =>
    have hon : ∀ z ∈ y :: ys, z.tape = k ∧ z.index < (w.tape k).size := by
      intro z hz
      have hz : .handle z ∈ os := mem_handles.mp (hhandles ▸ hz)
      obtain ⟨b, -, hb⟩ := exists_of_forall₂ h hz
      have htape := hk z hz
      exact ⟨htape, htape ▸ (hb.on z rfl).2⟩
    obtain ⟨log, hsample⟩ := run_sampleValues (hw.valid k) (List.cons_ne_nil y ys) hon hV
    refine ⟨log, ?_⟩
    rw [if_neg (by simp)]
    by_cases hlimit : (w.tape k).numInputs < Program.lengthLimit
    · rw [if_pos hlimit] at hsample
      rw [hhandles] at hmerge
      rw [Build.run_bind_ok hsample, if_pos (.inr hlimit), hmerge]
      rfl
    · rw [if_neg hlimit] at hsample
      have hnot : ¬(y :: ys = [] ∨ (w.tape k).numInputs < Program.lengthLimit) := by simpa using hlimit
      rw [Build.run_bind_error hsample, if_neg hnot]

theorem exists_tape_of_numbersOf (hw : w.Ready) (hon : ∀ x ∈ os, x.On w) {cs : List α}
    (hrun : (numbersOf C os).run w = (.ok cs, v)) : ∃ k, ∀ y, .handle y ∈ os → y.tape = k := by
  unfold numbersOf at hrun
  dsimp only at hrun
  cases hhandles : os.filterMap Operand.handle? with
  | nil =>
    refine ⟨0, fun y hy => ?_⟩
    have hmem := mem_handles.mpr hy
    rw [hhandles] at hmem
    cases hmem
  | cons y ys =>
    rw [hhandles, if_neg (by simp)] at hrun
    have hindex : ∀ h ∈ (none : Option Handle).toList ++ (y :: ys), h.index < (w.tape h.tape).size :=
      fun h hh => (hon _ (mem_handles.mp (hhandles ▸ hh)) h rfl).2
    rcases hgraph : (makeGraph none (y :: ys) : Build α (Graph α)).run w with ⟨e | g, u⟩
    · rw [sampleValues, bind_assoc, Build.run_bind_error hgraph] at hrun
      cases hrun
    · obtain ⟨k, -, hk, -⟩ := exists_extracts_of_makeGraph hw hindex hgraph
      exact ⟨k, fun z hz => (hk z (hhandles ▸ mem_handles.mpr hz)).1⟩

/-- The numbers that operands are turned into are what they denote. -/
theorem eq_of_numbersOf (hw : w.Ready) (h : List.Forall₂ (Operand.Denotes (Node.value C.rules #[]) w) os bs)
    {cs : List α} (hrun : (numbersOf C os).run w = (.ok cs, v)) :
    cs = bs ∧ ∃ log, v = { w with log } := by
  have hon : ∀ x ∈ os, x.On w := fun x hx => by
    obtain ⟨b, -, hb⟩ := exists_of_forall₂ h hx
    exact hb.on
  obtain ⟨k, hk⟩ := exists_tape_of_numbersOf hw hon hrun
  obtain ⟨log, hrun'⟩ := run_numbersOf hw h hk
  rw [hrun] at hrun'
  split at hrun'
  · cases hrun'
    exact ⟨rfl, log, rfl⟩
  · cases hrun'

end
end ScalarGraph
