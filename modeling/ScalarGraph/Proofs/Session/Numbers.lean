import ScalarGraph.Proofs.Session.Constructor
import ScalarGraph.Proofs.Term.Derivative
import ScalarGraph.Proofs.Workspace.History
import ScalarGraph.Proofs.Workspace.Inputs
import ScalarGraph.Proofs.Workspace.Sampling

/-! # Numbers of mixed lists

A list of handles and plain numbers is turned into numbers entry by entry: a handle becomes what its
tree amounts to with every input at its sample value, and a number stays what it is. The place of an
entry in the list, its repetitions and its neighbours do not matter.
-/
namespace ScalarGraph

section
variable {α : Type} [DecidableEq α] [Hashable α] {R : Rules α} {w : Workspace α} {k : Nat}

def Tape.sampleValue (R : Rules α) (t : Tape α) (i : Nat) : α := (t.unfolding i).value R Prod.snd

theorem Tape.Valid.eq_sampleValue {t : Tape α} (ht : t.Valid) {V : Nat → α}
    (hV : t.net.Evaluates R #[] V) {i : Nat} (hi : i < t.size) : V i = t.sampleValue R i := by
  obtain ⟨n, hn⟩ := exists_node hi
  have hsolves : t.net.Solves (Node.value R #[]) V := hV
  have hmeaning : V i = (t.unfolding i).meaning (Node.value R #[]) :=
    hsolves.eq_meaning ht.ranked ht.exists_operand ht.solves_unfolding i n hn
  rw [hmeaning, Term.meaning, Term.fold_value]
  rfl

theorem Workspace.Ready.sampleValue_terminal (hw : w.Ready) {h : Handle} {x : α}
    (hx : terminalValue? w h = some x) : (w.tape h.tape).sampleValue R h.index = x := by
  unfold terminalValue? at hx
  split at hx
  · next y hn =>
    cases hx
    rw [Tape.sampleValue, (hw.valid _).unfolding_eq hn]
    rfl
  · next j y hn =>
    cases hx
    rw [Tape.sampleValue, (hw.valid _).unfolding_eq hn]
    rfl
  · cases hx

/-- On one tape an operand denotes its number, or the value of its tree. -/
theorem Operand.denotes_meaning (hw : w.Ready) {x : Operand α} (hon : x.On w)
    (hfit : ∀ e, x ≠ .unfit e) (hk : ∀ y, x = .handle y → y.tape = k) :
    x.Denotes (Node.value R #[]) w (x.meaning (Node.value R #[]) ((w.tape k).sampleValue R)) := by
  cases x with
  | handle y =>
    obtain rfl := hk y rfl
    exact .handle hon fun V hV => (hw.valid _).eq_sampleValue hV (hon y rfl).2
  | number a => exact .number a
  | unfit e => exact absurd rfl (hfit e)

variable [Written α] {C : Calculus α} {os : List (Operand α)}

/-- Operands on one tape are turned into their meanings, each by itself. This fails only where the
vector for the tape is too long. -/
theorem run_numbersOf_map (hw : w.Ready) (hon : ∀ x ∈ os, x.On w) (hfit : ∀ e, .unfit e ∉ os)
    (hk : ∀ y, .handle y ∈ os → y.tape = k) :
    ∃ log, (numbersOf C os).run w = (if os.filterMap Operand.handle? = [] ∨
      (w.tape k).numInputs < Program.lengthLimit then
        .ok (os.map (Operand.meaning (Node.value C.rules #[]) ((w.tape k).sampleValue C.rules)))
      else .error .badValue, { w with log }) := by
  refine run_numbersOf hw ?_ hk
  rw [List.forall₂_map_right_iff, List.forall₂_same]
  exact fun x hx => Operand.denotes_meaning hw (hon x hx) (fun e he => hfit e (he ▸ hx))
    fun y hy => hk y (hy ▸ hx)

omit [DecidableEq α] [Hashable α] [Written α] in
theorem outputTape_eq_error {hs : List Handle} {y z : Handle} (hy : y ∈ hs) (hz : z ∈ hs)
    (hne : y.tape ≠ z.tape) : outputTape hs = .error .mixedOutputs := by
  cases hs with
  | nil => cases hy
  | cons h hs =>
    have hmixed : ¬ hs.all (·.tape == h.tape) = true := by
      intro hall
      have hsame : ∀ u ∈ h :: hs, u.tape = h.tape := by
        simpa [List.all_eq_true] using hall
      exact hne ((hsame y hy).trans (hsame z hz).symm)
    rw [outputTape, if_neg hmixed]

theorem run_numbersOf_mixed {y z : Handle} (hy : .handle y ∈ os) (hz : .handle z ∈ os)
    (hne : y.tape ≠ z.tape) :
    (numbersOf C os).run w = (.error (.violation .mixedOutputs), w) := by
  have hgraph : (makeGraph none (os.filterMap Operand.handle?)).run w =
      (.error (.violation .mixedOutputs), w) := by
    have houtput := outputTape_eq_error (mem_handles.mpr hy) (mem_handles.mpr hz) hne
    unfold makeGraph
    rw [Option.toList_none, List.nil_append, houtput]
    rfl
  have hhandles : ¬ (os.filterMap Operand.handle?).isEmpty = true := by
    rw [List.isEmpty_iff]
    exact List.ne_nil_of_mem (mem_handles.mpr hy)
  unfold numbersOf sampleValues
  rw [if_neg hhandles]
  exact Build.run_bind_error (Build.run_bind_error hgraph)

end

namespace Value
variable {v : Value} {vs : List Value} {w : Workspace Float}

/-- The value is the handle of a node or counts as a number. -/
def Scalar (w : Workspace Float) (v : Value) : Prop :=
  (∃ h, v = .handle h ∧ (Operand.handle h : Operand Float).On w) ∨ ∃ x, v.toFloat = .ok x

theorem numberOperand_of_toFloat {x : Float} (hx : v.toFloat = .ok x) : v.numberOperand = .number x := by
  unfold numberOperand
  split
  · cases hx
  · rw [hx]

theorem eq_handle_of_numberOperand {y : Handle} (h : v.numberOperand = .handle y) : v = .handle y := by
  unfold numberOperand at h
  split at h
  · cases h
    rfl
  · split at h <;> cases h

theorem handle_mem_numberOperands {y : Handle} :
    .handle y ∈ vs.map numberOperand ↔ .handle y ∈ vs := by
  constructor
  · intro hy
    obtain ⟨v, hv, hvy⟩ := List.mem_map.mp hy
    exact eq_handle_of_numberOperand hvy ▸ hv
  · exact fun hy => List.mem_map.mpr ⟨_, hy, rfl⟩

theorem Scalar.numberOperand_on (h : v.Scalar w) : v.numberOperand.On w := by
  rcases h with ⟨y, rfl, hon⟩ | ⟨x, hx⟩
  · exact hon
  · rw [numberOperand_of_toFloat hx]
    rintro y ⟨⟩

theorem Scalar.numberOperand_ne (h : v.Scalar w) (e : Fault) : v.numberOperand ≠ .unfit e := by
  rcases h with ⟨y, rfl, -⟩ | ⟨x, hx⟩
  · rintro ⟨⟩
  · rw [numberOperand_of_toFloat hx]
    rintro ⟨⟩

end Value

/-- The numbers belong to the values, place by place. -/
structure Workspace.Numbered (w : Workspace Float) (C : Calculus Float) (vs : List Value)
    (ys : List Float) : Prop where
  run : ∃ log, (numbersOf C (vs.map Value.numberOperand)).run w = (.ok ys, { w with log })
  length_eq : ys.length = vs.length
  handle : ∀ (i : Nat) (h : Handle), vs[i]? = some (.handle h) →
    ys[i]? = some ((w.tape h.tape).sampleValue C.rules h.index)
  number : ∀ (i : Nat) (v : Value) (x : Float), vs[i]? = some v → v.toFloat = .ok x → ys[i]? = some x
  terminal : ∀ (i : Nat) (h : Handle) (n : Node Float Nat), vs[i]? = some (.handle h) →
    (w.tape h.tape).nodes[h.index]? = some n → n.op.isTerminal = true →
    ∃ y, ys[i]? = some y ∧ (Function.valueOf (.handle h)).run w = (.ok (.real y), w)
  /-- Any choice of places in any order, and so any permutation of them, gives the numbers at these
  places in this order. -/
  rearranged : ∀ places : List Nat, ∃ log,
    (numbersOf C ((places.filterMap (vs[·]?)).map Value.numberOperand)).run w =
      (.ok (places.filterMap (ys[·]?)), { w with log })

section
variable {w : Workspace Float} {k : Nat} {C : Calculus Float} {vs : List Value}

def Value.amount (C : Calculus Float) (t : Tape Float) (v : Value) : Float :=
  v.numberOperand.meaning (Node.value C.rules #[]) (t.sampleValue C.rules)

theorem Value.amount_of_toFloat {t : Tape Float} {v : Value} {x : Float} (hx : v.toFloat = .ok x) :
    v.amount C t = x := by
  rw [amount, numberOperand_of_toFloat hx]
  rfl

def Workspace.Fits (w : Workspace Float) (k : Nat) (vs : List Value) : Prop :=
  (∀ h, .handle h ∉ vs) ∨ (w.tape k).numInputs < Program.lengthLimit

theorem run_numbersOf_values (hw : w.Ready) (hvs : ∀ v ∈ vs, v.Scalar w)
    (hk : ∀ h, .handle h ∈ vs → h.tape = k) :
    ∃ log, (w.Fits k vs → (numbersOf C (vs.map Value.numberOperand)).run w =
        (.ok (vs.map (Value.amount C (w.tape k))), { w with log })) ∧
      (¬w.Fits k vs → (numbersOf C (vs.map Value.numberOperand)).run w =
        (.error .badValue, { w with log })) := by
  have hon : ∀ x ∈ vs.map Value.numberOperand, x.On w :=
    List.forall_mem_map.mpr fun v hv => (hvs v hv).numberOperand_on
  have hfit : ∀ e, .unfit e ∉ vs.map Value.numberOperand := by
    intro e he
    obtain ⟨v, hv, hve⟩ := List.mem_map.mp he
    exact (hvs v hv).numberOperand_ne e hve
  obtain ⟨log, hrun⟩ := run_numbersOf_map (C := C) hw hon hfit
    fun y hy => hk y (Value.handle_mem_numberOperands.mp hy)
  have hhandles : (vs.map Value.numberOperand).filterMap Operand.handle? = [] ↔ ∀ h, .handle h ∉ vs := by
    rw [List.eq_nil_iff_forall_not_mem]
    exact forall_congr' fun h => not_congr (mem_handles.trans Value.handle_mem_numberOperands)
  refine ⟨log, fun hfits => ?_, fun hfits => ?_⟩
  · rw [hrun, if_pos (hfits.imp_left hhandles.mpr), List.map_map]
    rfl
  · rw [hrun, if_neg fun h => hfits (h.imp_left hhandles.mp)]

/-- Values on one tape are turned into numbers place by place. -/
theorem numbered_values (hw : w.Ready) (hvs : ∀ v ∈ vs, v.Scalar w)
    (hk : ∀ h, .handle h ∈ vs → h.tape = k) (hfits : w.Fits k vs) :
    w.Numbered C vs (vs.map (Value.amount C (w.tape k))) where
  run := by
    obtain ⟨log, hrun, -⟩ := run_numbersOf_values (C := C) hw hvs hk
    exact ⟨log, hrun hfits⟩
  length_eq := List.length_map _
  handle i h hi := by
    obtain rfl := hk h (List.mem_of_getElem? hi)
    rw [List.getElem?_map, hi]
    rfl
  number i v x hi hx := by
    rw [List.getElem?_map, hi, Option.map_some, Value.amount_of_toFloat hx]
  terminal i h n hi hn hop := by
    obtain rfl := hk h (List.mem_of_getElem? hi)
    obtain ⟨x, hx⟩ : ∃ x, terminalValue? w h = some x := by
      unfold terminalValue?
      rw [hn]
      cases n with
      | const x => exact ⟨x, rfl⟩
      | input p x => exact ⟨x, rfl⟩
      | _ => cases hop
    refine ⟨x, ?_, ?_⟩
    · rw [List.getElem?_map, hi, ← hw.sampleValue_terminal (R := C.rules) hx]
      rfl
    · unfold Function.valueOf
      dsimp only
      rw [Build.run_bind_ok (Build.run_get w)]
      simp only [hx]
      rfl
  rearranged places := by
    have hmem : ∀ v ∈ places.filterMap (vs[·]?), v ∈ vs := by
      intro v hv
      obtain ⟨i, -, hi⟩ := List.mem_filterMap.mp hv
      exact List.mem_of_getElem? hi
    obtain ⟨log, hrun, -⟩ := run_numbersOf_values (C := C) hw (fun v hv => hvs v (hmem v hv))
      fun h hh => hk h (hmem _ hh)
    refine ⟨log, ?_⟩
    rw [hrun (hfits.imp_left fun hnone h hh => hnone h (hmem _ hh)), List.map_filterMap]
    simp only [List.getElem?_map]

end

/-- Handles of one tape and numbers, in any mixture, are turned into numbers place by place; a tape with more
inputs than a vector can have entries makes this fail. Handles of two tapes are refused. -/
theorem Workspace.Reached.numbersOf_values {R : Rules Float} {w : Workspace Float} (hw : w.Reached R)
    (C : Calculus Float) {vs : List Value} (hvs : ∀ v ∈ vs, v.Scalar w) :
    (∀ k, (∀ h, .handle h ∈ vs → h.tape = k) →
      (w.Fits k vs → ∃ ys, w.Numbered C vs ys) ∧
      (¬w.Fits k vs → ∃ log,
        (numbersOf C (vs.map Value.numberOperand)).run w = (.error .badValue, { w with log }))) ∧
    ∀ h h', .handle h ∈ vs → .handle h' ∈ vs → h.tape ≠ h'.tape →
      (numbersOf C (vs.map Value.numberOperand)).run w = (.error (.violation .mixedOutputs), w) := by
  refine ⟨fun k hk => ⟨fun hfits => ?_, fun hfits => ?_⟩, fun h h' hh hh' hne => ?_⟩
  · exact ⟨_, numbered_values hw.ready hvs hk hfits⟩
  · obtain ⟨log, -, hrun⟩ := run_numbersOf_values (C := C) hw.ready hvs hk
    exact ⟨log, hrun hfits⟩
  · exact run_numbersOf_mixed (Value.handle_mem_numberOperands.mpr hh)
      (Value.handle_mem_numberOperands.mpr hh') hne

/-- An input on both sides of the number 2. -/
theorem Workspace.numbersOf_values_inputTwice : ∃ (w : Workspace Float) (y : Handle) (ys : List Float),
    (Function.input.apply [.int 0, .real 0.5]).run {} = (.ok (.handle y), w) ∧ w.Reached Leaf.rules ∧
      w.Numbered Binary64.calculus [.handle y, .real 2, .handle y] ys := by
  obtain ⟨y, w, hy, hw, -, htape, hnode, hdeclares, -⟩ :=
    (safe_declareInput (F := False) ready_start declares_start (0.5 : Float)).exists_run
  have hinput : (Function.input.apply [.int 0, .real 0.5]).run {} = (.ok (.handle y), w) := by
    have hmap : Function.input.apply [.int 0, .real 0.5] = Value.handle <$> makeInput (some 0) 0.5 := rfl
    have hmake : (makeInput (some 0) (0.5 : Float)).run {} = (.ok y, w) := hy
    rw [hmap, Build.run_map, hmake]
    rfl
  have hreached : w.Reached Leaf.rules := by
    have hrequest := (Workspace.Reached.start (R := Leaf.rules)).request
      (.input (.ok (some 0)) (.ok 0.5) : Request Float Float)
    have hperform : (Request.input (.ok (some 0)) (.ok 0.5) : Request Float Float).perform =
      makeInput (some 0) 0.5 := rfl
    have hmake : (makeInput (some 0) (0.5 : Float)).run {} = (.ok y, w) := hy
    rwa [hperform, hmake] at hrequest
  have hscalar : (Value.handle y).Scalar w := by
    refine .inl ⟨y, rfl, ?_⟩
    rintro z ⟨⟩
    rw [htape]
    exact ⟨hw.active_lt, Tape.lt_size hnode⟩
  have hscalars : ∀ v ∈ [Value.handle y, .real 2, .handle y], v.Scalar w :=
    List.forall_mem_cons.mpr ⟨hscalar, List.forall_mem_cons.mpr
      ⟨.inr ⟨2, rfl⟩, List.forall_mem_singleton.mpr hscalar⟩⟩
  have hone : ∀ h, Value.handle h ∈ [Value.handle y, .real 2, .handle y] → h.tape = w.active := by
    intro h hh
    have hyh : h = y := by simpa using hh
    rw [hyh, htape]
  have hfits : w.Fits w.active [Value.handle y, .real 2, .handle y] := by
    refine .inr ?_
    rw [hdeclares.numInputs_eq hw]
    decide
  obtain ⟨ys, hys⟩ :=
    ((hreached.numbersOf_values Binary64.calculus hscalars).1 w.active hone).1 hfits
  exact ⟨w, y, ys, hinput, hreached, hys⟩

end ScalarGraph
