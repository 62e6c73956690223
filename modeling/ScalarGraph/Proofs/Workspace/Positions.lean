import ScalarGraph.Binary64.Elementary
import ScalarGraph.Proofs.Graph.Replay
import ScalarGraph.Proofs.Workspace.Folding
import ScalarGraph.Proofs.Workspace.Vocabulary

/-! # Positions of inputs

Constructors declare no inputs. An input without a position is declared at the next free one, which leaves no
gap. So where positions are missing, they were skipped by a position that was given, in a call or by
an input of a graph that is replayed.
-/
namespace ScalarGraph
variable {α β : Type}

def Node.At {ι : Type} (K : Nat → Prop) (n : Node α ι) : Prop := ∀ p, n.position? = some p → K p

variable [DecidableEq α] [Hashable α]

namespace Tape
variable {t u : Tape α} {given new : List Nat}

/-- The declared positions are all positions of the input vector. -/
def Dense (t : Tape α) : Prop := ∀ p, t.HasInput p ↔ p < t.numInputs

/-- Every position that is missing lies below one that is declared and was given. -/
def SkippedBy (t : Tape α) (given : List Nat) : Prop :=
  ∀ i < t.numInputs, ¬ t.HasInput i → ∃ p ∈ given, t.HasInput p ∧ i < p

theorem every_at_iff {K : Nat → Prop} : t.Every (Node.At K) ↔ ∀ p, t.HasInput p → K p := by
  constructor
  · rintro h p ⟨i, s, hi⟩
    exact h i _ hi p rfl
  · intro h i n hn p hp
    obtain ⟨s, rfl⟩ := Node.eq_input_of_position? hp
    exact h p ⟨i, s, hn⟩

theorem skippedBy_empty : (empty : Tape α).SkippedBy given := by
  intro i hi
  simp [numInputs, empty] at hi

/-- Where a tape gains no other positions than new ones and the next free one, only the new ones
skip any. -/
theorem SkippedBy.extends (h : t.SkippedBy given) (ht : t.Valid) (hu : u.Valid) (htu : t.Extends u)
    (hnew : ∀ p, u.HasInput p → t.HasInput p ∨ p = t.numInputs ∨ p ∈ new) :
    u.SkippedBy (new ++ given) := by
  intro i hi hmissing
  by_cases hold : i < t.numInputs
  · obtain ⟨p, hp, hdeclared, hlt⟩ := h i hold fun hi => hmissing (htu.hasInput hi)
    exact ⟨p, List.mem_append_right _ hp, htu.hasInput hdeclared, hlt⟩
  · -- the largest position is no old one, and `i` is below it
    have hlast := hu.hasInput_last (Nat.zero_lt_of_lt hi)
    have hne : i ≠ u.numInputs - 1 := fun he => hmissing (he ▸ hlast)
    rcases hnew _ hlast with hlast' | hnext | hmem
    · have hlt := ht.hasInput_lt hlast'
      omega
    · omega
    · exact ⟨_, List.mem_append_left _ hmem, hlast, by omega⟩

theorem SkippedBy.dense_iff (h : t.SkippedBy given) (ht : t.Valid) :
    t.Dense ↔ ∀ p ∈ given, t.HasInput p → ∀ i < p, t.HasInput i := by
  constructor
  · intro hdense p _ hp i hi
    exact (hdense i).mpr (Nat.lt_trans hi (ht.hasInput_lt hp))
  · refine fun hgiven i => ⟨ht.hasInput_lt, fun hi => ?_⟩
    by_contra hmissing
    obtain ⟨p, hp, hdeclared, hlt⟩ := h i hi hmissing
    exact hmissing (hgiven p hp hdeclared i hlt)

end Tape

abbrev Workspace.InputsAt (k : Nat) (K : Nat → Prop) (w : Workspace α) : Prop :=
  (w.tape k).Every (Node.At K)

section
variable {K : Nat → Prop} {R : Rules α} {j k : Nat} {w : Workspace α}

omit [DecidableEq α] [Hashable α] in
theorem Node.at_of_not_isTerminal {ι : Type} {n : Node α ι} (h : n.op.isTerminal = false) : n.At K := by
  intro p hp
  rw [position?_of_not_isTerminal h] at hp
  cases hp

omit [DecidableEq α] [Hashable α] in
theorem Node.at_const {ι : Type} (x : α) : (.const x : Node α ι).At K := by rintro p ⟨⟩

omit [DecidableEq α] [Hashable α] in
theorem Node.at_input {ι : Type} {p : Nat} (hp : K p) (s : α) : (.input p s : Node α ι).At K := by
  rintro _ ⟨⟩
  exact hp

theorem Build.Keeps.of_hasInput {γ : Type} {b : Build α γ} (hb : b.Keeps (Workspace.InputsAt k K))
    (hK : ∀ p, (w.tape k).HasInput p → K p) {p : Nat} (hp : ((b.run w).2.tape k).HasInput p) : K p :=
  Tape.every_at_iff.mp (hb w (Tape.every_at_iff.mpr hK)) p hp

theorem keeps_construct_at {n : Node α (Operand α)} (hop : n.op.isTerminal = false) :
    (construct R n).Keeps (Workspace.InputsAt k K) := by
  refine keeps_construct Node.at_const fun m hm => Node.at_of_not_isTerminal ?_
  rwa [hm]

variable [Written α]

theorem position_of_hasInput_makeInput (hw : w.Ready) {p : Option Int} {s : α} {q : Nat}
    (h : (((makeInput p s).run w).2.tape w.active).HasInput q) :
    (w.tape w.active).HasInput q ∨ q = (w.tape w.active).numInputs ∨
      q ∈ (p.bind Int.toNat?).toList := by
  cases hd : (w.tape w.active).declare p s with
  | error e =>
    rw [run_makeInput_error hw.active_lt hd] at h
    exact .inl h
  | ok r =>
    rw [run_makeInput_ok hd, Workspace.tape_onTape hw.active_lt] at h
    refine (((hw.valid _).provides_declare hd).hasInput_iff.mp h).imp_right fun hq => ?_
    match p with
    | none => exact .inl hq
    | some (.ofNat i) =>
      rw [hq]
      exact .inr List.mem_cons_self
    | some (.negSucc i) =>
      have hneg : (w.tape w.active).declare (some (.negSucc i)) s = .error (.negativeInput (.negSucc i)) :=
        if_pos (Int.negSucc_lt_zero i)
      rw [hneg] at hd
      cases hd

theorem hasInput_makeInput_iff (hw : w.Ready) {p : Nat} (hp : ¬ (w.tape w.active).HasInput p) (s : α)
    {q : Nat} : (((makeInput (some (p : Int)) s).run w).2.tape w.active).HasInput q ↔
      (w.tape w.active).HasInput q ∨ q = p := by
  have hfree : ∀ (i : Nat) (r : α), (w.tape w.active).nodes[i]? = some (.input p r) → r = s :=
    fun i r hi => absurd ⟨i, r, hi⟩ hp
  obtain ⟨r, hr⟩ := (hw.valid w.active).exists_declare hfree
  rw [run_makeInput_ok hr, Workspace.tape_onTape hw.active_lt]
  exact ((hw.valid _).provides_declare hr).hasInput_iff

variable {read : β → Except Fault α} {g : Graph β}

theorem keeps_replayNode {n : Node β Nat} (hn : n.At K) :
    (replayNode R read j n).Keeps (Workspace.InputsAt k K) := by
  have hoperator : ∀ m : Node α Nat, n.operator? = some m →
      (Build.onTape j (·.settle R m)).Keeps (Workspace.InputsAt k K) := by
    intro m hm
    have hat : m.At K := Node.at_of_not_isTerminal (Node.isTerminal_of_operator? hm)
    exact keeps_onTape fun t ht => ht.settle Node.at_const hat
  cases n with
  | const x =>
    refine (Build.keeps_ofExcept _).bind fun y _ _ _ => ?_
    exact keeps_onTape fun t ht => ht.const (Node.at_const y)
  | input p s =>
    refine (Build.keeps_ofExcept _).bind fun x _ _ _ => ?_
    exact keeps_onTape? fun t r ht hr => ht.input (Node.at_input (hn p rfl) x) hr
  | _ => exact hoperator _ rfl

omit [Written α] in
theorem Build.keeps_index {I : Workspace α → Prop} (m : Replayed) (id : Text) :
    (m.index id : Build α Nat).Keeps I := by
  unfold Replayed.index
  split
  · exact Build.keeps_pure _
  · exact Build.keeps_throw _

theorem keeps_replayId (hg : ∀ p ∈ g.positions, K p) (m : Replayed) (id : Text) :
    (Graph.replayId R read j (.ofList g.nodes) m id).Keeps (Workspace.InputsAt k K) := by
  unfold Graph.replayId
  split
  · exact Build.keeps_throw _
  · next n hn =>
    refine (Build.keeps_node_mapM fun c _ => Build.keeps_index m c).bind fun a w v ha => ?_
    have hat : a.At K := by
      intro p hp
      rw [Node.position?_congr (Build.op_of_run_mapM ha)] at hp
      exact hg p (List.mem_filterMap.mpr ⟨_, Graph.net_of_getElem?_ofList_nodes hn, hp⟩)
    exact (keeps_replayNode hat).bind fun i _ _ _ => Build.keeps_pure _

/-- A replay declares no positions but those of the graph, wherever it stops. -/
theorem keeps_replay (hg : ∀ p ∈ g.positions, K p) :
    (g.replay R read j).Keeps (Workspace.InputsAt k K) := by
  refine (Build.keeps_foldlM (keeps_replayId hg) {}).bind fun m _ _ _ => ?_
  have hhandle : ∀ id, (do return ⟨j, ← m.index id⟩ : Build α Handle).Keeps
      (Workspace.InputsAt k K) := fun id =>
    (Build.keeps_index m id).bind fun i _ _ _ => Build.keeps_pure _
  have hsecondary := Build.keeps_mapM fun id (_ : id ∈ g.secondary) => hhandle id
  cases g.primary with
  | none => exact hsecondary.bind fun hs _ _ _ => Build.keeps_pure _
  | some r =>
    have hprimary : (Option.mapM (fun id => (do return ⟨j, ← m.index id⟩ : Build α Handle))
        (some r)).Keeps (Workspace.InputsAt k K) :=
      (hhandle r).bind fun y _ _ _ => Build.keeps_pure _
    exact hprimary.bind fun y _ _ _ => hsecondary.bind fun hs _ _ _ => Build.keeps_pure _

end

/-- The workspaces whose tape `k` was grown by constructors, inputs and replays, some of which may have
failed, with the positions that were given: those that inputs were called with and those of the
graphs that were replayed. All else may happen in between that leaves this tape as it is and the other ones
consistent. -/
inductive Workspace.Populated [Written α] (R : Rules α) (k : Nat) : Workspace α → List Nat → Prop where
  | start : Populated R k {} []
  | constant {w : Workspace α} {given : List Nat} (hw : Populated R k w given) (x : α) :
      Populated R k ((makeConst x).run w).2 given
  | input {w : Workspace α} {given : List Nat} (hw : Populated R k w given) (hk : w.active = k)
      (p : Option Int) (s : α) :
      Populated R k ((makeInput p s).run w).2 ((p.bind Int.toNat?).toList ++ given)
  | construct {w : Workspace α} {given : List Nat} (hw : Populated R k w given)
      {n : Node α (Operand α)} (hop : n.op.isTerminal = false) (hn : ∀ x ∈ n.operands, x.On w) :
      Populated R k ((construct R n).run w).2 given
  | replay {w : Workspace α} {given : List Nat} (hw : Populated R k w given) {β : Type} (g : Graph β)
      (read : β → Except Fault α) (hk : k < w.tapes.size) :
      Populated R k ((g.replay R read k).run w).2 (g.positions ++ given)
  | elsewhere {w v : Workspace α} {given : List Nat} (hw : Populated R k w given) (hv : v.Ready)
      (htape : v.tape k = w.tape k) : Populated R k v given

namespace Workspace.Populated
variable {R : Rules α} {k : Nat} {w : Workspace α} {given : List Nat}

/-- One step: only the positions that are given to it can skip any. -/
theorem step {γ : Type} {b : Build α γ} {Q : γ → Workspace α → Prop} (new : List Nat)
    (h : w.FoldedAt k ∧ (w.tape k).SkippedBy given) (hb : b.KeepsFolded k w Q)
    (hnew : ∀ p, ((b.run w).2.tape k).HasInput p →
      (w.tape k).HasInput p ∨ p = (w.tape k).numInputs ∨ p ∈ new) :
    (b.run w).2.FoldedAt k ∧ ((b.run w).2.tape k).SkippedBy (new ++ given) := by
  refine ⟨hb.foldedAt, h.2.extends ?_ ?_ (hb.grows.tape k) hnew⟩
  · exact h.1.ready.valid k
  · exact hb.foldedAt.ready.valid k

variable [Written α]

theorem skippedBy (h : w.Populated R k given) : w.FoldedAt k ∧ (w.tape k).SkippedBy given := by
  induction h with
  | start =>
    have hempty : ({} : Workspace α).tape k = Tape.empty := by
      cases k <;> rfl
    rw [hempty]
    exact ⟨(Constructed.start (R := R)).foldedAt, Tape.skippedBy_empty⟩
  | @constant w given _ x ih =>
    have hkeeps : (makeConst x).Keeps (InputsAt k (w.tape k).HasInput) := keeps_makeConst Node.at_const x
    exact step [] ih (keepsFolded_makeConst ih.1 x) fun p hp =>
      .inl (hkeeps.of_hasInput (fun _ => id) hp)
  | @input w given _ hk p s ih =>
    subst hk
    exact step _ ih (keepsFolded_makeInput ih.1 p s) fun q =>
      position_of_hasInput_makeInput ih.1.ready
  | @construct w given _ n hop hn ih =>
    have hkeeps : (ScalarGraph.construct R n).Keeps (InputsAt k (w.tape k).HasInput) :=
      keeps_construct_at hop
    exact step [] ih (keepsFolded_construct ih.1 hop hn) fun p hp =>
      .inl (hkeeps.of_hasInput (fun _ => id) hp)
  | @replay w given _ β g read hk ih =>
    have hkeeps : (g.replay R read k).Keeps
        (InputsAt k fun p => (w.tape k).HasInput p ∨ p ∈ g.positions) := keeps_replay fun _ => .inr
    refine step g.positions ih (g.keepsFolded_replay ih.1 hk) fun p hp => ?_
    exact (hkeeps.of_hasInput (fun _ => .inl) hp).imp_right .inr
  | elsewhere _ hv htape ih =>
    rw [htape]
    exact ⟨⟨hv, htape ▸ ih.1.folded⟩, ih.2⟩

/-- The inputs of a tape have different positions, and the length of the input vector is one past the
largest of them. They have all positions below that exactly if no position that was given skips one. -/
theorem positions_dense_iff (h : w.Populated R k given) :
    (∀ (i j p : Nat) (r s : α), (w.tape k).nodes[i]? = some (.input p r) →
      (w.tape k).nodes[j]? = some (.input p s) → i = j) ∧
    (∀ p, (w.tape k).HasInput p → p < (w.tape k).numInputs) ∧
    (0 < (w.tape k).numInputs → (w.tape k).HasInput ((w.tape k).numInputs - 1)) ∧
    ((w.tape k).Dense ↔ ∀ p ∈ given, (w.tape k).HasInput p → ∀ i < p, (w.tape k).HasInput i) := by
  have ht : (w.tape k).Valid := h.skippedBy.1.ready.valid k
  refine ⟨?_, ?_, ?_, ?_⟩
  · exact fun i j p r s => ht.input_unique
  · exact fun p => ht.hasInput_lt
  · exact ht.hasInput_last
  · exact h.skippedBy.2.dense_iff ht

end Workspace.Populated

/-- The first input is declared at position 1. -/
def secondOnly : Workspace Float := ((makeInput (some 1) 2).run {}).2

def secondThenFirst : Workspace Float := ((makeInput (some 0) 3).run secondOnly).2

theorem populated_secondOnly : secondOnly.Populated Binary64.calculus.rules 0 [1] :=
  Workspace.Populated.start.input rfl (some 1) 2

theorem active_secondOnly : secondOnly.active = 0 := by
  have hstart := (Workspace.Constructed.start (R := Binary64.calculus.rules) (k := 0)).foldedAt
  exact (keepsFolded_makeInput hstart (some 1) 2).grows.active_eq

theorem populated_secondThenFirst : secondThenFirst.Populated Binary64.calculus.rules 0 [0, 1] :=
  populated_secondOnly.input active_secondOnly (some 0) 3

theorem hasInput_secondOnly {p : Nat} : (secondOnly.tape 0).HasInput p ↔ p = 1 := by
  have hnone : ∀ p, ¬ (({} : Workspace Float).tape 0).HasInput p := by
    intro p
    simp [Tape.HasInput, Workspace.tape, Tape.empty]
  refine (hasInput_makeInput_iff Workspace.ready_start (hnone 1) 2).trans ?_
  exact or_iff_right (hnone p)

theorem not_dense_secondOnly :
    secondOnly.Populated Binary64.calculus.rules 0 [1] ∧ ¬ (secondOnly.tape 0).Dense := by
  refine ⟨populated_secondOnly, fun hdense => ?_⟩
  have hone : 1 < (secondOnly.tape 0).numInputs := (hdense 1).mp (hasInput_secondOnly.mpr rfl)
  have hzero : (secondOnly.tape 0).HasInput 0 := (hdense 0).mpr (by omega)
  cases hasInput_secondOnly.mp hzero

theorem hasInput_secondThenFirst {p : Nat} : (secondThenFirst.tape 0).HasInput p ↔ p = 1 ∨ p = 0 := by
  have hready := populated_secondOnly.skippedBy.1.ready
  have hfree : ¬ (secondOnly.tape secondOnly.active).HasInput 0 := by
    rw [active_secondOnly, hasInput_secondOnly]
    decide
  have hboth := hasInput_makeInput_iff hready hfree 3 (q := p)
  rwa [active_secondOnly, hasInput_secondOnly] at hboth

/-- When the position that was skipped is declared as well, there is no gap any more. -/
theorem positions_dense_iff_secondThenFirst :
    secondOnly.Populated Binary64.calculus.rules 0 [1] ∧ ¬ (secondOnly.tape 0).Dense ∧
      secondThenFirst.Populated Binary64.calculus.rules 0 [0, 1] ∧ (secondThenFirst.tape 0).Dense := by
  obtain ⟨-, -, -, hsecond⟩ := populated_secondOnly.positions_dense_iff
  obtain ⟨-, -, -, hdense⟩ := populated_secondThenFirst.positions_dense_iff
  refine ⟨populated_secondOnly, fun h => ?_, populated_secondThenFirst, hdense.mpr fun p hp _ i hi => ?_⟩
  · have hzero := hsecond.mp h 1 List.mem_cons_self (hasInput_secondOnly.mpr rfl) 0 Nat.zero_lt_one
    cases hasInput_secondOnly.mp hzero
  · rw [hasInput_secondThenFirst]
    simp only [List.mem_cons, List.not_mem_nil, or_false] at hp
    omega

end ScalarGraph
