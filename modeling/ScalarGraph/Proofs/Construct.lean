import ScalarGraph.Construct
import ScalarGraph.Proofs.Tape.Requests

/-! # What constructors mean

Nodes mean something by what their operands mean: a value, a value with a derivative, or
whether they depend on an input. As long as folded constants keep their meaning, the
handle of a constructor means what its node makes of the meanings of the operands,
whatever is found on the tape and whatever is appended to it later.
-/
namespace ScalarGraph
variable {α β : Type}

/-- Nodes of constants mean the same as the constants that they amount to. -/
def Rules.Folds (R : Rules α) (f : Node α β → β) : Prop :=
  ∀ n : Node α α, n.op.isTerminal = false → f (n.map fun x => f (.const x)) = f (.const (n.value R #[]))

variable [DecidableEq α] [Hashable α]

namespace Tape
variable {t u : Tape α} {f : Node α β → β} {V : Nat → β}

theorem Extends.solves (h : t.Extends u) (hV : u.net.Solves f V) : t.net.Solves f V :=
  fun i n hn => hV i n (h.getElem? hn)

theorem node_of_constant? {i : Nat} {x : α} (h : t.constant? i = some x) :
    t.nodes[i]? = some (.const x) := by
  unfold constant? at h
  split at h
  · next v hi =>
    cases h
    exact hi
  · cases h

theorem meaning_of_constant? (hV : t.net.Solves f V) {i : Nat} {x : α} (h : t.constant? i = some x) :
    V i = f (.const x) := hV i _ (node_of_constant? h)

/-- Whether a node is found, appended or settled as a constant, its index means what the node does. -/
theorem Valid.meaning_settle (ht : t.Valid) {R : Rules α} (hf : R.Folds f) {n : Node α Nat}
    (hop : n.op.isTerminal = false) (hn : ∀ c ∈ n.operands, c < t.size)
    (hV : (t.settle R n).1.net.Solves f V) : V (t.settle R n).2 = f (n.map V) := by
  rcases ht.provides_settle R (Node.position?_of_not_isTerminal hop) hn with ⟨m, hm, hr⟩ | ⟨-, hr⟩
  · have hconst : n.map V = m.map fun x => f (.const x) :=
      Node.map_eq_of_mapM_eq_some hm fun i _ x => meaning_of_constant? (hr.extends.solves hV)
    rw [hconst, hf m (by rw [(Node.of_mapM_eq_some hm).1, hop])]
    exact hV _ _ hr.node
  · exact hV _ _ hr.node

end Tape

def Workspace.AddsNoInput (w v : Workspace α) : Prop :=
  ∀ (j i k : Nat) (s : α),
    (v.tape j).nodes[i]? = some (.input k s) → (w.tape j).nodes[i]? = some (.input k s)

theorem Workspace.AddsNoInput.trans {w v u : Workspace α} (h : w.AddsNoInput v) (h' : v.AddsNoInput u) :
    w.AddsNoInput u := fun j i k s hu => h j i k s (h' j i k s hu)

theorem Workspace.Grows.numInputs_eq {w v : Workspace α} (h : w.Grows v) (hw : w.Ready) (hv : v.Ready)
    (hinput : w.AddsNoInput v) (k : Nat) : (v.tape k).numInputs = (w.tape k).numInputs :=
  Nat.le_antisymm
    ((hv.valid k).numInputs_le (hw.valid k) fun _ ⟨i, s, hi⟩ => ⟨i, s, hinput _ _ _ _ hi⟩)
    ((hw.valid k).numInputs_le (hv.valid k) fun _ ⟨i, s, hi⟩ => ⟨i, s, (h.tape k).getElem? hi⟩)

namespace Tape

theorem Valid.exists_provides_settle {t : Tape α} (ht : t.Valid) (R : Rules α) {n : Node α Nat}
    (hop : n.op.isTerminal = false) (hn : ∀ c ∈ n.operands, c < t.size) :
    ∃ m, m.position? = none ∧ t.Provides m (t.settle R n) := by
  rcases ht.provides_settle R (Node.position?_of_not_isTerminal hop) hn with ⟨m, -, hr⟩ | ⟨-, hr⟩
  · exact ⟨_, rfl, hr⟩
  · exact ⟨n, Node.position?_of_not_isTerminal hop, hr⟩

theorem Provides.node_cases {t : Tape α} {n m : Node α Nat} {r : Tape α × Nat} (h : t.Provides n r)
    {i : Nat} (hi : r.1.nodes[i]? = some m) : t.nodes[i]? = some m ∨ m = n := by
  rcases h.found_or_appended with he | ⟨he, -⟩
  · exact .inl (he ▸ hi)
  · rw [he, Array.getElem?_push] at hi
    split at hi
    · exact .inr (Option.some.inj hi).symm
    · exact .inl hi

theorem Extends.hasInput {t u : Tape α} (h : t.Extends u) {k : Nat} (hk : t.HasInput k) : u.HasInput k := by
  obtain ⟨i, s, hi⟩ := hk
  exact ⟨i, s, h.getElem? hi⟩

theorem Provides.hasInput_iff {t : Tape α} {p : Nat} {s : α} {r : Tape α × Nat}
    (h : t.Provides (.input p s) r) {k : Nat} : r.1.HasInput k ↔ t.HasInput k ∨ k = p := by
  constructor
  · rintro ⟨i, x, hi⟩
    rcases h.node_cases hi with hi | hi
    · exact .inl ⟨i, x, hi⟩
    · cases hi
      exact .inr rfl
  · rintro (hk | rfl)
    · exact h.extends.hasInput hk
    · exact ⟨_, s, h.node⟩

end Tape

theorem Workspace.addsNoInput_onTape {w : Workspace α} {k : Nat} {f : Tape α → Tape α × Nat}
    {n : Node α Nat} (hk : k < w.tapes.size) (h : (w.tape k).Provides n (f (w.tape k)))
    (hn : n.position? = none) : w.AddsNoInput (w.onTape k f).1 := by
  intro j i p s hi
  by_cases hj : j = k
  · subst hj
    rw [tape_onTape hk] at hi
    rcases h.node_cases hi with hi | rfl
    · exact hi
    · cases hn
  · rwa [tape_onTape_ne hj] at hi

namespace Operand

def On (w : Workspace α) (x : Operand α) : Prop :=
  ∀ h, x = .handle h → h.tape < w.tapes.size ∧ h.index < (w.tape h.tape).size

/-- What an operand means where the arena indices mean `V`. -/
def meaning (f : Node α β → β) (V : Nat → β) : Operand α → β
  | handle h => V h.index
  | number x => f (.const x)
  | unfit _ => V 0

theorem On.grows {w v : Workspace α} {x : Operand α} (h : x.On w) (hv : w.Grows v) : x.On v := by
  intro y hy
  obtain ⟨htape, hindex⟩ := h y hy
  exact ⟨by rw [hv.size_eq]; exact htape, Nat.lt_of_lt_of_le hindex (hv.tape _).size_le⟩

end Operand

section Steps
variable {R : Rules α} {f : Node α β → β} {w : Workspace α}

omit [DecidableEq α] [Hashable α] in
theorem mem_tapes {xs : List (Operand α)} {k : Nat} :
    k ∈ xs.filterMap Operand.tape? ↔ ∃ y, .handle y ∈ xs ∧ y.tape = k := by
  rw [List.mem_filterMap]
  constructor
  · rintro ⟨x, hx, hk⟩
    cases x with
    | handle y => exact ⟨y, hx, Option.some.inj hk⟩
    | number a => cases hk
    | unfit e => cases hk
  · rintro ⟨y, hy, rfl⟩
    exact ⟨.handle y, hy, rfl⟩

/-- Without handles of different tapes there is one tape that all of them belong to. -/
theorem safe_sharedTape (hw : w.Ready) (xs : List (Operand α)) :
    (sharedTape xs).Safe w (∃ y z, .handle y ∈ xs ∧ .handle z ∈ xs ∧ y.tape ≠ z.tape) fun k v =>
      v = w ∧ (∀ y, .handle y ∈ xs → y.tape = k) ∧
        (k = w.active ∨ ∃ y, .handle y ∈ xs ∧ y.tape = k) := by
  unfold sharedTape
  cases hxs : xs.filterMap Operand.tape? with
  | nil =>
    have hnone : ∀ y, Operand.handle y ∉ xs := fun y hy => by
      have hmem : y.tape ∈ xs.filterMap Operand.tape? := mem_tapes.mpr ⟨y, hy, rfl⟩
      simp [hxs] at hmem
    refine Build.Safe.bind (Build.safe_get hw) ?_
    rintro c v hv - ⟨rfl, rfl⟩
    exact Build.safe_pure hv ⟨rfl, fun y hy => absurd hy (hnone y), .inl rfl⟩
  | cons k ks =>
    obtain ⟨y, hy, hyk⟩ : ∃ y, .handle y ∈ xs ∧ y.tape = k := mem_tapes.mp (by simp [hxs])
    dsimp only
    split
    · next hall =>
      refine Build.safe_pure hw ⟨rfl, fun z hz => ?_, .inr ⟨y, hy, hyk⟩⟩
      have hmem : z.tape ∈ xs.filterMap Operand.tape? := mem_tapes.mpr ⟨z, hz, rfl⟩
      rw [hxs] at hmem
      rcases List.mem_cons.mp hmem with h | h
      · exact h
      · exact eq_of_beq (List.all_eq_true.mp hall _ h)
    · next hall =>
      refine Build.safe_throw hw ?_
      obtain ⟨j, hj, hne⟩ : ∃ j ∈ ks, j ≠ k := by simpa using hall
      obtain ⟨z, hz, rfl⟩ : ∃ z, .handle z ∈ xs ∧ z.tape = j := mem_tapes.mp (by simp [hxs, hj])
      exact ⟨z, y, hz, hy, hyk ▸ hne⟩

theorem safe_promote {k : Nat} {x : Operand α} (hw : w.Ready) (hk : k < w.tapes.size) (hx : x.On w)
    (htape : ∀ y, x = .handle y → y.tape = k) :
    (x.promote k).Safe w (∃ e, x = .unfit e) fun i v => i < (v.tape k).size ∧ w.AddsNoInput v ∧
      ∀ V, (v.tape k).net.Solves f V → V i = x.meaning f V := by
  cases x with
  | handle y =>
    have hy := (hx y rfl).2
    rw [htape y rfl] at hy
    exact Build.safe_pure hw ⟨hy, fun _ _ _ _ h => h, fun V _ => rfl⟩
  | number a =>
    have hprovides := (hw.valid k).provides_const a
    refine (Build.safe_onTape (f := (·.const a)) hw hk hprovides).imp ?_
    rintro i v - - ⟨rfl, rfl⟩
    rw [Workspace.tape_onTape hk]
    exact ⟨hprovides.lt_size, Workspace.addsNoInput_onTape hk hprovides rfl,
      fun V hV => hV _ _ hprovides.node⟩
  | unfit e => exact Build.safe_throw hw ⟨e, rfl⟩

theorem safe_promoteAll {k : Nat} {xs : List (Operand α)} (hw : w.Ready) (hk : k < w.tapes.size)
    (hxs : ∀ x ∈ xs, x.On w) (htape : ∀ y, .handle y ∈ xs → y.tape = k) :
    (xs.mapM (Operand.promote k)).Safe w (∃ e, .unfit e ∈ xs) fun is v =>
      (∀ i ∈ is, i < (v.tape k).size) ∧ w.AddsNoInput v ∧
      ∀ V, (v.tape k).net.Solves f V → is.map V = xs.map (Operand.meaning f V) := by
  induction xs generalizing w with
  | nil => exact Build.safe_pure hw ⟨by simp, fun _ _ _ _ h => h, fun _ _ => rfl⟩
  | cons x xs ih =>
    rw [List.mapM_cons]
    have hx := safe_promote (f := f) hw hk (hxs x List.mem_cons_self)
      fun y hy => htape y (hy ▸ List.mem_cons_self)
    refine Build.Safe.bind (hx.weaken fun ⟨e, he⟩ => ⟨e, he ▸ List.mem_cons_self⟩) ?_
    intro i v hv hwv ⟨hi, hinput, hmeaning⟩
    have hrest := ih hv (by rw [hwv.size_eq]; exact hk)
      (fun y hy => (hxs y (List.mem_cons_of_mem _ hy)).grows hwv)
      fun y hy => htape y (List.mem_cons_of_mem _ hy)
    refine Build.Safe.bind (hrest.weaken fun ⟨e, he⟩ => ⟨e, List.mem_cons_of_mem _ he⟩) ?_
    intro is u hu hvu ⟨his, hinput', hmeaning'⟩
    refine Build.safe_pure hu ⟨?_, hinput.trans hinput', fun V hV => ?_⟩
    · intro j hj
      rcases List.mem_cons.mp hj with rfl | hj
      · exact Nat.lt_of_lt_of_le hi (hvu.tape k).size_le
      · exact his j hj
    · rw [List.map_cons, List.map_cons, hmeaning V ((hvu.tape k).solves hV), hmeaning' V hV]

/-- From `w` a constructor of `n` puts its operands on the tape of the handle `h`, as they are in
`m`, and settles `m` there, from `u` to `v`. -/
structure Settles (R : Rules α) (f : Node α β → β) (w : Workspace α) (n : Node α (Operand α))
    (h : Handle) (v u : Workspace α) (m : Node α Nat) : Prop where
  ready : u.Ready
  grows : w.Grows u
  adds_no_input : w.AddsNoInput u
  tape_lt : h.tape < u.tapes.size
  tape_eq : ∀ y, .handle y ∈ n.operands → y.tape = h.tape
  shared : h.tape = w.active ∨ ∃ y, .handle y ∈ n.operands ∧ y.tape = h.tape
  operator : m.op.isTerminal = false
  operand_lt : ∀ c ∈ m.operands, c < (u.tape h.tape).size
  meaning : ∀ V, (u.tape h.tape).net.Solves f V → m.map V = n.map (Operand.meaning f V)
  index_eq : h.index = ((u.tape h.tape).settle R m).2
  result_eq : v = (u.onTape h.tape (·.settle R m)).1

theorem safe_construct_settles (f : Node α β → β) (hw : w.Ready) {n : Node α (Operand α)}
    (hop : n.op.isTerminal = false) (hn : ∀ x ∈ n.operands, x.On w) :
    (construct R n).Safe w
      ((∃ y z, .handle y ∈ n.operands ∧ .handle z ∈ n.operands ∧ y.tape ≠ z.tape) ∨
        ∃ e, .unfit e ∈ n.operands)
      fun h v => ∃ u m, Settles R f w n h v u m := by
  unfold construct
  refine Build.Safe.bind ((safe_sharedTape hw n.operands).weaken .inl) ?_
  rintro k v - - ⟨rfl, htape, hshared⟩
  have hk : k < v.tapes.size := by
    rcases hshared with rfl | ⟨y, hy, rfl⟩
    · exact hw.active_lt
    · exact (hn _ hy y rfl).1
  refine Build.Safe.bind ((safe_promoteAll (f := f) hw hk hn htape).mapM.weaken .inr) ?_
  intro m u hu hvu ⟨hm, hlt, hinput, hmeaning⟩
  have hku : k < u.tapes.size := by rwa [hvu.size_eq]
  have hmop : m.op.isTerminal = false := by rw [hm, hop]
  obtain ⟨a, ha, hprovides⟩ := (hu.valid k).exists_provides_settle R hmop hlt
  refine Build.Safe.bind (Build.safe_onTape (f := (·.settle R m)) hu hku hprovides) ?_
  rintro i s hs hus ⟨rfl, rfl⟩
  refine Build.safe_pure hs
    ⟨u, m, hu, hvu, hinput, hku, htape, hshared, hmop, hlt, fun V hV => ?_, rfl, rfl⟩
  refine Node.ext_operands (by rw [Node.op_map, Node.op_map, hm]) ?_
  rw [Node.operands_map, Node.operands_map]
  exact hmeaning V hV

/-- The handle of a constructor is on the tape of its operands, and means what the node does. -/
theorem safe_construct (hw : w.Ready) (hf : R.Folds f) {n : Node α (Operand α)}
    (hop : n.op.isTerminal = false) (hn : ∀ x ∈ n.operands, x.On w) :
    (construct R n).Safe w
      ((∃ y z, .handle y ∈ n.operands ∧ .handle z ∈ n.operands ∧ y.tape ≠ z.tape) ∨
        ∃ e, .unfit e ∈ n.operands)
      fun h v => (Operand.handle h).On v ∧ w.AddsNoInput v ∧
        (h.tape = w.active ∨ ∃ y, .handle y ∈ n.operands ∧ y.tape = h.tape) ∧
        ∀ V, (v.tape h.tape).net.Solves f V → V h.index = f (n.map (Operand.meaning f V)) := by
  refine (safe_construct_settles f hw hop hn).imp ?_
  rintro h v hv - ⟨u, m, hsettles⟩
  have hk := hsettles.tape_lt
  have huk := hsettles.ready.valid h.tape
  obtain ⟨a, ha, hprovides⟩ := huk.exists_provides_settle R hsettles.operator hsettles.operand_lt
  rw [hsettles.result_eq]
  refine ⟨?_, ?_, hsettles.shared, fun V hV => ?_⟩
  · rintro y ⟨⟩
    rw [Workspace.size_onTape, Workspace.tape_onTape hk, hsettles.index_eq]
    exact ⟨hk, hprovides.lt_size⟩
  · exact hsettles.adds_no_input.trans (Workspace.addsNoInput_onTape hk hprovides ha)
  · rw [Workspace.tape_onTape hk] at hV
    rw [hsettles.index_eq, ← hsettles.meaning V (hprovides.extends.solves hV)]
    exact huk.meaning_settle hf hsettles.operator hsettles.operand_lt hV

end Steps

/-- The inputs of the active tape have the given sample values. -/
def Workspace.Samples (w : Workspace α) (sample : Nat → α) : Prop :=
  ∀ (i k : Nat) (s : α), (w.tape w.active).nodes[i]? = some (.input k s) → s = sample k

theorem Workspace.Samples.of_addsNoInput {w v : Workspace α} {sample : Nat → α}
    (h : w.Samples sample) (hv : w.Grows v) (hinput : w.AddsNoInput v) : v.Samples sample := by
  intro i k s hi
  rw [hv.active_eq] at hi
  exact h i k s (hinput _ i k s hi)

theorem Tape.Valid.exists_declare [Written α] {t : Tape α} (ht : t.Valid) {k : Nat} {s : α}
    (h : ∀ (i : Nat) (r : α), t.nodes[i]? = some (.input k r) → r = s) :
    ∃ r, t.declare (some (k : Int)) s = .ok r := by
  simp only [declare, Option.getD_some, Int.toNat_natCast]
  rw [if_neg (by omega)]
  unfold input
  cases hk : t.inputs[k]? with
  | none => exact ⟨_, rfl⟩
  | some i =>
    obtain ⟨old, hi, hold⟩ := ht.sample?_eq hk
    simp only [hold, h i old hi, if_true]
    exact ⟨_, rfl⟩

section Terminals
variable {w : Workspace α} {F : Prop}

theorem safe_provided {b : Build α Handle} {g : Tape α → Tape α × Nat} {n : Node α Nat}
    (hw : w.Ready) (hn : (w.tape w.active).Provides n (g (w.tape w.active)))
    (hrun : b.run w = (.ok ⟨w.active, (g (w.tape w.active)).2⟩, (w.onTape w.active g).1)) :
    b.Safe w F fun h v => h.tape = v.active ∧ (v.tape v.active).nodes[h.index]? = some n ∧
      v = (w.onTape w.active g).1 := by
  have htape := Workspace.tape_onTape (f := g) hw.active_lt
  refine ⟨?_, ?_, ?_, ?_⟩ <;> rw [hrun]
  · exact hw.onTape hw.active_lt hn
  · exact Workspace.grows_onTape hw.active_lt hn
  · rintro h ⟨⟩
    refine ⟨rfl, ?_, rfl⟩
    rw [Workspace.onTape_active, htape]
    exact hn.node
  · rintro e ⟨⟩

theorem safe_makeConst (hw : w.Ready) (x : α) : (makeConst x).Safe w F fun h v =>
    h.tape = v.active ∧ (v.tape v.active).nodes[h.index]? = some (.const x) ∧ w.AddsNoInput v := by
  have hprovides := (hw.valid w.active).provides_const x
  refine (safe_provided (g := (·.const x)) hw hprovides (run_makeConst x)).imp ?_
  rintro h v - - ⟨htape, hnode, rfl⟩
  exact ⟨htape, hnode, Workspace.addsNoInput_onTape hw.active_lt hprovides rfl⟩

theorem safe_makeInput [Written α] (hw : w.Ready) {sample : Nat → α} (hs : w.Samples sample)
    (k : Nat) : (makeInput (some (k : Int)) (sample k)).Safe w F fun h v => h.tape = v.active ∧
      (v.tape v.active).nodes[h.index]? = some (.input k (sample k)) ∧ v.Samples sample := by
  obtain ⟨r, hr⟩ := (hw.valid w.active).exists_declare fun i s => hs i k s
  have hprovides := (hw.valid w.active).provides_declare hr
  refine (safe_provided (g := fun _ => r) hw hprovides (run_makeInput_ok hr)).imp ?_
  rintro h v - hv ⟨htape, hnode, rfl⟩
  refine ⟨htape, hnode, fun i j s hi => ?_⟩
  rw [Workspace.onTape_active, Workspace.tape_onTape hw.active_lt] at hi
  rcases hprovides.node_cases hi with hi | hi
  · exact hs i j s hi
  · cases hi
    rfl

end Terminals
end ScalarGraph
