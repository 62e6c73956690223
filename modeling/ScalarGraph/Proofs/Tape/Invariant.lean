import ScalarGraph.Proofs.Net
import ScalarGraph.Tape

/-! # The invariant of tapes

An arena and its two tables describe the same nodes: operands stand before the
nodes that use them, the table of inputs holds exactly the positions of the input
nodes, and the table of shared nodes exactly all other nodes. Every operation of
a tape finds its node or appends it, and keeps this.
-/
namespace ScalarGraph
variable {α β : Type} [DecidableEq α] [Hashable α]

omit [DecidableEq α] [Hashable α] in
theorem Node.isTerminal_of_operator? {ι : Type} {n : Node β ι} {m : Node α ι}
    (h : n.operator? = some m) : m.op.isTerminal = false := by
  cases n <;> simp only [operator?, convertM] at h <;> cases h <;> rfl

namespace Tape

def HasInput (t : Tape α) (k : Nat) : Prop := ∃ (i : Nat) (s : α), t.nodes[i]? = some (.input k s)

structure Valid (t : Tape α) : Prop where
  operand_lt : ∀ {i : Nat} {n : Node α Nat}, t.nodes[i]? = some n → ∀ c ∈ n.operands, c < i
  inputs_iff : ∀ {k i : Nat}, t.inputs[k]? = some i ↔ ∃ s, t.nodes[i]? = some (.input k s)
  shared_iff : ∀ {n : Node α Nat} {i : Nat},
    t.shared[n]? = some i ↔ t.nodes[i]? = some n ∧ n.position? = none

def net (t : Tape α) : Net α Nat := fun i n => t.nodes[i]? = some n

/-- The arena of a tape goes on in that of another one. -/
def Extends (t u : Tape α) : Prop := t.nodes.toList <+: u.nodes.toList

theorem Extends.refl (t : Tape α) : t.Extends t := List.prefix_rfl

theorem Extends.trans {t u v : Tape α} (h : t.Extends u) (h' : u.Extends v) : t.Extends v :=
  List.IsPrefix.trans h h'

theorem Extends.size_le {t u : Tape α} (h : t.Extends u) : t.size ≤ u.size := by
  simpa [size] using h.length_le

theorem Extends.getElem? {t u : Tape α} (h : t.Extends u) {i : Nat} {n : Node α Nat}
    (hi : t.nodes[i]? = some n) : u.nodes[i]? = some n := by
  rw [← Array.getElem?_toList] at hi ⊢
  obtain ⟨rest, hrest⟩ := h
  rw [← hrest, List.getElem?_append_left (List.getElem?_eq_some_iff.mp hi).1]
  exact hi

theorem lt_size {t : Tape α} {i : Nat} {n : Node α Nat} (h : t.nodes[i]? = some n) : i < t.size :=
  (Array.getElem?_eq_some_iff.mp h).1

theorem exists_node {t : Tape α} {i : Nat} (h : i < t.size) : ∃ n, t.nodes[i]? = some n :=
  ⟨_, Array.getElem?_eq_getElem h⟩

/-- An operation on `t` that asks for the node `n` keeps the invariant and gives the index
of that node, which it appends where it is not there yet. -/
structure Provides (t : Tape α) (n : Node α Nat) (r : Tape α × Nat) : Prop where
  valid : r.1.Valid
  node : r.1.nodes[r.2]? = some n
  found_or_appended : r.1 = t ∨ r.1.nodes = t.nodes.push n ∧ r.2 = t.size

theorem Provides.extends {t : Tape α} {n : Node α Nat} {r : Tape α × Nat} (h : t.Provides n r) :
    t.Extends r.1 := by
  rcases h.found_or_appended with he | ⟨he, _⟩
  · rw [he]; exact .refl t
  · simp [Extends, he]

theorem Provides.lt_size {t : Tape α} {n : Node α Nat} {r : Tape α × Nat} (h : t.Provides n r) :
    r.2 < r.1.size := Tape.lt_size h.node

namespace Valid

@[simp] theorem empty : (Tape.empty : Tape α).Valid where
  operand_lt h := by simp [Tape.empty] at h
  inputs_iff := by simp [Tape.empty]
  shared_iff := by simp [Tape.empty]

variable {t : Tape α} (ht : t.Valid)
include ht

theorem ranked : t.net.Ranked id where
  unique hn hm := Option.some.inj (hn.symm.trans hm)
  operand_lt hn := ht.operand_lt hn

theorem index_unique {i j : Nat} {n : Node α Nat} (hi : t.nodes[i]? = some n)
    (hj : t.nodes[j]? = some n) : i = j := by
  cases hn : n.position? with
  | none =>
    have hsi := ht.shared_iff.mpr ⟨hi, hn⟩
    have hsj := ht.shared_iff.mpr ⟨hj, hn⟩
    exact Option.some.inj (hsi.symm.trans hsj)
  | some k =>
    obtain ⟨s, rfl⟩ := Node.eq_input_of_position? hn
    have hsi := ht.inputs_iff.mpr ⟨s, hi⟩
    have hsj := ht.inputs_iff.mpr ⟨s, hj⟩
    exact Option.some.inj (hsi.symm.trans hsj)

theorem input_unique {i j k : Nat} {r s : α} (hi : t.nodes[i]? = some (.input k r))
    (hj : t.nodes[j]? = some (.input k s)) : i = j := by
  have hsi := ht.inputs_iff.mpr ⟨r, hi⟩
  have hsj := ht.inputs_iff.mpr ⟨s, hj⟩
  exact Option.some.inj (hsi.symm.trans hsj)

theorem operand_lt_append {n : Node α Nat} (hn : ∀ c ∈ n.operands, c < t.size) {i : Nat}
    {m : Node α Nat} (hi : (t.append n).nodes[i]? = some m) : ∀ c ∈ m.operands, c < i := by
  simp only [append, Array.getElem?_push] at hi
  split at hi
  · next he =>
    cases hi
    simpa [he, size] using hn
  · exact ht.operand_lt hi

theorem append_shared {n : Node α Nat} (hp : n.position? = none) (hs : t.shared[n]? = none)
    (hn : ∀ c ∈ n.operands, c < t.size) :
    Valid { t.append n with shared := t.shared.insert n t.size } where
  operand_lt := ht.operand_lt_append hn
  inputs_iff {k i} := by
    simp only [append, Array.getElem?_push]
    split
    · next he =>
      have hfree : t.nodes[i]? = none := by simp [he]
      rw [ht.inputs_iff, hfree]
      constructor
      · rintro ⟨s, ⟨⟩⟩
      · rintro ⟨s, hk⟩
        cases hk
        simp [Node.position?] at hp
    · exact ht.inputs_iff
  shared_iff {m i} := by
    simp only [append, Array.getElem?_push, Std.HashMap.getElem?_insert]
    by_cases hm : n = m
    · subst hm
      have hnot : t.nodes[i]? ≠ some n := fun h => by
        simp [ht.shared_iff.mpr ⟨h, hp⟩] at hs
      by_cases hi : i = t.nodes.size
      · simp [hi, size, hp]
      · simp [hi, hnot, Ne.symm hi, size]
    · have hbeq : (n == m) = false := by simpa using hm
      simp only [hbeq, Bool.false_eq_true, if_false, ht.shared_iff]
      by_cases hi : i = t.nodes.size
      · simp [hi, hm]
      · simp [hi]

theorem append_input {k : Nat} (s : α) (hk : t.inputs[k]? = none) :
    Valid { t.append (.input k s) with inputs := t.inputs.insert k t.size } where
  operand_lt := ht.operand_lt_append (by simp [Node.operands])
  inputs_iff {l i} := by
    simp only [append, Array.getElem?_push, Std.HashMap.getElem?_insert]
    by_cases hl : k = l
    · subst hl
      have hnot : ¬ ∃ r, t.nodes[i]? = some (.input k r) := fun h => by
        simp [ht.inputs_iff.mpr h] at hk
      by_cases hi : i = t.nodes.size
      · simp [hi, size]
      · simp only [beq_self_eq_true, if_true, hi, if_false, hnot, iff_false, size]
        exact fun h => hi (Option.some.inj h).symm
    · have hbeq : (k == l) = false := by simpa using hl
      simp only [hbeq, Bool.false_eq_true, if_false, ht.inputs_iff]
      by_cases hi : i = t.nodes.size
      · simp [hi, hl]
      · simp [hi]
  shared_iff {n i} := by
    simp only [append, Array.getElem?_push]
    split
    · next he =>
      have hfree : t.nodes[i]? = none := by simp [he]
      rw [ht.shared_iff, hfree]
      constructor
      · rintro ⟨⟨⟩, _⟩
      · rintro ⟨hn, hp⟩
        cases hn
        simp [Node.position?] at hp
    · exact ht.shared_iff

theorem provides_share {n : Node α Nat} (hp : n.position? = none)
    (hn : ∀ c ∈ n.operands, c < t.size) : t.Provides n (t.share n) := by
  unfold share
  cases hs : t.shared[n]? with
  | some i => exact ⟨ht, (ht.shared_iff.mp hs).1, .inl rfl⟩
  | none => exact ⟨ht.append_shared hp hs hn, by simp [append, size], .inr ⟨rfl, rfl⟩⟩

theorem provides_const (v : α) : t.Provides (.const v) (t.const v) :=
  ht.provides_share rfl (by simp [Node.operands])

theorem sample?_eq {k i : Nat} (h : t.inputs[k]? = some i) :
    ∃ s, t.nodes[i]? = some (.input k s) ∧ t.sample? i = some s := by
  obtain ⟨s, hs⟩ := ht.inputs_iff.mp h
  exact ⟨s, hs, by simp [sample?, hs]⟩

theorem provides_input [Written α] {k : Nat} {s : α} {r : Tape α × Nat}
    (h : t.input k s = .ok r) : t.Provides (.input k s) r := by
  unfold input at h
  cases hk : t.inputs[k]? with
  | none =>
    simp only [hk] at h
    cases h
    exact ⟨ht.append_input s hk, by simp [append, size], .inr ⟨rfl, rfl⟩⟩
  | some i =>
    obtain ⟨old, hi, hold⟩ := ht.sample?_eq hk
    simp only [hk, hold] at h
    split at h
    · next he =>
      cases h
      exact ⟨ht, by simpa [he] using hi, .inl rfl⟩
    · cases h

theorem provides_declare [Written α] {position : Option Int} {s : α} {r : Tape α × Nat}
    (h : t.declare position s = .ok r) :
    t.Provides (.input (position.getD t.numInputs).toNat s) r := by
  simp only [declare] at h
  split at h
  · cases h
  · exact ht.provides_input h

/-- An operator node is found or appended, or the constant that it amounts to. -/
theorem provides_settle (R : Rules α) {n : Node α Nat} (hp : n.position? = none)
    (hn : ∀ c ∈ n.operands, c < t.size) :
    (∃ m, n.mapM t.constant? = some m ∧ t.Provides (.const (m.value R #[])) (t.settle R n)) ∨
      n.mapM t.constant? = none ∧ t.Provides n (t.settle R n) := by
  unfold settle
  cases hm : n.mapM t.constant? with
  | some m => exact .inl ⟨m, rfl, ht.provides_const _⟩
  | none => exact .inr ⟨rfl, ht.provides_share hp hn⟩

omit ht in
theorem lt_size_of_operand? {c : Int} {i : Nat} (h : t.operand? c = .ok i) : i < t.size := by
  unfold operand? at h
  split at h
  · next hc =>
    cases h
    omega
  · cases h

/-- What is pushed is no terminal, and its operands are on the tape. -/
theorem provides_push [Written β] {l : Literal β} {children : List Int} {r : Tape α × Nat}
    (h : t.push l children = .ok r) : ∃ n, n.op.isTerminal = false ∧ t.Provides n r := by
  unfold push at h
  obtain ⟨given, -, h⟩ := bind_eq_ok.mp h
  cases ho : given.operator? (α := α) with
  | none => simp [ho] at h
  | some n =>
    simp only [ho] at h
    obtain ⟨m, hm, h⟩ := bind_eq_ok.mp h
    cases h
    have hterminal := Node.isTerminal_of_operator? ho
    obtain ⟨hop, hmem⟩ := Node.of_mapM_eq_ok hm
    refine ⟨m, by rw [hop, hterminal], ht.provides_share ?_ ?_⟩
    · exact Node.position?_of_not_isTerminal (by rw [hop, hterminal])
    · intro c hc
      obtain ⟨x, -, hx⟩ := hmem c hc
      exact lt_size_of_operand? hx

omit ht in
theorem numInputs_le_iff {n : Nat} : t.numInputs ≤ n ↔ ∀ k ∈ t.inputs.keys, k < n :=
  (foldl_max_le_iff (· + 1)).trans (and_iff_right (Nat.zero_le n))

omit ht in
theorem lt_numInputs {k i : Nat} (h : t.inputs[k]? = some i) : k < t.numInputs :=
  numInputs_le_iff.mp (Nat.le_refl _) k
    (Std.HashMap.mem_keys.mpr (Std.HashMap.mem_iff_isSome_getElem?.mpr (by simp [h])))

theorem position_lt {i k : Nat} {s : α} (hn : t.net i (.input k s)) : k < t.numInputs :=
  lt_numInputs (ht.inputs_iff.mpr ⟨s, hn⟩)

theorem hasInput_of_mem_keys {k : Nat} (hk : k ∈ t.inputs.keys) : t.HasInput k := by
  have hmem : k ∈ t.inputs := Std.HashMap.mem_keys.mp hk
  obtain ⟨s, hs⟩ := ht.inputs_iff.mp (Std.HashMap.getElem?_eq_some_getElem hmem)
  exact ⟨_, s, hs⟩

theorem hasInput_lt {k : Nat} (h : t.HasInput k) : k < t.numInputs := by
  obtain ⟨i, s, hi⟩ := h
  exact ht.position_lt hi

/-- The last entry of the input vector belongs to an input. -/
theorem hasInput_last (h : 0 < t.numInputs) : t.HasInput (t.numInputs - 1) := by
  by_contra hlast
  have hlt : ∀ k ∈ t.inputs.keys, k < t.numInputs - 1 := by
    intro k hk
    have hinput := ht.hasInput_of_mem_keys hk
    have hne : k ≠ t.numInputs - 1 := fun he => hlast (he ▸ hinput)
    have hbelow := ht.hasInput_lt hinput
    omega
  have hle : t.numInputs ≤ t.numInputs - 1 := numInputs_le_iff.mpr hlt
  omega

theorem numInputs_eq {n : Nat} (h : ∀ k, t.HasInput k ↔ k < n) : t.numInputs = n := by
  apply Nat.le_antisymm
  · exact numInputs_le_iff.mpr fun k hk => (h k).mp (ht.hasInput_of_mem_keys hk)
  · rcases Nat.eq_zero_or_pos n with rfl | hn
    · exact Nat.zero_le _
    · have hlt : n - 1 < t.numInputs := ht.hasInput_lt ((h (n - 1)).mpr (by omega))
      omega

theorem numInputs_le {u : Tape α} (hu : u.Valid) (h : ∀ k, t.HasInput k → u.HasInput k) :
    t.numInputs ≤ u.numInputs :=
  numInputs_le_iff.mpr fun k hk => hu.hasInput_lt (h k (ht.hasInput_of_mem_keys hk))

omit ht in
theorem inputs_numInputs : t.inputs[t.numInputs]? = none := by
  cases h : t.inputs[t.numInputs]? with
  | none => rfl
  | some i => exact absurd (lt_numInputs h) (Nat.lt_irrefl _)

omit ht in
theorem declare_none [Written α] (t : Tape α) (s : α) : ∃ u : Tape α,
    t.declare none s = .ok (u, t.size) ∧ u.nodes = t.nodes.push (.input t.numInputs s) := by
  have hd : t.declare none s = .ok ({ t.append (.input t.numInputs s) with
      inputs := t.inputs.insert t.numInputs t.size }, t.size) := by
    simp [declare, input, inputs_numInputs]
  exact ⟨_, hd, rfl⟩

end Valid
end Tape
end ScalarGraph
