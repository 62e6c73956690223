import Mathlib.Order.Lattice.Nat
import ScalarGraph.Proofs.Tape.Extraction

/-! # Breadth first

A visit that starts with some roots reaches what they need and nothing else, and in an order in
which the distance from the roots never goes down.
-/
namespace ScalarGraph
variable {α ι : Type}

namespace Net

def Needed (N : Net α ι) (roots : List ι) (i : ι) : Prop := ∃ r ∈ roots, N.Needs r i

inductive ReachedIn (N : Net α ι) (roots : List ι) : Nat → ι → Prop where
  | root {r : ι} (h : r ∈ roots) : ReachedIn N roots 0 r
  | step {d : Nat} {r i : ι} (h : ReachedIn N roots d r) (hi : N.Uses r i) :
      ReachedIn N roots (d + 1) i

/-- The length of a shortest path from one of the roots, 0 where there is none. -/
noncomputable def distance (N : Net α ι) (roots : List ι) (i : ι) : Nat :=
  sInf { d | N.ReachedIn roots d i }

variable {N : Net α ι} {roots : List ι}

theorem Needed.exists_reachedIn {i : ι} (h : N.Needed roots i) : ∃ d, N.ReachedIn roots d i := by
  obtain ⟨r, hr, h⟩ := h
  induction h with
  | refl => exact ⟨0, .root hr⟩
  | tail h hi ih =>
    obtain ⟨d, hd⟩ := ih
    exact ⟨d + 1, .step hd hi⟩

def Nearer (N : Net α ι) (roots : List ι) (i j : ι) : Prop :=
  ∀ e, N.ReachedIn roots e j → ∃ d ≤ e, N.ReachedIn roots d i

theorem Nearer.distance_le {i j : ι} (h : N.Nearer roots i j)
    (hj : ∃ d, N.ReachedIn roots d j) : N.distance roots i ≤ N.distance roots j := by
  have hmin : N.ReachedIn roots (N.distance roots j) j := Nat.sInf_mem hj
  obtain ⟨d, hd, hi⟩ := h _ hmin
  have hle : N.distance roots i ≤ d := Nat.sInf_le hi
  omega

end Net

variable [DecidableEq α] [Hashable α]

namespace Tape
variable {t : Tape α} {roots : List Nat}

theorem uses_iff {i c : Nat} : t.net.Uses i c ↔ c ∈ t.operands i := by
  constructor
  · rintro ⟨n, hn, hc⟩
    rw [operands_eq hn]
    exact hc
  · intro hc
    cases hn : t.nodes[i]? with
    | none => simp [operands, hn] at hc
    | some n =>
      rw [operands_eq hn] at hc
      exact ⟨n, hn, hc⟩

theorem needed_of_mem_visit {unseen queue : List Nat} :
    ∀ i ∈ t.visit unseen queue, t.net.Needed queue i := by
  fun_induction visit t unseen queue with
  | case1 unseen => simp
  | case2 unseen j queue hj ih =>
    intro i hi
    rcases List.mem_cons.mp hi with rfl | hi
    · exact ⟨i, List.mem_cons_self, .refl⟩
    · obtain ⟨r, hr, hneeds⟩ := ih i hi
      rcases List.mem_append.mp hr with hr | hr
      · exact ⟨r, List.mem_cons_of_mem _ hr, hneeds⟩
      · exact ⟨j, List.mem_cons_self, hneeds.head (uses_iff.mpr hr)⟩
  | case3 unseen j queue hj ih =>
    intro i hi
    obtain ⟨r, hr, hneeds⟩ := ih i hi
    exact ⟨r, List.mem_cons_of_mem _ hr, hneeds⟩

theorem Valid.mem_reachable_iff (ht : t.Valid) (hroots : ∀ r ∈ roots, r < t.size) {i : Nat} :
    i ∈ t.reachable roots ↔ t.net.Needed roots i := by
  constructor
  · exact needed_of_mem_visit i
  · rintro ⟨r, hr, hneeds⟩
    exact hneeds.handed_down (fun j n hn hj c hc => ht.operand_mem_reachable hj hn c hc)
      (root_mem_reachable hr (hroots r hr))

/-- A visit has come to the indices at distance `d`. The queue holds those of them that are still
to be visited and then indices that one step more leads to; what is nearer has been visited. -/
structure Layer (t : Tape α) (roots : List Nat) (d : Nat) (here next unseen : List Nat) : Prop where
  here_in : ∀ i ∈ here, t.net.ReachedIn roots d i
  next_in : ∀ i ∈ next, t.net.ReachedIn roots (d + 1) i
  nearer_seen : ∀ e < d, ∀ i, t.net.ReachedIn roots e i → i ∉ unseen
  here_seen : ∀ i, t.net.ReachedIn roots d i → i ∉ unseen ∨ i ∈ here
  operand_queued : ∀ i, i ∉ unseen → ∀ c ∈ t.operands i, c ∉ unseen ∨ c ∈ here ∨ c ∈ next

namespace Layer
variable {d : Nat} {here next unseen queue : List Nat} {j : Nat}

theorem start : t.Layer roots 0 roots [] (List.range t.size) where
  here_in i hi := .root hi
  next_in i hi := by cases hi
  nearer_seen e he := by omega
  here_seen i hi := by
    cases hi with
    | root h => exact .inr h
  operand_queued i hi c hc := by
    have hnone : t.nodes[i]? = none := by
      rw [List.mem_range] at hi
      exact Array.getElem?_eq_none (Nat.le_of_not_lt hi)
    simp [operands, hnone] at hc

/-- When all indices at a distance have been visited, the queue holds those one step away. -/
theorem turn (h : t.Layer roots d [] next unseen) : t.Layer roots (d + 1) next [] unseen where
  here_in := h.next_in
  next_in i hi := by cases hi
  nearer_seen e he i hi := by
    rcases Nat.lt_or_ge e d with hlt | hge
    · exact h.nearer_seen e hlt i hi
    · have hed : e = d := by omega
      subst hed
      rcases h.here_seen i hi with hseen | hmem
      · exact hseen
      · cases hmem
  here_seen i hi := by
    cases hi with
    | @step _ r _ hr hri =>
      rcases h.here_seen r hr with hseen | hmem
      · rcases h.operand_queued r hseen i (uses_iff.mp hri) with hi | hi | hi
        · exact .inl hi
        · cases hi
        · exact .inr hi
      · cases hmem
  operand_queued i hi c hc := by
    rcases h.operand_queued i hi c hc with hc | hc | hc
    · exact .inl hc
    · cases hc
    · exact .inr (.inl hc)

theorem exists_cons (h : t.Layer roots d here next unseen) (hqueue : here ++ next = j :: queue) :
    ∃ d here' next', t.Layer roots d (j :: here') next' unseen ∧ here' ++ next' = queue := by
  cases here with
  | cons i here' =>
    obtain ⟨hij, hrest⟩ := List.cons.inj hqueue
    rw [hij] at h
    exact ⟨d, here', next, h, hrest⟩
  | nil =>
    have hnext : next = j :: queue := hqueue
    rw [hnext] at h
    exact ⟨d + 1, queue, [], h.turn, List.append_nil queue⟩

theorem skip (h : t.Layer roots d (j :: here) next unseen) (hj : j ∉ unseen) :
    t.Layer roots d here next unseen where
  here_in i hi := h.here_in i (List.mem_cons_of_mem _ hi)
  next_in := h.next_in
  nearer_seen := h.nearer_seen
  here_seen i hi := by
    rcases h.here_seen i hi with hseen | hmem
    · exact .inl hseen
    · rcases List.mem_cons.mp hmem with rfl | hmem
      · exact .inl hj
      · exact .inr hmem
  operand_queued i hi c hc := by
    rcases h.operand_queued i hi c hc with hc | hc | hc
    · exact .inl hc
    · rcases List.mem_cons.mp hc with rfl | hc
      · exact .inl hj
      · exact .inr (.inl hc)
    · exact .inr (.inr hc)

theorem visit (h : t.Layer roots d (j :: here) next unseen) (hunseen : unseen.Nodup) :
    t.Layer roots d here (next ++ t.operands j) (unseen.erase j) := by
  have hj : j ∉ unseen.erase j := hunseen.not_mem_erase
  have herase : ∀ i, i ∉ unseen → i ∉ unseen.erase j :=
    fun i hi hmem => hi (List.mem_of_mem_erase hmem)
  have hreached : t.net.ReachedIn roots d j := h.here_in j List.mem_cons_self
  refine ⟨fun i hi => h.here_in i (List.mem_cons_of_mem _ hi), ?_, ?_, ?_, ?_⟩
  · intro i hi
    rcases List.mem_append.mp hi with hi | hi
    · exact h.next_in i hi
    · exact .step hreached (uses_iff.mpr hi)
  · intro e he i hi
    exact herase i (h.nearer_seen e he i hi)
  · intro i hi
    rcases h.here_seen i hi with hseen | hmem
    · exact .inl (herase i hseen)
    · rcases List.mem_cons.mp hmem with rfl | hmem
      · exact .inl hj
      · exact .inr hmem
  · intro i hi c hc
    by_cases hij : i = j
    · subst hij
      exact .inr (.inr (List.mem_append_right _ hc))
    · have hseen : i ∉ unseen := fun hmem => hi ((List.mem_erase_of_ne hij).mpr hmem)
      rcases h.operand_queued i hseen c hc with hc | hc | hc
      · exact .inl (herase c hc)
      · rcases List.mem_cons.mp hc with rfl | hc
        · exact .inl hj
        · exact .inr (.inl hc)
      · exact .inr (.inr (List.mem_append_left _ hc))

/-- Nothing that is still to be visited is nearer than the next of the queue. -/
theorem nearer (h : t.Layer roots d (j :: here) next unseen) {i : Nat} (hi : i ∈ unseen) :
    t.net.Nearer roots j i := by
  intro e he
  have hde : d ≤ e := by
    by_contra hlt
    exact h.nearer_seen e (by omega) i he hi
  exact ⟨d, hde, h.here_in j List.mem_cons_self⟩

theorem pairwise_visit (h : t.Layer roots d here next unseen) (hunseen : unseen.Nodup) :
    (t.visit unseen (here ++ next)).Pairwise (t.net.Nearer roots) := by
  generalize hqueue : here ++ next = queue
  fun_induction Tape.visit t unseen queue generalizing d here next with
  | case1 unseen => exact .nil
  | case2 unseen j queue hj ih =>
    obtain ⟨d, here, next, h, rfl⟩ := h.exists_cons hqueue
    refine List.pairwise_cons.mpr ⟨fun i hi => ?_, ?_⟩
    · exact h.nearer (List.mem_of_mem_erase (mem_of_mem_visit i hi))
    · exact ih (h.visit hunseen) (hunseen.erase j) (List.append_assoc here next _).symm
  | case3 unseen j queue hj ih =>
    obtain ⟨d, here, next, h, hrest⟩ := h.exists_cons hqueue
    exact ih (h.skip hj) hunseen hrest

end Layer

/-- The reachable indices come in the order of their distance from the roots. -/
theorem Valid.pairwise_distance (ht : t.Valid) (hroots : ∀ r ∈ roots, r < t.size) :
    (t.reachable roots).Pairwise fun i j => t.net.distance roots i ≤ t.net.distance roots j := by
  have hnearer : (t.reachable roots).Pairwise (t.net.Nearer roots) := by
    have hstart : t.Layer roots 0 roots [] (List.range t.size) := .start
    have h := hstart.pairwise_visit List.nodup_range
    rwa [List.append_nil] at h
  refine hnearer.imp_of_mem fun {i j} _ hj h => h.distance_le ?_
  exact ((ht.mem_reachable_iff hroots).mp hj).exists_reachedIn

end Tape
end ScalarGraph
