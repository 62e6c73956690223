import ScalarGraph.Proofs.Program.Compile

/-! # The gradient path

The slots that feed the primary output are marked in one pass downwards. A slot is not
marked any more once the pass has come to it, since its users stand above it, so in the end
a slot is marked exactly if the primary output needs it.
-/
namespace ScalarGraph.Program
variable {α : Type} {p : Program α}

def Marked (live : Array Bool) (i : Nat) : Prop := live.getD i false = true

theorem marked_setIfInBounds {live : Array Bool} {c j : Nat} :
    Marked (live.setIfInBounds c true) j ↔ Marked live j ∨ c = j ∧ c < live.size := by
  simp only [Marked, Array.getD_eq_getD_getElem?, Array.getElem?_setIfInBounds]
  by_cases hcj : c = j
  · subst hcj
    by_cases hc : c < live.size
    · simp [hc]
    · simp [hc]
  · simp [hcj]

theorem marked_foldl {live : Array Bool} {cs : List Nat} {j : Nat} :
    Marked (cs.foldl (fun l c => l.setIfInBounds c true) live) j ↔
      Marked live j ∨ j ∈ cs ∧ j < live.size := by
  induction cs generalizing live with
  | nil => simp
  | cons c cs ih =>
    rw [List.foldl_cons, ih, marked_setIfInBounds, Array.size_setIfInBounds, List.mem_cons]
    constructor
    · rintro ((h | ⟨rfl, h⟩) | ⟨h, hlt⟩)
      · exact .inl h
      · exact .inr ⟨.inl rfl, h⟩
      · exact .inr ⟨.inr h, hlt⟩
    · rintro (h | ⟨rfl | h, hlt⟩)
      · exact .inl (.inl h)
      · exact .inl (.inr ⟨rfl, hlt⟩)
      · exact .inr ⟨h, hlt⟩

theorem size_foldl_mark (live : Array Bool) (cs : List Nat) :
    (cs.foldl (fun l c => l.setIfInBounds c true) live).size = live.size := by
  induction cs generalizing live with
  | nil => rfl
  | cons c cs ih => rw [List.foldl_cons, ih, Array.size_setIfInBounds]

@[simp] theorem size_spread (live : Array Bool) (i : Nat) : (p.spread live i).size = live.size := by
  unfold spread
  split
  · exact size_foldl_mark _ _
  · rfl

theorem marked_spread {live : Array Bool} {i j : Nat} : Marked (p.spread live i) j ↔
    Marked live j ∨ Marked live i ∧ p.net.Uses i j ∧ j < live.size := by
  unfold spread
  split
  · next hi =>
    have hmem : j ∈ (p.code[i]?.map Node.operands).getD [] ↔ p.net.Uses i j := by
      simp only [Net.Uses, net]
      cases p.code[i]? <;> simp
    rw [marked_foldl, hmem]
    simp [Marked, hi]
  · next hi => simp [Marked, hi]

theorem marked_foldl_spread_of_marked {live : Array Bool} {l : List Nat} {j : Nat}
    (h : Marked live j) : Marked (l.foldl p.spread live) j := by
  induction l generalizing live with
  | nil => exact h
  | cons i l ih => exact ih (marked_spread.mpr (.inl h))

theorem Topological.lt_of_uses (hp : p.Topological) {i c : Nat} (h : p.net.Uses i c) : c < i := by
  obtain ⟨n, hn, hc⟩ := h
  exact hp hn c hc

theorem Topological.le_of_needs (hp : p.Topological) {r i : Nat} (h : p.net.Needs r i) : i ≤ r := by
  induction h with
  | refl => exact Nat.le_refl r
  | tail _ hbc ih => exact Nat.le_trans (Nat.le_of_lt (hp.lt_of_uses hbc)) ih

/-- Slots that are not above `i` mark nothing at `i`. -/
theorem Topological.marked_foldl_spread_iff (hp : p.Topological) {live : Array Bool} {l : List Nat}
    {i : Nat} (hl : ∀ j ∈ l, j ≤ i) : Marked (l.foldl p.spread live) i ↔ Marked live i := by
  induction l generalizing live with
  | nil => rfl
  | cons j l ih =>
    rw [List.foldl_cons, ih fun k hk => hl k (List.mem_cons_of_mem _ hk), marked_spread]
    have hj := hl j List.mem_cons_self
    constructor
    · rintro (h | ⟨-, huses, -⟩)
      · exact h
      · have hlt := hp.lt_of_uses huses
        omega
    · exact .inl

theorem Topological.marked_operand (hp : p.Topological) {live : Array Bool} {l : List Nat}
    (hl : l.Pairwise (· > ·)) {i c : Nat} (hi : i ∈ l) (hmarked : Marked (l.foldl p.spread live) i)
    (hc : p.net.Uses i c) (hlt : c < live.size) : Marked (l.foldl p.spread live) c := by
  induction l generalizing live with
  | nil => cases hi
  | cons j l ih =>
    obtain ⟨hj, hl⟩ := List.pairwise_cons.mp hl
    rw [List.foldl_cons] at hmarked ⊢
    rcases List.mem_cons.mp hi with rfl | hi
    · rw [hp.marked_foldl_spread_iff fun k hk => Nat.le_of_lt (hj k hk)] at hmarked
      have hlive : Marked live i := by
        rcases marked_spread.mp hmarked with h | ⟨h, -⟩ <;> exact h
      exact marked_foldl_spread_of_marked (marked_spread.mpr (.inr ⟨hlive, hc, hlt⟩))
    · exact ih hl hi hmarked (by rwa [size_spread])

theorem needs_of_marked {live : Array Bool} {l : List Nat} {r i : Nat}
    (hlive : ∀ j, Marked live j → p.net.Needs r j) (h : Marked (l.foldl p.spread live) i) :
    p.net.Needs r i := by
  induction l generalizing live with
  | nil => exact hlive i h
  | cons j l ih =>
    refine ih (fun k hk => ?_) h
    rcases marked_spread.mp hk with hk | ⟨hj, huses, -⟩
    · exact hlive k hk
    · exact (hlive j hj).tail huses

theorem pairwise_gradientPath (p : Program α) : p.gradientPath.Pairwise (· > ·) := by
  unfold gradientPath
  split
  · exact .nil
  · exact (pairwise_reverse_range _).filter _

/-- The gradient path lists the slots that the primary output needs. -/
theorem Topological.mem_gradientPath (hp : p.Topological) {r : Nat} (hr : p.primary = some r)
    (hlt : r < p.code.size) {i : Nat} : i ∈ p.gradientPath ↔ p.net.Needs r i := by
  have hstart : ∀ j, Marked ((Array.replicate p.code.size false).setIfInBounds r true) j ↔ j = r := by
    intro j
    rw [marked_setIfInBounds]
    have hnone : ¬ Marked (Array.replicate p.code.size false) j := by
      simp [Marked, Array.getD_eq_getD_getElem?, Array.getElem?_replicate]
      split <;> rfl
    simp [hnone, hlt, eq_comm]
  simp only [gradientPath, hr, List.mem_filter, List.mem_reverse, List.mem_range]
  constructor
  · rintro ⟨-, hmarked⟩
    refine needs_of_marked (fun j hj => ?_) hmarked
    rw [(hstart j).mp hj]
    exact .refl
  · intro h
    refine ⟨Nat.lt_of_le_of_lt (hp.le_of_needs h) hlt, ?_⟩
    induction h with
    | refl => exact marked_foldl_spread_of_marked ((hstart r).mpr rfl)
    | @tail b c hb huses ih =>
      have hbr := hp.le_of_needs hb
      have hcb := hp.lt_of_uses huses
      refine hp.marked_operand ((pairwise_reverse_range _).filter _) ?_ ih huses ?_
      · simp
        omega
      · simp
        omega

end ScalarGraph.Program
