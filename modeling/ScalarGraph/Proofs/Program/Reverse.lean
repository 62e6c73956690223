import ScalarGraph.Proofs.Program.Forward
import ScalarGraph.Proofs.Program.GradientPath

/-! # Steps of the reverse sweep

A step passes the adjoint of its slot on to the gradient or to the operands, or skips it
where it is zero. Every step succeeds, so the sweep does, and what each step keeps
holds at its end.
-/
namespace ScalarGraph
variable {α : Type}

namespace Program
variable {p : Program α} {C : Calculus α} {V : Nat → α}

theorem addAt_eq (A : Adjoints α) {xs : Array α} {i : Nat} (h : i < xs.size) (d : α) :
    addAt A xs i d = some (xs.set i (A.add xs[i] d)) := by
  simp [addAt, h]

theorem exists_addShares (A : Adjoints α) (xs : Array α) (shares : List (Nat × α))
    (h : ∀ q ∈ shares, q.1 < xs.size) :
    ∃ ys, addShares A xs shares = some ys ∧ ys.size = xs.size := by
  induction shares generalizing xs with
  | nil => exact ⟨xs, rfl, rfl⟩
  | cons q shares ih =>
    have hq := h q List.mem_cons_self
    obtain ⟨ys, hys, hsize⟩ := ih (xs.set q.1 (A.add xs[q.1] q.2)) fun r hr => by
      simpa using h r (List.mem_cons_of_mem _ hr)
    refine ⟨ys, ?_, by simpa using hsize⟩
    rw [addShares, List.foldlM_cons, addAt_eq A hq]
    exact hys

theorem addAt_getElem? {A : Adjoints α} {xs ys : Array α} {c : Nat} {d : α}
    (h : addAt A xs c d = some ys) (j : Nat) :
    ys[j]? = if c = j then xs[j]?.map (A.add · d) else xs[j]? := by
  unfold addAt at h
  split at h
  · next hc =>
    cases h
    by_cases hcj : c = j
    · subst hcj
      simp [hc]
    · simp [hcj]
  · cases h

theorem addShares_unchanged {A : Adjoints α} {c : Nat} {shares : List (Nat × α)}
    (hc : ∀ q ∈ shares, q.1 ≠ c) {xs ys : Array α} (h : addShares A xs shares = some ys) :
    ys[c]? = xs[c]? := by
  induction shares generalizing xs with
  | nil => cases h; rfl
  | cons q shares ih =>
    rw [addShares, List.foldlM_cons] at h
    obtain ⟨zs, hzs, h⟩ := Option.bind_eq_some_iff.mp h
    rw [ih (fun r hr => hc r (List.mem_cons_of_mem _ hr)) h, addAt_getElem? hzs,
      if_neg (hc q List.mem_cons_self)]

/-- What the operands of a node receive when the slots have the values `V`. -/
def sharesAt (C : Calculus α) (V : Nat → α) (i : Nat) (n : Node α Nat) (a : α) :
    List (Nat × α) :=
  n.operands.zip ((n.map V).shares C (V i) a)

theorem operand_of_mem_sharesAt {i : Nat} {n : Node α Nat} {a : α} {q : Nat × α}
    (h : q ∈ sharesAt C V i n a) : q.1 ∈ n.operands := by
  obtain ⟨c, d⟩ := q
  exact (List.of_mem_zip h).1

/-- One step at slot `i`, where the node `n` stands. -/
inductive Passes (p : Program α) (C : Calculus α) (V : Nat → α) (i : Nat) (n : Node α Nat) :
    Sweep α → Sweep α → Prop
  | skip {s : Sweep α} {a : α} (ha : s.adjoints[i]? = some a)
    (hskip : p.settings.skipZeroAdjoints = true) (hzero : C.adjoints.isZero a = true) :
    Passes p C V i n s s
  | input {s : Sweep α} {a : α} {k : Nat} {sample : α} {gradient : Array α}
    (ha : s.adjoints[i]? = some a)
    (hlive : (p.settings.skipZeroAdjoints && C.adjoints.isZero a) = false)
    (hn : n = .input k sample) (hadd : addAt C.adjoints s.gradient k a = some gradient) :
    Passes p C V i n s { s with gradient }
  | operator {s : Sweep α} {a : α} {adjoints : Array α} (ha : s.adjoints[i]? = some a)
    (hlive : (p.settings.skipZeroAdjoints && C.adjoints.isZero a) = false)
    (hn : n.position? = none)
    (hadd : addShares C.adjoints s.adjoints (sharesAt C V i n a) = some adjoints) :
    Passes p C V i n s { s with adjoints }

structure Fits (p : Program α) (length : Nat) (s : Sweep α) : Prop where
  adjoints : s.adjoints.size = p.code.size
  gradient : s.gradient.size = length

theorem reverseStep_operator {s : Sweep α} {i : Nat} {n : Node α Nat} {a v : α}
    {m : Node α α} {values adjoints : Array α} (hcode : p.code[i]? = some n)
    (hn : n.position? = none) (ha : s.adjoints[i]? = some a)
    (hlive : (p.settings.skipZeroAdjoints && C.adjoints.isZero a) = false)
    (hm : n.mapM (fun c => values[c]?) = some m) (hv : values[i]? = some v)
    (hadd : addShares C.adjoints s.adjoints (n.operands.zip (m.shares C v a)) = some adjoints) :
    p.reverseStep C values s i = some { s with adjoints } := by
  simp only [reverseStep, ha, hcode, hlive, Bool.false_eq_true, if_false, Option.bind_eq_bind,
    Option.bind_some]
  cases n with
  | input k sample => simp [Node.position?] at hn
  | _ =>
    simp only [hm, hv, hadd, Option.bind_some]
    rfl

/-- A step succeeds, and is one of three. -/
theorem Topological.exists_reverseStep (hp : p.Topological) {length : Nat} {s : Sweep α}
    (hs : p.Fits length s) {i : Nat} {n : Node α Nat} (hn : p.net i n)
    (hinput : ∀ k ∈ n.position?, k < length) :
    ∃ s', p.reverseStep C (valuesBelow V p.code.size) s i = some s' ∧ p.Fits length s' ∧
      p.Passes C V i n s s' := by
  have hi := net_lt_size hn
  obtain ⟨a, ha⟩ : ∃ a, s.adjoints[i]? = some a :=
    ⟨_, Array.getElem?_eq_getElem (by rw [hs.adjoints]; exact hi)⟩
  have hcode : p.code[i]? = some n := hn
  cases hlive : p.settings.skipZeroAdjoints && C.adjoints.isZero a with
  | true =>
    obtain ⟨hskip, hzero⟩ := Bool.and_eq_true_iff.mp hlive
    refine ⟨s, ?_, hs, .skip ha hskip hzero⟩
    simp only [reverseStep, ha, hlive, if_true, Option.bind_eq_bind, Option.bind_some]
    rfl
  | false =>
    cases hpos : n.position? with
    | some k =>
      obtain ⟨sample, rfl⟩ := Node.eq_input_of_position? hpos
      have hk : k < s.gradient.size := by
        rw [hs.gradient]
        exact hinput k hpos
      obtain ⟨gradient, hadd, hsize⟩ : ∃ gradient,
          addAt C.adjoints s.gradient k a = some gradient ∧ gradient.size = s.gradient.size :=
        ⟨_, addAt_eq C.adjoints hk a, by simp⟩
      refine ⟨{ s with gradient }, ?_, ⟨hs.adjoints, hsize.trans hs.gradient⟩,
        .input ha hlive rfl hadd⟩
      simp only [reverseStep, ha, hcode, hlive, hadd, Bool.false_eq_true, if_false,
        Option.bind_eq_bind, Option.bind_some]
      rfl
    | none =>
      obtain ⟨adjoints, hadd, hsize⟩ := exists_addShares C.adjoints s.adjoints
        (sharesAt C V i n a) fun q hq => by
          rw [hs.adjoints]
          exact Nat.lt_trans (hp hn _ (operand_of_mem_sharesAt hq)) hi
      refine ⟨{ s with adjoints }, ?_, ⟨hsize.trans hs.adjoints, hs.gradient⟩,
        .operator ha hlive hpos hadd⟩
      have hoperands : ∀ c ∈ n.operands, c < p.code.size := fun c hc => Nat.lt_trans (hp hn c hc) hi
      exact reverseStep_operator hcode hpos ha hlive (mapM_valuesBelow hoperands)
        (getElem?_valuesBelow hi) hadd

theorem Topological.passes (hp : p.Topological) {length : Nat} {s s' : Sweep α}
    (hs : p.Fits length s) {i : Nat} {n : Node α Nat} (hn : p.net i n)
    (h : p.reverseStep C (valuesBelow V p.code.size) s i = some s') :
    p.Fits length s' ∧ p.Passes C V i n s s' := by
  by_cases hinput : ∀ k ∈ n.position?, k < length
  · obtain ⟨t, ht, hfits, hpasses⟩ := hp.exists_reverseStep (C := C) (V := V) hs hn hinput
    cases Option.some.inj (ht.symm.trans h)
    exact ⟨hfits, hpasses⟩
  · push Not at hinput
    obtain ⟨k, hk, hlength⟩ := hinput
    obtain ⟨sample, rfl⟩ := Node.eq_input_of_position? hk
    obtain ⟨a, ha, h⟩ := Option.bind_eq_some_iff.mp h
    have hcode : p.code[i]? = some (.input k sample) := hn
    split at h
    · next hlive =>
      cases h
      obtain ⟨hskip, hzero⟩ := Bool.and_eq_true_iff.mp hlive
      exact ⟨hs, .skip ha hskip hzero⟩
    · have hnone : addAt C.adjoints s.gradient k a = none := by
        simp [addAt, hs.gradient, hlength]
      simp [hcode, hnone] at h

structure Descends (p : Program α) (l : List Nat) : Prop where
  pairwise : l.Pairwise (· > ·)
  closed : ∀ i ∈ l, ∀ c, p.net.Uses i c → c ∈ l
  lt_size : ∀ i ∈ l, i < p.code.size

theorem Topological.descends_gradientPath (hp : p.Topological) {r : Nat} (hr : p.primary = some r)
    (hlt : r < p.code.size) : p.Descends p.gradientPath where
  pairwise := p.pairwise_gradientPath
  closed i hi c hc := by
    rw [hp.mem_gradientPath hr hlt] at hi ⊢
    exact hi.tail hc
  lt_size i hi := Nat.lt_of_le_of_lt (hp.le_of_needs ((hp.mem_gradientPath hr hlt).mp hi)) hlt

namespace Descends
variable {i : Nat} {l : List Nat}

theorem operand_mem (hp : p.Topological) (h : p.Descends (i :: l)) {c : Nat}
    (hc : p.net.Uses i c) : c ∈ l := by
  have hlt := hp.lt_of_uses hc
  rcases List.mem_cons.mp (h.closed i List.mem_cons_self c hc) with rfl | hmem
  · omega
  · exact hmem

theorem tail (hp : p.Topological) (h : p.Descends (i :: l)) : p.Descends l where
  pairwise := (List.pairwise_cons.mp h.pairwise).2
  closed j hj c hc := by
    have hji := (List.pairwise_cons.mp h.pairwise).1 j hj
    have hcj := hp.lt_of_uses hc
    rcases List.mem_cons.mp (h.closed j (List.mem_cons_of_mem _ hj) c hc) with rfl | hmem
    · omega
    · exact hmem
  lt_size j hj := h.lt_size j (List.mem_cons_of_mem _ hj)

theorem exists_node (h : p.Descends (i :: l)) : ∃ n, p.net i n :=
  ⟨_, Array.getElem?_eq_getElem (h.lt_size i List.mem_cons_self)⟩

theorem nodup (h : p.Descends l) : l.Nodup := h.pairwise.imp fun hlt => (Nat.ne_of_lt hlt).symm

theorem head_notMem (h : p.Descends (i :: l)) : i ∉ l := (List.nodup_cons.mp h.nodup).1

end Descends

theorem Topological.exists_sweep (hp : p.Topological) {length : Nat} {l : List Nat}
    (hl : p.Descends l) (hinput : ∀ i n, p.net i n → ∀ k ∈ n.position?, k < length) {s : Sweep α}
    (hs : p.Fits length s) :
    ∃ s', l.foldlM (p.reverseStep C (valuesBelow V p.code.size)) s = some s' := by
  induction l generalizing s with
  | nil => exact ⟨s, rfl⟩
  | cons i l ih =>
    obtain ⟨n, hn⟩ := hl.exists_node
    obtain ⟨t, ht, hfits, -⟩ := hp.exists_reverseStep (C := C) (V := V) hs hn (hinput i n hn)
    obtain ⟨s', hs'⟩ := ih (hl.tail hp) hfits
    refine ⟨s', ?_⟩
    rw [List.foldlM_cons, ht]
    exact hs'

/-- What every step keeps holds at the end of the sweep. -/
theorem Topological.sweep_induction (hp : p.Topological) {length : Nat}
    {motive : List Nat → Sweep α → Prop}
    (step : ∀ i l n s s', p.Descends (i :: l) → p.net i n → p.Fits length s →
      p.Passes C V i n s s' → motive (i :: l) s → motive l s')
    {l : List Nat} (hl : p.Descends l) {s s' : Sweep α} (hs : p.Fits length s) (h : motive l s)
    (hrun : l.foldlM (p.reverseStep C (valuesBelow V p.code.size)) s = some s') :
    p.Fits length s' ∧ motive [] s' := by
  induction l generalizing s with
  | nil =>
    cases hrun
    exact ⟨hs, h⟩
  | cons i l ih =>
    obtain ⟨n, hn⟩ := hl.exists_node
    rw [List.foldlM_cons] at hrun
    obtain ⟨t, ht, hrun⟩ := Option.bind_eq_some_iff.mp hrun
    obtain ⟨hfits, hpasses⟩ := hp.passes hs hn ht
    exact ih (hl.tail hp) hfits (step i l n s t hl hn hs hpasses h) hrun

theorem fits_seed (p : Program α) (A : Adjoints α) (length r : Nat) :
    p.Fits length (p.seed A length r) := by
  constructor <;> simp [seed]

theorem Topological.fits_of_reverse (hp : p.Topological) {r : Nat} (hr : p.primary = some r)
    (hlt : r < p.code.size) {length : Nat} {s : Sweep α}
    (h : p.reverse C (valuesBelow V p.code.size) length r = some s) : p.Fits length s :=
  (hp.sweep_induction (motive := fun _ _ => True) (fun _ _ _ _ _ _ _ _ _ _ => trivial)
    (hp.descends_gradientPath hr hlt) (p.fits_seed C.adjoints length r) trivial h).1

end Program
end ScalarGraph
