import ScalarGraph.Proofs.Blocked
import ScalarGraph.Proofs.Program.Reverse

/-! # Adjoints behind blocked slots

Let every path from the primary output to the inputs of one position cross a blocked slot. As
long as no blocked slot above such an input has met an adjoint that is not finite, the slots above
the input that no open path reaches have adjoint zero. From then on some slot above
the input has adjoint NaN, which goes all the way down.
-/
namespace ScalarGraph.Program
variable {α : Type} {p : Program α} {E : Elementary α} {V : Nat → α} {nan : α}

theorem lt_size_of_addAt {A : Adjoints α} {xs ys : Array α} {c : Nat} {d : α}
    (h : addAt A xs c d = some ys) : c < xs.size := by
  unfold addAt at h
  split at h
  · next hc => exact hc
  · cases h

theorem addShares_keeps {A : Adjoints α} {P : α → Prop} {c : Nat} {shares : List (Nat × α)}
    (hstep : ∀ q ∈ shares, q.1 = c → ∀ x, P x → P (A.add x q.2)) {xs ys : Array α}
    (h : addShares A xs shares = some ys) {x : α} (hx : xs[c]? = some x) (hP : P x) :
    ∃ y, ys[c]? = some y ∧ P y := by
  induction shares generalizing xs x with
  | nil =>
    cases h
    exact ⟨x, hx, hP⟩
  | cons q shares ih =>
    rw [addShares, List.foldlM_cons] at h
    obtain ⟨zs, hzs, h⟩ := Option.bind_eq_some_iff.mp h
    have hget := addAt_getElem? hzs c
    have hrest : ∀ q ∈ shares, q.1 = c → ∀ x, P x → P (A.add x q.2) := fun r hr =>
      hstep r (List.mem_cons_of_mem _ hr)
    by_cases hq : q.1 = c
    · rw [if_pos hq, hx] at hget
      exact ih hrest h hget (hstep q List.mem_cons_self hq x hP)
    · rw [if_neg hq, hx] at hget
      exact ih hrest h hget hP

theorem addShares_of_nan (hE : E.Ieee nan) {c : Nat} {shares : List (Nat × α)} {xs ys : Array α}
    (h : addShares E.adjoints xs shares = some ys) (hc : xs[c]? = some nan) : ys[c]? = some nan := by
  obtain ⟨y, hy, rfl⟩ := addShares_keeps (A := E.adjoints) (P := (· = nan)) (fun q _ _ x hx => by
    rw [hx]
    exact hE.nan_add q.2) h hc rfl
  exact hy

theorem addShares_nan (hE : E.Ieee nan) {c : Nat} {shares : List (Nat × α)}
    (hmem : (c, nan) ∈ shares) {xs ys : Array α} (h : addShares E.adjoints xs shares = some ys)
    (hc : c < xs.size) : ys[c]? = some nan := by
  induction shares generalizing xs with
  | nil => cases hmem
  | cons q shares ih =>
    rw [addShares, List.foldlM_cons] at h
    obtain ⟨zs, hzs, hrest⟩ := Option.bind_eq_some_iff.mp h
    have hget := addAt_getElem? hzs c
    rw [Array.getElem?_eq_getElem hc] at hget
    rcases List.mem_cons.mp hmem with hq | hmem
    · subst hq
      rw [if_pos rfl, Option.map_some] at hget
      exact addShares_of_nan hE hrest (hget.trans (congrArg some (hE.add_nan _)))
    · refine ih hmem hrest ?_
      by_contra hsize
      rw [Array.getElem?_eq_none (Nat.le_of_not_lt hsize)] at hget
      split at hget <;> cases hget

theorem mem_sharesAt {C : Calculus α} {i : Nat} {n : Node α Nat} {a : α} {q : Nat × α} :
    q ∈ sharesAt C V i n a ↔ ∃ k : Nat, n.operands[k]? = some q.1 ∧
      ((n.map V).shares C (V i) a)[k]? = some q.2 := by
  unfold sharesAt
  simp only [List.mem_iff_getElem?, List.getElem?_zip_eq_some]

theorem mem_sharesAt_of_blocked {i c : Nat} {n : Node α Nat} (hn : p.net i n)
    (h : p.net.Slot E V true i c) (a : α) :
    (c, E.mul a E.zero) ∈ sharesAt E.calculus V i n a := by
  obtain ⟨m, k, hm, hc, hb⟩ := h
  cases Option.some.inj (hm.symm.trans hn)
  exact mem_sharesAt.mpr ⟨k, hc, Node.shares_of_blocked hb⟩

theorem slot_of_mem_sharesAt {i : Nat} {n : Node α Nat} (hn : p.net i n) {a : α} {q : Nat × α}
    (h : q ∈ sharesAt E.calculus V i n a) :
    p.net.Slot E V false i q.1 ∨ p.net.Slot E V true i q.1 ∧ q.2 = E.mul a E.zero := by
  obtain ⟨k, hc, hd⟩ := mem_sharesAt.mp h
  have hk : k < ((n.map V).blocked E (V i)).length := by
    rw [Node.length_blocked, Node.operands_map, List.length_map]
    exact (List.getElem?_eq_some_iff.mp hc).1
  cases hb : ((n.map V).blocked E (V i))[k] with
  | false => exact .inl ⟨n, k, hn, hc, by rw [List.getElem?_eq_getElem hk, hb]⟩
  | true =>
    have hb' : ((n.map V).blocked E (V i))[k]? = some true := by
      rw [List.getElem?_eq_getElem hk, hb]
    refine .inr ⟨⟨n, k, hn, hc, hb'⟩, ?_⟩
    rw [Node.shares_of_blocked hb'] at hd
    exact (Option.some.inj hd).symm

/-- A slot with adjoint NaN passes NaN on to every operand. -/
theorem mem_sharesAt_nan (hE : E.Ieee nan) {i c : Nat} {n : Node α Nat} (hc : c ∈ n.operands) :
    (c, nan) ∈ sharesAt E.calculus V i n nan := by
  obtain ⟨k, hk⟩ := List.mem_iff_getElem?.mp hc
  have hlt : k < ((n.map V).shares E.calculus (V i) nan).length := by
    rw [Node.length_shares, Node.operands_map, List.length_map]
    exact (List.getElem?_eq_some_iff.mp hk).1
  have hnan := Node.shares_nan hE _ (List.getElem_mem hlt)
  exact mem_sharesAt.mpr ⟨k, hk, by rw [List.getElem?_eq_getElem hlt, hnan]⟩

/-- No adjoint that is not finite has met a blocked slot above an input at position `k`. -/
structure Clean (p : Program α) (E : Elementary α) (V : Nat → α) (r k : Nat) (l : List Nat)
    (s : Sweep α) : Prop where
  adjoint : ∀ c ∈ l, p.net.Carries k c → ¬ p.net.OpenPath E V r c → s.adjoints[c]? = some E.zero
  gradient : s.gradient[k]? = some E.zero
  finite : ∀ u ∈ p.gradientPath, u ∉ l → p.net.Guards E V k u →
    ∃ a, s.adjoints[u]? = some a ∧ E.isFinite a = true

/-- Some adjoint that is not finite has met such a slot, and NaN is on its way. -/
structure Tainted (p : Program α) (E : Elementary α) (nan : α) (V : Nat → α) (k : Nat)
    (l : List Nat) (s : Sweep α) : Prop where
  source : ∃ u ∈ p.gradientPath, u ∉ l ∧ p.net.Guards E V k u ∧
    ∃ a, s.adjoints[u]? = some a ∧ E.isFinite a = false
  nan : s.gradient[k]? = some nan ∨ ∃ d ∈ l, p.net.Carries k d ∧ s.adjoints[d]? = some nan

theorem Passes.adjoint_unchanged (hp : p.Topological) {u : Nat} {l : List Nat} {n : Node α Nat}
    {s s' : Sweep α} {C : Calculus α} (hl : p.Descends (u :: l)) (hn : p.net u n)
    (h : p.Passes C V u n s s') {c : Nat} (hc : c ∉ l) : s'.adjoints[c]? = s.adjoints[c]? := by
  cases h with
  | skip => rfl
  | input => rfl
  | operator ha hlive hpos hadd =>
    refine addShares_unchanged (fun q hq hqc => hc ?_) hadd
    exact hqc ▸ hl.operand_mem hp ⟨n, hn, operand_of_mem_sharesAt hq⟩

theorem not_zero_of_live (hE : E.Ieee nan) (hskip : p.settings.skipZeroAdjoints = true) {a : α}
    (hlive : (p.settings.skipZeroAdjoints && E.calculus.adjoints.isZero a) = false) :
    a ≠ E.zero := by
  rintro rfl
  have hzero : E.calculus.adjoints.isZero E.zero = true := hE.zero_eq
  simp [hskip, hzero] at hlive

theorem Clean.step (hE : E.Ieee nan) (hp : p.Topological)
    (hskip : p.settings.skipZeroAdjoints = true) {r k : Nat}
    (hopen : ∀ j sample, p.net j (.input k sample) → ¬ p.net.OpenPath E V r j) {u : Nat}
    {l : List Nat} {n : Node α Nat} {length : Nat} {s s' : Sweep α} (hl : p.Descends (u :: l))
    (hn : p.net u n) (hs : p.Fits length s) (hu : u ∈ p.gradientPath)
    (hpass : p.Passes E.calculus V u n s s')
    (h : p.Clean E V r k (u :: l) s) : p.Clean E V r k l s' ∨ p.Tainted E nan V k l s' := by
  have hsame : ∀ v, v ∉ l → s'.adjoints[v]? = s.adjoints[v]? := fun v hv =>
    hpass.adjoint_unchanged hp hl hn hv
  -- a slot that is visited with another adjoint than zero has an open path to it
  have hzero : ∀ a, s.adjoints[u]? = some a → a ≠ E.zero → p.net.Carries k u →
      p.net.OpenPath E V r u := by
    intro a ha hne hcarries
    by_contra hclosed
    rw [h.adjoint u List.mem_cons_self hcarries hclosed] at ha
    exact hne (Option.some.inj ha).symm
  have hfinite : ∀ a, s.adjoints[u]? = some a → (p.net.Guards E V k u → E.isFinite a = true) →
      ∀ v ∈ p.gradientPath, v ∉ l → p.net.Guards E V k v →
        ∃ b, s'.adjoints[v]? = some b ∧ E.isFinite b = true := by
    intro a ha hfin v hv hvl hguards
    rw [hsame v hvl]
    by_cases hvu : v = u
    · subst hvu
      exact ⟨a, ha, hfin hguards⟩
    · exact h.finite v hv (by simp [hvu, hvl]) hguards
  have hkept : ∀ c ∈ l, p.net.Carries k c → ¬ p.net.OpenPath E V r c →
      s.adjoints[c]? = some E.zero := fun c hc => h.adjoint c (List.mem_cons_of_mem _ hc)
  cases hpass with
  | @skip a ha _ hz =>
    exact .inl ⟨hkept, h.gradient, hfinite a ha fun _ => hE.finite_of_eq a hz⟩
  | @input a j sample gradient ha hlive hinput hadd =>
    subst hinput
    have hjk : j ≠ k := by
      rintro rfl
      exact hopen u sample hn (hzero a ha (not_zero_of_live hE hskip hlive) ⟨u, sample, hn, .refl⟩)
    refine .inl ⟨hkept, ?_, hfinite a ha fun hguards => ?_⟩
    · rw [addAt_getElem? hadd, if_neg hjk]
      exact h.gradient
    · obtain ⟨c, hslot, -⟩ := hguards
      obtain ⟨m, hm, hc⟩ := hslot.uses
      cases Option.some.inj (hm.symm.trans hn)
      cases hc
  | @operator a adjoints ha hlive hpos hadd =>
    by_cases hleak : p.net.Guards E V k u ∧ E.isFinite a = false
    · obtain ⟨⟨c, hslot, hcarries⟩, hinf⟩ := hleak
      have hc : c ∈ l := hl.operand_mem hp hslot.uses
      have hsize : c < s.adjoints.size := by
        rw [hs.adjoints]
        exact (hl.tail hp).lt_size c hc
      have hnan : adjoints[c]? = some nan :=
        addShares_nan hE (hE.mul_zero a hinf ▸ mem_sharesAt_of_blocked hn hslot a) hadd hsize
      exact .inr ⟨⟨u, hu, hl.head_notMem, ⟨c, hslot, hcarries⟩, a,
        (hsame u hl.head_notMem).trans ha, hinf⟩, .inr ⟨c, hc, hcarries, hnan⟩⟩
    · have hfin : p.net.Guards E V k u → E.isFinite a = true := fun hguards => by
        by_contra hinf
        exact hleak ⟨hguards, by simpa using hinf⟩
      refine .inl ⟨fun c hc hcarries hclosed => ?_, h.gradient, hfinite a ha hfin⟩
      have hkeep : ∀ q ∈ sharesAt E.calculus V u n a, q.1 = c → ∀ x, x = E.zero →
          E.adjoints.add x q.2 = E.zero := by
        rintro q hq rfl x rfl
        rcases slot_of_mem_sharesAt hn hq with hslot | ⟨hslot, hd⟩
        · obtain ⟨j, sample, hj, hneeds⟩ := hcarries
          have hcarriesU : p.net.Carries k u := ⟨j, sample, hj, .head hslot.uses hneeds⟩
          have hopenU := hzero a ha (not_zero_of_live hE hskip hlive) hcarriesU
          exact absurd (hopenU.tail hslot) hclosed
        · rw [hd]
          exact hE.zero_add_mul_zero a (hfin ⟨_, hslot, hcarries⟩)
      obtain ⟨y, hy, rfl⟩ := addShares_keeps hkeep hadd (hkept c hc hcarries hclosed) rfl
      exact hy

/-- An input carries its own position, any other node what one of its operands carries. -/
theorem carries_cases {k u : Nat} {n : Node α Nat} (hn : p.net u n) (h : p.net.Carries k u) :
    n.position? = some k ∨ ∃ c ∈ n.operands, p.net.Carries k c := by
  obtain ⟨j, sample, hj, hneeds⟩ := h
  rcases Relation.ReflTransGen.cases_head hneeds with rfl | ⟨c, ⟨m, hm, hc⟩, hcj⟩
  · cases Option.some.inj (hj.symm.trans hn)
    exact .inl rfl
  · cases Option.some.inj (hm.symm.trans hn)
    exact .inr ⟨c, hc, j, sample, hj, hcj⟩

theorem Tainted.step (hE : E.Ieee nan) (hp : p.Topological) {k : Nat} {u : Nat} {l : List Nat}
    {n : Node α Nat} {length : Nat} {s s' : Sweep α} (hl : p.Descends (u :: l)) (hn : p.net u n)
    (hs : p.Fits length s) (hpass : p.Passes E.calculus V u n s s')
    (h : p.Tainted E nan V k (u :: l) s) : p.Tainted E nan V k l s' := by
  have hsame : ∀ v, v ∉ l → s'.adjoints[v]? = s.adjoints[v]? := fun v hv =>
    hpass.adjoint_unchanged hp hl hn hv
  refine ⟨?_, ?_⟩
  · obtain ⟨v, hv, hvl, hguards, a, ha, hinf⟩ := h.source
    have hvl' : v ∉ l := fun hmem => hvl (List.mem_cons_of_mem _ hmem)
    exact ⟨v, hv, hvl', hguards, a, (hsame v hvl').trans ha, hinf⟩
  · cases hpass with
    | @skip a ha hskip hz =>
      rcases h.nan with hnan | ⟨d, hd, hcarries, hnan⟩
      · exact .inl hnan
      · rcases List.mem_cons.mp hd with rfl | hd
        · cases Option.some.inj (ha.symm.trans hnan)
          exact absurd (hE.nan_eq.symm.trans hz) (by decide)
        · exact .inr ⟨d, hd, hcarries, hnan⟩
    | @input a j sample gradient ha hlive hinput hadd =>
      subst hinput
      rcases h.nan with hnan | ⟨d, hd, hcarries, hnan⟩
      · left
        rw [addAt_getElem? hadd, hnan]
        split
        · exact congrArg some (hE.nan_add a)
        · rfl
      · rcases List.mem_cons.mp hd with rfl | hd
        · cases Option.some.inj (ha.symm.trans hnan)
          rcases carries_cases hn hcarries with hpos | ⟨c, hc, -⟩
          · cases hpos
            left
            rw [addAt_getElem? hadd, if_pos rfl, Array.getElem?_eq_getElem (lt_size_of_addAt hadd)]
            exact congrArg some (hE.add_nan _)
          · cases hc
        · exact .inr ⟨d, hd, hcarries, hnan⟩
    | @operator a adjoints ha hlive hpos hadd =>
      rcases h.nan with hnan | ⟨d, hd, hcarries, hnan⟩
      · exact .inl hnan
      · rcases List.mem_cons.mp hd with rfl | hd
        · cases Option.some.inj (ha.symm.trans hnan)
          rcases carries_cases hn hcarries with hpos' | ⟨c, hc, hcarries'⟩
          · rw [hpos] at hpos'
            cases hpos'
          · have hcl : c ∈ l := hl.operand_mem hp ⟨n, hn, hc⟩
            have hsize : c < s.adjoints.size := by
              rw [hs.adjoints]
              exact (hl.tail hp).lt_size c hcl
            exact .inr ⟨c, hcl, hcarries', addShares_nan hE (mem_sharesAt_nan hE hc) hadd hsize⟩
        · exact .inr ⟨d, hd, hcarries, addShares_of_nan hE hadd hnan⟩

/-- What the sweep leaves in the gradient at a position that is blocked off: zero, where every
adjoint at a blocked slot above its inputs is finite in the end, and NaN otherwise. -/
theorem Topological.zero_or_nan_of_blocked (hE : E.Ieee nan) (hp : p.Topological)
    (hskip : p.settings.skipZeroAdjoints = true) {r k : Nat} (hr : p.primary = some r)
    (hlt : r < p.code.size)
    (hopen : ∀ j sample, p.net j (.input k sample) → ¬ p.net.OpenPath E V r j)
    {length : Nat} (hk : k < length) {s : Sweep α}
    (hrun : p.reverse E.calculus (valuesBelow V p.code.size) length r = some s) :
    (s.gradient[k]? = some E.zero ∧ ∀ u, p.net.Needs r u → p.net.Guards E V k u →
      ∃ a, s.adjoints[u]? = some a ∧ E.isFinite a = true) ∨
    (s.gradient[k]? = some nan ∧ ∃ u, p.net.Needs r u ∧ p.net.Guards E V k u ∧
      ∃ a, s.adjoints[u]? = some a ∧ E.isFinite a = false) := by
  have hl := hp.descends_gradientPath hr hlt
  have hstart : p.Clean E V r k p.gradientPath (p.seed E.adjoints length r) := by
    refine ⟨fun c hc hcarries hclosed => ?_, ?_, fun u hu hnot => absurd hu hnot⟩
    · have hcr : r ≠ c := by
        rintro rfl
        exact hclosed .refl
      simp only [seed, Array.getElem?_setIfInBounds, hcr, if_false, Array.getElem?_replicate]
      rw [if_pos (hl.lt_size c hc)]
      rfl
    · simp only [seed, Array.getElem?_replicate]
      rw [if_pos hk]
      rfl
  obtain ⟨-, -, hend⟩ := hp.sweep_induction
    (motive := fun l s =>
      (∀ c ∈ l, c ∈ p.gradientPath) ∧ (p.Clean E V r k l s ∨ p.Tainted E nan V k l s))
    (fun u l n s s' hl hn hs hpass h => by
      obtain ⟨hpath, hclean | htainted⟩ := h
      · exact ⟨fun c hc => hpath c (List.mem_cons_of_mem _ hc),
          hclean.step hE hp hskip hopen hl hn hs (hpath u List.mem_cons_self) hpass⟩
      · exact ⟨fun c hc => hpath c (List.mem_cons_of_mem _ hc),
          .inr (htainted.step hE hp hl hn hs hpass)⟩)
    hl (p.fits_seed E.adjoints length r) ⟨fun _ hc => hc, .inl hstart⟩ hrun
  rcases hend with hclean | htainted
  · refine .inl ⟨hclean.gradient, fun u hu hguards => hclean.finite u ?_ (by simp) hguards⟩
    exact (hp.mem_gradientPath hr hlt).mpr hu
  · obtain ⟨u, hu, -, hguards, ha⟩ := htainted.source
    refine .inr ⟨?_, u, (hp.mem_gradientPath hr hlt).mp hu, hguards, ha⟩
    rcases htainted.nan with hnan | ⟨d, hd, -⟩
    · exact hnan
    · cases hd

end ScalarGraph.Program
