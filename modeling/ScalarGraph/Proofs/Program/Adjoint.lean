import ScalarGraph.Proofs.Adjoint
import ScalarGraph.Proofs.Program.Run

/-! # The order of the reverse sweep

A slot's adjoint is settled when the sweep comes to it, so the adjoints that the sweep leaves are
those that the slots pass on to each other, and the gradient is what they add to its entries.
Two programs that hold the same nodes below their primary outputs therefore give the same
gradient, where adjoints can be added in any order.
-/
namespace ScalarGraph.Program
variable {α ι : Type} {p p' : Program α} {C : Calculus α} {V : Nat → α}

theorem addShares_append (A : Adjoints α) (xs : Array α) (ds es : List (Nat × α)) :
    addShares A xs (ds ++ es) = (addShares A xs ds).bind (addShares A · es) :=
  List.foldlM_append

theorem addShares_getElem? {A : Adjoints α} {ds : List (Nat × α)} {xs ys : Array α}
    (h : addShares A xs ds = some ys) (k : Nat) : ys[k]? = xs[k]?.map (A.total · k ds) := by
  induction ds generalizing xs with
  | nil =>
    cases h
    exact Option.map_id'.symm
  | cons d ds ih =>
    rw [addShares, List.foldlM_cons] at h
    obtain ⟨zs, hzs, h⟩ := Option.bind_eq_some_iff.mp h
    rw [ih h, addAt_getElem? hzs]
    by_cases hk : d.1 = k
    · simp [hk, Adjoints.total, Function.comp_def]
    · simp [hk, Adjoints.total]

theorem addAt_comm {A : Adjoints α} (hA : A.Unordered) (xs : Array α) (d e : Nat × α) :
    ((addAt A xs d.1 d.2).bind fun ys => addAt A ys e.1 e.2) =
      (addAt A xs e.1 e.2).bind fun ys => addAt A ys d.1 d.2 := by
  unfold addAt
  by_cases hd : d.1 < xs.size
  · by_cases he : e.1 < xs.size
    · simp only [hd, he, dif_pos, Option.bind_some, Array.size_set, Option.some.injEq]
      by_cases heq : d.1 = e.1
      · simp [heq, hA.right_comm]
      · have hne : e.1 ≠ d.1 := Ne.symm heq
        rw [Array.getElem_set_ne hd he heq, Array.getElem_set_ne he hd hne, Array.set_comm _ _ heq]
    · simp [hd, he]
  · by_cases he : e.1 < xs.size <;> simp [hd, he]

/-- Shares can be added in any order, also where some entry is missing. -/
theorem addShares_perm {A : Adjoints α} (hA : A.Unordered) {ds es : List (Nat × α)} (h : ds.Perm es)
    (xs : Array α) : addShares A xs ds = addShares A xs es := by
  induction h generalizing xs with
  | nil => rfl
  | cons d _ ih =>
    unfold addShares at ih ⊢
    rw [List.foldlM_cons, List.foldlM_cons]
    exact congrArg _ (funext ih)
  | swap d e ds =>
    unfold addShares
    simp only [List.foldlM_cons, Option.bind_eq_bind, ← Option.bind_assoc, addAt_comm hA xs d e]
  | trans _ _ ih ih' => exact (ih xs).trans (ih' xs)

def listed (p : Program α) (l : List Nat) : NodeList α Nat :=
  l.filterMap fun i => p.code[i]?.map (i, ·)

theorem listed_cons {i : Nat} {n : Node α Nat} (hn : p.net i n) (l : List Nat) :
    p.listed (i :: l) = (i, n) :: p.listed l := by
  have hcode : p.code[i]? = some n := hn
  simp [listed, hcode]

theorem mem_listed {l : List Nat} {i : Nat} {n : Node α Nat} :
    (i, n) ∈ p.listed l ↔ i ∈ l ∧ p.net i n := by
  unfold listed net
  rw [List.mem_filterMap]
  constructor
  · rintro ⟨j, hj, h⟩
    obtain ⟨m, hm, heq⟩ := Option.map_eq_some_iff.mp h
    obtain ⟨rfl, rfl⟩ := Prod.mk.inj heq
    exact ⟨hj, hm⟩
  · rintro ⟨hi, hn⟩
    exact ⟨i, hi, by rw [hn, Option.map_some]⟩

theorem Topological.reverseStep_eq (hp : p.Topological) {i : Nat} {n : Node α Nat} (hn : p.net i n)
    {xs : Array α} {a : α} (ha : xs[i]? = some a) (hsize : xs.size = p.code.size) (ys : Array α) :
    p.reverseStep C (valuesBelow V p.code.size) ⟨xs, ys⟩ i =
      (addShares C.adjoints xs
        (if p.settings.skipZeroAdjoints && C.adjoints.isZero a then [] else n.passed C V (V i) a)).bind
      fun xs' => (addShares C.adjoints ys
        (if p.settings.skipZeroAdjoints && C.adjoints.isZero a then []
          else (n.position?.map (·, a)).toList)).map (Sweep.mk xs') := by
  have hi := net_lt_size hn
  have hcode : p.code[i]? = some n := hn
  cases hlive : p.settings.skipZeroAdjoints && C.adjoints.isZero a with
  | true =>
    simp only [reverseStep, ha, hlive, if_true, Option.bind_eq_bind, Option.bind_some]
    rfl
  | false =>
    simp only [Bool.false_eq_true, if_false]
    cases hpos : n.position? with
    | some k =>
      obtain ⟨sample, rfl⟩ := Node.eq_input_of_position? hpos
      simp only [reverseStep, ha, hcode, hlive, Bool.false_eq_true, if_false, Option.bind_eq_bind,
        Option.bind_some]
      show (addAt C.adjoints ys k a).bind _ = (addShares C.adjoints ys [(k, a)]).map (Sweep.mk xs)
      have hone : addShares C.adjoints ys [(k, a)] = addAt C.adjoints ys k a := by simp [addShares]
      rw [hone]
      cases addAt C.adjoints ys k a <;> rfl
    | none =>
      have hoperands : ∀ c ∈ n.operands, c < p.code.size := fun c hc => Nat.lt_trans (hp hn c hc) hi
      obtain ⟨xs', hadd, -⟩ := exists_addShares C.adjoints xs (n.passed C V (V i) a) fun q hq => by
        rw [hsize]
        exact hoperands _ (Node.operand_of_mem_passed hq)
      rw [reverseStep_operator hcode hpos ha hlive (mapM_valuesBelow hoperands)
        (getElem?_valuesBelow hi) hadd, hadd]
      rfl

/-- A sweep over slots that go down adds what they pass on and enter, where their adjoints are those
that it leaves. Only the gradient can lack an entry. -/
theorem Topological.sweep_eq (hp : p.Topological) {l : List Nat} (hl : p.Descends l) {xs : Array α}
    (hsize : xs.size = p.code.size) : ∃ ys : Array α, (∀ i ∉ l, ys[i]? = xs[i]?) ∧
      addShares C.adjoints xs ((p.listed l).passed C p.settings.skipZeroAdjoints V
        (ys.getD · C.adjoints.zero)) = some ys ∧
      ∀ gs, l.foldlM (p.reverseStep C (valuesBelow V p.code.size)) ⟨xs, gs⟩ =
        (addShares C.adjoints gs ((p.listed l).entered C p.settings.skipZeroAdjoints
          (ys.getD · C.adjoints.zero))).map (Sweep.mk ys) := by
  induction l generalizing xs with
  | nil => exact ⟨xs, fun _ _ => rfl, rfl, fun _ => rfl⟩
  | cons i l ih =>
    obtain ⟨n, hn⟩ := hl.exists_node
    have hi := net_lt_size hn
    obtain ⟨a, ha⟩ : ∃ a, xs[i]? = some a := ⟨_, Array.getElem?_eq_getElem (by omega)⟩
    let shares := if p.settings.skipZeroAdjoints && C.adjoints.isZero a then []
      else n.passed C V (V i) a
    have hmem : ∀ q ∈ shares, q.1 ∈ l := by
      intro q hq
      dsimp only [shares] at hq
      split at hq
      · cases hq
      · exact hl.operand_mem hp ⟨n, hn, Node.operand_of_mem_passed hq⟩
    obtain ⟨zs, hzs, hzsize⟩ := exists_addShares C.adjoints xs shares fun q hq => by
      rw [hsize]
      exact hl.lt_size _ (List.mem_cons_of_mem _ (hmem q hq))
    obtain ⟨ys, hsame, hpassed, hsweep⟩ := ih (hl.tail hp) (hzsize.trans hsize)
    have hunchanged : ∀ j ∉ l, ys[j]? = xs[j]? := by
      intro j hj
      rw [hsame j hj, addShares_unchanged (fun q hq => ?_) hzs]
      rintro rfl
      exact hj (hmem q hq)
    -- the adjoint of `i` does not change any more
    have hsettled : ys.getD i C.adjoints.zero = a := by
      rw [Array.getD_eq_getD_getElem?, hunchanged i hl.head_notMem, ha, Option.getD_some]
    refine ⟨ys, fun j hj => hunchanged j fun h => hj (List.mem_cons_of_mem _ h), ?_, fun gs => ?_⟩
    · rw [listed_cons hn, NodeList.passed, List.flatMap_cons, addShares_append, hsettled]
      show (addShares C.adjoints xs shares).bind _ = _
      rw [hzs]
      exact hpassed
    · rw [List.foldlM_cons, hp.reverseStep_eq hn ha hsize, listed_cons hn, NodeList.entered,
        List.flatMap_cons, addShares_append, hsettled]
      show ((addShares C.adjoints xs shares).bind _ >>= _) = _
      rw [hzs, Option.bind_some]
      cases addShares C.adjoints gs
          (if p.settings.skipZeroAdjoints && C.adjoints.isZero a then []
            else (n.position?.map (·, a)).toList) with
      | none => rfl
      | some gs' => exact hsweep gs'

def live (p : Program α) : NodeList α Nat := p.listed p.gradientPath

theorem Topological.ranked (hp : p.Topological) : p.net.Ranked id where
  unique hn hm := Option.some.inj (hn.symm.trans hm)
  operand_lt hn := hp hn

theorem Topological.closed (hp : p.Topological) : p.net.Closed := fun _ _ hn c hc =>
  ⟨_, Array.getElem?_eq_getElem (Nat.lt_trans (hp hn c hc) (net_lt_size hn))⟩

theorem Topological.lists_live (hp : p.Topological) {r : Nat} (hr : p.primary = some r)
    (hlt : r < p.code.size) : p.net.Lists r p.live where
  nodup := by
    refine (hp.descends_gradientPath hr hlt).nodup.filterMap fun i j q hi hj => ?_
    obtain ⟨n, -, rfl⟩ := Option.map_eq_some_iff.mp hi
    obtain ⟨m, -, heq⟩ := Option.map_eq_some_iff.mp hj
    exact (Prod.mk.inj heq).1.symm
  mem_iff i n := by rw [live, mem_listed, hp.mem_gradientPath hr hlt]

/-- The adjoints of the sweep solve the equations of the nodes that are differentiated, and the
gradient is what these enter. -/
theorem Topological.exists_adjoints (hp : p.Topological) {r : Nat} (hr : p.primary = some r)
    (hlt : r < p.code.size) : ∃ A : Nat → α,
      p.live.Solves C p.settings.skipZeroAdjoints V A r ∧
      ∀ length, (p.reverse C (valuesBelow V p.code.size) length r).map Sweep.gradient =
        addShares C.adjoints (Array.replicate length C.adjoints.zero)
          (p.live.entered C p.settings.skipZeroAdjoints A) := by
  have hl := hp.descends_gradientPath hr hlt
  obtain ⟨ys, -, hpassed, hsweep⟩ := hp.sweep_eq (C := C) (V := V) hl
    (p.fits_seed C.adjoints 0 r).adjoints
  refine ⟨(ys.getD · C.adjoints.zero), fun q hq => ?_, fun length => ?_⟩
  · have hq : q.1 < p.code.size := hl.lt_size _ (mem_listed.mp hq).1
    have hseed : (p.seed C.adjoints 0 r).adjoints[q.1]? =
        some (if q.1 = r then C.adjoints.one else C.adjoints.zero) := by
      simp only [seed, Array.getElem?_setIfInBounds, Array.size_replicate, hlt, if_true,
        Array.getElem?_replicate, hq, @eq_comm _ r]
      split <;> rfl
    have hentry := addShares_getElem? hpassed q.1
    rw [hseed, Option.map_some] at hentry
    show ys.getD q.1 C.adjoints.zero = _
    rw [Array.getD_eq_getD_getElem?, hentry]
    rfl
  · have hrun : p.reverse C (valuesBelow V p.code.size) length r = _ := hsweep _
    rw [hrun, Option.map_map]
    exact Option.map_id'

/-- The slots of a program hold nodes of a net, with `f` for the places of the slots there and `f'`
to find the slots again. -/
structure Reads (p : Program α) (N : Net α ι) (f : Nat → ι) (f' : ι → Nat) : Prop where
  topological : p.Topological
  maps : Net.Maps f p.net N
  inverse : ∀ i < p.code.size, f' (f i) = i

variable [DecidableEq ι] {N : Net α ι} {f g : Nat → ι} {f' g' : ι → Nat} {rank : ι → Nat}

theorem Reads.exists_adjoints (h : p.Reads N f f') (hN : N.Ranked rank) {r : Nat}
    (hr : p.primary = some r) (hlt : r < p.code.size) (V : ι → α) : ∃ (L : NodeList α ι) (A : ι → α),
      N.Lists (f r) L ∧ L.Solves C p.settings.skipZeroAdjoints V A (f r) ∧
      ∀ length, (p.reverse C (valuesBelow (V ∘ f) p.code.size) length r).map Sweep.gradient =
        addShares C.adjoints (Array.replicate length C.adjoints.zero)
          (L.entered C p.settings.skipZeroAdjoints A) := by
  have hp := h.topological
  have hlists := hp.lists_live hr hlt
  have hinv : ∀ q ∈ p.live, f' (f q.1) = q.1 := fun q hq =>
    h.inverse _ (net_lt_size ((hlists.mem_iff q.1 q.2).mp hq).2)
  obtain ⟨A, hA, hgradient⟩ := hp.exists_adjoints (C := C) (V := V ∘ f) hr hlt
  refine ⟨p.live.rename f, A ∘ f', ?_, ?_, fun length => ?_⟩
  · exact hlists.rename h.maps hN hp.ranked hp.closed ⟨_, Array.getElem?_eq_getElem hlt⟩ hinv
  · exact hA.rename hinv (h.inverse r hlt) (hlists.closed hp.closed)
  · rw [hgradient, NodeList.entered_rename hinv]

/-- Two programs that hold the same nodes below the same primary output give the same gradient, or
both lack an entry for some input. -/
theorem Reads.gradient_eq (hC : C.adjoints.Unordered) (h : p.Reads N f f') (h' : p'.Reads N g g')
    (hN : N.Ranked rank) (hsettings : p.settings = p'.settings) {r r' : Nat} (hr : p.primary = some r)
    (hlt : r < p.code.size) (hr' : p'.primary = some r') (hlt' : r' < p'.code.size)
    (hroot : f r = g r') (V : ι → α) (length : Nat) :
    (p.reverse C (valuesBelow (V ∘ f) p.code.size) length r).map Sweep.gradient =
      (p'.reverse C (valuesBelow (V ∘ g) p'.code.size) length r').map Sweep.gradient := by
  obtain ⟨L, A, hL, hA, hgradient⟩ := h.exists_adjoints (C := C) hN hr hlt V
  obtain ⟨L', B, hL', hB, hgradient'⟩ := h'.exists_adjoints (C := C) hN hr' hlt' V
  rw [← hsettings, ← hroot] at hB
  rw [← hroot] at hL'
  rw [hgradient, hgradient', ← hsettings]
  exact addShares_perm hC (hL.entered_perm hC hN hL' hA hB) _

theorem Reads.run_gradient_eq (hC : C.adjoints.Unordered) (h : p.Reads N f f') (h' : p'.Reads N g g')
    (hN : N.Ranked rank) (hsettings : p.settings = p'.settings) (hnum : p.numInputs = p'.numInputs)
    (hprimary : p.primary.map f = p'.primary.map g) (hlt : ∀ i ∈ p.primary, i < p.code.size)
    (hlt' : ∀ i ∈ p'.primary, i < p'.code.size) (hsecondary : ∀ i ∈ p.secondary, i < p.code.size)
    (hsecondary' : ∀ i ∈ p'.secondary, i < p'.code.size) {xs : Array α} {V : ι → α}
    (hV : N.Evaluates C.rules xs V) :
    (p.run C xs).map Outputs.gradient = (p'.run C xs).map Outputs.gradient := by
  have hlength : p.gradientLength xs.size = p'.gradientLength xs.size := by
    rw [gradientLength, gradientLength, hnum]
  have hv := h.maps.evaluates hV
  have hv' := h'.maps.evaluates hV
  cases hr : p.primary with
  | none =>
    have hr' : p'.primary = none := by simpa [hr] using hprimary
    rw [h.topological.run_eq_of_none hv hr hsecondary,
      h'.topological.run_eq_of_none hv' hr' hsecondary', hlength]
    rfl
  | some r =>
    rw [hr, Option.map_some] at hprimary
    obtain ⟨r', hr', hroot⟩ := Option.map_eq_some_iff.mp hprimary.symm
    have hgradient := h.gradient_eq hC h' hN hsettings hr (hlt r hr) hr' (hlt' r' hr') hroot.symm V
      (p.gradientLength xs.size)
    rw [h.topological.run_eq hv hr (hlt r hr) hsecondary,
      h'.topological.run_eq hv' hr' (hlt' r' hr') hsecondary', ← hlength, Option.map_map, Option.map_map]
    exact hgradient

end ScalarGraph.Program
