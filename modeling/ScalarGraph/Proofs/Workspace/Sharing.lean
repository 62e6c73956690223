import ScalarGraph.Proofs.Workspace.History

/-! # Maximal sharing

On every tape different indices have different trees. So an expression that was built before is
never appended again: each call that builds a part of it, at any later time and in any order,
changes nothing and gives the handle that the part has.
-/
namespace ScalarGraph
variable {α : Type} [DecidableEq α] [Hashable α]

namespace Build
variable {ι κ : Type} {w : Workspace α}

theorem run_onTape_found {k i : Nat} {f : Tape α → Tape α × Nat} {n : Node α Nat} (hw : w.Ready)
    (hk : k < w.tapes.size) (hf : (w.tape k).Provides n (f (w.tape k))) (hi : i < (w.tape k).size)
    (hu : (f (w.tape k)).1.unfolding (f (w.tape k)).2 = (w.tape k).unfolding i) :
    (onTape k f).run w = (.ok i, w) := by
  have hfound : f (w.tape k) = (w.tape k, i) := hf.eq_of_unfolding (hw.valid k) hi hu
  have hself : (w.onTape k f).1 = w := Workspace.onTape_eq_self hk (congrArg Prod.fst hfound)
  have hindex : (w.onTape k f).2 = i := by rw [Workspace.onTape_snd, hfound]
  show (Except.ok (w.onTape k f).2, (w.onTape k f).1) = _
  rw [hself, hindex]

theorem run_list_mapM_eq {g : ι → Build α κ} {f : ι → κ} {xs : List ι}
    (h : ∀ x ∈ xs, (g x).run w = (.ok (f x), w)) : (xs.mapM g).run w = (.ok (xs.map f), w) := by
  induction xs with
  | nil => rfl
  | cons x xs ih =>
    have hrest := ih fun y hy => h y (List.mem_cons_of_mem _ hy)
    rw [List.mapM_cons, run_bind_ok (h x List.mem_cons_self), run_bind_ok hrest]
    rfl

theorem run_mapM_eq {g : ι → Build α κ} {f : ι → κ} {n : Node α ι}
    (h : ∀ x ∈ n.operands, (g x).run w = (.ok (f x), w)) : (n.mapM g).run w = (.ok (n.map f), w) := by
  have hnode : n.op.node? (n.operands.map f) = some (n.map f) := by
    rw [← Node.op_map f n, ← Node.operands_map]
    exact Node.op_node? _
  obtain ⟨hresult, hstate⟩ := run_some_mapM g n w
  rw [run_list_mapM_eq h] at hresult hstate
  rcases hm : (n.mapM g).run w with ⟨r, v⟩
  rw [hm] at hresult hstate
  cases r with
  | error e => cases hresult
  | ok m =>
    have hsome : some m = n.op.node? (n.operands.map f) := Except.ok.inj hresult
    rw [hnode] at hsome
    rw [Option.some.inj hsome]
    exact Prod.ext rfl hstate

end Build

section
variable {R : Rules α} {w : Workspace α} {k : Nat}

/-- On a tape an operand stands for an expression as a handle with its settled tree or as the
number that it is. -/
inductive Operand.StandsFor (R : Rules α) (w : Workspace α) (k : Nat) :
    Operand α → Term α (Nat × α) → Prop where
  | handle {y : Handle} {e : Term α (Nat × α)} (htape : y.tape = k) (hindex : y.index < (w.tape k).size)
      (hunfolding : (w.tape k).unfolding y.index = e.settled R) : StandsFor R w k (.handle y) e
  | number (x : α) : StandsFor R w k (.number x) (.number x)

theorem run_sharedTape {xs : List (Operand α)} (hxs : ∀ y, .handle y ∈ xs → y.tape = k)
    (hk : k = w.active ∨ ∃ y, .handle y ∈ xs ∧ y.tape = k) : (sharedTape xs).run w = (.ok k, w) := by
  have hall : ∀ j ∈ xs.filterMap Operand.tape?, j = k := by
    intro j hj
    obtain ⟨y, hy, rfl⟩ := mem_tapes.mp hj
    exact hxs y hy
  unfold sharedTape
  cases htapes : xs.filterMap Operand.tape? with
  | nil =>
    have hactive : k = w.active := by
      rcases hk with hk | hk
      · exact hk
      · have hmem := mem_tapes.mpr hk
        rw [htapes] at hmem
        cases hmem
    rw [hactive]
    rfl
  | cons j js =>
    rw [htapes] at hall
    have hj : j = k := hall j List.mem_cons_self
    have hjs : js.all (· == j) = true := by
      rw [List.all_eq_true]
      intro l hl
      rw [hall l (List.mem_cons_of_mem _ hl), hj]
      exact beq_self_eq_true k
    dsimp only
    rw [if_pos hjs, hj]
    rfl

theorem Operand.StandsFor.run_promote {x : Operand α} {e : Term α (Nat × α)}
    (hx : x.StandsFor R w k e) (hw : w.Ready) (hk : k < w.tapes.size) (he : (w.tape k).Holds R e) :
    ∃ i < (w.tape k).size, (w.tape k).unfolding i = e.settled R ∧
      (x.promote k).run w = (.ok i, w) := by
  cases hx with
  | @handle y _ htape hindex hunfolding => exact ⟨y.index, hindex, hunfolding, rfl⟩
  | number a =>
    obtain ⟨i, hi, hunfolding⟩ := he _ .refl
    have hprovides := (hw.valid k).provides_const a
    refine ⟨i, hi, hunfolding, Build.run_onTape_found (f := (·.const a)) hw hk hprovides hi ?_⟩
    rw [hunfolding]
    exact hprovides.unfolding_terminal (m := .const a) rfl rfl rfl

/-- A constructor for an operator over expressions that the tape holds changes nothing. -/
theorem run_construct_found {n : Node α (Operand α × Term α (Nat × α))} (hw : w.Ready)
    (hk : k < w.tapes.size) (hop : n.op.isTerminal = false)
    (hn : ∀ q ∈ n.operands, q.1.StandsFor R w k q.2)
    (hshared : k = w.active ∨ ∃ y, .handle y ∈ (n.map Prod.fst).operands ∧ y.tape = k)
    (hholds : (w.tape k).Holds R (n.map Prod.snd).term) :
    ∃ i < (w.tape k).size, (w.tape k).unfolding i = (n.map Prod.snd).term.settled R ∧
      (construct R (n.map Prod.fst)).run w = (.ok ⟨k, i⟩, w) := by
  have htape : ∀ y, .handle y ∈ (n.map Prod.fst).operands → y.tape = k := by
    intro y hy
    rw [Node.operands_map] at hy
    obtain ⟨⟨x, e⟩, hq, rfl⟩ := List.mem_map.mp hy
    cases hn _ hq with
    | handle htape hindex hunfolding => exact htape
  have hpart : ∀ q ∈ n.operands, (w.tape k).Holds R q.2 := by
    intro q hq
    refine hholds.part (Term.hasPart_operand ?_)
    rw [Node.operands_map]
    exact List.mem_map_of_mem hq
  have hpromote : ∀ q ∈ n.operands, ∃ i, i < (w.tape k).size ∧
      (w.tape k).unfolding i = q.2.settled R ∧ (q.1.promote k).run w = (.ok i, w) := by
    intro q hq
    exact (hn q hq).run_promote hw hk (hpart q hq)
  choose! index hlt hunfolding hrun using hpromote
  have hmap : ((n.map Prod.fst).mapM (Operand.promote k)).run w = (.ok (n.map index), w) := by
    rw [Node.mapM_map]
    exact Build.run_mapM_eq hrun
  have hindexed : (n.map index).map (w.tape k).unfolding = (n.map Prod.snd).map (Term.settled R) := by
    rw [Node.map_map, Node.map_map]
    exact Node.map_congr hunfolding
  have hiop : (n.map index).op.isTerminal = false := by rwa [Node.op_map]
  have hilt : ∀ c ∈ (n.map index).operands, c < (w.tape k).size := by
    rw [Node.operands_map, List.forall_mem_map]
    exact hlt
  obtain ⟨m, -, hprovides⟩ := (hw.valid k).exists_provides_settle R hiop hilt
  have htree : ((w.tape k).settle R (n.map index)).1.unfolding
      ((w.tape k).settle R (n.map index)).2 = (n.map Prod.snd).term.settled R := by
    rw [(hw.valid k).unfolding_settle hiop hilt, hindexed, Term.settled_term R (by rwa [Node.op_map])]
  obtain ⟨i, hi, hin⟩ := hholds _ .refl
  have hsettle := Build.run_onTape_found (f := (·.settle R (n.map index))) hw hk hprovides hi
    (htree.trans hin.symm)
  refine ⟨i, hi, hin, ?_⟩
  unfold construct
  rw [Build.run_bind_ok (run_sharedTape htape hshared), Build.run_bind_ok hmap,
    Build.run_bind_ok hsettle]
  rfl

theorem run_makeConst_found (hw : w.Ready) {a : α}
    (hholds : (w.tape w.active).Holds R (.number a)) :
    ∃ i < (w.tape w.active).size, (w.tape w.active).unfolding i = .number a ∧
      (makeConst a).run w = (.ok ⟨w.active, i⟩, w) := by
  have hnumber : (Operand.number a).StandsFor R w w.active (.number a) := .number a
  obtain ⟨i, hi, htree, hrun⟩ := hnumber.run_promote hw hw.active_lt hholds
  refine ⟨i, hi, htree, ?_⟩
  unfold makeConst
  rw [Build.run_bind_ok (Build.run_get w)]
  exact Build.run_bind_ok hrun

theorem Handle.StandsFor.eq_index {y : Handle} {e : Term α (Nat × α)} (hy : y.StandsFor R w e)
    (hw : w.Ready) (hk : y.tape = k) {i : Nat} (hi : i < (w.tape k).size)
    (htree : (w.tape k).unfolding i = e.settled R) : y = ⟨k, i⟩ := by
  subst hk
  have hsame : y.index = i := by
    apply (hw.valid y.tape).unfolding_injective hy.index_lt hi
    rw [hy.unfolding_eq, htree]
  rw [← hsame]

theorem Handle.StandsFor.operand {y : Handle} {e : Term α (Nat × α)} (hy : y.StandsFor R w e)
    (hk : y.tape = k) : (Operand.handle y).StandsFor R w k e := by
  subst hk
  exact .handle rfl hy.index_lt hy.unfolding_eq

variable [Written α]

theorem run_makeInput_found (hw : w.Ready) {j : Nat} {s : α}
    (hholds : (w.tape w.active).Holds R (.leaf (j, s))) :
    ∃ i < (w.tape w.active).size, (w.tape w.active).unfolding i = .leaf (j, s) ∧
      (makeInput (some (j : Int)) s).run w = (.ok ⟨w.active, i⟩, w) := by
  have ht := hw.valid w.active
  obtain ⟨i, hi, htree⟩ := hholds _ .refl
  have hnode := ht.of_unfolding_leaf hi htree
  obtain ⟨r, hr⟩ := ht.exists_declare (k := j) (s := s) fun l q hl => by
    have hil := ht.input_unique hnode hl
    rw [← hil, hnode] at hl
    cases hl
    rfl
  have hprovides := ht.provides_declare hr
  have hunfolding : r.1.unfolding r.2 = (w.tape w.active).unfolding i := by
    rw [htree]
    exact hprovides.unfolding_terminal (m := .input j s) rfl rfl rfl
  have hfound : r = (w.tape w.active, i) := hprovides.eq_of_unfolding ht hi hunfolding
  refine ⟨i, hi, htree, ?_⟩
  rw [run_makeInput_ok hr, hfound]
  exact Prod.ext rfl (Workspace.onTape_eq_self (f := fun _ => (w.tape w.active, i)) hw.active_lt rfl)

theorem Call.For.run_found {built : List (Handle × Term α (Nat × α))} {c : Call α}
    {e : Term α (Nat × α)} (hc : c.For w built e) (hw : w.Ready)
    (hbuilt : ∀ p ∈ built, p.1.StandsFor R w p.2) (hgoes : c.GoesTo w k) (hk : k < w.tapes.size)
    (hholds : (w.tape k).Holds R e) :
    ∃ i < (w.tape k).size, (w.tape k).unfolding i = e.settled R ∧
      (c.build R).run w = (.ok ⟨k, i⟩, w) := by
  obtain ⟨htape, hshared⟩ := hgoes
  have hactive : c.operands = [] → k = w.active := by
    intro hnone
    rw [hnone] at hshared
    rcases hshared with hk | ⟨y, hy, -⟩
    · exact hk
    · cases hy
  cases hc with
  | const a =>
    obtain rfl := hactive rfl
    exact run_makeConst_found hw hholds
  | input j s =>
    obtain rfl := hactive rfl
    exact run_makeInput_found hw hholds
  | next s =>
    obtain rfl := hactive rfl
    -- the next free position is on no tape that the term could be held by
    obtain ⟨i, hi, htree⟩ := hholds _ .refl
    have hnode := (hw.valid w.active).of_unfolding_leaf hi htree
    have hdeclared := (hw.valid w.active).inputs_iff.mpr ⟨s, hnode⟩
    rw [Tape.Valid.inputs_numInputs] at hdeclared
    cases hdeclared
  | @construct n hop hn =>
    refine run_construct_found hw hk hop ?_ hshared hholds
    rintro ⟨x, e⟩ hq
    have hx : x ∈ (n.map Prod.fst).operands := by
      rw [Node.operands_map]
      exact List.mem_map_of_mem hq
    cases hn (x, e) hq with
    | @handle y _ hmem => exact (hbuilt (y, e) hmem).operand (htape y hx)
    | number a => exact .number a

namespace Term

def declared (p : Nat × α) : Build α (Operand α) :=
  do return .handle (← makeInput (some (p.1 : Int)) p.2)

omit [Written α] in
theorem run_handle_found {n : Node α (Operand α × Term α (Nat × α))} (hw : w.Ready)
    (hop : n.op.isTerminal = false) (hn : ∀ q ∈ n.operands, q.1.StandsFor R w w.active q.2)
    (hholds : (w.tape w.active).Holds R (n.map Prod.snd).term) :
    ∃ y, (do return .handle (← construct R (n.map Prod.fst)) : Build α (Operand α)).run w =
        (.ok y, w) ∧ y.StandsFor R w w.active (n.map Prod.snd).term := by
  obtain ⟨i, hi, htree, hrun⟩ := run_construct_found hw hw.active_lt hop hn (.inl rfl) hholds
  refine ⟨.handle ⟨w.active, i⟩, ?_, .handle rfl hi htree⟩
  rw [Build.run_bind_ok hrun]
  rfl

mutual
/-- Building an expression that the active tape holds gives an operand for it and changes nothing. -/
theorem run_build_found (hw : w.Ready) :
    ∀ e : Term α (Nat × α), (w.tape w.active).Holds R e →
      ∃ y, (e.build R declared).run w = (.ok y, w) ∧ y.StandsFor R w w.active e
  | leaf (j, s), h => by
    obtain ⟨i, hi, htree, hrun⟩ := run_makeInput_found hw h
    refine ⟨.handle ⟨w.active, i⟩, ?_, .handle rfl hi htree⟩
    rw [build, declared, Build.run_bind_ok hrun]
    rfl
  | number x, _ => ⟨.number x, rfl, .number x⟩
  | unary o t, h => by
    have hpart : ∀ p ∈ (Node.unary o t).operands, (w.tape w.active).Holds R p :=
      fun p hp => h.part (hasPart_operand (n := .unary o t) hp)
    obtain ⟨x, hx, hxt⟩ := run_build_found hw t (hpart t (by simp [Node.operands]))
    rw [build, Build.run_bind_ok hx]
    exact run_handle_found (n := .unary o (x, t)) hw rfl (by simpa [Node.operands] using hxt) h
  | binary o t u, h => by
    have hpart : ∀ p ∈ (Node.binary o t u).operands, (w.tape w.active).Holds R p :=
      fun p hp => h.part (hasPart_operand (n := .binary o t u) hp)
    obtain ⟨x, hx, hxt⟩ := run_build_found hw t (hpart t (by simp [Node.operands]))
    obtain ⟨y, hy, hyu⟩ := run_build_found hw u (hpart u (by simp [Node.operands]))
    rw [build, Build.run_bind_ok hx, Build.run_bind_ok hy]
    exact run_handle_found (n := .binary o (x, t) (y, u)) hw rfl
      (by simp [Node.operands, hxt, hyu]) h
  | select c t e, h => by
    have hpart : ∀ p ∈ (Node.select c t e).operands, (w.tape w.active).Holds R p :=
      fun p hp => h.part (hasPart_operand (n := .select c t e) hp)
    obtain ⟨x, hx, hxc⟩ := run_build_found hw c (hpart c (by simp [Node.operands]))
    obtain ⟨y, hy, hyt⟩ := run_build_found hw t (hpart t (by simp [Node.operands]))
    obtain ⟨z, hz, hze⟩ := run_build_found hw e (hpart e (by simp [Node.operands]))
    rw [build, Build.run_bind_ok hx, Build.run_bind_ok hy, Build.run_bind_ok hz]
    exact run_handle_found (n := .select (x, c) (y, t) (z, e)) hw rfl
      (by simp [Node.operands, hxc, hyt, hze]) h
  | nary o ts, h => by
    have hpart : ∀ p ∈ ts, (w.tape w.active).Holds R p :=
      fun p hp => h.part (hasPart_operand (n := .nary o ts) hp)
    obtain ⟨qs, hrun, rfl, hqs⟩ := run_buildAll_found hw ts hpart
    rw [build, Build.run_bind_ok hrun]
    exact run_handle_found (n := .nary o qs) hw rfl hqs h
  | debug l t, h => by
    have hpart : ∀ p ∈ (Node.debug l t).operands, (w.tape w.active).Holds R p :=
      fun p hp => h.part (hasPart_operand (n := .debug l t) hp)
    obtain ⟨x, hx, hxt⟩ := run_build_found hw t (hpart t (by simp [Node.operands]))
    rw [build, Build.run_bind_ok hx]
    exact run_handle_found (n := .debug l (x, t)) hw rfl (by simpa [Node.operands] using hxt) h

theorem run_buildAll_found (hw : w.Ready) :
    ∀ ts : List (Term α (Nat × α)), (∀ t ∈ ts, (w.tape w.active).Holds R t) →
      ∃ qs : List (Operand α × Term α (Nat × α)),
        (buildAll R declared ts).run w = (.ok (qs.map Prod.fst), w) ∧ qs.map Prod.snd = ts ∧
          ∀ q ∈ qs, q.1.StandsFor R w w.active q.2
  | [], _ => ⟨[], rfl, rfl, by simp⟩
  | t :: ts, h => by
    obtain ⟨x, hx, hxt⟩ := run_build_found hw t (h t List.mem_cons_self)
    obtain ⟨qs, hrun, hqs, hstands⟩ :=
      run_buildAll_found hw ts fun u hu => h u (List.mem_cons_of_mem _ hu)
    refine ⟨(x, t) :: qs, ?_, by rw [List.map_cons, hqs], List.forall_mem_cons.mpr ⟨hxt, hstands⟩⟩
    rw [buildAll, Build.run_bind_ok hx, Build.run_bind_ok hrun]
    rfl
end

end Term

/-- In every session different indices of a tape have different trees. A call that builds a part of
an expression that was built on its tape before changes nothing, and gives the handle that was built
for the part where there is one. So does building the whole expression anew on the active tape. -/
theorem Workspace.History.maximal_sharing {built : List (Handle × Term α (Nat × α))}
    (h : w.History R built) :
    (∀ k i j, i < (w.tape k).size → j < (w.tape k).size →
      ((w.tape k).unfolding i = (w.tape k).unfolding j ↔ i = j)) ∧
    (∀ x e, (x, e) ∈ built → ∀ p, e.HasPart p → ∀ c : Call α, c.For w built p →
      c.GoesTo w x.tape → ∃ y, (c.build R).run w = (.ok y, w) ∧
        ∀ z, (z, p) ∈ built → z.tape = x.tape → y = z) ∧
    ∀ x e, (x, e) ∈ built → x.tape = w.active → ∃ y, (e.build R Term.declared).run w = (.ok y, w) ∧
      (y = .handle x ∨ ∃ a, e = .number a ∧ y = .number a) := by
  obtain ⟨hw, hbuilt⟩ := h.standsFor
  refine ⟨fun k i j => (hw.valid k).unfolding_eq_iff, ?_, ?_⟩
  · intro x e hmem p hp c hc hgoes
    have hx : x.StandsFor R w e := hbuilt (x, e) hmem
    obtain ⟨i, hi, htree, hrun⟩ :=
      hc.run_found hw hbuilt hgoes hx.tape_lt (hx.holds.part hp)
    refine ⟨⟨x.tape, i⟩, hrun, fun z hz htape => ?_⟩
    have hzp : z.StandsFor R w p := hbuilt (z, p) hz
    exact (hzp.eq_index hw htape hi htree).symm
  · intro x e hmem hactive
    have hx : x.StandsFor R w e := hbuilt (x, e) hmem
    have hholds := hx.holds
    rw [hactive] at hholds
    obtain ⟨y, hrun, hy⟩ := Term.run_build_found hw e hholds
    refine ⟨y, hrun, ?_⟩
    cases hy with
    | @handle z _ htape hindex htree =>
      refine .inl (congrArg Operand.handle ?_)
      rw [hx.eq_index hw hactive hindex htree, ← htape]
    | number a => exact .inr ⟨a, rfl, rfl⟩

def inputPlusTwo : Term Int (Nat × Int) := .add (.leaf (0, 3)) (.number 2)

theorem maximal_sharing_inputPlusTwo : ∃ (w : Workspace Int) (built : _) (x : Handle),
    w.History Graph.polynomials.rules built ∧ (x, inputPlusTwo) ∈ built ∧
      (inputPlusTwo.build Graph.polynomials.rules Term.declared).run w = (.ok (.handle x), w) := by
  obtain ⟨w, v, y, x, hy, hx, -, htape, -⟩ := exists_inputPlusTwo Graph.polynomials.rules
  have hinput : w.History Graph.polynomials.rules [(y, .leaf (0, 3))] :=
    .call .start (.input 0 3) hy
  have hsum : v.History Graph.polynomials.rules [(x, inputPlusTwo), (y, .leaf (0, 3))] :=
    .call hinput (.construct (n := .binary .add (.handle y, .leaf (0, 3)) (.number 2, .number 2)) rfl
      (by simp [Node.operands, Operand.For.handle, Operand.For.number])) hx
  obtain ⟨z, hz, hzx⟩ := hsum.maximal_sharing.2.2 x inputPlusTwo List.mem_cons_self htape
  refine ⟨v, _, x, hsum, List.mem_cons_self, ?_⟩
  rcases hzx with rfl | ⟨a, ha, -⟩
  · exact hz
  · cases ha

end
end ScalarGraph
