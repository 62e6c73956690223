import ScalarGraph.Proofs.Term.Leaves
import ScalarGraph.Proofs.Workspace.Footprint

/-! # What building a term leaves behind

Building is itself a meaning of terms, so what every constructor keeps to, all terms do.
-/
namespace ScalarGraph
variable {α γ δ ν : Type} [DecidableEq α] [Hashable α]

namespace Term

def buildNode (R : Rules α) : Node α (Build α (Operand α)) → Build α (Operand α)
  | .const x => return .number x
  | n => do return .handle (← construct R (← n.mapM id))

mutual
theorem build_eq_fold (R : Rules α) (find : ν → Build α (Operand α)) :
    ∀ e : Term α ν, e.build R find = e.fold (buildNode R) find
  | leaf l => rfl
  | number x => rfl
  | unary o t => by
    rw [build, fold, build_eq_fold R find t]
    simp [buildNode, Node.mapM]
  | binary o t u => by
    rw [build, fold, build_eq_fold R find t, build_eq_fold R find u]
    simp [buildNode, Node.mapM]
  | select c t e => by
    rw [build, fold, build_eq_fold R find c, build_eq_fold R find t, build_eq_fold R find e]
    simp [buildNode, Node.mapM]
  | nary o ts => by
    rw [build, fold, buildAll_eq_mapM R find ts]
    simp [buildNode, Node.mapM]
  | debug l t => by
    rw [build, fold, build_eq_fold R find t]
    simp [buildNode, Node.mapM]

theorem buildAll_eq_mapM (R : Rules α) (find : ν → Build α (Operand α)) :
    ∀ ts : List (Term α ν), buildAll R find ts = (folds (buildNode R) find ts).mapM id
  | [] => rfl
  | t :: ts => by
    rw [buildAll, folds, List.mapM_cons, build_eq_fold R find t, buildAll_eq_mapM R find ts]
    rfl
end

end Term

namespace Build
variable {w : Workspace α} {K : Nat → Prop} {Q : γ → Workspace α → Prop}

/-- The step changes only tapes in `K`, and fails only for operands of different tapes. -/
structure Confined (b : Build α γ) (K : Nat → Prop) (w : Workspace α) (Q : γ → Workspace α → Prop) :
    Prop where
  safe : b.Safe w True Q
  others : ∀ k, ¬K k → (b.run w).2.tape k = w.tape k
  of_error : ∀ e, (b.run w).1 = .error e → e = .violation .mixedOperands

theorem confined_pure {c : γ} (hw : w.Ready) (h : Q c w) : (pure c : Build α γ).Confined K w Q where
  safe := safe_pure hw h
  others _ _ := rfl
  of_error := by rintro e ⟨⟩

theorem Confined.bind {b : Build α γ} {f : γ → Build α δ} {P : δ → Workspace α → Prop}
    (hb : b.Confined K w Q) (hf : ∀ c v, v.Ready → w.Grows v → Q c v → (f c).Confined K v P) :
    (b >>= f).Confined K w P := by
  have hrest : ∀ c v, b.run w = (.ok c, v) → (f c).Confined K v P := fun c v hrun => by
    obtain ⟨hv, hwv, hc⟩ := hb.safe.of_run hrun
    exact hf c v hv hwv hc
  refine ⟨hb.safe.bind fun c v hv hwv hc => (hf c v hv hwv hc).safe, fun k hk => ?_, fun e he => ?_⟩
  · refine run_bind_induction (I := fun v => v.tape k = w.tape k) (hb.others k hk) fun c v hrun => ?_
    have hv := hb.others k hk
    rw [hrun] at hv
    exact ((hrest c v hrun).others k hk).trans hv
  · rcases hrun : b.run w with ⟨e' | c, v⟩
    · rw [run_bind_error hrun] at he
      cases he
      exact hb.of_error _ (by rw [hrun])
    · rw [run_bind_ok hrun] at he
      exact (hrest c v hrun).of_error e he

theorem confined_mapM {bs : List (Build α γ)} (hQ : ∀ c v u, Q c v → v.Grows u → Q c u)
    (hb : ∀ b ∈ bs, ∀ v, v.Ready → w.Grows v → b.Confined K v Q) {v : Workspace α} (hv : v.Ready)
    (hwv : w.Grows v) : (bs.mapM id).Confined K v fun cs u => ∀ c ∈ cs, Q c u := by
  induction bs generalizing v with
  | nil => exact confined_pure hv (by simp)
  | cons b bs ih =>
    obtain ⟨hb, hbs⟩ := List.forall_mem_cons.mp hb
    rw [List.mapM_cons]
    refine (hb v hv hwv).bind fun c u hu hvu hc => ?_
    refine (ih hbs hu (hwv.trans hvu)).bind fun cs s hs hus hcs => ?_
    exact confined_pure hs (List.forall_mem_cons.mpr ⟨hQ c u s hc hus, hcs⟩)

theorem Confined.mapM {ι κ : Type} {g : ι → Build α κ} {n : Node α ι} {P : List κ → Workspace α → Prop}
    (h : (n.operands.mapM g).Confined K w P) :
    (n.mapM g).Confined K w fun m v => m.op = n.op ∧ P m.operands v where
  safe := h.safe.mapM
  others k hk := (run_some_mapM g n w).2 ▸ h.others k hk
  of_error e he := by
    apply h.of_error
    rw [← operands_of_run_mapM, he]
    rfl

end Build

structure Operand.OnSome (K : Nat → Prop) (w : Workspace α) (x : Operand α) : Prop where
  on : x.On w
  tape : ∀ k, x.tape? = some k → K k
  fit : ∀ e, x ≠ .unfit e

section
variable {R : Rules α} {w v : Workspace α} {K : Nat → Prop}

theorem Operand.OnSome.grows {x : Operand α} (h : x.OnSome K w) (hwv : w.Grows v) : x.OnSome K v :=
  ⟨h.on.grows hwv, h.tape, h.fit⟩

/-- The operands of a node have one home, or the node is not built. -/
theorem run_construct_mixed_or_home (R : Rules α) {n : Node α (Operand α)} :
    (construct R n).run w = (.error (.violation .mixedOperands), w) ∨
      ∃ k, Operand.Home w n.operands k := by
  by_cases hsame : ∀ y z, .handle y ∈ n.operands → .handle z ∈ n.operands → y.tape = z.tape
  · exact .inr (Operand.exists_home w hsame)
  · push Not at hsame
    obtain ⟨y, z, hy, hz, hne⟩ := hsame
    exact .inl (run_construct_mixed
      (sharedPlace_eq_none (List.mem_map_of_mem hy) (List.mem_map_of_mem hz) hne))

theorem confined_construct (hw : w.Ready) (hactive : K w.active) {n : Node α (Operand α)}
    (hop : n.op.isTerminal = false) (hn : ∀ x ∈ n.operands, x.OnSome K w) :
    (construct R n).Confined K w fun h v => (Operand.handle h).OnSome K v := by
  have hon : ∀ x ∈ n.operands, x.On w := fun x hx => (hn x hx).on
  have hsafe : (construct R n).Safe w True fun h v => (Operand.handle h).OnSome K v := by
    refine ((safe_construct (f := fun _ : Node α Unit => ()) hw (fun _ _ => rfl) hop hon).weaken
      fun _ => trivial).imp ?_
    rintro h v - - ⟨hh, -, htape, -⟩
    refine ⟨hh, ?_, by rintro e ⟨⟩⟩
    rintro k ⟨⟩
    rcases htape with htape | ⟨y, hy, htape⟩
    · exact htape ▸ hactive
    · exact (hn _ hy).tape _ (congrArg some htape)
  rcases run_construct_mixed_or_home R with hmixed | ⟨j, hhome⟩
  · refine ⟨hsafe, fun k _ => by rw [hmixed], fun e he => ?_⟩
    rw [hmixed] at he
    exact (Except.error.inj he).symm
  · have hj : K j := by
      by_cases hnone : ∀ y, .handle y ∉ n.operands
      · exact hhome.active_eq hnone ▸ hactive
      · obtain ⟨y, hy⟩ := not_forall_not.mp hnone
        exact (hn _ hy).tape _ (congrArg some (hhome.tape_eq y hy))
    obtain ⟨herror, hok⟩ := leaves_construct_home (R := R) hw hop hon hhome
    rcases hrun : (construct R n).run w with ⟨e | h, v⟩
    · -- no operand is unfit
      obtain ⟨before, -, ⟨-, after, hunfit⟩, -⟩ := herror e v hrun
      exact ((hn (.unfit e) (by rw [hunfit]; simp)).fit e rfl).elim
    · obtain ⟨-, _, _, _, -, -, -, happends⟩ := hok h v hrun
      refine ⟨hsafe, fun k hk => ?_, ?_⟩
      · rw [hrun]
        exact happends.others k fun hkj => hk (hkj ▸ hj)
      · rw [hrun]
        rintro e ⟨⟩

/-- Over leaves that are found on tapes in `K` building is confined to these. -/
theorem Term.confined_build {find : ν → Build α (Operand α)} (hactive : K w.active) (e : Term α ν)
    (he : e.Over fun l => ∀ v, v.Ready → w.Grows v → (find l).Confined K v fun x u => x.OnSome K u)
    (hv : v.Ready) (hwv : w.Grows v) :
    (e.build R find).Confined K v fun x u => x.OnSome K u := by
  rw [build_eq_fold]
  refine fold_induction_over (P := fun b : Build α (Operand α) => ∀ v, v.Ready → w.Grows v →
    b.Confined K v fun x u => x.OnSome K u) ?_ ?_ e he v hv hwv
  · intro x v hv _
    refine Build.confined_pure hv ⟨?_, ?_, ?_⟩ <;> rintro _ ⟨⟩
  · intro n hop hn v hv hwv
    have hnode : buildNode R n = n.mapM id >>= fun m => Operand.handle <$> construct R m := by
      cases n with
      | const x => cases hop
      | _ => simp [buildNode]
    rw [hnode]
    refine (Build.confined_mapM (fun _ _ _ hx => hx.grows) hn hv hwv).mapM.bind ?_
    rintro m u hu hvu ⟨hm, hoperands⟩
    have hu' : K u.active := by rwa [hvu.active_eq, hwv.active_eq]
    rw [← bind_pure_comp]
    refine (confined_construct hu hu' (hm ▸ hop) hoperands).bind fun h s hs _ hh => ?_
    exact Build.confined_pure hs hh

theorem Operand.confined_ensured (hw : w.Ready) (hactive : K w.active) {x : Operand α}
    (hx : x.OnSome K w) : x.ensured.Confined K w fun y v => (Operand.handle y).OnSome K v := by
  cases x with
  | handle y => exact Build.confined_pure hw hx
  | number a =>
    have hrun : (Operand.number a).ensured.run w =
        (.ok ⟨w.active, ((w.tape w.active).const a).2⟩, (w.onTape w.active (·.const a)).1) := rfl
    refine ⟨?_, fun k hk => ?_, fun e he => ?_⟩
    · refine (safe_makeConst hw a).imp ?_
      rintro y v hv hwv ⟨htape, hnode, -⟩
      refine ⟨?_, ?_, by rintro e ⟨⟩⟩
      · rintro z ⟨⟩
        rw [htape]
        exact ⟨hv.active_lt, Tape.lt_size hnode⟩
      · rintro k ⟨⟩
        rwa [htape, hwv.active_eq]
    · have hne : k ≠ w.active := by
        rintro rfl
        exact hk hactive
      rw [hrun]
      dsimp only
      exact Workspace.tape_onTape_ne (f := (·.const a)) hne
    · rw [hrun] at he
      dsimp only at he
      cases he
  | unfit e => exact (hx.fit e rfl).elim

end
end ScalarGraph
