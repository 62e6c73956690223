import ScalarGraph.Proofs.Term.Placement

/-! # What a constructor leaves behind

A constructor works on the tape of the handles among its operands and leaves all others alone. The numbers
before the first operand that is unfit are constants there when it fails; when it succeeds all of
them are, and behind them at most the node of the result is added.
-/
namespace ScalarGraph
variable {α : Type} [DecidableEq α] [Hashable α]

/-- From `w` to `v` the arena of tape `k` gains these nodes at its end, and nothing else changes on
any tape. -/
structure Workspace.Appends (w v : Workspace α) (k : Nat) (ns : List (Node α Nat)) : Prop where
  nodes : (v.tape k).nodes.toList = (w.tape k).nodes.toList ++ ns
  others : ∀ j, j ≠ k → v.tape j = w.tape j

namespace Workspace
variable {w v u : Workspace α} {k : Nat} {ns ms : List (Node α Nat)}

theorem Appends.refl (w : Workspace α) (k : Nat) : w.Appends w k [] :=
  ⟨(List.append_nil _).symm, fun _ _ => rfl⟩

theorem Appends.trans (h : w.Appends v k ns) (h' : v.Appends u k ms) : w.Appends u k (ns ++ ms) where
  nodes := by rw [h'.nodes, h.nodes, List.append_assoc]
  others j hj := (h'.others j hj).trans (h.others j hj)

theorem Appends.extends (h : w.Appends v k ns) (j : Nat) : (w.tape j).Extends (v.tape j) := by
  by_cases hj : j = k
  · subst hj
    exact ⟨ns, h.nodes.symm⟩
  · rw [h.others j hj]
    exact .refl _

theorem exists_appends_onTape {f : Tape α → Tape α × Nat} {n : Node α Nat} (hk : k < w.tapes.size)
    (h : (w.tape k).Provides n (f (w.tape k))) :
    ∃ ns, ns.Sublist [n] ∧ w.Appends (w.onTape k f).1 k ns := by
  have hothers : ∀ j, j ≠ k → (w.onTape k f).1.tape j = w.tape j := fun j hj => tape_onTape_ne hj
  rcases h.found_or_appended with hfound | ⟨happended, -⟩
  · refine ⟨[], List.nil_sublist _, ?_, hothers⟩
    rw [tape_onTape hk, hfound, List.append_nil]
  · refine ⟨[n], List.Sublist.refl _, ?_, hothers⟩
    rw [tape_onTape hk, happended, Array.toList_push]

end Workspace

namespace Operand

def number? : Operand α → Option α
  | number x => some x
  | _ => none

def constants (xs : List (Operand α)) : List (Node α Nat) := (xs.filterMap number?).map .const

/-- The operands up to the first one that is unfit, which has this fault. -/
def Before (xs : List (Operand α)) (e : Fault) (before : List (Operand α)) : Prop :=
  (∀ f, unfit f ∉ before) ∧ ∃ after, xs = before ++ unfit e :: after

/-- Handles that are all on tape `k`, or none, and then this is the active tape. -/
structure Home (w : Workspace α) (xs : List (Operand α)) (k : Nat) : Prop where
  tape_eq : ∀ y, handle y ∈ xs → y.tape = k
  active_eq : (∀ y, handle y ∉ xs) → k = w.active

theorem Home.sharedPlace_eq {w : Workspace α} {xs : List (Operand α)} {k : Nat} (h : Home w xs k) :
    sharedPlace w.active (xs.map tape?) = some k := by
  apply sharedPlace_eq_some
  · intro j hj
    obtain ⟨x, hx, hxj⟩ := List.mem_map.mp hj
    cases x with
    | handle y => exact (Option.some.inj hxj).symm.trans (h.tape_eq y hx)
    | number a => cases hxj
    | unfit e => cases hxj
  · by_cases hnone : ∀ y, handle y ∉ xs
    · exact .inl (h.active_eq hnone)
    · obtain ⟨y, hy⟩ := not_forall_not.mp hnone
      exact .inr (List.mem_map.mpr ⟨handle y, hy, congrArg some (h.tape_eq y hy)⟩)

theorem Home.lt_size {w : Workspace α} {xs : List (Operand α)} {k : Nat} (h : Home w xs k)
    (hw : w.Ready) (hxs : ∀ x ∈ xs, x.On w) : k < w.tapes.size := by
  by_cases hnone : ∀ y, handle y ∉ xs
  · exact h.active_eq hnone ▸ hw.active_lt
  · obtain ⟨y, hy⟩ := not_forall_not.mp hnone
    exact h.tape_eq y hy ▸ (hxs _ hy y rfl).1

end Operand

section
variable {w : Workspace α} {k : Nat}

structure Promoted (w : Workspace α) (xs : List (Operand α)) (k : Nat) (r : Except Fault (List Nat))
    (v : Workspace α) : Prop where
  of_ok : ∀ is, r = .ok is → ∃ ns, ns.Sublist (Operand.constants xs) ∧ w.Appends v k ns
  of_error : ∀ e, r = .error e → ∃ before ns, Operand.Before xs e before ∧
    ns.Sublist (Operand.constants before) ∧ w.Appends v k ns

theorem Promoted.cons {x : Operand α} {xs : List (Operand α)} {v u : Workspace α} {ms : List (Node α Nat)}
    {i : Nat} {r : Except Fault (List Nat)} (hx : ∀ e, x ≠ .unfit e)
    (hms : ms.Sublist (Operand.constants [x])) (hwv : w.Appends v k ms) (h : Promoted v xs k r u) :
    Promoted w (x :: xs) k (r.map (i :: ·)) u := by
  have hconstants : ∀ ys : List (Operand α),
      Operand.constants (x :: ys) = Operand.constants [x] ++ Operand.constants ys := by
    intro ys
    rw [Operand.constants, Operand.constants, Operand.constants, ← List.map_append, ← List.filterMap_append]
    rfl
  constructor
  · intro is his
    cases r with
    | error e => cases his
    | ok js =>
      obtain ⟨ns, hns, hvu⟩ := h.of_ok js rfl
      refine ⟨ms ++ ns, ?_, hwv.trans hvu⟩
      rw [hconstants]
      exact hms.append hns
  · intro e he
    cases r with
    | ok js => cases he
    | error e' =>
      cases he
      obtain ⟨before, ns, ⟨hfit, after, rfl⟩, hns, hvu⟩ := h.of_error e rfl
      refine ⟨x :: before, ms ++ ns, ⟨?_, after, rfl⟩, ?_, hwv.trans hvu⟩
      · intro f hf
        rcases List.mem_cons.mp hf with hf | hf
        · exact hx f hf.symm
        · exact hfit f hf
      · rw [hconstants]
        exact hms.append hns

/-- Operands are promoted from left to right, up to the first one that is unfit. -/
theorem promoted_mapM (hw : w.Ready) (hk : k < w.tapes.size) (xs : List (Operand α)) :
    Promoted w xs k ((xs.mapM (Operand.promote k)).run w).1 ((xs.mapM (Operand.promote k)).run w).2 := by
  induction xs generalizing w with
  | nil =>
    constructor
    · exact fun _ _ => ⟨[], List.Sublist.refl _, .refl w k⟩
    · rintro e ⟨⟩
  | cons x xs ih =>
    rw [List.mapM_cons]
    cases x with
    | handle y =>
      have hrun : ((Operand.handle y).promote k).run w = (.ok y.index, w) := rfl
      rw [Build.run_bind_ok hrun, bind_pure_comp, Build.run_map]
      exact (ih hw hk).cons (by simp) (List.nil_sublist _) (.refl w k)
    | number a =>
      have hprovides := (hw.valid k).provides_const a
      obtain ⟨ms, hms, happends⟩ := Workspace.exists_appends_onTape (f := (·.const a)) hk hprovides
      have hrun : ((Operand.number a).promote k).run w =
          (.ok ((w.tape k).const a).2, (w.onTape k (·.const a)).1) := rfl
      rw [Build.run_bind_ok hrun, bind_pure_comp, Build.run_map]
      have hrest := ih (hw.onTape (f := (·.const a)) hk hprovides) (by rwa [Workspace.size_onTape])
      exact hrest.cons (by simp) hms happends
    | unfit f =>
      have hrun : ((Operand.unfit f).promote k).run w = (.error f, w) := rfl
      rw [Build.run_bind_error hrun]
      constructor
      · rintro is ⟨⟩
      · rintro e ⟨⟩
        exact ⟨[], [], ⟨by simp, xs, rfl⟩, List.Sublist.refl _, .refl w k⟩

theorem Build.operands_of_run_mapM {ι κ : Type} (g : ι → Build α κ) (n : Node α ι) (w : Workspace α) :
    ((n.mapM g).run w).1.map Node.operands = ((n.operands.mapM g).run w).1 := by
  have hresult := (run_some_mapM g n w).1
  cases hn : ((n.mapM g).run w).1 with
  | error e =>
    rw [hn] at hresult
    cases hlist : ((n.operands.mapM g).run w).1 with
    | error e' =>
      rw [hlist] at hresult
      cases hresult
      rfl
    | ok ys =>
      rw [hlist] at hresult
      cases hresult
  | ok m =>
    rw [hn] at hresult
    cases hlist : ((n.operands.mapM g).run w).1 with
    | error e' =>
      rw [hlist] at hresult
      cases hresult
    | ok ys =>
      rw [hlist] at hresult
      exact congrArg Except.ok (Node.of_node?_eq_some (Except.ok.inj hresult).symm).2

theorem promoted_node (hw : w.Ready) (hk : k < w.tapes.size) (n : Node α (Operand α)) :
    Promoted w n.operands k (((n.mapM (Operand.promote k)).run w).1.map Node.operands)
      ((n.mapM (Operand.promote k)).run w).2 := by
  rw [Build.operands_of_run_mapM, (Build.run_some_mapM (Operand.promote k) n w).2]
  exact promoted_mapM hw hk n.operands

/-- What a call on some operands leaves behind, with the result `r`, in `v`. Handles of different tapes are
a violation, which changes nothing. Where the operands have one tape, a call that fails changes nothing
or has made constants there of numbers before the first unfit operand, whose fault it gives; and a call that
succeeds gives a handle on that tape, which has gained at most constants for the numbers and the node of
the handle. -/
structure Leaves (w : Workspace α) (xs : List (Operand α)) (r : Except Fault Handle) (v : Workspace α) :
    Prop where
  mixed : ∀ y z, .handle y ∈ xs → .handle z ∈ xs → y.tape ≠ z.tape →
    (∃ e, r = .error (.violation e)) ∧ v = w
  of_error : ∀ k, Operand.Home w xs k → ∀ e, r = .error e → v = w ∨ ∃ before ns,
    Operand.Before xs e before ∧ ns.Sublist (Operand.constants before) ∧ w.Appends v k ns
  of_ok : ∀ k, Operand.Home w xs k → ∀ h, r = .ok h → h.tape = k ∧ ∃ ns n ms,
    ns.Sublist (Operand.constants xs) ∧ (v.tape k).nodes[h.index]? = some n ∧ ms.Sublist [n] ∧
      w.Appends v k (ns ++ ms)

theorem Operand.exists_home (w : Workspace α) {xs : List (Operand α)}
    (h : ∀ y z, .handle y ∈ xs → .handle z ∈ xs → y.tape = z.tape) : ∃ k, Operand.Home w xs k := by
  by_cases hnone : ∀ y, .handle y ∉ xs
  · exact ⟨w.active, fun y hy => absurd hy (hnone y), fun _ => rfl⟩
  · obtain ⟨y, hy⟩ := not_forall_not.mp hnone
    exact ⟨y.tape, fun z hz => h z y hz hy, fun hnone => absurd hy (hnone y)⟩

theorem Leaves.extends {xs : List (Operand α)} {r : Except Fault Handle} {v : Workspace α}
    (h : Leaves w xs r v) (j : Nat) : (w.tape j).Extends (v.tape j) := by
  by_cases hmixed : ∃ y z, .handle y ∈ xs ∧ .handle z ∈ xs ∧ y.tape ≠ z.tape
  · obtain ⟨y, z, hy, hz, hne⟩ := hmixed
    rw [(h.mixed y z hy hz hne).2]
    exact .refl _
  · obtain ⟨k, hk⟩ := Operand.exists_home w fun y z hy hz => by
      by_contra hne
      exact hmixed ⟨y, z, hy, hz, hne⟩
    cases r with
    | error e =>
      rcases h.of_error k hk e rfl with rfl | ⟨before, ns, -, -, happends⟩
      · exact .refl _
      · exact happends.extends j
    | ok y =>
      obtain ⟨-, ns, n, ms, -, -, -, happends⟩ := h.of_ok k hk y rfl
      exact happends.extends j

theorem appends_settle {R : Rules α} {v : Workspace α} (hv : v.Ready) (hk : k < v.tapes.size)
    {m : Node α Nat} (hop : m.op.isTerminal = false) (hm : ∀ c ∈ m.operands, c < (v.tape k).size) :
    ∃ n ms, ms.Sublist [n] ∧ v.Appends (v.onTape k (·.settle R m)).1 k ms ∧
      ((v.onTape k (·.settle R m)).1.tape k).nodes[((v.tape k).settle R m).2]? = some n := by
  obtain ⟨n, -, hprovides⟩ := (hv.valid k).exists_provides_settle R hop hm
  obtain ⟨ms, hms, happends⟩ := Workspace.exists_appends_onTape (f := (·.settle R m)) hk hprovides
  refine ⟨n, ms, hms, happends, ?_⟩
  rw [Workspace.tape_onTape hk]
  exact hprovides.node

/-- What promoting the operands leaves behind, and then settling the node. -/
theorem leaves_construct_home {R : Rules α} (hw : w.Ready) {n : Node α (Operand α)}
    (hop : n.op.isTerminal = false) (hn : ∀ x ∈ n.operands, x.On w) (hhome : Operand.Home w n.operands k) :
    (∀ e v, (construct R n).run w = (.error e, v) → ∃ before ns, Operand.Before n.operands e before ∧
      ns.Sublist (Operand.constants before) ∧ w.Appends v k ns) ∧
    ∀ h v, (construct R n).run w = (.ok h, v) → h.tape = k ∧ ∃ ns m ms,
      ns.Sublist (Operand.constants n.operands) ∧ (v.tape k).nodes[h.index]? = some m ∧
        ms.Sublist [m] ∧ w.Appends v k (ns ++ ms) := by
  have hk : k < w.tapes.size := hhome.lt_size hw hn
  have hshared : (sharedTape n.operands).run w = (.ok k, w) := by
    rw [run_sharedTape_eq, hhome.sharedPlace_eq]
    rfl
  have hconstruct : (construct R n).run w = (do
      let m ← n.mapM (Operand.promote k)
      return ⟨k, ← Build.onTape k (·.settle R m)⟩ : Build α Handle).run w := by
    unfold construct
    rw [Build.run_bind_ok hshared]
  have hpromoted := promoted_node hw hk n
  have hsafe := (safe_promoteAll (f := fun _ => ()) hw hk hn hhome.tape_eq).mapM
  rw [hconstruct]
  rcases hm : (n.mapM (Operand.promote k)).run w with ⟨e | m, u⟩
  · rw [hm] at hpromoted
    rw [Build.run_bind_error hm]
    constructor
    · rintro e' v ⟨⟩
      exact hpromoted.of_error e rfl
    · rintro h v ⟨⟩
  · obtain ⟨hmop, hlt, -⟩ := hsafe.of_ok m (by rw [hm])
    have hu := hsafe.ready
    have hgrows := hsafe.grows
    rw [hm] at hpromoted hlt hu hgrows
    obtain ⟨ns, hns, hwu⟩ := hpromoted.of_ok m.operands rfl
    obtain ⟨a, ms, hms, huv, ha⟩ := appends_settle (R := R) hu (by rwa [hgrows.size_eq])
      (by rw [hmop, hop]) hlt
    rw [Build.run_bind_ok hm]
    constructor
    · rintro e v ⟨⟩
    · rintro h v ⟨⟩
      exact ⟨rfl, ns, a, ms, hns, ha, hms, hwu.trans huv⟩

theorem leaves_construct {R : Rules α} (hw : w.Ready) {n : Node α (Operand α)}
    (hop : n.op.isTerminal = false) (hn : ∀ x ∈ n.operands, x.On w) :
    Leaves w n.operands ((construct R n).run w).1 ((construct R n).run w).2 where
  mixed y z hy hz hne := by
    have hnone : sharedPlace w.active (n.operands.map Operand.tape?) = none :=
      sharedPlace_eq_none (List.mem_map_of_mem hy) (List.mem_map_of_mem hz) hne
    rw [run_construct_mixed hnone]
    exact ⟨⟨_, rfl⟩, rfl⟩
  of_error k hk e he := .inr ((leaves_construct_home hw hop hn hk).1 e _ (Prod.ext he rfl))
  of_ok k hk h hh := (leaves_construct_home hw hop hn hk).2 h _ (Prod.ext hh rfl)

theorem leaves_of_error {xs : List (Operand α)} {e : Fault}
    (hmixed : ∀ y z, .handle y ∈ xs → .handle z ∈ xs → y.tape ≠ z.tape → ∃ v, e = .violation v) :
    Leaves w xs (.error e) w where
  mixed y z hy hz hne := by
    obtain ⟨v, rfl⟩ := hmixed y z hy hz hne
    exact ⟨⟨v, rfl⟩, rfl⟩
  of_error _ _ _ _ := .inl rfl
  of_ok := by rintro k - h ⟨⟩

/-- A request that fails changes nothing, and one that succeeds adds its node at most. It takes no handle. -/
theorem leaves_perform [Written α] {β : Type} [Written β] (hw : w.Ready) (q : Request α β)
    {xs : List (Operand α)} (hmixed : ∀ y z, .handle y ∈ xs → .handle z ∈ xs → y = z)
    (hxs : ∀ h, (q.perform.run w).1 = .ok h → ∀ y, .handle y ∉ xs) :
    Leaves w xs (q.perform.run w).1 (q.perform.run w).2 := by
  rcases q.perform_cases hw with ⟨f, hrun⟩ | ⟨n, r, hprovides, hrun⟩
  · rw [hrun]
    apply leaves_of_error
    intro y z hy hz hne
    exact absurd (congrArg Handle.tape (hmixed y z hy hz)) hne
  · rw [hrun] at hxs ⊢
    have hnone : ∀ y, .handle y ∉ xs := hxs _ rfl
    constructor
    · exact fun y _ hy => absurd hy (hnone y)
    · rintro k - e ⟨⟩
    · rintro k hk h ⟨⟩
      obtain rfl := hk.active_eq hnone
      obtain ⟨ms, hms, happends⟩ := Workspace.exists_appends_onTape (f := fun _ => r) hw.active_lt hprovides
      refine ⟨rfl, [], n, ms, List.nil_sublist _, ?_, hms, happends⟩
      rw [Workspace.tape_onTape hw.active_lt]
      exact hprovides.node

end
end ScalarGraph
