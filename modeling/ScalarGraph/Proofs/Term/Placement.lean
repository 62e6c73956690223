import ScalarGraph.Derivative
import ScalarGraph.Proofs.Term.Meaning
import ScalarGraph.Proofs.Workspace.Vocabulary

/-! # Where terms are built

A node stands on the tape of the handles among its operands, and on the active tape where there are
none. So the tapes of the leaves of a term tell whether it can be built at all, and on which tape its result
stands, which need not be the active one. What the result means there is what the tree does.
-/
namespace ScalarGraph
variable {α β ν : Type}

/-- The tape that operands share whose tapes are `ls`, the active one where no operand has a tape.
Operands of different tapes share none. -/
def sharedPlace (active : Nat) (ls : List (Option Nat)) : Option Nat :=
  match ls.filterMap id with
  | [] => some active
  | k :: ks => if ks.all (· == k) then some k else none

theorem sharedPlace_eq_some {active k : Nat} {ls : List (Option Nat)}
    (hsame : ∀ j, some j ∈ ls → j = k) (hk : k = active ∨ some k ∈ ls) :
    sharedPlace active ls = some k := by
  unfold sharedPlace
  split
  · next hnil =>
    refine congrArg some (hk.resolve_right fun hmem => ?_).symm
    have hmem := mem_filterMap_id.mpr hmem
    rw [hnil] at hmem
    cases hmem
  · next j ks hcons =>
    have hall : ∀ i ∈ j :: ks, i = k := fun i hi => hsame i (mem_filterMap_id.mp (hcons ▸ hi))
    obtain rfl : j = k := hall j List.mem_cons_self
    exact if_pos (List.all_eq_true.mpr fun i hi => beq_iff_eq.mpr (hall i (List.mem_cons_of_mem _ hi)))

theorem of_sharedPlace_eq_some {active k : Nat} {ls : List (Option Nat)}
    (h : sharedPlace active ls = some k) :
    (∀ j, some j ∈ ls → j = k) ∧ (k = active ∨ some k ∈ ls) := by
  unfold sharedPlace at h
  split at h
  · next hnil =>
    refine ⟨fun j hj => ?_, .inl (Option.some.inj h).symm⟩
    have hmem := mem_filterMap_id.mpr hj
    rw [hnil] at hmem
    cases hmem
  · next i ks hcons =>
    split at h
    · next hall =>
      obtain rfl : i = k := Option.some.inj h
      have hsame : ∀ j ∈ i :: ks, j = i := List.forall_mem_cons.mpr
        ⟨rfl, fun j hj => beq_iff_eq.mp (List.all_eq_true.mp hall j hj)⟩
      refine ⟨fun j hj => hsame j (hcons ▸ mem_filterMap_id.mpr hj), .inr (mem_filterMap_id.mp ?_)⟩
      rw [hcons]
      exact List.mem_cons_self
    · cases h

theorem sharedPlace_eq_none {active i j : Nat} {ls : List (Option Nat)} (hi : some i ∈ ls)
    (hj : some j ∈ ls) (hne : i ≠ j) : sharedPlace active ls = none := by
  cases h : sharedPlace active ls with
  | none => rfl
  | some k =>
    have hsame := (of_sharedPlace_eq_some h).1
    exact absurd ((hsame i hi).trans (hsame j hj).symm) hne

def Node.place (active : Nat) : Node α (Option (Option Nat)) → Option (Option Nat)
  | const _ => some none
  | n => do return some (← sharedPlace active (← n.operands.mapM id))

/-- The tape that a term stands on, none for a number, from those of its leaves, where it can be built. -/
def Term.place (active : Nat) (leafPlace : ν → Option Nat) (e : Term α ν) : Option (Option Nat) :=
  e.fold (Node.place active) fun v => some (leafPlace v)

namespace Node
variable {active : Nat}

theorem place_eq {n : Node α (Option (Option Nat))} (hop : n.op.isTerminal = false) :
    n.place active = do return some (← sharedPlace active (← n.operands.mapM id)) := by
  cases n with
  | const v => cases hop
  | _ => rfl

theorem place_eq_none {n : Node α (Option (Option Nat))} (hop : n.op.isTerminal = false)
    (h : none ∈ n.operands) : n.place active = none := by
  rw [place_eq hop, mapM_eq_none h rfl]
  rfl

theorem place_map_some {n : Node α (Option Nat)} (hop : n.op.isTerminal = false) :
    (n.map some).place active = (sharedPlace active n.operands).map some := by
  rw [place_eq (by rwa [op_map]), operands_map, mapM_id_map_some, Option.bind_eq_bind, Option.bind_some]
  cases sharedPlace active n.operands <;> rfl

theorem place_debug (label : Text) (r : Option (Option Nat)) :
    (debug label r : Node α _).place active = r.map fun l => some (l.getD active) := by
  cases r with
  | none => rfl
  | some l => cases l <;> rfl

end Node

namespace Term

mutual
theorem fold_induction {f : Node α β → β} {leafMeaning : ν → β} {P : β → Prop}
    (hleaf : ∀ v, P (leafMeaning v)) (hnode : ∀ n : Node α β, (∀ b ∈ n.operands, P b) → P (f n)) :
    ∀ e : Term α ν, P (e.fold f leafMeaning)
  | leaf v => hleaf v
  | number x => hnode (.const x) (by simp [Node.operands])
  | unary o t => hnode (.unary o _) (by simpa [Node.operands] using fold_induction hleaf hnode t)
  | binary o t u => hnode (.binary o _ _) (by
      simpa [Node.operands] using ⟨fold_induction hleaf hnode t, fold_induction hleaf hnode u⟩)
  | select c t e => hnode (.select _ _ _) (by
      simpa [Node.operands] using ⟨fold_induction hleaf hnode c, fold_induction hleaf hnode t,
        fold_induction hleaf hnode e⟩)
  | nary o ts => hnode (.nary o _) (folds_induction hleaf hnode ts)
  | debug l t => hnode (.debug l _) (by simpa [Node.operands] using fold_induction hleaf hnode t)

theorem folds_induction {f : Node α β → β} {leafMeaning : ν → β} {P : β → Prop}
    (hleaf : ∀ v, P (leafMeaning v)) (hnode : ∀ n : Node α β, (∀ b ∈ n.operands, P b) → P (f n)) :
    ∀ ts : List (Term α ν), ∀ b ∈ folds f leafMeaning ts, P b
  | [] => by simp [folds]
  | t :: ts => List.forall_mem_cons.mpr ⟨fold_induction hleaf hnode t, folds_induction hleaf hnode ts⟩
end

theorem exists_place_of_active {active : Nat} {leafPlace : ν → Option Nat}
    (h : ∀ v, leafPlace v = none ∨ leafPlace v = some active) (e : Term α ν) :
    ∃ l, e.place active leafPlace = some l ∧ (l = none ∨ l = some active) := by
  refine fold_induction (P := fun r => ∃ l, r = some l ∧ (l = none ∨ l = some active))
    (fun v => ⟨leafPlace v, rfl, h v⟩) (fun n hn => ?_) e
  have hplaces : n.operands.mapM id = some (n.operands.map fun r => r.getD none) :=
    mapM_list_eq fun r hr => by
      obtain ⟨l, rfl, -⟩ := hn r hr
      rfl
  have hshared : sharedPlace active (n.operands.map fun r => r.getD none) = some active := by
    refine sharedPlace_eq_some (fun j hj => ?_) (.inl rfl)
    obtain ⟨r, hr, hrj⟩ := List.mem_map.mp hj
    obtain ⟨l, rfl, rfl | rfl⟩ := hn r hr
    · cases hrj
    · exact (Option.some.inj hrj).symm
  cases n with
  | const v => exact ⟨none, rfl, .inl rfl⟩
  | input k s => exact ⟨some active, rfl, .inr rfl⟩
  | _ =>
    refine ⟨some active, ?_, .inr rfl⟩
    rw [Node.place_eq rfl, hplaces, Option.bind_eq_bind, Option.bind_some, hshared]
    rfl

end Term

variable [DecidableEq α] [Hashable α] {f : Node α β → β} {R : Rules α} {w v : Workspace α}

theorem Workspace.lt_size_of_lt_tape {k i : Nat} (h : i < (w.tape k).size) : k < w.tapes.size := by
  by_contra hk
  rw [tape, Array.getD_eq_getD_getElem?, Array.getElem?_eq_none (by omega)] at h
  cases h

inductive Operand.Denotes (f : Node α β → β) (w : Workspace α) : Operand α → β → Prop where
  | handle {h : Handle} {b : β} (on : (Operand.handle h : Operand α).On w)
      (meaning : ∀ V, (w.tape h.tape).net.Solves f V → V h.index = b) : Denotes f w (.handle h) b
  | number (x : α) : Denotes f w (.number x) (f (.const x))

theorem Operand.Denotes.grows {x : Operand α} {b : β} (h : x.Denotes f w b) (hv : w.Grows v) :
    x.Denotes f v b := by
  cases h with
  | handle on meaning =>
    exact .handle (on.grows hv) fun V hV => meaning V ((hv.tape _).solves hV)
  | number x => exact .number x

theorem Operand.Denotes.on {x : Operand α} {b : β} (h : x.Denotes f w b) : x.On w := by
  cases h with
  | handle on meaning => exact on
  | number x =>
    rintro y ⟨⟩

theorem Operand.Denotes.meaning_eq {x : Operand α} {b : β} (h : x.Denotes f w b) (hv : w.Grows v) {k : Nat}
    (hk : ∀ y, x = .handle y → y.tape = k) {V : Nat → β} (hV : (v.tape k).net.Solves f V) :
    x.meaning f V = b := by
  cases h with
  | @handle y b on meaning =>
    obtain rfl := hk y rfl
    exact meaning V ((hv.tape _).solves hV)
  | number x => rfl

theorem run_sharedTape_eq (xs : List (Operand α)) : (sharedTape xs).run w =
    ((sharedPlace w.active (xs.map Operand.tape?)).elim (.error (.violation .mixedOperands)) .ok, w) := by
  unfold sharedTape sharedPlace
  rw [List.filterMap_map, Function.id_comp]
  cases xs.filterMap Operand.tape? with
  | nil => rfl
  | cons k ks =>
    dsimp only
    split <;> rfl

theorem run_construct_mixed {n : Node α (Operand α)}
    (h : sharedPlace w.active (n.operands.map Operand.tape?) = none) :
    (construct R n).run w = (.error (.violation .mixedOperands), w) := by
  refine Build.run_bind_error ?_
  rw [run_sharedTape_eq, h]
  rfl

/-- A constructor fails where its operands share no tape, and else gives a handle on that tape
which means what the node does. -/
theorem safe_construct_denotes (hw : w.Ready) (hf : R.Folds f) {n : Node α (Operand α)} {m : Node α β}
    (hop : n.op.isTerminal = false) (hsame : m.op = n.op)
    (hn : List.Forall₂ (Operand.Denotes f w) n.operands m.operands) :
    (construct R n).Safe w (sharedPlace w.active (n.operands.map Operand.tape?) = none) fun h v =>
      sharedPlace w.active (n.operands.map Operand.tape?) = some h.tape ∧ w.AddsNoInput v ∧
        (Operand.handle h).Denotes f v (f m) := by
  have hon : ∀ x ∈ n.operands, x.On w := fun x hx => by
    obtain ⟨b, -, hb⟩ := exists_of_forall₂ hn hx
    exact hb.on
  have hsafe := (safe_construct (f := f) hw hf hop hon).and (safe_construct_settles (R := R) f hw hop hon)
  refine (hsafe.weaken ?_).imp ?_
  · rintro (⟨y, z, hy, hz, hne⟩ | ⟨e, he⟩)
    · exact sharedPlace_eq_none (List.mem_map_of_mem hy) (List.mem_map_of_mem hz) hne
    · obtain ⟨b, -, hb⟩ := exists_of_forall₂ hn he
      cases hb
  · rintro h v - hwv ⟨⟨hon', hinput, hshared, hnode⟩, u, s, hsettles⟩
    refine ⟨sharedPlace_eq_some (fun j hj => ?_) (hshared.imp_right ?_), hinput, .handle hon' fun V hV => ?_⟩
    · obtain ⟨x, hx, hxj⟩ := List.mem_map.mp hj
      cases x with
      | handle y => exact (Option.some.inj hxj).symm.trans (hsettles.tape_eq y hx)
      | number a => cases hxj
      | unfit e => cases hxj
    · rintro ⟨y, hy, hyh⟩
      exact List.mem_map.mpr ⟨.handle y, hy, congrArg some hyh⟩
    · rw [hnode V hV]
      congr 1
      refine Node.ext_operands (by rw [Node.op_map, hsame]) ?_
      have htape : ∀ x ∈ n.operands, ∀ y, x = .handle y → y.tape = h.tape :=
        fun x hx y hy => hsettles.tape_eq y (hy ▸ hx)
      have hmeaning := ((List.forall₂_and_left _ _).mpr ⟨htape, hn⟩).imp fun _ _ hx =>
        hx.2.meaning_eq hwv hx.1 hV
      rwa [Node.operands_map, ← List.forall₂_eq_eq_eq, List.forall₂_map_left_iff]

theorem safe_handle_denotes {I : Workspace α → Prop} {active : Nat} (hw : w.Ready) (hi : I w)
    (hI : ∀ w v, I w → w.Grows v → w.AddsNoInput v → I v) (hactive : w.active = active)
    (hf : R.Folds f) {n : Node α (Operand α)} {m : Node α β} (hop : n.op.isTerminal = false)
    (hsame : m.op = n.op) (hn : List.Forall₂ (Operand.Denotes f w) n.operands m.operands) :
    (do return .handle (← construct R n) : Build α (Operand α)).Safe w
      ((n.map fun x => some x.tape?).place active = none) fun x v =>
        I v ∧ (n.map fun x => some x.tape?).place active = some x.tape? ∧ x.Denotes f v (f m) := by
  subst hactive
  have hplace : (n.map fun x => some x.tape?).place w.active =
      (sharedPlace w.active (n.operands.map Operand.tape?)).map some := by
    rw [← Node.operands_map, ← Node.place_map_some (by rwa [Node.op_map]), Node.map_map]
    rfl
  rw [hplace, Option.map_eq_none_iff]
  refine Build.Safe.bind (safe_construct_denotes hw hf hop hsame hn) ?_
  rintro h v hv hwv ⟨hshared, hinput, hh⟩
  exact Build.safe_pure hv ⟨hI w v hi hwv hinput, congrArg _ hshared, hh⟩

namespace Term

/-- As long as `I` holds of the workspace the tape `active` is the active one and every leaf is found in
its place with its meaning, and `I` holds on as long as no input is added. -/
structure Locates (R : Rules α) (f : Node α β → β) (find : ν → Build α (Operand α)) (active : Nat)
    (leafPlace : ν → Option Nat) (leafMeaning : ν → β) (I : Workspace α → Prop) : Prop where
  folds : R.Folds f
  active_eq : ∀ w, I w → w.active = active
  kept : ∀ w v, I w → w.Grows v → w.AddsNoInput v → I v
  found : ∀ l w, w.Ready → I w →
    (find l).Safe w False fun x v => I v ∧ x.tape? = leafPlace l ∧ x.Denotes f v (leafMeaning l)

variable {find : ν → Build α (Operand α)} {active : Nat} {leafPlace : ν → Option Nat}
  {leafMeaning : ν → β} {I : Workspace α → Prop}

mutual
/-- Building fails where the term has no place, and else gives an operand in its place that means what
the tree does. -/
theorem safe_build_denotes (h : Locates R f find active leafPlace leafMeaning I) :
    ∀ (e : Term α ν) (w : Workspace α), w.Ready → I w →
      (e.build R find).Safe w (e.place active leafPlace = none) fun x v => I v ∧
        e.place active leafPlace = some x.tape? ∧ x.Denotes f v (e.fold f leafMeaning)
  | leaf l, w, hw, hi => by
    rw [build, fold]
    refine ((h.found l w hw hi).weaken False.elim).imp ?_
    rintro x v - - ⟨hiv, hplace, hx⟩
    exact ⟨hiv, congrArg some hplace.symm, hx⟩
  | number x, w, hw, hi => by
    rw [build, fold]
    exact Build.safe_pure hw ⟨hi, rfl, .number x⟩
  | unary o t, w, hw, hi => by
    have hplace : (unary o t).place active leafPlace =
      (Node.unary o (t.place active leafPlace) : Node α _).place active := rfl
    rw [build, fold, hplace]
    refine Build.Safe.bind ((safe_build_denotes h t w hw hi).weaken fun ht =>
      Node.place_eq_none rfl (by simp [Node.operands, ht])) ?_
    intro x v hv hwv ⟨hiv, ht, hx⟩
    rw [ht]
    exact safe_handle_denotes hv hiv h.kept (h.active_eq v hiv) h.folds rfl rfl (.cons hx .nil)
  | binary o t u, w, hw, hi => by
    have hplace : (binary o t u).place active leafPlace =
      (Node.binary o (t.place active leafPlace) (u.place active leafPlace) : Node α _).place active := rfl
    rw [build, fold, hplace]
    refine Build.Safe.bind ((safe_build_denotes h t w hw hi).weaken fun ht =>
      Node.place_eq_none rfl (by simp [Node.operands, ht])) ?_
    intro x v hv hwv ⟨hiv, ht, hx⟩
    refine Build.Safe.bind ((safe_build_denotes h u v hv hiv).weaken fun hu =>
      Node.place_eq_none rfl (by simp [Node.operands, hu])) ?_
    intro y v' hv' hgrows ⟨hiv', hu, hy⟩
    rw [ht, hu]
    exact safe_handle_denotes hv' hiv' h.kept (h.active_eq v' hiv') h.folds rfl rfl
      (.cons (hx.grows hgrows) (.cons hy .nil))
  | select c t e, w, hw, hi => by
    have hplace : (select c t e).place active leafPlace =
      (Node.select (c.place active leafPlace) (t.place active leafPlace)
        (e.place active leafPlace) : Node α _).place active := rfl
    rw [build, fold, hplace]
    refine Build.Safe.bind ((safe_build_denotes h c w hw hi).weaken fun hc =>
      Node.place_eq_none rfl (by simp [Node.operands, hc])) ?_
    intro x v hv hwv ⟨hiv, hc, hx⟩
    refine Build.Safe.bind ((safe_build_denotes h t v hv hiv).weaken fun ht =>
      Node.place_eq_none rfl (by simp [Node.operands, ht])) ?_
    intro y v' hv' hgrows ⟨hiv', ht, hy⟩
    refine Build.Safe.bind ((safe_build_denotes h e v' hv' hiv').weaken fun he =>
      Node.place_eq_none rfl (by simp [Node.operands, he])) ?_
    intro z u hu hgrows' ⟨hiu, he, hz⟩
    rw [hc, ht, he]
    exact safe_handle_denotes hu hiu h.kept (h.active_eq u hiu) h.folds rfl rfl
      (.cons (hx.grows (hgrows.trans hgrows')) (.cons (hy.grows hgrows') (.cons hz .nil)))
  | nary o ts, w, hw, hi => by
    have hplace : (nary o ts).place active leafPlace =
      (Node.nary o (folds (Node.place active) (fun v => some (leafPlace v)) ts) :
        Node α _).place active := rfl
    rw [build, fold, hplace]
    refine Build.Safe.bind ((safe_buildAll_denotes h ts w hw hi).weaken fun hts =>
      Node.place_eq_none rfl hts) ?_
    intro xs v hv hwv ⟨hiv, hts, hxs⟩
    rw [hts]
    exact safe_handle_denotes hv hiv h.kept (h.active_eq v hiv) h.folds rfl rfl hxs
  | debug l t, w, hw, hi => by
    have hplace : (debug l t).place active leafPlace =
      (Node.debug l (t.place active leafPlace) : Node α _).place active := rfl
    rw [build, fold, hplace]
    refine Build.Safe.bind ((safe_build_denotes h t w hw hi).weaken fun ht =>
      Node.place_eq_none rfl (by simp [Node.operands, ht])) ?_
    intro x v hv hwv ⟨hiv, ht, hx⟩
    rw [ht]
    exact safe_handle_denotes hv hiv h.kept (h.active_eq v hiv) h.folds rfl rfl (.cons hx .nil)

theorem safe_buildAll_denotes (h : Locates R f find active leafPlace leafMeaning I) :
    ∀ (ts : List (Term α ν)) (w : Workspace α), w.Ready → I w →
      (buildAll R find ts).Safe w (none ∈ folds (Node.place active) (fun v => some (leafPlace v)) ts)
        fun xs v => I v ∧ folds (Node.place active) (fun v => some (leafPlace v)) ts =
          xs.map (fun x => some x.tape?) ∧ List.Forall₂ (Operand.Denotes f v) xs (folds f leafMeaning ts)
  | [], w, hw, hi => by
    rw [buildAll]
    exact Build.safe_pure hw ⟨hi, rfl, .nil⟩
  | t :: ts, w, hw, hi => by
    have hplaces : folds (Node.place active) (fun v => some (leafPlace v)) (t :: ts) =
        t.place active leafPlace :: folds (Node.place active) (fun v => some (leafPlace v)) ts := rfl
    rw [buildAll, hplaces]
    refine Build.Safe.bind ((safe_build_denotes h t w hw hi).weaken fun ht => by simp [ht]) ?_
    intro x v hv hwv ⟨hiv, ht, hx⟩
    refine Build.Safe.bind ((safe_buildAll_denotes h ts v hv hiv).weaken fun hts => by simp [hts]) ?_
    intro xs u hu hvu ⟨hiu, hts, hxs⟩
    exact Build.safe_pure hu ⟨hiu, by rw [ht, hts, List.map_cons], .cons (hx.grows hvu) hxs⟩
end

def rootTape (active : Nat) (leafPlace : ν → Option Nat) (e : Term α ν) : Option Nat :=
  (e.place active leafPlace).map (·.getD active)

omit [DecidableEq α] [Hashable α] in
theorem rootTape_of_active {active : Nat} {leafPlace : ν → Option Nat}
    (h : ∀ v, leafPlace v = none ∨ leafPlace v = some active) (e : Term α ν) :
    e.rootTape active leafPlace = some active := by
  obtain ⟨l, hplace, rfl | rfl⟩ := e.exists_place_of_active h <;> rw [rootTape, hplace] <;> rfl

theorem safe_root_denotes (h : Locates R f find active leafPlace leafMeaning I) (e : Term α ν)
    (hw : w.Ready) (hi : I w) :
    (e.build R find >>= Operand.ensured).Safe w (e.rootTape active leafPlace = none) fun y v => I v ∧
      e.rootTape active leafPlace = some y.tape ∧
      (Operand.handle y).Denotes f v (e.fold f leafMeaning) := by
  rw [rootTape, Option.map_eq_none_iff]
  refine Build.Safe.bind (safe_build_denotes h e w hw hi) ?_
  rintro x v hv - ⟨hiv, hplace, hx⟩
  rw [hplace]
  cases x with
  | handle y => exact Build.safe_pure hv ⟨hiv, rfl, hx⟩
  | unfit e => cases hx
  | number a =>
    have ha : e.fold f leafMeaning = f (.const a) := by
      generalize e.fold f leafMeaning = b at hx
      cases hx
      rfl
    refine (safe_makeConst hv a).imp ?_
    rintro y u hu hvu ⟨htape, hnode, hinput⟩
    have hactive : u.active = active := hvu.active_eq.trans (h.active_eq v hiv)
    rw [← htape] at hnode
    refine ⟨h.kept v u hiv hvu hinput, congrArg some (htape.trans hactive).symm, .handle ?_ fun V hV => ?_⟩
    · rintro z ⟨⟩
      exact ⟨Workspace.lt_size_of_lt_tape (Tape.lt_size hnode), Tape.lt_size hnode⟩
    · rw [ha]
      exact hV _ _ hnode

end Term
end ScalarGraph
