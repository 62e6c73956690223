import ScalarGraph.Proofs.Graph.Gradient
import ScalarGraph.Proofs.Tape.Extraction

/-! # Programs of tapes

The program that is extracted and compiled from a consistent tape gives the values that solve
the equations of the tape itself, and with exact adjoints the derivatives there, whatever else
is on the tape.
-/
namespace ScalarGraph
variable {α : Type} [DecidableEq α] [Hashable α]

namespace Tape
variable {t : Tape α} {r : Nat} {secondary : List Nat}

theorem Valid.exists_operand (ht : t.Valid) {i : Nat} {n : Node α Nat} (hn : t.net i n) :
    ∀ c ∈ n.operands, ∃ m, t.net c m := fun c hc =>
  exists_node (Nat.lt_trans (ht.operand_lt hn c hc) (lt_size hn))

namespace Extracts
variable [Written α] {g : Graph α} {p : Program α} {C : Calculus α} {xs : Array α}

theorem exists_outputs {primary : Option Nat} (hg : t.Extracts primary secondary g) (ht : t.Valid)
    (hroots : ∀ i ∈ primary.toList ++ secondary, i < t.size) (hp : p.Compiles g) {V : Nat → α}
    (hV : t.net.Evaluates C.rules xs V) :
    ∃ out, p.run C xs = some out ∧ out.primary = primary.map V ∧ out.secondary = secondary.map V ∧
      out.gradient.size = max t.numInputs xs.size := by
  have hmaps : Net.Maps (t.index (primary.toList ++ secondary)) g.net t.net := hg.maps ht
  have hindex : ∀ i ∈ primary.toList ++ secondary,
      V (t.index (primary.toList ++ secondary) (t.name (primary.toList ++ secondary) i)) = V i :=
    fun i hi => congrArg V (index_name_root hi (hroots i hi))
  obtain ⟨out, hrun, hprimary, hsecondary, hsize⟩ := hp.exists_outputs hg.assembled.wellFormed
    (hmaps.evaluates hV) fun id k s hn => by
      have hk := ht.position_lt (hmaps hn)
      rw [hg.numInputs]
      omega
  refine ⟨out, hrun, ?_, ?_, ?_⟩
  · rw [hprimary, hg.primary_eq, Option.map_map]
    exact Option.map_congr fun i hi => hindex i (by simp [Option.mem_def.mp hi])
  · rw [hsecondary, hg.secondary_eq, List.map_map]
    exact List.map_congr_left fun i hi => hindex i (List.mem_append_right _ hi)
  · rw [hsize, hg.numInputs, Int.toNat_natCast]

theorem exists_run (hg : t.Extracts (some r) secondary g) (ht : t.Valid)
    (hroots : ∀ i ∈ r :: secondary, i < t.size) (hp : p.Compiles g) {V : Nat → α}
    (hV : t.net.Evaluates C.rules xs V) :
    ∃ out, p.run C xs = some out ∧ out.primary = some (V r) ∧ out.secondary = secondary.map V ∧
      out.gradient.size = max t.numInputs xs.size :=
  hg.exists_outputs ht hroots hp hV

theorem reads {primary : Option Nat} (hg : t.Extracts primary secondary g) (ht : t.Valid)
    (hp : p.Compiles g) :
    p.Reads t.net (t.index (primary.toList ++ secondary) ∘ p.name)
      (g.slot ∘ t.name (primary.toList ++ secondary)) where
  topological := hp.topological
  maps s n hn := by
    rw [← Node.map_map]
    exact hg.maps ht (hp.maps hn)
  inverse s hs := by
    obtain ⟨n, hn⟩ : ∃ n, p.net s n := ⟨_, Array.getElem?_eq_getElem hs⟩
    have hname := hp.maps hn
    rw [Graph.net, hg.nodes] at hname
    obtain ⟨i, hi, m, -, heq⟩ := mem_named.mp hname
    have hid : t.name (primary.toList ++ secondary) i = p.name s := (Prod.mk.inj heq).1
    simp only [Function.comp_apply]
    rw [← hid, index_name hi, hid, hp.slot_name hg.assembled.wellFormed hs]

theorem map_primary {primary : Option Nat} (hg : t.Extracts primary secondary g)
    (hroots : ∀ i ∈ primary.toList ++ secondary, i < t.size) (hp : p.Compiles g) :
    p.primary.map (t.index (primary.toList ++ secondary) ∘ p.name) = primary := by
  rw [← Option.map_map, hp.map_name_primary hg.assembled.wellFormed, hg.primary_eq, Option.map_map]
  refine (Option.map_congr fun i hi => ?_).trans Option.map_id'
  have hmem : i ∈ primary.toList ++ secondary := by simp [Option.mem_def.mp hi]
  exact index_name_root hmem (hroots i hmem)

/-- With adjoints that can be added in any order the gradient of a root does not depend on what other
roots are extracted with it. -/
theorem run_gradient_eq {primary : Option Nat} {secondary' : List Nat} {g' : Graph α} {p' : Program α}
    (hg : t.Extracts primary secondary g) (hg' : t.Extracts primary secondary' g') (ht : t.Valid)
    (hroots : ∀ i ∈ primary.toList ++ secondary, i < t.size)
    (hroots' : ∀ i ∈ primary.toList ++ secondary', i < t.size) (hp : p.Compiles g)
    (hp' : p'.Compiles g') (hsettings : p.settings = p'.settings) (hC : C.adjoints.Unordered)
    {V : Nat → α} (hV : t.net.Evaluates C.rules xs V) :
    (p.run C xs).map Outputs.gradient = (p'.run C xs).map Outputs.gradient := by
  have hw := hg.assembled.wellFormed
  have hw' := hg'.assembled.wellFormed
  refine (hg.reads ht hp).run_gradient_eq hC (hg'.reads ht hp') ht.ranked hsettings ?_ ?_
    (hp.primary_lt hw) (hp'.primary_lt hw') (hp.secondary_lt hw) (hp'.secondary_lt hw') hV
  · rw [hp.numInputs, hp'.numInputs, hg.numInputs, hg'.numInputs]
  · rw [hg.map_primary hroots hp, hg'.map_primary hroots' hp']

/-- With exact adjoints the gradient of a tape's program is the derivative of its root. -/
theorem gradient_eq [CommRing α] (hg : t.Extracts (some r) secondary g) (ht : t.Valid)
    (hr : r < t.size) (hp : p.Compiles g) (hC : C.adjoints.Exact) {V D : Nat → α}
    (hV : t.net.Evaluates C.rules xs V) {i : Nat} (hD : t.net.ChainRule C V i D) {out : Outputs α}
    (hrun : p.run C xs = some out) (hsize : out.gradient.size = max t.numInputs xs.size) :
    out.gradient.getD i 0 = D r := by
  have hmaps : Net.Maps (t.index (r :: secondary)) g.net t.net := hg.maps ht
  by_cases hi : i < max t.numInputs xs.size
  · have hgradient := hp.gradient_eq hg.assembled.wellFormed hC hg.primary_eq (hmaps.evaluates hV)
      (hmaps.chainRule hD) hrun (by rw [hg.numInputs]; omega)
    rw [Function.comp_apply] at hgradient
    rw [Array.getD_eq_getD_getElem?, hgradient]
    exact congrArg D (index_name_root List.mem_cons_self hr)
  · obtain ⟨n, hn⟩ := exists_node hr
    have hzero : D r = 0 := hD.eq_zero ht.ranked ht.exists_operand
      (fun j m hm _ hpos => by
        obtain ⟨s, rfl⟩ := Node.eq_input_of_position? hpos
        have hk := ht.position_lt hm
        omega) r n hn .refl
    rw [Array.getD_eq_getD_getElem?, Array.getElem?_eq_none (by omega), hzero]
    rfl

end Extracts
end Tape
end ScalarGraph
