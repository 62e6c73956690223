import ScalarGraph.Proofs.Node
import ScalarGraph.Text

/-! # Numbers as texts

The digits of a number are read back as that number, so different numbers have
different digits.
-/
namespace ScalarGraph

theorem CodePoint.digit?_ofNat {d : Nat} (hd : d < 10) : (CodePoint.ofNat (48 + d)).digit? = some d := by
  have hlt : 48 + d < 0x110000 := by omega
  simp only [ofNat, dif_pos hlt, digit?]
  rw [if_pos (by omega), Nat.add_sub_cancel_left]

theorem CodePoint.is_iff {c : CodePoint} {d : Char} : c.is d = true ↔ c.value = d.toNat := by
  unfold CodePoint.is
  exact beq_iff_eq

namespace Text

def ofDigits (ds : List Nat) : Nat := ds.foldl (fun n d => 10 * n + d) 0

theorem ofDigits_append_singleton (ds : List Nat) (d : Nat) :
    ofDigits (ds ++ [d]) = 10 * ofDigits ds + d := by
  simp [ofDigits]

theorem mapM_digit?_ofNatBefore (n : Nat) (rest : Text) : ∃ ds, ofDigits ds = n ∧
    (ofNatBefore n rest).mapM CodePoint.digit? = (rest.mapM CodePoint.digit?).map (ds ++ ·) := by
  fun_induction ofNatBefore n rest with
  | case1 n rest digit hn =>
    refine ⟨[n % 10], ?_, ?_⟩
    · simp [ofDigits, Nat.mod_eq_of_lt hn]
    · rw [List.mapM_cons, CodePoint.digit?_ofNat (Nat.mod_lt n (by decide))]
      cases rest.mapM CodePoint.digit? <;> rfl
  | case2 n rest digit hn ih =>
    obtain ⟨ds, hds, hmap⟩ := ih
    refine ⟨ds ++ [n % 10], ?_, ?_⟩
    · rw [ofDigits_append_singleton, hds]
      exact Nat.div_add_mod n 10
    · rw [hmap, List.mapM_cons, CodePoint.digit?_ofNat (Nat.mod_lt n (by decide))]
      cases rest.mapM CodePoint.digit? <;> simp

theorem natural?_ofNat (n : Nat) : natural? (ofNat n) = some n := by
  obtain ⟨ds, hds, hmap⟩ := mapM_digit?_ofNatBefore n []
  have hdigits : (ofNat n).mapM CodePoint.digit? = some ds := by
    rw [ofNat, hmap]
    simp
  simp only [natural?, hdigits]
  rw [show ds.foldl (fun n d => 10 * n + d) 0 = n from hds, if_pos rfl]

theorem ofNat_injective {m n : Nat} (h : ofNat m = ofNat n) : m = n := by
  have hm := natural?_ofNat m
  rw [h, natural?_ofNat] at hm
  exact (Option.some.inj hm).symm

end Text
end ScalarGraph
