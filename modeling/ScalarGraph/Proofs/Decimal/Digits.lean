import Mathlib.Data.List.Induction
import Mathlib.Tactic.Ring
import ScalarGraph.Decimal.Notation
import ScalarGraph.Decimal.Reading
import ScalarGraph.Proofs.Text

/-! # Runs of digits

The digits of a number are read to their end, and together they stand for the number again.
-/
namespace ScalarGraph.Decimal

def Digits (t : Text) : Prop := ∀ c ∈ t, c.digit?.isSome = true

def values (t : Text) : List Nat := t.filterMap CodePoint.digit?

def NoDigit (t : Text) : Prop := ∀ c ∈ t.head?, c.digit? = none

section
variable {s t rest : Text}

theorem values_append (s t : Text) : values (s ++ t) = values s ++ values t := List.filterMap_append

theorem Digits.append (hs : Digits s) (ht : Digits t) : Digits (s ++ t) := by
  intro c hc
  rcases List.mem_append.mp hc with hc | hc
  · exact hs c hc
  · exact ht c hc

theorem Digits.take (h : Digits t) (k : Nat) :
    Digits (t.take k) := fun c hc => h c (List.mem_of_mem_take hc)

theorem Digits.drop (h : Digits t) (k : Nat) :
    Digits (t.drop k) := fun c hc => h c (List.mem_of_mem_drop hc)

theorem Digits.length_values (h : Digits t) : (values t).length = t.length := by
  unfold values
  rw [List.length_filterMap_eq_countP, List.countP_eq_length]
  exact h

theorem spanDigits_append (ht : Digits t) (hrest : NoDigit rest) :
    spanDigits (t ++ rest) = (values t, rest) := by
  have hstop : rest.takeWhile (·.digit?.isSome) = [] ∧ rest.dropWhile (·.digit?.isSome) = rest := by
    cases rest with
    | nil => exact ⟨rfl, rfl⟩
    | cons c rest =>
      have hc : ¬ c.digit?.isSome = true := by
        rw [hrest c rfl]
        decide
      exact ⟨List.takeWhile_cons_of_neg hc, List.dropWhile_cons_of_neg hc⟩
  unfold spanDigits
  rw [List.takeWhile_append_of_pos ht, List.dropWhile_append_of_pos ht, hstop.1, hstop.2, List.append_nil]
  rfl

end

theorem ofDigits_append (ds es : List Nat) :
    ofDigits (ds ++ es) = ofDigits ds * 10 ^ es.length + ofDigits es := by
  induction es using List.reverseRecOn with
  | nil => simp [ofDigits]
  | append_singleton es e ih =>
    have hsnoc (xs : List Nat) : ofDigits (xs ++ [e]) = 10 * ofDigits xs + e := by
      simp [ofDigits]
    rw [← List.append_assoc, hsnoc, hsnoc, ih, List.length_append, List.length_singleton, Nat.pow_succ]
    ring

theorem ofDigits_zero_cons (ds : List Nat) : ofDigits (0 :: ds) = ofDigits ds := by
  have hzero : ofDigits [0] = 0 := rfl
  rw [← List.singleton_append, ofDigits_append, hzero, Nat.zero_mul, Nat.zero_add]

theorem ofDigits_replicate_zero (k : Nat) : ofDigits (List.replicate k 0) = 0 := by
  induction k with
  | zero => rfl
  | succ k ih => rw [List.replicate_succ, ofDigits_zero_cons, ih]

theorem digits_zeros (k : Nat) : Digits (zeros k) := by
  intro c hc
  rw [List.eq_of_mem_replicate hc]
  rfl

theorem values_zeros (k : Nat) : values (zeros k) = List.replicate k 0 := by
  unfold values zeros Text.fill
  exact List.filterMap_replicate_of_some rfl

theorem digits_ofNat (n : Nat) : Digits (Text.ofNat n) ∧ ofDigits (values (Text.ofNat n)) = n := by
  obtain ⟨ds, hds, hmap⟩ := Text.mapM_digit?_ofNatBefore n []
  have hsome : (Text.ofNat n).mapM CodePoint.digit? = some ds := by
    rw [Text.ofNat, hmap]
    simp
  have hall := of_list_mapM_eq_some hsome
  constructor
  · intro c hc
    have hmem : c.digit? ∈ ds.map some := hall ▸ List.mem_map_of_mem hc
    obtain ⟨d, -, hd⟩ := List.mem_map.mp hmem
    rw [← hd]
    rfl
  · have hvalues : values (Text.ofNat n) = ds := by
      calc values (Text.ofNat n) = ((Text.ofNat n).map CodePoint.digit?).filterMap id := by
            rw [List.filterMap_map]
            rfl
        _ = (ds.map some).filterMap id := by rw [hall]
        _ = ds := by
            rw [List.filterMap_map]
            exact List.filterMap_some
    rw [hvalues]
    exact hds

theorem digits_digitsOf (width n : Nat) :
    Digits (digitsOf width n) ∧ ofDigits (values (digitsOf width n)) = n := by
  refine ⟨(digits_zeros _).append (digits_ofNat n).1, ?_⟩
  unfold digitsOf
  rw [values_append, ofDigits_append, values_zeros, ofDigits_replicate_zero, (digits_ofNat n).2,
    Nat.zero_mul, Nat.zero_add]

theorem le_length_digitsOf (width n : Nat) : width ≤ (digitsOf width n).length := by
  unfold digitsOf zeros Text.fill
  rw [List.length_append, List.length_replicate]
  omega

theorem ofNatBefore_eq_cons {n : Nat} (hn : 0 < n) (rest : Text) :
    ∃ d t, 0 < d ∧ d < 10 ∧ Text.ofNatBefore n rest = .ofNat (48 + d) :: t := by
  fun_induction Text.ofNatBefore n rest with
  | case1 n rest digit h =>
    refine ⟨n % 10, rest, ?_, ?_, rfl⟩
    · omega
    · omega
  | case2 n rest digit h ih => exact ih (by omega)

theorem length_ofNatBefore_le {k : Nat} : ∀ {n : Nat} (rest : Text), n < 10 ^ (k + 1) →
    (Text.ofNatBefore n rest).length ≤ k + 1 + rest.length := by
  induction k with
  | zero =>
    intro n rest hn
    unfold Text.ofNatBefore
    rw [if_pos (by omega), List.length_cons]
    omega
  | succ k ih =>
    intro n rest hn
    unfold Text.ofNatBefore
    simp only []
    split
    · rw [List.length_cons]
      omega
    · have hdiv : n / 10 < 10 ^ (k + 1) := Nat.div_lt_of_lt_mul (by rw [← Nat.pow_succ']; exact hn)
      have hlen := ih (.ofNat (48 + n % 10) :: rest) hdiv
      rw [List.length_cons] at hlen
      omega

theorem lt_of_mem_values {t : Text} {d : Nat} (h : d ∈ values t) : d < 10 := by
  obtain ⟨c, -, hc⟩ := List.mem_filterMap.mp h
  unfold CodePoint.digit? at hc
  split at hc
  · cases hc
    omega
  · cases hc

theorem ofDigits_values_lt (t : Text) : ofDigits (values t) < 10 ^ (values t).length := by
  have hlt : ∀ d ∈ values t, d < 10 := fun d hd => lt_of_mem_values hd
  generalize values t = ds at hlt
  induction ds using List.reverseRecOn with
  | nil => exact Nat.one_pos
  | append_singleton ds d ih =>
    have hds := ih fun e he => hlt e (List.mem_append_left _ he)
    have hd := hlt d (by simp)
    have hsingle : ofDigits [d] = d := by simp [ofDigits]
    rw [ofDigits_append, hsingle, List.length_append, List.length_singleton, Nat.pow_succ]
    omega

/-- So many digits write the numbers below this power of ten. -/
theorem length_ofNat_le_iff {k n : Nat} (hk : 0 < k) : (Text.ofNat n).length ≤ k ↔ n < 10 ^ k := by
  obtain ⟨hdigits, hvalue⟩ := digits_ofNat n
  constructor
  · intro hlength
    calc n = ofDigits (values (Text.ofNat n)) := hvalue.symm
      _ < 10 ^ (Text.ofNat n).length := by
          rw [← hdigits.length_values]
          exact ofDigits_values_lt _
      _ ≤ 10 ^ k := Nat.pow_le_pow_right (by decide) hlength
  · intro hn
    obtain ⟨j, rfl⟩ := Nat.exists_eq_add_one_of_ne_zero (Nat.ne_of_gt hk)
    exact length_ofNatBefore_le [] hn

theorem ofNat_eq_cons {n : Nat} (hn : 0 < n) : ∃ c t, Text.ofNat n = c :: t ∧ c.is '0' = false := by
  obtain ⟨d, t, hd, hlt, htext⟩ := ofNatBefore_eq_cons hn []
  refine ⟨_, t, htext, ?_⟩
  rw [Bool.eq_false_iff]
  intro hzero
  have h48 : '0'.toNat = 48 := rfl
  rw [CodePoint.is_iff, CodePoint.ofNat, dif_pos (by omega), h48] at hzero
  simp only [] at hzero
  omega

end ScalarGraph.Decimal
