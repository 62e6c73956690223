import ScalarGraph.Json.Reader
import ScalarGraph.Json.Writer
import ScalarGraph.Proofs.Decimal.Digits
import ScalarGraph.Proofs.Decimal.Shortest

/-! # Numbers read back

The reader takes a number as it was written where nothing follows that could go on with it.
-/
namespace ScalarGraph.Json
open Decimal Binary64

def Stops (rest : Text) : Prop :=
  ∀ c ∈ rest.head?, c.isOneOf [',', ']', '\x7d', ' ', '\t', '\n', '\r'] = true

theorem Stops.of_cons {c : CodePoint} {rest : Text}
    (h : c.isOneOf [',', ']', '\x7d', ' ', '\t', '\n', '\r'] = true) : Stops (c :: rest) := by
  intro d hd
  cases hd
  exact h

section
variable {rest : Text}

theorem Stops.value_mem (h : Stops rest) : ∀ c ∈ rest.head?, c.value ∈ [44, 93, 125, 32, 9, 10, 13] := by
  intro c hc
  have hc := h c hc
  unfold CodePoint.isOneOf at hc
  simp only [List.any_cons, List.any_nil, Bool.or_false, Bool.or_eq_true, CodePoint.is_iff] at hc
  simp only [List.mem_cons, List.not_mem_nil, or_false]
  exact hc

theorem Stops.noDigit (h : Stops rest) : NoDigit rest := by
  intro c hc
  have hc := h.value_mem c hc
  simp only [List.mem_cons, List.not_mem_nil, or_false] at hc
  unfold CodePoint.digit?
  rw [if_neg (by omega)]

theorem Stops.fractionDigits (h : Stops rest) : fractionDigits rest = ([], rest) := by
  cases rest with
  | nil => rfl
  | cons c rest =>
    have hc := h.value_mem c rfl
    have hpoint : c.is '.' = false := by
      rw [Bool.eq_false_iff]
      intro heq
      rw [CodePoint.is_iff] at heq
      rw [heq] at hc
      revert hc
      decide
    unfold Json.fractionDigits
    simp only [hpoint, Bool.false_eq_true, if_false]

theorem Stops.exponentFrom? (h : Stops rest) : exponentFrom? rest = none := by
  cases rest with
  | nil => rfl
  | cons c rest =>
    have hc := h.value_mem c rfl
    have hmark : c.isOneOf ['e', 'E'] = false := by
      rw [Bool.eq_false_iff]
      intro heq
      unfold CodePoint.isOneOf at heq
      simp only [List.any_cons, List.any_nil, Bool.or_false, Bool.or_eq_true, CodePoint.is_iff] at heq
      rcases heq with heq | heq
      · rw [heq] at hc
        revert hc
        decide
      · rw [heq] at hc
        revert hc
        decide
    unfold Json.exponentFrom?
    simp only [hmark, Bool.false_eq_true, if_false]

end

/-- Digits that can stand before a point: a zero alone, or digits that do not start with one. -/
def WholePart (t : Text) : Prop :=
  t = [.ofChar '0'] ∨ ∃ c s, t = c :: s ∧ Digits t ∧ c.is '0' = false

theorem wholeDigits?_append {t rest : Text} (h : WholePart t) (hrest : NoDigit rest) :
    wholeDigits? (t ++ rest) = some (values t, rest) := by
  rcases h with rfl | ⟨c, s, rfl, hdigits, hzero⟩
  · rfl
  · have hspan := spanDigits_append hdigits hrest
    obtain ⟨d, hd⟩ := Option.isSome_iff_exists.mp (hdigits c List.mem_cons_self)
    have hvalues : values (c :: s) = d :: values s := List.filterMap_cons_some hd
    rw [hvalues, List.cons_append] at hspan
    rw [List.cons_append, wholeDigits?, hvalues]
    simp only [hzero, hspan, Bool.false_eq_true, if_false]

theorem fractionDigits_append {t rest : Text} (hne : t ≠ []) (ht : Digits t) (hrest : NoDigit rest) :
    fractionDigits (.ofChar '.' :: (t ++ rest)) = (values t, rest) := by
  obtain ⟨c, s, rfl⟩ := List.exists_cons_of_ne_nil hne
  have hspan := spanDigits_append ht hrest
  obtain ⟨d, hd⟩ := Option.isSome_iff_exists.mp (ht c List.mem_cons_self)
  have hvalues : values (c :: s) = d :: values s := List.filterMap_cons_some hd
  rw [hvalues] at hspan
  have hpoint : (CodePoint.ofChar '.').is '.' = true := rfl
  rw [fractionDigits, hvalues]
  simp only [hpoint, hspan, if_true]

theorem exponentFrom?_append (e : Int) {rest : Text} (hrest : NoDigit rest) :
    exponentFrom? (exponentText e ++ rest) = some (e, rest) := by
  obtain ⟨hdigits, hvalue⟩ := digits_digitsOf 2 e.natAbs
  have hspan := spanDigits_append hdigits hrest
  have hne : values (digitsOf 2 e.natAbs) ≠ [] := by
    have hlength := le_length_digitsOf 2 e.natAbs
    rw [← hdigits.length_values] at hlength
    exact List.ne_nil_of_length_pos (by omega)
  obtain ⟨d, ds, hds⟩ := List.exists_cons_of_ne_nil hne
  rw [hds] at hspan hvalue
  have hmark : (CodePoint.ofChar 'e').isOneOf ['e', 'E'] = true := rfl
  obtain ⟨sign, htext, hsign⟩ : ∃ sign, exponentText e ++ rest =
      .ofChar 'e' :: sign :: (digitsOf 2 e.natAbs ++ rest) ∧
        ∀ t, spanSign (sign :: t) = (decide (e < 0), t) := by
    unfold exponentText
    by_cases hneg : e < 0
    · rw [if_pos hneg, decide_eq_true hneg]
      exact ⟨.ofChar '-', rfl, fun _ => rfl⟩
    · rw [if_neg hneg, decide_eq_false hneg]
      exact ⟨.ofChar '+', rfl, fun _ => rfl⟩
  rw [htext, exponentFrom?]
  simp only [hmark, hsign, hspan, hvalue, if_true, decide_eq_true_eq, Option.some.injEq, Prod.mk.injEq,
    and_true]
  split <;> omega

theorem exponentText_stops (e : Int) (rest : Text) :
    NoDigit (exponentText e ++ rest) ∧
      fractionDigits (exponentText e ++ rest) = ([], exponentText e ++ rest) := by
  obtain ⟨s, hs⟩ : ∃ s, exponentText e ++ rest = .ofChar 'e' :: s := by
    unfold exponentText
    split <;> exact ⟨_, rfl⟩
  rw [hs]
  constructor
  · intro c hc
    cases hc
    rfl
  · rfl

theorem wholePart_ofNat (n : Nat) : WholePart (Text.ofNat n) := by
  rcases Nat.eq_zero_or_pos n with rfl | hn
  · left
    unfold Text.ofNat Text.ofNatBefore
    rfl
  · obtain ⟨c, t, htext, hzero⟩ := ofNat_eq_cons hn
    exact .inr ⟨c, t, htext, (digits_ofNat n).1, hzero⟩

/-- A whole number is read where it has no more digits than are read. -/
theorem number_ofNat (negative : Bool) (n : Nat) {rest : Text} (hrest : Stops rest) :
    number negative (Text.ofNat n ++ rest) =
      if n < 10 ^ digitLimit then .ok (.int (if negative then -n else n), rest)
      else .error .tooManyDigits := by
  obtain ⟨hdigits, hvalue⟩ := digits_ofNat n
  have hlength : digitLimit < (values (Text.ofNat n)).length ↔ ¬ n < 10 ^ digitLimit := by
    rw [hdigits.length_values, ← length_ofNat_le_iff (by decide), Nat.not_le]
  unfold number
  rw [wholeDigits?_append (wholePart_ofNat n) hrest.noDigit]
  simp only [hrest.fractionDigits, hrest.exponentFrom?, hlength, ite_not, hvalue]

section
variable (negative : Bool) {w p rest : Text} {e : Int}

theorem number_eq_real {t r₁ r₂ : Text} {whole part : List Nat} (hwhole : wholeDigits? t = some (whole, r₁))
    (hpart : fractionDigits r₁ = (part, r₂)) (hreal : part ≠ [] ∨ (exponentFrom? r₂).isSome = true) :
    number negative t = .ok (.real (signed negative (ofDecimal (ofDigits (whole ++ part))
      (((exponentFrom? r₂).getD (0, r₂)).1 - part.length))), ((exponentFrom? r₂).getD (0, r₂)).2) := by
  unfold number
  simp only [hwhole, hpart]
  cases part with
  | nil =>
    cases hexponent : exponentFrom? r₂ with
    | none =>
      rw [hexponent] at hreal
      rcases hreal with h | h
      · exact absurd rfl h
      · cases h
    | some e => rfl
  | cons d ds => rfl

theorem noDigit_point (t : Text) : NoDigit (.ofChar '.' :: t) := by
  intro c hc
  cases hc
  rfl

theorem values_ne_nil (hne : p ≠ []) (hp : Digits p) : values p ≠ [] := by
  apply List.ne_nil_of_length_pos
  rw [hp.length_values]
  exact List.length_pos_of_ne_nil hne

theorem number_point (hw : WholePart w) (hne : p ≠ []) (hp : Digits p) (hrest : Stops rest) :
    number negative (w ++ .ofChar '.' :: (p ++ rest)) =
      .ok (.real (signed negative (ofDecimal (ofDigits (values w ++ values p)) (-p.length))), rest) := by
  rw [number_eq_real negative (wholeDigits?_append hw (noDigit_point _))
    (fractionDigits_append hne hp hrest.noDigit) (.inl (values_ne_nil hne hp)), hrest.exponentFrom?,
    hp.length_values]
  simp only [Option.getD_none, Int.zero_sub]

theorem number_exponent (hw : WholePart w) (hrest : Stops rest) :
    number negative (w ++ (exponentText e ++ rest)) =
      .ok (.real (signed negative (ofDecimal (ofDigits (values w)) e)), rest) := by
  obtain ⟨hdigit, hfraction⟩ := exponentText_stops e rest
  have hexponent := exponentFrom?_append e hrest.noDigit
  rw [number_eq_real negative (wholeDigits?_append hw hdigit) hfraction (.inr (by rw [hexponent]; rfl)),
    hexponent, List.append_nil]
  simp only [Option.getD_some, List.length_nil, Nat.cast_zero, Int.sub_zero]

theorem number_point_exponent (hw : WholePart w) (hne : p ≠ []) (hp : Digits p) (hrest : Stops rest) :
    number negative (w ++ .ofChar '.' :: (p ++ (exponentText e ++ rest))) =
      .ok (.real (signed negative (ofDecimal (ofDigits (values w ++ values p)) (e - p.length))), rest) := by
  rw [number_eq_real negative (wholeDigits?_append hw (noDigit_point _))
    (fractionDigits_append hne hp (exponentText_stops e rest).1) (.inl (values_ne_nil hne hp)),
    exponentFrom?_append e hrest.noDigit, hp.length_values]
  simp only [Option.getD_some]

end

/-- Some spelling of the value is what the reader takes the text for. -/
def TakenFor (d : Scaled) (t : Text) : Prop :=
  ∃ (n : Nat) (e : Int), 0 < n ∧ (n * 10 ^ e : ℚ) = d.value ∧ ∀ negative rest, Stops rest →
    number negative (t ++ rest) = .ok (.real (signed negative (ofDecimal n e)), rest)

section
variable {d : Scaled}

theorem takenFor_behind (hd : 0 < d.digits)
    (h : (Text.ofNat d.digits).length + d.exponent ≤ 0) :
    TakenFor d (Text.ofString "0." ++ zeros (-((Text.ofNat d.digits).length + d.exponent)).toNat ++
      Text.ofNat d.digits) := by
  obtain ⟨hdigits, hvalue⟩ := digits_ofNat d.digits
  obtain ⟨c, t, htext, -⟩ := ofNat_eq_cons hd
  refine ⟨d.digits, d.exponent, hd, rfl, ?_⟩
  intro negative rest hrest
  generalize hk : (-((Text.ofNat d.digits).length + d.exponent)).toNat = k
  have hne : zeros k ++ Text.ofNat d.digits ≠ [] := by
    rw [htext]
    exact List.append_ne_nil_of_right_ne_nil _ (List.cons_ne_nil c t)
  have hlength : (-(zeros k ++ Text.ofNat d.digits).length : Int) = d.exponent := by
    unfold zeros Text.fill
    rw [List.length_append, List.length_replicate]
    omega
  have hread := number_point negative (.inl rfl) hne ((digits_zeros k).append hdigits) hrest
  have hsame : ofDigits (values [.ofChar '0'] ++ values (zeros k ++ Text.ofNat d.digits)) = d.digits := by
    have hzero : values [.ofChar '0'] = [0] := rfl
    rw [hzero, List.singleton_append, ofDigits_zero_cons, values_append, ofDigits_append, values_zeros,
      ofDigits_replicate_zero, hvalue, Nat.zero_mul, Nat.zero_add]
  rw [hsame, hlength] at hread
  rw [List.append_assoc (Text.ofString "0."), List.append_assoc (Text.ofString "0.")]
  exact hread

theorem takenFor_before (hd : 0 < d.digits) (he : 0 ≤ d.exponent) :
    TakenFor d (Text.ofNat d.digits ++ zeros d.exponent.toNat ++ Text.ofString ".0") := by
  obtain ⟨hdigits, hvalue⟩ := digits_ofNat d.digits
  obtain ⟨c, t, htext, hzero⟩ := ofNat_eq_cons hd
  generalize hk : d.exponent.toNat = k
  refine ⟨d.digits * 10 ^ k * 10, -1, by positivity, ?_, ?_⟩
  · have hexponent : d.exponent = k := by omega
    rw [Scaled.value, hexponent, zpow_natCast]
    push_cast
    rw [zpow_neg_one, mul_assoc, mul_inv_cancel₀ (by norm_num), mul_one]
  · intro negative rest hrest
    have hw : WholePart (Text.ofNat d.digits ++ zeros k) := by
      refine .inr ⟨c, t ++ zeros k, ?_, hdigits.append (digits_zeros k), hzero⟩
      rw [htext, List.cons_append]
    have hone : Digits [CodePoint.ofChar '0'] := digits_zeros 1
    have hread := number_point negative hw (List.cons_ne_nil _ []) hone hrest
    have hsame : ofDigits (values (Text.ofNat d.digits ++ zeros k) ++ values [.ofChar '0']) =
        d.digits * 10 ^ k * 10 := by
      have hzero : values [.ofChar '0'] = [0] := rfl
      rw [hzero, ofDigits_append, values_append, ofDigits_append, hvalue, values_zeros,
        ofDigits_replicate_zero, List.length_replicate]
      rfl
    rw [hsame] at hread
    rw [List.append_assoc (Text.ofNat d.digits ++ zeros k)]
    exact hread

theorem takenFor_between (hd : 0 < d.digits) {b : Nat} (hb : 0 < b)
    (hlt : b < (Text.ofNat d.digits).length) (h : (b : Int) = (Text.ofNat d.digits).length + d.exponent) :
    TakenFor d ((Text.ofNat d.digits).take b ++ .ofChar '.' :: (Text.ofNat d.digits).drop b) := by
  obtain ⟨hdigits, hvalue⟩ := digits_ofNat d.digits
  obtain ⟨c, t, htext, hzero⟩ := ofNat_eq_cons hd
  refine ⟨d.digits, d.exponent, hd, rfl, ?_⟩
  intro negative rest hrest
  have hw : WholePart ((Text.ofNat d.digits).take b) := by
    refine .inr ⟨c, t.take (b - 1), ?_, hdigits.take b, hzero⟩
    obtain ⟨j, rfl⟩ := Nat.exists_eq_add_one_of_ne_zero (Nat.ne_of_gt hb)
    rw [htext, List.take_succ_cons]
    rfl
  have hne : (Text.ofNat d.digits).drop b ≠ [] := by
    intro hnil
    have hlength := List.drop_eq_nil_iff.mp hnil
    omega
  have hlength : (-((Text.ofNat d.digits).drop b).length : Int) = d.exponent := by
    rw [List.length_drop]
    omega
  have hread := number_point negative hw hne (hdigits.drop b) hrest
  rw [← values_append, List.take_append_drop, hvalue, hlength] at hread
  rw [List.append_assoc]
  exact hread

theorem takenFor_exponent (hd : 0 < d.digits) :
    TakenFor d (pointed (Text.ofNat d.digits) ++
      exponentText ((Text.ofNat d.digits).length + d.exponent - 1)) := by
  obtain ⟨hdigits, hvalue⟩ := digits_ofNat d.digits
  obtain ⟨c, t, htext, hzero⟩ := ofNat_eq_cons hd
  rw [htext] at hdigits hvalue ⊢
  refine ⟨d.digits, d.exponent, hd, rfl, ?_⟩
  intro negative rest hrest
  have hw : WholePart [c] := .inr ⟨c, [], rfl, hdigits.take 1, hzero⟩
  cases t with
  | nil =>
    have hexponent : ((([c] : Text).length : Int) + d.exponent - 1) = d.exponent := by
      rw [List.length_singleton]
      omega
    rw [pointed, List.append_assoc, number_exponent negative hw hrest, hvalue, hexponent]
  | cons c' t =>
    have hp : Digits (c' :: t) := hdigits.drop 1
    have hexponent : (((c :: c' :: t).length : Int) + d.exponent - 1 - (c' :: t).length) = d.exponent := by
      rw [List.length_cons (a := c)]
      omega
    have hsame :
        pointed (c :: c' :: t) ++ exponentText (((c :: c' :: t).length : Int) + d.exponent - 1) ++ rest =
          [c] ++ .ofChar '.' ::
            (c' :: t ++ (exponentText (((c :: c' :: t).length : Int) + d.exponent - 1) ++ rest)) := by
      rw [List.append_assoc]
      rfl
    rw [hsame, number_point_exponent negative hw (List.cons_ne_nil _ _) hp hrest, ← values_append,
      List.singleton_append, hvalue, hexponent]

theorem takenFor_magnitudeText (hd : 0 < d.digits) : TakenFor d (magnitudeText d) := by
  unfold magnitudeText
  simp only []
  split
  · unfold positional
    by_cases hbehind : ((Text.ofNat d.digits).length : Int) + d.exponent ≤ 0
    · rw [if_pos hbehind]
      exact takenFor_behind hd hbehind
    · rw [if_neg hbehind]
      by_cases hbefore : (Text.ofNat d.digits).length ≤ ((Text.ofNat d.digits).length + d.exponent).toNat
      · have hzeros : ((Text.ofNat d.digits).length + d.exponent).toNat - (Text.ofNat d.digits).length =
            d.exponent.toNat := by omega
        rw [if_pos hbefore, hzeros]
        exact takenFor_before hd (by omega)
      · rw [if_neg hbefore]
        exact takenFor_between hd (by omega) (by omega) (by omega)
  · exact takenFor_exponent hd

end

section
variable {c : CodePoint} {t rest : Text}

theorem is_eq_false_of_digit (hc : c.digit?.isSome = true) {d : Char} (hd : d.toNat < 48 ∨ 57 < d.toNat) :
    c.is d = false := by
  rw [Bool.eq_false_iff]
  intro heq
  rw [CodePoint.is_iff] at heq
  unfold CodePoint.digit? at hc
  rw [if_neg (by omega)] at hc
  cases hc

theorem after?_eq_none {d : Char} (h : c.is d = false) (ds : List Char) :
    after? (d :: ds) (c :: t) = none :=
  if_neg (by rw [h]; decide)

theorem word_of_digit (hc : c.digit?.isSome = true) : word (c :: t) = number false (c :: t) := by
  have hnone {d : Char} (hd : d.toNat < 48 ∨ 57 < d.toNat) (ds : List Char) :
      after? (d :: ds) (c :: t) = none := after?_eq_none (is_eq_false_of_digit hc hd) ds
  have hnull : after? "null".toList (c :: t) = none := hnone (.inr (by decide)) _
  have htrue : after? "true".toList (c :: t) = none := hnone (.inr (by decide)) _
  have hfalse : after? "false".toList (c :: t) = none := hnone (.inr (by decide)) _
  have hnan : after? "NaN".toList (c :: t) = none := hnone (.inr (by decide)) _
  have hinfinity : after? "Infinity".toList (c :: t) = none := hnone (.inr (by decide)) _
  have hnegative : after? "-Infinity".toList (c :: t) = none := hnone (.inl (by decide)) _
  have hminus : after? ['-'] (c :: t) = none := hnone (.inl (by decide)) _
  unfold word
  simp only [hnull, htrue, hfalse, hnan, hinfinity, hnegative, hminus, Option.map_none, Option.none_or]

theorem word_of_minus (hc : c.digit?.isSome = true) :
    word (.ofChar '-' :: c :: t) = number true (c :: t) := by
  have hnull : after? "null".toList (.ofChar '-' :: c :: t) = none := rfl
  have htrue : after? "true".toList (.ofChar '-' :: c :: t) = none := rfl
  have hfalse : after? "false".toList (.ofChar '-' :: c :: t) = none := rfl
  have hnan : after? "NaN".toList (.ofChar '-' :: c :: t) = none := rfl
  have hinfinity : after? "Infinity".toList (.ofChar '-' :: c :: t) = none := rfl
  have hnegative : after? "-Infinity".toList (.ofChar '-' :: c :: t) = none :=
    after?_eq_none (is_eq_false_of_digit hc (.inr (by decide))) _
  have hminus : after? ['-'] (.ofChar '-' :: c :: t) = some (c :: t) := rfl
  unfold word
  simp only [hnull, htrue, hfalse, hnan, hinfinity, hnegative, hminus, Option.map_none, Option.none_or]

theorem word_sign (negative : Bool) (hc : c.digit?.isSome = true) :
    word (Text.ofString (if negative then "-" else "") ++ c :: t) = number negative (c :: t) := by
  cases negative with
  | false => exact word_of_digit hc
  | true => exact word_of_minus hc

theorem ofNat_eq_digit_cons (n : Nat) : ∃ c t, Text.ofNat n = c :: t ∧ c.digit?.isSome = true := by
  have hdigits := (digits_ofNat n).1
  rcases wholePart_ofNat n with h | ⟨c, t, h, -, -⟩
  · exact ⟨_, _, h, rfl⟩
  · exact ⟨c, t, h, hdigits c (h ▸ List.mem_cons_self)⟩

theorem word_ofInt (i : Int) (hrest : Stops rest) : word (Text.ofInt i ++ rest) =
    if i.natAbs < 10 ^ digitLimit then .ok (.int i, rest) else .error .tooManyDigits := by
  cases i with
  | ofNat n =>
    have hread := number_ofNat false n hrest
    obtain ⟨c, t, htext, hc⟩ := ofNat_eq_digit_cons n
    rw [Text.ofInt]
    rw [htext] at hread ⊢
    exact (word_sign false hc).trans hread
  | negSucc n =>
    have hread := number_ofNat true (n + 1) hrest
    obtain ⟨c, t, htext, hc⟩ := ofNat_eq_digit_cons (n + 1)
    rw [htext] at hread
    rw [Text.ofInt, htext]
    exact (word_sign true hc).trans hread

theorem exists_digit_of_number {negative : Bool} {r : Json × Text} (h : number negative t = .ok r) :
    ∃ c s, t = c :: s ∧ c.digit?.isSome = true := by
  cases t with
  | nil => cases h
  | cons c s =>
    refine ⟨c, s, rfl, ?_⟩
    by_contra hc
    have hzero : c.is '0' = false := by
      rw [Bool.eq_false_iff]
      intro hzero
      have h48 : '0'.toNat = 48 := rfl
      rw [CodePoint.is_iff, h48] at hzero
      unfold CodePoint.digit? at hc
      rw [if_pos (by omega)] at hc
      exact hc rfl
    have hspan : spanDigits (c :: s) = ([], c :: s) := by
      apply spanDigits_append (t := [])
      · intro d hd
        cases hd
      · intro d hd
        cases hd
        exact Option.not_isSome_iff_eq_none.mp hc
    have hnone : wholeDigits? (c :: s) = none := by
      rw [wholeDigits?]
      simp only [hzero, hspan, Bool.false_eq_true, if_false]
    unfold number at h
    rw [hnone] at h
    cases h

theorem word_written {x : Float} (hfinite : x.isFinite = true) (hrest : Stops rest) :
    word (Decimal.written x ++ rest) = .ok (.real x, rest) := by
  obtain ⟨hnan, hinf⟩ := status_of_isFinite hfinite
  have htext : Decimal.written x =
      signText x ++ if isZero x then Text.ofString "0.0" else magnitudeText (shortest x) := by
    unfold Decimal.written special?
    rw [hnan, hinf]
    rfl
  rw [htext, signText]
  cases hzero : isZero x with
  | true =>
    obtain ⟨hcanonical, hx⟩ := eq_coded_of_isFinite hfinite
    have hread := number_point (isNegative x) (w := [.ofChar '0']) (.inl rfl)
      (List.cons_ne_nil (CodePoint.ofChar '0') [])
      (digits_zeros 1) hrest
    rw [List.append_assoc]
    refine (word_sign (isNegative x) (c := .ofChar '0') rfl).trans (hread.trans ?_)
    have hcode : codeOf (significand x) (exponent x) = 0 := by
      rw [hx, isZero_coded _ (Nat.le_of_lt hcanonical.code_lt)] at hzero
      exact of_decide_eq_true hzero
    rw [hcode] at hx
    have hsame : signed (isNegative x) (ofDecimal 0 (-1)) = x := by
      conv_rhs => rw [hx]
      cases isNegative x <;> decide +kernel
    exact congrArg (fun y => Except.ok (Json.real y, rest)) hsame
  | false =>
    have hpos := significand_pos hfinite hzero
    obtain ⟨hdigits, -⟩ := shortest_spec hpos (eq_coded_of_isFinite hfinite).1
    obtain ⟨n, e, hn, hvalue, hread⟩ := takenFor_magnitudeText hdigits
    obtain ⟨c, t, hc, hdigit⟩ := exists_digit_of_number (hread false [] fun _ h => by cases h)
    rw [List.append_nil] at hc
    have hmagnitude := hread (isNegative x) rest hrest
    rw [ofDecimal_shortest hfinite hzero hn hvalue] at hmagnitude
    simp only [Bool.false_eq_true, if_false]
    rw [hc] at hmagnitude ⊢
    rw [List.append_assoc]
    exact (word_sign (isNegative x) hdigit).trans hmagnitude

theorem word_realText (x : Float) (hrest : Stops rest) :
    word (realText x ++ rest) = .ok (.real x, rest) := by
  obtain rfl | ⟨negative, rfl⟩ | hfinite := nan_or_infinite_or_finite x
  · rfl
  · cases negative <;> rfl
  · obtain ⟨hnan, hinf⟩ := status_of_isFinite hfinite
    unfold realText
    rw [hnan, hinf]
    exact word_written hfinite hrest

end

end ScalarGraph.Json
