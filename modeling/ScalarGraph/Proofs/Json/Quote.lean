import ScalarGraph.Json.Reader
import ScalarGraph.Json.Writer
import ScalarGraph.Proofs.Text

/-! # Texts read back

A text is read as it was quoted, but for the two halves of a surrogate pair next to each other: these
are read as one code point.
-/
namespace ScalarGraph

namespace CodePoint

theorem ofNat_value (c : CodePoint) : CodePoint.ofNat c.value = c := by
  unfold CodePoint.ofNat
  rw [dif_pos c.value_lt]

theorem eq_ofNat {c : CodePoint} {n : Nat} (h : c.value = n) : CodePoint.ofNat n = c := by
  rw [← h, ofNat_value]

def IsHigh (c : CodePoint) : Prop := 0xd800 ≤ c.value ∧ c.value ≤ 0xdbff

def IsLow (c : CodePoint) : Prop := 0xdc00 ≤ c.value ∧ c.value ≤ 0xdfff

instance decidableIsHigh (c : CodePoint) : Decidable c.IsHigh :=
  inferInstanceAs (Decidable (0xd800 ≤ c.value ∧ c.value ≤ 0xdbff))

instance decidableIsLow (c : CodePoint) : Decidable c.IsLow :=
  inferInstanceAs (Decidable (0xdc00 ≤ c.value ∧ c.value ≤ 0xdfff))

def pair (c d : CodePoint) : CodePoint := .ofNat (0x10000 + (c.value - 0xd800) * 0x400 + (d.value - 0xdc00))

end CodePoint

namespace Text

/-- The text with one code point for every two halves of a surrogate pair. -/
def joined : Text → Text
  | c :: d :: t => if c.IsHigh ∧ d.IsLow then c.pair d :: joined t else c :: joined (d :: t)
  | t => t

/-- No two halves of a surrogate pair stand next to each other. -/
def Whole : Text → Prop
  | [] => True
  | c :: t => (c.IsHigh → ∀ d ∈ t.head?, ¬ d.IsLow) ∧ Whole t

theorem length_joined_le (t : Text) : t.joined.length ≤ t.length := by
  fun_induction joined t with
  | case1 c d t h ih =>
    rw [List.length_cons, List.length_cons, List.length_cons]
    omega
  | case2 c d t h ih =>
    rw [List.length_cons, List.length_cons]
    omega
  | case3 t h => exact Nat.le_refl _

theorem joined_eq_self_iff {t : Text} : t.joined = t ↔ t.Whole := by
  fun_induction joined t with
  | case1 c d t h ih =>
    constructor
    · intro heq
      have hlength := congrArg List.length heq
      have hle := length_joined_le t
      rw [List.length_cons, List.length_cons, List.length_cons] at hlength
      omega
    · intro hwhole
      exact absurd h.2 (hwhole.1 h.1 d rfl)
  | case2 c d t h ih =>
    rw [List.cons.injEq, ih]
    constructor
    · intro hwhole
      refine ⟨fun hc e he => ?_, hwhole.2⟩
      cases he
      exact fun hd => h ⟨hc, hd⟩
    · intro hwhole
      exact ⟨rfl, hwhole.2⟩
  | case3 t h =>
    refine ⟨fun _ => ?_, fun _ => rfl⟩
    cases t with
    | nil => trivial
    | cons c t =>
      cases t with
      | nil => exact ⟨fun _ d hd => (by cases hd), trivial⟩
      | cons d t => exact absurd rfl (h c d t)

end Text

namespace Json

theorem hexDigit?_lower {d : Nat} (hd : d < 16) :
    hexDigit? (.ofNat (if d < 10 then 48 + d else 87 + d)) = some d := by
  revert d
  decide

theorem unit?_ofHex {n : Nat} (hn : n < 0x10000) (rest : Text) :
    unit? (Text.ofHex 4 n ++ rest) = some (n, rest) := by
  have hdigit (k : Nat) : hexDigit? (.ofNat (if n / Nat.pow 16 k % 16 < 10 then 48 + n / Nat.pow 16 k % 16
      else 87 + n / Nat.pow 16 k % 16)) = some (n / Nat.pow 16 k % 16) :=
    hexDigit?_lower (Nat.mod_lt _ (by decide))
  have hvalue : ((n / Nat.pow 16 3 % 16 * 16 + n / Nat.pow 16 2 % 16) * 16 + n / Nat.pow 16 1 % 16) * 16 +
      n / Nat.pow 16 0 % 16 = n := by
    simp only [Nat.pow_eq]
    omega
  show (do
    let a ← hexDigit? _
    let b ← hexDigit? _
    let c ← hexDigit? _
    let d ← hexDigit? _
    return (((a * 16 + b) * 16 + c) * 16 + d, rest)) = some (n, rest)
  rw [hdigit 3, hdigit 2, hdigit 1, hdigit 0]
  exact congrArg (fun m => some (m, rest)) hvalue

theorem after?_unitText (n : Nat) (rest : Text) :
    after? ['\\', 'u'] (unitText n ++ rest) = some (Text.ofHex 4 n ++ rest) := rfl

theorem escape?_unit {n : Nat} (hn : n < 0x10000) (rest : Text) :
    escape? (.ofChar 'u' :: (Text.ofHex 4 n ++ rest)) =
      if 0xd800 ≤ n ∧ n ≤ 0xdbff then
        match lowHalf? rest with
        | some (m, rest) => some (.ofNat (0x10000 + (n - 0xd800) * 0x400 + (m - 0xdc00)), rest)
        | none => some (.ofNat n, rest)
      else some (.ofNat n, rest) := by
  show codePoint? (Text.ofHex 4 n ++ rest) = _
  unfold codePoint?
  rw [unit?_ofHex hn]
  rfl

theorem isOneOf_eq_true {c : CodePoint} {ds : List Char} :
    c.isOneOf ds = true ↔ ∃ d ∈ ds, c.value = d.toNat := by
  unfold CodePoint.isOneOf
  simp only [List.any_eq_true, CodePoint.is_iff]

section
variable {c : CodePoint} {done rest : Text} {fuel : Nat}

theorem textFrom_escape {t : Text} (h : escape? t = some (c, rest)) :
    textFrom (fuel + 1) done (.ofChar '\\' :: t) = textFrom fuel (c :: done) rest := by
  have hquote : (CodePoint.ofChar '\\').is '"' = false := rfl
  have hescape : (CodePoint.ofChar '\\').is '\\' = true := rfl
  rw [textFrom]
  simp only [hquote, hescape, h, Bool.false_eq_true, if_true, if_false]

theorem textFrom_plain (hquote : c.value ≠ 34) (hescape : c.value ≠ 92) (hlow : 0x20 ≤ c.value) :
    textFrom (fuel + 1) done (c :: rest) = textFrom fuel (c :: done) rest := by
  have h34 : c.is '"' = false := by
    rw [Bool.eq_false_iff]
    exact fun h => hquote (CodePoint.is_iff.mp h)
  have h92 : c.is '\\' = false := by
    rw [Bool.eq_false_iff]
    exact fun h => hescape (CodePoint.is_iff.mp h)
  rw [textFrom]
  simp only [h34, h92, Bool.false_eq_true, if_false]
  rw [if_neg (by omega)]

theorem lowHalf?_unitText {n : Nat} (hlow : 0xdc00 ≤ n) (hhigh : n ≤ 0xdfff) :
    lowHalf? (unitText n ++ rest) = some (n, rest) := by
  unfold lowHalf?
  rw [after?_unitText]
  show (unit? (Text.ofHex 4 n ++ rest)).bind _ = _
  rw [unit?_ofHex (by omega)]
  exact if_pos ⟨hlow, hhigh⟩

/-- How a code point is written: as a letter behind a backslash, as it is, or as one unit or two. -/
inductive Spelled (c : CodePoint) : Text → Prop
  | letter (d : Char) (hascii : c.value < 0x80) (hd : (CodePoint.ofChar d).is 'u' = false)
      (h : ∀ rest, escape? (.ofChar d :: rest) = some (c, rest)) : Spelled c [.ofChar '\\', .ofChar d]
  | plain (hquote : c.value ≠ 34) (hescape : c.value ≠ 92) (hlow : 0x20 ≤ c.value)
      (hhigh : c.value ≤ 0x7e) : Spelled c [c]
  | unit (hn : c.value < 0x10000) : Spelled c (unitText c.value)
  | units (hn : 0x10000 ≤ c.value) :
      Spelled c (unitText (0xd800 + (c.value - 0x10000) / 0x400) ++
        unitText (0xdc00 + (c.value - 0x10000) % 0x400))

theorem spelled_characterText (c : CodePoint) : Spelled c (characterText c) := by
  unfold characterText
  split_ifs with hmark hn hr ht h8 h12 hplain hunit
  · obtain ⟨d, hd, hvalue⟩ := isOneOf_eq_true.mp hmark
    obtain rfl : CodePoint.ofChar d = c := CodePoint.eq_ofNat hvalue
    simp only [List.mem_cons, List.not_mem_nil, or_false] at hd
    rcases hd with rfl | rfl <;> exact .letter _ (by decide) rfl fun _ => rfl
  · obtain rfl : CodePoint.ofChar '\n' = c := CodePoint.eq_ofNat (CodePoint.is_iff.mp hn)
    exact .letter 'n' (by decide) rfl fun _ => rfl
  · obtain rfl : CodePoint.ofChar '\r' = c := CodePoint.eq_ofNat (CodePoint.is_iff.mp hr)
    exact .letter 'r' (by decide) rfl fun _ => rfl
  · obtain rfl : CodePoint.ofChar '\t' = c := CodePoint.eq_ofNat (CodePoint.is_iff.mp ht)
    exact .letter 't' (by decide) rfl fun _ => rfl
  · obtain rfl := CodePoint.eq_ofNat h8
    exact .letter 'b' (by decide) rfl fun _ => rfl
  · obtain rfl := CodePoint.eq_ofNat h12
    exact .letter 'f' (by decide) rfl fun _ => rfl
  · have hnot {d : Char} (hd : d ∈ ['"', '\\']) : c.value ≠ d.toNat :=
      fun hvalue => hmark (isOneOf_eq_true.mpr ⟨d, hd, hvalue⟩)
    exact .plain (hnot (d := '"') (by decide)) (hnot (d := '\\') (by decide)) hplain.1 hplain.2
  · exact .unit hunit
  · exact .units (by omega)

theorem characterText_of_unit (hlow : 0x80 ≤ c.value) (hhigh : c.value < 0x10000) :
    characterText c = unitText c.value := by
  have h := spelled_characterText c
  generalize characterText c = t at h ⊢
  cases h with
  | letter d hascii => omega
  | plain hquote hescape hlow' hhigh' => omega
  | unit hn => rfl
  | units hn => omega

/-- What follows must not be read together with the first half of a surrogate pair. -/
theorem textFrom_characterText (h : c.IsHigh → lowHalf? rest = none) :
    textFrom (fuel + 1) done (characterText c ++ rest) = textFrom fuel (c :: done) rest := by
  have hlt := c.value_lt
  have hspelled := spelled_characterText c
  generalize characterText c = t at hspelled ⊢
  cases hspelled with
  | letter d _ _ hescape => exact textFrom_escape (hescape rest)
  | plain hquote hescape hlow => exact textFrom_plain hquote hescape hlow
  | unit hn =>
    apply textFrom_escape
    refine (escape?_unit hn rest).trans ?_
    rw [CodePoint.ofNat_value]
    split_ifs with hhigh
    · rw [h hhigh]
    · rfl
  | units hn =>
    rw [List.append_assoc]
    apply textFrom_escape
    refine (escape?_unit (by omega) _).trans ?_
    rw [if_pos (by omega), lowHalf?_unitText (by omega) (by omega)]
    have hvalue : c.value = 0x10000 + (0xd800 + (c.value - 0x10000) / 0x400 - 0xd800) * 0x400 +
        (0xdc00 + (c.value - 0x10000) % 0x400 - 0xdc00) := by omega
    exact congrArg (fun d => some (d, rest)) (CodePoint.eq_ofNat hvalue)

end

theorem lowHalf?_characterText {c : CodePoint} (h : ¬ c.IsLow) (rest : Text) :
    lowHalf? (characterText c ++ rest) = none := by
  have hlt := c.value_lt
  have hunitText {n : Nat} (hn : n < 0x10000) (hnot : ¬ (0xdc00 ≤ n ∧ n ≤ 0xdfff)) (t : Text) :
      lowHalf? (unitText n ++ t) = none := by
    unfold lowHalf?
    rw [after?_unitText]
    show (unit? (Text.ofHex 4 n ++ t)).bind _ = _
    rw [unit?_ofHex hn]
    exact if_neg hnot
  have hnone {t : Text} (ht : after? ['\\', 'u'] t = none) : lowHalf? t = none := by
    unfold lowHalf?
    rw [ht]
    rfl
  have hspelled := spelled_characterText c
  generalize characterText c = t at hspelled ⊢
  cases hspelled with
  | letter d _ hd =>
    apply hnone
    show after? ['u'] (.ofChar d :: rest) = none
    exact if_neg (by rw [hd]; decide)
  | plain _ hescape =>
    apply hnone
    exact if_neg fun his => hescape (CodePoint.is_iff.mp his)
  | unit hn => exact hunitText hn h rest
  | units hn =>
    rw [List.append_assoc]
    exact hunitText (by omega) (by omega) _

/-- The two halves of a surrogate pair are read as one code point. -/
theorem textFrom_pair {c d : CodePoint} {done rest : Text} {fuel : Nat} (hc : c.IsHigh) (hd : d.IsLow) :
    textFrom (fuel + 1) done (characterText c ++ (characterText d ++ rest)) =
      textFrom fuel (c.pair d :: done) rest := by
  obtain ⟨hc, hc'⟩ := hc
  obtain ⟨hd, hd'⟩ := hd
  rw [characterText_of_unit (by omega) (by omega), characterText_of_unit (by omega) (by omega)]
  apply textFrom_escape
  refine (escape?_unit (by omega) _).trans ?_
  rw [if_pos ⟨hc, hc'⟩, lowHalf?_unitText hd hd']
  rfl

theorem textFrom_quoted (t rest : Text) : ∀ (fuel : Nat) (done : Text), t.length < fuel →
    textFrom fuel done (t.flatMap characterText ++ .ofChar '"' :: rest) =
      .ok (done.reverse ++ t.joined, rest) := by
  fun_induction Text.joined t with
  | case1 c d t h ih =>
    intro fuel done hfuel
    obtain ⟨fuel, rfl⟩ := Nat.exists_eq_add_one_of_ne_zero (Nat.ne_zero_of_lt hfuel)
    rw [List.length_cons, List.length_cons] at hfuel
    rw [List.flatMap_cons, List.flatMap_cons, List.append_assoc, List.append_assoc, textFrom_pair h.1 h.2,
      ih fuel _ (by omega), List.reverse_cons, List.append_assoc, List.singleton_append]
  | case2 c d t h ih =>
    intro fuel done hfuel
    obtain ⟨fuel, rfl⟩ := Nat.exists_eq_add_one_of_ne_zero (Nat.ne_zero_of_lt hfuel)
    rw [List.length_cons] at hfuel
    have hnext : c.IsHigh → lowHalf? ((d :: t).flatMap characterText ++ .ofChar '"' :: rest) = none := by
      intro hc
      rw [List.flatMap_cons, List.append_assoc]
      exact lowHalf?_characterText (fun hd => h ⟨hc, hd⟩) _
    rw [List.flatMap_cons, List.append_assoc, textFrom_characterText hnext, ih fuel (c :: done) (by omega),
      List.reverse_cons, List.append_assoc, List.singleton_append]
  | case3 t h =>
    intro fuel done hfuel
    cases t with
    | nil =>
      obtain ⟨fuel, rfl⟩ := Nat.exists_eq_add_one_of_ne_zero (Nat.ne_of_gt hfuel)
      rw [List.append_nil]
      rfl
    | cons c t =>
      cases t with
      | nil =>
        obtain ⟨fuel, rfl⟩ := Nat.exists_eq_add_one_of_ne_zero (Nat.ne_zero_of_lt hfuel)
        obtain ⟨fuel, rfl⟩ := Nat.exists_eq_add_one_of_ne_zero (show fuel ≠ 0 by
          rw [List.length_singleton] at hfuel
          omega)
        rw [List.flatMap_singleton, textFrom_characterText fun _ => rfl]
        exact congrArg (fun u => Except.ok (u, rest)) List.reverse_cons
      | cons d t => exact absurd rfl (h c d t)

end Json
end ScalarGraph
