import ScalarGraph.Proofs.Json.Number
import ScalarGraph.Proofs.Json.Quote

/-! # Values read back

A text reads as a value where the reader takes it for that value whatever follows. Arrays and
objects of such texts read as the arrays and objects of the values, with blanks between the parts.
-/
namespace ScalarGraph.Json

theorem stops_nil : Stops [] := by
  intro c hc
  cases hc

def blanks : List Char := [' ', '\t', '\n', '\r']

def Blank (b : Text) : Prop := ∀ c ∈ b, c.isOneOf blanks = true

instance decidableBlank (b : Text) : Decidable (Blank b) :=
  inferInstanceAs (Decidable (∀ c ∈ b, c.isOneOf blanks = true))

theorem blank_nil : Blank [] := by
  intro c hc
  cases hc

section
variable {b t rest : Text} {c : CodePoint}

theorem skipBlanks_append (hb : Blank b) : skipBlanks (b ++ t) = skipBlanks t :=
  List.dropWhile_append_of_pos hb

theorem skipBlanks_cons (hc : c.isOneOf blanks = false) : skipBlanks (c :: t) = c :: t :=
  List.dropWhile_cons_of_neg (by rw [← blanks, hc]; decide)

theorem Blank.stops (hb : Blank b) (h : Stops rest) : Stops (b ++ rest) := by
  cases b with
  | nil => exact h
  | cons c b =>
    apply Stops.of_cons
    have hc := hb c List.mem_cons_self
    unfold CodePoint.isOneOf blanks at *
    simp only [List.any_cons, List.any_nil, Bool.or_false, Bool.or_eq_true] at hc ⊢
    exact .inr (.inr (.inr hc))

end

def Starts (t : Text) : Prop := ∃ c s, t = c :: s ∧ c.isOneOf (']' :: blanks) = false

theorem Starts.skipBlanks_eq {t : Text} (h : Starts t) (rest : Text) :
    skipBlanks (t ++ rest) = t ++ rest := by
  obtain ⟨c, s, rfl, hc⟩ := h
  unfold CodePoint.isOneOf at hc
  rw [List.any_cons, Bool.or_eq_false_iff] at hc
  exact skipBlanks_cons hc.2

structure Reads (t : Text) (v : Json) : Prop where
  starts : Starts t
  reads : ∀ fuel rest, t.length ≤ fuel → Stops rest → valueFrom fuel (t ++ rest) = .ok (v, rest)

theorem after?_bracket_of_reads {t : Text} {v : Json} (h : Reads t v) (rest : Text) :
    after? [']'] (t ++ rest) = none := by
  obtain ⟨c, s, rfl, hc⟩ := h.starts
  unfold CodePoint.isOneOf at hc
  rw [List.any_cons, Bool.or_eq_false_iff] at hc
  exact after?_eq_none hc.1 []

theorem is_eq_false_of_word {c : CodePoint} {t : Text} (h : word (c :: t) ≠ .error .malformed) {d : Char}
    (hd : d ∈ '"' :: '[' :: '\x7b' :: ']' :: blanks) : c.is d = false := by
  rw [Bool.eq_false_iff]
  intro heq
  obtain rfl : CodePoint.ofChar d = c := CodePoint.eq_ofNat (CodePoint.is_iff.mp heq)
  unfold blanks at hd
  simp only [List.mem_cons, List.not_mem_nil, or_false] at hd
  rcases hd with rfl | rfl | rfl | rfl | rfl | rfl | rfl | rfl <;> exact absurd rfl h

theorem starts_of_word {t : Text} (h : word t ≠ .error .malformed) : Starts t := by
  cases t with
  | nil => exact absurd rfl h
  | cons c t =>
    refine ⟨c, t, rfl, ?_⟩
    unfold CodePoint.isOneOf
    rw [List.any_eq_false]
    intro d hd
    rw [is_eq_false_of_word h (List.mem_cons_of_mem _ (List.mem_cons_of_mem _ (List.mem_cons_of_mem _ hd)))]
    decide

theorem valueFrom_of_word {t : Text} (h : word t ≠ .error .malformed) (fuel : Nat) :
    valueFrom (fuel + 1) t = word t := by
  cases t with
  | nil => exact absurd rfl h
  | cons c t =>
    rw [valueFrom]
    simp only [is_eq_false_of_word h (d := '"') (by decide), is_eq_false_of_word h (d := '[') (by decide),
      is_eq_false_of_word h (d := '\x7b') (by decide), Bool.false_eq_true, if_false]

theorem reads_of_word {t : Text} {v : Json} (h : ∀ rest, Stops rest → word (t ++ rest) = .ok (v, rest)) :
    Reads t v := by
  have hend := h [] stops_nil
  rw [List.append_nil] at hend
  have hstarts : Starts t := by
    apply starts_of_word
    rw [hend]
    exact nofun
  constructor
  · exact hstarts
  · intro fuel rest hfuel hrest
    obtain ⟨c, s, rfl, -⟩ := hstarts
    obtain ⟨fuel, rfl⟩ := Nat.exists_eq_add_one_of_ne_zero (Nat.ne_zero_of_lt hfuel)
    have hword := h rest hrest
    have hne : word (c :: s ++ rest) ≠ .error .malformed := by
      rw [hword]
      exact nofun
    rw [valueFrom_of_word hne, hword]

theorem reads_null : Reads (Text.ofString "null") .null := reads_of_word fun _ _ => rfl

theorem reads_ofInt {i : Int} (hi : i.natAbs < 10 ^ Decimal.digitLimit) : Reads (Text.ofInt i) (.int i) :=
  reads_of_word fun _ hrest => (word_ofInt i hrest).trans (if_pos hi)

theorem reads_realText (x : Float) : Reads (realText x) (.real x) :=
  reads_of_word fun _ hrest => word_realText x hrest

theorem length_le_length_flatMap_characterText (t : Text) :
    t.length ≤ (t.flatMap characterText).length := by
  induction t with
  | nil => exact Nat.le_refl 0
  | cons c t ih =>
    have hpos : 0 < (characterText c).length := by
      unfold characterText
      split_ifs <;> exact Nat.succ_pos _
    rw [List.flatMap_cons, List.length_append, List.length_cons]
    omega

theorem length_quote (t : Text) : t.length + 2 ≤ (quote t).length := by
  have h := length_le_length_flatMap_characterText t
  unfold quote
  rw [List.length_append, List.length_cons, List.length_singleton]
  omega

theorem quote_append (t rest : Text) :
    quote t ++ rest = .ofChar '"' :: (t.flatMap characterText ++ .ofChar '"' :: rest) := by
  unfold quote
  rw [List.append_assoc]
  rfl

theorem reads_quote (t : Text) : Reads (quote t) (.text t.joined) := by
  constructor
  · exact ⟨.ofChar '"', _, quote_append t [] ▸ (List.append_nil _).symm, rfl⟩
  · intro fuel rest hfuel hrest
    have hlength := length_quote t
    obtain ⟨fuel, rfl⟩ := Nat.exists_eq_add_one_of_ne_zero (show fuel ≠ 0 by omega)
    have hquote : (CodePoint.ofChar '"').is '"' = true := rfl
    rw [quote_append, valueFrom]
    simp only [hquote, textFrom_quoted t rest fuel [] (by omega), if_true, List.reverse_nil,
      List.nil_append]

theorem join_singleton (separator t : Text) : Text.join separator [t] = t := by
  unfold Text.join
  rw [List.intercalate_singleton]

theorem join_cons_cons (separator t u : Text) (ts : List Text) :
    Text.join separator (t :: u :: ts) = t ++ (separator ++ Text.join separator (u :: ts)) := by
  unfold Text.join
  rw [List.intercalate_cons_cons, List.append_assoc]

theorem exists_join_eq_append (separator t : Text) (ts : List Text) :
    ∃ u, Text.join separator (t :: ts) = t ++ u := by
  cases ts with
  | nil => exact ⟨[], by rw [join_singleton, List.append_nil]⟩
  | cons v ts => exact ⟨_, join_cons_cons separator t v ts⟩

section
variable {b s e k : Text}

theorem after?_blanks (hb : Blank b) (d : Char) {rest : Text}
    (hd : (CodePoint.ofChar d).isOneOf blanks = false)
    (hsame : (CodePoint.ofChar d).is d = true) :
    after? [d] (skipBlanks (b ++ .ofChar d :: rest)) = some rest := by
  rw [skipBlanks_append hb, skipBlanks_cons hd]
  exact if_pos hsame

/-- Items up to the end of an array, with blanks after the commas and before the end. -/
theorem itemsFrom_join (hs : Blank s) (he : Blank e) (items : List (Json × Text)) :
    ∀ (p : Json × Text), (∀ q ∈ p :: items, Reads q.2 q.1) →
      ∀ (fuel : Nat) (done : List Json) (rest : Text),
      (Text.join (.ofChar ',' :: s) ((p :: items).map (·.2))).length < fuel →
        itemsFrom fuel done
          (Text.join (.ofChar ',' :: s) ((p :: items).map (·.2)) ++ (e ++ .ofChar ']' :: rest)) =
            .ok (.array (done.reverse ++ (p :: items).map (·.1)), rest) := by
  induction items with
  | nil =>
    intro p hp fuel done rest hfuel
    obtain ⟨fuel, rfl⟩ := Nat.exists_eq_add_one_of_ne_zero (Nat.ne_zero_of_lt hfuel)
    simp only [List.map_cons, List.map_nil, join_singleton] at hfuel ⊢
    have hstops : Stops (e ++ .ofChar ']' :: rest) := he.stops (Stops.of_cons rfl)
    have hcomma : after? [','] (skipBlanks (e ++ .ofChar ']' :: rest)) = none := by
      rw [skipBlanks_append he, skipBlanks_cons rfl]
      rfl
    rw [itemsFrom, (hp p List.mem_cons_self).reads fuel _ (by omega) hstops]
    simp only [hcomma, after?_blanks he ']' rfl rfl, List.reverse_cons]
  | cons q items ih =>
    intro p hp fuel done rest hfuel
    obtain ⟨fuel, rfl⟩ := Nat.exists_eq_add_one_of_ne_zero (Nat.ne_zero_of_lt hfuel)
    have hq : ∀ r ∈ q :: items, Reads r.2 r.1 := fun r hr => hp r (List.mem_cons_of_mem _ hr)
    rw [List.map_cons, List.map_cons, join_cons_cons] at hfuel ⊢
    rw [List.length_append, List.length_append, List.length_cons] at hfuel
    have hmore := ih q hq fuel (p.1 :: done) rest (by
      rw [List.map_cons]
      omega)
    obtain ⟨u, hu⟩ := exists_join_eq_append (.ofChar ',' :: s) q.2 (items.map (·.2))
    rw [List.map_cons, hu] at hmore
    rw [hu, List.append_assoc, List.append_assoc, List.cons_append, List.append_assoc,
      itemsFrom, (hp p List.mem_cons_self).reads fuel _ (by omega) (Stops.of_cons rfl)]
    have hcomma (t : Text) : after? [','] (skipBlanks (.ofChar ',' :: t)) = some t :=
      after?_blanks blank_nil ',' rfl rfl
    simp only [hcomma, skipBlanks_append hs]
    rw [List.append_assoc] at hmore
    rw [(hq q List.mem_cons_self).starts.skipBlanks_eq, hmore]
    simp

theorem reads_array (hb : Blank b) (hs : Blank s) (he : Blank e) {items : List (Json × Text)}
    (h : ∀ p ∈ items, Reads p.2 p.1) :
    Reads (enclosed (Text.ofString "[" ++ b) (e ++ Text.ofString "]") (.ofChar ',' :: s) (items.map (·.2)))
      (.array (items.map (·.1))) := by
  have htext (rest : Text) :
      enclosed (Text.ofString "[" ++ b) (e ++ Text.ofString "]") (.ofChar ',' :: s) (items.map (·.2)) ++ rest =
        .ofChar '[' ::
          (b ++ (Text.join (.ofChar ',' :: s) (items.map (·.2)) ++ (e ++ .ofChar ']' :: rest))) := by
    unfold enclosed
    simp only [List.append_assoc]
    rfl
  constructor
  · exact ⟨.ofChar '[', _, (List.append_nil _).symm.trans (htext []), rfl⟩
  · intro fuel rest hfuel hrest
    have hlength := congrArg List.length ((List.append_nil _).symm.trans (htext []))
    simp only [List.length_cons, List.length_append] at hlength
    obtain ⟨fuel, rfl⟩ := Nat.exists_eq_add_one_of_ne_zero (show fuel ≠ 0 by omega)
    have hquote : (CodePoint.ofChar '[').is '"' = false := rfl
    have hbracket : (CodePoint.ofChar '[').is '[' = true := rfl
    rw [htext, valueFrom]
    simp only [hquote, hbracket, skipBlanks_append hb, Bool.false_eq_true, if_true, if_false]
    cases items with
    | nil =>
      have hempty : Text.join (.ofChar ',' :: s) [] ++ (e ++ .ofChar ']' :: rest) =
          e ++ .ofChar ']' :: rest := rfl
      simp only [List.map_nil, hempty, after?_blanks he ']' rfl rfl]
    | cons p items =>
      have hread := itemsFrom_join hs he items p h fuel [] rest (by omega)
      obtain ⟨u, hu⟩ := exists_join_eq_append (.ofChar ',' :: s) p.2 (items.map (·.2))
      rw [List.map_cons, hu, List.append_assoc] at hread ⊢
      have hp := h p List.mem_cons_self
      simp only [hp.starts.skipBlanks_eq, after?_bracket_of_reads hp, hread, List.reverse_nil,
        List.nil_append]

theorem put_of_not_mem {name : Text} {v : Json} {done : List (Text × Json)} (h : name ∉ done.map (·.1)) :
    Keyed.put name v done = done ++ [(name, v)] := by
  induction done with
  | nil => rfl
  | cons p done ih =>
    rw [List.map_cons, List.mem_cons, not_or] at h
    rw [Keyed.put, if_neg (Ne.symm h.1), ih h.2, List.cons_append]

def fieldText (k : Text) (f : Text × Json × Text) : Text := quote f.1 ++ (.ofChar ':' :: (k ++ f.2.2))

theorem fieldsFrom_field (hk : Blank k) {f : Text × Json × Text} (hname : f.1.Whole)
    (hvalue : Reads f.2.2 f.2.1)
    {fuel : Nat} (done : List (Text × Json)) {rest : Text} (hfuel : (fieldText k f).length ≤ fuel)
    (hrest : Stops rest) :
    (∀ more, after? [','] (skipBlanks rest) = some more →
      fieldsFrom (fuel + 1) done (fieldText k f ++ rest) =
        fieldsFrom fuel (Keyed.put f.1 f.2.1 done) (skipBlanks more)) ∧
      ∀ more, after? [','] (skipBlanks rest) = none → after? ['\x7d'] (skipBlanks rest) = some more →
        fieldsFrom (fuel + 1) done (fieldText k f ++ rest) =
          .ok (.object (Keyed.put f.1 f.2.1 done), more) := by
  have hlength := length_quote f.1
  unfold fieldText at hfuel ⊢
  rw [List.length_append, List.length_cons, List.length_append] at hfuel
  have hquote (t : Text) : after? ['"'] (.ofChar '"' :: t) = some t := rfl
  have hcolon (t : Text) : after? [':'] (skipBlanks (.ofChar ':' :: t)) = some t :=
    after?_blanks blank_nil ':' rfl rfl
  rw [List.append_assoc, List.cons_append, List.append_assoc, quote_append, fieldsFrom]
  simp only [hquote, textFrom_quoted f.1 _ fuel [] (show f.1.length < fuel by omega),
    Text.joined_eq_self_iff.mpr hname, List.reverse_nil, List.nil_append, hcolon, skipBlanks_append hk,
    hvalue.starts.skipBlanks_eq, hvalue.reads fuel rest (by omega) hrest]
  constructor
  · intro more hcomma
    simp only [hcomma]
  · intro more hcomma hend
    simp only [hcomma, hend]

theorem quote_start (t rest : Text) : skipBlanks (quote t ++ rest) = quote t ++ rest ∧
    after? ['\x7d'] (quote t ++ rest) = none := by
  rw [quote_append]
  exact ⟨skipBlanks_cons rfl, rfl⟩

theorem not_mem_done {done : List (Text × Json)} {f : Text × Json × Text}
    {fields : List (Text × Json × Text)}
    (h : (done.map (·.1) ++ (f :: fields).map (·.1)).Nodup) : f.1 ∉ done.map (·.1) := by
  intro hmem
  have hdisjoint := (List.nodup_append.mp h).2.2
  exact hdisjoint _ hmem _ List.mem_cons_self rfl

theorem fieldsFrom_join (hk : Blank k) (hs : Blank s) (he : Blank e) (fields : List (Text × Json × Text)) :
    ∀ (f : Text × Json × Text), (∀ g ∈ f :: fields, g.1.Whole ∧ Reads g.2.2 g.2.1) →
      ∀ (fuel : Nat) (done : List (Text × Json)) (rest : Text),
        (done.map (·.1) ++ (f :: fields).map (·.1)).Nodup →
        (Text.join (.ofChar ',' :: s) ((f :: fields).map (fieldText k))).length < fuel →
          fieldsFrom fuel done
            (Text.join (.ofChar ',' :: s) ((f :: fields).map (fieldText k)) ++
              (e ++ .ofChar '\x7d' :: rest)) =
              .ok (.object (done ++ (f :: fields).map fun g => (g.1, g.2.1)), rest) := by
  induction fields with
  | nil =>
    intro f hf fuel done rest hnodup hfuel
    obtain ⟨fuel, rfl⟩ := Nat.exists_eq_add_one_of_ne_zero (Nat.ne_zero_of_lt hfuel)
    have hnew := not_mem_done hnodup
    obtain ⟨hname, hvalue⟩ := hf f List.mem_cons_self
    simp only [List.map_cons, List.map_nil, join_singleton] at hfuel ⊢
    have hstops : Stops (e ++ .ofChar '\x7d' :: rest) := he.stops (Stops.of_cons rfl)
    have hcomma : after? [','] (skipBlanks (e ++ .ofChar '\x7d' :: rest)) = none := by
      rw [skipBlanks_append he, skipBlanks_cons rfl]
      rfl
    have hend : after? ['\x7d'] (skipBlanks (e ++ .ofChar '\x7d' :: rest)) = some rest :=
      after?_blanks he '\x7d' rfl rfl
    rw [(fieldsFrom_field hk hname hvalue done (by omega) hstops).2 rest hcomma hend, put_of_not_mem hnew]
  | cons g fields ih =>
    intro f hf fuel done rest hnodup hfuel
    obtain ⟨fuel, rfl⟩ := Nat.exists_eq_add_one_of_ne_zero (Nat.ne_zero_of_lt hfuel)
    have hg : ∀ r ∈ g :: fields, r.1.Whole ∧ Reads r.2.2 r.2.1 :=
      fun r hr => hf r (List.mem_cons_of_mem _ hr)
    obtain ⟨hname, hvalue⟩ := hf f List.mem_cons_self
    have hnew := not_mem_done hnodup
    rw [List.map_cons, List.map_cons, join_cons_cons] at hfuel ⊢
    rw [List.length_append, List.length_append, List.length_cons] at hfuel
    have hnodup' : ((done ++ [(f.1, f.2.1)]).map (·.1) ++ (g :: fields).map (·.1)).Nodup := by
      simpa using hnodup
    have hmore := ih g hg fuel (done ++ [(f.1, f.2.1)]) rest hnodup' (by
      rw [List.map_cons]
      omega)
    have hstart : ∃ u, Text.join (.ofChar ',' :: s) (fieldText k g :: fields.map (fieldText k)) =
        quote g.1 ++ u := by
      obtain ⟨u, hu⟩ := exists_join_eq_append (.ofChar ',' :: s) (fieldText k g) (fields.map (fieldText k))
      exact ⟨_, hu.trans (List.append_assoc _ _ _)⟩
    obtain ⟨u, hu⟩ := hstart
    rw [List.map_cons, hu, List.append_assoc] at hmore
    rw [hu, List.append_assoc, List.append_assoc, List.cons_append, List.append_assoc,
      (fieldsFrom_field hk hname hvalue done (by omega) (Stops.of_cons rfl)).1 _
        (after?_blanks blank_nil ',' rfl rfl),
      put_of_not_mem hnew, skipBlanks_append hs, (quote_start g.1 _).1, hmore]
    simp

theorem reads_object (hk : Blank k) (hb : Blank b) (hs : Blank s) (he : Blank e)
    {fields : List (Text × Json × Text)} (h : ∀ f ∈ fields, f.1.Whole ∧ Reads f.2.2 f.2.1)
    (hnodup : (fields.map (·.1)).Nodup) :
    Reads (enclosed (Text.ofString "\x7b" ++ b) (e ++ Text.ofString "\x7d") (.ofChar ',' :: s)
      (fields.map (fieldText k))) (.object (fields.map fun f => (f.1, f.2.1))) := by
  have htext (rest : Text) : enclosed (Text.ofString "\x7b" ++ b) (e ++ Text.ofString "\x7d")
      (.ofChar ',' :: s) (fields.map (fieldText k)) ++ rest = .ofChar '\x7b' :: (b ++
        (Text.join (.ofChar ',' :: s) (fields.map (fieldText k)) ++ (e ++ .ofChar '\x7d' :: rest))) := by
    unfold enclosed
    simp only [List.append_assoc]
    rfl
  constructor
  · exact ⟨.ofChar '\x7b', _, (List.append_nil _).symm.trans (htext []), rfl⟩
  · intro fuel rest hfuel hrest
    have hlength := congrArg List.length ((List.append_nil _).symm.trans (htext []))
    simp only [List.length_cons, List.length_append] at hlength
    obtain ⟨fuel, rfl⟩ := Nat.exists_eq_add_one_of_ne_zero (show fuel ≠ 0 by omega)
    have hquote : (CodePoint.ofChar '\x7b').is '"' = false := rfl
    have hbracket : (CodePoint.ofChar '\x7b').is '[' = false := rfl
    have hbrace : (CodePoint.ofChar '\x7b').is '\x7b' = true := rfl
    rw [htext, valueFrom]
    simp only [hquote, hbracket, hbrace, skipBlanks_append hb, Bool.false_eq_true, if_true, if_false]
    cases fields with
    | nil =>
      have hempty : Text.join (.ofChar ',' :: s) [] ++ (e ++ .ofChar '\x7d' :: rest) =
          e ++ .ofChar '\x7d' :: rest := rfl
      simp only [List.map_nil, hempty, after?_blanks he '\x7d' rfl rfl]
    | cons f fields =>
      have hread := fieldsFrom_join hk hs he fields f h fuel [] rest hnodup (by omega)
      obtain ⟨u, hu⟩ := exists_join_eq_append (.ofChar ',' :: s) (fieldText k f) (fields.map (fieldText k))
      rw [List.map_cons, hu, List.append_assoc, fieldText, List.append_assoc] at hread ⊢
      obtain ⟨hskip, hnone⟩ := quote_start f.1
        ((.ofChar ':' :: (k ++ f.2.2)) ++ (u ++ (e ++ .ofChar '\x7d' :: rest)))
      simp only [hskip, hnone, hread, List.nil_append]

end

theorem read_eq_ok {t b : Text} {v : Json} (h : Reads t v) (hb : Blank b) : read (t ++ b) = .ok v := by
  have hstops : Stops b := by
    have hnil := hb.stops stops_nil
    rwa [List.append_nil] at hnil
  have hend : skipBlanks b = [] := by
    have hnil := skipBlanks_append (t := []) hb
    rwa [List.append_nil] at hnil
  unfold read
  rw [h.starts.skipBlanks_eq, h.reads _ b (by rw [List.length_append]; omega) hstops]
  simp only [hend, List.isEmpty_nil, if_true]

/-- The value is read back from its text. -/
def RoundTrips (v : Json) : Prop := read v.compact = .ok v

theorem roundTrips_text_iff {t : Text} : (Json.text t).RoundTrips ↔ t.Whole := by
  have hread := read_eq_ok (reads_quote t) blank_nil
  rw [List.append_nil] at hread
  rw [RoundTrips, compact, hread, Except.ok.injEq, Json.text.injEq, Text.joined_eq_self_iff]

theorem roundTrips_int_iff {i : Int} : (Json.int i).RoundTrips ↔ i.natAbs < 10 ^ Decimal.digitLimit := by
  rw [RoundTrips, compact]
  constructor
  · intro hread
    by_contra hlarge
    have hword := word_ofInt i stops_nil
    rw [if_neg hlarge, List.append_nil] at hword
    have hne : word (Text.ofInt i) ≠ .error .malformed := by
      rw [hword]
      exact nofun
    have hskip := (starts_of_word hne).skipBlanks_eq []
    rw [List.append_nil] at hskip
    unfold read at hread
    rw [hskip, valueFrom_of_word hne, hword] at hread
    cases hread
  · intro hsmall
    have hread := read_eq_ok (reads_ofInt hsmall) blank_nil
    rwa [List.append_nil] at hread

end ScalarGraph.Json
