import ScalarGraph.Json.Reader

/-! # Distinct names

The objects that the reader makes have no name twice, at any depth.
-/
namespace ScalarGraph.Json

inductive Distinct : Json → Prop
  | null : Distinct .null
  | bool (b : Bool) : Distinct (.bool b)
  | int (i : Int) : Distinct (.int i)
  | real (x : Float) : Distinct (.real x)
  | text (t : Text) : Distinct (.text t)
  | array {items : List Json} (h : ∀ v ∈ items, Distinct v) : Distinct (.array items)
  | object {fields : List (Text × Json)} (names : (fields.map (·.1)).Nodup)
      (h : ∀ p ∈ fields, Distinct p.2) : Distinct (.object fields)

theorem distinct_of_number {negative : Bool} {t rest : Text} {v : Json}
    (h : number negative t = .ok (v, rest)) :
    Distinct v := by
  unfold number at h
  split at h
  · cases h
  · simp only [] at h
    split at h
    · split at h
      · cases h
      · cases h
        exact .int _
    · cases h
      exact .real _

theorem distinct_of_word {t rest : Text} {v : Json} (h : word t = .ok (v, rest)) : Distinct v := by
  unfold word at h
  simp only [] at h
  split at h
  · next r hr =>
    cases h
    simp only [Option.or_eq_some_iff, Option.map_eq_some_iff, Prod.mk.injEq] at hr
    obtain ⟨-, -, rfl, -⟩ | ⟨-, ⟨-, -, rfl, -⟩ | ⟨-, ⟨-, -, rfl, -⟩ | ⟨-, ⟨-, -, rfl, -⟩ |
      ⟨-, ⟨-, -, rfl, -⟩ | ⟨-, -, -, rfl, -⟩⟩⟩⟩⟩ := hr
    · exact .null
    · exact .bool true
    · exact .bool false
    · exact .real _
    · exact .real _
    · exact .real _
  · split at h
    · exact distinct_of_number h
    · exact distinct_of_number h

section
variable {v : Json} {done : List (Text × Json)}

theorem map_fst_put (name : Text) (v : Json) (done : List (Text × Json)) :
    (Keyed.put name v done).map (·.1) =
      if name ∈ done.map (·.1) then done.map (·.1) else done.map (·.1) ++ [name] := by
  induction done with
  | nil => rfl
  | cons p done ih =>
    unfold Keyed.put
    by_cases hp : p.1 = name
    · rw [if_pos hp, List.map_cons, List.map_cons, if_pos (by simp [hp]), hp]
    · rw [if_neg hp, List.map_cons, List.map_cons, ih]
      simp only [List.mem_cons, Ne.symm hp, false_or]
      split <;> rfl

theorem mem_put {name : Text} {p : Text × Json} (h : p ∈ Keyed.put name v done) :
    p = (name, v) ∨ p ∈ done := by
  induction done with
  | nil => exact .inl (List.mem_singleton.mp h)
  | cons q done ih =>
    unfold Keyed.put at h
    split at h
    · rcases List.mem_cons.mp h with h | h
      · exact .inl h
      · exact .inr (List.mem_cons_of_mem _ h)
    · rcases List.mem_cons.mp h with rfl | h
      · exact .inr List.mem_cons_self
      · rcases ih h with h | h
        · exact .inl h
        · exact .inr (List.mem_cons_of_mem _ h)

theorem Distinct.put (name : Text) (h : Distinct (.object done)) (hv : Distinct v) :
    Distinct (.object (Keyed.put name v done)) := by
  cases h with
  | object names h =>
    constructor
    · rw [map_fst_put]
      split
      · exact names
      · next hnew =>
        refine List.nodup_append.mpr ⟨names, by simp, ?_⟩
        rintro a ha b hb rfl
        exact hnew (List.mem_singleton.mp hb ▸ ha)
    · intro p hp
      rcases mem_put hp with rfl | hp
      · exact hv
      · exact h p hp

end

structure GivesDistinct (fuel : Nat) : Prop where
  value : ∀ t v rest, valueFrom fuel t = .ok (v, rest) → Distinct v
  items : ∀ done t v rest, (∀ u ∈ done, Distinct u) → itemsFrom fuel done t = .ok (v, rest) → Distinct v
  fields : ∀ done t v rest, Distinct (.object done) → fieldsFrom fuel done t = .ok (v, rest) → Distinct v

namespace GivesDistinct
variable {fuel : Nat} {t rest : Text} {v : Json}

theorem zero : GivesDistinct 0 where
  value t v rest h := by
    rw [valueFrom] at h
    cases h
  items done t v rest _ h := by
    rw [itemsFrom] at h
    cases h
  fields done t v rest _ h := by
    rw [fieldsFrom] at h
    cases h

theorem of_valueFrom (ih : GivesDistinct fuel) (h : valueFrom (fuel + 1) t = .ok (v, rest)) :
    Distinct v := by
  cases t with
  | nil =>
    rw [valueFrom] at h
    cases h
  | cons c t =>
    rw [valueFrom] at h
    split at h
    · split at h
      · cases h
        exact .text _
      · cases h
    · split at h
      · split at h
        · cases h
          exact .array (by simp)
        · exact ih.items [] _ v rest (by simp) h
      · split at h
        · split at h
          · cases h
            exact .object List.nodup_nil (by simp)
          · exact ih.fields [] _ v rest (.object List.nodup_nil (by simp)) h
        · exact distinct_of_word h

theorem of_itemsFrom (ih : GivesDistinct fuel) {done : List Json} (hdone : ∀ u ∈ done, Distinct u)
    (h : itemsFrom (fuel + 1) done t = .ok (v, rest)) : Distinct v := by
  rw [itemsFrom] at h
  split at h
  · cases h
  · next u s hu =>
    have hnew : ∀ w ∈ u :: done, Distinct w := List.forall_mem_cons.mpr ⟨ih.value _ _ _ hu, hdone⟩
    split at h
    · exact ih.items _ _ _ _ hnew h
    · split at h
      · cases h
        refine .array fun w hw => hnew w ?_
        exact List.mem_reverse.mp hw
      · cases h

theorem of_fieldsFrom (ih : GivesDistinct fuel) {done : List (Text × Json)}
    (hdone : Distinct (.object done))
    (h : fieldsFrom (fuel + 1) done t = .ok (v, rest)) : Distinct v := by
  rw [fieldsFrom] at h
  split at h
  · cases h
  · split at h
    · cases h
    · next name _ _ =>
      split at h
      · cases h
      · split at h
        · cases h
        · next u s hu =>
          have hnew := hdone.put name (ih.value _ _ _ hu)
          split at h
          · exact ih.fields _ _ _ _ hnew h
          · split at h
            · cases h
              exact hnew
            · cases h

end GivesDistinct

theorem givesDistinct (fuel : Nat) : GivesDistinct fuel := by
  induction fuel with
  | zero => exact .zero
  | succ fuel ih =>
    constructor
    case value => exact fun t v rest h => ih.of_valueFrom h
    case items => exact fun done t v rest hdone h => ih.of_itemsFrom hdone h
    case fields => exact fun done t v rest hdone h => ih.of_fieldsFrom hdone h

theorem distinct_of_read {t : Text} {v : Json} (h : read t = .ok v) : Distinct v := by
  unfold read at h
  split at h
  · cases h
  · next u rest hu =>
    split at h
    · cases h
      exact (givesDistinct _).value _ _ _ hu
    · cases h

end ScalarGraph.Json
