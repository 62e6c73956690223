import Mathlib.Data.List.Dedup
import Mathlib.Data.List.Forall2
import Mathlib.Data.List.Perm.Basic

/-! # Lists

What is used of lists in general: entries in the same places of two lists, maps that may fail, keys
and permutations. A map that may fail succeeds where it does so for every entry, and fails at the first
entry that it cannot take.
-/
namespace ScalarGraph
variable {ι κ μ ε : Type}

section
variable {x : Except ε ι} {f : ι → Except ε κ}

theorem bind_eq_ok {y : κ} : x >>= f = .ok y ↔ ∃ a, x = .ok a ∧ f a = .ok y := by
  cases x <;> simp [bind, Except.bind]

theorem bind_eq_error {e : ε} : x >>= f = .error e ↔ x = .error e ∨ ∃ a, x = .ok a ∧ f a = .error e := by
  cases x <;> simp [bind, Except.bind]

end

section
variable {P : ι → κ → Prop} {xs : List ι} {ys : List κ}

theorem exists_of_forall₂ (h : List.Forall₂ P xs ys) {x : ι} (hx : x ∈ xs) : ∃ y ∈ ys, P x y := by
  induction h with
  | nil => cases hx
  | cons hxy _ ih =>
    rcases List.mem_cons.mp hx with rfl | hx
    · exact ⟨_, List.mem_cons_self, hxy⟩
    · obtain ⟨y, hy, hxy⟩ := ih hx
      exact ⟨y, List.mem_cons_of_mem _ hy, hxy⟩

theorem exists_of_forall₂_right (h : List.Forall₂ P xs ys) {y : κ} (hy : y ∈ ys) :
    ∃ x ∈ xs, P x y :=
  exists_of_forall₂ (List.Forall₂.flip (R := flip P) h) hy

theorem exists_forall₂ (h : ∀ x ∈ xs, ∃ y, P x y) : ∃ ys, List.Forall₂ P xs ys := by
  induction xs with
  | nil => exact ⟨[], .nil⟩
  | cons x xs ih =>
    obtain ⟨⟨y, hy⟩, htail⟩ := List.forall_mem_cons.mp h
    obtain ⟨ys, hys⟩ := ih htail
    exact ⟨y :: ys, .cons hy hys⟩

theorem exists_getElem?_of_forall₂ (h : List.Forall₂ P xs ys) {i : Nat} {y : κ} (hy : ys[i]? = some y) :
    ∃ x, xs[i]? = some x ∧ P x y := by
  obtain ⟨hi, rfl⟩ := List.getElem?_eq_some_iff.mp hy
  have hi' : i < xs.length := h.length_eq ▸ hi
  exact ⟨xs[i], List.getElem?_eq_getElem hi', h.get hi' hi⟩

theorem map_eq_map_iff {f : ι → μ} {g : κ → μ} :
    xs.map f = ys.map g ↔ List.Forall₂ (fun x y => f x = g y) xs ys := by
  rw [← List.forall₂_eq_eq_eq, List.forall₂_map_left_iff, List.forall₂_map_right_iff]

theorem map_eq_of_forall₂ (h : List.Forall₂ P xs ys) {f : ι → μ} {g : κ → μ}
    (hfg : ∀ x y, P x y → f x = g y) : xs.map f = ys.map g :=
  map_eq_map_iff.mpr (h.imp fun x y => hfg x y)

theorem forall₂_mem (h : List.Forall₂ P xs ys) :
    List.Forall₂ (fun x y => x ∈ xs ∧ y ∈ ys ∧ P x y) xs ys :=
  List.forall₂_iff_zip.mpr ⟨h.length_eq, fun hxy =>
    ⟨(List.of_mem_zip hxy).1, (List.of_mem_zip hxy).2, List.forall₂_zip h hxy⟩⟩

theorem forall₂_forall {ν : Type} [Nonempty ν] {Q : ν → ι → κ → Prop}
    (h : ∀ i, List.Forall₂ (Q i) xs ys) : List.Forall₂ (fun x y => ∀ i, Q i x y) xs ys := by
  obtain ⟨i⟩ := ‹Nonempty ν›
  refine List.forall₂_iff_zip.mpr ⟨(h i).length_eq, fun hxy j => List.forall₂_zip (h j) hxy⟩

theorem forall₂_toList {x : Option ι} {y : Option κ} (h : Option.Rel P x y) :
    List.Forall₂ P x.toList y.toList := by
  cases h with
  | some hxy => exact .cons hxy .nil
  | none => exact .nil

theorem forall₂_zip_right (h : List.Forall₂ P xs ys) :
    List.Forall₂ (fun x p => p.1 = x ∧ P x p.2) xs (xs.zip ys) := by
  induction h with
  | nil => exact .nil
  | cons hxy _ ih => exact .cons ⟨rfl, hxy⟩ ih

end

theorem eq_of_map_eq {f : ι → κ} {xs ys : List ι} (h : xs.map f = ys.map f)
    (hf : ∀ x ∈ xs, ∀ y ∈ ys, f x = f y → x = y) : xs = ys := by
  rw [← List.forall₂_eq_eq_eq]
  exact (forall₂_mem (map_eq_map_iff.mp h)).imp fun x y ⟨hx, hy, hxy⟩ => hf x hx y hy hxy

theorem outputs_map (f : ι → κ) (primary : Option ι) (secondary : List ι) :
    (primary.map f).toList ++ secondary.map f = (primary.toList ++ secondary).map f := by
  rw [Option.toList_map, List.map_append]

section
variable {m : Type → Type} [Monad m] [LawfulMonad m] {xs : List ι}

theorem mapM_list_eq {f : ι → m κ} {g : ι → κ} (h : ∀ x ∈ xs, f x = pure (g x)) :
    xs.mapM f = pure (xs.map g) := by
  induction xs with
  | nil => rfl
  | cons x xs ih =>
    rw [List.mapM_cons, h x List.mem_cons_self, ih fun y hy => h y (List.mem_cons_of_mem _ hy)]
    simp

theorem mapM_list_congr {f g : ι → m κ} (h : ∀ x ∈ xs, f x = g x) : xs.mapM f = xs.mapM g := by
  induction xs with
  | nil => rfl
  | cons x xs ih =>
    rw [List.mapM_cons, List.mapM_cons, h x List.mem_cons_self,
      ih fun y hy => h y (List.mem_cons_of_mem _ hy)]

end

section
variable {f : ι → Option κ} {xs : List ι}

theorem list_mapM_eq_some {ys : List κ} :
    xs.mapM f = some ys ↔ List.Forall₂ (fun x y => f x = some y) xs ys := by
  induction xs generalizing ys with
  | nil => cases ys <;> simp
  | cons x xs ih =>
    rw [List.mapM_cons, List.forall₂_cons_left_iff]
    constructor
    · intro h
      obtain ⟨y, hy, h⟩ := Option.bind_eq_some_iff.mp h
      obtain ⟨zs, hzs, ⟨⟩⟩ := Option.bind_eq_some_iff.mp h
      exact ⟨y, zs, hy, ih.mp hzs, rfl⟩
    · rintro ⟨y, zs, hy, hzs, rfl⟩
      rw [hy, ih.mpr hzs]
      rfl

theorem of_list_mapM_eq_some {ys : List κ} (h : xs.mapM f = some ys) : xs.map f = ys.map some :=
  map_eq_of_forall₂ (list_mapM_eq_some.mp h) fun _ _ => id

theorem exists_list_mapM (h : ∀ x ∈ xs, ∃ y, f x = some y) : ∃ ys, xs.mapM f = some ys := by
  obtain ⟨ys, hys⟩ := exists_forall₂ h
  exact ⟨ys, list_mapM_eq_some.mpr hys⟩

theorem exists_of_mapM_eq_none (h : xs.mapM f = none) : ∃ x ∈ xs, f x = none := by
  by_contra hall
  push Not at hall
  obtain ⟨ys, hys⟩ := exists_list_mapM fun x hx => Option.ne_none_iff_exists'.mp (hall x hx)
  rw [h] at hys
  cases hys

theorem mapM_eq_none {x : ι} (hx : x ∈ xs) (hnone : f x = none) : xs.mapM f = none := by
  cases h : xs.mapM f with
  | none => rfl
  | some ys =>
    obtain ⟨y, -, hy⟩ := exists_of_forall₂ (list_mapM_eq_some.mp h) hx
    rw [hnone] at hy
    cases hy

theorem mem_filterMap_id {x : ι} {os : List (Option ι)} : x ∈ os.filterMap id ↔ some x ∈ os := by
  simp

theorem mapM_id_map_some : (xs.map some).mapM id = some xs := by
  rw [List.mapM_map]
  exact List.mapM_pure.trans (congrArg some (List.map_id xs))

end

section
variable {f : ι → Except ε κ} {xs : List ι} {ys : List κ}

theorem mapM_eq_ok : xs.mapM f = .ok ys ↔ List.Forall₂ (fun x y => f x = .ok y) xs ys := by
  induction xs generalizing ys with
  | nil => cases ys <;> simp [pure, Except.pure]
  | cons x xs ih =>
    rw [List.mapM_cons, bind_eq_ok, List.forall₂_cons_left_iff]
    constructor
    · rintro ⟨y, hy, h⟩
      obtain ⟨zs, hzs, ⟨⟩⟩ := bind_eq_ok.mp h
      exact ⟨y, zs, hy, ih.mp hzs, rfl⟩
    · rintro ⟨y, zs, hy, hzs, rfl⟩
      exact ⟨y, hy, bind_eq_ok.mpr ⟨zs, ih.mpr hzs, rfl⟩⟩

theorem exists_of_list_mapM_eq_ok (h : xs.mapM f = .ok ys) : ∀ x ∈ xs, ∃ y ∈ ys, f x = .ok y :=
  fun _ => exists_of_forall₂ (mapM_eq_ok.mp h)

theorem of_list_mapM_eq_ok (h : xs.mapM f = .ok ys) : ∀ y ∈ ys, ∃ x ∈ xs, f x = .ok y :=
  fun _ => exists_of_forall₂_right (mapM_eq_ok.mp h)

theorem map_of_mapM_eq_ok {p : ι → μ} {q : κ → μ} (h : xs.mapM f = .ok ys)
    (hf : ∀ x y, f x = .ok y → q y = p x) : ys.map q = xs.map p :=
  (map_eq_of_forall₂ (mapM_eq_ok.mp h) fun x y hxy => (hf x y hxy).symm).symm

/-- A fold fails at the first entry that it cannot take. -/
theorem foldlM_eq_error {σ : Type} {f : σ → ι → Except ε σ} {s : σ} {e : ε} :
    xs.foldlM f s = .error e ↔
      ∃ l₁ x l₂ s', xs = l₁ ++ x :: l₂ ∧ l₁.foldlM f s = .ok s' ∧ f s' x = .error e := by
  induction xs generalizing s with
  | nil =>
    refine ⟨nofun, ?_⟩
    rintro ⟨l₁, x, l₂, -, h, -⟩
    cases l₁ <;> cases h
  | cons y xs ih =>
    rw [List.foldlM_cons, bind_eq_error]
    constructor
    · rintro (h | ⟨s₁, h₁, h⟩)
      · exact ⟨[], y, xs, s, rfl, rfl, h⟩
      · obtain ⟨l₁, x, l₂, s', rfl, hl, hx⟩ := ih.mp h
        exact ⟨y :: l₁, x, l₂, s', rfl, bind_eq_ok.mpr ⟨s₁, h₁, hl⟩, hx⟩
    · rintro ⟨l₁, x, l₂, s', hsplit, hl, hx⟩
      cases l₁ with
      | nil =>
        obtain ⟨rfl, -⟩ := List.cons.inj hsplit
        cases hl
        exact .inl hx
      | cons z l₁ =>
        obtain ⟨rfl, htail⟩ := List.cons.inj hsplit
        obtain ⟨s₁, h₁, hl⟩ := bind_eq_ok.mp hl
        exact .inr ⟨s₁, h₁, ih.mpr ⟨l₁, x, l₂, s', htail, hl, hx⟩⟩

/-- A map fails at the first entry that it cannot take. -/
theorem mapM_eq_error {e : ε} : xs.mapM f = .error e ↔
    ∃ l₁ x l₂, xs = l₁ ++ x :: l₂ ∧ (∀ y ∈ l₁, ∃ z, f y = .ok z) ∧ f x = .error e := by
  induction xs with
  | nil =>
    refine ⟨nofun, ?_⟩
    rintro ⟨l₁, x, l₂, h, -⟩
    cases l₁ <;> cases h
  | cons y xs ih =>
    have htail : (do return (← f y) :: (← xs.mapM f)) = .error e ↔
        f y = .error e ∨ (∃ z, f y = .ok z) ∧ xs.mapM f = .error e := by
      rw [bind_eq_error]
      refine or_congr_right ?_
      constructor
      · rintro ⟨z, hz, h⟩
        rcases bind_eq_error.mp h with h | ⟨zs, -, ⟨⟩⟩
        exact ⟨⟨z, hz⟩, h⟩
      · rintro ⟨⟨z, hz⟩, h⟩
        exact ⟨z, hz, bind_eq_error.mpr (.inl h)⟩
    rw [List.mapM_cons, htail, ih]
    constructor
    · rintro (h | ⟨hy, l₁, x, l₂, rfl, hl, hx⟩)
      · exact ⟨[], y, xs, rfl, by simp, h⟩
      · exact ⟨y :: l₁, x, l₂, rfl, List.forall_mem_cons.mpr ⟨hy, hl⟩, hx⟩
    · rintro ⟨l₁, x, l₂, hsplit, hl, hx⟩
      cases l₁ with
      | nil =>
        obtain ⟨rfl, -⟩ := List.cons.inj hsplit
        exact .inl hx
      | cons z l₁ =>
        obtain ⟨rfl, htail⟩ := List.cons.inj hsplit
        obtain ⟨hy, hl⟩ := List.forall_mem_cons.mp hl
        exact .inr ⟨hy, l₁, x, l₂, htail, hl, hx⟩

theorem exists_mapM_eq_ok : (∃ ys, xs.mapM f = .ok ys) ↔ ∀ x ∈ xs, ∃ y, f x = .ok y := by
  constructor
  · rintro ⟨ys, h⟩ x hx
    obtain ⟨y, -, hy⟩ := exists_of_list_mapM_eq_ok h x hx
    exact ⟨y, hy⟩
  · intro h
    obtain ⟨ys, hys⟩ := exists_forall₂ h
    exact ⟨ys, mapM_eq_ok.mpr hys⟩

theorem mapM_perm {xs' : List ι} (h : xs.Perm xs') (hys : xs.mapM f = .ok ys) :
    ∃ ys', xs'.mapM f = .ok ys' ∧ ys.Perm ys' := by
  obtain ⟨ys', hys'⟩ := exists_mapM_eq_ok.mpr fun x hx =>
    exists_mapM_eq_ok.mp ⟨ys, hys⟩ x (h.mem_iff.mpr hx)
  refine ⟨ys', hys', (List.map_perm_map_iff fun _ _ => Except.ok.inj (ε := ε)).mp ?_⟩
  rw [map_of_mapM_eq_ok hys fun _ _ => Eq.symm, map_of_mapM_eq_ok hys' fun _ _ => Eq.symm]
  exact h.map f

end

section
variable [BEq ι] [LawfulBEq ι] {ps qs : List (ι × κ)} {k : ι}

theorem lookup_of_mem (hps : (ps.map Prod.fst).Nodup) {v : κ} (h : (k, v) ∈ ps) :
    ps.lookup k = some v := by
  induction ps with
  | nil => cases h
  | cons p ps ih =>
    obtain ⟨hp, hps⟩ := List.nodup_cons.mp hps
    rcases List.mem_cons.mp h with rfl | h
    · simp
    · have hne : (k == p.1) = false := by
        simp only [beq_eq_false_iff_ne]
        rintro rfl
        exact hp (List.mem_map.mpr ⟨_, h, rfl⟩)
      rw [List.lookup_cons, hne]
      exact ih hps h

theorem lookup_eq_none_of_notMem (h : k ∉ ps.map Prod.fst) : ps.lookup k = none := by
  rw [List.lookup_eq_none_iff]
  intro p hp
  simp only [bne_iff_ne, ne_eq]
  rintro rfl
  exact h (List.mem_map_of_mem hp)

theorem lookup_perm (hps : (ps.map Prod.fst).Nodup) (h : ps.Perm qs) (k : ι) :
    ps.lookup k = qs.lookup k := by
  cases hk : ps.lookup k with
  | none =>
    rw [List.lookup_eq_none_iff] at hk
    exact (List.lookup_eq_none_iff.mpr fun p hp => hk p (h.mem_iff.mpr hp)).symm
  | some v =>
    obtain ⟨l₁, l₂, hl, -⟩ := List.lookup_eq_some_iff.mp hk
    refine (lookup_of_mem ((h.map _).nodup_iff.mp hps) (h.mem_iff.mp ?_)).symm
    simp [hl]

end

theorem eq_of_map_snd_eq {xs ys : List (ι × κ)} (hkeys : xs.map Prod.snd = ys.map Prod.snd)
    (hnodup : (ys.map Prod.snd).Nodup) (hsub : ∀ p ∈ xs, p ∈ ys) : xs = ys :=
  eq_of_map_eq hkeys fun p hp _ hq hpq =>
    List.inj_on_of_nodup_map hnodup (hsub p hp) hq hpq

theorem mem_zip_of_map_eq {f : ι → Option κ} {xs : List κ} {wanted : List ι}
    (h : wanted.map f = xs.map some) {c : κ} {r : ι} :
    (c, r) ∈ xs.zip wanted ↔ r ∈ wanted ∧ f r = some c := by
  induction wanted generalizing xs with
  | nil => simp
  | cons s wanted ih =>
    cases xs with
    | nil => cases h
    | cons x xs =>
      obtain ⟨hs, hrest⟩ := List.cons.inj h
      rw [List.zip_cons_cons, List.mem_cons, ih hrest, List.mem_cons, Prod.mk.injEq]
      constructor
      · rintro (⟨rfl, rfl⟩ | ⟨hr, hrc⟩)
        · exact ⟨.inl rfl, hs⟩
        · exact ⟨.inr hr, hrc⟩
      · rintro ⟨rfl | hr, hrc⟩
        · exact .inl ⟨Option.some.inj (hrc.symm.trans hs), rfl⟩
        · exact .inr ⟨hr, hrc⟩

theorem getElem?_range_map (f : Nat → κ) {n j : Nat} (hj : j < n) :
    ((List.range n).map f)[j]? = some (f j) := by
  rw [List.getElem?_map, List.getElem?_range hj]
  rfl

theorem pairwise_reverse_range (n : Nat) : (List.range n).reverse.Pairwise (· > ·) :=
  List.pairwise_reverse.mpr List.pairwise_lt_range

theorem foldl_max_le_iff (f : ι → Nat) {xs : List ι} {m n : Nat} :
    xs.foldl (fun m x => max m (f x)) m ≤ n ↔ m ≤ n ∧ ∀ x ∈ xs, f x ≤ n := by
  induction xs generalizing m with
  | nil => simp
  | cons x xs ih => rw [List.foldl_cons, ih, Nat.max_le, List.forall_mem_cons, and_assoc]

theorem foldl_max_eq_or (f : ι → Nat) (xs : List ι) (m : Nat) :
    xs.foldl (fun m x => max m (f x)) m = m ∨ ∃ x ∈ xs, f x = xs.foldl (fun m x => max m (f x)) m := by
  induction xs generalizing m with
  | nil => exact .inl rfl
  | cons x xs ih =>
    rw [List.foldl_cons]
    rcases ih (max m (f x)) with heq | ⟨y, hy, heq⟩
    · rcases Nat.le_total (f x) m with hle | hle
      · exact .inl (heq.trans (Nat.max_eq_left hle))
      · exact .inr ⟨x, List.mem_cons_self, (heq.trans (Nat.max_eq_right hle)).symm⟩
    · exact .inr ⟨y, List.mem_cons_of_mem x hy, heq⟩

theorem eraseDups_eq_self [BEq ι] [LawfulBEq ι] {xs : List ι} (h : xs.Nodup) : xs.eraseDups = xs := by
  induction xs with
  | nil => rfl
  | cons x xs ih =>
    obtain ⟨hx, hxs⟩ := List.nodup_cons.mp h
    have hfilter : xs.filter (fun y => !y == x) = xs := by
      refine List.filter_eq_self.mpr fun y hy => ?_
      have hne : y ≠ x := fun h => hx (h ▸ hy)
      simpa using hne
    rw [List.eraseDups_cons, hfilter, ih hxs]

theorem dedup_append_eq [BEq ι] [DecidableEq ι] [LawfulBEq ι] (l₁ l₂ : List ι) :
    (l₁ ++ l₂).dedup = l₁.dedup.filter (· ∉ l₂) ++ l₂.dedup := by
  induction l₁ with
  | nil => rfl
  | cons x l₁ ih =>
    rw [List.cons_append]
    by_cases hx : x ∈ l₁
    · rw [List.dedup_cons_of_mem (List.mem_append_left _ hx), List.dedup_cons_of_mem hx, ih]
    · rw [List.dedup_cons_of_notMem hx, List.filter_cons]
      by_cases hx₂ : x ∈ l₂
      · rw [List.dedup_cons_of_mem (List.mem_append_right _ hx₂), ih]
        simp [hx₂]
      · have hnot : x ∉ l₁ ++ l₂ := fun h => (List.mem_append.mp h).elim hx hx₂
        rw [List.dedup_cons_of_notMem hnot, ih]
        simp [hx₂]

end ScalarGraph
