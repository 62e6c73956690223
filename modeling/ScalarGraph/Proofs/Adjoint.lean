import Mathlib.Algebra.Order.BigOperators.Group.List
import Mathlib.Algebra.Order.Group.Nat
import Mathlib.Data.List.Nodup
import ScalarGraph.Proofs.Net

/-! # Adjoints of listed nodes

The adjoint of a node is the sum of what its users pass on to it, and that of the root has one to
start with. Where the sum does not depend on the order of its terms, it does not matter in which order
the nodes are listed, nor by which identifiers they are told apart. Nothing is asked of zero and
of products.
-/
namespace ScalarGraph
variable {α ι κ : Type}

/-- Adjoints can be added in any order. -/
structure Adjoints.Unordered (A : Adjoints α) : Prop where
  comm : ∀ a b, A.add a b = A.add b a
  assoc : ∀ a b c, A.add (A.add a b) c = A.add a (A.add b c)

theorem Adjoints.Unordered.right_comm {A : Adjoints α} (hA : A.Unordered) (a b c : α) :
    A.add (A.add a b) c = A.add (A.add a c) b := by
  rw [hA.assoc, hA.assoc, hA.comm b c]

section
variable [DecidableEq ι]

def Adjoints.total (A : Adjoints α) (a : α) (k : ι) (ds : List (ι × α)) : α :=
  ds.foldl (fun a d => if d.1 = k then A.add a d.2 else a) a

variable {A : Adjoints α} {a : α} {k : ι}

theorem Adjoints.total_append (ds es : List (ι × α)) :
    A.total a k (ds ++ es) = A.total (A.total a k ds) k es := List.foldl_append

theorem Adjoints.total_of_notMem {ds : List (ι × α)} (h : ∀ d ∈ ds, d.1 ≠ k) : A.total a k ds = a := by
  induction ds with
  | nil => rfl
  | cons d ds ih =>
    obtain ⟨hd, hds⟩ := List.forall_mem_cons.mp h
    unfold total
    rw [List.foldl_cons, if_neg hd]
    exact ih hds

theorem Adjoints.Unordered.total_perm (hA : A.Unordered) {ds es : List (ι × α)} (h : ds.Perm es) :
    A.total a k ds = A.total a k es := by
  refine h.foldl_eq' (fun d _ e _ b => ?_) a
  split <;> split
  · exact hA.right_comm b d.2 e.2
  all_goals rfl

theorem Adjoints.total_map [DecidableEq κ] {f : ι → κ} {ds : List (ι × α)}
    (hf : ∀ d ∈ ds, f d.1 = f k → d.1 = k) :
    A.total a (f k) (ds.map (Prod.map f id)) = A.total a k ds := by
  induction ds generalizing a with
  | nil => rfl
  | cons d ds ih =>
    obtain ⟨hd, hds⟩ := List.forall_mem_cons.mp hf
    have hiff : f d.1 = f k ↔ d.1 = k := ⟨hd, congrArg f⟩
    simp only [total, List.map_cons, List.foldl_cons, Prod.map_fst, Prod.map_snd, hiff, id_eq] at ih ⊢
    exact ih hds

end

/-- What a node with value `y` and adjoint `a` passes on to its operands. -/
def Node.passed (C : Calculus α) (V : ι → α) (y a : α) (n : Node α ι) : List (ι × α) :=
  n.operands.zip ((n.map V).shares C y a)

theorem Node.operand_of_mem_passed {C : Calculus α} {V : ι → α} {y a : α} {n : Node α ι} {d : ι × α}
    (h : d ∈ n.passed C V y a) : d.1 ∈ n.operands := (List.of_mem_zip h).1

theorem Node.passed_map (C : Calculus α) {V : κ → α} {f : ι → κ} (y a : α) (n : Node α ι) :
    (n.map f).passed C V y a = (n.passed C (V ∘ f) y a).map (Prod.map f id) := by
  unfold passed
  rw [map_map, operands_map, List.zip_map_left]

abbrev NodeList (α ι : Type) := List (ι × Node α ι)

namespace NodeList

def rename (f : ι → κ) (L : NodeList α ι) : NodeList α κ := L.map fun p => (f p.1, p.2.map f)

variable (C : Calculus α) (skip : Bool) (V A : ι → α)

def passed (L : NodeList α ι) : List (ι × α) :=
  L.flatMap fun p =>
    if skip && C.adjoints.isZero (A p.1) then [] else p.2.passed C V (V p.1) (A p.1)

/-- The adjoints that inputs add to the entries of their positions. -/
def entered (L : NodeList α ι) : List (Nat × α) :=
  L.flatMap fun p =>
    if skip && C.adjoints.isZero (A p.1) then [] else (p.2.position?.map (·, A p.1)).toList

/-- Every node's adjoint is the sum of what it is passed, on top of one for the root. -/
def Solves [DecidableEq ι] (r : ι) (L : NodeList α ι) : Prop :=
  ∀ p ∈ L, A p.1 =
    C.adjoints.total (if p.1 = r then C.adjoints.one else C.adjoints.zero) p.1 (L.passed C skip V A)

def Closed (L : NodeList α ι) : Prop := ∀ p ∈ L, ∀ c ∈ p.2.operands, ∃ q ∈ L, q.1 = c

variable {C skip V A} {L L' : NodeList α ι}

theorem total_passed_congr [DecidableEq ι] {B : ι → α} {k : ι}
    (h : ∀ p ∈ L, k ∈ p.2.operands → A p.1 = B p.1) (a : α) :
    C.adjoints.total a k (L.passed C skip V A) = C.adjoints.total a k (L.passed C skip V B) := by
  induction L generalizing a with
  | nil => rfl
  | cons p L ih =>
    obtain ⟨hp, hL⟩ := List.forall_mem_cons.mp h
    have hhead : C.adjoints.total a k
          (if skip && C.adjoints.isZero (A p.1) then [] else p.2.passed C V (V p.1) (A p.1)) =
        C.adjoints.total a k
          (if skip && C.adjoints.isZero (B p.1) then [] else p.2.passed C V (V p.1) (B p.1)) := by
      by_cases hk : k ∈ p.2.operands
      · rw [hp hk]
      · have hnone : ∀ (s : Bool) (b : α), ∀ d ∈ (if s then [] else p.2.passed C V (V p.1) b),
            d.1 ≠ k := by
          rintro s b d hd rfl
          cases s with
          | true => cases hd
          | false => exact hk (Node.operand_of_mem_passed hd)
        rw [Adjoints.total_of_notMem (hnone _ _), Adjoints.total_of_notMem (hnone _ _)]
    unfold passed at ih ⊢
    rw [List.flatMap_cons, List.flatMap_cons, Adjoints.total_append, Adjoints.total_append, hhead]
    exact ih hL _

theorem passed_perm (h : L.Perm L') : (L.passed C skip V A).Perm (L'.passed C skip V A) :=
  h.flatMap_right _

theorem entered_perm (h : L.Perm L') : (L.entered C skip A).Perm (L'.entered C skip A) :=
  h.flatMap_right _

/-- Where operands have lower ranks, two solutions for the same nodes agree, however these are
listed. -/
theorem Solves.unique [DecidableEq ι] (hC : C.adjoints.Unordered) {B : ι → α} {r : ι} {rank : ι → Nat}
    (hrank : ∀ p ∈ L, ∀ c ∈ p.2.operands, rank c < rank p.1) (hL : L.Perm L')
    (hA : L.Solves C skip V A r) (hB : L'.Solves C skip V B r) : ∀ p ∈ L, A p.1 = B p.1 := by
  have hbound : ∀ p ∈ L, rank p.1 ≤ (L.map fun p => rank p.1).sum := fun p hp =>
    List.le_sum_of_mem (List.mem_map_of_mem hp)
  generalize (L.map fun p => rank p.1).sum = M at hbound
  -- the users of a node have higher ranks, so the induction goes down from the highest one
  suffices h : ∀ m, ∀ p ∈ L, M - rank p.1 = m → A p.1 = B p.1 from fun p hp => h _ p hp rfl
  intro m
  induction m using Nat.strongRecOn with
  | _ m ih =>
    rintro p hp rfl
    rw [hA p hp, hB p (hL.mem_iff.mp hp), ← hC.total_perm (passed_perm hL)]
    refine total_passed_congr (fun q hq hused => ih _ ?_ q hq rfl) _
    have hlt := hrank q hq p.1 hused
    have hle := hbound q hq
    omega

theorem entered_congr {B : ι → α} (h : ∀ p ∈ L, A p.1 = B p.1) :
    L.entered C skip A = L.entered C skip B := by
  unfold entered
  exact List.flatMap_congr fun p hp => by rw [h p hp]

theorem passed_rename {f : ι → κ} {f' : κ → ι} {V : κ → α} (hf : ∀ p ∈ L, f' (f p.1) = p.1) :
    (L.rename f).passed C skip V (A ∘ f') = (L.passed C skip (V ∘ f) A).map (Prod.map f id) := by
  unfold passed rename
  rw [List.flatMap_map, List.map_flatMap]
  refine List.flatMap_congr fun p hp => ?_
  simp only [Function.comp_apply, hf p hp]
  split
  · rfl
  · exact Node.passed_map C _ _ p.2

theorem Closed.exists_of_mem_passed (hL : L.Closed) {d : ι × α} (hd : d ∈ L.passed C skip V A) :
    ∃ q ∈ L, q.1 = d.1 := by
  obtain ⟨p, hp, hd⟩ := List.mem_flatMap.mp hd
  split at hd
  · cases hd
  · exact hL p hp d.1 (Node.operand_of_mem_passed hd)

theorem Solves.rename [DecidableEq ι] [DecidableEq κ] {f : ι → κ} {f' : κ → ι} {V : κ → α} {r : ι}
    (hf : ∀ p ∈ L, f' (f p.1) = p.1) (hr : f' (f r) = r) (hclosed : L.Closed)
    (h : L.Solves C skip (V ∘ f) A r) : (L.rename f).Solves C skip V (A ∘ f') (f r) := by
  intro q hq
  obtain ⟨p, hp, rfl⟩ := List.mem_map.mp hq
  have hroot : f p.1 = f r ↔ p.1 = r :=
    ⟨fun heq => by rw [← hf p hp, heq, hr], congrArg f⟩
  simp only [Function.comp_apply, hf p hp, hroot, passed_rename hf]
  rw [Adjoints.total_map, ← h p hp]
  intro d hd heq
  obtain ⟨q, hq, hqd⟩ := hclosed.exists_of_mem_passed hd
  rw [← hqd, ← hf q hq, hqd, heq, hf p hp]

theorem entered_rename {f : ι → κ} {f' : κ → ι} (hf : ∀ p ∈ L, f' (f p.1) = p.1) :
    (L.rename f).entered C skip (A ∘ f') = L.entered C skip A := by
  unfold entered NodeList.rename
  rw [List.flatMap_map]
  exact List.flatMap_congr fun p hp => by simp [hf p hp]

end NodeList

namespace Net
variable {M : Net α κ} {N : Net α ι}

/-- The list has the nodes that the value at `r` is computed from, each of them once. -/
structure Lists (N : Net α ι) (r : ι) (L : NodeList α ι) : Prop where
  nodup : L.Nodup
  mem_iff : ∀ i n, (i, n) ∈ L ↔ N.Needs r i ∧ N i n

theorem Lists.perm {r : ι} {L L' : NodeList α ι} (h : N.Lists r L) (h' : N.Lists r L') : L.Perm L' :=
  (List.perm_ext_iff_of_nodup h.nodup h'.nodup).mpr fun p => by rw [h.mem_iff, h'.mem_iff]

def Closed (N : Net α ι) : Prop := ∀ i n, N i n → ∀ c ∈ n.operands, ∃ m, N c m

theorem Lists.closed {r : ι} {L : NodeList α ι} (h : N.Lists r L) (hN : N.Closed) : L.Closed := by
  rintro ⟨i, n⟩ hp c hc
  obtain ⟨hneeds, hn⟩ := (h.mem_iff i n).mp hp
  obtain ⟨m, hm⟩ := hN i n hn c hc
  exact ⟨(c, m), (h.mem_iff c m).mpr ⟨hneeds.tail ⟨n, hn, hc⟩, hm⟩, rfl⟩

theorem Maps.exists_of_needs {f : κ → ι} (hf : Maps f M N) {rank : ι → Nat} (hN : N.Ranked rank)
    (hM : M.Closed) {r : κ} (hr : ∃ n, M r n) {j : ι} (h : N.Needs (f r) j) :
    ∃ i, f i = j ∧ M.Needs r i ∧ ∃ n, M i n := by
  induction h with
  | refl => exact ⟨r, rfl, .refl, hr⟩
  | tail _ huses ih =>
    obtain ⟨i, rfl, hneeds, n, hn⟩ := ih
    obtain ⟨m, hm, hc⟩ := huses
    rw [hN.unique hm (hf hn), Node.operands_map] at hc
    obtain ⟨c, hmem, rfl⟩ := List.mem_map.mp hc
    exact ⟨c, rfl, hneeds.tail ⟨n, hn, hmem⟩, hM i n hn c hmem⟩

theorem Lists.rename {f : κ → ι} {f' : ι → κ} {r : κ} {L : NodeList α κ} (h : M.Lists r L)
    (hf : Maps f M N) {rank : ι → Nat} (hN : N.Ranked rank) {rank' : κ → Nat} (hM : M.Ranked rank')
    (hclosed : M.Closed) (hr : ∃ n, M r n) (hinv : ∀ p ∈ L, f' (f p.1) = p.1) :
    N.Lists (f r) (L.rename f) where
  nodup := by
    refine List.Nodup.map_on (fun p hp q hq hpq => ?_) h.nodup
    obtain ⟨i, n⟩ := p
    obtain ⟨j, m⟩ := q
    obtain rfl : i = j :=
      (hinv _ hp).symm.trans ((congrArg f' (Prod.mk.inj hpq).1).trans (hinv _ hq))
    rw [hM.unique ((h.mem_iff i n).mp hp).2 ((h.mem_iff i m).mp hq).2]
  mem_iff j m := by
    constructor
    · intro hp
      obtain ⟨⟨i, n⟩, hmem, heq⟩ := List.mem_map.mp hp
      obtain ⟨rfl, rfl⟩ := Prod.mk.inj heq
      obtain ⟨hneeds, hn⟩ := (h.mem_iff i n).mp hmem
      exact ⟨hf.needs hneeds, hf hn⟩
    · rintro ⟨hneeds, hm⟩
      obtain ⟨i, rfl, hi, n, hn⟩ := hf.exists_of_needs hN hclosed hr hneeds
      rw [hN.unique hm (hf hn)]
      exact List.mem_map_of_mem ((h.mem_iff i n).mpr ⟨hi, hn⟩)

/-- The inputs that a root needs add the same to their entries, in whatever order the nodes are
listed. -/
theorem Lists.entered_perm [DecidableEq ι] {C : Calculus α} (hC : C.adjoints.Unordered) {skip : Bool}
    {V A B : ι → α} {rank : ι → Nat} (hN : N.Ranked rank) {r : ι} {L L' : NodeList α ι}
    (hL : N.Lists r L) (hL' : N.Lists r L') (hA : L.Solves C skip V A r)
    (hB : L'.Solves C skip V B r) : (L.entered C skip A).Perm (L'.entered C skip B) := by
  have hrank : ∀ p ∈ L, ∀ c ∈ p.2.operands, rank c < rank p.1 := fun p hp =>
    hN.operand_lt ((hL.mem_iff p.1 p.2).mp hp).2
  have hperm := hL.perm hL'
  rw [NodeList.entered_congr (hA.unique hC hrank hperm hB)]
  exact NodeList.entered_perm hperm

end Net
end ScalarGraph
