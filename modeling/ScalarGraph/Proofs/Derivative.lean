import ScalarGraph.Derivative
import ScalarGraph.Proofs.Term.Footprint
import ScalarGraph.Proofs.Term.Items

/-! # Derivatives of functions

The body of a function is a term over its arguments and over items on the tapes around it. A gradient is
read off the tape of its result. On the tape of the arguments this is the derivative in them. A result on
another tape does not vary with the arguments, but there the derivatives in the inputs of that tape are
given in place of zeros.
-/
namespace ScalarGraph
variable {α β γ ν : Type} [DecidableEq α] [Hashable α]

namespace Workspace
variable {w v : Workspace α}

theorem declares_fresh (w : Workspace α) : w.fresh.Declares 0 := by
  intro k
  rw [tape_fresh]
  simp [Tape.HasInput, tape, fresh, Tape.empty]

def restored (w v : Workspace α) : Workspace α :=
  { v with tapes := v.tapes.take w.tapes.size, active := w.active }

theorem tape_restored {k : Nat} (hk : k < w.tapes.size) : (w.restored v).tape k = v.tape k := by
  by_cases hv : k < v.tapes.size
  · simp [tape, restored, hk, hv]
  · simp [tape, restored, hv]

theorem tape_restored_of_size_le {k : Nat} (hk : w.tapes.size ≤ k) : (w.restored v).tape k = w.tape k := by
  simp [tape, restored, hk.not_gt]

theorem Grows.restored (h : w.fresh.Grows v) : w.Grows (w.restored v) where
  active_eq := rfl
  size_eq := by
    have hsize := h.size_eq
    simp only [fresh, Array.size_push] at hsize
    simp [Workspace.restored, hsize]
  tape k := by
    rcases Nat.lt_or_ge k w.tapes.size with hk | hk
    · rw [tape_restored hk, ← w.tape_fresh]
      exact h.tape k
    · rw [tape_restored_of_size_le hk]
      exact .refl _

theorem Ready.restored (hw : w.Ready) (hv : v.Ready) (h : w.fresh.Grows v) : (w.restored v).Ready where
  active_lt := h.restored.size_eq ▸ hw.active_lt
  valid k := by
    rcases Nat.lt_or_ge k w.tapes.size with hk | hk
    · rw [tape_restored hk]
      exact hv.valid k
    · rw [tape_restored_of_size_le hk]
      exact hw.valid k

end Workspace

theorem Build.run_withFresh (b : Build α γ) (w : Workspace α) :
    (Build.withFresh b).run w = ((b.run w.fresh).1, w.restored (b.run w.fresh).2) := rfl

section
omit [DecidableEq α] [Hashable α]

/-- What gradients come to, with the result `r`, on a tape with `n` inputs. -/
def Entries (C : Calculus α) (n : Nat) (point : List α) (r : Except Fault (List α))
    (d : ∀ [CommRing α], Nat → α) : Prop :=
  if max n point.length < Program.lengthLimit then
    ∃ ds, r = .ok ds ∧ ds.length = point.length ∧
      ∀ [CommRing α], C.adjoints.Exact → ∀ i < point.length, ds.getD i 0 = d i
  else r = .error .badValue

theorem Entries.congr {C : Calculus α} {n : Nat} {point : List α} {r : Except Fault (List α)}
    {d d' : ∀ [CommRing α], Nat → α} (h : Entries C n point r d) (hd : ∀ [CommRing α] i, d i = d' i) :
    Entries C n point r d' := by
  unfold Entries at h ⊢
  split
  · next hlimit =>
    rw [if_pos hlimit] at h
    obtain ⟨ds, hds, hlength, hentries⟩ := h
    exact ⟨ds, hds, hlength, fun hC i hi => (hentries hC i hi).trans (hd i)⟩
  · next hlimit => rwa [if_neg hlimit] at h

end

section
variable [Written α] {C : Calculus α} {w v : Workspace α} {K : Nat → Prop} {find : ν → Build α (Operand α)}
  {leafPlace : ν → Option Nat} {leafMeaning : ∀ β : Type, (Node α β → β) → ν → β} {I : Workspace α → Prop}

def Term.gradient (C : Calculus α) (find : ν → Build α (Operand α)) (e : Term α ν) (point : List α) :
    Build α (List α) := do
  let p ← e.program C.rules find none
  let out ← p.call C point.toArray
  return out.gradient.toList.take point.length

theorem Term.gradient_eq (C : Calculus α) (find : ν → Build α (Operand α)) (e : Term α ν) (point : List α) :
    e.gradient C find point = (e.build C.rules find >>= Operand.ensured) >>= fun y =>
      (makeGraph (some y) [] >>= fun g => g.compile none) >>= fun p => do
        return (← p.call C point.toArray).gradient.toList.take point.length := by
  unfold gradient program
  simp only [bind_assoc]

theorem Program.Means.entries {p : Program α} {n : Nat} {M : ∀ β : Type, (Node α β → β) → β}
    (h : p.Means C.rules n M) (point : List α) : ∃ r log,
      (do return (← p.call C point.toArray).gradient.toList.take point.length : Build α (List α)).run v =
        (r, { v with log }) ∧
      Entries C n point r fun i => (M (α × α) (Node.tangent C point.toArray i)).2 := by
  obtain ⟨out, hrun, -, hsize, hgradient⟩ := h.exists_run point.toArray
  obtain ⟨log, hcall⟩ := Program.run_call (w := v) hrun
  rw [h.yields.gradientLength_eq, List.size_toArray] at hcall
  rw [List.size_toArray] at hsize
  unfold Entries
  split at hcall
  · next hlimit =>
    refine ⟨_, log, Build.run_bind_ok hcall, ?_⟩
    rw [if_pos hlimit]
    refine ⟨_, rfl, ?_, fun hC i hi => ?_⟩
    · simp [hsize]
    · refine Eq.trans ?_ (hgradient hC i)
      simp [hi]
  · next hlimit =>
    refine ⟨_, log, Build.run_bind_error hcall, ?_⟩
    rw [if_neg hlimit]

theorem Term.gradient_cases (hfind : ∀ (β : Type) (f : Node α β → β), C.rules.Folds f →
      Locates C.rules f find w.active leafPlace (leafMeaning β f) I)
    (hinput : ∀ v, I v → w.AddsNoInput v) (hw : w.Ready) (hi : I w) (hactive : K w.active)
    (e : Term α ν)
    (he : e.Over fun l => ∀ v, v.Ready → w.Grows v → (find l).Confined K v fun x u => x.OnSome K u)
    (point : List α) :
    ∃ r v, (e.gradient C find point).run w = (r, v) ∧ v.Ready ∧ w.Grows v ∧
      (∀ k, ¬K k → v.tape k = w.tape k) ∧
      (e.rootTape w.active leafPlace = none → r = .error (.violation .mixedOperands)) ∧
      ∀ j, e.rootTape w.active leafPlace = some j → Entries C (w.tape j).numInputs point r fun i =>
        (e.fold (Node.tangent C point.toArray i) (leafMeaning _ (Node.tangent C point.toArray i))).2 := by
  -- the root is built in the same way for all meanings
  have hroot := fun (β : Type) (f : Node α β → β) (hf : C.rules.Folds f) =>
    safe_root_denotes (hfind β f hf) e hw hi
  have hunit := hroot Unit (fun _ => ()) fun _ _ => rfl
  have hconfined : (e.build C.rules find >>= Operand.ensured).Confined K w fun y u =>
      (Operand.handle y).OnSome K u :=
    (confined_build hactive e he hw (.refl w)).bind fun x u hu hwu hx =>
      Operand.confined_ensured hu (hwu.active_eq ▸ hactive) hx
  rw [gradient_eq]
  rcases hrun : (e.build C.rules find >>= Operand.ensured).run w with ⟨err | y, u⟩
  · have hothers := hconfined.others
    have hu := hconfined.safe.ready
    have hwu := hconfined.safe.grows
    have hnone := hunit.of_error err (by rw [hrun])
    obtain rfl := hconfined.of_error err (by rw [hrun])
    rw [hrun] at hothers hu hwu
    refine ⟨_, u, Build.run_bind_error hrun, hu, hwu, hothers, fun _ => rfl, fun j hj => ?_⟩
    rw [hnone] at hj
    cases hj
  · have hothers := hconfined.others
    obtain ⟨hu, hwu, -, htape, -⟩ := hunit.of_run hrun
    obtain ⟨p, log, hcompile, hp⟩ := exists_program_of_root hw
      (fun β f hf => (hroot β f hf).imp fun y v _ _ h => ⟨hinput v h.1, h.2⟩) hrun none
    obtain ⟨r, log', hcall, hr⟩ := hp.entries (v := { u with log }) point
    rw [hrun] at hothers
    refine ⟨r, { u with log := log' }, ?_, hu.withLog log', hwu.trans (u.grows_withLog log'), hothers,
      fun hnone => ?_, fun j hj => ?_⟩
    · rw [Build.run_bind_ok hrun, Build.run_bind_ok hcompile, hcall]
    · rw [hnone] at htape
      cases htape
    · obtain rfl : y.tape = j := Option.some.inj (htape.symm.trans hj)
      exact hr

end

theorem Operand.On.fresh {w : Workspace α} {x : Operand α} (h : x.On w) : x.On w.fresh := by
  intro y hy
  obtain ⟨htape, hindex⟩ := h y hy
  rw [Workspace.tape_fresh]
  exact ⟨by simp only [Workspace.fresh, Array.size_push]; omega, hindex⟩

theorem Operand.Denotes.fresh {f : Node α β → β} {w : Workspace α} {x : Operand α} {b : β}
    (h : x.Denotes f w b) : x.Denotes f w.fresh b := by
  cases h with
  | @handle y b hon hmeaning =>
    exact .handle hon.fresh fun V hV => hmeaning V (w.tape_fresh y.tape ▸ hV)
  | number a => exact .number a

/-- What the body of a function mentions: its arguments, and items on the tapes around it. -/
inductive Workspace.Mention (w : Workspace α) (n : Nat) where
  | argument (i : Fin n)
  | item (x : w.Item)

namespace Workspace.Mention
variable {w v : Workspace α} {n : Nat}

def find (hs : List Handle) : w.Mention n → Build α (Operand α)
  | argument i =>
    match hs[i.val]? with
    | some h => return .handle h
    | none => throw .noSuchElement
  | item x => return x.operand

def place : w.Mention n → Option Nat
  | argument _ => some w.tapes.size
  | item x => x.place

def meaning (point : List α) (f : Node α β → β) : w.Mention point.length → β
  | argument i => f (.input i point[i])
  | item x => (x.operand.tree w).meaning f

def value (R : Rules α) (point : List α) : w.Mention point.length → α
  | argument i => point[i]
  | item x => x.value R point.toArray

/-- The derivative in argument `k`. An item does not depend on the arguments. -/
def own [CommRing α] (k : Nat) : w.Mention n → α
  | argument i => if i.val = k then 1 else 0
  | item _ => 0

def positional [CommRing α] (C : Calculus α) (point : List α) (k : Nat) : w.Mention point.length → α
  | argument i => if i.val = k then 1 else 0
  | item x => x.derivative C point.toArray k

theorem meaning_tangent [CommRing α] (C : Calculus α) (point : List α) (k : Nat)
    (l : w.Mention point.length) : l.meaning point (Node.tangent C point.toArray k) =
      (l.value C.rules point, l.positional C point k) := by
  cases l with
  | argument i =>
    simp [meaning, value, positional, Node.tangent, Node.map, Node.value, Node.derivative]
  | item x => exact x.meaning_tangent C point.toArray k

theorem exists_find_argument {point : List α} {hs : List Handle}
    (hinputs : List.Forall₂ (fun p h => v.HasInputAt p.2 p.1 h) point.zipIdx hs) (i : Fin point.length) :
    ∃ h, find hs (argument i : w.Mention point.length) = pure (.handle h) ∧ v.HasInputAt i point[i] h := by
  have hlength : i.val < hs.length := by
    rw [← hinputs.length_eq, List.length_zipIdx]
    exact i.isLt
  have hinput := (List.forall₂_iff_get.mp hinputs).2 i.val (by simp) hlength
  refine ⟨hs[i.val], ?_, by simpa using hinput⟩
  simp only [find, List.getElem?_eq_getElem hlength]

theorem snd_fold_tangent [CommRing α] (C : Calculus α) {point : List α} (k : Nat)
    (e : Term α (w.Mention point.length)) :
    (e.fold (Node.tangent C point.toArray k) (meaning point (Node.tangent C point.toArray k))).2 =
      e.derivative C (value C.rules point) (positional C point k) := by
  have hmeaning : meaning point (Node.tangent C point.toArray k) =
      fun l : w.Mention point.length => (l.value C.rules point, l.positional C point k) :=
    funext fun l => l.meaning_tangent C point k
  rw [hmeaning, Term.fold_tangent]

/-- Behind the inputs for the arguments all that is mentioned is found, as it is on its tape. -/
theorem locates {R : Rules α} {f : Node α β → β} (hf : R.Folds f) (hw : w.Ready) (hwv : w.fresh.Grows v)
    {point : List α} {hs : List Handle}
    (hinputs : List.Forall₂ (fun p h => v.HasInputAt p.2 p.1 h) point.zipIdx hs) :
    Term.Locates R f (find (w := w) (n := point.length) hs) v.active place (meaning point f)
      fun u => v.AddsNoInput u ∧ v.Grows u where
  folds := hf
  active_eq _ hu := hu.2.active_eq
  kept _ _ hu hus hinput := ⟨hu.1.trans hinput, hu.2.trans hus⟩
  found l u hu hi := by
    cases l with
    | argument i =>
      obtain ⟨h, hfind, hinput⟩ := exists_find_argument (w := w) hinputs i
      obtain ⟨htape, hnode⟩ := hinput.grows hi.2
      rw [hfind]
      refine Build.safe_pure hu ⟨hi, congrArg some ?_, ?_⟩
      · rw [htape, hi.2.active_eq, hwv.active_eq]
        rfl
      · rw [← htape] at hnode
        refine .handle ?_ fun V hV => hV _ _ hnode
        rintro z ⟨⟩
        exact ⟨Workspace.lt_size_of_lt_tape (Tape.lt_size hnode), Tape.lt_size hnode⟩
    | item x => exact Build.safe_pure hu ⟨hi, rfl, (x.denotes hw f).fresh.grows (hwv.trans hi.2)⟩

def Reaches (e : Term α (w.Mention n)) (k : Nat) : Prop :=
  k = w.tapes.size ∨ ∃ x, .item x ∈ e.leaves ∧ x.place = some k

theorem over_confined (hwv : w.fresh.Grows v) {point : List α} {hs : List Handle}
    (hinputs : List.Forall₂ (fun p h => v.HasInputAt p.2 p.1 h) point.zipIdx hs)
    (e : Term α (w.Mention point.length)) :
    e.Over fun l => ∀ u, u.Ready → v.Grows u →
      (find hs l).Confined (Reaches e) u fun x u => x.OnSome (Reaches e) u := by
  intro l hl u hu hvu
  cases l with
  | argument i =>
    obtain ⟨h, hfind, hinput⟩ := exists_find_argument (w := w) hinputs i
    obtain ⟨htape, hnode⟩ := hinput.grows hvu
    rw [hfind]
    refine Build.confined_pure hu ⟨?_, ?_, by rintro e ⟨⟩⟩
    · rintro z ⟨⟩
      rw [htape]
      exact ⟨hu.active_lt, Tape.lt_size hnode⟩
    · rintro k ⟨⟩
      rw [htape, hvu.active_eq, hwv.active_eq]
      exact .inl rfl
  | item x =>
    have hon := x.on.fresh.grows (hwv.trans hvu)
    exact Build.confined_pure hu ⟨hon, fun k hk => .inr ⟨x, hl, hk⟩, x.fit⟩

theorem derivative_positional [CommRing α] {C : Calculus α} {point : List α}
    {e : Term α (w.Mention point.length)} (h : e.rootTape w.tapes.size place = some w.tapes.size) (k : Nat) :
    e.derivative C (value C.rules point) (positional C point k) =
      e.derivative C (value C.rules point) (own k) := by
  obtain ⟨l, hl, hsize⟩ := Option.map_eq_some_iff.mp h
  refine Term.derivative_congr e fun m hm => ⟨rfl, ?_⟩
  cases m with
  | argument i => rfl
  | item x =>
    apply x.derivative_eq_zero
    by_contra hplace
    obtain ⟨j, hj⟩ := Option.ne_none_iff_exists'.mp hplace
    obtain rfl := Term.place_eq_of_mem_leaves hl hm hj
    exact (x.place_lt hj).ne hsize

/-- What is on another tape does not depend on the arguments. -/
theorem derivative_own_eq_zero [CommRing α] {C : Calculus α} {point : List α}
    {e : Term α (w.Mention point.length)} {j : Nat} (hj : j ≠ w.tapes.size)
    (h : e.rootTape w.tapes.size place = some j) (k : Nat) :
    e.derivative C (value C.rules point) (own k) = 0 := by
  obtain ⟨l, hl, hlj⟩ := Option.map_eq_some_iff.mp h
  refine Term.derivative_eq_zero e fun m hm => ?_
  cases m with
  | argument i =>
    obtain rfl := Term.place_eq_of_mem_leaves hl hm rfl
    exact (hj hlj.symm).elim
  | item x => rfl

theorem derivative_own_of_notMem [CommRing α] {C : Calculus α} {point : List α}
    {e : Term α (w.Mention point.length)} {i : Fin point.length} (hi : .argument i ∉ e.leaves) :
    e.derivative C (value C.rules point) (own i) = 0 := by
  refine Term.derivative_eq_zero e fun m hm => ?_
  cases m with
  | argument k =>
    have hne : k.val ≠ i.val := fun hsame => hi (by rwa [← Fin.ext hsame])
    exact if_neg hne
  | item x => rfl

end Workspace.Mention

section
variable [Written α]

/-- What a gradient of the body `e` at a point comes to in `v`, with the result `r`. -/
structure Differentiates (C : Calculus α) (w : Workspace α) (point : List α)
    (e : Term α (w.Mention point.length)) (r : Except Fault (List α)) (v : Workspace α) : Prop where
  ready : v.Ready
  grows : w.Grows v
  others : ∀ k, (∀ x, .item x ∈ e.leaves → x.place ≠ some k) → v.tape k = w.tape k
  mixed : e.rootTape w.tapes.size Workspace.Mention.place = none → r = .error (.violation .mixedOperands)
  /-- On the tape of the arguments these are the derivatives in the arguments. -/
  own : e.rootTape w.tapes.size Workspace.Mention.place = some w.tapes.size →
    Entries C point.length point r fun i =>
      e.derivative C (Workspace.Mention.value C.rules point) (Workspace.Mention.own i)
  /-- On another tape these are the derivatives in the inputs of that tape. -/
  foreign : ∀ j ≠ w.tapes.size, e.rootTape w.tapes.size Workspace.Mention.place = some j →
    Entries C (w.tape j).numInputs point r (fun i =>
      e.derivative C (Workspace.Mention.value C.rules point) (Workspace.Mention.positional C point i)) ∧
    ∀ [CommRing α] (i : Nat),
      e.derivative C (Workspace.Mention.value C.rules point) (Workspace.Mention.own i) = 0
  unmentioned : ∀ [CommRing α] (i : Fin point.length), .argument i ∉ e.leaves →
    e.derivative C (Workspace.Mention.value C.rules point) (Workspace.Mention.own i) = 0

theorem gradientOf_eq (C : Calculus α) (find : List Handle → ν → Build α (Operand α)) (e : Term α ν)
    (point : List α) : gradientOf C (fun hs => e.build C.rules (find hs)) point =
      Build.withFresh (makeInputs 0 point >>= fun hs => e.gradient C (find hs) point) := by
  unfold gradientOf Term.gradient Term.program
  simp only [bind_assoc]

theorem exists_run_gradientOf {C : Calculus α} {w : Workspace α} (hw : w.Ready) (point : List α)
    (e : Term α (w.Mention point.length)) :
    ∃ r v, (gradientOf C (fun hs => e.build C.rules (Workspace.Mention.find hs)) point).run w = (r, v) ∧
      Differentiates C w point e r v := by
  obtain ⟨hs, v, hrun, hv, hwv, hinputs, hdeclares, hsame⟩ :=
    (safe_makeInputs (F := False) hw.fresh w.declares_fresh point).exists_run
  have hactive : v.active = w.tapes.size := hwv.active_eq
  obtain ⟨r, u, hgradient, hu, hvu, hothers, hmixed, hplaced⟩ := e.gradient_cases
    (fun β f hf => Workspace.Mention.locates hf hw hwv hinputs) (fun _ h => h.1) hv
    ⟨fun _ _ _ _ h => h, .refl v⟩ (.inl hactive)
    (Workspace.Mention.over_confined hwv hinputs e) point
  rw [hactive] at hmixed hplaced
  have hwu := hwv.trans hvu
  refine ⟨r, w.restored u, ?_, hw.restored hu hwu, hwu.restored, fun k hk => ?_, hmixed, fun hj => ?_,
    fun j hne hj => ⟨?_, ?_⟩, ?_⟩
  · rw [gradientOf_eq, Build.run_withFresh, Build.run_bind_ok hrun, hgradient]
  · rcases Nat.lt_or_ge k w.tapes.size with hlt | hge
    · have hreaches : ¬Workspace.Mention.Reaches e k := by
        rintro (rfl | ⟨x, hx, hplace⟩)
        · exact hlt.false
        · exact hk x hx hplace
      rw [Workspace.tape_restored hlt, hothers k hreaches, hsame k hlt.ne, Workspace.tape_fresh]
    · exact Workspace.tape_restored_of_size_le hge
  · have hentries := hplaced _ hj
    rw [← hactive, hdeclares.numInputs_eq hv, Nat.zero_add] at hentries
    refine hentries.congr fun i => ?_
    rw [Workspace.Mention.snd_fold_tangent, Workspace.Mention.derivative_positional hj]
  · have hentries := hplaced j hj
    rw [hsame j hne, Workspace.tape_fresh] at hentries
    refine hentries.congr fun i => ?_
    rw [Workspace.Mention.snd_fold_tangent]
  · intro _ i
    exact Workspace.Mention.derivative_own_eq_zero hne hj i
  · intro _ i hi
    exact Workspace.Mention.derivative_own_of_notMem hi

theorem gradientOf_singleton {f g : List Handle → Build α (Operand α)} (C : Calculus α) (x : α)
    (h : ∀ y, f [y] = g [y]) : gradientOf C f [x] = gradientOf C g [x] := by
  simp [gradientOf, makeInputs, h]

omit [Written α] in
theorem Differentiates.length_eq {C : Calculus α} {w v : Workspace α} {point ds : List α}
    {e : Term α (w.Mention point.length)} (h : Differentiates C w point e (.ok ds) v) :
    ds.length = point.length := by
  have hentries : ∀ {n : Nat} {d : ∀ [CommRing α], Nat → α}, Entries C n point (.ok ds) d →
      ds.length = point.length := by
    intro n d hd
    unfold Entries at hd
    split at hd
    · obtain ⟨ds, hds, hlength, -⟩ := hd
      cases hds
      exact hlength
    · cases hd
  cases hplace : e.rootTape w.tapes.size Workspace.Mention.place with
  | none => cases h.mixed hplace
  | some j =>
    by_cases hj : j = w.tapes.size
    · exact hentries (h.own (hj ▸ hplace))
    · exact hentries (h.foreign j hj hplace).1

/-- A body is differentiated in its own arguments where its result is on their tape. Where the result is on
another tape it does not vary with the arguments, and yet the derivatives in the inputs of that tape are
given. Operands of different tapes never meet, and only tapes that the body mentions change. -/
theorem gradientOf_differentiates (C : Calculus α) {w : Workspace α} (hw : w.Ready) :
    (∀ (point : List α) (e : Term α (w.Mention point.length)), ∃ r v,
      (gradientOf C (fun hs => e.build C.rules (Workspace.Mention.find hs)) point).run w = (r, v) ∧
        Differentiates C w point e r v) ∧
    ∀ (x : α) (e : Term α (w.Mention 1)), ∃ r v,
      (derivativeOf C (fun h => e.build C.rules (Workspace.Mention.find [h])) x).run w = (r, v) ∧
        Differentiates C w [x] e (r.map fun d => [d]) v := by
  refine ⟨exists_run_gradientOf hw, fun x e => ?_⟩
  obtain ⟨r, v, hrun, h⟩ := exists_run_gradientOf (C := C) hw [x] e
  unfold derivativeOf
  dsimp only
  rw [gradientOf_singleton (g := fun hs => e.build C.rules (Workspace.Mention.find hs)) C x fun _ => rfl]
  cases r with
  | error err => exact ⟨.error err, v, Build.run_bind_error hrun, h⟩
  | ok ds =>
    obtain ⟨d, rfl⟩ := List.length_eq_one_iff.mp h.length_eq
    exact ⟨.ok d, v, Build.run_bind_ok hrun, h⟩

end

/-- A function that gives an input of the tape around it does not vary, and yet has the derivative 1. -/
theorem gradientOf_differentiates_inputAround : ∃ (w : Workspace Int) (x : w.Item) (v u : Workspace Int),
    w.Ready ∧ x.place = some w.active ∧
      let C := Graph.polynomials
      let e : Term Int (w.Mention 1) := .leaf (.item x)
      (gradientOf C (fun hs => e.build C.rules (Workspace.Mention.find hs)) [5]).run w = (.ok [1], v) ∧
      (derivativeOf C (fun h => e.build C.rules (Workspace.Mention.find [h])) 5).run w = (.ok 1, u) ∧
      e.derivative C (Workspace.Mention.value C.rules [5]) (Workspace.Mention.own 0) = 0 := by
  obtain ⟨w, x, hw, hplace, hinputs, -, hderivative⟩ := Workspace.Item.exists_input (3 : Int)
  let e : Term Int (w.Mention 1) := .leaf (.item x)
  obtain ⟨hgradients, hderivatives⟩ := gradientOf_differentiates Graph.polynomials hw
  have hroot : e.rootTape w.tapes.size Workspace.Mention.place = some w.active := by
    change some (x.place.getD w.tapes.size) = some w.active
    rw [hplace]
    rfl
  have hone : ∀ r v, Differentiates Graph.polynomials w [5] e r v → r = .ok [1] := by
    intro r v h
    obtain ⟨hentries, -⟩ := h.foreign w.active hw.active_lt.ne hroot
    unfold Entries at hentries
    rw [hinputs, if_pos (by decide)] at hentries
    obtain ⟨ds, rfl, hlength, hentry⟩ := hentries
    obtain ⟨d, rfl⟩ := List.length_eq_one_iff.mp hlength
    have hd : d = x.derivative Graph.polynomials #[5] 0 := hentry Graph.exact_polynomials 0 Nat.zero_lt_one
    rw [hd, hderivative]
    rfl
  obtain ⟨r, v, hrun, h⟩ := hgradients [5] e
  obtain rfl := hone r v h
  obtain ⟨r', u, hrun', h'⟩ := hderivatives 5 e
  have hone' := hone _ u h'
  cases r' with
  | error err => cases hone'
  | ok d =>
    obtain rfl : d = 1 := List.singleton_inj.mp (Except.ok.inj hone')
    exact ⟨w, x, v, u, hw, hplace, hrun, hrun', rfl⟩

end ScalarGraph
