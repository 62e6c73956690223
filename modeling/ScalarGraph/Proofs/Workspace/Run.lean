import ScalarGraph.Proofs.Tape.Invariant
import ScalarGraph.Workspace

/-! # Running steps of building

What the parts of a step do to a workspace. A step on one tape leaves all other
tapes, the active one and the settings as they are, and a violation leaves the
whole workspace as it was. A safe step keeps every tape consistent and lets tapes
only grow, also where it fails.
-/
namespace ScalarGraph
variable {α γ δ : Type} [DecidableEq α] [Hashable α]

namespace Build

theorem run_bind (b : Build α γ) (f : γ → Build α δ) (w : Workspace α) :
    (b >>= f).run w = match b.run w with
      | (.ok c, v) => (f c).run v
      | (.error e, v) => (.error e, v) := by
  simp only [bind, ExceptT.bind, ExceptT.mk, ExceptT.run, StateT.bind]
  cases b w with
  | mk r v => cases r <;> rfl

theorem run_bind_ok {b : Build α γ} {f : γ → Build α δ} {w v : Workspace α} {c : γ}
    (h : b.run w = (.ok c, v)) : (b >>= f).run w = (f c).run v := by
  rw [run_bind, h]

theorem run_bind_error {b : Build α γ} {f : γ → Build α δ} {w v : Workspace α} {e : Fault}
    (h : b.run w = (.error e, v)) : (b >>= f).run w = (.error e, v) := by
  rw [run_bind, h]

theorem of_run_bind_ok {b : Build α γ} {f : γ → Build α δ} {w u : Workspace α} {d : δ}
    (h : (b >>= f).run w = (.ok d, u)) : ∃ c v, b.run w = (.ok c, v) ∧ (f c).run v = (.ok d, u) := by
  rcases hb : b.run w with ⟨r, v⟩
  cases r with
  | ok c =>
    rw [run_bind_ok hb] at h
    exact ⟨c, v, rfl, h⟩
  | error e =>
    rw [run_bind_error hb] at h
    cases h

/-- What holds after a step that fails, and after the next one where it succeeds, holds after both. -/
theorem run_bind_induction {I : Workspace α → Prop} {b : Build α γ} {f : γ → Build α δ}
    {w : Workspace α} (hb : I (b.run w).2) (hf : ∀ c v, b.run w = (.ok c, v) → I ((f c).run v).2) :
    I ((b >>= f).run w).2 := by
  rw [run_bind]
  rcases hrun : b.run w with ⟨r, v⟩
  rw [hrun] at hb
  cases r with
  | ok c => exact hf c v hrun
  | error e => exact hb

@[simp] theorem run_pure (c : γ) (w : Workspace α) : (pure c : Build α γ).run w = (.ok c, w) := rfl

@[simp] theorem run_throw (e : Fault) (w : Workspace α) :
    (throw e : Build α γ).run w = (.error e, w) := rfl

@[simp] theorem run_get (w : Workspace α) : (get : Build α (Workspace α)).run w = (.ok w, w) := rfl

@[simp] theorem run_ofExcept (r : Except Fault γ) (w : Workspace α) :
    (ofExcept r).run w = (r, w) := rfl

theorem ofExcept_ok (c : γ) : (ofExcept (.ok c) : Build α γ) = pure c := rfl

@[simp] theorem run_note (e : Event α) (w : Workspace α) :
    (note e).run w = (.ok (), { w with log := w.log.push e }) := rfl

theorem run_map (f : γ → δ) (b : Build α γ) (w : Workspace α) :
    (f <$> b).run w = ((b.run w).1.map f, (b.run w).2) := by
  rw [← bind_pure_comp, run_bind]
  rcases hb : b.run w with ⟨r, v⟩
  cases r <;> rfl

end Build

namespace Workspace
variable {w : Workspace α} {k : Nat} {f : Tape α → Tape α × γ}

@[simp] theorem onTape_snd : (w.onTape k f).2 = (f (w.tape k)).2 := rfl

@[simp] theorem onTape_active : (w.onTape k f).1.active = w.active := rfl

@[simp] theorem onTape_tapes :
    (w.onTape k f).1.tapes = w.tapes.setIfInBounds k (f (w.tape k)).1 := by
  simp [onTape, putTape]

@[simp] theorem size_onTape : (w.onTape k f).1.tapes.size = w.tapes.size := by simp

theorem tape_onTape (hk : k < w.tapes.size) : (w.onTape k f).1.tape k = (f (w.tape k)).1 := by
  simp [tape, hk]

theorem tape_onTape_ne {j : Nat} (hj : j ≠ k) : (w.onTape k f).1.tape j = w.tape j := by
  simp [tape, hj.symm]

theorem onTape_eq_self (hk : k < w.tapes.size) (h : (f (w.tape k)).1 = w.tape k) :
    (w.onTape k f).1 = w := by
  have htapes : w.tapes.setIfInBounds k (w.tape k) = w.tapes := by
    simp [tape, hk, Array.setIfInBounds]
  have hnone : (w.tape k).nodes[(w.tape k).size]? = none := by simp [Tape.size]
  simp only [onTape, putTape, h, hnone, Array.setIfInBounds_setIfInBounds, Array.append_empty,
    htapes]

end Workspace

namespace Build
variable {w : Workspace α} {k : Nat}

theorem run_onTape?_ok {f : Tape α → Except Violation (Tape α × γ)} {r : Tape α × γ}
    (h : f (w.tape k) = .ok r) :
    (onTape? k f).run w = (.ok r.2, (w.onTape k fun _ => r).1) := by
  simp only [onTape?, ExceptT.run, Workspace.onTape, h]

/-- A violation puts the tape back as it was. -/
theorem run_onTape?_violation {f : Tape α → Except Violation (Tape α × γ)} {v : Violation}
    (h : f (w.tape k) = .error v) :
    (onTape? k f).run w = (.error (.violation v), (w.onTape k fun t => (t, ())).1) := by
  simp only [onTape?, ExceptT.run, Workspace.onTape, h]

theorem run_onTape?_error (hk : k < w.tapes.size) {f : Tape α → Except Violation (Tape α × γ)}
    {v : Violation} (h : f (w.tape k) = .error v) :
    (onTape? k f).run w = (.error (.violation v), w) := by
  rw [run_onTape?_violation h, Workspace.onTape_eq_self hk rfl]

end Build

namespace Workspace
variable {w v u : Workspace α} {k : Nat}

/-- The active tape exists, and all tapes are consistent. -/
structure Ready (w : Workspace α) : Prop where
  active_lt : w.active < w.tapes.size
  valid : ∀ k, (w.tape k).Valid

theorem ready_start : Ready ({} : Workspace α) where
  active_lt := Nat.zero_lt_one
  valid k := by
    cases k <;> exact Tape.Valid.empty

structure Grows (w v : Workspace α) : Prop where
  active_eq : v.active = w.active
  size_eq : v.tapes.size = w.tapes.size
  tape : ∀ k, (w.tape k).Extends (v.tape k)

theorem Grows.refl (w : Workspace α) : w.Grows w := ⟨rfl, rfl, fun _ => .refl _⟩

theorem Grows.trans (h : w.Grows v) (h' : v.Grows u) : w.Grows u :=
  ⟨h'.active_eq.trans h.active_eq, h'.size_eq.trans h.size_eq, fun k => (h.tape k).trans (h'.tape k)⟩

theorem Ready.withLog (hw : w.Ready) (log : Array (Event α)) : Ready { w with log } :=
  ⟨hw.active_lt, hw.valid⟩

theorem grows_withLog (w : Workspace α) (log : Array (Event α)) : w.Grows { w with log } :=
  ⟨rfl, rfl, fun _ => .refl _⟩

variable {f : Tape α → Tape α × Nat} {n : Node α Nat}

theorem Ready.onTape (hw : w.Ready) (hk : k < w.tapes.size)
    (h : (w.tape k).Provides n (f (w.tape k))) : (w.onTape k f).1.Ready where
  active_lt := by simpa using hw.active_lt
  valid j := by
    by_cases hj : j = k
    · subst hj
      rw [tape_onTape hk]
      exact h.valid
    · rw [tape_onTape_ne hj]
      exact hw.valid j

theorem grows_onTape (hk : k < w.tapes.size) (h : (w.tape k).Provides n (f (w.tape k))) :
    w.Grows (w.onTape k f).1 := by
  refine ⟨rfl, size_onTape, fun j => ?_⟩
  by_cases hj : j = k
  · subst hj
    rw [tape_onTape hk]
    exact h.extends
  · rw [tape_onTape_ne hj]
    exact .refl _

end Workspace

namespace Build
variable {w : Workspace α} {F : Prop} {Q : γ → Workspace α → Prop}

/-- The step leaves the workspace ready and its tapes only grow; it fails only where `F` holds, and
otherwise gives what satisfies `Q`. -/
structure Safe (b : Build α γ) (w : Workspace α) (F : Prop) (Q : γ → Workspace α → Prop) : Prop where
  ready : (b.run w).2.Ready
  grows : w.Grows (b.run w).2
  of_ok : ∀ c, (b.run w).1 = .ok c → Q c (b.run w).2
  of_error : ∀ e, (b.run w).1 = .error e → F

theorem safe_pure {c : γ} (hw : w.Ready) (h : Q c w) : (pure c : Build α γ).Safe w F Q := by
  refine ⟨hw, .refl w, ?_, ?_⟩
  · rintro c ⟨⟩
    exact h
  · rintro e ⟨⟩

theorem safe_get (hw : w.Ready) :
    (get : Build α (Workspace α)).Safe w F fun c v => c = w ∧ v = w := by
  refine ⟨hw, .refl w, ?_, ?_⟩
  · rintro c ⟨⟩
    exact ⟨rfl, rfl⟩
  · rintro e ⟨⟩

theorem safe_throw {e : Fault} (hw : w.Ready) (h : F) : (throw e : Build α γ).Safe w F Q := by
  refine ⟨hw, .refl w, ?_, fun _ _ => h⟩
  rintro c ⟨⟩

theorem Safe.bind {b : Build α γ} {f : γ → Build α δ} {P : δ → Workspace α → Prop}
    (hb : b.Safe w F Q) (hf : ∀ c v, v.Ready → w.Grows v → Q c v → (f c).Safe v F P) :
    (b >>= f).Safe w F P := by
  obtain ⟨hready, hgrows, hok, herror⟩ := hb
  rcases hrun : b.run w with ⟨r, v⟩
  rw [hrun] at hready hgrows hok herror
  cases r with
  | ok c =>
    have hc := hf c v hready hgrows (hok c rfl)
    refine ⟨?_, ?_, ?_, ?_⟩ <;> rw [run_bind_ok hrun]
    · exact hc.ready
    · exact hgrows.trans hc.grows
    · exact hc.of_ok
    · exact hc.of_error
  | error e =>
    refine ⟨?_, ?_, ?_, ?_⟩ <;> rw [run_bind_error hrun]
    · exact hready
    · exact hgrows
    · rintro c ⟨⟩
    · exact fun _ _ => herror e rfl

theorem Safe.imp {b : Build α γ} {P : γ → Workspace α → Prop} (hb : b.Safe w F Q)
    (h : ∀ c v, v.Ready → w.Grows v → Q c v → P c v) : b.Safe w F P :=
  ⟨hb.ready, hb.grows, fun c hc => h c _ hb.ready hb.grows (hb.of_ok c hc), hb.of_error⟩

theorem Safe.weaken {b : Build α γ} {G : Prop} (hb : b.Safe w F Q) (h : F → G) : b.Safe w G Q :=
  ⟨hb.ready, hb.grows, hb.of_ok, fun e he => h (hb.of_error e he)⟩

theorem Safe.exists_run {b : Build α γ} (hb : b.Safe w False Q) :
    ∃ c v, b.run w = (.ok c, v) ∧ v.Ready ∧ w.Grows v ∧ Q c v := by
  obtain ⟨hready, hgrows, hok, herror⟩ := hb
  rcases hrun : b.run w with ⟨r, v⟩
  rw [hrun] at hready hgrows hok herror
  cases r with
  | ok c => exact ⟨c, v, rfl, hready, hgrows, hok c rfl⟩
  | error e => exact (herror e rfl).elim

theorem Safe.of_run {b : Build α γ} (hb : b.Safe w F Q) {c : γ} {v : Workspace α}
    (hrun : b.run w = (.ok c, v)) : v.Ready ∧ w.Grows v ∧ Q c v := by
  obtain ⟨hready, hgrows, hok, -⟩ := hb
  rw [hrun] at hready hgrows hok
  exact ⟨hready, hgrows, hok c rfl⟩

theorem safe_forall {ι : Type} [Nonempty ι] {b : Build α γ} {P : ι → γ → Workspace α → Prop}
    (h : ∀ i, b.Safe w F (P i)) : b.Safe w F fun c v => ∀ i, P i c v := by
  obtain ⟨i⟩ := ‹Nonempty ι›
  exact ⟨(h i).ready, (h i).grows, fun c hc j => (h j).of_ok c hc, (h i).of_error⟩

theorem Safe.discard {b : Build α γ} (hb : b.Safe w F Q) :
    (Functor.discard b).Safe w F fun _ v => ∃ c, Q c v := by
  have hdiscard : Functor.discard b = b >>= fun _ => pure PUnit.unit := (bind_pure_comp _ b).symm
  rw [hdiscard]
  exact hb.bind fun c v hv _ hc => safe_pure hv ⟨c, hc⟩

theorem run_some_mapM {β ι κ : Type} (g : ι → Build α κ) (n : Node β ι) (w : Workspace α) :
    ((n.mapM g).run w).1.map some = ((n.operands.mapM g).run w).1.map n.op.node? ∧
      ((n.mapM g).run w).2 = ((n.operands.mapM g).run w).2 := by
  have hrun : (some <$> n.mapM g).run w = (n.op.node? <$> n.operands.mapM g).run w := by
    rw [Node.some_mapM]
  rw [run_map, run_map] at hrun
  exact Prod.mk.inj hrun

theorem Safe.mapM {β ι κ : Type} {g : ι → Build α κ} {n : Node β ι} {P : List κ → Workspace α → Prop}
    (h : (n.operands.mapM g).Safe w F P) :
    (n.mapM g).Safe w F fun m v => m.op = n.op ∧ P m.operands v := by
  obtain ⟨hresult, hstate⟩ := run_some_mapM g n w
  refine ⟨hstate ▸ h.ready, hstate ▸ h.grows, fun m hm => ?_, fun e he => ?_⟩
  · cases hlist : ((n.operands.mapM g).run w).1 with
    | error e => simp [hm, hlist, Except.map] at hresult
    | ok ys =>
      simp only [hm, hlist, Except.map, Except.ok.injEq] at hresult
      obtain ⟨hop, rfl⟩ := Node.of_node?_eq_some hresult.symm
      exact ⟨hop, hstate ▸ h.of_ok _ hlist⟩
  · cases hlist : ((n.operands.mapM g).run w).1 with
    | error e' => exact h.of_error e' hlist
    | ok ys => simp [he, hlist, Except.map] at hresult

theorem safe_onTape {k : Nat} {f : Tape α → Tape α × Nat} {n : Node α Nat} (hw : w.Ready)
    (hk : k < w.tapes.size) (h : (w.tape k).Provides n (f (w.tape k))) :
    (onTape k f).Safe w F fun c v => v = (w.onTape k f).1 ∧ c = (f (w.tape k)).2 := by
  refine ⟨hw.onTape hk h, Workspace.grows_onTape hk h, ?_, ?_⟩
  · rintro c ⟨⟩
    exact ⟨rfl, rfl⟩
  · rintro e ⟨⟩

end Build
end ScalarGraph
