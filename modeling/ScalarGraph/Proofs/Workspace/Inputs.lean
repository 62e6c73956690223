import ScalarGraph.Derivative
import ScalarGraph.Proofs.Construct

/-! # Declaring inputs in order

Inputs that are declared one after the other, from the first free position on, have the positions in between.
They stand on the active tape, and no other tape is changed.
-/
namespace ScalarGraph
variable {α : Type} [DecidableEq α] [Hashable α] {w v : Workspace α} {F : Prop} {n : Nat}

def Workspace.Declares (w : Workspace α) (n : Nat) : Prop := ∀ k, (w.tape w.active).HasInput k ↔ k < n

theorem Workspace.Declares.numInputs_eq (h : w.Declares n) (hw : w.Ready) :
    (w.tape w.active).numInputs = n := (hw.valid w.active).numInputs_eq h

theorem Workspace.declares_start : ({} : Workspace α).Declares 0 := by
  intro k
  simp [Tape.HasInput, Workspace.tape, Tape.empty]

def Workspace.SameBeside (w v : Workspace α) : Prop := ∀ k ≠ w.active, v.tape k = w.tape k

variable [Written α]

theorem safe_declareInput (hw : w.Ready) (hn : w.Declares n) (s : α) :
    (makeInput (some (n : Int)) s).Safe w F fun h v => h.tape = v.active ∧
      (v.tape v.active).nodes[h.index]? = some (.input n s) ∧ v.Declares (n + 1) ∧ w.SameBeside v := by
  have hfree : ∀ (i : Nat) (y : α), (w.tape w.active).nodes[i]? = some (.input n y) → y = s :=
    fun i y hi => absurd ((hn n).mp ⟨i, y, hi⟩) (Nat.lt_irrefl n)
  obtain ⟨r, hr⟩ := (hw.valid w.active).exists_declare hfree
  have hprovides : (w.tape w.active).Provides (.input n s) r := (hw.valid w.active).provides_declare hr
  refine (safe_provided (g := fun _ => r) hw hprovides (run_makeInput_ok hr)).imp ?_
  rintro h v - hwv ⟨htape, hnode, rfl⟩
  refine ⟨htape, hnode, fun k => ?_, fun k hk => Workspace.tape_onTape_ne hk⟩
  rw [Workspace.onTape_active, Workspace.tape_onTape hw.active_lt, Nat.lt_succ_iff_lt_or_eq, ← hn k]
  exact hprovides.hasInput_iff

def Workspace.HasInputAt (w : Workspace α) (k : Nat) (s : α) (h : Handle) : Prop :=
  h.tape = w.active ∧ (w.tape w.active).nodes[h.index]? = some (.input k s)

omit [Written α] in
theorem Workspace.HasInputAt.grows {k : Nat} {s : α} {h : Handle} (hh : w.HasInputAt k s h)
    (hwv : w.Grows v) : v.HasInputAt k s h := by
  rw [HasInputAt, hwv.active_eq]
  exact ⟨hh.1, (hwv.tape _).getElem? hh.2⟩

theorem safe_makeInputs (hw : w.Ready) (hn : w.Declares n) (point : List α) :
    (makeInputs n point).Safe w F fun hs v =>
      List.Forall₂ (fun p h => v.HasInputAt p.2 p.1 h) (point.zipIdx n) hs ∧
        v.Declares (n + point.length) ∧ w.SameBeside v := by
  induction point generalizing w n with
  | nil => exact Build.safe_pure hw ⟨.nil, hn, fun _ _ => rfl⟩
  | cons x point ih =>
    refine Build.Safe.bind (safe_declareInput hw hn x) ?_
    rintro h v hv hwv ⟨htape, hnode, hdeclares, hsame⟩
    refine Build.Safe.bind (ih hv hdeclares) ?_
    rintro hs u hu hvu ⟨hinputs, hdeclares', hsame'⟩
    refine Build.safe_pure hu ⟨?_, ?_, fun k hk => ?_⟩
    · rw [List.zipIdx_cons]
      exact .cons (Workspace.HasInputAt.grows ⟨htape, hnode⟩ hvu) hinputs
    · rwa [List.length_cons, ← Nat.add_assoc, Nat.add_right_comm]
    · rw [hsame' k (hwv.active_eq ▸ hk), hsame k hk]

end ScalarGraph
