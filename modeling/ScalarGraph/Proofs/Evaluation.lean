import ScalarGraph.Evaluation
import ScalarGraph.Proofs.Tape.Extraction
import ScalarGraph.Proofs.Workspace.Run

/-! # Extracting, compiling and calling

On a consistent tape the graph of some outputs is extracted, a well-formed graph is
compiled, and a program that runs can be called up to the length limit of gradients.
Each of them changes no more of a workspace than its log.
-/
namespace ScalarGraph
variable {α : Type} [DecidableEq α] [Hashable α] {w : Workspace α}

theorem outputTape_eq_ok {hs : List Handle} {k : Nat} (hne : hs ≠ []) (hk : ∀ h ∈ hs, h.tape = k) :
    outputTape hs = .ok k := by
  cases hs with
  | nil => exact absurd rfl hne
  | cons h hs =>
    have hh : h.tape = k := hk h List.mem_cons_self
    have hall : hs.all (·.tape == h.tape) = true := by
      rw [List.all_eq_true]
      intro y hy
      rw [hk y (List.mem_cons_of_mem _ hy), hh]
      exact beq_self_eq_true k
    simp only [outputTape, hall, if_true]
    rw [hh]

theorem run_makeGraph [Written α] {k : Nat} {primary : Option Handle} {secondary : List Handle}
    (hne : primary.toList ++ secondary ≠ []) (hk : ∀ h ∈ primary.toList ++ secondary, h.tape = k)
    {g : Graph α} (hg : (w.tape k).extract (primary.map (·.index)) (secondary.map (·.index)) = .ok g) :
    ∃ log, (makeGraph primary secondary).run w = (.ok g, { w with log }) := by
  refine ⟨w.log.push (.extracted g.size g.edges.length g.primary g.secondary.length), ?_⟩
  unfold makeGraph
  rw [outputTape_eq_ok hne hk]
  dsimp only
  rw [Build.run_bind_ok (Build.run_get w), hg, Build.run_bind_ok (Build.run_ofExcept _ w),
    Build.run_bind_ok (Build.run_note _ w), Build.run_pure]

theorem roots_lt {k : Nat} {primary : Option Handle} {secondary : List Handle}
    (hk : ∀ h ∈ primary.toList ++ secondary, h.tape = k ∧ h.index < (w.tape k).size) :
    ∀ i ∈ (primary.map (·.index)).toList ++ secondary.map (·.index), i < (w.tape k).size := by
  rw [outputs_map, List.forall_mem_map]
  exact fun h hh => (hk h hh).2

theorem exists_makeGraph [Written α] {k : Nat} (ht : (w.tape k).Valid) {primary : Option Handle}
    {secondary : List Handle} (hne : primary.toList ++ secondary ≠ [])
    (hk : ∀ h ∈ primary.toList ++ secondary, h.tape = k ∧ h.index < (w.tape k).size) :
    ∃ g log, (makeGraph primary secondary).run w = (.ok g, { w with log }) ∧
      (w.tape k).Extracts (primary.map (·.index)) (secondary.map (·.index)) g := by
  obtain ⟨g, hg, hextracts⟩ := ht.exists_extract (roots_lt hk)
  obtain ⟨log, hrun⟩ := run_makeGraph hne (fun h hh => (hk h hh).1) hg
  exact ⟨g, log, hrun, hextracts⟩

theorem Graph.run_compile {g : Graph α} {settings : Option Settings} {p : Program α}
    (h : g.compile? (settings.getD w.settings) = some p) :
    ∃ log, (g.compile settings).run w = (.ok p, { w with log }) := by
  refine ⟨w.log.push (.compiled p.code.size p.gradientPath.length p.secondary.length), ?_⟩
  unfold Graph.compile
  rw [Build.run_bind_ok (Build.run_get w), h]
  dsimp only
  rw [Build.run_bind_ok (Build.run_note _ w), Build.run_pure]

theorem Graph.WellFormed.exists_compile_run {g : Graph α} (hg : g.WellFormed)
    (settings : Option Settings) :
    ∃ p log, (g.compile settings).run w = (.ok p, { w with log }) ∧ p.Compiles g ∧
      p.settings = settings.getD w.settings := by
  obtain ⟨p, hp, hcompiles, hsettings⟩ := hg.exists_compile (settings.getD w.settings)
  obtain ⟨log, hrun⟩ := run_compile hp
  exact ⟨p, log, hrun, hcompiles, hsettings⟩

theorem run_notes (es : List (Event α)) (w : Workspace α) :
    ∃ log, (es.forM Build.note).run w = (.ok (), { w with log }) := by
  induction es generalizing w with
  | nil => exact ⟨w.log, rfl⟩
  | cons e es ih =>
    obtain ⟨log, hlog⟩ := ih { w with log := w.log.push e }
    refine ⟨log, ?_⟩
    have hcons : (e :: es).forM Build.note = Build.note e >>= fun _ => es.forM Build.note := rfl
    rw [hcons, Build.run_bind_ok (Build.run_note e w), hlog]

theorem Program.run_sweep {p : Program α} {R : Rules α} {xs values : Array α}
    (h : p.forward R xs = some values) :
    ∃ log, (p.sweep R xs).run w = (.ok values, { w with log }) := by
  obtain ⟨log, hlog⟩ := run_notes (p.debugEvents values) w
  refine ⟨log, ?_⟩
  unfold sweep
  rw [h]
  dsimp only
  rw [Build.run_bind_ok hlog, Build.run_pure]

/-- What a call gives: the run, if there is one and its gradient is not too long. -/
def Program.answer (p : Program α) (C : Calculus α) (xs : Array α) : Except Fault (Outputs α) :=
  if p.gradientLength xs.size < lengthLimit then
    match p.run C xs with
    | some out => .ok out
    | none => .error .noSuchElement
  else .error .badValue

/-- A call of a program whose slots have values gives its answer. -/
theorem Program.run_call_answer {p : Program α} {C : Calculus α} {xs values : Array α}
    (h : p.forward C.rules xs = some values) :
    ∃ log, (p.call C xs).run w = (p.answer C xs, { w with log }) := by
  obtain ⟨log, hsweep⟩ := run_sweep (w := w) h
  have hrun : p.run C xs = p.outputs C values xs.size := by
    unfold run
    rw [h]
    rfl
  unfold call answer
  rw [Build.run_bind_ok hsweep, hrun]
  by_cases hlength : p.gradientLength xs.size < lengthLimit
  · rw [if_neg (Nat.not_le.mpr hlength), if_pos hlength]
    cases p.outputs C values xs.size with
    | none => exact ⟨log, rfl⟩
    | some out =>
      dsimp only
      split
      · split
        · exact ⟨_, Build.run_bind_ok (Build.run_note _ _)⟩
        · exact ⟨log, rfl⟩
      · exact ⟨log, rfl⟩
  · rw [if_pos (Nat.le_of_not_lt hlength), if_neg hlength]
    exact ⟨log, Build.run_bind_error (Build.run_throw _ _)⟩

theorem Program.run_call {p : Program α} {C : Calculus α} {xs : Array α} {out : Outputs α}
    (h : p.run C xs = some out) : ∃ log, (p.call C xs).run w =
      (if p.gradientLength xs.size < lengthLimit then .ok out else .error .badValue,
        { w with log }) := by
  obtain ⟨values, hvalues, -⟩ := Option.bind_eq_some_iff.mp h
  obtain ⟨log, hcall⟩ := run_call_answer (w := w) hvalues
  refine ⟨log, ?_⟩
  rw [hcall, answer, h]

end ScalarGraph
