import ScalarGraph.Derivative
import ScalarGraph.Graph.Replay
import ScalarGraph.Proofs.Workspace.Constructed

/-! # Steps that keep a tape folded

A step is followed through all that it does to the tapes: it leaves all of them consistent and one of them
folded, whether it fails or not. Constructors and replays of graphs are such steps on whatever tape they
work, and so is all that only extracts, compiles and evaluates.
-/
namespace ScalarGraph
variable {α β γ δ ι κ : Type} [DecidableEq α] [Hashable α]

def Build.LogsOnly (b : Build α γ) : Prop := ∀ w, ∃ log, (b.run w).2 = { w with log }

namespace Build

theorem logsOnly_pure (c : γ) : (pure c : Build α γ).LogsOnly := fun w => ⟨w.log, rfl⟩

theorem logsOnly_get : (get : Build α (Workspace α)).LogsOnly := fun w => ⟨w.log, rfl⟩

theorem logsOnly_throw (e : Fault) : (throw e : Build α γ).LogsOnly := fun w => ⟨w.log, rfl⟩

theorem logsOnly_ofExcept (r : Except Fault γ) : (ofExcept r : Build α γ).LogsOnly :=
  fun w => ⟨w.log, rfl⟩

theorem logsOnly_note (e : Event α) : (note e).LogsOnly := fun w => ⟨w.log.push e, rfl⟩

theorem LogsOnly.bind {b : Build α γ} {f : γ → Build α δ} (hb : b.LogsOnly) (hf : ∀ c, (f c).LogsOnly) :
    (b >>= f).LogsOnly := by
  intro w
  apply run_bind_induction (I := fun v => ∃ log, v = { w with log }) (hb w)
  intro c v hrun
  obtain ⟨log, rfl⟩ : ∃ log, v = { w with log } := by
    have hlog := hb w
    rwa [hrun] at hlog
  exact hf c _

theorem logsOnly_forM (f : γ → Build α PUnit) (hf : ∀ c, (f c).LogsOnly) (cs : List γ) :
    (cs.forM f).LogsOnly := by
  induction cs with
  | nil => exact logsOnly_pure _
  | cons c cs ih => exact (hf c).bind fun _ => ih

end Build

theorem logsOnly_makeGraph [Written α] (primary : Option Handle) (secondary : List Handle) :
    (makeGraph primary secondary : Build α (Graph α)).LogsOnly := by
  unfold makeGraph
  split
  · exact Build.logsOnly_throw _
  · apply Build.logsOnly_get.bind
    intro w
    apply (Build.logsOnly_ofExcept _).bind
    intro g
    exact (Build.logsOnly_note _).bind fun _ => Build.logsOnly_pure g

theorem Graph.logsOnly_compile (g : Graph α) (settings : Option Settings) :
    (g.compile settings).LogsOnly := by
  apply Build.logsOnly_get.bind
  intro w
  split
  · exact Build.logsOnly_throw _
  · exact (Build.logsOnly_note _).bind fun _ => Build.logsOnly_pure _

namespace Program

theorem logsOnly_sweep (p : Program α) (R : Rules α) (xs : Array α) : (p.sweep R xs).LogsOnly := by
  unfold sweep
  split
  · exact Build.logsOnly_throw _
  · exact (Build.logsOnly_forM _ Build.logsOnly_note _).bind fun _ => Build.logsOnly_pure _

theorem logsOnly_call (p : Program α) (C : Calculus α) (xs : Array α) : (p.call C xs).LogsOnly := by
  apply (p.logsOnly_sweep C.rules xs).bind
  intro values
  dsimp only
  split
  · exact Build.logsOnly_throw _
  · split
    · exact Build.logsOnly_throw _
    · split
      · split
        · exact (Build.logsOnly_note _).bind fun _ => Build.logsOnly_pure _
        · exact Build.logsOnly_pure _
      · exact Build.logsOnly_pure _

end Program

theorem logsOnly_sampleValues [Written α] (C : Calculus α) (hs : List Handle) :
    (sampleValues C hs).LogsOnly := by
  apply (logsOnly_makeGraph none hs).bind
  intro g
  apply (g.logsOnly_compile none).bind
  intro p
  exact (p.logsOnly_call C #[]).bind fun out => Build.logsOnly_pure _

theorem logsOnly_numbersOf [Written α] (C : Calculus α) (os : List (Operand α)) :
    (numbersOf C os).LogsOnly := by
  unfold numbersOf
  dsimp only
  split
  · exact Build.logsOnly_ofExcept _
  · exact (logsOnly_sampleValues C _).bind fun xs => Build.logsOnly_ofExcept _

namespace Build
variable {k : Nat} {w : Workspace α} {b : Build α γ} {Q : γ → Workspace α → Prop}

/-- Whether it fails or not, the step leaves tape `k` folded and all tapes consistent, and these only
grow. What it gives satisfies `Q`. -/
structure KeepsFolded (b : Build α γ) (k : Nat) (w : Workspace α) (Q : γ → Workspace α → Prop) :
    Prop where
  foldedAt : (b.run w).2.FoldedAt k
  grows : w.Grows (b.run w).2
  of_ok : ∀ c, (b.run w).1 = .ok c → Q c (b.run w).2

theorem Safe.keepsFolded {F : Prop} (h : b.Safe w F Q) (hfolded : (b.run w).2.FoldedAt k) :
    b.KeepsFolded k w Q := ⟨hfolded, h.grows, h.of_ok⟩

theorem KeepsFolded.safe (h : b.KeepsFolded k w Q) : b.Safe w True Q :=
  ⟨h.foldedAt.ready, h.grows, h.of_ok, fun _ _ => trivial⟩

theorem keepsFolded_pure {c : γ} (hw : w.FoldedAt k) (h : Q c w) :
    (pure c : Build α γ).KeepsFolded k w Q :=
  (safe_pure (F := False) hw.ready h).keepsFolded hw

theorem keepsFolded_throw (hw : w.FoldedAt k) (e : Fault) : (throw e : Build α γ).KeepsFolded k w Q :=
  (safe_throw hw.ready trivial).keepsFolded hw

theorem keepsFolded_ofExcept {r : Except Fault γ} {P : γ → Prop} (hw : w.FoldedAt k)
    (h : ∀ c, r = .ok c → P c) : (ofExcept r : Build α γ).KeepsFolded k w fun c v => v = w ∧ P c :=
  ⟨hw, .refl w, fun c hc => ⟨rfl, h c hc⟩⟩

theorem LogsOnly.keepsFolded (hb : b.LogsOnly) (hw : w.FoldedAt k) :
    b.KeepsFolded k w fun _ _ => True := by
  obtain ⟨log, hlog⟩ := hb w
  refine ⟨?_, ?_, fun _ _ => trivial⟩ <;> rw [hlog]
  · exact ⟨⟨hw.ready.active_lt, hw.ready.valid⟩, hw.folded⟩
  · exact ⟨rfl, rfl, fun _ => .refl _⟩

theorem KeepsFolded.of_run_eq {c : Build α γ} (hb : b.KeepsFolded k w Q) (h : c.run w = b.run w) :
    c.KeepsFolded k w Q := by
  refine ⟨?_, ?_, ?_⟩ <;> rw [h]
  · exact hb.foldedAt
  · exact hb.grows
  · exact hb.of_ok

theorem KeepsFolded.imp {P : γ → Workspace α → Prop} (hb : b.KeepsFolded k w Q)
    (h : ∀ c v, Q c v → P c v) : b.KeepsFolded k w P :=
  ⟨hb.foldedAt, hb.grows, fun c hc => h c _ (hb.of_ok c hc)⟩

theorem KeepsFolded.bind {f : γ → Build α δ} {P : δ → Workspace α → Prop} (hb : b.KeepsFolded k w Q)
    (hf : ∀ c v, v.FoldedAt k → w.Grows v → Q c v → (f c).KeepsFolded k v P) :
    (b >>= f).KeepsFolded k w P := by
  obtain ⟨hfolded, hgrows, hok⟩ := hb
  rcases hrun : b.run w with ⟨e | c, v⟩
  · rw [hrun] at hfolded hgrows
    refine ⟨?_, ?_, ?_⟩ <;> rw [run_bind_error hrun]
    · exact hfolded
    · exact hgrows
    · rintro c ⟨⟩
  · rw [hrun] at hfolded hgrows hok
    have hc := hf c v hfolded hgrows (hok c rfl)
    refine ⟨?_, ?_, ?_⟩ <;> rw [run_bind_ok hrun]
    · exact hc.foldedAt
    · exact hgrows.trans hc.grows
    · exact hc.of_ok

theorem KeepsFolded.bind_unchanged {f : γ → Build α δ} {S : γ → Prop} {P : δ → Workspace α → Prop}
    (hb : b.KeepsFolded k w fun c v => v = w ∧ S c) (hf : ∀ c, S c → (f c).KeepsFolded k w P) :
    (b >>= f).KeepsFolded k w P := by
  apply hb.bind
  rintro c v - - ⟨rfl, hc⟩
  exact hf c hc

theorem KeepsFolded.map {f : γ → δ} {P : δ → Workspace α → Prop} (hb : b.KeepsFolded k w Q)
    (h : ∀ c v, Q c v → P (f c) v) : (f <$> b).KeepsFolded k w P := by
  rw [← bind_pure_comp]
  apply hb.bind
  intro c v hv _ hc
  exact keepsFolded_pure hv (h c v hc)

theorem KeepsFolded.discard (hb : b.KeepsFolded k w Q) :
    (discard b).KeepsFolded k w fun _ _ => True := hb.map fun _ _ _ => trivial

theorem keepsFolded_mapM {g : ι → Build α κ} {P : κ → Prop} {xs : List ι} (hw : w.FoldedAt k)
    (hg : ∀ x ∈ xs, (g x).KeepsFolded k w fun c v => v = w ∧ P c) :
    (xs.mapM g).KeepsFolded k w fun cs v => v = w ∧ ∀ c ∈ cs, P c := by
  induction xs with
  | nil => exact keepsFolded_pure hw ⟨rfl, by simp⟩
  | cons x xs ih =>
    obtain ⟨hx, hxs⟩ := List.forall_mem_cons.mp hg
    rw [List.mapM_cons]
    apply hx.bind_unchanged
    intro c hc
    apply (ih hxs).bind_unchanged
    intro cs hcs
    exact keepsFolded_pure hw ⟨rfl, List.forall_mem_cons.mpr ⟨hc, hcs⟩⟩

theorem KeepsFolded.mapM {g : ι → Build α κ} {n : Node β ι} {P : List κ → Workspace α → Prop}
    (h : (n.operands.mapM g).KeepsFolded k w P) :
    (n.mapM g).KeepsFolded k w fun m v => m.op = n.op ∧ P m.operands v := by
  refine h.safe.mapM.keepsFolded ?_
  rw [(run_some_mapM g n w).2]
  exact h.foldedAt

end Build

section
variable {R : Rules α} {w : Workspace α} {k j : Nat}

theorem keepsFolded_construct (hw : w.FoldedAt k) {n : Node α (Operand α)}
    (hop : n.op.isTerminal = false) (hn : ∀ x ∈ n.operands, x.On w) :
    (construct R n).KeepsFolded k w fun h v => (Operand.handle h : Operand α).On v := by
  have hsafe := safe_construct (R := R) (f := fun _ => ()) hw.ready (fun _ _ => rfl) hop hn
  exact (hsafe.imp fun _ _ _ _ hh => hh.1).keepsFolded (hw.construct R hop hn)

theorem keepsFolded_onTape (hw : w.FoldedAt k) (hj : j < w.tapes.size) {f : Tape α → Tape α × Nat}
    {n : Node α Nat} (hn : (w.tape j).Provides n (f (w.tape j)))
    (hfolded : (w.tape j).Folded → (f (w.tape j)).1.Folded) :
    (Build.onTape j f).KeepsFolded k w fun i v => j < v.tapes.size ∧ i < (v.tape j).size := by
  refine ((Build.safe_onTape (F := False) hw.ready hj hn).imp ?_).keepsFolded (hw.onTape hj hn hfolded)
  rintro i v - - ⟨rfl, rfl⟩
  rw [Workspace.size_onTape, Workspace.tape_onTape hj]
  exact ⟨hj, hn.lt_size⟩

theorem keepsFolded_const (hw : w.FoldedAt k) (hj : j < w.tapes.size) (x : α) :
    (Build.onTape j (·.const x)).KeepsFolded k w fun i v => j < v.tapes.size ∧ i < (v.tape j).size := by
  have hvalid := hw.ready.valid j
  apply keepsFolded_onTape hw hj (hvalid.provides_const x)
  intro hfolded
  exact hfolded.provides_terminal hvalid (hvalid.provides_const x) rfl

theorem keepsFolded_settle (hw : w.FoldedAt k) (hj : j < w.tapes.size) {n : Node α Nat}
    (hop : n.op.isTerminal = false) (hn : ∀ c ∈ n.operands, c < (w.tape j).size) :
    (Build.onTape j (·.settle R n)).KeepsFolded k w fun i v =>
      j < v.tapes.size ∧ i < (v.tape j).size := by
  have hvalid := hw.ready.valid j
  obtain ⟨a, -, hprovides⟩ := hvalid.exists_provides_settle R hop hn
  apply keepsFolded_onTape hw hj hprovides
  intro hfolded
  exact hfolded.settle hvalid R hop hn

theorem keepsFolded_onTape? (hw : w.FoldedAt k) (hj : j < w.tapes.size)
    {f : Tape α → Except Violation (Tape α × Nat)}
    (hf : ∀ r, f (w.tape j) = .ok r → ∃ n, (w.tape j).Provides n r ∧ n.op.isTerminal = true) :
    (Build.onTape? j f).KeepsFolded k w fun i v => j < v.tapes.size ∧ i < (v.tape j).size := by
  cases hr : f (w.tape j) with
  | error e => exact (Build.keepsFolded_throw hw _).of_run_eq (Build.run_onTape?_error hj hr)
  | ok r =>
    obtain ⟨n, hn, hterminal⟩ := hf r hr
    have hkeeps := keepsFolded_onTape (f := fun _ => r) hw hj hn fun hfolded =>
      hfolded.provides_terminal (hw.ready.valid j) hn hterminal
    exact hkeeps.of_run_eq (Build.run_onTape?_ok hr)

theorem Build.KeepsFolded.handle {b : Build α Nat}
    (hb : b.KeepsFolded k w fun i v => j < v.tapes.size ∧ i < (v.tape j).size) :
    (do return ⟨j, ← b⟩ : Build α Handle).KeepsFolded k w fun h v =>
      (Operand.handle h : Operand α).On v := by
  apply hb.bind
  intro i v hv _ hi
  apply Build.keepsFolded_pure hv
  rintro y ⟨⟩
  exact hi

theorem keepsFolded_makeConst (hw : w.FoldedAt k) (x : α) :
    (makeConst x).KeepsFolded k w fun h v => (Operand.handle h : Operand α).On v :=
  (keepsFolded_const hw hw.ready.active_lt x).handle.of_run_eq rfl

theorem keepsFolded_makeInput [Written α] (hw : w.FoldedAt k) (p : Option Int) (s : α) :
    (makeInput p s).KeepsFolded k w fun h v => (Operand.handle h : Operand α).On v := by
  have hdeclare : (Build.onTape? w.active (·.declare p s)).KeepsFolded k w fun i v =>
      w.active < v.tapes.size ∧ i < (v.tape w.active).size :=
    keepsFolded_onTape? hw hw.ready.active_lt fun r hr =>
      ⟨_, (hw.ready.valid _).provides_declare hr, rfl⟩
  exact hdeclare.handle.of_run_eq rfl

omit [DecidableEq α] [Hashable α] in
theorem Node.operands_of_operator? {n : Node β ι} {m : Node α ι} (h : n.operator? = some m) :
    m.operands = n.operands := by
  cases n <;> simp only [operator?, convertM] at h <;> cases h <;> rfl

structure Replayed.On (m : Replayed) (w : Workspace α) (j : Nat) : Prop where
  tape_lt : j < w.tapes.size
  index_lt : ∀ (id : Text) (i : Nat), m[id]? = some i → i < (w.tape j).size

theorem Replayed.On.grows {m : Replayed} {v : Workspace α} (h : m.On w j) (hv : w.Grows v) : m.On v j where
  tape_lt := hv.size_eq ▸ h.tape_lt
  index_lt id i hi := Nat.lt_of_lt_of_le (h.index_lt id i hi) (hv.tape j).size_le

theorem Replayed.On.insert {m : Replayed} (h : m.On w j) (id : Text) {i : Nat}
    (hi : i < (w.tape j).size) : Replayed.On (m.insert id i) w j where
  tape_lt := h.tape_lt
  index_lt id' i' hi' := by
    rw [Std.HashMap.getElem?_insert] at hi'
    split at hi'
    · cases hi'
      exact hi
    · exact h.index_lt id' i' hi'

theorem keepsFolded_index {m : Replayed} (hw : w.FoldedAt k) (hm : m.On w j) (id : Text) :
    (m.index id).KeepsFolded k w fun i v => v = w ∧ i < (w.tape j).size := by
  unfold Replayed.index
  split
  · next i hi => exact Build.keepsFolded_pure hw ⟨rfl, hm.index_lt id i hi⟩
  · exact Build.keepsFolded_throw hw _

theorem keepsFolded_indexHandle {m : Replayed} (hw : w.FoldedAt k) (hm : m.On w j) (id : Text) :
    (do return ⟨j, ← m.index id⟩ : Build α Handle).KeepsFolded k w fun h v =>
      v = w ∧ (Operand.handle h : Operand α).On w := by
  apply (keepsFolded_index hw hm id).bind_unchanged
  intro i hi
  refine Build.keepsFolded_pure hw ⟨rfl, ?_⟩
  rintro y ⟨⟩
  exact ⟨hm.tape_lt, hi⟩

variable [Written α] {read : β → Except Fault α}

/-- A node that is replayed is settled, or it is a terminal. -/
theorem keepsFolded_replayNode (hw : w.FoldedAt k) (hj : j < w.tapes.size) {n : Node β Nat}
    (hn : ∀ c ∈ n.operands, c < (w.tape j).size) :
    (replayNode R read j n).KeepsFolded k w fun i v => j < v.tapes.size ∧ i < (v.tape j).size := by
  have hoperator : ∀ m : Node α Nat, n.operator? = some m →
      (Build.onTape j (·.settle R m)).KeepsFolded k w fun i v =>
        j < v.tapes.size ∧ i < (v.tape j).size := by
    intro m hm
    apply keepsFolded_settle hw hj (Node.isTerminal_of_operator? hm)
    rwa [Node.operands_of_operator? hm]
  cases n with
  | const x =>
    apply (Build.keepsFolded_ofExcept (P := fun _ => True) hw fun _ _ => trivial).bind_unchanged
    exact fun y _ => keepsFolded_const hw hj y
  | input i s =>
    apply (Build.keepsFolded_ofExcept (P := fun _ => True) hw fun _ _ => trivial).bind_unchanged
    intro x _
    apply keepsFolded_onTape? hw hj
    exact fun r hr => ⟨_, (hw.ready.valid j).provides_input hr, rfl⟩
  | _ => exact hoperator _ rfl

theorem keepsFolded_replayId {m : Replayed} (hw : w.FoldedAt k) (hm : m.On w j)
    (nodes : Std.HashMap Text (Node β Text)) (id : Text) :
    (Graph.replayId R read j nodes m id).KeepsFolded k w fun m' v => m'.On v j := by
  unfold Graph.replayId
  split
  · exact Build.keepsFolded_throw hw _
  · apply (Build.keepsFolded_mapM hw fun c _ => keepsFolded_index hw hm c).mapM.bind
    rintro n v hv - ⟨-, rfl, hn⟩
    apply (keepsFolded_replayNode hv hm.tape_lt hn).bind
    intro i u hu hvu hi
    exact Build.keepsFolded_pure hu ((hm.grows hvu).insert id hi.2)

theorem keepsFolded_replayIds (nodes : Std.HashMap Text (Node β Text)) (ids : List Text) {m : Replayed}
    (hw : w.FoldedAt k) (hm : m.On w j) :
    (ids.foldlM (Graph.replayId R read j nodes) m).KeepsFolded k w fun m' v => m'.On v j := by
  induction ids generalizing m w with
  | nil => exact Build.keepsFolded_pure hw hm
  | cons id ids ih =>
    rw [List.foldlM_cons]
    apply (keepsFolded_replayId hw hm nodes id).bind
    intro m' v hv _ hm'
    exact ih hv hm'

/-- A replay keeps tapes folded, wherever it stops. -/
theorem Graph.keepsFolded_replay (hw : w.FoldedAt k) (hj : j < w.tapes.size) (g : Graph β) :
    (g.replay R read j).KeepsFolded k w fun r v =>
      ∀ h ∈ r.1.toList ++ r.2, (Operand.handle h : Operand α).On v := by
  apply (keepsFolded_replayIds _ g.order hw ⟨hj, by simp⟩).bind
  intro m v hv _ hm
  have hhandle := fun id => keepsFolded_indexHandle hv hm id
  have hsecondary := Build.keepsFolded_mapM hv fun id (_ : id ∈ g.secondary) => hhandle id
  cases g.primary with
  | none =>
    apply hsecondary.bind_unchanged
    exact fun hs hon => Build.keepsFolded_pure hv hon
  | some r =>
    have hprimary : (Option.mapM (fun id => (do return ⟨j, ← m.index id⟩ : Build α Handle))
        (some r)).KeepsFolded k v fun h u =>
          u = v ∧ ∃ y, h = some y ∧ (Operand.handle y : Operand α).On v := by
      apply (hhandle r).bind_unchanged
      exact fun y hy => Build.keepsFolded_pure hv ⟨rfl, y, rfl, hy⟩
    apply hprimary.bind_unchanged
    rintro _ ⟨y, rfl, hy⟩
    apply hsecondary.bind_unchanged
    exact fun hs hon => Build.keepsFolded_pure hv (List.forall_mem_cons.mpr ⟨hy, hon⟩)

end
end ScalarGraph
