import ScalarGraph.Construct
import ScalarGraph.Proofs.Workspace.Run

/-! # Runs of requests to a tape

Constants, inputs and operator nodes are asked for with arguments that may be unfit:
an argument that cannot be read stands here for its fault. Every request
of a run either fails and changes nothing, or provides its node, so the tape is
consistent after every request.
-/
namespace ScalarGraph
variable {α β : Type} [DecidableEq α] [Hashable α] [Written α] [Written β]

inductive Request (α β : Type) where
  | const (value : Except Fault α)
  | input (position : Except Fault (Option Int)) (sample : Except Fault α)
  | push (l : Literal β) (children : Except Fault (List Int))

namespace Request

def perform : Request α β → Build α Handle
  | const v => do makeConst (← Build.ofExcept v)
  | input p s => do
    let p ← Build.ofExcept p
    makeInput p (← Build.ofExcept s)
  | push l cs => do
    let cs ← Build.ofExcept cs
    let k := (← get).active
    return ⟨k, ← Build.onTape? k (·.push l cs)⟩

def performAll (qs : List (Request α β)) (w : Workspace α) : Workspace α :=
  qs.foldl (fun w q => (q.perform.run w).2) w

end Request

section Steps
variable {w : Workspace α}

omit [Written α] in
theorem run_makeConst (x : α) :
    (makeConst x).run w = (.ok ⟨w.active, ((w.tape w.active).const x).2⟩,
      (w.onTape w.active (·.const x)).1) := rfl

theorem run_makeInput_ok {p : Option Int} {s : α} {r : Tape α × Nat}
    (h : (w.tape w.active).declare p s = .ok r) :
    (makeInput p s).run w = (.ok ⟨w.active, r.2⟩, (w.onTape w.active fun _ => r).1) := by
  unfold makeInput
  rw [Build.run_bind_ok (Build.run_get w), Build.run_bind_ok (Build.run_onTape?_ok h)]
  rfl

theorem run_makeInput_error (hk : w.active < w.tapes.size) {p : Option Int} {s : α}
    {v : Violation} (h : (w.tape w.active).declare p s = .error v) :
    (makeInput p s).run w = (.error (.violation v), w) := by
  unfold makeInput
  rw [Build.run_bind_ok (Build.run_get w), Build.run_bind_error (Build.run_onTape?_error hk h)]

end Steps

namespace Request

/-- A request fails and leaves the workspace as it was, or it provides a node on the active tape. -/
theorem perform_cases (q : Request α β) {w : Workspace α} (hw : w.Ready) :
    (∃ f, q.perform.run w = (.error f, w)) ∨
      ∃ n r, (w.tape w.active).Provides n r ∧
        q.perform.run w = (.ok ⟨w.active, r.2⟩, (w.onTape w.active fun _ => r).1) := by
  unfold perform
  cases q with
  | const v =>
    cases v with
    | error f => exact .inl ⟨f, Build.run_bind_error (Build.run_ofExcept _ w)⟩
    | ok v =>
      refine .inr ⟨_, _, (hw.valid _).provides_const v, ?_⟩
      exact (Build.run_bind_ok (Build.run_ofExcept _ w)).trans (run_makeConst v)
  | input p s =>
    cases p with
    | error f => exact .inl ⟨f, Build.run_bind_error (Build.run_ofExcept _ w)⟩
    | ok p =>
      dsimp only
      rw [Build.run_bind_ok (Build.run_ofExcept _ w)]
      cases s with
      | error f => exact .inl ⟨f, Build.run_bind_error (Build.run_ofExcept _ w)⟩
      | ok s =>
        rw [Build.run_bind_ok (Build.run_ofExcept _ w)]
        cases hd : (w.tape w.active).declare p s with
        | error v => exact .inl ⟨_, run_makeInput_error hw.active_lt hd⟩
        | ok r => exact .inr ⟨_, r, (hw.valid _).provides_declare hd, run_makeInput_ok hd⟩
  | push l cs =>
    cases cs with
    | error f => exact .inl ⟨f, Build.run_bind_error (Build.run_ofExcept _ w)⟩
    | ok cs =>
      dsimp only
      rw [Build.run_bind_ok (Build.run_ofExcept _ w), Build.run_bind_ok (Build.run_get w)]
      cases hp : (w.tape w.active).push l cs with
      | error v =>
        exact .inl ⟨_, Build.run_bind_error (Build.run_onTape?_error hw.active_lt hp)⟩
      | ok r =>
        obtain ⟨n, -, hn⟩ := (hw.valid _).provides_push hp
        exact .inr ⟨n, r, hn, Build.run_bind_ok (Build.run_onTape?_ok hp)⟩

theorem ready_perform (q : Request α β) {w : Workspace α} (hw : w.Ready) :
    (q.perform.run w).2.Ready := by
  rcases q.perform_cases hw with ⟨f, h⟩ | ⟨n, r, hn, h⟩
  · simpa [h] using hw
  · simpa [h] using hw.onTape hw.active_lt hn

theorem ready_performAll (qs : List (Request α β)) {w : Workspace α} (hw : w.Ready) :
    (performAll qs w).Ready := by
  induction qs generalizing w with
  | nil => exact hw
  | cons q qs ih => exact ih (q.ready_perform hw)

theorem perform_automatic {w : Workspace α} (hw : w.Ready) (s : α) :
    (∀ (i : Nat) (r : α),
      (w.tape w.active).nodes[i]? ≠ some (.input (w.tape w.active).numInputs r)) ∧
    ∃ u : Tape α, u.nodes = (w.tape w.active).nodes.push (.input (w.tape w.active).numInputs s) ∧
      (input (.ok none) (.ok s) : Request α β).perform.run w =
        (.ok ⟨w.active, (w.tape w.active).size⟩,
          (w.onTape w.active fun _ => (u, (w.tape w.active).size)).1) := by
  constructor
  · intro i r h
    have hi := (hw.valid _).inputs_iff.mpr ⟨r, h⟩
    rw [Tape.Valid.inputs_numInputs] at hi
    cases hi
  · obtain ⟨u, hd, hu⟩ := Tape.Valid.declare_none (w.tape w.active) s
    refine ⟨u, hu, ?_⟩
    unfold perform
    dsimp only
    rw [Build.run_bind_ok (Build.run_ofExcept _ w), Build.run_bind_ok (Build.run_ofExcept _ w),
      run_makeInput_ok hd]

/-- After every request of a run that begins with an empty tape the tape is consistent: operands
stand before their users, every node passes its check, no node stands on the arena twice, and the
tables hold exactly the nodes of the arena. The arena has only grown, by nothing where the request
failed, and an input without a position is declared at one that was free. -/
theorem valid_after_requests (qs : List (Request α β)) (q : Request α β) :
    let w := performAll qs ({} : Workspace α)
    let t := w.tape w.active
    let answer := q.perform.run w
    let u := answer.2.tape answer.2.active
    u.Valid ∧
    (∀ (i : Nat) (n : Node α Nat), u.nodes[i]? = some n →
      n.op.literal.node? n.operands = .ok n ∧ (n.op.isTerminal = true → n.operands = [])) ∧
    (∀ (i j : Nat) (n : Node α Nat), u.nodes[i]? = some n → u.nodes[j]? = some n → i = j) ∧
    (∀ (i j k : Nat) (r s : α),
      u.nodes[i]? = some (.input k r) → u.nodes[j]? = some (.input k s) → i = j) ∧
    t.Extends u ∧
    (∀ f, answer.1 = .error f → u = t) ∧
    (∀ s, q = input (.ok none) (.ok s) →
      (∀ (i : Nat) (r : α), t.nodes[i]? ≠ some (.input t.numInputs r)) ∧
      answer.1 = .ok ⟨w.active, t.size⟩ ∧ u.nodes = t.nodes.push (.input t.numInputs s)) := by
  intro w t answer u
  have hw : w.Ready := ready_performAll qs Workspace.ready_start
  have hanswer : answer.2.Ready := q.ready_perform hw
  have hu : u.Valid := hanswer.valid _
  refine ⟨hu, fun i n hn => ⟨n.literal_node?, Node.operands_of_isTerminal⟩,
    fun i j n => hu.index_unique, fun i j k r s => hu.input_unique, ?_, ?_, ?_⟩
  · rcases q.perform_cases hw with ⟨f, h⟩ | ⟨n, r, hn, h⟩
    · simpa [u, answer, h] using Tape.Extends.refl t
    · simpa [u, answer, h, Workspace.tape_onTape hw.active_lt] using hn.extends
  · intro f hf
    rcases q.perform_cases hw with ⟨g, h⟩ | ⟨n, r, hn, h⟩
    · simp [u, answer, h, t]
    · simp [answer, h] at hf
  · rintro s rfl
    obtain ⟨hnew, v, hv, h⟩ := perform_automatic (β := β) hw s
    exact ⟨hnew, by simp [answer, h, t], by
      simpa [u, answer, h, Workspace.tape_onTape hw.active_lt] using hv⟩

end Request
end ScalarGraph
