import ScalarGraph.Proofs.Workspace.Vocabulary
import ScalarGraph.Random.Expression

/-! # Draws

Draws of numbers, items and earlier results leave the workspace alone. Every result is a constructor
on earlier results and numbers, with an operator that the recipe speaks of, so all results are on
one tape. Where the source keeps to the ranges that it is asked for, and the window is a whole
number of results, no draw fails.
-/
namespace ScalarGraph

theorem Mixing.keepsRange : source.KeepsRange where
  between low high s h := by
    have hlt : (below (high - low) s).1 < high - low := Nat.mod_lt _ (Nat.sub_pos_of_lt h)
    show low ≤ low + (below (high - low) s).1 ∧ low + (below (high - low) s).1 < high
    omega
  position n s h := Nat.mod_lt _ h

def Recipe.Speaks (r : Recipe) : Op Float → Prop
  | .unary o => o ∈ r.unaryOps
  | .binary o => o ∈ r.binaryOps
  | .nary o => o ∈ r.naryOps
  | .select => r.smooth = false
  | .debug l => r.smooth = false ∧ ∃ k, l = Draw.label k
  | _ => False

theorem Recipe.unaryOps_ne_nil (r : Recipe) : r.unaryOps ≠ [] := by
  unfold unaryOps
  split <;> exact List.cons_ne_nil _ _

theorem Recipe.binaryOps_ne_nil (r : Recipe) : r.binaryOps ≠ [] := by
  unfold binaryOps
  split <;> exact List.cons_ne_nil _ _

theorem Recipe.naryOps_ne_nil (r : Recipe) : r.naryOps ≠ [] := by
  unfold naryOps
  split <;> exact List.cons_ne_nil _ _

theorem Recipe.speaks_sum (r : Recipe) : r.Speaks (.nary .sum) := by
  show NaryOp.sum ∈ r.naryOps
  unfold naryOps
  split <;> exact List.mem_cons_self

theorem Recipe.speaks_add (r : Recipe) : r.Speaks (.binary .add) := by
  show BinaryOp.add ∈ r.binaryOps
  unfold binaryOps
  split <;> exact List.mem_cons_self

namespace Draw
variable {σ β γ : Type} {S : Source σ} {w : Workspace Float} {F : Prop}

/-- Whatever the state of the source is, the draw is a safe step of building. -/
def Safe (d : Draw σ β) (w : Workspace Float) (F : Prop) (Q : β → Workspace Float → Prop) : Prop :=
  ∀ s, (d.run s).Safe w F fun c v => Q c.1 v

/-- The draw leaves the workspace alone and gives what satisfies `P`. -/
abbrev Asks (d : Draw σ β) (w : Workspace Float) (F : Prop) (P : β → Prop) : Prop :=
  d.Safe w F fun c v => v = w ∧ P c

theorem Safe.bind {d : Draw σ β} {f : β → Draw σ γ} {Q : β → Workspace Float → Prop}
    {P : γ → Workspace Float → Prop} (hd : d.Safe w F Q)
    (hf : ∀ c v, v.Ready → w.Grows v → Q c v → (f c).Safe v F P) : (d >>= f).Safe w F P := by
  intro s
  rw [StateT.run_bind]
  exact Build.Safe.bind (hd s) fun c v hv hwv hc => hf c.1 v hv hwv hc c.2

theorem Asks.bind {d : Draw σ β} {f : β → Draw σ γ} {P : β → Prop} {Q : γ → Workspace Float → Prop}
    (hd : d.Asks w F P) (hf : ∀ c, P c → (f c).Safe w F Q) : (d >>= f).Safe w F Q :=
  Safe.bind hd fun c _ _ _ ⟨hv, hc⟩ => hv ▸ hf c hc

theorem Asks.imp {d : Draw σ β} {P P' : β → Prop} (hd : d.Asks w F P) (h : ∀ c, P c → P' c) :
    d.Asks w F P' :=
  fun s => (hd s).imp fun c _ _ _ ⟨hv, hc⟩ => ⟨hv, h c.1 hc⟩

theorem safe_pure (hw : w.Ready) {Q : β → Workspace Float → Prop} {c : β} (h : Q c w) :
    (pure c : Draw σ β).Safe w F Q :=
  fun _ => Build.safe_pure hw h

theorem safe_throw (hw : w.Ready) {Q : β → Workspace Float → Prop} {e : Fault} (h : F) :
    (throw e : Draw σ β).Safe w F Q :=
  fun _ => Build.safe_throw hw h

theorem safe_throw_bind (hw : w.Ready) {Q : γ → Workspace Float → Prop} {e : Fault} (h : F)
    (f : β → Draw σ γ) : ((throw e : Draw σ β) >>= f).Safe w F Q :=
  Safe.bind (Q := fun _ _ => False) (safe_throw hw h) fun _ _ _ _ hfalse => hfalse.elim

theorem safe_liftM {b : Build Float β} {Q : β → Workspace Float → Prop} (hb : b.Safe w F Q) :
    (liftM b : Draw σ β).Safe w F Q :=
  fun _ => Build.Safe.bind hb fun _ _ hv _ hc => Build.safe_pure hv hc

theorem Asks.map (hw : w.Ready) {d : Draw σ β} {f : β → γ} {P : γ → Prop}
    (hd : d.Asks w F fun c => P (f c)) : (f <$> d).Asks w F P := by
  rw [← bind_pure_comp]
  exact Asks.bind hd fun c hc => safe_pure hw ⟨rfl, hc⟩

theorem asks_modifyGet (hw : w.Ready) {f : σ → β × σ} {P : β → Prop} (hf : ∀ s, P (f s).1) :
    (modifyGet f : Draw σ β).Asks w F P :=
  fun s => Build.safe_pure hw ⟨rfl, hf s⟩

/-- The source keeps to its ranges, and the window is a whole number of results. -/
structure Regular (S : Source σ) (r : Recipe) : Prop where
  keeps_range : S.KeepsRange
  window : ∃ k, 0 < k ∧ r.window = .whole k

variable {r : Recipe}

theorem asks_unit (hw : w.Ready) : (unit S).Asks w F fun _ => True :=
  asks_modifyGet hw fun _ => trivial

theorem asks_uniform (hw : w.Ready) (low high : Float) : (uniform S low high).Asks w F fun _ => True :=
  asks_modifyGet hw fun _ => trivial

theorem asks_between (hw : w.Ready) {low high : Nat} (hF : low < high ∨ F) :
    (between S low high).Asks w F fun k => S.KeepsRange → low ≤ k ∧ k < high := by
  unfold between
  by_cases h : high ≤ low
  · rw [if_pos h]
    exact safe_throw_bind hw (hF.resolve_left (Nat.not_lt.mpr h)) _
  · rw [if_neg h]
    exact asks_modifyGet hw fun s hS => hS.between low high s (Nat.not_le.mp h)

theorem asks_item (hw : w.Ready) {xs : List β} (hF : (S.KeepsRange ∧ xs ≠ []) ∨ F) :
    (item S xs).Asks w F (· ∈ xs) := by
  refine Asks.bind (asks_modifyGet (P := fun i => S.KeepsRange → xs ≠ [] → i < xs.length) hw
    fun s hS hne => hS.position _ s (List.length_pos_iff.mpr hne)) fun i hi => ?_
  split
  · next x hx => exact safe_pure hw ⟨rfl, List.mem_of_getElem? hx⟩
  · next hnone =>
    refine safe_throw hw (hF.resolve_left fun ⟨hS, hne⟩ => ?_)
    exact absurd (hi hS hne) (Nat.not_lt.mpr (List.getElem?_eq_none_iff.mp hnone))

theorem asks_entry (hw : w.Ready) {xs : Array β} {i : Nat} (hF : i < xs.size ∨ F) :
    (entry (σ := σ) xs i).Asks w F (· ∈ xs) := by
  unfold entry
  split
  · next x hx => exact safe_pure hw ⟨rfl, Array.mem_of_getElem? hx⟩
  · next hnone =>
    exact safe_throw hw (hF.resolve_left (Nat.not_lt.mpr (Array.getElem?_eq_none_iff.mp hnone)))

theorem asks_counted (hw : w.Ready) (hF : F) (bound : Float) :
    (counted S bound).Asks w F fun _ => True := by
  unfold counted
  dsimp only
  split
  · exact safe_throw_bind hw hF _
  · refine Asks.bind (asks_modifyGet (P := fun _ => True) hw fun _ => trivial) fun x _ => ?_
    split
    · exact safe_pure hw ⟨rfl, trivial⟩
    · exact safe_throw hw hF

/-- The distance is that of some result, unless failing is admitted. -/
theorem asks_distance (hw : w.Ready) {n : Nat} (hF : (Regular S r ∧ 0 < n) ∨ F) :
    (distance S r.window n).Asks w F fun d => (1 ≤ d ∧ d ≤ n) ∨ F := by
  rcases hF with ⟨hr, hn⟩ | hF
  · obtain ⟨k, hk, hwindow⟩ := hr.window
    have hle : 1 < min k n + 1 := by omega
    rw [hwindow]
    refine (asks_between hw (.inl hle)).imp fun d hd => .inl ?_
    obtain ⟨hd, hd'⟩ := hd hr.keeps_range
    omega
  · have hany : (distance S r.window n).Asks w F fun _ => True := by
      unfold distance
      split
      · exact (asks_between hw (.inr hF)).imp fun _ _ => trivial
      · split
        · exact (asks_between hw (.inr hF)).imp fun _ _ => trivial
        · exact asks_counted hw hF _
      · exact safe_throw hw hF
    exact hany.imp fun _ _ => .inr hF

theorem asks_pick (hw : w.Ready) {pool : Array Handle} (hF : (Regular S r ∧ 0 < pool.size) ∨ F) :
    (pick S r pool).Asks w F (· ∈ pool) := by
  unfold pick
  refine Asks.bind (asks_unit hw) fun u _ => ?_
  split
  · refine Asks.bind (asks_distance hw hF) fun d hd => asks_entry hw ?_
    exact hd.imp_left fun hd => by omega
  · refine Asks.bind (asks_between hw (hF.imp_left And.right)) fun i hi => asks_entry hw ?_
    exact hF.imp_left fun hr => (hi hr.1.keeps_range).2

theorem asks_picks (hw : w.Ready) {pool : Array Handle} (hF : (Regular S r ∧ 0 < pool.size) ∨ F)
    (n : Nat) : (picks S r pool n).Asks w F fun hs => hs.length = n ∧ ∀ h ∈ hs, h ∈ pool := by
  induction n with
  | zero => exact safe_pure hw ⟨rfl, by simp⟩
  | succ n ih =>
    refine Asks.bind (asks_pick hw hF) fun h hh => Asks.bind ih fun hs ⟨hlength, hhs⟩ => ?_
    exact safe_pure hw ⟨rfl, congrArg (· + 1) hlength, List.forall_mem_cons.mpr ⟨hh, hhs⟩⟩

def Earlier (pool : Array Handle) (x : Operand Float) : Prop :=
  (∃ h ∈ pool, x = .handle h) ∨ ∃ a, x = .number a

theorem earlier_handle {pool : Array Handle} {h : Handle} (hh : h ∈ pool) : Earlier pool (.handle h) :=
  .inl ⟨h, hh, rfl⟩

/-- Handles of results on the active tape, which has inputs at the first `n` positions and the
operators of the recipe. -/
structure Pooled (r : Recipe) (n : Nat) (pool : Array Handle) (w : Workspace Float) : Prop where
  on_active : ∀ h ∈ pool, h.tape = w.active ∧ h.index < (w.tape w.active).size
  operators : (w.tape w.active).OperatorsIn r.Speaks
  declared : ∀ k, (w.tape w.active).HasInput k ↔ k < n

namespace Pooled
variable {n : Nat} {pool : Array Handle} (hp : Pooled r n pool w)
include hp

theorem on (hw : w.Ready) {h : Handle} (hh : h ∈ pool) : (Operand.handle (α := Float) h).On w := by
  rintro y ⟨⟩
  obtain ⟨htape, hindex⟩ := hp.on_active h hh
  rw [htape]
  exact ⟨hw.active_lt, hindex⟩

theorem on_active_push {v : Workspace Float} (hwv : w.Grows v) {h : Handle} (htape : h.tape = v.active)
    (hindex : h.index < (v.tape v.active).size) :
    ∀ y ∈ pool.push h, y.tape = v.active ∧ y.index < (v.tape v.active).size := by
  intro y hy
  rcases Array.mem_push.mp hy with hy | rfl
  · obtain ⟨hytape, hyindex⟩ := hp.on_active y hy
    rw [hwv.active_eq]
    exact ⟨hytape, Nat.lt_of_lt_of_le hyindex (hwv.tape _).size_le⟩
  · exact ⟨htape, hindex⟩

end Pooled

theorem pooled_empty (hempty : w.tape w.active = Tape.empty) : Pooled r 0 #[] w where
  on_active := by simp
  operators := by
    rw [hempty]
    exact Tape.operatorsIn_empty
  declared k := by
    rw [hempty]
    simp [Tape.HasInput, Tape.empty]

theorem safe_makeInput (hw : w.Ready) {n : Nat} {pool : Array Handle} (hp : Pooled r n pool w) (x : Float) :
    (makeInput (some (n : Int)) x).Safe w F fun h v => Pooled r (n + 1) (pool.push h) v ∧
      (v.tape v.active).nodes[h.index]? = some (.input n x) := by
  have hfree : ∀ (i : Nat) (y : Float), (w.tape w.active).nodes[i]? = some (.input n y) → y = x :=
    fun i y hi => absurd ((hp.declared n).mp ⟨i, y, hi⟩) (Nat.lt_irrefl n)
  obtain ⟨q, hq⟩ := (hw.valid w.active).exists_declare hfree
  have hprovides := (hw.valid w.active).provides_declare hq
  refine (safe_provided (g := fun _ => q) hw hprovides (run_makeInput_ok hq)).imp ?_
  rintro h v - hwv ⟨htape, hnode, rfl⟩
  have htape' := Workspace.tape_onTape (f := fun _ => q) hw.active_lt
  refine ⟨?_, hnode⟩
  constructor
  case on_active => exact hp.on_active_push hwv htape (Tape.lt_size hnode)
  case operators =>
    rw [Workspace.onTape_active, htape']
    exact hp.operators.declare hq
  case declared =>
    intro k
    rw [Workspace.onTape_active, htape', Nat.lt_succ_iff_lt_or_eq, ← hp.declared k]
    exact hprovides.hasInput_iff

section
variable {n : Nat} {pool : Array Handle} (hw : w.Ready) (hp : Pooled r n pool w)
  {m : Node Float (Operand Float)} (hop : m.op.isTerminal = false) (hm : ∀ x ∈ m.operands, Earlier pool x)
include hw hp hop hm

theorem safe_construct_earlier {β : Type} {f : Node Float β → β} (hf : Binary64.calculus.rules.Folds f) :
    (ScalarGraph.construct Binary64.calculus.rules m).Safe w F fun h v =>
      (Operand.handle h).On v ∧ h.tape = v.active ∧ w.AddsNoInput v ∧
        ∀ V, (v.tape v.active).net.Solves f V → V h.index = f (m.map (Operand.meaning f V)) := by
  have hon : ∀ x ∈ m.operands, x.On w := by
    intro x hx
    rcases hm x hx with ⟨h, hh, rfl⟩ | ⟨a, rfl⟩
    · exact hp.on hw hh
    · rintro y ⟨⟩
  have htape : ∀ y, .handle y ∈ m.operands → y.tape = w.active := by
    intro y hy
    rcases hm _ hy with ⟨h, hh, heq⟩ | ⟨a, heq⟩
    · cases heq
      exact (hp.on_active y hh).1
    · cases heq
  refine ((ScalarGraph.safe_construct hw hf hop hon).weaken ?_).imp ?_
  · rintro (⟨y, z, hy, hz, hne⟩ | ⟨e, he⟩)
    · exact absurd ((htape y hy).trans (htape z hz).symm) hne
    · rcases hm _ he with ⟨h, -, heq⟩ | ⟨a, heq⟩ <;> cases heq
  · rintro h v - hwv ⟨hh, hinput, hshared, hmeaning⟩
    have hactive : h.tape = v.active := by
      rw [hwv.active_eq]
      rcases hshared with hactive | ⟨y, hy, hyh⟩
      · exact hactive
      · exact hyh.symm.trans (htape y hy)
    exact ⟨hh, hactive, hinput, hactive ▸ hmeaning⟩

theorem safe_construct_pooled (hspeaks : r.Speaks m.op) :
    (ScalarGraph.construct Binary64.calculus.rules m).Safe w F fun h v => Pooled r n (pool.push h) v := by
  have hsafe := (safe_construct_earlier (F := F) (f := fun _ => ()) hw hp hop hm fun _ _ => rfl).and_after
    (I := fun v => (v.tape w.active).OperatorsIn r.Speaks) (operatorsIn_construct hp.operators hspeaks)
  refine hsafe.imp ?_
  rintro h v - hwv ⟨⟨hh, hactive, hinput, -⟩, hoperators⟩
  constructor
  case on_active =>
    refine hp.on_active_push hwv hactive ?_
    rw [← hactive]
    exact (hh h rfl).2
  case operators =>
    rw [hwv.active_eq]
    exact hoperators
  case declared =>
    intro k
    rw [hwv.active_eq, ← hp.declared k]
    constructor
    · rintro ⟨i, y, hi⟩
      exact ⟨i, y, hinput _ i k y hi⟩
    · rintro ⟨i, y, hi⟩
      exact ⟨i, y, (hwv.tape _).getElem? hi⟩

end

theorem safe_construct (hw : w.Ready) {n : Nat} {pool : Array Handle} (hp : Pooled r n pool w)
    {m : Node Float (Operand Float)} (hop : m.op.isTerminal = false) (hspeaks : r.Speaks m.op)
    (hm : ∀ x ∈ m.operands, Earlier pool x) :
    (construct (σ := σ) m).Safe w F fun h v => Pooled r n (pool.push h) v :=
  safe_liftM (safe_construct_pooled hw hp hop hm hspeaks)

/-- What every constructor on earlier results and numbers leads to holds after a result is drawn. From a
source that keeps to its ranges one operand at least is an earlier result. -/
theorem safe_result_of (hw : w.Ready) {pool : Array Handle} (hF : (Regular S r ∧ 0 < pool.size) ∨ F)
    {Q : Handle → Workspace Float → Prop}
    (hconstruct : ∀ m : Node Float (Operand Float), m.op.isTerminal = false → r.Speaks m.op →
      (∀ x ∈ m.operands, Earlier pool x) → (S.KeepsRange → ∃ h, .handle h ∈ m.operands) →
      (construct (σ := σ) m).Safe w F Q) : (result S r pool).Safe w F Q := by
  have hpick : (pick S r pool).Asks w F fun h => Earlier pool (.handle h) :=
    (asks_pick hw hF).imp fun h hh => earlier_handle hh
  have hitem {β : Type} {xs : List β} (hne : xs ≠ []) : (item S xs).Asks w F (· ∈ xs) :=
    asks_item hw (hF.imp_left fun h => ⟨h.1.keeps_range, hne⟩)
  unfold result
  refine Asks.bind (asks_unit hw) fun kind _ => ?_
  split
  · refine Asks.bind hpick fun x hx => Asks.bind (hitem r.unaryOps_ne_nil) fun o ho => ?_
    exact hconstruct _ rfl ho (by simp [Node.operands, hx]) fun _ => ⟨x, List.mem_cons_self⟩
  split
  · -- the right operand is drawn first, an earlier result or a number
    have hleft (y : Operand Float) (hy : Earlier pool y) : (do
        let x ← pick S r pool
        construct (.binary (← item S r.binaryOps) (.handle x) y)).Safe w F Q := by
      refine Asks.bind hpick fun x hx => Asks.bind (hitem r.binaryOps_ne_nil) fun o ho => ?_
      exact hconstruct _ rfl ho (by simp [Node.operands, hx, hy]) fun _ => ⟨x, List.mem_cons_self⟩
    refine Asks.bind (asks_unit hw) fun u _ => ?_
    dsimp only
    split
    · exact Asks.bind (Asks.map hw hpick) hleft
    · exact Asks.bind (Asks.map hw ((asks_uniform hw _ _).imp fun a _ => .inr ⟨_, rfl⟩)) hleft
  split
  · refine Asks.bind (asks_between hw (.inl (by decide))) fun k hk => ?_
    refine Asks.bind (asks_picks hw hF k) fun xs ⟨hlength, hxs⟩ => ?_
    refine Asks.bind (hitem r.naryOps_ne_nil) fun o ho => hconstruct _ rfl ho ?_ fun hS => ?_
    · exact List.forall_mem_map.mpr fun h hh => earlier_handle (hxs h hh)
    · have hpos : 0 < xs.length := by
        have := (hk hS).1
        omega
      exact ⟨xs[0], List.mem_map_of_mem (List.getElem_mem hpos)⟩
  split
  · refine Asks.bind hpick fun x hx => Asks.bind hpick fun y hy => ?_
    exact hconstruct _ rfl r.speaks_add (by simp [Node.operands, hx, hy]) fun _ => ⟨x, List.mem_cons_self⟩
  next hsmooth =>
  split
  · refine Asks.bind hpick fun c hc => Asks.bind hpick fun x hx => Asks.bind hpick fun y hy => ?_
    exact hconstruct _ rfl (Bool.eq_false_iff.mpr hsmooth) (by simp [Node.operands, hc, hx, hy])
      fun _ => ⟨c, List.mem_cons_self⟩
  · refine Asks.bind hpick fun x hx => ?_
    exact hconstruct _ rfl ⟨Bool.eq_false_iff.mpr hsmooth, _, rfl⟩ (by simp [Node.operands, hx])
      fun _ => ⟨x, List.mem_cons_self⟩

theorem safe_result (hw : w.Ready) {n : Nat} {pool : Array Handle} (hp : Pooled r n pool w)
    (hF : (Regular S r ∧ 0 < pool.size) ∨ F) :
    (result S r pool).Safe w F fun h v => Pooled r n (pool.push h) v :=
  safe_result_of hw hF fun _ hop hspeaks hm _ => safe_construct hw hp hop hspeaks hm

theorem safe_grown {n : Nat} (k : Nat) (hw : w.Ready) {pool : Array Handle} (hp : Pooled r n pool w)
    (hF : (Regular S r ∧ 0 < pool.size) ∨ F) :
    (grown S r k pool).Safe w F fun pool' v => Pooled r n pool' v := by
  induction k generalizing w pool with
  | zero => exact safe_pure hw hp
  | succ k ih =>
    refine Safe.bind (safe_result hw hp hF) fun h v hv _ hpush => ih hv hpush ?_
    exact hF.imp_left fun hr => ⟨hr.1, by simp⟩

structure Inputs (r : Recipe) (pool : Array Handle) (w : Workspace Float) : Prop where
  pooled : Pooled r pool.size pool w
  node : ∀ (i : Nat) (h : Handle), pool[i]? = some h →
    ∃ x, (w.tape w.active).nodes[h.index]? = some (.input i x)

def nextInput (S : Source σ) (pool : Array Handle) (i : Nat) : Draw σ (Array Handle) := do
  let v ← uniform S (-2.0) 2.0
  return pool.push (← liftM (makeInput (some (i : Int)) v : Build Float Handle))

def afterInput (S : Source σ) (s : σ) : σ := (S.uniform (-2.0) 2.0 s).2

theorem run_nextInput (S : Source σ) (pool : Array Handle) (i : Nat) (s : σ) :
    (nextInput S pool i).run s = (do
      let h ← makeInput (some (i : Int)) (S.uniform (-2.0) 2.0 s).1
      return (pool.push h, afterInput S s)) := by
  simp [nextInput, uniform, afterInput]

theorem safe_nextInput (hw : w.Ready) {pool : Array Handle} (hp : Inputs r pool w) (s : σ) :
    ((nextInput S pool pool.size).run s).Safe w F fun c v =>
      Inputs r c.1 v ∧ c.1.size = pool.size + 1 ∧ c.2 = afterInput S s := by
  rw [run_nextInput]
  refine Build.Safe.bind (safe_makeInput hw hp.pooled _) fun h v hv hwv ⟨hpush, hnode⟩ => ?_
  refine Build.safe_pure hv ⟨⟨by rwa [Array.size_push], fun i y hy => ?_⟩, Array.size_push .., rfl⟩
  rw [Array.getElem?_push] at hy
  split at hy
  · next hi =>
    cases hy
    exact ⟨_, hi ▸ hnode⟩
  · obtain ⟨x, hx⟩ := hp.node i y hy
    rw [hwv.active_eq]
    exact ⟨x, (hwv.tape _).getElem? hx⟩

theorem safe_nextInputs (k : Nat) (hw : w.Ready) {pool : Array Handle} (hp : Inputs r pool w) (s : σ) :
    (((List.range' pool.size k).foldlM (nextInput S) pool).run s).Safe w F fun c v =>
      Inputs r c.1 v ∧ c.1.size = pool.size + k ∧ c.2 = (afterInput S)^[k] s := by
  induction k generalizing w pool s with
  | zero => exact Build.safe_pure hw ⟨hp, rfl, rfl⟩
  | succ k ih =>
    rw [List.range'_succ, List.foldlM_cons, StateT.run_bind]
    refine Build.Safe.bind (safe_nextInput hw hp s) fun c v hv _ ⟨hpool, hsize, hstate⟩ => ?_
    have hrest := ih hv hpool c.2
    rw [hsize, hstate, Nat.add_right_comm, Nat.add_assoc, ← Function.iterate_succ_apply] at hrest
    rwa [hstate]

theorem safe_inputs (hw : w.Ready) (hp : Pooled r 0 #[] w) (n : Nat) (s : σ) :
    ((inputs S n).run s).Safe w F fun c v =>
      Inputs r c.1 v ∧ c.1.size = n ∧ c.2 = (afterInput S)^[n] s := by
  have hempty : Inputs r #[] w := ⟨hp, by simp⟩
  have hall := safe_nextInputs (S := S) (F := F) n hw hempty s
  rw [Array.size_empty, Nat.zero_add] at hall
  unfold inputs
  rw [List.range_eq_range']
  exact hall

/-- The primary output of an expression is a result on the active tape. -/
theorem safe_expression (hw : w.Ready) (hp : Pooled r 0 #[] w)
    (hF : (Regular S r ∧ 0 < r.inputs) ∨ F) :
    (expression S r).Safe w F fun c v => Pooled r r.inputs #[c.1] v := by
  have hinputs : (inputs S r.inputs).Safe w F fun pool v =>
      Pooled r r.inputs pool v ∧ pool.size = r.inputs := fun s =>
    (safe_inputs hw hp r.inputs s).imp fun _ _ _ _ ⟨hpool, hsize, _⟩ => ⟨hsize ▸ hpool.pooled, hsize⟩
  unfold expression
  refine Safe.bind hinputs fun pool v hv _ ⟨hpool, hsize⟩ => ?_
  refine Safe.bind (safe_grown r.operators hv hpool (hsize ▸ hF)) fun pool' u hu _ hpool' => ?_
  refine Safe.bind (safe_construct hu hpool' rfl r.speaks_sum ?_) fun h t ht _ hpush => ?_
  · exact List.forall_mem_map.mpr fun h hh =>
      earlier_handle (Array.mem_toList_iff.mp (List.mem_of_mem_drop hh))
  · refine safe_pure ht ⟨fun y hy => hpush.on_active y ?_, hpush.operators, hpush.declared⟩
    simp_all

end Draw
end ScalarGraph
