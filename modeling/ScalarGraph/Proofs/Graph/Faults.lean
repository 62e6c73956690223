import ScalarGraph.Proofs.Binary64.Range
import ScalarGraph.Proofs.Graph.Replay
import ScalarGraph.Proofs.Graph.RoundTrip
import ScalarGraph.Proofs.Graph.Wiring

/-! # Faults of reading

A text that is read as no graph is no JSON, or it breaks an invariant, but for four cases: an integer
with too many digits, an integer that is no machine number, secondary outputs that are no list, and
an edge whose role is an array or an object.
-/
namespace ScalarGraph
variable {α : Type}

def Fault.IsViolation (f : Fault) : Prop := ∃ v, f = .violation v

namespace Draft
variable {d : Draft α} {f : Fault}

theorem isViolation_of_check {γ : Type} {r : Except Violation γ} (h : check r = .error f) :
    f.IsViolation := by
  cases r with
  | ok c => cases h
  | error v =>
    cases h
    exact ⟨v, rfl⟩

/-- Where all ends of edges are defined the only thing that can be wrong with an order is a cycle. -/
theorem isViolation_of_order (hends : d.checkEnds = .ok ()) (h : d.order = .error f) :
    f.IsViolation := by
  unfold Draft.order at h
  split at h
  · cases h
  · next hsort =>
    obtain ⟨degrees, hdegrees⟩ := Order.exists_degrees (d.edges.map fun e => (e.source, e.target))
      (Order.unconnected d.ids) fun e he => by
        obtain ⟨e', he', rfl⟩ := List.mem_map.mp he
        exact Order.mem_unconnected.mpr (checkEnds_eq_ok.mp hends e' he').2
    unfold Order.sort Order.degrees at hsort
    rw [hdegrees] at hsort
    dsimp only at hsort
    split at hsort <;> cases hsort
  · cases h
    exact ⟨_, rfl⟩

theorem isViolation_of_frame (h : d.frame = .error f) : f.IsViolation := by
  unfold frame at h
  rcases bind_eq_error.mp h with h | ⟨_, hends, h⟩
  · exact isViolation_of_check h
  rcases bind_eq_error.mp h with h | ⟨_, -, h⟩
  · exact isViolation_of_check h
  rcases bind_eq_error.mp h with h | ⟨ps, -, h⟩
  · exact isViolation_of_check h
  rcases bind_eq_error.mp h with h | ⟨ids, -, ⟨⟩⟩
  exact isViolation_of_order (check_eq_ok.mp hends) h

/-- An edge is noted, or it repeats a slot, or its slot is an array or an object. -/
theorem Named.of_add_eq_error {m : Named} {e : DraftEdge} (h : m.add e = .error f) :
    f.IsViolation ∨ f = .wrongType ∧ e.slot.key? = none := by
  unfold Named.add at h
  dsimp only at h
  split at h
  · next hk =>
    cases h
    exact .inr ⟨rfl, hk⟩
  · split at h
    · cases h
      exact .inl ⟨_, rfl⟩
    · cases h

theorem Named.add_of_key?_eq_none {m : Named} {e : DraftEdge} (h : e.slot.key? = none) :
    m.add e = .error .wrongType := by
  unfold Named.add
  dsimp only
  rw [h]

/-- The draft is in order up to an edge whose slot is an array or an object. -/
def MeetsCompound (d : Draft α) : Prop :=
  (∃ r, d.frame = .ok r) ∧ ∃ l₁ e l₂ m,
    d.edges = l₁ ++ e :: l₂ ∧ l₁.foldlM Named.add {} = .ok m ∧ e.slot.key? = none

/-- Assembling fails with a violation, or at an edge whose slot is an array or an object. -/
theorem assemble_eq_error [Written α] :
    d.assemble = .error f ∧ ¬ f.IsViolation ↔ f = .wrongType ∧ d.MeetsCompound := by
  unfold assemble MeetsCompound
  constructor
  · rintro ⟨h, hf⟩
    rcases bind_eq_error.mp h with h | ⟨⟨ps, order⟩, hframe, h⟩
    · exact absurd (isViolation_of_frame h) hf
    rcases bind_eq_error.mp h with h | ⟨named, -, h⟩
    · obtain ⟨l₁, e, l₂, m, hsplit, hl, he⟩ := foldlM_eq_error.mp h
      rcases Named.of_add_eq_error he with hv | ⟨rfl, hk⟩
      · exact absurd hv hf
      · exact ⟨rfl, ⟨_, hframe⟩, l₁, e, l₂, m, hsplit, hl, hk⟩
    rcases bind_eq_error.mp h with h | ⟨rows, -, h⟩
    · exact absurd (isViolation_of_check h) hf
    rcases bind_eq_error.mp h with h | ⟨nodes, -, ⟨⟩⟩
    exact absurd (isViolation_of_check h) hf
  · rintro ⟨rfl, ⟨⟨ps, order⟩, hframe⟩, l₁, e, l₂, m, hsplit, hl, hk⟩
    have hnamed : d.named = .error .wrongType :=
      foldlM_eq_error.mpr ⟨l₁, e, l₂, m, hsplit, hl, Named.add_of_key?_eq_none hk⟩
    refine ⟨bind_eq_error.mpr (.inr ⟨_, hframe, bind_eq_error.mpr (.inl hnamed)⟩), ?_⟩
    rintro ⟨v, hv⟩
    cases hv

end Draft

namespace Json

inductive Oversized : Json → Prop where
  | constant {i : Int} (hi : Binary64.rangeLimit ≤ i.natAbs) : Oversized (.int i)
  | sample {v : Json} {k i : Int} (htag : v.field? "tag" = some (.text (Text.ofString "Input")))
      (hindex : v.field? "index" = some (.int k)) (hval : v.field? "val" = some (.int i))
      (hi : Binary64.rangeLimit ≤ i.natAbs) : Oversized v

inductive Unlisted : Json → Prop where
  | null : Unlisted .null
  | bool (b : Bool) : Unlisted (.bool b)
  | int (i : Int) : Unlisted (.int i)
  | real (x : Float) : Unlisted (.real x)

end Json

namespace Document
open Json
variable {f : Fault} {id : Text} {v : Json}

theorem ofInt_eq_error {i : Int} :
    Numeral.ofInt i = .error f ↔ f = .outOfRange ∧ Binary64.rangeLimit ≤ i.natAbs := by
  rw [← Binary64.ofInt?_eq_none]
  unfold Numeral.ofInt
  cases Binary64.ofInt? i with
  | none => simp [eq_comm]
  | some x => simp

theorem sample_eq_error (h : sample id v = .error f) :
    f.IsViolation ∨ f = .outOfRange ∧ ∃ i, v = .int i ∧ Binary64.rangeLimit ≤ i.natAbs := by
  cases v with
  | int i =>
    obtain ⟨rfl, hi⟩ := ofInt_eq_error.mp h
    exact .inr ⟨rfl, i, rfl, hi⟩
  | text t =>
    rw [sample] at h
    split at h
    · cases h
    · cases h
      exact .inl ⟨_, rfl⟩
  | bool b => cases h
  | real x => cases h
  | _ =>
    cases h
    exact .inl ⟨_, rfl⟩

theorem required_eq_ok {name : String} {u : Json} :
    required id name v = .ok u ↔ v.field? name = some u := by
  unfold required
  cases v.field? name <;> simp

theorem isViolation_of_required {name : String} (h : required id name v = .error f) :
    f.IsViolation := by
  unfold required at h
  split at h
  · cases h
  · cases h
    exact ⟨_, rfl⟩

theorem isViolation_of_requiredText {name : String} (h : requiredText id name v = .error f) :
    f.IsViolation := by
  unfold requiredText at h
  cases hr : required id name v with
  | ok u =>
    rw [hr] at h
    cases h
  | error e =>
    rw [hr] at h
    cases h
    exact isViolation_of_required hr

theorem position_eq_ok {k : Int} : position id v = .ok k ↔ v = .int k := by
  unfold position
  cases v <;> simp

theorem isViolation_of_position (h : position id v = .error f) : f.IsViolation := by
  cases v with
  | int i => cases h
  | _ =>
    cases h
    exact ⟨_, rfl⟩

theorem tagged_eq_error {tag : Text} (h : tagged id tag v = .error f) :
    f.IsViolation ∨ f = .outOfRange ∧ tag = Text.ofString "Input" ∧ ∃ k i,
      v.field? "index" = some (.int k) ∧ v.field? "val" = some (.int i) ∧
        Binary64.rangeLimit ≤ i.natAbs := by
  unfold tagged at h
  split at h
  · next htag =>
    rcases bind_eq_error.mp h with h | ⟨u, hindex, h⟩
    · exact .inl (isViolation_of_required h)
    rcases bind_eq_error.mp h with h | ⟨k, hk, h⟩
    · exact .inl (isViolation_of_position h)
    rcases bind_eq_error.mp h with h | ⟨x, -, ⟨⟩⟩
    rcases sample_eq_error h with hv | ⟨hf, i, hi, hlarge⟩
    · exact .inl hv
    refine .inr ⟨hf, htag, k, i, ?_, ?_, hlarge⟩
    · rw [required_eq_ok.mp hindex, position_eq_ok.mp hk]
    · cases hval : v.field? "val" with
      | none =>
        rw [hval] at hi
        cases hi
      | some u =>
        rw [hval] at hi
        exact congrArg some hi
  · left
    split at h
    · rcases bind_eq_error.mp h with h | ⟨t, -, ⟨⟩⟩
      exact isViolation_of_requiredText h
    split at h
    · rcases bind_eq_error.mp h with h | ⟨t, -, ⟨⟩⟩
      exact isViolation_of_requiredText h
    split at h
    · cases h
    split at h
    · rcases bind_eq_error.mp h with h | ⟨t, -, ⟨⟩⟩
      exact isViolation_of_requiredText h
    split at h
    · cases h
    · cases h
      exact ⟨_, rfl⟩

theorem node_eq_error :
    node id v = .error f ∧ ¬ f.IsViolation ↔ f = .outOfRange ∧ v.Oversized := by
  constructor
  · rintro ⟨h, hf⟩
    cases v with
    | int i =>
      have hi : Numeral.ofInt i = .error f := by
        cases hr : Numeral.ofInt i with
        | ok x =>
          rw [node, hr] at h
          cases h
        | error e =>
          rw [node, hr] at h
          cases h
          rfl
      obtain ⟨rfl, hlarge⟩ := ofInt_eq_error.mp hi
      exact ⟨rfl, .constant hlarge⟩
    | real x => cases h
    | object fields =>
      rw [node] at h
      split at h
      · next tag htag =>
        rcases tagged_eq_error h with hv | ⟨hr, rfl, k, i, hindex, hval, hi⟩
        · exact absurd hv hf
        · exact ⟨hr, .sample htag hindex hval hi⟩
      · cases h
        exact absurd ⟨_, rfl⟩ hf
    | _ =>
      cases h
      exact absurd ⟨_, rfl⟩ hf
  · rintro ⟨rfl, hv⟩
    refine ⟨?_, fun ⟨_, h⟩ => by cases h⟩
    cases hv with
    | constant hi =>
      rw [node, ofInt_eq_error.mpr ⟨rfl, hi⟩]
      rfl
    | @sample v k i htag hindex hval hi =>
      cases v with
      | object fields =>
        rw [node, htag]
        dsimp only
        unfold tagged
        rw [if_pos rfl, required_eq_ok.mpr hindex, hval]
        show (do return Literal.input k (← Numeral.ofInt i) : Except Fault (Literal Float)) = _
        rw [ofInt_eq_error.mpr ⟨rfl, hi⟩]
        rfl
      | _ => cases htag

theorem isViolation_of_edge (h : edge v = .error f) : f.IsViolation := by
  unfold edge at h
  split at h
  · cases h
  · cases h
    exact ⟨_, rfl⟩

theorem listed_eq_error : listed v = .error f ↔ f = .wrongType ∧ v.Unlisted := by
  constructor
  · intro h
    cases v with
    | null =>
      cases h
      exact ⟨rfl, .null⟩
    | bool b =>
      cases h
      exact ⟨rfl, .bool b⟩
    | int i =>
      cases h
      exact ⟨rfl, .int i⟩
    | real x =>
      cases h
      exact ⟨rfl, .real x⟩
    | _ => cases h
  · rintro ⟨rfl, hv⟩
    cases hv <;> rfl

def MeetsOversized (nodes : List (Text × Json)) : Prop :=
  ∃ l₁ p l₂, nodes = l₁ ++ p :: l₂ ∧ (∀ q ∈ l₁, ∃ l, node q.1 q.2 = .ok l) ∧ p.2.Oversized

theorem nodes_eq_error {nodes : List (Text × Json)} :
    nodes.mapM (fun p => do return (p.1, ← node p.1 p.2)) = .error f ∧ ¬ f.IsViolation ↔
      f = .outOfRange ∧ MeetsOversized nodes := by
  have hok : ∀ q : Text × Json, (∃ z, (do return (q.1, ← node q.1 q.2) : Except Fault _) = .ok z) ↔
      ∃ l, node q.1 q.2 = .ok l := by
    intro q
    cases node q.1 q.2 with
    | ok l => exact iff_of_true ⟨_, rfl⟩ ⟨l, rfl⟩
    | error e => exact iff_of_false nofun nofun
  have herror : ∀ q : Text × Json,
      (do return (q.1, ← node q.1 q.2) : Except Fault (Text × Literal Float)) = .error f ↔
        node q.1 q.2 = .error f := by
    intro q
    rw [bind_eq_error]
    exact or_iff_left nofun
  unfold MeetsOversized
  rw [mapM_eq_error]
  simp only [hok, herror]
  constructor
  · rintro ⟨⟨l₁, p, l₂, hsplit, hl, hp⟩, hf⟩
    obtain ⟨hr, hp⟩ := node_eq_error.mp ⟨hp, hf⟩
    exact ⟨hr, l₁, p, l₂, hsplit, hl, hp⟩
  · rintro ⟨hr, l₁, p, l₂, hsplit, hl, hp⟩
    obtain ⟨hp, hf⟩ := node_eq_error.mpr ⟨hr, hp⟩
    exact ⟨⟨l₁, p, l₂, hsplit, hl, hp⟩, hf⟩

/-- What is wrong with a document that is refused with another fault than a violation. -/
inductive Escapes (v : Json) : Fault → Prop where
  | integer {nodes : List (Text × Json)} {edges : List Json}
      (hnodes : v.field? "nodes" = some (.object nodes))
      (hedges : v.field? "edges" = some (.array edges)) (h : MeetsOversized nodes) :
      Escapes v .outOfRange
  | secondary {nodes : List (Text × Json)} {edges : List Json} {u : Json}
      (hnodes : v.field? "nodes" = some (.object nodes))
      (hedges : v.field? "edges" = some (.array edges))
      (hnode : ∀ p ∈ nodes, ∃ l, node p.1 p.2 = .ok l) (hedge : ∀ e ∈ edges, ∃ d, edge e = .ok d)
      (hu : v.field? "secondary" = some u) (h : u.Unlisted) : Escapes v .wrongType
  | role {d : Draft Float} (hd : draft v = .ok d) (h : d.MeetsCompound) : Escapes v .wrongType

/-- A draft is read from a document, or what is wrong is a violation, or it is found before any
check of the draft. -/
theorem draft_eq_error (h : draft v = .error f) : f.IsViolation ∨ Escapes v f := by
  by_cases hf : f.IsViolation
  · exact .inl hf
  right
  unfold draft at h
  split at h
  · next nodes edges hnodes hedges =>
    rcases bind_eq_error.mp h with h | ⟨ns, hns, h⟩
    · obtain ⟨rfl, hmeets⟩ := nodes_eq_error.mp ⟨h, hf⟩
      exact .integer hnodes hedges hmeets
    rcases bind_eq_error.mp h with h | ⟨es, hes, h⟩
    · obtain ⟨l₁, e, l₂, -, -, he⟩ := mapM_eq_error.mp h
      exact absurd (isViolation_of_edge he) hf
    rcases bind_eq_error.mp h with h | ⟨ids, -, ⟨⟩⟩
    obtain ⟨rfl, hunlisted⟩ := listed_eq_error.mp h
    have hnode : ∀ p ∈ nodes, ∃ l, node p.1 p.2 = .ok l := by
      intro p hp
      obtain ⟨q, -, hq⟩ := exists_of_list_mapM_eq_ok hns p hp
      obtain ⟨l, hl, -⟩ := bind_eq_ok.mp hq
      exact ⟨l, hl⟩
    cases hu : v.field? "secondary" with
    | none =>
      rw [hu] at hunlisted
      cases hunlisted
    | some u =>
      rw [hu] at hunlisted
      exact .secondary hnodes hedges hnode (exists_mapM_eq_ok.mp ⟨es, hes⟩) hu hunlisted
  · cases h
    exact absurd ⟨_, rfl⟩ hf
  · cases h
    exact absurd ⟨_, rfl⟩ hf

theorem Escapes.not_isViolation (h : Escapes v f) : ¬ f.IsViolation := by
  rintro ⟨e, rfl⟩
  cases h

theorem Escapes.read_eq {t : Text} (h : Escapes v f) (hv : Json.read t = .ok v) :
    read t = .error f := by
  unfold read
  rw [hv]
  refine bind_eq_error.mpr ?_
  cases h with
  | integer hnodes hedges h =>
    left
    unfold draft
    rw [hnodes, hedges]
    exact bind_eq_error.mpr (.inl (nodes_eq_error.mpr ⟨rfl, h⟩).1)
  | secondary hnodes hedges hnode hedge hu h =>
    left
    obtain ⟨ns, hns⟩ := exists_mapM_eq_ok.mpr fun p hp => by
      obtain ⟨l, hl⟩ := hnode p hp
      exact ⟨(p.1, l), bind_eq_ok.mpr ⟨l, hl, rfl⟩⟩
    obtain ⟨es, hes⟩ := exists_mapM_eq_ok.mpr hedge
    unfold draft
    rw [hnodes, hedges]
    refine bind_eq_error.mpr (.inr ⟨ns, hns, bind_eq_error.mpr (.inr ⟨es, hes, ?_⟩)⟩)
    rw [hu]
    exact bind_eq_error.mpr (.inl (listed_eq_error.mpr ⟨rfl, h⟩))
  | role hd h => exact .inr ⟨_, hd, (Draft.assemble_eq_error.mpr ⟨rfl, h⟩).1⟩

theorem read_eq_error {t : Text} (hv : Json.read t = .ok v) :
    read t = .error f ∧ ¬ f.IsViolation ↔ Escapes v f := by
  constructor
  · rintro ⟨h, hf⟩
    unfold read at h
    rw [hv] at h
    rcases bind_eq_error.mp h with h | ⟨d, hd, h⟩
    · exact (draft_eq_error h).resolve_left hf
    · obtain ⟨rfl, hmeets⟩ := Draft.assemble_eq_error.mp ⟨h, hf⟩
      exact .role hd hmeets
  · intro h
    exact ⟨h.read_eq hv, h.not_isViolation⟩

def defectFault : Json.Defect → Fault
  | .malformed => .notJson
  | .tooManyDigits => .badValue

theorem read_of_defect {t : Text} {e : Json.Defect} (h : Json.read t = .error e) :
    read t = .error (defectFault e) := by
  unfold read
  rw [h]
  cases e <;> rfl

/-- A fault that no document leads to comes from a text that is no JSON value. -/
theorem exists_defect {t : Text} (h : read t = .error f) (hf : ¬ f.IsViolation)
    (hescapes : ∀ v, ¬ Escapes v f) : ∃ e, Json.read t = .error e := by
  cases hv : Json.read t with
  | error e => exact ⟨e, rfl⟩
  | ok v => exact absurd ((read_eq_error hv).mp ⟨h, hf⟩) (hescapes v)

/-- A graph that is read from a text is assembled again from what it is made of, and has all that is
checked. A text that is no JSON is refused as such, and so is one with an integer of too many digits,
with another fault. Every other text without a graph breaks an invariant, or it has one of three
defects, with their own faults: an integer in a node that is no machine number, where no node before
it is refused; secondary outputs that list nothing, where no node and no edge is refused; and an edge
whose role is an array or an object, where everything before the operands is in order. The reader of
JSON nests to any depth, so the fault of an interpreter whose stack is too small for a text is not
among these. -/
theorem read_faults (t : Text) :
    (∀ g, read t = .ok g → g.draft.assemble = .ok g ∧ g.WellFormed ∧ g.Closed ∧ g.Wired ∧
      g.positions.Nodup) ∧
    (read t = .error .notJson ↔ Json.read t = .error .malformed) ∧
    (read t = .error .badValue ↔ Json.read t = .error .tooManyDigits) ∧
    ∀ v, Json.read t = .ok v →
      ∀ f, (read t = .error f ∧ ¬ ∃ e, f = .violation e) ↔ Escapes v f := by
  refine ⟨fun g h => ?_, ?_, ?_, fun v hv f => read_eq_error hv⟩
  · obtain ⟨d, hd, hnone, hg⟩ := exists_given_of_read h
    have hassembled : g.Assembled := ⟨d, hd.ids_nodup, hg⟩
    refine ⟨?_, hassembled.wellFormed, (Graph.Returned.read h).closed, hd.wired hg,
      hassembled.nodup_positions⟩
    rw [Graph.assemble_draft hd hg, ← hd.numInputs_eq hnone hg]
  · refine ⟨fun h => ?_, fun h => read_of_defect h⟩
    obtain ⟨e, he⟩ := exists_defect h (fun ⟨_, hv⟩ => by cases hv) fun v hv => by cases hv
    rw [read_of_defect he] at h
    cases e with
    | malformed => exact he
    | tooManyDigits => cases h
  · refine ⟨fun h => ?_, fun h => read_of_defect h⟩
    obtain ⟨e, he⟩ := exists_defect h (fun ⟨_, hv⟩ => by cases hv) fun v hv => by cases hv
    rw [read_of_defect he] at h
    cases e with
    | malformed => cases h
    | tooManyDigits => exact he

def withInput (sample secondary : Json) : Json :=
  record [("nodes", .object [(Text.ofString "x", record
    [("tag", .text (Text.ofString "Input")), ("index", .int 0), ("val", sample)])]),
    ("edges", .array []), ("secondary", secondary)]

def withSlot (slot : Json) : Json :=
  record [("nodes", .object [
      (Text.ofString "x", record [("tag", .text (Text.ofString "Input")), ("index", .int 0)]),
      (Text.ofString "y", record [("tag", .text (Text.ofString "Unary")),
        ("unop", .text (Text.ofString "neg"))])]),
    ("edges", .array [record [("from", .text (Text.ofString "x")), ("to", .text (Text.ofString "y")),
      ("role", slot)]])]

theorem read_compact (h : ReadsBack v) : Json.read v.compact = .ok v := by
  have hread := read_eq_ok h blank_nil
  rwa [List.append_nil] at hread

theorem readsBack_ascii {s : String} (h : ∀ c ∈ Text.ofString s, c.value < 0x80) :
    ReadsBack (.text (Text.ofString s)) :=
  readsBack_text (Text.whole_of_ascii h)

theorem readsBack_withInput {sample secondary : Json} (h : ReadsBack sample)
    (h' : ReadsBack secondary) : ReadsBack (withInput sample secondary) := by
  have hinput : ReadsBack (record
      [("tag", .text (Text.ofString "Input")), ("index", .int 0), ("val", sample)]) := by
    apply readsBack_record ["tag", "index", "val"] rfl (by decide) (by decide)
    simp only [List.map_cons, List.map_nil, List.forall_mem_cons]
    exact ⟨readsBack_ascii (by decide), readsBack_int (by decide +kernel), h, by simp⟩
  apply readsBack_record ["nodes", "edges", "secondary"] rfl (by decide) (by decide)
  simp only [List.map_cons, List.map_nil, List.forall_mem_cons]
  refine ⟨readsBack_object (List.nodup_singleton _) ?_, readsBack_array (by simp), h', by simp⟩
  simp only [List.forall_mem_singleton]
  exact ⟨Text.whole_of_ascii (by decide), hinput⟩

theorem readsBack_withSlot {slot : Json} (h : ReadsBack slot) : ReadsBack (withSlot slot) := by
  have hinput : ReadsBack (record [("tag", .text (Text.ofString "Input")), ("index", .int 0)]) := by
    apply readsBack_record ["tag", "index"] rfl (by decide) (by decide)
    simp only [List.map_cons, List.map_nil, List.forall_mem_cons]
    exact ⟨readsBack_ascii (by decide), readsBack_int (by decide +kernel), by simp⟩
  have hunary : ReadsBack (record [("tag", .text (Text.ofString "Unary")),
      ("unop", .text (Text.ofString "neg"))]) := by
    apply readsBack_record ["tag", "unop"] rfl (by decide) (by decide)
    simp only [List.map_cons, List.map_nil, List.forall_mem_cons]
    exact ⟨readsBack_ascii (by decide), readsBack_ascii (by decide), by simp⟩
  have hedge : ReadsBack (record [("from", .text (Text.ofString "x")),
      ("to", .text (Text.ofString "y")), ("role", slot)]) := by
    apply readsBack_record ["from", "to", "role"] rfl (by decide) (by decide)
    simp only [List.map_cons, List.map_nil, List.forall_mem_cons]
    exact ⟨readsBack_ascii (by decide), readsBack_ascii (by decide), h, by simp⟩
  apply readsBack_record ["nodes", "edges"] rfl (by decide) (by decide)
  simp only [List.map_cons, List.map_nil, List.forall_mem_cons]
  refine ⟨readsBack_object (by decide) ?_, readsBack_array (by simpa using hedge), by simp⟩
  simp only [List.forall_mem_cons]
  exact ⟨⟨Text.whole_of_ascii (by decide), hinput⟩, ⟨Text.whole_of_ascii (by decide), hunary⟩, by simp⟩

def arraySlot : Draft Float where
  nodes := [(Text.ofString "x", .input 0 0.0), (Text.ofString "y", .unary (Text.ofString "neg"))]
  edges := [⟨Text.ofString "x", Text.ofString "y", .other (.array [])⟩]

def leadingCodePoint (id : Text) : Nat := id.head?.elim 0 CodePoint.value

theorem meetsCompound_arraySlot : arraySlot.MeetsCompound := by
  have hrank : ∀ e ∈ arraySlot.edges, leadingCodePoint e.source < leadingCodePoint e.target := by decide
  obtain ⟨order, hframe⟩ := Draft.exists_frame (d := arraySlot) (by decide) (by decide) (by decide) rfl hrank
  exact ⟨⟨_, hframe⟩, [], _, [], {}, rfl, rfl, rfl⟩

/-- Each of the defects is met with. -/
theorem read_faults_met :
    read (withInput (.int (10 ^ 400 : Nat)) (.array [])).compact = .error .outOfRange ∧
    read (withInput (.real 0.0) .null).compact = .error .wrongType ∧
    read (withSlot (.array [])).compact = .error .wrongType := by
  have hlarge : ReadsBack (.int (10 ^ 400 : Nat)) := readsBack_int (by decide +kernel)
  have hreal : ReadsBack (.real 0.0) := reads_realText 0.0
  have hempty : ReadsBack (.array []) := readsBack_array (by simp)
  refine ⟨?_, ?_, ?_⟩
  · obtain ⟨-, -, -, hfaults⟩ := read_faults (withInput (.int (10 ^ 400 : Nat)) (.array [])).compact
    refine ((hfaults _ (read_compact (readsBack_withInput hlarge hempty)) _).mpr ?_).1
    refine .integer rfl rfl ⟨[], _, [], rfl, by simp, ?_⟩
    exact .sample rfl rfl rfl (by decide +kernel)
  · obtain ⟨-, -, -, hfaults⟩ := read_faults (withInput (.real 0.0) .null).compact
    refine ((hfaults _ (read_compact (readsBack_withInput hreal reads_null)) _).mpr ?_).1
    refine .secondary rfl rfl ?_ (by simp) rfl .null
    rw [List.forall_mem_singleton]
    exact ⟨.input 0 0.0, rfl⟩
  · obtain ⟨-, -, -, hfaults⟩ := read_faults (withSlot (.array [])).compact
    refine ((hfaults _ (read_compact (readsBack_withSlot hempty)) _).mpr ?_).1
    exact .role (d := arraySlot) rfl meetsCompound_arraySlot

end Document

end ScalarGraph
