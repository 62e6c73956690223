import ScalarGraph.Graph.Extraction
import ScalarGraph.Proofs.Graph.Document
import ScalarGraph.Proofs.Json.Distinct
import ScalarGraph.Proofs.Workspace.Extraction

/-! # From graphs to documents and back

Every graph that is returned is read from its document again, with the least length of the input
vector. A graph that was read from some document has this length already.
-/
namespace ScalarGraph
open Json

theorem Slot.ofLabel_label? (r : Role) : Slot.ofLabel r.label? = .role r := by
  unfold Slot.ofLabel
  rw [Role.named?_label?]

theorem Slot.exists_role_eq_ofJson (r : Role) : ∃ v, Slot.role r = Slot.ofJson v := by
  refine ⟨(r.label?.map Json.text).getD .null, ?_⟩
  rw [← Slot.ofLabel_label? r]
  cases r.label? with
  | none => rfl
  | some l => rfl

theorem Draft.given_ofNodes {α : Type} {nodes : List (Text × Node α Text)} (hids : (nodes.map (·.1)).Nodup)
    (primary : Option Text) (secondary : List Text) (numInputs : Option Int) :
    (ofNodes nodes primary secondary numInputs).Given where
  ids_nodup := by
    rw [ids_ofNodes]
    exact hids
  slots e he := by
    obtain ⟨s, -, rfl⟩ := List.mem_map.mp he
    exact Slot.exists_role_eq_ofJson s.role

namespace Document
variable (id : Text)

theorem ofInt_of_ofNumber {x : Float} {i : Int} (h : ofNumber x = .int i) : Numeral.ofInt i = .ok x := by
  unfold ofNumber at h
  split at h
  · next j hj =>
    split at h
    · cases h
    · next hsmall =>
      cases h
      unfold Numeral.ofInt
      rw [Binary64.ofInt?_toInt? hj fun hzero => hsmall (.inr hzero)]
  · cases h

theorem ofNumber_cases (x : Float) : (∃ i, ofNumber x = .int i) ∨ ofNumber x = .real x := by
  unfold ofNumber
  split
  · split
    · exact .inr rfl
    · exact .inl ⟨_, rfl⟩
  · exact .inr rfl

theorem sample_ofNumber (x : Float) : sample id (ofNumber x) = .ok x := by
  rcases ofNumber_cases x with ⟨i, hi⟩ | hx
  · rw [hi]
    exact ofInt_of_ofNumber hi
  · rw [hx]
    rfl

theorem node_ofNumber (x : Float) : node id (ofNumber x) = .ok (.const x) := by
  rcases ofNumber_cases x with ⟨i, hi⟩ | hx
  · rw [hi]
    show (Numeral.ofInt i).map Literal.const = _
    rw [ofInt_of_ofNumber hi]
    rfl
  · rw [hx]
    rfl

theorem node_document (o : Op Float) : node id o.document = .ok o.literal := by
  cases o with
  | const v => exact node_ofNumber id v
  | input i s =>
    simp only [Op.document, record, List.map_cons, List.map_nil]
    show (do return Literal.input i (← sample id (ofNumber s)) : Except Fault (Literal Float)) = _
    rw [sample_ofNumber]
    rfl
  | _ =>
    simp only [Op.document, record, List.map_cons, List.map_nil]
    rfl

theorem edge_document (e : Edge) : edge e.document = .ok e.draft := by
  have hslot := Slot.ofLabel_label? e.role
  unfold Edge.document
  cases hrole : e.role.label? with
  | none =>
    rw [hrole] at hslot
    simp only [record, Option.map_none, Option.toList_none, List.append_nil, List.map_cons, List.map_nil]
    show Except.ok (DraftEdge.mk e.source e.target (Slot.ofLabel none)) = _
    rw [hslot]
    rfl
  | some l =>
    rw [hrole] at hslot
    simp only [record, Option.map_some, Option.toList_some, List.cons_append, List.nil_append,
      List.map_cons, List.map_nil]
    show Except.ok (DraftEdge.mk e.source e.target (Slot.ofLabel (some l))) = _
    rw [hslot]
    rfl

def value (g : Graph Float) : Json := .object (g.sections.map fun f => (f.1, f.2.1))

theorem field?_value (g : Graph Float) :
    (value g).field? "primary" = some (ofId? g.primary) ∧
      ((value g).field? "secondary").getD (.array []) = .array (g.secondary.map .text) ∧
      (value g).field? "nodes" = some (.object (g.nodes.map fun p => (p.1, p.2.op.document))) ∧
      (value g).field? "edges" = some (.array (g.edges.map Edge.document)) := by
  unfold value Graph.sections
  cases hsecondary : g.secondary with
  | nil =>
    simp only [List.isEmpty_nil, if_true, List.append_nil, List.cons_append, List.nil_append,
      List.map_cons, List.map_nil]
    exact ⟨rfl, rfl, rfl, rfl⟩
  | cons id ids =>
    simp only [List.isEmpty_cons, Bool.false_eq_true, if_false, List.cons_append, List.nil_append,
      List.map_cons, List.map_nil]
    exact ⟨rfl, rfl, rfl, rfl⟩

theorem primary_ofId? (p : Option Text) : primary (ofId? p) = p := by
  cases p <;> rfl

/-- From the value of the document the draft of the graph is read. -/
theorem draft_value (g : Graph Float) : draft (value g) = .ok g.draft := by
  obtain ⟨hprimary, hsecondary, hnodes, hedges⟩ := field?_value g
  have hread : (g.nodes.map fun p => (p.1, p.2.op.document)).mapM
      (fun p => do return (p.1, ← node p.1 p.2)) =
        (.ok (g.nodes.map fun p => (p.1, p.2.op.literal)) : Except Fault _) := by
    rw [List.mapM_map]
    refine mapM_list_eq fun p _ => ?_
    simp only [Function.comp_apply, node_document]
    rfl
  have hslots : (g.edges.map Edge.document).mapM edge = (.ok (g.edges.map Edge.draft) : Except Fault _) := by
    rw [List.mapM_map]
    exact mapM_list_eq fun e _ => edge_document e
  have hlisted : listed (.array (g.secondary.map .text)) = .ok g.secondary := by
    show Except.ok ((g.secondary.map Json.text).map plain) = _
    rw [List.map_map]
    exact congrArg Except.ok (List.map_id g.secondary)
  unfold draft
  rw [hnodes, hedges]
  simp only [hread, hslots, hsecondary, hlisted, hprimary, Option.getD_some, primary_ofId?]
  rfl

theorem distinct_of_field? {v u : Json} (hv : Distinct v) {name : String} (h : v.field? name = some u) :
    Distinct u := by
  cases hv with
  | object names hfields =>
    obtain ⟨l₁, l₂, hl, -⟩ := List.lookup_eq_some_iff.mp h
    exact hfields (Text.ofString name, u) (by simp [hl])
  | _ => cases h

theorem given_of_draft {v : Json} (hv : Distinct v) {d : Draft Float} (h : draft v = .ok d) :
    d.Given ∧ d.numInputs = none := by
  unfold draft at h
  split at h
  · next fields items hfields hitems =>
    obtain ⟨nodes, hnodes, h⟩ := bind_eq_ok.mp h
    obtain ⟨edges, hedges, h⟩ := bind_eq_ok.mp h
    obtain ⟨secondary, -, h⟩ := bind_eq_ok.mp h
    cases h
    refine ⟨⟨?_, ?_⟩, rfl⟩
    · have hids : nodes.map (·.1) = fields.map (·.1) := map_of_mapM_eq_ok hnodes fun p q hq => by
        obtain ⟨l, -, ⟨⟩⟩ := bind_eq_ok.mp hq
        rfl
      show (nodes.map (·.1)).Nodup
      rw [hids]
      cases distinct_of_field? hv hfields with
      | object names _ => exact names
    · intro e he
      obtain ⟨u, -, hu⟩ := of_list_mapM_eq_ok hedges e he
      unfold edge at hu
      split at hu
      · cases hu
        exact ⟨_, rfl⟩
      · cases hu
  · cases h
  · cases h

theorem exists_given_of_read {t : Text} {g : Graph Float} (h : read t = .ok g) :
    ∃ d : Draft Float, d.Given ∧ d.numInputs = none ∧ d.assemble = .ok g := by
  unfold read at h
  split at h
  · cases h
  · cases h
  · next v hv =>
    obtain ⟨d, hd, h⟩ := bind_eq_ok.mp h
    obtain ⟨hgiven, hnone⟩ := given_of_draft (distinct_of_read hv) hd
    exact ⟨d, hgiven, hnone, h⟩

end Document

theorem tape_of_outputTape {hs : List Handle} {k : Nat} (h : outputTape hs = .ok k) :
    hs ≠ [] ∧ ∀ x ∈ hs, x.tape = k := by
  cases hs with
  | nil => cases h
  | cons y ys =>
    simp only [outputTape] at h
    split at h
    · next hall =>
      cases h
      refine ⟨List.cons_ne_nil y ys, List.forall_mem_cons.mpr ⟨rfl, fun x hx => ?_⟩⟩
      exact eq_of_beq (List.all_eq_true.mp hall x hx)
    · cases h

section
variable {α : Type} [DecidableEq α] [Hashable α] [Written α]

/-- A graph of handles is extracted from the tape that all of them belong to. -/
theorem exists_extracts_of_makeGraph {w v : Workspace α} (hw : w.Ready) {primary : Option Handle}
    {secondary : List Handle} (hon : ∀ h ∈ primary.toList ++ secondary, h.index < (w.tape h.tape).size)
    {g : Graph α} (hrun : (makeGraph primary secondary).run w = (.ok g, v)) :
    ∃ k, primary.toList ++ secondary ≠ [] ∧
      (∀ h ∈ primary.toList ++ secondary, h.tape = k ∧ h.index < (w.tape k).size) ∧
      (w.tape k).extract (primary.map (·.index)) (secondary.map (·.index)) = .ok g ∧
      (w.tape k).Extracts (primary.map (·.index)) (secondary.map (·.index)) g := by
  cases htape : outputTape (primary.toList ++ secondary) with
  | error e =>
    unfold makeGraph at hrun
    rw [htape] at hrun
    cases congrArg Prod.fst hrun
  | ok k =>
    obtain ⟨hne, hk⟩ := tape_of_outputTape htape
    have hindex : ∀ h ∈ primary.toList ++ secondary, h.tape = k ∧ h.index < (w.tape k).size :=
      fun h hh => ⟨hk h hh, hk h hh ▸ hon h hh⟩
    obtain ⟨m, hm, hextracts⟩ := (hw.valid k).exists_extract (roots_lt hindex)
    obtain ⟨log, hrun'⟩ := run_makeGraph hne hk hm
    rw [hrun] at hrun'
    obtain rfl : g = m := Except.ok.inj (congrArg Prod.fst hrun')
    exact ⟨k, hne, hindex, hm, hextracts⟩

theorem exists_given_of_makeGraph {w v : Workspace α} (hw : w.Ready) {primary : Option Handle}
    {secondary : List Handle} (hon : ∀ h ∈ primary.toList ++ secondary, h.index < (w.tape h.tape).size)
    {g : Graph α} (hrun : (makeGraph primary secondary).run w = (.ok g, v)) :
    ∃ d : Draft α, d.Given ∧ d.assemble = .ok g := by
  obtain ⟨k, -, hk, hg, -⟩ := exists_extracts_of_makeGraph hw hon hrun
  refine ⟨_, ?_, hg⟩
  rw [(hw.valid k).draft_eq (roots_lt hk)]
  exact Draft.given_ofNodes (hw.valid k).listed_named.ids_nodup _ _ _

end

namespace Graph

/-- The graphs that a program can hold: extracted from handles, built from a draft, or read. -/
inductive Returned : Graph Float → Prop
  | extracted {R : Rules Float} {w v : Workspace Float} (hw : w.Reached R) {primary : Option Handle}
      {secondary : List Handle} (hon : ∀ h ∈ primary.toList ++ secondary, h.index < (w.tape h.tape).size)
      {g : Graph Float} (h : (makeGraph primary secondary).run w = (.ok g, v)) : Returned g
  | built {d : Draft Float} (hd : d.Given) {g : Graph Float} (h : d.assemble = .ok g) : Returned g
  | read {t : Text} {g : Graph Float} (h : Document.read t = .ok g) : Returned g

variable {g : Graph Float}

theorem Returned.exists_given (hg : g.Returned) : ∃ d : Draft Float, d.Given ∧ d.assemble = .ok g := by
  cases hg with
  | extracted hw hon h => exact exists_given_of_makeGraph hw.ready hon h
  | built hd h => exact ⟨_, hd, h⟩
  | read h =>
    obtain ⟨d, hd, -, h⟩ := Document.exists_given_of_read h
    exact ⟨d, hd, h⟩

theorem ids_draft (g : Graph Float) : g.draft.ids = g.ids := by
  unfold draft Draft.ids ids
  rw [List.map_map]
  rfl

theorem Returned.assemble_draft (hg : g.Returned) :
    g.draft.assemble = .ok { g with numInputs := g.leastLength } := by
  obtain ⟨d, hd, h⟩ := hg.exists_given
  exact Graph.assemble_draft hd h

theorem Returned.closed (hg : g.Returned) : g.Closed := by
  obtain ⟨d, hd, h⟩ := hg.exists_given
  obtain ⟨ps, order, named, rows, nodes, hassembles, -⟩ := Draft.assemble_eq_ok.mp hg.assemble_draft
  have hends := Draft.checkEnds_eq_ok.mp hassembles.ends_ok
  obtain ⟨hprimary, hsecondary⟩ := Draft.checkOutputs_eq_ok.mp hassembles.outputs_ok
  rw [ids_draft] at hends hprimary hsecondary
  constructor
  case ids_nodup =>
    rw [← ids_draft, ← hd.eq_draft h]
    exact hd.ids_nodup
  case ends_mem => exact List.forall_mem_map.mp hends
  case primary_mem => exact hprimary
  case secondary_mem => exact hsecondary

theorem numInputs_of_read {t : Text} (h : Document.read t = .ok g) : g.numInputs = g.leastLength := by
  obtain ⟨d, hd, hnone, hassemble⟩ := Document.exists_given_of_read h
  exact hd.numInputs_eq hnone hassemble

/-- Every graph that is returned is read from its document again, with the same nodes, edges, order
and outputs. Its input vector has the least length that the inputs need, which is the length of every
graph that was read itself. The document of what is read is the same text. -/
theorem Returned.read_document_eq (hg : g.Returned) (hp : g.Portable) :
    Document.read g.document = .ok { g with numInputs := g.leastLength } ∧
      ({ g with numInputs := g.leastLength } : Graph Float).document = g.document ∧
      ∀ t, Document.read t = .ok g → Document.read g.document = .ok g := by
  have hread : Document.read g.document = .ok { g with numInputs := g.leastLength } := by
    unfold Document.read
    rw [read_document hp hg.closed]
    show (Document.draft (Document.value g) >>= Draft.assemble) = _
    rw [Document.draft_value]
    exact hg.assemble_draft
  refine ⟨hread, rfl, fun t ht => ?_⟩
  rw [hread, ← numInputs_of_read ht]

def noted : List (Text × Node Float Text) :=
  [(Text.ofString "x", .input 2 (-0.0)),
    (Text.ofString "y", .debug (Text.ofString "note") (Text.ofString "x"))]

theorem listed_noted : Draft.Listed noted fun id => if id = Text.ofString "x" then 0 else 1 := by
  constructor
  case ids_nodup => decide
  case positions_nodup => decide
  case operand_mem => simp [noted, Node.operands]
  case operand_rank =>
    have hne : Text.ofString "y" ≠ Text.ofString "x" := by decide
    simp [noted, Node.operands, hne]

theorem portable_noted (hg : g.nodes = noted) : g.Portable := by
  have hposition : (2 : Int).natAbs < 10 ^ Decimal.digitLimit :=
    Nat.lt_of_lt_of_le (show 2 < 10 ^ 1 by decide) (Nat.pow_le_pow_right (by decide) (by decide))
  constructor
  case id =>
    rw [hg]
    simp only [noted, List.forall_mem_cons, roundTrips_text_iff]
    exact ⟨Text.whole_of_ascii (by decide), Text.whole_of_ascii (by decide), by simp⟩
  case op =>
    rw [hg]
    simp only [noted, List.forall_mem_cons]
    exact ⟨roundTrips_int_iff.mpr hposition, roundTrips_text_iff.mpr (Text.whole_of_ascii (by decide)),
      by simp⟩

/-- With the note as two secondary outputs. What is read from the document is then reproduced. -/
theorem read_document_eq_noted : ∃ g : Graph Float, g.nodes = noted ∧
    g.secondary = [Text.ofString "y", Text.ofString "y"] ∧ g.Portable ∧
      Document.read g.document = .ok { g with numInputs := 3 } ∧
        Document.read ({ g with numInputs := 3 } : Graph Float).document =
          .ok { g with numInputs := 3 } := by
  have hprimary : ∀ id ∈ (none : Option Text), id ∈ noted.map (·.1) := by simp
  have hsecondary : ∀ id ∈ [Text.ofString "y", Text.ofString "y"], id ∈ noted.map (·.1) := by simp [noted]
  obtain ⟨g, hg, hnodes, -, -, houtputs, -⟩ := Draft.assemble_ofNodes none listed_noted hprimary hsecondary
  have hreturned : g.Returned := .built (Draft.given_ofNodes listed_noted.ids_nodup _ _ _) hg
  have hlength : g.leastLength = 3 := by
    unfold leastLength positions
    rw [hnodes]
    rfl
  obtain ⟨hread, -, -⟩ := hreturned.read_document_eq (portable_noted hnodes)
  rw [hlength] at hread
  obtain ⟨-, -, hreproduced⟩ := (Returned.read hread).read_document_eq (portable_noted hnodes)
  exact ⟨g, hnodes, houtputs, portable_noted hnodes, hread, hreproduced _ hread⟩

end Graph

end ScalarGraph
