import ScalarGraph.Graph.Document
import ScalarGraph.Proofs.Graph.Redraft
import ScalarGraph.Proofs.Json.Reading

/-! # Documents read back

The document of a graph is the text of a JSON value, and from this value the draft of the graph is
read.
-/
namespace ScalarGraph
open Json

theorem Text.whole_of_ascii {t : Text} (h : ∀ c ∈ t, c.value < 0x80) : t.Whole := by
  induction t with
  | nil => trivial
  | cons c t ih =>
    have hc := h c List.mem_cons_self
    refine ⟨fun hhigh => ?_, ih fun d hd => h d (List.mem_cons_of_mem _ hd)⟩
    unfold CodePoint.IsHigh at hhigh
    omega

theorem ascii_ofNat (n : Nat) : ∀ c ∈ Text.ofNat n, c.value < 0x80 := by
  intro c hc
  have hdigit := (Decimal.digits_ofNat n).1 c hc
  unfold CodePoint.digit? at hdigit
  split at hdigit
  · omega
  · cases hdigit

theorem whole_ofNat (n : Nat) : (Text.ofNat n).Whole := Text.whole_of_ascii (ascii_ofNat n)

theorem whole_append_ofNat {t : Text} (ht : ∀ c ∈ t, c.value < 0x80) (n : Nat) :
    (t ++ Text.ofNat n).Whole :=
  Text.whole_of_ascii fun c hc => (List.mem_append.mp hc).elim (ht c) (ascii_ofNat n c)

theorem UnaryOp.whole_label (o : UnaryOp) : o.label.Whole := by
  apply Text.whole_of_ascii
  cases o <;> decide

theorem BinaryOp.whole_label (o : BinaryOp) : o.label.Whole := by
  apply Text.whole_of_ascii
  cases o <;> decide

theorem NaryOp.whole_label (o : NaryOp) : o.label.Whole := by
  apply Text.whole_of_ascii
  cases o <;> decide

theorem Role.whole_label {r : Role} {l : Text} (h : r.label? = some l) : l.Whole := by
  cases r with
  | only => cases h
  | nth k =>
    cases h
    exact whole_ofNat k
  | _ =>
    cases h
    exact Text.whole_of_ascii (by decide)

theorem Role.named?_label? (r : Role) : Role.named? r.label? = some r := by
  cases r with
  | nth k =>
    obtain ⟨c, t, htext, hdigit⟩ := ofNat_eq_digit_cons k
    have hne (s : Text) (hs : ∀ d ∈ s.head?, d.digit? = none) : Text.ofNat k ≠ s := by
      rintro rfl
      rw [hs c (by rw [htext]; rfl)] at hdigit
      cases hdigit
    have hwords : Text.ofNat k ≠ Text.ofString "left" ∧ Text.ofNat k ≠ Text.ofString "right" ∧
        Text.ofNat k ≠ Text.ofString "cond" ∧ Text.ofNat k ≠ Text.ofString "then" ∧
        Text.ofNat k ≠ Text.ofString "els" := by
      refine ⟨hne _ ?_, hne _ ?_, hne _ ?_, hne _ ?_, hne _ ?_⟩ <;>
        · intro d hd
          cases hd
          rfl
    unfold label? named?
    simp only [hwords.1, hwords.2.1, hwords.2.2.1, hwords.2.2.2.1, hwords.2.2.2.2, if_false,
      Text.natural?_ofNat, Option.map_some]
  | _ => rfl

namespace Json

theorem compactItems_eq (items : List Json) : compactItems items = items.map compact := by
  induction items with
  | nil => rfl
  | cons v items ih => rw [compactItems, ih, List.map_cons]

theorem compactFields_eq (fields : List (Text × Json)) :
    compactFields fields = fields.map fun f => fieldText [] (f.1, f.2, f.2.compact) := by
  induction fields with
  | nil => rfl
  | cons f fields ih =>
    rw [compactFields, ih, List.map_cons, fieldText, List.append_assoc]
    rfl

/-- A value whose text without blanks is read back. -/
def ReadsBack (v : Json) : Prop := Reads v.compact v

theorem readsBack_array {items : List Json} (h : ∀ v ∈ items, ReadsBack v) : ReadsBack (.array items) := by
  have hitems : ∀ p ∈ items.map fun v => (v, v.compact), Reads p.2 p.1 := List.forall_mem_map.mpr h
  have hreads := reads_array blank_nil blank_nil blank_nil hitems
  have hvalues : (items.map fun v => (v, v.compact)).map (·.1) = items := by
    rw [List.map_map]
    exact List.map_id items
  rw [hvalues, List.map_map] at hreads
  unfold ReadsBack
  rw [compact, compactItems_eq]
  exact hreads

theorem readsBack_object {fields : List (Text × Json)} (hnodup : (fields.map (·.1)).Nodup)
    (h : ∀ f ∈ fields, f.1.Whole ∧ ReadsBack f.2) : ReadsBack (.object fields) := by
  have hfields : ∀ f ∈ fields.map fun f => (f.1, f.2, f.2.compact), f.1.Whole ∧ Reads f.2.2 f.2.1 :=
    List.forall_mem_map.mpr h
  have hreads := reads_object blank_nil blank_nil blank_nil blank_nil hfields (by
    rw [List.map_map]
    exact hnodup)
  have hvalues : (fields.map fun f => (f.1, f.2, f.2.compact)).map (fun f => (f.1, f.2.1)) = fields := by
    rw [List.map_map]
    exact List.map_id fields
  rw [hvalues, List.map_map] at hreads
  unfold ReadsBack
  rw [compact, compactFields_eq]
  exact hreads

theorem readsBack_text {t : Text} (ht : t.Whole) : ReadsBack (.text t) := by
  have hreads := reads_quote t
  rw [Text.joined_eq_self_iff.mpr ht] at hreads
  exact hreads

theorem readsBack_ofId? {id : Option Text} (h : ∀ t ∈ id, t.Whole) : ReadsBack (ofId? id) := by
  cases id with
  | none => exact reads_null
  | some t => exact readsBack_text (h t rfl)

theorem readsBack_int {i : Int} (hi : i.natAbs < 10 ^ Decimal.digitLimit) : ReadsBack (.int i) :=
  reads_ofInt hi

theorem readsBack_ofNumber (x : Float) : ReadsBack (ofNumber x) := by
  unfold ofNumber
  split
  · next i hi =>
    split
    · exact reads_realText x
    · next hsmall =>
      apply readsBack_int
      have hlimit : wholeLimit < 10 ^ Decimal.digitLimit :=
        Nat.pow_lt_pow_right (show 1 < 10 by decide) (show 21 < Decimal.digitLimit by decide)
      omega
  · exact reads_realText x

theorem readsBack_record (names : List String) {fields : List (String × Json)}
    (hnames : fields.map (·.1) = names)
    (hdistinct : (names.map Text.ofString).Nodup)
    (hascii : ∀ n ∈ names, ∀ c ∈ Text.ofString n, c.value < 0x80)
    (h : ∀ v ∈ fields.map (·.2), ReadsBack v) : ReadsBack (record fields) := by
  apply readsBack_object
  · rw [← hnames, List.map_map] at hdistinct
    rw [List.map_map]
    exact hdistinct
  · rw [List.forall_mem_map]
    intro f hf
    refine ⟨Text.whole_of_ascii (hascii f.1 ?_), h f.2 (List.mem_map_of_mem hf)⟩
    rw [← hnames]
    exact List.mem_map_of_mem hf

end Json

def Op.Portable : Op Float → Prop
  | .input i _ => (Json.int i).RoundTrips
  | .debug l => (Json.text l).RoundTrips
  | _ => True

theorem Op.readsBack_document {o : Op Float} (h : o.Portable) : ReadsBack o.document := by
  have htag (t : String) (ht : ∀ c ∈ Text.ofString t, c.value < 0x80) :
      ReadsBack (.text (Text.ofString t)) :=
    readsBack_text (Text.whole_of_ascii ht)
  cases o with
  | const v => exact readsBack_ofNumber v
  | input i s =>
    apply readsBack_record ["tag", "index", "val"] rfl (by decide) (by decide)
    simp only [List.map_cons, List.forall_mem_cons]
    exact ⟨htag "Input" (by decide), readsBack_int (roundTrips_int_iff.mp h), readsBack_ofNumber s, by simp⟩
  | unary o =>
    apply readsBack_record ["tag", "unop"] rfl (by decide) (by decide)
    simp only [List.map_cons, List.forall_mem_cons]
    exact ⟨htag "Unary" (by decide), readsBack_text o.whole_label, by simp⟩
  | binary o =>
    apply readsBack_record ["tag", "binop"] rfl (by decide) (by decide)
    simp only [List.map_cons, List.forall_mem_cons]
    exact ⟨htag "Binary" (by decide), readsBack_text o.whole_label, by simp⟩
  | select =>
    apply readsBack_record ["tag"] rfl (by decide) (by decide)
    simp only [List.map_cons, List.forall_mem_cons]
    exact ⟨htag "Ternary" (by decide), by simp⟩
  | nary o =>
    apply readsBack_record ["tag", "op"] rfl (by decide) (by decide)
    simp only [List.map_cons, List.forall_mem_cons]
    exact ⟨htag "Nary" (by decide), readsBack_text o.whole_label, by simp⟩
  | debug l =>
    apply readsBack_record ["tag", "info"] rfl (by decide) (by decide)
    simp only [List.map_cons, List.forall_mem_cons]
    exact ⟨htag "Debug" (by decide), readsBack_text (roundTrips_text_iff.mp h), by simp⟩

theorem Edge.readsBack_document {e : Edge} (hsource : e.source.Whole) (htarget : e.target.Whole) :
    ReadsBack e.document := by
  unfold Edge.document
  cases hrole : e.role.label? with
  | none =>
    apply readsBack_record ["from", "to"] rfl (by decide) (by decide)
    simp only [List.map_append, List.map_cons, List.map_nil, List.forall_mem_append, List.forall_mem_cons]
    exact ⟨⟨readsBack_text hsource, readsBack_text htarget, by simp⟩, by simp⟩
  | some l =>
    apply readsBack_record ["from", "to", "role"] rfl (by decide) (by decide)
    simp only [List.map_append, List.map_cons, List.map_nil, List.forall_mem_append, List.forall_mem_cons]
    exact ⟨⟨readsBack_text hsource, readsBack_text htarget, by simp⟩,
      by simpa using readsBack_text (Role.whole_label hrole)⟩

theorem join_append (separator : Text) {xs ys : List Text} (hxs : xs ≠ []) (hys : ys ≠ []) :
    Text.join separator (xs ++ ys) = Text.join separator xs ++ (separator ++ Text.join separator ys) := by
  induction xs with
  | nil => exact absurd rfl hxs
  | cons x xs ih =>
    cases xs with
    | nil =>
      obtain ⟨y, ys, rfl⟩ := List.exists_cons_of_ne_nil hys
      rw [List.cons_append, List.nil_append, join_cons_cons, join_singleton]
    | cons x' xs =>
      have hmore := ih (List.cons_ne_nil x' xs)
      rw [List.cons_append] at hmore
      rw [List.cons_append, List.cons_append, join_cons_cons, join_cons_cons, hmore]
      simp only [List.append_assoc]

theorem join_map_append (separator mark x : Text) (xs : List Text) :
    Text.join separator ((x :: xs).map (mark ++ ·)) = mark ++ Text.join (separator ++ mark) (x :: xs) := by
  induction xs generalizing x with
  | nil => rw [List.map_cons, List.map_nil, join_singleton, join_singleton]
  | cons y xs ih =>
    rw [List.map_cons, List.map_cons, join_cons_cons, ← List.map_cons, ih, join_cons_cons]
    simp only [List.append_assoc]

namespace Graph

def itemLines (start stop : String) (items : List Text) : Text :=
  if items.isEmpty then Text.ofString start ++ Text.ofString stop
  else enclosed (Text.ofString start ++ Text.ofString "\n    ") (Text.ofString "\n  " ++ Text.ofString stop)
    (Text.ofString ",\n    ") items

theorem join_block (name start stop after : String) (v : Json) (items : List Text) :
    Text.join (Text.ofString "\n") (block name start stop items after) =
      Text.ofString "  " ++
        (fieldText (Text.ofString " ") (Text.ofString name, v, itemLines start stop items) ++
          Text.ofString after) := by
  unfold block itemLines fieldText Text.concat
  cases items with
  | nil =>
    simp only [List.isEmpty_nil, if_true, join_singleton, List.flatten_cons, List.flatten_nil,
      List.append_assoc, List.append_nil, List.cons_append]
    rfl
  | cons x xs =>
    have hmark : (fun t => Text.ofString "    " ++ t) = (Text.ofString "    " ++ ·) := rfl
    simp only [List.isEmpty_cons, Bool.false_eq_true, if_false, join_cons_cons, join_singleton,
      List.flatten_cons, List.flatten_nil, List.append_assoc, List.append_nil, List.cons_append]
    rw [join_map_append]
    unfold enclosed
    simp only [List.append_assoc]
    rfl

theorem block_ne_nil (name start stop after : String) (items : List Text) :
    block name start stop items after ≠ [] := by
  unfold block
  simp only []
  split
  · exact List.cons_ne_nil _ _
  · exact List.cons_ne_nil _ _

def sections (g : Graph Float) : List (Text × Json × Text) :=
  [(Text.ofString "primary", ofId? g.primary, (ofId? g.primary).compact)] ++
    (if g.secondary.isEmpty then []
      else [(Text.ofString "secondary", .array (g.secondary.map .text),
        (Json.array (g.secondary.map .text)).compact)]) ++
    [(Text.ofString "nodes", .object (g.nodes.map fun p => (p.1, p.2.op.document)),
        itemLines "\x7b" "\x7d" (g.nodes.map fun p =>
          fieldText (Text.ofString " ") (p.1, p.2.op.document, p.2.op.document.compact))),
      (Text.ofString "edges", .array (g.edges.map Edge.document),
        itemLines "[" "]" (g.edges.map fun e => e.document.compact))]

theorem document_eq (g : Graph Float) : g.document =
    enclosed (Text.ofString "\x7b" ++ Text.ofString "\n  ") (Text.ofString "\n" ++ Text.ofString "\x7d")
      (.ofChar ',' :: Text.ofString "\n  ") (g.sections.map (fieldText (Text.ofString " "))) ++
        Text.ofString "\n" := by
  have hnodes : (fun p : Text × Node Float Text =>
      Text.concat [Json.quote p.1, Text.ofString ": ", p.2.op.document.compact]) = fun p =>
        fieldText (Text.ofString " ") (p.1, p.2.op.document, p.2.op.document.compact) := by
    funext p
    unfold fieldText Text.concat
    simp only [List.flatten_cons, List.flatten_nil, List.append_nil]
    rfl
  have hheader (name : String) (v : Json) :
      Text.concat [Text.ofString "  ", Json.quote (Text.ofString name), Text.ofString ": ", v.compact,
        Text.ofString ","] =
          Text.ofString "  " ++ (fieldText (Text.ofString " ") (Text.ofString name, v, v.compact) ++
            Text.ofString ",") := by
    unfold fieldText Text.concat
    simp only [List.flatten_cons, List.flatten_nil, List.append_nil, List.append_assoc]
    rfl
  unfold document sections
  simp only [hnodes, hheader]
  cases g.secondary.isEmpty
  · rw [join_append _ (by simp) (by simp), join_append _ (by simp) (block_ne_nil _ _ _ _ _),
      join_append _ (by simp) (block_ne_nil _ _ _ _ _), join_block, join_block]
    unfold enclosed
    simp only [Bool.false_eq_true, if_false, List.cons_append, List.nil_append, List.map_cons,
      List.map_nil, join_cons_cons, join_singleton, List.append_assoc]
    rfl
  · rw [join_append _ (by simp) (by simp), join_append _ (by simp) (block_ne_nil _ _ _ _ _),
      join_append _ (by simp) (block_ne_nil _ _ _ _ _), join_block, join_block]
    unfold enclosed
    simp only [if_true, List.cons_append, List.nil_append, List.map_cons, List.map_nil, List.append_nil,
      join_cons_cons, join_singleton, List.append_assoc]
    rfl

theorem reads_itemLines_array {items : List (Json × Text)} (h : ∀ p ∈ items, Reads p.2 p.1) :
    Reads (itemLines "[" "]" (items.map (·.2))) (.array (items.map (·.1))) := by
  cases items with
  | nil => exact reads_array blank_nil blank_nil blank_nil h
  | cons p items =>
    have hdeep : Blank (Text.ofString "\n    ") := by decide
    have hshallow : Blank (Text.ofString "\n  ") := by decide
    exact reads_array hdeep hdeep hshallow h

theorem reads_itemLines_object {fields : List (Text × Json × Text)}
    (h : ∀ f ∈ fields, f.1.Whole ∧ Reads f.2.2 f.2.1) (hnodup : (fields.map (·.1)).Nodup) :
    Reads (itemLines "\x7b" "\x7d" (fields.map (fieldText (Text.ofString " "))))
      (.object (fields.map fun f => (f.1, f.2.1))) := by
  have hspace : Blank (Text.ofString " ") := by decide
  cases fields with
  | nil => exact reads_object hspace blank_nil blank_nil blank_nil h hnodup
  | cons f fields =>
    have hdeep : Blank (Text.ofString "\n    ") := by decide
    have hshallow : Blank (Text.ofString "\n  ") := by decide
    exact reads_object hspace hdeep hdeep hshallow h hnodup

/-- All strings and positions of the graph are read back from their texts: no two halves of a surrogate
pair stand next to each other, and no position has more digits than are read. -/
structure Portable (g : Graph Float) : Prop where
  id : ∀ p ∈ g.nodes, (Json.text p.1).RoundTrips
  op : ∀ p ∈ g.nodes, p.2.op.Portable

/-- All identifiers that a graph mentions are those of its nodes. -/
structure Closed (g : Graph Float) : Prop where
  ids_nodup : g.ids.Nodup
  ends_mem : ∀ e ∈ g.edges, e.source ∈ g.ids ∧ e.target ∈ g.ids
  primary_mem : ∀ id ∈ g.primary, id ∈ g.ids
  secondary_mem : ∀ id ∈ g.secondary, id ∈ g.ids

variable {g : Graph Float}

theorem Portable.whole_of_mem (hp : g.Portable) {id : Text} (h : id ∈ g.ids) : id.Whole := by
  obtain ⟨p, hmem, rfl⟩ := List.mem_map.mp h
  exact roundTrips_text_iff.mp (hp.id p hmem)

theorem reads_sections (hp : g.Portable) (hc : g.Closed) :
    ∀ f ∈ g.sections, f.1.Whole ∧ Reads f.2.2 f.2.1 := by
  have hprimary : Reads (ofId? g.primary).compact (ofId? g.primary) :=
    readsBack_ofId? fun t ht => hp.whole_of_mem (hc.primary_mem t ht)
  have hsecondary : Reads (Json.array (g.secondary.map .text)).compact (.array (g.secondary.map .text)) :=
    readsBack_array <| List.forall_mem_map.mpr fun t ht =>
      readsBack_text (hp.whole_of_mem (hc.secondary_mem t ht))
  have hnode : ∀ f ∈ g.nodes.map fun p => (p.1, p.2.op.document, p.2.op.document.compact),
      f.1.Whole ∧ Reads f.2.2 f.2.1 := by
    rw [List.forall_mem_map]
    intro p hmem
    exact ⟨roundTrips_text_iff.mp (hp.id p hmem), Op.readsBack_document (hp.op p hmem)⟩
  have hedge : ∀ q ∈ g.edges.map fun e => (e.document, e.document.compact), Reads q.2 q.1 := by
    rw [List.forall_mem_map]
    intro e he
    obtain ⟨hsource, htarget⟩ := hc.ends_mem e he
    exact Edge.readsBack_document (hp.whole_of_mem hsource) (hp.whole_of_mem htarget)
  have hnodes := reads_itemLines_object hnode (by
    rw [List.map_map]
    exact hc.ids_nodup)
  have hedges := reads_itemLines_array hedge
  rw [List.map_map, List.map_map] at hnodes hedges
  have hname (s : String) (hs : ∀ c ∈ Text.ofString s, c.value < 0x80) : (Text.ofString s).Whole :=
    Text.whole_of_ascii hs
  unfold sections
  simp only [List.forall_mem_append, List.forall_mem_cons]
  refine ⟨⟨⟨⟨hname _ (by decide), hprimary⟩, by simp⟩, ?_⟩, ⟨hname _ (by decide), hnodes⟩,
    ⟨hname _ (by decide), hedges⟩, by simp⟩
  split
  · simp
  · simp only [List.forall_mem_singleton]
    exact ⟨hname _ (by decide), hsecondary⟩

/-- The document of a graph is the text of a JSON value. -/
theorem read_document (hp : g.Portable) (hc : g.Closed) :
    Json.read g.document = .ok (.object (g.sections.map fun f => (f.1, f.2.1))) := by
  have hnames : (g.sections.map (·.1)).Nodup := by
    unfold sections
    cases g.secondary.isEmpty
    · show [Text.ofString "primary", Text.ofString "secondary", Text.ofString "nodes",
        Text.ofString "edges"].Nodup
      decide
    · show [Text.ofString "primary", Text.ofString "nodes", Text.ofString "edges"].Nodup
      decide
  have hline : Blank (Text.ofString "\n") := by decide
  have hspace : Blank (Text.ofString " ") := by decide
  have hindent : Blank (Text.ofString "\n  ") := by decide
  rw [document_eq]
  exact read_eq_ok (reads_object hspace hindent hindent hline (reads_sections hp hc) hnames) hline

end Graph

end ScalarGraph
