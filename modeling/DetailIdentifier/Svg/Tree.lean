/-
Reading whole trees. `parse_all` hands the elements below `svg` and `g` elements to the parsers, one
after the other, and what a parser does to the document is a list of calls that the document has no
part in. So groups and ignored elements say nothing (`parseAll_drawn`), every document read is in order
(`parse_consistent`), and a dump loses of it only the points where no segment ends (`parse_dump_parse`).
-/
import DetailIdentifier.Lib.Lists
import DetailIdentifier.Svg.Reader

namespace DetailIdentifier.Svg

/-! ## What is drawn -/

mutual

/-- The elements that a node gives to the parsers. -/
def drawnNode : XmlNode → List XmlNode
  | .mk name attributes children =>
    if name = "svg" ∨ name = "g" then drawnNodes children
    else if name ∈ ignoredTags then []
    else [.mk name attributes children]

/-- The elements that nodes give to the parsers, in document order. -/
def drawnNodes : List XmlNode → List XmlNode
  | [] => []
  | node :: nodes => drawnNode node ++ drawnNodes nodes

end

/-- The segment of a `line` element. -/
def readSegment (line : XmlNode) : Except ParseError Segment := do
  let xStart ← lexicalCast (line.value "x1")
  let yStart ← lexicalCast (line.value "y1")
  let xEnd ← lexicalCast (line.value "x2")
  let yEnd ← lexicalCast (line.value "y2")
  return ⟨⟨toInt xStart, toInt yStart⟩, ⟨toInt xEnd, toInt yEnd⟩⟩

/-- The calls that an element's parser makes. -/
def parserCalls : String → XmlNode → Except ParseError (List Call)
  | "line" => fun node => do return readCalls (← readSegment node)
  | "path" => fun node => do return (← exactNumbers.parseSubpaths (node.value "d")).calls
  | _ => fun _ => .error .badFunctionCall

/-- The calls that the parsers make on elements. -/
def drawingCalls (nodes : List XmlNode) : Except ParseError (List Call) := do
  return (← nodes.mapM fun node => parserCalls node.name node).flatten

/-! ## Calls -/

theorem parseSegment_eq (line : XmlNode) (doc : Document) :
    parseSegment line doc = (do return run doc (readCalls (← readSegment line))) := by
  unfold parseSegment readSegment
  simp only [bind_assoc, pure_bind]
  rfl

theorem parsers_eq (name : String) (node : XmlNode) (doc : Document) :
    parsers name node doc = (do return run doc (← parserCalls name node)) := by
  unfold parsers
  split
  · rw [parseSegment_eq]
    simp only [parserCalls, bind_assoc, pure_bind]
  · simp only [parserCalls, parsePath, Numbers.parsePath, bind_assoc, pure_bind]
  · rename_i hline hpath
    unfold parserCalls
    split
    exacts [absurd rfl hline, absurd rfl hpath, rfl]

theorem drawingCalls_append (nodes nodes' : List XmlNode) :
    drawingCalls (nodes ++ nodes') = (do return (← drawingCalls nodes) ++ (← drawingCalls nodes')) := by
  unfold drawingCalls
  simp only [List.mapM_append, bind_assoc, pure_bind, List.flatten_append]

mutual

/-- What a node does to a document. -/
theorem parseNode_calls (doc : Document) : ∀ node,
    parseNode doc node = (do return run doc (← drawingCalls (drawnNode node)))
  | .mk name attributes children => by
    rw [parseNode, drawnNode]
    split
    · exact parseAll_calls doc children
    · split
      · rfl
      · simp only [parsers_eq, drawingCalls, List.mapM_cons, List.mapM_nil, bind_assoc, pure_bind, List.flatten_cons,
          List.flatten_nil, List.append_nil, XmlNode.name]

theorem parseAll_calls (doc : Document) : ∀ nodes,
    parseAll doc nodes = (do return run doc (← drawingCalls (drawnNodes nodes)))
  | [] => rfl
  | node :: nodes => by
    rw [parseAll, drawnNodes, drawingCalls_append, parseNode_calls doc node]
    simp only [bind_assoc, pure_bind, parseAll_calls _ nodes, run_append]

end

/-! ## Flat trees -/

mutual

/-- An element for the parsers is neither a group nor ignored. -/
theorem drawnNode_parsed : ∀ {node x : XmlNode}, x ∈ drawnNode node → drawnNode x = [x]
  | .mk name attributes children, x, hx => by
    rw [drawnNode] at hx
    split at hx
    · exact drawnNodes_parsed hx
    · rename_i hgroup
      split at hx
      · cases hx
      · rename_i hignored
        obtain rfl := List.mem_singleton.1 hx
        rw [drawnNode, if_neg hgroup, if_neg hignored]

theorem drawnNodes_parsed : ∀ {nodes : List XmlNode} {x : XmlNode}, x ∈ drawnNodes nodes → drawnNode x = [x]
  | [], _, hx => by
    rw [drawnNodes] at hx
    cases hx
  | node :: nodes, x, hx => by
    rw [drawnNodes] at hx
    rcases List.mem_append.1 hx with hx | hx
    exacts [drawnNode_parsed hx, drawnNodes_parsed hx]

end

theorem drawnNodes_of_parsed : ∀ {nodes : List XmlNode}, (∀ x ∈ nodes, drawnNode x = [x]) → drawnNodes nodes = nodes
  | [], _ => by rw [drawnNodes]
  | node :: nodes, h => by
    obtain ⟨hnode, hnodes⟩ := List.forall_mem_cons.1 h
    rw [drawnNodes, hnode, drawnNodes_of_parsed hnodes]
    rfl

theorem drawnNodes_idem (nodes : List XmlNode) : drawnNodes (drawnNodes nodes) = drawnNodes nodes :=
  drawnNodes_of_parsed fun _ hx => drawnNodes_parsed hx

/-- The segments that an element's parser draws. -/
def parserSegments (node : XmlNode) : Except ParseError (List Segment) := do
  return (← parserCalls node.name node).flatMap Call.segments

theorem parserSegments_eq {node : XmlNode} {calls : List Call} (h : parserCalls node.name node = .ok calls) :
    parserSegments node = .ok (calls.flatMap Call.segments) := by
  rw [parserSegments, h]
  rfl

/-- Reading a tree is reading the elements for the parsers side by side. A document read from it holds their
segments in document order, and at each of its points the segments that start or end there. -/
theorem parseAll_drawn (width height : Int) (nodes : List XmlNode) :
    parseAll (.new width height) nodes = parseAll (.new width height) (drawnNodes nodes) ∧
    ∀ doc, parseAll (.new width height) nodes = .ok doc → ∃ segments ls,
      List.Forall₂ (fun node es => parserSegments node = .ok es) (drawnNodes nodes) segments ∧
      Consistent doc ls segments.flatten := by
  constructor
  · rw [parseAll_calls, parseAll_calls, drawnNodes_idem]
  · intro doc h
    rw [parseAll_calls, drawingCalls] at h
    cases hcalls : (drawnNodes nodes).mapM fun node => parserCalls node.name node with
    | error e =>
      rw [hcalls] at h
      cases h
    | ok calls =>
      rw [hcalls] at h
      obtain rfl := Except.ok.inj h
      have hconsistent := (Consistent.new width height).run calls.flatten
      rw [List.nil_append, List.nil_append, List.flatMap_def (f := Call.segments), List.map_flatten, List.flatten_flatten,
        List.map_map] at hconsistent
      refine ⟨calls.map fun c => c.flatMap Call.segments, _, ?_, hconsistent⟩
      exact List.forall₂_map_right_iff.2 ((List.forall₂_of_mapM hcalls).imp fun _ _ => parserSegments_eq)

/-! ## Dumping what was read -/

/-- A dump is read as the points and segments of a document's segments. -/
theorem parse_tree {xml : Pugixml} {d : Document} (hload : xml.load (d.dump xml) = some d.tree) (htext : d.dump xml ≠ [])
    (hdouble : ∀ i ∈ [d.width, d.height], xml.asDouble (intText i) = i) :
    parse xml (d.dump xml) = .ok (some (run (.new d.width d.height) (d.edges.flatMap readCalls))) := by
  have hw : (d.tree.child "svg").value "width" = intText d.width := rfl
  have hh : (d.tree.child "svg").value "height" = intText d.height := rfl
  have hroot : d.tree.documentElement.children = d.edges.map Segment.dump := rfl
  rw [parse, if_neg htext, hload]
  simp only [hw, hh, hroot, hdouble d.width (by simp), hdouble d.height (by simp), toInt_intCast, parseAll_dump, bind,
    Except.bind]
  rfl

theorem run_consistent (width height : Int) (calls : List Call) :
    ∃ ls, Consistent (run (.new width height) calls) ls (run (.new width height) calls).edges := by
  have h := (Consistent.new width height).run calls
  exact ⟨_, h.drawn.symm ▸ h⟩

/-- A document that was read is in order. -/
theorem parse_consistent {xml : Pugixml} {str : List Char} {doc : Document} (h : parse xml str = .ok (some doc)) :
    ∃ ls, Consistent doc ls doc.edges := by
  rw [parse] at h
  split at h
  · cases h
  · split at h
    · cases h
    · rename_i tree _
      simp only [parseAll_calls] at h
      cases hcalls : drawingCalls (drawnNodes tree.documentElement.children) with
      | error e =>
        rw [hcalls] at h
        cases h
      | ok calls =>
        rw [hcalls] at h
        obtain rfl := Option.some.inj (Except.ok.inj h)
        exact run_consistent _ _ calls

/-- What is dumped of a document that was read, whatever its text, is read as a document of its size with its
segments and the points where they end. Other points are lost, and the dump of that is the same text. -/
theorem parse_dump_parse {xml : Pugixml} {str : List Char} {doc : Document} (h : parse xml str = .ok (some doc))
    (hload : xml.load (doc.dump xml) = some doc.tree) (htext : doc.dump xml ≠ [])
    (hdouble : ∀ i ∈ [doc.width, doc.height], xml.asDouble (intText i) = i) :
    ∃ doc', parse xml (doc.dump xml) = .ok (some doc') ∧ doc'.width = doc.width ∧ doc'.height = doc.height ∧
      doc'.edges = doc.edges ∧
      (∀ l : Location, doc'.points[l]? = if ∃ e ∈ doc.edges, l = e.start ∨ l = e.stop then doc.points[l]? else none) ∧
      doc'.dump xml = doc.dump xml := by
  obtain ⟨ls, hdoc⟩ := parse_consistent h
  have hagain := (Consistent.new doc.width doc.height).run (doc.edges.flatMap readCalls)
  rw [List.nil_append, List.nil_append, readCalls_segments] at hagain
  obtain ⟨hwidth, hheight⟩ := run_size (doc.edges.flatMap readCalls) (.new doc.width doc.height)
  refine ⟨_, parse_tree hload htext hdouble, hwidth, hheight, hagain.drawn, fun l => ?_, ?_⟩
  · rw [hagain.points]
    simp only [mem_readCalls_locations]
    by_cases hl : ∃ e ∈ doc.edges, l = e.start ∨ l = e.stop
    · rw [if_pos hl, if_pos hl, hdoc.points, if_pos]
      obtain ⟨e, he, rfl | rfl⟩ := hl
      exacts [(hdoc.ends e he).1, (hdoc.ends e he).2]
    · rw [if_neg hl, if_neg hl]
  · rw [Document.dump, Document.dump, Document.tree, Document.tree, hwidth, hheight, hagain.drawn]
    rfl

/-- A stroke in a group, beside a point of its own and something to ignore. -/
def groupedTree : XmlNode :=
  .mk "" [] [.mk "svg" [("width", intText 10), ("height", intText 20)] [.mk "metadata" [] [],
    .mk "g" [] [.mk "path" [("d", "M1 2".toList)] [], Segment.dump ⟨⟨0, 0⟩, ⟨3, -4⟩⟩]]]

/-- Its text. -/
def groupedText : List Char :=
  '<' :: "svg width=\"10\" height=\"20\"><metadata/><g><path d=\"M1 2\"/><line x1=\"0\" y1=\"0\" x2=\"3\" y2=\"-4\"/></g></svg>".toList

/-- An XML library that knows this text and the one of the stroke alone. -/
def groupedXml : Pugixml := { Pugixml.only strokeText stroke.tree with
  load := fun s => if s = groupedText then some groupedTree else (Pugixml.only strokeText stroke.tree).load s }

theorem groupedXml_load (s : List Char) : groupedXml.load s =
    if s = groupedText then some groupedTree else (Pugixml.only strokeText stroke.tree).load s := rfl

theorem groupedXml_asDouble (i : Int) : groupedXml.asDouble (intText i) = i := Pugixml.only_asDouble strokeText stroke.tree i

/-- What is read of the text. -/
def grouped : Document := run (.new 10 20) (.addPoint ⟨1, 2⟩ :: readCalls ⟨⟨0, 0⟩, ⟨3, -4⟩⟩)

theorem parse_grouped : parse groupedXml groupedText = .ok (some grouped) := by
  have hcalls : drawingCalls (drawnNodes groupedTree.documentElement.children) =
      .ok (.addPoint ⟨1, 2⟩ :: readCalls ⟨⟨0, 0⟩, ⟨3, -4⟩⟩) := by decide +kernel
  have hw : (groupedTree.child "svg").value "width" = intText 10 := rfl
  have hh : (groupedTree.child "svg").value "height" = intText 20 := rfl
  have hne : groupedText ≠ [] := List.cons_ne_nil _ _
  rw [parse, if_neg hne, groupedXml_load, if_pos rfl]
  simp only [hw, hh, groupedXml_asDouble, toInt_intCast, parseAll_calls, hcalls]
  rfl

theorem parse_dump_parse_grouped : ∃ doc', parse groupedXml (grouped.dump groupedXml) = .ok (some doc') ∧
    doc'.width = grouped.width ∧ doc'.height = grouped.height ∧ doc'.edges = grouped.edges ∧
    (∀ l : Location, doc'.points[l]? = if ∃ e ∈ grouped.edges, l = e.start ∨ l = e.stop then grouped.points[l]? else none) ∧
    doc'.dump groupedXml = grouped.dump groupedXml := by
  have hne : strokeText ≠ groupedText := by decide +kernel
  have hdump : grouped.dump groupedXml = strokeText := rfl
  have htree : grouped.tree = stroke.tree := rfl
  refine parse_dump_parse parse_grouped ?_ (List.cons_ne_nil _ _) fun i _ => groupedXml_asDouble i
  rw [hdump, htree, groupedXml_load, if_neg hne, Pugixml.only_load]

end DetailIdentifier.Svg
