/-
Dumping and reading documents. `dump` writes one `line` element for each segment, `parse` reads
`line` and `path` elements at any depth of `svg` and `g` elements. Reading what was dumped gives
back the size, the points, the segments in order and the segments at every point (`parse_dump`).

The XML library only stores trees: `Pugixml` is what the code uses of it.
-/
import DetailIdentifier.Svg.Path

namespace DetailIdentifier.Svg

/-! ## XML -/

/-- An XML node with its attributes and children. An element has a nonempty name; a document is a
nameless node above its elements. -/
inductive XmlNode where
  | mk (name : String) (attributes : List (String × List Char)) (children : List XmlNode)

namespace XmlNode

def name : XmlNode → String
  | mk n _ _ => n

def children : XmlNode → List XmlNode
  | mk _ _ cs => cs

/-- `attribute(a).value()`: the value of the first attribute named `a`, or the empty text. -/
def value (a : String) : XmlNode → List Char
  | mk _ as _ => ((as.find? (·.1 == a)).map (·.2)).getD []

/-- `child(n)`: the first child named `n`, or a null node. -/
def child (n : String) (x : XmlNode) : XmlNode := (x.children.find? (·.name == n)).getD (mk "" [] [])

/-- `document_element()`: the first child that is an element, or a null node. -/
def documentElement (x : XmlNode) : XmlNode := (x.children.find? (·.name != "")).getD (mk "" [] [])

end XmlNode

/-- The XML library: the text of a tree, the tree of a text unless it is malformed, and the number
an attribute's value starts with. -/
structure Pugixml where
  save : XmlNode → List Char
  load : List Char → Option XmlNode
  asDouble : List Char → ℚ

/-! ## Writing -/

/-- The text of an `int` attribute. -/
def intText (i : Int) : List Char := (Decimal.Numeral.ofInt i).text

/-- `segment::dump`. -/
def Segment.dump (e : Segment) : XmlNode :=
  .mk "line" [("x1", intText e.start.x), ("y1", intText e.start.y), ("x2", intText e.stop.x),
    ("y2", intText e.stop.y), ("style", "stroke:rgb(255,0,0);stroke-width:5".toList)] []

/-- The tree `document::dump` builds. -/
def Document.tree (d : Document) : XmlNode :=
  .mk "" [] [.mk "svg" [("width", intText d.width), ("height", intText d.height)] (d.edges.map Segment.dump)]

/-- `document::dump`. -/
def Document.dump (xml : Pugixml) (d : Document) : List Char := xml.save d.tree

/-! ## Reading -/

/-- `parse_segment`; the edge it builds itself is dropped. -/
def parseSegment (line : XmlNode) (doc : Document) : Except ParseError Document := do
  let xStart ← lexicalCast (line.value "x1")
  let yStart ← lexicalCast (line.value "y1")
  let xEnd ← lexicalCast (line.value "x2")
  let yEnd ← lexicalCast (line.value "y2")
  let pStart : Point := .new ⟨toInt xStart, toInt yStart⟩
  let pEnd : Point := .new ⟨toInt xEnd, toInt yEnd⟩
  let doc := (doc.addPoint pStart).addPoint pEnd
  return doc.addSegment pStart.loc pEnd.loc

/-- `ignored_tags`. -/
def ignoredTags : List String := ["metadata", "sodipodi:namedview", "defs"]

/-- `parsers`; calling a parser that is not there throws `bad_function_call`. -/
def parsers : String → XmlNode → Document → Except ParseError Document
  | "line" => parseSegment
  | "path" => fun node => parsePath (node.value "d")
  | _ => fun _ _ => .error .badFunctionCall

mutual

/-- The body of the loop of `parse_all`. -/
def parseNode (doc : Document) : XmlNode → Except ParseError Document
  | .mk name attributes children =>
    if name = "svg" ∨ name = "g" then parseAll doc children
    else if name ∈ ignoredTags then .ok doc
    else parsers name (.mk name attributes children) doc

/-- `reader::impl::parse_all`, on the children of a node. -/
def parseAll (doc : Document) : List XmlNode → Except ParseError Document
  | [] => .ok doc
  | node :: nodes => do
    let doc ← parseNode doc node
    parseAll doc nodes

end

/-- `reader::parse`; `none` is the null document of an empty text. -/
def parse (xml : Pugixml) (str : List Char) : Except ParseError (Option Document) :=
  if str = [] then .ok none
  else
    match xml.load str with
    | none => .error (.runtimeError "Cannot load given svg file")
    | some xmlDoc => do
      let width := xml.asDouble ((xmlDoc.child "svg").value "width")
      let height := xml.asDouble ((xmlDoc.child "svg").value "height")
      let doc ← parseAll (.new (toInt width) (toInt height)) xmlDoc.documentElement.children
      return some doc

/-! ## Reading undoes writing -/

theorem lexicalCast_intText (i : Int) : lexicalCast (intText i) = .ok (i : ℚ) := by
  simp only [lexicalCast, Numbers.lexicalCast, exactNumbers, intText, Decimal.Numeral.parse_text, Decimal.Numeral.value_ofInt]

/-- The calls that reading a segment makes. -/
def readCalls (e : Segment) : List Call := [.addPoint e.start, .addPoint e.stop, .addSegment e.start e.stop]

/-- Reading a dumped segment adds both its points, then the segment. -/
theorem parseNode_dump (doc : Document) (e : Segment) : parseNode doc e.dump = .ok (run doc (readCalls e)) := by
  have h : parseNode doc e.dump = parseSegment e.dump doc := by
    unfold Segment.dump parseNode
    simp [ignoredTags, parsers]
  have hv : e.dump.value "x1" = intText e.start.x ∧ e.dump.value "y1" = intText e.start.y ∧
      e.dump.value "x2" = intText e.stop.x ∧ e.dump.value "y2" = intText e.stop.y := ⟨rfl, rfl, rfl, rfl⟩
  obtain ⟨h1, h2, h3, h4⟩ := hv
  rw [h]
  simp only [parseSegment, h1, h2, h3, h4, lexicalCast_intText, toInt_intCast, bind, Except.bind, Point.new]
  rfl

theorem parseAll_dump : ∀ (es : List Segment) (doc : Document),
    parseAll doc (es.map Segment.dump) = .ok (run doc (es.flatMap readCalls))
  | [], doc => rfl
  | e :: es, doc => by
    rw [List.map_cons, parseAll, parseNode_dump]
    simp only [bind, Except.bind, parseAll_dump es]
    rw [List.flatMap_cons, run_append]

theorem readCalls_segments (es : List Segment) : (es.flatMap readCalls).flatMap Call.segments = es := by
  rw [List.flatMap_assoc]
  exact List.flatMap_singleton' es

theorem mem_readCalls_locations (es : List Segment) (l : Location) :
    l ∈ (es.flatMap readCalls).flatMap Call.locations ↔ ∃ e ∈ es, l = e.start ∨ l = e.stop := by
  rw [List.flatMap_assoc, List.mem_flatMap]
  refine exists_congr fun e => and_congr_right fun _ => ?_
  show l ∈ [e.start, e.stop, e.start, e.stop] ↔ _
  simp only [List.mem_cons, List.not_mem_nil, or_false]
  tauto

/-- The document drawn by adding segments. -/
def drawn (width height : Int) (segments : List (Location × Location)) : Document :=
  run (.new width height) (segments.map fun s => .addSegment s.1 s.2)

/-- What a drawn document holds: the segments in order, and their ends. -/
theorem drawn_consistent (width height : Int) (segments : List (Location × Location)) :
    ∃ ls, Consistent (drawn width height segments) ls (segments.map fun s => ⟨s.1, s.2⟩) ∧
      ∀ l, l ∈ ls ↔ ∃ e ∈ (drawn width height segments).edges, l = e.start ∨ l = e.stop := by
  have h := (Consistent.new width height).run (segments.map fun s => Call.addSegment s.1 s.2)
  have hseg : (segments.map fun s => Call.addSegment s.1 s.2).flatMap Call.segments =
      segments.map fun s => ⟨s.1, s.2⟩ := by
    rw [List.flatMap_map, List.map_eq_flatMap]
    rfl
  rw [List.nil_append, List.nil_append, hseg] at h
  refine ⟨_, h, fun l => ?_⟩
  rw [drawn, h.drawn]
  simp only [List.flatMap_map, List.mem_flatMap, Call.locations, List.mem_map, exists_exists_and_eq_and,
    List.mem_cons, List.not_mem_nil, or_false]

/-- The calls that read a document's segments draw the same points and segments. -/
theorem run_readCalls (width height : Int) (segments : List (Location × Location)) :
    (run (.new width height) ((drawn width height segments).edges.flatMap readCalls)).edges =
        (drawn width height segments).edges ∧
      ∀ l : Location, (run (.new width height) ((drawn width height segments).edges.flatMap readCalls)).points[l]? =
        (drawn width height segments).points[l]? := by
  obtain ⟨ls, h, hls⟩ := drawn_consistent width height segments
  have h' := (Consistent.new width height).run ((drawn width height segments).edges.flatMap readCalls)
  rw [List.nil_append, List.nil_append, readCalls_segments] at h'
  refine ⟨h'.drawn, fun l => ?_⟩
  rw [h'.points l, h.points l, ← h.drawn]
  simp only [mem_readCalls_locations, hls]

/-- Reading the dump of a document drawn by any segments gives a document of the same size, with
the same points, the same segments in the same order, and the same segments at every point. -/
theorem parse_dump (xml : Pugixml) (width height : Int) (segments : List (Location × Location))
    (hload : xml.load (xml.save (drawn width height segments).tree) = some (drawn width height segments).tree)
    (htext : xml.save (drawn width height segments).tree ≠ [])
    (hdouble : ∀ i ∈ [width, height], xml.asDouble (intText i) = i) :
    ∃ doc, parse xml ((drawn width height segments).dump xml) = .ok (some doc) ∧
      doc.width = width ∧ doc.height = height ∧
      (∀ l, l ∈ doc.points ↔ l ∈ (drawn width height segments).points) ∧
      doc.edges = (drawn width height segments).edges ∧
      ∀ l : Location, doc.points[l]?.map Point.edges = (drawn width height segments).points[l]?.map Point.edges := by
  obtain ⟨hedges, hpoints⟩ := run_readCalls width height segments
  refine ⟨run (.new width height) ((drawn width height segments).edges.flatMap readCalls), ?_,
    (run_size _ _).1, (run_size _ _).2, fun l => ?_, hedges, fun l => by rw [hpoints l]⟩
  · generalize hd : drawn width height segments = d at *
    have hsize : d.width = width ∧ d.height = height := by
      rw [← hd]; exact run_size _ _
    have hw : (d.tree.child "svg").value "width" = intText d.width := rfl
    have hh : (d.tree.child "svg").value "height" = intText d.height := rfl
    have hroot : d.tree.documentElement.children = d.edges.map Segment.dump := rfl
    unfold parse Document.dump
    rw [if_neg htext, hload]
    simp only [hw, hh, hroot, hsize, hdouble width (by simp), hdouble height (by simp), toInt_intCast, parseAll_dump, bind,
      Except.bind]
    rfl
  · rw [Std.TreeMap.mem_iff_isSome_getElem?, hpoints l, ← Std.TreeMap.mem_iff_isSome_getElem?]

/-- An XML library that knows one text and its tree. -/
def Pugixml.only (text : List Char) (tree : XmlNode) : Pugixml where
  save _ := text
  load s := if s = text then some tree else none
  asDouble s := (Decimal.parse s).getD 0

theorem Pugixml.only_load (text : List Char) (tree : XmlNode) : (only text tree).load text = some tree := if_pos rfl

theorem Pugixml.only_asDouble (text : List Char) (tree : XmlNode) (i : Int) :
    (only text tree).asDouble (intText i) = i := by
  simp [only, intText, Decimal.Numeral.parse_text]

/-- The text of a document with one segment, from (0, 0) to (3, -4). -/
def strokeText : List Char :=
  '<' :: ("?xml version=\"1.0\"?>\n<svg width=\"10\" height=\"20\">\n" ++
    "\t<line x1=\"0\" y1=\"0\" x2=\"3\" y2=\"-4\" style=\"stroke:rgb(255,0,0);stroke-width:5\" />\n</svg>\n").toList

/-- That document. -/
def stroke : Document := drawn 10 20 [(⟨0, 0⟩, ⟨3, -4⟩)]

theorem parse_dump_stroke :
    ∃ doc, parse (.only strokeText stroke.tree) (stroke.dump (.only strokeText stroke.tree)) = .ok (some doc) ∧
      doc.width = 10 ∧ doc.height = 20 ∧ (∀ l, l ∈ doc.points ↔ l ∈ stroke.points) ∧ doc.edges = stroke.edges ∧
      ∀ l : Location, doc.points[l]?.map Point.edges = stroke.points[l]?.map Point.edges :=
  parse_dump (.only strokeText stroke.tree) 10 20 [(⟨0, 0⟩, ⟨3, -4⟩)] (Pugixml.only_load _ _)
    (List.cons_ne_nil _ _) fun i _ => Pugixml.only_asDouble _ _ i

end DetailIdentifier.Svg
