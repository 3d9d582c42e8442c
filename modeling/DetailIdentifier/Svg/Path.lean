/-
`parse_path`: the path data is split at the command letters, every command letter is glued to the
token after it, each command appends path elements to the current subpath, and the elements of all
subpaths are replayed on the document.

What the coordinates are is left open (`Numbers`): `exactNumbers` are rationals and unbounded
integers, `doubleNumbers` the `double`s and `int`s of the code. A text is a list of characters.
-/
import DetailIdentifier.Lib.Decimal
import DetailIdentifier.Lib.Tokenizer
import DetailIdentifier.Svg.Document

namespace DetailIdentifier.Svg

/-- What parsing throws; or `outOfRange` where it reads past the end of a vector, and `overflow`
where it converts a `double` to an `int` that it does not fit. -/
inductive ParseError where
  | badLexicalCast
  | badFunctionCall
  | logicError (what : String)
  | runtimeError (what : String)
  | outOfRange
  | overflow
deriving DecidableEq, Repr

/-! ## Path elements -/

/-- `path_element`: a `path_starting_point` or a `straight_line`. -/
inductive PathElement where
  | start (loc : Location)
  | line (endpoint : Location)
deriving DecidableEq, Repr

namespace PathElement

/-- `path_element::is_path_start`. -/
def isPathStart : PathElement → Bool
  | start _ => true
  | line _ => false

/-- `path_element::endpoint`. -/
def endpoint : PathElement → Location
  | start l => l
  | line l => l

end PathElement

/-! ## Numbers -/

/-- What the parser does with raw coordinates: reading one, and moving a location by two. Moving fails
where the location's `int`s cannot hold the result. -/
structure Numbers (ρ : Type) where
  cast : List Char → Option ρ
  move : Location → ρ → ρ → Option Location

namespace Location

/-- A location moved by two raw coordinates. -/
def move (p : Location) (x y : ℚ) : Location := ⟨toInt (x + p.x), toInt (y + p.y)⟩

/-- A location that two `int`s hold. -/
def IsInt (l : Location) : Prop := DetailIdentifier.IsInt l.x ∧ DetailIdentifier.IsInt l.y

instance (l : Location) : Decidable l.IsInt := inferInstanceAs (Decidable (_ ∧ _))

end Location

/-- Rationals and unbounded integers. -/
def exactNumbers : Numbers ℚ where
  cast := Decimal.parse
  move p x y := some (p.move x y)

/-- `double`s and `int`s: a coordinate is rounded when it is read and when it is added, then its
fraction is cut off. -/
noncomputable def doubleNumbers : Numbers ℝ where
  cast s := (Decimal.parse s).map fun q : ℚ => Binary64.round (q : ℝ)
  move p x y :=
    let l : Location := ⟨toInt (Binary64.round (x + p.x)), toInt (Binary64.round (y + p.y))⟩
    if l.IsInt then some l else none

/-! ## Commands -/

/-- `absolute_location::get_starting_point`. -/
def absoluteLocation (_ : List PathElement) : Location := ⟨0, 0⟩

/-- `relative_location::get_starting_point`. -/
def relativeLocation (history : List PathElement) : Location :=
  match history.getLast? with
  | none => ⟨0, 0⟩
  | some e => e.endpoint

/-- The separators of `fetch_params`. -/
def isParamSeparator (symbols : List Char) (c : Char) : Bool := symbols.contains c || c == ' ' || c == ',' || c == ';'

/-- `close_path`. -/
def closePath (_ : List Char) (history : List PathElement) : Except ParseError (List PathElement) :=
  if history.length < 2 then .error (.logicError "Too few elements for closing path")
  else
    match history.head? with
    | none => .error .outOfRange
    -- a subpath's first element is its starting point
    | some e => .ok [.line e.endpoint]

namespace Numbers

variable {ρ : Type} (N : Numbers ρ)

/-- `boost::lexical_cast<double>`. -/
def lexicalCast (s : List Char) : Except ParseError ρ :=
  match N.cast s with
  | none => .error .badLexicalCast
  | some q => .ok q

/-- The location that two raw coordinates lead to. -/
def moved (p : Location) (x y : ρ) : Except ParseError Location :=
  match N.move p x y with
  | none => .error .overflow
  | some l => .ok l

/-- `fetch_params`. -/
def fetchParams (serialized : List Char) (paramCount : ℕ) (symbols : List Char) : Except ParseError (List ρ) := do
  let coordinates ← (Tokenizer.tokenize (isParamSeparator symbols) (fun _ => false) [] serialized).mapM N.lexicalCast
  if coordinates.length % paramCount ≠ 0 ∧ coordinates.length ≠ 0 then
    throw (.logicError "Invalid number of coordinates")
  return coordinates

/-- The loop over the coordinate pairs: a line for each, from the end of the one before. -/
def lines (previous : Location) : List ρ → Except ParseError (List PathElement)
  | [] => .ok []
  | [_] => .error .outOfRange
  | x :: y :: coordinates => do
    let endpoint ← N.moved previous x y
    return .line endpoint :: (← lines endpoint coordinates)

/-- `move_to`; without coordinates it reads past the end of the vector. -/
def moveTo (policy : List PathElement → Location) (serialized : List Char) (history : List PathElement) :
    Except ParseError (List PathElement) := do
  let coordinates ← N.fetchParams serialized 2 ['M', 'm']
  match coordinates with
  | x :: y :: coordinates =>
    let loc ← N.moved (policy history) x y
    return .start loc :: (← N.lines loc coordinates)
  | _ => throw .outOfRange

/-- `straight_line`. -/
def straightLine (policy : List PathElement → Location) (serialized : List Char) (history : List PathElement) :
    Except ParseError (List PathElement) := do
  let coordinates ← N.fetchParams serialized 2 ['L', 'l']
  N.lines (policy history) coordinates

/-- `get_path_parsers`; calling a parser that is not there throws `bad_function_call`. -/
def pathParsers : Char → List Char → List PathElement → Except ParseError (List PathElement)
  | 'M' => N.moveTo absoluteLocation
  | 'm' => N.moveTo relativeLocation
  | 'L' => N.straightLine absoluteLocation
  | 'l' => N.straightLine relativeLocation
  | 'Z' => closePath
  | 'z' => closePath
  | _ => fun _ _ => .error .badFunctionCall

end Numbers

/-! ## The path -/

/-- The letters `parse_path` splits at. -/
def pathLetters : List Char :=
  ['M', 'm', 'L', 'l', 'H', 'h', 'V', 'v', 'C', 'c', 'S', 's', 'Q', 'q', 'T', 't', 'A', 'a', 'Z', 'z']

def isPathLetter (c : Char) : Bool := pathLetters.contains c

/-- `std::isspace`. -/
def isSpace (c : Char) : Bool := c == ' ' || c == '\t' || c == '\n' || c == '\x0b' || c == '\x0c' || c == '\r'

/-- `elements`: the subpaths read so far, the last of them apart. -/
structure Subpaths where
  finished : List (List PathElement)
  current : List PathElement
deriving DecidableEq, Repr

section Parser

variable {ρ : Type} (N : Numbers ρ)

/-- One command: its elements continue the current subpath or start a new one. -/
def Numbers.command (s : Subpaths) (trimmed : List Char) : Except ParseError Subpaths := do
  let nextElements ← N.pathParsers (trimmed.head?.getD '\x00') trimmed s.current
  match nextElements with
  | [] => throw .outOfRange
  | e :: _ =>
    if e.isPathStart then
      return ⟨s.finished ++ [s.current], nextElements⟩
    else
      return { s with current := s.current ++ nextElements }

/-- The loop over the tokens: a token and the one after it make up a command. -/
def Numbers.commandLoop (s : Subpaths) : List (List Char) → Except ParseError Subpaths
  | [] => .ok s
  | [t] => N.command s (Tokenizer.trim isSpace t)
  | t :: u :: tokens => do
    let s ← N.command s (Tokenizer.trim isSpace t ++ u)
    commandLoop s tokens

/-- The calls that draw a subpath. -/
def replay (previous : Location) : List PathElement → List Call
  | [] => []
  | .start l :: elements => .addPoint l :: replay l elements
  | .line l :: elements => .addSegment previous l :: replay l elements

/-- The calls that draw all subpaths. -/
def Subpaths.calls (s : Subpaths) : List Call := (s.finished ++ [s.current]).flatMap (replay ⟨0, 0⟩)

/-- The subpaths of a path's data. -/
def Numbers.parseSubpaths (d : List Char) : Except ParseError Subpaths :=
  N.commandLoop ⟨[], []⟩ (Tokenizer.tokenize (fun _ => false) isPathLetter [] d)

/-- `parse_path`, on the value of the attribute `d`. -/
def Numbers.parsePath (d : List Char) (doc : Document) : Except ParseError Document := do
  let s ← N.parseSubpaths d
  return run doc s.calls

/-- A command whose parser returns elements. -/
theorem command_cons (s : Subpaths) (letter : Char) {text : List Char} {e : PathElement} {es : List PathElement}
    (h : N.pathParsers letter (letter :: text) s.current = .ok (e :: es)) : N.command s (letter :: text) =
      .ok (if e.isPathStart then ⟨s.finished ++ [s.current], e :: es⟩ else { s with current := s.current ++ e :: es }) := by
  unfold Numbers.command
  rw [List.head?_cons, Option.getD_some, h]
  cases e <;> rfl

/-- A command whose parser fails. -/
theorem command_error (s : Subpaths) (letter : Char) {text : List Char} {e : ParseError}
    (h : N.pathParsers letter (letter :: text) s.current = .error e) : N.command s (letter :: text) = .error e := by
  unfold Numbers.command
  rw [List.head?_cons, Option.getD_some, h]
  rfl

/-! ## Command texts -/

/-- The texts of the commands: a token glued to the one after it. -/
def glue : List (List Char) → List (List Char)
  | [] => []
  | [t] => [Tokenizer.trim isSpace t]
  | t :: u :: tokens => (Tokenizer.trim isSpace t ++ u) :: glue tokens

/-- The texts of the commands of a path's data. -/
def commandTexts (d : List Char) : List (List Char) := glue (Tokenizer.tokenize (fun _ => false) isPathLetter [] d)

theorem commandLoop_glue : ∀ (tokens : List (List Char)) (s : Subpaths),
    N.commandLoop s tokens = (glue tokens).foldlM N.command s
  | [], _ => rfl
  | [t], s => (bind_pure _).symm
  | t :: u :: tokens, s => by
    rw [Numbers.commandLoop, glue, List.foldlM_cons]
    exact congrArg _ (funext fun s' => commandLoop_glue tokens s')

theorem parseSubpaths_texts (d : List Char) : N.parseSubpaths d = (commandTexts d).foldlM N.command ⟨[], []⟩ :=
  commandLoop_glue N _ _

end Parser

/-! ## Exact numbers -/

/-- `boost::lexical_cast<double>`, exactly. -/
abbrev lexicalCast : List Char → Except ParseError ℚ := exactNumbers.lexicalCast

/-- `parse_path` over exact numbers. -/
abbrev parsePath : List Char → Document → Except ParseError Document := exactNumbers.parsePath

example : (exactNumbers.parseSubpaths "M1 2l3,-4 z".toList).map Subpaths.calls =
    .ok [.addPoint ⟨1, 2⟩, .addSegment ⟨1, 2⟩ ⟨4, -2⟩, .addSegment ⟨4, -2⟩ ⟨1, 2⟩] := by decide +kernel

end DetailIdentifier.Svg
