/-
A drawing elsewhere on the sheet. The strokes are separated by their indices, so the projections are the
same, moved (`separateProjections_move`).
-/
import DetailIdentifier.Lib.Lists
import DetailIdentifier.Interpreter.Separate

namespace DetailIdentifier.Interpreter

variable {β β' : Type} {f : Point2i → Point2i}

/-- A projection with its points moved by `f` and its box by `g`. -/
def Projection.move (f : Point2i → Point2i) (g : β → β') (p : Projection β) : Projection β' :=
  ⟨p.vertices.map f, p.edges.map (Prod.map f f), p.cedges, g p.boundingBox, p.s⟩

def Collect.move (f : Point2i → Point2i) (c : Collect) : Collect :=
  ⟨c.nextProjection, c.cEdges.map (Prod.map f f), c.edges⟩

def Separate.move (f : Point2i → Point2i) (s : Separate β) : Separate β :=
  ⟨s.projections.map (Projection.move f id), s.edges⟩

theorem readEdge_move (vertices : List Point2i) (e : ℕ × ℕ) :
    readEdge (vertices.map f) e = (readEdge vertices e).map (Prod.map f f) := by
  simp only [readEdge, List.getElem?_map]
  cases vertices[e.1]? with
  | none => rfl
  | some v => cases vertices[e.2]? <;> rfl

theorem mapM_getElem?_move (vertices : List Point2i) (l : List ℕ) :
    l.mapM ((vertices.map f)[·]?) = (l.mapM (vertices[·]?)).map (List.map f) := by
  induction l with
  | nil => rfl
  | cons i l ih =>
    rw [List.mapM_cons, List.mapM_cons, ih, List.getElem?_map]
    cases vertices[i]? with
    | none => rfl
    | some v => cases l.mapM (vertices[·]?) <;> rfl

theorem collectStep_move (vertices : List Point2i) (c : Collect) :
    collectStep (vertices.map f) (c.move f) = (collectStep vertices c).map (Collect.move f) (Collect.move f) := by
  simp only [collectStep, Collect.move]
  cases c.edges.find? (touches c.nextProjection) with
  | none => rfl
  | some t =>
    simp only [readEdge_move]
    cases readEdge vertices t with
    | none => rfl
    | some e => simp only [Option.map_some, Loop.Step.map, Collect.move, List.map_append, List.map_singleton]

/-- The index edges are found by coordinates, so the points must stay distinct. -/
theorem separateStep_move [Inhabited β] (hf : Function.Injective f) (vertices : List Point2i) (s : Separate β) :
    separateStep (vertices.map f) (s.move f) =
      (separateStep vertices s).map (Separate.move f) (List.map (Projection.move f id)) := by
  simp only [separateStep, Separate.move]
  cases s.edges.getLast? with
  | none => rfl
  | some e =>
    simp only [readEdge_move]
    cases readEdge vertices e with
    | none => rfl
    | some ce =>
      have hrun := Loop.run_map (collectStep_move (f := f) vertices) (s.edges.length + 1)
        ⟨((∅ : Std.TreeSet ℕ).insert e.1).insert e.2, [ce], s.edges.dropLast⟩
      simp only [Collect.move, List.map_singleton] at hrun
      simp only [Option.map_some, hrun]
      cases Loop.run (collectStep vertices) (s.edges.length + 1)
          ⟨((∅ : Std.TreeSet ℕ).insert e.1).insert e.2, [ce], s.edges.dropLast⟩ with
      | none => rfl
      | some o =>
        cases o with
        | error fault => rfl
        | ok c =>
          simp only [Option.map_some, Except.map, Collect.move, mapM_getElem?_move]
          cases c.nextProjection.toList.mapM (vertices[·]?) with
          | none => rfl
          | some vs =>
            have hcedges : ((c.cEdges.map (Prod.map f f)).map fun e => ((vs.map f).idxOf e.1, (vs.map f).idxOf e.2)) =
                c.cEdges.map fun e => (vs.idxOf e.1, vs.idxOf e.2) := by
              simp only [List.map_map, Function.comp_def, Prod.map_fst, Prod.map_snd, List.idxOf_map hf]
            simp only [Option.map_some, Loop.Step.map, Separate.move, List.map_append, List.map_singleton, hcedges]
            rfl

theorem separateProjections_move [Inhabited β] (hf : Function.Injective f) (vertices : List Point2i)
    (edges : List (ℕ × ℕ)) : separateProjections (β := β) (vertices.map f) edges =
      (separateProjections vertices edges).map (List.map (Projection.move f id)) := by
  have hrun := Loop.run_map (separateStep_move (β := β) hf vertices) (edges.length + 1) ⟨[], edges⟩
  simp only [Separate.move, List.map_nil] at hrun
  rw [separateProjections, separateProjections, hrun]
  cases Loop.run (separateStep (β := β) vertices) (edges.length + 1) ⟨[], edges⟩ <;> rfl

end DetailIdentifier.Interpreter
