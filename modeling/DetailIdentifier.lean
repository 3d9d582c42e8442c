import DetailIdentifier.Types
import DetailIdentifier.Lib.Loop
import DetailIdentifier.Lib.Lists
import DetailIdentifier.Lib.Cycles
import DetailIdentifier.Lib.Removal
import DetailIdentifier.Lib.Grid
import DetailIdentifier.Lib.Binary64
import DetailIdentifier.Lib.Rectangle
import DetailIdentifier.Vectorizer.Image
import DetailIdentifier.Preprocessor.Thinning
import DetailIdentifier.Preprocessor.Deletion
import DetailIdentifier.Preprocessor.Survival
import DetailIdentifier.Preprocessor.Steady
import DetailIdentifier.Preprocessor.Skeleton
import DetailIdentifier.Vectorizer.Trace
import DetailIdentifier.Vectorizer.Fresh
import DetailIdentifier.Vectorizer.Edges
import DetailIdentifier.Vectorizer.Snap
import DetailIdentifier.Vectorizer.Visits
import DetailIdentifier.Vectorizer.Corners
import DetailIdentifier.Vectorizer.Shift
import DetailIdentifier.Interpreter.Projection
import DetailIdentifier.Interpreter.Separate
import DetailIdentifier.Interpreter.Box
import DetailIdentifier.Interpreter.Prune
import DetailIdentifier.Interpreter.Law
import DetailIdentifier.Interpreter.Groups
import DetailIdentifier.Interpreter.Passes
import DetailIdentifier.Interpreter.Enclosing
import DetailIdentifier.Interpreter.DrawnBox
import DetailIdentifier.Interpreter.Directions
import DetailIdentifier.Interpreter.Folding
import DetailIdentifier.Interpreter.CastLines
import DetailIdentifier.Svg.Document
import DetailIdentifier.Interpreter.Centerlines
import DetailIdentifier.Interpreter.Clusters
import DetailIdentifier.Interpreter.Averages
import DetailIdentifier.Interpreter.KMeans
import DetailIdentifier.Interpreter.Movement
import DetailIdentifier.Interpreter.Interpretation
import DetailIdentifier.Interpreter.Shift
import DetailIdentifier.Lib.Decimal
import DetailIdentifier.Lib.Tokenizer
import DetailIdentifier.Svg.Path
import DetailIdentifier.Svg.Bounds
import DetailIdentifier.Svg.Reader
import DetailIdentifier.Svg.Tree
import DetailIdentifier.Svg.PathText
import DetailIdentifier.Svg.Reading
import DetailIdentifier.Svg.Semantics
import DetailIdentifier.Svg.Rounding
import DetailIdentifier.Svg.Blanks
import DetailIdentifier.Modeller.Build
import DetailIdentifier.Modeller.SharedAxis
import DetailIdentifier.Modeller.Wireframe
import DetailIdentifier.Modeller.Links
import DetailIdentifier.Modeller.Faces
import DetailIdentifier.Modeller.Outlines
import DetailIdentifier.Modeller.Planes
import DetailIdentifier.Modeller.CastLines
import DetailIdentifier.Modeller.Load
import DetailIdentifier.Modeller.Steady
import DetailIdentifier.Modeller.Model
import DetailIdentifier.Executor.Process
import DetailIdentifier.Executor.Image
import DetailIdentifier.Executor.Shift
import DetailIdentifier.Executor.Rectangles
