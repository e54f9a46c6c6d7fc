import Nupp.Lua.ConstSpecializeSound
import Nupp.Lua.ConstantFoldSound
import Nupp.Syntax.LexerLossless
import Nupp.Path.RelativeCorrect
import Nupp.Serde.CursorAccepts
import Nupp.Workers.ValueCodecCorrect
import Nupp.Text.Utf8
import Nupp.Types.ConstEval
import Nupp.Types.FunctionRule
import Nupp.Types.SurfaceRules
import Nupp.Project.Store
import Nupp.Project.QueryCorrect
import Nupp.Util.BitsetCorrect
import Nupp.Aot.SimdBounds
import Nupp.Events.Correct
import Nupp.Lsp.TransportCorrect
import Nupp.Project.DocumentsCorrect
import Nupp.Runtime.HotreloadCorrect
import Nupp.Digest.Agreement
import Nupp.Runtime.Binary32Correct
import Nupp.Types.UnionRegroup
import Nupp.Types.InterningCorrect
import Nupp.Types.MarksCorrect
import Nupp.Types.PredicateNormal
import Nupp.Compiler.HashCorrect
import Nupp.Compiler.WorkerChannel
import Nupp.Runtime.Suspension
import Nupp.Project.QueryUnwind
import Nupp.Io.Ipv6Correct
import Nupp.Syntax.StringCorrect
import Nupp.Text.Utf8Back
import Nupp.Util.Pool
import Nupp.Serde.CalendarCorrect
import Nupp.Io.Lines
import Nupp.Text.Base64Correct
import Nupp.Io.Buffer
import Nupp.Aot.Counts
import Nupp.Lsp.Hunks
import Nupp.Lsp.Positions
import Nupp.Lsp.Uri
import Nupp.Compiler.TargetLayoutCorrect
import Nupp.Runtime.Word32
import Nupp.Compiler.FsJoin
import Nupp.Tools.Template
import Nupp.Compiler.Stable
import Nupp.Types.Preservation
import Nupp.Compiler.Depfile
import Nupp.Types.FixedWidth
import Nupp.Types.Regions
import Nupp.Types.PackReduction
import Nupp.Types.PredicateField
import Nupp.Types.Disjoint
import Nupp.Types.Constrain
