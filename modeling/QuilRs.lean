import QuilRs.Expression.Evaluate
import QuilRs.Expression.Meaning
import QuilRs.Expression.Reading
import QuilRs.Expression.Display
import QuilRs.Graph.Build
import QuilRs.Graph.PathFold
import QuilRs.Graph.Depth
import QuilRs.Graph.Reorder
import QuilRs.Graph.Reduction
import QuilRs.Graph.Join
import QuilRs.Program.Frame
import QuilRs.Instruction.Declaration
import QuilRs.Latex.Settings
import QuilRs.Program.FrameStore
import QuilRs.Program.Stats
import QuilRs.Latex.Wire
import QuilRs.Instruction.Classical
