import Why3.Core.PatternCompile
import Why3.Core.TerminationVariant
import Why3.Core.DtermUnify
import Why3.Core.Foundness
import Why3.Mlw.StoreAssign
import Why3.Session.PairingCorrect
import Why3.Session.SaveShapesCorrect
import Why3.Core.IdentPrinter
import Why3.Core.CoercionImport
import Why3.Util.RcRoundtrip
import Why3.Util.NumberPrint
import Why3.Util.Diffmap
import Why3.Transform.Dequantify
import Why3.Transform.MapSign
import Why3.Transform.EliminateIfFmlaCorrect
import Why3.Transform.EliminateIfIndCorrect
import Why3.Transform.ReductionBuiltinsCorrect
import Why3.Server.RequestCorrect
import Why3.Server.Addressed
import Why3.Server.Conservation
import Why3.Session.ControllerCorrect
import Why3.Mlw.VcDecrease
import Why3.Mlw.Reflow
import Why3.Transform.InductionCorrect
import Why3.Transform.FmlaSimpl
import Why3.Transform.RemoveQuant
import Why3.Transform.RemoveDecls
import Why3.Transform.InductionLex
import Why3.Transform.Bisect
import Why3.Mlw.CtyCorrect
import Why3.Core.LambdaBeta
import Why3.Util.HcptOrder
import Why3.Util.RcCalls
import Why3.Util.Cmdline
import Why3.Driver.CallProvers
import Why3.Driver.ResultBuffer
import Why3.Server.Unsigned
import Why3.Session.StrategyParserCorrect
import Why3.Session.CleanCorrect
import Why3.Session.RequestText
import Why3.Driver.Answers
