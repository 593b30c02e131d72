import Why3.Core.CoercionRun
import Why3.Core.Float
import Why3.Core.NumberPrintSound
import Why3.Core.RealValue
import Why3.Util.Cmdline
import Why3.Util.Diffmap
import Why3.Util.Sysutil
import Why3.Logic.MapSign
import Why3.Termination.Check
import Why3.Transform.Bisect
import Why3.Transform.DestructSound
import Why3.Transform.EliminateInductiveFixpoint
import Why3.Transform.EliminateSymbol
import Why3.Transform.InductionSound
import Why3.Mlw.LoopSound
import Why3.Mlw.ReflowCorrect
import Why3.Infer.UnionFind
import Why3.Session.SchedulerSound
import Why3.Driver.ProveClient
import Why3.Server.RequestSound
import Why3.Server.WriteBuf
import Why3.Extract.CNames
