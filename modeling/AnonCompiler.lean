import AnonCompiler.Opt.CfgNew
import AnonCompiler.Mir.LabelClash
import AnonCompiler.Opt.ChainToSwitchCorrect
import AnonCompiler.Opt.MulmodCorrect
import AnonCompiler.Opt.RotateCountdown
import AnonCompiler.Opt.SummaryCorrect
import AnonCompiler.Opt.TailCallCorrect
import AnonCompiler.Opt.GvnSound
import AnonCompiler.Opt.DeadCodeCorrect
import AnonCompiler.Opt.DeadPhiCorrect
import AnonCompiler.Opt.DerivedInduction
import AnonCompiler.Opt.PassesManager
import AnonCompiler.Frontend.Statements
import AnonCompiler.Frontend.ConstAgree
import AnonCompiler.Frontend.GlobalArray
import AnonCompiler.Opt.RangeSolve
import AnonCompiler.Mir.LowerArithCorrect
import AnonCompiler.Mir.FrameSound
import AnonCompiler.Riscv.FrameExact
import AnonCompiler.Mir.ChainFusionFlags
import AnonCompiler.Mir.DeadCodeLeast
import AnonCompiler.Mir.LowerMemZero
import AnonCompiler.Mir.ScratchMoves
import AnonCompiler.Mir.BranchReach
import AnonCompiler.Mir.BlockOrder
import AnonCompiler.Opt.SimplifyCfgRuns
