import Pigasus.Hdl
import Pigasus.Struct
import Pigasus.ParaQ
import Pigasus.RrArbiter
import Pigasus.HashFunc
import Pigasus.FlowTable
import Pigasus.FastPath
import Pigasus.LinkedList
import Pigasus.FlowReassembly
import Pigasus.FlowTableWrapper
import Pigasus.ParaQSound
import Pigasus.FlowTableCtl
import Pigasus.HashStore
import Pigasus.FastPathCtl
import Pigasus.FlowView
import Pigasus.FastPathInv
import Pigasus.FastPathSound
import Pigasus.FastPathPort
import Pigasus.FastPathRun
import Pigasus.FlowTableMap
import Pigasus.WrapperEnv
import Pigasus.Groups
import Pigasus.Reduction
import Pigasus.ReductionSound
import Pigasus.RulePacker
import Pigasus.RulePackerSound
import Pigasus.PktDataShift
import Pigasus.PktDataShiftSound
import Pigasus.PktBuffer
import Pigasus.PktBufferSound
import Pigasus.Parser
import Pigasus.Unread
import Pigasus.ParserSound
import Pigasus.Pipeline
import Pigasus.PortGroup
import Pigasus.PortGroupSound
import Pigasus.ShiftOr
import Pigasus.ShiftOrFilter
import Pigasus.StringMatcher
import Pigasus.MatcherPipe
import Pigasus.MatcherSound
import Pigasus.MatcherSpacing
import Pigasus.LaneFifo
import Pigasus.LastBytes
import Pigasus.RuleEval
import Pigasus.RuleEvalSound
import Pigasus.TrafficManager
import Pigasus.TrafficManagerSound
import Pigasus.BypassNf
import Pigasus.BypassNfSound
import Pigasus.FlowControl
import Pigasus.FlowControlSound
import Pigasus.FlowControlCredit
import Pigasus.StreamMux
import Pigasus.StreamMuxSound
import Pigasus.PduGen
import Pigasus.PduGenSound
import Pigasus.PcieRing
import Pigasus.PcieRingSound
import Pigasus.NfMatcher
import Pigasus.NfMatcherSound
import Pigasus.CalFpTemplate
import Pigasus.FilterSound
import Pigasus.MulHashSound
import Pigasus.Windows
import Pigasus.Fingerprints
import Pigasus.HashPipe
import Pigasus.Admission
import Pigasus.MetaPairing
import Pigasus.Backend
import Pigasus.BackendSound
import Pigasus.Chain
import Pigasus.OooFlow
import Pigasus.OooList
import Pigasus.OooListSound
import Pigasus.Dependency
import Pigasus.PassManager
import Pigasus.VerilogExpr
import Pigasus.Vtl
import Pigasus.FpMatcher
import Pigasus.FpMatcherSound
import Pigasus.VtlSound
import Pigasus.AckHeader
import Pigasus.FlowControlAcks
import Pigasus.PcieAnnounce
import Pigasus.PduReserve
import Pigasus.Occurrence
import Pigasus.BoyerMoore
import Pigasus.WrapRing
import Pigasus.RingBuffer
import Pigasus.RingBufferSound
import Pigasus.MatcherFront
import Pigasus.PduForward
import Pigasus.VerilogStmt
import Pigasus.VtlStmt
import Pigasus.VtlStmtSound
import Pigasus.DramWrapper
import Pigasus.PduRead
import Pigasus.BypassRr
import Pigasus.HostEval
