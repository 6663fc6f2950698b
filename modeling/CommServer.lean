import CommServer.LibSrc.BaseSpec
import CommServer.Src.ProcessParse
import CommServer.Transition.System
import CommServer.LibSrc.SocketSpec
import CommServer.Src.ProcessParseSpec
import CommServer.Protocol.Message
import CommServer.Exchange.Response
import CommServer.Exchange.Request
import CommServer.Exchange.Reception
import CommServer.CLib.Decimal
import CommServer.Src.Legacy
import CommServer.Src.LegacySpec
import CommServer.Exchange.Framing
import CommServer.Src.ProcessMain
import CommServer.Child.OneResponse
import CommServer.Src.ProcessMainSpec
import CommServer.Unix.Descriptors
import CommServer.Unix.Processes
import CommServer.Src.Main
import CommServer.Service.Lineage
import CommServer.Service.Ownership
import CommServer.Service.Restart
import CommServer.LibSrc.FieldSelection
import CommServer.Child.JumpTarget
import CommServer.Exchange.Segmentation
import CommServer.Exchange.EndOfInput
import CommServer.Exchange.Transmission
import CommServer.Exchange.ReplyCopy
import CommServer.Text.Words
import CommServer.CLib.Stdio
import CommServer.LibSrc.Config
import CommServer.Config.Lookup
import CommServer.Src.CommSvrCfg
import CommServer.Config.Comments
import CommServer.Config.Loading
import CommServer.Exchange.SelfFraming
import CommServer.Exchange.LengthHeader
import CommServer.LibSrc.Trims
import CommServer.Transition.Refinement
import CommServer.Service.Isolation
import CommServer.Protocol.Forwarder
import CommServer.Service.Forwarding
import CommServer.Service.Resources
import CommServer.Transition.Fairness
import CommServer.Service.Revival
import CommServer.Child.Origin
import CommServer.Child.Completion
import CommServer.Child.Undisturbed
import CommServer.Sim.SockCli
import CommServer.Sim.Simpserv
import CommServer.Sim.Dialogue
import CommServer.Child.Calls
import CommServer.Unix.Totals
import CommServer.Service.HangUp
import CommServer.Service.Healing
import CommServer.Child.Lifetime
import CommServer.Service.Answers
import CommServer.Service.Replies
