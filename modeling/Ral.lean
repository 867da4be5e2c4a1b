import Ral.Authority.Attenuation
import Ral.Authority.Projection
import Ral.Typecheck.Totality
import Ral.Typecheck.Output
import Ral.Data.Wire
import Ral.Record.Subscription
import Ral.Path.Rewalk
import Ral.Path.Folding
import Ral.Session.Forced
import Ral.Syntax.Joined
import Ral.Syntax.Parsed
import Ral.Process.Mask
import Ral.Mailbox.Debts
import Ral.Eval.Restore
import Ral.Channel.Framing
import Ral.Worker.Settling
import Ral.Worker.Directory
import Ral.Pipeline.Judgement
import Ral.Boundary.Doors
import Ral.Boundary.Exactness
import Ral.Boundary.Instantiate
import Ral.Seed.Crowd
import Ral.Engine.Aims
import Ral.State.Settled
import Ral.Tree.Ends
import Ral.Edit.Fresh
import Ral.Serve.Answers
import Ral.Schedule.Horizon
import Ral.Terminal.Screen
import Ral.View.Window
import Ral.Syntax.Tolerant
import Ral.Path.Lenient
import Ral.Env.Runs
import Ral.Bus.Coalesce
import Ral.Eval.Masking
import Ral.Eval.Assemble
import Ral.Schedule.Watch
import Ral.Worker.Owned
import Ral.Session.Reopen
import Ral.Syntax.Operands
import Ral.Boundary.Equality
import Ral.Path.Join
import Ral.Edit.Frame
