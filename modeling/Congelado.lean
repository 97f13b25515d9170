import Congelado.Client.Register
import Congelado.Codec.Lifetimes
import Congelado.Codec.Pacing
import Congelado.Codec.Qpack
import Congelado.Codec.Sensitive
import Congelado.Codec.StaticTable
import Congelado.Connector.Store
import Congelado.Contract.Release
import Congelado.Http2.Blocks
import Congelado.Http2.Client
import Congelado.Http2.Closed
import Congelado.Http2.Dispatch
import Congelado.Http2.Exposure
import Congelado.Http2.Sender
import Congelado.Http2.Synchronisation
import Congelado.Migration.Once
import Congelado.Routing.Documented
import Congelado.Routing.Executor
import Congelado.Routing.Gate
import Congelado.Sql.ReadBack
import Congelado.Worker.Progress
import Congelado.Workflow.Claims
import Congelado.Workflow.Delivery
import Congelado.Workflow.LuaEval
