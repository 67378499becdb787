import SimpleTSDB.Telnet.PutCommand
import SimpleTSDB.Telnet.Sockets
import SimpleTSDB.FrontEnds
import SimpleTSDB.Http.Buffer
import SimpleTSDB.Http.FormatString
import SimpleTSDB.Http.Split
import SimpleTSDB.Query.Confined
import SimpleTSDB.Query.WellFormed
import SimpleTSDB.Datastore.Paths
import SimpleTSDB.Datastore.Scan
import SimpleTSDB.Datastore.Backlog
import SimpleTSDB.Datastore.WriteCount
import SimpleTSDB.Datastore.ReadBack
import SimpleTSDB.Datastore.Execute
import SimpleTSDB.Datastore.Handles
import SimpleTSDB.Downsampler.Decimate
import SimpleTSDB.Downsampler.Again
import SimpleTSDB.Downsampler.Regroup
import SimpleTSDB.MetricText
import SimpleTSDB.Statistics.Polls
import SimpleTSDB.Thread.Pause
import SimpleTSDB.Service.Install
import SimpleTSDB.Config.Settings
import SimpleTSDB.Lives
import SimpleTSDB.Order
