import Hwire.Http1.AssertedRuns
import Hwire.Http1.Answers
import Hwire.Http1.BodyWrites
import Hwire.Http1.BufList
import Hwire.Http1.ContentLength
import Hwire.Http1.Desync
import Hwire.Http1.EndToEnd
import Hwire.Http1.Flush
import Hwire.Http1.Folding
import Hwire.Http1.Framing
import Hwire.Http1.Informational
import Hwire.Http1.KeepAlive
import Hwire.Http1.PartialLen
import Hwire.Http1.ReadStrategy
import Hwire.Http1.ReceivedTrailers
import Hwire.Http1.ResponseLength
import Hwire.Http1.Returns
import Hwire.Http1.RoundTrip
import Hwire.Http1.Trailers
import Hwire.Http1.Truncation
import Hwire.Http1.UpgradeRuns
import Hwire.Http2.Bandwidth
import Hwire.Http2.Canceled
import Hwire.Http2.ConnectionHeaders
import Hwire.Http2.Outcome
import Hwire.Http2.PingTimes
import Hwire.Http2.Pipe
import Hwire.Http2.Stash
import Hwire.Http2.Upgraded
import Hwire.Http2.Windows
import Hwire.Pipelining
