import EbnAnchor.Core.BgetRuns
import EbnAnchor.Core.Checksum
import EbnAnchor.Core.EpochBounds
import EbnAnchor.Core.SplitMultiply
import EbnAnchor.Core.SymbolCode
import EbnAnchor.Core.KeyCompression
import EbnAnchor.Core.KeyDistribution
import EbnAnchor.Core.Raid6
import EbnAnchor.Drivers.SdRuns
import EbnAnchor.Stack.H4Reception
import EbnAnchor.Stack.H4Transmission
import EbnAnchor.Stack.HciFlow
import EbnAnchor.Main.BringUpRuns
import EbnAnchor.Main.Broadcasting
import EbnAnchor.Main.CommandRoundTrip
import EbnAnchor.Main.ConnectionTimer
import EbnAnchor.Main.Discovery
import EbnAnchor.Main.FlowControl
import EbnAnchor.Main.OnAirRuns
