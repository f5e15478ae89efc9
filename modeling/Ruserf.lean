import Ruserf.Clock
import Ruserf.Clock.Runs
import Ruserf.Clock.Witness
import Ruserf.Clock.Release
import Ruserf.Clock.Linearizable
import Ruserf.Types
import Ruserf.Delegate.Effect
import Ruserf.Transform
import Ruserf.Delegate.Message
import Ruserf.Delegate.PushPull
import Ruserf.Delegate.Membership
import Ruserf.Delegate.Ping
import Ruserf.Delegate.Node
import Ruserf.Delegate.Broadcast
import Ruserf.Delegate
