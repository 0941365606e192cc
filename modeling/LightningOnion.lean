import LightningOnion.Cmd.Main
import LightningOnion.Failure.CircuitCuts
import LightningOnion.Failure.Restart
import LightningOnion.Failure.Return
import LightningOnion.Network.Relay
import LightningOnion.Packet.Truncated
import LightningOnion.Privacy.Instructions
import LightningOnion.Privacy.Origin
import LightningOnion.Privacy.Position
import LightningOnion.Privacy.RouteLength
import LightningOnion.Replay.Filling
import LightningOnion.Replay.Persistence
import LightningOnion.Replay.SetCodec
import LightningOnion.Route.Integrity
import LightningOnion.Route.Reuse
import LightningOnion.Router.AtMostOnce
import LightningOnion.Router.Atomicity
import LightningOnion.Router.History
import LightningOnion.Router.Idempotence
import LightningOnion.Router.Lifecycle
