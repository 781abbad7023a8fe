import WealdRelay.Access.Quorum
import WealdRelay.Access.RateLimit
import WealdRelay.Calls
import WealdRelay.Cbor.Skip
import WealdRelay.Connections
import WealdRelay.Directory
import WealdRelay.Grants
import WealdRelay.Handshakes.Subscription
import WealdRelay.Hub.Downgrades
import WealdRelay.Invite.Budget
import WealdRelay.Invite.Bundles
import WealdRelay.Invite.Code
import WealdRelay.Invite.Exhaustion
import WealdRelay.Invite.Founding
import WealdRelay.Invite.Redeem
import WealdRelay.Invite.Revocation
import WealdRelay.Keys
import WealdRelay.Media.Ceiling
import WealdRelay.Media.Completed
import WealdRelay.Media.Live
import WealdRelay.Media.Marker
import WealdRelay.Media.Names
import WealdRelay.Media.Outage
import WealdRelay.Mls.Device
import WealdRelay.Negentropy.Livelock
import WealdRelay.Retention.Anchors
import WealdRelay.Retention.ManifestChain
import WealdRelay.Source
import WealdRelay.Sync.Backfill
