import Veduta.Go.Strings
import Veduta.Go.Map
import Veduta.Lib.Except
import Veduta.Lib.Segments
import Veduta.Lib.Percent
import Veduta.Lib.Glob
import Veduta.Go.Mime
import Veduta.Go.Header
import Veduta.Routepath.Canonicalise
import Veduta.Routepath.NormalForm
import Veduta.Routepath.Match
import Veduta.Capabilities.Authorize
import Veduta.Capabilities.Policy
import Veduta.Integrations.Route
import Veduta.Integrations.Limits
import Veduta.Integrations.Lock
import Veduta.Integrations.Persistence
import Veduta.Integrations.Identity
import Veduta.Integrations.Approve
import Veduta.Go.Url
import Veduta.Connections.JoinPath
import Veduta.Capabilities.PathUse
import Veduta.Connections.Client
import Veduta.Capabilities.Broker
import Veduta.Capabilities.Redirect
import Veduta.Capabilities.ContentType
import Veduta.App.Grant
import Veduta.Integrations.Diff
import Veduta.Canonical.Digest
import Veduta.Go.Json
import Veduta.Canonical.Load
import Veduta.Go.JsonValue
import Veduta.Go.JsonCodec
import Veduta.Lib.ValueSchema
import Veduta.Widgets.Document
import Veduta.Widgets.Schema
import Veduta.Go.Time
import Veduta.Widgets.Validate
import Veduta.Go.JsonStrings
import Veduta.Secrets.Document
import Veduta.Go.JsonWrite
import Veduta.Lib.Transition
import Veduta.State.CardState
import Veduta.Scheduler.Manager
import Veduta.Scheduler.Restore
import Veduta.Scheduler.Refresh
import Veduta.Scheduler.System
import Veduta.Scheduler.Fence
import Veduta.Scheduler.Flight
import Veduta.Capabilities.AssetRef
import Veduta.Capabilities.Cache
import Veduta.Capabilities.Calls
import Veduta.App.Budget
import Veduta.Capabilities.Denials
import Veduta.App.Assets
import Veduta.Capabilities.Retention
import Veduta.Auth.Password
import Veduta.Auth.Attempts
import Veduta.Lib.RWLock
import Veduta.Auth.Service
import Veduta.Auth.Steps
import Veduta.Auth.Rotation
import Veduta.Auth.Revocation
import Veduta.Auth.Lockout
import Veduta.Go.Fmt
import Veduta.Connections.Build
import Veduta.Connections.Material
import Veduta.Connections.Transport
import Veduta.Go.TimeOrder
import Veduta.Scheduler.Disclosure
import Veduta.Storage.Times
import Veduta.Lib.Window
import Veduta.Storage.Outbox
import Veduta.Storage.Flood
import Veduta.Notify.Dispatcher
import Veduta.App.Revisions
import Veduta.Lib.Expression
import Veduta.Rules.Evaluator
import Veduta.Rules.Manager
import Veduta.Rules.Isolation
import Veduta.Lib.Past
import Veduta.Rules.System
import Veduta.Rules.Firing
import Veduta.Rules.Deadlines
import Veduta.Scheduler.Subscribers
import Veduta.Api.Stream
import Veduta.Manifestload.Request
import Veduta.App.Coverage
import Veduta.Lib.PrefixCode
import Veduta.Go.JsonText
import Veduta.Storage.DefinitionHash
import Veduta.App.Generation
import Veduta.Scheduler.SingleFlight
import Veduta.Scheduler.Cancellation
import Veduta.Go.TimeText
import Veduta.Scheduler.Backoff
import Veduta.Scheduler.Breaker
import Veduta.Go.JsonRead
import Veduta.Go.JsonBack
import Veduta.Scheduler.Reload
import Veduta.Scheduler.BoundHistory
import Veduta.Capabilities.Ownership
import Veduta.Manifestload.TemplateCoverage
import Veduta.Go.FloatText
import Veduta.Connections.Fingerprint
import Veduta.Config.Template
import Veduta.Notify.SecretRef
import Veduta.Manifestload.Binding
import Veduta.Api.Slots
import Veduta.Auth.Lifetime
import Veduta.Auth.Verifier
import Veduta.Rules.Compile
import Veduta.Config.Merge
import Veduta.Capabilities.Namespaces
import Veduta.Connections.Docker
import Veduta.Storage.AssetFlights
