import Omnicore.Bootstrap.TrustProxy
import Omnicore.Domain.Passes
import Omnicore.HttpClient.Redispatch
import Omnicore.HttpClient.SingleFlight
import Omnicore.Integration.Receivers
import Omnicore.Integration.Routing
import Omnicore.Query.ArchiveRoundTrip
import Omnicore.Query.BaseHandshake
import Omnicore.Query.ComposeBatch
import Omnicore.Query.EmbedByReference
import Omnicore.Query.EmbedMany
import Omnicore.Query.FilterBackings
import Omnicore.Query.KeysetPages
import Omnicore.Query.ProjectionPushdown
import Omnicore.Query.Rebuild
import Omnicore.Query.Redelivery
import Omnicore.Query.Resurrection
import Omnicore.Query.Ripples
import Omnicore.Query.ShadowWrites
import Omnicore.Query.SiblingPresence
import Omnicore.Transport.Offsets
import Omnicore.Web.CursorContext
import Omnicore.Web.ExternalValidator
import Omnicore.Web.Introspection
import Omnicore.Web.Mutations
import Omnicore.Web.PathBinding
import Omnicore.Web.RefreshTokens
import Omnicore.Write.ConcurrentLifecycle
import Omnicore.Write.IdentityPost
