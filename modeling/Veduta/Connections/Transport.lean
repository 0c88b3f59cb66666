import Veduta.Connections.Registry
import Veduta.Go.UrlText

/-!
# Requests that cannot be sent

Package `connections`: when the transport fails, `Registry.Do` returns the client's error as it
is.  The text of that error has the URL of the request in it, and a connection that
authenticates with a query parameter has its credential there.  With any other authentication the
text is the one of a connection without a credential.
-/

namespace Veduta.Connections

open Go Lib

end Veduta.Connections
