import Veduta.Auth.Service
import Veduta.Go.JsonValue
import Veduta.Go.TimeText

/-!
# The lifetime of a session

Package `auth`: `sessionTTL` is a number of minutes, hours or days.  `time.ParseDuration` refuses a
number of minutes or hours that 64 bits do not hold.  The days are multiplied without a check, and
from 106752 days on the product wraps around: such a session may have expired when it is issued.
-/

namespace Veduta.Auth

open Go

end Veduta.Auth
