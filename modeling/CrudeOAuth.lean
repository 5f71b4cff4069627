import CrudeOAuth.Core.AllowList
import CrudeOAuth.Core.Jwt.Changes
import CrudeOAuth.Core.Jwt.Dates
import CrudeOAuth.Core.Jwt.KeyBinding
import CrudeOAuth.Core.Jwt.Metadata
import CrudeOAuth.Core.Rfc7628.Bounds
import CrudeOAuth.Core.Rfc7628.Canonical
import CrudeOAuth.Core.Spellings
import CrudeOAuth.Pam.Failures
import CrudeOAuth.Pam.IndexSearch
import CrudeOAuth.Pam.Inline
import CrudeOAuth.Pam.Progress
import CrudeOAuth.SameLogins
import CrudeOAuth.Sasl.DenyList
import CrudeOAuth.Sasl.Exchange
import CrudeOAuth.Sasl.Network
