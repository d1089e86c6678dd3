import GonkaProxy.Bytes
import GonkaProxy.Strings
import GonkaProxy.Config.Load
import GonkaProxy.Json.Value
import GonkaProxy.Json.Scanner
import GonkaProxy.Json.Decode
import GonkaProxy.Json.Encode
import GonkaProxy.Sanitize.Token
import GonkaProxy.Sanitize.TokenMap
import GonkaProxy.Sanitize.Registry
import GonkaProxy.Sanitize.Spans
import GonkaProxy.Sanitize.Redact
import GonkaProxy.Sanitize.FanOut
import GonkaProxy.Sanitize.LlmClassifier
import GonkaProxy.Sanitize.Messages
import GonkaProxy.Sanitize.Segments
import GonkaProxy.Sanitize.RoundTrip
import GonkaProxy.Sanitize.Request
import GonkaProxy.Sanitize.Restore
import GonkaProxy.Sanitize.Response
import GonkaProxy.Sanitize.Stream
import GonkaProxy.Sanitize.Simultaneous
import GonkaProxy.Sanitize.Placeholders
import GonkaProxy.Sanitize.Utf8
import GonkaProxy.Json.Codec
import GonkaProxy.Json.Unquote
import GonkaProxy.Signer.Ecdsa
import GonkaProxy.Sanitize.Redactions
import GonkaProxy.Wallet.Pool
import GonkaProxy.Upstream.Client
import GonkaProxy.Upstream.Retry
import GonkaProxy.ToolSim.Parse
import GonkaProxy.ToolSim.Rewrite
import GonkaProxy.ToolSim.Protocol
import GonkaProxy.Sanitize.RestoreJson
import GonkaProxy.Sanitize.Body
import GonkaProxy.Api.Handler
import GonkaProxy.Api.Models
