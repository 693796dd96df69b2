import Pichi.Basic
import Pichi.Backtrack
import Pichi.Transfer
import Pichi.EventLog
import Pichi.Interleave
import Pichi.Hoare
import Pichi.LazyScan
import Pichi.FlatBuffer
import Pichi.Platform
import Pichi.Endpoint
import Pichi.Shadowsocks
import Pichi.Reference
import Pichi.EndpointCodec
import Pichi.ShadowsocksStream
import Pichi.Framed
import Pichi.ShadowsocksIngress
import Pichi.ShadowsocksSalt
import Pichi.ShadowsocksAuthentic
import Pichi.VoOptions
import Pichi.Multimap
import Pichi.Balancer
import Pichi.BalancerIndex
import Pichi.BalancerTurns
import Pichi.ShadowsocksKey
import Pichi.VoAdapters
import Pichi.Duplex
import Pichi.Socks5
import Pichi.Socks5Handshake
import Pichi.VoRoute
import Pichi.VoRoundTrip
import Pichi.VoStrings
import Pichi.Sentry
import Pichi.Trojan
import Pichi.ShadowsocksPsk
import Pichi.TrojanFallback
import Pichi.TrojanRequest
import Pichi.TrojanThirdRead
import Pichi.TrojanStarvation
import Pichi.TrojanEgress
import Pichi.Uri
import Pichi.UriGrammar
import Pichi.Http
import Pichi.HttpConnect
import Pichi.HttpStream
import Pichi.HttpReply
import Pichi.Websocket
import Pichi.Adapters
import Pichi.DualAuth
import Pichi.Router
import Pichi.Routing
import Pichi.Neighbours
import Pichi.Conditions
import Pichi.Server
import Pichi.ServerSteps
import Pichi.ServerRuns
import Pichi.Targets
import Pichi.Addressing
import Pichi.Flush
import Pichi.Loading
import Pichi.Reroute
import Pichi.Clients
import Pichi.Session
import Pichi.SessionRelay
import Pichi.SessionStream
import Pichi.ShadowsocksOpen
import Pichi.ShadowsocksSession
import Pichi.Restore
import Pichi.Tunnels
import Pichi.TunnelLifetime
import Pichi.Socks5Session
import Pichi.HttpSession
import Pichi.ShadowsocksReplay
import Pichi.TrojanSession
