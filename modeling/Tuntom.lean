import Tuntom.BigEndian
import Tuntom.Transition
import Tuntom.Wire
import Tuntom.Primitives
import Tuntom.Ascon
import Tuntom.Packet
import Tuntom.ProtocolCodec
import Tuntom.ProtocolRoundtrip
import Tuntom.SessionModel
import Tuntom.SessionEffects
import Tuntom.SessionTranscripts
import Tuntom.SessionNonce
import Tuntom.SessionReplay
import Tuntom.SessionAgreement
import Tuntom.Pieces
import Tuntom.Fragmentation
import Tuntom.Reassembly
import Tuntom.ReassemblyCover
import Tuntom.FragmentDelivery
import Tuntom.ReassemblyInvariant
import Tuntom.Extension
import Tuntom.AuthGate
import Tuntom.AuthVerdict
import Tuntom.OrderedMap
import Tuntom.SwitchRuleset
import Tuntom.WordFields
import Tuntom.SwitchEcmp
import Tuntom.ViaCodec
import Tuntom.ViaState
import Tuntom.ViaSwitch
import Tuntom.ViaCompiled
import Tuntom.ViaRoute
import Tuntom.ViaGuard
import Tuntom.ViaTraversal
import Tuntom.ViaIdentity
import Tuntom.DivertSwitch
import Tuntom.DivertPlan
import Tuntom.ControlProtocol
import Tuntom.ControlFrame
import Tuntom.ControlAuth
import Tuntom.RemoteControl
import Tuntom.ControlTable
import Tuntom.ControlBounds
import Tuntom.ControlOnce
import Tuntom.ControlAccept
import Tuntom.ControlAnswers
import Tuntom.ControlClient
import Tuntom.ControlLink
import Tuntom.ControlCapacity
import Tuntom.ControlRefusal
import Tuntom.ControlOversize
import Tuntom.ControlDiscovery
import Tuntom.ControlStorm
import Tuntom.ControlReturn
import Tuntom.ReplayWindow
import Tuntom.SwitchProgram
import Tuntom.SwitchReverse
import Tuntom.SwitchRoutes
import Tuntom.EcmpFlow
import Tuntom.TransportMtu
import Tuntom.TunnelGate
import Tuntom.ExitAdapter
import Tuntom.EnvelopeCodecs
import Tuntom.ExtensionCodec
import Tuntom.InfoCodec
import Tuntom.ControlRouteCodec
import Tuntom.RelayProtocol
import Tuntom.RulesLiteral
import Tuntom.IpHop
import Tuntom.PacketInfo
import Tuntom.SpscQueue
import Tuntom.AsconBuffer
import Tuntom.DiscoveryTable
import Tuntom.Gatekeeper
import Tuntom.SessionSlots
