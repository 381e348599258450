import CocInside.TcpNetwork.RingWindow
import CocInside.Network.TcpClientBase
import CocInside.System.TimeUtil
import CocInside.System.TimerAccounting
import CocInside.System.TimerSchedule
import CocInside.System.TimerLoop
import CocInside.System.Wakeup
import CocInside.Network.TcpClient
import CocInside.System.FreeUnion
import CocInside.TcpNetwork.ReceiveLoop
import CocInside.TcpNetwork.Outgoing
import CocInside.Packet.Cipher
import CocInside.Packet.Handlers
import CocInside.Packet.UnknownFields
import CocInside.Ssu.Acceptance
import CocInside.Ssu.Truncation
import CocInside.System.SerializeReads
import CocInside.System.IniNoise
import CocInside.System.PathRooted
import CocInside.System.CsvRows
import CocInside.System.StringFormatter
import CocInside.System.StringTokenizer
import CocInside.System.PathExpand
import CocInside.Ssu.RepeatedMemory
import CocInside.System.PathNormal
import CocInside.System.SHA1Engine
import CocInside.System.Utf
import CocInside.LibEvent.EventBase
import CocInside.Lib.Alarms
import CocInside.Worker.Base
import CocInside.Worker.Loop
import CocInside.System.Random
import CocInside.System.Resource
import CocInside.System.PathWindows
import CocInside.LibEvent.Evbuffer
import CocInside.LibEvent.EvbufferSocket
import CocInside.LibEvent.Bufferevent
import CocInside.LibEvent.Readiness
