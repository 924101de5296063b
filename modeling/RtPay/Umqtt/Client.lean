import RtPay.Lib.Bytes
import RtPay.Lib.Fifo
import RtPay.Lib.CStr
/-!
# Umqtt.Client — struct umqtt_client and what its functions do to it

The client's fields as its threads share them, with the packets they exchange with the broker.  The send buffer is
shared too: `umqtt_encode` writes it, and a thread that sends sends what it holds by then.  A QoS 2 publication is
answered with an empty buffer, since `umqtt_encode` has no PUBREC.
-/
namespace RtPay
namespace Umqtt

open Bytes CStr

def PKG_UMQTT_SUBRECV_DEF_LENGTH : Nat := 4
def PKG_UMQTT_MSG_QUEUE_ACK_DEF_SIZE : Nat := 4
def PKG_UMQTT_INFO_DEF_RECONNECT_MAX_NUM : Nat := 5
def PKG_UMQTT_INFO_DEF_KEEPALIVE_MAX_NUM : Nat := 5
def PKG_UMQTT_PUBLISH_RECON_MAX : Nat := 3
def UMQTT_MAX_PACKET_ID : Nat := 65535

inductive Qos
  | qos0
  | qos1
  | qos2
  deriving DecidableEq

inductive Callback
  | mqttConfigCallback
  | mqttEnableCallback
  | mqttAddCoinsCallback
  deriving DecidableEq

structure Subscription where
  topicfilter : List Byte
  qos : Qos
  callback : Callback
  deriving DecidableEq

def MQTT_TOPIC_ROOT : List Byte := text "rt-pay"
def DEVICE_UUID : List Byte := text "00000000"
def MQTT_CONFIG_TOPIC : List Byte := text "config"
def MQTT_ENABLE_TOPIC : List Byte := text "enable"
def MQTT_ADD_COINS_TOPIC : List Byte := text "add-credit"

def deviceTopic (name : List Byte) : List Byte := MQTT_TOPIC_ROOT ++ text "/" ++ DEVICE_UUID ++ text "/" ++ name

def configSubscription : Subscription := ⟨deviceTopic MQTT_CONFIG_TOPIC, .qos1, .mqttConfigCallback⟩
def enableSubscription : Subscription := ⟨deviceTopic MQTT_ENABLE_TOPIC, .qos1, .mqttEnableCallback⟩
def addCoinsSubscription : Subscription := ⟨deviceTopic MQTT_ADD_COINS_TOPIC, .qos2, .mqttAddCoinsCallback⟩

/-- What `mqtt_subscribe_topics` subscribes to, in its order. -/
def subscribedTopics : List Subscription := [configSubscription, enableSubscription, addCoinsSubscription]

/-! ## Packets -/

inductive Packet
  | connect
  | subscribe (packetId : Nat) (sub : Subscription)
  | publish (packetId : Nat)
  | puback (packetId : Nat)
  | pubcomp (packetId : Nat)
  | pingreq
  deriving DecidableEq

/-- The acknowledgements that go through `msg_queue`. -/
inductive AckType
  | puback
  | pubrec
  | pubcomp
  | suback
  | unsuback
  deriving DecidableEq

structure MsgAck where
  packetId : Nat
  msgType : AckType
  deriving DecidableEq

inductive Incoming
  | connack (accepted : Bool)
  | publish (qos : Qos) (packetId : Nat)
  | pubrel
  | ack (msg : MsgAck)
  | pingresp
  deriving DecidableEq

/-! ## The client -/

inductive ConnectState
  | idle
  | linking
  | linked
  | unlink
  | unlinkLinking
  | disconnect
  deriving DecidableEq

/-- `struct umqtt_client`: `sock` tells whether there is a socket, `timerOn` whether `uplink_timer` runs, and
`sendBuf` is the packet in the send buffer, `none` when its length is zero. -/
structure Client where
  sock : Bool
  connectState : ConnectState
  reconnectCount : Nat
  keepaliveCount : Nat
  packetId : Nat
  sendBuf : Option Packet
  msgQueue : Fifo MsgAck PKG_UMQTT_MSG_QUEUE_ACK_DEF_SIZE
  timerOn : Bool
  subRecvList : List Subscription
  deriving DecidableEq

def umqttCreate : Client where
  sock := false
  connectState := .idle
  reconnectCount := 0
  keepaliveCount := 0
  packetId := 0
  sendBuf := none
  msgQueue := Fifo.empty
  timerOn := false
  subRecvList := []

namespace Client

def setConnectStatus (c : Client) (status : ConnectState) : Client := { c with connectState := status }

def getNextPacketID (c : Client) : Client :=
  { c with packetId := if c.packetId = UMQTT_MAX_PACKET_ID then 1 else c.packetId + 1 }

def umqttEncode (c : Client) (p : Packet) : Client := { c with sendBuf := some p }

/-- `umqtt_encode` of a PUBREC: nothing is encoded. -/
def umqttEncodeNothing (c : Client) : Client := { c with sendBuf := none }

/-- `umqtt_subscribe` up to its packet; `none` when it returns without one. -/
def umqttSubscribe (c : Client) (x : Subscription) : Option Client :=
  if c.subRecvList.any (fun y => y.topicfilter = x.topicfilter) then none
  else if c.subRecvList.length > PKG_UMQTT_SUBRECV_DEF_LENGTH then none
  else some (c.getNextPacketID.umqttEncode (.subscribe c.getNextPacketID.packetId x))

/-- `umqtt_subscribe` with the acknowledgement it took from the queue: only its type is looked at. -/
def umqttSubscribeAck (c : Client) (x : Subscription) (ack : MsgAck) : Client :=
  if ack.msgType = .suback then { c with subRecvList := x :: c.subRecvList } else c

/-- `umqtt_publish` at QoS 1 up to its packet. -/
def umqttPublish (c : Client) : Client := c.getNextPacketID.umqttEncode (.publish c.getNextPacketID.packetId)

end Client

/-! ## Reading a packet -/

/-- How `umqtt_handle_readpacket` ends: at once, with an answer in the send buffer to be sent, or with an error. -/
inductive Handled
  | done
  | reply
  | failed
  deriving DecidableEq

/-- `umqtt_handle_readpacket` on a whole packet.  The return code of a CONNACK is not looked at, and the packet id of a
PUBREL is not decoded. -/
def umqttHandleReadpacket (c : Client) : Incoming → Handled × Client
  | .connack _ => (.done, c.setConnectStatus .linked)
  | .publish .qos0 _ => (.done, c)
  | .publish .qos1 id => (.reply, c.umqttEncode (.puback id))
  | .publish .qos2 _ => (.reply, c.umqttEncodeNothing)
  | .pubrel => (.reply, c.umqttEncode (.pubcomp 0))
  | .ack msg =>
    match c.msgQueue.send msg with
    | some q => (.done, { c with msgQueue := q })
    | none => (.failed, c)
  | .pingresp => (.done, c)

end Umqtt
end RtPay
