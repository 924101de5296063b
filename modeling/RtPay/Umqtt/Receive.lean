import RtPay.MqttDecode
import RtPay.Umqtt.Decode
import RtPay.Umqtt.Stream
import RtPay.Umqtt.Topic
/-!
# Umqtt.Receive — umqtt_thread, from the socket to the callbacks

A round of `umqtt_thread` takes a packet off the socket, decodes it in the receive buffer and acts on it.  The callbacks
work on the payload where it lies, so that what they leave there is behind the packets to come.  On packets that come in
time and fit the buffer, the thread is the client of `Umqtt.Client` reading what the packets say, until a QoS 2
publication finds the message list of `Umqtt.Qos2` full (`thread_refines_client`).
-/
namespace RtPay
namespace Umqtt
namespace Receive

open Bytes Framed Wire Umqtt.Stream MqttLink Jsmn

/-! ## The callbacks, on the receive buffer -/

/-- What the loop of a callback leaves in the buffer: a zero behind each value. -/
def keysLeft : List Tok → List Byte → Option (List Byte)
  | [], buf => some buf
  | t :: ts, buf =>
    if t.type = .string ∧ 0 < t.size then
      match ts.head? with
      | none => none
      | some v =>
        match poke buf (v.start + tokLen v) [0] with
        | none => none
        | some buf => keysLeft ts buf
    else keysLeft ts buf

def payloadLeft (payload tail : List Byte) : Option (List Byte) :=
  match jsmnParse payload MQTT_MAX_JSON_TOKENS with
  | .error _ => some (payload ++ tail)
  | .ok p => keysLeft (p.tokens.take p.count) (payload ++ tail)

def callbackEvents : Callback → List Byte → List Byte → Option (List Event)
  | .mqttConfigCallback, payload, tail => mqttConfigCallback payload tail
  | .mqttEnableCallback, payload, tail => mqttEnableCallback payload tail
  | .mqttAddCoinsCallback, payload, tail => mqttAddCoinsCallback payload tail

/-- A callback on the publication in the receive buffer: the events it pushes and the buffer it leaves.  A payload that
is longer than the buffer has no defined outcome. -/
def callback (f : Callback) (view : PublishView) (buf : List Byte) : Option (List Event × List Byte) :=
  if view.payload + view.payloadLen.toNat ≤ buf.length then
    let payload := view.payloadBytes buf
    let tail := buf.drop (view.payload + view.payloadLen.toNat)
    (callbackEvents f payload tail).bind (fun evts =>
      (payloadLeft payload tail).map (fun left => (evts, buf.take view.payload ++ left)))
  else none

/-- `umqtt_deliver_message`, over the list of subscriptions. -/
def deliverMessage : List Subscription → PublishView → List Byte → Option (List Event × List Byte)
  | [], _, buf => some ([], buf)
  | x :: xs, view, buf =>
    if topicnameIsMatched x.topicfilter (view.topicBytes buf) then
      (callback x.callback view buf).bind (fun (evts, buf) =>
        (deliverMessage xs view buf).map (fun (more, buf) => (evts ++ more, buf)))
    else deliverMessage xs view buf

/-! ## A round of the thread -/

/-- `memory` tells whether there is any for the copy of a QoS 2 publication. -/
structure Config where
  timeoutTick : UInt32
  recvSize : Nat
  sendSize : Nat
  memory : Bool

/-- The thread's side of the client: `pushed` are the events its callbacks have pushed, `sent` what was handed to
`umqtt_trans_send`. -/
structure Device where
  client : Client
  reader : Stream.Reader
  qos2MsgList : List Qos2Msg
  pubrecMsg : List PubrecMsg
  pushed : List Event
  sent : List (List Byte)
  deriving DecidableEq

/-- What `umqtt_encode` makes of an answer. -/
def answerBytes (sendSize : Nat) : Option Packet → Except Int (List Byte)
  | some (.puback packetId) => Wire.umqttEncode sendSize (.puback (UInt16.ofNat packetId))
  | some (.pubcomp packetId) => Wire.umqttEncode sendSize (.pubcomp (UInt16.ofNat packetId))
  | _ => .ok []

/-- The answer is sent if it was encoded; the thread does not look at what became of it. -/
def Device.answer (d : Device) (cfg : Config) (c : Client) : Device :=
  match answerBytes cfg.sendSize c.sendBuf with
  | .ok bytes => { d with client := c, sent := d.sent ++ [bytes] }
  | .error _ => { d with client := c }

def qosOf : Nat → Qos
  | 0 => .qos0
  | 1 => .qos1
  | _ => .qos2

/-- What a decoded packet is to the client; the id of a PUBREC, PUBREL or PUBCOMP is not decoded. -/
def incoming : Decoded → Option Incoming
  | .connack _ retCode => some (.connack (decide (retCode = 0)))
  | .publish view => some (.publish (qosOf (headerQos view.header)) view.packetId)
  | .puback packetId => some (.ack ⟨packetId, .puback⟩)
  | .suback packetId _ => some (.ack ⟨packetId, .suback⟩)
  | .unsuback packetId => some (.ack ⟨packetId, .unsuback⟩)
  | .nothing type =>
    if type = PacketType.pubrec.value then some (.ack ⟨0, .pubrec⟩)
    else if type = PacketType.pubrel.value then some .pubrel
    else if type = PacketType.pubcomp.value then some (.ack ⟨0, .pubcomp⟩)
    else if type = PacketType.pingresp.value then some .pingresp
    else none

def Device.act (d : Device) (cfg : Config) (i : Incoming) : Device :=
  match umqttHandleReadpacket d.client i with
  | (.reply, c) => d.answer cfg c
  | (_, c) => { d with client := c }

/-- What `Umqtt.Qos2` is about, as it stands now. -/
def Device.receiver (d : Device) : Receiver where
  subRecvList := d.client.subRecvList
  qos2MsgList := d.qos2MsgList
  pubrecMsg := d.pubrecMsg
  tick := d.reader.tick
  published := []
  answered := []
  delivered := []
  sent := []

/-- `add_one_qos2_msg` and `add_one_pubrec_msg` for the publication in the receive buffer. -/
def Device.storeQos2 (d : Device) (cfg : Config) (view : PublishView) : Option Device :=
  if cfg.memory = true ∧ d.reader.recvBuf.length < view.payload + view.payloadLen.toNat then none
  else
    let msg : Qos2Msg := ⟨0, view.topicBytes d.reader.recvBuf, view.packetId, view.payloadBytes d.reader.recvBuf⟩
    (addOneQos2Msg d.receiver msg cfg.memory).map (fun r =>
      { d with qos2MsgList := r.qos2MsgList, pubrecMsg := addOnePubrecMsg view.packetId r.tick r.pubrecMsg })

/-- `qos2_publish_delete` and `clear_one_pubrec_msg` for a PUBREL.  The first calls no callback (`qos2PublishDelete_eq`). -/
def Device.releaseQos2 (d : Device) (packetId : Nat) : Device :=
  let r := qos2PublishDelete d.receiver (decodedPubrelId packetId)
  { d with
    qos2MsgList := r.qos2MsgList
    pubrecMsg := clearOnePubrecMsg (decodedPubrelId packetId) r.pubrecMsg }

/-- The `switch` of `umqtt_handle_readpacket`: a PUBLISH is delivered unless it is a QoS 2 one, which is stored, and then
answered. -/
def Device.handle (d : Device) (cfg : Config) : Decoded → Option Device
  | .publish view =>
    let i := .publish (qosOf (headerQos view.header)) view.packetId
    if headerQos view.header ≠ 2 then
      (deliverMessage d.client.subRecvList view d.reader.recvBuf).map (fun (evts, buf) =>
        { d with reader := { d.reader with recvBuf := buf }, pushed := d.pushed ++ evts }.act cfg i)
    else (d.storeQos2 cfg view).map (fun d => d.act cfg i)
  | .nothing type =>
    match incoming (.nothing type) with
    | none => some d
    | some .pubrel => some ((d.releaseQos2 0).act cfg .pubrel)
    | some i => some (d.act cfg i)
  | decoded =>
    match incoming decoded with
    | none => some d
    | some i => some (d.act cfg i)

/-- A round of `umqtt_thread`.  There is none when it waits for ever, when it leaves its loop at the end of the
connection, and when what the code does has no defined outcome. -/
def Device.round (d : Device) (cfg : Config) : Option Device :=
  match takePacket cfg.timeoutTick cfg.recvSize d.reader with
  | .error _ => none
  | .ok (.finAck, _) => none
  | .ok (.packet _, r) =>
    match umqttDecode r.recvBuf with
    | none => none
    | some (.error _) => some { d with reader := r }
    | some (.ok decoded) => { d with reader := r }.handle cfg decoded
  | .ok (_, r) => some { d with reader := r }

def Device.rounds (cfg : Config) : Nat → Device → Option Device
  | 0, d => some d
  | n + 1, d => (d.round cfg).bind (Device.rounds cfg n)

/-! ## What a callback leaves -/

theorem length_keysLeft : ∀ {ts : List Tok} {buf left : List Byte}, keysLeft ts buf = some left →
    left.length = buf.length
  | [], buf, left, h => by cases h; rfl
  | t :: ts, buf, left, h => by
    rw [keysLeft] at h
    split at h
    · split at h
      · cases h
      · split at h
        · cases h
        · rename_i hpoke
          rw [length_keysLeft h, length_of_poke hpoke]
    · exact length_keysLeft h

/-- A loop that has an outcome leaves a buffer. -/
theorem keysLeft_of_keysLoop {σ : Type} {onKey : σ → List Byte → Nat → List Byte → Nat → Option σ} :
    ∀ {ts : List Tok} {buf : List Byte} {acc acc' : σ}, keysLoop onKey ts buf acc = some acc' →
      ∃ left, keysLeft ts buf = some left
  | [], buf, _, _, _ => ⟨buf, rfl⟩
  | t :: ts, buf, acc, acc', h => by
    rw [keysLoop] at h
    rw [keysLeft]
    split at h
    · rename_i hkey
      rw [if_pos hkey]
      cases hhead : ts.head? with
      | none =>
        rw [hhead] at h
        cases h
      | some v =>
        rw [hhead] at h
        dsimp only at h ⊢
        cases hpoke : poke buf (v.start + tokLen v) [0] with
        | none =>
          rw [hpoke] at h
          cases h
        | some buf' =>
          rw [hpoke] at h
          dsimp only at h ⊢
          split at h
          · cases h
          · exact keysLeft_of_keysLoop h
    · rename_i hkey
      rw [if_neg hkey]
      exact keysLeft_of_keysLoop h

theorem payloadLeft_of_mqttCallback {σ : Type} {onKey : σ → List Byte → Nat → List Byte → Nat → Option σ} {zero : σ}
    {event : σ → Event} {payload tail : List Byte} {evts : List Event}
    (h : mqttCallback onKey zero event payload tail = some evts) :
    ∃ left, payloadLeft payload tail = some left ∧ left.length = payload.length + tail.length := by
  unfold mqttCallback at h
  unfold payloadLeft
  cases hp : jsmnParse payload MQTT_MAX_JSON_TOKENS with
  | error e => exact ⟨_, rfl, List.length_append⟩
  | ok p =>
    rw [hp] at h
    obtain ⟨acc, hacc, -⟩ := Option.map_eq_some_iff.1 h
    obtain ⟨left, hleft⟩ := keysLeft_of_keysLoop hacc
    exact ⟨left, hleft, (length_keysLeft hleft).trans List.length_append⟩

theorem payloadLeft_of_callbackEvents {f : Callback} {payload tail : List Byte} {evts : List Event}
    (h : callbackEvents f payload tail = some evts) :
    ∃ left, payloadLeft payload tail = some left ∧ left.length = payload.length + tail.length := by
  cases f <;> exact payloadLeft_of_mqttCallback h

/-- **A callback writes behind the topic only**, and leaves the buffer as long as it was. -/
theorem callback_of_events {f : Callback} {view : PublishView} {buf : List Byte} {evts : List Event}
    (hin : view.payload + view.payloadLen.toNat ≤ buf.length)
    (h : callbackEvents f (view.payloadBytes buf) (buf.drop (view.payload + view.payloadLen.toNat)) = some evts) :
    ∃ buf', callback f view buf = some (evts, buf') ∧ buf'.length = buf.length ∧
      buf'.take view.payload = buf.take view.payload := by
  obtain ⟨left, hleft, hlen⟩ := payloadLeft_of_callbackEvents h
  have htake : (buf.take view.payload).length = view.payload := by
    rw [List.length_take]
    omega
  refine ⟨buf.take view.payload ++ left, ?_, ?_, ?_⟩
  · rw [callback, if_pos hin]
    dsimp only
    rw [h, Option.bind_some, hleft, Option.map_some]
  · rw [List.length_append, htake, hlen, PublishView.payloadBytes, peek, List.length_take, List.length_drop,
      List.length_drop]
    omega
  · have := @List.take_left _ (buf.take view.payload) left
    rwa [htake] at this

/-! ## What the broker says -/

/-- A publication whose delivery pushes these events, whatever is behind it in the buffer. -/
def Delivers (subs : List Subscription) (topic payload : List Byte) (evts : List Event) : Prop :=
  (umqttDeliverMessage subs topic = [] ∧ evts = []) ∨
    ∃ f, umqttDeliverMessage subs topic = [f] ∧ ∀ tail, callbackEvents f payload tail = some evts

/-- What a packet of the broker says, and the events it makes the device push. -/
inductive Says (subs : List Subscription) : Frame → Incoming → List Event → Prop
  | connack {f : Frame} (sign retCode : Byte) (htype : headerType f.header = PacketType.connack.value)
      (hbody : f.body = [sign, retCode]) : Says subs f (.connack (decide (retCode = 0))) []
  | publish {f : Frame} (topic payload : List Byte) (packetId : Nat) (evts : List Event)
      (htype : headerType f.header = PacketType.publish.value) (htopic : topic.length < 65536)
      (hid : packetId < 65536)
      (hbody : f.body = umqttWriteInt topic.length ++
        (topic ++ ((if headerQos f.header > 0 then umqttWriteInt packetId else []) ++ payload)))
      (hdelivers : if headerQos f.header = 2 then evts = [] else Delivers subs topic payload evts) :
      Says subs f (.publish (qosOf (headerQos f.header)) (if headerQos f.header > 0 then packetId else 0)) evts
  | puback {f : Frame} (packetId : Nat) (htype : headerType f.header = PacketType.puback.value)
      (hid : packetId < 65536) (hbody : f.body = umqttWriteInt packetId) : Says subs f (.ack ⟨packetId, .puback⟩) []
  | suback {f : Frame} (packetId : Nat) (codes : List Byte) (htype : headerType f.header = PacketType.suback.value)
      (hid : packetId < 65536) (hbody : f.body = umqttWriteInt packetId ++ codes)
      (hcodes : codes.length ≤ PKG_UMQTT_SUBRECV_DEF_LENGTH) : Says subs f (.ack ⟨packetId, .suback⟩) []
  | unsuback {f : Frame} (packetId : Nat) (htype : headerType f.header = PacketType.unsuback.value)
      (hid : packetId < 65536) (hbody : f.body = umqttWriteInt packetId) : Says subs f (.ack ⟨packetId, .unsuback⟩) []
  | pubrec {f : Frame} (htype : headerType f.header = PacketType.pubrec.value) : Says subs f (.ack ⟨0, .pubrec⟩) []
  | pubrel {f : Frame} (htype : headerType f.header = PacketType.pubrel.value) : Says subs f .pubrel []
  | pubcomp {f : Frame} (htype : headerType f.header = PacketType.pubcomp.value) : Says subs f (.ack ⟨0, .pubcomp⟩) []
  | pingresp {f : Frame} (htype : headerType f.header = PacketType.pingresp.value) : Says subs f .pingresp []

/-- What is handed to `umqtt_trans_send` for a packet; the answer to a QoS 2 publication is empty. -/
def answersTo (sendSize : Nat) : Incoming → List (List Byte)
  | .publish .qos1 packetId => (answerBytes sendSize (some (.puback packetId))).toOption.toList
  | .publish .qos2 _ => [[]]
  | .pubrel => (answerBytes sendSize (some (.pubcomp 0))).toOption.toList
  | _ => []

theorem act_eq (d : Device) (cfg : Config) (i : Incoming) :
    d.act cfg i = { d with client := (umqttHandleReadpacket d.client i).2, sent := d.sent ++ answersTo cfg.sendSize i } := by
  have hanswer : ∀ c : Client, d.answer cfg c = { d with
      client := c, sent := d.sent ++ (answerBytes cfg.sendSize c.sendBuf).toOption.toList } := by
    intro c
    unfold Device.answer
    cases answerBytes cfg.sendSize c.sendBuf with
    | error e => simp [Except.toOption]
    | ok bytes => simp [Except.toOption]
  unfold Device.act
  cases i with
  | publish qos packetId =>
    cases qos with
    | qos0 => simp [umqttHandleReadpacket, answersTo]
    | qos1 => simp [umqttHandleReadpacket, answersTo, hanswer, Client.umqttEncode]
    | qos2 => simp [umqttHandleReadpacket, answersTo, hanswer, Client.umqttEncodeNothing, answerBytes, Except.toOption]
  | pubrel => simp [umqttHandleReadpacket, answersTo, hanswer, Client.umqttEncode]
  | connack accepted => simp [umqttHandleReadpacket, answersTo]
  | pingresp => simp [umqttHandleReadpacket, answersTo]
  | ack msg =>
    cases hsend : d.client.msgQueue.send msg <;> simp [umqttHandleReadpacket, answersTo, hsend]

theorem subRecvList_handleReadpacket (c : Client) (i : Incoming) :
    (umqttHandleReadpacket c i).2.subRecvList = c.subRecvList := by
  cases i with
  | publish qos packetId => cases qos <;> rfl
  | ack msg =>
    rw [umqttHandleReadpacket]
    cases c.msgQueue.send msg <;> rfl
  | _ => rfl

/-! ## Delivery -/

theorem topicBytes_of_take {view : PublishView} {buf buf' : List Byte} (hle : view.topicName + view.topicNameLen ≤ view.payload)
    (h : buf'.take view.payload = buf.take view.payload) : view.topicBytes buf' = view.topicBytes buf := by
  have hcut : ∀ b : List Byte, view.topicBytes b = peek (b.take view.payload) view.topicName view.topicNameLen := by
    intro b
    rw [PublishView.topicBytes, peek, peek, List.drop_take, List.take_take]
    congr 1
    omega
  rw [hcut, hcut, h]

/-- Without a subscription to the topic nothing is called. -/
theorem deliverMessage_of_nil {view : PublishView} {buf topic : List Byte} (htopic : view.topicBytes buf = topic) :
    ∀ {subs : List Subscription}, umqttDeliverMessage subs topic = [] → deliverMessage subs view buf = some ([], buf)
  | [], _ => rfl
  | x :: xs, h => by
    have hmatch : ∀ y ∈ x :: xs, ¬ topicnameIsMatched y.topicfilter topic = true := by
      intro y hy hm
      have : y.callback ∈ umqttDeliverMessage (x :: xs) topic :=
        List.mem_map_of_mem (List.mem_filter.2 ⟨hy, hm⟩)
      rw [h] at this
      cases this
    rw [deliverMessage, htopic, if_neg (hmatch x List.mem_cons_self)]
    refine deliverMessage_of_nil htopic ?_
    rw [umqttDeliverMessage, List.filter_eq_nil_iff.2 (fun y hy => hmatch y (List.mem_cons_of_mem _ hy)), List.map_nil]

/-- **A publication with one subscriber** is delivered to it once. -/
theorem deliverMessage_of_singleton {view : PublishView} {buf topic : List Byte} {f : Callback} {evts : List Event}
    (htopic : view.topicBytes buf = topic) (hle : view.topicName + view.topicNameLen ≤ view.payload)
    (hin : view.payload + view.payloadLen.toNat ≤ buf.length)
    (hcall : callbackEvents f (view.payloadBytes buf) (buf.drop (view.payload + view.payloadLen.toNat)) = some evts) :
    ∀ {subs : List Subscription}, umqttDeliverMessage subs topic = [f] →
      ∃ buf', deliverMessage subs view buf = some (evts, buf') ∧ buf'.length = buf.length
  | [], h => by cases h
  | x :: xs, h => by
    rw [deliverMessage, htopic]
    rw [umqttDeliverMessage, List.filter_cons] at h
    by_cases hm : topicnameIsMatched x.topicfilter topic = true
    · rw [if_pos hm] at h ⊢
      rw [List.map_cons, List.cons.injEq] at h
      obtain ⟨rfl, hrest⟩ := h
      obtain ⟨buf', hbuf', hlen, htake⟩ := callback_of_events hin hcall
      refine ⟨buf', ?_, hlen⟩
      rw [hbuf', Option.bind_some]
      dsimp only
      rw [deliverMessage_of_nil ((topicBytes_of_take hle htake).trans htopic) hrest, Option.map_some, List.append_nil]
    · rw [if_neg hm] at h ⊢
      exact deliverMessage_of_singleton htopic hle hin hcall h

theorem deliverMessage_of_delivers {subs : List Subscription} {view : PublishView} {buf topic payload : List Byte}
    {evts : List Event} (h : Delivers subs topic payload evts) (htopic : view.topicBytes buf = topic)
    (hpayload : view.payloadBytes buf = payload) (hle : view.topicName + view.topicNameLen ≤ view.payload)
    (hin : view.payload + view.payloadLen.toNat ≤ buf.length) :
    ∃ buf', deliverMessage subs view buf = some (evts, buf') ∧ buf'.length = buf.length := by
  rcases h with ⟨hnone, rfl⟩ | ⟨f, hone, hcall⟩
  · exact ⟨buf, deliverMessage_of_nil htopic hnone, rfl⟩
  · refine deliverMessage_of_singleton htopic hle hin ?_ hone
    rw [hpayload]
    exact hcall _

/-! ## A packet -/

theorem toNat_writeInt {n : Nat} (h : n < 65536) :
    256 * (UInt8.ofNat (n / 256)).toNat + (UInt8.ofNat (n % 256)).toNat = n := by
  rw [UInt8.toNat_ofNat', UInt8.toNat_ofNat']
  omega

theorem decode_of_nothing {f : Frame} (stale : List Byte) {type : PacketType}
    (hmem : type = .pubrec ∨ type = .pubrel ∨ type = .pubcomp ∨ type = .pingresp)
    (htype : headerType f.header = type.value) :
    umqttDecode (f.bytes ++ stale) = some (.ok (.nothing type.value)) := by
  have hhead : (f.bytes ++ stale)[0]? = some f.header := rfl
  rw [umqttDecode, hhead, Option.bind_some, htype]
  rcases hmem with rfl | rfl | rfl | rfl <;> rfl

/-- A QoS 2 publication, which is stored. -/
def stores (f : Frame) : Bool := headerType f.header = PacketType.publish.value ∧ headerQos f.header = 2

/-- What handling a packet that says `i` makes of the device. -/
structure Acted (cfg : Config) (f : Frame) (i : Incoming) (evts : List Event) (d d' : Device) : Prop where
  client : d'.client = (umqttHandleReadpacket d.client i).2
  arrivals : d'.reader.arrivals = d.reader.arrivals
  length : d'.reader.recvBuf.length = d.reader.recvBuf.length
  pushed : d'.pushed = d.pushed ++ evts
  sent : d'.sent = d.sent ++ answersTo cfg.sendSize i
  stored : d'.qos2MsgList.length = d.qos2MsgList.length + if stores f && cfg.memory then 1 else 0

theorem acted_act (d : Device) (cfg : Config) {f : Frame} (hf : stores f = false) (i : Incoming) :
    Acted cfg f i [] d (d.act cfg i) := by
  rw [act_eq]
  exact ⟨rfl, rfl, rfl, (List.append_nil _).symm, rfl, by rw [hf]; rfl⟩

theorem releaseQos2_eq (d : Device) (packetId : Nat) :
    d.releaseQos2 packetId = { d with pubrecMsg := clearOnePubrecMsg 0 d.pubrecMsg } := by
  rw [Device.releaseQos2, qos2PublishDelete_eq]
  rfl

/-- A QoS 2 publication takes the place there is, and there is no going on without one. -/
theorem storeQos2_cases {d : Device} {cfg : Config} {view : PublishView}
    (hin : view.payload + view.payloadLen.toNat ≤ d.reader.recvBuf.length) :
    (¬ d.qos2MsgList.length < PKG_UMQTT_QOS2_QUE_MAX → d.storeQos2 cfg view = none) ∧
      (d.qos2MsgList.length < PKG_UMQTT_QOS2_QUE_MAX → ∃ msgs slots,
        d.storeQos2 cfg view = some { d with qos2MsgList := msgs, pubrecMsg := slots } ∧
          msgs.length = d.qos2MsgList.length + if cfg.memory = true then 1 else 0) := by
  have hout : ¬ (cfg.memory = true ∧ d.reader.recvBuf.length < view.payload + view.payloadLen.toNat) := fun h => by omega
  have hheld : d.receiver.qos2MsgList = d.qos2MsgList := rfl
  unfold Device.storeQos2
  rw [if_neg hout]
  dsimp only
  unfold addOneQos2Msg
  rw [hheld]
  constructor
  · intro hfull
    rw [if_pos (Nat.le_of_not_lt hfull)]
    rfl
  · intro hroom
    rw [if_neg (Nat.not_le_of_lt hroom)]
    cases cfg.memory with
    | false => exact ⟨_, _, rfl, rfl⟩
    | true => exact ⟨_, _, rfl, List.length_cons⟩

/-- **What a packet says is what the device does**, once it is in the receive buffer. -/
theorem handle_of_saying {d : Device} {cfg : Config} {f : Frame} {i : Incoming} {evts : List Event} {stale : List Byte}
    (h : Says d.client.subRecvList f i evts) (hbuf : d.reader.recvBuf = f.bytes ++ stale) :
    ∃ decoded, umqttDecode d.reader.recvBuf = some (.ok decoded) ∧
      (stores f = true ∧ ¬ d.qos2MsgList.length < PKG_UMQTT_QOS2_QUE_MAX → d.handle cfg decoded = none) ∧
      (¬ (stores f = true ∧ ¬ d.qos2MsgList.length < PKG_UMQTT_QOS2_QUE_MAX) →
        ∃ d', d.handle cfg decoded = some d' ∧ Acted cfg f i evts d d') := by
  -- a packet that is no publication
  have hother : ∀ {type : PacketType} {decoded : Decoded} {j : Incoming}, headerType f.header = type.value →
      type.value ≠ PacketType.publish.value → umqttDecode (f.bytes ++ stale) = some (.ok decoded) →
      (stores f = false → ∃ d', d.handle cfg decoded = some d' ∧ Acted cfg f j [] d d') →
        ∃ decoded, umqttDecode d.reader.recvBuf = some (.ok decoded) ∧
          (stores f = true ∧ ¬ d.qos2MsgList.length < PKG_UMQTT_QOS2_QUE_MAX → d.handle cfg decoded = none) ∧
          (¬ (stores f = true ∧ ¬ d.qos2MsgList.length < PKG_UMQTT_QOS2_QUE_MAX) →
            ∃ d', d.handle cfg decoded = some d' ∧ Acted cfg f j [] d d') := by
    intro type decoded j htype hne hd hacts
    have hf : stores f = false := decide_eq_false (fun hs => hne (htype.symm.trans hs.1))
    exact ⟨decoded, by rw [hbuf, hd], fun hs => absurd hs.1 (by rw [hf]; decide), fun _ => hacts hf⟩
  cases h with
  | connack sign retCode htype hbody =>
    exact hother htype (by decide) (decode_of_connack stale htype hbody) (fun hf => ⟨_, rfl, acted_act d cfg hf _⟩)
  | puback packetId htype hid hbody =>
    have := decode_of_puback stale htype hbody
    rw [toNat_writeInt hid] at this
    exact hother htype (by decide) this (fun hf => ⟨_, rfl, acted_act d cfg hf _⟩)
  | suback packetId codes htype hid hbody hcodes =>
    have := @decode_of_suback f _ _ codes stale htype hbody
    rw [toNat_writeInt hid, if_pos hcodes] at this
    exact hother htype (by decide) this (fun hf => ⟨_, rfl, acted_act d cfg hf _⟩)
  | unsuback packetId htype hid hbody =>
    have := decode_of_unsuback stale htype hbody
    rw [toNat_writeInt hid] at this
    exact hother htype (by decide) this (fun hf => ⟨_, rfl, acted_act d cfg hf _⟩)
  | pubrec htype =>
    exact hother htype (by decide) (decode_of_nothing stale (Or.inl rfl) htype) (fun hf => ⟨_, rfl, acted_act d cfg hf _⟩)
  | pubcomp htype =>
    exact hother htype (by decide) (decode_of_nothing stale (Or.inr (Or.inr (Or.inl rfl))) htype)
      (fun hf => ⟨_, rfl, acted_act d cfg hf _⟩)
  | pubrel htype =>
    refine hother htype (by decide) (decode_of_nothing stale (Or.inr (Or.inl rfl)) htype) (fun hf => ⟨_, rfl, ?_⟩)
    rw [releaseQos2_eq, act_eq]
    exact ⟨rfl, rfl, rfl, (List.append_nil _).symm, rfl, by rw [hf]; rfl⟩
  | pingresp htype =>
    exact hother htype (by decide) (decode_of_nothing stale (Or.inr (Or.inr (Or.inr rfl))) htype)
      (fun hf => ⟨_, rfl, acted_act d cfg hf _⟩)
  | publish topic payload packetId evts htype htopic hid hbody hdelivers =>
    obtain ⟨view, hdecode, hheader, hview, htopicBytes, hpayload, hle, hend⟩ := @decode_of_publish f stale _ _ _ htype htopic hid hbody
    have hin : view.payload + view.payloadLen.toNat ≤ (f.bytes ++ stale).length := by
      rw [hend, List.length_append]
      omega
    refine ⟨_, by rw [hbuf, hdecode], ?_⟩
    by_cases hqos : headerQos f.header = 2
    · rw [if_pos hqos] at hdelivers
      subst hdelivers
      have hf : stores f = true := decide_eq_true ⟨htype, hqos⟩
      obtain ⟨hfull, hroom⟩ := @storeQos2_cases d cfg view (by rw [hbuf]; exact hin)
      rw [Device.handle, hheader, if_neg (not_not_intro hqos), hview]
      refine ⟨fun hs => by rw [hfull hs.2]; rfl, fun hs => ?_⟩
      obtain ⟨msgs, slots, hstored, hlen⟩ := hroom (not_not.1 (fun hn => hs ⟨hf, hn⟩))
      refine ⟨_, by rw [hstored]; rfl, ?_⟩
      dsimp only
      rw [act_eq]
      exact ⟨rfl, rfl, rfl, (List.append_nil _).symm, rfl, by rw [hf, Bool.true_and]; exact hlen⟩
    · rw [if_neg hqos] at hdelivers
      have hf : stores f = false := decide_eq_false (fun hs => hqos hs.2)
      obtain ⟨buf, hdeliver, hlen⟩ := deliverMessage_of_delivers hdelivers htopicBytes hpayload hle hin
      refine ⟨fun hs => absurd hs.1 (by rw [hf]; decide), fun _ => ?_⟩
      rw [Device.handle, hheader, if_pos hqos, hbuf, hdeliver, Option.map_some, hview]
      refine ⟨_, rfl, ?_⟩
      dsimp only
      rw [act_eq]
      exact ⟨rfl, rfl, by rw [hbuf]; exact hlen, rfl, rfl, by rw [hf]; rfl⟩

/-! ## A stream of packets -/

/-- A packet that comes in time is acted on if it fits the buffer, and passed over if not. -/
theorem round_of_frame {d : Device} {cfg : Config} {f : Frame} {l : List Byte} {rest : List Arrival}
    (hle : cfg.timeoutTick.toNat ≤ 0x7FFFFFFF) (hsize : 5 ≤ cfg.recvSize) (hbuf : d.reader.recvBuf.length = cfg.recvSize)
    (hl : content d.reader.arrivals = f.bytes ++ l) (hin : InTime cfg.timeoutTick f d.reader.arrivals rest) :
    ∃ r, r.arrivals = rest ∧ content rest = l ∧ r.recvBuf.length = cfg.recvSize ∧
      (¬ f.bytes.length ≤ cfg.recvSize → d.round cfg = some { d with reader := r }) ∧
      (f.bytes.length ≤ cfg.recvSize → ∀ i evts, Says d.client.subRecvList f i evts →
        (stores f = true ∧ ¬ d.qos2MsgList.length < PKG_UMQTT_QOS2_QUE_MAX → d.round cfg = none) ∧
        (¬ (stores f = true ∧ ¬ d.qos2MsgList.length < PKG_UMQTT_QOS2_QUE_MAX) →
          ∃ d', d.round cfg = some d' ∧ Acted cfg f i evts { d with reader := r } d')) := by
  obtain ⟨r, harr, hrest, hlen, htaken⟩ := takePacket_of_frame hle hsize hbuf hl hin
  refine ⟨r, harr, hrest, hlen, fun hlong => ?_, fun hfit i evts hmeant => ?_⟩
  · rw [if_neg hlong] at htaken
    rw [Device.round, htaken]
  · rw [if_pos hfit] at htaken
    obtain ⟨htake, stale, hstale⟩ := htaken
    obtain ⟨decoded, hdecode, hhandle⟩ := @handle_of_saying { d with reader := r } cfg f i evts stale hmeant hstale
    have hround : d.round cfg = { d with reader := r }.handle cfg decoded := by
      rw [Device.round, htake]
      dsimp only at hdecode ⊢
      rw [hdecode]
    rw [hround]
    exact hhandle

/-- Whether `n` more QoS 2 publications find a place in the message list, which holds `held` and gives none back. -/
def Storable (cfg : Config) (held n : Nat) : Prop :=
  n = 0 ∨ held < PKG_UMQTT_QOS2_QUE_MAX ∧ (cfg.memory = true → held + n ≤ PKG_UMQTT_QOS2_QUE_MAX)

theorem storable_succ {cfg : Config} {held : Nat} (h : held < PKG_UMQTT_QOS2_QUE_MAX) (n : Nat) :
    Storable cfg held (n + 1) ↔ Storable cfg (held + if cfg.memory = true then 1 else 0) n := by
  unfold Storable
  by_cases hm : cfg.memory = true
  · rw [if_pos hm]
    constructor
    · rintro (h0 | ⟨-, hle⟩)
      · omega
      · have := hle hm
        by_cases hn : n = 0
        · exact Or.inl hn
        · exact Or.inr ⟨by omega, fun _ => by omega⟩
    · rintro (h0 | ⟨-, hle⟩)
      · exact Or.inr ⟨h, fun _ => by omega⟩
      · exact Or.inr ⟨h, fun _ => by have := hle hm; omega⟩
  · rw [if_neg hm]
    exact iff_of_true (Or.inr ⟨h, fun hm' => absurd hm' hm⟩) (Or.inr ⟨h, fun hm' => absurd hm' hm⟩)

/-- The packets that fit the receive buffer: the others are passed over. -/
def fitting (cfg : Config) (fs : List Frame) : List Frame := fs.filter (fun f => decide (f.bytes.length ≤ cfg.recvSize))

/-- The client has read what the packets said. -/
structure Followed (cfg : Config) (said : List (Incoming × List Event)) (d d' : Device) : Prop where
  client : d'.client = said.foldl (fun c x => (umqttHandleReadpacket c x.1).2) d.client
  pushed : d'.pushed = d.pushed ++ (said.map Prod.snd).flatten
  sent : d'.sent = d.sent ++ (said.map (fun x => answersTo cfg.sendSize x.1)).flatten

theorem followed_nil (cfg : Config) (d : Device) : Followed cfg [] d d := ⟨rfl, by simp, by simp⟩

theorem Followed.cons {cfg : Config} {f : Frame} {x : Incoming × List Event} {said : List (Incoming × List Event)}
    {d d' d'' : Device} {r : Stream.Reader} (h : Acted cfg f x.1 x.2 { d with reader := r } d')
    (hs : Followed cfg said d' d'') : Followed cfg (x :: said) d d'' where
  client := by rw [hs.client, h.client, List.foldl_cons]
  pushed := by rw [hs.pushed, h.pushed, List.map_cons, List.flatten_cons, List.append_assoc]
  sent := by rw [hs.sent, h.sent, List.map_cons, List.flatten_cons, List.append_assoc]

theorem rounds_of_stream {cfg : Config} (hle : cfg.timeoutTick.toNat ≤ 0x7FFFFFFF) (hsize : 5 ≤ cfg.recvSize) :
    ∀ {fs : List Frame} {said : List (Incoming × List Event)} {d : Device} {l : List Byte} {rest : List Arrival},
    d.reader.recvBuf.length = cfg.recvSize → content d.reader.arrivals = stream fs ++ l →
    Timely cfg.timeoutTick fs d.reader.arrivals rest →
    List.Forall₂ (fun f x => Says d.client.subRecvList f x.1 x.2) (fitting cfg fs) said →
    (Storable cfg d.qos2MsgList.length ((fitting cfg fs).countP stores) → ∃ d', d.rounds cfg fs.length = some d' ∧
      d'.reader.arrivals = rest ∧ content rest = l ∧ Followed cfg said d d') ∧
    (¬ Storable cfg d.qos2MsgList.length ((fitting cfg fs).countP stores) → d.rounds cfg fs.length = none)
  | [], said, d, l, rest, _, hl, htimely, hmeant => by
    cases hmeant
    cases htimely
    exact ⟨fun _ => ⟨d, rfl, rfl, hl, followed_nil cfg d⟩, fun hn => absurd (Or.inl rfl) hn⟩
  | f :: fs, said, d, l, rest, hbuf, hl, htimely, hmeant => by
    obtain ⟨mid, hin, htimely⟩ := htimely
    rw [stream_cons, List.append_assoc] at hl
    obtain ⟨r, harr, hmid, hlen, hlong, hfits⟩ := round_of_frame hle hsize hbuf hl hin
    subst harr
    rw [List.length_cons, Device.rounds]
    by_cases hfit : f.bytes.length ≤ cfg.recvSize
    · have hcons : fitting cfg (f :: fs) = f :: fitting cfg fs := List.filter_cons_of_pos (decide_eq_true hfit)
      rw [hcons] at hmeant ⊢
      cases hmeant with
      | @cons _ x _ said hx hmeant =>
        obtain ⟨hstuck, hgoes⟩ := hfits hfit x.1 x.2 hx
        by_cases hfull : stores f = true ∧ ¬ d.qos2MsgList.length < PKG_UMQTT_QOS2_QUE_MAX
        · -- the message list is full: a null message is linked
          rw [hstuck hfull, List.countP_cons_of_pos hfull.1]
          exact ⟨fun hs => absurd (hs.resolve_left (Nat.succ_ne_zero _)).1 hfull.2, fun _ => rfl⟩
        · obtain ⟨d', hround, hacted⟩ := hgoes hfull
          have hcount : Storable cfg d.qos2MsgList.length ((f :: fitting cfg fs).countP stores) ↔
              Storable cfg d'.qos2MsgList.length ((fitting cfg fs).countP stores) := by
            rw [hacted.stored]
            cases hf : stores f with
            | false => rw [List.countP_cons_of_neg (by rw [hf]; decide), Bool.false_and, if_neg (by decide), Nat.add_zero]
            | true =>
              rw [List.countP_cons_of_pos hf, Bool.true_and]
              exact storable_succ (not_not.1 (fun hn => hfull ⟨hf, hn⟩)) _
          obtain ⟨hruns, hstops⟩ := rounds_of_stream (d := d') hle hsize (hacted.length.trans hlen)
            (by rw [hacted.arrivals]; exact hmid) (by rw [hacted.arrivals]; exact htimely)
            (by rw [hacted.client, subRecvList_handleReadpacket]; exact hmeant)
          rw [hcount, hround, Option.bind_some]
          refine ⟨fun hs => ?_, hstops⟩
          obtain ⟨d'', hrun, harr', hrest, hfollowed⟩ := hruns hs
          exact ⟨d'', hrun, harr', hrest, hfollowed.cons hacted⟩
    · have hcons : fitting cfg (f :: fs) = fitting cfg fs := List.filter_cons_of_neg (by simpa using hfit)
      rw [hcons] at hmeant ⊢
      obtain ⟨hruns, hstops⟩ := rounds_of_stream (d := { d with reader := r }) hle hsize hlen hmid htimely hmeant
      rw [hlong hfit, Option.bind_some]
      refine ⟨fun hs => ?_, hstops⟩
      obtain ⟨d'', hrun, harr', hrest, hfollowed⟩ := hruns hs
      exact ⟨d'', hrun, harr', hrest, hfollowed.client, hfollowed.pushed, hfollowed.sent⟩

/-- **The thread refines the client**: however the broker's packets are cut, and whatever the callbacks leave in the
buffer, the client reads what the packets that fit say, one after the other; their events are pushed and their answers
sent in their order.  The QoS 2 publications among them have to find a place in the message list: the first that does not
is the end of the run. -/
theorem thread_refines_client {cfg : Config} (hle : cfg.timeoutTick.toNat ≤ 0x7FFFFFFF) (hsize : 5 ≤ cfg.recvSize)
    {fs : List Frame} {said : List (Incoming × List Event)} {d : Device} {l : List Byte} {rest : List Arrival}
    (hbuf : d.reader.recvBuf.length = cfg.recvSize) (hl : content d.reader.arrivals = stream fs ++ l)
    (htimely : Timely cfg.timeoutTick fs d.reader.arrivals rest)
    (hmeant : List.Forall₂ (fun f x => Says d.client.subRecvList f x.1 x.2) (fitting cfg fs) said) :
    (Storable cfg d.qos2MsgList.length ((fitting cfg fs).countP stores) → ∃ d', d.rounds cfg fs.length = some d' ∧
      d'.reader.arrivals = rest ∧ content rest = l ∧ Followed cfg said d d') ∧
    (¬ Storable cfg d.qos2MsgList.length ((fitting cfg fs).countP stores) → d.rounds cfg fs.length = none) :=
  rounds_of_stream hle hsize hbuf hl htimely hmeant

/-- A CONNACK, and a QoS 1 PUBLISH on a topic nobody subscribed to. -/
def greeting : Device where
  client := umqttCreate
  reader := ⟨[⟨.data [0x20, 2, 0, 0, 0x32, 5, 0], 1⟩, ⟨.data [1, 0x74, 0, 7], 30⟩], 0, List.replicate 16 0⟩
  qos2MsgList := []
  pubrecMsg := List.replicate PKG_UMQTT_QOS2_QUE_MAX .free
  pushed := []
  sent := []

theorem thread_refines_client_greeting : ∃ d', greeting.rounds ⟨100, 16, 16, true⟩ 2 = some d' ∧
    d'.client.connectState = .linked ∧ d'.pushed = [] ∧ d'.sent = [[0x40, 2, 0, 7]] := by
  have hmeant : List.Forall₂ (fun f x => Says greeting.client.subRecvList f x.1 x.2)
      (fitting ⟨100, 16, 16, true⟩ [Frame.of 0x20 [0, 0] (by simp), Frame.of 0x32 [0, 1, 0x74, 0, 7] (by simp)])
      [(.connack true, []), (.publish .qos1 7, [])] :=
    .cons (.connack 0 0 rfl rfl) (.cons (.publish [0x74] [] 7 [] rfl (by decide) (by decide) rfl (Or.inl ⟨rfl, rfl⟩)) .nil)
  obtain ⟨d', hrun, -, -, hfollowed⟩ := (@thread_refines_client ⟨100, 16, 16, true⟩ (by decide) (by decide)
    [Frame.of 0x20 [0, 0] (by simp), Frame.of 0x32 [0, 1, 0x74, 0, 7] (by simp)]
    [(.connack true, []), (.publish .qos1 7, [])] greeting [] [] rfl rfl
    ⟨[⟨.data [0x32, 5, 0], 0⟩, ⟨.data [1, 0x74, 0, 7], 30⟩], ⟨0x20, [2, 0, 0, 0x32, 5, 0], 1, _, 0, rfl, rfl, by decide⟩,
      [], ⟨0x32, [5, 0], 0, _, 30, rfl, rfl, by decide⟩, rfl⟩ hmeant).1 (Or.inl rfl)
  exact ⟨d', hrun, by rw [hfollowed.client]; rfl, hfollowed.pushed, hfollowed.sent⟩

end Receive
end Umqtt
end RtPay
