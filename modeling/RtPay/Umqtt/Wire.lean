import RtPay.Lib.Bytes
import RtPay.Lib.Frame
/-!
# Umqtt.Wire — umqtt_internal.c and umqtt_pkgs_encode.c

What `umqtt_encode` writes into the send buffer, as the bytes it writes.  A packet is its header, its length as computed
beforehand and its body; whether it is a frame comes down to whether the two functions that compute the length and write
the body agree (`encode_frame_iff`).
-/
namespace RtPay
namespace Umqtt
namespace Wire

open Bytes Framed

def UMQTT_BUFFER_TOO_SHORT : Int := -9

/-- `enum umqtt_type`, those that are sent or read. -/
inductive PacketType
  | connect
  | connack
  | publish
  | puback
  | pubrec
  | pubrel
  | pubcomp
  | subscribe
  | suback
  | unsubscribe
  | unsuback
  | pingreq
  | pingresp
  | disconnect
  deriving DecidableEq

def PacketType.value : PacketType → Nat
  | connect => 1
  | connack => 2
  | publish => 3
  | puback => 4
  | pubrec => 5
  | pubrel => 6
  | pubcomp => 7
  | subscribe => 8
  | suback => 9
  | unsubscribe => 10
  | unsuback => 11
  | pingreq => 12
  | pingresp => 13
  | disconnect => 14

/-- `MQTTHeader`, its fields cut to their bits. -/
def header (type : PacketType) (dup qos : Nat) : Byte :=
  UInt8.ofNat (type.value * 16 + dup % 2 * 8 + qos % 4 * 2)

/-! ## umqtt_internal.c -/

def umqttWriteInt (anInt : Nat) : List Byte := [UInt8.ofNat (anInt / 256), UInt8.ofNat (anInt % 256)]

/-- `umqtt_writeCString`: a null pointer writes nothing. -/
def umqttWriteCString : Option (List Byte) → List Byte
  | none => []
  | some string => umqttWriteInt string.length ++ string

def umqttWriteMQTTString : Option (List Byte) → List Byte
  | none => umqttWriteInt 0
  | some string => umqttWriteInt string.length ++ string

/-- `MQTTStrlen`. -/
def mqttStrlen : Option (List Byte) → Nat
  | none => 0
  | some string => string.length

/-- The loop of `umqtt_pkgs_encode`; an `int` has at most five digits, and a negative one leaves the loop at once. -/
def umqttPkgsEncodeLoop : Nat → Int → List Byte
  | 0, _ => []
  | w + 1, length =>
    let d := UInt8.ofInt (length.tmod 128)
    let length := length.tdiv 128
    if length > 0 then (d ||| 0x80) :: umqttPkgsEncodeLoop w length else [d]

def umqttPkgsEncode (length : Int) : List Byte := umqttPkgsEncodeLoop 5 length

/-- `umqtt_pkgs_len`: the header byte is added before the length is looked at. -/
def umqttPkgsLen (remLen : Int) : Int :=
  let remLen := remLen + 1
  if remLen < 128 then remLen + 1
  else if remLen < 16384 then remLen + 2
  else if remLen < 2097151 then remLen + 3
  else remLen + 4

/-! ## The packets -/

/-- `struct umqtt_pkgs_connect`; a string is what is in front of its terminator. -/
structure ConnectData where
  protocolLevel : Nat
  connectFlags : Byte
  keepaliveIntervalSec : UInt16
  clientId : Option (List Byte)
  willTopic : Option (List Byte)
  willMessage : Option (List Byte)
  userName : Option (List Byte)
  password : Option (List Byte)

def ConnectData.willFlag (o : ConnectData) : Bool := o.connectFlags.toNat.testBit 2
def ConnectData.passwordFlag (o : ConnectData) : Bool := o.connectFlags.toNat.testBit 6
def ConnectData.usernameFlag (o : ConnectData) : Bool := o.connectFlags.toNat.testBit 7

/-- `struct umqtt_pkgs_publish`, with the payload as its `payload_len` bytes. -/
structure PublishData where
  topicNameLen : UInt16
  topicName : Option (List Byte)
  packetId : UInt16
  payload : List Byte
  size : payload.length < 2 ^ 32

/-- `struct sub_topic_filter` and `struct unsub_topic_filter`. -/
structure TopicFilter where
  topicFilter : Option (List Byte)
  requestQos : Byte

/-- `struct umqtt_pkgs_subscribe` and `struct umqtt_pkgs_unsubscribe`, with the filters up to `topic_count`. -/
structure SubscribeData where
  packetId : UInt16
  topicFilter : List TopicFilter

/-- What `umqtt_encode` is called with, by its type. -/
inductive Message
  | connect (options : ConnectData)
  | publish (dup qos : Nat) (message : PublishData)
  | puback (packetId : UInt16)
  | pubrec (packetId : UInt16)
  | pubrel (dup : Nat) (packetId : UInt16)
  | pubcomp (packetId : UInt16)
  | subscribe (params : SubscribeData)
  | unsubscribe (params : SubscribeData)
  | pingreq
  | disconnect

/-! ## The lengths -/

/-- The wrap of a sum of unsigned numbers that goes into an `int`. -/
def int32 (n : Nat) : Int := Int.bmod n (2 ^ 32)

def mqttSerializeConnectLength (options : ConnectData) : Int :=
  let len := if options.protocolLevel = 3 then 12 else if options.protocolLevel = 4 then 10 else 0
  let len := len + (mqttStrlen options.clientId + 2)
  let len := if options.willFlag then len + (mqttStrlen options.willTopic + 2 + mqttStrlen options.willMessage + 2) else len
  if options.passwordFlag then
    let len := len + (mqttStrlen options.password + 2)
    if options.usernameFlag then (len + (mqttStrlen options.userName + 2) : Nat) else (len : Nat)
  else (len : Nat)

def mqttSerializeSubscribeLength (params : SubscribeData) : Int :=
  if params.topicFilter.length > 0 then
    (2 + (params.topicFilter.map (fun f => 2 + mqttStrlen f.topicFilter + 1)).sum : Nat)
  else 0

def mqttSerializeUnsubscribeLength (params : SubscribeData) : Int :=
  if params.topicFilter.length > 0 then
    (2 + (params.topicFilter.map (fun f => 2 + mqttStrlen f.topicFilter)).sum : Nat)
  else 0

def mqttSerializePublishLength (qos : Nat) (params : PublishData) : Int :=
  let len := int32 (2 + params.topicNameLen.toNat + params.payload.length)
  if qos > 0 then len + 2 else len

/-! ## The bodies -/

def connectBody (options : ConnectData) : List Byte :=
  (if options.protocolLevel = 4 then umqttWriteCString (some (text "MQTT")) ++ [4]
    else umqttWriteCString (some (text "MQIsdp")) ++ [3]) ++
  options.connectFlags :: umqttWriteInt options.keepaliveIntervalSec.toNat ++
  umqttWriteMQTTString options.clientId ++
  (if options.willFlag then umqttWriteMQTTString options.willTopic ++ umqttWriteMQTTString options.willMessage else []) ++
  (if options.usernameFlag then umqttWriteMQTTString options.userName else []) ++
  (if options.passwordFlag then umqttWriteMQTTString options.password else [])

def subscribeBody (params : SubscribeData) : List Byte :=
  umqttWriteInt params.packetId.toNat ++
    (params.topicFilter.map (fun f => umqttWriteMQTTString f.topicFilter ++ [f.requestQos])).flatten

def unsubscribeBody (params : SubscribeData) : List Byte :=
  umqttWriteInt params.packetId.toNat ++ (params.topicFilter.map (fun f => umqttWriteCString f.topicFilter)).flatten

def publishBody (qos : Nat) (message : PublishData) : List Byte :=
  umqttWriteCString message.topicName ++ (if qos > 0 then umqttWriteInt message.packetId.toNat else []) ++ message.payload

/-! ## umqtt_pkgs_encode.c -/

/-- What the serialisers share: the length they were told, checked against the buffer, in front of the body. -/
def serialize (buflen : Int) (head : Byte) (len : Int) (body : List Byte) : Except Int (List Byte) :=
  if umqttPkgsLen len > buflen then .error UMQTT_BUFFER_TOO_SHORT else .ok (head :: (umqttPkgsEncode len ++ body))

def mqttSerializeConnect (buflen : Int) (options : ConnectData) : Except Int (List Byte) :=
  serialize buflen (header .connect 0 0) (mqttSerializeConnectLength options) (connectBody options)

def mqttSerializeZero (buflen : Int) (packettype : PacketType) : Except Int (List Byte) :=
  if buflen < 2 then .error UMQTT_BUFFER_TOO_SHORT else .ok (header packettype 0 0 :: umqttPkgsEncode 0)

def mqttSerializeSubscribe (buflen : Int) (params : SubscribeData) : Except Int (List Byte) :=
  serialize buflen (header .subscribe 0 1) (mqttSerializeSubscribeLength params) (subscribeBody params)

def mqttSerializeUnsubscribe (buflen : Int) (params : SubscribeData) : Except Int (List Byte) :=
  serialize buflen (header .unsubscribe 0 1) (mqttSerializeUnsubscribeLength params) (unsubscribeBody params)

def mqttSerializePublish (buflen : Int) (dup qos : Nat) (message : PublishData) : Except Int (List Byte) :=
  serialize buflen (header .publish dup qos) (mqttSerializePublishLength qos message) (publishBody qos message)

def mqttSerializeAck (buflen : Int) (packettype : PacketType) (dup : Nat) (packetid : UInt16) : Except Int (List Byte) :=
  if buflen < 4 then .error UMQTT_BUFFER_TOO_SHORT
  else .ok (header packettype dup (if packettype = .pubrel then 1 else 0) ::
    (umqttPkgsEncode 2 ++ umqttWriteInt packetid.toNat))

/-- `umqtt_encode`: a PUBREC is not encoded. -/
def umqttEncode (sendLen : Nat) : Message → Except Int (List Byte)
  | .connect options => mqttSerializeConnect sendLen options
  | .publish dup qos message => mqttSerializePublish sendLen dup qos message
  | .puback packetId => mqttSerializeAck sendLen .puback 0 packetId
  | .pubrec _ => .ok []
  | .pubrel dup packetId => mqttSerializeAck sendLen .pubrel dup packetId
  | .pubcomp packetId => mqttSerializeAck sendLen .pubcomp 0 packetId
  | .subscribe params => mqttSerializeSubscribe sendLen params
  | .unsubscribe params => mqttSerializeUnsubscribe sendLen params
  | .pingreq => mqttSerializeZero sendLen .pingreq
  | .disconnect => mqttSerializeZero sendLen .disconnect

/-! ## The length in front -/

theorem toNat_or_128 {n : Nat} (h : n < 128) : (UInt8.ofNat n ||| 0x80) = UInt8.ofNat (n + 128) := by
  have hall : ∀ i : Fin 128, (UInt8.ofNat i.val ||| 0x80) = UInt8.ofNat (i.val + 128) := by decide
  exact hall ⟨n, h⟩

theorem umqttPkgsEncodeLoop_natCast : ∀ (w n : Nat), umqttPkgsEncodeLoop w n = VarInt.encode w n
  | 0, _ => rfl
  | w + 1, n => by
    have hd : UInt8.ofInt ((n : Int).tmod 128) = UInt8.ofNat (n % 128) := by
      have hmod : ((n % 128 : Nat) : Int) % 2 ^ 8 = ((n % 128 : Nat) : Int) := by omega
      rw [show (n : Int).tmod 128 = ((n % 128 : Nat) : Int) from rfl, UInt8.ofInt, hmod, Int.toNat_natCast]
    have hq : (n : Int).tdiv 128 = ((n / 128 : Nat) : Int) := rfl
    rw [umqttPkgsEncodeLoop, hd, hq, VarInt.encode, umqttPkgsEncodeLoop_natCast w (n / 128),
      toNat_or_128 (Nat.mod_lt n (by decide))]
    by_cases hn : n < 128
    · rw [if_neg (by omega), if_pos hn, Nat.mod_eq_of_lt hn]
    · rw [if_pos (by omega), if_neg hn]

/-- `umqtt_pkgs_encode` writes the fewest digits. -/
theorem umqttPkgsEncode_natCast {n : Nat} (h : n < 128 ^ 4) : umqttPkgsEncode n = VarInt.encode 4 n := by
  rw [umqttPkgsEncode, umqttPkgsEncodeLoop_natCast]
  exact VarInt.encode_of_le h (by decide) (by decide)

/-- The lengths at which `umqtt_pkgs_len` counts a digit too many. -/
def Overcounted (n : Nat) : Prop := n = 127 ∨ n = 16383 ∨ n = 2097150 ∨ n = 2097151

instance (n : Nat) : Decidable (Overcounted n) := inferInstanceAs (Decidable (_ ∨ _))

theorem length_encode {n : Nat} (h : n < 128 ^ 4) : (VarInt.encode 4 n).length =
    if n < 128 then 1 else if n < 16384 then 2 else if n < 2097152 then 3 else 4 := by
  have hle : ∀ k, 0 < k → n < 128 ^ k → (VarInt.encode 4 n).length ≤ k := fun k hk => VarInt.length_encode_le hk
  have hlt : ∀ k, k < 4 → 128 ^ k ≤ n → k < (VarInt.encode 4 n).length := fun k hk => VarInt.lt_length_encode hk
  have h0 := VarInt.length_encode_pos (by decide : 0 < 4) n
  split_ifs with h1 h2 h3
  · have := hle 1 (by decide) (by omega)
    omega
  · have := hle 2 (by decide) (by omega)
    have := hlt 1 (by decide) (by omega)
    omega
  · have := hle 3 (by decide) (by omega)
    have := hlt 2 (by decide) (by omega)
    omega
  · have := hle 4 (by decide) h
    have := hlt 3 (by decide) (by omega)
    omega

/-- **The length `umqtt_pkgs_len` checks** is that of the packet, but for four lengths, where it is one more. -/
theorem pkgsLen_exact {n : Nat} (h : n < 128 ^ 4) :
    umqttPkgsLen n = 1 + (umqttPkgsEncode n).length + n + if Overcounted n then 1 else 0 := by
  rw [umqttPkgsEncode_natCast h, length_encode h]
  unfold umqttPkgsLen Overcounted
  dsimp only
  split_ifs <;> push_cast <;> omega

/-- The length of what is written, as far as it is not negative, is below what was checked. -/
theorem lt_pkgsLen (n : Int) : n + 1 < umqttPkgsLen n := by
  unfold umqttPkgsLen
  dsimp only
  split_ifs <;> omega

/-! ## Frames -/

/-- A body is in a frame as long as the length in front of it. -/
theorem frame_iff {head : Byte} {n : Nat} {body : List Byte} (h : n < 128 ^ 4) :
    (∃ f : Frame, head :: (umqttPkgsEncode n ++ body) = f.bytes) ↔ n = body.length := by
  rw [umqttPkgsEncode_natCast h]
  constructor
  · rintro ⟨f, hf⟩
    have htail : VarInt.encode 4 n ++ body = f.digits ++ f.body := (List.cons.inj hf).2
    have hd := VarInt.decode_encode (by decide) h body
    rw [htail, f.decode_digits, Option.some.injEq, Prod.mk.injEq] at hd
    rw [← hd.1, hd.2]
  · rintro rfl
    exact ⟨Frame.of head body h, rfl⟩

/-- What is longer than any frame is none. -/
theorem not_frame_of_long {head : Byte} {digits body : List Byte} (h : 128 ^ 4 + 4 ≤ body.length) :
    ¬ ∃ f : Frame, head :: (digits ++ body) = f.bytes := by
  rintro ⟨f, hf⟩
  have hlen := congrArg List.length hf
  rw [f.length_bytes, List.length_cons, List.length_append] at hlen
  obtain ⟨-, hle, hlt⟩ := f.length_digits
  have hpow : 128 ^ f.digits.length ≤ 128 ^ 4 := Nat.pow_le_pow_right (by decide) hle
  omega

/-- What `serialize` lets through is a frame exactly when it was told its length; then it has the fewest digits and fits
the buffer. -/
theorem serialize_frame_iff {sendLen n : Nat} {head : Byte} {body bytes : List Byte} (hsend : sendLen ≤ 128 ^ 4)
    (h : serialize sendLen head n body = .ok bytes) :
    ((∃ f : Frame, bytes = f.bytes) ↔ n = body.length) ∧
      (n = body.length → ∃ hlen, bytes = (Frame.of head body hlen).bytes ∧ bytes.length ≤ sendLen) := by
  unfold serialize at h
  split at h
  · cases h
  · rename_i hle
    cases h
    have hlt := lt_pkgsLen n
    have hn : n < 128 ^ 4 := by omega
    refine ⟨frame_iff hn, fun he => ?_⟩
    subst he
    refine ⟨hn, by rw [umqttPkgsEncode_natCast hn]; rfl, ?_⟩
    rw [pkgsLen_exact hn] at hle
    rw [List.length_cons, List.length_append]
    split_ifs at hle <;> omega

/-! ## Bodies as long as they were said to be -/

@[simp] theorem length_writeInt (n : Nat) : (umqttWriteInt n).length = 2 := rfl

@[simp] theorem length_writeMQTTString (o : Option (List Byte)) : (umqttWriteMQTTString o).length = 2 + mqttStrlen o := by
  cases o <;> simp [umqttWriteMQTTString, mqttStrlen]

theorem length_writeCString (o : Option (List Byte)) :
    (umqttWriteCString o).length = if o = none then 0 else 2 + mqttStrlen o := by
  cases o <;> simp [umqttWriteCString, mqttStrlen]

/-- **When a message is sound**: the function that computes its length and the one that writes it agree.  A user name
without a password is written and not counted; another protocol level is not counted; a list without filters is not
counted and its packet id written; a filter without a string to unsubscribe from is counted and not written. -/
def Message.Sound : Message → Prop
  | .connect o => (o.protocolLevel = 3 ∨ o.protocolLevel = 4) ∧ (o.usernameFlag → o.passwordFlag)
  | .publish _ qos d => (∃ name, d.topicName = some name ∧ d.topicNameLen.toNat = name.length) ∧
      2 + d.topicNameLen.toNat + d.payload.length + (if qos > 0 then 2 else 0) < 2 ^ 31
  | .subscribe p => p.topicFilter ≠ []
  | .unsubscribe p => p.topicFilter ≠ [] ∧ ∀ f ∈ p.topicFilter, f.topicFilter ≠ none
  | _ => True

/-- The length as it is computed beforehand. -/
theorem connectLength_eq (o : ConnectData) :
    ∃ n : Nat, mqttSerializeConnectLength o = n ∧ (n = (connectBody o).length ↔ (Message.connect o).Sound) := by
  have hMQTT : (text "MQTT").length = 4 := by decide
  have hMQIsdp : (text "MQIsdp").length = 6 := by decide
  unfold mqttSerializeConnectLength connectBody Message.Sound
  dsimp only
  cases hu : o.usernameFlag <;> cases hp : o.passwordFlag
  all_goals
    refine ⟨_, rfl, ?_⟩
    simp only [Bool.false_eq_true, if_true, if_false, List.length_append, List.length_cons, length_writeInt,
      length_writeMQTTString, apply_ite List.length, length_writeCString, mqttStrlen, hMQTT, hMQIsdp, List.length_nil,
      reduceCtorEq]
    split_ifs <;> simp_all <;> omega

theorem length_flatten_filters (w : TopicFilter → List Byte) (n : TopicFilter → Nat) (l : List TopicFilter)
    (h : ∀ f ∈ l, (w f).length = n f) : ((l.map w).flatten).length = (l.map n).sum := by
  rw [List.length_flatten, List.map_map]
  congr 1
  exact List.map_congr_left (fun f hf => h f hf)

theorem subscribeLength_eq (p : SubscribeData) :
    ∃ n : Nat, mqttSerializeSubscribeLength p = n ∧ (n = (subscribeBody p).length ↔ (Message.subscribe p).Sound) := by
  have hlen : (subscribeBody p).length = 2 + (p.topicFilter.map (fun f => 2 + mqttStrlen f.topicFilter + 1)).sum := by
    unfold subscribeBody
    rw [List.length_append, length_writeInt, length_flatten_filters _ _ _ (fun f _ => ?_)]
    simp
  unfold mqttSerializeSubscribeLength Message.Sound
  rw [hlen]
  split_ifs with h
  · exact ⟨_, rfl, iff_of_true rfl (List.ne_nil_of_length_pos h)⟩
  · refine ⟨0, rfl, iff_of_false (by omega) (fun hne => h (List.length_pos_of_ne_nil hne))⟩

/-- Filters without a string are counted and not written. -/
theorem length_unsubscribeFilters_le (l : List TopicFilter) :
    ((l.map (fun f => umqttWriteCString f.topicFilter)).flatten).length ≤ (l.map (fun f => 2 + mqttStrlen f.topicFilter)).sum ∧
      (((l.map (fun f => umqttWriteCString f.topicFilter)).flatten).length =
        (l.map (fun f => 2 + mqttStrlen f.topicFilter)).sum ↔ ∀ f ∈ l, f.topicFilter ≠ none) := by
  induction l with
  | nil => simp
  | cons f l ih =>
    simp only [List.map_cons, List.flatten_cons, List.length_append, List.sum_cons, length_writeCString,
      List.forall_mem_cons]
    split_ifs with h
    · refine ⟨by omega, iff_of_false (by omega) (fun hf => hf.1 h)⟩
    · refine ⟨by omega, ?_⟩
      rw [Nat.add_left_cancel_iff, ih.2]
      exact (and_iff_right h).symm

theorem unsubscribeLength_eq (p : SubscribeData) :
    ∃ n : Nat, mqttSerializeUnsubscribeLength p = n ∧
      (n = (unsubscribeBody p).length ↔ (Message.unsubscribe p).Sound) := by
  obtain ⟨hle, hiff⟩ := length_unsubscribeFilters_le p.topicFilter
  unfold mqttSerializeUnsubscribeLength unsubscribeBody
  rw [List.length_append, length_writeInt]
  split_ifs with h
  · refine ⟨_, rfl, ?_⟩
    show _ ↔ p.topicFilter ≠ [] ∧ ∀ f ∈ p.topicFilter, f.topicFilter ≠ none
    rw [← hiff, and_iff_right (List.ne_nil_of_length_pos h)]
    omega
  · refine ⟨0, rfl, iff_of_false (by omega) (fun hs => h (List.length_pos_of_ne_nil hs.1))⟩

theorem int32_of_lt {n : Nat} (h : n < 2 ^ 31) : int32 n = n := by
  unfold int32
  rw [Int.bmod_eq_of_le] <;> omega

theorem length_publishBody (qos : Nat) (d : PublishData) : (publishBody qos d).length =
    (if d.topicName = none then 0 else 2 + mqttStrlen d.topicName) + (if qos > 0 then 2 else 0) + d.payload.length := by
  unfold publishBody
  rw [List.length_append, List.length_append, length_writeCString]
  split_ifs <;> simp

/-- A PUBLISH below 2 GiB is counted without a wrap. -/
theorem publishLength_eq (dup : Nat) {qos : Nat} {d : PublishData}
    (h : 2 + d.topicNameLen.toNat + d.payload.length + (if qos > 0 then 2 else 0) < 2 ^ 31) :
    ∃ n : Nat, mqttSerializePublishLength qos d = n ∧
      (n = (publishBody qos d).length ↔ (Message.publish dup qos d).Sound) := by
  unfold mqttSerializePublishLength
  rw [int32_of_lt (by omega), length_publishBody]
  refine ⟨2 + d.topicNameLen.toNat + d.payload.length + (if qos > 0 then 2 else 0), ?_, ?_⟩
  · dsimp only
    split_ifs <;> push_cast <;> omega
  · show _ ↔ (∃ name, d.topicName = some name ∧ d.topicNameLen.toNat = name.length) ∧ _
    rw [and_iff_left h]
    cases hn : d.topicName with
    | none => simp only [if_true]; exact iff_of_false (by omega) (by simp)
    | some name =>
      simp only [reduceCtorEq, if_false, mqttStrlen, Option.some.injEq, exists_eq_left']
      omega

/-! ## What is sent, and when -/

/-- The room a body takes in the send buffer, as it is checked. -/
def room (n : Nat) : Nat := 1 + (VarInt.encode 4 n).length + n + if Overcounted n then 1 else 0

theorem serialize_of_length {sendLen : Nat} {head : Byte} {body : List Byte} (h : body.length < 128 ^ 4) :
    serialize sendLen head body.length body =
      if room body.length ≤ sendLen then .ok (Frame.of head body h).bytes else .error UMQTT_BUFFER_TOO_SHORT := by
  have hlen := pkgsLen_exact h
  rw [umqttPkgsEncode_natCast h] at hlen
  unfold serialize room
  rw [hlen, umqttPkgsEncode_natCast h]
  by_cases hfit : 1 + (VarInt.encode 4 body.length).length + body.length + (if Overcounted body.length then 1 else 0) ≤ sendLen
  · rw [if_pos hfit, if_neg (by split_ifs at hfit ⊢ <;> omega)]
    rfl
  · rw [if_neg hfit, if_pos (by split_ifs at hfit ⊢ <;> omega)]

theorem serializeAck_eq (sendLen : Nat) (type : PacketType) (dup : Nat) (packetId : UInt16)
    (h : (umqttWriteInt packetId.toNat).length < 128 ^ 4) :
    mqttSerializeAck sendLen type dup packetId =
      if room 2 ≤ sendLen then
        .ok (Frame.of (header type dup (if type = .pubrel then 1 else 0)) (umqttWriteInt packetId.toNat) h).bytes
      else .error UMQTT_BUFFER_TOO_SHORT := by
  unfold mqttSerializeAck
  rw [show room 2 = 4 from rfl]
  by_cases hfit : 4 ≤ sendLen
  · rw [if_pos hfit, if_neg (by omega)]
    rfl
  · rw [if_neg hfit, if_pos (by omega)]

theorem serializeZero_eq (sendLen : Nat) (type : PacketType) (h : ([] : List Byte).length < 128 ^ 4) :
    mqttSerializeZero sendLen type =
      if room 0 ≤ sendLen then .ok (Frame.of (header type 0 0) [] h).bytes else .error UMQTT_BUFFER_TOO_SHORT := by
  unfold mqttSerializeZero
  rw [show room 0 = 2 from rfl]
  by_cases hfit : 2 ≤ sendLen
  · rw [if_pos hfit, if_neg (by omega)]
    rfl
  · rw [if_neg hfit, if_pos (by omega)]

/-- A frame that was let in lies in the buffer. -/
theorem fits_of_room {sendLen : Nat} {head : Byte} {body bytes : List Byte} {e : Int} (h : body.length < 128 ^ 4)
    (hs : (if room body.length ≤ sendLen then .ok (Frame.of head body h).bytes else .error e) = Except.ok bytes) :
    bytes = (Frame.of head body h).bytes ∧ bytes.length ≤ sendLen := by
  split at hs
  · rename_i hfit
    cases hs
    refine ⟨rfl, ?_⟩
    unfold room at hfit
    rw [Frame.length_bytes]
    show 1 + (VarInt.encode 4 body.length).length + body.length ≤ sendLen
    omega
  · cases hs

def Message.head : Message → Byte
  | .connect _ => header .connect 0 0
  | .publish dup qos _ => header .publish dup qos
  | .puback _ => header .puback 0 0
  | .pubrec _ => header .pubrec 0 0
  | .pubrel dup _ => header .pubrel dup 1
  | .pubcomp _ => header .pubcomp 0 0
  | .subscribe _ => header .subscribe 0 1
  | .unsubscribe _ => header .unsubscribe 0 1
  | .pingreq => header .pingreq 0 0
  | .disconnect => header .disconnect 0 0

def Message.body : Message → List Byte
  | .connect o => connectBody o
  | .publish _ qos d => publishBody qos d
  | .puback packetId => umqttWriteInt packetId.toNat
  | .pubrec packetId => umqttWriteInt packetId.toNat
  | .pubrel _ packetId => umqttWriteInt packetId.toNat
  | .pubcomp packetId => umqttWriteInt packetId.toNat
  | .subscribe p => subscribeBody p
  | .unsubscribe p => unsubscribeBody p
  | .pingreq => []
  | .disconnect => []

/-- **What `umqtt_encode` makes of a message is one frame exactly when the message is sound**, and then it is the frame of
its header and body with the fewest digits and lies in the send buffer. -/
theorem encode_frame_iff {sendLen : Nat} {m : Message} {bytes : List Byte} (hsend : sendLen ≤ 128 ^ 4)
    (h : umqttEncode sendLen m = .ok bytes) (hne : bytes ≠ []) :
    ((∃ f : Frame, bytes = f.bytes) ↔ m.Sound) ∧
      (m.Sound → ∃ hlen, bytes = (Frame.of m.head m.body hlen).bytes ∧ bytes.length ≤ sendLen) := by
  have hshared : ∀ {len : Int}, (∃ n : Nat, len = n ∧ (n = m.body.length ↔ m.Sound)) →
      serialize sendLen m.head len m.body = .ok bytes → ((∃ f : Frame, bytes = f.bytes) ↔ m.Sound) ∧
        (m.Sound → ∃ hlen, bytes = (Frame.of m.head m.body hlen).bytes ∧ bytes.length ≤ sendLen) := by
    rintro len ⟨n, rfl, hn⟩ hs
    obtain ⟨hiff, hle⟩ := serialize_frame_iff hsend hs
    exact ⟨hiff.trans hn, fun hm => hle (hn.2 hm)⟩
  have hfits : m.Sound → ∀ hlen, bytes = (Frame.of m.head m.body hlen).bytes ∧ bytes.length ≤ sendLen →
      ((∃ f : Frame, bytes = f.bytes) ↔ m.Sound) ∧
        (m.Sound → ∃ hlen, bytes = (Frame.of m.head m.body hlen).bytes ∧ bytes.length ≤ sendLen) :=
    fun hm hlen hf => ⟨iff_of_true ⟨_, hf.1⟩ hm, fun _ => ⟨hlen, hf⟩⟩
  have hzero : ([] : List Byte).length < 128 ^ 4 := by decide
  have hid : ∀ packetId : UInt16, (umqttWriteInt packetId.toNat).length < 128 ^ 4 := by
    intro packetId
    rw [length_writeInt]
    decide
  have hack : ∀ {type dup packetId}, mqttSerializeAck sendLen type dup packetId = .ok bytes →
      bytes = (Frame.of (header type dup (if type = .pubrel then 1 else 0)) _ (hid packetId)).bytes ∧
        bytes.length ≤ sendLen := by
    intro type dup packetId hs
    rw [serializeAck_eq sendLen type dup packetId (hid packetId)] at hs
    exact fits_of_room (hid packetId) hs
  cases m with
  | connect o => exact hshared (connectLength_eq o) h
  | publish dup qos d =>
    by_cases hsmall : 2 + d.topicNameLen.toNat + d.payload.length + (if qos > 0 then 2 else 0) < 2 ^ 31
    · exact hshared (publishLength_eq dup hsmall) h
    · have hnot : ¬ (Message.publish dup qos d).Sound := fun hm => hsmall hm.2
      refine ⟨iff_of_false ?_ hnot, fun hm => absurd hm hnot⟩
      simp only [umqttEncode, mqttSerializePublish, serialize] at h
      split at h
      · cases h
      · cases h
        refine not_frame_of_long ?_
        have := d.topicNameLen.toNat_lt
        rw [length_publishBody]
        split_ifs at hsmall ⊢ <;> omega
  | puback packetId => exact hfits trivial (hid packetId) (hack h)
  | pubrec packetId =>
    cases h
    exact absurd rfl hne
  | pubrel dup packetId => exact hfits trivial (hid packetId) (hack h)
  | pubcomp packetId => exact hfits trivial (hid packetId) (hack h)
  | subscribe p => exact hshared (subscribeLength_eq p) h
  | unsubscribe p => exact hshared (unsubscribeLength_eq p) h
  | pingreq =>
    rw [umqttEncode, serializeZero_eq sendLen .pingreq hzero] at h
    exact hfits trivial hzero (fits_of_room hzero h)
  | disconnect =>
    rw [umqttEncode, serializeZero_eq sendLen .disconnect hzero] at h
    exact hfits trivial hzero (fits_of_room hzero h)

/-- A user name goes out behind a length that left it out. -/
theorem encode_frame_iff_user_name : ∃ bytes,
    umqttEncode 1024 (.connect ⟨4, 0x82, 0xFFFF, none, none, none, some (text "pay"), none⟩) = .ok bytes ∧
      ¬ ∃ f : Frame, bytes = f.bytes := by
  refine ⟨_, rfl, fun h => ?_⟩
  have hm := (@encode_frame_iff 1024
    (.connect ⟨4, 0x82, 0xFFFF, none, none, none, some (text "pay"), none⟩) _ (by decide) rfl (by simp)).1.1 h
  exact absurd hm.2 (by decide)

/-- **A sound message is sent as its frame exactly when it fits**, and is refused as too long otherwise; at the four
lengths it needs a byte more than it has. -/
theorem encode_of_sound {sendLen : Nat} {m : Message} (hm : m.Sound) (hpubrec : ∀ id, m ≠ .pubrec id)
    (h : m.body.length < 128 ^ 4) :
    umqttEncode sendLen m =
      if room m.body.length ≤ sendLen then .ok (Frame.of m.head m.body h).bytes else .error UMQTT_BUFFER_TOO_SHORT := by
  cases m with
  | connect o =>
    obtain ⟨n, hn, hiff⟩ := connectLength_eq o
    rw [umqttEncode, mqttSerializeConnect, hn, hiff.2 hm]
    exact serialize_of_length h
  | publish dup qos d =>
    obtain ⟨n, hn, hiff⟩ := publishLength_eq dup hm.2
    rw [umqttEncode, mqttSerializePublish, hn, hiff.2 hm]
    exact serialize_of_length h
  | puback packetId => exact serializeAck_eq _ _ _ _ h
  | pubrec packetId => exact absurd rfl (hpubrec packetId)
  | pubrel dup packetId => exact serializeAck_eq _ _ _ _ h
  | pubcomp packetId => exact serializeAck_eq _ _ _ _ h
  | subscribe p =>
    obtain ⟨n, hn, hiff⟩ := subscribeLength_eq p
    rw [umqttEncode, mqttSerializeSubscribe, hn, hiff.2 hm]
    exact serialize_of_length h
  | unsubscribe p =>
    obtain ⟨n, hn, hiff⟩ := unsubscribeLength_eq p
    rw [umqttEncode, mqttSerializeUnsubscribe, hn, hiff.2 hm]
    exact serialize_of_length h
  | pingreq => exact serializeZero_eq _ _ h
  | disconnect => exact serializeZero_eq _ _ h

/-- A PUBLISH of 129 bytes does not go into a buffer of 129. -/
theorem encode_of_sound_overcounted :
    umqttEncode 129 (.publish 0 0 ⟨1, some [0x74], 0, List.replicate 124 0, by simp⟩) = .error UMQTT_BUFFER_TOO_SHORT := by
  have hlen : (publishBody 0 ⟨1, some [0x74], 0, List.replicate 124 0, by simp⟩).length = 127 := by
    rw [length_publishBody]
    simp [mqttStrlen]
  have h := @encode_of_sound 129 (.publish 0 0 ⟨1, some [0x74], 0, List.replicate 124 0, by simp⟩)
    ⟨⟨[0x74], rfl, rfl⟩, by simp⟩ (by simp) (by rw [Message.body, hlen]; decide)
  rw [h, if_neg]
  rw [Message.body, hlen]
  decide

end Wire
end Umqtt
end RtPay
