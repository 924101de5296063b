import RtPay.Umqtt.Client
import RtPay.Umqtt.Wire
/-!
# Umqtt.Decode — umqtt_pkgs_decode.c

`umqtt_decode` on what is in the receive buffer: a pointer is an offset into it, and a read past its end is no result.
The bytes behind the packet are those of packets before.  A PUBLISH that `umqtt_encode` wrote is read back; of any other
one the topic lies inside the packet, while the payload's length wraps below zero when there is no room for a packet id
(`publish_inside_iff`).
-/
namespace RtPay
namespace Umqtt
namespace Wire

open Bytes Framed

def UMQTT_FAILED : Int := -1
def UMQTT_DECODE_ERROR : Int := -5

/-! ## Reading the buffer -/

def umqttReadInt (buf : List Byte) (p : Nat) : Option Nat :=
  buf[p]?.bind (fun hi => buf[p + 1]?.map (fun lo => 256 * hi.toNat + lo.toNat))

/-- The loop of `umqtt_pkgs_decode` over `bufchar`: the digits counted and their value.  A fifth digit is counted and
not read. -/
def umqttPkgsDecodeLoop (buf : List Byte) : Nat → Nat → Nat → Nat → Nat → Option (Nat × Nat)
  | 0, _, len, _, value => some (len + 1, value)
  | w + 1, p, len, multiplier, value =>
    match buf[p]? with
    | none => none
    | some c =>
      let value := value + (c &&& 127).toNat * multiplier
      if c &&& 128 ≠ 0 then umqttPkgsDecodeLoop buf w (p + 1) (len + 1) (multiplier * 128) value
      else some (len + 1, value)

def umqttPkgsDecodeBuf (buf : List Byte) (p : Nat) : Option (Nat × Nat) := umqttPkgsDecodeLoop buf 4 p 0 1 0

/-- `umqtt_readlenstring`: the string's length and where it starts, if it ends before `enddata`. -/
def umqttReadlenstring (buf : List Byte) (p enddata : Nat) : Option (Option (Nat × Nat)) :=
  if (enddata : Int) - p > 1 then
    (umqttReadInt buf p).map (fun n => if p + 2 + n ≤ enddata then some (n, p + 2) else none)
  else some none

/-! ## The packets -/

def headerType (header : Byte) : Nat := header.toNat / 16
def headerDup (header : Byte) : Nat := header.toNat / 8 % 2
def headerQos (header : Byte) : Nat := header.toNat / 2 % 4

/-- The header and `struct umqtt_pkgs_publish` as they are filled in; the two pointers are offsets. -/
structure PublishView where
  header : Byte
  topicNameLen : Nat
  topicName : Nat
  packetId : Nat
  payloadLen : UInt32
  payload : Nat
  deriving DecidableEq

inductive Decoded
  | connack (sign retCode : Byte)
  | publish (view : PublishView)
  | puback (packetId : Nat)
  | suback (packetId : Nat) (retQos : List Byte)
  | unsuback (packetId : Nat)
  | nothing (type : Nat)
  deriving DecidableEq

def mqttDeserializePublish (buf : List Byte) : Option (Except Int PublishView) :=
  buf[0]?.bind (fun header =>
    if headerType header ≠ PacketType.publish.value then some (.error UMQTT_DECODE_ERROR)
    else
      (umqttPkgsDecodeBuf buf 1).bind (fun (len, mylen) =>
        let enddata := 1 + len + mylen
        (umqttReadlenstring buf (1 + len) enddata).bind (fun
          | none => some (.error UMQTT_DECODE_ERROR)
          | some (topicNameLen, topicName) =>
            let curdata := topicName + topicNameLen
            if headerQos header > 0 then
              (umqttReadInt buf curdata).map (fun packetId =>
                .ok ⟨header, topicNameLen, topicName, packetId, UInt32.ofInt ((enddata : Int) - (curdata + 2 : Nat)),
                  curdata + 2⟩)
            else some (.ok ⟨header, topicNameLen, topicName, 0, UInt32.ofInt ((enddata : Int) - curdata), curdata⟩))))

def mqttDeserializeAck (buf : List Byte) : Option (Except Int Nat) :=
  buf[0]?.bind (fun _ =>
    (umqttPkgsDecodeBuf buf 1).bind (fun (len, mylen) =>
      if mylen < 2 then some (.error UMQTT_DECODE_ERROR) else (umqttReadInt buf (1 + len)).map .ok))

/-- `umqtt_connack_decode`: a packet without the two bytes leaves the zeros of the message. -/
def umqttConnackDecode (buf : List Byte) : Option (Except Int (Byte × Byte)) :=
  buf[0]?.bind (fun header =>
    if headerType header ≠ PacketType.connack.value then some (.error UMQTT_FAILED)
    else
      (umqttPkgsDecodeBuf buf 1).bind (fun (len, mylen) =>
        if mylen < 2 then some (.ok (0, 0))
        else buf[1 + len]?.bind (fun sign => buf[1 + len + 1]?.map (fun retCode => .ok (sign, retCode)))))

/-- The loop of `umqtt_suback_decode`; a store behind the array is no result. -/
def subackCodes (buf : List Byte) : Nat → Nat → List Byte → Option (Except Int (List Byte))
  | 0, _, retQos => some (.ok retQos)
  | n + 1, p, retQos =>
    if retQos.length > PKG_UMQTT_SUBRECV_DEF_LENGTH then some (.error UMQTT_FAILED)
    else if retQos.length < PKG_UMQTT_SUBRECV_DEF_LENGTH then
      buf[p]?.bind (fun c => subackCodes buf n (p + 1) (retQos ++ [c]))
    else none

def umqttSubackDecode (buf : List Byte) : Option (Except Int (Nat × List Byte)) :=
  buf[0]?.bind (fun header =>
    if headerType header ≠ PacketType.suback.value then some (.error UMQTT_FAILED)
    else
      (umqttPkgsDecodeBuf buf 1).bind (fun (len, mylen) =>
        if mylen < 2 then some (.error UMQTT_DECODE_ERROR)
        else
          (umqttReadInt buf (1 + len)).bind (fun packetId =>
            (subackCodes buf (mylen - 2) (1 + len + 2) []).map (fun
              | .error rc => .error rc
              | .ok retQos => .ok (packetId, retQos)))))

/-- `umqtt_unsuback_decode`: the length is looked for where the header is. -/
def umqttUnsubackDecode (buf : List Byte) : Option (Except Int Nat) :=
  (umqttPkgsDecodeBuf buf 0).bind (fun (len, mylen) =>
    if mylen < 2 then some (.error UMQTT_DECODE_ERROR) else (umqttReadInt buf len).map .ok)

/-- `umqtt_decode`: PUBREC, PUBREL, PUBCOMP and PINGRESP are known by their header alone. -/
def umqttDecode (buf : List Byte) : Option (Except Int Decoded) :=
  buf[0]?.bind (fun header =>
    if headerType header = PacketType.connack.value then
      (umqttConnackDecode buf).map (fun r => r.map (fun x => .connack x.1 x.2))
    else if headerType header = PacketType.publish.value then
      (mqttDeserializePublish buf).map (fun r => r.map .publish)
    else if headerType header = PacketType.puback.value then (mqttDeserializeAck buf).map (fun r => r.map .puback)
    else if headerType header = PacketType.suback.value then
      (umqttSubackDecode buf).map (fun r => r.map (fun x => .suback x.1 x.2))
    else if headerType header = PacketType.unsuback.value then
      (umqttUnsubackDecode buf).map (fun r => r.map .unsuback)
    else some (.ok (.nothing (headerType header))))

/-! ## The length of a frame -/

theorem getElem?_of_drop {buf l : List Byte} {p : Nat} {c : Byte} (h : buf.drop p = c :: l) : buf[p]? = some c := by
  have := congrArg (·[0]?) h
  rwa [List.getElem?_drop] at this

theorem drop_succ_of_drop {buf l : List Byte} {p : Nat} {c : Byte} (h : buf.drop p = c :: l) : buf.drop (p + 1) = l := by
  rw [← List.tail_drop, h]
  rfl

theorem pkgsDecodeLoop_of_digits {buf : List Byte} : ∀ (w p len multiplier value : Nat) (digits rest : List Byte) (n : Nat),
    buf.drop p = digits ++ rest → VarInt.decode w digits = some (n, []) →
    umqttPkgsDecodeLoop buf w p len multiplier value = some (len + digits.length, value + n * multiplier)
  | 0, _, _, _, _, _, _, _, _, hd => by cases hd
  | w + 1, p, len, multiplier, value, [], rest, n, _, hd => by cases hd
  | w + 1, p, len, multiplier, value, c :: digits, rest, n, hbuf, hd => by
    rw [umqttPkgsDecodeLoop, getElem?_of_drop hbuf]
    dsimp only
    simp only [VarInt.decode] at hd
    by_cases hc : c.toNat < 128
    · rw [if_pos hc] at hd
      cases hd
      rw [if_neg (fun h => (VarInt.and_128_ne_zero_iff c).1 h hc), VarInt.toNat_and_127, Nat.mod_eq_of_lt hc]
      rfl
    · rw [if_neg hc] at hd
      obtain ⟨⟨m, r⟩, hm, he⟩ := Option.map_eq_some_iff.1 hd
      cases he
      rw [if_pos ((VarInt.and_128_ne_zero_iff c).2 hc),
        pkgsDecodeLoop_of_digits w _ _ _ _ digits rest m (drop_succ_of_drop hbuf) hm, VarInt.toNat_and_127]
      simp only [List.length_cons, Option.some.injEq, Prod.mk.injEq]
      constructor
      · omega
      · ring

/-- A frame in front of other bytes. -/
theorem pkgsDecodeBuf_of_frame (f : Frame) (stale : List Byte) :
    umqttPkgsDecodeBuf (f.bytes ++ stale) 1 = some (f.digits.length, f.body.length) := by
  have hdrop : (f.bytes ++ stale).drop 1 = f.digits ++ (f.body ++ stale) := by
    simp [Frame.bytes]
  rw [umqttPkgsDecodeBuf, pkgsDecodeLoop_of_digits 4 1 0 1 0 f.digits _ _ hdrop f.length]
  simp

theorem readInt_of_drop {buf l : List Byte} {p : Nat} {hi lo : Byte} (h : buf.drop p = hi :: lo :: l) :
    umqttReadInt buf p = some (256 * hi.toNat + lo.toNat) := by
  rw [umqttReadInt, getElem?_of_drop h, getElem?_of_drop (drop_succ_of_drop h)]
  rfl

/-- Two bytes written are read back. -/
theorem readInt_of_writeInt {buf l : List Byte} {p n : Nat} (hn : n < 65536) (h : buf.drop p = umqttWriteInt n ++ l) :
    umqttReadInt buf p = some n := by
  rw [readInt_of_drop h, UInt8.toNat_ofNat', UInt8.toNat_ofNat']
  congr 1
  omega

/-! ## PUBLISH -/

/-- Where the body of a frame starts. -/
def bodyOffset (f : Frame) : Nat := 1 + f.digits.length

theorem drop_body (f : Frame) (stale : List Byte) (i : Nat) (h : i ≤ f.body.length) :
    (f.bytes ++ stale).drop (bodyOffset f + i) = f.body.drop i ++ stale := by
  have hlen : (f.header :: f.digits).length = bodyOffset f := by
    rw [List.length_cons, bodyOffset]
    omega
  rw [show f.bytes ++ stale = (f.header :: f.digits) ++ (f.body ++ stale) by simp [Frame.bytes], ← hlen,
    ← List.drop_drop, List.drop_left, List.drop_append_of_le_length h]

theorem peek_body (f : Frame) (stale : List Byte) {i n : Nat} (h : i + n ≤ f.body.length) :
    peek (f.bytes ++ stale) (bodyOffset f + i) n = peek f.body i n := by
  rw [peek, peek, drop_body f stale i (by omega), List.take_append_of_le_length (by rw [List.length_drop]; omega)]

/-- A piece of the body, at its place in the buffer. -/
theorem peek_piece {f : Frame} {stale A B C : List Byte} {p n : Nat} (h : f.body = A ++ (B ++ C))
    (hp : p = bodyOffset f + A.length) (hn : n = B.length) : peek (f.bytes ++ stale) p n = B := by
  have hlen : f.body.length = A.length + (B.length + C.length) := by rw [h, List.length_append, List.length_append]
  rw [hp, hn, peek_body f stale (by omega), h, peek, List.drop_left, List.take_left]

/-- What `MQTTDeserialize_publish` makes of a frame with a topic: the payload is what is behind the topic, or behind the
packet id, and its length the difference of two pointers. -/
theorem deserializePublish_of_topic {f : Frame} {stale topic rest : List Byte} {hi lo : Byte}
    (htype : headerType f.header = PacketType.publish.value) (hbody : f.body = hi :: lo :: (topic ++ rest))
    (hlen : topic.length = 256 * hi.toNat + lo.toNat) :
    mqttDeserializePublish (f.bytes ++ stale) =
      if headerQos f.header > 0 then
        (umqttReadInt (f.bytes ++ stale) (bodyOffset f + 2 + topic.length)).map (fun packetId =>
          .ok ⟨f.header, topic.length, bodyOffset f + 2, packetId, UInt32.ofInt ((rest.length : Int) - 2),
            bodyOffset f + 2 + topic.length + 2⟩)
      else some (.ok ⟨f.header, topic.length, bodyOffset f + 2, 0, UInt32.ofInt rest.length,
        bodyOffset f + 2 + topic.length⟩) := by
  have hlength : f.body.length = 2 + topic.length + rest.length := by
    rw [hbody]
    simp only [List.length_cons, List.length_append]
    omega
  have hread : umqttReadInt (f.bytes ++ stale) (bodyOffset f) = some topic.length := by
    have hdrop := drop_body f stale 0 (Nat.zero_le _)
    rw [Nat.add_zero, List.drop_zero, hbody] at hdrop
    rw [readInt_of_drop hdrop, hlen]
  have hhead : (f.bytes ++ stale)[0]? = some f.header := rfl
  have hstring : umqttReadlenstring (f.bytes ++ stale) (bodyOffset f) (bodyOffset f + f.body.length) =
      some (some (topic.length, bodyOffset f + 2)) := by
    unfold umqttReadlenstring
    rw [if_pos (by omega), hread, Option.map_some, if_pos (by omega)]
  unfold mqttDeserializePublish
  rw [hhead, Option.bind_some, if_neg (not_not_intro htype), pkgsDecodeBuf_of_frame, Option.bind_some]
  dsimp only
  rw [show 1 + f.digits.length = bodyOffset f from rfl, hstring, Option.bind_some]
  dsimp only
  have hend : ((bodyOffset f + f.body.length : Nat) : Int) - (bodyOffset f + 2 + topic.length + 2 : Nat) =
      (rest.length : Int) - 2 := by omega
  have hend' : ((bodyOffset f + f.body.length : Nat) : Int) - (bodyOffset f + 2 + topic.length : Nat) = rest.length := by
    omega
  rw [hend, hend']

/-- A PUBLISH that is accepted has a topic. -/
theorem topic_of_deserializePublish {f : Frame} {stale : List Byte} {view : PublishView}
    (h : mqttDeserializePublish (f.bytes ++ stale) = some (.ok view)) :
    headerType f.header = PacketType.publish.value ∧ ∃ hi lo topic rest, f.body = hi :: lo :: (topic ++ rest) ∧
      topic.length = 256 * hi.toNat + lo.toNat := by
  have hhead : (f.bytes ++ stale)[0]? = some f.header := rfl
  unfold mqttDeserializePublish at h
  rw [hhead, Option.bind_some] at h
  split at h
  · cases h
  · rename_i htype
    refine ⟨Classical.not_not.1 htype, ?_⟩
    rw [pkgsDecodeBuf_of_frame, Option.bind_some] at h
    dsimp only at h
    obtain ⟨r, hr, h⟩ := Option.bind_eq_some_iff.1 h
    cases r with
    | none => cases h
    | some r =>
      unfold umqttReadlenstring at hr
      split at hr
      · rename_i htwo
        obtain ⟨hi, lo, body, hbody⟩ : ∃ hi lo body, f.body = hi :: lo :: body := by
          cases hb : f.body with
          | nil =>
            rw [hb, List.length_nil] at htwo
            omega
          | cons hi l =>
            cases l with
            | nil =>
              rw [hb, List.length_singleton] at htwo
              omega
            | cons lo body => exact ⟨hi, lo, body, rfl⟩
        have hdrop := drop_body f stale 0 (Nat.zero_le _)
        rw [Nat.add_zero, List.drop_zero, hbody] at hdrop
        obtain ⟨n, hn, hfit⟩ := Option.map_eq_some_iff.1 hr
        rw [show 1 + f.digits.length = bodyOffset f from rfl, readInt_of_drop hdrop] at hn
        cases hn
        split at hfit
        · rename_i hle
          have hlen : f.body.length = 2 + body.length := by
            rw [hbody]
            simp only [List.length_cons]
            omega
          refine ⟨hi, lo, body.take (256 * hi.toNat + lo.toNat), body.drop (256 * hi.toNat + lo.toNat), ?_, ?_⟩
          · rw [hbody, List.take_append_drop]
          · rw [List.length_take]
            omega
        · cases hfit
      · cases hr

def PublishView.topicBytes (v : PublishView) (buf : List Byte) : List Byte := peek buf v.topicName v.topicNameLen
def PublishView.payloadBytes (v : PublishView) (buf : List Byte) : List Byte := peek buf v.payload v.payloadLen.toNat

theorem decode_publish_iff {f : Frame} {stale : List Byte} {view : PublishView} :
    umqttDecode (f.bytes ++ stale) = some (.ok (.publish view)) ↔
      mqttDeserializePublish (f.bytes ++ stale) = some (.ok view) := by
  have hhead : (f.bytes ++ stale)[0]? = some f.header := rfl
  have hmap : ∀ {α : Type} {o : Option (Except Int α)} {g : α → Decoded}, (∀ a, g a ≠ .publish view) →
      o.map (fun r => r.map g) ≠ some (.ok (.publish view)) := by
    intro α o g hg he
    obtain ⟨r, -, hr⟩ := Option.map_eq_some_iff.1 he
    cases r with
    | error e => cases hr
    | ok a => exact hg a (Except.ok.inj hr)
  have hother : headerType f.header ≠ PacketType.publish.value →
      mqttDeserializePublish (f.bytes ++ stale) ≠ some (.ok view) :=
    fun hne h => hne (topic_of_deserializePublish h).1
  unfold umqttDecode
  rw [hhead, Option.bind_some]
  split_ifs with h1 h2 h3 h4 h5
  · exact iff_of_false (hmap (by simp)) (hother (by rw [h1]; decide))
  · constructor
    · intro h
      obtain ⟨r, hr, he⟩ := Option.map_eq_some_iff.1 h
      cases r with
      | error e => cases he
      | ok v =>
        cases he
        exact hr
    · intro h
      rw [h]
      rfl
  · exact iff_of_false (hmap (by simp)) (hother h2)
  · exact iff_of_false (hmap (by simp)) (hother h2)
  · exact iff_of_false (hmap (by simp)) (hother h2)
  · exact iff_of_false (by simp) (hother h2)

/-- A difference of two pointers as an unsigned number. -/
theorem toNat_ofInt_wrap (z : Int) : ((UInt32.ofInt z).toNat : Int) = z % 2 ^ 32 := by
  simp only [UInt32.ofInt, UInt32.toNat_ofNat']
  omega

theorem toNat_header (type : PacketType) (dup qos : Nat) :
    (header type dup qos).toNat = type.value * 16 + dup % 2 * 8 + qos % 4 * 2 := by
  rw [header, UInt8.toNat_ofNat', Nat.mod_eq_of_lt]
  cases type <;> simp only [PacketType.value] <;> omega

/-- The frame of a sound PUBLISH that `umqtt_encode` accepts. -/
theorem frame_of_publish {sendLen dup qos : Nat} {d : PublishData} {bytes : List Byte} (hsend : sendLen ≤ 128 ^ 4)
    (hm : (Message.publish dup qos d).Sound) (h : umqttEncode sendLen (.publish dup qos d) = .ok bytes) :
    ∃ f : Frame, bytes = f.bytes ∧ f.header = header .publish dup qos ∧ f.body = publishBody qos d := by
  obtain ⟨n, hn, hiff⟩ := publishLength_eq dup hm.2
  rw [umqttEncode, mqttSerializePublish, hn, hiff.2 hm] at h
  have hlt : (publishBody qos d).length < 128 ^ 4 := by
    unfold serialize at h
    split at h
    · cases h
    · have := lt_pkgsLen (publishBody qos d).length
      omega
  rw [serialize_of_length hlt] at h
  split at h
  · cases h
    exact ⟨_, rfl, rfl, rfl⟩
  · cases h

/-- A PUBLISH as MQTT has it is decoded to its parts, each where it lies. -/
theorem decode_of_publish {f : Frame} {stale topic payload : List Byte} {packetId : Nat}
    (htype : headerType f.header = PacketType.publish.value) (htopic : topic.length < 65536) (hid : packetId < 65536)
    (hbody : f.body = umqttWriteInt topic.length ++
      (topic ++ ((if headerQos f.header > 0 then umqttWriteInt packetId else []) ++ payload))) :
    ∃ view, umqttDecode (f.bytes ++ stale) = some (.ok (.publish view)) ∧ view.header = f.header ∧
      view.packetId = (if headerQos f.header > 0 then packetId else 0) ∧ view.topicBytes (f.bytes ++ stale) = topic ∧
      view.payloadBytes (f.bytes ++ stale) = payload ∧ view.topicName + view.topicNameLen ≤ view.payload ∧
      view.payload + view.payloadLen.toNat = f.bytes.length := by
  have hhi : topic.length = 256 * (UInt8.ofNat (topic.length / 256)).toNat + (UInt8.ofNat (topic.length % 256)).toNat := by
    rw [UInt8.toNat_ofNat', UInt8.toNat_ofNat']
    omega
  have hcons : f.body = UInt8.ofNat (topic.length / 256) :: UInt8.ofNat (topic.length % 256) ::
      (topic ++ ((if headerQos f.header > 0 then umqttWriteInt packetId else []) ++ payload)) := hbody
  have hlen : (umqttWriteInt topic.length).length = 2 := rfl
  have hbodylen : f.body.length = 2 + topic.length + ((if headerQos f.header > 0 then 2 else 0) + payload.length) := by
    rw [hbody]
    simp only [List.length_append, length_writeInt, apply_ite List.length, List.length_nil]
    omega
  have hsize : payload.length < 2 ^ 32 := by
    obtain ⟨-, hle, hlt⟩ := f.length_digits
    have hpow : 128 ^ f.digits.length ≤ 128 ^ 4 := Nat.pow_le_pow_right (by decide) hle
    omega
  have hwrap : ∀ z : Int, z = payload.length → UInt32.ofInt z = UInt32.ofNat payload.length := by
    rintro z rfl
    have := toNat_ofInt_wrap payload.length
    refine UInt32.toNat_inj.1 ?_
    rw [UInt32.toNat_ofNat', Nat.mod_eq_of_lt hsize]
    omega
  have hpayloadLen : (UInt32.ofNat payload.length).toNat = payload.length := by
    rw [UInt32.toNat_ofNat', Nat.mod_eq_of_lt hsize]
  refine ⟨⟨f.header, topic.length, bodyOffset f + 2, if headerQos f.header > 0 then packetId else 0,
    UInt32.ofNat payload.length, bodyOffset f + 2 + topic.length + if headerQos f.header > 0 then 2 else 0⟩,
    decode_publish_iff.2 ?_, rfl, rfl, peek_piece hbody (by rw [hlen]) rfl, ?_, Nat.le_add_right _ _, ?_⟩
  · rw [deserializePublish_of_topic htype hcons hhi]
    split_ifs with hpos
    · have hread : umqttReadInt (f.bytes ++ stale) (bodyOffset f + 2 + topic.length) = some packetId := by
        refine readInt_of_writeInt (l := payload ++ stale) hid ?_
        rw [Nat.add_assoc, drop_body f stale (2 + topic.length) (by omega), hbody, if_pos hpos, ← List.drop_drop]
        simp [umqttWriteInt]
      rw [hread, Option.map_some, List.length_append, length_writeInt, hwrap _ (by omega)]
    · rw [List.nil_append, hwrap _ rfl]
      rfl
  · have hp : bodyOffset f + 2 + topic.length + (if headerQos f.header > 0 then 2 else 0) = bodyOffset f +
        (umqttWriteInt topic.length ++ (topic ++ if headerQos f.header > 0 then umqttWriteInt packetId else [])).length := by
      simp only [List.length_append, length_writeInt, apply_ite List.length, List.length_nil]
      split_ifs <;> omega
    refine peek_piece (C := []) ?_ hp hpayloadLen
    rw [hbody]
    simp
  · show bodyOffset f + 2 + topic.length + (if headerQos f.header > 0 then 2 else 0) +
      (UInt32.ofNat payload.length).toNat = f.bytes.length
    rw [hpayloadLen, f.length_bytes, hbodylen, bodyOffset]
    split_ifs <;> omega

/-- **A PUBLISH is read as it was written**, whatever is behind it in the receive buffer. -/
theorem publish_round_trip {sendLen dup qos : Nat} {d : PublishData} {bytes : List Byte} (hqos : qos < 4)
    (hsend : sendLen ≤ 128 ^ 4) (hm : (Message.publish dup qos d).Sound)
    (h : umqttEncode sendLen (.publish dup qos d) = .ok bytes) (stale : List Byte) :
    ∃ view, umqttDecode (bytes ++ stale) = some (.ok (.publish view)) ∧ headerQos view.header = qos ∧
      headerDup view.header = dup % 2 ∧ view.packetId = (if qos > 0 then d.packetId.toNat else 0) ∧
      some (view.topicBytes (bytes ++ stale)) = d.topicName ∧ view.payloadBytes (bytes ++ stale) = d.payload := by
  obtain ⟨f, rfl, hheader, hbody⟩ := frame_of_publish hsend hm h
  obtain ⟨⟨name, hname, hnamelen⟩, -⟩ := hm
  have hshort : name.length < 65536 := by
    rw [← hnamelen]
    exact d.topicNameLen.toNat_lt
  have htype : headerType f.header = PacketType.publish.value := by
    rw [hheader, headerType, toNat_header]
    simp only [PacketType.value]
    omega
  have hq : headerQos f.header = qos := by
    rw [hheader, headerQos, toNat_header]
    simp only [PacketType.value]
    omega
  have hdup : headerDup f.header = dup % 2 := by
    rw [hheader, headerDup, toNat_header]
    simp only [PacketType.value]
    omega
  rw [publishBody, hname, umqttWriteCString, List.append_assoc, List.append_assoc, ← hq] at hbody
  obtain ⟨view, hdecode, hview, hid, htopic, hpayload, -⟩ :=
    @decode_of_publish f stale name d.payload d.packetId.toNat htype hshort d.packetId.toNat_lt hbody
  rw [hq] at hid
  refine ⟨view, hdecode, ?_, ?_, hid, ?_, hpayload⟩
  · rw [hview, hq]
  · rw [hview, hdup]
  · rw [htopic, hname]

theorem publish_round_trip_qos1 : ∃ bytes view,
    umqttEncode 1024 (.publish 1 1 ⟨1, some [0x74], 258, [7, 8], by simp⟩) = .ok bytes ∧
      umqttDecode (bytes ++ [9]) = some (.ok (.publish view)) ∧ view.packetId = 258 := by
  have hsend : umqttEncode 1024 (.publish 1 1 ⟨1, some [0x74], 258, [7, 8], by simp⟩) =
      .ok [0x3A, 7, 0, 1, 0x74, 1, 2, 7, 8] := by decide +kernel
  obtain ⟨view, hview, -, -, hid, -⟩ := @publish_round_trip 1024 1 1 _ _ (by decide) (by decide)
    ⟨⟨[0x74], rfl, rfl⟩, by simp⟩ hsend [9]
  exact ⟨_, view, hsend, hview, hid⟩

/-- **What a PUBLISH makes the callbacks read**: the topic lies in the packet; the payload does exactly when there is no
packet id to read or there are two bytes for it.  Otherwise its length has wrapped to four billion and more. -/
theorem publish_inside_iff {f : Frame} {stale : List Byte} {view : PublishView}
    (h : umqttDecode (f.bytes ++ stale) = some (.ok (.publish view))) :
    view.topicName + view.topicNameLen ≤ f.bytes.length ∧
      (view.payload + view.payloadLen.toNat ≤ f.bytes.length ↔
        headerQos f.header = 0 ∨ view.topicName + view.topicNameLen + 2 ≤ f.bytes.length) ∧
      (¬ view.payload + view.payloadLen.toNat ≤ f.bytes.length → 2 ^ 32 - 2 ≤ view.payloadLen.toNat) := by
  have hview := decode_publish_iff.1 h
  obtain ⟨htype, hi, lo, topic, rest, hbody, hlen⟩ := topic_of_deserializePublish hview
  have hlength : f.body.length = 2 + topic.length + rest.length := by
    rw [hbody]
    simp only [List.length_cons, List.length_append]
    omega
  have hsmall : rest.length < 128 ^ 4 := by
    obtain ⟨-, hle, hlt⟩ := f.length_digits
    have hpow : 128 ^ f.digits.length ≤ 128 ^ 4 := Nat.pow_le_pow_right (by decide) hle
    omega
  have hbytes : f.bytes.length = bodyOffset f + f.body.length := by rw [f.length_bytes, bodyOffset]
  rw [deserializePublish_of_topic htype hbody hlen] at hview
  split_ifs at hview with hq
  · obtain ⟨packetId, -, he⟩ := Option.map_eq_some_iff.1 hview
    cases he
    dsimp only
    by_cases hr : 2 ≤ rest.length
    · have hn : (UInt32.ofInt ((rest.length : Int) - 2)).toNat = rest.length - 2 := by
        have := toNat_ofInt_wrap ((rest.length : Int) - 2)
        omega
      rw [hn]
      omega
    · have hn : (UInt32.ofInt ((rest.length : Int) - 2)).toNat = 2 ^ 32 - 2 + rest.length := by
        have := toNat_ofInt_wrap ((rest.length : Int) - 2)
        omega
      rw [hn]
      omega
  · cases hview
    dsimp only
    have hn : (UInt32.ofInt (rest.length : Int)).toNat = rest.length := by
      have := toNat_ofInt_wrap rest.length
      omega
    rw [hn]
    omega

/-- Without room for its packet id, a PUBLISH gives its callback four billion bytes to read. -/
theorem publish_inside_iff_no_packet_id : ∃ view,
    umqttDecode ((Frame.of (header .publish 0 1) [0, 1, 0x74] (by simp)).bytes ++ [0, 0]) =
      some (.ok (.publish view)) ∧ 2 ^ 32 - 2 ≤ view.payloadLen.toNat := by
  have h := @publish_inside_iff (Frame.of (header .publish 0 1) [0, 1, 0x74] (by simp)) [0, 0]
    ⟨header .publish 0 1, 1, 4, 0, 0xFFFFFFFE, 7⟩ (by decide +kernel)
  exact ⟨_, by decide +kernel, h.2.2 (by decide +kernel)⟩

/-! ## Acknowledgements -/

theorem readInt_body {f : Frame} {l : List Byte} {hi lo : Byte} (h : f.body = hi :: lo :: l) (stale : List Byte) :
    umqttReadInt (f.bytes ++ stale) (bodyOffset f) = some (256 * hi.toNat + lo.toNat) := by
  have hdrop := drop_body f stale 0 (Nat.zero_le _)
  rw [Nat.add_zero, List.drop_zero, h] at hdrop
  exact readInt_of_drop hdrop

/-- With every digit to come a continuation, the digits are counted and one more. -/
theorem pkgsDecodeLoop_of_header {buf : List Byte} : ∀ (w p len multiplier value : Nat) (digits rest : List Byte) (n : Nat),
    buf.drop p = digits ++ rest → VarInt.decode (w + 1) digits = some (n, []) →
    ∃ value', value ≤ value' ∧ umqttPkgsDecodeLoop buf w p len multiplier value = some (len + digits.length, value')
  | 0, p, len, multiplier, value, digits, rest, n, _, hd => by
    obtain ⟨q, hq, hpos, hle, -⟩ := VarInt.decode_some hd
    rw [List.append_nil] at hq
    refine ⟨value, Nat.le_refl _, ?_⟩
    rw [umqttPkgsDecodeLoop, hq, show q.length = 1 by omega]
  | w + 1, p, len, multiplier, value, [], rest, n, _, hd => by cases hd
  | w + 1, p, len, multiplier, value, c :: digits, rest, n, hbuf, hd => by
    rw [umqttPkgsDecodeLoop, getElem?_of_drop hbuf]
    dsimp only
    rw [VarInt.decode] at hd
    by_cases hc : c.toNat < 128
    · rw [if_pos hc] at hd
      cases hd
      rw [if_neg (fun h => (VarInt.and_128_ne_zero_iff c).1 h hc)]
      exact ⟨_, Nat.le_add_right _ _, rfl⟩
    · rw [if_neg hc] at hd
      obtain ⟨⟨m, r⟩, hm, he⟩ := Option.map_eq_some_iff.1 hd
      cases he
      rw [if_pos ((VarInt.and_128_ne_zero_iff c).2 hc)]
      obtain ⟨value', hle, hloop⟩ := pkgsDecodeLoop_of_header w (p + 1) (len + 1) (multiplier * 128)
        (value + (c &&& 127).toNat * multiplier) digits rest m (drop_succ_of_drop hbuf) hm
      refine ⟨value', Nat.le_trans (Nat.le_add_right _ _) hle, ?_⟩
      rw [hloop, List.length_cons]
      congr 2
      omega

/-- **UNSUBACK is decoded right by luck**: the header byte is taken for the first digit of the length, which goes on, so
that the body is found where it is, and a length far above two. -/
theorem unsubackDecode_of_frame {f : Frame} (stale : List Byte) (htype : headerType f.header = PacketType.unsuback.value) :
    umqttUnsubackDecode (f.bytes ++ stale) = (umqttReadInt (f.bytes ++ stale) (bodyOffset f)).map .ok := by
  have hrange : 176 ≤ f.header.toNat ∧ f.header.toNat < 192 := by
    simp only [headerType, PacketType.value] at htype
    omega
  have hdrop : (f.bytes ++ stale).drop 1 = f.digits ++ (f.body ++ stale) := by simp [Frame.bytes]
  obtain ⟨value', hle, hloop⟩ := pkgsDecodeLoop_of_header 3 1 1 128 (0 + (f.header &&& 127).toNat * 1) f.digits _ _ hdrop
    f.length
  have hdecode : umqttPkgsDecodeBuf (f.bytes ++ stale) 0 = some (1 + f.digits.length, value') := by
    have hhead : (f.bytes ++ stale)[0]? = some f.header := rfl
    rw [umqttPkgsDecodeBuf, umqttPkgsDecodeLoop, hhead]
    dsimp only
    rw [if_pos ((VarInt.and_128_ne_zero_iff _).2 (by omega))]
    exact hloop
  rw [VarInt.toNat_and_127] at hle
  rw [umqttUnsubackDecode, hdecode, Option.bind_some]
  dsimp only
  rw [if_neg (by omega)]
  rfl

theorem ackDecode_of_frame {f : Frame} (stale : List Byte) :
    mqttDeserializeAck (f.bytes ++ stale) =
      if f.body.length < 2 then some (.error UMQTT_DECODE_ERROR)
      else (umqttReadInt (f.bytes ++ stale) (bodyOffset f)).map .ok := by
  have hhead : (f.bytes ++ stale)[0]? = some f.header := rfl
  rw [mqttDeserializeAck, hhead, Option.bind_some, pkgsDecodeBuf_of_frame, Option.bind_some]
  rfl

/-- The loop stores as many codes as there are, up to four; the fifth is stored behind the array. -/
theorem subackCodes_eq {buf : List Byte} : ∀ (codes : List Byte) (p : Nat) (retQos rest : List Byte),
    buf.drop p = codes ++ rest → retQos.length ≤ PKG_UMQTT_SUBRECV_DEF_LENGTH →
    subackCodes buf codes.length p retQos =
      if retQos.length + codes.length ≤ PKG_UMQTT_SUBRECV_DEF_LENGTH then some (.ok (retQos ++ codes)) else none
  | [], p, retQos, rest, _, hle => by simp [subackCodes, hle]
  | c :: codes, p, retQos, rest, hbuf, hle => by
    rw [List.length_cons, subackCodes, if_neg (by omega)]
    by_cases hlt : retQos.length < PKG_UMQTT_SUBRECV_DEF_LENGTH
    · have hlen : (retQos ++ [c]).length = retQos.length + 1 := by simp
      rw [if_pos hlt, getElem?_of_drop hbuf, Option.bind_some,
        subackCodes_eq codes (p + 1) (retQos ++ [c]) rest (drop_succ_of_drop hbuf) (by omega), hlen, List.append_assoc]
      simp only [Nat.add_right_comm, ← Nat.add_assoc, List.singleton_append]
    · rw [if_neg hlt, if_neg (by omega)]

theorem subackDecode_of_frame {f : Frame} {hi lo : Byte} {codes : List Byte} (stale : List Byte)
    (htype : headerType f.header = PacketType.suback.value) (hbody : f.body = hi :: lo :: codes) :
    umqttSubackDecode (f.bytes ++ stale) =
      if codes.length ≤ PKG_UMQTT_SUBRECV_DEF_LENGTH then some (.ok (256 * hi.toNat + lo.toNat, codes)) else none := by
  have hhead : (f.bytes ++ stale)[0]? = some f.header := rfl
  have hlen : f.body.length = codes.length + 2 := by rw [hbody]; rfl
  have hdrop : (f.bytes ++ stale).drop (bodyOffset f + 2) = codes ++ stale := by
    rw [drop_body f stale 2 (by omega), hbody]
    rfl
  rw [umqttSubackDecode, hhead, Option.bind_some, if_neg (not_not_intro htype), pkgsDecodeBuf_of_frame, Option.bind_some]
  dsimp only
  rw [show 1 + f.digits.length = bodyOffset f from rfl, if_neg (by omega), readInt_body hbody, Option.bind_some,
    hlen, Nat.add_sub_cancel, subackCodes_eq codes _ [] stale hdrop (Nat.zero_le _)]
  simp only [List.length_nil, Nat.zero_add, List.nil_append]
  split_ifs <;> rfl

theorem decode_puback_eq {f : Frame} (stale : List Byte) (htype : headerType f.header = PacketType.puback.value) :
    umqttDecode (f.bytes ++ stale) = (mqttDeserializeAck (f.bytes ++ stale)).map (fun r => r.map .puback) := by
  have hhead : (f.bytes ++ stale)[0]? = some f.header := rfl
  rw [umqttDecode, hhead, Option.bind_some, htype]
  rfl

theorem decode_suback_eq {f : Frame} (stale : List Byte) (htype : headerType f.header = PacketType.suback.value) :
    umqttDecode (f.bytes ++ stale) =
      (umqttSubackDecode (f.bytes ++ stale)).map (fun r => r.map (fun x => .suback x.1 x.2)) := by
  have hhead : (f.bytes ++ stale)[0]? = some f.header := rfl
  rw [umqttDecode, hhead, Option.bind_some, htype]
  rfl

theorem decode_unsuback_eq {f : Frame} (stale : List Byte) (htype : headerType f.header = PacketType.unsuback.value) :
    umqttDecode (f.bytes ++ stale) = (umqttUnsubackDecode (f.bytes ++ stale)).map (fun r => r.map .unsuback) := by
  have hhead : (f.bytes ++ stale)[0]? = some f.header := rfl
  rw [umqttDecode, hhead, Option.bind_some, htype]
  rfl

section
variable {f : Frame} {hi lo : Byte} {codes : List Byte}

theorem decode_of_puback (stale : List Byte) (htype : headerType f.header = PacketType.puback.value)
    (hbody : f.body = hi :: lo :: codes) :
    umqttDecode (f.bytes ++ stale) = some (.ok (.puback (256 * hi.toNat + lo.toNat))) := by
  have hlen : f.body.length = codes.length + 2 := by rw [hbody]; rfl
  rw [decode_puback_eq stale htype, ackDecode_of_frame, if_neg (by omega), readInt_body hbody]
  rfl

theorem decode_of_suback (stale : List Byte) (htype : headerType f.header = PacketType.suback.value)
    (hbody : f.body = hi :: lo :: codes) : umqttDecode (f.bytes ++ stale) =
      if codes.length ≤ PKG_UMQTT_SUBRECV_DEF_LENGTH then some (.ok (.suback (256 * hi.toNat + lo.toNat) codes))
      else none := by
  rw [decode_suback_eq stale htype, subackDecode_of_frame stale htype hbody]
  split_ifs <;> rfl

theorem decode_of_unsuback (stale : List Byte) (htype : headerType f.header = PacketType.unsuback.value)
    (hbody : f.body = hi :: lo :: codes) :
    umqttDecode (f.bytes ++ stale) = some (.ok (.unsuback (256 * hi.toNat + lo.toNat))) := by
  rw [decode_unsuback_eq stale htype, unsubackDecode_of_frame stale htype, readInt_body hbody]
  rfl

theorem decode_of_connack (stale : List Byte) (htype : headerType f.header = PacketType.connack.value)
    (hbody : f.body = hi :: lo :: codes) : umqttDecode (f.bytes ++ stale) = some (.ok (.connack hi lo)) := by
  have hhead : (f.bytes ++ stale)[0]? = some f.header := rfl
  have hlen : f.body.length = codes.length + 2 := by rw [hbody]; rfl
  have hdrop := drop_body f stale 0 (Nat.zero_le _)
  rw [Nat.add_zero, List.drop_zero, hbody] at hdrop
  rw [umqttDecode, hhead, Option.bind_some, if_pos htype, umqttConnackDecode, hhead, Option.bind_some,
    if_neg (not_not_intro htype), pkgsDecodeBuf_of_frame, Option.bind_some]
  dsimp only
  rw [if_neg (by omega), show 1 + f.digits.length = bodyOffset f from rfl, getElem?_of_drop hdrop,
    getElem?_of_drop (drop_succ_of_drop hdrop)]
  rfl

end

/-- **What an acknowledgement is decoded to**: its packet id, and for a SUBACK its codes, if the array has room for
them.  One too short for a packet id is refused; an UNSUBACK is not, and takes what an earlier packet left. -/
theorem decode_acks (f : Frame) (stale : List Byte) :
    (∀ hi lo codes, f.body = hi :: lo :: codes →
      (headerType f.header = PacketType.puback.value →
        umqttDecode (f.bytes ++ stale) = some (.ok (.puback (256 * hi.toNat + lo.toNat)))) ∧
      (headerType f.header = PacketType.suback.value → umqttDecode (f.bytes ++ stale) =
        if codes.length ≤ PKG_UMQTT_SUBRECV_DEF_LENGTH then some (.ok (.suback (256 * hi.toNat + lo.toNat) codes))
        else none) ∧
      (headerType f.header = PacketType.unsuback.value →
        umqttDecode (f.bytes ++ stale) = some (.ok (.unsuback (256 * hi.toNat + lo.toNat))))) ∧
    (f.body.length < 2 →
      (headerType f.header = PacketType.puback.value ∨ headerType f.header = PacketType.suback.value →
        umqttDecode (f.bytes ++ stale) = some (.error UMQTT_DECODE_ERROR)) ∧
      (headerType f.header = PacketType.unsuback.value → umqttDecode (f.bytes ++ stale) =
        (umqttReadInt (f.bytes ++ stale) (bodyOffset f)).map (fun id => .ok (.unsuback id)))) := by
  refine ⟨fun hi lo codes hbody => ⟨fun h => decode_of_puback stale h hbody, fun h => decode_of_suback stale h hbody,
    fun h => decode_of_unsuback stale h hbody⟩, fun hshort => ⟨fun h => ?_, fun h => ?_⟩⟩
  · rcases h with h | h
    · rw [decode_puback_eq stale h, ackDecode_of_frame, if_pos hshort]
      rfl
    · have hhead : (f.bytes ++ stale)[0]? = some f.header := rfl
      rw [decode_suback_eq stale h, umqttSubackDecode, hhead, Option.bind_some, if_neg (not_not_intro h),
        pkgsDecodeBuf_of_frame, Option.bind_some]
      dsimp only
      rw [if_pos hshort]
      rfl
  · rw [decode_unsuback_eq stale h, unsubackDecode_of_frame stale h, Option.map_map]
    rfl

theorem decode_acks_suback : umqttDecode ((Frame.of (header .suback 0 0) [1, 2, 0, 1] (by simp)).bytes ++ [9]) =
    some (.ok (.suback 258 [0, 1])) :=
  ((decode_acks (Frame.of (header .suback 0 0) [1, 2, 0, 1] (by simp)) [9]).1 1 2 [0, 1] rfl).2.1 (by decide)

end Wire
end Umqtt
end RtPay
