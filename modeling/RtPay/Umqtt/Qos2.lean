import RtPay.Lib.Run
import RtPay.Umqtt.Client
/-!
# Umqtt.Qos2 — the receiver of QoS 2 publications

`umqtt_handle_readpacket` on PUBLISH and PUBREL, and the retry timer, with the message list and the PUBREC slots they
share.  The stored message is handed over when its PUBREL comes, or so it is meant: the test for an empty list is the
wrong way round, so no message is ever delivered, and the list, once taken, is never free again.  A QoS 2 PUBLISH that
finds it taken links a null message, which is no step.
-/
namespace RtPay
namespace Umqtt

open Bytes CStr

def PKG_UMQTT_QOS2_QUE_MAX : Nat := 1

def PKG_UMQTT_RECPUBREC_INTERVAL_TIME : UInt32 := 2 * 1000

/-! ## Delivery -/

def topicnameIsMatched : List Byte → List Byte → Bool
  | [], name => name.isEmpty
  | _ :: _, [] => false
  | f :: filter, n :: name =>
    if n = 0x2F ∧ f ≠ 0x2F then false
    else if f ≠ 0x2B ∧ f ≠ 0x23 ∧ f ≠ n then false
    else if f = 0x2B then topicnameIsMatched filter (name.dropWhile (· ≠ 0x2F))
    else if f = 0x23 then topicnameIsMatched filter []
    else topicnameIsMatched filter name

def umqttDeliverMessage (subRecvList : List Subscription) (topicName : List Byte) : List Callback :=
  (subRecvList.filter (fun x => topicnameIsMatched x.topicfilter topicName)).map Subscription.callback

example : subscribedTopics.map (fun x => umqttDeliverMessage subscribedTopics x.topicfilter) =
    [[.mqttConfigCallback], [.mqttEnableCallback], [.mqttAddCoinsCallback]] := by decide +kernel

/-! ## The receiver -/

/-- `struct umqtt_qos2_msg`; `msg` tells which publication it is a copy of. -/
structure Qos2Msg where
  msg : Nat
  topicName : List Byte
  packetId : Nat
  payload : List Byte
  deriving DecidableEq

/-- `struct umqtt_pubrec_msg`, free when its fields are -1. -/
structure PubrecMsg where
  cnt : Int
  packetId : Int
  nextTick : UInt32
  deriving DecidableEq

def PubrecMsg.free : PubrecMsg := ⟨-1, -1, 0xFFFFFFFF⟩

/-- What the client keeps for QoS 2.  `published` and `answered` are the publications that arrived and those of them
whose PUBREL was answered with PUBCOMP, `delivered` the callbacks called and for which publication, `sent` the packets
sent. -/
structure Receiver where
  subRecvList : List Subscription
  qos2MsgList : List Qos2Msg
  pubrecMsg : List PubrecMsg
  tick : UInt32
  published : List Nat
  answered : List Nat
  delivered : List (Callback × Nat)
  sent : List Packet
  deriving DecidableEq

def Receiver.subscribed : Receiver where
  subRecvList := subscribedTopics.reverse
  qos2MsgList := []
  pubrecMsg := List.replicate PKG_UMQTT_QOS2_QUE_MAX .free
  tick := 0
  published := []
  answered := []
  delivered := []
  sent := []

/-- `add_one_qos2_msg`: with the list full the null `msg` is inserted all the same; without memory nothing is. -/
def addOneQos2Msg (r : Receiver) (m : Qos2Msg) (memory : Bool) : Option Receiver :=
  if r.qos2MsgList.length ≥ PKG_UMQTT_QOS2_QUE_MAX then none
  else if memory then
    some { r with qos2MsgList :=
      { m with topicName := strncpyBytes m.topicName m.topicName.length,
               payload := strncpyBytes m.payload m.payload.length } :: r.qos2MsgList }
  else some r

def deliverAndRemove (r : Receiver) (packetId : Int) : Receiver :=
  match r.qos2MsgList.find? (fun m => (m.packetId : Int) = packetId) with
  | some m =>
    { r with delivered := r.delivered ++ (umqttDeliverMessage r.subRecvList m.topicName).map (fun f => (f, m.msg)),
             qos2MsgList := r.qos2MsgList.erase m }
  | none => r

def rtListIsempty {α : Type} (l : List α) : Int := if l = [] then 1 else 0

/-- `qos2_publish_delete`, its condition as written: `(tmp_ret == rt_list_isempty(..)) == 0` with `tmp_ret` zero. -/
def qos2PublishDelete (r : Receiver) (packetId : Int) : Receiver :=
  let tmpRet : Int := 0
  if (if tmpRet = rtListIsempty r.qos2MsgList then (1 : Int) else 0) = 0 then deliverAndRemove r packetId else r

/-- `add_one_pubrec_msg`: the first free slot. -/
def addOnePubrecMsg (packetId : Nat) (tick : UInt32) : List PubrecMsg → List PubrecMsg
  | [] => []
  | p :: ps =>
    if p.cnt = -1 then ⟨PKG_UMQTT_PUBLISH_RECON_MAX, packetId, tick + PKG_UMQTT_RECPUBREC_INTERVAL_TIME⟩ :: ps
    else p :: addOnePubrecMsg packetId tick ps

def clearOnePubrecMsg (packetId : Int) : List PubrecMsg → List PubrecMsg
  | [] => []
  | p :: ps => if p.packetId = packetId then .free :: ps else p :: clearOnePubrecMsg packetId ps

/-- `pubrec_cycle_callback`, slot by slot; its PUBREC encodes to nothing, so nothing is sent. -/
def pubrecCycleCallback (r : Receiver) : List PubrecMsg → Receiver × List PubrecMsg
  | [] => (r, [])
  | p :: ps =>
    if p.cnt ≠ -1 ∧ p.packetId ≠ -1 ∧ p.nextTick ≠ 0xFFFFFFFF ∧ p.nextTick ≤ r.tick then
      if p.cnt - 1 < 0 then
        let (r', ps') := pubrecCycleCallback (qos2PublishDelete r p.packetId) ps
        (r', .free :: ps')
      else
        let (r', ps') := pubrecCycleCallback r ps
        (r', { p with cnt := p.cnt - 1, nextTick := r.tick + PKG_UMQTT_RECPUBREC_INTERVAL_TIME } :: ps')
    else
      let (r', ps') := pubrecCycleCallback r ps
      (r', p :: ps')

/-! ## What the device handles -/

/-- A QoS 2 PUBLISH on the add-credit topic, first or again; the PUBREL of a publication, with whether the PUBCOMP can
be sent; or ticks going by to the next call of the timer. -/
inductive Input
  | publish (msg packetId : Nat) (payload : List Byte) (memory : Bool)
  | pubrel (msg packetId : Nat) (sends : Bool)
  | timer (ticks : UInt32)
  deriving DecidableEq

/-- The packet id of a PUBREL as `umqtt_decode` leaves it: the zero of `rt_memset`. -/
def decodedPubrelId (_packetId : Nat) : Nat := 0

def receive (r : Receiver) : Input → Option Receiver
  | .publish msg packetId payload memory =>
    (addOneQos2Msg { r with published := r.published ++ [msg] }
        ⟨msg, addCoinsSubscription.topicfilter, packetId, payload⟩ memory).map
      (fun r => { r with pubrecMsg := addOnePubrecMsg packetId r.tick r.pubrecMsg })
  | .pubrel msg packetId sends =>
    let id := decodedPubrelId packetId
    let r := qos2PublishDelete r id
    let r := { r with pubrecMsg := clearOnePubrecMsg id r.pubrecMsg }
    if sends then
      some { r with sent := r.sent ++ [.pubcomp id],
                    answered := if msg ∈ r.published then r.answered ++ [msg] else r.answered }
    else some r
  | .timer ticks =>
    let r := { r with tick := r.tick + ticks }
    let (r', ps) := pubrecCycleCallback r r.pubrecMsg
    some { r' with pubrecMsg := ps }

/-- **Every answered publication reached the credit callback exactly once.** -/
def ExactlyOnce (r : Receiver) : Prop := ∀ m ∈ r.answered, r.delivered.count (.mqttAddCoinsCallback, m) = 1

instance (r : Receiver) : Decidable (ExactlyOnce r) := inferInstanceAs (Decidable (∀ m ∈ r.answered, _))

/-- The guard: the PUBREL of no publication that arrived is answered. -/
def AnswersNone (r : Receiver) : Input → Prop
  | .pubrel msg _ sends => sends = true → msg ∉ r.published
  | _ => True

/-! ## Nothing is delivered -/

/-- **`qos2_publish_delete` does nothing**: it looks for the message in an empty list only. -/
theorem qos2PublishDelete_eq (r : Receiver) (packetId : Int) : qos2PublishDelete r packetId = r := by
  unfold qos2PublishDelete rtListIsempty
  by_cases h : r.qos2MsgList = []
  · simp [h, deliverAndRemove]
  · simp [h]

theorem pubrecCycleCallback_fst (r : Receiver) : ∀ ps : List PubrecMsg, (pubrecCycleCallback r ps).1 = r
  | [] => rfl
  | p :: ps => by
    have ih := pubrecCycleCallback_fst r ps
    unfold pubrecCycleCallback
    split
    · split
      · rw [qos2PublishDelete_eq]; exact ih
      · exact ih
    · exact ih

/-- **What a step can do** to the histories and the message list. -/
theorem receive_cases {r r' : Receiver} {i : Input} (h : receive r i = some r') :
    r'.delivered = r.delivered ∧
    ((∃ msg packetId payload memory, i = .publish msg packetId payload memory ∧ r.qos2MsgList = [] ∧
        r'.published = r.published ++ [msg] ∧ r'.answered = r.answered) ∨
      (∃ msg packetId sends, i = .pubrel msg packetId sends ∧ r'.qos2MsgList = r.qos2MsgList ∧
        r'.published = r.published ∧
        r'.answered = if sends = true ∧ msg ∈ r.published then r.answered ++ [msg] else r.answered) ∨
      (∃ ticks, i = .timer ticks ∧ r'.qos2MsgList = r.qos2MsgList ∧ r'.published = r.published ∧
        r'.answered = r.answered)) := by
  cases i with
  | publish msg packetId payload memory =>
    obtain ⟨q, hq, rfl⟩ := Option.map_eq_some_iff.1 (show Option.map _ _ = some r' from h)
    unfold addOneQos2Msg at hq
    split at hq
    · cases hq
    · rename_i hlen
      have hnil : r.qos2MsgList = [] := by
        have : r.qos2MsgList.length < 1 := Nat.lt_of_not_le hlen
        exact List.eq_nil_of_length_eq_zero (by omega)
      split at hq <;> cases hq <;> exact ⟨rfl, Or.inl ⟨_, _, _, _, rfl, hnil, rfl, rfl⟩⟩
  | pubrel msg packetId sends =>
    simp only [receive, qos2PublishDelete_eq] at h
    cases sends
    · cases h
      exact ⟨rfl, Or.inr (Or.inl ⟨_, _, _, rfl, rfl, rfl, by simp⟩)⟩
    · cases h
      exact ⟨rfl, Or.inr (Or.inl ⟨_, _, _, rfl, rfl, rfl, by simp⟩)⟩
  | timer ticks =>
    simp only [receive, pubrecCycleCallback_fst] at h
    cases h
    exact ⟨rfl, Or.inr (Or.inr ⟨_, rfl, rfl, rfl, rfl⟩)⟩

/-- **No run delivers a message.** -/
theorem delivered_of_run {is : List Input} {r : Receiver} (h : Run.run receive .subscribed is = some r) :
    r.delivered = [] :=
  Run.run_invariant_of_step (P := fun r => r.delivered = []) (fun _ _ _ hr hs => (receive_cases hs).1.trans hr) rfl h

/-- A message once stored stays, and the next publication is no step: it links a null message. -/
theorem receive_publish_of_stored {r : Receiver} (h : r.qos2MsgList ≠ []) (msg packetId : Nat) (payload : List Byte)
    (memory : Bool) : receive r (.publish msg packetId payload memory) = none := by
  cases hr : receive r (.publish msg packetId payload memory) with
  | none => rfl
  | some r' =>
    rcases receive_cases hr with ⟨-, ⟨_, _, _, _, -, hnil, -⟩ | ⟨_, _, _, hi, -⟩ | ⟨_, hi, -⟩⟩
    · exact absurd hnil h
    · cases hi
    · cases hi

/-! ## When each credit arrives exactly once -/

theorem answered_of_answersNone (r : Receiver) (i : Input) (r' : Receiver) (hr : r.answered = [])
    (hg : AnswersNone r i) (h : receive r i = some r') : r'.answered = [] := by
  rcases receive_cases h with ⟨-, ⟨_, _, _, _, -, -, -, ha⟩ | ⟨msg, packetId, sends, rfl, -, -, ha⟩ | ⟨_, -, -, -, ha⟩⟩
  · rw [ha, hr]
  · rw [ha, hr, if_neg]
    rintro ⟨hsends, hmem⟩
    exact hg hsends hmem
  · rw [ha, hr]

/-- **Every answered publication is credited exactly once in every state of a run exactly when the run answers the
PUBREL of none.** -/
theorem exactlyOnce_iff_answersNone (is : List Input) :
    (∀ r, Run.Visits receive .subscribed is r → ExactlyOnce r) ↔ Run.Along receive AnswersNone .subscribed is := by
  constructor
  · intro honce
    by_contra hn
    obtain ⟨pre, i, post, r, rfl, hr, -, hbad⟩ := Run.exists_first_of_not_along hn
    cases i with
    | publish msg packetId payload memory => exact hbad trivial
    | timer ticks => exact hbad trivial
    | pubrel msg packetId sends =>
      simp only [AnswersNone, Classical.not_imp, Classical.not_not] at hbad
      obtain ⟨rfl, hmem⟩ := hbad
      obtain ⟨r', hs⟩ : ∃ r', receive r (.pubrel msg packetId true) = some r' := ⟨_, rfl⟩
      have hrun : Run.run receive .subscribed (pre ++ [.pubrel msg packetId true]) = some r' :=
        Run.run_concat_some.2 ⟨r, hr, hs⟩
      have hans : msg ∈ r'.answered := by
        rcases receive_cases hs with ⟨-, ⟨_, _, _, _, hi, -⟩ | ⟨_, _, _, hi, -, -, ha⟩ | ⟨_, hi, -⟩⟩
        · cases hi
        · cases hi
          rw [ha, if_pos ⟨rfl, hmem⟩]
          simp
        · cases hi
      have hcount := honce r' ⟨_, post, by simp, hrun⟩ msg hans
      rw [delivered_of_run hrun] at hcount
      cases hcount
  · intro hg r hvis m hm
    rw [Run.visits_invariant (P := fun r => r.answered = []) answered_of_answersNone rfl hg hvis] at hm
    cases hm

theorem released_payment_not_credited :
    ∃ r, Run.run receive .subscribed
        [.publish 0 7 (text "\x7b\"balance\":500,\"count\":1\x7d") true, .pubrel 0 7 true] = some r ∧
      r.answered = [0] ∧ r.sent = [.pubcomp 0] ∧ ¬ ExactlyOnce r :=
  ⟨_, rfl, by decide⟩

end Umqtt
end RtPay
