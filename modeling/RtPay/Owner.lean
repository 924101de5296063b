import Mathlib.Data.List.Forall2
import Mathlib.Data.List.Induction
import RtPay.App
import RtPay.Umqtt.Receive
/-!
# Owner — what the owner's commands make of the settings

The owner configures, credits and enables the device by publications.  `Settings` is what they are about, and `obey`
what each is meant to do.  Between the two lie the socket, the decoder, the subscriptions, jsmn and its callbacks, the
event queue and the handlers of app.c: commands written as MQTT and JSON have them, however cut and in whatever layout,
come through all of these in their order (`owner_obeyed`).
-/
namespace RtPay
namespace Owner

open Bytes CStr JsonText Jsmn MqttLink Framed Umqtt Umqtt.Wire Umqtt.Stream Umqtt.Receive

/-! ## Commands -/

inductive Command
  | config (name : List Byte) (price pulses : Nat)
  | credit (balance count : Nat)
  | enable (value : Int)
  deriving DecidableEq

structure Settings where
  price : Nat
  pulses : Nat
  enabled : Int
  deriving DecidableEq

def Settings.obey (s : Settings) : Command → Settings
  | .config _ price pulses => { s with price := price, pulses := pulses }
  | .credit _ _ => s
  | .enable value => { s with enabled := value }

/-- The settings of the device as it starts. -/
def Settings.boot : Settings := ⟨100, 1, 0⟩

def Command.subscription : Command → Subscription
  | config _ _ _ => configSubscription
  | credit _ _ => addCoinsSubscription
  | enable _ => enableSubscription

/-- A payload that writes a command as one flat JSON object, in any order of its members and any layout. -/
inductive Writes : List Byte → Command → Prop
  | config {d : Doc} {name tp tq : List Byte} {price pulses : Nat} (hlen : name.length ≤ MAX_DEVICE_NAME_LEN)
      (hname : ∀ c ∈ name, c ≠ 0 ∧ c ≠ 0x22 ∧ c ≠ 0x5C) (hp : IntText tp price) (hprice : price ≤ 2147483647)
      (hq : IntText tq pulses) (hpulses : pulses ≤ 65535)
      (hd : Serialises d [(text "name", .str name), (text "price", .prim tp), (text "pulses", .prim tq)]) :
      Writes d.text (.config name price pulses)
  | credit {d : Doc} {tb tc : List Byte} {balance count : Nat} (hb : IntText tb balance) (hbalance : balance ≤ 2147483647)
      (hc : IntText tc count) (hcount : count ≤ 65535)
      (hd : Serialises d [(text "balance", .prim tb), (text "count", .prim tc)]) : Writes d.text (.credit balance count)
  | enable {d : Doc} {t : List Byte} {value : Int} (ht : IntText t value) (h1 : intMin ≤ value) (h2 : value ≤ intMax)
      (hd : Serialises d [(text "enable", .prim t)]) : Writes d.text (.enable value)

/-- A packet of the broker: a publication of at most QoS 1 with a command on its topic, or with anything on a topic that is
not the device's; one of QoS 2, whatever it is about, which is never delivered; or a packet that is no publication. -/
inductive Carries : Frame → Option Command → Prop
  | command {f : Frame} {cmd : Command} (payload : List Byte) (packetId : Nat) (hid : packetId < 65536)
      (htype : headerType f.header = PacketType.publish.value) (hqos : headerQos f.header < 2)
      (hbody : f.body = umqttWriteInt cmd.subscription.topicfilter.length ++ (cmd.subscription.topicfilter ++
        ((if headerQos f.header > 0 then umqttWriteInt packetId else []) ++ payload)))
      (hwrites : Writes payload cmd) : Carries f (some cmd)
  | foreign {f : Frame} (topic payload : List Byte) (packetId : Nat) (htopic : topic.length < 65536)
      (hid : packetId < 65536) (htype : headerType f.header = PacketType.publish.value) (hqos : headerQos f.header < 2)
      (hbody : f.body = umqttWriteInt topic.length ++ (topic ++
        ((if headerQos f.header > 0 then umqttWriteInt packetId else []) ++ payload)))
      (hforeign : ∀ x ∈ subscribedTopics, x.topicfilter ≠ topic) : Carries f none
  | held {f : Frame} (topic payload : List Byte) (packetId : Nat) (htopic : topic.length < 65536)
      (hid : packetId < 65536) (htype : headerType f.header = PacketType.publish.value) (hqos : headerQos f.header = 2)
      (hbody : f.body = umqttWriteInt topic.length ++ (topic ++ (umqttWriteInt packetId ++ payload))) : Carries f none
  | other {f : Frame} {i : Incoming} (htype : headerType f.header ≠ PacketType.publish.value)
      (hsaid : ∀ subs, Says subs f i []) : Carries f none

/-- The event that carries a command's values. -/
def Means : Command → Event → Prop
  | .config name price pulses, .config c => c.name = name ++ List.replicate (MAX_DEVICE_NAME_LEN - name.length) 0 ∧
      c.price.toNat = price ∧ c.pulsesPerCredit.toNat = pulses
  | .credit balance count, .credit c => c.balance.toNat = balance ∧ c.count.toNat = count
  | .enable value, .enable e => e.enable.toInt = value
  | _, _ => False

/-! ## From a payload to its event -/

/-- What is behind the payload is not looked at. -/
theorem callback_tail {σ ε : Type} {onKey : σ → List Byte → Nat → List Byte → Nat → Option σ}
    {set : σ → List Byte → List Byte → Option σ} (hr : Reads onKey set) (zero : σ) (event : σ → ε) {d : Doc}
    {fields : List (List Byte × Value)} (hd : Serialises d fields) (hf : ∀ f ∈ fields, FlatField f)
    (hlen : fields.length ≤ 7) (tail tail' : List Byte) :
    mqttCallback onKey zero event d.text tail = mqttCallback onKey zero event d.text tail' := by
  obtain ⟨is, order, hroot, hlists, hperm⟩ := hd.root
  have hforder : ∀ f ∈ order, FlatField f := fun f hm => hf f (hperm.mem_iff.1 hm)
  obtain ⟨-, htokens⟩ := lists_members hlists hforder
  have hwf : d.Wf raw := ⟨hd.before, by rw [hroot]; exact lists_wf hlists hforder, hd.after⟩
  have hroom : (docTokens d).length ≤ MQTT_MAX_JSON_TOKENS := by
    rw [docTokens, hroot, valueTokens, List.length_cons, bodyTokens, htokens, hperm.length_eq]
    unfold MQTT_MAX_JSON_TOKENS
    omega
  rw [mqttCallback_doc hr zero event hwf hroom tail, mqttCallback_doc hr zero event hwf hroom tail']

/-- **A command's payload is its event.** -/
theorem event_of_writes {payload : List Byte} {cmd : Command} (h : Writes payload cmd) :
    ∃ e, Means cmd e ∧ ∀ tail, callbackEvents cmd.subscription.callback payload tail = some [e] := by
  cases h with
  | @config d name tp tq price pulses hlen hname hp hprice hq hpulses hd =>
    obtain ⟨c, hc, hmeans⟩ := decode_config hlen hname hp hprice hq hpulses hd []
    refine ⟨.config c, hmeans, fun tail => (callback_tail reads_config _ _ hd ?_ (by simp) tail []).trans hc⟩
    intro f hm
    simp only [List.mem_cons, List.not_mem_nil, or_false] at hm
    rcases hm with rfl | rfl | rfl
    · exact flatField_str (by decide) hname
    · exact flatField_prim (by decide) hp
    · exact flatField_prim (by decide) hq
  | @credit d tb tc balance count hb hbalance hc hcount hd =>
    obtain ⟨c, hevent, hmeans⟩ := decode_credit hb hbalance hc hcount hd []
    refine ⟨.credit c, hmeans, fun tail => (callback_tail reads_credit _ _ hd ?_ (by simp) tail []).trans hevent⟩
    intro f hm
    simp only [List.mem_cons, List.not_mem_nil, or_false] at hm
    rcases hm with rfl | rfl
    · exact flatField_prim (by decide) hb
    · exact flatField_prim (by decide) hc
  | @enable d t value ht h1 h2 hd =>
    obtain ⟨e, hevent, hmeans⟩ := decode_enable ht h1 h2 hd []
    refine ⟨.enable e, hmeans, fun tail => (callback_tail reads_enable _ _ hd ?_ (by simp) tail []).trans hevent⟩
    intro f hm
    rw [List.mem_singleton.1 hm]
    exact flatField_prim (by decide) ht

/-! ## From a packet to its event -/

theorem deliver_perm {subs : List Subscription} (h : subs.Perm subscribedTopics) (topic : List Byte) :
    (umqttDeliverMessage subs topic).Perm (umqttDeliverMessage subscribedTopics topic) :=
  (h.filter _).map _

theorem deliver_of_command {subs : List Subscription} (h : subs.Perm subscribedTopics) (cmd : Command) :
    umqttDeliverMessage subs cmd.subscription.topicfilter = [cmd.subscription.callback] := by
  have hone : umqttDeliverMessage subscribedTopics cmd.subscription.topicfilter = [cmd.subscription.callback] := by
    rw [deliver_device]
    cases cmd <;> rfl
  have hperm := deliver_perm h cmd.subscription.topicfilter
  rw [hone] at hperm
  exact List.perm_singleton.1 hperm

theorem deliver_of_foreign {subs : List Subscription} (h : subs.Perm subscribedTopics) {topic : List Byte}
    (hforeign : ∀ x ∈ subscribedTopics, x.topicfilter ≠ topic) : umqttDeliverMessage subs topic = [] := by
  have hnone : umqttDeliverMessage subscribedTopics topic = [] := by
    rw [deliver_device, List.filter_eq_nil_iff.2 (fun x hx => by simpa using hforeign x hx), List.map_nil]
  have hperm := deliver_perm h topic
  rw [hnone] at hperm
  exact List.perm_nil.1 hperm

/-- **A packet says its command**, and pushes its event and no other. -/
theorem says_of_carries {subs : List Subscription} (h : subs.Perm subscribedTopics) {f : Frame} {cmd : Option Command}
    (hf : Carries f cmd) : ∃ i evts, Says subs f i evts ∧ List.Forall₂ Means cmd.toList evts := by
  cases hf with
  | @command cmd payload packetId hid htype hqos hbody hwrites =>
    obtain ⟨e, hmeans, hevent⟩ := event_of_writes hwrites
    refine ⟨_, [e], .publish cmd.subscription.topicfilter payload packetId [e] htype ?_ hid hbody ?_, .cons hmeans .nil⟩
    · have hall : ∀ x ∈ subscribedTopics, x.topicfilter.length < 65536 := by decide
      exact hall _ (by cases cmd <;> simp [subscribedTopics, Command.subscription])
    · rw [if_neg (by omega)]
      exact Or.inr ⟨_, deliver_of_command h cmd, hevent⟩
  | foreign topic payload packetId htopic hid htype hqos hbody hforeign =>
    refine ⟨_, [], .publish topic payload packetId [] htype htopic hid hbody ?_, .nil⟩
    rw [if_neg (by omega)]
    exact Or.inl ⟨deliver_of_foreign h hforeign, rfl⟩
  | held topic payload packetId htopic hid htype hqos hbody =>
    refine ⟨_, [], .publish topic payload packetId [] htype htopic hid ?_ (by rw [if_pos hqos]), .nil⟩
    rw [if_pos (by omega)]
    exact hbody
  | other htype hsaid => exact ⟨_, [], hsaid subs, .nil⟩

theorem says_of_all_carry {subs : List Subscription} (h : subs.Perm subscribedTopics) : ∀ {fs : List Frame}
    {cmds : List (Option Command)}, List.Forall₂ Carries fs cmds →
    ∃ said : List (Incoming × List Event), List.Forall₂ (fun f x => Says subs f x.1 x.2) fs said ∧
      List.Forall₂ Means cmds.reduceOption (said.map Prod.snd).flatten
  | [], [], .nil => ⟨[], .nil, .nil⟩
  | f :: fs, cmd :: cmds, .cons hf hfs => by
    obtain ⟨i, evts, hmeant, hmeans⟩ := says_of_carries h hf
    obtain ⟨said, hsaid, hall⟩ := says_of_all_carry h hfs
    refine ⟨(i, evts) :: said, .cons hmeant hsaid, ?_⟩
    rw [List.map_cons, List.flatten_cons]
    cases cmd with
    | none =>
      cases hmeans
      exact hall
    | some cmd => exact List.rel_append hmeans hall

/-! ## From the events to the settings -/

def settingsOf (c : SystemConfig) : Settings := ⟨c.price.toNat, c.pulsesPerCredit.toNat, c.enabled.toInt⟩

/-- The events that come from the owner. -/
def fromOwner : Event → Bool
  | .config _ => true
  | .credit _ => true
  | .enable _ => true
  | _ => false

theorem settings_of_means (s : App) {cmd : Command} {e : Event} (h : Means cmd e) :
    settingsOf (appStep s e).sysCfg = (settingsOf s.sysCfg).obey cmd ∧ fromOwner e = true := by
  cases cmd with
  | config name price pulses =>
    cases e with
    | config c =>
      obtain ⟨-, hprice, hpulses⟩ := h
      refine ⟨?_, rfl⟩
      rw [appStep, App.sysCfg_onConfigEvent]
      simp only [settingsOf, Settings.obey, hprice, UInt16.toNat_toUInt32, hpulses]
    | _ => exact absurd h id
  | credit balance count =>
    cases e with
    | credit c =>
      refine ⟨?_, rfl⟩
      rw [appStep, App.sysCfg_onCreditEvent]
      rfl
    | _ => exact absurd h id
  | enable value =>
    cases e with
    | enable evt =>
      refine ⟨?_, rfl⟩
      rw [appStep, App.sysCfg_onEnableEvent]
      simp only [settingsOf, Settings.obey, show evt.enable.toInt = value from h]
    | _ => exact absurd h id

theorem settings_of_others (s : App) {e : Event} (h : fromOwner e = false) : (appStep s e).sysCfg = s.sysCfg := by
  cases e with
  | config c => cases h
  | credit c => cases h
  | enable c => cases h
  | mqtt evt => rw [appStep, App.sysCfg_onMqttEvent]
  | undefined => rfl
  | card evt => rfl

/-- **The settings are the commands'**, in the order of their events, whatever other events come between. -/
theorem settings_of_appLoop {all : List Event} {cmds : List Command} (h : List.Forall₂ Means cmds (all.filter fromOwner)) :
    settingsOf (appLoop all).sysCfg = cmds.foldl Settings.obey Settings.boot := by
  induction all using List.reverseRecOn generalizing cmds with
  | nil =>
    cases h
    rw [appLoop, List.foldl_nil, App.sysCfg_startMessage]
    rfl
  | append_singleton all e ih =>
    rw [appLoop_concat]
    rw [List.filter_append] at h
    cases he : fromOwner e with
    | false =>
      rw [List.filter_cons_of_neg (by rw [he]; decide), List.filter_nil, List.append_nil] at h
      rw [settings_of_others _ he, ih h]
    | true =>
      rw [List.filter_cons_of_pos he, List.filter_nil] at h
      obtain ⟨before, last, hbefore, hlast, rfl⟩ : ∃ before last, List.Forall₂ Means before (all.filter fromOwner) ∧
          List.Forall₂ Means last [e] ∧ cmds = before ++ last :=
        ⟨_, _, List.forall₂_take_append _ _ _ h, List.forall₂_drop_append _ _ _ h, (List.take_append_drop _ _).symm⟩
      obtain ⟨cmd, rest, hcmd, hrest, rfl⟩ := List.forall₂_cons_right_iff.1 hlast
      cases hrest
      rw [List.foldl_append, ← ih hbefore]
      exact (settings_of_means _ hcmd).1

/-! ## From the socket to the settings -/

/-- **The owner is obeyed**: commands published on the device's topics, in any JSON layout, at QoS 0 or 1, among any
other packets of the broker, and cut on their way in any way that keeps each packet within the receive timeout, make the
thread push one event a command.  When `app_loop` has read these, in their order and among any events of the card reader
and the connection, the settings are what the commands make of them.  Packets that do not fit the buffer are passed over;
a QoS 2 publication pushes nothing, and has to find a place in the message list. -/
theorem owner_obeyed {cfg : Config} (hle : cfg.timeoutTick.toNat ≤ 0x7FFFFFFF) (hsize : 5 ≤ cfg.recvSize) {fs : List Frame}
    {cmds : List (Option Command)} {d : Device} {l : List Byte} {rest : List Arrival}
    (hsubs : d.client.subRecvList.Perm subscribedTopics) (hbuf : d.reader.recvBuf.length = cfg.recvSize)
    (hl : content d.reader.arrivals = stream fs ++ l) (htimely : Timely cfg.timeoutTick fs d.reader.arrivals rest)
    (hcarry : List.Forall₂ Carries (fitting cfg fs) cmds)
    (hstorable : Storable cfg d.qos2MsgList.length ((fitting cfg fs).countP stores)) :
    ∃ d' evts, d.rounds cfg fs.length = some d' ∧ d'.pushed = d.pushed ++ evts ∧
      List.Forall₂ Means cmds.reduceOption evts ∧
      ∀ all : List Event, all.filter fromOwner = evts →
        settingsOf (appLoop all).sysCfg = cmds.reduceOption.foldl Settings.obey Settings.boot := by
  obtain ⟨said, hsaid, hmeans⟩ := says_of_all_carry hsubs hcarry
  obtain ⟨d', hrun, -, -, hfollowed⟩ := (rounds_of_stream hle hsize hbuf hl htimely hsaid).1 hstorable
  refine ⟨d', (said.map Prod.snd).flatten, hrun, hfollowed.pushed, hmeans, fun all he => settings_of_appLoop ?_⟩
  rw [he]
  exact hmeans

def enableDoc : Doc := ⟨[], .box .object (.items (.last ⟨[], some (text "enable", [], [])⟩ (.prim (text "1")) [])), []⟩

def enablePacket : Frame :=
  Frame.of 0x32 (umqttWriteInt enableSubscription.topicfilter.length ++
    (enableSubscription.topicfilter ++ (umqttWriteInt 7 ++ enableDoc.text))) (by decide)

/-- The answer to a PINGREQ. -/
def pingrespPacket : Frame := Frame.of 0xD0 [] (by decide)

/-- A PINGRESP and an enable command, cut behind its length. -/
def enabledDevice : Device where
  client := { umqttCreate with subRecvList := subscribedTopics.reverse }
  reader := ⟨[⟨.data (pingrespPacket.bytes ++ enablePacket.bytes.take 2), 5⟩, ⟨.data (enablePacket.bytes.drop 2), 50⟩], 0,
    List.replicate 64 0⟩
  qos2MsgList := []
  pubrecMsg := List.replicate PKG_UMQTT_QOS2_QUE_MAX .free
  pushed := []
  sent := []

theorem owner_obeyed_enable : ∃ d' evts, enabledDevice.rounds ⟨100, 64, 64, true⟩ 2 = some d' ∧ d'.pushed = evts ∧
    ∀ all : List Event, all.filter fromOwner = evts → settingsOf (appLoop all).sysCfg = ⟨100, 1, 1⟩ := by
  have hone : IntText (text "1") 1 := Or.inl ⟨by decide, by decide⟩
  have hwrites : Writes enableDoc.text (.enable 1) := .enable hone (by decide) (by decide)
    ⟨blank_nil, blank_nil, _, _, rfl, ⟨blank_nil, _, ⟨blank_nil, [], [], rfl, blank_nil, blank_nil⟩, rfl⟩, List.Perm.refl _⟩
  obtain ⟨d', evts, hrun, hpushed, -, hsettings⟩ := @owner_obeyed ⟨100, 64, 64, true⟩ (by decide) (by decide)
    [pingrespPacket, enablePacket] [none, some (.enable 1)] enabledDevice [] [] (List.reverse_perm _) rfl (by decide)
    ⟨[⟨.data (enablePacket.bytes.take 2), 0⟩, ⟨.data (enablePacket.bytes.drop 2), 50⟩],
      ⟨0xD0, _, 5, _, 0, rfl, by decide, by decide⟩, [], ⟨0x32, _, 0, _, 50, rfl, by decide, by decide⟩, rfl⟩
    (.cons (.other (by decide) (fun subs => .pingresp (by decide)))
      (.cons (.command enableDoc.text 7 (by decide) (by decide) (by decide) rfl hwrites) .nil)) (Or.inl (by decide))
  exact ⟨d', evts, hrun, hpushed, hsettings⟩

end Owner
end RtPay
