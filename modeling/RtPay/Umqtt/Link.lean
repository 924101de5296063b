import Mathlib.Logic.Relation
import RtPay.Event
import RtPay.Umqtt.Client
import RtPay.Lib.Run
/-!
# Umqtt.Link — the client's four threads and the broker

`main` in `mqtt_link_connect`, the card reader in `mqtt_link_send`, `umqtt_thread` and the uplink timer share one
client, as one labelled step function: a label names a thread and what its next call returns.  The broker is MQTT
3.1.1's: it answers in any order, late or never, and a CONNECT, whose flags ask for a clean session, discards its
subscriptions.  `mqtt_link_connect` returns `RT_TRUE` in the state `Main.connected` and is not called again.  Which of
two waiting threads a message of `msg_queue` goes to, and which thread runs, is left open: the kernel's wait list (first
come, first served) and the priorities allow some of these runs.
-/
namespace RtPay
namespace Umqtt

/-! ## The connection and the broker -/

/-- The connection opened last and the broker's session at its other end; `opened` counts the connections, and
`connacked` tells that an accepting CONNACK was read on this one. -/
structure Net where
  opened : Nat
  up : Bool
  toBroker : List Packet
  toClient : List Incoming
  connacked : Bool
  session : Bool
  subscriptions : List (List Bytes.Byte)
  owed : List Incoming
  deriving DecidableEq

namespace Net

def offline : Net where
  opened := 0
  up := false
  toBroker := []
  toClient := []
  connacked := false
  session := false
  subscriptions := []
  owed := []

/-- `umqtt_trans_connect`: a new connection, on which the broker has seen no CONNECT. -/
def opens (n : Net) : Net where
  opened := n.opened + 1
  up := true
  toBroker := []
  toClient := []
  connacked := false
  session := false
  subscriptions := n.subscriptions
  owed := []

def closes (n : Net) : Net := { n with up := false }

/-- `umqtt_trans_send`: an empty buffer sends nothing, and what is sent on a lost connection is lost. -/
def carries (n : Net) : Option Packet → Net
  | some p => if n.up then { n with toBroker := n.toBroker ++ [p] } else n
  | none => n

def reads (n : Net) (i : Incoming) (rest : List Incoming) : Net :=
  { n with toClient := rest, connacked := n.connacked || i = .connack true }

def skips (n : Net) : Net := { n with toClient := n.toClient.tail }

/-- The broker takes a packet: it closes the connection on any packet before the CONNECT, on a CONNECT it does not
accept and on a second one.  A SUBSCRIBE it does not grant is acknowledged too. -/
def processes (n : Net) (accept : Bool) : Packet → List Packet → Net
  | .connect, rest =>
    if n.session then n.closes
    else if accept then
      { n with toBroker := rest, session := true, subscriptions := [], owed := n.owed ++ [.connack true] }
    else { n with toBroker := rest, up := false, toClient := n.toClient ++ [.connack false] }
  | .subscribe id x, rest =>
    if n.session then
      { n with toBroker := rest, owed := n.owed ++ [.ack ⟨id, .suback⟩],
               subscriptions := if accept then x.topicfilter :: n.subscriptions else n.subscriptions }
    else n.closes
  | .publish id, rest =>
    if n.session then { n with toBroker := rest, owed := n.owed ++ [.ack ⟨id, .puback⟩] } else n.closes
  | .pingreq, rest => if n.session then { n with toBroker := rest, owed := n.owed ++ [.pingresp] } else n.closes
  | .puback _, rest => if n.session then { n with toBroker := rest } else n.closes
  | .pubcomp _, rest => if n.session then { n with toBroker := rest } else n.closes

end Net

/-- What the broker does next: take a packet, send one of the answers it owes, or forward a publication. -/
inductive BrokerEv
  | process (accept : Bool)
  | answer (k : Nat)
  | forward (qos : Qos) (packetId : Nat)
  deriving DecidableEq

def broker (n : Net) : BrokerEv → Option Net
  | .process accept =>
    match n.up, n.toBroker with
    | true, p :: rest => some (n.processes accept p rest)
    | _, _ => none
  | .answer k =>
    match n.up, n.owed[k]? with
    | true, some i => some { n with toClient := n.toClient ++ [i], owed := n.owed.eraseIdx k }
    | _, _ => none
  | .forward qos id =>
    if n.up && n.session then some { n with toClient := n.toClient ++ [.publish qos id] } else none

/-! ## The threads -/

/-- What the call a thread is in comes back with. -/
inductive Ev
  | ok
  | fail
  | recv
  | fin
  | bad
  | take
  | timeout
  deriving DecidableEq

/-- Where a thread is in `umqtt_connect`: at `_reconnect`, before `umqtt_trans_send`, in `umqtt_handle_readpacket`,
before the answer of that, or in the loop that waits for `UMQTT_CS_LINKED`. -/
inductive ConnectPc
  | reconnect
  | send
  | read
  | reply
  | wait
  deriving DecidableEq

inductive ConnectRet
  | goto (pc : ConnectPc)
  | ok
  | failed
  | reconnectFailed
  deriving DecidableEq

def connectRead (n : Net) : Handled × Client → ConnectRet × Client × Net
  | (.done, c) => (.goto .wait, c, n)
  | (.reply, c) => (.goto .reply, c, n)
  | (.failed, c) => (.failed, c.setConnectStatus .disconnect, n)

def umqttConnect (block : Bool) (c : Client) (n : Net) : ConnectPc → Ev → Option (ConnectRet × Client × Net)
  | .reconnect, .ok =>
    if c.reconnectCount + 1 > PKG_UMQTT_INFO_DEF_RECONNECT_MAX_NUM then
      some (.reconnectFailed, { c with reconnectCount := 0, connectState := .disconnect }, n)
    else
      some (.goto .send, { c with reconnectCount := c.reconnectCount + 1, sock := true }.umqttEncode .connect, n.opens)
  | .reconnect, .fail =>
    if c.reconnectCount + 1 > PKG_UMQTT_INFO_DEF_RECONNECT_MAX_NUM then
      some (.reconnectFailed, { c with reconnectCount := 0, connectState := .disconnect }, n)
    else some (.goto .reconnect, { c with reconnectCount := c.reconnectCount + 1, sock := false }, n)
  | .send, .ok =>
    if c.sock then some (if block then .goto .read else .ok, c, n.carries c.sendBuf) else none
  | .send, .fail => some (.failed, c.setConnectStatus .disconnect, n)
  | .read, .recv =>
    match c.sock, n.toClient with
    | true, i :: rest => some (connectRead (n.reads i rest) (umqttHandleReadpacket c i))
    | _, _ => none
  | .read, .fin => some (.goto .reconnect, { c with sock := false }, n.closes)
  | .read, .bad => some (.failed, c.setConnectStatus .disconnect, n.skips)
  | .reply, .ok => if c.sock then some (.goto .wait, c, n.carries c.sendBuf) else none
  | .reply, .fail => some (.failed, c.setConnectStatus .disconnect, n)
  | .wait, .ok => if c.connectState = .linked then some (.ok, c, n) else none
  | .wait, .timeout =>
    if c.connectState = .linked then none else some (.failed, c.setConnectStatus .disconnect, n)
  | _, _ => none

/-- The main thread: in the loop of `main`, in `umqtt_start`, in `umqtt_subscribe` for `sub` with `todo` still to come,
or back in `main` with `RT_TRUE`. -/
inductive Main
  | loop
  | starting (pc : ConnectPc)
  | subscribing (todo : List Subscription)
  | sending (sub : Subscription) (todo : List Subscription)
  | waiting (sub : Subscription) (todo : List Subscription)
  | connected
  deriving DecidableEq

/-- The card reader thread in `umqtt_publish`, with the sends it has timed out on. -/
inductive Reader
  | idle
  | sending (cnt : Nat)
  | waiting (cnt : Nat)
  deriving DecidableEq

/-- `umqtt_thread`: in its read loop, before the answer to a packet, or reconnecting. -/
inductive Thread
  | notStarted
  | reading
  | replying
  | connecting (pc : ConnectPc)
  | quit
  deriving DecidableEq

/-- The timer thread in `umqtt_uplink_timer_callback`. -/
inductive Timer
  | idle
  | pinging
  | connecting (pc : ConnectPc)
  deriving DecidableEq

/-- The system; `pushed` are the events of `mqtt_link_connect`. -/
structure Link where
  main : Main
  reader : Reader
  thread : Thread
  timer : Timer
  client : Client
  net : Net
  pushed : List MqttEvent
  deriving DecidableEq

def Link.boot : Link where
  main := .loop
  reader := .idle
  thread := .notStarted
  timer := .idle
  client := umqttCreate
  net := .offline
  pushed := []

/-- `umqtt_start` after `umqtt_connect`: the thread and the timer are started, on failure the client is deleted. -/
def Link.started (s : Link) : ConnectRet × Client × Net → Link
  | (.goto pc, c, n) => { s with main := .starting pc, client := c, net := n }
  | (.ok, c, n) =>
    { s with main := .subscribing subscribedTopics, thread := .reading, client := { c with timerOn := true }, net := n }
  | (_, c, n) => { s with main := .loop, client := c, net := n, pushed := s.pushed ++ [.connFailed] }

/-- `mqtt_link_connect`, `umqtt_subscribe`'s results ignored. -/
def mqttLinkConnect (s : Link) : Main → Ev → Option Link
  | .loop, .ok =>
    some { s with main := .starting .reconnect, client := umqttCreate.setConnectStatus .linking,
                  pushed := s.pushed ++ [.connecting] }
  | .loop, .fail => some { s with pushed := s.pushed ++ [.connecting, .connFailed] }
  | .starting pc, e => (umqttConnect true s.client s.net pc e).map s.started
  | .subscribing [], .ok => some { s with main := .connected, pushed := s.pushed ++ [.connSuccess] }
  | .subscribing (x :: todo), .ok =>
    match s.client.umqttSubscribe x with
    | some c => some { s with main := .sending x todo, client := c }
    | none => some { s with main := .subscribing todo }
  | .sending x todo, .ok =>
    if s.client.sock then some { s with main := .waiting x todo, net := s.net.carries s.client.sendBuf } else none
  | .sending _ todo, .fail => some { s with main := .subscribing todo }
  | .waiting x todo, .take =>
    match s.client.msgQueue.recv with
    | some (ack, q) =>
      some { s with main := .subscribing todo, client := { s.client with msgQueue := q }.umqttSubscribeAck x ack }
    | none => none
  | .waiting _ todo, .timeout => some { s with main := .subscribing todo }
  | _, _ => none

def Main.hasClient : Main → Bool
  | .loop => false
  | .starting _ => false
  | _ => true

/-- `mqtt_link_send`, that is `umqtt_publish` at QoS 1: any message ends the wait, a timeout sends again. -/
def mqttLinkSend (s : Link) : Reader → Ev → Option Link
  | .idle, .ok =>
    if s.main.hasClient then some { s with reader := .sending 0, client := s.client.umqttPublish } else none
  | .sending cnt, .ok =>
    if s.client.sock then some { s with reader := .waiting cnt, net := s.net.carries s.client.sendBuf } else none
  | .sending _, .fail => some { s with reader := .idle }
  | .waiting _, .take =>
    match s.client.msgQueue.recv with
    | some (_, q) => some { s with reader := .idle, client := { s.client with msgQueue := q } }
    | none => none
  | .waiting cnt, .timeout =>
    some { s with reader := if cnt + 1 ≥ PKG_UMQTT_PUBLISH_RECON_MAX then .idle else .sending (cnt + 1) }
  | _, _ => none

/-- `umqtt_thread` after `umqtt_connect`: only `UMQTT_RECONNECT_FAILED` is looked at. -/
def ConnectRet.thread : ConnectRet → Thread
  | .goto pc => .connecting pc
  | .ok => .reading
  | .failed => .reading
  | .reconnectFailed => .quit

/-- `umqtt_thread`: reading fails when the peer closed, the link dropped or the socket is gone; the reconnection stops
the timer and subscribes to nothing. -/
def umqttThread (s : Link) : Thread → Ev → Option Link
  | .reading, .recv =>
    match s.client.sock, s.net.toClient with
    | true, i :: rest =>
      some { s with thread := if (umqttHandleReadpacket s.client i).1 = .reply then .replying else .reading,
                    client := (umqttHandleReadpacket s.client i).2, net := s.net.reads i rest }
    | _, _ => none
  | .reading, .fin =>
    some { s with thread := .connecting .reconnect, client := { s.client with timerOn := false, sock := false },
                  net := s.net.closes }
  | .reading, .bad => some { s with net := s.net.skips }
  | .replying, .ok => if s.client.sock then some { s with thread := .reading, net := s.net.carries s.client.sendBuf } else none
  | .replying, .fail => some { s with thread := .reading }
  | .connecting pc, e =>
    (umqttConnect true s.client s.net pc e).map (fun r => { s with thread := r.1.thread, client := r.2.1, net := r.2.2 })
  | _, _ => none

/-- The timer's choices: a ping, an unanswered one, the reconnection of an unlinked client, or the call it is in. -/
inductive TimerEv
  | ping
  | missed
  | reconnect
  | call (e : Ev)
  deriving DecidableEq

def ConnectRet.timer : ConnectRet → Timer
  | .goto pc => .connecting pc
  | _ => .idle

/-- `umqtt_keepalive_callback` and `umqtt_reconnect_callback`. -/
def umqttUplinkTimer (s : Link) : Timer → TimerEv → Option Link
  | .idle, .ping =>
    if s.client.timerOn && s.client.connectState = .linked then
      some { s with timer := .pinging, client := s.client.umqttEncode .pingreq }
    else none
  | .idle, .missed =>
    if s.client.timerOn && s.client.connectState = .linked then
      if s.client.keepaliveCount + 1 ≥ PKG_UMQTT_INFO_DEF_KEEPALIVE_MAX_NUM then
        some { s with client := { s.client with keepaliveCount := s.client.keepaliveCount + 1,
                                                connectState := .unlinkLinking, sock := false },
                      net := s.net.closes }
      else
        some { s with timer := .pinging,
                      client := { s.client with keepaliveCount := s.client.keepaliveCount + 1 }.umqttEncode .pingreq }
    else none
  | .idle, .reconnect =>
    if s.client.timerOn && s.client.connectState = .unlinkLinking then
      if s.client.sock then some { s with client := { s.client with sock := false }, net := s.net.closes }
      else if s.client.reconnectCount ≥ PKG_UMQTT_INFO_DEF_RECONNECT_MAX_NUM then
        some { s with thread := .quit, client := { s.client with connectState := .disconnect, timerOn := false } }
      else some { s with timer := .connecting .reconnect, client := { s.client with keepaliveCount := 0 } }
    else none
  | .pinging, .call .ok =>
    if s.client.sock then some { s with timer := .idle, net := s.net.carries s.client.sendBuf } else none
  | .pinging, .call .fail => some { s with timer := .idle }
  | .connecting pc, .call e =>
    (umqttConnect false s.client s.net pc e).map (fun r => { s with timer := r.1.timer, client := r.2.1, net := r.2.2 })
  | _, _ => none

/-! ## One step -/

inductive Label
  | main (e : Ev)
  | reader (e : Ev)
  | thread (e : Ev)
  | timer (e : TimerEv)
  | broker (e : BrokerEv)
  | drop
  deriving DecidableEq

/-- Any thread that waits for a message may take it. -/
def step (s : Link) : Label → Option Link
  | .main e => mqttLinkConnect s s.main e
  | .reader e => mqttLinkSend s s.reader e
  | .thread e => umqttThread s s.thread e
  | .timer e => umqttUplinkTimer s s.timer e
  | .broker e => (broker s.net e).map (fun n => { s with net := n })
  | .drop => some { s with net := s.net.closes }

/-! ## What a step does -/

def Client.Buffers (c : Client) (x : Subscription) : Prop := ∃ id, c.sendBuf = some (.subscribe id x)

/-- **The moves a step is made of**: all of them but what the main thread does to its client. -/
inductive Move : Client × Net → Client × Net → Prop
  | client {c c' : Client} (n : Net) : (∀ x, c'.Buffers x → c.Buffers x) → c'.subRecvList = c.subRecvList →
      Move (c, n) (c', n)
  | carries (c : Client) (n : Net) : Move (c, n) (c, n.carries c.sendBuf)
  | opens (c : Client) (n : Net) : Move (c, n) (c, n.opens)
  | closes (c : Client) (n : Net) : Move (c, n) (c, n.closes)
  | reads {c : Client} {n : Net} {i : Incoming} {rest : List Incoming} : n.toClient = i :: rest →
      Move (c, n) (c, n.reads i rest)
  | skips (c : Client) (n : Net) : Move (c, n) (c, n.skips)
  | broker {c : Client} {n n' : Net} {e : BrokerEv} : broker n e = some n' → Move (c, n) (c, n')

abbrev Moves : Client × Net → Client × Net → Prop := Relation.ReflTransGen Move

theorem Move.same {c c' : Client} (n : Net) (hb : c'.sendBuf = c.sendBuf) (hl : c'.subRecvList = c.subRecvList) :
    Move (c, n) (c', n) := by
  refine .client n (fun x hx => ?_) hl
  unfold Client.Buffers at hx ⊢
  rwa [hb] at hx

theorem Move.encode {c c' : Client} (n : Net) (hb : ∀ id x, c'.sendBuf ≠ some (.subscribe id x))
    (hl : c'.subRecvList = c.subRecvList) : Move (c, n) (c', n) :=
  .client n (fun x ⟨id, hx⟩ => absurd hx (hb id x)) hl

theorem handled_move (c : Client) (n : Net) (i : Incoming) : Move (c, n) ((umqttHandleReadpacket c i).2, n) := by
  cases i with
  | connack a => exact .same n rfl rfl
  | publish qos id =>
    cases qos with
    | qos0 => exact .same n rfl rfl
    | qos1 => exact .encode n (fun _ _ h => by cases h) rfl
    | qos2 => exact .encode n (fun _ _ h => by cases h) rfl
  | pubrel => exact .encode n (fun _ _ h => by cases h) rfl
  | ack msg =>
    rw [umqttHandleReadpacket]
    split <;> exact .same n rfl rfl
  | pingresp => exact .same n rfl rfl

theorem read_moves {c : Client} {n : Net} {i : Incoming} {rest : List Incoming} (h : n.toClient = i :: rest) :
    Moves (c, n) ((umqttHandleReadpacket c i).2, n.reads i rest) :=
  .tail (.single (handled_move c n i)) (.reads h)

theorem connectRead_moves {c : Client} {n : Net} {i : Incoming} {rest : List Incoming} (h : n.toClient = i :: rest) :
    Moves (c, n) (connectRead (n.reads i rest) (umqttHandleReadpacket c i)).2 := by
  have hread := read_moves (c := c) h
  generalize umqttHandleReadpacket c i = r at hread ⊢
  obtain ⟨handled, c'⟩ := r
  cases handled with
  | done => exact hread
  | reply => exact hread
  | failed => exact hread.tail (.same _ rfl rfl)

theorem umqttConnect_moves {block : Bool} {c c' : Client} {n n' : Net} {pc : ConnectPc} {e : Ev} {r : ConnectRet}
    (h : umqttConnect block c n pc e = some (r, c', n')) : Moves (c, n) (c', n') := by
  unfold umqttConnect at h
  split at h
  · split at h
    · cases h; exact .single (.same _ rfl rfl)
    · cases h
      exact .head (.opens c n) (.single (.encode _ (fun _ _ h => by cases h) rfl))
  · split at h <;> cases h <;> exact .single (.same _ rfl rfl)
  · split at h
    · cases h; exact .single (.carries _ _)
    · cases h
  · cases h; exact .single (.same _ rfl rfl)
  · split at h
    · rename_i i rest hsock hrest
      have hr := connectRead_moves (c := c) hrest
      rw [Option.some.inj h] at hr
      exact hr
    · cases h
  · cases h; exact .head (.closes c n) (.single (.same _ rfl rfl))
  · cases h; exact .head (.skips c n) (.single (.same _ rfl rfl))
  · split at h
    · cases h; exact .single (.carries _ _)
    · cases h
  · cases h; exact .single (.same _ rfl rfl)
  · split at h
    · cases h; exact .refl
    · cases h
  · split at h
    · cases h
    · cases h; exact .single (.same _ rfl rfl)
  · cases h

/-- A step of the main thread in `mqtt_link_connect`. -/
inductive MainStep (s : Link) : Ev → Link → Prop
  | connecting : s.main = .loop →
      MainStep s .ok { s with main := .starting .reconnect, client := umqttCreate.setConnectStatus .linking,
                              pushed := s.pushed ++ [.connecting] }
  | noClient : s.main = .loop → MainStep s .fail { s with pushed := s.pushed ++ [.connecting, .connFailed] }
  | starting {pc : ConnectPc} {e : Ev} {r : ConnectRet × Client × Net} : s.main = .starting pc →
      Moves (s.client, s.net) r.2 → MainStep s e (s.started r)
  | returns : s.main = .subscribing [] →
      MainStep s .ok { s with main := .connected, pushed := s.pushed ++ [.connSuccess] }
  | encodes {x : Subscription} {todo : List Subscription} {c : Client} : s.main = .subscribing (x :: todo) →
      s.client.umqttSubscribe x = some c → MainStep s .ok { s with main := .sending x todo, client := c }
  | refuses {x : Subscription} {todo : List Subscription} : s.main = .subscribing (x :: todo) →
      s.client.umqttSubscribe x = none → MainStep s .ok { s with main := .subscribing todo }
  | sends {x : Subscription} {todo : List Subscription} : s.main = .sending x todo →
      MainStep s .ok { s with main := .waiting x todo, net := s.net.carries s.client.sendBuf }
  | sendFails {x : Subscription} {todo : List Subscription} : s.main = .sending x todo →
      MainStep s .fail { s with main := .subscribing todo }
  | takes {x : Subscription} {todo : List Subscription} {ack : MsgAck} {q : Fifo MsgAck PKG_UMQTT_MSG_QUEUE_ACK_DEF_SIZE} :
      s.main = .waiting x todo → s.client.msgQueue.recv = some (ack, q) →
      MainStep s .take
        { s with main := .subscribing todo, client := { s.client with msgQueue := q }.umqttSubscribeAck x ack }
  | timesOut {x : Subscription} {todo : List Subscription} : s.main = .waiting x todo →
      MainStep s .timeout { s with main := .subscribing todo }

theorem mainStep_of_step {s t : Link} {e : Ev} (h : step s (.main e) = some t) : MainStep s e t := by
  replace h : mqttLinkConnect s s.main e = some t := h
  generalize hm : s.main = m at h
  unfold mqttLinkConnect at h
  split at h
  · cases h; exact .connecting hm
  · cases h; exact .noClient hm
  · obtain ⟨⟨r, c, n⟩, hr, rfl⟩ := Option.map_eq_some_iff.1 h
    exact .starting hm (umqttConnect_moves hr)
  · cases h; exact .returns hm
  · split at h
    · rename_i hc; cases h; exact .encodes hm hc
    · rename_i hc; cases h; exact .refuses hm hc
  · split at h
    · cases h; exact .sends hm
    · cases h
  · cases h; exact .sendFails hm
  · split at h
    · rename_i hq; cases h; exact .takes hm hq
    · cases h
  · cases h; exact .timesOut hm
  · cases h

structure Aside (s t : Link) : Prop where
  main : t.main = s.main
  pushed : t.pushed = s.pushed
  moves : Moves (s.client, s.net) (t.client, t.net)

theorem aside_reader {s t : Link} {e : Ev} (h : step s (.reader e) = some t) : Aside s t := by
  replace h : mqttLinkSend s s.reader e = some t := h
  unfold mqttLinkSend at h
  split at h
  · split at h
    · cases h; exact ⟨rfl, rfl, .single (.encode _ (fun _ _ h => by cases h) rfl)⟩
    · cases h
  · split at h
    · cases h; exact ⟨rfl, rfl, .single (.carries _ _)⟩
    · cases h
  · cases h; exact ⟨rfl, rfl, .refl⟩
  · split at h
    · cases h; exact ⟨rfl, rfl, .single (.same _ rfl rfl)⟩
    · cases h
  · cases h; exact ⟨rfl, rfl, .refl⟩
  · cases h

theorem aside_thread {s t : Link} {e : Ev} (h : step s (.thread e) = some t) : Aside s t := by
  replace h : umqttThread s s.thread e = some t := h
  unfold umqttThread at h
  split at h
  · split at h
    · rename_i hsock hrest; cases h; exact ⟨rfl, rfl, read_moves hrest⟩
    · cases h
  · cases h; exact ⟨rfl, rfl, .head (.closes _ _) (.single (.same _ rfl rfl))⟩
  · cases h; exact ⟨rfl, rfl, .single (.skips _ _)⟩
  · split at h
    · cases h; exact ⟨rfl, rfl, .single (.carries _ _)⟩
    · cases h
  · cases h; exact ⟨rfl, rfl, .refl⟩
  · obtain ⟨⟨r, c, n⟩, hr, rfl⟩ := Option.map_eq_some_iff.1 h
    exact ⟨rfl, rfl, umqttConnect_moves hr⟩
  · cases h

theorem aside_timer {s t : Link} {e : TimerEv} (h : step s (.timer e) = some t) : Aside s t := by
  replace h : umqttUplinkTimer s s.timer e = some t := h
  unfold umqttUplinkTimer at h
  split at h
  · split at h
    · cases h; exact ⟨rfl, rfl, .single (.encode _ (fun _ _ h => by cases h) rfl)⟩
    · cases h
  · split at h
    · split at h
      · cases h; exact ⟨rfl, rfl, .head (.closes _ _) (.single (.same _ rfl rfl))⟩
      · cases h; exact ⟨rfl, rfl, .single (.encode _ (fun _ _ h => by cases h) rfl)⟩
    · cases h
  · split at h
    · split at h
      · cases h; exact ⟨rfl, rfl, .head (.closes _ _) (.single (.same _ rfl rfl))⟩
      · split at h <;> cases h <;> exact ⟨rfl, rfl, .single (.same _ rfl rfl)⟩
    · cases h
  · split at h
    · cases h; exact ⟨rfl, rfl, .single (.carries _ _)⟩
    · cases h
  · cases h; exact ⟨rfl, rfl, .refl⟩
  · obtain ⟨⟨r, c, n⟩, hr, rfl⟩ := Option.map_eq_some_iff.1 h
    exact ⟨rfl, rfl, umqttConnect_moves hr⟩
  · cases h

/-- **What a step can do.** -/
theorem step_cases {s t : Link} {l : Label} (h : step s l = some t) :
    (∃ e, l = .main e ∧ MainStep s e t) ∨ ((∀ e, l ≠ .main e) ∧ Aside s t) := by
  cases l with
  | main e => exact Or.inl ⟨e, rfl, mainStep_of_step h⟩
  | reader e => exact Or.inr ⟨by simp, aside_reader h⟩
  | thread e => exact Or.inr ⟨by simp, aside_thread h⟩
  | timer e => exact Or.inr ⟨by simp, aside_timer h⟩
  | broker e =>
    obtain ⟨n, hn, rfl⟩ := Option.map_eq_some_iff.1 (show (broker s.net e).map _ = some t from h)
    exact Or.inr ⟨by simp, rfl, rfl, .single (.broker hn)⟩
  | drop =>
    cases h
    exact Or.inr ⟨by simp, rfl, rfl, .single (.closes _ _)⟩

end Umqtt
end RtPay
