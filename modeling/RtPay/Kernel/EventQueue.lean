import RtPay.EventHandler
import RtPay.Kernel.MsgQueueWakes
/-!
# Kernel.EventQueue — event_handler.c over the kernel's queue

An event crosses the queue as the bytes of an `event_t`: the producer writes its type and its part of the union over
what its stack held, the reader looks at the type and reads that part.  Over `rt_mq_send` and `rt_mq_recv` as they
interleave, the event queue is the queue of `EventHandler` whose pushes all find room, a refused push left out
(`eventHandler_simulates`).
-/
namespace RtPay
namespace Kernel

open Bytes
open EventHandler (Producer RoomToPush)

/-- `sizeof(event_t)`: the type, and the 36 bytes of the union behind it. -/
def sizeofEvent : Nat := 40

/-! ## An event in memory -/

/-- `event_type_t`. -/
def eventType : Event → Nat
  | .undefined => 0
  | .config _ => 1
  | .credit _ => 2
  | .enable _ => 3
  | .mqtt _ => 4
  | .card _ => 5

def mqttEventValue : MqttEvent → Nat
  | .undefined => 0
  | .connecting => 1
  | .connFailed => 2
  | .connSuccess => 3

/-- What a producer passes as `data`; `pad` are the two bytes of padding in its `credit_evt_t`. -/
def eventData (pad : List Byte) : Event → List Byte
  | .undefined => []
  | .config evt => evt.bytes
  | .credit evt => le 2 evt.count.toNat ++ pad ++ le 4 evt.balance.toNat
  | .enable evt => le 4 evt.enable.toUInt32.toNat
  | .mqtt evt => le 4 (mqttEventValue evt)
  | .card evt => evt.uid

/-- The message of `event_handler_push_event`, whose `event_t` is on the stack. -/
def pushBytes (stack pad : List Byte) (e : Event) : Option (List Byte) :=
  (poke stack 0 (le 4 (eventType e))).bind (fun evt => poke evt 4 (eventData pad e))

def mqttEventOf : Nat → Option MqttEvent
  | 0 => some .undefined
  | 1 => some .connecting
  | 2 => some .connFailed
  | 3 => some .connSuccess
  | _ => none

/-- The event the fields of an `event_t` say; `none` for a type that has no name. -/
def readEvent (evt : List Byte) : Option Event :=
  match leVal (peek evt 0 4) with
  | 0 => some .undefined
  | 1 => if h : (peek evt 4 sizeofConfigEvt).length = sizeofConfigEvt then some (.config ⟨_, h⟩) else none
  | 2 => some (.credit ⟨UInt16.ofNat (leVal (peek evt 4 2)), UInt32.ofNat (leVal (peek evt 8 4))⟩)
  | 3 => some (.enable ⟨(UInt32.ofNat (leVal (peek evt 4 4))).toInt32⟩)
  | 4 => (mqttEventOf (leVal (peek evt 4 4))).map .mqtt
  | 5 => if h : (peek evt 4 sizeofCardUid).length = sizeofCardUid then some (.card ⟨_, h⟩) else none
  | _ => none

theorem mqttEventOf_value (e : MqttEvent) : mqttEventOf (mqttEventValue e) = some e := by
  cases e <;> rfl

/-- **An event is read as it was pushed**, whatever the stack and the padding hold. -/
theorem readEvent_of_pushBytes {stack pad buffer : List Byte} {e : Event} (hpad : pad.length = 2)
    (h : pushBytes stack pad e = some buffer) : readEvent buffer = some e := by
  obtain ⟨evt, htype, hdata⟩ := Option.bind_eq_some_iff.1 h
  have hv : leVal (peek buffer 0 4) = eventType e := by
    have h4 := peek_of_poke_same htype
    rw [length_le] at h4
    rw [peek_of_poke_apart hdata (Or.inl (by omega)), h4]
    exact leVal_le_of_lt (by cases e <;> simp [eventType])
  have hd := peek_of_poke_same hdata
  cases e with
  | undefined => simp only [readEvent, hv, eventType]
  | config evt =>
    rw [eventData, evt.size] at hd
    simp only [readEvent, hv, eventType, hd, evt.size, dite_true]
  | credit evt =>
    have hlen : (eventData pad (.credit evt)).length = 8 := by simp [eventData, hpad]
    rw [hlen] at hd
    have hcount : peek buffer 4 2 = le 2 evt.count.toNat := by
      have := congrArg (List.take 2) hd
      simpa [peek, eventData, List.take_take] using this
    have hbalance : peek buffer 8 4 = le 4 evt.balance.toNat := by
      have := congrArg (List.drop 4) hd
      simpa [peek, eventData, List.drop_append, List.drop_of_length_le, hpad, List.drop_take] using this
    have hc := leVal_le_of_lt (w := 2) (n := evt.count.toNat) (by have := evt.count.toNat_lt; simpa using this)
    have hb := leVal_le_of_lt (w := 4) (n := evt.balance.toNat) (by have := evt.balance.toNat_lt; simpa using this)
    simp only [readEvent, hv, eventType, hcount, hbalance, hc, hb, UInt16.ofNat_toNat, UInt32.ofNat_toNat]
  | enable evt =>
    rw [eventData, length_le] at hd
    have hb := leVal_le_of_lt (w := 4) (n := evt.enable.toUInt32.toNat)
      (by have := evt.enable.toUInt32.toNat_lt; simpa using this)
    simp only [readEvent, hv, eventType, hd, hb, UInt32.ofNat_toNat]
    rfl
  | mqtt evt =>
    rw [eventData, length_le] at hd
    have hb : leVal (le 4 (mqttEventValue evt)) = mqttEventValue evt := leVal_le_of_lt (by cases evt <;> decide)
    simp only [readEvent, hv, eventType, hd, hb, mqttEventOf_value]
    rfl
  | card evt =>
    rw [eventData, evt.size] at hd
    simp only [readEvent, hv, eventType, hd, evt.size, dite_true]

/-! ## What a thread carries -/

/-- A property of what a thread was asked to send, and of the room it offers a message. -/
def Pc.Carries (B : List Byte → Prop) (R : Nat → Prop) : Pc → Prop
  | .sendWaiting buffer _ => B buffer
  | .sendWoken buffer _ => B buffer
  | .taken _ buffer => B buffer
  | .filled _ buffer => B buffer
  | .recvWaiting size _ => R size
  | .recvWoken size _ => R size
  | .unlinked _ size => R size
  | _ => True

section
variable {τ : Type} [DecidableEq τ] {flag : IpcFlag} {priority : τ → Nat} {B : List Byte → Prop} {R : τ → Nat → Prop}

def Mq.Carries (B : List Byte → Prop) (R : τ → Nat → Prop) (s : Mq τ) : Prop := ∀ t, (s.pc t).Carries B (R t)

/-- A call that starts with what has the property. -/
def Label.Carries (B : List Byte → Prop) (R : τ → Nat → Prop) : Label τ → Prop
  | .send _ buffer _ => B buffer
  | .recv t size _ => R t size
  | _ => True

theorem carries_goes {s : Mq τ} {t : τ} {pc : Pc} (h : s.Carries B R) (hpc : pc.Carries B (R t)) :
    (s.goes t pc).Carries B R := by
  intro u
  show (Function.update s.pc t pc u).Carries B (R u)
  by_cases hu : u = t
  · rw [hu, Function.update_self]
    exact hpc
  · rw [Function.update_of_ne hu]
    exact h u

theorem carries_resumeReceiver {s : Mq τ} (h : s.Carries B R) : s.resumeReceiver.Carries B R := by
  unfold Mq.resumeReceiver
  split
  · exact h
  · rename_i u us _
    refine carries_goes (s := s) h ?_
    have := h u
    cases hu : s.pc u <;> rw [hu] at this <;> exact this

theorem carries_resumeSender {s : Mq τ} (h : s.Carries B R) : s.resumeSender.Carries B R := by
  unfold Mq.resumeSender
  split
  · exact h
  · rename_i u us _
    refine carries_goes (s := s) h ?_
    have := h u
    cases hu : s.pc u <;> rw [hu] at this <;> exact this

theorem carries_takeFree {s : Mq τ} {t : τ} {buffer : List Byte} {timeout : Timeout} (h : s.Carries B R)
    (hb : B buffer) : (s.takeFree flag priority t buffer timeout).Carries B R := by
  unfold Mq.takeFree
  split
  · exact carries_goes (s := s) h hb
  · split
    · exact carries_goes (s := s) h trivial
    · exact carries_goes (s := s) h hb

theorem carries_takeHead {s s' : Mq τ} {t : τ} {size : Nat} {timeout : Timeout} (h : s.Carries B R) (hr : R t size)
    (hs : s.takeHead flag priority t size timeout = some s') : s'.Carries B R := by
  unfold Mq.takeHead at hs
  split at hs
  · split at hs
    · cases hs
      exact carries_goes (s := s) h trivial
    · cases hs
      exact carries_goes (s := s) h hr
  · obtain ⟨msg, -, rfl⟩ := Option.map_eq_some_iff.1 hs
    exact carries_goes (s := s) h hr

/-- **What the calls start with, the threads carry.** -/
theorem carries_step {s s' : Mq τ} {l : Label τ} (h : s.Carries B R) (hl : l.Carries B R)
    (hs : step flag priority s l = some s') : s'.Carries B R := by
  cases l with
  | send t buffer timeout =>
    simp only [step] at hs
    split at hs
    · split at hs
      · cases hs
      · split at hs
        · cases hs
          exact carries_goes (s := s) h trivial
        · cases hs
          exact carries_takeFree h hl
    · cases hs
  | fill t =>
    simp only [step] at hs
    split at hs
    · rename_i msg buffer hpc
      cases hs
      have hb := h t
      rw [hpc] at hb
      exact carries_goes (s := s) h hb
    · cases hs
  | link t =>
    simp only [step] at hs
    split at hs
    · split at hs
      · cases hs
        exact carries_resumeReceiver (carries_goes (s := s) h trivial)
      · cases hs
        exact carries_goes (s := s) h trivial
    · cases hs
  | recv t size timeout =>
    simp only [step] at hs
    split at hs
    · split at hs
      · cases hs
      · exact carries_takeHead h hl hs
    · cases hs
  | copy t =>
    simp only [step] at hs
    split at hs
    · cases hs
      exact carries_goes (s := s) h trivial
    · cases hs
  | release t =>
    simp only [step] at hs
    split at hs
    · cases hs
      exact carries_resumeSender (carries_goes (s := s) h trivial)
    · cases hs
  | wake t late =>
    have ht := h t
    simp only [step] at hs
    split at hs
    · rename_i hpc
      rw [hpc] at ht
      split at hs
      · split at hs
        · cases hs
          exact carries_takeFree h ht
        · cases hs
      · cases hs
        exact carries_takeFree h ht
    · rename_i hpc
      rw [hpc] at ht
      split at hs
      · split at hs
        · exact carries_takeHead h ht hs
        · cases hs
      · exact carries_takeHead h ht hs
    · cases hs
  | timer t =>
    simp only [step] at hs
    split at hs
    · cases hs
      exact carries_goes (s := s) h trivial
    · cases hs
      exact carries_goes (s := s) h trivial
    · cases hs

end

/-! ## The event queue -/

/-- The message of an `event_handler_push_event` with one of its callers' events. -/
def PushedBytes (buffer : List Byte) : Prop :=
  buffer.length = sizeofEvent ∧ ∃ p : Producer, readEvent buffer = some p.event

section
variable {τ : Type} [DecidableEq τ] {priority : τ → Nat} {app : τ}

/-- How the program uses its event queue: pushes do not wait, and `app_loop` alone reads, waiting without an end. -/
def EvtCall (app : τ) : Label τ → Prop
  | .send _ buffer timeout => timeout = .no ∧ ∃ (p : Producer) (stack pad : List Byte),
      stack.length = sizeofEvent ∧ pad.length = 2 ∧ pushBytes stack pad p.event = some buffer
  | .recv t size timeout => t = app ∧ size = sizeofEvent ∧ timeout = .forever
  | _ => True

omit [DecidableEq τ] in
theorem EvtCall.carries {l : Label τ} (h : EvtCall app l) :
    l.Carries PushedBytes (fun t size => t = app ∧ size = sizeofEvent) := by
  cases l with
  | send t buffer timeout =>
    obtain ⟨-, p, stack, pad, hstack, hpad, hbytes⟩ := h
    refine ⟨?_, p, readEvent_of_pushBytes hpad hbytes⟩
    obtain ⟨evt, htype, hdata⟩ := Option.bind_eq_some_iff.1 hbytes
    rw [length_of_poke hdata, length_of_poke htype, hstack]
  | recv t size timeout => exact ⟨h.1, h.2.1⟩
  | _ => trivial

/-- The two histories of the kernel's queue are those of `EventHandler`, event for event. -/
structure Matches (app : τ) (s : Mq τ) (S : EventHandler.State) : Prop where
  exact : S.Exact
  linked : s.linked.map readEvent = S.pushed.map some
  unlinked : (s.unlinked.map Unlinked.message).map readEvent = S.read.map some
  whole : ∀ m ∈ s.linked, m.length = sizeofEvent
  reader : ∀ x ∈ s.unlinked, x.thread = app ∧ x.size = sizeofEvent

theorem Matches.queued {s : Mq τ} {S : EventHandler.State} {q f : List Nat} {held : List (τ × Nat)}
    (hm : Matches app s S) (h : Sound s q f held) :
    (q.map s.message).map readEvent = S.evtQueue.items.map some := by
  have hx := hm.linked
  rw [h.history, List.map_append, hm.unlinked, show S.pushed = S.read ++ S.evtQueue.items from hm.exact,
    List.map_append] at hx
  exact List.append_cancel_left hx

/-- A run of `EventHandler` whose pushes all find room. -/
def Followed (S S' : EventHandler.State) : Prop :=
  ∃ acts, Run.run EventHandler.step S acts = some S' ∧ Run.Along EventHandler.step RoomToPush S acts

theorem followed_push {S : EventHandler.State} (p : Producer) (h : ¬ S.evtQueue.Full) :
    ∃ q', S.evtQueue.send p.event = some q' ∧
      Followed S { S with evtQueue := q', pushed := S.pushed ++ [p.event] } := by
  obtain ⟨q', hq⟩ := Fifo.send_of_not_full p.event h
  refine ⟨q', hq, [.push p], ?_, h, fun _ _ => trivial⟩
  simp [Run.run, EventHandler.step, EventHandler.eventHandlerPushEvent, hq]

theorem followed_read {S : EventHandler.State} {e : Event} {q' : EventHandler.EvtQueue}
    (h : S.evtQueue.recv = some (e, q')) :
    Followed S { S with evtQueue := q', app := .handling e, read := S.read ++ [e] } := by
  -- the reader is back from the handler of the event before
  cases ha : S.app with
  | waiting =>
    refine ⟨[.read], ?_, trivial, fun _ _ => trivial⟩
    simp [Run.run, EventHandler.step, EventHandler.eventHandlerReadEvent, h, ha]
  | handling e' =>
    refine ⟨[.handled, .read], ?_, trivial, fun _ _ => ⟨trivial, fun _ _ => trivial⟩⟩
    simp [Run.run, EventHandler.step, EventHandler.eventHandlerReadEvent, h, ha]

theorem Followed.refl (S : EventHandler.State) : Followed S S := ⟨[], rfl, trivial⟩

theorem Followed.trans {S T U : EventHandler.State} (h : Followed S T) (h' : Followed T U) : Followed S U := by
  obtain ⟨as, hr, ha⟩ := h
  obtain ⟨bs, hr', ha'⟩ := h'
  refine ⟨as ++ bs, Run.run_append_some.2 ⟨T, hr, hr'⟩, Run.along_append.2 ⟨ha, fun V hV => ?_⟩⟩
  rw [hr] at hV
  cases hV
  exact ha'

omit [DecidableEq τ] in
/-- A move that links no block and takes none out is not seen. -/
theorem Matches.frame {s s' : Mq τ} {S : EventHandler.State} (h : Matches app s S) (hl : s'.linked = s.linked)
    (hu : s'.unlinked = s.unlinked) : ∃ S', Followed S S' ∧ Matches app s' S' := by
  refine ⟨S, .refl S, h.exact, ?_, ?_, ?_, ?_⟩
  · rw [hl]
    exact h.linked
  · rw [hu]
    exact h.unlinked
  · rw [hl]
    exact h.whole
  · rw [hu]
    exact h.reader

theorem histories_resumeReceiver (s : Mq τ) :
    s.resumeReceiver.linked = s.linked ∧ s.resumeReceiver.unlinked = s.unlinked := by
  unfold Mq.resumeReceiver
  split <;> exact ⟨rfl, rfl⟩

theorem histories_resumeSender (s : Mq τ) :
    s.resumeSender.linked = s.linked ∧ s.resumeSender.unlinked = s.unlinked := by
  unfold Mq.resumeSender
  split <;> exact ⟨rfl, rfl⟩

/-- **A link is a push that finds room**: the block that is linked was in neither list. -/
theorem Matches.link {s s' : Mq τ} {S : EventHandler.State} {q f : List Nat} {held : List (τ × Nat)} {t : τ}
    {msg : Nat} {buffer : List Byte} (h : Matches app s S) (hk : Sound s q f held)
    (hmax : s.maxMsgs = EventHandler.EVT_QUEUE_LEN) (ht : s.pc t = .filled msg buffer) (hb : PushedBytes buffer)
    (hl : s'.linked = s.linked ++ [buffer]) (hu : s'.unlinked = s.unlinked) :
    ∃ S', Followed S S' ∧ Matches app s' S' := by
  obtain ⟨hlen, p, hp⟩ := hb
  have hroom : ¬ S.evtQueue.Full := by
    have hmem := (hk.owned.block t msg).2 (show (s.pc t).block? = some msg by rw [ht]; rfl)
    have hlt := hk.length_lt hmem
    have hcount := congrArg List.length (h.queued hk)
    simp only [List.length_map] at hcount
    unfold Fifo.Full
    omega
  obtain ⟨q', hq, hfollowed⟩ := followed_push p hroom
  refine ⟨_, hfollowed, Fifo.History.send h.exact hq, ?_, ?_, ?_, ?_⟩
  · rw [hl, List.map_append, h.linked]
    simp [hp]
  · rw [hu]
    exact h.unlinked
  · rw [hl]
    intro m hm
    rcases List.mem_append.1 hm with hm | hm
    · exact h.whole m hm
    · rw [List.mem_singleton.1 hm]
      exact hlen
  · rw [hu]
    exact h.reader

/-- **A block taken out is a read.** -/
theorem Matches.takeHead {s s' : Mq τ} {S : EventHandler.State} {q f : List Nat} {held : List (τ × Nat)}
    {msg : Nat} (h : Matches app s S) (hk : Sound s q f held) (hhead : s.head = some msg)
    (hl : s'.linked = s.linked) (hu : s'.unlinked = s.unlinked ++ [⟨app, sizeofEvent, s.message msg⟩]) :
    ∃ S', Followed S S' ∧ Matches app s' S' := by
  have hq := h.queued hk
  obtain ⟨q', rfl⟩ : ∃ q', q = msg :: q' := by
    have hchain := hk.queue
    rw [hhead] at hchain
    cases q with
    | nil => cases hchain
    | cons a q' =>
      cases hchain.1
      exact ⟨q', rfl⟩
  obtain ⟨e, rest, hitems⟩ : ∃ e rest, S.evtQueue.items = e :: rest := by
    cases hitems : S.evtQueue.items with
    | nil => rw [hitems] at hq; cases hq
    | cons e rest => exact ⟨e, rest, rfl⟩
  have hbound := S.evtQueue.bounded
  rw [hitems] at hbound hq
  have he : readEvent (s.message msg) = some e := (List.cons.inj hq).1
  have hrecv : S.evtQueue.recv = some (e, ⟨rest, Nat.le_of_succ_le hbound⟩) := Fifo.recv_eq_some_iff.2 hitems
  refine ⟨_, followed_read hrecv, Fifo.History.recv h.exact hrecv, ?_, ?_, ?_, ?_⟩
  · rw [hl]
    exact h.linked
  · rw [hu, List.map_append, List.map_append, h.unlinked]
    simp [he]
  · rw [hl]
    exact h.whole
  · rw [hu]
    intro x hx
    rcases List.mem_append.1 hx with hx | hx
    · exact h.reader x hx
    · rw [List.mem_singleton.1 hx]
      exact ⟨rfl, rfl⟩

/-- **One move of the kernel is followed** by the moves of `EventHandler` it amounts to. -/
theorem Matches.move {s s' : Mq τ} {S : EventHandler.State} {q f : List Nat} {held : List (τ × Nat)}
    {flag : IpcFlag} (h : Matches app s S) (hk : Sound s q f held) (hmax : s.maxMsgs = EventHandler.EVT_QUEUE_LEN)
    (hc : s.Carries PushedBytes (fun t size => t = app ∧ size = sizeofEvent))
    (hc' : s'.Carries PushedBytes (fun t size => t = app ∧ size = sizeofEvent)) (hm : Move flag priority s s') :
    ∃ S', Followed S S' ∧ Matches app s' S' := by
  cases hm with
  | link t msg buffer ht hentry =>
    have hb := hc t
    rw [ht] at hb
    obtain ⟨hl, hu⟩ := histories_resumeReceiver { (s.link msg buffer).returns t .eok with entry := s.entry + 1 }
    exact h.link hk hmax ht hb hl hu
  | overflow t msg buffer ht hentry =>
    have hb := hc t
    rw [ht] at hb
    exact h.link hk hmax ht hb rfl rfl
  | takeHead t size msg ht hentry hhead =>
    have hr := hc' t
    simp only [Mq.goes, Function.update_self] at hr
    obtain ⟨rfl, rfl⟩ := hr
    exact h.takeHead hk hhead rfl rfl
  | release t msg data ht =>
    obtain ⟨hl, hu⟩ := histories_resumeSender ((s.release msg).returns t (.received data))
    exact h.frame hl hu
  | _ => exact h.frame rfl rfl

/-- What the reader's calls have returned, and are about to, is what was taken out. -/
theorem Matches.received {s : Mq τ} {S : EventHandler.State} {q f : List Nat} {held : List (τ × Nat)}
    (h : Matches app s S) (hk : Sound s q f held) :
    (s.receivedBy app ++ (s.pc app).pending s.message).map readEvent = S.read.map some := by
  rw [← hk.received app, ← h.unlinked]
  congr 1
  have hwhole : ∀ x ∈ s.unlinked, x.message.length = sizeofEvent := by
    intro x hx
    refine h.whole x.message ?_
    rw [hk.history]
    exact List.mem_append_left _ (List.mem_map_of_mem hx)
  unfold Mq.takenBy
  rw [← List.filterMap_eq_map]
  refine List.filterMap_congr (fun x hx => ?_)
  obtain ⟨hthread, hsize⟩ := h.reader x hx
  rw [if_pos hthread, List.take_of_length_le (by rw [hwhole x hx, hsize])]
  rfl

/-- **The event queue over the kernel's is the one of `EventHandler`**: what the interleaved calls have done to it is a
run of the producers and the reader in which every push finds room; what is queued, what was linked and what
`app_loop` has been given are its events. -/
theorem eventHandler_simulates {s : Mq τ} {ls : List (Label τ)} (hcalls : ∀ l ∈ ls, EvtCall app l)
    (hrun : Run.run (step .fifo priority) (rtMqCreate τ 40 4) ls = some s) :
    ∃ acts S, Run.run EventHandler.step EventHandler.init acts = some S ∧
      Run.Along EventHandler.step RoomToPush EventHandler.init acts ∧
      s.queued.map readEvent = S.evtQueue.items.map some ∧ s.linked.map readEvent = S.pushed.map some ∧
      (s.receivedBy app ++ (s.pc app).pending s.message).map readEvent = S.read.map some := by
  have hinv := Run.run_invariant (G := fun _ l => EvtCall app l)
    (P := fun s => (∃ q f held, Kept s q f held) ∧ s.maxMsgs = EventHandler.EVT_QUEUE_LEN ∧
      s.Carries PushedBytes (fun t size => t = app ∧ size = sizeofEvent) ∧
      ∃ S, Followed EventHandler.init S ∧ Matches app s S) ?_ ?_
    (Run.along_of_forall_mem (fun l hl _ => hcalls l hl) _) hrun
  · obtain ⟨⟨q, f, held, hk⟩, -, -, S, ⟨acts, hr, ha⟩, hm⟩ := hinv
    refine ⟨acts, S, hr, ha, ?_, hm.linked, hm.received hk.sound⟩
    rw [hk.sound.queued]
    exact hm.queued hk.sound
  · rintro u l v ⟨⟨q, f, held, hk⟩, hmax, hc, S, hS, hm⟩ hl hs
    have hc' := carries_step hc hl.carries hs
    obtain ⟨S', hS', hm'⟩ := hm.move hk.sound hmax hc hc' (move_of_step hs)
    exact ⟨hk.move (move_of_step hs), (maxMsgs_of_step hs).trans hmax, hc', S', hS.trans hS', hm'⟩
  · refine ⟨⟨_, _, _, kept_rtMqCreate 40 4⟩, rfl, fun t => trivial, _, .refl _, rfl, rfl, rfl, ?_, ?_⟩
    · rintro m ⟨⟩
    · rintro x ⟨⟩

theorem eventHandler_simulates_credit :
    ∃ s, Run.run (step .fifo (fun _ : Nat => 0)) (rtMqCreate Nat 40 4)
        [.recv 0 40 .forever, .send 1 ([2, 0, 0, 0, 1, 0, 7, 7, 244, 1, 0, 0] ++ List.replicate 28 9) .no, .fill 1,
          .link 1, .wake 0 false, .copy 0] = some s ∧
      ∃ acts S, Run.run EventHandler.step EventHandler.init acts = some S ∧
        Run.Along EventHandler.step RoomToPush EventHandler.init acts ∧
        s.queued.map readEvent = S.evtQueue.items.map some ∧ s.linked.map readEvent = S.pushed.map some ∧
        (s.receivedBy 0 ++ (s.pc 0).pending s.message).map readEvent = S.read.map some := by
  refine Exists.imp (fun _ hs => ⟨hs, eventHandler_simulates (fun l hl => ?_) hs⟩) (Option.isSome_iff_exists.1 rfl)
  simp only [List.mem_cons, List.not_mem_nil, or_false] at hl
  rcases hl with rfl | rfl | rfl | rfl | rfl | rfl
  · exact ⟨rfl, rfl, rfl⟩
  · exact ⟨rfl, .mqttAddCoinsCallback ⟨1, 500⟩, List.replicate 40 9, [7, 7], by decide, rfl, by decide⟩
  · trivial
  · trivial
  · trivial
  · trivial

end

end Kernel
end RtPay
