import RtPay.Lib.Run
import RtPay.Lib.Fifo
import RtPay.Event
/-!
# EventHandler — event_handler.c, with its producers and its reader

`eventHandlerPushEvent` drops what a full queue refuses: the result of `rt_mq_send` is not looked at.  The system below
interleaves the five producers with `app_loop`, which is either waiting in `rt_mq_recv` or inside a handler; `pushed`
and `read` are the histories the code does not keep.  The queue's history is exact in every state of a run exactly when
no push of the run meets a full queue (`history_iff_no_push_on_full`).
-/
namespace RtPay
namespace EventHandler

def EVT_QUEUE_LEN : Nat := 4

abbrev EvtQueue := Fifo Event EVT_QUEUE_LEN

/-- `event_handler_push_event`: the result of `rt_mq_send` is ignored. -/
def eventHandlerPushEvent (q : EvtQueue) (e : Event) : EvtQueue :=
  match q.send e with
  | some q' => q'
  | none => q

/-- `event_handler_read_event` with its endless timeout: `none` is a reader that keeps waiting. -/
def eventHandlerReadEvent (q : EvtQueue) : Option (Event × EvtQueue) := q.recv

theorem eventHandlerPushEvent_of_full {q : EvtQueue} (h : q.Full) (e : Event) : eventHandlerPushEvent q e = q := by
  unfold eventHandlerPushEvent
  rw [(Fifo.send_eq_none_iff q e).2 h]

/-! ## The producers and the reader -/

/-- A call of `event_handler_push_event`, by the function that makes it. -/
inductive Producer
  | mqttConfigCallback (config : ConfigEvt)
  | mqttAddCoinsCallback (credit : CreditEvt)
  | mqttEnableCallback (enable : EnableEvt)
  | mqttLinkConnect (evt : MqttEvent)
  | cardReaderLoop (card : CardEvent)
  deriving DecidableEq

def Producer.event : Producer → Event
  | mqttConfigCallback c => .config c
  | mqttAddCoinsCallback c => .credit c
  | mqttEnableCallback e => .enable e
  | mqttLinkConnect e => .mqtt e
  | cardReaderLoop c => .card c

/-- Where `app_loop` is: waiting for an event, or inside the handler of one (pulses and messages included). -/
inductive AppThread
  | waiting
  | handling (e : Event)
  deriving DecidableEq

structure State where
  evtQueue : EvtQueue
  app : AppThread
  pushed : List Event
  read : List Event
  deriving DecidableEq

def init : State := ⟨Fifo.empty, .waiting, [], []⟩

inductive Act
  | push (p : Producer)
  | read
  | handled
  deriving DecidableEq

def step (s : State) : Act → Option State
  | .push p => some { s with evtQueue := eventHandlerPushEvent s.evtQueue p.event, pushed := s.pushed ++ [p.event] }
  | .read =>
    match s.app, eventHandlerReadEvent s.evtQueue with
    | .waiting, some (e, q) => some { s with evtQueue := q, app := .handling e, read := s.read ++ [e] }
    | _, _ => none
  | .handled =>
    match s.app with
    | .handling _ => some { s with app := .waiting }
    | .waiting => none

/-- **Nothing lost, duplicated or reordered so far**: what was pushed is what was read followed by what is queued. -/
def State.Exact (s : State) : Prop := Fifo.History s.pushed s.read s.evtQueue

instance (s : State) : Decidable s.Exact := inferInstanceAs (Decidable (Fifo.History _ _ _))

def RoomToPush (s : State) : Act → Prop
  | .push _ => ¬ s.evtQueue.Full
  | _ => True

theorem step_cases {s t : State} {a : Act} (h : step s a = some t) :
    (∃ p : Producer, a = .push p ∧ t = { s with
      evtQueue := eventHandlerPushEvent s.evtQueue p.event, pushed := s.pushed ++ [p.event] }) ∨
    (∃ e q, a = .read ∧ s.app = .waiting ∧ s.evtQueue.recv = some (e, q) ∧
      t = { s with evtQueue := q, app := .handling e, read := s.read ++ [e] }) ∨
    (∃ e, a = .handled ∧ s.app = .handling e ∧ t = { s with app := .waiting }) := by
  cases a with
  | push p => exact Or.inl ⟨p, rfl, by simpa [step] using h.symm⟩
  | read =>
    simp only [step, eventHandlerReadEvent] at h
    split at h
    · rename_i e q ha hq
      exact Or.inr (Or.inl ⟨e, q, rfl, ha, hq, by simpa using h.symm⟩)
    · cases h
  | handled =>
    simp only [step] at h
    split at h
    · rename_i e ha
      exact Or.inr (Or.inr ⟨e, rfl, ha, by simpa using h.symm⟩)
    · cases h

theorem exact_step (s : State) (a : Act) (t : State) (hs : s.Exact) (hg : RoomToPush s a)
    (h : step s a = some t) : t.Exact := by
  rcases step_cases h with ⟨p, rfl, rfl⟩ | ⟨e, q, rfl, -, hq, rfl⟩ | ⟨e, rfl, -, rfl⟩
  · obtain ⟨q', hq⟩ := Fifo.send_of_not_full p.event hg
    have hp : eventHandlerPushEvent s.evtQueue p.event = q' := by unfold eventHandlerPushEvent; rw [hq]
    show Fifo.History _ _ (eventHandlerPushEvent _ _)
    rw [hp]
    exact Fifo.History.send hs hq
  · exact Fifo.History.recv hs hq
  · exact hs

theorem not_exact_of_push_on_full {s t : State} {p : Producer} (hs : s.Exact) (hf : s.evtQueue.Full)
    (h : step s (.push p) = some t) : ¬ t.Exact := by
  intro ht
  simp only [step, Option.some.injEq] at h
  subst h
  have hlen := congrArg List.length ht
  have hlen0 := congrArg List.length hs
  rw [eventHandlerPushEvent_of_full hf] at hlen
  simp only [List.length_append, List.length_singleton] at hlen hlen0
  omega

/-- **The history is exact in every state a run passes through exactly when no push of the run finds the queue
full.** -/
theorem history_iff_no_push_on_full (acts : List Act) (s : State) (hr : Run.run step init acts = some s) :
    (∀ t, Run.Visits step init acts t → t.Exact) ↔ Run.Along step RoomToPush init acts := by
  constructor
  · intro hex
    by_contra hn
    obtain ⟨pre, a, post, t, rfl, ht, -, hg⟩ := Run.exists_first_of_not_along hn
    have htx : t.Exact := hex t ⟨pre, a :: post, rfl, ht⟩
    cases a with
    | push p =>
      have hfull : t.evtQueue.Full := Classical.not_not.1 hg
      obtain ⟨u, hu⟩ : ∃ u, step t (.push p) = some u := ⟨_, rfl⟩
      refine not_exact_of_push_on_full htx hfull hu (hex u ⟨pre ++ [.push p], post, by simp, ?_⟩)
      exact Run.run_concat_some.2 ⟨t, ht, hu⟩
    | read => exact hg trivial
    | handled => exact hg trivial
  · intro hg t ht
    exact Run.visits_invariant exact_step (show init.Exact from Fifo.history_empty) hg ht

/-- One credit is being handled when five more are paid: the fifth is dropped. -/
theorem history_breaks_under_five_credits :
    ∃ s, Run.run step init ([.push (.mqttAddCoinsCallback ⟨1, 500⟩), .read] ++
        List.replicate 5 (.push (.mqttAddCoinsCallback ⟨1, 500⟩))) = some s ∧ ¬ s.Exact :=
  ⟨_, rfl, by decide⟩

theorem history_iff_no_push_on_full_four :
    (∀ t, Run.Visits step init ([.push (.mqttAddCoinsCallback ⟨1, 500⟩), .read] ++
        List.replicate 4 (.push (.mqttAddCoinsCallback ⟨1, 500⟩))) t → t.Exact) ↔
      Run.Along step RoomToPush init ([.push (.mqttAddCoinsCallback ⟨1, 500⟩), .read] ++
        List.replicate 4 (.push (.mqttAddCoinsCallback ⟨1, 500⟩))) :=
  history_iff_no_push_on_full _ _ rfl

end EventHandler
end RtPay
