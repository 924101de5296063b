import RtPay.Umqtt.Subscribe
/-!
# Umqtt.Reconnect — the broker's subscriptions over reconnections

`umqtt_thread` opens a new connection with a clean session, and the main thread, which has its `RT_TRUE`, never
subscribes again.  So the first connection keeps what `mqtt_link_connect` subscribed to, and no later session has the
configuration topic: the broker holds the three in every established state of a run exactly when none of these is on
a connection opened later.
-/
namespace RtPay
namespace Umqtt

def BrokerHolds (n : Net) : Prop := ∀ x ∈ subscribedTopics, x.topicfilter ∈ n.subscriptions

instance (n : Net) : Decidable (BrokerHolds n) := inferInstanceAs (Decidable (∀ x ∈ subscribedTopics, _))

/-- **The session is established**: its CONNACK was read on the current connection, and `umqtt_thread` is in its read
loop. -/
def Established (s : Link) : Prop := s.thread = .reading ∧ s.net.up = true ∧ s.net.connacked = true

instance (s : Link) : Decidable (Established s) := inferInstanceAs (Decidable (_ ∧ _))

/-- A fully acknowledged `mqtt_link_connect` has just returned `RT_TRUE`, or did so earlier on this connection. -/
def Acknowledged (s : Link) : Prop :=
  s.main = .connected ∧ AllRegistered s ∧ Established s ∧ BrokerHolds s.net

instance (s : Link) : Decidable (Acknowledged s) := inferInstanceAs (Decidable (_ ∧ _))

/-! ## A CONNACK comes after its session -/

/-- An accepting CONNACK of this connection, owed, on its way or read, is of a session. -/
structure Welcomed (n : Net) : Prop where
  owed : .connack true ∈ n.owed → n.session = true
  sent : .connack true ∈ n.toClient → n.session = true
  read : n.connacked = true → n.session = true

theorem welcomed_processes {n : Net} (h : Welcomed n) (accept : Bool) (p : Packet) (rest : List Packet) :
    Welcomed (n.processes accept p rest) := by
  cases p with
  | connect =>
    simp only [Net.processes]
    split
    · exact ⟨h.owed, h.sent, h.read⟩
    · split
      · exact ⟨fun _ => rfl, fun _ => rfl, fun _ => rfl⟩
      · exact ⟨h.owed, fun hn => h.sent (by simpa using hn), h.read⟩
  | _ =>
    simp only [Net.processes]
    split
    · refine ⟨fun hn => h.owed (by simpa using hn), h.sent, h.read⟩
    · exact ⟨h.owed, h.sent, h.read⟩

theorem welcomed_broker {n n' : Net} {e : BrokerEv} (h : Welcomed n) (hb : broker n e = some n') : Welcomed n' := by
  unfold broker at hb
  split at hb
  · split at hb
    · cases hb; exact welcomed_processes h _ _ _
    · cases hb
  · split at hb
    · rename_i hi
      cases hb
      refine ⟨fun hn => h.owed (List.mem_of_mem_eraseIdx hn), fun hn => ?_, h.read⟩
      rcases List.mem_append.1 hn with hn | hn
      · exact h.sent hn
      · rw [List.mem_singleton] at hn
        exact h.owed (hn ▸ List.mem_of_getElem? hi)
    · cases hb
  · split at hb
    · cases hb
      exact ⟨h.owed, fun hn => h.sent (by simpa using hn), h.read⟩
    · cases hb

theorem welcomed_move {a b : Client × Net} (h : Welcomed a.2) (hm : Move a b) : Welcomed b.2 := by
  cases hm with
  | client n hb hl => exact h
  | carries c n =>
    unfold Net.carries
    split
    · split <;> exact ⟨h.owed, h.sent, h.read⟩
    · exact h
  | opens c n => exact ⟨by simp [Net.opens], by simp [Net.opens], by simp [Net.opens]⟩
  | closes c n => exact ⟨h.owed, h.sent, h.read⟩
  | @reads c n i rest hi =>
    refine ⟨h.owed, fun hn => h.sent (by rw [hi]; exact List.mem_cons_of_mem _ hn), fun hn => ?_⟩
    rcases Bool.or_eq_true_iff.1 hn with hn | hn
    · exact h.read hn
    · exact h.sent (by rw [hi, of_decide_eq_true hn]; exact List.mem_cons_self)
  | skips c n => exact ⟨h.owed, fun hn => h.sent (List.mem_of_mem_tail hn), h.read⟩
  | broker hb => exact welcomed_broker h hb

theorem welcomed_moves {a b : Client × Net} (h : Welcomed a.2) (hm : Moves a b) : Welcomed b.2 := by
  induction hm with
  | refl => exact h
  | tail _ hm ih => exact welcomed_move ih hm

theorem welcomed_step (s : Link) (l : Label) (t : Link) (h : Welcomed s.net) (hs : step s l = some t) :
    Welcomed t.net := by
  rcases step_cases hs with ⟨e, rfl, hm⟩ | ⟨-, ha⟩
  · cases hm with
    | @starting pc _ r hm hr =>
      obtain ⟨ret, c, n⟩ := r
      have hn : Welcomed n := welcomed_moves h hr
      cases ret <;> exact hn
    | sends hm => exact welcomed_move h (.carries s.client s.net)
    | _ => exact h
  · exact welcomed_moves h ha.moves

theorem welcomed_of_run {ls : List Label} {s : Link} (h : Run.run step Link.boot ls = some s) : Welcomed s.net :=
  Run.run_invariant_of_step (P := fun s => Welcomed s.net) welcomed_step
    ⟨by simp [Link.boot, Net.offline], by simp [Link.boot, Net.offline], by simp [Link.boot, Net.offline]⟩ h

/-! ## The SUBSCRIBE in the send buffer -/

def Main.later : Main → List Subscription
  | .loop => subscribedTopics
  | .starting _ => subscribedTopics
  | .subscribing todo => todo
  | .sending _ todo => todo
  | .waiting _ todo => todo
  | .connected => []

/-- A SUBSCRIBE in the send buffer is the one encoded last. -/
def Latest (s : Link) : Prop := ∀ x, s.client.Buffers x → x :: s.main.later <:+ subscribedTopics

theorem buffers_of_moves {a b : Client × Net} {x : Subscription} (h : Moves a b) : b.1.Buffers x → a.1.Buffers x := by
  induction h with
  | refl => exact id
  | tail _ hm ih =>
    intro hx
    refine ih ?_
    cases hm with
    | client n hb _ => exact hb x hx
    | _ => exact hx

theorem buffers_of_umqttSubscribe {c c' : Client} {x y : Subscription} (h : c.umqttSubscribe x = some c')
    (hy : c'.Buffers y) : y = x := by
  unfold Client.umqttSubscribe at h
  split at h
  · cases h
  · split at h
    · cases h
    · cases h
      obtain ⟨id, hid⟩ := hy
      cases hid
      rfl

theorem sendBuf_of_ack (c : Client) (q : Fifo MsgAck PKG_UMQTT_MSG_QUEUE_ACK_DEF_SIZE) (x : Subscription) (ack : MsgAck) :
    (Client.umqttSubscribeAck { c with msgQueue := q } x ack).sendBuf = c.sendBuf := by
  unfold Client.umqttSubscribeAck
  split <;> rfl

theorem started_later (s : Link) (r : ConnectRet × Client × Net) :
    (s.started r).main.later = subscribedTopics ∧ (s.started r).client.sendBuf = r.2.1.sendBuf ∧
      (s.started r).net = r.2.2 := by
  obtain ⟨ret, c, n⟩ := r
  cases ret <;> exact ⟨rfl, rfl, rfl⟩

theorem latest_step (s : Link) (l : Label) (t : Link) (h : Registry s ∧ Latest s) (hs : step s l = some t) :
    Registry t ∧ Latest t := by
  refine ⟨registry_step s l t h.1 hs, fun y hy => ?_⟩
  obtain ⟨hreg, hlat⟩ := h
  rcases step_cases hs with ⟨e, rfl, hm⟩ | ⟨-, ha⟩
  · cases hm with
    | connecting hm => obtain ⟨id, hid⟩ := hy; cases hid
    | noClient hm => exact hlat y hy
    | @starting pc _ r hm hr =>
      obtain ⟨hlater, hbuf, -⟩ := started_later s r
      have hry : r.2.1.Buffers y := by
        unfold Client.Buffers at hy ⊢
        rwa [hbuf] at hy
      have := hlat y (buffers_of_moves hr hry)
      rw [hm] at this
      rwa [hlater]
    | @encodes x todo c hm hc =>
      rw [buffers_of_umqttSubscribe hc hy]
      have := hreg.suffix
      rwa [hm] at this
    | refuses hm hc => exact absurd hc (hreg.umqttSubscribe hm)
    | returns hm | sends hm | sendFails hm | timesOut hm =>
      have := hlat y hy
      rwa [hm] at this
    | @takes x todo ack q hm hq =>
      unfold Client.Buffers at hy
      rw [sendBuf_of_ack] at hy
      have := hlat y hy
      rwa [hm] at this
  · rw [ha.main]
    exact hlat y (buffers_of_moves ha.moves hy)

theorem latest_of_run {ls : List Label} {s : Link} (h : Run.run step Link.boot ls = some s) : Latest s := by
  have hboot : Registry Link.boot ∧ Latest Link.boot := by
    refine ⟨registry_boot, ?_⟩
    rintro x ⟨id, hid⟩
    cases hid
  exact (Run.run_invariant_of_step (P := fun s => Registry s ∧ Latest s) latest_step hboot h).2

theorem topicfilter_of_last {x : Subscription} (h : [x] <:+ subscribedTopics) :
    x.topicfilter ≠ configSubscription.topicfilter := by
  obtain ⟨pre, hpre⟩ := h
  have hlast := congrArg List.getLast? hpre
  rw [List.getLast?_append_of_ne_nil _ (by simp)] at hlast
  rw [show x = addCoinsSubscription from Option.some.inj hlast]
  decide

/-! ## Since the acknowledgement -/

def NoConfig (ps : List Packet) : Prop :=
  ∀ id x, .subscribe id x ∈ ps → x.topicfilter ≠ configSubscription.topicfilter

/-- **Since connection `k` was acknowledged**: it keeps its subscriptions, and a later one has no configuration topic. -/
structure Since (k : Nat) (p : Client × Net) : Prop where
  buffer : ∀ x, p.1.Buffers x → x.topicfilter ≠ configSubscription.topicfilter
  le : k ≤ p.2.opened
  same : p.2.opened = k → p.2.session = true ∧ BrokerHolds p.2
  later : k < p.2.opened → NoConfig p.2.toBroker ∧
    (p.2.session = true → configSubscription.topicfilter ∉ p.2.subscriptions)

/-- A change of the network that neither opens a connection nor takes from the broker's subscriptions. -/
theorem Since.frame {k : Nat} {c : Client} {n n' : Net} (h : Since k (c, n)) (ho : n'.opened = n.opened)
    (hb : ∀ p ∈ n'.toBroker, p ∈ n.toBroker ∨ c.sendBuf = some p) (hs : n'.session = n.session)
    (hsub : n'.subscriptions = n.subscriptions) : Since k (c, n') := by
  refine ⟨h.buffer, ho ▸ h.le, fun he => ?_, fun hk => ⟨fun id x hx => ?_, fun hsess => ?_⟩⟩
  · rw [ho] at he
    obtain ⟨hsess, hhold⟩ := h.same he
    refine ⟨hs.trans hsess, fun x hx => ?_⟩
    rw [hsub]
    exact hhold x hx
  · rcases hb _ hx with hx | hx
    · exact (h.later (ho ▸ hk)).1 id x hx
    · exact h.buffer x ⟨id, hx⟩
  · rw [hsub]
    exact (h.later (ho ▸ hk)).2 (hs ▸ hsess)

theorem since_processes {k : Nat} {c : Client} {n : Net} (h : Since k (c, n)) (accept : Bool) {p : Packet}
    {rest : List Packet} (hp : n.toBroker = p :: rest) : Since k (c, n.processes accept p rest) := by
  have hrest : ∀ q ∈ rest, q ∈ n.toBroker ∨ c.sendBuf = some q := by
    intro q hq
    rw [hp]
    exact Or.inl (List.mem_cons_of_mem _ hq)
  cases p with
  | connect =>
    simp only [Net.processes]
    split
    · exact h.frame rfl (fun _ => Or.inl) rfl rfl
    · rename_i hsess
      split
      · refine ⟨h.buffer, h.le, fun he => absurd (h.same he).1 hsess, fun hk => ⟨fun id x hx => ?_, fun _ => List.not_mem_nil⟩⟩
        exact (h.later hk).1 id x (by rw [hp]; exact List.mem_cons_of_mem _ hx)
      · exact h.frame rfl hrest rfl rfl
  | subscribe id x =>
    simp only [Net.processes]
    split
    · rename_i hsess
      refine ⟨h.buffer, h.le, fun he => ⟨hsess, fun y hy => ?_⟩, fun hk => ⟨fun id' y hy => ?_, fun _ hmem => ?_⟩⟩
      · have := (h.same he).2 y hy
        cases accept
        · exact this
        · exact List.mem_cons_of_mem _ this
      · exact (h.later hk).1 id' y (by rw [hp]; exact List.mem_cons_of_mem _ hy)
      · obtain ⟨hno, hsub⟩ := h.later hk
        have hx := hno id x (by rw [hp]; exact List.mem_cons_self)
        cases accept
        · exact hsub hsess hmem
        · exact (List.mem_cons.1 hmem).elim (fun he => hx he.symm) (hsub hsess)
    · exact h.frame rfl (fun _ => Or.inl) rfl rfl
  | _ =>
    simp only [Net.processes]
    split
    · exact h.frame rfl hrest rfl rfl
    · exact h.frame rfl (fun _ => Or.inl) rfl rfl

theorem since_broker {k : Nat} {c : Client} {n n' : Net} {e : BrokerEv} (h : Since k (c, n))
    (hb : broker n e = some n') : Since k (c, n') := by
  unfold broker at hb
  split at hb
  · split at hb
    · rename_i hp; cases hb; exact since_processes h _ hp
    · cases hb
  · split at hb
    · cases hb; exact h.frame rfl (fun _ => Or.inl) rfl rfl
    · cases hb
  · split at hb
    · cases hb; exact h.frame rfl (fun _ => Or.inl) rfl rfl
    · cases hb

theorem since_move {k : Nat} {a b : Client × Net} (h : Since k a) (hm : Move a b) : Since k b := by
  cases hm with
  | client n hb hl => exact ⟨fun x hx => h.buffer x (hb x hx), h.le, h.same, h.later⟩
  | carries c n =>
    unfold Net.carries
    split
    · rename_i q hq
      split
      · refine h.frame rfl (fun p hp => ?_) rfl rfl
        rcases List.mem_append.1 hp with hp | hp
        · exact Or.inl hp
        · rw [List.mem_singleton.1 hp]
          exact Or.inr hq
      · exact h
    · exact h
  | opens c n =>
    have hle : k ≤ n.opened := h.le
    refine ⟨h.buffer, Nat.le_succ_of_le hle, fun he => ?_, fun _ => ⟨fun id x hx => ?_, fun hs => ?_⟩⟩
    · have : n.opened + 1 = k := he
      omega
    · cases hx
    · cases hs
  | closes c n => exact h.frame rfl (fun _ => Or.inl) rfl rfl
  | reads hi => exact h.frame rfl (fun _ => Or.inl) rfl rfl
  | skips c n => exact h.frame rfl (fun _ => Or.inl) rfl rfl
  | broker hb => exact since_broker h hb

theorem since_moves {k : Nat} {a b : Client × Net} (h : Since k a) (hm : Moves a b) : Since k b := by
  induction hm with
  | refl => exact h
  | tail _ hm ih => exact since_move ih hm

theorem mqttLinkConnect_connected (s : Link) (e : Ev) : mqttLinkConnect s .connected e = none := by
  cases e <;> rfl

theorem since_step {k : Nat} (s : Link) (l : Label) (t : Link) (h : s.main = .connected ∧ Since k (s.client, s.net))
    (hs : step s l = some t) : t.main = .connected ∧ Since k (t.client, t.net) := by
  obtain ⟨hmain, hsince⟩ := h
  rcases step_cases hs with ⟨e, rfl, -⟩ | ⟨-, ha⟩
  · rw [show step s (.main e) = mqttLinkConnect s s.main e from rfl, hmain, mqttLinkConnect_connected] at hs
    cases hs
  · exact ⟨ha.main.trans hmain, since_moves hsince ha.moves⟩

theorem since_of_acknowledged {ls : List Label} {s : Link} (h : Run.run step Link.boot ls = some s)
    (ha : Acknowledged s) : Since s.net.opened (s.client, s.net) := by
  obtain ⟨hmain, -, ⟨-, -, hread⟩, hholds⟩ := ha
  refine ⟨fun x hx => ?_, Nat.le_refl _, fun _ => ⟨(welcomed_of_run h).read hread, hholds⟩,
    fun hk => absurd hk (Nat.lt_irrefl _)⟩
  have := latest_of_run h x hx
  rw [hmain] at this
  exact topicfilter_of_last this

/-! ## The broker's subscriptions in every established state -/

/-- **The broker holds the three subscriptions in every established state of a run exactly when no established state
is on a connection opened after the acknowledged one.** -/
theorem brokerHolds_iff_no_reconnection {ls₀ : List Label} {s : Link} (h₀ : Run.run step Link.boot ls₀ = some s)
    (hack : Acknowledged s) (ls : List Label) :
    (∀ t, Run.Visits step s ls t → Established t → BrokerHolds t.net) ↔
      ∀ t, Run.Visits step s ls t → Established t → t.net.opened = s.net.opened := by
  have hsince : ∀ t, Run.Visits step s ls t → Since s.net.opened (t.client, t.net) ∧ Welcomed t.net := by
    rintro t ⟨pre, post, rfl, hr⟩
    have hrun : Run.run step Link.boot (ls₀ ++ pre) = some t := Run.run_append_some.2 ⟨s, h₀, hr⟩
    exact ⟨(Run.run_invariant_of_step (P := fun t => t.main = .connected ∧ Since s.net.opened (t.client, t.net))
      since_step ⟨hack.1, since_of_acknowledged h₀ hack⟩ hr).2, welcomed_of_run hrun⟩
  constructor
  · intro h t ht hest
    obtain ⟨hs, hw⟩ := hsince t ht
    by_contra hne
    have hlt : s.net.opened < t.net.opened := lt_of_le_of_ne hs.le (Ne.symm hne)
    exact (hs.later hlt).2 (hw.read hest.2.2) (h t ht hest configSubscription (by decide))
  · intro h t ht hest
    exact ((hsince t ht).1.same (h t ht hest)).2

def acknowledgedRound : List Label :=
  startRound ++ (subscribeRound ++ (subscribeRound ++ (subscribeRound ++ [.main .ok])))

def acknowledgedLink : Link where
  main := .connected
  reader := .idle
  thread := .reading
  timer := .idle
  client :=
    { sock := true, connectState := .linked, reconnectCount := 1, keepaliveCount := 0, packetId := 3,
      sendBuf := some (.subscribe 3 addCoinsSubscription), msgQueue := Fifo.empty, timerOn := true,
      subRecvList := [addCoinsSubscription, enableSubscription, configSubscription] }
  net :=
    { opened := 1, up := true, toBroker := [], toClient := [], connacked := true, session := true,
      subscriptions := [addCoinsSubscription.topicfilter, enableSubscription.topicfilter, configSubscription.topicfilter],
      owed := [] }
  pushed := [.connecting, .connSuccess]

theorem run_acknowledgedRound : Run.run step Link.boot acknowledgedRound = some acknowledgedLink := by rfl

/-- The link drops, and `umqtt_thread` reconnects to a broker that accepts. -/
def reconnectRound : List Label :=
  [.drop, .thread .fin, .thread .ok, .thread .ok, .broker (.process true), .broker (.answer 0), .thread .recv, .thread .ok]

/-- **One reconnection leaves an established session without subscriptions.** -/
theorem reconnection_subscribes_nothing :
    Run.run step Link.boot acknowledgedRound = some acknowledgedLink ∧ Acknowledged acknowledgedLink ∧
      ∃ t, Run.run step acknowledgedLink reconnectRound = some t ∧ Established t ∧ t.net.subscriptions = [] ∧
        ¬ BrokerHolds t.net :=
  ⟨run_acknowledgedRound, by decide, _, rfl, by decide⟩

theorem brokerHolds_iff_no_reconnection_swipe :
    (∀ t, Run.Visits step acknowledgedLink [.reader .ok, .reader .ok, .broker (.process true)] t → Established t →
      BrokerHolds t.net) ↔
      ∀ t, Run.Visits step acknowledgedLink [.reader .ok, .reader .ok, .broker (.process true)] t → Established t →
        t.net.opened = acknowledgedLink.net.opened :=
  brokerHolds_iff_no_reconnection run_acknowledgedRound (by decide) _

end Umqtt
end RtPay
