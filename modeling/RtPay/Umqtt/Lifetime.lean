import RtPay.Umqtt.Reconnect
/-!
# Umqtt.Lifetime — how often the client connects again

`umqtt_connect` counts its attempts in `reconnect_count`, which no success sets back.  The attempts are a budget for the
whole life of the client: each connection is paid from it, the uplink timer can fill it up once more by giving up, and
when it is spent the device stays off line.
-/
namespace RtPay
namespace Umqtt

/-! ## An attempt -/

/-- **What a step of `umqtt_connect` does** to the count, to the state and to the number of connections. -/
inductive Attempt (c : Client) (n : Net) : ConnectPc → ConnectRet → Client → Net → Prop
  | givesUp (c' : Client) (h : PKG_UMQTT_INFO_DEF_RECONNECT_MAX_NUM < c.reconnectCount + 1) (hc : c'.reconnectCount = 0)
      (hs : c'.connectState = .disconnect) (hk : c'.sock = c.sock) : Attempt c n .reconnect .reconnectFailed c' n
  | connects (c' : Client) (h : c.reconnectCount + 1 ≤ PKG_UMQTT_INFO_DEF_RECONNECT_MAX_NUM)
      (hc : c'.reconnectCount = c.reconnectCount + 1) : Attempt c n .reconnect (.goto .send) c' n.opens
  | fails (c' : Client) (h : c.reconnectCount + 1 ≤ PKG_UMQTT_INFO_DEF_RECONNECT_MAX_NUM)
      (hc : c'.reconnectCount = c.reconnectCount + 1) (hk : c'.sock = false) :
      Attempt c n .reconnect (.goto .reconnect) c' n
  | goesOn {pc : ConnectPc} (hpc : pc ≠ .reconnect) (r : ConnectRet) (hr : r ≠ .reconnectFailed) (c' : Client) (n' : Net)
      (hc : c'.reconnectCount = c.reconnectCount) (hn : n'.opened = n.opened) : Attempt c n pc r c' n'

theorem opened_carries (n : Net) (p : Option Packet) : (n.carries p).opened = n.opened := by
  unfold Net.carries
  split
  · split <;> rfl
  · rfl

theorem opened_broker {n n' : Net} {e : BrokerEv} (h : broker n e = some n') : n'.opened = n.opened := by
  unfold broker at h
  split at h
  · split at h
    · cases h
      unfold Net.processes
      split <;> (repeat' split) <;> rfl
    · cases h
  · split at h
    · cases h
      rfl
    · cases h
  · split at h
    · cases h
      rfl
    · cases h

theorem handled_count (c : Client) (i : Incoming) : (umqttHandleReadpacket c i).2.reconnectCount = c.reconnectCount ∧
    (umqttHandleReadpacket c i).2.timerOn = c.timerOn ∧ (umqttHandleReadpacket c i).2.sock = c.sock := by
  cases i with
  | publish qos id => cases qos <;> exact ⟨rfl, rfl, rfl⟩
  | ack msg =>
    cases h : c.msgQueue.send msg <;> simp [umqttHandleReadpacket, h]
  | connack a => exact ⟨rfl, rfl, rfl⟩
  | pubrel => exact ⟨rfl, rfl, rfl⟩
  | pingresp => exact ⟨rfl, rfl, rfl⟩

theorem attempt_of_umqttConnect {block : Bool} {c c' : Client} {n n' : Net} {pc : ConnectPc} {e : Ev} {r : ConnectRet}
    (h : umqttConnect block c n pc e = some (r, c', n')) :
    Attempt c n pc r c' n' ∧ c'.timerOn = c.timerOn ∧
      (block = false → pc = .send → ∀ pc', r ≠ .goto pc') := by
  unfold umqttConnect at h
  split at h
  · split at h
    · rename_i hmax
      cases h
      exact ⟨.givesUp _ hmax rfl rfl rfl, rfl, fun _ h => by cases h⟩
    · rename_i hmax
      cases h
      exact ⟨.connects _ (not_lt.1 hmax) rfl, rfl, fun _ h => by cases h⟩
  · split at h
    · rename_i hmax
      cases h
      exact ⟨.givesUp _ hmax rfl rfl rfl, rfl, fun _ h => by cases h⟩
    · rename_i hmax
      cases h
      exact ⟨.fails _ (not_lt.1 hmax) rfl rfl, rfl, fun _ h => by cases h⟩
  · split at h
    · cases h
      refine ⟨.goesOn (by decide) _ (by split <;> simp) _ _ rfl (opened_carries _ _), rfl, ?_⟩
      rintro rfl - pc' hr
      cases hr
    · cases h
  · cases h
    exact ⟨.goesOn (by decide) _ (by decide) _ _ rfl rfl, rfl, by simp⟩
  · split at h
    · rename_i i rest hsock hrest
      have hh := handled_count c i
      generalize umqttHandleReadpacket c i = x at h hh
      obtain ⟨handled, d⟩ := x
      cases handled with
      | done =>
        cases h
        exact ⟨.goesOn (by decide) _ (by decide) _ _ hh.1 rfl, hh.2.1, fun _ h => by cases h⟩
      | reply =>
        cases h
        exact ⟨.goesOn (by decide) _ (by decide) _ _ hh.1 rfl, hh.2.1, fun _ h => by cases h⟩
      | failed =>
        cases h
        exact ⟨.goesOn (by decide) _ (by decide) _ _ hh.1 rfl, hh.2.1, fun _ h => by cases h⟩
    · cases h
  · cases h
    exact ⟨.goesOn (by decide) _ (by decide) _ _ rfl rfl, rfl, fun _ h => by cases h⟩
  · cases h
    exact ⟨.goesOn (by decide) _ (by decide) _ _ rfl rfl, rfl, fun _ h => by cases h⟩
  · split at h
    · cases h
      exact ⟨.goesOn (by decide) _ (by decide) _ _ rfl (opened_carries _ _), rfl, fun _ h => by cases h⟩
    · cases h
  · cases h
    exact ⟨.goesOn (by decide) _ (by decide) _ _ rfl rfl, rfl, fun _ h => by cases h⟩
  · split at h
    · cases h
      exact ⟨.goesOn (by decide) _ (by decide) _ _ rfl rfl, rfl, fun _ h => by cases h⟩
    · cases h
  · split at h
    · cases h
    · cases h
      exact ⟨.goesOn (by decide) _ (by decide) _ _ rfl rfl, rfl, fun _ h => by cases h⟩
  · cases h

/-! ## The budget -/

/-- The timer thread is in `umqtt_connect`. -/
def Timer.calls : Timer → Bool
  | .connecting _ => true
  | _ => false

/-- **The timer may still give up**, which sets the count back while `umqtt_thread` lives on: it is in an attempt, or it may
come to one.  A client that is disconnected and has no socket is left alone by the timer. -/
def Link.mayReset (s : Link) : Bool :=
  s.timer.calls || (s.client.timerOn && !(s.client.connectState = .disconnect && !s.client.sock))

/-- The connections that can still be opened. -/
def Link.budget (s : Link) : Nat :=
  if s.thread = .quit then if s.timer = .connecting .reconnect then 1 else 0
  else PKG_UMQTT_INFO_DEF_RECONNECT_MAX_NUM - s.client.reconnectCount +
    if s.mayReset then PKG_UMQTT_INFO_DEF_RECONNECT_MAX_NUM else 0

/-- **A client that was started**: `umqtt_thread` has stopped the timer before it connects or quits, and a timer that
still runs has closed the socket before it connects. -/
structure Alive (s : Link) : Prop where
  started : s.thread ≠ .notStarted
  count : s.client.reconnectCount ≤ PKG_UMQTT_INFO_DEF_RECONNECT_MAX_NUM
  stopped : s.client.timerOn = true → s.thread = .reading ∨ s.thread = .replying
  calls : ∀ pc, s.timer = .connecting pc → pc = .reconnect ∨ pc = .send
  closed : s.timer = .connecting .reconnect → s.client.timerOn = true → s.client.sock = false
  counted : s.mayReset = true → s.thread ≠ .quit → 1 ≤ s.client.reconnectCount

/-- A client that `umqtt_start` has not returned. -/
structure Fresh (s : Link) : Prop where
  thread : s.thread = .notStarted
  timer : s.timer = .idle
  timerOn : s.client.timerOn = false
  count : s.client.reconnectCount ≤ PKG_UMQTT_INFO_DEF_RECONNECT_MAX_NUM
  counted : ∀ pc, s.main = .starting pc → pc ≠ .reconnect → 1 ≤ s.client.reconnectCount

/-- What a step that opens no connection leaves of the two. -/
structure Same (s t : Link) : Prop where
  thread : t.thread = s.thread
  timer : t.timer = s.timer
  count : t.client.reconnectCount = s.client.reconnectCount
  timerOn : t.client.timerOn = s.client.timerOn
  sock : t.client.sock = s.client.sock
  connectState : t.client.connectState = s.client.connectState
  opened : t.net.opened = s.net.opened

theorem Same.mayReset {s t : Link} (h : Same s t) : t.mayReset = s.mayReset := by
  unfold Link.mayReset
  rw [h.timer, h.timerOn, h.sock, h.connectState]

theorem Same.budget {s t : Link} (h : Same s t) : t.budget = s.budget := by
  unfold Link.budget
  rw [h.thread, h.timer, h.count, h.mayReset]

theorem Alive.same {s t : Link} (h : Alive s) (hs : Same s t) : Alive t where
  started := by rw [hs.thread]; exact h.started
  count := by rw [hs.count]; exact h.count
  stopped := by rw [hs.timerOn, hs.thread]; exact h.stopped
  calls := by rw [hs.timer]; exact h.calls
  closed := by rw [hs.timer, hs.timerOn, hs.sock]; exact h.closed
  counted := by rw [hs.mayReset, hs.thread, hs.count]; exact h.counted

/-- **A step pays for what it opens.** -/
structure Pays (s t : Link) : Prop where
  alive : Alive t
  opened : t.net.opened + t.budget ≤ s.net.opened + s.budget

theorem Pays.of_same {s t : Link} (h : Alive s) (hs : Same s t) : Pays s t :=
  ⟨h.same hs, by rw [hs.opened, hs.budget]⟩

/-! ## The threads -/

theorem same_main {s t : Link} {e : Ev} (hc : s.main.hasClient) (h : mqttLinkConnect s s.main e = some t) :
    Same s t ∧ t.main.hasClient := by
  generalize hm : s.main = m at h hc
  unfold mqttLinkConnect at h
  split at h
  · cases hc
  · cases hc
  · cases hc
  · cases h
    exact ⟨⟨rfl, rfl, rfl, rfl, rfl, rfl, rfl⟩, rfl⟩
  · split at h
    · rename_i x todo c hsub
      cases h
      unfold Client.umqttSubscribe at hsub
      split at hsub
      · cases hsub
      · split at hsub
        · cases hsub
        · cases hsub
          exact ⟨⟨rfl, rfl, rfl, rfl, rfl, rfl, rfl⟩, rfl⟩
    · cases h
      exact ⟨⟨rfl, rfl, rfl, rfl, rfl, rfl, rfl⟩, rfl⟩
  · split at h
    · cases h
      exact ⟨⟨rfl, rfl, rfl, rfl, rfl, rfl, opened_carries _ _⟩, rfl⟩
    · cases h
  · cases h
    exact ⟨⟨rfl, rfl, rfl, rfl, rfl, rfl, rfl⟩, rfl⟩
  · split at h
    · rename_i x todo ack q hq
      cases h
      unfold Client.umqttSubscribeAck
      split <;> exact ⟨⟨rfl, rfl, rfl, rfl, rfl, rfl, rfl⟩, rfl⟩
    · cases h
  · cases h
    exact ⟨⟨rfl, rfl, rfl, rfl, rfl, rfl, rfl⟩, rfl⟩
  · cases h

theorem same_reader {s t : Link} {e : Ev} (h : mqttLinkSend s s.reader e = some t) : Same s t ∧ t.main = s.main := by
  unfold mqttLinkSend at h
  split at h
  · split at h
    · cases h
      exact ⟨⟨rfl, rfl, rfl, rfl, rfl, rfl, rfl⟩, rfl⟩
    · cases h
  · split at h
    · cases h
      exact ⟨⟨rfl, rfl, rfl, rfl, rfl, rfl, opened_carries _ _⟩, rfl⟩
    · cases h
  · cases h
    exact ⟨⟨rfl, rfl, rfl, rfl, rfl, rfl, rfl⟩, rfl⟩
  · split at h
    · cases h
      exact ⟨⟨rfl, rfl, rfl, rfl, rfl, rfl, rfl⟩, rfl⟩
    · cases h
  · cases h
    exact ⟨⟨rfl, rfl, rfl, rfl, rfl, rfl, rfl⟩, rfl⟩
  · cases h

/-- **The count pays**, while `umqtt_thread` lives: a connection more is an attempt more. -/
theorem Pays.counted {s t : Link} (h : Alive s) (hsq : s.thread ≠ .quit) (htq : t.thread ≠ .quit)
    (htn : t.thread ≠ .notStarted) (hstopped : t.client.timerOn = true → t.thread = .reading ∨ t.thread = .replying)
    (hcalls : ∀ pc, t.timer = .connecting pc → pc = .reconnect ∨ pc = .send)
    (hclosed : t.timer = .connecting .reconnect → t.client.timerOn = true → t.client.sock = false)
    (hreset : t.mayReset = true → s.mayReset = true) (hle : s.client.reconnectCount ≤ t.client.reconnectCount)
    (hmax : t.client.reconnectCount ≤ PKG_UMQTT_INFO_DEF_RECONNECT_MAX_NUM)
    (hopened : t.net.opened + s.client.reconnectCount ≤ s.net.opened + t.client.reconnectCount) : Pays s t := by
  refine ⟨⟨htn, hmax, hstopped, hcalls, hclosed, fun hr _ => (h.counted (hreset hr) hsq).trans hle⟩, ?_⟩
  have hif : (if t.mayReset then PKG_UMQTT_INFO_DEF_RECONNECT_MAX_NUM else 0) ≤
      if s.mayReset then PKG_UMQTT_INFO_DEF_RECONNECT_MAX_NUM else 0 := by
    split
    · rename_i hr
      rw [if_pos (hreset hr)]
    · exact Nat.zero_le _
  unfold Link.budget
  rw [if_neg hsq, if_neg htq]
  omega

/-- The thread goes on, and nothing but its place and the state of a client with a socket has changed. -/
theorem Pays.reading {s t : Link} (h : Alive s) (hs : s.thread = .reading ∨ s.thread = .replying)
    (ht : t.thread = .reading ∨ t.thread = .replying) (htimer : t.timer = s.timer)
    (hcount : t.client.reconnectCount = s.client.reconnectCount) (hon : t.client.timerOn = s.client.timerOn)
    (hsock : t.client.sock = s.client.sock) (hstate : t.client.connectState = s.client.connectState ∨ s.client.sock = true)
    (hopened : t.net.opened = s.net.opened) : Pays s t := by
  have hreset : t.mayReset = s.mayReset := by
    unfold Link.mayReset
    rw [htimer, hon, hsock]
    rcases hstate with hstate | hsock
    · rw [hstate]
    · simp [hsock]
  refine .counted h ?_ ?_ ?_ (fun _ => ht) ?_ ?_ (fun hr => hreset ▸ hr) hcount.ge ?_ (by omega)
  · rcases hs with hs | hs <;> simp [hs]
  · rcases ht with ht | ht <;> simp [ht]
  · rcases ht with ht | ht <;> simp [ht]
  · rw [htimer]
    exact h.calls
  · rw [htimer, hon, hsock]
    exact h.closed
  · rw [hcount]
    exact h.count

/-- The timer is off, and so it may not start an attempt. -/
theorem mayReset_of_off {s : Link} (h : s.client.timerOn = false) : s.mayReset = s.timer.calls := by
  rw [Link.mayReset, h, Bool.false_and, Bool.or_false]

theorem budget_quit_le {s : Link} (h : s.thread = .quit) :
    s.budget ≤ if s.timer.calls then PKG_UMQTT_INFO_DEF_RECONNECT_MAX_NUM else 0 := by
  unfold Link.budget
  rw [if_pos h]
  split
  · rename_i ht
    rw [ht]
    decide
  · exact Nat.zero_le _

/-- **A step of `umqtt_thread`.** -/
theorem pays_thread {s t : Link} {e : Ev} (h : Alive s) (hs : umqttThread s s.thread e = some t) :
    Pays s t ∧ t.main = s.main := by
  generalize hth : s.thread = th at hs
  unfold umqttThread at hs
  split at hs
  · split at hs
    · rename_i i rest hsock hrest
      obtain ⟨hcount, hon, hk⟩ := handled_count s.client i
      cases hs
      refine ⟨.reading h (Or.inl hth) ?_ rfl hcount hon hk (Or.inr hsock) rfl, rfl⟩
      show (if _ then Thread.replying else .reading) = .reading ∨ (if _ then Thread.replying else .reading) = .replying
      split
      · exact Or.inr rfl
      · exact Or.inl rfl
    · cases hs
  · cases hs
    refine ⟨.counted h (by simp [hth]) (by simp) (by simp) (by simp) h.calls (by simp) (fun hr => ?_) le_rfl h.count le_rfl,
      rfl⟩
    rw [mayReset_of_off rfl] at hr
    rw [Link.mayReset, show s.timer.calls = true from hr, Bool.true_or]
  · cases hs
    exact ⟨.reading h (Or.inl hth) (Or.inl hth) rfl rfl rfl rfl (Or.inl rfl) rfl, rfl⟩
  · split at hs
    · cases hs
      exact ⟨.reading h (Or.inr hth) (Or.inl rfl) rfl rfl rfl rfl (Or.inl rfl) (opened_carries _ _), rfl⟩
    · cases hs
  · cases hs
    exact ⟨.reading h (Or.inr hth) (Or.inl rfl) rfl rfl rfl rfl (Or.inl rfl) rfl, rfl⟩
  · rename_i pc
    obtain ⟨⟨r, c, n⟩, hr, rfl⟩ := Option.map_eq_some_iff.1 hs
    obtain ⟨hattempt, hon, -⟩ := attempt_of_umqttConnect hr
    have hoff : s.client.timerOn = false := by
      cases hon' : s.client.timerOn with
      | false => rfl
      | true => rcases h.stopped hon' with hs | hs <;> rw [hth] at hs <;> cases hs
    have hcoff : c.timerOn = false := hon.trans hoff
    have hsq : s.thread ≠ .quit := by simp [hth]
    have hcount := h.count
    refine ⟨?_, rfl⟩
    have hpays : ∀ th : Thread, th ≠ .quit → th ≠ .notStarted → s.client.reconnectCount ≤ c.reconnectCount →
        c.reconnectCount ≤ PKG_UMQTT_INFO_DEF_RECONNECT_MAX_NUM →
        n.opened + s.client.reconnectCount ≤ s.net.opened + c.reconnectCount →
        Pays s { s with thread := th, client := c, net := n } := by
      intro th hq hn hle hmax hopened
      refine .counted h hsq hq hn (by simp [hcoff]) h.calls (by simp [hcoff]) (fun hr => ?_) hle hmax hopened
      rw [mayReset_of_off hcoff] at hr
      rwa [mayReset_of_off hoff]
    cases hattempt with
    | givesUp _ hmax hc hs hk =>
      refine ⟨⟨by simp [ConnectRet.thread], by simp [hc], by simp [hcoff], h.calls, by simp [hcoff],
        fun _ hq => absurd rfl hq⟩, Nat.add_le_add_left ((budget_quit_le rfl).trans ?_) _⟩
      unfold Link.budget
      rw [if_neg hsq, mayReset_of_off hoff]
      exact Nat.le_add_left _ _
    | connects _ hmax hc =>
      refine hpays _ (by simp [ConnectRet.thread]) (by simp [ConnectRet.thread]) (by omega) (by omega) ?_
      show s.net.opened + 1 + _ ≤ _
      omega
    | fails _ hmax hc hk =>
      exact hpays _ (by simp [ConnectRet.thread]) (by simp [ConnectRet.thread]) (by omega) (by omega) (by omega)
    | goesOn hpc r hr c' n' hc hn =>
      refine hpays _ ?_ ?_ (by omega) (by omega) (by omega)
      · cases r <;> simp_all [ConnectRet.thread]
      · cases r <;> simp [ConnectRet.thread]
  · cases hs

/-- The timer's step leaves the thread and the count, and starts no attempt that it might not have started before. -/
theorem Pays.timer {s t : Link} (h : Alive s) (hth : t.thread = s.thread) (htimer : t.timer.calls = false)
    (hcount : t.client.reconnectCount = s.client.reconnectCount) (hon : t.client.timerOn = s.client.timerOn)
    (hreset : t.mayReset = true → s.mayReset = true) (hopened : t.net.opened = s.net.opened) : Pays s t := by
  have hne : ∀ pc, t.timer ≠ .connecting pc := fun pc hpc => by rw [hpc] at htimer; cases htimer
  by_cases hsq : s.thread = .quit
  · have htq := hth.trans hsq
    refine ⟨⟨by simp [htq], hcount ▸ h.count, ?_, fun pc hpc => absurd hpc (hne pc), fun hpc => absurd hpc (hne _),
      fun _ hq => absurd htq hq⟩, ?_⟩
    · rw [hon, hth]
      exact h.stopped
    · unfold Link.budget
      rw [if_pos htq, if_neg (hne _), hopened]
      exact Nat.add_le_add_left (Nat.zero_le _) _
  · refine .counted h hsq (hth ▸ hsq) (hth ▸ h.started) ?_ (fun pc hpc => absurd hpc (hne pc))
      (fun hpc => absurd hpc (hne _)) hreset hcount.ge (hcount ▸ h.count) (by omega)
    rw [hon, hth]
    exact h.stopped

/-- **A step of the uplink timer.** -/
theorem pays_timer {s t : Link} {e : TimerEv} (h : Alive s) (hs : umqttUplinkTimer s s.timer e = some t) :
    Pays s t ∧ t.main = s.main := by
  generalize htm : s.timer = tm at hs
  unfold umqttUplinkTimer at hs
  split at hs
  · split at hs
    · cases hs
      exact ⟨.timer h rfl rfl rfl rfl (fun hr => by rw [Link.mayReset, htm]; exact hr) rfl, rfl⟩
    · cases hs
  · split at hs
    · rename_i hlinked
      simp only [Bool.and_eq_true, decide_eq_true_eq] at hlinked
      have hreset : s.mayReset = true := by simp [Link.mayReset, hlinked.1, hlinked.2]
      split at hs
      · cases hs
        exact ⟨.timer h rfl (by rw [htm]; rfl) rfl rfl (fun _ => hreset) rfl, rfl⟩
      · cases hs
        exact ⟨.timer h rfl rfl rfl rfl (fun _ => hreset) rfl, rfl⟩
    · cases hs
  · split at hs
    · rename_i hlinking
      simp only [Bool.and_eq_true, decide_eq_true_eq] at hlinking
      have hreset : s.mayReset = true := by simp [Link.mayReset, hlinking.1, hlinking.2]
      have hth := h.stopped hlinking.1
      split at hs
      · cases hs
        exact ⟨.timer h rfl (by rw [htm]; rfl) rfl rfl (fun _ => hreset) rfl, rfl⟩
      · rename_i hsock
        split at hs
        · cases hs
          refine ⟨⟨⟨by simp, h.count, by simp, by simp [htm], by simp, fun _ hq => absurd rfl hq⟩,
            Nat.add_le_add_left ?_ _⟩, rfl⟩
          refine (budget_quit_le rfl).trans ?_
          rw [htm]
          exact Nat.zero_le _
        · cases hs
          have hsq : s.thread ≠ .quit := by rcases hth with hth | hth <;> simp [hth]
          refine ⟨.counted h hsq hsq h.started (fun _ => hth) ?_ (fun _ _ => ?_) (fun _ => hreset) le_rfl h.count le_rfl,
            rfl⟩
          · rintro pc ⟨⟩
            exact Or.inl rfl
          · simpa using hsock
    · cases hs
  · split at hs
    · cases hs
      exact ⟨.timer h rfl rfl rfl rfl (fun hr => by rw [Link.mayReset, htm]; exact hr) (opened_carries _ _), rfl⟩
    · cases hs
  · cases hs
    exact ⟨.timer h rfl rfl rfl rfl (fun hr => by rw [Link.mayReset, htm]; exact hr) rfl, rfl⟩
  · rename_i pc e
    obtain ⟨⟨r, c, n⟩, hr, rfl⟩ := Option.map_eq_some_iff.1 hs
    obtain ⟨hattempt, hon, hsend⟩ := attempt_of_umqttConnect hr
    have hreset : s.mayReset = true := by simp [Link.mayReset, htm, Timer.calls]
    have hcount := h.count
    have hstopped : c.timerOn = true → s.thread = .reading ∨ s.thread = .replying := fun hc => h.stopped (hon ▸ hc)
    refine ⟨?_, rfl⟩
    cases hattempt with
    | givesUp _ hmax hc hst hk =>
      show Pays s { s with timer := .idle, client := c }
      have hoff : ({ s with timer := .idle, client := c } : Link).mayReset = false := by
        cases hc' : c.timerOn with
        | false => simp [Link.mayReset, Timer.calls, hc']
        | true =>
          have hsock := hk.trans (h.closed htm (hon ▸ hc'))
          simp [Link.mayReset, Timer.calls, hst, hsock]
      refine ⟨⟨h.started, by simp [hc], hstopped, by simp, by simp, fun hr _ => ?_⟩, Nat.add_le_add_left ?_ _⟩
      · rw [hoff] at hr
        cases hr
      · by_cases hsq : s.thread = .quit
        · unfold Link.budget
          rw [if_pos hsq, if_pos hsq, if_neg (by simp)]
          exact Nat.zero_le _
        · unfold Link.budget
          rw [if_neg hsq, if_neg hsq, hreset, hoff, hc]
          exact Nat.le_add_left _ _
    | connects _ hmax hc =>
      show Pays s { s with timer := .connecting .send, client := c, net := s.net.opens }
      have hcalls : ∀ pc, Timer.connecting ConnectPc.send = .connecting pc → pc = .reconnect ∨ pc = .send := by
        rintro pc ⟨⟩
        exact Or.inr rfl
      have hle : s.client.reconnectCount ≤ c.reconnectCount := by omega
      have hopened : s.net.opened + 1 + s.client.reconnectCount ≤ s.net.opened + c.reconnectCount := by omega
      by_cases hsq : s.thread = .quit
      · refine ⟨⟨h.started, hc ▸ hmax, hstopped, hcalls, by simp, fun _ hq => absurd hsq hq⟩, ?_⟩
        unfold Link.budget
        rw [if_pos hsq, if_pos hsq, if_pos htm, if_neg (by simp)]
        exact le_rfl
      · exact .counted h hsq hsq h.started hstopped hcalls (by simp) (fun _ => hreset) hle (hc ▸ hmax) hopened
    | fails _ hmax hc hk =>
      show Pays s { s with timer := .connecting .reconnect, client := c }
      have hcalls : ∀ pc, Timer.connecting ConnectPc.reconnect = .connecting pc → pc = .reconnect ∨ pc = .send := by
        rintro pc ⟨⟩
        exact Or.inl rfl
      have hle : s.client.reconnectCount ≤ c.reconnectCount := by omega
      by_cases hsq : s.thread = .quit
      · refine ⟨⟨h.started, hc ▸ hmax, hstopped, hcalls, fun _ _ => hk, fun _ hq => absurd hsq hq⟩, ?_⟩
        unfold Link.budget
        rw [if_pos hsq, if_pos hsq, if_pos htm, if_pos rfl]
      · exact .counted h hsq hsq h.started hstopped hcalls (fun _ _ => hk) (fun _ => hreset) hle (hc ▸ hmax)
          (Nat.add_le_add_left hle _)
    | goesOn hpc r hr c' n' hc hn =>
      have hpc := (h.calls pc htm).resolve_left hpc
      refine .timer h rfl ?_ hc hon (fun _ => hreset) hn
      cases r with
      | goto pc' => exact absurd rfl (hsend rfl hpc pc')
      | ok => rfl
      | failed => rfl
      | reconnectFailed => rfl
  · cases hs

/-! ## Before the client is started -/

theorem lived_main {s t : Link} {e : Ev} (h : Fresh s) (hc : s.main.hasClient = false)
    (hs : mqttLinkConnect s s.main e = some t) : t.main.hasClient = true ∧ Alive t ∨ t.main.hasClient = false ∧ Fresh t := by
  generalize hm : s.main = m at hs hc
  unfold mqttLinkConnect at hs
  split at hs
  · cases hs
    exact Or.inr ⟨rfl, h.thread, h.timer, rfl, Nat.zero_le _, by rintro pc ⟨⟩ hpc; exact absurd rfl hpc⟩
  · cases hs
    exact Or.inr ⟨by rw [hm]; rfl, h.thread, h.timer, h.timerOn, h.count, fun pc hpc => by rw [hm] at hpc; cases hpc⟩
  · rename_i pc
    obtain ⟨⟨r, c, n⟩, hr, rfl⟩ := Option.map_eq_some_iff.1 hs
    obtain ⟨hattempt, hon, -⟩ := attempt_of_umqttConnect hr
    have hoff : c.timerOn = false := hon.trans h.timerOn
    have hcount := h.count
    have hcounted := h.counted pc hm
    have hmax : c.reconnectCount ≤ PKG_UMQTT_INFO_DEF_RECONNECT_MAX_NUM := by
      cases hattempt <;> omega
    have hone : (∀ n', (r, c, n) ≠ (.reconnectFailed, c, n')) → (r ≠ .goto .reconnect) → 1 ≤ c.reconnectCount := by
      intro h1 h2
      cases hattempt with
      | givesUp _ _ hc _ _ => exact absurd rfl (h1 _)
      | connects _ _ hc => omega
      | fails _ _ hc _ => exact absurd rfl h2
      | goesOn hpc r hr c' n' hc hn => exact hc ▸ hcounted hpc
    cases r with
    | goto pc' =>
      refine Or.inr ⟨rfl, h.thread, h.timer, hoff, hmax, ?_⟩
      rintro pc'' ⟨⟩ hpc
      exact hone (by simp) (by simpa using hpc)
    | ok =>
      refine Or.inl ⟨rfl, by simp [Link.started], hmax, fun _ => Or.inl rfl, fun pc hpc => ?_, fun hpc => ?_,
        fun _ _ => hone (by simp) (by simp)⟩
      · rw [show (s.started (.ok, c, n)).timer = s.timer from rfl, h.timer] at hpc
        cases hpc
      · rw [show (s.started (.ok, c, n)).timer = s.timer from rfl, h.timer] at hpc
        cases hpc
    | failed => exact Or.inr ⟨rfl, h.thread, h.timer, hoff, hmax, by rintro pc ⟨⟩⟩
    | reconnectFailed => exact Or.inr ⟨rfl, h.thread, h.timer, hoff, hmax, by rintro pc ⟨⟩⟩
  all_goals first | cases hc | cases hs

/-! ## A step, and a run -/

/-- The client is started, or is still to be. -/
def Lived (s : Link) : Prop := s.main.hasClient = true ∧ Alive s ∨ s.main.hasClient = false ∧ Fresh s

theorem pays_step {s t : Link} {l : Label} (hc : s.main.hasClient = true) (h : Alive s) (hs : step s l = some t) :
    t.main.hasClient = true ∧ Pays s t := by
  cases l with
  | main e =>
    obtain ⟨hsame, hct⟩ := same_main hc hs
    exact ⟨hct, .of_same h hsame⟩
  | reader e =>
    obtain ⟨hsame, hm⟩ := same_reader hs
    exact ⟨hm ▸ hc, .of_same h hsame⟩
  | thread e =>
    obtain ⟨hp, hm⟩ := pays_thread h hs
    exact ⟨hm ▸ hc, hp⟩
  | timer e =>
    obtain ⟨hp, hm⟩ := pays_timer h hs
    exact ⟨hm ▸ hc, hp⟩
  | broker e =>
    obtain ⟨n, hn, rfl⟩ := Option.map_eq_some_iff.1 (show (broker s.net e).map _ = some t from hs)
    exact ⟨hc, .of_same h ⟨rfl, rfl, rfl, rfl, rfl, rfl, opened_broker hn⟩⟩
  | drop =>
    cases hs
    exact ⟨hc, .of_same h ⟨rfl, rfl, rfl, rfl, rfl, rfl, rfl⟩⟩

theorem Fresh.frame {s t : Link} (h : Fresh s) (hs : Same s t) (hm : t.main = s.main) : Fresh t where
  thread := hs.thread.trans h.thread
  timer := hs.timer.trans h.timer
  timerOn := hs.timerOn.trans h.timerOn
  count := by rw [hs.count]; exact h.count
  counted := by rw [hm, hs.count]; exact h.counted

theorem lived_step {s t : Link} {l : Label} (h : Lived s) (hs : step s l = some t) : Lived t := by
  rcases h with ⟨hc, h⟩ | ⟨hc, h⟩
  · obtain ⟨hct, hp⟩ := pays_step hc h hs
    exact Or.inl ⟨hct, hp.alive⟩
  · cases l with
    | main e => exact lived_main h hc hs
    | reader e =>
      obtain ⟨hsame, hm⟩ := same_reader hs
      exact Or.inr ⟨hm ▸ hc, h.frame hsame hm⟩
    | thread e =>
      replace hs : umqttThread s s.thread e = some t := hs
      rw [h.thread] at hs
      cases hs
    | timer e =>
      replace hs : umqttUplinkTimer s s.timer e = some t := hs
      rw [h.timer] at hs
      cases e <;> simp [umqttUplinkTimer, h.timerOn] at hs
    | broker e =>
      obtain ⟨n, hn, rfl⟩ := Option.map_eq_some_iff.1 (show (broker s.net e).map _ = some t from hs)
      exact Or.inr ⟨hc, h.frame ⟨rfl, rfl, rfl, rfl, rfl, rfl, opened_broker hn⟩ rfl⟩
    | drop =>
      cases hs
      exact Or.inr ⟨hc, h.frame ⟨rfl, rfl, rfl, rfl, rfl, rfl, rfl⟩ rfl⟩

theorem alive_of_run {ls : List Label} {s : Link} (hr : Run.run step Link.boot ls = some s)
    (hc : s.main.hasClient = true) : Alive s := by
  have hboot : Lived Link.boot := Or.inr ⟨rfl, rfl, rfl, rfl, Nat.zero_le _, by rintro pc ⟨⟩⟩
  rcases Run.run_invariant_of_step (fun _ _ _ h hs => lived_step h hs) hboot hr with h | h
  · exact h.2
  · rw [hc] at h
    cases h.1

theorem paid_of_run {s t : Link} (hc : s.main.hasClient = true) (h : Alive s) {ls : List Label}
    (hr : Run.run step s ls = some t) : t.net.opened + t.budget ≤ s.net.opened + s.budget :=
  (Run.run_invariant_of_step (P := fun t => t.main.hasClient = true ∧ Alive t ∧
      t.net.opened + t.budget ≤ s.net.opened + s.budget)
    (fun _ _ _ ⟨hc, h, hle⟩ hs =>
      ⟨(pays_step hc h hs).1, (pays_step hc h hs).2.alive, (pays_step hc h hs).2.opened.trans hle⟩)
    ⟨hc, h, le_rfl⟩ hr).2.2

theorem Alive.budget_le {s : Link} (h : Alive s) : s.budget ≤ 9 := by
  unfold Link.budget
  have h5 : PKG_UMQTT_INFO_DEF_RECONNECT_MAX_NUM = 5 := rfl
  split
  · split <;> omega
  · rename_i hq
    split
    · have := h.counted ‹_› hq
      omega
    · omega

/-- **A life of nine more connections**, at most, once `umqtt_start` has returned the client, whatever the network, the
broker and the threads do; of what the count leaves when `umqtt_thread` has stopped the timer, and of none when it has
quit. -/
theorem connections_bounded {ls : List Label} {s : Link} (hr : Run.run step Link.boot ls = some s)
    (hc : s.main.hasClient = true) {ls' : List Label} {t : Link} (hr' : Run.run step s ls' = some t) :
    t.net.opened ≤ s.net.opened + 9 ∧
      (s.timer = .idle → s.client.timerOn = false →
        t.net.opened ≤ s.net.opened + (PKG_UMQTT_INFO_DEF_RECONNECT_MAX_NUM - s.client.reconnectCount)) ∧
      (s.timer = .idle → s.thread = .quit → t.net.opened ≤ s.net.opened) := by
  have h := alive_of_run hr hc
  have hpaid := paid_of_run hc h hr'
  have hnine := h.budget_le
  refine ⟨by omega, fun ht hoff => ?_, fun ht hq => ?_⟩
  · have hb : s.budget ≤ PKG_UMQTT_INFO_DEF_RECONNECT_MAX_NUM - s.client.reconnectCount := by
      unfold Link.budget
      split
      · rw [ht]
        exact Nat.zero_le _
      · rw [mayReset_of_off hoff, ht]
        exact le_rfl
    omega
  · have hb : s.budget ≤ 0 := by
      refine (budget_quit_le hq).trans ?_
      rw [ht]
      exact le_rfl
    omega

/-- Five answers are missed, and the timer connects again. -/
def missedRound : List Label :=
  (List.replicate 4 [Label.timer .missed, .timer (.call .fail)]).flatten ++
    [.timer .missed, .timer .reconnect, .timer (.call .ok), .timer (.call .ok), .broker (.process true), .broker (.answer 0),
      .thread .recv]

/-- The thread connects and cannot send. -/
def failedRound : List Label := [.thread .fin, .thread .ok, .thread .fail]

/-- **Nine are reached** when the timer gives up in an attempt beside the thread's. -/
theorem connections_bounded_nine :
    let s := acknowledgedLink
    let t := (Run.run step s ((List.replicate 3 missedRound).flatten ++
      (List.replicate 4 [Label.timer .missed, .timer (.call .fail)]).flatten ++ [.timer .missed, .timer .reconnect] ++
      [.thread .fin, .thread .ok, .timer (.call .ok), .thread .fail] ++ (List.replicate 5 failedRound).flatten ++
      [.thread .fin, .thread .ok])).get (by decide +kernel)
    (t.net.opened = 10 ∧ t.thread = .quit ∧ t.client.timerOn = false) ∧ t.net.opened ≤ s.net.opened + 9 ∧
      (s.timer = .idle → s.client.timerOn = false →
        t.net.opened ≤ s.net.opened + (PKG_UMQTT_INFO_DEF_RECONNECT_MAX_NUM - s.client.reconnectCount)) ∧
      (s.timer = .idle → s.thread = .quit → t.net.opened ≤ s.net.opened) :=
  ⟨by decide +kernel, connections_bounded run_acknowledgedRound rfl (Option.some_get _).symm⟩

end Umqtt
end RtPay
