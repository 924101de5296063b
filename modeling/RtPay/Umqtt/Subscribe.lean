import RtPay.Umqtt.Link
/-!
# Umqtt.Subscribe — what mqtt_link_connect registers

The main thread and the card reader take acknowledgements from one queue, and none is matched to its request.  A
subscription is registered exactly when the wait for it takes a SUBACK, whoever's it is, and there is no second try:
so the three are registered in a run that returns `RT_TRUE` exactly when each of the three waits does.
-/
namespace RtPay
namespace Umqtt

/-- The subscriptions that `mqtt_link_connect` has not come to an end with. -/
def Main.todo : Main → List Subscription
  | .loop => subscribedTopics
  | .starting _ => subscribedTopics
  | .subscribing todo => todo
  | .sending x todo => x :: todo
  | .waiting x todo => x :: todo
  | .connected => []

def Main.Through (m : Main) (x : Subscription) : Prop := x ∈ subscribedTopics ∧ x ∉ m.todo

def AllRegistered (s : Link) : Prop := ∀ x ∈ subscribedTopics, x ∈ s.client.subRecvList

instance (s : Link) : Decidable (AllRegistered s) := inferInstanceAs (Decidable (∀ x ∈ subscribedTopics, _))

def Missing (s : Link) : Prop := ∃ x, s.main.Through x ∧ x ∉ s.client.subRecvList

/-- **The guard on the main thread's steps**: no SUBSCRIBE fails to be sent, no wait for its acknowledgement runs out,
and what the wait takes from the queue is a SUBACK. -/
def TakesSuback (s : Link) (l : Label) : Prop :=
  match s.main, l with
  | .sending _ _, .main .fail => False
  | .waiting _ _, .main .timeout => False
  | .waiting _ _, .main .take => ∃ ack q, s.client.msgQueue.recv = some (ack, q) ∧ ack.msgType = .suback
  | _, _ => True

theorem nodup_subscribedTopics : subscribedTopics.Nodup := by decide

theorem topicfilter_inj : ∀ x ∈ subscribedTopics, ∀ y ∈ subscribedTopics, x.topicfilter = y.topicfilter → x = y := by
  decide

/-! ## What the steps leave alone -/

theorem subRecvList_of_move {a b : Client × Net} (h : Move a b) : b.1.subRecvList = a.1.subRecvList := by
  cases h with
  | client n hb hl => exact hl
  | _ => rfl

theorem subRecvList_of_moves {a b : Client × Net} (h : Moves a b) : b.1.subRecvList = a.1.subRecvList := by
  induction h with
  | refl => rfl
  | tail _ hm ih => rw [subRecvList_of_move hm, ih]

theorem subRecvList_of_umqttSubscribe {c c' : Client} {x : Subscription} (h : c.umqttSubscribe x = some c') :
    c'.subRecvList = c.subRecvList := by
  unfold Client.umqttSubscribe at h
  split at h
  · cases h
  · split at h
    · cases h
    · cases h; rfl

theorem subRecvList_of_ack (c : Client) (q : Fifo MsgAck PKG_UMQTT_MSG_QUEUE_ACK_DEF_SIZE) (x : Subscription) (ack : MsgAck) :
    (Client.umqttSubscribeAck { c with msgQueue := q } x ack).subRecvList =
      if ack.msgType = .suback then x :: c.subRecvList else c.subRecvList := by
  unfold Client.umqttSubscribeAck
  split <;> rfl

/-! ## The invariant -/

/-- What is registered was tried, and there is room for what is still to come. -/
structure Registry (s : Link) : Prop where
  suffix : s.main.todo <:+ subscribedTopics
  tried : ∀ x ∈ s.client.subRecvList, s.main.Through x
  room : s.client.subRecvList.length + s.main.todo.length ≤ subscribedTopics.length

theorem registry_boot : Registry Link.boot :=
  ⟨List.suffix_refl _, by simp [Link.boot, umqttCreate], by decide⟩

theorem Registry.not_mem {s : Link} (h : Registry s) {x : Subscription} (hx : x ∈ s.main.todo) :
    x ∉ s.client.subRecvList := fun hr => (h.tried x hr).2 hx

theorem through_of_suffix {x : Subscription} {todo : List Subscription} (h : x :: todo <:+ subscribedTopics) :
    (Main.subscribing todo).Through x := by
  refine ⟨h.subset List.mem_cons_self, fun hx => ?_⟩
  have := nodup_subscribedTopics.sublist h.sublist
  exact (List.nodup_cons.1 this).1 hx

theorem started_eq (s : Link) (r : ConnectRet × Client × Net) :
    (s.started r).main.todo = subscribedTopics ∧ (s.started r).client.subRecvList = r.2.1.subRecvList := by
  obtain ⟨ret, c, n⟩ := r
  cases ret <;> exact ⟨rfl, rfl⟩

/-- Two ways a step goes on with what is to come: nothing new is registered, or the subscription whose wait it is. -/
theorem step_registers {s t : Link} {l : Label} (hs : step s l = some t) :
    (s.main = .loop ∧ t.main.todo = subscribedTopics ∧ t.client.subRecvList = []) ∨
    (t.main.todo <:+ s.main.todo ∧ t.client.subRecvList = s.client.subRecvList) ∨
    (∃ x ack q, s.main = .waiting x t.main.todo ∧ l = .main .take ∧ s.client.msgQueue.recv = some (ack, q) ∧
      ack.msgType = .suback ∧ t.client.subRecvList = x :: s.client.subRecvList) := by
  rcases step_cases hs with ⟨e, rfl, hm⟩ | ⟨-, ha⟩
  · cases hm with
    | connecting hm => exact Or.inl ⟨hm, rfl, rfl⟩
    | noClient hm => exact Or.inr (Or.inl ⟨List.suffix_refl _, rfl⟩)
    | @starting pc _ r hm hr =>
      obtain ⟨htodo, hlist⟩ := started_eq s r
      refine Or.inr (Or.inl ⟨?_, hlist.trans (subRecvList_of_moves hr)⟩)
      rw [htodo, hm]
      exact List.suffix_refl _
    | returns hm | sends hm => exact Or.inr (Or.inl ⟨by rw [hm]; exact List.suffix_refl _, rfl⟩)
    | encodes hm hc =>
      exact Or.inr (Or.inl ⟨by rw [hm]; exact List.suffix_refl _, subRecvList_of_umqttSubscribe hc⟩)
    | refuses hm _ | sendFails hm | timesOut hm =>
      exact Or.inr (Or.inl ⟨by rw [hm]; exact List.suffix_cons _ _, rfl⟩)
    | @takes x todo ack q hm hq =>
      by_cases hack : ack.msgType = .suback
      · refine Or.inr (Or.inr ⟨x, ack, q, hm, rfl, hq, hack, ?_⟩)
        rw [subRecvList_of_ack, if_pos hack]
      · refine Or.inr (Or.inl ⟨by rw [hm]; exact List.suffix_cons _ _, ?_⟩)
        rw [subRecvList_of_ack, if_neg hack]
  · exact Or.inr (Or.inl ⟨ha.main ▸ List.suffix_refl _, subRecvList_of_moves ha.moves⟩)

theorem registry_step (s : Link) (l : Label) (t : Link) (h : Registry s) (hs : step s l = some t) : Registry t := by
  rcases step_registers hs with ⟨-, htodo, hlist⟩ | ⟨hmain, hlist⟩ | ⟨x, ack, q, hm, -, -, -, hlist⟩
  · exact ⟨htodo ▸ List.suffix_refl _, by simp [hlist], by simp [htodo, hlist]⟩
  · refine ⟨hmain.trans h.suffix, fun y hy => ?_, ?_⟩
    · rw [hlist] at hy
      exact ⟨(h.tried y hy).1, fun hn => (h.tried y hy).2 (hmain.subset hn)⟩
    · have := hmain.length_le
      have := h.room
      rw [hlist]
      omega
  · have htodo : s.main.todo = x :: t.main.todo := by rw [hm]; rfl
    have hsuffix := htodo ▸ h.suffix
    refine ⟨(List.suffix_cons _ _).trans hsuffix, fun y hy => ?_, ?_⟩
    · rw [hlist] at hy
      rcases List.mem_cons.1 hy with rfl | hy
      · exact through_of_suffix hsuffix
      · exact ⟨(h.tried y hy).1, fun hn => (h.tried y hy).2 (by rw [htodo]; exact List.mem_cons_of_mem _ hn)⟩
    · have := h.room
      rw [htodo, List.length_cons] at this
      rw [hlist, List.length_cons]
      omega

theorem registry_of_run {ls : List Label} {s : Link} (h : Run.run step Link.boot ls = some s) : Registry s :=
  Run.run_invariant_of_step registry_step registry_boot h

/-! ## What is missed stays missed -/

theorem missing_step {s t : Link} {l : Label} (hmiss : Missing s) (hs : step s l = some t) :
    Missing t := by
  obtain ⟨y, ⟨hy, htried⟩, hnot⟩ := hmiss
  rcases step_registers hs with ⟨hm, -⟩ | ⟨hmain, hlist⟩ | ⟨x, ack, q, hm, -, -, -, hlist⟩
  · exact absurd hy (by rwa [hm] at htried)
  · exact ⟨y, ⟨hy, fun hn => htried (hmain.subset hn)⟩, by rwa [hlist]⟩
  · have htodo : s.main.todo = x :: t.main.todo := by rw [hm]; rfl
    rw [htodo, List.mem_cons, not_or] at htried
    exact ⟨y, ⟨hy, htried.2⟩, by rw [hlist, List.mem_cons, not_or]; exact ⟨htried.1, hnot⟩⟩

theorem Registry.missing {s t : Link} (h : Registry s) {x : Subscription} {todo : List Subscription}
    (htodo : s.main.todo = x :: todo) (ht : t.main = .subscribing todo)
    (hlist : t.client.subRecvList = s.client.subRecvList) : Missing t := by
  refine ⟨x, ?_, ?_⟩
  · rw [ht]
    exact through_of_suffix (htodo ▸ h.suffix)
  · rw [hlist]
    exact h.not_mem (by rw [htodo]; exact List.mem_cons_self)

/-- **A step that takes no SUBACK where it should** misses its subscription. -/
theorem missing_of_not_takesSuback {s t : Link} {l : Label} (h : Registry s) (hbad : ¬ TakesSuback s l)
    (hs : step s l = some t) : Missing t := by
  rcases step_cases hs with ⟨e, rfl, hm⟩ | ⟨hl, -⟩
  · cases hm with
    | sendFails hm => exact h.missing (by rw [hm]; rfl) rfl rfl
    | timesOut hm => exact h.missing (by rw [hm]; rfl) rfl rfl
    | @takes x todo ack q hm hq =>
      have hack : ack.msgType ≠ .suback := by
        intro hack
        refine hbad ?_
        simp only [TakesSuback, hm]
        exact ⟨ack, q, hq, hack⟩
      exact h.missing (by rw [hm]; rfl) rfl (by rw [subRecvList_of_ack, if_neg hack])
    | connecting hm | noClient hm | starting hm | returns hm | encodes hm | refuses hm | sends hm =>
      exact absurd (by simp only [TakesSuback, hm]) hbad
  · refine absurd ?_ hbad
    unfold TakesSuback
    split
    · exact hl _ rfl
    · exact hl _ rfl
    · exact absurd rfl (hl _)
    · trivial

theorem Registry.umqttSubscribe {s : Link} (h : Registry s) {x : Subscription} {todo : List Subscription}
    (hm : s.main = .subscribing (x :: todo)) : s.client.umqttSubscribe x ≠ none := by
  have htodo : s.main.todo = x :: todo := by rw [hm]; rfl
  have hx : x ∈ subscribedTopics := h.suffix.subset (by rw [htodo]; exact List.mem_cons_self)
  have hfree : ¬ s.client.subRecvList.any (fun y => y.topicfilter = x.topicfilter) = true := by
    rw [List.any_eq_true]
    rintro ⟨y, hy, hfilter⟩
    have hxy := topicfilter_inj y (h.tried y hy).1 x hx (of_decide_eq_true hfilter)
    exact (h.tried y hy).2 (by rw [hxy, htodo]; exact List.mem_cons_self)
  have hroom : ¬ s.client.subRecvList.length > PKG_UMQTT_SUBRECV_DEF_LENGTH := by
    have := h.room
    have : subscribedTopics.length = 3 := rfl
    unfold PKG_UMQTT_SUBRECV_DEF_LENGTH
    omega
  unfold Client.umqttSubscribe
  rw [if_neg hfree, if_neg hroom]
  exact Option.some_ne_none _

/-- **A step that takes its SUBACK misses nothing new.** -/
theorem missing_of_takesSuback {s t : Link} {l : Label} (h : Registry s) (hg : TakesSuback s l)
    (hs : step s l = some t) (hmiss : Missing t) : Missing s := by
  obtain ⟨y, ⟨hy, htried⟩, hnot⟩ := hmiss
  rcases step_cases hs with ⟨e, rfl, hm⟩ | ⟨-, ha⟩
  · cases hm with
    | connecting hm => exact absurd hy htried
    | noClient hm => exact ⟨y, ⟨hy, htried⟩, hnot⟩
    | @starting pc _ r hm hr =>
      rw [(started_eq s r).1] at htried
      exact absurd hy htried
    | returns hm => exact ⟨y, ⟨hy, by rw [hm]; exact htried⟩, hnot⟩
    | encodes hm hc => exact ⟨y, ⟨hy, by rw [hm]; exact htried⟩, by rwa [← subRecvList_of_umqttSubscribe hc]⟩
    | refuses hm hc => exact absurd hc (h.umqttSubscribe hm)
    | sends hm => exact ⟨y, ⟨hy, by rw [hm]; exact htried⟩, hnot⟩
    | sendFails hm => simp only [TakesSuback, hm] at hg
    | timesOut hm => simp only [TakesSuback, hm] at hg
    | @takes x todo ack q hm hq =>
      simp only [TakesSuback, hm] at hg
      obtain ⟨ack', q', hq', hack⟩ := hg
      rw [hq] at hq'
      cases hq'
      rw [subRecvList_of_ack, if_pos hack, List.mem_cons, not_or] at hnot
      refine ⟨y, ⟨hy, ?_⟩, hnot.2⟩
      rw [hm]
      exact fun hn => (List.mem_cons.1 hn).elim hnot.1 htried
  · refine ⟨y, ⟨hy, by rwa [← ha.main]⟩, ?_⟩
    rwa [← subRecvList_of_moves ha.moves]

/-! ## The registered handlers of a run that returns RT_TRUE -/

/-- **The three handlers are registered when `mqtt_link_connect` has returned `RT_TRUE` exactly when each of its waits
took a SUBACK.** -/
theorem allRegistered_iff_takesSuback {ls : List Label} {s : Link} (hrun : Run.run step Link.boot ls = some s)
    (hret : s.main = .connected) : AllRegistered s ↔ Run.Along step TakesSuback Link.boot ls := by
  have hmiss : AllRegistered s ↔ ¬ Missing s := by
    constructor
    · rintro h ⟨x, hx, hnot⟩
      exact hnot (h x hx.1)
    · intro h x hx
      by_contra hnot
      exact h ⟨x, ⟨hx, by rw [hret]; exact List.not_mem_nil⟩, hnot⟩
  rw [hmiss]
  constructor
  · intro h
    by_contra hn
    obtain ⟨pre, l, post, t, rfl, ht, -, hbad⟩ := Run.exists_first_of_not_along hn
    obtain ⟨t', ht', hrest⟩ := Run.run_append_some.1 hrun
    rw [ht] at ht'
    cases ht'
    obtain ⟨u, hu, hrest⟩ := Run.run_cons_some.1 hrest
    have hmu : Missing u := missing_of_not_takesSuback (registry_of_run ht) hbad hu
    exact h (Run.run_invariant_of_step (fun _ _ _ hm hs => missing_step hm hs) hmu hrest)
  · intro hg
    have hstep : ∀ s l t, (Registry s ∧ ¬ Missing s) → TakesSuback s l → step s l = some t → Registry t ∧ ¬ Missing t :=
      fun s l t h hg hs => ⟨registry_step s l t h.1 hs, fun hm => h.2 (missing_of_takesSuback h.1 hg hs hm)⟩
    refine (Run.run_invariant hstep ⟨registry_boot, ?_⟩ hg hrun).2
    rintro ⟨x, ⟨hx, htried⟩, -⟩
    exact htried hx

/-- The labels of one subscription without the card reader: encoded, sent, taken by the broker, answered, read, taken. -/
def subscribeRound : List Label :=
  [.main .ok, .main .ok, .broker (.process true), .broker (.answer 0), .thread .recv, .main .take]

def startRound : List Label :=
  [.main .ok, .main .ok, .main .ok, .broker (.process true), .broker (.answer 0), .main .recv, .main .ok]

/-- A card is swiped while the first subscription waits, and the broker is slow: its SUBACK comes when the card reader
has given up on its third PUBLISH. -/
def swipeRound : List Label :=
  [.main .ok, .main .ok, .reader .ok, .reader .ok, .reader .timeout, .reader .ok, .reader .timeout, .reader .ok,
    .reader .timeout, .broker (.process true), .broker (.process true), .broker (.process true),
    .broker (.process true), .broker (.answer 0), .thread .recv, .main .take]

/-- A subscription while the broker still owes a PUBACK, which comes first. -/
def lateRound : List Label := [.main .ok, .main .ok, .broker (.answer 0), .thread .recv, .main .take]

/-- **A swipe during the subscriptions takes the enable and the credit handler away**: nobody but the main thread waits
for the PUBACKs when they come, and `mqtt_link_connect` returns `RT_TRUE`. -/
theorem late_puback_for_suback :
    ∃ s, Run.run step Link.boot (startRound ++ (swipeRound ++ (lateRound ++ (lateRound ++ [.main .ok])))) = some s ∧
      s.main = .connected ∧ s.pushed = [.connecting, .connSuccess] ∧ s.client.subRecvList = [configSubscription] ∧
      ¬ AllRegistered s :=
  ⟨_, rfl, by decide⟩

theorem allRegistered_iff_takesSuback_quiet :
    ∃ s, Run.run step Link.boot (startRound ++ (subscribeRound ++ (subscribeRound ++ (subscribeRound ++ [.main .ok])))) = some s ∧
      (AllRegistered s ↔ Run.Along step TakesSuback Link.boot
        (startRound ++ (subscribeRound ++ (subscribeRound ++ (subscribeRound ++ [.main .ok]))))) ∧ AllRegistered s :=
  ⟨_, rfl, allRegistered_iff_takesSuback rfl rfl, by decide⟩

end Umqtt
end RtPay
