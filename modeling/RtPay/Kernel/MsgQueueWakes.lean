import RtPay.Kernel.MsgQueueRuns
import RtPay.Lib.Waiters
/-!
# Kernel.MsgQueueWakes — no wakeup of the message queue is lost

`Kept` is `Sound` and the account of the suspended threads: as long as a receiver is suspended, each queued message has
a receiver resumed for it, and each free block a sender.  Every step keeps it, from the queue `rt_mq_create` builds, so
that what the queue promises its users holds in every interleaving.
-/
namespace RtPay
namespace Kernel

open Bytes Linked Waiters

variable {τ : Type} [DecidableEq τ] {flag : IpcFlag} {priority : τ → Nat}

def Pc.RecvWaits (pc : Pc) : Prop := ∃ size timeout, pc = .recvWaiting size timeout
def Pc.RecvWoken (pc : Pc) : Prop := ∃ size timeout, pc = .recvWoken size timeout
def Pc.SendWaits (pc : Pc) : Prop := ∃ buffer timeout, pc = .sendWaiting buffer timeout
def Pc.SendWoken (pc : Pc) : Prop := ∃ buffer timeout, pc = .sendWoken buffer timeout

omit [DecidableEq τ] in
theorem ipcListSuspend_perm (t : τ) (list : List τ) : (ipcListSuspend flag priority t list).Perm (t :: list) := by
  unfold ipcListSuspend
  cases flag with
  | fifo => exact List.perm_append_singleton t list
  | prio =>
    refine List.perm_middle.trans ?_
    rw [List.takeWhile_append_dropWhile]

/-- The invariant of the queue. -/
structure Kept (s : Mq τ) (q f : List Nat) (held : List (τ × Nat)) : Prop where
  sound : Sound s q f held
  receivers : Served Pc.RecvWaits Pc.RecvWoken s.pc s.suspendThread q.length
  senders : Served Pc.SendWaits Pc.SendWoken s.pc s.suspendSenderThread f.length

/-! ## The accounts of the two lists -/

/-- A place in the code at which a thread is neither suspended nor resumed. -/
def Pc.Away (pc : Pc) : Prop := (¬ pc.RecvWaits ∧ ¬ pc.RecvWoken) ∧ ¬ pc.SendWaits ∧ ¬ pc.SendWoken

theorem Pc.away_idle : Pc.Away .idle := by simp [Pc.Away, RecvWaits, RecvWoken, SendWaits, SendWoken]

theorem Pc.away_of_block {pc : Pc} {msg : Nat} (h : pc.block? = some msg) : pc.Away := by
  cases pc with
  | taken => simp [Pc.Away, RecvWaits, RecvWoken, SendWaits, SendWoken]
  | filled => simp [Pc.Away, RecvWaits, RecvWoken, SendWaits, SendWoken]
  | unlinked => simp [Pc.Away, RecvWaits, RecvWoken, SendWaits, SendWoken]
  | copied => simp [Pc.Away, RecvWaits, RecvWoken, SendWaits, SendWoken]
  | _ => cases h

theorem Pc.Sends.not_receiver {pc : Pc} (h : pc.Sends) : ¬ pc.RecvWaits ∧ ¬ pc.RecvWoken := by
  rcases h with h | ⟨_, _, h⟩ <;> simp [h, RecvWaits, RecvWoken]

theorem Pc.Receives.not_sender {pc : Pc} (h : pc.Receives) : ¬ pc.SendWaits ∧ ¬ pc.SendWoken := by
  rcases h with h | ⟨_, _, h⟩ <;> simp [h, SendWaits, SendWoken]

section
variable {pc : τ → Pc} {pc' : Pc} {list : List τ} {n n' : Nat} {t : τ}

/-- A thread that is no receiver goes to where it is none either. -/
theorem receivers_frame (h : Served Pc.RecvWaits Pc.RecvWoken pc list n) (hn : n' ≤ n)
    (ht : ¬ (pc t).RecvWaits ∧ ¬ (pc t).RecvWoken) (h' : ¬ pc'.RecvWaits ∧ ¬ pc'.RecvWoken) :
    Served Pc.RecvWaits Pc.RecvWoken (Function.update pc t pc') list n' :=
  h.frame hn (iff_of_false h'.1 ht.1) (iff_of_false h'.2 ht.2)

theorem senders_frame (h : Served Pc.SendWaits Pc.SendWoken pc list n) (hn : n' ≤ n)
    (ht : ¬ (pc t).SendWaits ∧ ¬ (pc t).SendWoken) (h' : ¬ pc'.SendWaits ∧ ¬ pc'.SendWoken) :
    Served Pc.SendWaits Pc.SendWoken (Function.update pc t pc') list n' :=
  h.frame hn (iff_of_false h'.1 ht.1) (iff_of_false h'.2 ht.2)

/-- A receiver that looks takes one message, whether it was resumed for it or is quicker than the one that was. -/
theorem receivers_looked (h : Served Pc.RecvWaits Pc.RecvWoken pc list n) (hn : n' ≤ n - 1) (ht : (pc t).Receives)
    (h' : pc'.Away) : Served Pc.RecvWaits Pc.RecvWoken (Function.update pc t pc') list n' := by
  rcases ht with ht | ⟨size, timeout, ht⟩
  · refine receivers_frame h (Nat.le_trans hn (Nat.sub_le _ _)) ?_ h'.1
    rw [ht]
    exact Pc.away_idle.1
  · refine h.looked ?_ ?_ h'.1.1 h'.1.2 hn
    · exact ⟨size, timeout, ht⟩
    · simp [ht, Pc.RecvWaits]

theorem senders_looked (h : Served Pc.SendWaits Pc.SendWoken pc list n) (hn : n' ≤ n - 1) (ht : (pc t).Sends)
    (h' : pc'.Away) : Served Pc.SendWaits Pc.SendWoken (Function.update pc t pc') list n' := by
  rcases ht with ht | ⟨buffer, timeout, ht⟩
  · refine senders_frame h (Nat.le_trans hn (Nat.sub_le _ _)) ?_ h'.2
    rw [ht]
    exact Pc.away_idle.2
  · refine h.looked ?_ ?_ h'.2.1 h'.2.2 hn
    · exact ⟨buffer, timeout, ht⟩
    · simp [ht, Pc.SendWaits]

end

section
variable {s : Mq τ} {n m : Nat}

/-- **A message more resumes the first suspended receiver.** -/
theorem served_resumeReceiver (hr : Served Pc.RecvWaits Pc.RecvWoken s.pc s.suspendThread n)
    (hs : Served Pc.SendWaits Pc.SendWoken s.pc s.suspendSenderThread m) :
    Served Pc.RecvWaits Pc.RecvWoken s.resumeReceiver.pc s.resumeReceiver.suspendThread (n + 1) ∧
      Served Pc.SendWaits Pc.SendWoken s.resumeReceiver.pc s.resumeReceiver.suspendSenderThread m := by
  unfold Mq.resumeReceiver
  cases hl : s.suspendThread with
  | nil =>
    rw [hl] at hr
    refine ⟨?_, hs⟩
    simp only [hl]
    exact hr.grow_nil (n + 1)
  | cons u us =>
    rw [hl] at hr
    obtain ⟨size, timeout, hu⟩ := (hr.mem u).1 List.mem_cons_self
    refine ⟨hr.resume ?_ ?_ ?_, senders_frame hs le_rfl ?_ ?_⟩
    all_goals simp [hu, Pc.woken, Pc.RecvWaits, Pc.RecvWoken, Pc.SendWaits, Pc.SendWoken]

theorem served_resumeSender (hr : Served Pc.RecvWaits Pc.RecvWoken s.pc s.suspendThread n)
    (hs : Served Pc.SendWaits Pc.SendWoken s.pc s.suspendSenderThread m) :
    Served Pc.RecvWaits Pc.RecvWoken s.resumeSender.pc s.resumeSender.suspendThread n ∧
      Served Pc.SendWaits Pc.SendWoken s.resumeSender.pc s.resumeSender.suspendSenderThread (m + 1) := by
  unfold Mq.resumeSender
  cases hl : s.suspendSenderThread with
  | nil =>
    rw [hl] at hs
    refine ⟨hr, ?_⟩
    simp only [hl]
    exact hs.grow_nil (m + 1)
  | cons u us =>
    rw [hl] at hs
    obtain ⟨buffer, timeout, hu⟩ := (hs.mem u).1 List.mem_cons_self
    refine ⟨receivers_frame hr le_rfl ?_ ?_, hs.resume ?_ ?_ ?_⟩
    all_goals simp [hu, Pc.woken, Pc.RecvWaits, Pc.RecvWoken, Pc.SendWaits, Pc.SendWoken]

end

/-! ## One move -/

section
variable {s s' : Mq τ} {q f : List Nat} {held : List (τ × Nat)} {t : τ} {pc : Pc}

/-- A suspended thread is in a list of its own, which nothing else of the queue depends on. -/
theorem Sound.suspended (h : Sound s q f held) (lists : List τ × List τ) :
    Sound { s with suspendThread := lists.1, suspendSenderThread := lists.2 } q f held :=
  ⟨h.queue, h.tail, h.free, h.entry, h.pool, h.small, h.owned, h.filled, h.history, h.received⟩

theorem Kept.free_nil (h : Kept s q f held) (hfree : s.free = none) : f = [] := by
  cases f with
  | nil => rfl
  | cons a f' =>
    have := h.sound.free.1
    rw [hfree] at this
    cases this

theorem Kept.queue_nil (h : Kept s q f held) (hentry : s.entry = 0) : q = [] :=
  List.length_eq_zero_iff.1 (h.sound.entry ▸ hentry)

/-- **One move keeps the invariant.** -/
theorem Kept.move (h : Kept s q f held) (hm : Move flag priority s s') : ∃ q' f' held', Kept s' q' f' held' := by
  cases hm with
  | refuse t r hr hcase =>
    have hdata : r.data? = none := by
      cases r with
      | received data => exact absurd rfl (hr data)
      | _ => rfl
    rcases hcase with ht | ⟨ht, hfree⟩ | ⟨ht, hentry⟩
    · have hblock : (s.pc t).block? = none := by rw [ht]; rfl
      have haway : (s.pc t).Away := ht ▸ Pc.away_idle
      exact ⟨q, f, held, h.sound.returns hblock hdata, receivers_frame h.receivers le_rfl haway.1 Pc.away_idle.1,
        senders_frame h.senders le_rfl haway.2 Pc.away_idle.2⟩
    · obtain rfl := h.free_nil hfree
      exact ⟨q, [], held, h.sound.returns ht.block hdata,
        receivers_frame h.receivers le_rfl ht.not_receiver Pc.away_idle.1,
        senders_looked h.senders (Nat.zero_le _) ht Pc.away_idle⟩
    · obtain rfl := h.queue_nil hentry
      exact ⟨[], f, held, h.sound.returns ht.block hdata,
        receivers_looked h.receivers (Nat.zero_le _) ht Pc.away_idle,
        senders_frame h.senders le_rfl ht.not_sender Pc.away_idle.2⟩
  | takeFree t msg buffer ht hfree =>
    obtain ⟨f', rfl, hsound⟩ := h.sound.takeFree ht.block hfree buffer
    have haway : (Pc.taken msg buffer).Away := Pc.away_of_block rfl
    exact ⟨q, f', _, hsound, receivers_frame h.receivers le_rfl ht.not_receiver haway.1,
      senders_looked h.senders le_rfl ht haway⟩
  | suspendSender t buffer timeout ht hfree =>
    obtain rfl := h.free_nil hfree
    have hperm : (ipcListSuspend flag priority t s.suspendSenderThread).Perm (t :: s.suspendSenderThread) :=
      ipcListSuspend_perm t _
    have hsound : Sound (s.goes t (.sendWaiting buffer timeout)) q [] held := h.sound.suspend ht.block rfl
    refine ⟨q, [], held, hsound.suspended (s.suspendThread, ipcListSuspend flag priority t s.suspendSenderThread),
      receivers_frame h.receivers le_rfl ht.not_receiver ?_, h.senders.suspend ?_ ⟨_, _, rfl⟩ ?_ hperm⟩
    · simp [Pc.RecvWaits, Pc.RecvWoken]
    · rcases ht with ht | ⟨_, _, ht⟩ <;> simp [ht, Pc.SendWaits]
    · simp [Pc.SendWoken]
  | fill t msg buffer ht =>
    have hbefore : (s.pc t).Away := ht ▸ Pc.away_of_block rfl
    have hafter : (Pc.filled msg buffer).Away := Pc.away_of_block rfl
    exact ⟨q, f, held, h.sound.fill ht, receivers_frame h.receivers le_rfl hbefore.1 hafter.1,
      senders_frame h.senders le_rfl hbefore.2 hafter.2⟩
  | link t msg buffer ht hentry =>
    obtain ⟨held', hsound⟩ := h.sound.link ht
    have hbefore : (s.pc t).Away := ht ▸ Pc.away_of_block rfl
    obtain ⟨hr, hs⟩ := served_resumeReceiver (s := { (s.link msg buffer).returns t .eok with entry := s.entry + 1 })
      (receivers_frame h.receivers le_rfl hbefore.1 Pc.away_idle.1)
      (senders_frame h.senders le_rfl hbefore.2 Pc.away_idle.2)
    refine ⟨q ++ [msg], f, held', hsound.resumeReceiver, ?_, hs⟩
    rw [List.length_append]
    exact hr
  | overflow t msg buffer ht hentry =>
    have hmem := (h.sound.owned.block t msg).2 (show (s.pc t).block? = some msg by rw [ht]; rfl)
    have := h.sound.length_lt hmem
    have := h.sound.small
    rw [h.sound.entry] at hentry
    omega
  | suspendReceiver t size timeout ht hentry =>
    obtain rfl := h.queue_nil hentry
    have hperm : (ipcListSuspend flag priority t s.suspendThread).Perm (t :: s.suspendThread) :=
      ipcListSuspend_perm t _
    have hsound : Sound (s.goes t (.recvWaiting size timeout)) [] f held := h.sound.suspend ht.block rfl
    refine ⟨[], f, held, hsound.suspended (ipcListSuspend flag priority t s.suspendThread, s.suspendSenderThread),
      h.receivers.suspend ?_ ⟨_, _, rfl⟩ ?_ hperm, senders_frame h.senders le_rfl ht.not_sender ?_⟩
    · rcases ht with ht | ⟨_, _, ht⟩ <;> simp [ht, Pc.RecvWaits]
    · simp [Pc.RecvWoken]
    · simp [Pc.SendWaits, Pc.SendWoken]
  | takeHead t size msg ht hentry hhead =>
    obtain ⟨q', rfl, hsound⟩ := h.sound.takeHead ht.block size hhead
    have haway : (Pc.unlinked msg size).Away := Pc.away_of_block rfl
    exact ⟨q', f, _, hsound, receivers_looked h.receivers le_rfl ht haway,
      senders_frame h.senders le_rfl ht.not_sender haway.2⟩
  | copy t msg size ht =>
    have hbefore : (s.pc t).Away := ht ▸ Pc.away_of_block rfl
    have hafter : (Pc.copied msg ((s.message msg).take size)).Away := Pc.away_of_block rfl
    refine ⟨q, f, held, h.sound.goes ?_ ?_ ?_, receivers_frame h.receivers le_rfl hbefore.1 hafter.1,
      senders_frame h.senders le_rfl hbefore.2 hafter.2⟩
    · rw [ht]
      rfl
    · rintro b m ⟨⟩
    · rw [ht]
      rfl
  | release t msg data ht =>
    obtain ⟨held', hsound⟩ := h.sound.release ht
    have hbefore : (s.pc t).Away := ht ▸ Pc.away_of_block rfl
    obtain ⟨hr, hs⟩ := served_resumeSender (s := (s.release msg).returns t (.received data))
      (receivers_frame h.receivers le_rfl hbefore.1 Pc.away_idle.1)
      (senders_frame h.senders le_rfl hbefore.2 Pc.away_idle.2)
    exact ⟨q, msg :: f, held', hsound.resumeSender, hr, hs⟩
  | senderTimer t buffer ht =>
    have hblock : (s.pc t).block? = none := by rw [ht]; rfl
    refine ⟨q, f, held, (h.sound.returns hblock rfl).suspended (s.suspendThread, s.suspendSenderThread.erase t),
      receivers_frame h.receivers le_rfl ?_ Pc.away_idle.1, h.senders.timer ?_ Pc.away_idle.2.1 Pc.away_idle.2.2⟩
    · simp [ht, Pc.RecvWaits, Pc.RecvWoken]
    · simp [ht, Pc.SendWoken]
  | receiverTimer t size ht =>
    have hblock : (s.pc t).block? = none := by rw [ht]; rfl
    refine ⟨q, f, held, (h.sound.returns hblock rfl).suspended (s.suspendThread.erase t, s.suspendSenderThread),
      h.receivers.timer ?_ Pc.away_idle.1.1 Pc.away_idle.1.2, senders_frame h.senders le_rfl ?_ Pc.away_idle.2⟩
    · simp [ht, Pc.RecvWoken]
    · simp [ht, Pc.SendWaits, Pc.SendWoken]

end

/-! ## Every run -/

/-- The blocks are numbered from zero, so the list ends with block 0. -/
theorem chain_freeBlocks (next : Nat → Option Nat) :
    ∀ n, Chain (freeBlocks next n).1 (freeBlocks next n).2 (List.range n).reverse
  | 0 => rfl
  | n + 1 => by
    have hnot : n ∉ (List.range n).reverse := by simp
    rw [List.range_succ, List.reverse_append]
    exact (chain_freeBlocks next n).push hnot

omit [DecidableEq τ] in
theorem served_empty {Waits Woken : Pc → Prop} (hw : ¬ Waits .idle) (hr : ¬ Woken .idle) (n : Nat) :
    Served Waits Woken (fun _ : τ => Pc.idle) [] n :=
  ⟨List.nodup_nil, fun _ => iff_of_false List.not_mem_nil hw, [], List.nodup_nil,
    fun _ => iff_of_false List.not_mem_nil hr, fun hl => absurd rfl hl⟩

theorem kept_rtMqCreate (msgSize maxMsgs : UInt16) :
    Kept (rtMqCreate τ msgSize maxMsgs) [] (List.range maxMsgs.toNat).reverse [] where
  sound :=
    { queue := rfl
      tail := rfl
      free := chain_freeBlocks _ _
      entry := rfl
      pool := by
        rw [List.nil_append, List.map_nil, List.append_nil]
        exact List.reverse_perm _
      small := Nat.le_of_lt_succ maxMsgs.toNat_lt
      owned := ⟨List.nodup_nil, fun t b => iff_of_false List.not_mem_nil (by simp [rtMqCreate, Pc.block?])⟩
      filled := by
        rintro t b m ⟨⟩
      history := rfl
      received := fun t => rfl }
  receivers := served_empty Pc.away_idle.1.1 Pc.away_idle.1.2 _
  senders := served_empty Pc.away_idle.2.1 Pc.away_idle.2.2 _

/-- **Every run keeps the invariant.** -/
theorem kept_of_run {msgSize maxMsgs : UInt16} {s : Mq τ} {ls : List (Label τ)}
    (hrun : Run.run (step flag priority) (rtMqCreate τ msgSize maxMsgs) ls = some s) :
    ∃ q f held, Kept s q f held := by
  refine Run.run_invariant_of_step (P := fun s => ∃ q f held, Kept s q f held) ?_
    ⟨_, _, _, kept_rtMqCreate msgSize maxMsgs⟩ hrun
  rintro s l s' ⟨q, f, held, h⟩ hs
  exact h.move (move_of_step hs)

theorem maxMsgs_of_step {s s' : Mq τ} {l : Label τ} (hs : step flag priority s l = some s') :
    s'.maxMsgs = s.maxMsgs := by
  cases move_of_step hs with
  | link => unfold Mq.resumeReceiver; split <;> rfl
  | release => unfold Mq.resumeSender; split <;> rfl
  | _ => rfl

theorem maxMsgs_of_run {msgSize maxMsgs : UInt16} {s : Mq τ} {ls : List (Label τ)}
    (hrun : Run.run (step flag priority) (rtMqCreate τ msgSize maxMsgs) ls = some s) :
    s.maxMsgs = maxMsgs.toNat :=
  Run.run_invariant_of_step (P := fun s : Mq τ => s.maxMsgs = maxMsgs.toNat)
    (fun _ _ _ h hs => (maxMsgs_of_step hs).trans h) rfl hrun

/-! ## What the queue promises -/

/-- The messages in the queue, as the pointers of its blocks lead through them. -/
def Mq.queued (s : Mq τ) : List (List Byte) := (follow s.next s.entry s.head).map s.message

theorem Sound.queued {s : Mq τ} {q f : List Nat} {held : List (τ × Nat)} (h : Sound s q f held) :
    s.queued = q.map s.message := by
  rw [Mq.queued, h.entry, h.queue.follow_eq]

/-- The blocks the threads hold, between them. -/
def Holding (s : Mq τ) (held : List (τ × Nat)) : Prop :=
  (held.map Prod.fst).Nodup ∧ (held.map Prod.snd).Nodup ∧ ∀ t b, (t, b) ∈ held ↔ (s.pc t).block? = some b

/-- **Each block of the pool is queued, free or held**, and only one of them: what is not in the free list is in the queue
or with one thread. -/
def Shares (s : Mq τ) (maxMsgs : Nat) (held : List (τ × Nat)) : Prop :=
  ∃ q f, Chain s.next s.head q ∧ q.length = s.entry ∧ Chain s.next s.free f ∧
    (q ++ f ++ held.map Prod.snd).Perm (List.range maxMsgs)

section
variable {s : Mq τ} {q f : List Nat} {held : List (τ × Nat)}

theorem Kept.holding (h : Kept s q f held) : Holding s held :=
  ⟨h.sound.owned.owners, (List.nodup_append.1 h.sound.nodup).2.1, h.sound.owned.block⟩

theorem Kept.shares (h : Kept s q f held) : Shares s s.maxMsgs held :=
  ⟨q, f, h.sound.queue, h.sound.entry.symm, h.sound.free, h.sound.pool⟩

/-- The pool is what is queued, what is free and what is held. -/
theorem Kept.share (h : Kept s q f held) : s.entry + f.length + held.length = s.maxMsgs := by
  have hlen := h.sound.pool.length_eq
  rwa [List.length_append, List.length_append, List.length_range, List.length_map, ← h.sound.entry] at hlen

theorem Kept.receivers_resumed (h : Kept s q f held) {t : τ} (ht : (s.pc t).RecvWaits) :
    ∃ woken : List τ, woken.Nodup ∧ (∀ u ∈ woken, (s.pc u).RecvWoken) ∧ s.entry ≤ woken.length := by
  obtain ⟨woken, hnd, hmem, hle⟩ := h.receivers.ready
  refine ⟨woken, hnd, fun u hu => (hmem u).1 hu, ?_⟩
  rw [h.sound.entry]
  exact hle (List.ne_nil_of_mem ((h.receivers.mem t).2 ht))

theorem Kept.senders_resumed (h : Kept s q f held) {t : τ} (ht : (s.pc t).SendWaits) :
    ∃ woken : List τ, woken.Nodup ∧ (∀ u ∈ woken, (s.pc u).SendWoken) ∧ f.length ≤ woken.length := by
  obtain ⟨woken, hnd, hmem, hle⟩ := h.senders.ready
  exact ⟨woken, hnd, fun u hu => (hmem u).1 hu, hle (List.ne_nil_of_mem ((h.senders.mem t).2 ht))⟩

theorem Kept.isSome_takeHead (h : Kept s q f held) (t : τ) (size : Nat) (timeout : Timeout) :
    (s.takeHead flag priority t size timeout).isSome := by
  unfold Mq.takeHead
  split
  · split <;> rfl
  · rename_i hentry
    rw [Option.isSome_map, h.sound.queue.eq_head?, List.isSome_head?]
    rw [h.sound.entry] at hentry
    simpa [List.isEmpty_iff] using fun hq => hentry (by rw [hq]; rfl)

end

section
variable {msgSize maxMsgs : UInt16} {s : Mq τ} {ls : List (Label τ)}

/-- **First in, first out, across every interleaving**: what was passed to the sends that linked a block is what was
taken out and what the pointers still lead to, byte for byte and in order; and each thread has been returned what it
took, cut to its buffer, but for the message of the call it is in. -/
theorem mq_fifo (hrun : Run.run (step flag priority) (rtMqCreate τ msgSize maxMsgs) ls = some s) :
    s.linked = s.unlinked.map Unlinked.message ++ s.queued ∧ s.queued.length = s.entry ∧
      s.entry ≤ maxMsgs.toNat ∧ ∀ t, s.takenBy t = s.receivedBy t ++ (s.pc t).pending s.message := by
  obtain ⟨q, f, held, h⟩ := kept_of_run hrun
  have hshare := h.share
  rw [maxMsgs_of_run hrun] at hshare
  refine ⟨?_, ?_, by omega, h.sound.received⟩
  · rw [h.sound.queued]
    exact h.sound.history
  · rw [h.sound.queued, List.length_map, h.sound.entry]

theorem mq_fifo_reader_first :
    ∃ s, Run.run (step .fifo (fun _ : Nat => 0)) (rtMqCreate Nat 4 2)
        [.recv 0 2 .forever, .send 1 [1, 2, 3] .no, .fill 1, .send 2 [4] .no, .link 1, .wake 0 false, .copy 0] = some s ∧
      s.linked = s.unlinked.map Unlinked.message ++ s.queued ∧ s.queued.length = s.entry ∧
      s.entry ≤ (2 : UInt16).toNat ∧ ∀ t, s.takenBy t = s.receivedBy t ++ (s.pc t).pending s.message :=
  Exists.imp (fun _ hs => ⟨hs, mq_fifo hs⟩) (Option.isSome_iff_exists.1 rfl)

/-- **When a send is refused**: the blocks not in the free list are those queued and those that other calls are filling
or copying, and they make up the pool.  A send that has a block is never refused, and no two threads hold the same block. -/
theorem mq_refuses_iff (hrun : Run.run (step flag priority) (rtMqCreate τ msgSize maxMsgs) ls = some s) :
    ∃ held, Holding s held ∧ Shares s maxMsgs.toNat held ∧ s.entry + held.length ≤ maxMsgs.toNat ∧
      (∀ t buffer, s.pc t = .idle → buffer ≠ [] → buffer.length ≤ s.msgSize →
        (step flag priority s (.send t buffer .no) = some (s.returns t .efull) ↔
          s.entry + held.length = maxMsgs.toNat)) ∧
      ∀ t s', step flag priority s (.link t) = some s' → s'.returned = s.returned ++ [(t, .eok)] := by
  obtain ⟨q, f, held, h⟩ := kept_of_run hrun
  have hshare := h.share
  have hshares := h.shares
  rw [maxMsgs_of_run hrun] at hshare hshares
  refine ⟨held, h.holding, hshares, by omega, ?_, ?_⟩
  · intro t buffer ht hne hle
    have hfree : s.free = none ↔ s.entry + held.length = maxMsgs.toNat := by
      rw [h.sound.free.none_iff, ← List.length_eq_zero_iff]
      omega
    rw [← hfree]
    simp only [step, ht, hne, if_false, Nat.not_lt.2 hle, Mq.takeFree]
    cases hf : s.free with
    | none => simp
    | some msg =>
      refine iff_of_false (fun he => ?_) (by simp)
      have := congrArg Mq.returned (Option.some.inj he)
      simp [Mq.goes, Mq.returns] at this
  · intro t s' hs
    simp only [step] at hs
    split at hs
    · rename_i msg buffer hpc
      have hmem := (h.sound.owned.block t msg).2 (show (s.pc t).block? = some msg by rw [hpc]; rfl)
      have hlt := h.sound.length_lt hmem
      have hsmall := h.sound.small
      rw [← h.sound.entry] at hlt
      rw [if_pos (by omega)] at hs
      cases hs
      unfold Mq.resumeReceiver
      split <;> rfl
    · cases hs

theorem mq_refuses_iff_one_queued :
    ∃ s, Run.run (step .fifo (fun _ : Nat => 0)) (rtMqCreate Nat 4 2)
        [.send 1 [1] .no, .fill 1, .link 1, .send 2 [2] .no] = some s ∧
      ∃ held, Holding s held ∧ Shares s (2 : UInt16).toNat held ∧ s.entry + held.length ≤ (2 : UInt16).toNat ∧
        (∀ t buffer, s.pc t = .idle → buffer ≠ [] → buffer.length ≤ s.msgSize →
          (step .fifo (fun _ : Nat => 0) s (.send t buffer .no) = some (s.returns t .efull) ↔
            s.entry + held.length = (2 : UInt16).toNat)) ∧
        ∀ t s', step .fifo (fun _ : Nat => 0) s (.link t) = some s' → s'.returned = s.returned ++ [(t, .eok)] :=
  Exists.imp (fun _ hs => ⟨hs, mq_refuses_iff hs⟩) (Option.isSome_iff_exists.1 rfl)

/-- **No wakeup is lost**: while a receiver is suspended, as many receivers have been resumed and are about to look as
there are messages; while a sender is, as many senders as there are free blocks. -/
theorem mq_no_lost_wakeup (hrun : Run.run (step flag priority) (rtMqCreate τ msgSize maxMsgs) ls = some s) :
    ((∃ t, (s.pc t).RecvWaits) → ∃ woken : List τ, woken.Nodup ∧ (∀ t ∈ woken, (s.pc t).RecvWoken) ∧
      s.entry ≤ woken.length) ∧
    ((∃ t, (s.pc t).SendWaits) → ∃ held, Holding s held ∧ ∃ woken : List τ, woken.Nodup ∧
      (∀ t ∈ woken, (s.pc t).SendWoken) ∧ maxMsgs.toNat - (s.entry + held.length) ≤ woken.length) := by
  obtain ⟨q, f, held, h⟩ := kept_of_run hrun
  refine ⟨fun ⟨t, ht⟩ => h.receivers_resumed ht, fun ⟨t, ht⟩ => ?_⟩
  obtain ⟨woken, hnd, hmem, hle⟩ := h.senders_resumed ht
  have hshare := h.share
  rw [maxMsgs_of_run hrun] at hshare
  exact ⟨held, h.holding, woken, hnd, hmem, by omega⟩

theorem mq_no_lost_wakeup_two_readers :
    ∃ s, Run.run (step .fifo (fun _ : Nat => 0)) (rtMqCreate Nat 4 2)
        [.recv 0 4 .forever, .recv 3 4 .ticks, .send 1 [1] .no, .fill 1, .link 1] = some s ∧
      ((∃ t, (s.pc t).RecvWaits) → ∃ woken : List Nat, woken.Nodup ∧ (∀ t ∈ woken, (s.pc t).RecvWoken) ∧
        s.entry ≤ woken.length) ∧
      ((∃ t, (s.pc t).SendWaits) → ∃ held, Holding s held ∧ ∃ woken : List Nat, woken.Nodup ∧
        (∀ t ∈ woken, (s.pc t).SendWoken) ∧ (2 : UInt16).toNat - (s.entry + held.length) ≤ woken.length) :=
  Exists.imp (fun _ hs => ⟨hs, mq_no_lost_wakeup hs⟩) (Option.isSome_iff_exists.1 rfl)

/-- **Nothing is stuck**: when every thread is outside the queue or suspended in it, a suspended receiver means an empty
queue and a suspended sender a full one; a thread that looks for a message never meets a null head. -/
theorem mq_rest (hrun : Run.run (step flag priority) (rtMqCreate τ msgSize maxMsgs) ls = some s) :
    ((∀ t, s.pc t = .idle ∨ (s.pc t).RecvWaits ∨ (s.pc t).SendWaits) →
      ((∃ t, (s.pc t).RecvWaits) → s.entry = 0) ∧ ((∃ t, (s.pc t).SendWaits) → s.entry = maxMsgs.toNat)) ∧
    (∀ t size timeout, s.pc t = .idle → size ≠ 0 → (step flag priority s (.recv t size timeout)).isSome) ∧
    ∀ t, (s.pc t).RecvWoken → (step flag priority s (.wake t false)).isSome := by
  obtain ⟨q, f, held, h⟩ := kept_of_run hrun
  refine ⟨fun hrest => ⟨fun ⟨t, ht⟩ => ?_, fun ⟨t, ht⟩ => ?_⟩, fun t size timeout ht hsize => ?_, ?_⟩
  · obtain ⟨woken, -, hmem, hle⟩ := h.receivers_resumed ht
    cases woken with
    | nil => exact Nat.le_zero.1 hle
    | cons u us =>
      obtain ⟨size, timeout, hu⟩ := hmem u List.mem_cons_self
      have := hrest u
      simp [hu, Pc.RecvWaits, Pc.SendWaits] at this
  · obtain ⟨woken, -, hmem, hle⟩ := h.senders_resumed ht
    have hshare := h.share
    rw [maxMsgs_of_run hrun] at hshare
    cases woken with
    | nil =>
      have hheld : held = [] := by
        refine List.eq_nil_iff_forall_not_mem.2 (fun x hx => ?_)
        have hb := (h.sound.owned.block x.1 x.2).1 hx
        rcases hrest x.1 with hu | ⟨_, _, hu⟩ | ⟨_, _, hu⟩ <;> rw [hu] at hb <;> cases hb
      rw [hheld] at hshare
      simp only [List.length_nil] at hle hshare
      omega
    | cons u us =>
      obtain ⟨buffer, timeout, hu⟩ := hmem u List.mem_cons_self
      have := hrest u
      simp [hu, Pc.RecvWaits, Pc.SendWaits] at this
  · simp only [step, ht, if_neg hsize]
    exact h.isSome_takeHead t size timeout
  · rintro t ⟨size, timeout, ht⟩
    simp only [step, ht]
    exact h.isSome_takeHead t size timeout

theorem mq_rest_full :
    ∃ s, Run.run (step .fifo (fun _ : Nat => 0)) (rtMqCreate Nat 4 1)
        [.send 1 [1] .no, .fill 1, .link 1, .send 2 [2] .forever] = some s ∧
      ((∀ t, s.pc t = .idle ∨ (s.pc t).RecvWaits ∨ (s.pc t).SendWaits) →
        ((∃ t, (s.pc t).RecvWaits) → s.entry = 0) ∧
          ((∃ t, (s.pc t).SendWaits) → s.entry = (1 : UInt16).toNat)) ∧
      (∀ t size timeout, s.pc t = .idle → size ≠ 0 →
        (step .fifo (fun _ : Nat => 0) s (.recv t size timeout)).isSome) ∧
      ∀ t, (s.pc t).RecvWoken → (step .fifo (fun _ : Nat => 0) s (.wake t false)).isSome :=
  Exists.imp (fun _ hs => ⟨hs, mq_rest hs⟩) (Option.isSome_iff_exists.1 rfl)

end

end Kernel
end RtPay
