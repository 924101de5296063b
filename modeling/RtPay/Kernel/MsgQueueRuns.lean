import RtPay.Kernel.MsgQueue
/-!
# Kernel.MsgQueueRuns — what every interleaving of the message queue keeps

In every reachable state the blocks of the pool are split between the queue, the free list and the threads that hold
one (`Sound`), so that no critical section meets a null pointer and no thread writes a block that another one reads.
Messages come out in the order in which they were linked, and as they were sent.
-/
namespace RtPay
namespace Kernel

open Bytes Linked

variable {τ : Type} [DecidableEq τ] {flag : IpcFlag} {priority : τ → Nat}

/-! ## What a step can do -/

/-- A thread that is about to look for a free block, or for a message. -/
def Pc.Sends (pc : Pc) : Prop := pc = .idle ∨ ∃ buffer timeout, pc = .sendWoken buffer timeout

def Pc.Receives (pc : Pc) : Prop := pc = .idle ∨ ∃ size timeout, pc = .recvWoken size timeout

/-- **The moves of a thread.** -/
inductive Move (flag : IpcFlag) (priority : τ → Nat) (s : Mq τ) : Mq τ → Prop
  | refuse (t : τ) (r : Ret) (hr : ∀ data, r ≠ .received data) (h : s.pc t = .idle ∨ ((s.pc t).Sends ∧ s.free = none) ∨
      ((s.pc t).Receives ∧ s.entry = 0)) : Move flag priority s (s.returns t r)
  | takeFree (t : τ) (msg : Nat) (buffer : List Byte) (h : (s.pc t).Sends) (hfree : s.free = some msg) :
      Move flag priority s { s.goes t (.taken msg buffer) with free := s.next msg }
  | suspendSender (t : τ) (buffer : List Byte) (timeout : Timeout) (h : (s.pc t).Sends) (hfree : s.free = none) :
      Move flag priority s { s.goes t (.sendWaiting buffer timeout) with
        suspendSenderThread := ipcListSuspend flag priority t s.suspendSenderThread }
  | fill (t : τ) (msg : Nat) (buffer : List Byte) (h : s.pc t = .taken msg buffer) :
      Move flag priority s (s.fill t msg buffer)
  | link (t : τ) (msg : Nat) (buffer : List Byte) (h : s.pc t = .filled msg buffer) (hentry : s.entry < RT_MQ_ENTRY_MAX) :
      Move flag priority s ({ (s.link msg buffer).returns t .eok with entry := s.entry + 1 } : Mq τ).resumeReceiver
  | overflow (t : τ) (msg : Nat) (buffer : List Byte) (h : s.pc t = .filled msg buffer)
      (hentry : ¬ s.entry < RT_MQ_ENTRY_MAX) : Move flag priority s ((s.link msg buffer).returns t .efull)
  | suspendReceiver (t : τ) (size : Nat) (timeout : Timeout) (h : (s.pc t).Receives) (hentry : s.entry = 0) :
      Move flag priority s { s.goes t (.recvWaiting size timeout) with
        suspendThread := ipcListSuspend flag priority t s.suspendThread }
  | takeHead (t : τ) (size msg : Nat) (h : (s.pc t).Receives) (hentry : s.entry ≠ 0) (hhead : s.head = some msg) :
      Move flag priority s { s.goes t (.unlinked msg size) with
        head := s.next msg
        tail := if s.tail = some msg then none else s.tail
        entry := s.entry - 1
        unlinked := s.unlinked ++ [⟨t, size, s.message msg⟩] }
  | copy (t : τ) (msg size : Nat) (h : s.pc t = .unlinked msg size) :
      Move flag priority s (s.goes t (.copied msg ((s.message msg).take size)))
  | release (t : τ) (msg : Nat) (data : List Byte) (h : s.pc t = .copied msg data) :
      Move flag priority s ((s.release msg).returns t (.received data)).resumeSender
  | senderTimer (t : τ) (buffer : List Byte) (h : s.pc t = .sendWaiting buffer .ticks) :
      Move flag priority s { s.returns t .etimeout with suspendSenderThread := s.suspendSenderThread.erase t }
  | receiverTimer (t : τ) (size : Nat) (h : s.pc t = .recvWaiting size .ticks) :
      Move flag priority s { s.returns t .etimeout with suspendThread := s.suspendThread.erase t }

theorem move_of_takeFree {s : Mq τ} {t : τ} {buffer : List Byte} {timeout : Timeout} (h : (s.pc t).Sends) :
    Move flag priority s (s.takeFree flag priority t buffer timeout) := by
  unfold Mq.takeFree
  cases hfree : s.free with
  | some msg => exact .takeFree t msg buffer h hfree
  | none =>
    dsimp only
    split
    · exact .refuse t .efull (by simp) (Or.inr (Or.inl ⟨h, hfree⟩))
    · exact .suspendSender t buffer timeout h hfree

theorem move_of_takeHead {s s' : Mq τ} {t : τ} {size : Nat} {timeout : Timeout} (h : (s.pc t).Receives)
    (hs : s.takeHead flag priority t size timeout = some s') : Move flag priority s s' := by
  unfold Mq.takeHead at hs
  split at hs
  · rename_i hentry
    split at hs
    · cases hs
      exact .refuse t .etimeout (by simp) (Or.inr (Or.inr ⟨h, hentry⟩))
    · cases hs
      exact .suspendReceiver t size timeout h hentry
  · rename_i hentry
    obtain ⟨msg, hhead, rfl⟩ := Option.map_eq_some_iff.1 hs
    exact .takeHead t size msg h hentry hhead

/-- **A step is a move.** -/
theorem move_of_step {s s' : Mq τ} {l : Label τ} (hs : step flag priority s l = some s') : Move flag priority s s' := by
  cases l with
  | send t buffer timeout =>
    simp only [step] at hs
    split at hs
    · rename_i hpc
      split at hs
      · cases hs
      · split at hs
        · cases hs
          exact .refuse t .error (by simp) (Or.inl hpc)
        · cases hs
          exact move_of_takeFree (Or.inl hpc)
    · cases hs
  | fill t =>
    simp only [step] at hs
    split at hs
    · rename_i hpc
      cases hs
      exact .fill t _ _ hpc
    · cases hs
  | link t =>
    simp only [step] at hs
    split at hs
    · rename_i hpc
      split at hs
      · rename_i hentry
        cases hs
        exact .link t _ _ hpc hentry
      · rename_i hentry
        cases hs
        exact .overflow t _ _ hpc hentry
    · cases hs
  | recv t size timeout =>
    simp only [step] at hs
    split at hs
    · rename_i hpc
      split at hs
      · cases hs
      · exact move_of_takeHead (Or.inl hpc) hs
    · cases hs
  | copy t =>
    simp only [step] at hs
    split at hs
    · rename_i hpc
      cases hs
      exact .copy t _ _ hpc
    · cases hs
  | release t =>
    simp only [step] at hs
    split at hs
    · rename_i hpc
      cases hs
      exact .release t _ _ hpc
    · cases hs
  | wake t late =>
    simp only [step] at hs
    split at hs
    · rename_i hpc
      split at hs
      · split at hs
        · cases hs
          exact move_of_takeFree (Or.inr ⟨_, _, hpc⟩)
        · cases hs
      · cases hs
        exact move_of_takeFree (Or.inr ⟨_, _, hpc⟩)
    · rename_i hpc
      split at hs
      · split at hs
        · exact move_of_takeHead (Or.inr ⟨_, _, hpc⟩) hs
        · cases hs
      · exact move_of_takeHead (Or.inr ⟨_, _, hpc⟩) hs
    · cases hs
  | timer t =>
    simp only [step] at hs
    split at hs
    · rename_i hpc
      cases hs
      exact .senderTimer t _ hpc
    · rename_i hpc
      cases hs
      exact .receiverTimer t _ hpc
    · cases hs

/-! ## The blocks -/

/-- What a receiver in its call still has to return. -/
def Pc.pending (message : Nat → List Byte) : Pc → List (List Byte)
  | .unlinked msg size => [(message msg).take size]
  | .copied _ data => [data]
  | _ => []

def Ret.data? : Ret → Option (List Byte)
  | .received data => some data
  | _ => none

/-- The messages a thread has taken, cut to its buffers, and what its calls have returned. -/
def Mq.takenBy (s : Mq τ) (t : τ) : List (List Byte) :=
  s.unlinked.filterMap (fun x => if x.thread = t then some (x.message.take x.size) else none)

def Mq.receivedBy (s : Mq τ) (t : τ) : List (List Byte) :=
  s.returned.filterMap (fun x => if x.1 = t then x.2.data? else none)

/-- `held` are the blocks the threads hold, each with its thread. -/
structure Owned (pc : τ → Pc) (held : List (τ × Nat)) : Prop where
  owners : (held.map Prod.fst).Nodup
  block : ∀ t b, (t, b) ∈ held ↔ (pc t).block? = some b

/-- **The queue `q`, the free list `f` and the blocks the threads hold share out the pool.** -/
structure Sound (s : Mq τ) (q f : List Nat) (held : List (τ × Nat)) : Prop where
  queue : Chain s.next s.head q
  tail : s.tail = q.getLast?
  free : Chain s.next s.free f
  entry : s.entry = q.length
  pool : (q ++ f ++ held.map Prod.snd).Perm (List.range s.maxMsgs)
  small : s.maxMsgs ≤ RT_MQ_ENTRY_MAX
  owned : Owned s.pc held
  filled : ∀ t b m, s.pc t = .filled b m → s.next b = none ∧ s.message b = m
  history : s.linked = s.unlinked.map Unlinked.message ++ q.map s.message
  received : ∀ t, s.takenBy t = s.receivedBy t ++ (s.pc t).pending s.message

theorem Pc.pending_of_block {pc : Pc} (h : pc.block? = none) (message : Nat → List Byte) : pc.pending message = [] := by
  cases pc with
  | unlinked msg size => cases h
  | copied msg data => cases h
  | _ => rfl

theorem Pc.Sends.block {pc : Pc} (h : pc.Sends) : pc.block? = none := by
  rcases h with h | ⟨_, _, h⟩ <;> rw [h] <;> rfl

theorem Pc.Receives.block {pc : Pc} (h : pc.Receives) : pc.block? = none := by
  rcases h with h | ⟨_, _, h⟩ <;> rw [h] <;> rfl

section
variable {pc : τ → Pc} {held : List (τ × Nat)} {t : τ} {pc' : Pc}

omit [DecidableEq τ] in
theorem Owned.not_mem (h : Owned pc held) (ht : (pc t).block? = none) : t ∉ held.map Prod.fst := by
  rintro hm
  obtain ⟨⟨u, b⟩, hmem, rfl⟩ := List.mem_map.1 hm
  have hb := (h.block u b).1 hmem
  rw [ht] at hb
  cases hb

theorem Owned.goes (h : Owned pc held) (hb : pc'.block? = (pc t).block?) : Owned (Function.update pc t pc') held := by
  refine ⟨h.owners, fun u b => ?_⟩
  rw [h.block u b]
  by_cases hu : u = t
  · rw [hu, Function.update_self, hb]
  · rw [Function.update_of_ne hu]

theorem Owned.take {msg : Nat} (h : Owned pc held) (ht : (pc t).block? = none) (hb : pc'.block? = some msg) :
    Owned (Function.update pc t pc') ((t, msg) :: held) := by
  have hn := h.not_mem ht
  refine ⟨List.nodup_cons.2 ⟨hn, h.owners⟩, fun u b => ?_⟩
  rw [List.mem_cons, h.block u b]
  by_cases hu : u = t
  · rw [hu, Function.update_self, hb, ht]
    simp [eq_comm]
  · rw [Function.update_of_ne hu]
    simp [hu]

theorem Owned.give {msg : Nat} {A B : List (τ × Nat)} (h : Owned pc (A ++ (t, msg) :: B)) (hb : pc'.block? = none) :
    Owned (Function.update pc t pc') (A ++ B) := by
  have hnd := h.owners
  rw [List.map_append, List.map_cons, List.nodup_middle, List.nodup_cons, ← List.map_append] at hnd
  refine ⟨hnd.2, fun u b => ?_⟩
  by_cases hu : u = t
  · rw [hu, Function.update_self, hb]
    refine iff_of_false (fun hm => hnd.1 (List.mem_map.2 ⟨_, hm, rfl⟩)) (by simp)
  · rw [Function.update_of_ne hu, ← h.block u b]
    simp [hu]

end

section
variable {s : Mq τ} {q f : List Nat} {held : List (τ × Nat)} {t : τ} {msg : Nat}

theorem Sound.nodup (h : Sound s q f held) : (q ++ f ++ held.map Prod.snd).Nodup :=
  h.pool.nodup_iff.2 List.nodup_range

/-- A block that a thread holds is in no list. -/
theorem Sound.apart (h : Sound s q f held) (hm : (t, msg) ∈ held) : msg ∉ q ∧ msg ∉ f := by
  have hnd := List.nodup_append.1 h.nodup
  have hmem : msg ∈ held.map Prod.snd := List.mem_map.2 ⟨_, hm, rfl⟩
  exact ⟨fun hq => hnd.2.2 msg (List.mem_append_left _ hq) msg hmem rfl,
    fun hf => hnd.2.2 msg (List.mem_append_right _ hf) msg hmem rfl⟩

theorem Sound.disjoint (h : Sound s q f held) {a b : Nat} (ha : a ∈ q) (hb : b ∈ f) : a ≠ b :=
  (List.nodup_append.1 (List.nodup_append.1 h.nodup).1).2.2 a ha b hb

theorem Sound.holder (h : Sound s q f held) {u : τ} (ht : (s.pc t).block? = some msg) (hu : (s.pc u).block? = some msg) :
    u = t := by
  have hnd := (List.nodup_append.1 h.nodup).2.1
  have := List.inj_on_of_nodup_map hnd ((h.owned.block u msg).2 hu) ((h.owned.block t msg).2 ht) rfl
  exact congrArg Prod.fst this

theorem Sound.length_lt (h : Sound s q f held) (hm : (t, msg) ∈ held) : q.length < s.maxMsgs := by
  have hlen := h.pool.length_eq
  have hpos := List.length_pos_of_mem hm
  simp only [List.length_append, List.length_map, List.length_range] at hlen
  omega

/-! ## The moves that change no block -/

theorem receivedBy_returns (s : Mq τ) (t u : τ) (r : Ret) :
    (s.returns t r).receivedBy u = s.receivedBy u ++ if t = u then r.data?.toList else [] := by
  unfold Mq.receivedBy Mq.returns
  rw [List.filterMap_append]
  congr 1
  by_cases hu : t = u
  · cases hd : r.data? <;> simp [hu, hd]
  · simp [hu]

theorem Sound.goes (h : Sound s q f held) {pc : Pc} (hb : pc.block? = (s.pc t).block?)
    (hf : ∀ b m, pc = .filled b m → s.pc t = .filled b m)
    (hp : pc.pending s.message = (s.pc t).pending s.message) : Sound (s.goes t pc) q f held where
  queue := h.queue
  tail := h.tail
  free := h.free
  entry := h.entry
  pool := h.pool
  small := h.small
  owned := h.owned.goes hb
  filled := by
    intro u b m hu
    replace hu : Function.update s.pc t pc u = .filled b m := hu
    by_cases hut : u = t
    · rw [hut, Function.update_self] at hu
      exact h.filled t b m (hf b m hu)
    · rw [Function.update_of_ne hut] at hu
      exact h.filled u b m hu
  history := h.history
  received := by
    intro u
    show s.takenBy u = s.receivedBy u ++ Pc.pending s.message (Function.update s.pc t pc u)
    rw [h.received u]
    by_cases hut : u = t
    · rw [hut, Function.update_self, hp]
    · rw [Function.update_of_ne hut]

theorem Sound.suspend (h : Sound s q f held) {pc : Pc} (ht : (s.pc t).block? = none) (hb : pc.block? = none) :
    Sound (s.goes t pc) q f held := by
  refine h.goes (hb.trans ht.symm) (fun b m he => ?_) ?_
  · rw [he] at hb
    cases hb
  · rw [Pc.pending_of_block hb, Pc.pending_of_block ht]

/-- A call that ends without a message leaves the blocks where they are. -/
theorem Sound.returns (h : Sound s q f held) {r : Ret} (ht : (s.pc t).block? = none) (hr : r.data? = none) :
    Sound (s.returns t r) q f held := by
  have h' : Sound (s.goes t .idle) q f held := h.suspend ht rfl
  refine ⟨h'.queue, h'.tail, h'.free, h'.entry, h'.pool, h'.small, h'.owned, h'.filled, h'.history, fun u => ?_⟩
  rw [receivedBy_returns, hr]
  have hu := h'.received u
  simp only [Option.toList_none, ite_self, List.append_nil]
  exact hu

theorem Sound.resumeReceiver (h : Sound s q f held) : Sound s.resumeReceiver q f held := by
  unfold Mq.resumeReceiver
  split
  · exact h
  · rename_i u us _
    have h' : Sound (s.goes u (s.pc u).woken) q f held := by
      cases hu : s.pc u <;> exact h.goes (by rw [hu]; rfl) (by rw [hu]; simp [Pc.woken]) (by rw [hu]; rfl)
    exact ⟨h'.queue, h'.tail, h'.free, h'.entry, h'.pool, h'.small, h'.owned, h'.filled, h'.history, h'.received⟩

theorem Sound.resumeSender (h : Sound s q f held) : Sound s.resumeSender q f held := by
  unfold Mq.resumeSender
  split
  · exact h
  · rename_i u us _
    have h' : Sound (s.goes u (s.pc u).woken) q f held := by
      cases hu : s.pc u <;> exact h.goes (by rw [hu]; rfl) (by rw [hu]; simp [Pc.woken]) (by rw [hu]; rfl)
    exact ⟨h'.queue, h'.tail, h'.free, h'.entry, h'.pool, h'.small, h'.owned, h'.filled, h'.history, h'.received⟩

/-! ## The moves of a block -/

/-- **A block is taken** from the front of the free list. -/
theorem Sound.takeFree (h : Sound s q f held) (ht : (s.pc t).block? = none) (hfree : s.free = some msg)
    (buffer : List Byte) :
    ∃ f', f = msg :: f' ∧ Sound { s.goes t (.taken msg buffer) with free := s.next msg } q f' ((t, msg) :: held) := by
  have hchain := h.free
  rw [hfree] at hchain
  obtain ⟨f', rfl⟩ : ∃ f', f = msg :: f' := by
    cases f with
    | nil => cases hchain
    | cons a f' =>
      cases hchain.1
      exact ⟨f', rfl⟩
  refine ⟨f', rfl, h.queue, h.tail, hchain.2, h.entry, ?_, h.small, h.owned.take ht rfl, ?_, h.history, ?_⟩
  · refine List.Perm.trans ?_ h.pool
    simp only [List.map_cons, List.append_assoc]
    exact (List.perm_append_left_iff q).2 List.perm_middle
  · intro u b m hu
    replace hu : Function.update s.pc t (.taken msg buffer) u = .filled b m := hu
    by_cases hut : u = t
    · rw [hut, Function.update_self] at hu
      cases hu
    · rw [Function.update_of_ne hut] at hu
      exact h.filled u b m hu
  · intro u
    show s.takenBy u = s.receivedBy u ++ Pc.pending s.message (Function.update s.pc t (.taken msg buffer) u)
    rw [h.received u]
    by_cases hut : u = t
    · rw [hut, Function.update_self, Pc.pending_of_block ht]
      rfl
    · rw [Function.update_of_ne hut]

/-- **A thread fills its own block**, which nobody else sees. -/
theorem Sound.fill (h : Sound s q f held) {buffer : List Byte} (ht : s.pc t = .taken msg buffer) :
    Sound (s.fill t msg buffer) q f held := by
  have hb : (s.pc t).block? = some msg := by rw [ht]; rfl
  obtain ⟨hq, hf⟩ := h.apart ((h.owned.block t msg).2 hb)
  have hother : ∀ {u : τ} {b : Nat}, (s.pc u).block? = some b → u ≠ t → b ≠ msg := by
    rintro u b hu hut rfl
    exact hut (h.holder hb hu)
  refine ⟨h.queue.frame (fun a ha => Function.update_of_ne (ne_of_mem_of_not_mem ha hq) _ _), h.tail,
    h.free.frame (fun a ha => Function.update_of_ne (ne_of_mem_of_not_mem ha hf) _ _), h.entry, h.pool, h.small,
    h.owned.goes (hb.symm ▸ rfl), ?_, ?_, ?_⟩
  · intro u b m hu
    replace hu : Function.update s.pc t (.filled msg buffer) u = .filled b m := hu
    show Function.update s.next msg none b = none ∧ Function.update s.message msg buffer b = m
    by_cases hut : u = t
    · rw [hut, Function.update_self] at hu
      cases hu
      exact ⟨Function.update_self _ _ _, Function.update_self _ _ _⟩
    · rw [Function.update_of_ne hut] at hu
      have hne := hother (show (s.pc u).block? = some b by rw [hu]; rfl) hut
      rw [Function.update_of_ne hne, Function.update_of_ne hne]
      exact h.filled u b m hu
  · show s.linked = _ ++ q.map (Function.update s.message msg buffer)
    rw [h.history]
    congr 1
    exact List.map_congr_left (fun a ha => (Function.update_of_ne (ne_of_mem_of_not_mem ha hq) _ _).symm)
  · intro u
    show s.takenBy u = s.receivedBy u ++
      Pc.pending (Function.update s.message msg buffer) (Function.update s.pc t (.filled msg buffer) u)
    rw [h.received u]
    congr 1
    by_cases hut : u = t
    · rw [hut, Function.update_self, ht]
      rfl
    · rw [Function.update_of_ne hut]
      cases hu : s.pc u with
      | unlinked b size =>
        have hne := hother (show (s.pc u).block? = some b by rw [hu]; rfl) hut
        simp only [Pc.pending, Function.update_of_ne hne]
      | _ => rfl

/-- **The filled block becomes the tail of the queue.** -/
theorem Sound.link (h : Sound s q f held) {buffer : List Byte} (ht : s.pc t = .filled msg buffer) :
    ∃ held', Sound { (s.link msg buffer).returns t .eok with entry := s.entry + 1 } (q ++ [msg]) f held' := by
  have hb : (s.pc t).block? = some msg := by rw [ht]; rfl
  have hmem := (h.owned.block t msg).2 hb
  obtain ⟨hq, hf⟩ := h.apart hmem
  obtain ⟨hnext, hmessage⟩ := h.filled t msg buffer ht
  obtain ⟨A, B, rfl⟩ := List.append_of_mem hmem
  have hlast : ∀ {a : Nat}, a ∉ q → (s.link msg buffer).next a = s.next a := by
    intro a ha
    refine linkAfter_of_ne (fun e => ha (List.mem_of_getLast? ?_))
    rw [← h.tail, e]
  refine ⟨A ++ B, ?_, ?_, h.free.frame (fun a ha => hlast (fun haq => h.disjoint haq ha rfl)), ?_, ?_, h.small,
    h.owned.give rfl, ?_, ?_, ?_⟩
  · have happ := h.queue.append hq hnext
    rw [← h.tail] at happ
    exact happ
  · show some msg = (q ++ [msg]).getLast?
    rw [List.getLast?_append]
    rfl
  · show s.entry + 1 = (q ++ [msg]).length
    rw [List.length_append, h.entry]
    rfl
  · refine List.Perm.trans ?_ h.pool
    rw [List.perm_iff_count]
    intro a
    simp only [List.map_append, List.map_cons, List.count_append, List.count_cons, List.count_nil]
    omega
  · intro u b m hu
    replace hu : Function.update s.pc t .idle u = .filled b m := hu
    by_cases hut : u = t
    · rw [hut, Function.update_self] at hu
      cases hu
    · rw [Function.update_of_ne hut] at hu
      have hbu := (h.owned.block u b).2 (show (s.pc u).block? = some b by rw [hu]; rfl)
      obtain ⟨h1, h2⟩ := h.filled u b m hu
      exact ⟨(hlast (h.apart hbu).1).trans h1, h2⟩
  · show s.linked ++ [buffer] = _ ++ (q ++ [msg]).map s.message
    rw [h.history, List.map_append, List.append_assoc, ← hmessage]
    rfl
  · intro u
    show s.takenBy u = ((s.link msg buffer).returns t .eok).receivedBy u ++
      Pc.pending s.message (Function.update s.pc t .idle u)
    rw [receivedBy_returns]
    simp only [Ret.data?, Option.toList_none, ite_self, List.append_nil]
    show s.takenBy u = s.receivedBy u ++ _
    rw [h.received u]
    by_cases hut : u = t
    · rw [hut, Function.update_self, ht]
      rfl
    · rw [Function.update_of_ne hut]

/-- **The head of the queue is unlinked**, and is the message the thread will return. -/
theorem Sound.takeHead (h : Sound s q f held) (ht : (s.pc t).block? = none) (size : Nat) (hhead : s.head = some msg) :
    ∃ q', q = msg :: q' ∧ Sound { s.goes t (.unlinked msg size) with
      head := s.next msg
      tail := if s.tail = some msg then none else s.tail
      entry := s.entry - 1
      unlinked := s.unlinked ++ [⟨t, size, s.message msg⟩] } q' f ((t, msg) :: held) := by
  have hchain := h.queue
  rw [hhead] at hchain
  obtain ⟨q', rfl⟩ : ∃ q', q = msg :: q' := by
    cases q with
    | nil => cases hchain
    | cons a q' =>
      cases hchain.1
      exact ⟨q', rfl⟩
  have hnot : msg ∉ q' := (List.nodup_cons.1 h.queue.nodup).1
  refine ⟨q', rfl, hchain.2, ?_, h.free, ?_, ?_, h.small, h.owned.take ht rfl, ?_, ?_, ?_⟩
  · show (if s.tail = some msg then none else s.tail) = q'.getLast?
    rw [h.tail]
    cases q' with
    | nil => simp
    | cons b q'' =>
      rw [List.getLast?_cons_cons, if_neg (fun e => hnot (List.mem_of_getLast? e))]
  · show s.entry - 1 = q'.length
    rw [h.entry]
    rfl
  · refine List.Perm.trans ?_ h.pool
    rw [List.perm_iff_count]
    intro a
    simp only [List.map_cons, List.count_append, List.count_cons]
    omega
  · intro u b m hu
    replace hu : Function.update s.pc t (.unlinked msg size) u = .filled b m := hu
    by_cases hut : u = t
    · rw [hut, Function.update_self] at hu
      cases hu
    · rw [Function.update_of_ne hut] at hu
      exact h.filled u b m hu
  · show s.linked = List.map Unlinked.message (s.unlinked ++ [⟨t, size, s.message msg⟩]) ++ q'.map s.message
    rw [h.history, List.map_append, List.append_assoc]
    rfl
  · intro u
    have htaken : List.filterMap (fun x : Unlinked τ => if x.thread = u then some (x.message.take x.size) else none)
        (s.unlinked ++ [⟨t, size, s.message msg⟩]) =
          s.takenBy u ++ if t = u then [(s.message msg).take size] else [] := by
      rw [List.filterMap_append]
      congr 1
      by_cases hut : t = u <;> simp [hut]
    refine Eq.trans htaken ?_
    show s.takenBy u ++ _ = s.receivedBy u ++ Pc.pending s.message (Function.update s.pc t (.unlinked msg size) u)
    rw [h.received u]
    by_cases hut : u = t
    · rw [hut, Function.update_self, Pc.pending_of_block ht, if_pos rfl, List.append_nil]
      rfl
    · rw [Function.update_of_ne hut, if_neg (Ne.symm hut), List.append_nil]

/-- **A copied block goes back** to the free list, and its message to the caller. -/
theorem Sound.release (h : Sound s q f held) {data : List Byte} (ht : s.pc t = .copied msg data) :
    ∃ held', Sound ((s.release msg).returns t (.received data)) q (msg :: f) held' := by
  have hb : (s.pc t).block? = some msg := by rw [ht]; rfl
  have hmem := (h.owned.block t msg).2 hb
  obtain ⟨hq, hf⟩ := h.apart hmem
  have hother : ∀ {u : τ} {b : Nat}, (s.pc u).block? = some b → u ≠ t → b ≠ msg := by
    rintro u b hu hut rfl
    exact hut (h.holder hb hu)
  obtain ⟨A, B, rfl⟩ := List.append_of_mem hmem
  refine ⟨A ++ B, h.queue.frame (fun a ha => Function.update_of_ne (ne_of_mem_of_not_mem ha hq) _ _), h.tail,
    h.free.push hf, h.entry, ?_, h.small, h.owned.give rfl, ?_, h.history, ?_⟩
  · refine List.Perm.trans ?_ h.pool
    rw [List.perm_iff_count]
    intro a
    simp only [List.map_append, List.map_cons, List.count_append, List.count_cons]
    omega
  · intro u b m hu
    replace hu : Function.update s.pc t .idle u = .filled b m := hu
    by_cases hut : u = t
    · rw [hut, Function.update_self] at hu
      cases hu
    · rw [Function.update_of_ne hut] at hu
      have hne := hother (show (s.pc u).block? = some b by rw [hu]; rfl) hut
      obtain ⟨h1, h2⟩ := h.filled u b m hu
      exact ⟨(Function.update_of_ne hne _ _).trans h1, h2⟩
  · intro u
    show s.takenBy u = ((s.release msg).returns t (.received data)).receivedBy u ++
      Pc.pending s.message (Function.update s.pc t .idle u)
    rw [receivedBy_returns]
    show s.takenBy u = s.receivedBy u ++ _ ++ _
    rw [h.received u]
    by_cases hut : u = t
    · rw [hut, Function.update_self, ht, if_pos rfl, List.append_assoc]
      rfl
    · rw [Function.update_of_ne hut, if_neg (Ne.symm hut), List.append_nil]

end

end Kernel
end RtPay
