import RtPay.Lib.Run
import RtPay.Umqtt.Stream
/-!
# AtSocket — the receiving side of at_socket.c

A TCP socket of the modem from `at_connect` to `at_closesocket`, between two threads: the parser of the modem's output
links the blocks that come (`at_recv_notice_cb`) and tells that the peer has closed (`at_closed_notice_cb`), the thread
of the client takes bytes (`at_recvfrom`).  A call is cut where the lock is released and around the semaphore
`recv_notice`, which the parser releases once for each block.  A receive that finds bytes does not take the semaphore,
one that finds none does and looks again: what the first kind leaves in it fails receives of the second kind
(`failures_counted`).
-/
namespace RtPay
namespace AtSocket

open Bytes Framed Umqtt.Stream

def RT_SEM_VALUE_MAX : Nat := 65535

inductive SocketState
  | none
  | opened
  | listen
  | connect
  | closed
  deriving DecidableEq

/-- `struct at_recv_pkt`; `bfsz_totle` is the length of the buffer. -/
structure RecvPkt where
  buff : List Byte
  bfszIndex : Nat
  deriving DecidableEq

/-- The client's thread: before a call, behind the first look into the list, behind the look at the state, in
`rt_sem_take`, or behind it. -/
inductive Reader
  | idle
  | foundNone (len : Nat)
  | taking (len : Nat)
  | waiting (len : Nat)
  | taken (len : Nat)
  deriving DecidableEq

/-- The parser: before a call, or before the `rt_sem_release` of one. -/
inductive Parser
  | idle
  | posting
  deriving DecidableEq

/-- A receive that has returned: what it asked for, whether it took the semaphore, and what it found. -/
structure Received where
  len : Nat
  took : Bool
  what : Arrived
  deriving DecidableEq

/-- `put` are the blocks linked so far; a `recv_timeout` of zero waits forever. -/
structure Sock where
  state : SocketState
  recvpktList : List RecvPkt
  recvNotice : Nat
  recvTimeout : Nat
  reader : Reader
  parser : Parser
  put : List (List Byte)
  returned : List Received
  deriving DecidableEq

/-- After `at_connect`. -/
def connected (recvTimeout : Nat) : Sock where
  state := .connect
  recvpktList := []
  recvNotice := 0
  recvTimeout := recvTimeout
  reader := .idle
  parser := .idle
  put := []
  returned := []

inductive Label
  | recv (len : Nat)
  | look
  | take
  | get
  | expire
  | block (buff : List Byte) (room : Bool)
  | close
  | post
  deriving DecidableEq

/-- The loop of `at_recvpkt_get`, with the room that is left. -/
def atRecvpktGet : List RecvPkt → Nat → List Byte × List RecvPkt
  | [], _ => ([], [])
  | pkt :: rlist, len =>
    let pagePos := pkt.buff.length - pkt.bfszIndex
    if pagePos ≥ len then
      let pkt' := { pkt with bfszIndex := pkt.bfszIndex + len }
      ((pkt.buff.drop pkt.bfszIndex).take len, if pkt'.bfszIndex = pkt'.buff.length then rlist else pkt' :: rlist)
    else
      let (mem, rlist') := atRecvpktGet rlist (len - pagePos)
      (pkt.buff.drop pkt.bfszIndex ++ mem, rlist')

namespace Sock

def returns (s : Sock) (len : Nat) (took : Bool) (what : Arrived) : Sock :=
  { s with reader := .idle, returned := s.returned ++ [⟨len, took, what⟩] }

/-- The first look into the list, under the lock. -/
def first (s : Sock) (len : Nat) : Sock :=
  match atRecvpktGet s.recvpktList len with
  | ([], _) => { s with reader := .foundNone len }
  | (mem, rlist) => { s with recvpktList := rlist }.returns len false (.data mem)

/-- The second one; without bytes it sets `errno` to `EIO`. -/
def second (s : Sock) (len : Nat) : Sock :=
  match atRecvpktGet s.recvpktList len with
  | ([], _) => s.returns len true .failed
  | (mem, rlist) => { s with recvpktList := rlist }.returns len true (.data mem)

/-- A closed socket is at its end, and one that is neither connected nor open is an error. -/
def lookAt (s : Sock) (len : Nat) : Sock :=
  match s.state with
  | .closed => s.returns len false (.data [])
  | .connect | .opened => { s with reader := .taking len }
  | _ => s.returns len false .failed

def semTake (s : Sock) (len : Nat) : Sock :=
  if 0 < s.recvNotice then { s with recvNotice := s.recvNotice - 1, reader := .taken len }
  else { s with reader := .waiting len }

def semRelease (s : Sock) : Sock :=
  match s.reader with
  | .waiting len => { s with parser := .idle, reader := .taken len }
  | _ =>
    if s.recvNotice < RT_SEM_VALUE_MAX then { s with parser := .idle, recvNotice := s.recvNotice + 1 }
    else { s with parser := .idle }

/-- `at_recv_notice_cb` up to the release; without `room` there is no memory for the packet, and the block is lost. -/
def recvNoticeCb (s : Sock) (buff : List Byte) (room : Bool) : Sock :=
  if s.state = .closed then s
  else if room then
    { s with recvpktList := s.recvpktList ++ [⟨buff, 0⟩], parser := .posting, put := s.put ++ [buff] }
  else s

end Sock

/-- A call asks for bytes, and a block has some. -/
def step (s : Sock) : Label → Option Sock
  | .recv len => if s.reader = .idle ∧ 0 < len then some (s.first len) else none
  | .look =>
    match s.reader with
    | .foundNone len => some (s.lookAt len)
    | _ => none
  | .take =>
    match s.reader with
    | .taking len => some (s.semTake len)
    | _ => none
  | .get =>
    match s.reader with
    | .taken len => some (s.second len)
    | _ => none
  | .expire =>
    match s.reader with
    | .waiting len => if s.recvTimeout ≠ 0 then some (s.returns len false .again) else none
    | _ => none
  | .block buff room => if s.parser = .idle ∧ buff ≠ [] then some (s.recvNoticeCb buff room) else none
  | .close => if s.parser = .idle then some { s with state := .closed, parser := .posting } else none
  | .post => if s.parser = .posting then some s.semRelease else none

/-! ## The list of packets -/

def RecvPkt.rest (pkt : RecvPkt) : List Byte := pkt.buff.drop pkt.bfszIndex

/-- The bytes nobody has taken yet. -/
def pending (rlist : List RecvPkt) : List Byte := (rlist.map RecvPkt.rest).flatten

@[simp] theorem pending_nil : pending [] = [] := rfl

@[simp] theorem pending_cons (pkt : RecvPkt) (rlist : List RecvPkt) :
    pending (pkt :: rlist) = pkt.rest ++ pending rlist := rfl

theorem pending_append (l r : List RecvPkt) : pending (l ++ r) = pending l ++ pending r := by
  simp [pending]

/-- **`at_recvpkt_get` takes from the front**, as much as there is room for. -/
theorem atRecvpktGet_eq (rlist : List RecvPkt) (len : Nat) :
    (atRecvpktGet rlist len).1 = (pending rlist).take len ∧
      pending (atRecvpktGet rlist len).2 = (pending rlist).drop len := by
  induction rlist generalizing len with
  | nil => simp [atRecvpktGet]
  | cons pkt rlist ih =>
    have hlen : pkt.rest.length = pkt.buff.length - pkt.bfszIndex := List.length_drop
    rw [atRecvpktGet, pending_cons]
    dsimp only
    split
    · rename_i hle
      have hroom : len ≤ pkt.rest.length := by omega
      rw [List.take_append_of_le_length hroom, List.drop_append_of_le_length hroom]
      refine ⟨rfl, ?_⟩
      have hrest : (pkt.rest).drop len = pkt.buff.drop (pkt.bfszIndex + len) := List.drop_drop
      rw [hrest]
      split
      · rename_i hall
        rw [hall, List.drop_length, List.nil_append]
      · rfl
    · rename_i hlt
      obtain ⟨hmem, hleft⟩ := ih (len - (pkt.buff.length - pkt.bfszIndex))
      have hmore : pkt.rest.length ≤ len := by omega
      rw [hmem, hleft, ← hlen]
      exact ⟨by rw [List.take_append, List.take_of_length_le hmore]; rfl,
        by rw [List.drop_append, List.drop_of_length_le hmore, List.nil_append]⟩

/-- No packet in the list is empty. -/
def Fed (rlist : List RecvPkt) : Prop := ∀ pkt ∈ rlist, pkt.rest ≠ []

theorem fed_atRecvpktGet {rlist : List RecvPkt} (h : Fed rlist) (len : Nat) : Fed (atRecvpktGet rlist len).2 := by
  induction rlist generalizing len with
  | nil => exact h
  | cons pkt rlist ih =>
    have hrest : Fed rlist := fun p hp => h p (List.mem_cons_of_mem _ hp)
    rw [atRecvpktGet]
    dsimp only
    split
    · rename_i hle
      split
      · exact hrest
      · rename_i hne
        have hpkt := h pkt List.mem_cons_self
        have hpos : pkt.bfszIndex < pkt.buff.length := by
          rw [RecvPkt.rest, ne_eq, List.drop_eq_nil_iff] at hpkt
          omega
        refine List.forall_mem_cons.2 ⟨?_, hrest⟩
        rw [RecvPkt.rest, ne_eq, List.drop_eq_nil_iff]
        dsimp only at hne ⊢
        omega
    · exact ih hrest _

/-! ## What a step can do -/

namespace Sock

def left (s : Sock) : List Byte := pending s.recvpktList

/-- The receives have got this. -/
def got (s : Sock) : List Byte :=
  (s.returned.map (fun r => match r.what with
    | .data bytes => bytes
    | _ => [])).flatten

/-- What a step of a socket can do; of a receive it says that the list has been emptied or the bytes been taken. -/
inductive Move (s : Sock) : Label → Sock → Prop
  | first (len : Nat) (rlist : List RecvPkt) (hidle : s.reader = .idle) (hpos : 0 < len) (hsome : s.left ≠ [])
      (hleft : pending rlist = s.left.drop len) (hfed : Fed s.recvpktList → Fed rlist) :
      Move s (.recv len) ({ s with recvpktList := rlist }.returns len false (.data (s.left.take len)))
  | foundNone (len : Nat) (hidle : s.reader = .idle) (hpos : 0 < len) (hnone : s.left = []) :
      Move s (.recv len) { s with reader := .foundNone len }
  | atEnd (len : Nat) (hreader : s.reader = .foundNone len) (hclosed : s.state = .closed) :
      Move s .look (s.returns len false (.data []))
  | goesOn (len : Nat) (hreader : s.reader = .foundNone len) (hstate : s.state = .connect ∨ s.state = .opened) :
      Move s .look { s with reader := .taking len }
  | wrong (len : Nat) (hreader : s.reader = .foundNone len) (hstate : s.state = .none ∨ s.state = .listen) :
      Move s .look (s.returns len false .failed)
  | takes (len : Nat) (hreader : s.reader = .taking len) (hpos : 0 < s.recvNotice) :
      Move s .take { s with recvNotice := s.recvNotice - 1, reader := .taken len }
  | waits (len : Nat) (hreader : s.reader = .taking len) (hzero : s.recvNotice = 0) :
      Move s .take { s with reader := .waiting len }
  | second (len : Nat) (rlist : List RecvPkt) (hreader : s.reader = .taken len) (hsome : s.left ≠ [])
      (hleft : pending rlist = s.left.drop len) (hfed : Fed s.recvpktList → Fed rlist) :
      Move s .get ({ s with recvpktList := rlist }.returns len true (.data (s.left.take len)))
  | fails (len : Nat) (hreader : s.reader = .taken len) (hnone : s.left = []) :
      Move s .get (s.returns len true .failed)
  | expires (len : Nat) (hreader : s.reader = .waiting len) (hset : s.recvTimeout ≠ 0) :
      Move s .expire (s.returns len false .again)
  | puts (buff : List Byte) (hparser : s.parser = .idle) (hne : buff ≠ []) (hopen : s.state ≠ .closed) :
      Move s (.block buff true)
        { s with recvpktList := s.recvpktList ++ [⟨buff, 0⟩], parser := .posting, put := s.put ++ [buff] }
  | drops (buff : List Byte) (room : Bool) (hparser : s.parser = .idle) : Move s (.block buff room) s
  | closes (hparser : s.parser = .idle) : Move s .close { s with state := .closed, parser := .posting }
  | wakes (len : Nat) (hparser : s.parser = .posting) (hreader : s.reader = .waiting len) :
      Move s .post { s with parser := .idle, reader := .taken len }
  | counts (hparser : s.parser = .posting) (hreader : ∀ len, s.reader ≠ .waiting len)
      (hroom : s.recvNotice < RT_SEM_VALUE_MAX) :
      Move s .post { s with parser := .idle, recvNotice := s.recvNotice + 1 }
  | full (hparser : s.parser = .posting) (hreader : ∀ len, s.reader ≠ .waiting len)
      (hfull : RT_SEM_VALUE_MAX ≤ s.recvNotice) :
      Move s .post { s with parser := .idle }

/-- A look into the list finds nothing, or takes what there is room for. -/
theorem get_cases (s : Sock) {len : Nat} (hpos : 0 < len) :
    (s.left = [] ∧ ∃ rlist, atRecvpktGet s.recvpktList len = ([], rlist)) ∨
      s.left ≠ [] ∧ ∃ b bytes rlist, atRecvpktGet s.recvpktList len = (b :: bytes, rlist) ∧
        b :: bytes = s.left.take len ∧ pending rlist = s.left.drop len ∧ (Fed s.recvpktList → Fed rlist) := by
  obtain ⟨hmem, hleft⟩ := atRecvpktGet_eq s.recvpktList len
  have hfed : Fed s.recvpktList → Fed (atRecvpktGet s.recvpktList len).2 := fun h => fed_atRecvpktGet h len
  cases hget : atRecvpktGet s.recvpktList len with
  | mk mem rlist =>
    rw [hget] at hmem hleft hfed
    cases mem with
    | nil =>
      refine Or.inl ⟨?_, rlist, rfl⟩
      rcases List.take_eq_nil_iff.1 hmem.symm with h | h
      · omega
      · exact h
    | cons b bytes =>
      refine Or.inr ⟨fun hnil => ?_, b, bytes, rlist, rfl, hmem, hleft, hfed⟩
      have hnil' : pending s.recvpktList = [] := hnil
      rw [hnil', List.take_nil] at hmem
      cases hmem

theorem move_first {s : Sock} {len : Nat} (hidle : s.reader = .idle) (hpos : 0 < len) :
    Move s (.recv len) (s.first len) := by
  rcases s.get_cases hpos with ⟨hnone, rlist, hget⟩ | ⟨hsome, b, bytes, rlist, hget, hmem, hleft, hfed⟩
  · rw [first, hget]
    exact .foundNone len hidle hpos hnone
  · rw [first, hget]
    dsimp only
    rw [hmem]
    exact .first len rlist hidle hpos hsome hleft hfed

theorem move_second {s : Sock} {len : Nat} (hreader : s.reader = .taken len) (hpos : 0 < len) :
    Move s .get (s.second len) := by
  rcases s.get_cases hpos with ⟨hnone, rlist, hget⟩ | ⟨hsome, b, bytes, rlist, hget, hmem, hleft, hfed⟩
  · rw [second, hget]
    exact .fails len hreader hnone
  · rw [second, hget]
    dsimp only
    rw [hmem]
    exact .second len rlist hreader hsome hleft hfed

theorem move_lookAt {s : Sock} {len : Nat} (hreader : s.reader = .foundNone len) : Move s .look (s.lookAt len) := by
  unfold lookAt
  split
  · exact .atEnd len hreader ‹_›
  · exact .goesOn len hreader (Or.inl ‹_›)
  · exact .goesOn len hreader (Or.inr ‹_›)
  · rename_i hclosed hconnect hopened
    refine .wrong len hreader ?_
    cases hs : s.state with
    | none => exact Or.inl rfl
    | opened => exact absurd hs hopened
    | listen => exact Or.inr rfl
    | connect => exact absurd hs hconnect
    | closed => exact absurd hs hclosed

theorem move_semRelease {s : Sock} (hparser : s.parser = .posting) : Move s .post s.semRelease := by
  unfold semRelease
  split
  · exact .wakes _ hparser ‹_›
  · rename_i hreader
    have hreader' : ∀ len, s.reader ≠ .waiting len := fun len h => hreader len h
    split
    · exact .counts hparser hreader' ‹_›
    · exact .full hparser hreader' (Nat.le_of_not_lt ‹_›)

/-- A receive under way has asked for bytes. -/
def Asks (s : Sock) : Prop :=
  ∀ len, s.reader = .foundNone len ∨ s.reader = .taking len ∨ s.reader = .waiting len ∨ s.reader = .taken len → 0 < len

theorem move_of_step {s t : Sock} {l : Label} (hasks : s.Asks) (h : step s l = some t) : Move s l t := by
  cases l with
  | recv len =>
    obtain ⟨⟨hidle, hpos⟩, ⟨⟩⟩ := Option.ite_none_right_eq_some.1 h
    exact move_first hidle hpos
  | look =>
    rw [step] at h
    split at h
    · cases h
      exact move_lookAt ‹_›
    · cases h
  | take =>
    rw [step] at h
    split at h
    · rename_i len hreader
      cases h
      unfold semTake
      split
      · exact .takes len hreader ‹_›
      · exact .waits len hreader (Nat.eq_zero_of_not_pos ‹_›)
    · cases h
  | get =>
    rw [step] at h
    split at h
    · rename_i len hreader
      cases h
      exact move_second hreader (hasks len (Or.inr (Or.inr (Or.inr hreader))))
    · cases h
  | expire =>
    rw [step] at h
    split at h
    · rename_i len hreader
      obtain ⟨hset, ⟨⟩⟩ := Option.ite_none_right_eq_some.1 h
      exact .expires len hreader hset
    · cases h
  | block buff room =>
    obtain ⟨⟨hidle, hne⟩, ⟨⟩⟩ := Option.ite_none_right_eq_some.1 h
    unfold recvNoticeCb
    split
    · exact .drops buff room hidle
    · cases room with
      | false => exact .drops buff false hidle
      | true => exact .puts buff hidle hne ‹_›
  | close =>
    obtain ⟨hidle, ⟨⟩⟩ := Option.ite_none_right_eq_some.1 h
    exact .closes hidle
  | post =>
    obtain ⟨hposting, ⟨⟩⟩ := Option.ite_none_right_eq_some.1 h
    exact move_semRelease hposting

/-! ## What holds in every run -/

/-- What the parser and the client's thread keep; `owed` is what will still wake the thread. -/
structure Sound (s : Sock) : Prop where
  asks : s.Asks
  fed : Fed s.recvpktList
  bytes : s.got ++ s.left = s.put.flatten
  short : ∀ r ∈ s.returned, ∀ bytes, r.what = .data bytes → bytes.length ≤ r.len
  live : s.state = .connect ∨ s.state = .closed
  /-- Once the first look has found nothing, what is there now has been or will be announced. -/
  announced : (∃ len, s.reader = .taking len ∨ s.reader = .foundNone len) → s.left ≠ [] →
    0 < s.recvNotice ∨ s.parser = .posting
  told : (∃ len, s.reader = .taking len) → s.state = .closed → 0 < s.recvNotice ∨ s.parser = .posting
  waits : (∃ len, s.reader = .waiting len) → (s.left ≠ [] ∨ s.state = .closed) → s.parser = .posting

theorem got_returns (s : Sock) (rlist : List RecvPkt) (len : Nat) (took : Bool) (what : Arrived) :
    ({ s with recvpktList := rlist }.returns len took what).got = s.got ++ (match what with
      | .data bytes => bytes
      | _ => []) := by
  simp [got, returns]

theorem sound_connected (recvTimeout : Nat) : (connected recvTimeout).Sound where
  asks := by intro len h; simp [connected] at h
  fed := by simp [connected, Fed]
  bytes := rfl
  short := by simp [connected]
  live := Or.inl rfl
  announced := by simp [connected]
  told := by simp [connected]
  waits := by simp [connected]

/-- A call returns: its bytes are off the list. -/
theorem Sound.returns {s : Sock} (h : s.Sound) {rlist : List RecvPkt} {len : Nat} {took : Bool} {what : Arrived}
    (hfed : Fed rlist) (hbytes : (match what with
      | .data bytes => bytes
      | _ => []) ++ pending rlist = s.left)
    (hshort : ∀ bytes, what = .data bytes → bytes.length ≤ len) :
    ({ s with recvpktList := rlist }.returns len took what).Sound where
  asks := by intro n hn; simp [Sock.returns] at hn
  fed := hfed
  bytes := by
    rw [got_returns, List.append_assoc]
    show s.got ++ (_ ++ pending rlist) = s.put.flatten
    rw [hbytes]
    exact h.bytes
  short := by
    intro r hr
    rcases List.mem_append.1 hr with hr | hr
    · exact h.short r hr
    · obtain rfl := List.mem_singleton.1 hr
      exact hshort
  live := h.live
  announced := by simp [Sock.returns]
  told := by simp [Sock.returns]
  waits := by simp [Sock.returns]

theorem Sound.first {s : Sock} (h : s.Sound) {rlist : List RecvPkt} {len : Nat} {took : Bool}
    (hleft : pending rlist = s.left.drop len) (hfed : Fed s.recvpktList → Fed rlist) :
    ({ s with recvpktList := rlist }.returns len took (.data (s.left.take len))).Sound :=
  h.returns (hfed h.fed) (by dsimp only; rw [hleft, List.take_append_drop])
    (fun bytes hb => by cases hb; exact List.length_take_le _ _)

/-- **Every step keeps it.** -/
theorem Sound.move {s t : Sock} {l : Label} (h : s.Sound) (hm : Move s l t) : t.Sound := by
  cases hm with
  | first len rlist hidle hpos hsome hleft hfed => exact h.first hleft hfed
  | second len rlist hreader hsome hleft hfed => exact h.first hleft hfed
  | atEnd len hreader hclosed => exact h.returns h.fed rfl (fun bytes hb => by cases hb; exact Nat.zero_le len)
  | wrong len hreader hstate => exact h.returns h.fed rfl (fun bytes hb => by cases hb)
  | fails len hreader hnone => exact h.returns h.fed rfl (fun bytes hb => by cases hb)
  | expires len hreader hset => exact h.returns h.fed rfl (fun bytes hb => by cases hb)
  | foundNone len hidle hpos hnone =>
    refine ⟨fun n hn => ?_, h.fed, h.bytes, h.short, h.live, fun _ hsome => absurd hnone hsome, ?_, ?_⟩
    · simp only [Reader.foundNone.injEq, reduceCtorEq, or_false] at hn
      exact hn ▸ hpos
    · simp
    · simp
  | goesOn len hreader hstate =>
    refine ⟨fun n hn => ?_, h.fed, h.bytes, h.short, h.live, fun _ => h.announced ⟨len, Or.inr hreader⟩,
      fun _ hclosed => ?_, ?_⟩
    · simp only [Reader.taking.injEq, reduceCtorEq, or_false, false_or] at hn
      exact hn ▸ h.asks len (Or.inl hreader)
    · have hclosed' : s.state = .closed := hclosed
      rw [hclosed'] at hstate
      rcases hstate with hs | hs <;> cases hs
    · simp
  | takes len hreader hpos =>
    refine ⟨fun n hn => ?_, h.fed, h.bytes, h.short, h.live, ?_, ?_, ?_⟩
    · simp only [Reader.taken.injEq, reduceCtorEq, false_or] at hn
      exact hn ▸ h.asks len (Or.inr (Or.inl hreader))
    all_goals simp
  | waits len hreader hzero =>
    -- nothing is left in the semaphore, so whatever there is has yet to be announced
    refine ⟨fun n hn => ?_, h.fed, h.bytes, h.short, h.live, ?_, ?_, fun _ hthere => ?_⟩
    · simp only [Reader.waiting.injEq, reduceCtorEq, or_false, false_or] at hn
      exact hn ▸ h.asks len (Or.inr (Or.inl hreader))
    · simp
    · simp
    · have hzero' : ¬ 0 < s.recvNotice := by omega
      rcases hthere with hsome | hclosed
      · exact (h.announced ⟨len, Or.inl hreader⟩ hsome).resolve_left hzero'
      · exact (h.told ⟨len, hreader⟩ hclosed).resolve_left hzero'
  | puts buff hparser hne hopen =>
    have hleft : pending (s.recvpktList ++ [⟨buff, 0⟩]) = s.left ++ buff := by
      simp [Sock.left, pending_append, RecvPkt.rest]
    refine ⟨h.asks, ?_, ?_, h.short, h.live, fun _ _ => Or.inr rfl, fun _ _ => Or.inr rfl, fun _ _ => rfl⟩
    · intro pkt hpkt
      rcases List.mem_append.1 hpkt with hpkt | hpkt
      · exact h.fed pkt hpkt
      · obtain rfl := List.mem_singleton.1 hpkt
        exact hne
    · show s.got ++ pending (s.recvpktList ++ [⟨buff, 0⟩]) = (s.put ++ [buff]).flatten
      rw [hleft, ← List.append_assoc, h.bytes, List.flatten_append, List.flatten_singleton]
  | drops buff room hparser => exact h
  | closes hparser =>
    exact ⟨h.asks, h.fed, h.bytes, h.short, Or.inr rfl, fun _ _ => Or.inr rfl, fun _ _ => Or.inr rfl, fun _ _ => rfl⟩
  | wakes len hparser hreader =>
    refine ⟨fun n hn => ?_, h.fed, h.bytes, h.short, h.live, ?_, ?_, ?_⟩
    · simp only [Reader.taken.injEq, reduceCtorEq, false_or] at hn
      exact hn ▸ h.asks len (Or.inr (Or.inr (Or.inl hreader)))
    all_goals simp
  | counts hparser hreader hroom =>
    exact ⟨h.asks, h.fed, h.bytes, h.short, h.live, fun _ _ => Or.inl (Nat.succ_pos _),
      fun _ _ => Or.inl (Nat.succ_pos _), fun ⟨len, hlen⟩ => absurd hlen (hreader len)⟩
  | full hparser hreader hfull =>
    have hpos : 0 < s.recvNotice := Nat.lt_of_lt_of_le (by decide) hfull
    exact ⟨h.asks, h.fed, h.bytes, h.short, h.live, fun _ _ => Or.inl hpos, fun _ _ => Or.inl hpos,
      fun ⟨len, hlen⟩ => absurd hlen (hreader len)⟩

theorem Sound.step {s t : Sock} {l : Label} (h : s.Sound) (hs : step s l = some t) : t.Sound :=
  h.move (move_of_step h.asks hs)

theorem sound_of_run {recvTimeout : Nat} {ls : List Label} {s : Sock}
    (hr : Run.run AtSocket.step (connected recvTimeout) ls = some s) : s.Sound :=
  Run.run_invariant_of_step (fun _ _ _ h hs => h.step hs) (sound_connected recvTimeout) hr

/-! ## What a failure is worth -/

/-- The thread has taken the semaphore and not returned yet. -/
def held (s : Sock) : Nat :=
  match s.reader with
  | .taken _ => 1
  | _ => 0

/-- A release that is still to come. -/
def owed (s : Sock) : Nat :=
  match s.parser with
  | .posting => 1
  | .idle => 0

def failures (s : Sock) : Nat := s.returned.countP (fun r => r.what = .failed)

/-- The receives that took the semaphore and got bytes. -/
def waitsEnded (s : Sock) : Nat := s.returned.countP (fun r => r.took ∧ r.what ≠ .failed)

/-- While the connection is open, each block linked is in the semaphore, on its way there or out of it again. -/
def Counted (s : Sock) : Prop :=
  s.state = .connect → s.put.length ≤ RT_SEM_VALUE_MAX →
    s.failures + s.waitsEnded + s.recvNotice + s.held + s.owed = s.put.length

theorem failures_returns (s : Sock) (rlist : List RecvPkt) (len : Nat) (took : Bool) (what : Arrived) :
    ({ s with recvpktList := rlist }.returns len took what).failures =
      s.failures + if what = .failed then 1 else 0 := by
  simp only [failures, returns, List.countP_append, List.countP_singleton, decide_eq_true_eq]

theorem waitsEnded_returns (s : Sock) (rlist : List RecvPkt) (len : Nat) (took : Bool) (what : Arrived) :
    ({ s with recvpktList := rlist }.returns len took what).waitsEnded =
      s.waitsEnded + if took ∧ what ≠ .failed then 1 else 0 := by
  simp only [waitsEnded, returns, List.countP_append, List.countP_singleton, decide_eq_true_eq]

/-- A step that links nothing moves what it takes from one of them to another. -/
theorem Counted.keep {s t : Sock} (h : s.Counted) (hstate : t.state = s.state) (hput : t.put = s.put)
    (hsum : t.failures + t.waitsEnded + t.recvNotice + t.held + t.owed =
      s.failures + s.waitsEnded + s.recvNotice + s.held + s.owed) : t.Counted := by
  intro hopen hmax
  rw [hstate] at hopen
  rw [hput] at hmax
  rw [hsum, hput]
  exact h hopen hmax

theorem Counted.move {s t : Sock} {l : Label} (h : s.Counted) (hs : s.Sound) (hm : Move s l t) : t.Counted := by
  cases hm with
  | first len rlist hidle hpos hsome hleft hfed =>
    refine h.keep rfl rfl ?_
    rw [failures_returns, waitsEnded_returns, if_neg (by simp), if_neg (by simp)]
    simp [Sock.returns, held, owed, hidle]
  | second len rlist hreader hsome hleft hfed =>
    refine h.keep rfl rfl ?_
    rw [failures_returns, waitsEnded_returns, if_neg (by simp), if_pos (by simp)]
    simp only [Sock.returns, held, owed, hreader]
    omega
  | fails len hreader hnone =>
    have hf := s.failures_returns s.recvpktList len true .failed
    have hw := s.waitsEnded_returns s.recvpktList len true .failed
    rw [if_pos rfl] at hf
    rw [if_neg (by simp)] at hw
    refine h.keep rfl rfl ?_
    simp only [Sock.returns, held, owed, hreader] at hf hw ⊢
    omega
  | expires len hreader hset =>
    have hf := s.failures_returns s.recvpktList len false .again
    have hw := s.waitsEnded_returns s.recvpktList len false .again
    rw [if_neg (by simp)] at hf hw
    refine h.keep rfl rfl ?_
    simp only [Sock.returns, held, owed, hreader] at hf hw ⊢
    omega
  | foundNone len hidle hpos hnone => exact h.keep rfl rfl (by simp [held, owed, failures, waitsEnded, hidle])
  | goesOn len hreader hstate => exact h.keep rfl rfl (by simp [held, owed, failures, waitsEnded, hreader])
  | waits len hreader hzero => exact h.keep rfl rfl (by simp [held, owed, failures, waitsEnded, hreader])
  | takes len hreader hpos =>
    refine h.keep rfl rfl ?_
    simp only [held, owed, failures, waitsEnded, hreader]
    omega
  | wakes len hparser hreader =>
    refine h.keep rfl rfl ?_
    simp only [held, owed, failures, waitsEnded, hparser, hreader]
  | counts hparser hreader hroom =>
    refine h.keep rfl rfl ?_
    simp only [held, owed, failures, waitsEnded, hparser]
    omega
  | atEnd len hreader hclosed =>
    intro hopen
    have hopen' : s.state = .connect := hopen
    rw [hclosed] at hopen'
    cases hopen'
  | wrong len hreader hstate =>
    rcases hs.live with hl | hl <;> rw [hl] at hstate <;> rcases hstate with hw | hw <;> cases hw
  | puts buff hparser hne hopen' =>
    intro hopen hmax
    have hlen : (s.put ++ [buff]).length = s.put.length + 1 := List.length_append
    have hmax' : (s.put ++ [buff]).length ≤ RT_SEM_VALUE_MAX := hmax
    have hbefore := h hopen (by omega)
    simp only [held, owed, failures, waitsEnded, hparser] at hbefore ⊢
    omega
  | drops buff room hparser => exact h
  | closes hparser =>
    intro hopen
    cases hopen
  | full hparser hreader hfull =>
    -- not with so few blocks
    intro hopen hmax
    have hbefore := h hopen hmax
    have hmax' : s.put.length ≤ RT_SEM_VALUE_MAX := hmax
    have howed : s.owed = 1 := by simp [owed, hparser]
    omega

theorem counted_of_run {recvTimeout : Nat} {ls : List Label} {s : Sock}
    (hr : Run.run AtSocket.step (connected recvTimeout) ls = some s) : s.Counted :=
  (Run.run_invariant_of_step (P := fun s => s.Sound ∧ s.Counted)
    (fun _ _ _ h hs => ⟨h.1.step hs, h.2.move h.1 (move_of_step h.1.asks hs)⟩)
    ⟨sound_connected recvTimeout, fun _ _ => rfl⟩ hr).2

/-! ## The socket left alone -/

/-- What the receives find when nothing more comes: the bytes there are, then a failure for each count of the
semaphore. -/
def arrivals (s : Sock) : List Arrival := afterByte s.left (List.replicate s.recvNotice ⟨.failed, 0⟩)

/-- A whole `at_recvfrom` with nothing in between; a receive that waits has no result. -/
def receiveAlone (s : Sock) (len : Nat) : Option Sock :=
  match AtSocket.step s (.recv len) with
  | none => none
  | some t => if t.reader = .idle then some t else Run.run AtSocket.step t [.look, .take, .get]

/-- What the receives have found, and what there is to find. -/
def view (s : Sock) : List Arrival × List Arrived := (s.arrivals, s.returned.map Received.what)

end Sock

/-- A `recv` on arrivals, as `umqtt_readpacket` makes it (`umqttReadpacketLoop_recvOf`). -/
def recvOf (x : List Arrival × List Arrived) (len : Nat) : Option (List Arrival × List Arrived) :=
  match x.1 with
  | [] => none
  | a :: arrivals =>
    match a.what with
    | .data bytes => some (afterByte (bytes.drop len) arrivals, x.2 ++ [.data (bytes.take len)])
    | what => some (arrivals, x.2 ++ [what])

/-- A `recv` does not look at what was found before. -/
theorem recvOf_cons (a : Arrival) (arrivals : List Arrival) (len : Nat) :
    ∃ rest what, ∀ found, recvOf (a :: arrivals, found) len = some (rest, found ++ [what]) := by
  obtain ⟨what, ticks⟩ := a
  cases what with
  | data bytes => exact ⟨_, _, fun _ => rfl⟩
  | again => exact ⟨_, _, fun _ => rfl⟩
  | failed => exact ⟨_, _, fun _ => rfl⟩

/-- What `umqtt_readpacket` does with one `recv`. -/
theorem umqttReadpacketLoop_recvOf (endTick : UInt32) (a : Arrival) (arrivals : List Arrival) (tick : UInt32)
    (len : Nat) (got : List Byte) :
    umqttReadpacketLoop endTick (a :: arrivals) tick (len + 1) got =
      match recvOf (a :: arrivals, []) (len + 1) with
      | some (rest, [.data bytes]) =>
        if bytes = [] then some ⟨.finAck, got, tick + a.ticks, rest⟩
        else if late (tick + a.ticks) endTick then some ⟨.readTimeout, got ++ bytes, tick + a.ticks, rest⟩
        else umqttReadpacketLoop endTick rest (tick + a.ticks) (len + 1 - bytes.length) (got ++ bytes)
      | some (rest, [.again]) =>
        if late (tick + a.ticks) endTick then some ⟨.readTimeout, got, tick + a.ticks, rest⟩
        else umqttReadpacketLoop endTick rest (tick + a.ticks) (len + 1) got
      | some (rest, _) => some ⟨.readFailed, got, tick + a.ticks, rest⟩
      | none => none := by
  obtain ⟨what, ticks⟩ := a
  rw [umqttReadpacketLoop.eq_def]
  cases what with
  | again => simp [recvOf]
  | failed => simp [recvOf]
  | data bytes =>
    by_cases hnil : bytes = []
    · simp [recvOf, hnil, afterByte]
    · by_cases hmore : len + 1 < bytes.length
      · have htaken : (bytes.take (len + 1)).length = len + 1 := by simp; omega
        have hleft : afterByte (bytes.drop (len + 1)) arrivals = ⟨.data (bytes.drop (len + 1)), 0⟩ :: arrivals :=
          if_neg (by simpa using hmore)
        simp [recvOf, hnil, hmore, htaken, hleft, umqttReadpacketLoop]
      · have hall : bytes.take (len + 1) = bytes := List.take_of_length_le (by omega)
        have hleft : afterByte (bytes.drop (len + 1)) arrivals = arrivals :=
          if_pos (List.drop_of_length_le (by omega))
        simp [recvOf, hnil, hmore, hall, hleft]

namespace Sock

/-- No call is under way and the connection is open. -/
structure Quiet (s : Sock) : Prop where
  sound : s.Sound
  idle : s.reader = .idle
  isOpen : s.state = .connect

theorem receiveAlone_eq {s : Sock} (h : s.Quiet) {len : Nat} (hpos : 0 < len) :
    (s.receiveAlone len).map view = recvOf s.view len ∧ ∀ t, s.receiveAlone len = some t → t.Quiet := by
  have hrecv : AtSocket.step s (.recv len) = some (s.first len) := if_pos ⟨h.idle, hpos⟩
  have hsound := h.sound.step hrecv
  rcases s.get_cases hpos with ⟨hnone, rlist, hget⟩ | ⟨hsome, b, bytes, rlist, hget, hmem, hleft, -⟩
  · -- nothing is there: the semaphore decides between a failure and a wait
    have hfirst : s.first len = { s with reader := .foundNone len } := by rw [first, hget]
    have hlook : AtSocket.step { s with reader := .foundNone len } .look = some { s with reader := .taking len } := by
      simp only [AtSocket.step, lookAt, h.isOpen]
    have hview : s.view = (List.replicate s.recvNotice ⟨.failed, 0⟩, s.returned.map Received.what) := by
      rw [view, arrivals, hnone, afterByte, if_pos rfl]
    cases hn : s.recvNotice with
    | zero =>
      have htake : AtSocket.step { s with reader := .taking len } .take = some { s with reader := .waiting len } := by
        simp [AtSocket.step, semTake, hn]
      have hwait : AtSocket.step { s with reader := .waiting len } .get = none := rfl
      have hrun : s.receiveAlone len = none := by
        rw [receiveAlone, hrecv]
        simp [hfirst, Run.run, hlook, htake, hwait]
      rw [hrun, hview, hn]
      exact ⟨rfl, fun t ht => by cases ht⟩
    | succ n =>
      have htake : AtSocket.step { s with reader := .taking len } .take =
          some { s with recvNotice := n, reader := .taken len } := by
        simp [AtSocket.step, semTake, hn]
      have hsecond : AtSocket.step { s with recvNotice := n, reader := .taken len } .get =
          some ({ s with recvNotice := n, reader := .taken len }.returns len true .failed) := by
        simp only [AtSocket.step, second, hget]
      have hrun : s.receiveAlone len =
          some ({ s with recvNotice := n, reader := .taken len }.returns len true .failed) := by
        simp [receiveAlone, hrecv, hfirst, Run.run, hlook, htake, hsecond]
      rw [hrun, hview, hn]
      refine ⟨?_, fun t ht => ?_⟩
      · have hleft' : ({ s with recvNotice := n, reader := .taken len }.returns len true .failed).left = [] := hnone
        rw [Option.map_some, view, arrivals, hleft', afterByte, if_pos rfl]
        simp [recvOf, Sock.returns, List.replicate_succ]
      · cases ht
        rw [hfirst] at hsound
        exact ⟨((hsound.step hlook).step htake).step hsecond, rfl, h.isOpen⟩
  · have hfirst : s.first len = { s with recvpktList := rlist }.returns len false (.data (s.left.take len)) := by
      rw [first, hget]
      dsimp only
      rw [hmem]
    have hrun : s.receiveAlone len =
        some ({ s with recvpktList := rlist }.returns len false (.data (s.left.take len))) := by
      simp [receiveAlone, hrecv, hfirst, Sock.returns]
    have hview : s.view =
        (⟨.data s.left, 0⟩ :: List.replicate s.recvNotice ⟨.failed, 0⟩, s.returned.map Received.what) := by
      rw [view, arrivals, afterByte, if_neg hsome]
    have hleft' :
        ({ s with recvpktList := rlist }.returns len false (.data (s.left.take len))).left = s.left.drop len := hleft
    rw [hrun, hview]
    refine ⟨?_, fun t ht => ?_⟩
    · rw [Option.map_some, view, arrivals, hleft']
      simp [recvOf, Sock.returns]
    · cases ht
      rw [hfirst] at hsound
      exact ⟨hsound, rfl, h.isOpen⟩

/-- **Left alone, the socket answers as the arrivals do**, however many bytes each receive asks for. -/
theorem receives_alone {s : Sock} (h : s.Quiet) {lens : List Nat} (hpos : ∀ len ∈ lens, 0 < len) :
    (Run.run receiveAlone s lens).map view = Run.run recvOf s.view lens := by
  induction lens generalizing s with
  | nil => rfl
  | cons len lens ih =>
    obtain ⟨heq, hquiet⟩ := receiveAlone_eq h (hpos len List.mem_cons_self)
    rw [Run.run, Run.run, ← heq]
    cases hone : s.receiveAlone len with
    | none => rfl
    | some t => exact ih (hquiet t hone) (fun n hn => hpos n (List.mem_cons_of_mem _ hn))

/-! ## The client's reads -/

/-- What the last receive has found. -/
def found (s : Sock) : Option Arrived := (s.returned.map Received.what).getLast?

/-- The loop of `umqtt_readpacket` on a socket left alone, with at most `fuel` receives. -/
def readpacketLoop (endTick tick : UInt32) : Nat → Sock → Nat → List Byte → Option (ReadRet × List Byte × Sock)
  | _, s, 0, got => some (.ok, got, s)
  | 0, _, _ + 1, _ => none
  | fuel + 1, s, len + 1, got =>
    match s.receiveAlone (len + 1) with
    | none => none
    | some t =>
      match t.found with
      | some (.data bytes) =>
        if bytes = [] then some (.finAck, got, t)
        else if late tick endTick then some (.readTimeout, got ++ bytes, t)
        else readpacketLoop endTick tick fuel t (len + 1 - bytes.length) (got ++ bytes)
      | some .again =>
        if late tick endTick then some (.readTimeout, got, t) else readpacketLoop endTick tick fuel t (len + 1) got
      | _ => some (.readFailed, got, t)

/-- What there is to find takes no time, and nothing has to be tried again. -/
theorem arrivals_at_once (s : Sock) : ∀ a ∈ s.arrivals, a.what ≠ .again ∧ a.ticks = 0 := by
  intro a ha
  rw [arrivals, afterByte] at ha
  split at ha
  · rw [List.eq_of_mem_replicate ha]
    simp
  · rcases List.mem_cons.1 ha with rfl | ha
    · simp
    · rw [List.eq_of_mem_replicate ha]
      simp

theorem receiveAlone_of_nil {s : Sock} (h : s.Quiet) {len : Nat} (hpos : 0 < len) (harr : s.arrivals = []) :
    s.receiveAlone len = none := by
  have heq := (receiveAlone_eq h hpos).1
  rw [view, harr] at heq
  exact Option.map_eq_none_iff.1 heq

theorem receiveAlone_of_cons {s : Sock} (h : s.Quiet) {len : Nat} (hpos : 0 < len) {a : Arrival}
    {arrivals : List Arrival} (harr : s.arrivals = a :: arrivals) :
    ∃ t what, s.receiveAlone len = some t ∧ t.Quiet ∧ t.found = some what ∧
      recvOf (a :: arrivals, []) len = some (t.arrivals, [what]) := by
  obtain ⟨heq, hquiet⟩ := receiveAlone_eq h hpos
  obtain ⟨rest, what, hrecv⟩ := recvOf_cons a arrivals len
  rw [view, harr, hrecv] at heq
  obtain ⟨t, ht, hview⟩ := Option.map_eq_some_iff.1 heq
  obtain ⟨hrest, hreturned⟩ := Prod.mk.inj hview
  refine ⟨t, what, ht, hquiet t ht, ?_, ?_⟩
  · rw [found, hreturned, List.getLast?_concat]
  · rw [hrecv, hrest, List.nil_append]

/-- **What the client reads from the socket left alone is what it reads from the arrivals.** -/
theorem readpacket_alone {endTick tick : UInt32} {fuel len : Nat} {s : Sock} (h : s.Quiet) (hle : len ≤ fuel)
    (got : List Byte) :
    (readpacketLoop endTick tick fuel s len got).map (fun x => (x.1, x.2.1, x.2.2.arrivals)) =
      (umqttReadpacketLoop endTick s.arrivals tick len got).map (fun x => (x.ret, x.got, x.arrivals)) := by
  induction fuel generalizing s len got with
  | zero =>
    obtain rfl := Nat.le_zero.1 hle
    simp [readpacketLoop, umqttReadpacketLoop]
  | succ fuel ih =>
    cases len with
    | zero => simp [readpacketLoop, umqttReadpacketLoop]
    | succ len =>
      rw [readpacketLoop]
      cases harr : s.arrivals with
      | nil =>
        rw [receiveAlone_of_nil h len.succ_pos harr]
        rfl
      | cons a arrivals =>
        obtain ⟨t, what, ht, hquiet, hfound, hrecv⟩ := receiveAlone_of_cons h len.succ_pos harr
        obtain ⟨hagain, hticks⟩ := s.arrivals_at_once a (harr ▸ List.mem_cons_self)
        rw [umqttReadpacketLoop_recvOf, hrecv, hticks, UInt32.add_zero, ht]
        dsimp only
        rw [hfound]
        cases what with
        | data bytes =>
          dsimp only
          split
          · rfl
          · split
            · rfl
            · rename_i hsome _
              have hlen := List.length_pos_of_ne_nil hsome
              exact ih hquiet (by omega) _
        | again =>
          obtain ⟨what, ticks⟩ := a
          cases what with
          | data bytes => simp [recvOf] at hrecv
          | again => exact absurd rfl hagain
          | failed => simp [recvOf] at hrecv
        | failed => rfl

end Sock

/-! ## A burst of packets -/

theorem consume_afterByte (p q : List Byte) (arrivals : List Arrival) :
    consume (afterByte (p ++ q) arrivals) p.length = some (0, afterByte q arrivals) := by
  cases p with
  | nil => rw [List.length_nil, consume, List.nil_append]
  | cons b p =>
    rw [afterByte, if_neg (by simp), List.length_cons, consume]
    dsimp only
    rw [if_neg (by simp)]
    cases q with
    | nil => simp [afterByte, consume]
    | cons c q => simp [afterByte]

theorem timely_afterByte {timeoutTick : UInt32} (hpos : 0 < timeoutTick.toNat) (arrivals : List Arrival) :
    ∀ fs : List Frame, Timely timeoutTick fs (afterByte (stream fs) arrivals) arrivals
  | [] => rfl
  | f :: fs => by
    refine ⟨afterByte (stream fs) arrivals, ⟨f.header, f.digits ++ f.body ++ stream fs, 0, arrivals, 0, rfl, ?_, hpos⟩,
      timely_afterByte hpos arrivals fs⟩
    rw [← List.length_append]
    exact consume_afterByte _ _ _

theorem content_failures (n : Nat) : content (List.replicate n ⟨.failed, 0⟩) = [] := by
  induction n with
  | zero => rfl
  | succ n ih => rw [List.replicate_succ, content, ih]

/-! ## Main results -/

variable {recvTimeout : Nat} {ls : List Label} {s : Sock}

/-- **No byte is lost, doubled or moved** between the blocks linked and the receives, and a receive gets no more than it
asked for; a thread that waits has nothing to read on an open connection, or will be woken. -/
theorem recv_in_order (hr : Run.run step (connected recvTimeout) ls = some s) :
    s.got ++ s.left = s.put.flatten ∧
      (∀ r ∈ s.returned, ∀ bytes, r.what = .data bytes → bytes.length ≤ r.len) ∧
      ((∃ len, s.reader = .waiting len) → s.left ≠ [] ∨ s.state = .closed → s.parser = .posting) := by
  have h := Sock.sound_of_run hr
  exact ⟨h.bytes, h.short, h.waits⟩

theorem recv_in_order_two_blocks :
    ∃ s, Run.run step (connected 0)
        [.recv 1, .look, .take, .block [1, 2] true, .post, .get, .block [3] true, .recv 4] = some s ∧
      s.got ++ s.left = s.put.flatten ∧
      (∀ r ∈ s.returned, ∀ bytes, r.what = .data bytes → bytes.length ≤ r.len) ∧
      ((∃ len, s.reader = .waiting len) → s.left ≠ [] ∨ s.state = .closed → s.parser = .posting) :=
  let s := (Run.run step (connected 0)
    [.recv 1, .look, .take, .block [1, 2] true, .post, .get, .block [3] true, .recv 4]).get (by decide +kernel)
  have hs := (Option.some_get _).symm
  ⟨s, hs, recv_in_order hs⟩

/-- The end may be told before the last block is read: it came, and the peer closed, behind the first look. -/
example : (Run.run step (connected 0) [.recv 1, .block [7] true, .post, .close, .look]).map
    (fun s => (s.returned.map Received.what, s.left)) = some ([.data []], [7]) := by decide

/-- **On an open connection every failed receive is a block that ended no wait**: the blocks linked are the receives
that took the semaphore, with or without bytes, and what is still in it or on its way. -/
theorem failures_counted (hr : Run.run step (connected recvTimeout) ls = some s) (hopen : s.state = .connect)
    (hmax : s.put.length ≤ RT_SEM_VALUE_MAX) :
    s.failures + s.waitsEnded + s.recvNotice + s.held + s.owed = s.put.length :=
  Sock.counted_of_run hr hopen hmax

/-- A block that comes while nobody waits, and one that ends a wait. -/
theorem failures_counted_early :
    let s := (Run.run step (connected 0)
      [.block [1] true, .post, .recv 1, .recv 1, .look, .take, .get, .recv 1, .look, .take, .block [2, 3] true, .post,
        .get]).get (by decide +kernel)
    s.failures + s.waitsEnded + s.recvNotice + s.held + s.owed = s.put.length :=
  failures_counted (Option.some_get _).symm (by decide +kernel) (by decide +kernel)

/-- **A burst ends an open connection.**  The receives and the reads of `umqtt_readpacket` on an open socket that nobody
waits on answer as on its arrivals; with whole packets in it, the thread takes them all, and then finds the connection at
its end exactly when the semaphore has a count left; otherwise it waits. -/
theorem burst_ends_connection (hr : Run.run step (connected recvTimeout) ls = some s) (hidle : s.reader = .idle)
    (hopen : s.state = .connect) {fs : List Frame} (hfs : s.left = stream fs) {timeoutTick : UInt32} {recvSize : Nat}
    (hpos : 0 < timeoutTick.toNat) (hle : timeoutTick.toNat ≤ 0x7FFFFFFF) (hsize : 5 ≤ recvSize) (tick : UInt32)
    {recvBuf : List Byte} (hbuf : recvBuf.length = recvSize) :
    (∀ lens : List Nat, (∀ len ∈ lens, 0 < len) →
      (Run.run Sock.receiveAlone s lens).map Sock.view = Run.run recvOf s.view lens) ∧
      (∀ (endTick tick : UInt32) (fuel len : Nat) (got : List Byte), len ≤ fuel →
        (Sock.readpacketLoop endTick tick fuel s len got).map (fun x => (x.1, x.2.1, x.2.2.arrivals)) =
          (umqttReadpacketLoop endTick s.arrivals tick len got).map (fun x => (x.ret, x.got, x.arrivals))) ∧
      ∃ out r, takePackets timeoutTick recvSize fs.length ⟨s.arrivals, tick, recvBuf⟩ = .ok (out, r) ∧
        List.Forall₂ (TakenFor recvSize) fs out ∧
        takePacket timeoutTick recvSize r = if 0 < s.recvNotice then .ok (.finAck, r) else .error .waits := by
  have hquiet : s.Quiet := ⟨Sock.sound_of_run hr, hidle, hopen⟩
  refine ⟨fun lens hlens => Sock.receives_alone hquiet hlens,
    fun endTick tick fuel len got hfuel => Sock.readpacket_alone hquiet hfuel got, ?_⟩
  have hcontent : content s.arrivals = stream fs ++ [] := by
    rw [Sock.arrivals, content_afterByte, content_failures, hfs]
  have htimely : Timely timeoutTick fs s.arrivals (List.replicate s.recvNotice ⟨.failed, 0⟩) := by
    rw [Sock.arrivals, hfs]
    exact timely_afterByte hpos _ fs
  obtain ⟨out, r, hrun, harr, -, hall⟩ := @packets_of_stream timeoutTick recvSize hle hsize fs
    ⟨s.arrivals, tick, recvBuf⟩ [] _ hbuf hcontent htimely
  refine ⟨out, r, hrun, hall, ?_⟩
  cases hn : s.recvNotice with
  | zero =>
    rw [hn] at harr
    rw [takePacket, Reader.readHeader, harr]
    rfl
  | succ n =>
    rw [hn, List.replicate_succ] at harr
    rw [takePacket, Reader.readHeader, harr]
    rfl

/-- A PUBACK that comes before the thread waits for it. -/
theorem burst_ends_connection_puback :
    let s := (Run.run step (connected 0) [.block [0x40, 2, 0, 1] true, .post]).get (by decide +kernel)
    (∀ lens : List Nat, (∀ len ∈ lens, 0 < len) →
      (Run.run Sock.receiveAlone s lens).map Sock.view = Run.run recvOf s.view lens) ∧
      (∀ (endTick tick : UInt32) (fuel len : Nat) (got : List Byte), len ≤ fuel →
        (Sock.readpacketLoop endTick tick fuel s len got).map (fun x => (x.1, x.2.1, x.2.2.arrivals)) =
          (umqttReadpacketLoop endTick s.arrivals tick len got).map (fun x => (x.ret, x.got, x.arrivals))) ∧
      ∃ out r, takePackets 100 8 1 ⟨s.arrivals, 0, List.replicate 8 0⟩ = .ok (out, r) ∧
        List.Forall₂ (TakenFor 8) [Frame.of 0x40 [0, 1] (by decide)] out ∧
        takePacket 100 8 r = if 0 < s.recvNotice then .ok (.finAck, r) else .error .waits :=
  @burst_ends_connection 0 [.block [0x40, 2, 0, 1] true, .post] _ (Option.some_get _).symm (by decide +kernel)
    (by decide +kernel) [Frame.of 0x40 [0, 1] (by decide)] (by decide +kernel) 100 8 (by decide) (by decide) (by decide)
    0 (List.replicate 8 0) (by decide)

end AtSocket
end RtPay
