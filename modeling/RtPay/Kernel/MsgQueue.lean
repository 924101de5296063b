import Mathlib.Data.List.Perm.Basic
import RtPay.Lib.Bytes
import RtPay.Lib.Linked
import RtPay.Lib.Run
/-!
# Kernel.MsgQueue — the message queue of ipc.c

`rt_mq_send_wait` and `rt_mq_recv` as their threads interleave: a call is cut where it enables interrupts, so that a
block is in the free list, in the queue, or held by the one thread that fills or copies it.  The blocks are numbered,
their list pointers are the kernel's, and the histories the kernel does not keep are `linked`, `unlinked` and `returned`.
A call that waits is in a list of suspended threads until another thread resumes it or its timer fires.
-/
namespace RtPay
namespace Kernel

open Bytes Linked

def RT_MQ_ENTRY_MAX : Nat := 65535

inductive IpcFlag
  | fifo
  | prio
  deriving DecidableEq

/-- The `timeout` argument: zero, a number of ticks, or a negative one, which no timer is started for. -/
inductive Timeout
  | no
  | ticks
  | forever
  deriving DecidableEq

/-- What a call returns; a received message comes with its bytes. -/
inductive Ret
  | eok
  | received (data : List Byte)
  | error
  | efull
  | etimeout
  deriving DecidableEq

/-- Where a thread is in a call: outside, in a list of suspended threads, resumed and about to look again, or between
two critical sections with a block of its own. -/
inductive Pc
  | idle
  | sendWaiting (buffer : List Byte) (timeout : Timeout)
  | sendWoken (buffer : List Byte) (timeout : Timeout)
  | taken (msg : Nat) (buffer : List Byte)
  | filled (msg : Nat) (buffer : List Byte)
  | recvWaiting (size : Nat) (timeout : Timeout)
  | recvWoken (size : Nat) (timeout : Timeout)
  | unlinked (msg : Nat) (size : Nat)
  | copied (msg : Nat) (data : List Byte)
  deriving DecidableEq

namespace Pc

/-- The block a thread holds. -/
def block? : Pc → Option Nat
  | .taken msg _ => some msg
  | .filled msg _ => some msg
  | .unlinked msg _ => some msg
  | .copied msg _ => some msg
  | _ => none

/-- A thread that `_ipc_list_resume` has put among the ready ones. -/
def woken : Pc → Pc
  | .sendWaiting buffer timeout => .sendWoken buffer timeout
  | .recvWaiting size timeout => .recvWoken size timeout
  | pc => pc

end Pc

/-- A message taken out of the queue: by which thread, into how large a buffer. -/
structure Unlinked (τ : Type) where
  thread : τ
  size : Nat
  message : List Byte

/-- `struct rt_messagequeue` with its pool, and the threads that use it. -/
structure Mq (τ : Type) where
  msgSize : Nat
  maxMsgs : Nat
  next : Nat → Option Nat
  message : Nat → List Byte
  entry : Nat
  head : Option Nat
  tail : Option Nat
  free : Option Nat
  suspendThread : List τ
  suspendSenderThread : List τ
  pc : τ → Pc
  linked : List (List Byte)
  unlinked : List (Unlinked τ)
  returned : List (τ × Ret)

/-- The `for` loop of `rt_mq_create`: each block in turn goes in front of the free list. -/
def freeBlocks (next : Nat → Option Nat) : Nat → (Nat → Option Nat) × Option Nat
  | 0 => (next, none)
  | temp + 1 =>
    let (next, free) := freeBlocks next temp
    (Function.update next temp free, some temp)

def rtMqCreate (τ : Type) (msgSize maxMsgs : UInt16) : Mq τ where
  msgSize := msgSize.toNat
  maxMsgs := maxMsgs.toNat
  next := (freeBlocks (fun _ => none) maxMsgs.toNat).1
  message := fun _ => []
  entry := 0
  head := none
  tail := none
  free := (freeBlocks (fun _ => none) maxMsgs.toNat).2
  suspendThread := []
  suspendSenderThread := []
  pc := fun _ => .idle
  linked := []
  unlinked := []
  returned := []

inductive Label (τ : Type)
  | send (t : τ) (buffer : List Byte) (timeout : Timeout)
  | fill (t : τ)
  | link (t : τ)
  | recv (t : τ) (size : Nat) (timeout : Timeout)
  | copy (t : τ)
  | release (t : τ)
  | wake (t : τ) (late : Bool)
  | timer (t : τ)

section
variable {τ : Type} [DecidableEq τ] (flag : IpcFlag) (priority : τ → Nat)

/-- `_ipc_list_suspend`: first come, or before the first thread of a lower priority. -/
def ipcListSuspend (t : τ) (list : List τ) : List τ :=
  match flag with
  | .fifo => list ++ [t]
  | .prio =>
    list.takeWhile (fun n => ¬ priority t < priority n) ++
      t :: list.dropWhile (fun n => ¬ priority t < priority n)

namespace Mq

def goes (s : Mq τ) (t : τ) (pc : Pc) : Mq τ := { s with pc := Function.update s.pc t pc }

def returns (s : Mq τ) (t : τ) (r : Ret) : Mq τ := { s.goes t .idle with returned := s.returned ++ [(t, r)] }

/-- `_ipc_list_resume` on the receivers, if one is suspended. -/
def resumeReceiver (s : Mq τ) : Mq τ :=
  match s.suspendThread with
  | [] => s
  | u :: us => { s.goes u (s.pc u).woken with suspendThread := us }

def resumeSender (s : Mq τ) : Mq τ :=
  match s.suspendSenderThread with
  | [] => s
  | u :: us => { s.goes u (s.pc u).woken with suspendSenderThread := us }

/-- `_rt_mq_send_wait` up to the block: one is taken from the free list, or the call ends or waits. -/
def takeFree (s : Mq τ) (t : τ) (buffer : List Byte) (timeout : Timeout) : Mq τ :=
  match s.free with
  | some msg => { s.goes t (.taken msg buffer) with free := s.next msg }
  | none =>
    if timeout = .no then s.returns t .efull
    else { s.goes t (.sendWaiting buffer timeout) with
      suspendSenderThread := ipcListSuspend flag priority t s.suspendSenderThread }

def fill (s : Mq τ) (t : τ) (msg : Nat) (buffer : List Byte) : Mq τ :=
  { s.goes t (.filled msg buffer) with
    next := Function.update s.next msg none, message := Function.update s.message msg buffer }

/-- The last section of `_rt_mq_send_wait` up to the count: the block becomes the tail.  `linked` takes the message as the
caller passed it, not as the block holds it. -/
def link (s : Mq τ) (msg : Nat) (buffer : List Byte) : Mq τ :=
  { s with
    next := linkAfter s.next s.tail msg
    tail := some msg
    head := s.head.or (some msg)
    linked := s.linked ++ [buffer] }

/-- `_rt_mq_recv` up to the block: a count above zero with no head would be a null pointer. -/
def takeHead (s : Mq τ) (t : τ) (size : Nat) (timeout : Timeout) : Option (Mq τ) :=
  if s.entry = 0 then
    if timeout = .no then some (s.returns t .etimeout)
    else some { s.goes t (.recvWaiting size timeout) with
      suspendThread := ipcListSuspend flag priority t s.suspendThread }
  else
    s.head.map (fun msg =>
      { s.goes t (.unlinked msg size) with
        head := s.next msg
        tail := if s.tail = some msg then none else s.tail
        entry := s.entry - 1
        unlinked := s.unlinked ++ [⟨t, size, s.message msg⟩] })

def release (s : Mq τ) (msg : Nat) : Mq τ :=
  { s with next := Function.update s.next msg s.free, free := some msg }

end Mq

/-- One thread takes its next step.  An empty message is refused by an assertion, and is no step; a resumed thread
whose ticks are used up looks once more, without waiting. -/
def step (s : Mq τ) : Label τ → Option (Mq τ)
  | .send t buffer timeout =>
    match s.pc t with
    | .idle =>
      if buffer = [] then none
      else if buffer.length > s.msgSize then some (s.returns t .error)
      else some (s.takeFree flag priority t buffer timeout)
    | _ => none
  | .fill t =>
    match s.pc t with
    | .taken msg buffer => some (s.fill t msg buffer)
    | _ => none
  | .link t =>
    match s.pc t with
    | .filled msg buffer =>
      if s.entry < RT_MQ_ENTRY_MAX then
        some ({ (s.link msg buffer).returns t .eok with entry := s.entry + 1 } : Mq τ).resumeReceiver
      else some ((s.link msg buffer).returns t .efull)
    | _ => none
  | .recv t size timeout =>
    match s.pc t with
    | .idle => if size = 0 then none else s.takeHead flag priority t size timeout
    | _ => none
  | .copy t =>
    match s.pc t with
    | .unlinked msg size => some (s.goes t (.copied msg ((s.message msg).take size)))
    | _ => none
  | .release t =>
    match s.pc t with
    | .copied msg data => some ((s.release msg).returns t (.received data)).resumeSender
    | _ => none
  | .wake t late =>
    match s.pc t with
    | .sendWoken buffer timeout =>
      if late then if timeout = .ticks then some (s.takeFree flag priority t buffer .no) else none
      else some (s.takeFree flag priority t buffer timeout)
    | .recvWoken size timeout =>
      if late then if timeout = .ticks then s.takeHead flag priority t size .no else none
      else s.takeHead flag priority t size timeout
    | _ => none
  | .timer t =>
    match s.pc t with
    | .sendWaiting _ .ticks =>
      some { s.returns t .etimeout with suspendSenderThread := s.suspendSenderThread.erase t }
    | .recvWaiting _ .ticks => some { s.returns t .etimeout with suspendThread := s.suspendThread.erase t }
    | _ => none

end

end Kernel
end RtPay
