import RtPay.Lib.Bytes
import RtPay.Lib.Frame
/-!
# Umqtt.Stream — umqtt_readpacket and the packets of umqtt_handle_readpacket

A socket delivers bytes in pieces of any size, each after some ticks.  `umqtt_handle_readpacket` takes a packet off it in
three reads, each with a deadline of its own: the header, which it waits for without one, the digits of the length one by
one, and the rest.  As long as no packet is slower than the deadline, the packets come out as they were sent, however
they were cut (`packets_of_stream`); nothing is ever written outside the receive buffer.
-/
namespace RtPay
namespace Umqtt
namespace Stream

open Bytes Framed

def MAX_NO_OF_REMAINING_LENGTH_BYTES : Nat := 4

def RT_TICK_MAX : UInt32 := 0xFFFFFFFF

/-- What a `recv` finds: bytes, of which it takes as many as it was asked for, none at the end of the connection, or an
error, which may be one to try again after. -/
inductive Arrived
  | data (bytes : List Byte)
  | again
  | failed
  deriving DecidableEq

/-- `ticks` is how long the call takes. -/
structure Arrival where
  what : Arrived
  ticks : UInt32
  deriving DecidableEq

/-- What `umqtt_readpacket` returns, as far as it is looked at. -/
inductive ReadRet
  | ok
  | readFailed
  | readTimeout
  | finAck
  deriving DecidableEq

structure Read where
  ret : ReadRet
  got : List Byte
  tick : UInt32
  arrivals : List Arrival
  deriving DecidableEq

/-- `(rt_tick_get() - end_tick) < (RT_TICK_MAX >> 1)`. -/
def late (tick endTick : UInt32) : Bool := tick - endTick < RT_TICK_MAX >>> 1

/-- The loop of `umqtt_readpacket`; without another arrival the thread waits in `recv`, and there is no result. -/
def umqttReadpacketLoop (endTick : UInt32) : List Arrival → UInt32 → Nat → List Byte → Option Read
  | arrivals, tick, 0, got => some ⟨.ok, got, tick, arrivals⟩
  | [], _, _ + 1, _ => none
  | a :: arrivals, tick, len + 1, got =>
    let tick := tick + a.ticks
    match a.what with
    | .failed => some ⟨.readFailed, got, tick, arrivals⟩
    | .again =>
      if late tick endTick then some ⟨.readTimeout, got, tick, arrivals⟩
      else umqttReadpacketLoop endTick arrivals tick (len + 1) got
    | .data bytes =>
      if bytes = [] then some ⟨.finAck, got, tick, arrivals⟩
      else if len + 1 < bytes.length then
        let left : Arrival := ⟨.data (bytes.drop (len + 1)), 0⟩
        let got := got ++ bytes.take (len + 1)
        if late tick endTick then some ⟨.readTimeout, got, tick, left :: arrivals⟩
        else some ⟨.ok, got, tick, left :: arrivals⟩
      else
        let got := got ++ bytes
        if late tick endTick then some ⟨.readTimeout, got, tick, arrivals⟩
        else umqttReadpacketLoop endTick arrivals tick (len + 1 - bytes.length) got

/-- `timeoutTick` is the timeout in ticks, already cut to 31 bits. -/
def umqttReadpacket (timeoutTick tick : UInt32) (arrivals : List Arrival) (len : Nat) : Option Read :=
  umqttReadpacketLoop (tick + timeoutTick) arrivals tick len []

/-! ## A packet -/

/-- The client's side of the socket: what will arrive, the tick, and `recv_buf`. -/
structure Reader where
  arrivals : List Arrival
  tick : UInt32
  recvBuf : List Byte
  deriving DecidableEq

/-- Why there is no result: the thread waits in `recv`, or has written past the end of the buffer. -/
inductive Stop
  | waits
  | overrun
  deriving DecidableEq

/-- How `umqtt_handle_readpacket` ends before it decodes, or the length of the packet in the buffer. -/
inductive Taken
  | finAck
  | failed
  | readFailed
  | bufferTooShort
  | packet (length : Nat)
  deriving DecidableEq

/-- `umqtt_readpacket` into the receive buffer. -/
def Reader.read (timeoutTick : UInt32) (r : Reader) (offset len : Nat) : Except Stop (ReadRet × Reader) :=
  match umqttReadpacket timeoutTick r.tick r.arrivals len with
  | none => .error .waits
  | some x =>
    match poke r.recvBuf offset x.got with
    | none => .error .overrun
    | some recvBuf => .ok (x.ret, ⟨x.arrivals, x.tick, recvBuf⟩)

/-- What is left when one byte has been taken. -/
def afterByte (bytes : List Byte) (arrivals : List Arrival) : List Arrival :=
  if bytes = [] then arrivals else ⟨.data bytes, 0⟩ :: arrivals

/-- The first `recv`, of one byte; every result that is not a byte counts as the end of the connection. -/
def Reader.readHeader (r : Reader) : Except Stop (Option Reader) :=
  match r.arrivals with
  | [] => .error .waits
  | ⟨.data (b :: bytes), ticks⟩ :: arrivals =>
    match poke r.recvBuf 0 [b] with
    | none => .error .overrun
    | some recvBuf => .ok (some ⟨afterByte bytes arrivals, r.tick + ticks, recvBuf⟩)
  | _ :: _ => .ok none

/-- The loop over the digits, with `_cnt`, `_pkt_len` and `_multiplier` before it looks for another one. -/
def readDigits (timeoutTick : UInt32) : Nat → Nat → Nat → Nat → Reader → Except Stop (Except Taken (Nat × Nat) × Reader)
  | 0, _, _, _, r => .ok (.error .failed, r)
  | w + 1, cnt, pktLen, multiplier, r =>
    match umqttReadpacket timeoutTick r.tick r.arrivals 1 with
    | none => .error .waits
    | some x =>
      let r : Reader := ⟨x.arrivals, x.tick, r.recvBuf⟩
      match x.ret, x.got with
      | .ok, onedata :: _ =>
        match poke r.recvBuf (cnt + 1) [onedata] with
        | none => .error .overrun
        | some recvBuf =>
          let r := { r with recvBuf := recvBuf }
          let pktLen := pktLen + (onedata &&& 0x7F).toNat * multiplier
          if onedata &&& 0x80 ≠ 0 then readDigits timeoutTick w (cnt + 1) pktLen (multiplier * 0x80) r
          else .ok (.ok (cnt + 1, pktLen), r)
      | .finAck, _ => .ok (.error .finAck, r)
      | _, _ => .ok (.error .readFailed, r)

/-- The loop that reads a packet too long for the buffer and drops it; what its reads return is not looked at. -/
def dropPacket (timeoutTick : UInt32) (recvSize : Nat) : Nat → Nat → Reader → Except Stop Reader
  | 0, pktLen, r => (r.read timeoutTick 0 pktLen).map Prod.snd
  | loopCnt + 1, pktLen, r =>
    match r.read timeoutTick 0 recvSize with
    | .error stop => .error stop
    | .ok (_, r) => dropPacket timeoutTick recvSize loopCnt (pktLen - recvSize) r

/-- `umqtt_handle_readpacket` up to the decoder. -/
def takePacket (timeoutTick : UInt32) (recvSize : Nat) (r : Reader) : Except Stop (Taken × Reader) :=
  match r.readHeader with
  | .error stop => .error stop
  | .ok none => .ok (.finAck, r)
  | .ok (some r) =>
    match readDigits timeoutTick MAX_NO_OF_REMAINING_LENGTH_BYTES 0 0 1 r with
    | .error stop => .error stop
    | .ok (.error taken, r) => .ok (taken, r)
    | .ok (.ok (cnt, pktLen), r) =>
      if pktLen + 1 + cnt > recvSize then
        (dropPacket timeoutTick recvSize (pktLen / recvSize) pktLen r).map (fun r => (.bufferTooShort, r))
      else
        match r.read timeoutTick (cnt + 1) pktLen with
        | .error stop => .error stop
        | .ok (.ok, r) => .ok (.packet (pktLen + cnt + 1), r)
        | .ok (.finAck, r) => .ok (.finAck, r)
        | .ok (_, r) => .ok (.readFailed, r)

/-! ## What the pieces carry -/

/-- The bytes to come. -/
def content : List Arrival → List Byte
  | [] => []
  | a :: arrivals =>
    match a.what with
    | .data bytes => bytes ++ content arrivals
    | _ => content arrivals

/-- The time `len` bytes take to come, and what is to come after them. -/
def consume : List Arrival → Nat → Option (Nat × List Arrival)
  | arrivals, 0 => some (0, arrivals)
  | [], _ + 1 => none
  | a :: arrivals, len + 1 =>
    match a.what with
    | .failed => none
    | .again => (consume arrivals (len + 1)).map (fun x => (a.ticks.toNat + x.1, x.2))
    | .data bytes =>
      if bytes = [] then none
      else if len + 1 < bytes.length then some (a.ticks.toNat, ⟨.data (bytes.drop (len + 1)), 0⟩ :: arrivals)
      else (consume arrivals (len + 1 - bytes.length)).map (fun x => (a.ticks.toNat + x.1, x.2))

/-! ## A read in time -/

theorem late_eq_false {tick endTick : UInt32} (hpos : 0 < (endTick - tick).toNat)
    (hle : (endTick - tick).toNat ≤ 0x7FFFFFFF) : late tick endTick = false := by
  have h1 := tick.toNat_lt
  have h2 := endTick.toNat_lt
  unfold late
  rw [decide_eq_false_iff_not, UInt32.lt_iff_toNat_lt, show (RT_TICK_MAX >>> 1).toNat = 0x7FFFFFFF from rfl]
  rw [UInt32.toNat_sub] at *
  omega

theorem toNat_left {tick endTick ticks : UInt32} (h : ticks.toNat ≤ (endTick - tick).toNat) :
    (endTick - (tick + ticks)).toNat = (endTick - tick).toNat - ticks.toNat := by
  have h1 := tick.toNat_lt
  have h2 := endTick.toNat_lt
  have h3 := ticks.toNat_lt
  rw [UInt32.toNat_sub, UInt32.toNat_add] at *
  rw [UInt32.toNat_sub]
  omega

/-- **A read whose bytes come before its deadline** gets them all, and no more. -/
theorem loop_of_consume {endTick : UInt32} : ∀ {arrivals : List Arrival} {tick : UInt32} {len t : Nat} {got : List Byte}
    {rest : List Arrival}, consume arrivals len = some (t, rest) → t < (endTick - tick).toNat →
    (endTick - tick).toNat ≤ 0x7FFFFFFF →
    ∃ bytes tick', bytes.length = len ∧ content arrivals = bytes ++ content rest ∧
      (endTick - tick').toNat = (endTick - tick).toNat - t ∧
      umqttReadpacketLoop endTick arrivals tick len got = some ⟨.ok, got ++ bytes, tick', rest⟩
  | arrivals, tick, 0, t, got, rest, h, _, _ => by
    rw [consume] at h
    cases h
    exact ⟨[], tick, rfl, rfl, rfl, by rw [umqttReadpacketLoop, List.append_nil]⟩
  | [], tick, len + 1, t, got, rest, h, _, _ => by cases h
  | a :: arrivals, tick, len + 1, t, got, rest, h, ht, hle => by
    rw [consume] at h
    rw [umqttReadpacketLoop, content]
    cases hwhat : a.what with
    | failed =>
      rw [hwhat] at h
      cases h
    | again =>
      rw [hwhat] at h
      obtain ⟨⟨u, r⟩, hu, he⟩ := Option.map_eq_some_iff.1 h
      cases he
      have hleft := toNat_left (Nat.le_of_lt (Nat.lt_of_le_of_lt (Nat.le_add_right _ u) ht))
      obtain ⟨bytes, tick', hlen, hcontent, htick, hloop⟩ :=
        @loop_of_consume endTick arrivals (tick + a.ticks) (len + 1) u got r hu (by omega) (by omega)
      refine ⟨bytes, tick', hlen, hcontent, by omega, ?_⟩
      dsimp only
      rw [late_eq_false (by omega) (by omega), if_neg (by decide)]
      exact hloop
    | data bytes =>
      rw [hwhat] at h
      dsimp only at h ⊢
      split at h
      · cases h
      · rename_i hne
        rw [if_neg hne]
        split at h
        · rename_i hlt
          cases h
          have hleft := toNat_left (Nat.le_of_lt ht)
          refine ⟨bytes.take (len + 1), tick + a.ticks, ?_, ?_, hleft, ?_⟩
          · rw [List.length_take]
            omega
          · rw [content, ← List.append_assoc, List.take_append_drop]
          · rw [if_pos hlt, late_eq_false (by omega) (by omega), if_neg (by decide)]
        · rename_i hlt
          obtain ⟨⟨u, r⟩, hu, he⟩ := Option.map_eq_some_iff.1 h
          cases he
          have hleft := toNat_left (Nat.le_of_lt (Nat.lt_of_le_of_lt (Nat.le_add_right _ u) ht))
          obtain ⟨more, tick', hlen, hcontent, htick, hloop⟩ :=
            @loop_of_consume endTick arrivals (tick + a.ticks) _ u (got ++ bytes) r hu (by omega) (by omega)
          refine ⟨bytes ++ more, tick', ?_, ?_, by omega, ?_⟩
          · rw [List.length_append]
            omega
          · rw [hcontent, List.append_assoc]
          · rw [if_neg hlt, late_eq_false (by omega) (by omega), if_neg (by decide), hloop, List.append_assoc]

theorem content_afterByte (bytes : List Byte) (arrivals : List Arrival) :
    content (afterByte bytes arrivals) = bytes ++ content arrivals := by
  unfold afterByte
  split_ifs with h
  · rw [h]
    rfl
  · rfl

/-- The bytes in front, if they come at all. -/
theorem content_of_consume : ∀ {arrivals : List Arrival} {len t : Nat} {rest : List Arrival},
    consume arrivals len = some (t, rest) → ∃ bytes, bytes.length = len ∧ content arrivals = bytes ++ content rest
  | arrivals, 0, t, rest, h => by
    rw [consume] at h
    cases h
    exact ⟨[], rfl, rfl⟩
  | [], len + 1, t, rest, h => by cases h
  | a :: arrivals, len + 1, t, rest, h => by
    rw [consume] at h
    rw [content]
    cases hwhat : a.what with
    | failed =>
      rw [hwhat] at h
      cases h
    | again =>
      rw [hwhat] at h
      obtain ⟨⟨u, r⟩, hu, he⟩ := Option.map_eq_some_iff.1 h
      cases he
      exact content_of_consume hu
    | data bytes =>
      rw [hwhat] at h
      dsimp only at h ⊢
      split at h
      · cases h
      · split at h
        · rename_i hlt
          cases h
          refine ⟨bytes.take (len + 1), ?_, ?_⟩
          · rw [List.length_take]
            omega
          · rw [content, ← List.append_assoc, List.take_append_drop]
        · rename_i hlt
          obtain ⟨⟨u, r⟩, hu, he⟩ := Option.map_eq_some_iff.1 h
          cases he
          obtain ⟨more, hlen, hcontent⟩ := content_of_consume hu
          refine ⟨bytes ++ more, ?_, ?_⟩
          · rw [List.length_append]
            omega
          · rw [hcontent, List.append_assoc]

/-- **Bytes come in two parts as they come in one.** -/
theorem consume_add : ∀ {arrivals : List Arrival} {m n t : Nat} {rest : List Arrival},
    consume arrivals (m + n) = some (t, rest) →
    ∃ t1 mid t2, consume arrivals m = some (t1, mid) ∧ consume mid n = some (t2, rest) ∧ t = t1 + t2
  | arrivals, 0, n, t, rest, h => by
    rw [Nat.zero_add] at h
    exact ⟨0, arrivals, t, by rw [consume], h, (Nat.zero_add t).symm⟩
  | [], m + 1, n, t, rest, h => by
    rw [Nat.add_right_comm] at h
    cases h
  | a :: arrivals, m + 1, n, t, rest, h => by
    rw [Nat.add_right_comm, consume] at h
    rw [consume]
    cases hwhat : a.what with
    | failed =>
      rw [hwhat] at h
      cases h
    | again =>
      rw [hwhat] at h
      obtain ⟨⟨u, r⟩, hu, he⟩ := Option.map_eq_some_iff.1 h
      cases he
      rw [Nat.add_right_comm] at hu
      obtain ⟨t1, mid, t2, h1, h2, rfl⟩ := consume_add hu
      exact ⟨_, mid, t2, by dsimp only; rw [h1]; rfl, h2, by omega⟩
    | data bytes =>
      rw [hwhat] at h
      dsimp only at h ⊢
      split at h
      · cases h
      · rename_i hne
        rw [if_neg hne]
        by_cases hm : m + 1 < bytes.length
        · rw [if_pos hm]
          refine ⟨_, _, t - a.ticks.toNat, rfl, ?_, ?_⟩
          · cases n with
            | zero =>
              rw [if_pos (by omega)] at h
              cases h
              rw [consume, Nat.sub_self]
            | succ n =>
              have hdrop : bytes.drop (m + 1) ≠ [] := by
                rw [← List.length_pos_iff, List.length_drop]
                omega
              rw [consume]
              dsimp only
              rw [if_neg hdrop, List.length_drop]
              by_cases hlt : m + (n + 1) + 1 < bytes.length
              · rw [if_pos hlt] at h
                cases h
                rw [if_pos (by omega), List.drop_drop, Nat.sub_self]
                congr 6
                omega
              · rw [if_neg hlt] at h
                obtain ⟨⟨u, r⟩, hu, he⟩ := Option.map_eq_some_iff.1 h
                cases he
                rw [if_neg (by omega), show n + 1 - (bytes.length - (m + 1)) = m + (n + 1) + 1 - bytes.length by omega, hu]
                simp
          · split at h
            · cases h
              omega
            · obtain ⟨⟨u, r⟩, hu, he⟩ := Option.map_eq_some_iff.1 h
              cases he
              omega
        · rw [if_neg hm]
          rw [if_neg (by omega)] at h
          obtain ⟨⟨u, r⟩, hu, he⟩ := Option.map_eq_some_iff.1 h
          cases he
          rw [show m + n + 1 - bytes.length = (m + 1 - bytes.length) + n by omega] at hu
          obtain ⟨t1, mid, t2, h1, h2, rfl⟩ := consume_add hu
          exact ⟨_, mid, t2, by rw [h1]; rfl, h2, by omega⟩

theorem readpacket_of_consume {timeoutTick : UInt32} {arrivals rest : List Arrival} {len t : Nat} (tick : UInt32)
    (h : consume arrivals len = some (t, rest)) (ht : t < timeoutTick.toNat) (hle : timeoutTick.toNat ≤ 0x7FFFFFFF) :
    ∃ bytes tick', bytes.length = len ∧ content arrivals = bytes ++ content rest ∧
      umqttReadpacket timeoutTick tick arrivals len = some ⟨.ok, bytes, tick', rest⟩ := by
  have hleft : tick + timeoutTick - tick = timeoutTick := by
    rw [UInt32.add_comm, UInt32.add_sub_cancel]
  obtain ⟨bytes, tick', hlen, hcontent, -, hloop⟩ :=
    @loop_of_consume (tick + timeoutTick) arrivals tick len t [] rest h (by rw [hleft]; exact ht) (by rw [hleft]; exact hle)
  exact ⟨bytes, tick', hlen, hcontent, hloop⟩

/-! ## A packet in time -/

theorem poke_append {A B src : List Byte} (h : src.length ≤ B.length) :
    poke (A ++ B) A.length src = some (A ++ src ++ B.drop src.length) := by
  rw [poke_of_le (by rw [List.length_append]; omega), List.take_left, ← List.drop_drop, List.drop_left]

/-- A read in time into the receive buffer, where there is room. -/
theorem read_of_consume {timeoutTick : UInt32} {r : Reader} {A B : List Byte} {rest : List Arrival} {len t : Nat}
    (h : consume r.arrivals len = some (t, rest)) (ht : t < timeoutTick.toNat) (hle : timeoutTick.toNat ≤ 0x7FFFFFFF)
    (hbuf : r.recvBuf = A ++ B) (hroom : len ≤ B.length) :
    ∃ bytes tick', bytes.length = len ∧ content r.arrivals = bytes ++ content rest ∧
      r.read timeoutTick A.length len = .ok (.ok, ⟨rest, tick', A ++ bytes ++ B.drop len⟩) := by
  obtain ⟨bytes, tick', hlen, hcontent, hread⟩ := readpacket_of_consume r.tick h ht hle
  refine ⟨bytes, tick', hlen, hcontent, ?_⟩
  rw [Reader.read, hread]
  dsimp only
  rw [hbuf, poke_append (by rw [hlen]; exact hroom), hlen]

/-- **The digits of a length are read one by one**, and each is kept in the buffer. -/
theorem readDigits_of_digits {timeoutTick : UInt32} (hle : timeoutTick.toNat ≤ 0x7FFFFFFF) :
    ∀ (w : Nat) {cnt pktLen multiplier n t : Nat} {digits A B l : List Byte} {r : Reader} {rest : List Arrival},
    VarInt.decode w digits = some (n, []) → content r.arrivals = digits ++ l →
    consume r.arrivals digits.length = some (t, rest) → t < timeoutTick.toNat →
    r.recvBuf = A ++ B → A.length = cnt + 1 → digits.length ≤ B.length →
    ∃ tick', readDigits timeoutTick w cnt pktLen multiplier r =
      .ok (.ok (cnt + digits.length, pktLen + n * multiplier), ⟨rest, tick', A ++ digits ++ B.drop digits.length⟩)
  | 0, _, _, _, _, _, _, _, _, _, _, _, hd, _, _, _, _, _, _ => by cases hd
  | w + 1, _, _, _, _, _, [], _, _, _, _, _, hd, _, _, _, _, _, _ => by cases hd
  | w + 1, cnt, pktLen, multiplier, n, t, c :: digits, A, B, l, r, rest, hd, hl, hc, ht, hbuf, hA, hB => by
    rw [List.length_cons, Nat.add_comm] at hc
    obtain ⟨t1, mid, t2, h1, h2, rfl⟩ := consume_add hc
    obtain ⟨bytes, tick', hlen, hcontent, hread⟩ := readpacket_of_consume r.tick h1 (by omega) hle
    obtain ⟨b, rfl⟩ := List.length_eq_one_iff.1 hlen
    have hcb : c = b ∧ digits ++ l = content mid := by
      rw [hl] at hcontent
      exact List.cons.inj hcontent
    obtain ⟨rfl, hmid⟩ := hcb
    have hpoke : poke r.recvBuf (cnt + 1) [c] = some (A ++ [c] ++ B.drop 1) := by
      rw [hbuf, ← hA]
      exact poke_append (Nat.le_trans (Nat.succ_le_succ (Nat.zero_le _)) hB)
    rw [readDigits, hread]
    dsimp only
    rw [hpoke]
    dsimp only
    rw [VarInt.decode] at hd
    rw [VarInt.toNat_and_127]
    by_cases hlt : c.toNat < 128
    · rw [if_pos hlt] at hd
      cases hd
      rw [List.length_nil, consume] at h2
      cases h2
      rw [if_neg (fun h => (VarInt.and_128_ne_zero_iff c).1 h hlt), Nat.mod_eq_of_lt hlt]
      exact ⟨tick', rfl⟩
    · rw [if_neg hlt] at hd
      obtain ⟨⟨m, s⟩, hm, he⟩ := Option.map_eq_some_iff.1 hd
      cases he
      rw [if_pos ((VarInt.and_128_ne_zero_iff c).2 hlt)]
      rw [List.length_cons] at hB
      have ih : ∃ tick'', readDigits timeoutTick w (cnt + 1) (pktLen + c.toNat % 128 * multiplier) (multiplier * 0x80)
          ⟨mid, tick', A ++ [c] ++ B.drop 1⟩ =
            .ok (.ok (cnt + 1 + digits.length, pktLen + c.toNat % 128 * multiplier + m * (multiplier * 0x80)),
              ⟨rest, tick'', A ++ [c] ++ digits ++ (B.drop 1).drop digits.length⟩) :=
        readDigits_of_digits hle w hm hmid.symm h2 (by omega) rfl
          (by rw [List.length_append, List.length_singleton, hA]) (by rw [List.length_drop]; omega)
      obtain ⟨tick'', hdigits⟩ := ih
      refine ⟨tick'', ?_⟩
      rw [hdigits, List.length_cons, List.drop_drop]
      simp only [List.append_assoc, List.singleton_append, Except.ok.injEq, Prod.mk.injEq, Reader.mk.injEq, true_and]
      refine ⟨⟨by omega, by ring⟩, ?_⟩
      rw [Nat.add_comm 1 digits.length]

/-- **A packet too long is dropped whole**, in pieces of the buffer's size. -/
theorem dropPacket_of_consume {timeoutTick : UInt32} {recvSize : Nat} (hle : timeoutTick.toNat ≤ 0x7FFFFFFF)
    (hsize : 0 < recvSize) : ∀ (loopCnt : Nat) {pktLen t : Nat} {r : Reader} {rest : List Arrival},
    pktLen / recvSize = loopCnt → r.recvBuf.length = recvSize → consume r.arrivals pktLen = some (t, rest) →
    t < timeoutTick.toNat →
    ∃ r', dropPacket timeoutTick recvSize loopCnt pktLen r = .ok r' ∧ r'.arrivals = rest ∧ r'.recvBuf.length = recvSize
  | 0, pktLen, t, r, rest, hdiv, hbuf, hc, ht => by
    have hlt : pktLen < recvSize := (Nat.div_eq_zero_iff_lt hsize).1 hdiv
    obtain ⟨bytes, tick', hlen, -, hread⟩ :=
      read_of_consume (A := []) (B := r.recvBuf) hc ht hle rfl (by rw [hbuf]; exact Nat.le_of_lt hlt)
    rw [List.length_nil] at hread
    rw [dropPacket, hread]
    refine ⟨_, rfl, rfl, ?_⟩
    simp only [List.nil_append, List.length_append, List.length_drop]
    omega
  | loopCnt + 1, pktLen, t, r, rest, hdiv, hbuf, hc, ht => by
    have hge : recvSize ≤ pktLen := by
      rcases Nat.lt_or_ge pktLen recvSize with h | h
      · rw [Nat.div_eq_of_lt h] at hdiv
        omega
      · exact h
    rw [show pktLen = recvSize + (pktLen - recvSize) by omega] at hc
    obtain ⟨t1, mid, t2, h1, h2, rfl⟩ := consume_add hc
    obtain ⟨bytes, tick', hlen, -, hread⟩ :=
      read_of_consume (A := []) (B := r.recvBuf) h1 (by omega) hle rfl (by rw [hbuf])
    rw [List.length_nil] at hread
    rw [dropPacket, hread]
    refine dropPacket_of_consume hle hsize loopCnt ?_ ?_ h2 (by omega)
    · have := Nat.div_eq_sub_div hsize hge
      omega
    · simp only [List.nil_append, List.length_append, List.length_drop]
      omega

/-- The bytes behind a packet's header come within the deadline. -/
def InTime (timeoutTick : UInt32) (f : Frame) (arrivals rest : List Arrival) : Prop :=
  ∃ b bytes ticks after t, arrivals = ⟨.data (b :: bytes), ticks⟩ :: after ∧
    consume (afterByte bytes after) (f.digits.length + f.body.length) = some (t, rest) ∧ t < timeoutTick.toNat

/-- **A packet in time is taken off the stream**: into the buffer if it fits there, and dropped if not. -/
theorem takePacket_of_frame {timeoutTick : UInt32} {recvSize : Nat} {r : Reader} {f : Frame} {l : List Byte}
    {rest : List Arrival} (hle : timeoutTick.toNat ≤ 0x7FFFFFFF) (hsize : 5 ≤ recvSize)
    (hbuf : r.recvBuf.length = recvSize) (hl : content r.arrivals = f.bytes ++ l)
    (hin : InTime timeoutTick f r.arrivals rest) :
    ∃ r', r'.arrivals = rest ∧ content rest = l ∧ r'.recvBuf.length = recvSize ∧
      if f.bytes.length ≤ recvSize then
        takePacket timeoutTick recvSize r = .ok (.packet f.bytes.length, r') ∧ ∃ stale, r'.recvBuf = f.bytes ++ stale
      else takePacket timeoutTick recvSize r = .ok (.bufferTooShort, r') := by
  obtain ⟨b, bytes, ticks, after, t, harr, hc, ht⟩ := hin
  obtain ⟨hpos, hfour, -⟩ := f.length_digits
  have hcontent : b = f.header ∧ bytes ++ content after = f.digits ++ (f.body ++ l) := by
    rw [harr, content, Frame.bytes, List.cons_append, List.append_assoc] at hl
    exact List.cons.inj hl
  obtain ⟨rfl, htail⟩ := hcontent
  obtain ⟨t1, mid, t2, h1, h2, rfl⟩ := consume_add hc
  have hheader : r.readHeader = .ok (some ⟨afterByte bytes after, r.tick + ticks, [f.header] ++ r.recvBuf.drop 1⟩) := by
    have hpoke := @poke_append [] r.recvBuf [f.header] (by rw [List.length_singleton]; omega)
    rw [List.length_nil, List.nil_append, List.length_singleton] at hpoke
    rw [Reader.readHeader, harr]
    dsimp only
    rw [hpoke]
    rfl
  have hcontent1 : content (afterByte bytes after) = f.digits ++ (f.body ++ l) := by
    rw [content_afterByte, htail]
  have hdigits : ∃ tick', readDigits timeoutTick MAX_NO_OF_REMAINING_LENGTH_BYTES 0 0 1
      ⟨afterByte bytes after, r.tick + ticks, [f.header] ++ r.recvBuf.drop 1⟩ =
        .ok (.ok (0 + f.digits.length, 0 + f.body.length * 1),
          ⟨mid, tick', [f.header] ++ f.digits ++ (r.recvBuf.drop 1).drop f.digits.length⟩) :=
    readDigits_of_digits hle 4 f.length hcontent1 h1 (by omega) rfl rfl (by rw [List.length_drop]; omega)
  obtain ⟨tick', hdigits⟩ := hdigits
  rw [Nat.zero_add, Nat.zero_add, Nat.mul_one] at hdigits
  have hmid : content mid = f.body ++ l := by
    obtain ⟨p, hp, hcp⟩ := content_of_consume h1
    rw [hcontent1] at hcp
    exact (List.append_inj hcp hp.symm).2.symm
  have hrest : content rest = l := by
    obtain ⟨p, hp, hcp⟩ := content_of_consume h2
    rw [hmid] at hcp
    exact (List.append_inj hcp hp.symm).2.symm
  have hlen := f.length_bytes
  unfold takePacket
  rw [hheader]
  dsimp only
  rw [hdigits]
  dsimp only
  by_cases hfit : f.bytes.length ≤ recvSize
  · rw [if_neg (by omega)]
    obtain ⟨body, tick'', hbody, hcbody, hread⟩ := @read_of_consume timeoutTick
      ⟨mid, tick', [f.header] ++ f.digits ++ (r.recvBuf.drop 1).drop f.digits.length⟩ ([f.header] ++ f.digits)
      ((r.recvBuf.drop 1).drop f.digits.length) rest f.body.length t2 h2 (by omega) hle rfl
      (by rw [List.length_drop, List.length_drop]; omega)
    have hsame : body = f.body := by
      dsimp only at hcbody
      rw [hmid, hrest] at hcbody
      exact (List.append_cancel_right hcbody).symm
    rw [hsame] at hread
    have hoff : ([f.header] ++ f.digits).length = f.digits.length + 1 := rfl
    rw [hoff] at hread
    rw [hread]
    generalize hstale : ((r.recvBuf.drop 1).drop f.digits.length).drop f.body.length = stale
    have hlenstale := congrArg List.length hstale
    simp only [List.length_drop] at hlenstale
    refine ⟨⟨rest, tick'', [f.header] ++ f.digits ++ f.body ++ stale⟩, rfl, hrest, ?_, ?_⟩
    · simp only [List.length_append, List.length_singleton]
      omega
    · rw [if_pos hfit]
      refine ⟨?_, stale, ?_⟩
      · dsimp only
        rw [show f.body.length + f.digits.length + 1 = f.bytes.length by omega]
      · rw [show [f.header] ++ f.digits ++ f.body = f.bytes by simp [Frame.bytes]]
  · rw [if_pos (by omega)]
    obtain ⟨r', hdrop, harr', hbuf'⟩ := @dropPacket_of_consume timeoutTick recvSize hle (by omega) _ _ _
      ⟨mid, tick', [f.header] ++ f.digits ++ (r.recvBuf.drop 1).drop f.digits.length⟩ _ rfl
      (by simp only [List.length_append, List.length_singleton, List.length_drop]; omega) h2 (by omega)
    refine ⟨r', harr', hrest, hbuf', ?_⟩
    rw [if_neg hfit, hdrop]
    rfl

/-! ## A stream -/

/-- `umqtt_thread` calling `umqtt_handle_readpacket`: what each call took, with the receive buffer as it left it. -/
def takePackets (timeoutTick : UInt32) (recvSize : Nat) : Nat → Reader → Except Stop (List (Taken × List Byte) × Reader)
  | 0, r => .ok ([], r)
  | n + 1, r =>
    match takePacket timeoutTick recvSize r with
    | .error stop => .error stop
    | .ok (taken, r) => (takePackets timeoutTick recvSize n r).map (fun x => ((taken, r.recvBuf) :: x.1, x.2))

/-- No packet of the stream is slower than the deadline. -/
def Timely (timeoutTick : UInt32) : List Frame → List Arrival → List Arrival → Prop
  | [], arrivals, rest => arrivals = rest
  | f :: fs, arrivals, rest => ∃ mid, InTime timeoutTick f arrivals mid ∧ Timely timeoutTick fs mid rest

/-- What is taken for a packet: its bytes in front of the buffer, or nothing when it is longer than that. -/
def TakenFor (recvSize : Nat) (f : Frame) (x : Taken × List Byte) : Prop :=
  if f.bytes.length ≤ recvSize then x.1 = .packet f.bytes.length ∧ f.bytes <+: x.2 else x.1 = .bufferTooShort

/-- **The packets come out as they were sent, however they were cut.** -/
theorem packets_of_stream {timeoutTick : UInt32} {recvSize : Nat} (hle : timeoutTick.toNat ≤ 0x7FFFFFFF)
    (hsize : 5 ≤ recvSize) : ∀ {fs : List Frame} {r : Reader} {l : List Byte} {rest : List Arrival},
    r.recvBuf.length = recvSize → content r.arrivals = stream fs ++ l → Timely timeoutTick fs r.arrivals rest →
    ∃ out r', takePackets timeoutTick recvSize fs.length r = .ok (out, r') ∧ r'.arrivals = rest ∧ content rest = l ∧
      List.Forall₂ (TakenFor recvSize) fs out
  | [], r, l, rest, _, hl, htimely => by
    cases htimely
    exact ⟨[], r, rfl, rfl, hl, .nil⟩
  | f :: fs, r, l, rest, hbuf, hl, htimely => by
    obtain ⟨mid, hin, htimely⟩ := htimely
    rw [stream_cons, List.append_assoc] at hl
    obtain ⟨r', harr, hmid, hbuf', htaken⟩ := takePacket_of_frame hle hsize hbuf hl hin
    subst harr
    obtain ⟨out, r'', hrun, harr', hrest, hall⟩ := packets_of_stream hle hsize hbuf' hmid htimely
    have hstep : ∃ taken, takePacket timeoutTick recvSize r = .ok (taken, r') ∧ TakenFor recvSize f (taken, r'.recvBuf) := by
      unfold TakenFor
      split_ifs at htaken ⊢ with hfit
      · obtain ⟨htake, stale, hstale⟩ := htaken
        exact ⟨_, htake, rfl, stale, hstale.symm⟩
      · exact ⟨_, htaken, rfl⟩
    obtain ⟨taken, htake, hfor⟩ := hstep
    refine ⟨(taken, r'.recvBuf) :: out, r'', ?_, harr', hrest, .cons hfor hall⟩
    rw [List.length_cons, takePackets, htake]
    dsimp only
    rw [hrun]
    rfl

/-- A PINGRESP and a PUBACK, cut in the middle of the second. -/
theorem packets_of_stream_cut : ∃ out r', takePackets 100 8 2
      ⟨[⟨.data [0xD0, 0, 0x40, 2], 3⟩, ⟨.again, 40⟩, ⟨.data [0, 1], 40⟩], 0, List.replicate 8 0⟩ = .ok (out, r') ∧
    List.Forall₂ (TakenFor 8) [Frame.of 0xD0 [] (by decide), Frame.of 0x40 [0, 1] (by decide)] out := by
  obtain ⟨out, r', hrun, -, -, hall⟩ := @packets_of_stream 100 8 (by decide) (by decide)
    [Frame.of 0xD0 [] (by decide), Frame.of 0x40 [0, 1] (by decide)]
    ⟨[⟨.data [0xD0, 0, 0x40, 2], 3⟩, ⟨.again, 40⟩, ⟨.data [0, 1], 40⟩], 0, List.replicate 8 0⟩ [] [] rfl rfl
    ⟨[⟨.data [0x40, 2], 0⟩, ⟨.again, 40⟩, ⟨.data [0, 1], 40⟩],
      ⟨0xD0, [0, 0x40, 2], 3, _, 0, rfl, rfl, by decide⟩, [], ⟨0x40, [2], 0, _, 80, rfl, rfl, by decide⟩, rfl⟩
  exact ⟨out, r', hrun, hall⟩

/-! ## Whatever arrives -/

theorem length_got_le {endTick : UInt32} : ∀ {arrivals : List Arrival} {tick : UInt32} {len : Nat} {got : List Byte}
    {x : Read}, umqttReadpacketLoop endTick arrivals tick len got = some x → x.got.length ≤ got.length + len
  | arrivals, tick, 0, got, x, h => by
    rw [umqttReadpacketLoop] at h
    cases h
    exact Nat.le_refl _
  | [], tick, len + 1, got, x, h => by cases h
  | a :: arrivals, tick, len + 1, got, x, h => by
    rw [umqttReadpacketLoop] at h
    cases hwhat : a.what with
    | failed =>
      rw [hwhat] at h
      cases h
      exact Nat.le_add_right _ _
    | again =>
      rw [hwhat] at h
      dsimp only at h
      split at h
      · cases h
        exact Nat.le_add_right _ _
      · exact length_got_le h
    | data bytes =>
      rw [hwhat] at h
      dsimp only at h
      split at h
      · cases h
        exact Nat.le_add_right _ _
      · split at h
        · have hlen : (got ++ bytes.take (len + 1)).length ≤ got.length + (len + 1) := by
            rw [List.length_append, List.length_take]
            omega
          split at h <;> (cases h; exact hlen)
        · rename_i hlt
          split at h
          · cases h
            rw [List.length_append]
            omega
          · have := length_got_le h
            rw [List.length_append] at this
            omega

/-- A result that does not run over the buffer, and leaves its size. -/
def Safe (recvSize : Nat) : Except Stop Reader → Prop
  | .ok r => r.recvBuf.length = recvSize
  | .error stop => stop = .waits

theorem safe_read {timeoutTick : UInt32} {recvSize : Nat} {r : Reader} {offset len : Nat}
    (hbuf : r.recvBuf.length = recvSize) (hroom : offset + len ≤ recvSize) :
    Safe recvSize ((r.read timeoutTick offset len).map Prod.snd) := by
  unfold Reader.read
  cases hread : umqttReadpacket timeoutTick r.tick r.arrivals len with
  | none => rfl
  | some x =>
    have hgot := length_got_le hread
    rw [List.length_nil, Nat.zero_add] at hgot
    have hpoke : offset + x.got.length ≤ r.recvBuf.length := by omega
    dsimp only
    rw [poke_of_le hpoke]
    exact (length_of_poke (poke_of_le hpoke)).trans hbuf

theorem safe_readHeader {recvSize : Nat} {r : Reader} (hbuf : r.recvBuf.length = recvSize) (hsize : 5 ≤ recvSize) :
    (∀ r', r.readHeader = .ok (some r') → r'.recvBuf.length = recvSize) ∧ r.readHeader ≠ .error .overrun := by
  unfold Reader.readHeader
  split
  · exact ⟨fun r' h => (by cases h), by simp⟩
  · rename_i b bytes ticks arrivals _
    have hpoke : 0 + [b].length ≤ r.recvBuf.length := by
      rw [List.length_singleton]
      omega
    rw [poke_of_le hpoke]
    refine ⟨fun r' h => ?_, by simp⟩
    cases h
    exact (length_of_poke (poke_of_le hpoke)).trans hbuf
  · exact ⟨fun r' h => (by cases h), by simp⟩

/-- The digits are kept in the five bytes in front. -/
theorem safe_readDigits {timeoutTick : UInt32} {recvSize : Nat} (hsize : 5 ≤ recvSize) :
    ∀ (w : Nat) {cnt pktLen multiplier : Nat} {r : Reader}, cnt + w ≤ 4 → r.recvBuf.length = recvSize →
    (∀ y r', readDigits timeoutTick w cnt pktLen multiplier r = .ok (y, r') → r'.recvBuf.length = recvSize) ∧
      readDigits timeoutTick w cnt pktLen multiplier r ≠ .error .overrun
  | 0, cnt, pktLen, multiplier, r, _, hbuf => by
    rw [readDigits]
    exact ⟨fun y r' h => by cases h; exact hbuf, by simp⟩
  | w + 1, cnt, pktLen, multiplier, r, hcnt, hbuf => by
    rw [readDigits]
    cases hread : umqttReadpacket timeoutTick r.tick r.arrivals 1 with
    | none => exact ⟨fun y r' h => (by cases h), by simp⟩
    | some x =>
      dsimp only
      split
      · rename_i onedata _ _ _
        have hpoke : cnt + 1 + [onedata].length ≤ r.recvBuf.length := by
          rw [List.length_singleton]
          omega
        have hlen := (length_of_poke (poke_of_le hpoke)).trans hbuf
        rw [poke_of_le hpoke]
        dsimp only
        split
        · exact safe_readDigits hsize w (by omega) hlen
        · exact ⟨fun y r' h => by cases h; exact hlen, by simp⟩
      · exact ⟨fun y r' h => by cases h; exact hbuf, by simp⟩
      · exact ⟨fun y r' h => by cases h; exact hbuf, by simp⟩

theorem safe_dropPacket {timeoutTick : UInt32} {recvSize : Nat} (hsize : 0 < recvSize) :
    ∀ (loopCnt : Nat) {pktLen : Nat} {r : Reader}, pktLen / recvSize = loopCnt → r.recvBuf.length = recvSize →
    Safe recvSize (dropPacket timeoutTick recvSize loopCnt pktLen r)
  | 0, pktLen, r, hdiv, hbuf => by
    have hlt : pktLen < recvSize := (Nat.div_eq_zero_iff_lt hsize).1 hdiv
    exact safe_read hbuf (by omega)
  | loopCnt + 1, pktLen, r, hdiv, hbuf => by
    have hge : recvSize ≤ pktLen := by
      rcases Nat.lt_or_ge pktLen recvSize with h | h
      · rw [Nat.div_eq_of_lt h] at hdiv
        omega
      · exact h
    have hread := @safe_read timeoutTick recvSize r 0 recvSize hbuf (by omega)
    rw [dropPacket]
    cases hr : r.read timeoutTick 0 recvSize with
    | error stop =>
      rw [hr] at hread
      exact hread
    | ok x =>
      rw [hr] at hread
      have := Nat.div_eq_sub_div hsize hge
      exact safe_dropPacket hsize loopCnt (by omega) hread

theorem safe_takePacket {timeoutTick : UInt32} {recvSize : Nat} {r : Reader} (hbuf : r.recvBuf.length = recvSize)
    (hsize : 5 ≤ recvSize) : Safe recvSize ((takePacket timeoutTick recvSize r).map Prod.snd) := by
  obtain ⟨hok, herr⟩ := safe_readHeader hbuf hsize
  unfold takePacket
  cases hheader : r.readHeader with
  | error stop =>
    cases stop with
    | waits => rfl
    | overrun => exact absurd hheader herr
  | ok x =>
    cases x with
    | none => exact hbuf
    | some r1 =>
      have hbuf1 := hok r1 hheader
      obtain ⟨hok2, herr2⟩ := @safe_readDigits timeoutTick recvSize hsize 4 0 0 1 r1 (Nat.le_refl 4) hbuf1
      dsimp only
      cases hdigits : readDigits timeoutTick MAX_NO_OF_REMAINING_LENGTH_BYTES 0 0 1 r1 with
      | error stop =>
        cases stop with
        | waits => rfl
        | overrun => exact absurd hdigits herr2
      | ok y =>
        obtain ⟨y, r2⟩ := y
        have hbuf2 := hok2 y r2 hdigits
        cases y with
        | error taken => exact hbuf2
        | ok z =>
          obtain ⟨cnt, pktLen⟩ := z
          dsimp only
          split
          · have := @safe_dropPacket timeoutTick recvSize (by omega) (pktLen / recvSize) pktLen r2 rfl hbuf2
            cases hdrop : dropPacket timeoutTick recvSize (pktLen / recvSize) pktLen r2 with
            | error stop => rw [hdrop] at this; exact this
            | ok r3 => rw [hdrop] at this; exact this
          · have := @safe_read timeoutTick recvSize r2 (cnt + 1) pktLen hbuf2 (by omega)
            cases hread : r2.read timeoutTick (cnt + 1) pktLen with
            | error stop => rw [hread] at this; exact this
            | ok x =>
              rw [hread] at this
              obtain ⟨ret, r3⟩ := x
              cases ret <;> exact this

/-- **The receive buffer is never overrun**, whatever the socket delivers and whenever. -/
theorem takePackets_never_overrun {timeoutTick : UInt32} {recvSize : Nat} (hsize : 5 ≤ recvSize) :
    ∀ (n : Nat) {r : Reader}, r.recvBuf.length = recvSize →
    takePackets timeoutTick recvSize n r ≠ .error .overrun ∧
      ∀ out r', takePackets timeoutTick recvSize n r = .ok (out, r') → r'.recvBuf.length = recvSize
  | 0, r, hbuf => ⟨by simp [takePackets], fun out r' h => by cases h; exact hbuf⟩
  | n + 1, r, hbuf => by
    have hsafe := @safe_takePacket timeoutTick recvSize r hbuf hsize
    rw [takePackets]
    cases htake : takePacket timeoutTick recvSize r with
    | error stop =>
      rw [htake] at hsafe
      cases hsafe
      exact ⟨by simp, fun out r' h => by cases h⟩
    | ok x =>
      rw [htake] at hsafe
      obtain ⟨taken, r1⟩ := x
      obtain ⟨hne, hlen⟩ := takePackets_never_overrun hsize n hsafe
      dsimp only
      cases hrun : takePackets timeoutTick recvSize n r1 with
      | error stop =>
        rw [hrun] at hne
        refine ⟨?_, fun out r' h => by cases h⟩
        intro he
        cases he
        exact hne rfl
      | ok y =>
        refine ⟨by simp [Except.map], fun out r' h => ?_⟩
        cases h
        exact hlen y.1 y.2 hrun

/-- A packet of 256 MiB announced to a buffer of eight bytes. -/
theorem takePackets_never_overrun_long :
    takePackets 100 8 1 ⟨[⟨.data [0x30, 0xFF, 0xFF, 0xFF, 0x7F, 1, 2, 3, 4, 5], 0⟩, ⟨.failed, 0⟩], 0, List.replicate 8 0⟩ ≠
      .error .overrun :=
  (@takePackets_never_overrun 100 8 (by decide) 1 _ rfl).1

end Stream
end Umqtt
end RtPay
