import Mathlib.Data.List.Induction
import RtPay.Event
import RtPay.Lib.Iso14443
import RtPay.Lib.Run
/-!
# CardReader — card_reader.c with the driver's PICC functions

One round of `card_reader_loop` against the card in the field, over a radio that loses nothing: a card that answers the
REQA is selected through its cascade levels and reported, and nothing halts it.  The next REQA finds it active, is not
answered and makes it idle again, so that a resting card is reported every second round: once for each presentation
exactly when no card stays longer than two rounds.
-/
namespace RtPay
namespace CardReader

open Bytes Iso14443

/-! ## The driver -/

inductive StatusCode
  | ok
  | error
  | collision
  | timeout
  | noRoom
  | internalError
  | crcWrong
  deriving DecidableEq

structure Uid where
  size : Nat
  uidByte : List Byte
  sak : Byte
  deriving DecidableEq

/-- What is in the field: a card with its state, or nothing. -/
abbrev Field := Option (Card × State)

/-- `PCD_TransceiveData` with room for `room` bytes: with one card in the field there is no collision. -/
def pcdTransceiveData (crc : Crc) (f : Field) (frame : Frame) (room : Nat) : StatusCode × List Byte × Field :=
  match f with
  | none => (.timeout, [], none)
  | some (c, s) =>
    match receive crc c s frame with
    | (s', none) => (.timeout, [], some (c, s'))
    | (s', some bs) => if bs.length > room then (.noRoom, [], some (c, s')) else (.ok, bs, some (c, s'))

def piccRequestA (crc : Crc) (f : Field) : StatusCode × Field :=
  match pcdTransceiveData crc f (.short reqa) 2 with
  | (.ok, atqa, f') => (if atqa.length ≠ 2 then .error else .ok, f')
  | (status, _, f') => (status, f')

def piccIsNewCardPresent (crc : Crc) (f : Field) : Bool × Field :=
  let (status, f') := piccRequestA crc f
  (status = .ok || status = .collision, f')

def overwrite (buffer : List Byte) (i : Nat) (src : List Byte) : List Byte :=
  buffer.take i ++ (src ++ buffer.drop (i + src.length))

def uidBytes (data : List Byte) : List Byte := if data.head? = some cascadeTag then data.drop 1 else data

/-- The loop `while (!selectDone)` of a cascade level, when nothing collides: an ANTICOLLISION, whose answer makes all
bits of the level known, then the SELECT with them.  `buf` is the buffer behind SEL and NVB, and the SAK comes back
with it. -/
def selectLevel (crc : Crc) (f : Field) (level : Nat) (buf : List Byte) : StatusCode × List Byte × List Byte × Field :=
  match pcdTransceiveData crc f (anticollision level) 7 with
  | (.ok, answer, f') =>
    let data := (overwrite buf 0 answer).take 4
    match pcdTransceiveData crc f' (select crc level data) 3 with
    | (.ok, sak, f'') => (.ok, overwrite (data ++ [bcc data, 0, 0]) 4 sak, sak, f'')
    | (status, _, f'') => (status, buf, [], f'')
  | (status, _, f') => (status, buf, [], f')

/-- The loop `while (!uidComplete)` of `PICC_Select`, with the levels that are left before its `default:` case. -/
def piccSelectFrom (crc : Crc) : Nat → Nat → List Byte → Uid → Field → StatusCode × Uid × Field
  | 0, _, _, uid, f => (.internalError, uid, f)
  | left + 1, level, buf, uid, f =>
    match selectLevel crc f level buf with
    | (.ok, buf', sak, f') =>
      let uid := { uid with uidByte := overwrite uid.uidByte (3 * (level - 1)) (uidBytes (buf'.take 4)) }
      if sak.length ≠ 3 then (.error, uid, f')
      else if sak ≠ withCrc crc (sak.take 1) then (.crcWrong, uid, f')
      else if sak.headD 0 &&& 0x04 ≠ 0 then
        piccSelectFrom crc left (level + 1) (overwrite buf' 0 (sak.drop 1)) uid f'
      else (.ok, { uid with sak := sak.headD 0, size := 3 * level + 1 }, f')
    | (status, _, _, f') => (status, uid, f')

def piccReadCardSerial (crc : Crc) (uid : Uid) (f : Field) : StatusCode × Uid × Field :=
  piccSelectFrom crc 3 1 (List.replicate 7 0) uid f

/-! ## The loop -/

def hexDigit (n : Nat) : Byte := if n < 10 then UInt8.ofNat (0x30 + n) else UInt8.ofNat (0x57 + n)

def fmt02x (b : Byte) : List Byte := [hexDigit (b.toNat / 16), hexDigit (b.toNat % 16)]

def storeUid (evt : CardEvent) (i : Nat) (src : List Byte) : Option CardEvent :=
  match h : poke evt.uid i src with
  | none => none
  | some m => some ⟨m, by rw [length_of_poke h, evt.size]⟩

/-- The `for` loop over the UID's bytes: `snprintf` stores at `dst` what fits into the remaining bytes. -/
def printUid : List Byte → Nat → Nat → CardEvent → Option CardEvent
  | [], _, _, evt => some evt
  | b :: bs, dst, remaining, evt =>
    if remaining > 0 then
      (storeUid evt dst ((fmt02x b).take (remaining - 1) ++ [0])).bind (printUid bs (dst + 2) (remaining - 2))
    else some evt

/-- The reader thread with the field; `pushed` and `sent` are the events and the messages of `mqtt_link_send` so far. -/
structure Reader where
  field : Field
  uid : Uid
  cardEvt : CardEvent
  pushed : List CardEvent
  sent : List (List Byte)

def Reader.start : Reader where
  field := none
  uid := ⟨0, List.replicate 10 0, 0⟩
  cardEvt := ⟨List.replicate sizeofCardUid 0, by simp⟩
  pushed := []
  sent := []

/-- What happens to the field before a poll: it is empty, a card has come into it, or it is as it was. -/
inductive Round
  | absent
  | enters (c : Card)
  | stays

def place (f : Field) : Round → Field
  | .absent => none
  | .enters c => some (c, .idle)
  | .stays => f

/-- The payload of the message: `strlen(card_evt.uid)` bytes. -/
def message (evt : CardEvent) : List Byte := evt.uid.takeWhile (· ≠ 0)

def round (crc : Crc) (s : Reader) (r : Round) : Option Reader :=
  match piccIsNewCardPresent crc (place s.field r) with
  | (false, f) => some { s with field := f }
  | (true, f) =>
    match piccReadCardSerial crc s.uid f with
    | (.ok, uid, f) =>
      (printUid (uid.uidByte.take uid.size) 0 sizeofCardUid s.cardEvt).map (fun evt =>
        { field := f, uid := uid, cardEvt := evt, pushed := s.pushed ++ [evt],
          sent := s.sent ++ [message evt] })
    | (_, uid, f) => some { s with field := f, uid := uid }

/-! ## A poll of the field -/

section
variable (crc : Crc) (c : Card)

theorem pcdTransceiveData_of_receive (room : Nat) {s s' : State} {frame : Frame} {bs : List Byte}
    (h : receive crc c s frame = (s', some bs)) (hroom : bs.length ≤ room) :
    pcdTransceiveData crc (some (c, s)) frame room = (.ok, bs, some (c, s')) := by
  simp only [pcdTransceiveData, h]
  rw [if_neg (by omega)]

theorem piccIsNewCardPresent_idle :
    piccIsNewCardPresent crc (some (c, .idle)) = (true, some (c, .ready 1 (levels c.uid))) := by
  simp [piccIsNewCardPresent, piccRequestA, pcdTransceiveData_of_receive crc c 2 (receive_reqa_idle crc c) (Nat.le_refl 2)]

theorem piccIsNewCardPresent_active :
    piccIsNewCardPresent crc (some (c, .active)) = (false, some (c, .idle)) := by
  simp [piccIsNewCardPresent, piccRequestA, pcdTransceiveData, receive_reqa_active]

theorem piccIsNewCardPresent_none : piccIsNewCardPresent crc none = (false, none) := rfl

/-- **One cascade level**: the card shows its four bytes, is selected with them and answers a SAK. -/
theorem selectLevel_ready {n : Nat} {level : List Byte} {todo : List (List Byte)} {s' : State} {sak : Byte}
    (hlevel : level.length = 4) (buf : List Byte)
    (hsel : receive crc c (.ready n (level :: todo)) (select crc n level) = (s', some (withCrc crc [sak]))) :
    selectLevel crc (some (c, .ready n (level :: todo))) n buf =
      (.ok, overwrite (level ++ [bcc level, 0, 0]) 4 (withCrc crc [sak]), withCrc crc [sak], some (c, s')) := by
  have hanswer := pcdTransceiveData_of_receive crc c 7 (receive_anticollision crc c n level todo)
    (by simp [hlevel])
  have hdata : (overwrite buf 0 (level ++ [bcc level])).take 4 = level := by
    rw [overwrite, List.take_zero, List.nil_append, List.append_assoc, ← hlevel, List.take_left]
  have hselect := pcdTransceiveData_of_receive crc c 3 hsel (by simp [withCrc])
  simp only [selectLevel, hanswer, hdata, hselect]

/-- **The cascade selects the card**, through all its levels. -/
theorem piccSelectFrom_ready : ∀ (todo : List (List Byte)) (level : List Byte) (left n : Nat) (buf : List Byte) (uid : Uid),
    (∀ l ∈ level :: todo, l.length = 4) → todo.length < left →
    ∃ uid', piccSelectFrom crc left n buf uid (some (c, .ready n (level :: todo))) = (.ok, uid', some (c, .active))
  | _, _, 0, _, _, _, _, hleft => absurd hleft (Nat.not_lt_zero _)
  | [], level, left + 1, n, buf, uid, hlen, _ => by
    rw [piccSelectFrom, selectLevel_ready crc c (hlen level List.mem_cons_self) buf (receive_select_last crc c n level)]
    simp [withCrc, c.complete]
  | next :: todo, level, left + 1, n, buf, uid, hlen, hleft => by
    rw [piccSelectFrom,
      selectLevel_ready crc c (hlen level List.mem_cons_self) buf (receive_select_more crc c n level next todo)]
    dsimp only
    rw [if_neg (by simp [withCrc]), if_neg (by simp [withCrc]),
      if_pos (show (withCrc crc [0x04]).headD 0 &&& 0x04 ≠ 0 from (by decide : (0x04 : Byte) &&& 0x04 ≠ 0))]
    exact piccSelectFrom_ready todo next left (n + 1) _ _ (fun l hl => hlen l (List.mem_cons_of_mem _ hl))
      (Nat.lt_of_succ_lt_succ hleft)

theorem piccReadCardSerial_ready (uid : Uid) :
    ∃ uid', piccReadCardSerial crc uid (some (c, .ready 1 (levels c.uid))) = (.ok, uid', some (c, .active)) := by
  obtain ⟨level, todo, hlevels, hle, hlen⟩ := levels_of_card c
  rw [hlevels]
  exact piccSelectFrom_ready crc c todo level 3 1 _ uid hlen (by omega)

end

/-! ## Printing the UID -/

theorem storeUid_of_le (evt : CardEvent) {i : Nat} {src : List Byte} (h : i + src.length ≤ sizeofCardUid) :
    ∃ evt', storeUid evt i src = some evt' := by
  unfold storeUid
  split
  · rename_i hnone
    have := poke_eq_none_iff.1 hnone
    rw [evt.size] at this
    omega
  · exact ⟨_, rfl⟩

theorem printUid_some : ∀ (bs : List Byte) (dst remaining : Nat) (evt : CardEvent),
    remaining = 0 ∨ dst + remaining ≤ sizeofCardUid → ∃ evt', printUid bs dst remaining evt = some evt'
  | [], _, _, evt, _ => ⟨evt, rfl⟩
  | b :: bs, dst, remaining, evt, h => by
    unfold printUid
    split
    · have hfit : dst + ((fmt02x b).take (remaining - 1) ++ [0]).length ≤ sizeofCardUid := by
        simp only [List.length_append, List.length_take, List.length_singleton]
        omega
      obtain ⟨evt', hevt⟩ := storeUid_of_le evt hfit
      obtain ⟨evt'', hrest⟩ := printUid_some bs (dst + 2) (remaining - 2) evt' (by omega)
      exact ⟨evt'', Option.bind_eq_some_iff.2 ⟨evt', hevt, hrest⟩⟩
    · exact ⟨evt, rfl⟩

/-! ## One round -/

/-- **An idle card is reported once** and left active. -/
theorem round_idle (crc : Crc) {s : Reader} {r : Round} {c : Card} (h : place s.field r = some (c, .idle)) :
    ∃ t evt, round crc s r = some t ∧ t.field = some (c, .active) ∧ t.pushed = s.pushed ++ [evt] ∧
      t.sent = s.sent ++ [message evt] := by
  obtain ⟨uid', hread⟩ := piccReadCardSerial_ready crc c s.uid
  obtain ⟨evt, hprint⟩ := printUid_some (uid'.uidByte.take uid'.size) 0 sizeofCardUid s.cardEvt (Or.inr (by omega))
  refine ⟨⟨some (c, .active), uid', evt, s.pushed ++ [evt], s.sent ++ [message evt]⟩, evt, ?_, rfl, rfl, rfl⟩
  simp only [round, h, piccIsNewCardPresent_idle, hread, hprint]
  rfl

theorem round_active (crc : Crc) {s : Reader} {r : Round} {c : Card} (h : place s.field r = some (c, .active)) :
    round crc s r = some { s with field := some (c, .idle) } := by
  simp only [round, h, piccIsNewCardPresent_active]

theorem round_none (crc : Crc) {s : Reader} {r : Round} (h : place s.field r = none) :
    round crc s r = some { s with field := none } := by
  simp only [round, h, piccIsNewCardPresent_none]

def Rests (f : Field) : Prop := f = none ∨ ∃ c, f = some (c, .idle) ∨ f = some (c, .active)

theorem rests_place {f : Field} (h : Rests f) (r : Round) : Rests (place f r) := by
  cases r with
  | absent => exact Or.inl rfl
  | enters c => exact Or.inr ⟨c, Or.inl rfl⟩
  | stays => exact h

theorem round_some (crc : Crc) {s : Reader} (h : Rests s.field) (r : Round) :
    ∃ t, round crc s r = some t ∧ Rests t.field := by
  rcases rests_place h r with hp | ⟨c, hp | hp⟩
  · exact ⟨_, round_none crc hp, Or.inl rfl⟩
  · obtain ⟨t, evt, ht, hf, -, -⟩ := round_idle crc hp
    exact ⟨t, ht, Or.inr ⟨c, Or.inr hf⟩⟩
  · exact ⟨_, round_active crc hp, Or.inr ⟨c, Or.inl rfl⟩⟩

theorem run_some (crc : Crc) (rs : List Round) :
    ∃ s, Run.run (round crc) .start rs = some s ∧ Rests s.field := by
  induction rs using List.reverseRecOn with
  | nil => exact ⟨_, rfl, Or.inl rfl⟩
  | append_singleton rs r ih =>
    obtain ⟨s, hs, hrest⟩ := ih
    obtain ⟨t, ht, hrest'⟩ := round_some crc hrest r
    exact ⟨t, Run.run_concat_some.2 ⟨s, hs, ht⟩, hrest'⟩

/-! ## One report for each presentation -/

def presentations (rs : List Round) : Nat :=
  rs.countP (fun r => match r with
    | .enters _ => true
    | _ => false)

/-- **One event and one message for each presentation**, at every time of the run. -/
def OncePerPresentation (crc : Crc) (rs : List Round) : Prop :=
  ∀ pre s, pre <+: rs → Run.run (round crc) .start pre = some s →
    s.pushed.length = presentations pre ∧ s.sent = s.pushed.map message

/-- A card stays for a third round. -/
def StaysThree (rs : List Round) : Prop := ∃ c, [.enters c, .stays, .stays] <:+: rs

/-- What the loop has done with cards that stay for two rounds at most. -/
structure Reported (pre : List Round) (s : Reader) : Prop where
  pushed : s.pushed.length = presentations pre
  sent : s.sent = s.pushed.map message
  field : s.field = none ∨ (∃ a c, pre = a ++ [.enters c] ∧ s.field = some (c, .active)) ∨
    ∃ a c, pre = a ++ [.enters c, .stays] ∧ s.field = some (c, .idle)

theorem presentations_concat (pre : List Round) (r : Round) :
    presentations (pre ++ [r]) = presentations pre + presentations [r] := by
  rw [presentations, List.countP_append]
  rfl

theorem reported_concat {crc : Crc} {pre : List Round} {r : Round} {s t : Reader} (h : Reported pre s)
    (hs : ¬ StaysThree (pre ++ [r])) (ht : round crc s r = some t) : Reported (pre ++ [r]) t := by
  have hquiet : ∀ f, presentations [r] = 0 → t = { s with field := f } →
      t.pushed.length = presentations (pre ++ [r]) ∧ t.sent = t.pushed.map message := by
    rintro f hr rfl
    rw [presentations_concat, hr]
    exact ⟨h.pushed, h.sent⟩
  cases r with
  | absent =>
    rw [round_none crc rfl] at ht
    obtain ⟨hp, hm⟩ := hquiet none rfl (Option.some.inj ht).symm
    exact ⟨hp, hm, Or.inl (by rw [← Option.some.inj ht])⟩
  | enters c =>
    obtain ⟨u, evt, hu, hf, hp, hm⟩ := round_idle crc (s := s) (r := .enters c) rfl
    rw [hu] at ht
    cases ht
    refine ⟨?_, ?_, Or.inr (Or.inl ⟨pre, c, rfl, hf⟩)⟩
    · rw [hp, List.length_append, h.pushed, presentations_concat]
      rfl
    · rw [hm, hp, h.sent, List.map_append]
      rfl
  | stays =>
    rcases h.field with hf | ⟨a, c, rfl, hf⟩ | ⟨a, c, rfl, hf⟩
    · rw [round_none crc (r := .stays) hf] at ht
      obtain ⟨hp, hm⟩ := hquiet none rfl (Option.some.inj ht).symm
      exact ⟨hp, hm, Or.inl (by rw [← Option.some.inj ht])⟩
    · rw [round_active crc (r := .stays) hf] at ht
      obtain ⟨hp, hm⟩ := hquiet _ rfl (Option.some.inj ht).symm
      exact ⟨hp, hm, Or.inr (Or.inr ⟨a, c, by simp, by rw [← Option.some.inj ht]⟩)⟩
    · exact absurd ⟨c, a, [], by simp⟩ hs

theorem reported_twice (crc : Crc) (s : Reader) (c : Card) :
    ∃ t, Run.run (round crc) s [.enters c, .stays, .stays] = some t ∧ t.pushed.length = s.pushed.length + 2 := by
  obtain ⟨s₁, e₁, h₁, hf₁, hp₁, -⟩ := round_idle crc (s := s) (r := .enters c) rfl
  have h₂ := round_active crc (s := s₁) (r := .stays) hf₁
  obtain ⟨s₃, e₃, h₃, -, hp₃, -⟩ := round_idle crc (s := { s₁ with field := some (c, .idle) }) (r := .stays) rfl
  refine ⟨s₃, ?_, ?_⟩
  · simp [Run.run, h₁, h₂, h₃]
  · rw [hp₃, List.length_append]
    show (s₁.pushed).length + 1 = _
    rw [hp₁, List.length_append]
    rfl

/-- **Each presentation of a card is reported exactly once, in every run in which no card stays for a third round, and
in no other.** -/
theorem oncePerPresentation_iff (crc : Crc) (rs : List Round) : OncePerPresentation crc rs ↔ ¬ StaysThree rs := by
  constructor
  · rintro h ⟨c, a, b, hrs⟩
    obtain ⟨s, hs, -⟩ := run_some crc a
    obtain ⟨t, ht, hlen⟩ := reported_twice crc s c
    have h₁ := (h a s ⟨[.enters c, .stays, .stays] ++ b, by rw [← hrs, List.append_assoc]⟩ hs).1
    have h₂ := (h (a ++ [.enters c, .stays, .stays]) t ⟨b, hrs⟩ (Run.run_append_some.2 ⟨s, hs, ht⟩)).1
    have h₃ : presentations (a ++ [.enters c, .stays, .stays]) = presentations a + 1 := by
      rw [presentations, List.countP_append]
      rfl
    omega
  · intro hs
    suffices hrep : ∀ pre, pre <+: rs → ∀ s, Run.run (round crc) .start pre = some s → Reported pre s by
      intro pre s hpre hrun
      exact ⟨(hrep pre hpre s hrun).pushed, (hrep pre hpre s hrun).sent⟩
    intro pre
    induction pre using List.reverseRecOn with
    | nil =>
      intro _ s hrun
      cases hrun
      exact ⟨rfl, rfl, Or.inl rfl⟩
    | append_singleton pre r ih =>
      intro hpre t hrun
      obtain ⟨s, hrun, ht⟩ := Run.run_concat_some.1 hrun
      refine reported_concat (ih ((List.prefix_append pre [r]).trans hpre) s hrun) ?_ ht
      rintro ⟨c, hc⟩
      exact hs ⟨c, hc.trans hpre.isInfix⟩

def tag : Card := ⟨[0xDE, 0xAD, 0xBE, 0xEF], Or.inl rfl, (0x04, 0x00), 0x08, by decide⟩

/-- **A card that rests on the reader for three rounds is swiped twice.** -/
theorem resting_card_swiped_twice :
    (Run.run (round crcA) .start [.enters tag, .stays, .stays]).map Reader.sent =
        some [text "deadbeef", text "deadbeef"] ∧
      ¬ OncePerPresentation crcA [.enters tag, .stays, .stays] := by
  have hsent : (Run.run (round crcA) .start [.enters tag, .stays, .stays]).map Reader.sent =
      some [text "deadbeef", text "deadbeef"] := by decide +kernel
  refine ⟨hsent, fun h => ?_⟩
  obtain ⟨s, hs, hsent⟩ := Option.map_eq_some_iff.1 hsent
  obtain ⟨hpushed, hmap⟩ := h _ s (List.prefix_refl _) hs
  have hlen := congrArg List.length hmap
  rw [hsent, List.length_map, hpushed] at hlen
  exact absurd hlen (by decide)

end CardReader
end RtPay
