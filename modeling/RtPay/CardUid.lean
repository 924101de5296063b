import RtPay.CardReader
import RtPay.Lib.CStr
/-!
# CardUid — the UID as a string

The loop of `card_reader_loop` over the bytes of a UID, for every length and whatever the buffer held: the buffer has
room for the digits of 16 bytes and a terminator, and the loop stores those and no more.
-/
namespace RtPay
namespace CardReader

open Bytes CStr Iso14443

def lowerDigits : List Byte := text "0123456789abcdef"

/-- Two lowercase hexadecimal digits a byte, the high half first. -/
def lowerHex (bs : List Byte) : List Byte :=
  bs.flatMap (fun b => [lowerDigits.getD (b.toNat / 16) 0, lowerDigits.getD (b.toNat % 16) 0])

theorem hexDigit_eq : ∀ n : Fin 16, hexDigit n = lowerDigits.getD n 0 := by decide

theorem hexDigit_ne_zero : ∀ n : Fin 16, hexDigit n ≠ 0 := by decide

theorem hexDigit_inj : ∀ n m : Fin 16, hexDigit n = hexDigit m → n = m := by decide

theorem fmt02x_eq (b : Byte) : fmt02x b = [lowerDigits.getD (b.toNat / 16) 0, lowerDigits.getD (b.toNat % 16) 0] := by
  have hb := b.toNat_lt
  have hhigh := hexDigit_eq ⟨b.toNat / 16, by omega⟩
  have hlow := hexDigit_eq ⟨b.toNat % 16, by omega⟩
  rw [fmt02x, hhigh, hlow]

theorem lowerHex_concat (bs : List Byte) (b : Byte) : lowerHex (bs ++ [b]) = lowerHex bs ++ fmt02x b := by
  rw [lowerHex, List.flatMap_append, fmt02x_eq]
  simp [lowerHex]

theorem length_lowerHex (bs : List Byte) : (lowerHex bs).length = 2 * bs.length := by
  induction bs with
  | nil => rfl
  | cons b bs ih =>
    rw [lowerHex, List.flatMap_cons, List.length_append, ← lowerHex, ih, List.length_cons]
    simp only [List.length_cons, List.length_nil]
    omega

theorem zero_not_mem_lowerHex (bs : List Byte) : 0 ∉ lowerHex bs := by
  intro h0
  obtain ⟨b, -, hb⟩ := List.mem_flatMap.1 h0
  have hlt := b.toNat_lt
  rw [← fmt02x_eq, fmt02x] at hb
  rcases List.mem_cons.1 hb with hb | hb
  · exact hexDigit_ne_zero ⟨b.toNat / 16, by omega⟩ hb.symm
  · exact hexDigit_ne_zero ⟨b.toNat % 16, by omega⟩ (List.mem_singleton.1 hb).symm

theorem fmt02x_inj {b c : Byte} (h : fmt02x b = fmt02x c) : b = c := by
  have hb := b.toNat_lt
  have hc := c.toNat_lt
  obtain ⟨hhigh, hlow⟩ := List.cons.inj h
  have hhigh := hexDigit_inj ⟨b.toNat / 16, by omega⟩ ⟨c.toNat / 16, by omega⟩ hhigh
  have hlow := hexDigit_inj ⟨b.toNat % 16, by omega⟩ ⟨c.toNat % 16, by omega⟩ (List.cons.inj hlow).1
  rw [Fin.mk.injEq] at hhigh hlow
  exact UInt8.toNat_inj.1 (by omega)

theorem lowerHex_inj : ∀ {bs bs' : List Byte}, lowerHex bs = lowerHex bs' → bs = bs'
  | [], [], _ => rfl
  | [], b' :: bs', h => by
    have := congrArg List.length h
    rw [length_lowerHex, length_lowerHex] at this
    simp at this
  | b :: bs, [], h => by
    have := congrArg List.length h
    rw [length_lowerHex, length_lowerHex] at this
    simp at this
  | b :: bs, b' :: bs', h => by
    rw [lowerHex, lowerHex, List.flatMap_cons, List.flatMap_cons] at h
    obtain ⟨hb, hbs⟩ := List.append_inj h rfl
    rw [← fmt02x_eq, ← fmt02x_eq] at hb
    rw [fmt02x_inj hb, lowerHex_inj hbs]

/-! ## The loop -/

/-- A store behind a prefix of the buffer. -/
theorem storeUid_behind {evt : CardEvent} {done rest src : List Byte} (h : evt.uid = done ++ rest)
    (hfit : done.length + src.length ≤ sizeofCardUid) :
    ∃ evt', storeUid evt done.length src = some evt' ∧ evt'.uid = done ++ (src ++ rest.drop src.length) := by
  have hpoke : poke evt.uid done.length src = some (done ++ (src ++ rest.drop src.length)) := by
    rw [poke_of_le (by rw [evt.size]; exact hfit), h, List.take_left, List.append_assoc, ← List.drop_drop, List.drop_left]
  have hsize := length_of_poke hpoke
  refine ⟨⟨_, hsize.trans evt.size⟩, ?_, rfl⟩
  unfold storeUid
  split
  · rename_i hnone
    rw [hpoke] at hnone
    cases hnone
  · rename_i m hm
    rw [hpoke] at hm
    cases hm
    rfl

/-- A byte for which the buffer has room is printed behind the others, and terminated. -/
theorem printUid_byte {done rest : List Byte} {evt : CardEvent} (h : evt.uid = lowerHex done ++ rest)
    (hroom : done.length < 16) (b : Byte) (bs : List Byte) : ∃ evt' rest',
      evt'.uid = lowerHex (done ++ [b]) ++ 0 :: rest' ∧
      printUid (b :: bs) (2 * done.length) (sizeofCardUid - 2 * done.length) evt =
        printUid bs (2 * (done ++ [b]).length) (sizeofCardUid - 2 * (done ++ [b]).length) evt' := by
  have hsrc : (fmt02x b).take (sizeofCardUid - 2 * done.length - 1) ++ [0] = fmt02x b ++ [0] := by
    rw [List.take_of_length_le]
    simp only [fmt02x, List.length_cons, List.length_nil, sizeofCardUid]
    omega
  obtain ⟨evt', hstore, huid⟩ := @storeUid_behind evt (lowerHex done) rest (fmt02x b ++ [0]) h (by
    rw [length_lowerHex]
    simp only [fmt02x, List.length_append, List.length_cons, List.length_nil, sizeofCardUid]
    omega)
  rw [length_lowerHex] at hstore
  refine ⟨evt', rest.drop (fmt02x b ++ [0]).length, ?_, ?_⟩
  · rw [huid, lowerHex_concat]
    simp
  · rw [printUid, if_pos (by unfold sizeofCardUid; omega), hsrc, hstore, Option.bind_some, List.length_append,
      List.length_singleton]
    congr 1

/-- With the buffer full, one more byte stores the terminator again and the loop ends. -/
theorem printUid_full {done rest : List Byte} {evt : CardEvent} (h : evt.uid = lowerHex done ++ 0 :: rest)
    (hfull : done.length = 16) (b : Byte) (bs : List Byte) : ∃ evt' rest',
      evt'.uid = lowerHex done ++ 0 :: rest' ∧
      printUid (b :: bs) (2 * done.length) (sizeofCardUid - 2 * done.length) evt = some evt' := by
  obtain ⟨evt', hstore, huid⟩ := @storeUid_behind evt (lowerHex done) (0 :: rest) [0] h (by
    rw [length_lowerHex, hfull]
    decide)
  rw [length_lowerHex] at hstore
  refine ⟨evt', rest, huid, ?_⟩
  have hremaining : sizeofCardUid - 2 * done.length = 1 := by rw [hfull]; rfl
  rw [printUid, hremaining, if_pos Nat.one_pos, Nat.sub_self, List.take_zero, List.nil_append, hstore, Option.bind_some]
  cases bs with
  | nil => rfl
  | cons c bs => rw [printUid, if_neg (by decide)]

theorem printUid_behind : ∀ (bs done : List Byte) (evt : CardEvent) (rest : List Byte), done.length ≤ 16 →
    evt.uid = lowerHex done ++ 0 :: rest → ∃ evt' rest',
      printUid bs (2 * done.length) (sizeofCardUid - 2 * done.length) evt = some evt' ∧
      evt'.uid = lowerHex ((done ++ bs).take 16) ++ 0 :: rest'
  | [], done, evt, rest, hle, h => by
    refine ⟨evt, rest, rfl, ?_⟩
    rw [List.append_nil, List.take_of_length_le hle, h]
  | b :: bs, done, evt, rest, hle, h => by
    rcases Nat.lt_or_eq_of_le hle with hroom | hfull
    · obtain ⟨evt', rest', huid, hloop⟩ := printUid_byte h hroom b bs
      obtain ⟨evt'', rest'', hrest, hfinal⟩ := printUid_behind bs (done ++ [b]) evt' rest'
        (by rw [List.length_append, List.length_singleton]; omega) huid
      refine ⟨evt'', rest'', hloop.trans hrest, ?_⟩
      rw [hfinal, List.append_assoc]
      rfl
    · obtain ⟨evt', rest', huid, hloop⟩ := printUid_full h hfull b bs
      refine ⟨evt', rest', hloop, ?_⟩
      rw [huid, ← hfull, List.take_left]

/-- **The buffer behind the loop**: the digits of the first 16 bytes, and a terminator. -/
theorem printUid_uid {bs : List Byte} (hbs : bs ≠ []) (evt : CardEvent) : ∃ evt' rest,
    printUid bs 0 sizeofCardUid evt = some evt' ∧ evt'.uid = lowerHex (bs.take 16) ++ 0 :: rest := by
  obtain ⟨b, bs, rfl⟩ := List.exists_cons_of_ne_nil hbs
  obtain ⟨evt', rest', huid, hloop⟩ := @printUid_byte [] evt.uid evt rfl (by decide) b bs
  obtain ⟨evt'', rest'', hrest, hfinal⟩ := printUid_behind bs [b] evt' rest' (by simp) huid
  exact ⟨evt'', rest'', hloop.trans hrest, hfinal⟩

theorem message_of_uid {evt : CardEvent} {s rest : List Byte} (h : evt.uid = s ++ 0 :: rest) (hs : 0 ∉ s) :
    message evt = s := by
  have hpred : (fun c : Byte => decide (c ≠ 0)) = (fun c => c != 0) := by
    funext c
    by_cases hc : c = 0 <;> simp [hc]
  rw [message, h, hpred, takeWhile_ne_zero_append hs]

theorem message_printUid {bs : List Byte} (hbs : bs ≠ []) {evt evt' : CardEvent}
    (h : printUid bs 0 sizeofCardUid evt = some evt') : message evt' = lowerHex (bs.take 16) := by
  obtain ⟨evt'', rest, hprint, huid⟩ := printUid_uid hbs evt
  rw [h] at hprint
  cases hprint
  exact message_of_uid huid (zero_not_mem_lowerHex _)

/-- **A round reports the card it has read**, and nothing without one. -/
theorem round_reports (crc : Crc) (s : Reader) (r : Round) : ∃ t, round crc s r = some t ∧
    (∀ f uid f', piccIsNewCardPresent crc (place s.field r) = (true, f) →
      piccReadCardSerial crc s.uid f = (.ok, uid, f') → ∃ evt,
        printUid (uid.uidByte.take uid.size) 0 sizeofCardUid s.cardEvt = some evt ∧
        t.pushed = s.pushed ++ [evt] ∧ t.sent = s.sent ++ [message evt]) ∧
    ((∀ f uid f', piccIsNewCardPresent crc (place s.field r) = (true, f) →
      piccReadCardSerial crc s.uid f ≠ (.ok, uid, f')) → t.pushed = s.pushed ∧ t.sent = s.sent) := by
  cases hpresent : piccIsNewCardPresent crc (place s.field r) with
  | mk present f =>
    cases present with
    | false =>
      refine ⟨{ s with field := f }, by simp only [round, hpresent], ?_, fun _ => ⟨rfl, rfl⟩⟩
      rintro f' uid f'' ⟨⟩
    | true =>
      cases hread : piccReadCardSerial crc s.uid f with
      | mk status rest =>
        obtain ⟨uid, f'⟩ := rest
        by_cases hok : status = .ok
        · subst hok
          obtain ⟨evt, hprint⟩ :=
            printUid_some (uid.uidByte.take uid.size) 0 sizeofCardUid s.cardEvt (Or.inr (by omega))
          refine ⟨⟨f', uid, evt, s.pushed ++ [evt], s.sent ++ [message evt]⟩,
            by simp only [round, hpresent, hread, hprint, Option.map_some], ?_, fun hnone => ?_⟩
          · rintro g uid' g' ⟨⟩ hread'
            rw [hread] at hread'
            cases hread'
            exact ⟨evt, hprint, rfl, rfl⟩
          · exact absurd hread (hnone f uid f' rfl)
        · refine ⟨{ s with field := f', uid := uid }, by simp only [round, hpresent, hread], ?_, fun _ => ⟨rfl, rfl⟩⟩
          rintro g uid' g' ⟨⟩ hread'
          rw [hread] at hread'
          cases hread'
          exact absurd rfl hok

/-- **The UID is encoded in its buffer**: for every UID of at least one byte and every earlier contents, the digits of
its first 16 bytes and a terminator, nothing outside the buffer; up to 16 bytes the string says which UID it is; and
a round that reads a card pushes and sends the string of its UID, any other round nothing. -/
theorem uid_encoding (crc : Crc) :
    (∀ (bs : List Byte) (evt : CardEvent), bs ≠ [] → ∃ (evt' : CardEvent) (rest : List Byte),
      printUid bs 0 sizeofCardUid evt = some evt' ∧ evt'.uid = lowerHex (bs.take 16) ++ 0 :: rest ∧
      message evt' = lowerHex (bs.take 16)) ∧
    (∀ (bs bs' : List Byte) (evt evt' p p' : CardEvent), bs ≠ [] → bs' ≠ [] → bs.length ≤ 16 → bs'.length ≤ 16 →
      printUid bs 0 sizeofCardUid evt = some p → printUid bs' 0 sizeofCardUid evt' = some p' →
      (message p = message p' ↔ bs = bs')) ∧
    (∀ (s : Reader) (r : Round), ∃ t, round crc s r = some t ∧
      (∀ f uid f', piccIsNewCardPresent crc (place s.field r) = (true, f) →
        piccReadCardSerial crc s.uid f = (.ok, uid, f') → ∃ evt,
          printUid (uid.uidByte.take uid.size) 0 sizeofCardUid s.cardEvt = some evt ∧
          t.pushed = s.pushed ++ [evt] ∧ t.sent = s.sent ++ [message evt]) ∧
      ((∀ f uid f', piccIsNewCardPresent crc (place s.field r) = (true, f) →
        piccReadCardSerial crc s.uid f ≠ (.ok, uid, f')) → t.pushed = s.pushed ∧ t.sent = s.sent)) := by
  refine ⟨fun bs evt hbs => ?_, fun bs bs' evt evt' p p' hbs hbs' hle hle' hp hp' => ?_, round_reports crc⟩
  · obtain ⟨evt', rest, hprint, huid⟩ := printUid_uid hbs evt
    exact ⟨evt', rest, hprint, huid, message_printUid hbs hprint⟩
  · rw [message_printUid hbs hp, message_printUid hbs' hp', List.take_of_length_le hle, List.take_of_length_le hle']
    exact ⟨lowerHex_inj, congrArg lowerHex⟩

/-- A four-byte UID over a buffer full of another. -/
theorem uid_encoding_four : ∃ (evt' : CardEvent) (rest : List Byte),
    printUid [0xDE, 0xAD, 0xBE, 0xEF] 0 sizeofCardUid ⟨List.replicate 33 0x66, rfl⟩ = some evt' ∧
      evt'.uid = text "deadbeef" ++ 0 :: rest ∧ message evt' = text "deadbeef" :=
  (uid_encoding crcA).1 [0xDE, 0xAD, 0xBE, 0xEF] ⟨List.replicate 33 0x66, rfl⟩ (by decide)

end CardReader
end RtPay
