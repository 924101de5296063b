import RtPay.MqttStores
import RtPay.MqttDecode
/-!
# MqttNumbers — the numbers a callback takes from a payload

A number goes from its text through `atoi` into a field of 16 or 32 bits, and every step takes what it gets: a text that
is no number reads as one, and a number too large for the field loses its high bits.  The event carries the integer that
is written exactly when it is an integer literal in the range of the field and, for the numbers of a config event, no
later name stores over it (`numbers_exact_iff`).
-/
namespace RtPay
namespace MqttLink

open Bytes CStr Jsmn Last

/-! ## Members and the values they have -/

/-- The value of a member that the chain takes for the name. -/
def takenFor (names : List (List Byte)) (n payload : List Byte) (kv : Tok × Tok) : Option Tok :=
  if selected names (tokText payload kv.1) = some n then some kv.2 else none

/-- The last member taken for the name decides its field. -/
def deciding (names : List (List Byte)) (n payload : List Byte) (toks : List Tok) : Option Tok :=
  last (takenFor names n payload) (keyPairs toks)

/-- The integer literal `z` stands in the payload for the value. -/
def Written (payload : List Byte) (v : Tok) (z : Int) : Prop := v.type = .primitive ∧ IntText (tokText payload v) z

/-- If the payload has the member, its integer is the one the event carries. -/
def Exact (payload : List Byte) (v : Option Tok) (carries : Int → Prop) : Prop :=
  ∀ t, v = some t → ∃ z, Written payload t z ∧ carries z

/-- If the payload has the member, it is an integer literal of the range. -/
def InRange (payload : List Byte) (v : Option Tok) (lo hi : Int) : Prop :=
  ∀ t, v = some t → ∃ z, Written payload t z ∧ lo ≤ z ∧ z ≤ hi

theorem exact_iff_inRange {payload : List Byte} {v : Option Tok} {carries : Int → Prop} {lo hi : Int}
    (h : ∀ t z, v = some t → Written payload t z → (carries z ↔ lo ≤ z ∧ z ≤ hi)) :
    Exact payload v carries ↔ InRange payload v lo hi := by
  constructor
  · intro he t ht
    obtain ⟨z, hz, hc⟩ := he t ht
    exact ⟨z, hz, (h t z ht hz).1 hc⟩
  · intro hr t ht
    obtain ⟨z, hz, hb⟩ := hr t ht
    exact ⟨z, hz, (h t z ht hz).2 hb⟩

theorem atoi_written {payload : List Byte} {v : Tok} {z : Int} (h : Written payload v z) :
    atoi (tokText payload v) = clampInt z := by
  rw [← atoi_terminated _ [], atoi_literal h.2]

/-! ## The casts -/

theorem narrow16_iff (z : Int) : ((UInt16.ofInt (clampInt z)).toNat : Int) = z ↔ 0 ≤ z ∧ z ≤ 65535 := by
  have hc := clampInt_cases z
  simp only [UInt16.ofInt, UInt16.toNat_ofNat']
  generalize clampInt z = n at hc ⊢
  unfold intMin intMax at hc
  omega

theorem narrow32_iff (z : Int) : ((UInt32.ofInt (clampInt z)).toNat : Int) = z ↔ 0 ≤ z ∧ z ≤ intMax := by
  have hc := clampInt_cases z
  simp only [UInt32.ofInt, UInt32.toNat_ofNat']
  generalize clampInt z = n at hc ⊢
  unfold intMin intMax at hc
  unfold intMax
  omega

/-- The service balance -1 comes as the largest unsigned number. -/
theorem balance_iff (z : Int) : (((UInt32.ofInt (clampInt z)).toNat : Int) = z ∨
    z = -1 ∧ (UInt32.ofInt (clampInt z)).toNat = 4294967295) ↔ -1 ≤ z ∧ z ≤ intMax := by
  rw [narrow32_iff]
  constructor
  · rintro (⟨h1, h2⟩ | ⟨rfl, -⟩)
    · exact ⟨by omega, h2⟩
    · exact ⟨by omega, by decide⟩
  · rintro ⟨h1, h2⟩
    by_cases h0 : 0 ≤ z
    · exact Or.inl ⟨h0, h2⟩
    · have hz : z = -1 := by omega
      subst hz
      exact Or.inr ⟨rfl, by decide⟩

theorem signed32_iff (z : Int) : (Int32.ofInt (clampInt z)).toInt = z ↔ intMin ≤ z ∧ z ≤ intMax := by
  have hc := clampInt_cases z
  have hrange : intMin ≤ clampInt z ∧ clampInt z ≤ intMax := by
    generalize clampInt z = n at hc ⊢
    unfold intMin intMax at *
    omega
  rw [toInt_ofInt32 hrange.1 hrange.2]
  generalize clampInt z = n at hc ⊢
  unfold intMin intMax at *
  omega

/-! ## Credit and enable events -/

theorem setPairs_credit (ps : List (List Byte × List Byte)) (credit : CreditEvt) :
    ∃ credit', setPairs setCredit ps credit = some credit' := by
  unfold setPairs
  exact foldlM_total (fun credit kv => setCredit_some credit kv.1 kv.2) ps credit

theorem setPairs_enable (ps : List (List Byte × List Byte)) (enableMsg : EnableEvt) :
    ∃ enableMsg', setPairs setEnable ps enableMsg = some enableMsg' := by
  unfold setPairs
  exact foldlM_total (fun enableMsg kv => setEnable_some enableMsg kv.1 kv.2) ps enableMsg

section Records

variable {payload : List Byte} {toks : List Tok}

theorem last_texts {β : Type} (g : List Byte × List Byte → Option β) :
    last g (textPairs payload toks) = last (fun kv => g (tokText payload kv.1, tokText payload kv.2)) (keyPairs toks) := by
  unfold last textPairs
  rw [List.filterMap_map]
  rfl

/-- A field that the members of one name assign is up to the last of them. -/
theorem field_of_setPairs {σ β : Type} {set : σ → List Byte → List Byte → Option σ} {names : List (List Byte)}
    {n : List Byte} (π : σ → β) (f : List Byte → β)
    (hset : ∀ s k v s', set s k v = some s' → π s' = if selected names k = some n then f v else π s)
    {ps : List (List Byte × List Byte)} {s s' : σ} (h : setPairs set ps s = some s') :
    π s' = (last (fun kv : List Byte × List Byte => if selected names kv.1 = some n then some (f kv.2) else none) ps).getD
      (π s) := by
  refine fold_last π (fun s kv s' hs => ?_) h
  rw [hset s kv.1 kv.2 s' hs]
  split <;> rfl

/-- In the payload, that is the member that decides the field. -/
theorem field_of_deciding {σ β : Type} {set : σ → List Byte → List Byte → Option σ} {names : List (List Byte)}
    {n : List Byte} (π : σ → β) (f : List Byte → β)
    (hset : ∀ s k v s', set s k v = some s' → π s' = if selected names k = some n then f v else π s) {s s' : σ}
    (h : setPairs set (textPairs payload toks) s = some s') :
    π s' = ((deciding names n payload toks).map (fun v => f (tokText payload v))).getD (π s) := by
  rw [field_of_setPairs π f hset h, last_texts, deciding, ← last_map]
  congr 2
  funext kv
  unfold takenFor
  split <;> rfl

end Records

/-! ## The numbers of a config event -/

def textsOf (payload : List Byte) (kvs : List (Tok × Tok)) : List (List Byte × List Byte) :=
  kvs.map (fun kv => (tokText payload kv.1, tokText payload kv.2))

theorem textPairs_split (payload : List Byte) {toks : List Tok} {A B : List (Tok × Tok)} {kv : Tok × Tok}
    (h : keyPairs toks = A ++ kv :: B) :
    textPairs payload toks = textsOf payload A ++ (tokText payload kv.1, tokText payload kv.2) :: textsOf payload B := by
  rw [textPairs, h, List.map_append, List.map_cons]
  rfl

/-- The field of `w` bytes at `off`: its last member, with the members `B` behind it, is an integer literal up to `hi`,
and each byte of it, be it the byte a later name stores there or else the one of the saturated integer, is the
integer's. -/
def Stands (payload n : List Byte) (off w : Nat) (hi : Int) (toks : List Tok) : Prop :=
  ∀ A t v B, keyPairs toks = A ++ (t, v) :: B → takenFor configNames n payload (t, v) = some v →
    (∀ q ∈ B, takenFor configNames n payload q = none) → ∃ z, Written payload v z ∧ 0 ≤ z ∧ z ≤ hi ∧
      ∀ i, i < w → (last (byteAt (off + i)) (textsOf payload B)).getD ((le w (min z intMax).toNat).getD i 0) =
        (le w z.toNat).getD i 0

theorem exact_iff_stands {payload n : List Byte} {toks : List Tok} {c : ConfigEvt} {off w val : Nat} {hi : Int}
    (hc : setPairs setConfig (textPairs payload toks) ConfigEvt.zero = some c) (hhi : hi = 256 ^ w - 1) (hlt : val < 256 ^ w)
    (hval : ∀ m, m < 256 ^ w → (val = m ↔ ∀ i, i < w → c.bytes.getD (off + i) 0 = (le w m).getD i 0))
    (hbyte : ∀ t v z i, takenFor configNames n payload (t, v) = some v → Written payload v z → 0 ≤ z → z ≤ hi → i < w →
      byteAt (off + i) (tokText payload t, tokText payload v) = some ((le w (min z intMax).toNat).getD i 0)) :
    Exact payload (deciding configNames n payload toks) (fun z => (val : Int) = z) ↔ Stands payload n off w hi toks := by
  have hbytes : ∀ A t v B z, keyPairs toks = A ++ (t, v) :: B → takenFor configNames n payload (t, v) = some v →
      Written payload v z → 0 ≤ z → z ≤ hi → ((val : Int) = z ↔ ∀ i, i < w →
        (last (byteAt (off + i)) (textsOf payload B)).getD ((le w (min z intMax).toNat).getD i 0) =
          (le w z.toNat).getD i 0) := by
    intro A t v B z hsplit htaken hz h0 hle
    have hcast : ((256 ^ w : Nat) : Int) = 256 ^ w := by push_cast; rfl
    have heq : (val : Int) = z ↔ val = z.toNat := by omega
    rw [heq, hval z.toNat (by omega)]
    refine forall_congr' (fun i => forall_congr' (fun hi => ?_))
    rw [byte_of_config hc, textPairs_split payload hsplit, last_append, last_cons, hbyte t v z i htaken hz h0 hle hi]
    cases last (byteAt (off + i)) (textsOf payload B) <;> rfl
  constructor
  · intro he A t v B hsplit htaken hB
    have hd : deciding configNames n payload toks = some v := by rw [deciding, hsplit, last_of_split htaken hB]
    obtain ⟨z, hz, hv⟩ := he v hd
    have hcast : ((256 ^ w : Nat) : Int) = 256 ^ w := by push_cast; rfl
    refine ⟨z, hz, by omega, by omega, (hbytes A t v B z hsplit htaken hz (by omega) (by omega)).1 hv⟩
  · intro hs v hd
    obtain ⟨A, ⟨t, v'⟩, B, hsplit, htaken, hB⟩ := exists_split hd
    have hv' : v' = v := by
      unfold takenFor at htaken
      split at htaken
      · exact Option.some.inj htaken
      · cases htaken
    subst hv'
    obtain ⟨z, hz, h0, hle, hall⟩ := hs A t v' B hsplit htaken hB
    exact ⟨z, hz, (hbytes A t v' B z hsplit htaken hz h0 hle).2 hall⟩

theorem selected_of_takenFor {names : List (List Byte)} {n payload : List Byte} {t v u : Tok}
    (h : takenFor names n payload (t, v) = some u) : selected names (tokText payload t) = some n := by
  unfold takenFor at h
  split at h
  · assumption
  · cases h

theorem toNat_clamp32 {z : Int} (h0 : 0 ≤ z) : (UInt32.ofInt (clampInt z)).toNat = (min z intMax).toNat := by
  have hc := clampInt_cases z
  simp only [UInt32.ofInt, UInt32.toNat_ofNat']
  generalize clampInt z = n at hc ⊢
  unfold intMin intMax at hc
  unfold intMax
  omega

theorem toNat_clamp16 {z : Int} (h0 : 0 ≤ z) (h : z ≤ 65535) :
    (UInt16.ofInt (clampInt z)).toNat = (min z intMax).toNat := by
  have hn := (narrow16_iff z).2 ⟨h0, h⟩
  unfold intMax
  omega

theorem byteAt_price {payload : List Byte} {t v : Tok} {z : Int} {i : Nat}
    (h : takenFor configNames (text "price") payload (t, v) = some v) (hz : Written payload v z) (h0 : 0 ≤ z) (hi : i < 4) :
    byteAt (16 + i) (tokText payload t, tokText payload v) = some ((le 4 (min z intMax).toNat).getD i 0) := by
  have hsel := selected_of_takenFor h
  have hname : nameOf (tokText payload t, tokText payload v) = none := by rw [nameOf, hsel, if_neg (by decide)]
  rw [byteAt_of_price hname (Nat.le_add_right _ _) (by omega), priceOf, hsel, if_pos rfl, Option.map_some,
    Nat.add_sub_cancel_left, atoi_written hz, toNat_clamp32 h0]

theorem byteAt_pulses {payload : List Byte} {t v : Tok} {z : Int} {i : Nat}
    (h : takenFor configNames (text "pulses") payload (t, v) = some v) (hz : Written payload v z) (h0 : 0 ≤ z)
    (hle : z ≤ 65535) (hi : i < 2) :
    byteAt (20 + i) (tokText payload t, tokText payload v) = some ((le 2 (min z intMax).toNat).getD i 0) := by
  have hsel := selected_of_takenFor h
  have hname : nameOf (tokText payload t, tokText payload v) = none := by rw [nameOf, hsel, if_neg (by decide)]
  rw [byteAt_of_pulses hname (Nat.le_add_right _ _) (by omega), pulsesOf, hsel, if_pos rfl, Option.map_some,
    Nat.add_sub_cancel_left, atoi_written hz, toNat_clamp16 h0 hle]

/-! ## The three callbacks -/

/-- No event, or an event whose count and balance are the integers written; the balance -1 may come as `2^32 - 1`. -/
def CreditExact (payload tail : List Byte) : Prop :=
  mqttAddCoinsCallback payload tail = some [] ∨ ∃ p e, jsmnParse payload MQTT_MAX_JSON_TOKENS = .ok p ∧
    mqttAddCoinsCallback payload tail = some [.credit e] ∧
    Exact payload (deciding creditNames (text "count") payload p.tokens) (fun z => (e.count.toNat : Int) = z) ∧
    Exact payload (deciding creditNames (text "balance") payload p.tokens)
      (fun z => (e.balance.toNat : Int) = z ∨ z = -1 ∧ e.balance.toNat = 4294967295)

def EnableExact (payload tail : List Byte) : Prop :=
  mqttEnableCallback payload tail = some [] ∨ ∃ p e, jsmnParse payload MQTT_MAX_JSON_TOKENS = .ok p ∧
    mqttEnableCallback payload tail = some [.enable e] ∧
    Exact payload (deciding enableNames (text "enable") payload p.tokens) (fun z => e.enable.toInt = z)

def ConfigExact (payload tail : List Byte) : Prop :=
  mqttConfigCallback payload tail = some [] ∨ ∃ p c, jsmnParse payload MQTT_MAX_JSON_TOKENS = .ok p ∧
    mqttConfigCallback payload tail = some [.config c] ∧
    Exact payload (deciding configNames (text "price") payload p.tokens) (fun z => (c.price.toNat : Int) = z) ∧
    Exact payload (deciding configNames (text "pulses") payload p.tokens) (fun z => (c.pulsesPerCredit.toNat : Int) = z)

def CreditInRange (payload : List Byte) : Prop :=
  ∀ p, jsmnParse payload MQTT_MAX_JSON_TOKENS = .ok p →
    InRange payload (deciding creditNames (text "count") payload p.tokens) 0 65535 ∧
    InRange payload (deciding creditNames (text "balance") payload p.tokens) (-1) intMax

def EnableInRange (payload : List Byte) : Prop :=
  ∀ p, jsmnParse payload MQTT_MAX_JSON_TOKENS = .ok p →
    InRange payload (deciding enableNames (text "enable") payload p.tokens) intMin intMax

/-- No name runs past the structure, and price and pulses stand. -/
def ConfigInRange (payload : List Byte) : Prop :=
  ∀ p, jsmnParse payload MQTT_MAX_JSON_TOKENS = .ok p →
    (∀ kv ∈ textPairs payload p.tokens, ∀ s, nameOf kv = some s → s.length ≤ sizeofConfigEvt) ∧
    Stands payload (text "price") 16 4 4294967295 p.tokens ∧ Stands payload (text "pulses") 20 2 65535 p.tokens

/-- A callback pushes nothing for a payload jsmn refuses, and one event of its pairs otherwise. -/
theorem exact_iff {σ : Type} {onKey : σ → List Byte → Nat → List Byte → Nat → Option σ}
    {set : σ → List Byte → List Byte → Option σ} (hr : Reads onKey set) (zero : σ) {event : σ → Event}
    (hevent : ∀ x y, event x = event y → x = y) (payload : List Byte) (b : Byte) (tail : List Byte)
    (Q : Parser → σ → Prop) :
    (mqttCallback onKey zero event payload (b :: tail) = some [] ∨
      ∃ p e, jsmnParse payload MQTT_MAX_JSON_TOKENS = .ok p ∧
        mqttCallback onKey zero event payload (b :: tail) = some [event e] ∧ Q p e) ↔
    ∀ p, jsmnParse payload MQTT_MAX_JSON_TOKENS = .ok p → ∃ e, setPairs set (textPairs payload p.tokens) zero = some e ∧ Q p e := by
  cases hp : jsmnParse payload MQTT_MAX_JSON_TOKENS with
  | error err =>
    refine iff_of_true (Or.inl ?_) (by rintro p ⟨⟩)
    rw [mqttCallback, hp]
  | ok p =>
    rw [mqttCallback_pairs hr zero event hp]
    constructor
    · rintro (h | ⟨p', e, ⟨⟩, h, hq⟩) p'' ⟨⟩
      · obtain ⟨x, -, hx⟩ := Option.map_eq_some_iff.1 h
        cases hx
      · obtain ⟨x, hset, hx⟩ := Option.map_eq_some_iff.1 h
        have he := hevent x e (List.cons.inj hx).1
        subst he
        exact ⟨x, hset, hq⟩
    · intro h
      obtain ⟨e, hset, hq⟩ := h p rfl
      exact Or.inr ⟨p, e, rfl, by rw [hset, Option.map_some], hq⟩

theorem creditExact_iff (payload : List Byte) (b : Byte) (tail : List Byte) :
    CreditExact payload (b :: tail) ↔ CreditInRange payload := by
  refine (exact_iff reads_credit (⟨0, 0⟩ : CreditEvt) (fun x y h => by cases h; rfl) payload b tail
    (fun p e => Exact payload (deciding creditNames (text "count") payload p.tokens) (fun z => (e.count.toNat : Int) = z) ∧
      Exact payload (deciding creditNames (text "balance") payload p.tokens)
        (fun z => (e.balance.toNat : Int) = z ∨ z = -1 ∧ e.balance.toNat = 4294967295))).trans ?_
  refine forall_congr' (fun p => forall_congr' (fun _ => ?_))
  obtain ⟨e, he⟩ := setPairs_credit (textPairs payload p.tokens) ⟨0, 0⟩
  have hcount := field_of_deciding CreditEvt.count (fun s => UInt16.ofInt (atoi s))
    (fun _ _ _ _ h => (fields_of_setCredit h).2) he
  have hbalance := field_of_deciding CreditEvt.balance (fun s => UInt32.ofInt (atoi s))
    (fun _ _ _ _ h => (fields_of_setCredit h).1) he
  have hfields : (Exact payload (deciding creditNames (text "count") payload p.tokens) (fun z => (e.count.toNat : Int) = z) ∧
      Exact payload (deciding creditNames (text "balance") payload p.tokens)
        (fun z => (e.balance.toNat : Int) = z ∨ z = -1 ∧ e.balance.toNat = 4294967295)) ↔
      (InRange payload (deciding creditNames (text "count") payload p.tokens) 0 65535 ∧
        InRange payload (deciding creditNames (text "balance") payload p.tokens) (-1) intMax) := by
    refine and_congr (exact_iff_inRange (fun t z ht hz => ?_)) (exact_iff_inRange (fun t z ht hz => ?_))
    · rw [hcount, ht, Option.map_some, Option.getD_some, atoi_written hz]
      exact narrow16_iff z
    · rw [hbalance, ht, Option.map_some, Option.getD_some, atoi_written hz]
      exact balance_iff z
  rw [← hfields, he]
  simp

theorem enableExact_iff (payload : List Byte) (b : Byte) (tail : List Byte) :
    EnableExact payload (b :: tail) ↔ EnableInRange payload := by
  refine (exact_iff reads_enable (⟨0⟩ : EnableEvt) (fun x y h => by cases h; rfl) payload b tail
    (fun p e => Exact payload (deciding enableNames (text "enable") payload p.tokens) (fun z => e.enable.toInt = z))).trans ?_
  refine forall_congr' (fun p => forall_congr' (fun _ => ?_))
  obtain ⟨e, he⟩ := setPairs_enable (textPairs payload p.tokens) ⟨0⟩
  have henable := field_of_deciding EnableEvt.enable (fun s => Int32.ofInt (atoi s))
    (fun _ _ _ _ h => field_of_setEnable h) he
  have hfield : Exact payload (deciding enableNames (text "enable") payload p.tokens) (fun z => e.enable.toInt = z) ↔
      InRange payload (deciding enableNames (text "enable") payload p.tokens) intMin intMax := by
    refine exact_iff_inRange (fun t z ht hz => ?_)
    rw [henable, ht, Option.map_some, Option.getD_some, atoi_written hz]
    exact signed32_iff z
  rw [← hfield, he]
  simp

theorem configExact_iff (payload : List Byte) (b : Byte) (tail : List Byte) :
    ConfigExact payload (b :: tail) ↔ ConfigInRange payload := by
  refine (exact_iff reads_config ConfigEvt.zero (fun x y h => by cases h; rfl) payload b tail
    (fun p c => Exact payload (deciding configNames (text "price") payload p.tokens) (fun z => (c.price.toNat : Int) = z) ∧
      Exact payload (deciding configNames (text "pulses") payload p.tokens)
        (fun z => (c.pulsesPerCredit.toNat : Int) = z))).trans ?_
  refine forall_congr' (fun p => forall_congr' (fun _ => ?_))
  have hfields : ∀ c, setPairs setConfig (textPairs payload p.tokens) ConfigEvt.zero = some c →
      ((Exact payload (deciding configNames (text "price") payload p.tokens) (fun z => (c.price.toNat : Int) = z) ∧
        Exact payload (deciding configNames (text "pulses") payload p.tokens)
          (fun z => (c.pulsesPerCredit.toNat : Int) = z)) ↔
      (Stands payload (text "price") 16 4 4294967295 p.tokens ∧ Stands payload (text "pulses") 20 2 65535 p.tokens)) := by
    intro c hc
    refine and_congr ?_ ?_
    · exact exact_iff_stands hc (by decide) c.price.toNat_lt (fun m hm => price_eq_iff c hm)
        (fun t v z i ht hz h0 _ hi => byteAt_price ht hz h0 hi)
    · exact exact_iff_stands hc (by decide) c.pulsesPerCredit.toNat_lt (fun m hm => pulsesPerCredit_eq_iff c hm)
        (fun t v z i ht hz h0 hle hi => byteAt_pulses ht hz h0 hle hi)
  constructor
  · rintro ⟨c, hc, hq⟩
    exact ⟨setPairs_config_iff.1 ⟨c, hc⟩, (hfields c hc).1 hq⟩
  · rintro ⟨hfit, hs⟩
    obtain ⟨c, hc⟩ := setPairs_config_iff.2 hfit
    exact ⟨c, hc, (hfields c hc).2 hs⟩

/-- **An event carries the integers that are written** exactly when the members that decide its numbers are integer
literals in range and, in a config event, no name is in their way. -/
theorem numbers_exact_iff (payload : List Byte) (b : Byte) (tail : List Byte) :
    (ConfigExact payload (b :: tail) ↔ ConfigInRange payload) ∧
      (CreditExact payload (b :: tail) ↔ CreditInRange payload) ∧
      (EnableExact payload (b :: tail) ↔ EnableInRange payload) :=
  ⟨configExact_iff payload b tail, creditExact_iff payload b tail, enableExact_iff payload b tail⟩

theorem eq_of_intText_digits {c : Byte} {t : List Byte} {z : Int} (hc : c ≠ 45) (h : IntText (c :: t) z) :
    z = decVal (c :: t) := by
  rcases h with ⟨-, hz⟩ | ⟨u, hu, -⟩
  · exact hz
  · exact absurd (List.cons.inj hu).1 hc

/-- 65537 credits become one. -/
theorem wrapped_count : mqttAddCoinsCallback (text "\x7b\"count\":65537\x7d") [0] = some [.credit ⟨1, 0⟩] ∧
    ¬ CreditExact (text "\x7b\"count\":65537\x7d") [0] := by
  have hcall : mqttAddCoinsCallback (text "\x7b\"count\":65537\x7d") [0] = some [.credit ⟨1, 0⟩] := by decide
  refine ⟨hcall, ?_⟩
  rintro (h | ⟨p, e, hp, he, hcount, -⟩)
  · rw [hcall] at h; cases h
  · rw [hcall] at he
    cases he
    have hparse : jsmnParse (text "\x7b\"count\":65537\x7d") MQTT_MAX_JSON_TOKENS =
        .ok ⟨15, none, [⟨.object, 0, some 15, 1⟩, ⟨.string, 2, some 7, 1⟩, ⟨.primitive, 9, some 14, 0⟩], 3⟩ := by decide
    rw [hparse] at hp
    cases hp
    obtain ⟨z, ⟨-, hz⟩, hone⟩ := hcount ⟨.primitive, 9, some 14, 0⟩ (by decide)
    have h := eq_of_intText_digits (c := 54) (t := text "5537") (by decide) hz
    rw [h] at hone
    exact absurd hone (by decide)

end MqttLink
end RtPay
