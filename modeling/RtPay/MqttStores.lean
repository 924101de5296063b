import Mathlib.Data.List.Induction
import RtPay.Lib.Last
import RtPay.MqttPairs
/-!
# MqttStores — the bytes of a config event

What a config message stores, byte by byte: a name at the front of the event by its own length, the numbers in their
fields.  A byte ends with the last store on it (`byte_of_config`).  A name too long for its field leaves everything
behind the field alone exactly when it agrees with what is there: with the numbers given before it (`numbers_alone_iff`).
-/
namespace RtPay
namespace MqttLink

open Bytes CStr Jsmn Last

/-! ## Members by the field they are taken for -/

def nameOf (kv : List Byte × List Byte) : Option (List Byte) :=
  if selected configNames kv.1 = some (text "name") then some kv.2 else none

def priceOf (kv : List Byte × List Byte) : Option UInt32 :=
  if selected configNames kv.1 = some (text "price") then some (UInt32.ofInt (atoi kv.2)) else none

def pulsesOf (kv : List Byte × List Byte) : Option UInt16 :=
  if selected configNames kv.1 = some (text "pulses") then some (UInt16.ofInt (atoi kv.2)) else none

/-- The byte of the event that a member stores at `j`. -/
def byteAt (j : Nat) (kv : List Byte × List Byte) : Option Byte :=
  match nameOf kv with
  | some s => s[j]?
  | none =>
    match priceOf kv with
    | some v => if 16 ≤ j then (le 4 v.toNat)[j - 16]? else none
    | none =>
      match pulsesOf kv with
      | some v => if 20 ≤ j then (le 2 v.toNat)[j - 20]? else none
      | none => none

/-- The numbers as the price and pulses members alone give them. -/
def priceAlone (ps : List (List Byte × List Byte)) : UInt32 := (last priceOf ps).getD 0

def pulsesAlone (ps : List (List Byte × List Byte)) : UInt16 := (last pulsesOf ps).getD 0

/-- The byte of these numbers at `j` of the event. -/
def numberByte (ps : List (List Byte × List Byte)) (j : Nat) : Byte :=
  if j < 20 then (le 4 (priceAlone ps).toNat).getD (j - 16) 0 else (le 2 (pulsesAlone ps).toNat).getD (j - 20) 0

theorem priceOf_of_nameOf {kv : List Byte × List Byte} {s : List Byte} (h : nameOf kv = some s) : priceOf kv = none := by
  unfold nameOf at h
  split at h
  · rename_i hs
    rw [priceOf, hs, if_neg (by decide)]
  · cases h

theorem pulsesOf_of_nameOf {kv : List Byte × List Byte} {s : List Byte} (h : nameOf kv = some s) : pulsesOf kv = none := by
  unfold nameOf at h
  split at h
  · rename_i hs
    rw [pulsesOf, hs, if_neg (by decide)]
  · cases h

theorem pulsesOf_of_priceOf {kv : List Byte × List Byte} {v : UInt32} (h : priceOf kv = some v) : pulsesOf kv = none := by
  unfold priceOf at h
  split at h
  · rename_i hs
    rw [pulsesOf, hs, if_neg (by decide)]
  · cases h

/-- The branch of the chain, by the field a member is taken for. -/
theorem setConfig_eq (c : ConfigEvt) (kv : List Byte × List Byte) : setConfig c kv.1 kv.2 =
    match nameOf kv with
    | some s => c.store 0 s
    | none =>
      match priceOf kv with
      | some v => some (c.setPrice v)
      | none =>
        match pulsesOf kv with
        | some v => some (c.setPulses v)
        | none => some c := by
  unfold setConfig nameOf priceOf pulsesOf
  cases hs : selected configNames kv.1 with
  | none => simp
  | some n =>
    have hn : n ∈ configNames := List.mem_of_find?_eq_some hs
    simp only [configNames, List.mem_cons, List.not_mem_nil, or_false] at hn
    have hpn : text "price" ≠ text "name" := by decide
    have hqn : text "pulses" ≠ text "name" := by decide
    have hqp : text "pulses" ≠ text "price" := by decide
    rcases hn with rfl | rfl | rfl
    · simp
    · simp [hpn]
    · simp [hqn, hqp]

/-! ## One byte over a message -/

theorem getD_of_poke {m m' src : List Byte} {i : Nat} (h : poke m i src = some m') (j : Nat) :
    m'.getD j 0 = (if i ≤ j then src[j - i]? else none).getD (m.getD j 0) := by
  simp only [List.getD_eq_getElem?_getD]
  rw [getElem?_of_poke h]
  by_cases hi : i ≤ j
  · by_cases hj : j < i + src.length
    · rw [if_pos ⟨hi, hj⟩, if_pos hi, List.getElem?_eq_getElem (by omega)]
      rfl
    · have hnone : src[j - i]? = none := List.getElem?_eq_none (by omega)
      rw [if_neg (fun hc => hj hc.2), if_pos hi, hnone]
      rfl
  · rw [if_neg (fun hc => hi hc.1), if_neg hi]
    rfl

theorem byte_of_setConfig (j : Nat) (c : ConfigEvt) (kv : List Byte × List Byte) (c' : ConfigEvt)
    (h : setConfig c kv.1 kv.2 = some c') : c'.bytes.getD j 0 = (byteAt j kv).getD (c.bytes.getD j 0) := by
  rw [setConfig_eq] at h
  unfold byteAt
  cases hn : nameOf kv with
  | some s =>
    rw [hn] at h
    rw [getD_of_poke (ConfigEvt.store_eq_some_iff.1 h) j, if_pos (Nat.zero_le j)]
    rfl
  | none =>
    rw [hn] at h
    cases hp : priceOf kv with
    | some v =>
      rw [hp] at h
      cases h
      exact getD_of_poke (ConfigEvt.poke_setPrice c v) j
    | none =>
      rw [hp] at h
      cases hq : pulsesOf kv with
      | some v =>
        rw [hq] at h
        cases h
        exact getD_of_poke (ConfigEvt.poke_setPulses c v) j
      | none =>
        rw [hq] at h
        cases h
        rfl

/-- **A byte of the event is the last one stored there**, and zero without any. -/
theorem byte_of_config {ps : List (List Byte × List Byte)} {c : ConfigEvt} (h : setPairs setConfig ps ConfigEvt.zero = some c)
    (j : Nat) : c.bytes.getD j 0 = (last (byteAt j) ps).getD 0 := by
  have hzero : ConfigEvt.zero.bytes.getD j 0 = 0 := by
    rw [List.getD_eq_getElem?_getD, ConfigEvt.zero, List.getElem?_replicate]
    split <;> rfl
  rw [fold_last (fun c : ConfigEvt => c.bytes.getD j 0) (byte_of_setConfig j) h, hzero]

/-- The message has an event as long as every name lies inside the structure. -/
theorem setPairs_config_iff {ps : List (List Byte × List Byte)} : (∃ c, setPairs setConfig ps ConfigEvt.zero = some c) ↔
    ∀ kv ∈ ps, ∀ s, nameOf kv = some s → s.length ≤ sizeofConfigEvt := by
  constructor
  · rintro ⟨c, hc⟩ kv hkv s hs
    obtain ⟨d, d', hd⟩ := step_of_foldlM hc kv hkv
    rw [setConfig_eq, hs] at hd
    have hpoke := ConfigEvt.store_eq_some_iff.1 hd
    by_contra hlong
    rw [poke_eq_none_iff.2 (by rw [d.size]; omega)] at hpoke
    cases hpoke
  · intro h
    have hfits : ∀ (c : ConfigEvt) kv, (∀ s, nameOf kv = some s → s.length ≤ sizeofConfigEvt) →
        ∃ c', setConfig c kv.1 kv.2 = some c' := by
      intro c kv hok
      rw [setConfig_eq]
      cases hn : nameOf kv with
      | some s => exact c.store_of_le 0 s (by rw [Nat.zero_add]; exact hok s hn)
      | none => cases priceOf kv <;> cases pulsesOf kv <;> exact ⟨_, rfl⟩
    exact foldlM_isSome hfits _ h

/-! ## The numbers of an event -/

theorem price_eq_iff (c : ConfigEvt) {n : Nat} (hn : n < 256 ^ 4) :
    c.price.toNat = n ↔ ∀ i, i < 4 → c.bytes.getD (16 + i) 0 = (le 4 n).getD i 0 := by
  rw [c.toNat_price, leVal_peek_iff (by rw [c.size]; decide) hn]

theorem pulsesPerCredit_eq_iff (c : ConfigEvt) {n : Nat} (hn : n < 256 ^ 2) :
    c.pulsesPerCredit.toNat = n ↔ ∀ i, i < 2 → c.bytes.getD (20 + i) 0 = (le 2 n).getD i 0 := by
  rw [c.toNat_pulsesPerCredit, leVal_peek_iff (by rw [c.size]; decide) hn]

theorem getD_le_eq_getElem? {w n i : Nat} (hi : i < w) : (le w n)[i]? = some ((le w n).getD i 0) := by
  rw [List.getD_eq_getElem?_getD, List.getElem?_eq_getElem (by rw [length_le]; exact hi), Option.getD_some]

theorem getD_le_zero (w i : Nat) : (le w 0).getD i 0 = 0 := by
  rw [le_zero, List.getD_eq_getElem?_getD, List.getElem?_replicate]
  split <;> rfl

/-- On a byte of the price, a member that is no name stores its price. -/
theorem byteAt_of_price {kv : List Byte × List Byte} (hn : nameOf kv = none) {j : Nat} (h16 : 16 ≤ j) (h20 : j < 20) :
    byteAt j kv = (priceOf kv).map (fun v => (le 4 v.toNat).getD (j - 16) 0) := by
  rw [byteAt, hn]
  cases priceOf kv with
  | some v =>
    dsimp only
    rw [if_pos h16, getD_le_eq_getElem? (by omega)]
    rfl
  | none =>
    cases pulsesOf kv with
    | some v => dsimp only; rw [if_neg (by omega)]; rfl
    | none => rfl

theorem byteAt_of_pulses {kv : List Byte × List Byte} (hn : nameOf kv = none) {j : Nat} (h20 : 20 ≤ j) (h22 : j < 22) :
    byteAt j kv = (pulsesOf kv).map (fun v => (le 2 v.toNat).getD (j - 20) 0) := by
  rw [byteAt, hn]
  cases hp : priceOf kv with
  | some v =>
    dsimp only
    rw [if_pos (by omega), List.getElem?_eq_none (by rw [length_le]; omega), pulsesOf_of_priceOf hp]
    rfl
  | none =>
    cases pulsesOf kv with
    | some v =>
      dsimp only
      rw [if_pos h20, getD_le_eq_getElem? (by omega)]
      rfl
    | none => rfl

/-- Without the names, a byte that one field alone assigns is up to the last member of the field. -/
theorem byte_of_field {γ : Type} {j : Nat} (fieldOf : List Byte × List Byte → Option γ) {f : γ → Byte} {zero : γ}
    (hzero : f zero = 0) (hbyte : ∀ kv, nameOf kv = none → byteAt j kv = (fieldOf kv).map f)
    (hname : ∀ kv s, nameOf kv = some s → fieldOf kv = none) (ps : List (List Byte × List Byte)) :
    (last (byteAt j) (ps.filter (fun kv => nameOf kv = none))).getD 0 = f ((last fieldOf ps).getD zero) := by
  have hkept : last (byteAt j) (ps.filter (fun kv => nameOf kv = none)) = last (fun kv => (fieldOf kv).map f) ps := by
    refine last_filter_eq (fun kv _ hn => hbyte kv hn) (fun kv _ hn => ?_)
    obtain ⟨s, hs⟩ := Option.ne_none_iff_exists'.1 hn
    rw [hname kv s hs, Option.map_none]
  rw [hkept, last_map, ← hzero, Option.getD_map]

theorem byteAt_of_padding {kv : List Byte × List Byte} (hn : nameOf kv = none) {j : Nat} (h22 : 22 ≤ j) :
    byteAt j kv = none := by
  rw [byteAt, hn]
  cases priceOf kv with
  | some v =>
    dsimp only
    rw [if_pos (by omega), List.getElem?_eq_none (by rw [length_le]; omega)]
  | none =>
    cases pulsesOf kv with
    | some v =>
      dsimp only
      rw [if_pos (by omega), List.getElem?_eq_none (by rw [length_le]; omega)]
    | none => rfl

/-- Without the names, the bytes behind their field are those of the last price and the last pulses. -/
theorem numberByte_eq (ps : List (List Byte × List Byte)) {j : Nat} (h16 : 16 ≤ j) :
    (last (byteAt j) (ps.filter (fun kv => nameOf kv = none))).getD 0 = numberByte ps j := by
  unfold numberByte
  split
  · rename_i h20
    exact byte_of_field priceOf (getD_le_zero 4 _) (fun _ hn => byteAt_of_price hn h16 h20)
      (fun _ _ => priceOf_of_nameOf) ps
  · rename_i h20
    by_cases h22 : j < 22
    · exact byte_of_field pulsesOf (getD_le_zero 2 _) (fun _ hn => byteAt_of_pulses hn (by omega) h22)
        (fun _ _ => pulsesOf_of_nameOf) ps
    · have hnone : ∀ kv ∈ ps.filter (fun kv => nameOf kv = none), byteAt j kv = none := fun kv hkv =>
        byteAt_of_padding (of_decide_eq_true (List.mem_filter.1 hkv).2) (by omega)
      rw [last_eq_none_iff.2 hnone, List.getD_eq_getElem?_getD, List.getElem?_eq_none (by rw [length_le]; omega)]

/-- The numbers are right as soon as their six bytes are. -/
theorem numbers_eq_iff (c : ConfigEvt) (ps : List (List Byte × List Byte)) :
    (c.price = priceAlone ps ∧ c.pulsesPerCredit = pulsesAlone ps) ↔
      ∀ j, 16 ≤ j → j < 22 → c.bytes.getD j 0 = numberByte ps j := by
  rw [← UInt32.toNat_inj, ← UInt16.toNat_inj, price_eq_iff c (priceAlone ps).toNat_lt,
    pulsesPerCredit_eq_iff c (pulsesAlone ps).toNat_lt]
  constructor
  · rintro ⟨h1, h2⟩ j h16 h22
    unfold numberByte
    split
    · rename_i h20
      have h := h1 (j - 16) (by omega)
      rwa [show 16 + (j - 16) = j by omega] at h
    · rename_i h20
      have h := h2 (j - 20) (by omega)
      rwa [show 20 + (j - 20) = j by omega] at h
  · intro h
    refine ⟨fun i hi => ?_, fun i hi => ?_⟩
    · rw [h (16 + i) (by omega) (by omega), numberByte, if_pos (by omega), Nat.add_sub_cancel_left]
    · rw [h (20 + i) (by omega) (by omega), numberByte, if_neg (by omega), Nat.add_sub_cancel_left]

/-! ## The stores of the names -/

/-- **Storing a name changes only its field**: `c` is the event before the store and `c'` the one behind it. -/
def NamesFramed (ps : List (List Byte × List Byte)) : Prop :=
  ∀ A kv B s c c', ps = A ++ kv :: B → nameOf kv = some s → setPairs setConfig A ConfigEvt.zero = some c →
    c.store 0 s = some c' → ∀ j, MAX_DEVICE_NAME_LEN ≤ j → c'.bytes.getD j 0 = c.bytes.getD j 0

/-- A byte of a name behind its field is the one the price and pulses members before it leave there. -/
def BytesAgree (ps : List (List Byte × List Byte)) : Prop :=
  ∀ A kv B s j b, ps = A ++ kv :: B → nameOf kv = some s → MAX_DEVICE_NAME_LEN ≤ j → s[j]? = some b → b = numberByte A j

def NamesHarmless (ps : List (List Byte × List Byte)) : Prop :=
  (∀ kv ∈ ps, ∀ s, nameOf kv = some s → s.length ≤ sizeofConfigEvt) ∧ BytesAgree ps

/-- With such names, what is behind their field is up to the numbers. -/
theorem BytesAgree.byte {ps : List (List Byte × List Byte)} (h : BytesAgree ps) {c : ConfigEvt}
    (hc : setPairs setConfig ps ConfigEvt.zero = some c) {j : Nat} (hj : MAX_DEVICE_NAME_LEN ≤ j) :
    c.bytes.getD j 0 = numberByte ps j := by
  rw [byte_of_config hc, ← numberByte_eq ps hj, last_filter_iff]
  intro A kv B b hsplit hn hb _
  obtain ⟨s, hs⟩ := Option.ne_none_iff_exists'.1 hn
  rw [byteAt, hs] at hb
  rw [numberByte_eq A hj]
  exact h A kv B s j b hsplit hs hj hb

theorem byte_of_store {c c' : ConfigEvt} {s : List Byte} (h : c.store 0 s = some c') (j : Nat) :
    c'.bytes.getD j 0 = (s[j]?).getD (c.bytes.getD j 0) := by
  rw [getD_of_poke (ConfigEvt.store_eq_some_iff.1 h) j, if_pos (Nat.zero_le j), Nat.sub_zero]

theorem setPairs_of_prefix {ps qs : List (List Byte × List Byte)} {c : ConfigEvt}
    (h : setPairs setConfig (ps ++ qs) ConfigEvt.zero = some c) : ∃ d, setPairs setConfig ps ConfigEvt.zero = some d := by
  rw [setPairs, List.foldlM_append] at h
  obtain ⟨d, hd, -⟩ := Option.bind_eq_some_iff.1 h
  exact ⟨d, hd⟩

/-- **The stores change only the field of the name exactly when the bytes agree.** -/
theorem namesFramed_iff {ps : List (List Byte × List Byte)}
    (hfit : ∀ kv ∈ ps, ∀ s, nameOf kv = some s → s.length ≤ sizeofConfigEvt) : NamesFramed ps ↔ BytesAgree ps := by
  constructor
  · -- over the members: those before a name agree, so the event before its store is known
    induction ps using List.reverseRecOn with
    | nil =>
      intro _ A kv B s j b hsplit
      simp at hsplit
    | append_singleton ps q ih =>
      intro h A kv B s j b hsplit hs hj hb
      have hagree : BytesAgree ps := ih (fun kv hkv => hfit kv (List.mem_append_left _ hkv)) (by
        rintro A kv B s c c' rfl
        exact h A kv (B ++ [q]) s c c' (by simp))
      rcases List.eq_nil_or_concat B with rfl | ⟨B', r, rfl⟩
      · obtain ⟨rfl, hkv⟩ := List.append_inj' hsplit rfl
        obtain ⟨rfl, -⟩ := List.cons.inj hkv
        obtain ⟨d, hd⟩ := setPairs_config_iff.2 hfit
        obtain ⟨c, hc⟩ := setPairs_of_prefix hd
        obtain ⟨c', hc'⟩ := c.store_of_le 0 s (by rw [Nat.zero_add]; exact hfit q (by simp) s hs)
        have hframe := h ps q [] s c c' rfl hs hc hc' j hj
        rw [byte_of_store hc', hb, Option.getD_some, hagree.byte hc hj] at hframe
        exact hframe
      · rw [List.concat_eq_append, ← List.cons_append, ← List.append_assoc] at hsplit
        obtain ⟨rfl, -⟩ := List.append_inj' hsplit rfl
        exact hagree A kv B' s j b rfl hs hj hb
  · rintro h A kv B s c c' rfl hs hc hc' j hj
    have hbefore : BytesAgree A := by
      rintro A' kv' B' s' j' b' rfl
      exact h A' kv' (B' ++ kv :: B) s' j' b' (by simp)
    rw [byte_of_store hc']
    cases hb : s[j]? with
    | none => rfl
    | some b => rw [Option.getD_some, hbefore.byte hc hj, h A kv B s j b rfl hs hj hb]

/-- Names that fit their field are harmless. -/
theorem harmless_of_fits {ps : List (List Byte × List Byte)}
    (h : ∀ kv ∈ ps, ∀ s ∈ nameOf kv, s.length ≤ MAX_DEVICE_NAME_LEN) : NamesHarmless ps := by
  refine ⟨fun kv hkv s hs => Nat.le_trans (h kv hkv s hs) (by decide), ?_⟩
  rintro A kv B s j b rfl hs hj hb
  have hlen := h kv (by simp) s hs
  rw [List.getElem?_eq_none (by omega)] at hb
  cases hb

/-- **The names of a config payload change only their own field, and leave the numbers and the memory behind the event
alone**, exactly when they are harmless. -/
theorem numbers_alone_iff {payload : List Byte} {p : Parser} (hp : jsmnParse payload MQTT_MAX_JSON_TOKENS = .ok p)
    (b : Byte) (tail : List Byte) :
    (NamesFramed (textPairs payload p.tokens) ∧ ∃ c, mqttConfigCallback payload (b :: tail) = some [.config c] ∧
      c.price = priceAlone (textPairs payload p.tokens) ∧
      c.pulsesPerCredit = pulsesAlone (textPairs payload p.tokens)) ↔
      NamesHarmless (textPairs payload p.tokens) := by
  generalize hps : textPairs payload p.tokens = ps
  have hcallback : ∀ c, mqttConfigCallback payload (b :: tail) = some [.config c] ↔
      setPairs setConfig ps ConfigEvt.zero = some c := by
    intro c
    rw [mqttConfigCallback, mqttCallback_pairs reads_config _ _ hp, hps]
    cases setPairs setConfig ps ConfigEvt.zero <;> simp
  constructor
  · rintro ⟨hframed, c, hc, -⟩
    have hfit := setPairs_config_iff.1 ⟨c, (hcallback c).1 hc⟩
    exact ⟨hfit, (namesFramed_iff hfit).1 hframed⟩
  · rintro ⟨hfit, hagree⟩
    obtain ⟨c, hc⟩ := setPairs_config_iff.2 hfit
    exact ⟨(namesFramed_iff hfit).2 hagree, c, (hcallback c).2 hc,
      (numbers_eq_iff c ps).2 (fun j h16 _ => hagree.byte hc h16)⟩

def shortNameTokens : List Tok :=
  [⟨.object, 0, some 24, 2⟩, ⟨.string, 2, some 6, 1⟩, ⟨.string, 9, some 11, 0⟩, ⟨.string, 14, some 19, 1⟩,
    ⟨.primitive, 21, some 23, 0⟩]

theorem numbers_alone_short_name : NamesFramed (textPairs (text "\x7b\"name\":\"rt\",\"price\":50\x7d") shortNameTokens) ∧
    ∃ c, mqttConfigCallback (text "\x7b\"name\":\"rt\",\"price\":50\x7d") [0] = some [.config c] ∧
      c.price = priceAlone (textPairs (text "\x7b\"name\":\"rt\",\"price\":50\x7d") shortNameTokens) ∧
      c.pulsesPerCredit = pulsesAlone (textPairs (text "\x7b\"name\":\"rt\",\"price\":50\x7d") shortNameTokens) :=
  (numbers_alone_iff (p := ⟨24, none, shortNameTokens, 5⟩) (by decide) 0 []).2 (harmless_of_fits (by decide))

def longNameTokens : List Tok :=
  [⟨.object, 0, some 38, 2⟩, ⟨.string, 2, some 7, 1⟩, ⟨.primitive, 9, some 10, 0⟩, ⟨.string, 12, some 16, 1⟩,
    ⟨.string, 19, some 36, 0⟩]

/-- A name of seventeen bytes behind the price makes it 97, and one of twenty-five writes out of the structure. -/
theorem long_name_changes_price :
    (∃ p c, jsmnParse (text "\x7b\"price\":5,\"name\":\"aaaaaaaaaaaaaaaaa\"\x7d") MQTT_MAX_JSON_TOKENS = .ok p ∧
      mqttConfigCallback (text "\x7b\"price\":5,\"name\":\"aaaaaaaaaaaaaaaaa\"\x7d") [0] = some [.config c] ∧
      priceAlone (textPairs (text "\x7b\"price\":5,\"name\":\"aaaaaaaaaaaaaaaaa\"\x7d") p.tokens) = 5 ∧ c.price = 97) ∧
    mqttConfigCallback (text "\x7b\"name\":\"aaaaaaaaaaaaaaaaaaaaaaaaa\"\x7d") [0] = none :=
  ⟨⟨⟨38, none, longNameTokens, 5⟩, ⟨List.replicate 17 97 ++ List.replicate 7 0, by decide⟩, by decide, by decide,
    by decide, by decide⟩, by decide⟩

end MqttLink
end RtPay
