import RtPay.MqttLink
/-!
# MqttDecode — decoding undoes encoding

A record written as one flat object, its members in any order and with any blanks between its tokens, comes back as one
event with the record's values (`decode_of_serialises`).
-/
namespace RtPay
namespace MqttLink

open Bytes CStr JsonText Jsmn

/-! ## Flat objects -/

def HeadOf (h : Head) (k : List Byte) : Prop :=
  Blank h.before ∧ ∃ a b, h.key = some (k, a, b) ∧ Blank a ∧ Blank b

/-- The items of an object, as the list of its keys and values. -/
def Lists : Items → List (List Byte × Value) → Prop
  | .last h v w, fields => Blank w ∧ ∃ k, HeadOf h k ∧ fields = [(k, v)]
  | .more h v w rest, fields => Blank w ∧ ∃ k more, HeadOf h k ∧ fields = (k, v) :: more ∧ Lists rest more

/-- `d` is one flat object that holds exactly the given members, in any order and under any layout. -/
structure Serialises (d : Doc) (fields : List (List Byte × Value)) : Prop where
  before : Blank d.before
  after : Blank d.after
  root : ∃ is order, d.root = .box .object (.items is) ∧ Lists is order ∧ order.Perm fields

/-- A value without members, and with jsmn's lexemes. -/
def FlatField (f : List Byte × Value) : Prop :=
  StrBody raw.char f.1 ∧ f.2.Wf raw ∧ f.2.members 1 = [] ∧ ∀ q, (valueTokens f.2 q).length = 1

theorem headOf_wf {h : Head} {k : List Byte} (hh : HeadOf h k) (hk : StrBody raw.char k) : h.Wf raw .object := by
  obtain ⟨before, key⟩ := h
  obtain ⟨hb, a, b, hkey, ha, hbl⟩ := hh
  simp only at hkey
  subst hkey
  exact ⟨hb, hk, ha, hbl⟩

theorem lists_wf : ∀ {is : Items} {fields : List (List Byte × Value)}, Lists is fields →
    (∀ f ∈ fields, FlatField f) → is.Wf raw .object
  | .last h v w, fields, ⟨hw, k, hh, he⟩, hf => by
    subst he
    obtain ⟨hk, hv, -⟩ := hf (k, v) List.mem_cons_self
    exact ⟨headOf_wf hh hk, hv, hw⟩
  | .more h v w rest, fields, ⟨hw, k, more, hh, he, hr⟩, hf => by
    subst he
    obtain ⟨hk, hv, -⟩ := hf (k, v) List.mem_cons_self
    exact ⟨headOf_wf hh hk, hv, hw, lists_wf hr (fun f hm => hf f (List.mem_cons_of_mem _ hm))⟩

theorem headOf_member {h : Head} {k : List Byte} (hh : HeadOf h k) (v : Value) (q : Nat) :
    h.member 0 v = [⟨0, k, v⟩] ∧ (headTokens h q).length = 1 := by
  obtain ⟨-, a, b, hkey, -⟩ := hh
  simp [Head.member, headTokens, hkey]

/-- The members of a flat object are its fields, and each of them is two tokens. -/
theorem lists_members : ∀ {is : Items} {fields : List (List Byte × Value)}, Lists is fields →
    (∀ f ∈ fields, FlatField f) → is.members 0 = fields.map (fun f => ⟨0, f.1, f.2⟩) ∧
      ∀ q, (itemsTokens is q).length = 2 * fields.length
  | .last h v w, fields, ⟨_, k, hh, he⟩, hf => by
    subst he
    obtain ⟨-, -, hm, ht⟩ := hf (k, v) List.mem_cons_self
    refine ⟨?_, fun q => ?_⟩
    · rw [Items.members, (headOf_member hh v 0).1, hm]; rfl
    · rw [itemsTokens, List.length_append, (headOf_member hh v q).2, ht]; rfl
  | .more h v w rest, fields, ⟨_, k, more, hh, he, hr⟩, hf => by
    subst he
    obtain ⟨-, -, hm, ht⟩ := hf (k, v) List.mem_cons_self
    obtain ⟨hrm, hrt⟩ := lists_members hr (fun f hm => hf f (List.mem_cons_of_mem _ hm))
    refine ⟨?_, fun q => ?_⟩
    · rw [Items.members, (headOf_member hh v 0).1, hm, hrm]; rfl
    · rw [itemsTokens, List.length_append, List.length_append, (headOf_member hh v q).2, ht, hrt, List.length_cons]
      omega

theorem mqttCallback_of_serialises {σ ε : Type} {onKey : σ → List Byte → Nat → List Byte → Nat → Option σ}
    {set : σ → List Byte → List Byte → Option σ} (hr : Reads onKey set) (zero : σ) (event : σ → ε) {d : Doc}
    {fields : List (List Byte × Value)} (hd : Serialises d fields) (hf : ∀ f ∈ fields, FlatField f)
    (hlen : fields.length ≤ 7) (tail : List Byte) :
    ∃ ms, ms.Perm (fields.map (fun f => (⟨0, f.1, f.2⟩ : Member))) ∧
      mqttCallback onKey zero event d.text tail = (setMembers set ms zero).map (fun acc => [event acc]) := by
  obtain ⟨is, order, hroot, hlists, hperm⟩ := hd.root
  have hforder : ∀ f ∈ order, FlatField f := fun f hm => hf f (hperm.mem_iff.1 hm)
  obtain ⟨hmembers, htokens⟩ := lists_members hlists hforder
  have hwf : d.Wf raw := ⟨hd.before, by rw [hroot]; exact lists_wf hlists hforder, hd.after⟩
  have hroom : (docTokens d).length ≤ MQTT_MAX_JSON_TOKENS := by
    rw [docTokens, hroot, valueTokens, List.length_cons, bodyTokens, htokens, hperm.length_eq]
    unfold MQTT_MAX_JSON_TOKENS
    omega
  refine ⟨d.root.members 0, ?_, mqttCallback_doc hr zero event hwf hroom tail⟩
  rw [hroot, Value.members, Body.members, hmembers]
  exact hperm.map _

theorem selectedFor_perm {names : List (List Byte)} {n : List Byte} {ms ms' : List Member} (h : ms.Perm ms') {m : Member}
    (hm : selectedFor names n ms' = [m]) : selectedFor names n ms = [m] := by
  have := h.filter (fun m => decide (selected names m.key = some n))
  rw [show ms'.filter _ = [m] from hm] at this
  exact List.perm_singleton.1 this

/-! ## Lexemes -/

theorem flatField_str {k b : List Byte} (hk : ∀ c ∈ k, c ≠ 0 ∧ c ≠ 0x22 ∧ c ≠ 0x5C)
    (hb : ∀ c ∈ b, c ≠ 0 ∧ c ≠ 0x22 ∧ c ≠ 0x5C) : FlatField (k, .str b) :=
  ⟨strBody_of_chars hk, strBody_of_chars hb, rfl, fun _ => rfl⟩

theorem raw_of_intByte {c : Byte} (h : isdigit c = true ∨ c = 45) :
    (isDelim c = false ∧ 32 ≤ c.toNat ∧ c.toNat < 127) ∧ c ≠ 0x22 ∧ c ≠ 0x7B ∧ c ≠ 0x5B := by
  have hbyte : isPrimByte c = true := by
    rcases h with h | rfl
    · simp only [isdigit, Bool.and_eq_true, decide_eq_true_eq] at h
      simp [isPrimByte, UInt8.le_iff_toNat_le, h.1, h.2]
    · decide
  have hrange : 32 ≤ c.toNat ∧ c.toNat < 127 := by
    rcases h with h | rfl
    · simp only [isdigit, Bool.and_eq_true, decide_eq_true_eq] at h
      omega
    · decide
  obtain ⟨h1, h2⟩ := apart_of_isPrimByte hbyte
  exact ⟨⟨h1, hrange⟩, h2⟩

theorem rawPrim_of_intText {t : List Byte} {n : Int} (h : IntText t n) : raw.prim t := by
  have hbytes : t ≠ [] ∧ ∀ c ∈ t, isdigit c = true ∨ c = 45 := by
    rcases h with ⟨⟨hne, hd, -⟩, -⟩ | ⟨u, rfl, ⟨-, hd, -⟩, -⟩
    · exact ⟨hne, fun c hc => Or.inl (hd c hc)⟩
    · refine ⟨by simp, fun c hc => ?_⟩
      rcases List.mem_cons.1 hc with rfl | hc
      · exact Or.inr rfl
      · exact Or.inl (hd c hc)
  obtain ⟨c, s, rfl⟩ := List.exists_cons_of_ne_nil hbytes.1
  exact ⟨⟨c, s, rfl, (raw_of_intByte (hbytes.2 c List.mem_cons_self)).2⟩, fun e he => (raw_of_intByte (hbytes.2 e he)).1⟩

theorem flatField_prim {k t : List Byte} {n : Int} (hk : ∀ c ∈ k, c ≠ 0 ∧ c ≠ 0x22 ∧ c ≠ 0x5C) (ht : IntText t n) :
    FlatField (k, .prim t) :=
  ⟨strBody_of_chars hk, rawPrim_of_intText ht, rfl, fun _ => rfl⟩

theorem atoi_intText {t : List Byte} {n : Int} (h : IntText t n) (h1 : intMin ≤ n) (h2 : n ≤ intMax) : atoi t = n := by
  rw [← atoi_terminated t []]
  exact atoi_of_intText h h1 h2 []

theorem toNat_ofInt32 {n : Nat} (h : n < 4294967296) : (UInt32.ofInt n).toNat = n := by
  simp only [UInt32.ofInt, UInt32.toNat_ofNat']
  omega

theorem toNat_ofInt16 {n : Nat} (h : n < 65536) : (UInt16.ofInt n).toNat = n := by
  simp only [UInt16.ofInt, UInt16.toNat_ofNat']
  omega

theorem toInt_ofInt32 {n : Int} (h1 : intMin ≤ n) (h2 : n ≤ intMax) : (Int32.ofInt n).toInt = n := by
  unfold intMin at h1
  unfold intMax at h2
  rw [Int32.toInt_ofInt_of_le (by omega) (by omega)]

/-! ## The three records -/

theorem fields_of_setCredit {c c' : CreditEvt} {k s : List Byte} (h : setCredit c k s = some c') :
    c'.balance = (if selected creditNames k = some (text "balance") then UInt32.ofInt (atoi s) else c.balance) ∧
      c'.count = (if selected creditNames k = some (text "count") then UInt16.ofInt (atoi s) else c.count) := by
  unfold setCredit at h
  cases hs : selected creditNames k with
  | none =>
    rw [hs] at h
    cases h
    simp
  | some n =>
    rw [hs] at h
    dsimp only at h
    have hn : n ∈ creditNames := List.mem_of_find?_eq_some hs
    simp only [creditNames, List.mem_cons, List.not_mem_nil, or_false] at hn
    rcases hn with rfl | rfl
    · rw [if_pos rfl] at h
      cases h
      rw [if_pos rfl, if_neg (by decide)]
      simp
    · rw [if_neg (by decide)] at h
      cases h
      rw [if_neg (by decide), if_pos rfl]
      simp

theorem fields_of_credit {ms : List Member} {c : CreditEvt} (h : setMembers setCredit ms ⟨0, 0⟩ = some c) :
    c.balance = (selectedFor creditNames (text "balance") ms).foldl (fun _ m => UInt32.ofInt (atoi m.value.span)) 0 ∧
      c.count = (selectedFor creditNames (text "count") ms).foldl (fun _ m => UInt16.ofInt (atoi m.value.span)) 0 :=
  ⟨field_of_setMembers CreditEvt.balance (fun _ s => UInt32.ofInt (atoi s)) (fun _ => True)
      (fun _ _ _ _ h => (fields_of_setCredit h).1) ms _ c (fun _ _ => trivial) h,
    field_of_setMembers CreditEvt.count (fun _ s => UInt16.ofInt (atoi s)) (fun _ => True)
      (fun _ _ _ _ h => (fields_of_setCredit h).2) ms _ c (fun _ _ => trivial) h⟩

theorem field_of_setEnable {e e' : EnableEvt} {k s : List Byte} (h : setEnable e k s = some e') :
    e'.enable = if selected enableNames k = some (text "enable") then Int32.ofInt (atoi s) else e.enable := by
  unfold setEnable at h
  cases hs : selected enableNames k with
  | none =>
    rw [hs] at h
    cases h
    simp
  | some n =>
    rw [hs] at h
    cases h
    have hn : n ∈ enableNames := List.mem_of_find?_eq_some hs
    simp only [enableNames, List.mem_cons, List.not_mem_nil, or_false] at hn
    rw [hn, if_pos rfl]

theorem field_of_enable {ms : List Member} {e : EnableEvt} (h : setMembers setEnable ms ⟨0⟩ = some e) :
    e.enable = (selectedFor enableNames (text "enable") ms).foldl (fun _ m => Int32.ofInt (atoi m.value.span)) 0 :=
  field_of_setMembers EnableEvt.enable (fun _ s => Int32.ofInt (atoi s)) (fun _ => True)
    (fun _ _ _ _ h => field_of_setEnable h) ms _ e (fun _ _ => trivial) h

theorem decode_config {name tp tq : List Byte} {price pulses : Nat} (hlen : name.length ≤ MAX_DEVICE_NAME_LEN)
    (hname : ∀ c ∈ name, c ≠ 0 ∧ c ≠ 0x22 ∧ c ≠ 0x5C) (hp : IntText tp price) (hprice : price ≤ 2147483647)
    (hq : IntText tq pulses) (hpulses : pulses ≤ 65535) {d : Doc}
    (hd : Serialises d [(text "name", .str name), (text "price", .prim tp), (text "pulses", .prim tq)])
    (tail : List Byte) : ∃ c, mqttConfigCallback d.text tail = some [.config c] ∧
      c.name = name ++ List.replicate (MAX_DEVICE_NAME_LEN - name.length) 0 ∧ c.price.toNat = price ∧
      c.pulsesPerCredit.toNat = pulses := by
  have hf : ∀ f ∈ [(text "name", Value.str name), (text "price", .prim tp), (text "pulses", .prim tq)], FlatField f := by
    intro f hm
    simp only [List.mem_cons, List.not_mem_nil, or_false] at hm
    rcases hm with rfl | rfl | rfl
    · exact flatField_str (by decide) hname
    · exact flatField_prim (by decide) hp
    · exact flatField_prim (by decide) hq
  obtain ⟨ms, hperm, hcall⟩ := mqttCallback_of_serialises reads_config ConfigEvt.zero Event.config hd hf
    (by simp) tail
  have hfits : ∀ m ∈ ms, NameFits m := by
    intro m hm hs
    have hm := hperm.mem_iff.1 hm
    simp only [List.map_cons, List.map_nil, List.mem_cons, List.not_mem_nil, or_false] at hm
    rcases hm with rfl | rfl | rfl
    · exact hlen
    · exact absurd (show selected configNames (text "price") = some (text "name") from hs) (by decide)
    · exact absurd (show selected configNames (text "pulses") = some (text "name") from hs) (by decide)
  obtain ⟨c, hc⟩ := setMembers_config_of_fits ms ConfigEvt.zero hfits
  obtain ⟨h1, h2, h3⟩ := fields_of_config hfits hc
  rw [selectedFor_perm hperm (m := ⟨0, text "name", .str name⟩) rfl] at h1
  rw [selectedFor_perm hperm (m := ⟨0, text "price", .prim tp⟩) rfl] at h2
  rw [selectedFor_perm hperm (m := ⟨0, text "pulses", .prim tq⟩) rfl] at h3
  refine ⟨c, by rw [mqttConfigCallback, hcall, hc]; rfl, ?_, ?_, ?_⟩
  · rw [h1, ConfigEvt.name_zero]
    show name ++ (List.replicate MAX_DEVICE_NAME_LEN 0).drop name.length = _
    rw [List.drop_replicate]
  · rw [h2]
    show (UInt32.ofInt (atoi tp)).toNat = price
    rw [atoi_intText hp (by unfold intMin; omega) (by unfold intMax; omega), toNat_ofInt32 (by omega)]
  · rw [h3]
    show (UInt16.ofInt (atoi tq)).toNat = pulses
    rw [atoi_intText hq (by unfold intMin; omega) (by unfold intMax; omega), toNat_ofInt16 (by omega)]

theorem decode_credit {tb tc : List Byte} {balance count : Nat} (hb : IntText tb balance) (hbalance : balance ≤ 2147483647)
    (hc : IntText tc count) (hcount : count ≤ 65535) {d : Doc}
    (hd : Serialises d [(text "balance", .prim tb), (text "count", .prim tc)]) (tail : List Byte) :
    ∃ c, mqttAddCoinsCallback d.text tail = some [.credit c] ∧ c.balance.toNat = balance ∧ c.count.toNat = count := by
  have hf : ∀ f ∈ [(text "balance", Value.prim tb), (text "count", .prim tc)], FlatField f := by
    intro f hm
    simp only [List.mem_cons, List.not_mem_nil, or_false] at hm
    rcases hm with rfl | rfl
    · exact flatField_prim (by decide) hb
    · exact flatField_prim (by decide) hc
  obtain ⟨ms, hperm, hcall⟩ := mqttCallback_of_serialises reads_credit (⟨0, 0⟩ : CreditEvt) Event.credit hd hf
    (by simp) tail
  obtain ⟨c, hset⟩ := setMembers_credit ms ⟨0, 0⟩
  obtain ⟨h1, h2⟩ := fields_of_credit hset
  rw [selectedFor_perm hperm (m := ⟨0, text "balance", .prim tb⟩) rfl] at h1
  rw [selectedFor_perm hperm (m := ⟨0, text "count", .prim tc⟩) rfl] at h2
  refine ⟨c, by rw [mqttAddCoinsCallback, hcall, hset]; rfl, ?_, ?_⟩
  · rw [h1]
    show (UInt32.ofInt (atoi tb)).toNat = balance
    rw [atoi_intText hb (by unfold intMin; omega) (by unfold intMax; omega), toNat_ofInt32 (by omega)]
  · rw [h2]
    show (UInt16.ofInt (atoi tc)).toNat = count
    rw [atoi_intText hc (by unfold intMin; omega) (by unfold intMax; omega), toNat_ofInt16 (by omega)]

theorem decode_enable {t : List Byte} {n : Int} (ht : IntText t n) (h1 : intMin ≤ n) (h2 : n ≤ intMax) {d : Doc}
    (hd : Serialises d [(text "enable", .prim t)]) (tail : List Byte) :
    ∃ e, mqttEnableCallback d.text tail = some [.enable e] ∧ e.enable.toInt = n := by
  have hf : ∀ f ∈ [(text "enable", Value.prim t)], FlatField f := by
    intro f hm
    rw [List.mem_singleton.1 hm]
    exact flatField_prim (by decide) ht
  obtain ⟨ms, hperm, hcall⟩ := mqttCallback_of_serialises reads_enable (⟨0⟩ : EnableEvt) Event.enable hd hf
    (by simp) tail
  obtain ⟨e, hset⟩ := setMembers_enable ms ⟨0⟩
  have h := field_of_enable hset
  rw [selectedFor_perm hperm (m := ⟨0, text "enable", .prim t⟩) rfl] at h
  refine ⟨e, by rw [mqttEnableCallback, hcall, hset]; rfl, ?_⟩
  rw [h]
  show (Int32.ofInt (atoi t)).toInt = n
  rw [atoi_intText ht h1 h2, toInt_ofInt32 h1 h2]

/-- **Decoding undoes encoding**, for the three records: a name of at most 16 bytes that are no terminator, quote or
backslash, and integers in range, written in plain decimal. -/
theorem decode_of_serialises (d : Doc) (tail : List Byte) :
    (∀ (name tp tq : List Byte) (price pulses : Nat), name.length ≤ MAX_DEVICE_NAME_LEN →
      (∀ c ∈ name, c ≠ 0 ∧ c ≠ 0x22 ∧ c ≠ 0x5C) → IntText tp price → price ≤ 2147483647 → IntText tq pulses →
      pulses ≤ 65535 →
      Serialises d [(text "name", .str name), (text "price", .prim tp), (text "pulses", .prim tq)] →
      ∃ c, mqttConfigCallback d.text tail = some [.config c] ∧
        c.name = name ++ List.replicate (MAX_DEVICE_NAME_LEN - name.length) 0 ∧ c.price.toNat = price ∧
        c.pulsesPerCredit.toNat = pulses) ∧
    (∀ (tb tc : List Byte) (balance count : Nat), IntText tb balance → balance ≤ 2147483647 → IntText tc count →
      count ≤ 65535 → Serialises d [(text "balance", .prim tb), (text "count", .prim tc)] →
      ∃ c, mqttAddCoinsCallback d.text tail = some [.credit c] ∧ c.balance.toNat = balance ∧ c.count.toNat = count) ∧
    (∀ (t : List Byte) (n : Int), IntText t n → intMin ≤ n → n ≤ intMax → Serialises d [(text "enable", .prim t)] →
      ∃ e, mqttEnableCallback d.text tail = some [.enable e] ∧ e.enable.toInt = n) :=
  ⟨fun _ _ _ _ _ hlen hname hp hprice hq hpulses hd => decode_config hlen hname hp hprice hq hpulses hd tail,
    fun _ _ _ _ hb hbalance hc hcount hd => decode_credit hb hbalance hc hcount hd tail,
    fun _ _ ht h1 h2 hd => decode_enable ht h1 h2 hd tail⟩

def readmeConfig : Doc :=
  ⟨[], .box .object (.items
    (.more ⟨text "\n  ", some (text "name", [], text " ")⟩ (.str (text "rt-thread")) []
      (.more ⟨text "\n  ", some (text "price", [], text " ")⟩ (.prim (text "500")) []
        (.last ⟨text "\n  ", some (text "pulses", [], text " ")⟩ (.prim (text "1")) (text "\n"))))), []⟩

def readmeCredit : Doc :=
  ⟨[], .box .object (.items
    (.more ⟨text "\n  ", some (text "balance", [], text " ")⟩ (.prim (text "5000")) []
      (.last ⟨text "\n  ", some (text "count", [], text " ")⟩ (.prim (text "1")) (text "\n")))), []⟩

def readmeEnable : Doc :=
  ⟨[], .box .object (.items
    (.last ⟨text "\n  ", some (text "enable", [], text " ")⟩ (.prim (text "1")) (text "\n"))), []⟩

theorem readmeConfig_text :
    readmeConfig.text = text "\x7b\n  \"name\": \"rt-thread\",\n  \"price\": 500,\n  \"pulses\": 1\n\x7d" := by decide

theorem readmeCredit_text : readmeCredit.text = text "\x7b\n  \"balance\": 5000,\n  \"count\": 1\n\x7d" := by decide

theorem readmeEnable_text : readmeEnable.text = text "\x7b\n  \"enable\": 1\n\x7d" := by decide

theorem blank_nil : Blank [] := by unfold Blank; decide

theorem blank_newline : Blank (text "\n") := by unfold Blank; decide

theorem blank_indent : Blank (text "\n  ") := by unfold Blank; decide

theorem blank_space : Blank (text " ") := by unfold Blank; decide

theorem headOf_readme {k : List Byte} : HeadOf ⟨text "\n  ", some (k, [], text " ")⟩ k :=
  ⟨blank_indent, [], text " ", rfl, blank_nil, blank_space⟩

theorem decode_of_serialises_readme :
    (∃ c, mqttConfigCallback (text "\x7b\n  \"name\": \"rt-thread\",\n  \"price\": 500,\n  \"pulses\": 1\n\x7d") [] =
        some [.config c] ∧ c.name = text "rt-thread" ++ List.replicate 7 0 ∧ c.price.toNat = 500 ∧
        c.pulsesPerCredit.toNat = 1) ∧
    (∃ c, mqttAddCoinsCallback (text "\x7b\n  \"balance\": 5000,\n  \"count\": 1\n\x7d") [] = some [.credit c] ∧
        c.balance.toNat = 5000 ∧ c.count.toNat = 1) ∧
    (∃ e, mqttEnableCallback (text "\x7b\n  \"enable\": 1\n\x7d") [] = some [.enable e] ∧ e.enable.toInt = 1) := by
  have h500 : IntText (text "500") (500 : Nat) := Or.inl ⟨by decide, by decide⟩
  have h1 : IntText (text "1") (1 : Nat) := Or.inl ⟨by decide, by decide⟩
  have h5000 : IntText (text "5000") (5000 : Nat) := Or.inl ⟨by decide, by decide⟩
  rw [← readmeConfig_text, ← readmeCredit_text, ← readmeEnable_text]
  refine ⟨?_, ?_, ?_⟩
  · exact (decode_of_serialises readmeConfig []).1 (text "rt-thread") (text "500") (text "1") 500 1 (by decide)
      (by decide) h500 (by decide) h1 (by decide)
      ⟨blank_nil, blank_nil, _, _, rfl, ⟨blank_nil, _, _, headOf_readme, rfl, blank_nil, _, _, headOf_readme, rfl,
        blank_newline, _, headOf_readme, rfl⟩, List.Perm.refl _⟩
  · exact (decode_of_serialises readmeCredit []).2.1 (text "5000") (text "1") 5000 1 h5000 (by decide) h1 (by decide)
      ⟨blank_nil, blank_nil, _, _, rfl, ⟨blank_nil, _, _, headOf_readme, rfl, blank_newline, _, headOf_readme, rfl⟩,
        List.Perm.refl _⟩
  · exact (decode_of_serialises readmeEnable []).2.2 (text "1") 1 h1 (by decide) (by decide)
      ⟨blank_nil, blank_nil, _, _, rfl, ⟨blank_newline, _, headOf_readme, rfl⟩, List.Perm.refl _⟩

end MqttLink
end RtPay
