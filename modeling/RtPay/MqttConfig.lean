import Mathlib.Data.List.Induction
import RtPay.App
import RtPay.MqttDecode
/-!
# MqttConfig — the configuration over the payloads received

What a payload gives a field is said in the terms of JSON: the last well-formed member of that name at the top of the
object.  The device follows the payloads (`Follows`) as long as each of them is `Sound`; the rest is what the callbacks
and `on_config_event` get wrong: a missing member clears its field, a key is taken for a field by its prefix and at any
depth, a payload that is no object is still an event, and the name is never stored.
-/
namespace RtPay
namespace MqttLink

open Bytes CStr JsonText Jsmn

/-! ## What a payload gives -/

/-- A code unit of a string: a byte as written, or the value of a `\u` escape. -/
inductive CodeUnit
  | byte (b : Byte)
  | utf16 (n : Nat)

def hexVal (c : Byte) : Nat := if c ≤ 0x39 then c.toNat - 0x30 else (c.toNat ||| 0x20) - 0x57

def escapeByte (c : Byte) : Byte :=
  if c = 0x62 then 0x08 else if c = 0x66 then 0x0C else if c = 0x6E then 0x0A else if c = 0x72 then 0x0D
  else if c = 0x74 then 0x09 else c

def codeUnits : List Byte → List CodeUnit
  | [] => []
  | [c] => [.byte c]
  | c :: e :: s =>
    if c = 0x5C then
      if e = 0x75 then
        match s with
        | h₁ :: h₂ :: h₃ :: h₄ :: s =>
          .utf16 (((hexVal h₁ * 16 + hexVal h₂) * 16 + hexVal h₃) * 16 + hexVal h₄) :: codeUnits s
        | _ => []
      else .byte (escapeByte e) :: codeUnits s
    else .byte c :: codeUnits (e :: s)

def utf8 (n : Nat) : List Byte :=
  if n < 0x80 then [UInt8.ofNat n]
  else if n < 0x800 then [UInt8.ofNat (0xC0 + n / 0x40), UInt8.ofNat (0x80 + n % 0x40)]
  else if n < 0x10000 then
    [UInt8.ofNat (0xE0 + n / 0x1000), UInt8.ofNat (0x80 + n / 0x40 % 0x40), UInt8.ofNat (0x80 + n % 0x40)]
  else
    [UInt8.ofNat (0xF0 + n / 0x40000), UInt8.ofNat (0x80 + n / 0x1000 % 0x40), UInt8.ofNat (0x80 + n / 0x40 % 0x40),
      UInt8.ofNat (0x80 + n % 0x40)]

def encode : List CodeUnit → List Byte
  | [] => []
  | .byte b :: us => b :: encode us
  | [.utf16 n] => utf8 n
  | .utf16 n :: .byte b :: us => utf8 n ++ b :: encode us
  | .utf16 n :: .utf16 m :: us =>
    if 0xD800 ≤ n ∧ n < 0xDC00 ∧ 0xDC00 ≤ m ∧ m < 0xE000 then
      utf8 (0x10000 + (n - 0xD800) * 0x400 + (m - 0xDC00)) ++ encode us
    else utf8 n ++ encode (.utf16 m :: us)

def unescape (b : List Byte) : List Byte := encode (codeUnits b)

example : unescape (text "a\\u0062\\n") = text "ab\n" := by decide +kernel

def readInt : List Byte → Option Int
  | 45 :: u => if Plain u then some (-(decVal u : Int)) else none
  | t => if Plain t then some (decVal t : Int) else none

theorem intText_of_readInt {t : List Byte} {n : Int} (h : readInt t = some n) : IntText t n := by
  unfold readInt at h
  split at h
  · rename_i u
    split at h
    · rename_i hu; cases h; exact Or.inr ⟨u, rfl, hu, rfl⟩
    · cases h
  · split at h
    · rename_i ht; cases h; exact Or.inl ⟨ht, rfl⟩
    · cases h

inductive Topic
  | config
  | enable
  deriving DecidableEq

inductive Field
  | name
  | price
  | pulses
  | enabled
  deriving DecidableEq

namespace Field

def Val : Field → Type
  | name => List Byte
  | price => UInt32
  | pulses => UInt32
  | enabled => Int32

def get (cfg : SystemConfig) : (f : Field) → f.Val
  | name => cfg.name
  | price => cfg.price
  | pulses => cfg.pulsesPerCredit
  | enabled => cfg.enabled

def topic : Field → Topic
  | enabled => .enable
  | _ => .config

def key : Field → List Byte
  | name => text "name"
  | price => text "price"
  | pulses => text "pulses"
  | enabled => text "enable"

def names : Field → List (List Byte)
  | enabled => enableNames
  | _ => configNames

def intIn (lo hi : Int) : Value → Option Int
  | .prim t => (readInt t).filter (fun n => decide (lo ≤ n ∧ n ≤ hi))
  | _ => none

/-- The value a member's value is for the field, if it is well formed: a name of 1 to 16 bytes, an integer in range. -/
def ofValue : (f : Field) → Value → Option f.Val
  | name, .str b =>
    if 0 < (unescape b).length ∧ (unescape b).length ≤ MAX_DEVICE_NAME_LEN then
      some (unescape b ++ List.replicate (MAX_DEVICE_NAME_LEN - (unescape b).length) 0)
    else none
  | name, _ => none
  | price, v => (intIn 0 2147483647 v).map UInt32.ofInt
  | pulses, v => (intIn 0 65535 v).map UInt32.ofInt
  | enabled, v => (intIn intMin intMax v).map Int32.ofInt

/-- What a member gives the field: nothing below the top of the object, or under another name.  The name may be spelled
with escapes, as the values may. -/
def ofMember (f : Field) (m : Member) : Option f.Val :=
  if m.depth = 0 ∧ unescape m.key = f.key then f.ofValue m.value else none

/-- What an object gives the field: its last well-formed member. -/
def given (f : Field) (o : Value) : Option f.Val := ((o.members 0).filterMap f.ofMember).getLast?

end Field

theorem codeUnits_plain : ∀ b : List Byte, 0x5C ∉ b → codeUnits b = b.map .byte
  | [], _ => rfl
  | [c], _ => rfl
  | c :: e :: s, h => by
    have hc : c ≠ 0x5C := fun hc => h (by rw [hc]; exact List.mem_cons_self)
    rw [codeUnits.eq_def]
    dsimp only
    rw [if_neg hc, codeUnits_plain (e :: s) (fun hs => h (List.mem_cons_of_mem _ hs))]
    rfl

theorem encode_bytes (b : List Byte) : encode (b.map .byte) = b := by
  induction b with
  | nil => rfl
  | cons c b ih => rw [List.map_cons, encode, ih]

/-- Without a backslash a string stands for itself. -/
theorem unescape_plain {b : List Byte} (h : 0x5C ∉ b) : unescape b = b := by
  rw [unescape, codeUnits_plain b h, encode_bytes]

theorem ofMember_plain (f : Field) {m : Member} (h : 0x5C ∉ m.key) :
    f.ofMember m = if m.depth = 0 ∧ m.key = f.key then f.ofValue m.value else none := by
  rw [Field.ofMember, unescape_plain h]

theorem given_plain (f : Field) {o : Value} (h : ∀ m ∈ o.members 0, 0x5C ∉ m.key) :
    f.given o = ((o.members 0).filterMap (fun m =>
      if m.depth = 0 ∧ m.key = f.key then f.ofValue m.value else none)).getLast? := by
  rw [Field.given]
  congr 1
  exact List.filterMap_congr (fun m hm => ofMember_plain f (h m hm))

def IsObject : Value → Prop
  | .box .object _ => True
  | _ => False

/-- **The payload is a JSON object that gives the field the value.** -/
def Gives (f : Field) (payload : List Byte) (v : f.Val) : Prop :=
  ∃ d : Doc, d.Wf json ∧ d.text = payload ∧ IsObject d.root ∧ f.given d.root = some v

theorem given_of_gives {f : Field} {d : Doc} (hd : d.Wf json) {v : f.Val} (h : Gives f d.text v) :
    f.given d.root = some v := by
  obtain ⟨d', hd', ht, -, hv⟩ := h
  rw [Doc.text_inj lawful_json hd' hd ht] at hv
  exact hv

/-! ## Payloads processed in order -/

/-- A payload handed to the callback of its topic, with what lies behind it in the receive buffer. -/
structure Delivery where
  topic : Topic
  payload : List Byte
  tail : List Byte

def callback (d : Delivery) : Option (List Event) :=
  match d.topic with
  | .config => mqttConfigCallback d.payload d.tail
  | .enable => mqttEnableCallback d.payload d.tail

def receive (s : App) (d : Delivery) : Option App := (callback d).map (fun evts => evts.foldl appStep s)

/-- The payloads, each processed before the next. -/
def receiveAll (ds : List Delivery) : Option App := ds.foldlM receive appInit.startMessage

def Delivery.Gives (d : Delivery) (f : Field) (v : f.Val) : Prop := d.topic = f.topic ∧ MqttLink.Gives f d.payload v

/-- **Each field has the value of the last payload that gave it one**, or its value at boot. -/
def Follows (ds : List Delivery) (cfg : SystemConfig) : Prop :=
  ∀ f : Field,
    (∀ pre d post v, ds = pre ++ d :: post → d.Gives f v → (∀ q ∈ post, ∀ v', ¬ q.Gives f v') → f.get cfg = v) ∧
    ((∀ q ∈ ds, ∀ v', ¬ q.Gives f v') → f.get cfg = f.get appInit.sysCfg)

/-! ## The payloads the device follows -/

/-- The last member at any depth that the chain takes for the field is the last that gives it a value. -/
def Decided (f : Field) (ms : List Member) : Prop :=
  ∃ A m B, ms = A ++ m :: B ∧ selected f.names m.key = some f.key ∧ (f.ofMember m).isSome = true ∧
    ∀ k ∈ B, selected f.names k.key ≠ some f.key ∧ f.ofMember k = none

/-- The members a callback gets right: an object that gives every number of its topic, with names that fit and, since
the name is never stored, no name but the one the device has. -/
def SoundMembers (topic : Topic) (o : Value) : Prop :=
  match topic with
  | .config => (∀ m ∈ o.members 0, NameFits m) ∧ (∀ v, Field.name.given o = some v → v = appInit.sysCfg.name) ∧
      Decided .price (o.members 0) ∧ Decided .pulses (o.members 0)
  | .enable => Decided .enabled (o.members 0)

/-- A payload the device follows: one that jsmn refuses and that gives nothing, or an object of at most 16 tokens with
members the callback gets right. -/
def Sound (d : Delivery) : Prop :=
  ((∃ e, jsmnParse d.payload MQTT_MAX_JSON_TOKENS = .error e) ∧ ∀ f v, ¬ d.Gives f v) ∨
  ∃ o : Doc, o.Wf json ∧ o.text = d.payload ∧ IsObject o.root ∧ (docTokens o).length ≤ MQTT_MAX_JSON_TOKENS ∧
    SoundMembers d.topic o.root

/-- **A decided field** is given by the last member selected for it. -/
theorem given_of_decided {f : Field} {o : Value} (h : Decided f (o.members 0)) :
    ∃ ms m v, selectedFor f.names f.key (o.members 0) = ms ++ [m] ∧ f.ofMember m = some v ∧ f.given o = some v := by
  obtain ⟨A, m, B, hms, hsel, hm, hB⟩ := h
  obtain ⟨v, hv⟩ := Option.isSome_iff_exists.1 hm
  have hnone : selectedFor f.names f.key B = [] :=
    List.filter_eq_nil_iff.2 (fun k hk => by simpa using (hB k hk).1)
  have hgiven : B.filterMap f.ofMember = [] := List.filterMap_eq_nil_iff.2 (fun k hk => (hB k hk).2)
  refine ⟨selectedFor f.names f.key A, m, v, ?_, hv, ?_⟩
  · rw [hms, selectedFor, List.filter_append, List.filter_cons_of_pos (by simpa using hsel), ← selectedFor, ← selectedFor,
      hnone]
  · rw [Field.given, hms, List.filterMap_append, List.filterMap_cons_some hv, hgiven, List.getLast?_concat]

/-! ## One payload -/

theorem atoi_span_of_intIn {lo hi n : Int} {v : Value} (h : Field.intIn lo hi v = some n) (hlo : intMin ≤ lo)
    (hhi : hi ≤ intMax) : atoi v.span = n ∧ lo ≤ n ∧ n ≤ hi := by
  unfold Field.intIn at h
  split at h
  · obtain ⟨hread, hrange⟩ := Option.filter_eq_some_iff.1 h
    have hrange := of_decide_eq_true hrange
    exact ⟨atoi_intText (intText_of_readInt hread) (by omega) (by omega), hrange⟩
  · cases h

theorem value_of_ofMember {f : Field} {m : Member} {v : f.Val} (h : f.ofMember m = some v) :
    f.ofValue m.value = some v := by
  unfold Field.ofMember at h
  split at h
  · exact h
  · cases h

theorem price_of_ofMember {m : Member} {v : UInt32} (h : Field.price.ofMember m = some v) :
    v = UInt32.ofInt (atoi m.value.span) := by
  obtain ⟨n, hn, rfl⟩ := Option.map_eq_some_iff.1 (value_of_ofMember h)
  rw [(atoi_span_of_intIn hn (by decide) (by decide)).1]

theorem toUInt32_ofInt {n : Int} (h0 : 0 ≤ n) (h1 : n ≤ 65535) : (UInt16.ofInt n).toUInt32 = UInt32.ofInt n := by
  obtain ⟨k, rfl⟩ := Int.eq_ofNat_of_zero_le h0
  rw [← UInt32.toNat_inj, UInt16.toNat_toUInt32, toNat_ofInt16 (by omega), toNat_ofInt32 (by omega)]

theorem pulses_of_ofMember {m : Member} {v : UInt32} (h : Field.pulses.ofMember m = some v) :
    v = (UInt16.ofInt (atoi m.value.span)).toUInt32 := by
  obtain ⟨n, hn, rfl⟩ := Option.map_eq_some_iff.1 (value_of_ofMember h)
  obtain ⟨ha, h0, h1⟩ := atoi_span_of_intIn hn (by decide) (by decide)
  rw [ha, toUInt32_ofInt h0 h1]

theorem enabled_of_ofMember {m : Member} {v : Int32} (h : Field.enabled.ofMember m = some v) :
    v = Int32.ofInt (atoi m.value.span) := by
  obtain ⟨n, hn, rfl⟩ := Option.map_eq_some_iff.1 (value_of_ofMember h)
  rw [(atoi_span_of_intIn hn (by decide) (by decide)).1]

/-- **A sound config payload** is one event with both its numbers. -/
theorem callback_config {o : Doc} (ho : o.Wf json) (room : (docTokens o).length ≤ MQTT_MAX_JSON_TOKENS)
    (hs : SoundMembers .config o.root) (tail : List Byte) :
    ∃ c, mqttConfigCallback o.text tail = some [.config c] ∧ Field.price.given o.root = some c.price ∧
      Field.pulses.given o.root = some c.pulsesPerCredit.toUInt32 := by
  obtain ⟨hfits, -, hprice, hpulses⟩ := hs
  obtain ⟨c, hc⟩ := setMembers_config_of_fits _ ConfigEvt.zero hfits
  obtain ⟨-, h1, h2⟩ := fields_of_config hfits hc
  obtain ⟨ms, m, v, hms, hm, hv⟩ := given_of_decided hprice
  obtain ⟨ns, n, w, hns, hn, hw⟩ := given_of_decided hpulses
  refine ⟨c, ?_, ?_, ?_⟩
  · rw [mqttConfigCallback, mqttCallback_doc reads_config _ _ (ho.mono json_le_raw) room, hc]; rfl
  · rw [hv, h1, show selectedFor configNames (text "price") _ = ms ++ [m] from hms, List.foldl_append,
      price_of_ofMember hm]
    rfl
  · rw [hw, h2, show selectedFor configNames (text "pulses") _ = ns ++ [n] from hns, List.foldl_append,
      pulses_of_ofMember hn]
    rfl

theorem callback_enable {o : Doc} (ho : o.Wf json) (room : (docTokens o).length ≤ MQTT_MAX_JSON_TOKENS)
    (hs : SoundMembers .enable o.root) (tail : List Byte) :
    ∃ e, mqttEnableCallback o.text tail = some [.enable e] ∧ Field.enabled.given o.root = some e.enable := by
  obtain ⟨e, he⟩ := setMembers_enable (o.root.members 0) ⟨0⟩
  have h := field_of_enable he
  obtain ⟨ms, m, v, hms, hm, hv⟩ := given_of_decided hs
  refine ⟨e, ?_, ?_⟩
  · rw [mqttEnableCallback, mqttCallback_doc reads_enable _ _ (ho.mono json_le_raw) room, he]; rfl
  · rw [hv, h, show selectedFor enableNames (text "enable") _ = ms ++ [m] from hms, List.foldl_append,
      enabled_of_ofMember hm]
    rfl

/-- What a payload does to the configuration: the fields it gives, and no others. -/
structure Obeys (d : Delivery) (cfg cfg' : SystemConfig) : Prop where
  gives : ∀ f v, d.Gives f v → f.get cfg' = v
  keeps : ∀ f : Field, (∀ v, ¬ d.Gives f v) → f.get cfg' = f.get cfg

theorem delivery_gives_iff {d : Delivery} {o : Doc} (ho : o.Wf json) (ht : o.text = d.payload) (hobj : IsObject o.root)
    {f : Field} {v : f.Val} : d.Gives f v ↔ d.topic = f.topic ∧ f.given o.root = some v := by
  constructor
  · rintro ⟨htopic, hg⟩
    rw [← ht] at hg
    exact ⟨htopic, given_of_gives ho hg⟩
  · rintro ⟨htopic, hg⟩
    exact ⟨htopic, o, ho, ht, hobj, hg⟩

theorem receive_config {s : App} {payload tail : List Byte} {o : Doc} (ho : o.Wf json) (ht : o.text = payload)
    (hobj : IsObject o.root) (room : (docTokens o).length ≤ MQTT_MAX_JSON_TOKENS) (hs : SoundMembers .config o.root)
    (hname : s.sysCfg.name = appInit.sysCfg.name) :
    ∃ t, receive s ⟨.config, payload, tail⟩ = some t ∧ t.sysCfg.name = appInit.sysCfg.name ∧
      Obeys ⟨.config, payload, tail⟩ s.sysCfg t.sysCfg := by
  have hiff := fun f v => @delivery_gives_iff ⟨.config, payload, tail⟩ o ho ht hobj f v
  obtain ⟨c, hcall, hprice, hpulses⟩ := callback_config ho room hs tail
  rw [ht] at hcall
  refine ⟨appStep s (.config c), by rw [receive, callback]; simp [hcall], ?_, ?_, ?_⟩
  · rw [appStep, App.sysCfg_onConfigEvent]; exact hname
  · intro f v hv
    obtain ⟨htopic, hv⟩ := (hiff f v).1 hv
    rw [appStep, App.sysCfg_onConfigEvent]
    cases f with
    | name => exact hname.trans (hs.2.1 v hv).symm
    | price => exact Option.some.inj (hprice.symm.trans hv)
    | pulses => exact Option.some.inj (hpulses.symm.trans hv)
    | enabled => cases htopic
  · intro f hnot
    rw [appStep, App.sysCfg_onConfigEvent]
    cases f with
    | name => rfl
    | price => exact absurd ((hiff .price _).2 ⟨rfl, hprice⟩) (hnot _)
    | pulses => exact absurd ((hiff .pulses _).2 ⟨rfl, hpulses⟩) (hnot _)
    | enabled => rfl

theorem receive_enable {s : App} {payload tail : List Byte} {o : Doc} (ho : o.Wf json) (ht : o.text = payload)
    (hobj : IsObject o.root) (room : (docTokens o).length ≤ MQTT_MAX_JSON_TOKENS) (hs : SoundMembers .enable o.root)
    (hname : s.sysCfg.name = appInit.sysCfg.name) :
    ∃ t, receive s ⟨.enable, payload, tail⟩ = some t ∧ t.sysCfg.name = appInit.sysCfg.name ∧
      Obeys ⟨.enable, payload, tail⟩ s.sysCfg t.sysCfg := by
  have hiff := fun f v => @delivery_gives_iff ⟨.enable, payload, tail⟩ o ho ht hobj f v
  obtain ⟨e, hcall, hen⟩ := callback_enable ho room hs tail
  rw [ht] at hcall
  refine ⟨appStep s (.enable e), by rw [receive, callback]; simp [hcall], ?_, ?_, ?_⟩
  · rw [appStep, App.sysCfg_onEnableEvent]; exact hname
  · intro f v hv
    obtain ⟨htopic, hv⟩ := (hiff f v).1 hv
    rw [appStep, App.sysCfg_onEnableEvent]
    cases f with
    | enabled => exact Option.some.inj (hen.symm.trans hv)
    | _ => cases htopic
  · intro f hnot
    rw [appStep, App.sysCfg_onEnableEvent]
    cases f with
    | enabled => exact absurd ((hiff .enabled _).2 ⟨rfl, hen⟩) (hnot _)
    | _ => rfl

/-- **A sound payload is obeyed**, by a device that has its name from boot. -/
theorem receive_sound {s : App} {d : Delivery} (hd : Sound d) (hname : s.sysCfg.name = appInit.sysCfg.name) :
    ∃ t, receive s d = some t ∧ t.sysCfg.name = appInit.sysCfg.name ∧ Obeys d s.sysCfg t.sysCfg := by
  rcases hd with ⟨⟨e, he⟩, hnone⟩ | ⟨o, ho, ht, hobj, room, hs⟩
  · refine ⟨s, ?_, hname, fun f v hv => absurd hv (hnone f v), fun _ _ => rfl⟩
    unfold receive callback
    cases d.topic <;> simp [mqttConfigCallback, mqttEnableCallback, mqttCallback, he]
  · obtain ⟨topic, payload, tail⟩ := d
    cases topic with
    | config => exact receive_config ho ht hobj room hs hname
    | enable => exact receive_enable ho ht hobj room hs hname

/-! ## All payloads -/

theorem follows_concat {ds : List Delivery} {d : Delivery} {cfg cfg' : SystemConfig} (h : Follows ds cfg)
    (hd : Obeys d cfg cfg') : Follows (ds ++ [d]) cfg' := by
  intro f
  refine ⟨fun pre d' post v heq hv hpost => ?_, fun hnone => ?_⟩
  · rcases List.eq_nil_or_concat post with rfl | ⟨post', q, rfl⟩
    · obtain ⟨-, hdd⟩ := List.append_inj' heq rfl
      obtain ⟨rfl, -⟩ := List.cons.inj hdd
      exact hd.gives f v hv
    · rw [List.concat_eq_append] at heq hpost
      rw [← List.cons_append, ← List.append_assoc] at heq
      obtain ⟨hds, hq⟩ := List.append_inj' heq rfl
      obtain ⟨rfl, -⟩ := List.cons.inj hq
      rw [hd.keeps f (hpost d (by simp))]
      exact (h f).1 pre d' post' v hds hv (fun q hq => hpost q (by simp [hq]))
  · rw [hd.keeps f (hnone d (by simp))]
    exact (h f).2 (fun q hq => hnone q (by simp [hq]))

/-- **The configuration follows sound payloads**: over every sequence of them, each field ends with the value of the
last payload that gave it one, or with its value at boot. -/
theorem follows_of_sound (ds : List Delivery) (h : ∀ d ∈ ds, Sound d) :
    ∃ s, receiveAll ds = some s ∧ Follows ds s.sysCfg := by
  suffices hrun : ∃ s, receiveAll ds = some s ∧ s.sysCfg.name = appInit.sysCfg.name ∧ Follows ds s.sysCfg by
    obtain ⟨s, hs, -, hf⟩ := hrun
    exact ⟨s, hs, hf⟩
  induction ds using List.reverseRecOn with
  | nil =>
    refine ⟨appInit.startMessage, rfl, rfl, fun f => ⟨fun pre d post v heq => ?_, fun _ => rfl⟩⟩
    simp at heq
  | append_singleton ds d ih =>
    obtain ⟨s, hs, hname, hf⟩ := ih (fun q hq => h q (by simp [hq]))
    obtain ⟨t, ht, hname', hobeys⟩ := receive_sound (h d (by simp)) hname
    refine ⟨t, ?_, hname', follows_concat hf hobeys⟩
    rw [receiveAll, List.foldlM_append, show ds.foldlM receive appInit.startMessage = some s from hs]
    simp [ht]

def plainHead (key : List Byte) : Head := ⟨[], some (key, [], [])⟩

def single (key t : List Byte) : Doc := ⟨[], .box .object (.items (.last (plainHead key) (.prim t) [])), []⟩

def bothNumbers : Doc :=
  ⟨[], .box .object (.items (.more (plainHead (text "price")) (.prim (text "500")) []
    (.last (plainHead (text "pulses")) (.prim (text "2")) []))), []⟩

theorem wf_plainHead {key : List Byte} (h : StrBody json.char key) : (plainHead key).Wf json .object :=
  ⟨blank_nil, h, blank_nil, blank_nil⟩

theorem wf_single {key t : List Byte} (hkey : StrBody json.char key) (ht : json.prim t) : (single key t).Wf json :=
  ⟨blank_nil, ⟨wf_plainHead hkey, ht, blank_nil⟩, blank_nil⟩

theorem prim_500 : json.prim (text "500") := prim_of_digits (by unfold Digits; decide) (by decide)

theorem prim_1 : json.prim (text "1") := prim_of_digits (by unfold Digits; decide) (by decide)

theorem prim_2 : json.prim (text "2") := prim_of_digits (by unfold Digits; decide) (by decide)

theorem wf_bothNumbers : bothNumbers.Wf json :=
  ⟨blank_nil, ⟨wf_plainHead (strBody_of_chars (by unfold json; decide)), prim_500, blank_nil,
    wf_plainHead (strBody_of_chars (by unfold json; decide)), prim_2, blank_nil⟩, blank_nil⟩

theorem plain_bothNumbers : ∀ m ∈ bothNumbers.root.members 0, 0x5C ∉ m.key := by decide

theorem plain_single (key t : List Byte) (h : 0x5C ∉ key) : ∀ m ∈ (single key t).root.members 0, 0x5C ∉ m.key := by
  intro m hm
  rw [List.mem_singleton.1 (show m ∈ [Member.mk 0 key (.prim t)] from hm)]
  exact h

theorem sound_bothNumbers : Sound ⟨.config, bothNumbers.text, []⟩ := by
  refine Or.inr ⟨bothNumbers, wf_bothNumbers, rfl, trivial, by decide, ?_, ?_, ?_, ?_⟩
  · unfold NameFits
    decide
  · intro v hv
    rw [given_plain _ plain_bothNumbers] at hv
    cases hv
  · refine ⟨[], _, [_], rfl, by decide, by rw [ofMember_plain _ (by decide)]; rfl, fun k hk => ?_⟩
    rw [List.mem_singleton.1 hk]
    exact ⟨by decide, (ofMember_plain _ (by decide)).trans (if_neg (by decide))⟩
  · exact ⟨[_], _, [], rfl, by decide, by rw [ofMember_plain _ (by decide)]; rfl, by simp⟩

theorem sound_enableOne : Sound ⟨.enable, (single (text "enable") (text "1")).text, []⟩ := by
  refine Or.inr ⟨_, wf_single (strBody_of_chars (by unfold json; decide)) prim_1, rfl, trivial, by decide,
    ⟨[], _, [], rfl, by decide, ?_, by simp⟩⟩
  rw [ofMember_plain _ (by decide)]
  rfl

theorem follows_of_sound_two :
    ∃ s, receiveAll [⟨.config, text "\x7b\"price\":500,\"pulses\":2\x7d", []⟩, ⟨.enable, text "\x7b\"enable\":1\x7d", []⟩] =
      some s ∧ s.sysCfg.price = 500 ∧ s.sysCfg.pulsesPerCredit = 2 ∧ s.sysCfg.enabled = 1 := by
  have hsound : ∀ d ∈ [Delivery.mk .config bothNumbers.text [], ⟨.enable, (single (text "enable") (text "1")).text, []⟩],
      Sound d := by
    intro d hd
    simp only [List.mem_cons, List.not_mem_nil, or_false] at hd
    rcases hd with rfl | rfl
    · exact sound_bothNumbers
    · exact sound_enableOne
  obtain ⟨s, hs, hf⟩ := follows_of_sound _ hsound
  have hboth := fun f v => @delivery_gives_iff ⟨.config, bothNumbers.text, []⟩ _ wf_bothNumbers rfl trivial f v
  have hprice := given_plain .price plain_bothNumbers
  have hpulses := given_plain .pulses plain_bothNumbers
  have henabled := given_plain .enabled (plain_single (text "enable") (text "1") (by decide))
  have hlater : ∀ f, f.topic = Topic.config → ∀ q ∈ [Delivery.mk .enable (single (text "enable") (text "1")).text []],
      ∀ v, ¬ q.Gives f v := by
    rintro f htopic q hq v ⟨hq', -⟩
    rw [List.mem_singleton.1 hq, htopic] at hq'
    cases hq'
  refine ⟨s, hs, ?_, ?_, ?_⟩
  · exact (hf .price).1 [] _ _ (500 : UInt32) rfl ((hboth .price _).2 ⟨rfl, hprice⟩) (hlater _ rfl)
  · exact (hf .pulses).1 [] _ _ (2 : UInt32) rfl ((hboth .pulses _).2 ⟨rfl, hpulses⟩) (hlater _ rfl)
  · exact (hf .enabled).1 [_] _ [] (1 : Int32) rfl ((delivery_gives_iff (wf_single (strBody_of_chars (by unfold json; decide)) prim_1)
      rfl trivial).2 ⟨rfl, henabled⟩) (by simp)

/-- **A configuration that omits its pulses clears them.** -/
theorem price_alone_clears_pulses : ¬ ∀ ds : List Delivery, ∃ s, receiveAll ds = some s ∧ Follows ds s.sysCfg := by
  have hcall : mqttConfigCallback (text "\x7b\"price\":500\x7d") [] = some [.config (ConfigEvt.zero.setPrice 500)] := by
    decide +kernel
  intro h
  obtain ⟨s, hs, hf⟩ := h [⟨.config, text "\x7b\"price\":500\x7d", []⟩]
  have hzero : s.sysCfg.pulsesPerCredit = 0 := by
    have hone : receive appInit.startMessage ⟨.config, text "\x7b\"price\":500\x7d", []⟩ = some s := by
      simpa [receiveAll] using hs
    simp only [receive, callback, hcall, Option.map_some, List.foldl_cons, List.foldl_nil, Option.some.injEq] at hone
    rw [← hone, appStep, App.sysCfg_onConfigEvent]
    rfl
  have hkeep := (hf .pulses).2 (fun q hq v hg => by
    rw [List.mem_singleton.1 hq] at hg
    have hgiven := given_of_gives (wf_single (strBody_of_chars (b := text "price") (by unfold json; decide)) prim_500) hg.2
    rw [given_plain _ (plain_single (text "price") (text "500") (by decide))] at hgiven
    cases hgiven)
  have hboot : s.sysCfg.pulsesPerCredit = appInit.sysCfg.pulsesPerCredit := hkeep
  rw [hzero] at hboot
  exact absurd hboot (by decide)

end MqttLink
end RtPay
