import RtPay.Event
import RtPay.Lib.CStr
import RtPay.Lib.Last
import RtPay.MqttKeys
/-!
# MqttLink — the callbacks of mqtt_link.c

The three callbacks are the shared loop at their own `strncmp` chains.  A chain takes a key for the first of its names
the key is a prefix of; on members that are all taken, each field of the event is up to the members of its name
(`fields_of_config`).
-/
namespace RtPay
namespace MqttLink

open Bytes CStr JsonText Jsmn Last

/-! ## The callbacks -/

/-- The `strncmp` chain of `mqtt_config_callback`. -/
def onConfigKey (config : ConfigEvt) (key : List Byte) (keyLen : Nat) (value : List Byte) (valueLen : Nat) :
    Option ConfigEvt :=
  if strncmp key (text "name") keyLen = 0 then config.store 0 (strncpyBytes value valueLen)
  else if strncmp key (text "price") keyLen = 0 then some (config.setPrice (UInt32.ofInt (atoi value)))
  else if strncmp key (text "pulses") keyLen = 0 then some (config.setPulses (UInt16.ofInt (atoi value)))
  else some config

def onCreditKey (credit : CreditEvt) (key : List Byte) (keyLen : Nat) (value : List Byte) (_valueLen : Nat) :
    Option CreditEvt :=
  if strncmp key (text "balance") keyLen = 0 then some { credit with balance := UInt32.ofInt (atoi value) }
  else if strncmp key (text "count") keyLen = 0 then some { credit with count := UInt16.ofInt (atoi value) }
  else some credit

def onEnableKey (enableMsg : EnableEvt) (key : List Byte) (keyLen : Nat) (value : List Byte) (_valueLen : Nat) :
    Option EnableEvt :=
  if strncmp key (text "enable") keyLen = 0 then some { enableMsg with enable := Int32.ofInt (atoi value) }
  else some enableMsg

/-- `mqtt_config_callback`: the events it pushes. -/
def mqttConfigCallback (payload tail : List Byte) : Option (List Event) :=
  mqttCallback onConfigKey ConfigEvt.zero Event.config payload tail

def mqttAddCoinsCallback (payload tail : List Byte) : Option (List Event) :=
  mqttCallback onCreditKey ⟨0, 0⟩ Event.credit payload tail

def mqttEnableCallback (payload tail : List Byte) : Option (List Event) :=
  mqttCallback onEnableKey ⟨0⟩ Event.enable payload tail

/-! ## The chains on keys and values -/

/-- The name a chain takes a key for: the first one the key is a prefix of. -/
def selected (names : List (List Byte)) (key : List Byte) : Option (List Byte) :=
  names.find? (fun n => decide (key <+: n))

def configNames : List (List Byte) := [text "name", text "price", text "pulses"]
def creditNames : List (List Byte) := [text "balance", text "count"]
def enableNames : List (List Byte) := [text "enable"]

/-- The branch a selected name leads to. -/
def setConfig (config : ConfigEvt) (key span : List Byte) : Option ConfigEvt :=
  match selected configNames key with
  | none => some config
  | some n =>
    if n = text "name" then config.store 0 span
    else if n = text "price" then some (config.setPrice (UInt32.ofInt (atoi span)))
    else some (config.setPulses (UInt16.ofInt (atoi span)))

def setCredit (credit : CreditEvt) (key span : List Byte) : Option CreditEvt :=
  match selected creditNames key with
  | none => some credit
  | some n =>
    if n = text "balance" then some { credit with balance := UInt32.ofInt (atoi span) }
    else some { credit with count := UInt16.ofInt (atoi span) }

def setEnable (enableMsg : EnableEvt) (key span : List Byte) : Option EnableEvt :=
  match selected enableNames key with
  | none => some enableMsg
  | some _ => some { enableMsg with enable := Int32.ofInt (atoi span) }

theorem reads_of {σ : Type} {onKey : σ → List Byte → Nat → List Byte → Nat → Option σ}
    {set : σ → List Byte → List Byte → Option σ}
    (h : ∀ (acc : σ) (k s r r' : List Byte), 0 ∉ k → 0 ∉ s →
      onKey acc (k ++ r) k.length (s ++ 0 :: r') s.length = set acc k s) : Reads onKey set := by
  rintro acc k s key value hk hs ⟨r, rfl⟩ ⟨r', rfl⟩
  rw [List.append_assoc]
  exact h acc k s r r' hk hs

theorem reads_config : Reads onConfigKey setConfig := by
  refine reads_of (fun config k s r r' hk hs => ?_)
  simp only [onConfigKey, setConfig, selected, configNames, List.find?_cons, strncmp_eq_zero_iff k r _ hk,
    strncpyBytes_terminated hs, atoi_terminated]
  by_cases h1 : k <+: text "name"
  · simp [h1]
  · by_cases h2 : k <+: text "price"
    · simp only [h1, h2, decide_true, decide_false, if_true, if_false]
      rw [if_neg (by decide)]
    · by_cases h3 : k <+: text "pulses"
      · simp only [h1, h2, h3, decide_true, decide_false, if_true, if_false]
        rw [if_neg (by decide), if_neg (by decide)]
      · simp [h1, h2, h3]

theorem reads_credit : Reads onCreditKey setCredit := by
  refine reads_of (fun credit k s r r' hk hs => ?_)
  simp only [onCreditKey, setCredit, selected, creditNames, List.find?_cons, strncmp_eq_zero_iff k r _ hk,
    atoi_terminated]
  by_cases h1 : k <+: text "balance"
  · simp [h1]
  · by_cases h2 : k <+: text "count"
    · simp only [h1, h2, decide_true, decide_false, if_true, if_false]
      rw [if_neg (by decide)]
    · simp [h1, h2]

theorem reads_enable : Reads onEnableKey setEnable := by
  refine reads_of (fun enableMsg k s r r' hk hs => ?_)
  simp only [onEnableKey, setEnable, selected, enableNames, List.find?_cons, strncmp_eq_zero_iff k r _ hk,
    atoi_terminated]
  by_cases h1 : k <+: text "enable" <;> simp [h1]

/-! ## Members that are all taken -/

theorem setCredit_some (credit : CreditEvt) (k s : List Byte) : ∃ credit', setCredit credit k s = some credit' := by
  unfold setCredit
  split
  · exact ⟨_, rfl⟩
  · split <;> exact ⟨_, rfl⟩

theorem setMembers_credit (ms : List Member) (credit : CreditEvt) : ∃ credit', setMembers setCredit ms credit = some credit' := by
  unfold setMembers
  exact foldlM_total (fun credit m => setCredit_some credit m.key m.value.span) ms credit

theorem setEnable_some (enableMsg : EnableEvt) (k s : List Byte) : ∃ enableMsg', setEnable enableMsg k s = some enableMsg' := by
  unfold setEnable
  split <;> exact ⟨_, rfl⟩

theorem setMembers_enable (ms : List Member) (enableMsg : EnableEvt) :
    ∃ enableMsg', setMembers setEnable ms enableMsg = some enableMsg' := by
  unfold setMembers
  exact foldlM_total (fun enableMsg m => setEnable_some enableMsg m.key m.value.span) ms enableMsg

/-! ## The last member selected -/

def selectedFor (names : List (List Byte)) (n : List Byte) (ms : List Member) : List Member :=
  ms.filter (fun m => decide (selected names m.key = some n))

/-- A field that only the members of its name change ends with what the last of them made of it. -/
theorem field_of_setMembers {σ β : Type} {set : σ → List Byte → List Byte → Option σ} {names : List (List Byte)}
    {n : List Byte} (π : σ → β) (g : β → List Byte → β) (ok : Member → Prop)
    (hset : ∀ c m c', ok m → set c m.key m.value.span = some c' →
      π c' = if selected names m.key = some n then g (π c) m.value.span else π c) :
    ∀ (ms : List Member) (c c' : σ), (∀ m ∈ ms, ok m) → setMembers set ms c = some c' →
      π c' = (selectedFor names n ms).foldl (fun b m => g b m.value.span) (π c)
  | [], c, c', _, h => by cases h; rfl
  | m :: ms, c, c', hok, h => by
    obtain ⟨d, hd, hrest⟩ := Option.bind_eq_some_iff.1 (show (set c m.key m.value.span).bind (setMembers set ms) = _ from h)
    have ih := field_of_setMembers π g ok hset ms d c' (fun k hk => hok k (List.mem_cons_of_mem _ hk)) hrest
    rw [ih, hset c m d (hok m List.mem_cons_self) hd, selectedFor, selectedFor, List.filter_cons]
    split <;> simp_all

/-! ## The fields of a config event -/

def NameFits (m : Member) : Prop :=
  selected configNames m.key = some (text "name") → m.value.span.length ≤ MAX_DEVICE_NAME_LEN

theorem setConfig_of_fits (config : ConfigEvt) {m : Member} (h : NameFits m) :
    ∃ config', setConfig config m.key m.value.span = some config' := by
  unfold setConfig
  cases hs : selected configNames m.key with
  | none => exact ⟨_, rfl⟩
  | some n =>
    simp only
    split
    · rename_i hn
      have hl := h (by rw [hs, hn])
      exact config.store_of_le _ _ (by rw [Nat.zero_add]; exact Nat.le_trans hl (by decide))
    · split <;> exact ⟨_, rfl⟩

theorem setMembers_config_of_fits (ms : List Member) (config : ConfigEvt) (h : ∀ m ∈ ms, NameFits m) :
    ∃ config', setMembers setConfig ms config = some config' := by
  unfold setMembers
  exact foldlM_isSome (fun config (m : Member) (hm : NameFits m) => setConfig_of_fits config hm) config h

theorem fields_of_setConfig {c c' : ConfigEvt} {m : Member} (hm : NameFits m)
    (h : setConfig c m.key m.value.span = some c') :
    c'.name = (if selected configNames m.key = some (text "name") then
        m.value.span ++ c.name.drop m.value.span.length else c.name) ∧
      c'.price = (if selected configNames m.key = some (text "price") then UInt32.ofInt (atoi m.value.span)
        else c.price) ∧
      c'.pulsesPerCredit = (if selected configNames m.key = some (text "pulses") then
        UInt16.ofInt (atoi m.value.span) else c.pulsesPerCredit) := by
  unfold setConfig at h
  cases hs : selected configNames m.key with
  | none =>
    rw [hs] at h
    cases h
    simp
  | some n =>
    rw [hs] at h
    dsimp only at h
    have hn : n ∈ configNames := List.mem_of_find?_eq_some hs
    simp only [configNames, List.mem_cons, List.not_mem_nil, or_false] at hn
    rcases hn with rfl | rfl | rfl
    · rw [if_pos rfl] at h
      obtain ⟨hp, hq⟩ := ConfigEvt.numbers_of_store_name h (hm hs)
      rw [if_pos rfl, if_neg (by decide), if_neg (by decide)]
      exact ⟨ConfigEvt.name_of_store_name h (hm hs), hp, hq⟩
    · rw [if_neg (by decide), if_pos rfl] at h
      cases h
      rw [if_neg (by decide), if_pos rfl, if_neg (by decide)]
      simp
    · rw [if_neg (by decide), if_neg (by decide)] at h
      cases h
      rw [if_neg (by decide), if_neg (by decide), if_pos rfl]
      simp

/-- **The fields of a config event**, each from the members taken for its name. -/
theorem fields_of_config {ms : List Member} (hms : ∀ m ∈ ms, NameFits m) {c : ConfigEvt}
    (h : setMembers setConfig ms ConfigEvt.zero = some c) :
    c.name = (selectedFor configNames (text "name") ms).foldl (fun n m => m.value.span ++ n.drop m.value.span.length)
        ConfigEvt.zero.name ∧
      c.price = (selectedFor configNames (text "price") ms).foldl (fun _ m => UInt32.ofInt (atoi m.value.span)) 0 ∧
      c.pulsesPerCredit =
        (selectedFor configNames (text "pulses") ms).foldl (fun _ m => UInt16.ofInt (atoi m.value.span)) 0 :=
  ⟨field_of_setMembers ConfigEvt.name (fun n s => s ++ n.drop s.length) NameFits
      (fun _ _ _ hm h => (fields_of_setConfig hm h).1) ms _ c hms h,
    field_of_setMembers ConfigEvt.price (fun _ s => UInt32.ofInt (atoi s)) NameFits
      (fun _ _ _ hm h => (fields_of_setConfig hm h).2.1) ms _ c hms h,
    field_of_setMembers ConfigEvt.pulsesPerCredit (fun _ s => UInt16.ofInt (atoi s)) NameFits
      (fun _ _ _ hm h => (fields_of_setConfig hm h).2.2) ms _ c hms h⟩

end MqttLink
end RtPay
