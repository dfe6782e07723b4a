import Atp.DoubleText
import Atp.LogRecord
import Mathlib.Data.List.AList

/-!
The flags of the mains: lists of items between commas, each of them a number, an
equals sign and what it stands for.  Whatever the parsers can make sense of they
accept, and the rest makes them fail.
-/

namespace Atp.FlagParsers

open LogRecord

/-- What goes wrong in a parser: a cast throws, or a vector is read past its end. -/
inductive Failure where
  | badLexicalCast | outOfRange
deriving DecidableEq

structure SessionSetting where
  id : UInt32
  gatewayIp : Text
  gatewayPort : UInt32
  connectorReactorAddress : Text
deriving DecidableEq

/-- `std::getline` with a delimiter: what comes before it, and what is left. -/
def getline (delim : Char) (iss : Text) : Text × Text :=
  (iss.takeWhile (· ≠ delim), (iss.dropWhile (· ≠ delim)).drop 1)

/-- The word that `iss >>` reads. -/
def nextWord (iss : Text) : Text := firstWord (iss.dropWhile isSpace)

/-- `lexical_cast<unsigned int>`; a negated number wraps. -/
def uint32 (s : Text) : Except BadLexicalCast UInt32 := do
  let (negative, s) := LexicalCast.takeSign s
  let n ← LexicalCast.digitsValue s
  if n < 4294967296 then .ok (if negative then 0 - UInt32.ofNat n else UInt32.ofNat n)
  else .error .badLexicalCast

def cast {α : Type} (x : Except BadLexicalCast α) : Except Failure α :=
  x.mapError fun _ => .badLexicalCast

def parseSessionSettingFromString (input : Text) : Except Failure (Bool × SessionSetting) := do
  let (sessionId, iss) := getline '=' input
  let sessionId ← cast (uint32 sessionId)
  let (gatewayIpPort, iss) := getline '@' iss
  match gatewayIpPort.splitOn ':' with
  | host :: port :: _ => do
      let port ← cast (LexicalCast.int port)
      .ok (true, ⟨sessionId, host, port.toUInt32, nextWord iss⟩)
  | _ => .error .outOfRange

def parseChannelSettingFromString (input : Text) : Except Failure (Bool × (UInt32 × Text)) := do
  let (channelId, iss) := getline '=' input
  let channelId ← cast (uint32 channelId)
  .ok (true, (channelId, nextWord iss))

/-- The loop over the items of a flag, which stores each item as soon as it is parsed:
what is returned, and what has been stored. -/
def parseSpecs {α β : Type} (parse : Text → Except Failure (Bool × α)) (store : β → α → β) :
    List Text → β → Except Failure Bool × β
  | [], stored => (.ok true, stored)
  | spec :: specs, stored =>
      match parse spec with
      | .error failure => (.error failure, stored)
      | .ok (true, item) => parseSpecs parse store specs (store stored item)
      | .ok (false, _) => (.ok false, stored)

def parseSessionSettingsFromFlag (flagValue : Text) (settings : List SessionSetting) :
    Except Failure Bool × List SessionSetting :=
  parseSpecs parseSessionSettingFromString (fun settings setting => settings ++ [setting])
    (flagValue.splitOn ',') settings

def parseOutboundChannelMapFromFlag (flagValue : Text)
    (outboundMap : AList fun _ : Int32 => Text) :
    Except Failure Bool × AList fun _ : Int32 => Text :=
  parseSpecs parseChannelSettingFromString
    (fun outboundMap item => outboundMap.insert item.1.toInt32 item.2)
    (flagValue.splitOn ',') outboundMap

/-! ### The grammar -/

/-- A decimal number below a bound. -/
structure IsNumber (s : Text) (bound : Nat) : Prop where
  ne_nil : s ≠ []
  digits : ∀ c ∈ s, c.isDigit = true
  lt : Nat.ofDigitChars 10 s 0 < bound

/-- A word without commas. -/
structure IsEndpoint (s : Text) : Prop where
  ne_nil : s ≠ []
  chars : ∀ c ∈ s, c ≠ ',' ∧ isSpace c = false

structure IsHost (s : Text) : Prop where
  ne_nil : s ≠ []
  chars : ∀ c ∈ s, c ≠ '=' ∧ c ≠ ':' ∧ c ≠ '@' ∧ c ≠ ',' ∧ isSpace c = false

/-- `{id}={host}:{port}@{endpoint}`. -/
structure SettingSpec where
  id : Text
  host : Text
  port : Text
  endpoint : Text
  isNumber_id : IsNumber id 4294967296
  isHost : IsHost host
  isNumber_port : IsNumber port 2147483648
  isEndpoint : IsEndpoint endpoint

/-- `{channel}={endpoint}`. -/
structure ChannelSpec where
  channel : Text
  endpoint : Text
  isNumber_channel : IsNumber channel 2147483648
  isEndpoint : IsEndpoint endpoint

def SettingSpec.text (spec : SettingSpec) : Text :=
  spec.id ++ '=' :: (spec.host ++ ':' :: spec.port ++ '@' :: spec.endpoint)

def SettingSpec.setting (spec : SettingSpec) : SessionSetting where
  id := UInt32.ofNat (Nat.ofDigitChars 10 spec.id 0)
  gatewayIp := spec.host
  gatewayPort := UInt32.ofNat (Nat.ofDigitChars 10 spec.port 0)
  connectorReactorAddress := spec.endpoint

def ChannelSpec.text (spec : ChannelSpec) : Text := spec.channel ++ '=' :: spec.endpoint

def ChannelSpec.key (spec : ChannelSpec) : Int32 :=
  Int32.ofInt (Nat.ofDigitChars 10 spec.channel 0)

/-- The flag is a list of items between commas. -/
def Grammar {σ : Type} (text : σ → Text) (flagValue : Text) (specs : List σ) : Prop :=
  specs ≠ [] ∧ flagValue = [','].intercalate (specs.map text)

/-- A flag in the grammar is accepted and all its items are stored in order; any other is
refused and nothing is stored. -/
structure Conforms {σ β : Type} (text : σ → Text) (store : β → σ → β) (flagValue : Text)
    (stored : β) (result : Except Failure Bool × β) : Prop where
  accepts : ∀ specs, Grammar text flagValue specs → result = (.ok true, specs.foldl store stored)
  refuses : (¬ ∃ specs, Grammar text flagValue specs) → result = (.ok false, stored)

def storeSetting (settings : List SessionSetting) (spec : SettingSpec) : List SessionSetting :=
  settings ++ [spec.setting]

def storeChannel (outboundMap : AList fun _ : Int32 => Text) (spec : ChannelSpec) :
    AList fun _ : Int32 => Text :=
  outboundMap.insert spec.key spec.endpoint

/-! ### The loop -/

section

variable {α β σ : Type} {parse : Text → Except Failure (Bool × α)} {store : β → α → β}

/-- The loop returns false only if the parser of the items does. -/
theorem parseSpecs_ne_false (hparse : ∀ spec item, parse spec ≠ .ok (false, item))
    (specs : List Text) (stored stored' : β) :
    parseSpecs parse store specs stored ≠ (.ok false, stored') := by
  induction specs generalizing stored with
  | nil => exact nofun
  | cons spec specs ih =>
      rw [parseSpecs]
      split
      · exact nofun
      · exact ih _
      · rename_i item hitem
        exact absurd hitem (hparse spec item)

theorem parseSpecs_map {text : σ → Text} {item : σ → α}
    (hparse : ∀ spec, parse (text spec) = .ok (true, item spec)) (specs : List σ) (stored : β) :
    parseSpecs parse store (specs.map text) stored =
      (.ok true, specs.foldl (fun stored spec => store stored (item spec)) stored) := by
  induction specs generalizing stored with
  | nil => rfl
  | cons spec specs ih =>
      rw [List.map_cons, parseSpecs, hparse]
      exact ih _

/-- A flag is parsed as it should be if and only if it is in the grammar. -/
theorem conforms_parseSpecs_iff {text : σ → Text} {item : σ → α} {store' : β → σ → β}
    (hstore : ∀ stored spec, store stored (item spec) = store' stored spec)
    (hparse : ∀ spec, parse (text spec) = .ok (true, item spec))
    (hcomma : ∀ spec, ',' ∉ text spec)
    (hfalse : ∀ spec item, parse spec ≠ .ok (false, item)) (flagValue : Text) (stored : β) :
    Conforms text store' flagValue stored
        (parseSpecs parse store (flagValue.splitOn ',') stored) ↔
      ∃ specs, Grammar text flagValue specs := by
  constructor
  · intro hconforms
    by_contra hnone
    exact parseSpecs_ne_false hfalse _ _ _ (hconforms.refuses hnone)
  · intro hgrammar
    refine ⟨?_, fun hnone => absurd hgrammar hnone⟩
    rintro specs ⟨hne, rfl⟩
    have hsplit : ([','].intercalate (specs.map text)).splitOn ',' = specs.map text := by
      apply List.splitOn_intercalate
      · intro field hfield
        obtain ⟨spec, -, rfl⟩ := List.mem_map.mp hfield
        exact hcomma spec
      · simpa using hne
    rw [hsplit, parseSpecs_map hparse]
    simp only [hstore]

end

/-! ### The items -/

theorem getline_append {delim : Char} {s : Text} (hs : delim ∉ s) (rest : Text) :
    getline delim (s ++ delim :: rest) = (s, rest) := by
  have hne := Text.forall_ne_of_not_mem hs
  rw [getline, Text.takeWhile_append_cons hne (by simp), Text.dropWhile_append_cons hne (by simp)]
  rfl

theorem nextWord_endpoint {endpoint : Text} (hendpoint : IsEndpoint endpoint) :
    nextWord endpoint = endpoint := by
  obtain ⟨c, rest, rfl⟩ := List.exists_cons_of_ne_nil hendpoint.ne_nil
  have hspace : ∀ d ∈ c :: rest, isSpace d = false := fun d hd => (hendpoint.chars d hd).2
  rw [nextWord, List.dropWhile_cons_of_neg (by rw [hspace c List.mem_cons_self]; decide)]
  exact firstWord_eq_self hspace

theorem not_mem_number {s : Text} {bound : Nat} (hs : IsNumber s bound) {c : Char}
    (hc : c.isDigit = false) : c ∉ s := by
  intro hmem
  rw [hs.digits c hmem] at hc
  cases hc

theorem uint32_number {s : Text} (hs : IsNumber s 4294967296) :
    uint32 s = .ok (UInt32.ofNat (Nat.ofDigitChars 10 s 0)) := by
  rw [uint32, LexicalCast.takeSign_of_digits hs.digits]
  simp only [LexicalCast.digitsValue_of_digits hs.digits hs.ne_nil, ok_bind]
  rw [if_pos hs.lt]
  rfl

theorem toUInt32_ofInt (n : Nat) : (Int32.ofInt n).toUInt32 = UInt32.ofNat n := by
  apply UInt32.toBitVec_inj.mp
  exact BitVec.ofInt_natCast 32 n

theorem toInt32_ofNat (n : Nat) : (UInt32.ofNat n).toInt32 = Int32.ofInt n := by
  rw [← toUInt32_ofInt]
  rfl

theorem parseSessionSettingFromString_text (spec : SettingSpec) :
    parseSessionSettingFromString spec.text = .ok (true, spec.setting) := by
  have hid : '=' ∉ spec.id := not_mem_number spec.isNumber_id (by decide)
  have hport : ':' ∉ spec.port ∧ '@' ∉ spec.port :=
    ⟨not_mem_number spec.isNumber_port (by decide), not_mem_number spec.isNumber_port (by decide)⟩
  have hhost : ':' ∉ spec.host ∧ '@' ∉ spec.host :=
    ⟨fun h => (spec.isHost.chars _ h).2.1 rfl, fun h => (spec.isHost.chars _ h).2.2.1 rfl⟩
  have hat : '@' ∉ spec.host ++ ':' :: spec.port := by
    rw [List.mem_append, List.mem_cons]
    rintro (h | h | h)
    · exact hhost.2 h
    · cases h
    · exact hport.2 h
  have hsplit : (spec.host ++ ':' :: spec.port).splitOn ':' = [spec.host, spec.port] := by
    rw [List.splitOn_append_cons_self_of_not_mem hhost.1, List.splitOn_eq_singleton hport.1]
  rw [parseSessionSettingFromString, SettingSpec.text, getline_append hid]
  simp only [uint32_number spec.isNumber_id, cast, Except.mapError, ok_bind,
    getline_append hat, hsplit, LexicalCast.int_of_digits spec.isNumber_port.digits
      spec.isNumber_port.ne_nil spec.isNumber_port.lt, toUInt32_ofInt,
    nextWord_endpoint spec.isEndpoint]
  rfl

theorem parseChannelSettingFromString_text (spec : ChannelSpec) :
    parseChannelSettingFromString spec.text =
      .ok (true, (UInt32.ofNat (Nat.ofDigitChars 10 spec.channel 0), spec.endpoint)) := by
  have hchannel : '=' ∉ spec.channel := not_mem_number spec.isNumber_channel (by decide)
  have hnumber : IsNumber spec.channel 4294967296 :=
    ⟨spec.isNumber_channel.ne_nil, spec.isNumber_channel.digits,
      spec.isNumber_channel.lt.trans (by decide)⟩
  rw [parseChannelSettingFromString, ChannelSpec.text, getline_append hchannel]
  simp only [uint32_number hnumber, cast, Except.mapError, ok_bind,
    nextWord_endpoint spec.isEndpoint]

theorem parseSessionSettingFromString_ne_false (input : Text) (setting : SessionSetting) :
    parseSessionSettingFromString input ≠ .ok (false, setting) := by
  intro hfalse
  unfold parseSessionSettingFromString at hfalse
  obtain ⟨sessionId, -, hrest⟩ := ok_of_bind hfalse
  generalize getline '@' (getline '=' input).2 = gateway at hrest
  obtain ⟨gatewayIpPort, iss⟩ := gateway
  dsimp only at hrest
  split at hrest
  · obtain ⟨port, -, hdone⟩ := ok_of_bind hrest
    cases hdone
  · cases hrest

theorem parseChannelSettingFromString_ne_false (input : Text) (item : UInt32 × Text) :
    parseChannelSettingFromString input ≠ .ok (false, item) := by
  intro hfalse
  obtain ⟨channelId, -, hdone⟩ := ok_of_bind hfalse
  cases hdone

theorem comma_not_mem_settingText (spec : SettingSpec) : ',' ∉ spec.text := by
  have hid := not_mem_number spec.isNumber_id (by decide : ','.isDigit = false)
  have hport := not_mem_number spec.isNumber_port (by decide : ','.isDigit = false)
  have hhost : ',' ∉ spec.host := fun h => (spec.isHost.chars _ h).2.2.2.1 rfl
  have hendpoint : ',' ∉ spec.endpoint := fun h => (spec.isEndpoint.chars _ h).1 rfl
  simp [SettingSpec.text, hid, hport, hhost, hendpoint]

theorem comma_not_mem_channelText (spec : ChannelSpec) : ',' ∉ spec.text := by
  have hchannel := not_mem_number spec.isNumber_channel (by decide : ','.isDigit = false)
  have hendpoint : ',' ∉ spec.endpoint := fun h => (spec.isEndpoint.chars _ h).1 rfl
  simp [ChannelSpec.text, hchannel, hendpoint]

/-! ### The flags -/

/-- The parsers of both flags do as they should for exactly the flags that are in their
grammars. -/
theorem conforms_iff_grammar (settingsFlag channelsFlag : Text) (settings : List SessionSetting)
    (outboundMap : AList fun _ : Int32 => Text) :
    (Conforms SettingSpec.text storeSetting settingsFlag settings
        (parseSessionSettingsFromFlag settingsFlag settings) ↔
      ∃ specs, Grammar SettingSpec.text settingsFlag specs) ∧
    (Conforms ChannelSpec.text storeChannel channelsFlag outboundMap
        (parseOutboundChannelMapFromFlag channelsFlag outboundMap) ↔
      ∃ specs, Grammar ChannelSpec.text channelsFlag specs) := by
  constructor
  · refine conforms_parseSpecs_iff ?_ parseSessionSettingFromString_text
      comma_not_mem_settingText parseSessionSettingFromString_ne_false _ _
    intro stored spec
    rfl
  · refine conforms_parseSpecs_iff ?_ parseChannelSettingFromString_text
      comma_not_mem_channelText parseChannelSettingFromString_ne_false _ _
    intro stored spec
    rw [storeChannel, ChannelSpec.key, toInt32_ofNat]

/-- One item is stored before the next one makes the parser throw. -/
theorem not_conforms_throws :
    ¬ Conforms SettingSpec.text storeSetting "1=h:2@e,x".toList []
      (parseSessionSettingsFromFlag "1=h:2@e,x".toList []) := by
  intro hconforms
  have hresult : parseSessionSettingsFromFlag "1=h:2@e,x".toList [] =
      (.error .badLexicalCast, [⟨1, ['h'], 2, ['e']⟩]) := by decide
  rw [hresult] at hconforms
  by_cases hgrammar : ∃ specs, Grammar SettingSpec.text "1=h:2@e,x".toList specs
  · obtain ⟨specs, hspecs⟩ := hgrammar
    cases hconforms.accepts specs hspecs
  · cases hconforms.refuses hgrammar

end Atp.FlagParsers
