/-
The settings of the service and their variables. Each setting has a variable of
its own, a kind of value and a default; it is what its variable spells, if it
spells a value of that kind, and the default otherwise, whatever the other
variables hold. A configuration that is written to an environment, setting by
setting, is read back from it (`settings_from_own_variables`).

What a kind spells is said by `SettingKind.Spells`, apart from the readers;
`parse?_eq_some` says that the readers read exactly that.
-/
import FizzService.Proofs.Validation

namespace FizzService

/-! ## Unsigned numbers -/

namespace Text

/-- An optional plus sign and one or more ASCII digits of the value `n`, nothing
else. -/
inductive Unsigned (n : Nat) : List Char → Prop
  | intro (sign digits : List Char) (plus : sign = [] ∨ sign = ['+']) (nonempty : digits ≠ [])
    (ascii : ∀ c ∈ digits, c.isDigit = true) (value : Nat.ofDigitChars 10 digits 0 = n) :
    Unsigned n (sign ++ digits)

variable {cs : List Char} {n : Nat}

theorem unsigned?_eq_some : unsigned? cs = some n ↔ Unsigned n cs := by
  constructor
  · intro h
    unfold unsigned? at h
    split at h <;> obtain ⟨nonempty, ascii, value⟩ := digits?_eq_some.1 h
    · exact .intro ['+'] _ (.inr rfl) nonempty ascii value
    · exact .intro [] _ (.inl rfl) nonempty ascii value
  · rintro ⟨sign, digits, plus, nonempty, ascii, value⟩
    have hdigits : digits? digits = some n := digits?_eq_some.2 ⟨nonempty, ascii, value⟩
    rcases plus with rfl | rfl
    · rw [List.nil_append, unsigned?_of_isDigit ascii, hdigits]
    · exact hdigits

/-- A number is spelled by the digits that it is printed as. -/
theorem unsigned_toDigits (n : Nat) : Unsigned n (Nat.toDigits 10 n) := by
  obtain ⟨nonempty, ascii, value⟩ := digits?_eq_some.1 (digits?_toDigits n)
  exact .intro [] _ (.inl rfl) nonempty ascii value

/-- A word is read where a number is spelled that fits in it. -/
theorem map_below?_eq_some {α : Type} {size : Nat} {ofNat : Nat → α} {toNat : α → Nat} {a : α}
    (fits : ∀ a, toNat a < size) (ofNat_toNat : ∀ a, ofNat (toNat a) = a)
    (toNat_ofNat : ∀ n, n < size → toNat (ofNat n) = n) :
    (below? size cs).map ofNat = some a ↔ Unsigned (toNat a) cs := by
  simp only [Option.map_eq_some_iff, below?, Option.filter_eq_some_iff, unsigned?_eq_some, decide_eq_true_eq]
  constructor
  · rintro ⟨n, ⟨h, hn⟩, rfl⟩
    rwa [toNat_ofNat n hn]
  · intro h
    exact ⟨toNat a, ⟨h, fits a⟩, ofNat_toNat a⟩

end Text

/-! ## Kinds of settings -/

/-- A port, a flag, or a size or number of seconds. -/
inductive SettingKind where
  | port
  | flag
  | word

namespace SettingKind

abbrev Value : SettingKind → Type
  | port => UInt16
  | flag => Bool
  | word => UInt64

/-- The text that a value is written as. -/
def text : (kind : SettingKind) → kind.Value → String
  | port, n => toString n.toNat
  | flag, b => if b then "true" else "false"
  | word, n => toString n.toNat

/-- The texts that spell a value: a number has many, a flag has one. -/
def Spells : (kind : SettingKind) → List Char → kind.Value → Prop
  | port, cs, n => Text.Unsigned n.toNat cs
  | flag, cs, b => cs = (text flag b).toList
  | word, cs, n => Text.Unsigned n.toNat cs

def parse? : (kind : SettingKind) → List Char → Option kind.Value
  | port => Config.word16?
  | flag => Config.flag?
  | word => Config.word64?

theorem spells_text (kind : SettingKind) (v : kind.Value) : kind.Spells (kind.text v).toList v := by
  have hnumber : ∀ n : Nat, Text.Unsigned n (toString n).toList := fun n => by
    rw [Nat.toString_eq_repr, Nat.toList_repr]
    exact Text.unsigned_toDigits n
  cases kind with
  | port => exact hnumber (UInt16.toNat v)
  | flag => rfl
  | word => exact hnumber (UInt64.toNat v)

theorem flag?_eq_some {cs : List Char} {b : Bool} : Config.flag? cs = some b ↔ flag.Spells cs b := by
  unfold Config.flag? Spells
  by_cases htrue : cs = "true".toList
  · subst htrue
    cases b <;> decide
  · by_cases hfalse : cs = "false".toList
    · subst hfalse
      cases b <;> decide
    · rw [if_neg htrue, if_neg hfalse]
      cases b with
      | true => exact iff_of_false (fun h => by cases h) htrue
      | false => exact iff_of_false (fun h => by cases h) hfalse

/-- The reader of a kind reads what spells a value of it, and nothing else. -/
theorem parse?_eq_some {kind : SettingKind} {cs : List Char} {v : kind.Value} :
    kind.parse? cs = some v ↔ kind.Spells cs v := by
  cases kind with
  | port =>
    exact Text.map_below?_eq_some UInt16.toNat_lt (fun _ => UInt16.ofNat_toNat) fun _ => UInt16.toNat_ofNat_of_lt'
  | flag => exact flag?_eq_some
  | word =>
    exact Text.map_below?_eq_some UInt64.toNat_lt (fun _ => UInt64.ofNat_toNat) fun _ => UInt64.toNat_ofNat_of_lt'

end SettingKind

/-! ## The settings -/

inductive Setting where
  | serverPort
  | cacheEnabled
  | entryMaxSize
  | entryTtl
  | negativeMaxSize
  | negativeTtl
  | maxAcceptedBytes
  | pruneBatch
  | maxStale
  | refreshQueueCapacity
  | cleanupInterval
  | shutdownTimeout
  | maxNb
  | maxLimit
  | maxStrChars

namespace Setting

def kind : Setting → SettingKind
  | serverPort => .port
  | cacheEnabled => .flag
  | _ => .word

/-- The variable of a setting. -/
def name : Setting → String
  | serverPort => "SERVER_PORT"
  | cacheEnabled => "CACHE_ENABLED"
  | entryMaxSize => "CACHE_ENTRY_MAX_SIZE"
  | entryTtl => "CACHE_ENTRY_TTL"
  | negativeMaxSize => "CACHE_NEGATIVE_MAX_SIZE"
  | negativeTtl => "CACHE_NEGATIVE_TTL"
  | maxAcceptedBytes => "CACHE_MAX_ACCEPTED_BYTES"
  | pruneBatch => "CACHE_PRUNE_BATCH"
  | maxStale => "CACHE_MAX_STALE"
  | refreshQueueCapacity => "REFRESH_QUEUE_CAPACITY"
  | cleanupInterval => "CLEANUP_INTERVAL"
  | shutdownTimeout => "SHUTDOWN_TIMEOUT"
  | maxNb => "MAX_NB"
  | maxLimit => "MAX_LIMIT"
  | maxStrChars => "MAX_STR_CHARS"

/-- The value where the variable spells none. -/
def default : (s : Setting) → s.kind.Value
  | serverPort => (8080 : UInt16)
  | cacheEnabled => true
  | entryMaxSize => (1000 : UInt64)
  | entryTtl => (300 : UInt64)
  | negativeMaxSize => (1000 : UInt64)
  | negativeTtl => (60 : UInt64)
  | maxAcceptedBytes => (1048576 : UInt64)
  | pruneBatch => (0 : UInt64)
  | maxStale => (3600 : UInt64)
  | refreshQueueCapacity => (1000 : UInt64)
  | cleanupInterval => (30 : UInt64)
  | shutdownTimeout => (5 : UInt64)
  | maxNb => (100000 : UInt64)
  | maxLimit => (100000 : UInt64)
  | maxStrChars => (100 : UInt64)

def all : List Setting :=
  [serverPort, cacheEnabled, entryMaxSize, entryTtl, negativeMaxSize, negativeTtl, maxAcceptedBytes, pruneBatch,
    maxStale, refreshQueueCapacity, cleanupInterval, shutdownTimeout, maxNb, maxLimit, maxStrChars]

/-- The setting that a variable is for. -/
def ofName? (name : String) : Option Setting := all.find? (·.name = name)

/-- No two settings share a variable. -/
theorem ofName?_name (s : Setting) : ofName? s.name = some s := by
  cases s <;> rfl

end Setting

namespace Config

def get (c : Config) : (s : Setting) → s.kind.Value
  | .serverPort => c.serverPort
  | .cacheEnabled => c.cacheEnabled
  | .entryMaxSize => c.entryMaxSize
  | .entryTtl => c.entryTtl
  | .negativeMaxSize => c.negativeMaxSize
  | .negativeTtl => c.negativeTtl
  | .maxAcceptedBytes => c.maxAcceptedBytes
  | .pruneBatch => c.pruneBatch
  | .maxStale => c.maxStale
  | .refreshQueueCapacity => c.refreshQueueCapacity
  | .cleanupInterval => c.cleanupInterval
  | .shutdownTimeout => c.shutdownTimeout
  | .maxNb => c.limits.maxNb
  | .maxLimit => c.limits.maxLimit
  | .maxStrChars => c.limits.maxStrChars

/-- A configuration has nothing besides its settings. -/
theorem ext_get {c c' : Config} (h : ∀ s, c.get s = c'.get s) : c = c' := by
  obtain ⟨_, _, _, _, _, _, _, _, _, _, _, _, _, _, _⟩ := c
  obtain ⟨_, _, _, _, _, _, _, _, _, _, _, _, _, _, _⟩ := c'
  simp only [Config.mk.injEq, Limits.mk.injEq]
  exact ⟨h .serverPort, h .cacheEnabled, h .entryMaxSize, h .entryTtl, h .negativeMaxSize, h .negativeTtl,
    h .maxAcceptedBytes, h .pruneBatch, h .maxStale, h .refreshQueueCapacity, h .cleanupInterval, h .shutdownTimeout,
    h .maxNb, h .maxLimit, h .maxStrChars⟩

/-- What is not configured has its default. -/
theorem get_defaults (s : Setting) : ({} : Config).get s = s.default := by
  cases s <;> rfl

end Config

/-! ## Reading an environment -/

namespace Environment

variable {env env' : Environment} {s : Setting}

/-- The variable of a setting is set, to UTF-8 text that spells a value. -/
def Gives (env : Environment) (s : Setting) (v : s.kind.Value) : Prop :=
  ∃ text : String, env s.name = some text.toUTF8 ∧ s.kind.Spells text.toList v

/-- The environment with every setting of a configuration written to its variable. -/
def write (env : Environment) (c : Config) : Environment := fun name =>
  match Setting.ofName? name with
  | some s => some (s.kind.text (c.get s)).toUTF8
  | none => env name

theorem fromUTF8?_eq_some {bytes : ByteArray} {text : String} :
    String.fromUTF8? bytes = some text ↔ bytes = text.toUTF8 := by
  unfold String.fromUTF8?
  constructor
  · intro h
    split at h
    · cases h
      rfl
    · cases h
  · rintro rfl
    exact dif_pos text.isValidUTF8

theorem read?_eq_some {v : s.kind.Value} : env.read? s.kind.parse? s.name = some v ↔ env.Gives s v := by
  simp only [read?, Gives, bind, Option.bind_eq_some_iff, fromUTF8?_eq_some, SettingKind.parse?_eq_some]
  constructor
  · rintro ⟨_, hset, text, rfl, hspells⟩
    exact ⟨text, hset, hspells⟩
  · rintro ⟨text, hset, hspells⟩
    exact ⟨_, hset, text, rfl, hspells⟩

theorem gives_write (env : Environment) (c : Config) (s : Setting) : (env.write c).Gives s (c.get s) := by
  refine ⟨s.kind.text (c.get s), ?_, s.kind.spells_text (c.get s)⟩
  simp only [write, Setting.ofName?_name]

end Environment

namespace Config

/-- Every setting is read from its own variable, with its own default. -/
theorem get_ofEnvironment (env : Environment) (s : Setting) :
    (ofEnvironment env).get s = (env.read? s.kind.parse? s.name).getD s.default := by
  cases s <;> rfl

theorem get_ofEnvironment_iff (env : Environment) (s : Setting) (v : s.kind.Value) :
    (ofEnvironment env).get s = v ↔ env.Gives s v ∨ (∀ w, ¬ env.Gives s w) ∧ v = s.default := by
  simp only [get_ofEnvironment, ← Environment.read?_eq_some]
  cases env.read? s.kind.parse? s.name with
  | none => simp [eq_comm]
  | some w => simp [eq_comm]

end Config

/-- The sizes and numbers of seconds of a configuration, in its part for the cache. -/
structure CacheConfig.Carries (cache : CacheConfig) (c : Config) : Prop where
  entryMaxSize : cache.entryMaxSize = c.entryMaxSize
  entryTtl : cache.entryTtl.seconds = c.entryTtl.toNat ∧ cache.entryTtl.nanos = 0
  negativeMaxSize : cache.negativeMaxSize = c.negativeMaxSize
  negativeTtl : cache.negativeTtl.seconds = c.negativeTtl.toNat ∧ cache.negativeTtl.nanos = 0
  maxAcceptedBytes : cache.maxAcceptedBytes = c.maxAcceptedBytes
  pruneBatch : cache.pruneBatch = c.pruneBatch
  maxStale : cache.maxStale.seconds = c.maxStale.toNat ∧ cache.maxStale.nanos = 0
  refreshQueueCapacity : cache.refreshQueueCapacity = c.refreshQueueCapacity

namespace Config

theorem cache_carries (c : Config) : c.cache.Carries c where
  entryMaxSize := rfl
  entryTtl := ⟨Duration.seconds_ofSeconds _, Duration.nanos_ofSeconds _⟩
  negativeMaxSize := rfl
  negativeTtl := ⟨Duration.seconds_ofSeconds _, Duration.nanos_ofSeconds _⟩
  maxAcceptedBytes := rfl
  pruneBatch := rfl
  maxStale := ⟨Duration.seconds_ofSeconds _, Duration.nanos_ofSeconds _⟩
  refreshQueueCapacity := rfl

/-- **Each setting comes from its own variable.** Whatever bytes the variables
hold, a setting is the value that its variable spells, if it is UTF-8 and spells
one, and its default otherwise; other variables do not matter to it. A
configuration whose settings are written to their variables is read back whole,
and its part for the cache has each size and each number of seconds as it is
there. -/
theorem settings_from_own_variables :
    (∀ s, ({} : Config).get s = s.default) ∧
    (∀ (env : Environment) (s : Setting) (v : s.kind.Value), (ofEnvironment env).get s = v ↔
      env.Gives s v ∨ (∀ w, ¬ env.Gives s w) ∧ v = s.default) ∧
    (∀ (env env' : Environment) (s : Setting), env s.name = env' s.name →
      (ofEnvironment env).get s = (ofEnvironment env').get s) ∧
    ∀ (env : Environment) (c : Config), ofEnvironment (env.write c) = c ∧
      (ofEnvironment (env.write c)).cache.Carries c := by
  refine ⟨get_defaults, get_ofEnvironment_iff, fun env env' s hsame => ?_, fun env c => ?_⟩
  · rw [get_ofEnvironment, get_ofEnvironment, Environment.read?, Environment.read?, hsame]
  · have hback : ofEnvironment (env.write c) = c :=
      ext_get fun s => (get_ofEnvironment_iff _ s _).2 (.inl (env.gives_write c s))
    rw [hback]
    exact ⟨rfl, c.cache_carries⟩

/-- A port with a sign and a zero before it, and nothing else. -/
def signedPort : Environment := fun name => if name = "SERVER_PORT" then some "+0443".toUTF8 else none

/-- The same, and a flag that is not UTF-8. -/
def brokenFlag : Environment := fun name => if name = "CACHE_ENABLED" then some ⟨#[0xff]⟩ else signedPort name

/-- The port is read in spite of the flag, which has its default. -/
theorem settings_from_own_variables_port :
    signedPort Setting.serverPort.name = brokenFlag Setting.serverPort.name ∧
      (ofEnvironment signedPort).serverPort = 443 ∧ (ofEnvironment brokenFlag).serverPort = 443 ∧
      (ofEnvironment brokenFlag).cacheEnabled = true := by
  obtain ⟨-, hread, hown, -⟩ := settings_from_own_variables
  have hsame : signedPort Setting.serverPort.name = brokenFlag Setting.serverPort.name := rfl
  have hport : (ofEnvironment signedPort).serverPort = 443 :=
    (hread signedPort .serverPort (443 : UInt16)).2
      (.inl ⟨"+0443", rfl, .intro ['+'] ['0', '4', '4', '3'] (.inr rfl) (by decide) (by simp) rfl⟩)
  exact ⟨hsame, hport, (hown _ _ .serverPort hsame).symm.trans hport, by decide⟩

end Config

end FizzService
