/-
The configuration of the service and its reading from environment variables: every variable that
is missing, is not UTF-8 or does not parse leaves its setting at the default.
-/
import FizzService.Config.Cache
import FizzService.Text.Number

namespace FizzService

/-- The bounds on what a client may ask for. -/
structure Limits where
  maxNb : UInt64 := 100000
  maxLimit : UInt64 := 100000
  /-- The length of a replacement in bytes. -/
  maxStrChars : UInt64 := 100
deriving DecidableEq, Repr, Inhabited

/-- Lifetimes, intervals and timeouts are in seconds. -/
structure Config where
  serverPort : UInt16 := 8080
  cacheEnabled : Bool := true
  entryMaxSize : UInt64 := 1000
  entryTtl : UInt64 := 300
  negativeMaxSize : UInt64 := 1000
  negativeTtl : UInt64 := 60
  maxAcceptedBytes : UInt64 := 1048576
  pruneBatch : UInt64 := 0
  maxStale : UInt64 := 3600
  refreshQueueCapacity : UInt64 := 1000
  cleanupInterval : UInt64 := 30
  shutdownTimeout : UInt64 := 5
  limits : Limits := {}
deriving DecidableEq, Repr, Inhabited

/-- The bytes of each variable that is set. -/
abbrev Environment := String → Option ByteArray

namespace Environment

/-- The setting that a variable spells, if it does. -/
def read? {α : Type} (parse : List Char → Option α) (env : Environment) (name : String) :
    Option α := do
  let bytes ← env name
  let text ← String.fromUTF8? bytes
  parse text.toList

end Environment

namespace Config

def word16? (cs : List Char) : Option UInt16 := (Text.below? UInt16.size cs).map UInt16.ofNat

def word64? (cs : List Char) : Option UInt64 := (Text.below? UInt64.size cs).map UInt64.ofNat

def flag? (cs : List Char) : Option Bool :=
  if cs = "true".toList then some true
  else if cs = "false".toList then some false
  else none

def ofEnvironment (env : Environment) : Config :=
  let defaults : Config := {}
  let word (name : String) (default : UInt64) := (env.read? word64? name).getD default
  { serverPort := (env.read? word16? "SERVER_PORT").getD defaults.serverPort
    cacheEnabled := (env.read? flag? "CACHE_ENABLED").getD defaults.cacheEnabled
    entryMaxSize := word "CACHE_ENTRY_MAX_SIZE" defaults.entryMaxSize
    entryTtl := word "CACHE_ENTRY_TTL" defaults.entryTtl
    negativeMaxSize := word "CACHE_NEGATIVE_MAX_SIZE" defaults.negativeMaxSize
    negativeTtl := word "CACHE_NEGATIVE_TTL" defaults.negativeTtl
    maxAcceptedBytes := word "CACHE_MAX_ACCEPTED_BYTES" defaults.maxAcceptedBytes
    pruneBatch := word "CACHE_PRUNE_BATCH" defaults.pruneBatch
    maxStale := word "CACHE_MAX_STALE" defaults.maxStale
    refreshQueueCapacity := word "REFRESH_QUEUE_CAPACITY" defaults.refreshQueueCapacity
    cleanupInterval := word "CLEANUP_INTERVAL" defaults.cleanupInterval
    shutdownTimeout := word "SHUTDOWN_TIMEOUT" defaults.shutdownTimeout
    limits :=
      { maxNb := word "MAX_NB" defaults.limits.maxNb
        maxLimit := word "MAX_LIMIT" defaults.limits.maxLimit
        maxStrChars := word "MAX_STR_CHARS" defaults.limits.maxStrChars } }

/-- The part of the configuration that concerns the cache. -/
def cache (c : Config) : CacheConfig where
  entryMaxSize := c.entryMaxSize
  entryTtl := .ofSeconds c.entryTtl.toNat
  negativeMaxSize := c.negativeMaxSize
  negativeTtl := .ofSeconds c.negativeTtl.toNat
  maxAcceptedBytes := c.maxAcceptedBytes
  pruneBatch := c.pruneBatch
  maxStale := .ofSeconds c.maxStale.toNat
  refreshQueueCapacity := c.refreshQueueCapacity

end Config

end FizzService
