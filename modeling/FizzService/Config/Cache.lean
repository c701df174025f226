/-
The size limits and lifetimes of the cache. `validated` refuses a zero where it would make the
cache useless and cuts what is out of bounds to the nearest bound.
-/
import FizzService.Time

namespace FizzService

structure CacheConfig where
  entryMaxSize : UInt64
  entryTtl : Duration
  negativeMaxSize : UInt64
  negativeTtl : Duration
  /-- The longest body, in bytes, that is kept as an entry. -/
  maxAcceptedBytes : UInt64
  /-- The number of items that make room for one; zero leaves the choice to the store's size. -/
  pruneBatch : UInt64
  /-- How long an expired entry may still be served. -/
  maxStale : Duration
  refreshQueueCapacity : UInt64
deriving DecidableEq, Repr

/-- The settings that must not be zero, in the order in which they are checked. -/
inductive PositiveSetting where
  | entryTtl
  | negativeTtl
  | negativeMaxSize
  | maxAcceptedBytes
  | refreshQueueCapacity
deriving DecidableEq, Repr

namespace PositiveSetting

def name : PositiveSetting → String
  | entryTtl => "entry_ttl"
  | negativeTtl => "negative_ttl"
  | negativeMaxSize => "negative_max_size"
  | maxAcceptedBytes => "max_accepted_bytes"
  | refreshQueueCapacity => "refresh_queue_capacity"

def all : List PositiveSetting :=
  [entryTtl, negativeTtl, negativeMaxSize, maxAcceptedBytes, refreshQueueCapacity]

end PositiveSetting

/-- Why a cache configuration is refused. -/
inductive ConfigError where
  | zero (setting : PositiveSetting)
deriving DecidableEq, Repr

def ConfigError.message : ConfigError → String
  | zero setting => "Invalid value for " ++ setting.name ++ ": must be greater than zero"

namespace CacheConfig

/-- The fewest entries that a cache has room for. -/
def minEntries : UInt64 := 10

def isZero (c : CacheConfig) : PositiveSetting → Bool
  | .entryTtl => c.entryTtl == 0
  | .negativeTtl => c.negativeTtl == 0
  | .negativeMaxSize => c.negativeMaxSize == 0
  | .maxAcceptedBytes => c.maxAcceptedBytes == 0
  | .refreshQueueCapacity => c.refreshQueueCapacity == 0

/-- The configuration with every size and duration inside its bounds. -/
def clamped (c : CacheConfig) : CacheConfig :=
  { c with
    entryMaxSize := max c.entryMaxSize minEntries
    entryTtl := min c.entryTtl Duration.century
    negativeTtl := min c.negativeTtl Duration.century
    maxStale := min c.maxStale Duration.century }

/-- The configuration that a cache is built from; the first setting that must not be zero and is
speaks for all. -/
def validated (c : CacheConfig) : Except ConfigError CacheConfig :=
  match PositiveSetting.all.find? c.isZero with
  | some setting => .error (.zero setting)
  | none => .ok c.clamped

/-- The number of items that make room for one in a store of the given capacity: at least one, at
most all, and by default a twentieth of them and one more. -/
def pruneBatchFor (c : CacheConfig) (capacity : UInt64) : UInt64 :=
  let batch := if c.pruneBatch = 0 then capacity / 20 + 1 else c.pruneBatch
  max 1 (min batch (max capacity 1))

end CacheConfig

end FizzService
