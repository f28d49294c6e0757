/-
Module: UCache.Core.Settings
Purpose: The settings and the layers they come from: the plugin conf, the state file in the cache
  directory, the environment.  What a layer sets is what is left of it once the layers above have had
  their say, except for one flag.
Trusted boundary: none
Main exports: ConfigKey, Settings, layers_only_by_precedence
-/
import UCache.Core.MetaFile
import UCache.Transpose.Key

namespace UCache

/-! ### Numbers in text -/

namespace CText

def isSpace (b : UInt8) : Bool := b = 32 || (9 ≤ b && b ≤ 13)

def isDigit (b : UInt8) : Bool := 48 ≤ b && b ≤ 57

/-- What a C function sees of a string. -/
def cString (s : Bytes) : Bytes := s.takeWhile (· ≠ 0)

def ofDigits (s : Bytes) : Nat := (s.takeWhile isDigit).foldl (fun n b => 10 * n + (b.toNat - 48)) 0

/-- An optional sign, and the digits after it. -/
def signed (s : Bytes) : Bool × Nat :=
  match (cString s).dropWhile isSpace with
  | b :: rest => if b = 45 then (true, ofDigits rest)
      else if b = 43 then (false, ofDigits rest) else (false, ofDigits (b :: rest))
  | [] => (false, 0)

/-- `strtoul`: too large a number becomes the largest one. -/
def strtoul (s : Bytes) : Nat :=
  let (neg, n) := signed s
  if 2 ^ 64 ≤ n then 2 ^ 64 - 1 else if neg then (2 ^ 64 - n) % 2 ^ 64 else n

/-- `strtol`: numbers out of range become the nearest one in it. -/
def strtol (s : Bytes) : Int :=
  let (neg, n) := signed s
  if neg then max (-(n : Int)) (-2 ^ 63) else min (n : Int) (2 ^ 63 - 1)

/-- `atoi`: cut to 32 bits. -/
def atoi (s : Bytes) : Int := (strtol s + 2 ^ 31) % 2 ^ 32 - 2 ^ 31

/-- `static_cast<uint32_t>(atol(s))`. -/
def atolU32 (s : Bytes) : Nat := (strtol s % 2 ^ 32).toNat

/-- `std::getline` over a whole text. -/
def getlines (sep : UInt8) (s : Bytes) : List Bytes :=
  let parts := s.splitOn sep
  if parts.getLast? = some [] then parts.dropLast else parts

/-- [SRC Config.cc:19-27] -/
def splitCommas (s : Bytes) : List Bytes := (getlines 44 s).filter (· ≠ [])

/-- [SRC Config.cc:29-34] -/
def trim (s : Bytes) : Bytes :=
  let blank : UInt8 → Bool := fun b => b = 32 || b = 9 || b = 13 || b = 10
  ((s.dropWhile blank).reverse.dropWhile blank).reverse

/-- [SRC Config.cc:36-40] -/
def unquote (s : Bytes) : Bytes :=
  match s with
  | q :: rest =>
      if rest ≠ [] ∧ (q = 34 ∨ q = 39) ∧ rest.getLast? = some q then rest.dropLast else s
  | [] => s

/-- [SRC Config.cc:44-58] The line up to the first `#` outside quotes; `q` is the open quote. -/
def stripComment : Option UInt8 → Bytes → Bytes
  | _, [] => []
  | some q, c :: rest => c :: stripComment (if c = q then none else some q) rest
  | none, c :: rest =>
      if c = 34 ∨ c = 39 then c :: stripComment (some c) rest
      else if c = 35 then [] else c :: stripComment none rest

/-- [SRC Config.cc:63-78] A byte size; nothing without a leading digit. -/
def parseBytes (s : Bytes) : Option Nat :=
  match cString s with
  | b :: rest =>
      if !isDigit b then none
      else
        let n := min (ofDigits (b :: rest)) (2 ^ 64 - 1)
        let mult := match (rest.dropWhile isDigit).head? with
          | some c =>
              if c = 107 ∨ c = 75 then 2 ^ 10
              else if c = 109 ∨ c = 77 then 2 ^ 20
              else if c = 103 ∨ c = 71 then 2 ^ 30
              else if c = 116 ∨ c = 84 then 2 ^ 40 else 1
          | none => 1
        some (n * mult % 2 ^ 64)
  | [] => none

/-- [SRC Config.cc:82-86] The page size a text asks for, before it is checked. -/
def pageSizeOf (s : Bytes) : Nat :=
  let p := strtoul s % 2 ^ 32
  match ((cString s).dropWhile isDigit).head? with
  | some c =>
      if c = 107 ∨ c = 75 then p * 1024 % 2 ^ 32
      else if c = 109 ∨ c = 77 then p * (1024 * 1024) % 2 ^ 32 else p
  | none => p

/-- [SRC Config.cc:81-91] The page size `c` after a text was given for it. -/
def setPageSize (c : Nat) (s : Bytes) : Nat :=
  if Config.validPageSize (pageSizeOf s) then pageSizeOf s else c

/-- [SRC Config.cc:114] -/
def truthy (s : Bytes) : Bool := s = ascii "1" || s = ascii "true" || s = ascii "on"

def falsy (s : Bytes) : Bool := s = ascii "0" || s = ascii "off" || s = ascii "false"

end CText

open CText

/-! ### Keys -/

inductive ConfigKey where
  | dir | pageSize | maxBytes | minFreeBytes | evictCheckSeconds | evictProtectSeconds | highWater
  | lowWater | validate | fsync | threads | maxErrors | metaFlushSeconds | fillBufferMb
  | fillBufferTotalMb | prefetch | prefetchWindowMb | prefetchRamMb | prefetchJoin | prefetchDepth
  | prefetchBridgeKb | prefetchThreads | prefetchMapCacheMb | revalidateSeconds | openRetries
  | openRetryBaseMs | openRetryMaxMs | disable | transpose | announce | copyDetect
  | maxReadFraction | recompress | recompressKeepOriginals | recompressCodecs | recompressReclaim
  | trace | traceSample | keepCgi | allow | deny | log
deriving DecidableEq, Repr

namespace ConfigKey

/-- [SRC Config.cc:376-422] A key with its name in files and in the environment. -/
def knownKeys : List (ConfigKey × String × String) :=
  [(.dir, "dir", "UCACHE_DIR"),
    (.pageSize, "page_size", "UCACHE_PAGE_SIZE"),
    (.maxBytes, "max_bytes", "UCACHE_MAX_BYTES"),
    (.minFreeBytes, "min_free_bytes", "UCACHE_MIN_FREE_BYTES"),
    (.evictCheckSeconds, "evict_check_seconds", "UCACHE_EVICT_CHECK_S"),
    (.evictProtectSeconds, "evict_protect_seconds", "UCACHE_EVICT_PROTECT_S"),
    (.highWater, "high_water", "UCACHE_HIGH_WATER"),
    (.lowWater, "low_water", "UCACHE_LOW_WATER"),
    (.validate, "validate", "UCACHE_VALIDATE"),
    (.fsync, "fsync", "UCACHE_FSYNC"),
    (.threads, "threads", "UCACHE_THREADS"),
    (.maxErrors, "max_errors", "UCACHE_MAX_ERRORS"),
    (.metaFlushSeconds, "meta_flush_seconds", "UCACHE_META_FLUSH_S"),
    (.fillBufferMb, "fill_buffer_mb", "UCACHE_FILL_BUFFER_MB"),
    (.fillBufferTotalMb, "fill_buffer_total_mb", "UCACHE_FILL_BUFFER_TOTAL_MB"),
    (.prefetch, "prefetch", "UCACHE_PREFETCH"),
    (.prefetchWindowMb, "prefetch_window_mb", "UCACHE_PREFETCH_WINDOW_MB"),
    (.prefetchRamMb, "prefetch_ram_mb", "UCACHE_PREFETCH_RAM_MB"),
    (.prefetchJoin, "prefetch_join", "UCACHE_PREFETCH_JOIN"),
    (.prefetchDepth, "prefetch_depth", "UCACHE_PREFETCH_DEPTH"),
    (.prefetchBridgeKb, "prefetch_bridge_kb", "UCACHE_PREFETCH_BRIDGE_KB"),
    (.prefetchThreads, "prefetch_threads", "UCACHE_PREFETCH_THREADS"),
    (.prefetchMapCacheMb, "prefetch_map_cache_mb", "UCACHE_PREFETCH_MAP_CACHE_MB"),
    (.revalidateSeconds, "revalidate_seconds", "UCACHE_REVALIDATE_S"),
    (.openRetries, "open_retries", "UCACHE_OPEN_RETRIES"),
    (.openRetryBaseMs, "open_retry_base_ms", "UCACHE_OPEN_RETRY_BASE_MS"),
    (.openRetryMaxMs, "open_retry_max_ms", "UCACHE_OPEN_RETRY_MAX_MS"),
    (.disable, "disable", "UCACHE_DISABLE"),
    (.transpose, "transpose", "UCACHE_TRANSPOSE"),
    (.announce, "announce", "UCACHE_ANNOUNCE"),
    (.copyDetect, "copy_detect", "UCACHE_COPY_DETECT"),
    (.maxReadFraction, "max_read_fraction", "UCACHE_MAX_READ_FRACTION"),
    (.recompress, "recompress", "UCACHE_RECOMPRESS"),
    (.recompressKeepOriginals, "recompress_keep_originals", "UCACHE_RECOMPRESS_KEEP_ORIGINALS"),
    (.recompressCodecs, "recompress_codecs", "UCACHE_RECOMPRESS_CODECS"),
    (.recompressReclaim, "recompress_reclaim", "UCACHE_RECOMPRESS_RECLAIM"),
    (.trace, "trace", "UCACHE_TRACE"),
    (.traceSample, "trace_sample", "UCACHE_TRACE_SAMPLE"),
    (.keepCgi, "keep_cgi", "UCACHE_KEEP_CGI"),
    (.allow, "allow", "UCACHE_ALLOW"),
    (.deny, "deny", "UCACHE_DENY"),
    (.log, "log", "UCACHE_LOG")]

/-- The key of a name; the keys of the plugin loader, retired names and unknown ones have none. -/
def ofName (name : Bytes) : Option ConfigKey :=
  (knownKeys.find? fun k => decide (ascii k.2.1 = name)).map Prod.fst

end ConfigKey

/-! ### The settings -/

inductive Reclaim where
  | superseded | full
deriving DecidableEq, Repr

/-- The layer a key was set in. -/
inductive LayerTag where
  | conf | state | env
deriving DecidableEq, Repr

/-- What the settings need of `double`: the reading of a number and the comparisons made. -/
structure Doubles (D : Type) where
  atof : Bytes → D
  lt : D → D → Bool
  le : D → D → Bool
  zero : D
  one : D
  high : D
  low : D

/-- [SRC Config.h:27-246] `Config`, whole. -/
structure Settings (D : Type) where
  cacheDir : Bytes := []
  pageSize : Nat := 4096
  maxBytes : Nat := 0
  budgetAuto : Bool := false
  minFreeBytes : Nat := 0
  evictCheckSeconds : Int := 10
  evictProtectSeconds : Nat := 86400
  highWater : D
  lowWater : D
  validate : ValidateMode := .size
  fsync : FsyncMode := .off
  threads : Int := 0
  maxErrors : Int := 5
  metaFlushSeconds : Int := 30
  fillBufferMb : Int := 48
  fillBufferTotalMb : Int := 1024
  prefetch : Bool := false
  prefetchWindowMb : Int := 32
  prefetchRamMb : Int := 1024
  prefetchJoin : Bool := true
  prefetchDepth : Int := 1
  prefetchBridgeKb : Int := 0
  prefetchThreads : Int := 4
  prefetchMapCacheMb : Int := 256
  revalidateSeconds : Int := 604800
  openRetries : Int := 0
  openRetryBaseMs : Int := 200
  openRetryMaxMs : Int := 5000
  disable : Bool := false
  transpose : Bool := true
  copyDetect : Bool := true
  maxReadFraction : Int := 25
  recompress : Bool := false
  recompressKeepOriginals : Bool := false
  recompressCodecs : List Bytes := [ascii "lzma", ascii "zlib"]
  recompressReclaim : Reclaim := .superseded
  trace : Bytes := []
  traceSample : Int := 64
  keepCgi : List Bytes := []
  allowHosts : List Bytes := []
  denyHosts : List Bytes := []
  announce : Bool := true
  sources : ConfigKey → Option LayerTag := fun _ => none

/-- [SRC Config.cc:92-103] -/
def validateOf (v : Bytes) : Option ValidateMode :=
  if v = ascii "none" then some .none
  else if v = ascii "size" then some .size
  else if v = ascii "size+mtime" then some .sizeMtime
  else if v = ascii "cksum" then some .cksum else none

/-- [SRC Config.cc:105-114] -/
def fsyncOf (v : Bytes) : Option FsyncMode :=
  if v = ascii "off" then some .off
  else if v = ascii "data" then some .data
  else if v = ascii "all" then some .all else none

def reclaimOf (v : Bytes) : Option Reclaim :=
  if v = ascii "superseded" then some .superseded
  else if v = ascii "full" then some .full else none

def traceOf (v : Bytes) : Option Bytes :=
  if v = ascii "io" then some (ascii "io")
  else if v = ascii "off" ∨ falsy v then some [] else none

/-- A percentage from 1 to 100. -/
def fractionOf (v : Bytes) : Option Int :=
  if 1 ≤ atoi v ∧ atoi v ≤ 100 then some (atoi v) else none

section Layers

variable {D : Type} (F : Doubles D)

/-- The settings while layers are loaded, and whether a layer has given a positive byte cap. -/
structure Loading (D : Type) where
  c : Settings D
  explicitMax : Bool := false

/-- [SRC Config.cc:123-255] One key: the settings after it, whether a positive byte cap was given, and
whether the key counts as set.  What only configures the log leaves no field. -/
def applyKey (l : Loading D) (k : ConfigKey) (v : Bytes) : Loading D × Bool :=
  let c := l.c
  let put (c : Settings D) : Loading D × Bool := ({ l with c := c }, true)
  match k with
  | .dir => put { c with cacheDir := v }
  | .pageSize => put { c with pageSize := setPageSize c.pageSize v }
  | .maxBytes =>
      match parseBytes v with
      | some mb =>
          ({ c := { c with maxBytes := mb }, explicitMax := l.explicitMax || decide (0 < mb) }, true)
      | none => (l, true)
  | .minFreeBytes =>
      match parseBytes v with
      | some n => put { c with minFreeBytes := n }
      | none => (l, true)
  | .disable => put { c with disable := truthy v }
  | .highWater => put { c with highWater := F.atof v }
  | .lowWater => put { c with lowWater := F.atof v }
  | .evictCheckSeconds => put { c with evictCheckSeconds := atoi v }
  | .evictProtectSeconds => put { c with evictProtectSeconds := atolU32 v }
  | .validate =>
      put (match validateOf v with | some m => { c with validate := m } | none => c)
  | .fsync => put (match fsyncOf v with | some m => { c with fsync := m } | none => c)
  | .threads => put { c with threads := atoi v }
  | .maxErrors => put { c with maxErrors := atoi v }
  | .metaFlushSeconds => put { c with metaFlushSeconds := atoi v }
  | .fillBufferMb => put { c with fillBufferMb := atoi v }
  | .fillBufferTotalMb => put { c with fillBufferTotalMb := atoi v }
  | .prefetch => put { c with prefetch := !falsy v }
  | .prefetchWindowMb => put { c with prefetchWindowMb := atoi v }
  | .prefetchJoin => put { c with prefetchJoin := !falsy v }
  | .prefetchRamMb => put { c with prefetchRamMb := atoi v }
  | .prefetchDepth => put { c with prefetchDepth := atoi v }
  | .prefetchBridgeKb => put { c with prefetchBridgeKb := atoi v }
  | .prefetchThreads => put { c with prefetchThreads := atoi v }
  | .prefetchMapCacheMb => put { c with prefetchMapCacheMb := atoi v }
  | .revalidateSeconds => put { c with revalidateSeconds := atoi v }
  | .openRetries => put { c with openRetries := atoi v }
  | .openRetryBaseMs => put { c with openRetryBaseMs := atoi v }
  | .openRetryMaxMs => put { c with openRetryMaxMs := atoi v }
  | .transpose => put { c with transpose := !falsy v }
  | .announce => put { c with announce := !falsy v }
  | .copyDetect => put { c with copyDetect := !falsy v }
  | .maxReadFraction =>
      match fractionOf v with
      | some pct => put { c with maxReadFraction := pct }
      | none => (l, false)
  | .recompress => put { c with recompress := truthy v }
  | .recompressKeepOriginals => put { c with recompressKeepOriginals := truthy v }
  | .recompressCodecs => put { c with recompressCodecs := splitCommas v }
  | .recompressReclaim =>
      match reclaimOf v with
      | some r => put { c with recompressReclaim := r }
      | none => (l, false)
  | .trace =>
      match traceOf v with
      | some t => put { c with trace := t }
      | none => (l, false)
  | .traceSample => put { c with traceSample := atoi v }
  | .keepCgi => put { c with keepCgi := splitCommas v }
  | .allow => put { c with allowHosts := splitCommas v }
  | .deny => put { c with denyHosts := splitCommas v }
  | .log => (l, true)

/-- A key that counts as set is recorded with its layer. -/
def setKey (tag : LayerTag) (l : Loading D) (k : ConfigKey) (v : Bytes) : Loading D :=
  let (l', known) := applyKey F l k v
  if known then { l' with c := { l'.c with sources := Function.update l'.c.sources k (some tag) } }
  else l'

/-- A key by its name; one that is no setting changes nothing. -/
def setNamed (tag : LayerTag) (l : Loading D) (kv : Bytes × Bytes) : Loading D :=
  match ConfigKey.ofName kv.1 with
  | some k => setKey F tag l k kv.2
  | none => l

/-- [SRC Config.cc:270-283] A line of a settings file; nothing when it sets nothing. -/
def parseLine (line : Bytes) : Option (Bytes × Bytes) :=
  let line := stripComment none line
  if (61 : UInt8) ∈ line then
    let k := trim (line.takeWhile (· ≠ 61))
    let v := unquote (trim ((line.dropWhile (· ≠ 61)).drop 1))
    if k = [] ∨ v = [] then none else some (k, v)
  else none

/-- What a settings file sets; a file that is not there sets nothing. -/
def fileAssignments (content : Option Bytes) : List (Bytes × Bytes) :=
  ((content.map (getlines 10)).getD []).filterMap parseLine

/-- [SRC Config.cc:262-285] Only the conf may set `dir`. -/
def loadKeyValueFile (tag : LayerTag) (l : Loading D) (content : Option Bytes) : Loading D :=
  (fileAssignments content).foldl
    (fun l kv => if tag ≠ .conf ∧ kv.1 = ascii "dir" then l else setNamed F tag l kv) l

/-- [SRC Config.cc:289-296] An empty variable is an unset one. -/
def applyEnvLayer (env : String → Option Bytes) (l : Loading D) : Loading D :=
  ConfigKey.knownKeys.foldl
    (fun l k =>
      match env k.2.2 with
      | some v => if v = [] then l else setKey F .env l k.1 v
      | none => l) l

/-- [SRC Config.cc:316-327] -/
def clampAndFinish (l : Loading D) : Settings D :=
  let c := l.c
  let c := if c.evictCheckSeconds < 0 then { c with evictCheckSeconds := 10 } else c
  let c :=
    if F.le c.lowWater F.zero || F.lt F.one c.highWater || F.le c.highWater c.lowWater then
      { c with highWater := F.high, lowWater := F.low }
    else c
  { c with budgetAuto := !l.explicitMax }

/-- [SRC Config.h:253] -/
def statePath (cacheDir : Bytes) : Bytes := cacheDir ++ ascii "/state"

/-- [SRC Config.cc:333-337] The directory the state file is looked up in. -/
def effectiveDir (env : String → Option Bytes) (l : Loading D) : Bytes :=
  match env "UCACHE_DIR" with
  | some v => if v = [] then l.c.cacheDir else v
  | none => l.c.cacheDir

/-- The content of the state file; nothing when no directory is set. -/
def stateContent (files : Bytes → Option Bytes) (dir : Bytes) : Option Bytes :=
  if dir = [] then none else files (statePath dir)

/-- [SRC Config.cc:332-340] -/
def finishLoad (files : Bytes → Option Bytes) (env : String → Option Bytes) (l : Loading D) :
    Settings D :=
  let l := loadKeyValueFile F .state l (stateContent files (effectiveDir env l))
  clampAndFinish F (applyEnvLayer F env l)

/-- The plugin conf: none, the map the plugin loader hands over, or a file. -/
inductive PluginConf where
  | none
  | map (kvs : List (Bytes × Bytes))
  | path (path : Bytes)

def start : Loading D := { c := { highWater := F.high, lowWater := F.low } }

/-- [SRC Config.cc:348-374] -/
def loadConf (files : Bytes → Option Bytes) : PluginConf → Loading D
  | .none => start F
  | .map kvs =>
      kvs.foldl (fun l kv => if kv.1 = [] ∨ kv.2 = [] then l else setNamed F .conf l kv) (start F)
  | .path path =>
      if path = [] then start F else loadKeyValueFile F .conf (start F) (files path)

def fromEnv (files : Bytes → Option Bytes) (env : String → Option Bytes) (conf : PluginConf) :
    Settings D :=
  finishLoad F files env (loadConf F files conf)

/-! ### What a value means -/

/-- The value is one the key takes. -/
def validFor (k : ConfigKey) (v : Bytes) : Bool :=
  match k with
  | .pageSize => Config.validPageSize (pageSizeOf v)
  | .maxBytes | .minFreeBytes => (parseBytes v).isSome
  | .validate => (validateOf v).isSome
  | .fsync => (fsyncOf v).isSome
  | .maxReadFraction => (fractionOf v).isSome
  | .recompressReclaim => (reclaimOf v).isSome
  | .trace => (traceOf v).isSome
  | _ => true

/-- The settings that hold one value for each key, or its default. -/
def settingsOf (m : ConfigKey → Option Bytes) (sources : ConfigKey → Option LayerTag) :
    Settings D where
  cacheDir := (m .dir).getD []
  pageSize := ((m .pageSize).map pageSizeOf).getD 4096
  maxBytes := ((m .maxBytes).bind parseBytes).getD 0
  minFreeBytes := ((m .minFreeBytes).bind parseBytes).getD 0
  evictCheckSeconds := ((m .evictCheckSeconds).map atoi).getD 10
  evictProtectSeconds := ((m .evictProtectSeconds).map atolU32).getD 86400
  highWater := ((m .highWater).map F.atof).getD F.high
  lowWater := ((m .lowWater).map F.atof).getD F.low
  validate := ((m .validate).bind validateOf).getD .size
  fsync := ((m .fsync).bind fsyncOf).getD .off
  threads := ((m .threads).map atoi).getD 0
  maxErrors := ((m .maxErrors).map atoi).getD 5
  metaFlushSeconds := ((m .metaFlushSeconds).map atoi).getD 30
  fillBufferMb := ((m .fillBufferMb).map atoi).getD 48
  fillBufferTotalMb := ((m .fillBufferTotalMb).map atoi).getD 1024
  prefetch := ((m .prefetch).map fun v => !falsy v).getD false
  prefetchWindowMb := ((m .prefetchWindowMb).map atoi).getD 32
  prefetchRamMb := ((m .prefetchRamMb).map atoi).getD 1024
  prefetchJoin := ((m .prefetchJoin).map fun v => !falsy v).getD true
  prefetchDepth := ((m .prefetchDepth).map atoi).getD 1
  prefetchBridgeKb := ((m .prefetchBridgeKb).map atoi).getD 0
  prefetchThreads := ((m .prefetchThreads).map atoi).getD 4
  prefetchMapCacheMb := ((m .prefetchMapCacheMb).map atoi).getD 256
  revalidateSeconds := ((m .revalidateSeconds).map atoi).getD 604800
  openRetries := ((m .openRetries).map atoi).getD 0
  openRetryBaseMs := ((m .openRetryBaseMs).map atoi).getD 200
  openRetryMaxMs := ((m .openRetryMaxMs).map atoi).getD 5000
  disable := ((m .disable).map truthy).getD false
  transpose := ((m .transpose).map fun v => !falsy v).getD true
  copyDetect := ((m .copyDetect).map fun v => !falsy v).getD true
  maxReadFraction := ((m .maxReadFraction).bind fractionOf).getD 25
  recompress := ((m .recompress).map truthy).getD false
  recompressKeepOriginals := ((m .recompressKeepOriginals).map truthy).getD false
  recompressCodecs := ((m .recompressCodecs).map splitCommas).getD [ascii "lzma", ascii "zlib"]
  recompressReclaim := ((m .recompressReclaim).bind reclaimOf).getD .superseded
  trace := ((m .trace).bind traceOf).getD []
  traceSample := ((m .traceSample).map atoi).getD 64
  keepCgi := ((m .keepCgi).map splitCommas).getD []
  allowHosts := ((m .allow).map splitCommas).getD []
  denyHosts := ((m .deny).map splitCommas).getD []
  announce := ((m .announce).map fun v => !falsy v).getD true
  sources := sources

/-- A positive byte cap. -/
def givesCap (k : ConfigKey) (v : Bytes) : Bool :=
  decide (k = .maxBytes) && (parseBytes v).any fun mb => decide (0 < mb)

/-- A key that is set replaces the value it had, and nothing else. -/
theorem applyKey_settingsOf {m : ConfigKey → Option Bytes} {sources : ConfigKey → Option LayerTag}
    {e : Bool} {k : ConfigKey} {v : Bytes} (hvalid : validFor k v = true) :
    applyKey F { c := settingsOf F m sources, explicitMax := e } k v =
      ({ c := settingsOf F (Function.update m k (some v)) sources
         explicitMax := e || givesCap k v }, true) := by
  have hnone : k ≠ .maxBytes → givesCap k v = false := fun hk => by simp [givesCap, hk]
  cases k with
  | maxBytes =>
      obtain ⟨n, hn⟩ := Option.isSome_iff_exists.1 hvalid
      simp [applyKey, settingsOf, givesCap, hn]
  | minFreeBytes =>
      obtain ⟨n, hn⟩ := Option.isSome_iff_exists.1 hvalid
      simp [applyKey, settingsOf, givesCap, hn]
  | pageSize =>
      have hpage : Config.validPageSize (pageSizeOf v) = true := hvalid
      simp [applyKey, settingsOf, givesCap, setPageSize, hpage]
  | validate =>
      obtain ⟨n, hn⟩ := Option.isSome_iff_exists.1 hvalid
      simp [applyKey, settingsOf, givesCap, hn]
  | fsync =>
      obtain ⟨n, hn⟩ := Option.isSome_iff_exists.1 hvalid
      simp [applyKey, settingsOf, givesCap, hn]
  | maxReadFraction =>
      obtain ⟨n, hn⟩ := Option.isSome_iff_exists.1 hvalid
      simp [applyKey, settingsOf, givesCap, hn]
  | recompressReclaim =>
      obtain ⟨n, hn⟩ := Option.isSome_iff_exists.1 hvalid
      simp [applyKey, settingsOf, givesCap, hn]
  | trace =>
      obtain ⟨n, hn⟩ := Option.isSome_iff_exists.1 hvalid
      simp [applyKey, settingsOf, givesCap, hn]
  -- the other keys take any value
  | _ =>
      rw [hnone (by simp), Bool.or_false]
      rfl

/-! ### What the layers set -/

variable {kv : Bytes × Bytes}

/-- The last value of each key. -/
def record (m : ConfigKey → Option Bytes) (kv : Bytes × Bytes) : ConfigKey → Option Bytes :=
  match ConfigKey.ofName kv.1 with
  | some k => Function.update m k (some kv.2)
  | none => m

def lastValues (kvs : List (Bytes × Bytes)) : ConfigKey → Option Bytes :=
  kvs.foldl record fun _ => none

/-- The value of an assignment is one its key takes. -/
def validAssignment (kv : Bytes × Bytes) : Bool :=
  (ConfigKey.ofName kv.1).all fun k => validFor k kv.2

/-- The assignment gives a positive byte cap. -/
def capAssignment (kv : Bytes × Bytes) : Bool :=
  (ConfigKey.ofName kv.1).any fun k => givesCap k kv.2

/-- What has been loaded: one value for each key, and whether a cap was given. -/
def Loaded (l : Loading D) (m : ConfigKey → Option Bytes) (cap : Bool) : Prop :=
  ∃ sources, l = { c := settingsOf F m sources, explicitMax := cap }

variable {F}

theorem Loaded.setNamed {l : Loading D} {m : ConfigKey → Option Bytes} {cap : Bool}
    (h : Loaded F l m cap) (tag : LayerTag) (hvalid : validAssignment kv = true) :
    Loaded F (UCache.setNamed F tag l kv) (record m kv) (cap || capAssignment kv) := by
  obtain ⟨sources, rfl⟩ := h
  unfold UCache.setNamed record capAssignment
  cases hk : ConfigKey.ofName kv.1 with
  | none => exact ⟨sources, by simp⟩
  | some k =>
      have hkey : validFor k kv.2 = true := by simpa [validAssignment, hk] using hvalid
      refine ⟨Function.update sources k (some tag), ?_⟩
      simp only [setKey, applyKey_settingsOf F hkey, if_true, Option.any_some]
      rfl

theorem Loaded.foldl {l : Loading D} {m : ConfigKey → Option Bytes} {cap : Bool}
    (h : Loaded F l m cap) (tag : LayerTag) (kvs : List (Bytes × Bytes))
    (hvalid : ∀ kv ∈ kvs, validAssignment kv = true) :
    Loaded F (kvs.foldl (UCache.setNamed F tag) l) (kvs.foldl record m)
      (cap || kvs.any capAssignment) := by
  induction kvs generalizing l m cap with
  | nil => simpa using h
  | cons kv rest ih =>
      have hnext := ih (h.setNamed tag (hvalid kv (by simp))) fun q hq =>
        hvalid q (by simp [hq])
      simpa only [List.foldl_cons, List.any_cons, Bool.or_assoc] using hnext

variable (F)

/-- What the conf sets. -/
def confAssignments (files : Bytes → Option Bytes) : PluginConf → List (Bytes × Bytes)
  | .none => []
  | .map kvs => kvs.filter fun kv => !(decide (kv.1 = []) || decide (kv.2 = []))
  | .path path => if path = [] then [] else fileAssignments (files path)

/-- What the state file sets. -/
def stateAssignments (files : Bytes → Option Bytes) (env : String → Option Bytes)
    (conf : PluginConf) : List (Bytes × Bytes) :=
  fileAssignments (stateContent files (effectiveDir env (loadConf F files conf)))

/-- What the environment sets. -/
def envAssignments (env : String → Option Bytes) : List (Bytes × Bytes) :=
  ConfigKey.knownKeys.filterMap fun k =>
    (env k.2.2).bind fun v => if v = [] then none else some (ascii k.2.1, v)

/-- The layers, the lowest first. -/
def layers (files : Bytes → Option Bytes) (env : String → Option Bytes) (conf : PluginConf) :
    List (Bytes × Bytes) :=
  confAssignments files conf ++ (stateAssignments F files env conf ++ envAssignments env)

/-- For each key, the value of the highest layer that sets it. -/
def topmost : List (Bytes × Bytes) → List (Bytes × Bytes)
  | [] => []
  | kv :: rest => if rest.any fun q => q.1 = kv.1 then topmost rest else kv :: topmost rest

theorem topmost_sublist (kvs : List (Bytes × Bytes)) : (topmost kvs).Sublist kvs := by
  induction kvs with
  | nil => exact List.Sublist.slnil
  | cons kv rest ih =>
      unfold topmost
      split
      · exact ih.cons kv
      · exact ih.cons_cons kv

/-- An assignment is forgotten when a later one has its key. -/
theorem foldl_record_covered {rest : List (Bytes × Bytes)} (h : ∃ q ∈ rest, q.1 = kv.1)
    (m : ConfigKey → Option Bytes) : rest.foldl record (record m kv) = rest.foldl record m := by
  induction rest generalizing m with
  | nil => simp at h
  | cons q rest ih =>
      rw [List.foldl_cons, List.foldl_cons]
      by_cases hname : ConfigKey.ofName q.1 = ConfigKey.ofName kv.1
      · have hsame : record (record m kv) q = record m q := by
          unfold record
          rw [hname]
          cases ConfigKey.ofName kv.1 with
          | none => rfl
          | some k => exact Function.update_idem ..
        rw [hsame]
      · have hlater : ∃ q ∈ rest, q.1 = kv.1 := by
          obtain ⟨p, hp, hpk⟩ := h
          rcases List.mem_cons.1 hp with rfl | hp
          · exact absurd (by rw [hpk]) hname
          · exact ⟨p, hp, hpk⟩
        have hswap : record (record m kv) q = record (record m q) kv := by
          unfold record
          cases hq : ConfigKey.ofName q.1 with
          | none => rfl
          | some k =>
              cases hk : ConfigKey.ofName kv.1 with
              | none => rfl
              | some k' =>
                  have hne : k ≠ k' := fun heq => hname (by rw [hq, hk, heq])
                  exact Function.update_comm (Ne.symm hne) ..
        rw [hswap, ih hlater]

theorem foldl_record_topmost (kvs : List (Bytes × Bytes)) (m : ConfigKey → Option Bytes) :
    (topmost kvs).foldl record m = kvs.foldl record m := by
  induction kvs generalizing m with
  | nil => rfl
  | cons kv rest ih =>
      unfold topmost
      split
      · rename_i hlater
        rw [ih, List.foldl_cons]
        exact (foldl_record_covered (by simpa using hlater) m).symm
      · rw [List.foldl_cons, List.foldl_cons, ih]

theorem lastValues_topmost (kvs : List (Bytes × Bytes)) :
    lastValues (topmost kvs) = lastValues kvs := foldl_record_topmost kvs _

/-! ### Loading is recording -/

variable {F}

theorem loaded_start (F : Doubles D) : Loaded F (start F) (fun _ => none) false := ⟨fun _ => none, rfl⟩

/-- A file whose `dir` is not set loads what it sets. -/
theorem loadKeyValueFile_eq {tag : LayerTag} {l : Loading D} {content : Option Bytes}
    (hdir : tag = .conf ∨ ∀ kv ∈ fileAssignments content, kv.1 ≠ ascii "dir") :
    loadKeyValueFile F tag l content =
      (fileAssignments content).foldl (UCache.setNamed F tag) l := by
  unfold loadKeyValueFile
  refine List.foldl_ext _ _ _ fun l kv hkv => ?_
  rcases hdir with rfl | hdir
  · simp
  · simp [hdir kv hkv]

theorem loadConf_eq {files : Bytes → Option Bytes} (conf : PluginConf) :
    loadConf F files conf = (confAssignments files conf).foldl (UCache.setNamed F .conf) (start F) := by
  cases conf with
  | none => rfl
  | map kvs =>
      rw [loadConf, confAssignments, List.foldl_filter]
      refine List.foldl_ext _ _ _ fun l kv _ => ?_
      by_cases hkey : kv.1 = []
      · simp [hkey]
      · by_cases hvalue : kv.2 = []
        · simp [hvalue]
        · simp [hkey, hvalue]
  | path path =>
      rw [loadConf, confAssignments]
      split
      · rfl
      · exact loadKeyValueFile_eq (.inl rfl)

theorem ofName_known {k : ConfigKey × String × String} (h : k ∈ ConfigKey.knownKeys) :
    ConfigKey.ofName (ascii k.2.1) = some k.1 := by
  have hall : ∀ k ∈ ConfigKey.knownKeys, ConfigKey.ofName (ascii k.2.1) = some k.1 := by
    decide +kernel
  exact hall k h

theorem applyEnvLayer_eq (env : String → Option Bytes) (l : Loading D) :
    applyEnvLayer F env l = (envAssignments env).foldl (UCache.setNamed F .env) l := by
  rw [applyEnvLayer, envAssignments, List.foldl_filterMap]
  refine List.foldl_ext _ _ _ fun l k hk => ?_
  cases hv : env k.2.2 with
  | none => rfl
  | some v =>
      by_cases hempty : v = []
      · simp [hempty]
      · simp [hempty, UCache.setNamed, ofName_known hk]

/-- The settings are made of the last value of each key, and of whether any layer gave a cap. -/
theorem fromEnv_eq {files : Bytes → Option Bytes} {env : String → Option Bytes} {conf : PluginConf}
    (hvalid : ∀ kv ∈ layers F files env conf, validAssignment kv = true)
    (hdir : ∀ kv ∈ stateAssignments F files env conf, kv.1 ≠ ascii "dir") :
    ∃ sources, fromEnv F files env conf = clampAndFinish F
      { c := settingsOf F (lastValues (layers F files env conf)) sources
        explicitMax := (layers F files env conf).any capAssignment } := by
  have hconf := (loaded_start F).foldl .conf (confAssignments files conf)
    fun kv hkv => hvalid kv (List.mem_append_left _ hkv)
  have hstate := hconf.foldl .state (stateAssignments F files env conf)
    fun kv hkv => hvalid kv (List.mem_append_right _ (List.mem_append_left _ hkv))
  obtain ⟨sources, hall⟩ := hstate.foldl .env (envAssignments env)
    fun kv hkv => hvalid kv (List.mem_append_right _ (List.mem_append_right _ hkv))
  refine ⟨sources, ?_⟩
  rw [fromEnv, finishLoad, loadKeyValueFile_eq (.inr hdir), applyEnvLayer_eq]
  change clampAndFinish F ((envAssignments env).foldl _ ((stateAssignments F files env conf).foldl _
    (loadConf F files conf))) = _
  rw [loadConf_eq, hall, lastValues, layers, List.foldl_append, List.foldl_append, List.any_append,
    List.any_append, Bool.false_or, Bool.or_assoc]

/-- Everything but where it came from. -/
def Settings.withoutSources (c : Settings D) : Settings D := { c with sources := fun _ => none }

theorem withoutSources_clampAndFinish (m : ConfigKey → Option Bytes)
    (sources : ConfigKey → Option LayerTag) (cap : Bool) :
    (clampAndFinish F { c := settingsOf F m sources, explicitMax := cap }).withoutSources =
      clampAndFinish F { c := settingsOf F m fun _ => none, explicitMax := cap } := by
  unfold clampAndFinish Settings.withoutSources settingsOf
  simp only
  split <;> split <;> rfl

/-- The cap leaves its mark on `budgetAuto`. -/
theorem clampAndFinish_inj {c : Settings D} {cap cap' : Bool} :
    clampAndFinish F { c := c, explicitMax := cap } =
      clampAndFinish F { c := c, explicitMax := cap' } ↔ cap = cap' := by
  constructor
  · intro h
    have hauto : (!cap) = !cap' := congrArg Settings.budgetAuto h
    simpa using hauto
  · rintro rfl
    rfl

theorem parseLine_ne_nil {line : Bytes} (h : parseLine line = some kv) : kv.1 ≠ [] ∧ kv.2 ≠ [] := by
  simp only [parseLine] at h
  split at h
  · split at h
    · cases h
    · rename_i hne
      cases h
      exact not_or.1 hne
  · cases h

theorem fileAssignments_ne_nil {content : Option Bytes} (h : kv ∈ fileAssignments content) :
    kv.1 ≠ [] ∧ kv.2 ≠ [] := by
  obtain ⟨line, -, hline⟩ := List.mem_filterMap.1 h
  exact parseLine_ne_nil hline

theorem envAssignments_ne_nil {env : String → Option Bytes} (h : kv ∈ envAssignments env) :
    kv.1 ≠ [] ∧ kv.2 ≠ [] := by
  have hnames : ∀ k ∈ ConfigKey.knownKeys, ascii k.2.1 ≠ [] := by decide +kernel
  obtain ⟨k, hk, hkv⟩ := List.mem_filterMap.1 h
  obtain ⟨v, -, hv⟩ := Option.bind_eq_some_iff.1 hkv
  split at hv
  · cases hv
  · rename_i hne
    cases hv
    exact ⟨hnames k hk, hne⟩

theorem layers_ne_nil {files : Bytes → Option Bytes} {env : String → Option Bytes}
    {conf : PluginConf} (h : kv ∈ layers F files env conf) : kv.1 ≠ [] ∧ kv.2 ≠ [] := by
  rcases List.mem_append.1 h with h | h
  · cases conf with
    | none => simp [confAssignments] at h
    | map kvs => simpa [confAssignments] using (List.mem_filter.1 h).2
    | path path =>
        simp only [confAssignments] at h
        split at h
        · simp at h
        · exact fileAssignments_ne_nil h
  · rcases List.mem_append.1 h with h | h
    · exact fileAssignments_ne_nil h
    · exact envAssignments_ne_nil h

/-- Assignments given as the one conf layer are all there is. -/
theorem layers_single {kvs : List (Bytes × Bytes)} (h : ∀ kv ∈ kvs, kv.1 ≠ [] ∧ kv.2 ≠ []) :
    layers F (fun _ => none) (fun _ => none) (.map kvs) = kvs := by
  have hconf : confAssignments (fun _ => none) (.map kvs) = kvs :=
    List.filter_eq_self.2 fun kv hkv => by simp [h kv hkv]
  have hstate : stateAssignments F (fun _ => none) (fun _ => none) (.map kvs) = [] := by
    simp [stateAssignments, stateContent, fileAssignments]
  have henv : envAssignments (fun _ => none) = [] := by simp [envAssignments]
  rw [layers, hconf, hstate, henv, List.append_nil, List.append_nil]

end Layers

/-- **The settings are the layers' topmost values**, and a value overridden leaves no trace: in every
field but `sources`, exactly when a positive byte cap that some layer gives is not overridden by a
layer that takes it back. -/
theorem layers_only_by_precedence {D : Type} (F : Doubles D) (files : Bytes → Option Bytes)
    (env : String → Option Bytes) (conf : PluginConf)
    (hvalid : ∀ kv ∈ layers F files env conf, validAssignment kv = true)
    (hdir : ∀ kv ∈ stateAssignments F files env conf, kv.1 ≠ ascii "dir") :
    (fromEnv F files env conf).withoutSources =
        (fromEnv F (fun _ => none) (fun _ => none)
          (.map (topmost (layers F files env conf)))).withoutSources ↔
      ((layers F files env conf).any capAssignment = true →
        (topmost (layers F files env conf)).any capAssignment = true) := by
  have hsub := topmost_sublist (layers F files env conf)
  have hsingle : layers F (fun _ => none) (fun _ => none)
      (.map (topmost (layers F files env conf))) = topmost (layers F files env conf) :=
    layers_single fun kv hkv => layers_ne_nil (hsub.subset hkv)
  obtain ⟨sources, hleft⟩ := fromEnv_eq hvalid hdir
  obtain ⟨sources', hright⟩ := @fromEnv_eq _ F (fun _ => none) (fun _ => none)
    (.map (topmost (layers F files env conf)))
    (fun kv hkv => hvalid kv (hsub.subset (hsingle ▸ hkv)))
    (by simp [stateAssignments, stateContent, fileAssignments])
  rw [hsingle, lastValues_topmost] at hright
  rw [hleft, hright, withoutSources_clampAndFinish, withoutSources_clampAndFinish,
    clampAndFinish_inj]
  have hdown : (topmost (layers F files env conf)).any capAssignment = true →
      (layers F files env conf).any capAssignment = true := by
    simp only [List.any_eq_true]
    rintro ⟨kv, hkv, hcap⟩
    exact ⟨kv, hsub.subset hkv, hcap⟩
  constructor
  · intro heq hcap
    rw [← heq, hcap]
  · intro hup
    exact Bool.eq_iff_iff.2 ⟨hup, hdown⟩

/-! ### A cap that is taken back -/

/-- Decimal fractions. -/
def decimals : Doubles Rat where
  atof s := ofDigits s +
    ofDigits ((s.dropWhile isDigit).drop 1) / 10 ^ (((s.dropWhile isDigit).drop 1).takeWhile
      isDigit).length
  lt a b := decide (a < b)
  le a b := decide (a ≤ b)
  zero := 0
  one := 1
  high := 9 / 10
  low := 3 / 4

/-- The conf sets a directory, a cap and a page size; the state file there a smaller cap; the
environment the fill buffer. -/
def cappedConf : PluginConf :=
  .map [(ascii "dir", ascii "/c"), (ascii "max_bytes", ascii "2g"), (ascii "page_size", ascii "64k")]

def cappedFiles (path : Bytes) : Option Bytes :=
  if path = ascii "/c/state" then some (ascii "max_bytes = 1g # less\nvalidate = \"cksum\"\n")
  else none

def cappedEnv (name : String) : Option Bytes :=
  if name = "UCACHE_FILL_BUFFER_MB" then some (ascii "8") else none

/-- A conf, a file and the environment, of which none takes a cap back. -/
theorem capped_layers_by_precedence :
    (fromEnv decimals cappedFiles cappedEnv cappedConf).withoutSources =
      (fromEnv decimals (fun _ => none) (fun _ => none)
        (.map (topmost (layers decimals cappedFiles cappedEnv cappedConf)))).withoutSources :=
  (layers_only_by_precedence decimals cappedFiles cappedEnv cappedConf (by decide +kernel)
    (by decide +kernel)).2 (fun _ => by decide +kernel)

/-- The environment takes the conf's cap back, and the limit that governs without a cap stays
off. -/
theorem cap_taken_back_leaves_trace :
    (∀ kv ∈ layers decimals (fun _ => none)
      (fun name => if name = "UCACHE_MAX_BYTES" then some (ascii "0") else none)
      (.map [(ascii "max_bytes", ascii "1g")]), validAssignment kv = true) ∧
    topmost (layers decimals (fun _ => none)
      (fun name => if name = "UCACHE_MAX_BYTES" then some (ascii "0") else none)
      (.map [(ascii "max_bytes", ascii "1g")])) = [(ascii "max_bytes", ascii "0")] ∧
    (fromEnv decimals (fun _ => none)
      (fun name => if name = "UCACHE_MAX_BYTES" then some (ascii "0") else none)
      (.map [(ascii "max_bytes", ascii "1g")])).budgetAuto = false ∧
    (fromEnv decimals (fun _ => none) (fun _ => none)
      (.map [(ascii "max_bytes", ascii "0")])).budgetAuto = true := by
  refine ⟨?_, ?_, ?_, ?_⟩ <;> decide +kernel

end UCache
