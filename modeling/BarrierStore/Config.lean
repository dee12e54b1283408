import BarrierStore.Fault
import BarrierStore.Text.Decimal

/-!
# Configuration

The module introduces:

* `Config` — where the files of a store lie, how large its segments are, and how its server runs;
* `Config.Setting` and `Config.build` — a configuration is made from the defaults by a list of
  settings, applied in order. The setting `dataDirectory` sets the paths of all four kinds of
  file, so it matters whether a path is set before or after it;
* `Config.validate` — what the store does not run with.
-/

namespace BarrierStore

/-- The settings of a store and its server. -/
structure Config where
  /-- Bytes in a segment. A longer record has a segment to itself. -/
  capacity : UInt64
  /-- The log of the value index. -/
  indexLog : Path
  /-- What the names of all segment files start with; the id follows. -/
  segmentStem : Path
  /-- The range of segments in use. -/
  rangeFile : Path
  /-- The log of the numeric index. -/
  numberLog : Path
  /-- Milliseconds between two barriers. -/
  syncInterval : UInt64
  /-- Where the server listens. -/
  listenAddress : String
  /-- How many clients the server serves at a time. -/
  maxConnections : Nat
  /-- Milliseconds that the server waits for a client's next bytes; 0 means for ever. -/
  readTimeout : UInt64
  /-- Milliseconds that the server waits for a client to take a response; 0 means for ever. -/
  writeTimeout : UInt64
  deriving DecidableEq

/-- The file of the segment with that id. -/
def Path.segmentFile (stem : Path) (id : UInt64) : Path :=
  stem.extend (Decimal.digits id.toNat)

namespace Config

/-- The index log in a data directory. -/
def indexLogName : Path := .ofString "index.log"

/-- The segments' stem in a data directory. -/
def segmentStemName : Path := .ofString "segment_"

/-- The range file in a data directory. -/
def rangeFileName : Path := .ofString "segments.meta"

/-- The numeric index log in a data directory. -/
def numberLogName : Path := .ofString "numbers.log"

/-- All files in one directory. -/
def withDirectory (config : Config) (directory : Path) : Config :=
  { config with
    indexLog := directory.join indexLogName
    segmentStem := directory.join segmentStemName
    rangeFile := directory.join rangeFileName
    numberLog := directory.join numberLogName }

/-- The directory that holds the files where none is set. -/
def defaultDirectory : Path := .ofString "./segkv_data"

/-- The address of the server where none is set. -/
def defaultAddress : String := "127.0.0.1:6379"

/-- The settings where none is made: segments of 64 MiB and a barrier every ten milliseconds. -/
def default : Config :=
  withDirectory
    { capacity := 64 * 1024 * 1024
      indexLog := .empty
      segmentStem := .empty
      rangeFile := .empty
      numberLog := .empty
      syncInterval := 10
      listenAddress := defaultAddress
      maxConnections := 1024
      readTimeout := 0
      writeTimeout := 5000 }
    defaultDirectory

instance : Inhabited Config := ⟨default⟩

/-- One setting. -/
inductive Setting where
  | dataDirectory (path : Path)
  | capacity (bytes : UInt64)
  | indexLog (path : Path)
  | segmentStem (path : Path)
  | rangeFile (path : Path)
  | numberLog (path : Path)
  | syncInterval (milliseconds : UInt64)
  | listenAddress (address : String)
  | maxConnections (count : Nat)
  | readTimeout (milliseconds : UInt64)
  | writeTimeout (milliseconds : UInt64)
  deriving DecidableEq

/-- The configuration after a setting. -/
def set (config : Config) : Setting → Config
  | .dataDirectory path => config.withDirectory path
  | .capacity bytes => { config with capacity := bytes }
  | .indexLog path => { config with indexLog := path }
  | .segmentStem path => { config with segmentStem := path }
  | .rangeFile path => { config with rangeFile := path }
  | .numberLog path => { config with numberLog := path }
  | .syncInterval milliseconds => { config with syncInterval := milliseconds }
  | .listenAddress address => { config with listenAddress := address }
  | .maxConnections count => { config with maxConnections := count }
  | .readTimeout milliseconds => { config with readTimeout := milliseconds }
  | .writeTimeout milliseconds => { config with writeTimeout := milliseconds }

/-- The defaults after these settings, in order. -/
def build (settings : List Setting) : Config :=
  settings.foldl set default

/-- The file of the segment with that id. -/
def segmentFile (config : Config) (id : UInt64) : Path :=
  config.segmentStem.segmentFile id

/-- Refuse what the store does not run with. -/
def validate (config : Config) : Except ConfigFault Unit :=
  if config.capacity = 0 then .error .zeroCapacity
  else if config.syncInterval = 0 then .error .zeroInterval
  else if Path.Same config.numberLog config.indexLog then .error .sharedIndexLog
  else if config.segmentStem = .empty then .error .emptySegmentStem
  else .ok ()

end Config

end BarrierStore
