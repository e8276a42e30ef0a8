import RubyMachine.Cache.Inline
import RubyMachine.Machine.State
import RubyMachine.Time.Duration
import RubyMachine.Uuid

/-! The statistics of one run of a program. -/

namespace RubyMachine

/-- A collection with when it happened and how long it took, in nanoseconds. -/
structure Run.Cycle where
  collection : Collection := {}
  duration : Duration := {}
  moment : Int := 0

structure Run where
  id : Uuid := {}
  project : String := ""
  /-- The path of the program. -/
  unit : String := ""
  /-- The digest of the program in hexadecimal digits. -/
  digest : String := ""
  started : Int := 0
  finished : Int := 0
  /-- The failure that ended the run. -/
  error : String := ""
  sites : Cache.Stats := {}
  fibers : StackPool.Stats := {}
  heap : Heap.Stats := {}
  collections : UInt64 := 0
  cycles : List Run.Cycle := []

namespace Run

def duration (r : Run) : Duration := .between r.started r.finished

def rateText (f : Float) : String := Decimal.fixed 1 f.toBits ++ "%"

/-- A summary of several lines. -/
def summary (r : Run) : String :=
  let line (label text : String) := "  " ++ Decimal.padRight 13 ' ' (label ++ ":") ++ text ++ "\n"
  let optional (label text : String) := if text = "" then "" else line label text
  let s := r.sites
  "run " ++ r.id.text ++ " (" ++ (r.duration.round Duration.microsecond).text ++ ")\n" ++
    optional "unit" r.unit ++
    optional "error" r.error ++
    line "call sites" (toString s.sites ++ " (" ++ toString s.mono ++ " mono, " ++ toString s.poly ++ " poly, " ++
      toString s.mega ++ " mega, " ++ toString s.empty ++ " unused)") ++
    line "cache" (toString s.hits.toNat ++ " hits, " ++ toString s.misses.toNat ++ " misses (" ++
      rateText s.hitRate ++ ")") ++
    line "heap" (toString r.heap.live ++ " live, " ++ toString r.heap.pages ++ " pages, " ++
      toString r.heap.totalAllocated.toNat ++ " allocated") ++
    line "collections" (toString r.collections.toNat) ++
    line "fibers" (toString r.fibers.started.toNat ++ " started, " ++ toString r.fibers.released.toNat ++
      " released, " ++ toString r.fibers.reused.toNat ++ " stacks reused")

end Run

/-- Gathers the statistics of a run on one machine. -/
structure Recorder where
  run : Run
  /-- The collections there were when recording began. -/
  before : Nat

namespace Recorder

def start (m : Machine) (id : Uuid) (project : String) (moment : Int) : Recorder where
  run := { id, project, started := moment }
  before := m.collections.length

def setUnit (r : Recorder) (path : String) (digest : Bytes) : Recorder :=
  { r with run := { r.run with unit := path, digest := digest.toHex } }

/-- The run as it stands; a failure stays with the recorder. -/
def finish (r : Recorder) (m : Machine) (failure : Option String) (moment : Int) : Recorder :=
  { r with
    run := { r.run with
      finished := moment
      error := failure.getD r.run.error
      sites := .ofSites m.functions.allSites
      fibers := m.pool.stats
      heap := m.heap.stats
      collections := UInt64.ofNat m.collections.length
      cycles := (m.collections.take (m.collections.length - r.before)).reverse.map fun c => { collection := c } } }

end Recorder

end RubyMachine
