import RubyMachine.Cbor.Typed
import RubyMachine.Run.Basic

/-! Runs that are kept. A run is kept under its id, and not all of it comes back. -/

namespace RubyMachine

/-- Kept runs, the last one first. -/
structure RunStore where
  runs : List Run := []

namespace RunStore

/-- Zero without a sign. -/
def plainZero (f : Float) : Float := if f == 0 then 0 else f

/-- What is kept of a run. -/
def kept (r : Run) : Run :=
  { r with
    sites := { r.sites with hitRate := plainZero r.sites.hitRate, monoRate := 0 }
    fibers := { r.fibers with pooled := 0 }
    heap := { r.heap with free := 0, freePages := 0, sweeps := r.collections, markCount := 0 } }

def find? (s : RunStore) (id : Uuid) : Option Run := s.runs.find? fun r => r.id == id

/-- Keeps a run, unless there is one of the same id or its rate of hits is no number. -/
def save? (s : RunStore) (r : Run) : Option RunStore :=
  if (s.find? r.id).isSome || r.sites.hitRate.isNaN then none else some ⟨kept r :: s.runs⟩

/-- The runs that started last, at most `limit` of them unless that is negative, without their
cycles. Of runs that started together, the one kept last is first. -/
def recent (s : RunStore) (limit : Int) : List Run :=
  let sorted := s.runs.mergeSort fun a b => b.started ≤ a.started
  let taken := if limit < 0 then sorted else sorted.take limit.toNat
  taken.map fun r => { r with cycles := [] }

/-! ## The stored form -/

open Cbor (Item Typed)
open Cbor.Typed (field)

def wordItem (n : UInt64) : Item := .ofNat n.toNat

def cycleItem (c : Run.Cycle) : Item :=
  .array ([c.collection.marked, c.collection.swept, c.collection.live, c.duration.nanoseconds, c.moment].map .ofInt)

def runItem (r : Run) : Item :=
  .map (([
    .bytes r.id.bytes, .ofString r.project, .ofString r.unit, .ofString r.digest, .ofInt r.started, .ofInt r.finished,
    .ofString r.error, .ofInt r.sites.sites, .ofInt r.sites.mono, .ofInt r.sites.poly, .ofInt r.sites.mega,
    .ofInt r.sites.empty, wordItem r.sites.hits, wordItem r.sites.misses, .float r.sites.hitRate.toBits,
    wordItem r.fibers.started, wordItem r.fibers.released, wordItem r.fibers.reused, .ofInt r.heap.live,
    .ofInt r.heap.pages, wordItem r.heap.totalAllocated, wordItem r.collections,
    .array (r.cycles.map cycleItem)] : List Item).mapIdx fun i x => (.ofNat (i + 1), x))

/-- The bytes that runs are kept as. -/
def toBytes (s : RunStore) : Bytes := (Item.array (s.runs.map runItem)).encode.toArray

def word : Typed UInt64 := fun x => return UInt64.ofNat (← Typed.between 0 0xffffffffffffffff x).toNat

def cycle : Typed Run.Cycle := fun x => do
  match ← Typed.list Typed.int64 x with
  | some [marked, swept, live, duration, moment] => return ⟨⟨marked, swept, live⟩, ⟨duration⟩, moment⟩
  | _ => throw .mismatch

def run : Typed Run := Typed.record fun fs => do
  let collections ← field fs 22 word
  return {
    id := ⟨(← field fs 1 Typed.bytes).getD #[]⟩, project := ← field fs 2 Typed.text, unit := ← field fs 3 Typed.text
    digest := ← field fs 4 Typed.text, started := ← field fs 5 Typed.int64, finished := ← field fs 6 Typed.int64
    error := ← field fs 7 Typed.text
    sites := {
      sites := ← field fs 8 Typed.int64, mono := ← field fs 9 Typed.int64, poly := ← field fs 10 Typed.int64
      mega := ← field fs 11 Typed.int64, empty := ← field fs 12 Typed.int64, hits := ← field fs 13 word
      misses := ← field fs 14 word, hitRate := Float.ofBits (← field fs 15 Typed.float) }
    fibers := {
      started := ← field fs 16 word, released := ← field fs 17 word, reused := ← field fs 18 word }
    heap := {
      live := ← field fs 19 Typed.int64, pages := ← field fs 20 Typed.int64, totalAllocated := ← field fs 21 word
      sweeps := collections }
    collections
    cycles := (← field fs 23 (Typed.list cycle)).getD [] }

/-- The runs that bytes hold; no bytes hold none. -/
def ofBytes? (b : Bytes) : Option RunStore :=
  if b.isEmpty then some {}
  else match Cbor.decode b >>= Typed.list run with
    | .ok runs => some ⟨runs.getD []⟩
    | .error _ => none

end RunStore

end RubyMachine
