import RubyMachine.Defect

/-! The heap: pages of cells, each cell holding an object or waiting on the free list.

A reference names a cell and the generation it was handed out in; freeing a cell moves it to the next
generation, which makes old references stale. Free cells are linked by global index, pages from the
first to the last and cells from the first to the last within a page. -/

namespace RubyMachine

structure Cell (α : Type) where
  obj : Option α := none
  gen : UInt16 := 0
  free : Bool := false
  /-- The next free cell; negative at the end of the list. -/
  next : Int32 := 0
  marked : Bool := false

instance {α : Type} : Inhabited (Cell α) := ⟨{}⟩

structure Page (α : Type) where
  /-- The cells touched so far; the others are as new. -/
  cells : Array (Cell α) := #[]
  /-- Cells handed out in order so far. -/
  used : Nat := 0
  /-- Cells that hold an object. -/
  live : Nat := 0

instance {α : Type} : Inhabited (Page α) := ⟨{}⟩

/-- Changes a cell, which is touched by this. -/
def Page.modifyCell {α : Type} (p : Page α) (i : Nat) (f : Cell α → Cell α) : Page α :=
  if i < p.cells.size then { p with cells := p.cells.modify i f }
  else { p with cells := (p.cells ++ Array.replicate (i - p.cells.size) default).push (f {}) }

structure Heap (α : Type) where
  pages : Array (Page α) := #[]
  /-- Empty pages kept for reuse, the one released last first. -/
  freePages : List Nat := []
  /-- The page whose cells are handed out in order. -/
  current : Option Nat := none
  freeHead : Int32 := -1
  freeCount : Nat := 0
  live : Nat := 0
  totalAllocated : Nat := 0
  /-- Cells marked since marks were last cleared. -/
  markCount : Nat := 0
  /-- Sweeps completed. -/
  sweeps : Nat := 0
  sinceCollection : Nat := 0
  threshold : Nat
  /-- A collection was asked for and has not run yet. -/
  pending : Bool := false
  enabled : Bool := true
  /-- Checks that stop at the first sign of corruption. -/
  debug : Bool

/-- Heap operations keep what they changed when they end in a defect. -/
abbrev HeapM (α : Type) := EStateM Defect (Heap α)

namespace Heap

def pageCells : Nat := 4032

/-- The most pages a reference can name. -/
def maxPages : Nat := 0x100000

def defaultThreshold : Nat := 4096

variable {α : Type}

def new (threshold : Int) (debug : Bool) : Heap α :=
  { threshold := if threshold ≤ 0 then defaultThreshold else threshold.toNat, debug }

/-! ## Cells -/

def cellAt (h : Heap α) (page cell : Nat) : Cell α :=
  (h.pages.getD page {}).cells.getD cell {}

def modifyPage (h : Heap α) (page : Nat) (f : Page α → Page α) : Heap α :=
  { h with pages := h.pages.modify page f }

def modifyCell (h : Heap α) (page cell : Nat) (f : Cell α → Cell α) : Heap α :=
  h.modifyPage page (·.modifyCell cell f)

/-- The global index of a cell, in the 32 bits of a link. -/
def linkTo (page cell : Nat) : Int32 := Int32.ofNat (page * pageCells + cell)

/-- The cell that a link names. -/
def splitLink (link : Int32) : Nat × Nat :=
  (link.toInt.toNat / pageCells, link.toInt.toNat % pageCells)

/-! ## Allocation -/

/-- Counts an allocation; crossing the threshold asks for a collection. -/
def countAllocation (h : Heap α) : Heap α :=
  if h.threshold ≤ h.sinceCollection + 1 then
    { h with sinceCollection := 0, pending := h.pending || h.enabled }
  else { h with sinceCollection := h.sinceCollection + 1 }

/-- A page with room: the current one, else an empty one, else a new one. -/
def bumpPage : HeapM α Nat := do
  let h ← get
  match h.current with
  | some p => if (h.pages.getD p {}).used < pageCells then return p else next
  | none => next
where
  next : HeapM α Nat := do
    let h ← get
    match h.freePages with
    | p :: rest =>
      modify fun h => { h with current := some p, freePages := rest }
      return p
    | [] =>
      let n := h.pages.size
      if maxPages ≤ n then throw (.heapExhausted n)
      modify fun h => { h with pages := h.pages.push {}, current := some n }
      return n

/-- Takes the first free cell. -/
def takeFree : HeapM α (Nat × Nat) := do
  let h ← get
  let (p, c) := splitLink h.freeHead
  if h.pages.size ≤ p then throw .fault
  let cell := h.cellAt p c
  if h.debug && (!cell.free || cell.obj.isSome) then throw (.freeListLive p c)
  modify fun h => { h with freeHead := cell.next, freeCount := h.freeCount - 1 }
  return (p, c)

/-- Takes a cell that was never handed out since its page was last empty. -/
def takeFresh : HeapM α (Nat × Nat) := do
  let p ← bumpPage
  let c := ((← get).pages.getD p {}).used
  modify fun h => h.modifyPage p fun page => { page with used := page.used + 1 }
  return (p, c)

def fillCell (h : Heap α) (page cell : Nat) (obj : α) : Heap α :=
  let h := h.modifyPage page fun p =>
    let p := p.modifyCell cell fun c => { c with obj := some obj, free := false, next := -1 }
    { p with live := p.live + 1 }
  { h with live := h.live + 1, totalAllocated := h.totalAllocated + 1 }

/-- Places an object; free cells are used before fresh ones. -/
def alloc (obj : α) : HeapM α Value := do
  modify countAllocation
  let (p, c) ← if 0 ≤ (← get).freeHead then takeFree else takeFresh
  let gen := ((← get).cellAt p c).gen
  modify fun h => h.fillCell p c obj
  return .ofRef (.make (UInt64.ofNat p) (UInt64.ofNat c) gen)

/-! ## Access -/

/-- The object behind a reference, if the reference is good. -/
def read (h : Heap α) (r : Ref) : Except Defect α :=
  if h.pages.size ≤ r.page ∨ pageCells ≤ r.cell then .error (.outsidePages r)
  else
    let c := h.cellAt r.page r.cell
    match c.free, c.obj with
    | false, some obj => if c.gen = r.gen then .ok obj else .error (.staleRef r c.gen)
    | _, _ => .error (.freedCell r)

/-- Changes the object behind a good reference. -/
def update (h : Heap α) (r : Ref) (f : α → α) : Heap α :=
  h.modifyCell r.page r.cell fun c => { c with obj := c.obj.map f }

def replace (h : Heap α) (r : Ref) (obj : α) : Except Defect (Heap α) := do
  let _ ← h.read r
  return h.update r fun _ => obj

/-! ## Controls -/

/-- Turns automatic collection on or off; off forgets a collection asked for. -/
def setEnabled (h : Heap α) (on : Bool) : Heap α := { h with enabled := on, pending := h.pending && on }

def setThreshold (h : Heap α) (n : Int) : Heap α :=
  if 0 < n then { h with threshold := n.toNat } else h

/-- Occupancy at one moment. -/
structure Stats where
  live : Int := 0
  free : Int := 0
  totalAllocated : UInt64 := 0
  pages : Int := 0
  freePages : Int := 0
  sweeps : UInt64 := 0
  markCount : Int := 0
  deriving Inhabited

def stats (h : Heap α) : Stats where
  live := h.live
  free := h.freeCount
  totalAllocated := UInt64.ofNat h.totalAllocated
  pages := h.pages.size - h.freePages.length
  freePages := h.freePages.length
  sweeps := UInt64.ofNat h.sweeps
  markCount := h.markCount

def countMarks (h : Heap α) : Nat := h.pages.foldl (fun n p => n + p.cells.toList.countP (·.marked)) 0

/-- The first `fuel` references on the free list. -/
def freeRefs (h : Heap α) : Nat → Int32 → List Ref
  | 0, _ => []
  | fuel + 1, link =>
    if link < 0 then []
    else
      let (p, c) := splitLink link
      let cell := h.cellAt p c
      .make (UInt64.ofNat p) (UInt64.ofNat c) cell.gen :: h.freeRefs fuel cell.next

/-- The references on the free list, in list order. -/
def freeList (h : Heap α) : List Ref := h.freeRefs (h.pages.size * pageCells) h.freeHead

end Heap

end RubyMachine
