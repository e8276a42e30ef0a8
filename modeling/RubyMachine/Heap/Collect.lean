import RubyMachine.Heap.Basic

/-! The phases of a collection: clear the marks, mark what the roots reach, sweep the rest. -/

namespace RubyMachine.Heap

variable {α : Type}

/-! ## Marking -/

def clearMarks (h : Heap α) : Heap α :=
  { h with
    pages := h.pages.map fun p => { p with cells := p.cells.map fun c => { c with marked := false } }
    markCount := 0 }

/-- Marks one cell. Gives its object when the cell holds one and was not marked before. -/
def visit (r : Ref) : HeapM α (Option α) := do
  let h ← get
  if h.pages.size ≤ r.page ∨ pageCells ≤ r.cell then throw (.markOutsidePages r)
  let c := h.cellAt r.page r.cell
  if h.debug then
    if c.free then throw (.markFree r)
    if c.gen ≠ r.gen then throw (.markStale r c.gen)
  match c.obj, c.marked with
  | some obj, false =>
    modify fun h =>
      let h := h.modifyCell r.page r.cell fun c => { c with marked := true }
      { h with markCount := h.markCount + 1 }
    return some obj
  | _, _ => return none

/-- Marks everything the values reach, depth first and in order. `fuel` bounds the cells marked. -/
def markAll (refs : α → List Value) : Nat → List Value → HeapM α Unit
  | _, [] => return ()
  | 0, _ => return ()
  | fuel + 1, v :: rest =>
    if v.isRef then do
      match ← visit v.toRef with
      | some obj => markAll refs fuel (refs obj ++ rest)
      | none => markAll refs (fuel + 1) rest
    else markAll refs (fuel + 1) rest
termination_by fuel vs => (fuel, vs.length)

/-- No marking can mark more cells than there are. -/
def markFuel (h : Heap α) : Nat := h.pages.size * pageCells + 1

def markValues (refs : α → List Value) (vs : List Value) : HeapM α Unit := do
  markAll refs (← get).markFuel vs

/-- Marks a cell and all it reaches; tells whether there was nothing to do. -/
def markRef (refs : α → List Value) (r : Ref) : HeapM α Bool := do
  match ← visit r with
  | some obj =>
    markValues refs (refs obj)
    return false
  | none => return true

def markValue (refs : α → List Value) (v : Value) : HeapM α Bool :=
  if v.isRef then markRef refs v.toRef else return false

/-! ## Sweeping -/

/-- Empties a cell; old references to it become stale. -/
def freeCell (h : Heap α) (page cell : Nat) : Heap α :=
  let h := h.modifyPage page fun p =>
    let p := p.modifyCell cell fun c => { c with obj := none, free := true, gen := c.gen + 1 }
    { p with live := p.live - 1 }
  { h with live := h.live - 1 }

/-- Frees the unmarked cells of a page among those listed; gives their objects in order. -/
def sweepCells (page : Nat) : List Nat → HeapM α (List α)
  | [] => return []
  | cell :: rest => do
    let h ← get
    let c := h.cellAt page cell
    if c.free then
      if h.debug && c.marked then throw (.sweepMarkedFree page cell)
      sweepCells page rest
    else if c.marked then sweepCells page rest
    else
      modify fun h => h.freeCell page cell
      return c.obj.toList ++ (← sweepCells page rest)

/-- An empty page keeps the generations of its cells and nothing else. -/
def resetPage (p : Page α) : Page α :=
  { cells := p.cells.mapIdx fun i c =>
      if i < p.used then { gen := c.gen } else { c with marked := false }
    used := 0
    live := 0 }

def releasePage (h : Heap α) (page : Nat) : Heap α :=
  let h := h.modifyPage page resetPage
  { h with
    freePages := page :: h.freePages
    current := if h.current = some page then none else h.current }

/-- Puts the free cells among those listed in front of the free list, one after the other. -/
def linkFree (page : Nat) : List Nat → Heap α → Heap α
  | [], h => h
  | cell :: rest, h =>
    if (h.cellAt page cell).free then
      let head := h.freeHead
      let h := h.modifyCell page cell fun c => { c with next := head }
      linkFree page rest { h with freeHead := linkTo page cell, freeCount := h.freeCount + 1 }
    else linkFree page rest h

/-- Sweeps the pages below `n`, the last one first; `kept` later pages were kept. A page without live
cells is released, unless it is the first and no other was kept. -/
def sweepPages : Nat → Nat → HeapM α (List α)
  | 0, _ => return []
  | page + 1, kept => do
    let used := ((← get).pages.getD page {}).used
    if used = 0 then sweepPages page kept
    else
      let freed ← sweepCells page (List.range used)
      if ((← get).pages.getD page {}).live = 0 ∧ 0 < kept + page then
        modify fun h => h.releasePage page
        return freed ++ (← sweepPages page kept)
      else
        modify (linkFree page (List.range used).reverse)
        return freed ++ (← sweepPages page (kept + 1))

/-- Frees every unmarked cell and rebuilds the free list. Gives the objects freed, in order. -/
def sweep : HeapM α (List α) := do
  modify fun h => { h with freeHead := -1, freeCount := 0 }
  let freed ← sweepPages (← get).pages.size 0
  modify fun h => { h with sweeps := h.sweeps + 1 }
  return freed

end RubyMachine.Heap
