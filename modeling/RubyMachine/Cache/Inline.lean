import RubyMachine.Value

/-! Caches at call sites and constant references. A slot is good for one version of the class tables;
any other version clears it. -/

namespace RubyMachine.Cache

inductive State where
  | empty
  | monomorphic
  | polymorphic
  /-- Too many classes were seen: every lookup misses. -/
  | megamorphic
  deriving DecidableEq, Inhabited

def State.text : State → String
  | empty => "empty"
  | monomorphic => "mono"
  | polymorphic => "poly"
  | megamorphic => "mega"

/-- The most classes one call site remembers. -/
def maxEntries : Nat := 6

/-- The method cache of one call site. Classes are given by number. -/
structure Inline where
  version : UInt64 := 0
  state : State := .empty
  entries : List (Nat × FnId) := []
  hits : UInt64 := 0
  misses : UInt64 := 0
  deriving Inhabited

/-- `hits` as a percentage of all lookups, 0 when there were none. -/
def rate (hits total : Nat) : Float :=
  if total = 0 then 0 else Float.ofNat hits * 100 / Float.ofNat total

namespace Inline

def clear (c : Inline) : Inline := { c with state := .empty, entries := [] }

def reset (_ : Inline) : Inline := {}

def find? (c : Inline) (cls : Nat) : Option FnId :=
  (c.entries.find? fun e => e.1 == cls).map Prod.snd

def miss (c : Inline) : Inline := { c with misses := c.misses + 1 }

def lookup (c : Inline) (cls : Nat) (version : UInt64) : Option FnId × Inline :=
  if c.version ≠ version then (none, { c.clear with version }.miss)
  else match c.state with
    | .monomorphic | .polymorphic =>
      match c.find? cls with
      | some f => (some f, { c with hits := c.hits + 1 })
      | none => (none, c.miss)
    | .megamorphic | .empty => (none, c.miss)

def add (c : Inline) (cls : Nat) (fn : FnId) : Inline :=
  match c.state with
  | .empty => { c with state := .monomorphic, entries := [(cls, fn)] }
  | .monomorphic =>
    if (c.find? cls).isSome then c
    else { c with state := .polymorphic, entries := c.entries ++ [(cls, fn)] }
  | .polymorphic =>
    if (c.find? cls).isSome then c
    else if c.entries.length < maxEntries then { c with entries := c.entries ++ [(cls, fn)] }
    else { c with state := .megamorphic, entries := [] }
  | .megamorphic => c

/-- Records what a full lookup found. Failed lookups, function 0, are not recorded. -/
def update (c : Inline) (cls : Nat) (fn : FnId) (version : UInt64) : Inline :=
  if fn.id = 0 then c
  else if c.version ≠ version then { c.clear with version }.add cls fn
  else c.add cls fn

def hitRate (c : Inline) : Float := rate c.hits.toNat (c.hits + c.misses).toNat

end Inline

/-- The cache of one constant reference. -/
structure Const where
  version : UInt64 := 0
  value : Value := .zero
  valid : Bool := false
  deriving Inhabited

namespace Const

def lookup? (c : Const) (version : UInt64) : Option Value :=
  if c.valid ∧ c.version = version then some c.value else none

def update (_ : Const) (v : Value) (version : UInt64) : Const := ⟨version, v, true⟩

end Const

/-- Counts over many call sites. -/
structure Stats where
  sites : Int := 0
  mono : Int := 0
  poly : Int := 0
  mega : Int := 0
  empty : Int := 0
  hits : UInt64 := 0
  misses : UInt64 := 0
  /-- Percentage of lookups that hit. -/
  hitRate : Float := 0
  /-- Percentage of the used sites that are monomorphic. -/
  monoRate : Float := 0
  deriving Inhabited

def Stats.count (s : Stats) (c : Inline) : Stats :=
  let s := { s with
    sites := s.sites + 1
    hits := s.hits + c.hits
    misses := s.misses + c.misses }
  match c.state with
  | .monomorphic => { s with mono := s.mono + 1 }
  | .polymorphic => { s with poly := s.poly + 1 }
  | .megamorphic => { s with mega := s.mega + 1 }
  | .empty => { s with empty := s.empty + 1 }

def Stats.ofSites (sites : List Inline) : Stats :=
  let s := sites.foldl Stats.count {}
  { s with
    hitRate := rate s.hits.toNat (s.hits + s.misses).toNat
    monoRate := rate s.mono.toNat (s.sites - s.empty).toNat }

end RubyMachine.Cache
