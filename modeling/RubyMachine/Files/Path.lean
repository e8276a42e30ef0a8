/-! File paths as text: steps between slashes. -/

namespace RubyMachine.Path

def isAbsolute (p : String) : Bool := p.startsWith "/"

/-- Takes one more step of a path whose steps so far, last first, are `done`. Going up cancels a step
where there is one; above the root it is dropped, and above a relative start it is kept. -/
def step (absolute : Bool) (done : List String) (s : String) : List String :=
  if s = "" ∨ s = "." then done
  else if s ≠ ".." then s :: done
  else match done with
    | [] => if absolute then [] else [".."]
    | d :: rest => if d = ".." then ".." :: done else rest

/-- The shortest path to the same place. The empty path is the current directory. -/
def clean (p : String) : String :=
  let steps := ((p.splitOn "/").foldl (step (isAbsolute p)) []).reverse
  let body := "/".intercalate steps
  if isAbsolute p then "/" ++ body else if steps.isEmpty then "." else body

/-- A path below another one; an empty part counts as absent. -/
def join (dir p : String) : String :=
  if dir = "" then (if p = "" then "" else clean p)
  else if p = "" then clean dir
  else clean (dir ++ "/" ++ p)

/-- A path as seen from the root, for a process in the directory `here`. -/
def absolute (here p : String) : String := if isAbsolute p then clean p else join here p

/-- The directory a path is in; a bare name is in the current directory. -/
def directory (p : String) : String :=
  match (p.splitOn "/").dropLast with
  | [] => "."
  | steps => let d := "/".intercalate steps; if d = "" then "/" else clean d

/-- A path and the directories above it, up to the root. -/
def upward : Nat → String → List String
  | 0, p => [p]
  | n + 1, p => if directory p = p then [p] else p :: upward n (directory p)

end RubyMachine.Path
