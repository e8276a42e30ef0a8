import RubyMachine.Code.Builder
import RubyMachine.Proofs.Code.Decoding

/-! Drafts of code: instructions whose jumps still name labels, and what they are as bytes once labels have places.
Placing a label changes those bytes only where it is named (`toList_patch`). -/

namespace RubyMachine.Code

/-! ## Parts of instructions -/

/-- A number as an instruction stores it. -/
inductive Field where
  | u8 (n : UInt8)
  | u16 (n : UInt16)
  | u32 (n : UInt32)
  | u64 (n : UInt64)

def Field.bytes : Field → List UInt8
  | .u8 n => [n]
  | .u16 n => Bytes.le16 n
  | .u32 n => Bytes.le32 n
  | .u64 n => Bytes.le64 n

/-- A part of an instruction as an emitter is given it: a number, or what stands for one. -/
inductive Part where
  | field (f : Field)
  /-- The index of a literal in the pool. -/
  | literal (index : Nat) (v : Value)
  /-- The cache of a send. -/
  | methodSite (index : Nat)
  /-- The cache of a constant. -/
  | constSite (index : Nat)
  /-- The distance to a label. -/
  | target (label : Nat)

namespace Part

def width : Part → Nat
  | .field f => f.bytes.length
  | _ => 4

/-- What is stored for an operand at `site`. Distances to labels without a place are 0. -/
def stored (place : Nat → Option Nat) (site : Nat) : Part → Field
  | .field f => f
  | .literal i _ | .methodSite i | .constSite i => .u32 (UInt32.ofNat i)
  | .target l => .u32 ((place l).elim 0 (Builder.distance site))

def bytes (place : Nat → Option Nat) (site : Nat) (a : Part) : List UInt8 := (a.stored place site).bytes

def literal? : Part → Option Value
  | .literal _ v => some v
  | _ => none

def isMethodSite : Part → Bool
  | .methodSite _ => true
  | _ => false

def isConstSite : Part → Bool
  | .constSite _ => true
  | _ => false

/-- The bytes of operands from `site` on. -/
def render (place : Nat → Option Nat) : Nat → List Part → List UInt8
  | _, [] => []
  | site, a :: as => a.bytes place site ++ render place (site + a.width) as

/-- Where a label is named. -/
def sites (label : Nat) : Nat → List Part → List Nat
  | _, [] => []
  | site, .target l :: as => if l = label then site :: sites label (site + 4) as else sites label (site + 4) as
  | site, a :: as => sites label (site + a.width) as

def widths (as : List Part) : Nat := (as.map width).sum

variable {place : Nat → Option Nat} {site label p : Nat} {as bs : List Part}

theorem length_bytes (a : Part) : (a.bytes place site).length = a.width := by
  cases a <;> rfl

theorem width_pos (a : Part) : 0 < a.width := by
  cases a with
  | field f => cases f <;> exact Nat.succ_pos _
  | literal | methodSite | constSite | target => exact Nat.succ_pos _

theorem widths_cons (a : Part) (as : List Part) : widths (a :: as) = a.width + widths as := List.sum_cons

theorem length_le_widths (as : List Part) : as.length ≤ widths as := by
  induction as with
  | nil => exact le_rfl
  | cons a as ih =>
    have := a.width_pos
    rw [widths_cons, List.length_cons]
    omega

theorem widths_append : widths (as ++ bs) = widths as + widths bs := by
  rw [widths, List.map_append, List.sum_append]
  rfl

theorem length_render : (render place site as).length = widths as := by
  induction as generalizing site with
  | nil => rfl
  | cons a as ih =>
    rw [render, List.length_append, length_bytes, ih, widths_cons]

theorem render_append : render place site (as ++ bs) =
    render place site as ++ render place (site + widths as) bs := by
  induction as generalizing site with
  | nil => rfl
  | cons a as ih =>
    rw [List.cons_append, render, ih, render, List.append_assoc, Nat.add_assoc, widths_cons]

theorem sites_append : sites label site (as ++ bs) = sites label site as ++ sites label (site + widths as) bs := by
  induction as generalizing site with
  | nil => rfl
  | cons a as ih =>
    rw [widths_cons, ← Nat.add_assoc]
    cases a with
    | target l =>
      rw [List.cons_append, sites, sites, ih]
      split <;> rfl
    | field | literal | methodSite | constSite => exact ih

theorem sites_eq_nil (h : .target label ∉ as) : sites label site as = [] := by
  induction as generalizing site with
  | nil => rfl
  | cons a as ih =>
    rw [List.mem_cons, not_or] at h
    cases a with
    | target l =>
      have hne : l ≠ label := fun he => h.1 (congrArg _ he.symm)
      rw [sites, if_neg hne, ih h.2]
    | field | literal | methodSite | constSite => exact ih h.2

/-- Operands that name no label are the same bytes everywhere. -/
theorem render_plain {place' : Nat → Option Nat} {site' : Nat} (h : ∀ l, .target l ∉ as) :
    render place site as = render place' site' as := by
  induction as generalizing site site' with
  | nil => rfl
  | cons a as ih =>
    have ha : a.bytes place site = a.bytes place' site' := by
      cases a with
      | target l => exact absurd List.mem_cons_self (h l)
      | field | literal | methodSite | constSite => rfl
    rw [render, render, ha, ih fun l hl => h l (List.mem_cons_of_mem a hl)]

/-- Overwriting the distances to a label that had no place leads to the bytes in which it has one. -/
theorem toList_patch {code : Bytes} (pre post : List UInt8) (hl : place label = none)
    (hc : code.toList = pre ++ render place pre.length as ++ post) :
    ((sites label pre.length as).foldl (fun code site => code.overwrite site (Bytes.le32 (Builder.distance site p)))
      code).toList = pre ++ render (Function.update place label (some p)) pre.length as ++ post := by
  have hother {a : Part} (ha : a ≠ .target label) (site : Nat) :
      a.bytes (Function.update place label (some p)) site = a.bytes place site := by
    cases a with
    | target l =>
      have hne : l ≠ label := fun he => ha (he ▸ rfl)
      rw [bytes, bytes, stored, stored, Function.update_of_ne hne]
    | field | literal | methodSite | constSite => rfl
  induction as generalizing pre code with
  | nil => exact hc
  | cons a as ih =>
    have hlen (place : Nat → Option Nat) : pre.length + a.width = (pre ++ a.bytes place pre.length).length := by
      rw [List.length_append, length_bytes]
    by_cases ha : a = .target label
    · subst ha
      rw [render, bytes, stored, hl, Option.elim_none, ← List.append_assoc, List.append_assoc _ _ post] at hc
      have hbytes : bytes (Function.update place label (some p)) pre.length (.target label) =
          Bytes.le32 (Builder.distance pre.length p) := by
        rw [bytes, stored, Function.update_self, Option.elim_some]
        rfl
      have hover : code.overwrite pre.length (Bytes.le32 (Builder.distance pre.length p)) = _ :=
        Bytes.overwrite_middle hc rfl
      have hsites : sites label pre.length (.target label :: as) =
          pre.length :: sites label (pre.length + width (.target label)) as := if_pos rfl
      rw [hsites, List.foldl_cons, hover, render, ← List.append_assoc pre, hlen (Function.update place label (some p)),
        ← hbytes]
      exact ih _ (List.append_assoc ..).symm
    · have hsites : sites label pre.length (a :: as) = sites label (pre.length + a.width) as := by
        cases a with
        | target l => exact if_neg fun he => ha (congrArg _ he)
        | field | literal | methodSite | constSite => rfl
      rw [hsites, render, hother ha, ← List.append_assoc pre, hlen place]
      refine ih _ ?_
      rw [hc, render, List.append_assoc pre (a.bytes place pre.length), hlen place]

end Part

/-! ## Instructions -/

/-- An instruction as it is emitted. -/
structure Instr where
  op : Opcode
  args : List Part

/-- All that an instruction is made of, its opcode first. -/
def Instr.parts (i : Instr) : List Part := .field (.u8 i.op.byte) :: i.args

/-- What was emitted so far, the labels that were created, and the places of those that were marked. -/
structure Draft where
  instrs : List Instr := []
  labels : Nat := 0
  place : Nat → Option Nat := fun _ => none

namespace Draft

def parts (d : Draft) : List Part := d.instrs.flatMap Instr.parts

/-- The offset at which the next instruction is emitted. -/
def size (d : Draft) : Nat := (d.instrs.map fun i => i.op.size).sum

def literals (d : Draft) : List Value := d.parts.filterMap Part.literal?

/-- How many sends were emitted. -/
def sends (d : Draft) : Nat := d.parts.countP Part.isMethodSite

/-- How many reads of constants were emitted. -/
def reads (d : Draft) : Nat := d.parts.countP Part.isConstSite

def emit (d : Draft) (i : Instr) : Draft := { d with instrs := d.instrs ++ [i] }

def newLabel (d : Draft) : Draft := { d with labels := d.labels + 1 }

def mark (d : Draft) (label : Nat) : Draft := { d with place := Function.update d.place label (some d.size) }

section

variable (d : Draft) (i : Instr) (label : Nat)

@[simp] theorem parts_emit : (d.emit i).parts = d.parts ++ i.parts := by
  simp [parts, emit]

@[simp] theorem size_emit : (d.emit i).size = d.size + i.op.size := by
  simp [size, emit]

@[simp] theorem literals_emit : (d.emit i).literals = d.literals ++ i.args.filterMap Part.literal? := by
  rw [literals, parts_emit, List.filterMap_append, literals, Instr.parts, List.filterMap_cons]
  rfl

@[simp] theorem sends_emit : (d.emit i).sends = d.sends + i.args.countP Part.isMethodSite := by
  rw [sends, parts_emit, List.countP_append, sends, Instr.parts, List.countP_cons]
  rfl

@[simp] theorem reads_emit : (d.emit i).reads = d.reads + i.args.countP Part.isConstSite := by
  rw [reads, parts_emit, List.countP_append, reads, Instr.parts, List.countP_cons]
  rfl

end

end Draft

end RubyMachine.Code
