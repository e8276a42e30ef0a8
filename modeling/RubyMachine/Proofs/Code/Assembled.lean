import RubyMachine.Proofs.Code.Emitting

/-! What was assembled is read again: the code that a builder gives decodes to the instructions that were emitted, and
its jumps reach the places of their labels (`assemble_exact`). -/

namespace RubyMachine.Code

/-! ## Reading it again -/

namespace Field

/-- A reader finds a number, and where it is after it. -/
inductive Read (r : Reader) : Field → Reader → Prop where
  | u8 {n : UInt8} {r' : Reader} : r.u8 = .ok (n, r') → Read r (.u8 n) r'
  | u16 {n : UInt16} {r' : Reader} : r.u16 = .ok (n, r') → Read r (.u16 n) r'
  | u32 {n : UInt32} {r' : Reader} : r.u32 = .ok (n, r') → Read r (.u32 n) r'
  | u64 {n : UInt64} {r' : Reader} : r.u64 = .ok (n, r') → Read r (.u64 n) r'

theorem read (f : Field) {code : Bytes} {pre post : List UInt8} (hc : code.toList = pre ++ f.bytes ++ post) :
    f.Read ⟨code, pre.length⟩ ⟨code, (pre.length + f.bytes.length : Nat)⟩ := by
  have hsize : pre.length + f.bytes.length ≤ code.size := by
    have := congrArg List.length hc
    rw [Array.length_toList, List.length_append, List.length_append] at this
    omega
  cases f with
  | u8 n =>
    have hn : code[pre.length]? = some n := by
      rw [← Array.getElem?_toList, hc]
      simp [bytes]
    exact .u8 (Reader.take_ok hn hsize)
  | u16 n => exact .u16 (Reader.take_ok ((Bytes.u16At?_middle hc rfl).trans (Bytes.u16At?_le16 n)) hsize)
  | u32 n => exact .u32 (Reader.take_ok ((Bytes.u32At?_middle hc le_rfl).trans (Bytes.u32At?_le32 n)) hsize)
  | u64 n => exact .u64 (Reader.take_ok ((Bytes.u64At?_middle hc rfl).trans (Bytes.u64At?_le64 n)) hsize)

end Field

/-- What is read for an operand of an instruction that ends at `next`: a number as it was given, the index of a literal,
a cache that the sequence has, or the distance from `next` to the place of a label. -/
def Part.Means (seq : Sequence) (place : Nat → Option Nat) (next : Int) : Part → Field → Prop
  | .field f, g => g = f
  | .literal _ v, .u32 n => seq.consts[n.toNat]? = some v
  | .methodSite i, .u32 n => n.toNat = i ∧ (i : Int) < seq.methodSites
  | .constSite i, .u32 n => n.toNat = i ∧ (i : Int) < seq.constSites
  | .target l, .u32 n => ∃ p : Nat, place l = some p ∧ next + n.toInt32.toInt = p
  | _, _ => False

/-- A reader finds operands one after the other. -/
inductive Part.Read (seq : Sequence) (place : Nat → Option Nat) (next : Int) : List Part → Reader → Reader → Prop where
  | nil {r : Reader} : Read seq place next [] r r
  | cons {a : Part} {as : List Part} {f : Field} {r r₁ r₂ : Reader} : f.Read r r₁ → a.Means seq place next f →
    Read seq place next as r₁ r₂ → Read seq place next (a :: as) r r₂

/-- A reader finds these instructions up to the end of the code: each has its opcode, then its operands, and ends where
the size of the opcode says. -/
inductive Decodes (seq : Sequence) (place : Nat → Option Nat) : Reader → List Instr → Prop where
  | done {r : Reader} : r.hasMore = false → Decodes seq place r []
  | step {i : Instr} {is : List Instr} {byte : UInt8} {r r₁ r₂ : Reader} : r.u8 = .ok (byte, r₁) →
    Opcode.ofByte? byte = some i.op → Part.Read seq place (r.pos + i.op.size) i.args r₁ r₂ →
    r₂.pos = r.pos + i.op.size → Decodes seq place r₂ is → Decodes seq place r (i :: is)

theorem toInt_distance {site p : Nat} (hs : site + 4 < 2 ^ 31) (hp : p < 2 ^ 31) :
    (Builder.distance site p).toInt32.toInt = (p : Int) - (site + 4) := by
  rw [Builder.distance, Int32.toInt32_toUInt32, Int32.toInt_ofInt_of_le (by omega) (by omega)]

namespace Assembles

variable {d : Draft} {b : Builder} {i : Instr}

theorem index_lt (h : Assembles d b) (hsmall : d.size < 2 ^ 31) {n : Nat} (hn : n < d.parts.length) :
    (UInt32.ofNat n).toNat = n := by
  have hle := Part.length_le_widths d.parts
  rw [h.widths_parts] at hle
  exact UInt32.toNat_ofNat_of_lt' (show n < 2 ^ 32 by omega)

/-- What is stored for an operand means it. -/
theorem means (h : Assembles d b) (hsmall : d.size < 2 ^ 31) (hplaced : ∀ l < d.labels, (d.place l).isSome = true)
    {pc : Nat} (hi : i ∈ d.instrs) (hpc : pc + i.op.size ≤ d.size) {as bs : List Part} {a : Part}
    (ha : i.args = as ++ a :: bs) :
    a.Means b.seq d.place (pc + i.op.size) (a.stored d.place (pc + 1 + Part.widths as)) := by
  have hmem : a ∈ d.parts := List.mem_flatMap.2 ⟨i, hi, List.mem_cons_of_mem _ (by rw [ha]; simp)⟩
  have hknown := h.known a hmem
  cases a with
  | field f => rfl
  | literal k v =>
    have hlt : k < d.parts.length := (List.getElem?_eq_some_iff.1 hknown).1.trans_le (List.length_filterMap_le _ _)
    show b.seq.consts[(UInt32.ofNat k).toNat]? = some v
    rw [h.index_lt hsmall hlt, ← Array.getElem?_toList, h.literals]
    exact hknown
  | methodSite k =>
    refine ⟨h.index_lt hsmall (Nat.lt_of_lt_of_le hknown List.countP_le_length), ?_⟩
    rw [h.methodSites]
    exact_mod_cast hknown
  | constSite k =>
    refine ⟨h.index_lt hsmall (Nat.lt_of_lt_of_le hknown List.countP_le_length), ?_⟩
    rw [h.constSites]
    exact_mod_cast hknown
  | target l =>
    obtain ⟨p, hp⟩ := Option.isSome_iff_exists.1 (hplaced l hknown)
    obtain rfl := h.last i hi as l bs ha
    have hsize := h.sized i hi
    rw [Instr.parts, ha, Part.widths_cons, Part.widths_append] at hsize
    replace hsize : i.op.size = 1 + (Part.widths as + 4) := hsize
    have hle := (h.placed l p hp).2
    refine ⟨p, hp, ?_⟩
    rw [hp, Option.elim_some, toInt_distance (by omega) (by omega)]
    omega

theorem reads (h : Assembles d b) (hsmall : d.size < 2 ^ 31) (hplaced : ∀ l < d.labels, (d.place l).isSome = true)
    {pc : Nat} (hi : i ∈ d.instrs) (hpc : pc + i.op.size ≤ d.size) (as : List Part) {bs : List Part} (ha : i.args = as ++ bs)
    (pre : List UInt8) {post : List UInt8} (hpre : pre.length = pc + 1 + Part.widths as)
    (hc : b.seq.code.toList = pre ++ Part.render d.place pre.length bs ++ post) :
    Part.Read b.seq d.place (pc + i.op.size) bs ⟨b.seq.code, pre.length⟩
      ⟨b.seq.code, (pre.length + Part.widths bs : Nat)⟩ := by
  induction bs generalizing as pre with
  | nil => exact .nil
  | cons a bs ih =>
    rw [Part.render, ← List.append_assoc pre, List.append_assoc (pre ++ _)] at hc
    have hread := (a.stored d.place pre.length).read hc
    have hlen : (pre ++ a.bytes d.place pre.length).length = pre.length + a.width := by
      rw [List.length_append, Part.length_bytes]
    have hrest := ih (as ++ [a]) (by rw [ha]; simp) (pre ++ a.bytes d.place pre.length)
      (by rw [hlen, hpre, Part.widths_append]; exact Nat.add_assoc ..) (by rw [hlen, List.append_assoc _ (Part.render ..), hc])
    rw [hlen, Nat.add_assoc, ← Part.widths_cons] at hrest
    rw [show (a.stored d.place pre.length).bytes.length = a.width from Part.length_bytes a] at hread
    refine .cons hread ?_ hrest
    rw [hpre]
    exact h.means hsmall hplaced hi hpc ha

/-- With every label in its place, the code decodes to what was drafted. -/
theorem decodes (h : Assembles d b) (hsmall : d.size < 2 ^ 31) (hplaced : ∀ l < d.labels, (d.place l).isSome = true) :
    Decodes b.seq d.place ⟨b.seq.code, 0⟩ d.instrs := by
  have from_ (is : List Instr) (pre : List UInt8) (his : ∀ i ∈ is, i ∈ d.instrs)
      (hc : b.seq.code.toList = pre ++ Part.render d.place pre.length (is.flatMap Instr.parts)) :
      Decodes b.seq d.place ⟨b.seq.code, pre.length⟩ is := by
    have hlen := congrArg List.length hc
    rw [Array.length_toList, List.length_append, Part.length_render] at hlen
    induction is generalizing pre with
    | nil =>
      refine .done (decide_eq_false ?_)
      replace hlen : b.seq.code.size = pre.length := hlen
      rw [hlen]
      exact lt_irrefl _
    | cons i is ih =>
      have hi := his i List.mem_cons_self
      have hsize := h.sized i hi
      have hpc : pre.length + i.op.size ≤ d.size := by
        rw [List.flatMap_cons, Part.widths_append, ← hsize] at hlen
        rw [← h.length_eq, Builder.length, hlen]
        omega
      have hone : (pre ++ [i.op.byte]).length = pre.length + 1 := by simp
      have hargs : i.op.size = 1 + Part.widths i.args := hsize
      -- the opcode, its operands, and the rest
      have hparts : b.seq.code.toList = (pre ++ [i.op.byte]) ++ Part.render d.place (pre ++ [i.op.byte]).length i.args ++
          Part.render d.place (pre.length + i.op.size) (is.flatMap Instr.parts) := by
        rw [hc, List.flatMap_cons, Part.render_append, ← hsize, Instr.parts, Part.render, hone, ← List.append_assoc,
          ← List.append_assoc]
        rfl
      have hbyte : Reader.u8 ⟨b.seq.code, pre.length⟩ = .ok (i.op.byte, ⟨b.seq.code, (pre.length + 1 : Nat)⟩) := by
        refine Reader.take_ok ?_ (by rw [hlen, List.flatMap_cons, Part.widths_append, ← hsize]; omega)
        rw [← Array.getElem?_toList, hparts]
        simp
      have hread := h.reads hsmall hplaced hi hpc [] rfl _ hone hparts
      rw [hone] at hread
      have hhead : (pre ++ [i.op.byte] ++ Part.render d.place (pre ++ [i.op.byte]).length i.args).length =
          pre.length + i.op.size := by
        rw [List.length_append, Part.length_render, hone, hargs, Nat.add_assoc]
      have hnext := ih _ (fun j hj => his j (List.mem_cons_of_mem i hj)) (by rw [hhead, hparts])
        (by rw [hhead, hlen, List.flatMap_cons, Part.widths_append, ← hsize, Nat.add_assoc])
      rw [hhead] at hnext
      refine .step hbyte i.op.ofByte?_byte hread ?_ ?_
      · show ((pre.length + 1 + Part.widths i.args : Nat) : Int) = pre.length + i.op.size
        omega
      · rwa [Nat.add_assoc, ← hargs]
  exact from_ d.instrs [] (fun _ hi => hi) h.code

end Assembles

/-! ## Whole sequences -/

theorem Draft.place_call (d : Draft) (c : Call) (l : Nat) :
    ((d.call c).place l).isSome = true ↔ (d.place l).isSome = true ∨ c = .mark l := by
  cases c with
  | mark k =>
    show (Function.update d.place k (some d.size) l).isSome = true ↔ _
    rw [Function.update_apply]
    by_cases hk : l = k
    · rw [if_pos hk, hk]
      exact ⟨fun _ => .inr rfl, fun _ => rfl⟩
    · rw [if_neg hk]
      exact ⟨.inl, fun h => h.resolve_right fun he => hk (Call.mark.inj he).symm⟩
  | _ => exact ⟨.inl, fun h => h.resolve_right (by rintro ⟨⟩)⟩

/-- The labels that have a place are those that were marked. -/
theorem isSome_place_iff (cs : List Call) (l : Nat) : ((draft cs).place l).isSome = true ↔ .mark l ∈ cs := by
  have hall (d : Draft) : ((cs.foldl Draft.call d).place l).isSome = true ↔ (d.place l).isSome = true ∨ .mark l ∈ cs := by
    induction cs generalizing d with
    | nil => simp
    | cons c cs ih => rw [List.foldl_cons, ih, d.place_call, List.mem_cons, or_assoc, @eq_comm _ c]
  rw [draft, hall]
  simp

/-- The place of a label is the offset at which it was marked. -/
theorem exists_of_place {cs : List Call} {l p : Nat} (h : (draft cs).place l = some p) :
    ∃ before after, cs = before ++ .mark l :: after ∧ (draft before).size = p := by
  induction cs using List.reverseRecOn with
  | nil => cases h
  | append_singleton cs c ih =>
    have hearlier (hp : (draft cs).place l = some p) : ∃ before after, cs ++ [c] = before ++ .mark l :: after ∧
        (draft before).size = p := by
      obtain ⟨before, after, rfl, hb⟩ := ih hp
      exact ⟨before, after ++ [c], by simp, hb⟩
    rw [draft, List.foldl_append] at h
    cases c with
    | mark k =>
      replace h : Function.update (draft cs).place k (some (draft cs).size) l = some p := h
      by_cases hk : l = k
      · subst hk
        rw [Function.update_self] at h
        exact ⟨cs, [], rfl, Option.some.inj h⟩
      · rw [Function.update_of_ne hk] at h
        exact hearlier h
    | _ => exact hearlier h

theorem Assembles.build_eq {d : Draft} {b : Builder} (h : Assembles d b) :
    (∃ seq, b.build = .ok seq) ↔ ∀ l < d.labels, (d.place l).isSome = true := by
  have hall : b.labels.all Builder.isPlaced = true ↔ ∀ l < d.labels, (d.place l).isSome = true := by
    rw [Array.all_eq_true, ← h.count]
    refine forall_congr' fun l => forall_congr' fun hl => ?_
    have hlabel := h.label l (h.count ▸ hl)
    rw [Array.getD_eq_getD_getElem?, Array.getElem?_eq_getElem hl, Option.getD_some] at hlabel
    rw [hlabel]
    cases d.place l with
    | none => exact ⟨by rintro ⟨⟩, by rintro ⟨⟩⟩
    | some p => exact ⟨fun _ => rfl, fun _ => rfl⟩
  rw [← hall, Builder.build]
  split_ifs with hp
  · exact ⟨fun _ => hp, fun _ => ⟨_, rfl⟩⟩
  · refine ⟨fun ⟨seq, he⟩ => ?_, fun h => absurd h hp⟩
    cases he

/-- Proper calls can all be made. There is a sequence at the end exactly if every label was marked, and its code decodes
to the instructions that were emitted, with the operands they were given; jumps reach the places of their labels. -/
theorem assemble_exact (name : Ident) (kind : SequenceKind) {cs : List Call} (hc : ({} : Draft).Proper cs)
    (hsmall : (draft cs).size < 2 ^ 31) : ∃ b, cs.foldlM Builder.call (.new name kind) = .ok b ∧
      ((∃ seq, b.build = .ok seq) ↔ ∀ l < (draft cs).labels, .mark l ∈ cs) ∧
      (∀ l p, (draft cs).place l = some p → ∃ before after, cs = before ++ .mark l :: after ∧ (draft before).size = p) ∧
      ∀ seq, b.build = .ok seq → Decodes seq (draft cs).place ⟨seq.code, 0⟩ (draft cs).instrs := by
  obtain ⟨b, hrun, h⟩ := (Assembles.new name kind).run hc
  refine ⟨b, hrun, ?_, fun l p => exists_of_place, fun seq hseq => ?_⟩
  · rw [h.build_eq]
    exact forall_congr' fun l => forall_congr' fun _ => isSome_place_iff cs l
  · have hplaced := h.build_eq.1 ⟨seq, hseq⟩
    rw [Builder.build] at hseq
    split_ifs at hseq
    cases hseq
    exact h.decodes hsmall hplaced

/-- A loop that ends forward and repeats backward, with sends and constants in it. -/
def loopCalls : List Call := [.newLabel, .newLabel, .mark 0, .emitGetConst ⟨7⟩, .emitJump .jmpIfFalse 1,
  .emitSend ⟨8⟩ 0 0 ⟨0⟩, .emit .pop, .emitJump .jmpBack 0, .mark 1, .emitOptSend ⟨9⟩ 0 ⟨0⟩ false, .emit .ret]

theorem assemble_loopCalls : ({} : Draft).Proper loopCalls ∧ (draft loopCalls).size < 2 ^ 31 ∧
    ∃ b seq, loopCalls.foldlM Builder.call (.new ⟨1⟩ .method) = .ok b ∧ b.build = .ok seq ∧
      Decodes seq (draft loopCalls).place ⟨seq.code, 0⟩ (draft loopCalls).instrs ∧
      (draft loopCalls).place 0 = some 0 ∧ (draft loopCalls).place 1 = some 36 := by
  have hproper : ({} : Draft).Proper loopCalls :=
    ⟨trivial, trivial, ⟨by decide, rfl⟩, trivial, ⟨rfl, rfl, by decide⟩, trivial, rfl, ⟨rfl, rfl, by decide⟩,
      ⟨by decide, rfl⟩, trivial, rfl, trivial⟩
  have hsmall : (draft loopCalls).size < 2 ^ 31 := by decide
  obtain ⟨b, hrun, hbuild, -, hdecodes⟩ := assemble_exact ⟨1⟩ .method hproper hsmall
  obtain ⟨seq, hseq⟩ := hbuild.2 fun l hl => by
    obtain rfl | rfl : l = 0 ∨ l = 1 := by
      replace hl : l < 2 := hl
      omega
    · simp [loopCalls]
    · simp [loopCalls]
  exact ⟨hproper, hsmall, b, seq, hrun, hseq, hdecodes seq hseq, by decide, by decide⟩

end RubyMachine.Code
