import RubyMachine.Proofs.Arguments.Blocks
import RubyMachine.Proofs.Arguments.Keywords
import RubyMachine.Proofs.Arguments.Positional

/-! The parameters of a callee laid out: every argument comes to lie in its place, and the words below the callee stay
(`fillParams_ends`). -/

namespace RubyMachine

open Exec Machine Code

/-! ## Slots that are not positional -/

/-- The words of `f` with a value in a slot, if there is one for it. -/
def place (slot : Option UInt32) (v : Value) (f : Nat → Value) : Nat → Value :=
  slot.elim f fun s => Function.update f s.toNat v

theorem place_of_ne {slot : Option UInt32} {v : Value} {f : Nat → Value} {i : Nat} (h : ∀ s ∈ slot, i ≠ s.toNat) :
    place slot v f i = f i := by
  cases slot with
  | none => rfl
  | some s => exact Function.update_of_ne (h s rfl) v f

theorem place_self {slot : Option UInt32} {v : Value} {f : Nat → Value} {s : UInt32} (h : s ∈ slot) :
    place slot v f s.toNat = v := by
  cases h
  exact Function.update_self ..

namespace Code.Sequence

variable {seq : Sequence} {req opt post : Nat}

def keywordSlots (seq : Sequence) : List Nat := seq.params.keywords.map fun k => k.slot.toNat

/-- The slots of keywords, surplus keywords, what is delegated, and the block. -/
def specials (seq : Sequence) : List Nat :=
  seq.keywordSlots ++ (seq.kwRestSlot.toList ++ (seq.delegateSlot.toList ++ seq.blockSlot.toList)).map UInt32.toNat

/-- Parameters are laid out as they are declared, each in a slot of its own. -/
structure Regular (seq : Sequence) (req opt post : Nat) : Prop where
  required : seq.params.req = req
  optional : seq.params.opt = opt
  trailing : seq.params.post = post
  fits : req + opt + seq.params.restCount + post ≤ seq.slotCount
  apart : seq.specials.Nodup
  above : ∀ s ∈ seq.specials, req + opt + seq.params.restCount + post ≤ s ∧ s < seq.slotCount
  kwRest : seq.params.kwRest = seq.kwRestSlot.isSome
  delegate : seq.params.delegate = seq.delegateSlot.isSome
  block : seq.params.block = seq.blockSlot.isSome

/-- The words of `f` with what is not positional. -/
def words (seq : Sequence) (delegated surplus block : Value) (es : List (Value × Value)) (f : Nat → Value) : Nat → Value :=
  place seq.blockSlot block (seq.params.route
    (place seq.kwRestSlot surplus (ungiven seq.keywordSlots (place seq.delegateSlot delegated f))) es)

variable {delegated surplus block : Value} {es : List (Value × Value)} {f : Nat → Value} {i : Nat}

theorem mem_specials : i ∈ seq.specials ↔ i ∈ seq.keywordSlots ∨ (∃ s ∈ seq.kwRestSlot, i = s.toNat) ∨
    (∃ s ∈ seq.delegateSlot, i = s.toNat) ∨ ∃ s ∈ seq.blockSlot, i = s.toNat := by
  simp [specials, eq_comm]

theorem words_of_not_mem (h : i ∉ seq.specials) : seq.words delegated surplus block es f i = f i := by
  rw [mem_specials, not_or, not_or, not_or] at h
  obtain ⟨hk, hr, hd, hb⟩ := h
  rw [words, place_of_ne fun s hs he => hb ⟨s, hs, he⟩, Params.route_of_not_mem hk,
    place_of_ne fun s hs he => hr ⟨s, hs, he⟩, ungiven, if_neg hk, place_of_ne fun s hs he => hd ⟨s, hs, he⟩]

theorem words_block {s : UInt32} (hs : s ∈ seq.blockSlot) :
    seq.words delegated surplus block es f s.toNat = block := place_self hs

namespace Regular

variable (h : seq.Regular req opt post)

include h

theorem counts (hc : seq.slotCount + 1 < 2 ^ 63) : seq.params.Counts req opt post where
  required := h.required
  optional := h.optional
  trailing := h.trailing
  small := by
    have := h.fits
    omega

/-- Slots for different things differ. -/
theorem ne {s : UInt32} :
    (s ∈ seq.kwRestSlot → s.toNat ∉ seq.keywordSlots) ∧
    (s ∈ seq.delegateSlot → s.toNat ∉ seq.keywordSlots ∧ ∀ t ∈ seq.kwRestSlot, s.toNat ≠ t.toNat) ∧
    (s ∈ seq.blockSlot → s.toNat ∉ seq.keywordSlots ∧ (∀ t ∈ seq.kwRestSlot, s.toNat ≠ t.toNat) ∧
      ∀ t ∈ seq.delegateSlot, s.toNat ≠ t.toNat) := by
  have ha := h.apart
  simp only [specials, List.map_append, List.nodup_append, List.mem_append, List.mem_map, Option.mem_toList] at ha
  obtain ⟨-, ⟨-, ⟨-, -, hdb⟩, hr⟩, hk⟩ := ha
  refine ⟨fun hs hm => ?_, fun hs => ⟨fun hm => ?_, fun t ht he => ?_⟩,
    fun hs => ⟨fun hm => ?_, fun t ht he => ?_, fun t ht he => ?_⟩⟩
  · exact hk _ hm _ (.inl ⟨s, hs, rfl⟩) rfl
  · exact hk _ hm _ (.inr (.inl ⟨s, hs, rfl⟩)) rfl
  · exact hr _ ⟨t, ht, rfl⟩ _ (.inl ⟨s, hs, rfl⟩) he.symm
  · exact hk _ hm _ (.inr (.inr ⟨s, hs, rfl⟩)) rfl
  · exact hr _ ⟨t, ht, rfl⟩ _ (.inr ⟨s, hs, rfl⟩) he.symm
  · exact hdb _ ⟨t, ht, rfl⟩ _ ⟨s, hs, rfl⟩ he.symm

theorem words_kwRest {s : UInt32} (hs : s ∈ seq.kwRestSlot) :
    seq.words delegated surplus block es f s.toNat = surplus := by
  rw [words, place_of_ne fun t ht he => (h.ne.2.2 ht).2.1 s hs he.symm, Params.route_of_not_mem (h.ne.1 hs), place_self hs]

theorem words_delegate {s : UInt32} (hs : s ∈ seq.delegateSlot) :
    seq.words delegated surplus block es f s.toNat = delegated := by
  have hd := h.ne.2.1 hs
  rw [words, place_of_ne fun t ht he => (h.ne.2.2 ht).2.2 s hs he.symm, Params.route_of_not_mem hd.1,
    place_of_ne hd.2, ungiven, if_neg hd.1, place_self hs]

theorem words_keyword {k : Keyword} (hk : k ∈ seq.params.keywords) :
    seq.words delegated surplus block es f k.slot.toNat = seq.params.route (fun _ => .uninit) es k.slot.toNat := by
  have hm : k.slot.toNat ∈ seq.keywordSlots := List.mem_map.2 ⟨k, hk, rfl⟩
  rw [words, place_of_ne fun t ht he => (h.ne.2.2 ht).1 (he ▸ hm)]
  refine Params.route_congr ?_
  rw [place_of_ne fun t ht he => h.ne.1 ht (he ▸ hm), ungiven, if_pos hm]

end Regular

end Code.Sequence

/-! ## The call -/

/-- The keywords of a call: none, or a hash with these entries. -/
structure Keywords (m : Machine) (kw : Value) (es : List (Value × Value)) : Prop where
  hash : kw.isNil = true ∧ es = [] ∨ kw.isRef = true ∧ ∃ d, m.heap.read kw.toRef = .ok (.dict d) ∧ d.toList = es
  keys : ∀ e ∈ es, e.1.isRef = true → ∃ o, m.heap.read e.1.toRef = .ok o

/-- The block of a call, if it must become a value: the frame of a literal one lies below the callee. -/
def BlockBelow (m : Machine) (fs : List Nat) (low : Nat) (blk : Option Block) : Prop :=
  ∀ fn home, blk = some (.literal fn home) →
    m.WellFormed fs ∧ m.CodeFrame fs home ∧ ∀ g ∈ fs, m.frameEnd g ≤ low

theorem Machine.Lays.blockBelow {m m₁ : Machine} {low size : Nat} {f : Nat → Value} {fs : List Nat} {blk : Option Block}
    (h : Lays m m₁ low size f) (hb : BlockBelow m fs low blk) : BlockBelow m₁ fs low blk := by
  intro fn home he
  obtain ⟨hw, hf, hends⟩ := hb fn home he
  refine ⟨h.wellFormed hends hw, (h.codeFrame hends).2 hf, fun g hg => ?_⟩
  rw [Machine.frameEnd, (h.keepsFrame hends hg).isCode]
  exact hends g hg

theorem Keywords.keep {m m₁ : Machine} {kw : Value} {es : List (Value × Value)} (h : Keywords m kw es)
    (hk : m.KeepsObjects m₁) : Keywords m₁ kw es where
  hash := h.hash.imp_right fun ⟨href, d, hd, hes⟩ => ⟨href, d, hk kw _ hd, hes⟩
  keys e he href := (h.keys e he href).imp fun o ho => hk e.1 o ho

/-- A machine that is about to call: the arguments are the top of its stack, and there is room for the callee. -/
structure Called (m : Machine) (seq : Sequence) (low : Nat) (args : List Value) : Prop where
  heap : m.heap.Inv
  len : m.context.stack.len = low + args.length
  slot : ∀ i < args.length, m.slot (low + i) = args.getD i .nil
  room : low + seq.slotCount ≤ m.context.stack.capacity
  small : m.context.stack.capacity + 1 < 2 ^ 63

/-- An object that was not there before. -/
structure IsNew (m m₁ : Machine) (v : Value) (o : Object) : Prop where
  isRef : v.isRef = true
  fresh : ∀ o', m.heap.read v.toRef ≠ .ok o'
  read : m₁.heap.read v.toRef = .ok o

theorem IsNew.keep {m m₁ m₂ : Machine} {v : Value} {o : Object} (h : IsNew m m₁ v o) (hk : m₁.KeepsObjects m₂) :
    IsNew m m₂ v o :=
  ⟨h.isRef, h.fresh, hk v o h.read⟩

/-- What binding leads to: each argument in its place, and nothing else changed. -/
structure Bound (seq : Sequence) (req opt post low : Nat) (args : List Value) (kw : Value) (es : List (Value × Value))
    (blk : Option Block) (fs : List Nat) (m m₁ : Machine) : Prop where
  rest : m₁.withMemory m = m
  len : m₁.context.stack.len = low + seq.slotCount
  objects : m.KeepsObjects m₁
  below : ∀ i < low, m₁.slot i = m.slot i ∨ seq.blockSlot.isSome = true ∧ Block.isLiteral blk = true ∧
    (m.slot i).isRef = false ∧ ∃ f, m.CodeFrame fs f ∧ i = f + 1
  required : ∀ i < req, m₁.slot (low + i) = args.getD i .nil
  optional : ∀ i < opt, m₁.slot (low + (req + i)) =
    if i < args.length - (req + post) then args.getD (req + i) .nil else .uninit
  named : seq.params.rest = .named →
    IsNew m m₁ (m₁.slot (low + (req + opt))) (.array (excess req opt post args).toArray)
  trailing : ∀ i < post, m₁.slot (low + (req + opt + seq.params.restCount + i)) =
    args.getD (args.length - post + i) .nil
  delegate : ∀ s ∈ seq.delegateSlot, ∃ v, IsNew m m₁ v (.array (excess req opt post args).toArray) ∧
    IsNew m m₁ (m₁.slot (low + s.toNat)) (.array #[v, kw])
  keywords : ∀ k ∈ seq.params.keywords,
    m₁.slot (low + k.slot.toNat) = seq.params.route (fun _ => .uninit) es k.slot.toNat
  kwRest : ∀ s ∈ seq.kwRestSlot, ∃ d, IsNew m m₁ (m₁.slot (low + s.toNat)) (.dict d)
  block : ∀ s ∈ seq.blockSlot, Stands m₁ blk (m₁.slot (low + s.toNat))
  others : ∀ i < seq.slotCount, req + opt + seq.params.restCount + post ≤ i → i ∉ seq.specials →
    m₁.slot (low + i) = .nil

/-- The callee's slots hold the words `f`: the positional arguments, and the rest if it has a name. -/
structure Entered (seq : Sequence) (req opt post low : Nat) (args : List Value) (f : Nat → Value) (m m₁ : Machine) :
    Prop where
  lays : Lays m m₁ low seq.slotCount f
  pages : m.heap.pages.size ≤ m₁.heap.pages.size
  grows : m₁.heap.pages.size ≤ m.heap.pages.size + 1
  positional : req + post ≤ args.length → ∀ i, i ≠ req + opt ∨ seq.params.rest ≠ .named →
    f i = positions seq.params req opt post args (fun _ => .nil) i
  named : seq.params.rest = .named → IsNew m m₁ (f (req + opt)) (.array (excess req opt post args).toArray)

/-- The callee's slots hold the words of `f` with what is not positional. -/
structure Filled (seq : Sequence) (low : Nat) (excess : List Value) (kw : Value) (es : List (Value × Value))
    (blk : Option Block) (fs : List Nat) (f : Nat → Value) (m m₁ : Machine) (delegated surplus proc : Value) : Prop where
  rest : m₁.withMemory m = m
  len : m₁.context.stack.len = low + seq.slotCount
  objects : m.KeepsObjects m₁
  below : ∀ i < low, m₁.slot i = m.slot i ∨ seq.blockSlot.isSome = true ∧ Block.isLiteral blk = true ∧
    (m.slot i).isRef = false ∧ ∃ f, m.CodeFrame fs f ∧ i = f + 1
  delegate : seq.delegateSlot.isSome = true → ∃ v, IsNew m m₁ v (.array excess.toArray) ∧
    IsNew m m₁ delegated (.array #[v, kw])
  kwRest : seq.kwRestSlot.isSome = true → IsNew m m₁ surplus (.dict (m.stored {} (seq.params.surplus es)))
  block : seq.blockSlot.isSome = true → Stands m₁ blk proc
  slot : ∀ i < seq.slotCount, m₁.slot (low + i) = seq.words delegated surplus proc es f i

namespace Exec

variable {m m₀ m₁ : Machine} {seq : Sequence} {req opt post low n : Nat} {args : List Value} {kw v : Value}
  {es : List (Value × Value)} {blk : Option Block} {fs : List Nat} {f : Nat → Value}

/-! ## Single steps -/

/-- The positional arguments leave the stack, and the slots of the callee come up. -/
theorem enter_lays (h : Called m seq low args) : ∃ m₁ m₂, Exec.stack m = .ok m.context.stack m ∧
    m.context.stack.slice low (low + args.length) = .ok args ∧ resize low m = .ok () m₁ ∧
    grow seq.slotCount m₁ = .ok () m₂ ∧ Lays m m₂ low seq.slotCount (fun _ => .nil) ∧ m₂.heap = m.heap := by
  have hlen := h.len
  have hroom := h.room
  have hsize := m.context.stack.len_le
  obtain ⟨m₁, hrun, h₁⟩ := resize_resized (m := m) (n := low) (by omega)
  obtain ⟨m₂, hrun₂, h₂⟩ := grow_resized (m := m₁) (n := seq.slotCount) (by rw [h₁.len, h₁.capacity]; exact hroom)
  refine ⟨m₁, m₂, rfl, ?_, hrun, hrun₂, ?_, h₂.heap.trans h₁.heap⟩
  · rw [Stack.slice, if_neg (by omega), show ((low : Int) + args.length - low).toNat = args.length by omega,
      Int.toNat_natCast]
    refine congrArg _ (List.ext_getElem? fun i => ?_)
    rcases Nat.lt_or_ge i args.length with hi | hi
    · have hs := h.slot i hi
      rw [List.getD_eq_getElem?_getD, List.getElem?_eq_getElem hi, Option.getD_some] at hs
      rw [Stack.getElem?_words (by omega) hi, List.getElem?_eq_getElem hi, ← hs]
      rfl
    · rw [List.getElem?_eq_none hi, List.getElem?_eq_none]
      rwa [Stack.length_words _ _ _ (by omega)]
  · have hlen₁ := h₁.len
    constructor
    · show (m₂.withMemory m₁).withMemory m = m
      rw [h₂.rest, h₁.rest]
    · rw [h₂.len, hlen₁]
    · rw [h₂.capacity, h₁.capacity]
    · intro i hi
      rw [h₂.slot i (by omega), if_pos (by omega), h₁.slot i hi, if_pos (by omega)]
    · intro i hi
      rw [h₂.slot (low + i) (by omega), if_neg (by omega)]
    · rw [h₂.heap, h₁.heap]
      exact h.heap
    · intro v o hv
      rwa [h₂.heap, h₁.heap]

theorem new_lays (h : Lays m m₁ low seq.slotCount f) (hn : m₁.heap.pages.size < n) (o : Object) :
    Exec.Ends (alloc o) m₁ n fun v m₂ => Lays m m₂ low seq.slotCount f ∧ m₁.KeepsObjects m₂ ∧ IsNew m m₂ v o ∧
      m₁.heap.pages.size ≤ m₂.heap.pages.size ∧ m₂.heap.pages.size ≤ m₁.heap.pages.size + 1 := by
  refine (alloc_lays h hn o).imp ?_
  rintro v m₂ ⟨h₂, hk, hv⟩
  exact ⟨h₂, hk, ⟨hv.isRef, fun o' ho' => hv.vacant o' (h.objects v o' ho'), hv.read⟩, hv.size, hv.grows⟩

/-- What is delegated is an array of the surplus arguments and the keywords. -/
theorem delegate_ends (hn : m₁.heap.pages.size + 2 ≤ n) (h : Lays m m₁ low seq.slotCount f) (hc : low + seq.slotCount ≤ m.context.stack.capacity)
    (hslot : ∀ s ∈ seq.delegateSlot, s.toNat < seq.slotCount) (vs : List Value) (kw : Value) :
    Exec.Ends ((Locals.mk low seq.slotCount).setOptional seq.delegateSlot do newArray [← newArray vs, kw]) m₁ n
      fun _ m₂ => m₁.KeepsObjects m₂ ∧ m₂.heap.pages.size ≤ m₁.heap.pages.size + 2 ∧ ∃ v, Lays m m₂ low seq.slotCount (place seq.delegateSlot v f) ∧
        (seq.delegateSlot.isSome = true → ∃ e, IsNew m m₂ e (.array vs.toArray) ∧ IsNew m m₂ v (.array #[e, kw])) := by
  unfold Locals.setOptional
  cases hd : seq.delegateSlot with
  | none => exact .of_ok rfl ⟨fun _ _ hr => hr, Nat.le_add_right _ _, .nil, h, by simp⟩
  | some s =>
    have hpair : Exec.Ends (do newArray [← newArray vs, kw]) m₁ n fun v m₂ => Lays m m₂ low seq.slotCount f ∧
        m₁.KeepsObjects m₂ ∧ m₂.heap.pages.size ≤ m₁.heap.pages.size + 2 ∧
        ∃ e, IsNew m m₂ e (.array vs.toArray) ∧ IsNew m m₂ v (.array #[e, kw]) := by
      refine Exec.Ends.bind (new_lays h (by omega) _) fun e m₂ ⟨h₂, hk₂, he, _, hp₂⟩ => (new_lays h₂ (by omega) _).imp ?_
      rintro v m₃ ⟨h₃, hk, hv, -, hp₃⟩
      exact ⟨h₃, hk₂.trans hk, by omega, e, he.keep hk, hv⟩
    refine hpair.bind fun v m₂ ⟨h₂, hk, hp, hv⟩ => ?_
    obtain ⟨m₃, hrun, h₃, hh⟩ := set_lays h₂ (hslot s hd) hc v
    have hk₃ : m₂.KeepsObjects m₃ := fun w o hw => hh ▸ hw
    refine .of_ok hrun ⟨hk.trans hk₃, hh ▸ hp, v, h₃, fun _ => ?_⟩
    exact hv.imp fun e he => ⟨he.1.keep hk₃, he.2.keep hk₃⟩

/-- Passes the keywords of a call on, those without a slot to a hash if there is one for them. -/
def passKeywords (p : Params) (l : Locals) (rest : Option Value) (kw : Value) : Attempt Unit := do
  if !kw.isNil then
    match ← asDict? kw with
    | some d => routeKeywords p l rest d.toList
    | none => Attempt.fail .intoHash

/-- Lays out what comes after the positional arguments and the rest. -/
def fillSpecials (seq : Sequence) (l : Locals) (excess : List Value) (kw : Value) (blk : Option Block) : Attempt Unit := do
  l.setOptional seq.delegateSlot do newArray [← newArray excess, kw]
  seq.params.keywords.forM fun k => l.set k.slot.toNat .uninit
  fillKeywords seq l kw
  l.setOptional seq.blockSlot (blockToProc blk)

theorem fillKeywords_of_none {l : Locals} (h : seq.kwRestSlot = none) :
    fillKeywords seq l kw = passKeywords seq.params l none kw := by
  unfold fillKeywords
  rw [h]
  rfl

theorem fillKeywords_of_some {l : Locals} {s : UInt32} (h : seq.kwRestSlot = some s) :
    fillKeywords seq l kw = (do
      let d ← newDict
      l.set s.toNat d
      passKeywords seq.params l (some d) kw) := by
  unfold fillKeywords
  rw [h]
  rfl

theorem fillKeywords_ends (hn : m₁.heap.pages.size < n) (h : Lays m m₁ low seq.slotCount f) (hc : low + seq.slotCount ≤ m.context.stack.capacity)
    (hslots : ∀ s ∈ seq.specials, s < seq.slotCount) (hkw : Keywords m kw es)
    (hacc : ∀ e ∈ es, (seq.params.slotFor? e.1).isSome = true ∨ seq.kwRestSlot.isSome = true ∨
      seq.params.delegate = true) :
    Attempt.Ends (fillKeywords seq ⟨low, seq.slotCount⟩ kw) m₁ n fun _ m₂ => m₁.KeepsObjects m₂ ∧
      m₂.heap.pages.size ≤ m₁.heap.pages.size + 1 ∧ ∃ d, Lays m m₂ low seq.slotCount (seq.params.route (place seq.kwRestSlot d f) es) ∧
      (seq.kwRestSlot.isSome = true → IsNew m m₂ d (.dict (m.stored {} (seq.params.surplus es)))) := by
  have hmem : ∀ k ∈ seq.params.keywords, k.slot.toNat < seq.slotCount := fun k hk =>
    hslots _ (Sequence.mem_specials.2 (.inl (List.mem_map.2 ⟨k, hk, rfl⟩)))
  have route (rest : Option Value) {m₂ : Machine} {g : Nat → Value} (h₂ : Lays m m₂ low seq.slotCount g)
      (hk : m₁.KeepsObjects m₂) (hsome : rest.isSome = seq.kwRestSlot.isSome) (hrest : ∀ d ∈ rest, Surplus m₁ m₂ d {}) :
      Attempt.Ends (passKeywords seq.params ⟨low, seq.slotCount⟩ rest kw) m₂ n fun _ m₃ =>
      Lays m m₃ low seq.slotCount (seq.params.route g es) ∧ m₁.KeepsObjects m₃ ∧
      m₃.heap.pages.size = m₂.heap.pages.size ∧ ∀ d ∈ rest, Surplus m₁ m₃ d (m.stored {} (seq.params.surplus es)) := by
    unfold passKeywords
    rcases hkw.hash with ⟨hnil, rfl⟩ | ⟨href, d, hd, rfl⟩
    · rw [hnil]
      exact .pure ⟨h₂, hk, rfl, hrest⟩
    · rw [Value.isNil_of_isRef href]
      refine .step (asDict?_apply href (h₂.objects kw _ hd)) ?_
      exact routeKeywords_ends h.objects hc hmem (by rwa [hsome]) hkw.keys hk hrest h₂
  cases hs : seq.kwRestSlot with
  | none =>
    rw [hs] at route
    rw [fillKeywords_of_none hs]
    refine (route none h (fun _ _ hr => hr) rfl (by simp)).imp ?_
    rintro _ m₂ ⟨h₂, hk, hp, -⟩
    exact ⟨hk, hp.le.trans (Nat.le_succ _), .nil, h₂, by simp⟩
  | some s =>
    rw [hs] at route
    rw [fillKeywords_of_some hs]
    refine .bind (.lift (alloc_lays h hn (.dict {}))) fun d m₂ ⟨h₂, hk, hv⟩ => ?_
    have hlt : s.toNat < seq.slotCount := hslots _ (Sequence.mem_specials.2 (.inr (.inl ⟨s, hs, rfl⟩)))
    obtain ⟨m₃, hrun, h₃, hh⟩ := set_lays h₂ hlt hc d
    have hk₃ : m₁.KeepsObjects m₃ := hk.trans fun w o hw => hh ▸ hw
    have hd : Surplus m₁ m₃ d {} := ⟨hv.vacant, hv.isRef, hh ▸ hv.read⟩
    refine .step hrun ((route (some d) h₃ hk₃ rfl fun d' hd' => ?_).imp ?_)
    · cases hd'
      exact hd
    · rintro _ m₄ ⟨h₄, hk₄, hp₄, hd₄⟩
      have hdict := hd₄ d rfl
      have hp : m₄.heap.pages.size ≤ m₁.heap.pages.size + 1 := by rw [hp₄, hh]; exact hv.grows
      exact ⟨hk₄, hp, d, h₄, fun _ => ⟨hv.isRef, fun o' ho' => hdict.fresh o' (h.objects d o' ho'), hdict.dict⟩⟩

/-- The block comes last, for moving its frame to the heap is seen below the callee. -/
theorem setBlock_ends (hn : m₁.heap.pages.size + 2 * fs.length + 1 ≤ n) (h : Lays m m₁ low seq.slotCount f) (hc : low + seq.slotCount ≤ m.context.stack.capacity)
    (hslot : ∀ s ∈ seq.blockSlot, s.toNat < seq.slotCount)
    (hb : seq.blockSlot.isSome = true → BlockBelow m fs low blk) :
    Exec.Ends ((Locals.mk low seq.slotCount).setOptional seq.blockSlot (blockToProc blk)) m₁ n fun _ m₂ =>
      m₂.withMemory m = m ∧ m₂.context.stack.len = low + seq.slotCount ∧ m₁.KeepsObjects m₂ ∧
      (∀ i < low, m₂.slot i = m.slot i ∨ seq.blockSlot.isSome = true ∧ Block.isLiteral blk = true ∧
        (m.slot i).isRef = false ∧ ∃ f, m.CodeFrame fs f ∧ i = f + 1) ∧
      ∃ v, (seq.blockSlot.isSome = true → Stands m₂ blk v) ∧
        ∀ i < seq.slotCount, m₂.slot (low + i) = place seq.blockSlot v f i := by
  unfold Locals.setOptional
  cases hs : seq.blockSlot with
  | none => exact .of_ok rfl ⟨h.rest, h.len, fun _ _ hr => hr, fun i hi => .inl (h.below i hi), .nil, by simp, h.slot⟩
  | some s =>
    have hb := hb (hs ▸ rfl)
    have hready : ∀ fn home, blk = some (.literal fn home) → m₁.WellFormed fs ∧ m₁.CodeFrame fs home :=
      fun fn home he => by
        obtain ⟨hw, hf, hends⟩ := hb fn home he
        exact ⟨h.wellFormed hends hw, (h.codeFrame hends).2 hf⟩
    refine ((blockToProc_ends h.inv hready).of_le hn).bind fun v m₂ ⟨hcap, hv⟩ => ?_
    have hroom : low + seq.slotCount ≤ m₂.context.stack.capacity := by rwa [hcap.capacity, h.capacity]
    -- only words below the callee were written
    have hold (i : Nat) : m₂.slot i = m₁.slot i ∨ i < low ∧ Block.isLiteral blk = true ∧ (m₁.slot i).isRef = false ∧
        ∃ f, m.CodeFrame fs f ∧ i = f + 1 := by
      rcases hcap.slot i with he | ⟨hl, hr, g, hg, rfl⟩
      · exact .inl he
      · obtain ⟨fn, home, he⟩ := exists_of_isLiteral hl
        obtain ⟨-, -, hends⟩ := hb fn home he
        have hg := (h.codeFrame hends).1 hg
        have hend := hends g hg.1
        rw [frameEnd_code hg.2] at hend
        exact .inr ⟨by omega, hl, hr, g, hg, rfl⟩
    refine .of_ok (set_apply (hslot s hs) hroom v) ⟨?_, ?_, hcap.objects, fun i hi => ?_, v, fun _ => ?_, fun i hi => ?_⟩
    · show (m₂.withMemory m₁).withMemory m = m
      rw [hcap.rest, h.rest]
    · exact hcap.len.trans h.len
    · rw [slot_poke, if_neg (by omega), ← h.below i hi]
      exact (hold i).imp_right fun ⟨_, hrest⟩ => ⟨rfl, hrest⟩
    · refine hv.of_slot rfl fun fn home he => ?_
      obtain ⟨-, hf, hends⟩ := hb fn home he
      have hend := hends home hf.1
      rw [frameEnd_code hf.2] at hend
      rw [slot_poke, if_neg (by omega)]
    · rw [slot_poke]
      by_cases he : i = s.toNat
      · rw [if_pos (by omega), he]
        exact (place_self (Option.mem_some_self s)).symm
      · rw [if_neg (by omega), place_of_ne (fun t ht => by cases ht; exact he), ← h.slot i hi]
        rcases hold (low + i) with he | ⟨hlt, -⟩
        · exact he
        · omega

/-! ## All parameters -/

/-- Keywords are filled in, and so is what is delegated and the block: the slots hold the words of `f` with these. -/
theorem fillSpecials_words (hn : m₁.heap.pages.size + 2 * fs.length + 4 ≤ n) (hs : seq.Regular req opt post) (hc : low + seq.slotCount ≤ m.context.stack.capacity)
    (hkw : Keywords m kw es) (hb : seq.blockSlot.isSome = true → BlockBelow m fs low blk)
    (hacc : ∀ e ∈ es, (seq.params.slotFor? e.1).isSome = true ∨ seq.kwRestSlot.isSome = true ∨
      seq.params.delegate = true) (h : Lays m m₁ low seq.slotCount f) (vs : List Value) :
    Attempt.Ends (fillSpecials seq ⟨low, seq.slotCount⟩ vs kw blk) m₁ n fun _ m₂ =>
      m₁.KeepsObjects m₂ ∧ ∃ dv sv bv, Filled seq low vs kw es blk fs f m m₂ dv sv bv := by
  have hlt (s : Nat) (hmem : s ∈ seq.specials) : s < seq.slotCount := (hs.above s hmem).2
  have hdelegate : ∀ s ∈ seq.delegateSlot, s.toNat < seq.slotCount := fun s hmem =>
    hlt _ (Sequence.mem_specials.2 (.inr (.inr (.inl ⟨s, hmem, rfl⟩))))
  have hblock : ∀ s ∈ seq.blockSlot, s.toNat < seq.slotCount := fun s hmem =>
    hlt _ (Sequence.mem_specials.2 (.inr (.inr (.inr ⟨s, hmem, rfl⟩))))
  have hkeyword : ∀ k ∈ seq.params.keywords, k.slot.toNat < seq.slotCount := fun k hk =>
    hlt _ (Sequence.mem_specials.2 (.inl (List.mem_map.2 ⟨k, hk, rfl⟩)))
  refine .bind (.lift (delegate_ends (by omega) h hc hdelegate _ kw)) ?_
  rintro _ m₂ ⟨hk₂, hp₂, dv, h₂, hdv⟩
  refine (forM_uninit h₂ hc _ hkeyword).bind ?_
  rintro _ m₃ ⟨h₃, hh₃⟩
  have hk₃ : m₂.KeepsObjects m₃ := fun w o hw => hh₃ ▸ hw
  have hp₃ : m₃.heap.pages.size ≤ m₁.heap.pages.size + 2 := hh₃ ▸ hp₂
  refine (fillKeywords_ends (by omega) h₃ hc hlt hkw hacc).bind ?_
  rintro _ m₄ ⟨hk₄, hp₄, sv, h₄, hsv⟩
  refine .lift ((setBlock_ends (by omega) h₄ hc hblock hb).imp ?_)
  rintro _ m₅ ⟨hrest, hlen, hk₅, hbelow, bv, hbv, hslot⟩
  have hk : m₂.KeepsObjects m₅ := (hk₃.trans hk₄).trans hk₅
  refine ⟨hk₂.trans hk, dv, sv, bv, hrest, hlen, h₄.objects.trans hk₅, hbelow, fun hd => ?_, fun hr => ?_, hbv, hslot⟩
  · exact (hdv hd).imp fun e he => ⟨he.1.keep hk, he.2.keep hk⟩
  · exact (hsv hr).keep hk₅

/-- What comes after the rest. -/
theorem fillSpecials_ends (hroom : m₁.heap.pages.size + 2 * fs.length + 4 ≤ n) (hs : seq.Regular req opt post) (hc : low + seq.slotCount ≤ m.context.stack.capacity)
    (hn : req + post ≤ args.length) (hkw : Keywords m kw es)
    (hb : seq.blockSlot.isSome = true → BlockBelow m fs low blk)
    (hacc : ∀ e ∈ es, (seq.params.slotFor? e.1).isSome = true ∨ seq.kwRestSlot.isSome = true ∨
      seq.params.delegate = true) (h : Entered seq req opt post low args f m m₁) :
    Attempt.Ends (fillSpecials seq ⟨low, seq.slotCount⟩ (excess req opt post args) kw blk) m₁ n fun _ m₂ =>
      Bound seq req opt post low args kw es blk fs m m₂ := by
  have hpos : Positioned seq.params req opt post args (fun _ => .nil)
    (positions seq.params req opt post args fun _ => .nil) := positioned_positions hn
  have hf := h.positional hn
  refine (fillSpecials_words hroom hs hc hkw hb hacc h.lays _).imp ?_
  rintro _ m₂ ⟨hk, dv, sv, bv, hfilled⟩
  have hslot := hfilled.slot
  have hfits := hs.fits
  have hspecial (s : Nat) (hmem : s ∈ seq.specials) : s < seq.slotCount := (hs.above s hmem).2
  have hpositional (i : Nat) (hi : i < req + opt + seq.params.restCount + post) : m₂.slot (low + i) = f i := by
    rw [hslot i (by omega), Sequence.words_of_not_mem fun hmem => Nat.not_le.2 hi (hs.above i hmem).1]
  have hnot : seq.params.rest = .named → seq.params.restCount = 1 := fun hr => if_pos hr
  exact {
    rest := hfilled.rest
    len := hfilled.len
    objects := hfilled.objects
    below := hfilled.below
    required := fun i hi => by rw [hpositional i (by omega), hf i (.inl (by omega)), hpos.required i hi]
    optional := fun i hi => by rw [hpositional _ (by omega), hf _ (.inl (by omega)), hpos.optional i hi]
    named := fun hr => by
      rw [hpositional _ (by have := hnot hr; omega)]
      exact (h.named hr).keep hk
    trailing := fun i hi => by
      rw [hpositional _ (by omega), hf, hpos.trailing i hi]
      by_cases hr : seq.params.rest = .named
      · have := hnot hr
        exact .inl (by omega)
      · exact .inr hr
    delegate := fun s hmem => by
      rw [hslot _ (hspecial _ (Sequence.mem_specials.2 (.inr (.inr (.inl ⟨s, hmem, rfl⟩))))), hs.words_delegate hmem]
      exact hfilled.delegate (Option.isSome_of_mem hmem)
    keywords := fun k hk => by
      rw [hslot _ (hspecial _ (Sequence.mem_specials.2 (.inl (List.mem_map.2 ⟨k, hk, rfl⟩)))), hs.words_keyword hk]
    kwRest := fun s hmem => by
      rw [hslot _ (hspecial _ (Sequence.mem_specials.2 (.inr (.inl ⟨s, hmem, rfl⟩)))), hs.words_kwRest hmem]
      exact ⟨_, hfilled.kwRest (Option.isSome_of_mem hmem)⟩
    block := fun s hmem => by
      rw [hslot _ (hspecial _ (Sequence.mem_specials.2 (.inr (.inr (.inr ⟨s, hmem, rfl⟩))))), Sequence.words_block hmem]
      exact hfilled.block (Option.isSome_of_mem hmem)
    others := fun i hi hge hmem => by
      rw [hslot i hi, Sequence.words_of_not_mem hmem, hf, hpos.others i hge]
      by_cases hr : seq.params.rest = .named
      · have := hnot hr
        exact .inl (by omega)
      · exact .inr hr }

/-- The positional arguments are laid out, and the rest if it has a name. -/
theorem fillParams_enters (hn : m.heap.pages.size < n) (hs : seq.Regular req opt post) (hm : Called m seq low args) :
    (fillParams seq low args.length kw blk).Reaches m
      (fillSpecials seq ⟨low, seq.slotCount⟩ (excess req opt post args) kw blk) n
      fun m₁ => ∃ f, Entered seq req opt post low args f m m₁ := by
  have hfits := hs.fits
  have hroom := hm.room
  have hcounts := hs.counts (by have := hm.small; omega)
  obtain ⟨m₁, m₂, hstack, hslice, hresize, hgrow, h₂, hh₂⟩ := enter_lays hm
  have hargs : (liftM (m.context.stack.slice low (low + args.length)) : Exec (List Value)) m = .ok args m := by
    rw [hslice]
    rfl
  obtain ⟨m₃, f, hfill, h₃, hh₃, hf⟩ : ∃ m₃ f,
      fillPositional seq.params ⟨low, seq.slotCount⟩ args m₂ = .ok (excess req opt post args) m₃ ∧
      Lays m m₃ low seq.slotCount f ∧ m₃.heap = m₂.heap ∧
      (req + post ≤ args.length → f = positions seq.params req opt post args fun _ => .nil) := by
    rcases Nat.lt_or_ge args.length (req + post) with hfew | henough
    · obtain ⟨m₃, f, hfill, h₃, hh₃⟩ := fillPositional_few hcounts hfew hfits hroom h₂
      exact ⟨m₃, f, by rw [hfill, excess_of_le (by omega)], h₃, hh₃, fun h => by omega⟩
    · obtain ⟨m₃, hfill, h₃, hh₃⟩ := fillPositional_lays hcounts henough hfits hroom h₂
      exact ⟨m₃, _, hfill, h₃, hh₃, fun _ => rfl⟩
  have hheap : m₃.heap = m.heap := hh₃.trans hh₂
  unfold fillParams
  refine .step hstack (.step hargs (.step hresize (.step hgrow (.step hfill ?_))))
  by_cases hr : seq.params.rest = .named
  · rw [if_pos hr, hcounts.positional_eq]
    have hi : req + opt < seq.slotCount := by
      rw [Params.restCount, if_pos hr] at hfits
      omega
    refine .after (.lift (new_lays h₃ (by rwa [hheap]) _)) ?_
    rintro v m₄ ⟨h₄, -, hv, hsize, hgrows⟩
    obtain ⟨m₅, hset, h₅, hh₅⟩ := set_lays h₄ hi hroom v
    rw [hheap] at hsize hgrows
    rw [← hh₅] at hsize hgrows
    refine .step hset (.refl ⟨_, h₅, hsize, hgrows, fun hn i hi => ?_, fun _ => ?_⟩)
    · rw [← hf hn]
      exact Function.update_of_ne (hi.resolve_right (absurd hr)) _ _
    · rw [Function.update_self]
      exact hv.keep fun w o hw => hh₅ ▸ hw
  · rw [if_neg hr]
    exact .refl ⟨f, h₃, by rw [hheap], by rw [hheap]; exact Nat.le_succ _, fun hn i _ => by rw [hf hn], fun hr' => absurd hr' hr⟩

/-- The places of all parameters, when there are enough arguments for those that must be given. What is made of arguments
takes five pages at most, and the frames that move for the block two each. -/
theorem fillParams_ends (hs : seq.Regular req opt post) (hm : Called m seq low args) (hn : req + post ≤ args.length)
    (hkw : Keywords m kw es) (hb : seq.blockSlot.isSome = true → BlockBelow m fs low blk)
    (hacc : ∀ e ∈ es, (seq.params.slotFor? e.1).isSome = true ∨ seq.kwRestSlot.isSome = true ∨
      seq.params.delegate = true) :
    Attempt.Ends (fillParams seq low args.length kw blk) m (m.heap.pages.size + 2 * fs.length + 5) fun _ m₁ =>
      Bound seq req opt post low args kw es blk fs m m₁ :=
  (fillParams_enters (by omega) hs hm).ends fun _ ⟨_, h⟩ =>
    fillSpecials_ends (by have := h.grows; omega) hs hm.room hn hkw hb hacc h

end Exec

end RubyMachine
