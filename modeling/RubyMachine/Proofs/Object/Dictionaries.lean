import Mathlib.Logic.Relation
import RubyMachine.Machine.Builtins
import RubyMachine.Proofs.Arguments.Binding
import RubyMachine.Proofs.Machine.Collections
import RubyMachine.Proofs.Scope.Filling

/-! Hashes are maps that remember the order of their keys. What is found under a key is what was last stored under it, as
long as a string that is a key keeps its text (`dict_exact`): an entry stays where it was filed. -/

namespace RubyMachine

open Relation

namespace Dict

variable {d : Dict} {id id' : DictKey} {k v : Value} {es : List DictEntry} {e : DictEntry}

/-! ## Entries -/

/-- Changes the entry of a key, or adds one. -/
def file (id : DictKey) (k v : Value) : List DictEntry → List DictEntry
  | [] => [⟨id, k, v⟩]
  | e :: es => if e.id = id then { e with value := v } :: es else e :: file id k v es

theorem toList_insert (d : Dict) (id : DictKey) (k v : Value) :
    (d.insert id k v).entries.toList = file id k v d.entries.toList := by
  obtain ⟨⟨es⟩⟩ := d
  have hfile : file id k v es = (es.findIdx? fun e => e.id == id).elim (es ++ [⟨id, k, v⟩]) fun i =>
      es.modify i fun e => { e with value := v } := by
    induction es with
    | nil => rfl
    | cons e es ih =>
      rw [file, List.findIdx?_cons]
      by_cases he : e.id = id
      · rw [if_pos he, if_pos (beq_iff_eq.2 he)]
        rfl
      · rw [if_neg he, if_neg (mt beq_iff_eq.1 he), ih]
        cases es.findIdx? fun e => e.id == id with
        | none => rfl
        | some i => rfl
  rw [hfile, insert, List.findIdx?_toArray]
  cases es.findIdx? fun e => e.id == id with
  | none => exact Array.toList_push
  | some i => exact Array.toList_modify

theorem find?_eq (d : Dict) (id : DictKey) :
    d.find? id = (d.entries.toList.find? fun e => e.id == id).map DictEntry.value := by
  rw [Array.find?_toList]
  rfl

/-- What is stored is found, and nothing else is changed. -/
theorem find?_insert (d : Dict) (id id' : DictKey) (k v : Value) :
    (d.insert id k v).find? id' = if id' = id then some v else d.find? id' := by
  rw [find?_eq, find?_eq, toList_insert]
  induction d.entries.toList with
  | nil =>
    rw [file, List.find?_cons]
    by_cases he : id' = id
    · rw [if_pos he, beq_iff_eq.2 he.symm]
      rfl
    · rw [if_neg he, beq_eq_false_iff_ne.2 (Ne.symm he)]
  | cons e es ih =>
    rw [file]
    by_cases hid : e.id = id
    · rw [if_pos hid, List.find?_cons, List.find?_cons, hid]
      by_cases he : id' = id
      · rw [if_pos he, beq_iff_eq.2 he.symm]
        rfl
      · rw [if_neg he, beq_eq_false_iff_ne.2 (Ne.symm he)]
    · rw [if_neg hid, List.find?_cons, List.find?_cons]
      by_cases he' : e.id = id'
      · rw [beq_iff_eq.2 he', if_neg fun he => hid (he'.trans he)]
      · rw [beq_eq_false_iff_ne.2 he']
        exact ih

/-- Under what the entries are filed, in their order. -/
def ids (d : Dict) : List DictKey := d.entries.toList.map DictEntry.id

theorem isSome_find? : (d.find? id).isSome = true ↔ id ∈ d.ids := by
  rw [find?_eq, Option.isSome_map, List.find?_isSome, ids, List.mem_map]
  exact exists_congr fun e => and_congr_right fun _ => beq_iff_eq

theorem ids_insert (d : Dict) (id : DictKey) (k v : Value) :
    (d.insert id k v).ids = if id ∈ d.ids then d.ids else d.ids ++ [id] := by
  rw [ids, ids, toList_insert]
  induction d.entries.toList with
  | nil => rfl
  | cons e es ih =>
    rw [file, List.map_cons]
    by_cases he : e.id = id
    · rw [if_pos he, if_pos (List.mem_cons.2 (.inl he.symm))]
      rfl
    · have hmem : id ∈ e.id :: es.map DictEntry.id ↔ id ∈ es.map DictEntry.id :=
        List.mem_cons.trans (or_iff_right (Ne.symm he))
      rw [if_neg he, List.map_cons, ih, if_congr hmem rfl rfl]
      split <;> rfl

theorem nodup_ids_insert (h : d.ids.Nodup) : (d.insert id k v).ids.Nodup := by
  rw [ids_insert]
  split
  · exact h
  · rw [List.nodup_append]
    refine ⟨h, List.nodup_singleton id, fun a ha b hb => ?_⟩
    rintro rfl
    exact ‹id ∉ d.ids› (List.mem_singleton.1 hb ▸ ha)

/-- An entry has the key that it was made with. -/
theorem mem_insert (h : e ∈ (d.insert id k v).entries.toList) :
    (∃ e' ∈ d.entries.toList, e'.id = e.id ∧ e'.key = e.key) ∨ e.id = id ∧ e.key = k := by
  rw [toList_insert] at h
  generalize d.entries.toList = es at h ⊢
  induction es with
  | nil =>
    cases List.mem_singleton.1 h
    exact .inr ⟨rfl, rfl⟩
  | cons e' es ih =>
    rw [file] at h
    split at h
    · rcases List.mem_cons.1 h with rfl | h
      · exact .inl ⟨e', List.mem_cons_self, rfl, rfl⟩
      · exact .inl ⟨e, List.mem_cons_of_mem _ h, rfl, rfl⟩
    · rcases List.mem_cons.1 h with rfl | h
      · exact .inl ⟨e, List.mem_cons_self, rfl, rfl⟩
      · rcases ih h with ⟨e'', he, hid⟩ | hnew
        · exact .inl ⟨e'', List.mem_cons_of_mem _ he, hid⟩
        · exact .inr hnew

/-! ## Histories -/

/-- What was stored, and under which keys. -/
abbrev History := List (DictKey × Value)

/-- The value that was last stored under a key. -/
def History.last? (es : History) (id : DictKey) : Option Value := (es.reverse.find? fun e => e.1 == id).map Prod.snd

/-- The keys in the order in which they first came up. -/
def History.order (es : History) : List DictKey :=
  es.foldl (fun ids e => if e.1 ∈ ids then ids else ids ++ [e.1]) []

theorem History.last?_concat (es : History) (id id' : DictKey) (v : Value) :
    History.last? (es ++ [(id, v)]) id' = if id' = id then some v else es.last? id' := by
  rw [History.last?, List.reverse_append, List.reverse_singleton, List.singleton_append, List.find?_cons]
  by_cases he : id' = id
  · rw [if_pos he, beq_iff_eq.2 he.symm]
    rfl
  · rw [if_neg he, beq_eq_false_iff_ne.2 (Ne.symm he)]
    rfl

theorem History.order_concat (es : History) (id : DictKey) (v : Value) :
    History.order (es ++ [(id, v)]) = if id ∈ es.order then es.order else es.order ++ [id] := by
  rw [History.order, List.foldl_append]
  rfl

/-- A hash that has what was last stored, in the order in which it first came up. -/
structure Tells (d : Dict) (es : History) : Prop where
  find? : ∀ id, d.find? id = es.last? id
  ids : d.ids = es.order
  nodup : d.ids.Nodup

theorem tells_empty : Tells {} [] := ⟨fun _ => rfl, rfl, List.nodup_nil⟩

theorem Tells.insert {es : History} (h : d.Tells es) (id : DictKey) (k v : Value) :
    (d.insert id k v).Tells (es ++ [(id, v)]) where
  find? id' := by rw [find?_insert, History.last?_concat, h.find?]
  ids := by rw [ids_insert, History.order_concat, h.ids]
  nodup := nodup_ids_insert h.nodup

end Dict

/-- The text of an object that is a string. -/
def Object.text? : Object → Option String
  | .string s => some s
  | _ => none

namespace Machine

variable {m m' : Machine} {h k v w : Value} {d : Dict} {o : Object} {es : Dict.History}

/-! ## Keys -/

/-- The key leads to something that is there, if it leads anywhere. -/
def Readable (m : Machine) (k : Value) : Prop := k.isRef = true → ∃ o, m.heap.read k.toRef = .ok o

theorem keyId_of_read (hk : k.isRef = true) (hr : m.heap.read k.toRef = .ok o) :
    m.keyId k = o.text?.elim (.word k) .text := by
  rw [keyId, if_pos hk, hr]
  cases o <;> rfl

/-- The key is still the same one: a string has the same text. -/
def KeepsKey (m m' : Machine) (k : Value) : Prop := m.Readable k → m'.Readable k ∧ m'.keyId k = m.keyId k

theorem KeepsKey.of_read (h : ∀ o, k.isRef = true → m.heap.read k.toRef = .ok o →
    ∃ o', m'.heap.read k.toRef = .ok o' ∧ o'.text? = o.text?) : m.KeepsKey m' k := by
  intro hr
  cases hk : k.isRef with
  | false =>
    refine ⟨fun h => ?_, ?_⟩
    · rw [hk] at h
      cases h
    · rw [keyId, keyId, hk]
      rfl
  | true =>
    obtain ⟨o, ho⟩ := hr hk
    obtain ⟨o', ho', htext⟩ := h o hk ho
    exact ⟨fun _ => ⟨o', ho'⟩, by rw [keyId_of_read hk ho', keyId_of_read hk ho, htext]⟩

theorem KeepsObjects.keepsKey (h : m.KeepsObjects m') (k : Value) : m.KeepsKey m' k :=
  .of_read fun o _ ho => ⟨o, h k o ho, rfl⟩

/-- A change keeps a key unless it changes the text of that very string. -/
theorem keepsKey_update {f : Object → Object} (hf : ∀ o, m.heap.read k.toRef = .ok o →
    k.toRef.page = v.toRef.page ∧ k.toRef.cell = v.toRef.cell → (f o).text? = o.text?) :
    m.KeepsKey (after (Exec.update v f) m) k := by
  refine .of_read fun o _ ho => ?_
  rw [Exec.read_after_update]
  split_ifs with hs
  · exact ⟨f o, by rw [ho]; rfl, hf o ho hs⟩
  · exact ⟨o, ho, rfl⟩

/-! ## Hashes -/

/-- At `h` there is a hash with these entries, and each of them is where its key is looked for. -/
structure Files (m : Machine) (h : Value) (d : Dict) : Prop where
  isRef : h.isRef = true
  read : m.heap.read h.toRef = .ok (.dict d)
  filed : ∀ e ∈ d.entries.toList, m.Readable e.key ∧ m.keyId e.key = e.id

theorem Files.kept (hd : m.Files h d) (hr : m'.heap.read h.toRef = .ok (.dict d)) (hk : ∀ k ∈ d.keys, m.KeepsKey m' k) :
    m'.Files h d where
  isRef := hd.isRef
  read := hr
  filed e he := by
    obtain ⟨hread, hid⟩ := hd.filed e he
    obtain ⟨hread', hid'⟩ := hk e.key (List.mem_map_of_mem he) hread
    exact ⟨hread', hid'.trans hid⟩

/-- New objects leave a hash as it is. -/
theorem Files.keptObjects (hd : m.Files h d) (ho : m.KeepsObjects m') : m'.Files h d :=
  hd.kept (ho h _ hd.read) fun k _ => ho.keepsKey k

/-- A change elsewhere leaves a hash as it is, unless it changes the text of one of its keys. -/
theorem Files.update {f : Object → Object} (hd : m.Files h d)
    (hne : ¬ (h.toRef.page = v.toRef.page ∧ h.toRef.cell = v.toRef.cell))
    (hf : ∀ k ∈ d.keys, ∀ o, m.heap.read k.toRef = .ok o → k.toRef.page = v.toRef.page ∧ k.toRef.cell = v.toRef.cell →
      (f o).text? = o.text?) : (after (Exec.update v f) m).Files h d := by
  refine hd.kept ?_ fun k hk => keepsKey_update (hf k hk)
  rw [Exec.read_after_update, if_neg hne, hd.read]

/-- A string that is no key may be appended to. -/
theorem Files.appended {s t : String} {c : Control} (hd : m.Files h d) (hi : m.heap.Inv) (hv : v.isRef = true)
    (hr : m.heap.read v.toRef = .ok (.string t)) (hne : ∀ k ∈ d.keys, k.toRef ≠ v.toRef)
    (hrun : Exec.appendText v s m = .ok c m') : m'.heap.Inv ∧ m'.Files h d := by
  have hstring : Exec.stringOf v m = .ok t m := by
    rw [Exec.stringOf, bind_of_ok (Exec.asString?_apply hv hr)]
    rfl
  rw [Exec.appendText, bind_of_ok hstring, bind_of_ok (Exec.update_apply ..)] at hrun
  cases hrun
  refine ⟨hi.update _ _, hd.update (fun hs => ?_) fun k hk o ho hs =>
    absurd (toRef_eq_of_read hr ho hs.1 hs.2) (hne k hk)⟩
  have hread := hd.read
  rw [toRef_eq_of_read hr hread hs.1 hs.2, hr] at hread
  cases hread

theorem Files.collected (hd : m.Files h d) (hc : m.Collected m') (hh : m.Retains h) : m'.Files h d := by
  refine hd.kept (hc.read h _ hh hd.read) fun k hk => .of_read fun o href ho => ?_
  obtain ⟨e, he, rfl⟩ := List.mem_map.1 hk
  have hrefs : e.key ∈ (Object.dict d).refs m.classes m.fibers :=
    List.mem_flatMap.2 ⟨(e.key, e.value), List.mem_map_of_mem he, List.mem_cons_self⟩
  exact ⟨o, hc.read e.key o (hh.field hd.read hrefs href) ho, rfl⟩

/-- What is stored is filed under its key. -/
theorem Files.insert (hd : m.Files h d) (hi : m.heap.Inv) (hk : m.Readable k) (v : Value) :
    ∃ m', Exec.dictInsert h k v m = .ok () m' ∧ m'.heap.Inv ∧ m'.Files h (d.insert (m.keyId k) k v) := by
  obtain ⟨f, hrun, hf, htext⟩ : ∃ f : Object → Object, Exec.dictInsert h k v m = .ok () (after (Exec.update h f) m) ∧
      f (.dict d) = .dict (d.insert (m.keyId k) k v) ∧ ∀ o, (f o).text? = o.text? := by
    refine ⟨_, bind_of_ok (dictKey_apply hk), rfl, fun o => ?_⟩
    cases o <;> rfl
  have hkeep (k' : Value) : m.KeepsKey (after (Exec.update h f) m) k' := keepsKey_update fun o _ _ => htext o
  refine ⟨_, hrun, hi.update _ _, hd.isRef, ?_, fun e he => ?_⟩
  · rw [Exec.read_after_update, if_pos ⟨rfl, rfl⟩, hd.read]
    exact congrArg Except.ok hf
  · rcases Dict.mem_insert he with ⟨e', he', hid, hkey⟩ | ⟨hid, hkey⟩
    · obtain ⟨hread, hold⟩ := hd.filed e' he'
      rw [hkey] at hread hold
      obtain ⟨hread', hid'⟩ := hkeep e.key hread
      exact ⟨hread', by rw [hid', hold, hid]⟩
    · rw [hkey, hid]
      exact hkeep k hk

/-- What happens while there is a hash at `h`, one thing at a time: something is stored in it, a string that is none of its
keys is appended to, an object is made, another object that is no string is changed, or garbage is collected while the hash
is in use. -/
inductive Handles (h : Value) : Dict.History × Machine → Dict.History × Machine → Prop
  | store {es : Dict.History} {m m' : Machine} {k v : Value} : m.Readable k → Exec.dictInsert h k v m = .ok () m' →
      Handles h (es, m) (es ++ [(m.keyId k, v)], m')
  | append {es : Dict.History} {m m' : Machine} {v : Value} {s t : String} {c : Control} : v.isRef = true →
      m.heap.read v.toRef = .ok (.string t) →
      (∀ d, m.heap.read h.toRef = .ok (.dict d) → ∀ k ∈ d.keys, k.toRef ≠ v.toRef) → Exec.appendText v s m = .ok c m' →
      Handles h (es, m) (es, m')
  | make {es : Dict.History} {m m' : Machine} {o : Object} {v : Value} : Exec.alloc o m = .ok v m' →
      Handles h (es, m) (es, m')
  | change {es : Dict.History} {m : Machine} {v : Value} {f : Object → Object} :
      ¬ (h.toRef.page = v.toRef.page ∧ h.toRef.cell = v.toRef.cell) → (∀ o, (f o).text? = o.text?) →
      Handles h (es, m) (es, after (Exec.update v f) m)
  | collect {es : Dict.History} {m m' : Machine} {c : Collection} : m.Retains h → Exec.collect m = .ok c m' →
      Handles h (es, m) (es, m')
  | other {es : Dict.History} {m m' : Machine} : m'.heap = m.heap → Handles h (es, m) (es, m')

/-- The hash tells its history, and its keys are the ones its entries were filed under. -/
structure Records (m : Machine) (h : Value) (d : Dict) (es : Dict.History) : Prop where
  inv : m.heap.Inv
  files : m.Files h d
  tells : d.Tells es

theorem Handles.records {p q : Dict.History × Machine} (hs : Handles h p q) (hd : ∃ d, p.2.Records h d p.1) :
    ∃ d, q.2.Records h d q.1 := by
  obtain ⟨d, hi, hd, ht⟩ := hd
  cases hs with
  | @store es m m' k v hk hrun =>
    obtain ⟨m', hrun', hi', hd'⟩ := hd.insert hi hk v
    cases hrun.symm.trans hrun'
    exact ⟨_, hi', hd', ht.insert _ _ _⟩
  | append hv hr hne hrun =>
    obtain ⟨hi', hd'⟩ := hd.appended hi hv hr (hne d hd.read) hrun
    exact ⟨d, hi', hd', ht⟩
  | make hrun =>
    obtain ⟨-, -, hi', hkeeps, -⟩ := (alloc_keeps hi (Nat.lt_succ_self _) _).of_run hrun
    exact ⟨d, hi', hd.keptObjects hkeeps, ht⟩
  | change hne hf => exact ⟨d, hi.update _ _, hd.update hne fun _ _ o _ _ => hf o, ht⟩
  | collect hh hrun =>
    have hc := Exec.collect_collected hi hrun
    exact ⟨d, hc.heap, hd.collected hc hh, ht⟩
  | other heq => exact ⟨d, heq ▸ hi, hd.keptObjects fun _ _ hr => heq ▸ hr, ht⟩

/-! ## What programs see -/

theorem Files.dictOf_apply (hd : m.Files h d) : Exec.dictOf h m = .ok d m := by
  rw [Exec.dictOf, bind_of_ok (Exec.asDict?_apply hd.isRef hd.read)]
  rfl

theorem Files.dictGet_apply (hd : m.Files h d) (hk : m.Readable k) (args : List Value) :
    (Builtin.dictGet.runDict h (k :: args)).run m = .ok (.ok (.value ((d.find? (m.keyId k)).getD .nil))) m :=
  (Attempt.run_lift_bind (dictKey_apply hk)).trans (Attempt.run_lift_bind hd.dictOf_apply)

theorem Files.dictHasKey_apply (hd : m.Files h d) (hk : m.Readable k) (args : List Value) :
    (Builtin.dictHasKey.runDict h (k :: args)).run m =
      .ok (.ok (.value (.ofBool (d.find? (m.keyId k)).isSome))) m :=
  (Attempt.run_lift_bind (dictKey_apply hk)).trans (Attempt.run_lift_bind hd.dictOf_apply)

theorem Files.dictSize_apply (hd : m.Files h d) (args : List Value) :
    (Builtin.dictSize.runDict h args).run m = .ok (.ok (.value (.ofInt d.keys.length))) m := by
  refine (Attempt.run_lift_bind hd.dictOf_apply).trans ?_
  rw [Dict.keys, List.length_map, Array.length_toList]
  rfl

/-- The keys that are listed are the ones that entries are filed under. -/
theorem Files.ids_eq (hd : m.Files h d) : d.keys.map m.keyId = d.ids := by
  rw [Dict.keys, Dict.ids, List.map_map]
  exact List.map_congr_left fun e he => (hd.filed e he).2

/-- As long as strings that are keys keep their texts, a hash lists its keys in the order in which they first came up, no
two of them equal, has as many entries, and finds under each key what was last stored under it. -/
theorem dict_exact (hi : m.heap.Inv) (h₀ : m.Files h {}) (hrun : ReflTransGen (Handles h) ([], m) (es, m')) :
    ∃ d, m'.Files h d ∧ d.keys.map m'.keyId = es.order ∧ (d.keys.map m'.keyId).Nodup ∧
      (Builtin.dictSize.runDict h []).run m' = .ok (.ok (.value (.ofInt d.keys.length))) m' ∧
      (∀ k, m'.Readable k → (Builtin.dictGet.runDict h [k]).run m' =
        .ok (.ok (.value ((es.last? (m'.keyId k)).getD .nil))) m') ∧
      ∀ k ∈ d.keys, (Builtin.dictHasKey.runDict h [k]).run m' = .ok (.ok (.value .true)) m' := by
  obtain ⟨d, -, hd, ht⟩ : ∃ d, m'.Records h d es := by
    have hrecords : ∀ p, ReflTransGen (Handles h) ([], m) p → ∃ d, p.2.Records h d p.1 := fun p hp => by
      induction hp with
      | refl => exact ⟨{}, hi, h₀, Dict.tells_empty⟩
      | tail _ hs ih => exact hs.records ih
    exact hrecords _ hrun
  refine ⟨d, hd, hd.ids_eq.trans ht.ids, hd.ids_eq ▸ ht.nodup, hd.dictSize_apply [], fun k hk => ?_, fun k hk => ?_⟩
  · rw [hd.dictGet_apply hk, ht.find?]
  · obtain ⟨e, he, rfl⟩ := List.mem_map.1 hk
    obtain ⟨hread, hid⟩ := hd.filed e he
    rw [hd.dictHasKey_apply hread, hid, Dict.isSome_find?.2 (List.mem_map_of_mem he)]
    rfl

/-- A string becomes the key of a hash and is then appended to. What the hash lists is looked for in it. -/
def lookupAppended : Exec (Nat × Bool) := do
  let s ← Exec.newString "a"
  let h ← Exec.newDict
  Exec.dictInsert h s .true
  let _ ← Exec.appendText s "b"
  let keys := (← Exec.dictOf h).keys
  match ← (Builtin.dictHasKey.runDict h keys).run with
  | .ok (.value v) => return (keys.length, v == .true)
  | _ => return (keys.length, true)

/-- Without the condition a key is listed that is not found. -/
theorem lookupAppended_missed : result? lookupAppended (blank {}) = some (1, false) := by decide +kernel

end Machine

end RubyMachine
