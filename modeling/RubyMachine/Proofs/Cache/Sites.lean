import RubyMachine.Proofs.Cache.Lookup
import Mathlib.Data.Finset.Card
import Mathlib.Data.List.DropRight
import Mathlib.Data.List.Nodup

/-! What the cache of a call site answers, told by the calls that were made on it. Whatever the order of the calls
and of the versions, it finds the first method that was recorded for a class since it was last cleared, as long as no
more classes were recorded than it has room for (`answers_exact`). -/

namespace RubyMachine.Cache

namespace State

/-- The state of a cache for which so many classes were recorded. -/
def ofCount : Nat → State
  | 0 => .empty
  | 1 => .monomorphic
  | n + 2 => if n + 2 ≤ maxEntries then .polymorphic else .megamorphic

/-- How many classes a cache remembers in each state. -/
def Allows : State → Nat → Prop
  | .empty, n => n = 0
  | .monomorphic, n => n = 1
  | .polymorphic, n => 2 ≤ n ∧ n ≤ maxEntries
  | .megamorphic, n => n = 0

variable {n : Nat}

theorem ofCount_of_two_le (h : 2 ≤ n) :
    ofCount n = if n ≤ maxEntries then .polymorphic else .megamorphic := by
  obtain ⟨k, rfl⟩ := Nat.exists_eq_add_of_le' h
  rfl

theorem ofCount_eq_empty : ofCount n = .empty ↔ n = 0 := by
  rcases n with _ | _ | n
  · exact iff_of_true rfl rfl
  · exact iff_of_false (by decide) (by decide)
  · rw [ofCount_of_two_le (by omega)]
    split_ifs <;> simp

theorem ofCount_eq_megamorphic : ofCount n = .megamorphic ↔ maxEntries < n := by
  unfold ofCount
  split
  · simp
  · simp [maxEntries]
  · split_ifs with h <;> simp <;> omega

theorem allows_ofCount (n : Nat) : (ofCount n).Allows (if n ≤ maxEntries then n else 0) := by
  rcases n with _ | _ | n
  · rfl
  · rfl
  · rw [ofCount_of_two_le (by omega)]
    split_ifs with h
    · exact ⟨by omega, h⟩
    · rfl

end State

namespace Inline

/-- What is done with the cache of a call site. -/
inductive Call where
  | lookup (cls : Nat) (version : UInt64)
  | update (cls : Nat) (fn : FnId) (version : UInt64)
  | reset

namespace Call

def perform (c : Inline) : Call → Inline
  | lookup cls v => (c.lookup cls v).2
  | update cls fn v => c.update cls fn v
  | reset => c.reset

/-- Whether a call leaves what is remembered for a version. The record of a failed lookup is no call at all. -/
def keeps (v : UInt64) : Call → Bool
  | lookup _ w => w == v
  | update _ fn w => fn.id == 0 || w == v
  | reset => false

/-- The method that a call records. -/
def recorded? : Call → Option (Nat × FnId)
  | update cls fn _ => if fn.id = 0 then none else some (cls, fn)
  | _ => none

def isLookup : Call → Bool
  | lookup .. => true
  | _ => false

def isReset : Call → Bool
  | reset => true
  | _ => false

end Call

/-- A new cache after some calls. -/
def after (calls : List Call) : Inline := calls.foldl Call.perform {}

/-- What was recorded for a version since the cache was last cleared, oldest first. -/
def recorded (v : UInt64) (calls : List Call) : List (Nat × FnId) :=
  (calls.rtakeWhile (Call.keeps v)).filterMap Call.recorded?

/-- How many lookups there were since the cache was last reset. -/
def lookups (calls : List Call) : Nat := (calls.rtakeWhile fun k => !k.isReset).countP Call.isLookup

def classes (log : List (Nat × FnId)) : Finset Nat := (log.map Prod.fst).toFinset

def first? (cls : Nat) (log : List (Nat × FnId)) : Option FnId := (log.find? fun e => e.1 == cls).map Prod.snd

variable {c : Inline} {calls : List Call} {cls : Nat} {fn : FnId} {v w : UInt64} {log : List (Nat × FnId)}

theorem after_concat (calls : List Call) (k : Call) : after (calls ++ [k]) = k.perform (after calls) :=
  List.foldl_concat ..

theorem after_append (calls later : List Call) : after (calls ++ later) = later.foldl Call.perform (after calls) :=
  List.foldl_append ..

theorem recorded_concat (v : UInt64) (calls : List Call) (k : Call) :
    recorded v (calls ++ [k]) = if k.keeps v then recorded v calls ++ k.recorded?.toList else [] := by
  unfold recorded
  rw [List.rtakeWhile_concat]
  split_ifs
  · rw [List.filterMap_append]
    cases h : k.recorded? <;> simp [h]
  · rfl

theorem recorded_lookup (w : UInt64) (calls : List Call) (cls : Nat) (v : UInt64) :
    recorded w (calls ++ [.lookup cls v]) = if w = v then recorded w calls else [] := by
  rw [recorded_concat]
  by_cases hw : w = v
  · subst hw
    simp [Call.keeps, Call.recorded?]
  · rw [if_neg hw, if_neg (by simpa [Call.keeps] using Ne.symm hw)]

theorem recorded_update (w : UInt64) (calls : List Call) (cls : Nat) (fn : FnId) (v : UInt64) :
    recorded w (calls ++ [.update cls fn v]) =
      if fn.id = 0 then recorded w calls else if w = v then recorded w calls ++ [(cls, fn)] else [] := by
  rw [recorded_concat]
  by_cases hfn : fn.id = 0
  · simp [Call.keeps, Call.recorded?, hfn]
  by_cases hw : w = v
  · subst hw
    simp [Call.keeps, Call.recorded?, hfn]
  · rw [if_neg hfn, if_neg hw, if_neg (by simpa [Call.keeps, hfn] using Ne.symm hw)]

theorem lookups_concat (calls : List Call) (k : Call) : lookups (calls ++ [k]) = match k with
    | .lookup .. => lookups calls + 1
    | .update .. => lookups calls
    | .reset => 0 := by
  unfold lookups
  rw [List.rtakeWhile_concat]
  cases k <;> simp [Call.isReset, Call.isLookup]

/-! ## The first update of each class -/

/-- Adds a method unless its class has one. -/
def keepFirst (es : List (Nat × FnId)) (e : Nat × FnId) : List (Nat × FnId) :=
  if (es.find? fun x => x.1 == e.1).isSome then es else es ++ [e]

def firsts (log : List (Nat × FnId)) : List (Nat × FnId) := log.foldl keepFirst []

theorem firsts_concat (log : List (Nat × FnId)) (e : Nat × FnId) : firsts (log ++ [e]) = keepFirst (firsts log) e :=
  List.foldl_concat ..

theorem find?_keepFirst (es : List (Nat × FnId)) (e : Nat × FnId) (cls : Nat) :
    (keepFirst es e).find? (fun x => x.1 == cls) = (es ++ [e]).find? fun x => x.1 == cls := by
  unfold keepFirst
  split_ifs with h
  · rw [List.find?_append]
    by_cases he : e.1 = cls
    · subst he
      rw [Option.or_of_isSome h]
    · simp [he]
  · rfl

theorem find?_firsts (log : List (Nat × FnId)) (cls : Nat) :
    (firsts log).find? (fun x => x.1 == cls) = log.find? fun x => x.1 == cls := by
  induction log using List.reverseRecOn with
  | nil => rfl
  | append_singleton log e ih => rw [firsts_concat, find?_keepFirst, List.find?_append, ih, List.find?_append]

theorem mem_classes_iff : cls ∈ classes log ↔ (log.find? fun x => x.1 == cls).isSome := by
  simp [classes]

theorem nodup_firsts (log : List (Nat × FnId)) : ((firsts log).map Prod.fst).Nodup := by
  induction log using List.reverseRecOn with
  | nil => exact List.nodup_nil
  | append_singleton log e ih =>
    rw [firsts_concat, keepFirst]
    split_ifs with h
    · exact ih
    · rw [List.map_append, List.map_singleton, List.nodup_append]
      refine ⟨ih, List.nodup_singleton _, fun a ha b hb => ?_⟩
      rw [List.mem_singleton.1 hb]
      rintro rfl
      exact h (by simpa using ha)

theorem length_firsts (log : List (Nat × FnId)) : (firsts log).length = (classes log).card := by
  have hc : (classes log) = classes (firsts log) := by
    ext cls
    rw [mem_classes_iff, mem_classes_iff, find?_firsts]
  rw [hc, classes, List.toFinset_card_of_nodup (nodup_firsts log), List.length_map]

theorem firsts_subset (log : List (Nat × FnId)) : ∀ e ∈ firsts log, e ∈ log := by
  induction log using List.reverseRecOn with
  | nil => exact fun e h => h
  | append_singleton log x ih =>
    intro e he
    rw [firsts_concat, keepFirst] at he
    split_ifs at he
    · exact List.mem_append_left _ (ih e he)
    · exact (List.mem_append.1 he).elim (fun h => List.mem_append_left _ (ih e h)) (List.mem_append_right _)

/-! ## What a cache has of its log -/

/-- The cache remembers the first method of each class, or nothing when there are too many. -/
structure Remembers (c : Inline) (log : List (Nat × FnId)) : Prop where
  state : c.state = State.ofCount (firsts log).length
  entries : c.entries = if (firsts log).length ≤ maxEntries then firsts log else []

theorem Remembers.find?_eq (h : c.Remembers log) (cls : Nat) :
    c.find? cls = if (classes log).card ≤ maxEntries then first? cls log else none := by
  rw [find?, h.entries, ← length_firsts]
  split_ifs
  · rw [find?_firsts, first?]
  · rfl

/-- A method of a class that has one is not recorded. -/
theorem add_known (hs : c.state = State.ofCount c.entries.length) (hk : (c.find? cls).isSome = true) :
    c.add cls fn = c := by
  unfold add
  cases h : c.state with
  | empty =>
    rw [hs, State.ofCount_eq_empty, List.length_eq_zero_iff] at h
    rw [find?, h] at hk
    cases hk
  | monomorphic | polymorphic => exact if_pos hk
  | megamorphic => rfl

/-- A class that has no method gets one while there is room. -/
theorem add_new (hs : c.state = State.ofCount c.entries.length) (hn : c.entries.length ≤ maxEntries)
    (hk : ¬ (c.find? cls).isSome = true) (fn : FnId) : (c.add cls fn).state = State.ofCount (c.entries.length + 1) ∧
    (c.add cls fn).entries = if c.entries.length + 1 ≤ maxEntries then c.entries ++ [(cls, fn)] else [] := by
  rcases hl : c.entries with _ | ⟨x, _ | ⟨y, es⟩⟩
  · rw [hl] at hs
    simp [add, hs, State.ofCount, maxEntries]
  · rw [hl] at hs
    simp [add, hs, hk, hl, State.ofCount, maxEntries]
  · rw [← hl]
    have htwo : 2 ≤ c.entries.length := by simp [hl]
    have hpoly : c.state = .polymorphic := by rw [hs, State.ofCount_of_two_le htwo, if_pos hn]
    rw [State.ofCount_of_two_le (by omega)]
    simp only [add, hpoly, if_neg hk, Nat.lt_iff_add_one_le]
    split_ifs <;> exact ⟨rfl, rfl⟩

theorem Remembers.add (h : c.Remembers log) (cls : Nat) (fn : FnId) : (c.add cls fn).Remembers (log ++ [(cls, fn)]) := by
  obtain ⟨hs, he⟩ := h
  rcases Nat.lt_or_ge maxEntries (firsts log).length with hmany | hfew
  · have hmega : c.state = .megamorphic := by rw [hs, State.ofCount_eq_megamorphic.2 hmany]
    have hmore : maxEntries < (firsts (log ++ [(cls, fn)])).length := by
      rw [firsts_concat, keepFirst]
      split_ifs
      · exact hmany
      · rw [List.length_append]
        omega
    rw [if_neg (by omega)] at he
    rw [Inline.add, hmega]
    exact ⟨by rw [hmega, State.ofCount_eq_megamorphic.2 hmore], by rw [he, if_neg (by omega)]⟩
  · rw [if_pos hfew] at he
    rw [← he] at hs hfew
    have hlog : firsts (log ++ [(cls, fn)]) = if (c.find? cls).isSome then c.entries else c.entries ++ [(cls, fn)] := by
      rw [firsts_concat, keepFirst, ← he, find?, Option.isSome_map]
    by_cases hk : (c.find? cls).isSome = true
    · rw [add_known hs hk]
      rw [if_pos hk] at hlog
      exact ⟨by rw [hlog, hs], by rw [hlog, if_pos hfew]⟩
    · obtain ⟨hstate, hentries⟩ := add_new hs hfew hk fn
      rw [if_neg hk] at hlog
      exact ⟨by rw [hlog, hstate, List.length_append, List.length_singleton],
        by rw [hlog, hentries, List.length_append, List.length_singleton]⟩

/-! ## Calls in any order -/

/-- The cache has the log of its own version, and there is none for any other version. -/
structure Tracks (c : Inline) (calls : List Call) : Prop where
  current : c.Remembers (recorded c.version calls)
  stale : ∀ v, v ≠ c.version → recorded v calls = []

theorem tracks_new : Tracks {} [] := ⟨⟨rfl, rfl⟩, fun _ _ => rfl⟩

theorem Tracks.lookup (h : c.Tracks calls) (cls : Nat) (v : UInt64) :
    (c.lookup cls v).2.Tracks (calls ++ [.lookup cls v]) := by
  have hrest : (c.lookup cls v).2.Remembers (recorded v calls) := by
    unfold Inline.lookup
    by_cases hv : c.version = v
    · subst hv
      rw [if_neg (not_not.2 rfl)]
      repeat' split
      all_goals exact ⟨h.current.state, h.current.entries⟩
    · rw [if_pos hv, h.stale v (Ne.symm hv)]
      exact ⟨rfl, rfl⟩
  have hversion := version_lookup c cls v
  constructor
  · rwa [hversion, recorded_lookup, if_pos rfl]
  · intro w hw
    rw [recorded_lookup, if_neg (hversion ▸ hw)]

theorem Tracks.update (h : c.Tracks calls) (cls : Nat) (fn : FnId) (v : UInt64) :
    (c.update cls fn v).Tracks (calls ++ [.update cls fn v]) := by
  unfold Inline.update
  split_ifs with hfn hv
  · have hsame (w : UInt64) : recorded w (calls ++ [.update cls fn v]) = recorded w calls := by
      rw [recorded_update, if_pos hfn]
    exact ⟨by rw [hsame]; exact h.current, fun w hw => by rw [hsame, h.stale w hw]⟩
  -- another version: what is recorded is the first of its log
  · have hnew : ({ c.clear with version := v } : Inline).Remembers [] := ⟨rfl, rfl⟩
    constructor
    · rw [version_add, recorded_update, if_neg hfn, if_pos rfl, h.stale v (Ne.symm hv)]
      exact hnew.add cls fn
    · intro w hw
      rw [version_add] at hw
      rw [recorded_update, if_neg hfn, if_neg hw]
  · rw [ne_eq, not_not] at hv
    subst hv
    constructor
    · rw [version_add, recorded_update, if_neg hfn, if_pos rfl]
      exact h.current.add cls fn
    · intro w hw
      rw [version_add] at hw
      rw [recorded_update, if_neg hfn, if_neg hw]

theorem Tracks.reset (c : Inline) (calls : List Call) : c.reset.Tracks (calls ++ [.reset]) := by
  have hnone (w : UInt64) : recorded w (calls ++ [.reset]) = [] := by
    rw [recorded_concat]
    rfl
  exact ⟨by rw [hnone]; exact ⟨rfl, rfl⟩, fun w _ => hnone w⟩

theorem Tracks.perform (h : c.Tracks calls) (k : Call) : (k.perform c).Tracks (calls ++ [k]) := by
  cases k with
  | lookup cls v => exact h.lookup cls v
  | update cls fn v => exact h.update cls fn v
  | reset => exact Tracks.reset c calls

theorem tracks_after (calls : List Call) : (after calls).Tracks calls := by
  induction calls using List.reverseRecOn with
  | nil => exact tracks_new
  | append_singleton calls k ih =>
    rw [after_concat]
    exact ih.perform k

/-! ## Answers -/

/-- A cache that is empty or has seen too many classes finds nothing. -/
theorem Remembers.find?_eq_none (h : c.Remembers log) (hs : c.state = .empty ∨ c.state = .megamorphic) (cls : Nat) :
    c.find? cls = none := by
  have hnil : c.entries = [] := by
    rcases hs with hs | hs <;> rw [h.state] at hs
    · rw [State.ofCount_eq_empty, List.length_eq_zero_iff] at hs
      rw [h.entries, hs]
      rfl
    · rw [h.entries, if_neg (Nat.not_le.2 (State.ofCount_eq_megamorphic.1 hs))]
  rw [find?, hnil]
  rfl

theorem Tracks.lookup_eq (h : c.Tracks calls) (cls : Nat) (v : UInt64) : (c.lookup cls v).1 =
    if (classes (recorded v calls)).card ≤ maxEntries then first? cls (recorded v calls) else none := by
  by_cases hv : c.version = v
  · subst hv
    rw [← h.current.find?_eq]
    unfold Inline.lookup
    rw [if_neg (not_not.2 rfl)]
    cases hs : c.state with
    | empty => exact (h.current.find?_eq_none (.inl hs) cls).symm
    | megamorphic => exact (h.current.find?_eq_none (.inr hs) cls).symm
    | monomorphic | polymorphic => cases hf : c.find? cls <;> rfl
  · rw [h.stale v (Ne.symm hv), Inline.lookup, if_pos hv]
    rfl

theorem Remembers.allows (h : c.Remembers log) : c.state.Allows c.entries.length := by
  rw [h.state, h.entries, apply_ite List.length]
  exact State.allows_ofCount _

theorem Remembers.nodup (h : c.Remembers log) : (c.entries.map Prod.fst).Nodup := by
  rw [h.entries]
  split_ifs
  · exact nodup_firsts log
  · exact List.nodup_nil

theorem id_ne_zero_of_mem_recorded {e : Nat × FnId} (h : e ∈ recorded v calls) : e.2.id ≠ 0 := by
  obtain ⟨k, -, hk⟩ := List.mem_filterMap.1 h
  cases k with
  | update cls fn w =>
    simp only [Call.recorded?, Option.ite_none_left_eq_some, Option.some.injEq] at hk
    obtain ⟨hfn, rfl⟩ := hk
    exact hfn
  | lookup | reset => cases hk

theorem Tracks.id_ne_zero (h : c.Tracks calls) : ∀ e ∈ c.entries, e.2.id ≠ 0 := by
  intro e he
  rw [h.current.entries] at he
  split_ifs at he
  · exact id_ne_zero_of_mem_recorded (firsts_subset _ e he)
  · cases he

/-! ## Too many classes -/

theorem perform_megamorphic (hs : c.state = .megamorphic) (k : Call) :
    (k.perform c).state = .megamorphic ↔ k.keeps c.version = true := by
  cases k with
  | lookup cls v =>
    by_cases hv : c.version = v
    · simp [Call.perform, Call.keeps, lookup, miss, hs, hv]
    · simp [Call.perform, Call.keeps, lookup, miss, clear, hv, Ne.symm hv]
  | update cls fn v =>
    by_cases hfn : fn.id = 0
    · simp [Call.perform, Call.keeps, update, hfn, hs]
    by_cases hv : c.version = v
    · simp [Call.perform, Call.keeps, update, add, hfn, hs, hv]
    · simp [Call.perform, Call.keeps, update, add, clear, hfn, hv, Ne.symm hv]
  | reset => exact iff_of_false (fun h => by cases h) fun h => by cases h

theorem version_of_keeps {k : Call} (hk : k.keeps c.version = true) : (k.perform c).version = c.version := by
  cases k with
  | lookup cls v =>
    rw [Call.perform, version_lookup]
    exact beq_iff_eq.1 hk
  | update cls fn v =>
    rw [Call.perform]
    by_cases hfn : fn.id = 0
    · rw [update, if_pos hfn]
    · have hv : v = c.version := by simpa [Call.keeps, hfn] using hk
      rw [← hv]
      exact version_update hv.symm cls fn
  | reset => cases hk

/-- Nothing but another version or a reset ends the state. -/
theorem megamorphic_stays (hs : c.state = .megamorphic) (later : List Call)
    (hk : ∀ k ∈ later, k.keeps c.version = true) :
    (later.foldl Call.perform c).state = .megamorphic ∧ (later.foldl Call.perform c).version = c.version := by
  induction later generalizing c with
  | nil => exact ⟨hs, rfl⟩
  | cons k later ih =>
    have hfirst := hk k List.mem_cons_self
    have hversion := version_of_keeps hfirst
    rw [List.foldl_cons, ← hversion]
    refine ih ((perform_megamorphic hs k).2 hfirst) fun l hl => ?_
    rw [hversion]
    exact hk l (List.mem_cons_of_mem _ hl)

/-! ## Counts -/

theorem lookup_counts (c : Inline) (cls : Nat) (v : UInt64) :
    (c.lookup cls v).2.hits = c.hits + 1 ∧ (c.lookup cls v).2.misses = c.misses ∨
    (c.lookup cls v).2.hits = c.hits ∧ (c.lookup cls v).2.misses = c.misses + 1 := by
  unfold lookup
  repeat' split
  all_goals first | exact .inl ⟨rfl, rfl⟩ | exact .inr ⟨rfl, rfl⟩

theorem add_counts (c : Inline) (cls : Nat) (fn : FnId) :
    (c.add cls fn).hits = c.hits ∧ (c.add cls fn).misses = c.misses := by
  unfold add
  repeat' split
  all_goals exact ⟨rfl, rfl⟩

theorem update_counts (c : Inline) (cls : Nat) (fn : FnId) (v : UInt64) :
    (c.update cls fn v).hits = c.hits ∧ (c.update cls fn v).misses = c.misses := by
  unfold update
  split_ifs
  · exact ⟨rfl, rfl⟩
  · exact add_counts ..
  · exact add_counts ..

/-- Hits and misses are counted in words of 64 bits. -/
theorem counts_after (calls : List Call) : ∃ hits misses, (after calls).hits = UInt64.ofNat hits ∧
    (after calls).misses = UInt64.ofNat misses ∧ hits + misses = lookups calls := by
  induction calls using List.reverseRecOn with
  | nil => exact ⟨0, 0, rfl, rfl, rfl⟩
  | append_singleton calls k ih =>
    obtain ⟨hits, misses, hhits, hmisses, hsum⟩ := ih
    rw [after_concat, lookups_concat]
    cases k with
    | lookup cls v =>
      rcases lookup_counts (after calls) cls v with ⟨hh, hm⟩ | ⟨hh, hm⟩
      · refine ⟨hits + 1, misses, ?_, hm.trans hmisses, show hits + 1 + misses = lookups calls + 1 by omega⟩
        rw [UInt64.ofNat_add, ← hhits]
        exact hh
      · refine ⟨hits, misses + 1, hh.trans hhits, ?_, show hits + (misses + 1) = lookups calls + 1 by omega⟩
        rw [UInt64.ofNat_add, ← hmisses]
        exact hm
    | update cls fn v =>
      obtain ⟨hh, hm⟩ := update_counts (after calls) cls fn v
      exact ⟨hits, misses, hh.trans hhits, hm.trans hmisses, hsum⟩
    | reset => exact ⟨0, 0, rfl, rfl, rfl⟩

/-- After any calls: the state tells how many classes are remembered, each once and with a method; a lookup finds
the first method recorded for a class since the cache was last cleared, unless more classes were recorded than there
is room for; after too many classes nothing is found until the version changes or the cache is reset; and every
lookup since the last reset is counted, in 64 bits. -/
theorem answers_exact (calls : List Call) :
    ((after calls).state.Allows (after calls).entries.length ∧ ((after calls).entries.map Prod.fst).Nodup ∧
      ∀ e ∈ (after calls).entries, e.2.id ≠ 0) ∧
    (∀ cls v fn, ((after calls).lookup cls v).1 = some fn ↔
      (classes (recorded v calls)).card ≤ maxEntries ∧ first? cls (recorded v calls) = some fn) ∧
    ((after calls).state = .megamorphic → ∀ later, (∀ k ∈ later, k.keeps (after calls).version = true) →
      (after (calls ++ later)).state = .megamorphic ∧
      ∀ k, (after (calls ++ later ++ [k])).state = .megamorphic ↔ k.keeps (after calls).version = true) ∧
    ∃ hits misses, (after calls).hits = UInt64.ofNat hits ∧ (after calls).misses = UInt64.ofNat misses ∧
      hits + misses = lookups calls := by
  have h := tracks_after calls
  refine ⟨⟨h.current.allows, h.current.nodup, h.id_ne_zero⟩, fun cls v fn => ?_, fun hs later hk => ?_,
    counts_after calls⟩
  · rw [h.lookup_eq]
    split_ifs with hroom
    · exact (and_iff_right hroom).symm
    · exact iff_of_false (fun he => by cases he) fun he => hroom he.1
  · obtain ⟨hstate, hversion⟩ := megamorphic_stays hs later hk
    rw [← after_append] at hstate hversion
    refine ⟨hstate, fun k => ?_⟩
    rw [after_concat, ← hversion]
    exact perform_megamorphic hstate k

/-- A class more than there is room for. -/
def crowd : List Call := (List.range (maxEntries + 1)).map fun cls => .update cls ⟨cls.toUInt32 + 1⟩ 1

theorem answers_crowd : (after crowd).state = .megamorphic ∧ (∀ k ∈ [Call.lookup 0 1], k.keeps (after crowd).version = true) ∧
    (after (crowd ++ [.lookup 0 1])).state = .megamorphic ∧ (after (crowd ++ [.lookup 0 1, .reset])).state ≠ .megamorphic := by
  have hs : (after crowd).state = .megamorphic := by decide
  have hk : ∀ k ∈ [Call.lookup 0 1], k.keeps (after crowd).version = true := by decide
  obtain ⟨hstays, hnext⟩ := (answers_exact crowd).2.2.1 hs _ hk
  exact ⟨hs, hk, hstays, fun h => by cases (hnext .reset).1 h⟩

end Inline

end RubyMachine.Cache
