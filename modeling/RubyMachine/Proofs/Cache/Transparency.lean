import RubyMachine.Proofs.Cache.Versions

/-! Caches do not show. In every machine that code and its host bring about, a lookup through the cache of
full lookups or through the cache of a call site finds what a walk through the class tables finds. -/

namespace RubyMachine

/-- The sends that a step makes, each with the function and the number of the cache that it uses. -/
def Control.Sends (fn : FnId) (site : Nat) (name : Ident) : Control → Prop
  | .exec a pc => fn = a.fn ∧
    ∃ op, Code.Opcode.ofByte? (a.seq.code.getD pc.toNat 0) = some op ∧ Site.Sends ⟨a, pc.toNat, op⟩ name site
  | _ => False

/-- Everything is known, caches keep to their names, and so many definitions may be replaced. -/
def Known.everything (names : FnId → Nat → Ident) (changes : Nat) : Known where
  value _ := True
  cls _ := True
  fib _ := True
  code _ := True
  site fn i name := names fn i = name
  constSite _ _ _ := True
  changes := changes
  home _ _ := True
  imm _ _ := trivial
  fixed _ _ := trivial
  consts _ _ _ _ := trivial
  home_self _ := trivial

theorem Known.total_everything (names : FnId → Nat → Ident) (k : Nat) : (Known.everything names k).Total names where
  value _ := trivial
  cls _ := trivial
  fib _ := trivial
  code _ := trivial
  home _ _ := trivial
  site _ _ _ h := h

namespace Machine

/-- The machines that code and its host bring about when each call site's cache is used for one name, with
a bound for the number of definitions that were replaced. A host may also do all that lookups do not
notice. -/
inductive Reached (names : FnId → Nat → Ident) : Nat → Machine → Prop where
  | blank (options : Options) : Reached names 0 (blank options)
  | boot {n : Nat} {m : Machine} : Reached names n m → Reached names (n + 1) (after Exec.boot m)
  | startTop {n : Nat} {m : Machine} (fn : FnId) : Reached names n m → Reached names n (after (Exec.startTop fn) m)
  | step {n : Nat} {m : Machine} (c : Control) : Reached names n m →
    (∀ fn site name, c.Sends fn site name → names fn site = name) →
    Reached names (n + c.changes) (after (Exec.step c) m)
  | collect {n : Nat} {m : Machine} : Reached names n m → Reached names n (after Exec.collect m)
  | defineModule {n : Nat} {m : Machine} (parent : Nat) (name : Ident) (super : Option Nat) (isModule : Bool) :
    Reached names n m → Reached names n (after (Exec.defineModule parent name super isModule) m)
  | singletonClass {n : Nat} {m : Machine} (cls : Nat) :
    Reached names n m → Reached names n (after (Exec.singletonClass cls) m)
  | mixIn {n : Nat} {m : Machine} (cls mod : Nat) :
    Reached names n m → Reached names (n + 1) (after (Exec.mixIn cls mod) m)
  | setConst {n : Nat} {m : Machine} (cls : Nat) (name : Ident) (v : Value) :
    Reached names n m → Reached names (n + 1) (after (Exec.setConst cls name v) m)
  | defineMethod {n : Nat} {m : Machine} (cls : Nat) (name : Ident) (fn : FnId) :
    Reached names n m → Reached names (n + 1) (after (Exec.defineMethod cls name fn) m)
  | addSequence {n : Nat} {m : Machine} (seq : Code.Sequence) :
    Reached names n m → Reached names n (after (Exec.addSequence seq) m)
  | defineBuiltin {n : Nat} {m : Machine} (e : Builtin.Entry) :
    Reached names n m → Reached names n (after (Exec.defineBuiltin e) m)
  | defineAttr {n : Nat} {m : Machine} (cls : Nat) (name : String) (reader writer : Bool) :
    Reached names n m → Reached names n (after (Exec.defineAttr cls name reader writer) m)
  | findMethod? {n : Nat} {m : Machine} (cls : Nat) (name : Ident) :
    Reached names n m → Reached names n (after (Exec.findMethod? cls name) m)
  | findMethodAt? {n : Nat} {m : Machine} (fn : FnId) (site cls : Nat) :
    Reached names n m → Reached names n (after (Exec.findMethodAt? fn site cls (names fn site)) m)
  | other {n : Nat} {m m' : Machine} : Reached names n m → m.Quiet m' → Reached names n m'

variable {names : FnId → Nat → Ident} {n : Nat} {m : Machine}

theorem timely_blank (options : Options) : (blank options).Timely names 0 0 := fun _ =>
  ⟨Nat.zero_le _, fun _ h => absurd h List.not_mem_nil, fun fn f h => by
    simp [blank, FunctionTable.find?] at h⟩

/-- What a computation of the logic leaves is as it should be, when the changes that it may make are counted. -/
theorem Timely.run {α : Type} {x : Exec α} {R : Known → α → Prop} {k : Nat} (ht : m.Timely names n 0)
    (hx : CacheSafe names (n + k) (Known.everything names k) x R) : (after x m).Timely names (n + k) 0 := by
  have h := ht.allow k
  rw [Nat.zero_add] at h
  obtain ⟨K', -, -, hk, -⟩ := hx (Known.total_everything names k) m h
  exact hk.fewer (Nat.zero_le _)

/-- The caches of new code are empty. -/
theorem Timely.addSequence {k : Nat} (ht : m.Timely names n k) (seq : Code.Sequence) :
    (after (Exec.addSequence seq) m).Timely names n k := by
  by_cases hs : Function.canHoldSites seq = true
  · have he : Exec.addSequence seq m = .ok (m.functions.add (.ofSequence seq)).1
        { m with functions := (m.functions.add (.ofSequence seq)).2 } := by
      simp [Exec.addSequence, hs, Exec.addFunction]
    have hf : (m.functions.add (.ofSequence seq)).2.size = m.functions.size + 1 := Array.size_push _
    rw [after_of_ok he]
    intro hn
    simp only [definitions] at hn
    obtain ⟨hv, hc⟩ := ht (by simp only [definitions]; omega)
    refine ⟨by simp only [definitions] at hv ⊢; omega, { hc with sites := fun fn f h i c hi => ?_ }⟩
    rcases FunctionTable.find?_add h with h | rfl
    · exact hc.sites fn f h i c hi
    · obtain rfl : c = {} := by
        have := Array.getElem?_replicate ▸ hi
        split at this
        · exact (Option.some.inj this).symm
        · cases this
      exact ⟨UInt64.zero_le, fun _ x h => absurd h List.not_mem_nil⟩
  · have he : Exec.addSequence seq m = .error .fault m := by
      simp [Exec.addSequence, hs]
    rwa [after_of_error he]

theorem Reached.timely (h : m.Reached names n) : m.Timely names n 0 := by
  induction h with
  | blank options => exact timely_blank options
  | boot _ ih => exact ih.run ((CacheSafe.logic names _).boot Nat.one_pos)
  | startTop fn _ ih => exact ih.run (k := 0) ((CacheSafe.logic names _).startTopBy fn ((CacheSafe.changes names _).setKonts (fun _ => []) fun _ _ => by simp))
  | step c _ hs ih =>
    have hT := Known.total_everything names c.changes
    refine ih.run ((CacheSafe.collectLogic names _).stepBy (CacheSafe.changes names _).finishFiber
      (CacheSafe.changes names _).abandonRunning (CacheSafe.changes names _).whole
      (fun _ hk => (CacheSafe.changes names _).setKonts (fun _ => _) fun _ _ => hk) (hT.control c) ?_)
    cases c with
    | exec a pc =>
      exact fun op hop =>
        { act := trivial
          operand := fun _ _ _ => trivial
          send := fun name cache h => hs a.fn cache name ⟨rfl, op, hop, h⟩
          const := fun _ _ _ _ _ => trivial
          changes := Nat.one_pos }
    | call => exact Nat.le_refl _
    | _ => trivial
  | collect _ ih => exact ih.run (k := 0) CacheSafe.collect
  | defineModule parent name super isModule _ ih =>
    exact ih.run (k := 0) ((CacheSafe.logic names _).defineModule trivial (maybe_all (fun _ => trivial) _) name isModule)
  | singletonClass cls _ ih => exact ih.run (k := 0) ((CacheSafe.logic names _).singletonClass cls trivial)
  | mixIn cls mod _ ih => exact ih.run ((CacheSafe.logic names _).mixIn Nat.one_pos trivial trivial)
  | setConst cls name v _ ih => exact ih.run ((CacheSafe.logic names _).setConst Nat.one_pos trivial trivial)
  | defineMethod cls name fn _ ih => exact ih.run ((CacheSafe.logic names _).defineMethod Nat.one_pos trivial)
  | addSequence seq _ ih => exact ih.addSequence seq
  | defineBuiltin e _ ih => exact ih.run (k := 0) ((CacheSafe.logic names _).defineBuiltin e trivial)
  | defineAttr cls name reader writer _ ih =>
    exact ih.run (k := 0) ((CacheSafe.logic names _).defineAttr trivial name reader writer)
  | findMethod? cls name _ ih => exact ih.run (k := 0) (CacheSafe.logic names _).findMethod?
  | findMethodAt? fn site cls _ ih => exact ih.run (k := 0) ((CacheSafe.logic names _).findMethodAt? rfl)
  | other _ hq ih => exact ih.quiet hq

/-- Lookups through both caches find what the class tables say: the same function, or none. -/
theorem Reached.lookups_exact (h : m.Reached names n) (hn : n + m.definitions < 2 ^ 64) :
    (∀ cls name, ∃ m', Exec.findMethod? cls name m = .ok (m.classes.findMethod? cls name) m') ∧
    ∀ fn f site c cls, m.functions.find? fn = some f → f.sites[site]? = some c →
      ∃ m', Exec.findMethodAt? fn site cls (names fn site) m =
        .ok (m.classes.findMethod? cls (names fn site)) m' := by
  obtain ⟨-, hc⟩ := h.timely hn
  constructor
  · intro cls name
    obtain ⟨l, he, -⟩ := hc.findMethod? cls name
    exact ⟨_, he⟩
  · intro fn f site c cls hf hs
    obtain ⟨m', he, -⟩ := hc.findMethodAt? hf hs cls
    exact ⟨m', he⟩

/-- A machine with a class and a module in which a call site missed a method, before the method was defined
in the module and the module mixed into the class. -/
def missedFirst : Machine :=
  let seq : Code.Sequence := { name := ⟨0⟩, kind := .other, methodSites := 1 }
  let m := after (Exec.defineModule 0 ⟨1⟩ none false) (blank {})
  let m := after (Exec.defineModule 0 ⟨2⟩ none true) m
  let m := after (Exec.addSequence seq) m
  let m := after (Exec.findMethodAt? ⟨1⟩ 0 0 ⟨3⟩) m
  after (Exec.mixIn 0 1) (after (Exec.defineMethod 1 ⟨3⟩ ⟨1⟩) m)

theorem reached_missedFirst : missedFirst.Reached (fun _ _ => ⟨3⟩) 2 :=
  .mixIn 0 1 <| .defineMethod 1 ⟨3⟩ ⟨1⟩ <| .findMethodAt? ⟨1⟩ 0 0 <| .addSequence _ <|
    .defineModule 0 ⟨2⟩ none true <| .defineModule 0 ⟨1⟩ none false <| .blank {}

theorem lookups_missedFirst : missedFirst.Reached (fun _ _ => ⟨3⟩) 2 ∧ 2 + missedFirst.definitions < 2 ^ 64 ∧
    (∃ m', Exec.findMethod? 0 ⟨3⟩ missedFirst = .ok (some ⟨1⟩) m') ∧
    ∃ m', Exec.findMethodAt? ⟨1⟩ 0 0 ⟨3⟩ missedFirst = .ok (some ⟨1⟩) m' := by
  have hn : 2 + missedFirst.definitions < 2 ^ 64 := by decide +kernel
  have hfind : missedFirst.classes.findMethod? 0 ⟨3⟩ = some ⟨1⟩ := by decide +kernel
  have hsite : ((missedFirst.functions.find? ⟨1⟩).bind fun f => f.sites[0]?).isSome = true := by decide +kernel
  obtain ⟨c, hsite⟩ := Option.isSome_iff_exists.mp hsite
  obtain ⟨f, hf, hc⟩ := Option.bind_eq_some_iff.mp hsite
  obtain ⟨hfull, hat⟩ := reached_missedFirst.lookups_exact hn
  rw [← hfind]
  exact ⟨reached_missedFirst, hn, hfull 0 ⟨3⟩, hat ⟨1⟩ f 0 c 0 hf hc⟩

end Machine

end RubyMachine
