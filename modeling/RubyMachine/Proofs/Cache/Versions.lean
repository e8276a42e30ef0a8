import RubyMachine.Proofs.Cache.Lookup
import RubyMachine.Proofs.Machine.Steps

/-! Versions keep what is remembered right. Every change that a lookup could notice begins a new version,
and nothing that was remembered in an earlier version counts any more. Versions are words of 64 bits and
come around after so many changes; operations and definitions bound how many changes there were. -/

namespace RubyMachine

/-- Everything is known, and call sites keep to their names. -/
structure Known.Total (names : FnId → Nat → Ident) (K : Known) : Prop extends K.All where
  site : ∀ fn i name, K.site fn i name → names fn i = name

/-! ## Changes that lookups do not notice -/

namespace Machine

/-- How many classes and functions there are. -/
def definitions (m : Machine) : Nat := m.classes.size + m.functions.size

/-- The same superclasses, methods, versions and caches. -/
structure Quiet (m m' : Machine) : Prop where
  classes : m.classes.Alike m'.classes
  version : m'.version = m.version
  lookups : m'.lookups = m.lookups
  size : m'.functions.size = m.functions.size
  sites : ∀ fn f', m'.functions.find? fn = some f' → ∃ f, m.functions.find? fn = some f ∧ f'.sites = f.sites

variable {m m' m'' : Machine} {names : FnId → Nat → Ident}

theorem Quiet.of_eq (hc : m'.classes = m.classes) (hf : m'.functions = m.functions) (hv : m'.version = m.version)
    (hl : m'.lookups = m.lookups) : m.Quiet m' where
  classes := hc ▸ .rfl
  version := hv
  lookups := hl
  size := by rw [hf]
  sites fn f h := ⟨f, hf ▸ h, rfl⟩

theorem Quiet.rfl : m.Quiet m := .of_eq (by rfl) (by rfl) (by rfl) (by rfl)

theorem Quiet.trans (h : m.Quiet m') (h' : m'.Quiet m'') : m.Quiet m'' where
  classes := h.classes.trans h'.classes
  version := h'.version.trans h.version
  lookups := h'.lookups.trans h.lookups
  size := h'.size.trans h.size
  sites fn f hf := by
    obtain ⟨f', hf', h1⟩ := h'.sites fn f hf
    obtain ⟨f'', hf'', h2⟩ := h.sites fn f' hf'
    exact ⟨f'', hf'', h1.trans h2⟩

theorem Quiet.definitions (h : m.Quiet m') : m'.definitions = m.definitions := by
  rw [Machine.definitions, Machine.definitions, h.size, h.classes.size]

theorem Quiet.cached (h : m.Quiet m') (hc : m.Cached names) : m'.Cached names where
  lookups e he := by
    rw [h.lookups] at he
    simpa only [h.version, h.classes.findMethod?] using hc.lookups e he
  sites fn f' hf' i c hi := by
    obtain ⟨f, hf, hs⟩ := h.sites fn f' hf'
    rw [hs] at hi
    simpa only [h.version, h.classes.findMethod?] using hc.sites fn f hf i c hi

/-- What is remembered is right, and the version has not yet come around, when `n` operations have been
made and `changes` more may be. -/
def Timely (names : FnId → Nat → Ident) (n changes : Nat) (m : Machine) : Prop :=
  n + m.definitions < 2 ^ 64 → m.version.toNat + changes ≤ n + m.definitions ∧ m.Cached names

theorem Timely.quiet {n k : Nat} (ht : m.Timely names n k) (h : m.Quiet m') : m'.Timely names n k := by
  unfold Timely at *
  rw [h.definitions, h.version]
  exact fun hn => ⟨(ht hn).1, h.cached (ht hn).2⟩

theorem Timely.fewer {n k k' : Nat} (ht : m.Timely names n k) (h : k' ≤ k) : m.Timely names n k' :=
  fun hn => ⟨by have := (ht hn).1; omega, (ht hn).2⟩

theorem Timely.allow {n k : Nat} (ht : m.Timely names n k) (j : Nat) : m.Timely names (n + j) (k + j) :=
  fun hn => ⟨by have := (ht (by omega)).1; omega, (ht (by omega)).2⟩

/-- After a new version nothing that was remembered counts. -/
theorem Timely.bumped {n k k' : Nat} (ht : m.Timely names n k) (hv : m'.version = m.version + 1)
    (hl : m'.lookups = m.lookups)
    (hs : ∀ fn f', m'.functions.find? fn = some f' → f'.sites = #[] ∨
      ∃ f, m.functions.find? fn = some f ∧ f'.sites = f.sites)
    (hd : m.definitions ≤ m'.definitions) (hk : k' + 1 + m.definitions ≤ k + m'.definitions) :
    m'.Timely names n k' := by
  intro hn
  obtain ⟨hver, hc⟩ := ht (by omega)
  have hto : m'.version.toNat = m.version.toNat + 1 := by
    rw [hv, UInt64.toNat_add]
    exact Nat.mod_eq_of_lt (by simp; omega)
  have later {v : UInt64} (h : v ≤ m.version) : v ≤ m'.version ∧ v ≠ m'.version := by
    rw [UInt64.le_iff_toNat_le] at h
    constructor
    · rw [UInt64.le_iff_toNat_le]
      omega
    · intro he
      rw [he] at h
      omega
  refine ⟨by omega, fun e he => ?_, fun fn f' hf' i c hi => ?_⟩
  · rw [hl] at he
    have := later (hc.lookups e he).1
    exact ⟨this.1, fun h => absurd h this.2⟩
  · rcases hs fn f' hf' with h | ⟨f, hf, h⟩
    · rw [h] at hi
      simp at hi
    · rw [h] at hi
      have := later (hc.sites fn f hf i c hi).1
      exact ⟨this.1, fun h => absurd h this.2⟩

end Machine

/-! ## A logic of what is remembered -/

/-- A computation after which what is remembered is right again. -/
def CacheSafe (names : FnId → Nat → Ident) (n : Nat) {α : Type} (K : Known) (x : Exec α) (R : Known → α → Prop) :
    Prop :=
  K.Total names → ∀ m : Machine, m.Timely names n K.changes → ∃ K', K ≤ K' ∧ K'.Total names ∧
    (after x m).Timely names n K'.changes ∧ m.definitions ≤ (after x m).definitions ∧
    ∀ a m', x m = .ok a m' → R K' a

namespace CacheSafe

variable {names : FnId → Nat → Ident} {n : Nat} {α β : Type} {K : Known} {R : Known → α → Prop}

/-- A computation that lookups do not notice. -/
theorem of_quiet {x : Exec α} (hx : ∀ m : Machine, m.Quiet (after x m))
    (hR : K.Total names → ∀ m a m', x m = .ok a m' → R K a) : CacheSafe names n K x R :=
  fun hT m ht => ⟨K, le_rfl, hT, ht.quiet (hx m), (hx m).definitions.ge, hR hT m⟩

theorem pure {a : α} (h : R K a) : CacheSafe names n K (Pure.pure a) R :=
  of_quiet (fun _ => .rfl) fun _ _ a' m' h' => by
    cases h'
    exact h

theorem bind {R' : Known → β → Prop} {x : Exec α} {f : α → Exec β} (hx : CacheSafe names n K x R)
    (hf : ∀ K' a, K ≤ K' → R K' a → CacheSafe names n K' (f a) R') : CacheSafe names n K (x >>= f) R' := by
  intro hT m ht
  obtain ⟨K1, h1, hT1, ht1, hd1, hR1⟩ := hx hT m ht
  cases hxm : x m with
  | error d m1 =>
    have he : (x >>= f) m = .error d m1 := by rw [bind_apply, hxm]
    rw [after_of_error hxm] at ht1 hd1
    refine ⟨K1, h1, hT1, ?_, ?_, fun a m' h => ?_⟩
    · rwa [after_of_error he]
    · rwa [after_of_error he]
    · rw [he] at h
      cases h
  | ok a m1 =>
    have he : (x >>= f) m = f a m1 := by rw [bind_apply, hxm]
    have ha : after (x >>= f) m = after (f a) m1 := by rw [after, he, after]
    rw [after_of_ok hxm] at ht1 hd1
    obtain ⟨K2, h2, hT2, ht2, hd2, hR2⟩ := hf K1 a h1 (hR1 a m1 hxm) hT1 m1 ht1
    refine ⟨K2, h1.trans h2, hT2, ?_, ?_, fun b m' h => ?_⟩
    · rwa [ha]
    · rw [ha]
      exact hd1.trans hd2
    · exact hR2 b m' (he ▸ h)

theorem change {P : α → Prop} {f : Machine → α × Machine}
    (hf : ∀ m, K.machine m → m.Minor (f m).2 ∧ K.machine (f m).2 ∧ P (f m).1) :
    CacheSafe names n K (modifyGet f) (Same K P) :=
  fun hT m ht => by
    have h := hf m (hT.machine m)
    have hq : m.Quiet (f m).2 := .of_eq h.1.classes h.1.functions h.1.version h.1.lookups
    refine ⟨K, le_rfl, hT, ht.quiet hq, hq.definitions.ge, fun a m' he => ?_⟩
    cases he
    exact ⟨rfl, h.2.2⟩

/-! ### Computations that are not noticed -/

theorem quiet_bind {x : Exec α} {f : α → Exec β} (hx : ∀ m : Machine, m.Quiet (after x m))
    (hf : ∀ (a : α) (m : Machine), m.Quiet (after (f a) m)) (m : Machine) : m.Quiet (after (x >>= f) m) :=
  after_bind (hx m) fun a t h => (after_of_ok h ▸ hx m).trans (hf a t)

theorem quiet_onHeap (x : HeapM Object α) (m : Machine) : m.Quiet (after (Exec.onHeap x) m) := by
  unfold after Exec.onHeap
  dsimp only
  cases x m.heap with
  | ok a h => exact .of_eq rfl rfl rfl rfl
  | error d h => exact .of_eq rfl rfl rfl rfl

theorem quiet_ofExcept (x : Except Defect α) (m : Machine) : m.Quiet (after (Exec.ofExcept x) m) := by
  cases x <;> exact .rfl

theorem quiet_deref (v : Value) (m : Machine) : m.Quiet (after (Exec.deref v) m) := by
  refine quiet_bind (quiet_ofExcept v.asRef) (fun r => ?_) m
  exact quiet_bind (x := get) (fun _ => .rfl) fun m' => quiet_ofExcept (m'.heap.read r)

theorem quiet_deref? (v : Value) (m : Machine) : m.Quiet (after (Exec.deref? v) m) := by
  unfold Exec.deref?
  split
  · exact quiet_bind (quiet_deref v) (fun _ _ => .rfl) m
  · exact .rfl

theorem quiet_dictKey (v : Value) (m : Machine) : m.Quiet (after (Exec.dictKey v) m) := by
  refine quiet_bind (quiet_bind (quiet_deref? v) fun o m => ?_) (fun r m => ?_) m
  · split <;> exact .rfl
  · split <;> exact .rfl

theorem quiet_ivarSlot (c : Nat) (name : Ident) (m : Machine) : m.Quiet (after (Exec.ivarSlot c name) m) := by
  unfold Exec.ivarSlot
  dsimp only
  split
  · exact .rfl
  · exact { Machine.Quiet.rfl (m := m) with classes := ClassTable.alike_ivarSlot m.classes c name }

theorem quiet_getIvar (v : Value) (name : Ident) (m : Machine) : m.Quiet (after (Exec.getIvar v name) m) := by
  refine quiet_bind (quiet_deref? v) (fun o m => ?_) m
  split
  · exact quiet_bind (quiet_ivarSlot _ name) (fun _ _ => .rfl) m
  · exact .rfl
  · exact .rfl

theorem quiet_setIvar (v : Value) (name : Ident) (w : Value) (m : Machine) :
    m.Quiet (after (Exec.setIvar v name w) m) := by
  refine quiet_bind (quiet_deref? v) (fun o m => ?_) m
  split
  · refine quiet_bind (quiet_ivarSlot _ name) (fun i => quiet_bind (fun m => ?_) fun _ _ => .rfl) m
    unfold Exec.setSlotOf
    dsimp only
    split
    · exact .rfl
    · exact quiet_onHeap _ m
  · refine quiet_bind (fun m => ?_) (fun _ _ => .rfl) m
    exact { Machine.Quiet.rfl (m := m) with
      classes := ClassTable.alike_modify m.classes _ (fun _ => rfl) (fun _ => rfl) fun _ => rfl }
  · exact .rfl

/-! ### Definitions -/

theorem onHeap_cases (x : HeapM Object α) (m : Machine) :
    (∃ a h, Exec.onHeap x m = .ok a { m with heap := h }) ∨ ∃ d h, Exec.onHeap x m = .error d { m with heap := h } := by
  unfold Exec.onHeap
  dsimp only
  cases x m.heap with
  | ok a h => exact .inl ⟨a, h, rfl⟩
  | error d h => exact .inr ⟨d, h, rfl⟩

/-- A new class is entered in the tables, and then a new version begins. -/
theorem allocModule_bind {name : Ident} {super : Option Nat} {isModule : Bool} {f : Nat → Exec α}
    (hf : ∀ c m, ∃ a t, f c m = .ok a { m with classes := t, version := m.version + 1 } ∧ t.size = m.classes.size)
    (hR : ∀ a, R K a) : CacheSafe names n K (Exec.allocModule name super isModule >>= f) R := by
  intro hT m ht
  rcases onHeap_cases (Heap.alloc (Object.module m.classes.size)) m with ⟨v, h, ha⟩ | ⟨d, h, ha⟩
  · have hm : Exec.allocModule name super isModule m = .ok m.classes.size
        { m with heap := h, classes := m.classes.push { name, super, isModule, self := v } } := by
      simp only [Exec.allocModule, Exec.alloc, bind_apply, get_apply, ha, modify_apply, pure_apply]
    obtain ⟨a, t, hc, hs⟩ := hf m.classes.size
      { m with heap := h, classes := m.classes.push { name, super, isModule, self := v } }
    have he : (Exec.allocModule name super isModule >>= f) m = .ok a
        { m with heap := h, classes := t, version := m.version + 1 } := by
      rw [bind_apply, hm]
      exact hc
    have hd : t.size = m.classes.size + 1 := hs.trans (Array.size_push _)
    refine ⟨K, le_rfl, hT, ?_, ?_, fun a _ _ => hR a⟩
    · rw [after_of_ok he]
      exact ht.bumped rfl rfl (fun fn f' hf' => .inr ⟨f', hf', rfl⟩) (by simp only [Machine.definitions]; omega)
        (by simp only [Machine.definitions]; omega)
    · rw [after_of_ok he]
      simp only [Machine.definitions]
      omega
  · have he : (Exec.allocModule name super isModule >>= f) m = .error d { m with heap := h } := by
      simp only [Exec.allocModule, Exec.alloc, bind_apply, get_apply, ha]
    have hq : m.Quiet { m with heap := h } := .of_eq rfl rfl rfl rfl
    refine ⟨K, le_rfl, hT, ?_, ?_, fun a m' hok => ?_⟩
    · rw [after_of_error he]
      exact ht.quiet hq
    · rw [after_of_error he]
      exact hq.definitions.ge
    · rw [he] at hok
      cases hok

theorem enroll {parent : Nat → Nat} {name : Ident} {super : Option Nat} {isModule : Bool}
    {R : Known → Nat → Prop} (hR : ∀ c, R K c) : CacheSafe names n K (Exec.enroll parent name super isModule) R :=
  allocModule_bind (fun c _ => ⟨c, _, rfl, ClassTable.size_modify ..⟩) hR

theorem attach {id super : Nat} {name : Ident} {R : Known → Nat → Prop} (hR : ∀ c, R K c) :
    CacheSafe names n K (Exec.attach id name super) R :=
  allocModule_bind (fun c _ => ⟨c, _, rfl, (ClassTable.size_modify ..).trans (ClassTable.size_modify ..)⟩) hR

/-- A class is changed, and then a new version begins. -/
theorem modifyModule {x : Exec Unit} {c : Nat} {f : Module → Module} (hk : 0 < K.changes)
    (hx : ∀ m : Machine, x m = .ok () m ∨
      x m = .ok () { m with classes := m.classes.modify c f, version := m.version + 1 }) :
    CacheSafe names n K x fun K' _ => K' = K.spend := by
  intro hT m ht
  refine ⟨K.spend, ⟨id, id, id, id, rfl, rfl, rfl⟩, { hT with }, ?_, ?_, fun _ _ _ => rfl⟩
  · rcases hx m with h | h
    · rw [after_of_ok h]
      exact ht.fewer (Nat.sub_le _ _)
    · rw [after_of_ok h]
      refine ht.bumped rfl rfl (fun fn f' hf' => .inr ⟨f', hf', rfl⟩) ?_ ?_
      · simp only [Machine.definitions, ClassTable.size_modify]
        omega
      · simp only [Machine.definitions, ClassTable.size_modify, Known.spend]
        omega
  · rcases hx m with h | h
    · rw [after_of_ok h]
    · rw [after_of_ok h]
      simp only [Machine.definitions, ClassTable.size_modify]
      omega

theorem mixIn {cls mod : Nat} (hk : 0 < K.changes) : CacheSafe names n K (Exec.mixIn cls mod) fun K' _ => K' = K.spend := by
  refine modifyModule (c := cls) (f := fun e => { e with includes := e.includes ++ [mod] }) hk fun m => ?_
  simp only [Exec.mixIn, Exec.module, bind_apply, get_apply, pure_apply]
  split
  · exact .inl rfl
  · exact .inr rfl

/-- A new function has no caches yet. -/
theorem addMethod {cls : Nat} {name : Ident} {f : Function} (hs : f.sites = #[]) :
    CacheSafe names n K (Exec.addMethod cls name f) (Same K fun _ => True) := by
  intro hT m ht
  have he : Exec.addMethod cls name f m = .ok () { m with
      functions := (m.functions.add f).2
      classes := m.classes.modify cls fun e => { e with methods := bindName name (m.functions.add f).1 e.methods }
      version := m.version + 1 } := rfl
  have hf : (m.functions.add f).2.size = m.functions.size + 1 := Array.size_push _
  refine ⟨K, le_rfl, hT, ?_, ?_, fun _ _ _ => ⟨rfl, trivial⟩⟩
  · rw [after_of_ok he]
    refine ht.bumped rfl rfl (fun fn f' hf' => ?_) ?_ ?_
    · rcases FunctionTable.find?_add hf' with h | rfl
      · exact .inr ⟨f', h, rfl⟩
      · exact .inl hs
    · simp only [Machine.definitions, ClassTable.size_modify]
      omega
    · simp only [Machine.definitions, ClassTable.size_modify]
      omega
  · rw [after_of_ok he]
    simp only [Machine.definitions, ClassTable.size_modify]
    omega

theorem quiet_modifyFunction (fn : FnId) {g : Function → Function} (hg : ∀ f, (g f).sites = f.sites) (m : Machine) :
    m.Quiet { m with functions := m.functions.modify fn g } where
  classes := .rfl
  version := rfl
  lookups := rfl
  size := FunctionTable.size_modify ..
  sites fn' f' h := by
    rw [FunctionTable.find?_modify] at h
    split at h
    · obtain ⟨f, hf, rfl⟩ := Option.map_eq_some_iff.mp h
      exact ⟨f, hf, hg f⟩
    · exact ⟨f', h, rfl⟩

theorem quiet_findConstAt? (fn : FnId) (site : Nat) (name : Ident) (m : Machine) :
    m.Quiet (after (Exec.findConstAt? fn site name) m) := by
  have found (m : Machine) (fn : FnId) : m.Quiet (after (Exec.function fn) m) := by
    refine quiet_bind (x := get) (fun _ => .rfl) (fun m' => ?_) m
    exact quiet_ofExcept (m'.functions.get fn)
  refine quiet_bind (fun m => found m fn) (fun f m => ?_) m
  split
  · exact .rfl
  refine quiet_bind (x := get) (fun _ => .rfl) (fun m' m => ?_) m
  dsimp only
  split
  · exact .rfl
  refine quiet_bind (quiet_bind (x := get) (fun _ => .rfl) fun _ _ => .rfl) (fun v m => ?_) m
  split
  · refine quiet_bind (fun m => ?_) (fun _ _ => .rfl) m
    refine quiet_modifyFunction fn ?_ m
    exact fun _ => rfl
  · exact .rfl

/-! ### Lookups -/

theorem findMethod? {cls : Nat} {name : Ident} :
    CacheSafe names n K (Exec.findMethod? cls name) (Same K fun _ => True) := by
  intro hT m ht
  have hd : (after (Exec.findMethod? cls name) m).definitions = m.definitions := by
    simp only [after, Exec.findMethod?, modifyGet_apply]
    split <;> rfl
  refine ⟨K, le_rfl, hT, fun hn => ?_, hd.ge, fun _ _ _ => ⟨rfl, trivial⟩⟩
  rw [hd] at hn ⊢
  obtain ⟨l, he, hc⟩ := (ht hn).2.findMethod? cls name
  rw [after_of_ok he]
  exact ⟨(ht hn).1, hc⟩

/-- Lookups define nothing. -/
theorem definitions_findMethodAt? (fn : FnId) (site cls : Nat) (name : Ident) (m : Machine) :
    (after (Exec.findMethodAt? fn site cls name) m).definitions = m.definitions := by
  have bound {β γ : Type} {x : Exec β} {f : β → Exec γ} (hx : ∀ m : Machine, (after x m).definitions = m.definitions)
      (hf : ∀ b (m : Machine), (after (f b) m).definitions = m.definitions) (m : Machine) :
      (after (x >>= f) m).definitions = m.definitions :=
    after_bind (P := fun t => t.definitions = m.definitions) (hx m) fun b t h =>
      (hf b t).trans (after_of_ok h ▸ hx m)
  have put (c : Cache.Inline) (m : Machine) : (after (Exec.setSite fn site c) m).definitions = m.definitions := by
    simp only [after, Exec.setSite, modify_apply, Machine.definitions, FunctionTable.size_modify]
  have found (m : Machine) : (after (Exec.findMethod? cls name) m).definitions = m.definitions := by
    simp only [after, Exec.findMethod?, modifyGet_apply]
    split <;> rfl
  refine bound (fun m => ?_) (fun f m => ?_) m
  · rw [after, Machine.function_apply]
    cases m.functions.find? fn <;> rfl
  split
  · rfl
  refine bound (x := get) (fun _ => rfl) (fun m' m => ?_) m
  refine bound (put _) (fun _ m => ?_) m
  split
  · rfl
  refine bound found (fun r m => ?_) m
  split
  · exact bound (put _) (fun _ _ => rfl) m
  · rfl

theorem findMethodAt? {fn : FnId} {site cls : Nat} {name : Ident} (hs : K.site fn site name) :
    CacheSafe names n K (Exec.findMethodAt? fn site cls name) (Same K fun _ => True) := by
  intro hT m ht
  have hd := definitions_findMethodAt? fn site cls name m
  refine ⟨K, le_rfl, hT, fun hn => ?_, hd.ge, fun _ _ _ => ⟨rfl, trivial⟩⟩
  rw [hd] at hn ⊢
  obtain ⟨hv, hc⟩ := ht hn
  by_cases h : ∀ f, m.functions.find? fn = some f → f.sites[site]? = none
  · obtain ⟨d, he⟩ := Machine.findMethodAt?_error h cls name
    rw [after_of_error he]
    exact ⟨hv, hc⟩
  · push Not at h
    obtain ⟨f, hf, h⟩ := h
    obtain ⟨c, hsite⟩ := Option.ne_none_iff_exists'.mp h
    obtain ⟨m', he, _, hver, _, hc'⟩ := hc.findMethodAt? hf hsite cls
    rw [hT.site fn site name hs] at he
    rw [after_of_ok he, hver]
    exact ⟨hv, hc'⟩

/-! ### The logic -/

theorem changes (names : FnId → Nat → Ident) (n : Nat) : Changes (CacheSafe names n) where
  pure := pure
  bind := bind
  throw _ := of_quiet (fun _ => .rfl) fun _ _ _ _ h => nomatch h
  disorder := of_quiet (fun _ => .rfl) fun _ _ _ _ h => nomatch h
  whole := of_quiet (fun _ => .rfl) fun hT _ _ _ _ => ⟨rfl, hT.machine _⟩
  change := change

theorem plainLogic (names : FnId → Nat → Ident) (n : Nat) : Logic (CacheSafe names n) where
  toViews := (changes names n).toBasics.views (changes names n).whole
  adjust _ hf := change fun m hm => ⟨(hf m hm).1, (hf m hm).2.2.2⟩
  deref _ := of_quiet (quiet_deref _) fun hT _ _ _ _ => ⟨rfl, hT.object _ _⟩
  inspect _ := of_quiet (quiet_bind (x := get) (fun _ => .rfl) fun m => quiet_ofExcept (m.inspect _))
    fun _ _ _ _ _ => ⟨rfl, trivial⟩
  alloc _ _ := of_quiet (quiet_onHeap _) fun hT _ _ _ _ => hT.value _
  update _ _ := of_quiet (quiet_onHeap _) fun _ _ _ _ _ => ⟨rfl, trivial⟩
  dictInsert _ _ _ := of_quiet (quiet_bind (quiet_dictKey _) fun _ => quiet_onHeap _) fun _ _ _ _ _ => ⟨rfl, trivial⟩
  getIvar _ := of_quiet (quiet_getIvar _ _) fun hT _ _ _ _ => ⟨rfl, hT.value _⟩
  setIvar _ _ := of_quiet (quiet_setIvar _ _ _) fun _ _ _ _ _ => ⟨rfl, trivial⟩
  enroll _ _ := fun hT => enroll (fun c => ⟨hT.cls c, rfl⟩) hT
  attach _ _ := fun hT => attach (fun c => ⟨hT.cls c, rfl⟩) hT
  mixIn hk _ _ := mixIn hk
  addMethod _ _ _ hs _ := addMethod hs
  setConst hk _ _ := modifyModule hk fun _ => .inr rfl
  defineMethod hk _ := modifyModule hk fun _ => .inr rfl
  setOwner _ := of_quiet (quiet_modifyFunction _ fun _ => rfl) fun _ _ _ _ _ => ⟨rfl, trivial⟩
  findMethod? := findMethod?
  findMethodAt? := findMethodAt?
  findConstAt? _ := of_quiet (quiet_findConstAt? _ _ _) fun hT _ _ _ _ => ⟨rfl, maybe_all hT.value _⟩
  newFiber _ _ := of_quiet (quiet_bind (x := get) (fun _ => .rfl) fun _ => quiet_bind (quiet_onHeap _)
    fun _ => quiet_bind (x := modify _) (fun _ => .of_eq rfl rfl rfl rfl) fun _ _ => .rfl) fun hT _ _ _ _ => hT.value _
  releaseFiber := (changes names n).releaseFiber
  setEnabled := of_quiet (quiet_onHeap _) fun _ _ _ _ _ => ⟨rfl, trivial⟩

theorem logic (names : FnId → Nat → Ident) (n : Nat) : CallLogic (CacheSafe names n) :=
  (changes names n).callLogic (plainLogic names n)

theorem onHeap (x : HeapM Object α) : CacheSafe names n K (Exec.onHeap x) (Same K fun _ => True) :=
  of_quiet (quiet_onHeap x) fun _ _ _ _ _ => ⟨rfl, trivial⟩

theorem collect : CacheSafe names n K Exec.collect (Same K fun _ => True) := fun hT =>
  (logic names n).collectBy hT.fib (onHeap _) (fun _ _ => onHeap _) (onHeap _) (onHeap _)
    (fun _ => of_quiet (fun _ => .of_eq rfl rfl rfl rfl) fun _ _ _ _ _ => ⟨rfl, trivial⟩) hT

theorem collectLogic (names : FnId → Nat → Ident) (n : Nat) : CollectLogic (CacheSafe names n) (CacheSafe names n) :=
  { logic names n with
    plain := fun h => h
    andThen := bind
    giving := fun hx h => bind hx fun K' a hle ha => pure (h K' a hle ha)
    lookThen := (logic names n).look
    collect := collect }

end CacheSafe

end RubyMachine
