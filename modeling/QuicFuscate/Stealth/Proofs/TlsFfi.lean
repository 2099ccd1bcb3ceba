import QuicFuscate.Stealth.TlsFfi

/-!
# A look-up that waits for itself

The initialiser of a wrapper's cell looks up all functions and writes what it finds, the wrapper's
own cell included.  That cell is being initialised, so that the first wrapper of a process never
returns if the library has its function.  If the library does not, all others are found on this
occasion and the process goes on.
-/

namespace QuicFuscate.Stealth.TlsFfi

open Framework OnceCells

variable {library : Option Library} {symbols : Symbols} {h : Hook}

theorem Hook.mem_all (h : Hook) : h ∈ Hook.all := by
  cases h <;> decide

def has (library : Option Library) (h : Hook) : Bool :=
  match library with
  | none => false
  | some provides => provides h

private theorem loadRealSymbols_eq (library : Option Library) (symbols : Symbols) :
    loadRealSymbols library symbols = symbols.setEach (has library) some Hook.all := by
  cases library with
  | none => rfl
  | some provides => rfl

/-! ## One wrapper -/

def found (library : Option Library) (h : Hook) : Option Hook := if has library h then some h else none

def Known (library : Option Library) (symbols : Symbols) : Prop :=
  ∀ h, symbols h = .unset ∨ symbols h = .done (found library h)

structure Loaded (library : Option Library) (symbols : Symbols) : Prop where
  known : Known library symbols
  provided : ∀ h, has library h = true → symbols h = .done (some h)

private theorem known_noSymbols (library : Option Library) : Known library noSymbols := fun _ => .inl rfl

/-- A wrapper that is called for the first time returns only if its function is missing, and then all others are
known. -/
theorem Known.resolve_unset (hknown : Known library symbols) (hunset : symbols h = .unset) :
    (has library h = true → resolve library h symbols = none) ∧
      (has library h = false →
        ∃ symbols', resolve library h symbols = some (none, symbols') ∧ Loaded library symbols') := by
  have hrunning : Function.update symbols h .running h = .running := Function.update_self _ _ _
  have hothers : ∀ l, l ≠ h → Function.update symbols h .running l = symbols l :=
    fun l hl => Function.update_of_ne hl _ _
  constructor
  · intro hp
    refine getOrInit_stuck hunset ?_
    rw [loadRealSymbols_eq, setEach_running h.mem_all hp hrunning]
    rfl
  · intro hp
    have hne : ∀ l, has library l = true → l ≠ h := fun l hl heq => by rw [heq, hp] at hl; cases hl
    have hfree : ∀ l ∈ Hook.all, has library l = true → Function.update symbols h .running l ≠ .running := by
      intro l _ hl hrun
      rw [hothers l (hne l hl)] at hrun
      rcases hknown l with hcell | hcell
      · rw [hcell] at hrun
        cases hrun
      · rw [hcell] at hrun
        cases hrun
    obtain ⟨loaded, hload, hfilled⟩ := setEach_of_ne_running (v := some) hfree
    have hkept : ∀ l, has library l = false → loaded l = Function.update symbols h .running l := fun l hl =>
      (hfilled l).kept (.inl fun hin => by rw [hl] at hin; exact Bool.false_ne_true hin.2)
    have hprovided : ∀ l, has library l = true → loaded l = .done (some l) := by
      intro l hl
      rcases hknown l with hcell | hcell
      · exact (hfilled l).filled ⟨l.mem_all, hl⟩ ((hothers l (hne l hl)).trans hcell)
      · have hdone : Function.update symbols h .running l = .done (some l) := by
          rw [hothers l (hne l hl), hcell, found, if_pos hl]
        rw [(hfilled l).kept (.inr (by rw [hdone]; exact fun h => by cases h)), hdone]
    refine ⟨Function.update loaded h (.done none), ?_, ⟨fun l => ?_, fun l hl => ?_⟩⟩
    · refine getOrInit_unset hunset ?_
      rw [loadRealSymbols_eq, hload]
      change some ((loaded.get h).join, loaded) = _
      rw [get_running ((hkept h hp).trans hrunning)]
      rfl
    · by_cases heq : l = h
      · rw [heq, Function.update_self, found, hp]
        exact .inr rfl
      · rw [Function.update_of_ne heq]
        cases hl : has library l with
        | true => exact .inr (by rw [hprovided l hl, found, if_pos hl])
        | false =>
            rw [hkept l hl, hothers l heq]
            exact hknown l
    · rw [Function.update_of_ne (hne l hl)]
      exact hprovided l hl

theorem Loaded.resolve (hloaded : Loaded library symbols) (h : Hook) :
    ∃ symbols', resolve library h symbols = some (found library h, symbols') ∧ Loaded library symbols' := by
  rcases hloaded.known h with hunset | hdone
  · have hmissing : has library h = false := by
      cases hp : has library h with
      | false => rfl
      | true =>
          rw [hloaded.provided h hp] at hunset
          cases hunset
    rw [found, if_neg (by rw [hmissing]; exact Bool.false_ne_true)]
    exact (hloaded.known.resolve_unset hunset).2 hmissing
  · exact ⟨symbols, getOrInit_done hdone, hloaded⟩

/-! ## A process -/

def injected (library : Option Library) (record : Option (List UInt8)) (cfg : TlsSettings) : TlsSettings :=
  match record with
  | none => cfg
  | some hello =>
      if has library .builderNew && has library .builderUse then
        { cfg with clientHello := some (if has library .builderAdd then hello else []) }
      else cfg

theorem Loaded.injectBytes (hloaded : Loaded library symbols) (hello : List UInt8) (cfg : TlsSettings) :
    ∃ symbols', injectBytes library hello cfg symbols = some (injected library (some hello) cfg, symbols') ∧
      Loaded library symbols' := by
  obtain ⟨s₁, hnew, h₁⟩ := hloaded.resolve .builderNew
  obtain ⟨s₂, hadd, h₂⟩ := h₁.resolve .builderAdd
  obtain ⟨s₃, huse, h₃⟩ := h₂.resolve .builderUse
  obtain ⟨s₄, hfree, h₄⟩ := h₃.resolve .builderFree
  obtain ⟨s₅, hgrease, h₅⟩ := h₄.resolve .disableGrease
  obtain ⟨s₆, hdeterministic, h₆⟩ := h₅.resolve .setDeterministic
  rw [TlsFfi.injectBytes, hnew]
  cases hp : has library .builderNew with
  | false => exact ⟨s₁, by simp [found, hp, injected], h₁⟩
  | true =>
      refine ⟨s₆, ?_, h₆⟩
      cases hpadd : has library .builderAdd <;> cases hpuse : has library .builderUse <;>
        simp [found, hp, hpadd, hpuse, injected, hadd, huse, hfree, hgrease, hdeterministic]

theorem Loaded.injectRecord (hloaded : Loaded library symbols) (record : Option (List UInt8)) (cfg : TlsSettings) :
    ∃ symbols', injectRecord library record cfg symbols = some (injected library record cfg, symbols') ∧
      Loaded library symbols' := by
  cases record with
  | none => exact ⟨symbols, rfl, hloaded⟩
  | some hello => exact hloaded.injectBytes hello cfg

theorem Loaded.applyHooks (hloaded : Loaded library symbols) (record : Option (List UInt8)) (cfg : TlsSettings) :
    ∃ symbols', applyHooks library record cfg symbols = some (injected library record cfg, symbols') ∧
      Loaded library symbols' := by
  obtain ⟨s₁, hinject, h₁⟩ := hloaded.injectRecord record cfg
  obtain ⟨s₂, hgrease, h₂⟩ := h₁.resolve .disableGrease
  obtain ⟨s₃, hdeterministic, h₃⟩ := h₂.resolve .setDeterministic
  refine ⟨s₃, ?_, h₃⟩
  rw [TlsFfi.applyHooks, hinject]
  simp [hgrease, hdeterministic]

theorem Loaded.applyAll (hloaded : Loaded library symbols) (connections : List (Option (List UInt8) × TlsSettings)) :
    ∃ symbols', applyAll library connections symbols =
      some (connections.map fun c => injected library c.1 c.2, symbols') := by
  induction connections generalizing symbols with
  | nil => exact ⟨symbols, rfl⟩
  | cons c connections ih =>
      obtain ⟨s₁, hfirst, h₁⟩ := hloaded.applyHooks c.1 c.2
      obtain ⟨s₂, hrest⟩ := ih h₁
      refine ⟨s₂, ?_⟩
      rw [TlsFfi.applyAll, hfirst]
      simp [hrest]

def firstHook (record : Option (List UInt8)) : Hook := if record.isSome then .builderNew else .disableGrease

theorem applyHooks_first (library : Option Library) (record : Option (List UInt8)) (cfg : TlsSettings) :
    (has library (firstHook record) = true → applyHooks library record cfg noSymbols = none) ∧
      (has library (firstHook record) = false → ∃ symbols,
        applyHooks library record cfg noSymbols = some (injected library record cfg, symbols) ∧
          Loaded library symbols) := by
  obtain ⟨hstuck, hreturns⟩ := (known_noSymbols library).resolve_unset (h := firstHook record) rfl
  refine ⟨fun hp => ?_, fun hp => ?_⟩
  · specialize hstuck hp
    cases record with
    | none =>
        have hstuck : resolve library .disableGrease noSymbols = none := hstuck
        simp [TlsFfi.applyHooks, TlsFfi.injectRecord, hstuck]
    | some hello =>
        have hstuck : resolve library .builderNew noSymbols = none := hstuck
        simp [TlsFfi.applyHooks, TlsFfi.injectRecord, TlsFfi.injectBytes, hstuck]
  · obtain ⟨s₁, hfirst, h₁⟩ := hreturns hp
    obtain ⟨s₂, hgrease, h₂⟩ := h₁.resolve .disableGrease
    obtain ⟨s₃, hdeterministic, h₃⟩ := h₁.resolve .setDeterministic
    obtain ⟨s₄, hdeterministic', h₄⟩ := h₂.resolve .setDeterministic
    cases record with
    | none =>
        have hfirst : resolve library .disableGrease noSymbols = some (none, s₁) := hfirst
        exact ⟨s₃, by simp [TlsFfi.applyHooks, TlsFfi.injectRecord, hfirst, hdeterministic, injected], h₃⟩
    | some hello =>
        have hfirst : resolve library .builderNew noSymbols = some (none, s₁) := hfirst
        have hmissing : has library .builderNew = false := hp
        refine ⟨s₄, ?_, h₄⟩
        simp [TlsFfi.applyHooks, TlsFfi.injectRecord, TlsFfi.injectBytes, hfirst, hgrease, hdeterministic',
          injected, hmissing]

end QuicFuscate.Stealth.TlsFfi
