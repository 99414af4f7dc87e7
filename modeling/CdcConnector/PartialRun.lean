import Mathlib.Data.List.Basic
import Mathlib.Data.Option.Basic

/-!
# Runs of a partial step function

A step consumes one input and either gives the next state or halts for good.
Invariants are carried along a run once and for all; a side condition on
steps is asked in the state before each step that is taken.
-/

set_option autoImplicit false

namespace CDC.PartialRun

variable {ι σ τ σ' τ' : Type*}

def run (step : ι → σ → Option σ) : List ι → σ → Option σ
  | [], s => some s
  | i::is, s => (step i s).bind (run step is)

/-- Every step taken meets the condition in the state before it. -/
def Meets (step : ι → σ → Option σ) (cond : σ → ι → Prop) : List ι → σ → Prop
  | [], _ => True
  | i::is, s => ∀ t, step i s = some t → cond s i ∧ Meets step cond is t

/-- Every state of the run satisfies the property, the first one included. -/
def Always (step : ι → σ → Option σ) (P : σ → Prop) : List ι → σ → Prop
  | [], s => P s
  | i::is, s => P s ∧ ∀ t, step i s = some t → Always step P is t

/-- Every input finds a state that meets the condition, also the input a run
halts at. -/
def Guarded (step : ι → σ → Option σ) (cond : σ → ι → Prop) : List ι → σ → Prop
  | [], _ => True
  | i::is, s => cond s i ∧ ∀ t, step i s = some t → Guarded step cond is t

variable {step : ι → σ → Option σ}

theorem run_cons {i : ι} {is : List ι} {s t : σ} (h : run step (i::is) s = some t) :
    ∃ m, step i s = some m ∧ run step is m = some t :=
  Option.bind_eq_some_iff.mp h

theorem run_preserves_meeting (Inv : σ → Prop) {cond : σ → ι → Prop}
    (hstep : ∀ i s t, Inv s → cond s i → step i s = some t → Inv t)
    (is : List ι) (s t : σ) (hs : Inv s) (hc : Meets step cond is s)
    (h : run step is s = some t) : Inv t := by
  induction is generalizing s with
  | nil => cases h; exact hs
  | cons i is ih =>
    obtain ⟨m, hm, hr⟩ := run_cons h
    obtain ⟨hi, hrest⟩ := hc m hm
    exact ih m (hstep i s m hs hi hm) hrest hr

/-- When a step halts exactly where it misses the condition, a run goes to its
end exactly where every step meets it. -/
theorem run_isSome_iff (Inv : σ → Prop) {cond : σ → ι → Prop}
    (hstep : ∀ i s t, Inv s → step i s = some t → Inv t)
    (hexact : ∀ i s, Inv s → ((step i s).isSome = true ↔ cond s i)) (is : List ι) (s : σ)
    (hs : Inv s) : (run step is s).isSome = true ↔ Guarded step cond is s := by
  induction is generalizing s with
  | nil => simp [run, Guarded]
  | cons i is ih =>
    have hi := hexact i s hs
    rw [run, Guarded, ← hi]
    cases h : step i s with
    | none => simp
    | some t =>
      rw [Option.bind_some, ih t (hstep i s t hs h)]
      simp

theorem always_iff_reached (P : σ → Prop) (is : List ι) (s : σ) :
    Always step P is s ↔
      ∀ pre post t, is = pre ++ post → run step pre s = some t → P t := by
  induction is generalizing s with
  | nil =>
    constructor
    · intro h pre post t he hr
      obtain ⟨rfl, rfl⟩ := List.append_eq_nil_iff.mp he.symm
      cases hr
      exact h
    · intro h
      exact h [] [] s rfl rfl
  | cons i is ih =>
    constructor
    · rintro ⟨hs, hrest⟩ pre post t he hr
      cases pre with
      | nil => cases hr; exact hs
      | cons j pre =>
        obtain ⟨rfl, htail⟩ := List.cons.inj he
        obtain ⟨m, hm, hr⟩ := run_cons hr
        exact (ih m).mp (hrest m hm) pre post t htail hr
    · intro h
      refine ⟨h [] (i::is) s rfl rfl, fun m hm => (ih m).mpr ?_⟩
      intro pre post t he hr
      exact h (i::pre) post t (by rw [he, List.cons_append]) (by simp [run, hm, hr])

/-- When a step that misses the condition breaks the property at once, the
condition is exact for whole runs. Both may rely on what is given of every
step. -/
theorem always_iff_meets (Inv P : σ → Prop) {given cond : σ → ι → Prop}
    (hP : ∀ s, Inv s → P s)
    (hstep : ∀ i s t, Inv s → given s i → cond s i → step i s = some t → Inv t)
    (hexact : ∀ i s t, Inv s → given s i → step i s = some t → P t → cond s i)
    (is : List ι) (s : σ) (hs : Inv s) (hg : Meets step given is s) :
    Always step P is s ↔ Meets step cond is s := by
  induction is generalizing s with
  | nil => exact ⟨fun _ => trivial, fun _ => hP s hs⟩
  | cons i is ih =>
    constructor
    · rintro ⟨_, hrest⟩ m hm
      obtain ⟨hgi, hgrest⟩ := hg m hm
      have hPm : P m := by
        cases is with
        | nil => exact hrest m hm
        | cons j is => exact (hrest m hm).1
      have hi := hexact i s m hs hgi hm hPm
      exact ⟨hi, (ih m (hstep i s m hs hgi hi hm) hgrest).mp (hrest m hm)⟩
    · intro hc
      refine ⟨hP s hs, fun m hm => ?_⟩
      obtain ⟨hgi, hgrest⟩ := hg m hm
      obtain ⟨hi, hrest⟩ := hc m hm
      exact (ih m (hstep i s m hs hgi hi hm) hgrest).mpr hrest

/-- What one step preserves holds of every state of a run whose steps meet the
conditions. -/
theorem always_of_meets (Inv P : σ → Prop) {given cond : σ → ι → Prop} (hP : ∀ s, Inv s → P s)
    (hstep : ∀ i s t, Inv s → given s i → cond s i → step i s = some t → Inv t)
    (is : List ι) (s : σ) (hs : Inv s) (hg : Meets step given is s) (hc : Meets step cond is s) :
    Always step P is s := by
  induction is generalizing s with
  | nil => exact hP s hs
  | cons i is ih =>
    refine ⟨hP s hs, fun m hm => ?_⟩
    obtain ⟨hgi, hgrest⟩ := hg m hm
    obtain ⟨hi, hrest⟩ := hc m hm
    exact ih m (hstep i s m hs hgi hi hm) hgrest hrest

/-- A map that commutes with one step commutes with every run. -/
theorem run_map {step' : ι → σ' → Option σ'} (f : σ → σ')
    (hstep : ∀ i s, step' i (f s) = (step i s).map f) (is : List ι) (s : σ) :
    run step' is (f s) = (run step is s).map f := by
  induction is generalizing s with
  | nil => rfl
  | cons i is ih =>
    cases h : step i s with
    | none => simp [run, hstep, h]
    | some m => simp [run, hstep, h, ih]

/-- The run beside an observer, which sees each input and the state before it. -/
def pair (step : ι → σ → Option σ) (observe : σ → τ → ι → τ) (i : ι) (p : σ × τ) :
    Option (σ × τ) :=
  (step i p.1).map (fun s => (s, observe p.1 p.2 i))

theorem pair_some {observe : σ → τ → ι → τ} {i : ι} {p q : σ × τ}
    (h : pair step observe i p = some q) :
    step i p.1 = some q.1 ∧ q.2 = observe p.1 p.2 i := by
  obtain ⟨s, hs, rfl⟩ := Option.map_eq_some_iff.mp h
  exact ⟨hs, rfl⟩

theorem run_pair_fst (step : ι → σ → Option σ) (observe : σ → τ → ι → τ) (is : List ι) (p : σ × τ) :
    run step is p.1 = (run (pair step observe) is p).map Prod.fst :=
  run_map Prod.fst (fun i q => by cases h : step i q.1 <;> simp [pair, h]) is p

theorem run_pair_snd {observe : σ → τ → ι → τ} (g : τ → τ') (follow : τ' → ι → τ')
    (hg : ∀ s t i, g (observe s t i) = follow (g t) i) (is : List ι) (p q : σ × τ)
    (h : run (pair step observe) is p = some q) : g q.2 = is.foldl follow (g p.2) := by
  induction is generalizing p with
  | nil => cases h; rfl
  | cons i is ih =>
    obtain ⟨m, hm, hr⟩ := run_cons h
    rw [ih m hr, (pair_some hm).2, hg]
    rfl

theorem always_pair_iff {observe : σ → τ → ι → τ} (g : τ → τ') (follow : τ' → ι → τ')
    (hg : ∀ s t i, g (observe s t i) = follow (g t) i) (P : σ → τ' → Prop)
    (is : List ι) (p : σ × τ) :
    Always (pair step observe) (fun q => P q.1 (g q.2)) is p ↔
      ∀ pre post s, is = pre ++ post → run step pre p.1 = some s →
        P s (pre.foldl follow (g p.2)) := by
  rw [always_iff_reached]
  constructor
  · intro h pre post s he hs
    obtain ⟨q, hq, rfl⟩ := Option.map_eq_some_iff.mp
      ((run_pair_fst step observe pre p).symm.trans hs)
    rw [← run_pair_snd g follow hg pre p q hq]
    exact h pre post q he hq
  · intro h pre post q he hq
    rw [run_pair_snd g follow hg pre p q hq]
    refine h pre post q.1 he ?_
    rw [run_pair_fst step observe pre p, hq, Option.map_some]

theorem meets_of_forall {cond : ι → Prop} (is : List ι) (s : σ) (h : ∀ i ∈ is, cond i) :
    Meets step (fun _ i => cond i) is s := by
  induction is generalizing s with
  | nil => trivial
  | cons i is ih =>
    exact fun m _ => ⟨h i (by simp), ih m (fun j hj => h j (by simp [hj]))⟩

theorem meets_imp {cond cond' : σ → ι → Prop} (h : ∀ s i, cond s i → cond' s i) (is : List ι) (s : σ)
    (hc : Meets step cond is s) : Meets step cond' is s := by
  induction is generalizing s with
  | nil => trivial
  | cons i is ih => exact fun t ht => ⟨h s i (hc t ht).1, ih t (hc t ht).2⟩

theorem meets_pair_snd {observe : σ → τ → ι → τ} (g : τ → τ') (follow : τ' → ι → τ')
    (hg : ∀ s t i, g (observe s t i) = follow (g t) i) {cond : τ' → ι → Prop}
    (is : List ι) (p : σ × τ) (h : Meets (fun i t => some (follow t i)) cond is (g p.2)) :
    Meets (pair step observe) (fun q i => cond (g q.2) i) is p := by
  induction is generalizing p with
  | nil => trivial
  | cons i is ih =>
    intro q hq
    obtain ⟨hi, hrest⟩ := h _ rfl
    refine ⟨hi, ih q ?_⟩
    rwa [(pair_some hq).2, hg]

/-- The exact condition for a property of state and stream to hold after every
prefix of a run. -/
theorem prefixes_iff_meets {observe : σ → τ → ι → τ} (g : τ → τ') (follow : τ' → ι → τ')
    (hg : ∀ s t i, g (observe s t i) = follow (g t) i)
    (Inv : σ → τ → Prop) (P : σ → τ' → Prop) (given : τ' → ι → Prop) {cond : σ × τ → ι → Prop}
    (hP : ∀ s t, Inv s t → P s (g t))
    (hstep : ∀ i s s' t, Inv s t → given (g t) i → cond (s, t) i → step i s = some s' →
      Inv s' (observe s t i))
    (hexact : ∀ i s s' t, Inv s t → given (g t) i → step i s = some s' →
      P s' (g (observe s t i)) → cond (s, t) i)
    (is : List ι) (s : σ) (t : τ) (hs : Inv s t)
    (hgiven : Meets (fun i t => some (follow t i)) given is (g t)) :
    (∀ pre post s', is = pre ++ post → run step pre s = some s' →
        P s' (pre.foldl follow (g t))) ↔
      Meets (pair step observe) cond is (s, t) := by
  have hpair : Meets (pair step observe) (fun q i => given (g q.2) i) is (s, t) :=
    meets_pair_snd g follow hg is (s, t) hgiven
  rw [← always_iff_meets (fun q => Inv q.1 q.2) (fun q => P q.1 (g q.2)) ?_ ?_ ?_ is (s, t) hs hpair]
  · exact (always_pair_iff g follow hg P is (s, t)).symm
  · exact fun q hq => hP q.1 q.2 hq
  · intro i p q hp hgi hc hq
    obtain ⟨hs', ht⟩ := pair_some hq
    rw [ht]
    exact hstep i p.1 q.1 p.2 hp hgi hc hs'
  · intro i p q hp hgi hq hPq
    obtain ⟨hs', ht⟩ := pair_some hq
    rw [ht] at hPq
    exact hexact i p.1 q.1 p.2 hp hgi hs' hPq

theorem run_total (f : σ → ι → σ) (is : List ι) (s : σ) :
    run (fun i s => some (f s i)) is s = some (is.foldl f s) := by
  induction is generalizing s with
  | nil => rfl
  | cons i is ih => exact ih (f s i)

theorem meets_total_iff (f : σ → ι → σ) {cond : ι → Prop} (is : List ι) (s : σ) :
    Meets (fun i s => some (f s i)) (fun _ i => cond i) is s ↔ ∀ i ∈ is, cond i := by
  constructor
  · intro h
    induction is generalizing s with
    | nil => exact fun i hi => by cases hi
    | cons i is ih =>
      obtain ⟨hi, hrest⟩ := h (f s i) rfl
      exact List.forall_mem_cons.mpr ⟨hi, ih (f s i) hrest⟩
  · exact meets_of_forall is s

/-- The same for two total steps side by side, and a condition on the inputs
alone. -/
theorem prefixes_iff_forall (f : σ → ι → σ) (follow : τ → ι → τ)
    (Inv P : σ → τ → Prop) (given : τ → ι → Prop) {cond : ι → Prop}
    (hP : ∀ s t, Inv s t → P s t)
    (hstep : ∀ i s t, Inv s t → given t i → cond i → Inv (f s i) (follow t i))
    (hexact : ∀ i s t, Inv s t → given t i → P (f s i) (follow t i) → cond i)
    (is : List ι) (s : σ) (t : τ) (hs : Inv s t)
    (hgiven : Meets (fun i t => some (follow t i)) given is t) :
    (∀ pre post, is = pre ++ post → P (pre.foldl f s) (pre.foldl follow t)) ↔
      ∀ i ∈ is, cond i := by
  have hmeets : (∀ pre post s', is = pre ++ post →
      run (fun i s => some (f s i)) pre s = some s' → P s' (pre.foldl follow t)) ↔
        Meets (pair (fun i s => some (f s i)) (fun _ t i => follow t i)) (fun _ i => cond i) is
          (s, t) :=
    prefixes_iff_meets id follow (fun _ _ _ => rfl) Inv P given hP
      (fun i s s' t hi hg hc h => Option.some.inj h ▸ hstep i s t hi hg hc)
      (fun i s s' t hi hg h hp => hexact i s t hi hg (Option.some.inj h ▸ hp))
      is s t hs hgiven
  rw [← meets_total_iff (fun q i => (f q.1 i, follow q.2 i)) is (s, t)]
  refine Iff.trans ?_ hmeets
  constructor
  · intro h pre post s' he hr
    rw [run_total, Option.some.injEq] at hr
    exact hr ▸ h pre post he
  · intro h pre post he
    exact h pre post _ he (run_total f pre s)

theorem meets_pair_fst {observe : σ → τ → ι → τ} {cond : σ → ι → Prop} (is : List ι) (p : σ × τ) :
    Meets (pair step observe) (fun q i => cond q.1 i) is p ↔ Meets step cond is p.1 := by
  induction is generalizing p with
  | nil => exact Iff.rfl
  | cons i is ih =>
    constructor
    · intro h s hs
      obtain ⟨hi, hrest⟩ := h (s, observe p.1 p.2 i) (by rw [pair, hs]; rfl)
      exact ⟨hi, (ih _).mp hrest⟩
    · intro h q hq
      obtain ⟨hi, hrest⟩ := h q.1 (pair_some hq).1
      exact ⟨hi, (ih q).mpr hrest⟩

theorem prefixes_iff_states (f : σ → ι → σ) (follow : τ → ι → τ)
    (Inv P : σ → τ → Prop) (given : τ → ι → Prop) {cond : σ → ι → Prop}
    (hP : ∀ s t, Inv s t → P s t)
    (hstep : ∀ i s t, Inv s t → given t i → cond s i → Inv (f s i) (follow t i))
    (hexact : ∀ i s t, Inv s t → given t i → P (f s i) (follow t i) → cond s i)
    (is : List ι) (s : σ) (t : τ) (hs : Inv s t)
    (hgiven : Meets (fun i t => some (follow t i)) given is t) :
    (∀ pre post, is = pre ++ post → P (pre.foldl f s) (pre.foldl follow t)) ↔
      Meets (fun i s => some (f s i)) cond is s := by
  have hmeets : (∀ pre post s', is = pre ++ post →
      run (fun i s => some (f s i)) pre s = some s' → P s' (pre.foldl follow t)) ↔
        Meets (pair (fun i s => some (f s i)) (fun _ t i => follow t i)) (fun q i => cond q.1 i) is
          (s, t) :=
    prefixes_iff_meets id follow (fun _ _ _ => rfl) Inv P given hP
      (fun i s s' t hi hg hc h => Option.some.inj h ▸ hstep i s t hi hg hc)
      (fun i s s' t hi hg h hp => hexact i s t hi hg (Option.some.inj h ▸ hp))
      is s t hs hgiven
  rw [← @meets_pair_fst ι σ τ (fun i s => some (f s i)) (fun _ t i => follow t i) cond is (s, t)]
  refine Iff.trans ?_ hmeets
  constructor
  · intro h pre post s' he hr
    rw [run_total, Option.some.injEq] at hr
    exact hr ▸ h pre post he
  · intro h pre post he
    exact h pre post _ he (run_total f pre s)

instance decidableMeets (cond : σ → ι → Prop) [∀ s i, Decidable (cond s i)] :
    (is : List ι) → (s : σ) → Decidable (Meets step cond is s)
  | [], _ => isTrue trivial
  | i::is, s =>
    match h : step i s with
    | none => isTrue (by intro t ht; simp [h] at ht)
    | some m =>
      have := decidableMeets cond is m
      decidable_of_iff (cond s i ∧ Meets step cond is m)
        ⟨fun hm t ht => by cases h.symm.trans ht; exact hm, fun hm => hm m h⟩

end CDC.PartialRun
