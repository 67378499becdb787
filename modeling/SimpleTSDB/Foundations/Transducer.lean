import Mathlib.Data.List.Induction
import Mathlib.Logic.Function.Basic

/-!
# Transducers

A transducer reads letters one at a time, changes its state and emits outputs; a step may fail
(`none`), and then the run fails. `run` reads a whole word, `run_append` cuts a run in two and
`run_induction` is the rule for what holds after every run.

A transducer is multiplexed by giving every key a session of its own (`muxStep`): sessions are
opened and closed, and data arrives in chunks for an open session. What the sessions emit is
recorded event by event (`traced`), so that the outputs of one session can be told from the others
(`sessionOutputs`). `mux_sessions` is the isolation theorem: a session emits what its transducer
emits on the concatenation of its chunks, whatever the chunks and the other sessions are, and
`mux_eq_none_iff` says that the whole run fails exactly when one session alone would.
-/

namespace SimpleTSDB.Transducer

variable {σ α ω : Type*}

/-! ## Runs -/

/-- The state after reading a word, and the outputs. -/
def run (f : σ → α → Option (σ × List ω)) : σ → List α → Option (σ × List ω)
  | s, [] => some (s, [])
  | s, a :: as =>
    match f s a with
    | none => none
    | some (s', o) => (run f s' as).map fun p => (p.1, o ++ p.2)

variable {f : σ → α → Option (σ × List ω)}

@[simp] theorem run_nil (s : σ) : run f s [] = some (s, []) := rfl

theorem run_cons_of_none {s : σ} {a : α} (h : f s a = none) (as : List α) :
    run f s (a :: as) = none := by
  rw [run, h]

theorem run_cons_of_some {s t : σ} {a : α} {o : List ω} (h : f s a = some (t, o))
    (as : List α) : run f s (a :: as) = (run f t as).map fun p => (p.1, o ++ p.2) := by
  rw [run, h]

theorem run_singleton (s : σ) (a : α) : run f s [a] = f s a := by
  cases h : f s a with
  | none => exact run_cons_of_none h []
  | some p => simp [run_cons_of_some (t := p.1) (o := p.2) h]

/-- A run cut in two. -/
theorem run_append (s : σ) (as bs : List α) :
    run f s (as ++ bs) =
      (run f s as).bind fun p => (run f p.1 bs).map fun q => (q.1, p.2 ++ q.2) := by
  induction as generalizing s with
  | nil => simp
  | cons a as ih =>
    cases h : f s a with
    | none => simp [run_cons_of_none h]
    | some p =>
      obtain ⟨s', o⟩ := p
      rw [List.cons_append, run_cons_of_some h, run_cons_of_some h, ih]
      cases run f s' as with
      | none => rfl
      | some q => simp [Function.comp_def, List.append_assoc]

theorem run_append_eq_some_iff {s t : σ} {as bs : List α} {o : List ω} :
    run f s (as ++ bs) = some (t, o) ↔
      ∃ s' o₁ o₂, run f s as = some (s', o₁) ∧ run f s' bs = some (t, o₂) ∧ o = o₁ ++ o₂ := by
  rw [run_append, Option.bind_eq_some_iff]
  constructor
  · rintro ⟨⟨s', o₁⟩, h₁, h₂⟩
    obtain ⟨⟨t', o₂⟩, hr, heq⟩ := Option.map_eq_some_iff.mp h₂
    obtain ⟨rfl, rfl⟩ := Prod.mk.inj heq
    exact ⟨s', o₁, o₂, h₁, hr, rfl⟩
  · rintro ⟨s', o₁, o₂, h₁, h₂, rfl⟩
    exact ⟨(s', o₁), h₁, by simp [h₂]⟩

theorem run_cons_eq_some_iff {s t : σ} {a : α} {as : List α} {o : List ω} :
    run f s (a :: as) = some (t, o) ↔
      ∃ s' o₁ o₂, f s a = some (s', o₁) ∧ run f s' as = some (t, o₂) ∧ o = o₁ ++ o₂ := by
  rw [← List.singleton_append, run_append_eq_some_iff]
  simp only [run_singleton]

/-- **The rule for runs**: what holds at the start and is preserved by every step, given the run so
far, holds after every run. -/
theorem run_induction {motive : List α → σ → List ω → Prop} {s₀ : σ} (nil : motive [] s₀ [])
    (snoc : ∀ as s o a s' o', run f s₀ as = some (s, o) → motive as s o → f s a = some (s', o') →
      motive (as ++ [a]) s' (o ++ o'))
    {as : List α} {s : σ} {o : List ω} (h : run f s₀ as = some (s, o)) : motive as s o := by
  induction as using List.reverseRecOn generalizing s o with
  | nil =>
    obtain ⟨rfl, rfl⟩ := Prod.mk.inj (Option.some.inj h)
    exact nil
  | append_singleton as a ih =>
    obtain ⟨s', o₁, o₂, h₁, h₂, rfl⟩ := run_append_eq_some_iff.mp h
    rw [run_singleton] at h₂
    exact snoc as s' o₁ a s o₂ h₁ (ih h₁) h₂

/-- What the outputs of every step have, and what is kept when outputs are put together, the outputs
of a run have. -/
theorem run_outputs {P : List ω → Prop} (nil : P []) (append : ∀ o o', P o → P o' → P (o ++ o'))
    (step : ∀ s a t o, f s a = some (t, o) → P o) {s t : σ} {as : List α} {o : List ω}
    (h : run f s as = some (t, o)) : P o :=
  run_induction (motive := fun _ _ o => P o) nil
    (fun _ s o a s' o' _ ho hf => append o o' ho (step s a s' o' hf)) h

/-- The number of steps of a run that meet a condition on the state before the step and on the
letter. -/
def countSteps (f : σ → α → Option (σ × List ω)) (P : σ → α → Prop) [∀ s a, Decidable (P s a)] :
    σ → List α → ℕ
  | _, [] => 0
  | s, a :: as =>
    match f s a with
    | none => 0
    | some (s', _) => (if P s a then 1 else 0) + countSteps f P s' as

theorem countSteps_cons {P : σ → α → Prop} [∀ s a, Decidable (P s a)] {s t : σ} {a : α} {o : List ω}
    (h : f s a = some (t, o)) (as : List α) :
    countSteps f P s (a :: as) = (if P s a then 1 else 0) + countSteps f P t as := by
  rw [countSteps, h]

/-- The transducer that emits each letter with the outputs it causes. -/
def traced (f : σ → α → Option (σ × List ω)) (s : σ) (a : α) : Option (σ × List (α × List ω)) :=
  (f s a).map fun p => (p.1, [(a, p.2)])

theorem traced_eq_some_iff {s s' : σ} {a : α} {tr : List (α × List ω)} :
    traced f s a = some (s', tr) ↔ ∃ o, f s a = some (s', o) ∧ tr = [(a, o)] := by
  rw [traced, Option.map_eq_some_iff]
  constructor
  · rintro ⟨⟨t, o⟩, h, heq⟩
    obtain ⟨rfl, rfl⟩ := Prod.mk.inj heq
    exact ⟨o, h, rfl⟩
  · rintro ⟨o, h, rfl⟩
    exact ⟨(s', o), h, rfl⟩

theorem traced_eq_none_iff {s : σ} {a : α} : traced f s a = none ↔ f s a = none :=
  Option.map_eq_none_iff

/-- Tracing keeps the states, and the outputs are those of the trace. -/
theorem run_eq_map_traced (s : σ) (as : List α) :
    run f s as = (run (traced f) s as).map fun p => (p.1, p.2.flatMap Prod.snd) := by
  induction as generalizing s with
  | nil => rfl
  | cons a as ih =>
    cases h : f s a with
    | none => rw [run_cons_of_none h, run_cons_of_none (traced_eq_none_iff.mpr h), Option.map_none]
    | some p =>
      rw [run_cons_of_some h, run_cons_of_some (traced_eq_some_iff.mpr ⟨p.2, h, rfl⟩), ih]
      simp [Function.comp_def]

theorem run_traced_eq_none_iff {s : σ} {as : List α} :
    run (traced f) s as = none ↔ run f s as = none := by
  rw [run_eq_map_traced (f := f) s as, Option.map_eq_none_iff]

/-! ## Multiplexing -/

variable {κ : Type*} [DecidableEq κ]

/-- What can happen to the session of a key. -/
inductive MuxEvent (κ α : Type*)
  | opened (k : κ)
  | data (k : κ) (as : List α)
  | closed (k : κ)

/-- The key of an event. -/
def MuxEvent.key : MuxEvent κ α → κ
  | .opened k => k
  | .data k _ => k
  | .closed k => k

/-- One event of the multiplexed transducer, on the states of the open sessions. -/
def muxStep (f : σ → α → Option (σ × List ω)) (s₀ : σ) (m : κ → Option σ) :
    MuxEvent κ α → Option ((κ → Option σ) × List ω)
  | .opened k => some (Function.update m k (some s₀), [])
  | .data k as =>
    match m k with
    | none => some (m, [])
    | some s => (run f s as).map fun p => (Function.update m k (some p.1), p.2)
  | .closed k => some (Function.update m k none, [])

/-- What arrives for the session of `k` that is open before the events. -/
def received (k : κ) : List (MuxEvent κ α) → List α
  | [] => []
  | .opened k' :: es => if k' = k then [] else received k es
  | .data k' as :: es => if k' = k then as ++ received k es else received k es
  | .closed k' :: es => if k' = k then [] else received k es

/-- What the session of `k` that is open before the trace emits. -/
def emitted (k : κ) : List (MuxEvent κ α × List ω) → List ω
  | [] => []
  | (.opened k', _) :: es => if k' = k then [] else emitted k es
  | (.data k' _, o) :: es => if k' = k then o ++ emitted k es else emitted k es
  | (.closed k', _) :: es => if k' = k then [] else emitted k es

/-- The data of the sessions that the events open, in the order of their opening. -/
def sessionInputs : List (MuxEvent κ α) → List (List α)
  | [] => []
  | .opened k :: es => received k es :: sessionInputs es
  | .data _ _ :: es => sessionInputs es
  | .closed _ :: es => sessionInputs es

/-- The outputs of the sessions that a trace opens, in the order of their opening. -/
def sessionOutputs : List (MuxEvent κ α × List ω) → List (List ω)
  | [] => []
  | (.opened k, _) :: tr => emitted k tr :: sessionOutputs tr
  | (.data _ _, _) :: tr => sessionOutputs tr
  | (.closed _, _) :: tr => sessionOutputs tr

variable {s₀ : σ} {k : κ}

theorem received_of_ne {e : MuxEvent κ α} (h : e.key ≠ k) (es : List (MuxEvent κ α)) :
    received k (e :: es) = received k es := by
  cases e <;> simp_all [received, MuxEvent.key]

theorem emitted_of_ne {e : MuxEvent κ α} (h : e.key ≠ k) (o : List ω)
    (es : List (MuxEvent κ α × List ω)) : emitted k ((e, o) :: es) = emitted k es := by
  cases e <;> simp_all [emitted, MuxEvent.key]

/-- An event leaves the sessions of the other keys alone. -/
theorem muxStep_frame {e : MuxEvent κ α} (h : e.key ≠ k) {m m' : κ → Option σ} {o : List ω}
    (hf : muxStep f s₀ m e = some (m', o)) : m' k = m k := by
  cases e with
  | opened k' =>
    obtain ⟨rfl, -⟩ := Prod.mk.inj (Option.some.inj hf)
    exact Function.update_of_ne (Ne.symm h) ..
  | closed k' =>
    obtain ⟨rfl, -⟩ := Prod.mk.inj (Option.some.inj hf)
    exact Function.update_of_ne (Ne.symm h) ..
  | data k' as =>
    simp only [muxStep] at hf
    split at hf
    · obtain ⟨rfl, -⟩ := Prod.mk.inj (Option.some.inj hf)
      rfl
    · obtain ⟨p, -, heq⟩ := Option.map_eq_some_iff.mp hf
      obtain ⟨rfl, -⟩ := Prod.mk.inj heq
      exact Function.update_of_ne (Ne.symm h) ..

/-- Data for an open session is read by its transducer. -/
theorem muxStep_data {m m' : κ → Option σ} {s : σ} {as : List α} {o : List ω} (hm : m k = some s) :
    muxStep f s₀ m (.data k as) = some (m', o) ↔
      ∃ s', run f s as = some (s', o) ∧ m' = Function.update m k (some s') := by
  simp only [muxStep, hm, Option.map_eq_some_iff, Prod.exists, Prod.mk.injEq]
  constructor
  · rintro ⟨s', o', h, rfl, rfl⟩
    exact ⟨s', h, rfl⟩
  · rintro ⟨s', h, rfl⟩
    exact ⟨s', o, h, rfl, rfl⟩

/-- **Isolation**: an open session emits what its transducer emits on the data it receives. -/
theorem mux_session {es : List (MuxEvent κ α)} {m m' : κ → Option σ} {s : σ}
    {tr : List (MuxEvent κ α × List ω)} (hm : m k = some s)
    (h : run (traced (muxStep f s₀)) m es = some (m', tr)) :
    ∃ s', run f s (received k es) = some (s', emitted k tr) := by
  induction es generalizing m s tr with
  | nil =>
    obtain ⟨rfl, rfl⟩ := Prod.mk.inj (Option.some.inj h)
    exact ⟨s, rfl⟩
  | cons e es ih =>
    obtain ⟨m₁, t₁, tr', ht, hr, rfl⟩ := run_cons_eq_some_iff.mp h
    obtain ⟨o, hf, rfl⟩ := traced_eq_some_iff.mp ht
    by_cases hk : e.key = k
    · subst hk
      cases e with
      | opened k => exact ⟨s, by simp [received, emitted, MuxEvent.key]⟩
      | closed k => exact ⟨s, by simp [received, emitted, MuxEvent.key]⟩
      | data k as =>
        obtain ⟨s₁, hrun, rfl⟩ := (muxStep_data hm).mp hf
        obtain ⟨s', hs'⟩ := ih (Function.update_self ..) hr
        rw [MuxEvent.key] at hs'
        exact ⟨s', by simp [received, emitted, MuxEvent.key, run_append, hrun, hs']⟩
    · rw [received_of_ne hk, List.singleton_append, emitted_of_ne hk]
      exact ih (by rwa [muxStep_frame hk hf]) hr

/-- **Isolation of all sessions**: the sessions that a run opens emit, one by one, what their
transducer emits on the data they receive. -/
theorem mux_sessions {es : List (MuxEvent κ α)} {m m' : κ → Option σ}
    {tr : List (MuxEvent κ α × List ω)} (h : run (traced (muxStep f s₀)) m es = some (m', tr)) :
    List.Forall₂ (fun as os => ∃ s', run f s₀ as = some (s', os))
      (sessionInputs es) (sessionOutputs tr) := by
  induction es generalizing m tr with
  | nil =>
    obtain ⟨-, rfl⟩ := Prod.mk.inj (Option.some.inj h)
    exact .nil
  | cons e es ih =>
    obtain ⟨m₁, t₁, tr', ht, hr, rfl⟩ := run_cons_eq_some_iff.mp h
    obtain ⟨o, hf, rfl⟩ := traced_eq_some_iff.mp ht
    cases e with
    | opened k =>
      obtain ⟨rfl, rfl⟩ := Prod.mk.inj (Option.some.inj hf)
      exact .cons (mux_session (Function.update_self ..) hr) (ih hr)
    | closed k => simpa [sessionInputs, sessionOutputs] using ih hr
    | data k as => simpa [sessionInputs, sessionOutputs] using ih hr

/-- A session fails in the events: one that is open before them, or one that they open. -/
def SessionFails (f : σ → α → Option (σ × List ω)) (s₀ : σ) (m : κ → Option σ)
    (es : List (MuxEvent κ α)) : Prop :=
  (∃ k s, m k = some s ∧ run f s (received k es) = none) ∨
    ∃ as ∈ sessionInputs es, run f s₀ as = none

theorem sessionFails_cons_iff {e : MuxEvent κ α} {es : List (MuxEvent κ α)} {m : κ → Option σ} :
    SessionFails f s₀ m (e :: es) ↔
      (∃ k s, m k = some s ∧ run f s (received k (e :: es)) = none) ∨
      (∃ k, e = .opened k ∧ run f s₀ (received k es) = none) ∨
      ∃ as ∈ sessionInputs es, run f s₀ as = none := by
  rw [SessionFails]
  cases e <;> simp [sessionInputs]

/-- A step that succeeds neither adds nor loses a failing session. -/
theorem sessionFails_step {e : MuxEvent κ α} {es : List (MuxEvent κ α)} {m m' : κ → Option σ}
    {o : List ω} (hf : muxStep f s₀ m e = some (m', o)) :
    SessionFails f s₀ m (e :: es) ↔ SessionFails f s₀ m' es := by
  have frame : ∀ k, e.key ≠ k → ∀ s, (m k = some s ∧ run f s (received k (e :: es)) = none ↔
      m' k = some s ∧ run f s (received k es) = none) := fun k hk s => by
    rw [muxStep_frame hk hf, received_of_ne hk]
  have self : (∃ s, m e.key = some s ∧ run f s (received e.key (e :: es)) = none) ∨
      (∃ k, e = .opened k ∧ run f s₀ (received k es) = none) ↔
      ∃ s, m' e.key = some s ∧ run f s (received e.key es) = none := by
    cases e with
    | opened k =>
      obtain ⟨rfl, -⟩ := Prod.mk.inj (Option.some.inj hf)
      simp [received, MuxEvent.key]
    | closed k =>
      obtain ⟨rfl, -⟩ := Prod.mk.inj (Option.some.inj hf)
      simp [received, MuxEvent.key]
    | data k as =>
      cases hm : m k with
      | none =>
        simp only [muxStep, hm] at hf
        obtain ⟨rfl, -⟩ := Prod.mk.inj (Option.some.inj hf)
        simp [MuxEvent.key, hm]
      | some s =>
        obtain ⟨s', hrun, rfl⟩ := (muxStep_data hm).mp hf
        simp [received, MuxEvent.key, hm, run_append, hrun]
  rw [sessionFails_cons_iff, SessionFails, ← or_assoc]
  refine or_congr_left ⟨?_, ?_⟩
  · rintro (⟨k, s, h⟩ | h)
    · by_cases hk : e.key = k
      · obtain ⟨s', h'⟩ := self.mp (.inl ⟨s, hk ▸ h⟩)
        exact ⟨e.key, s', h'⟩
      · exact ⟨k, s, (frame k hk s).mp h⟩
    · obtain ⟨s', h'⟩ := self.mp (.inr h)
      exact ⟨e.key, s', h'⟩
  · rintro ⟨k, s, h⟩
    by_cases hk : e.key = k
    · exact (self.mpr ⟨s, hk ▸ h⟩).imp_left fun ⟨s', h'⟩ => ⟨e.key, s', h'⟩
    · exact .inl ⟨k, s, (frame k hk s).mpr h⟩

/-- **A multiplexed run fails exactly when one of its sessions fails on its own.** -/
theorem mux_eq_none_iff {es : List (MuxEvent κ α)} {m : κ → Option σ} :
    run (muxStep f s₀) m es = none ↔ SessionFails f s₀ m es := by
  induction es generalizing m with
  | nil => simp [SessionFails, received, sessionInputs]
  | cons e es ih =>
    cases hf : muxStep f s₀ m e with
    | some p =>
      obtain ⟨m', o⟩ := p
      rw [run_cons_of_some hf, Option.map_eq_none_iff, ih, sessionFails_step hf]
    | none =>
      rw [run_cons_of_none hf, sessionFails_cons_iff]
      refine iff_of_true rfl (.inl ?_)
      cases e with
      | opened k => cases hf
      | closed k => cases hf
      | data k as =>
        cases hm : m k with
        | none => simp [muxStep, hm] at hf
        | some s =>
          simp only [muxStep, hm, Option.map_eq_none_iff] at hf
          exact ⟨k, s, hm, by simp [received, run_append, hf]⟩

end SimpleTSDB.Transducer
