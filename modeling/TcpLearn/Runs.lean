import Mathlib.Data.List.Basic
import Mathlib.Tactic.Common

/-!
# Runs of a partial step function

A system is a step function `step : σ → ε → Option σ`: an operation `e` issued
in a state either yields the next state or has no result (`none`). `run` folds
the steps, `Each Q` says that every step of a run meets `Q` in the state where
it is issued, `Always P` that `P` holds in every state the run reaches.

The rules: an invariant kept by every step holds always (`always_of_inv`), steps
that never fail from an invariant give a total run (`run_total`), and a property
that each step preserves exactly when it meets a condition holds along a run
exactly when every step meets the condition (`always_iff_each`; with steps that have a
result on that condition only, `through_iff_each`).
-/
namespace TcpLearn.Runs

variable {σ ε : Type*} (step : σ → ε → Option σ)

/-- The state after a list of operations, if every one of them has a result. -/
def run : σ → List ε → Option σ
  | s, [] => some s
  | s, e :: es => (step s e).bind fun s' => run s' es

/-- Every operation of the run meets `Q` in the state where it is issued. -/
def Each (Q : σ → ε → Prop) : σ → List ε → Prop
  | _, [] => True
  | s, e :: es => Q s e ∧ ∀ s', step s e = some s' → Each Q s' es

/-- Every state the run reaches, the first one included, meets `P`. -/
def Always (P : σ → Prop) : σ → List ε → Prop
  | s, [] => P s
  | s, e :: es => P s ∧ ∀ s', step s e = some s' → Always P s' es

variable {step}

@[simp] theorem run_nil (s : σ) : run step s [] = some s := rfl

theorem run_cons (s : σ) (e : ε) (es : List ε) :
    run step s (e :: es) = (step s e).bind fun s' => run step s' es := rfl

theorem run_append (s : σ) (es later : List ε) : run step s (es ++ later) = (run step s es).bind fun s' => run step s' later := by
  induction es generalizing s with
  | nil => rfl
  | cons e es ih =>
    rw [List.cons_append, run_cons, run_cons, Option.bind_assoc]
    exact Option.bind_congr fun s' _ => ih s'

theorem run_cons_eq_some {s s' : σ} {e : ε} {es : List ε} (executed : run step s (e :: es) = some s') :
    ∃ mid, step s e = some mid ∧ run step mid es = some s' := by
  rw [run_cons] at executed
  exact Option.bind_eq_some_iff.mp executed

theorem each_cons {Q : σ → ε → Prop} {s s' : σ} {e : ε} {es : List ε} (here : Q s e) (stepped : step s e = some s')
    (rest : Each step Q s' es) : Each step Q s (e :: es) :=
  ⟨here, fun other same => by cases stepped.symm.trans same; exact rest⟩

theorem each_append {Q : σ → ε → Prop} {s mid : σ} {es later : List ε} (first : Each step Q s es)
    (reached : run step s es = some mid) (second : Each step Q mid later) : Each step Q s (es ++ later) := by
  induction es generalizing s with
  | nil =>
    cases reached
    exact second
  | cons e es ih =>
    obtain ⟨next, stepped, rest⟩ := run_cons_eq_some reached
    exact each_cons first.1 stepped (ih (first.2 next stepped) rest)

theorem each_true (s : σ) (es : List ε) : Each step (fun _ _ => True) s es := by
  induction es generalizing s with
  | nil => trivial
  | cons e es ih => exact ⟨trivial, fun s' _ => ih s'⟩

/-- Conditions that agree wherever the invariant holds agree along a run. The steps
    have to keep the invariant only while they meet the conditions. -/
theorem each_iff_while {I : σ → Prop} {Q R G : σ → ε → Prop}
    (keeps : ∀ s e s', I s → Q s e → R s e → step s e = some s' → I s') (same : ∀ s e, I s → Q s e → (R s e ↔ G s e))
    {s : σ} {es : List ε} (initial : I s) (each : Each step Q s es) : Each step R s es ↔ Each step G s es := by
  induction es generalizing s with
  | nil => exact Iff.rfl
  | cons e es ih =>
    have iff := same s e initial each.1
    constructor
    · rintro ⟨here, later⟩
      refine ⟨iff.mp here, ?_⟩
      intro s' stepped
      exact (ih (keeps s e s' initial each.1 here stepped) (each.2 s' stepped)).mp (later s' stepped)
    · rintro ⟨good, later⟩
      have here := iff.mpr good
      refine ⟨here, ?_⟩
      intro s' stepped
      exact (ih (keeps s e s' initial each.1 here stepped) (each.2 s' stepped)).mpr (later s' stepped)

theorem each_iff {I : σ → Prop} {Q R G : σ → ε → Prop}
    (keeps : ∀ s e s', I s → Q s e → step s e = some s' → I s') (same : ∀ s e, I s → Q s e → (R s e ↔ G s e))
    {s : σ} {es : List ε} (initial : I s) (each : Each step Q s es) : Each step R s es ↔ Each step G s es :=
  each_iff_while (fun s e s' inv good _ stepped => keeps s e s' inv good stepped) same initial each

/-- A condition on the operations alone is met along a run that goes through when
    every operation meets it. -/
theorem each_iff_forall {I : σ → Prop} {Q : σ → ε → Prop} {G : ε → Prop}
    (progress : ∀ s e, I s → Q s e → ∃ s', step s e = some s' ∧ I s') {s : σ} {es : List ε} (initial : I s)
    (each : Each step Q s es) : Each step (fun _ e => G e) s es ↔ ∀ e ∈ es, G e := by
  induction es generalizing s with
  | nil => simp [Each]
  | cons e es ih =>
    obtain ⟨mid, stepped, kept⟩ := progress s e initial each.1
    have rest := ih kept (each.2 mid stepped)
    rw [List.forall_mem_cons, ← rest]
    refine and_congr_right fun _ => ⟨fun later => later mid stepped, ?_⟩
    intro later s' other
    cases stepped.symm.trans other
    exact later

theorem always_head {P : σ → Prop} {s : σ} {es : List ε} (always : Always step P s es) : P s := by
  cases es with
  | nil => exact always
  | cons e es => exact always.1

/-- An invariant that every step meeting `Q` keeps holds always. -/
theorem always_of_inv {I : σ → Prop} {Q : σ → ε → Prop}
    (keeps : ∀ s e s', I s → Q s e → step s e = some s' → I s') {s : σ} {es : List ε} (initial : I s)
    (each : Each step Q s es) : Always step I s es := by
  induction es generalizing s with
  | nil => exact initial
  | cons e es ih =>
    exact ⟨initial, fun s' stepped => ih (keeps s e s' initial each.1 stepped) (each.2 s' stepped)⟩

theorem always_mono {P R : σ → Prop} (weaker : ∀ s, P s → R s) {s : σ} {es : List ε}
    (always : Always step P s es) : Always step R s es := by
  induction es generalizing s with
  | nil => exact weaker s always
  | cons e es ih => exact ⟨weaker s always.1, fun s' stepped => ih (always.2 s' stepped)⟩

/-- Steps that have a result and keep the invariant give a run that has one. -/
theorem run_total {I : σ → Prop} {Q : σ → ε → Prop}
    (progress : ∀ s e, I s → Q s e → ∃ s', step s e = some s' ∧ I s') {s : σ} {es : List ε} (initial : I s)
    (each : Each step Q s es) : ∃ s', run step s es = some s' ∧ I s' := by
  induction es generalizing s with
  | nil => exact ⟨s, rfl, initial⟩
  | cons e es ih =>
    obtain ⟨mid, stepped, kept⟩ := progress s e initial each.1
    obtain ⟨final, rest, last⟩ := ih kept (each.2 mid stepped)
    exact ⟨final, by rw [run_cons, stepped]; exact rest, last⟩

/-- The first step that breaks `P`: where the invariant `I` holds and every step that has
    a result reaches `P` from `P` exactly when it meets `G`, and one without a result
    meets it, the run keeps `P` exactly when each of its steps meets `G`. -/
theorem always_iff_each_partial {I P : σ → Prop} {Q G : σ → ε → Prop}
    (keeps : ∀ s e s', I s → Q s e → step s e = some s' → I s')
    (exact_step : ∀ s e, I s → P s → Q s e → (step s e = none → G s e) ∧ ∀ s', step s e = some s' → (P s' ↔ G s e))
    {s : σ} {es : List ε} (initial : I s) (holds : P s) (each : Each step Q s es) :
    Always step P s es ↔ Each step G s es := by
  induction es generalizing s with
  | nil => simp [Always, Each, holds]
  | cons e es ih =>
    obtain ⟨stuck, iff⟩ := exact_step s e initial holds each.1
    cases stepped : step s e with
    | none => exact iff_of_true ⟨holds, by simp [stepped]⟩ ⟨stuck stepped, by simp [stepped]⟩
    | some mid =>
      have kept := keeps s e mid initial each.1 stepped
      constructor
      · intro always
        have here := always_head (always.2 mid stepped)
        exact each_cons ((iff mid stepped).mp here) stepped ((ih kept here (each.2 mid stepped)).mp (always.2 mid stepped))
      · intro good
        have here := (iff mid stepped).mpr good.1
        refine ⟨holds, ?_⟩
        intro s' other
        cases stepped.symm.trans other
        exact (ih kept here (each.2 mid stepped)).mpr (good.2 mid stepped)

/-- The same when every step has a result. -/
theorem always_iff_each {I P : σ → Prop} {Q G : σ → ε → Prop}
    (keeps : ∀ s e s', I s → Q s e → step s e = some s' → I s')
    (exact_step : ∀ s e, I s → P s → Q s e → ∃ s', step s e = some s' ∧ (P s' ↔ G s e))
    {s : σ} {es : List ε} (initial : I s) (holds : P s) (each : Each step Q s es) :
    Always step P s es ↔ Each step G s es := by
  refine always_iff_each_partial keeps ?_ initial holds each
  intro s e inv here good
  obtain ⟨mid, stepped, iff⟩ := exact_step s e inv here good
  refine ⟨fun none => absurd (stepped.symm.trans none) (Option.some_ne_none mid), ?_⟩
  intro s' other
  cases stepped.symm.trans other
  exact iff

/-- A run goes through and keeps `P` exactly when each of its steps meets `G`, where that
    is what a step needs to have a result with `P`. -/
theorem through_iff_each {I P : σ → Prop} {Q G : σ → ε → Prop}
    (keeps : ∀ s e s', I s → Q s e → step s e = some s' → I s')
    (exact_step : ∀ s e, I s → P s → Q s e → ((∃ s', step s e = some s' ∧ P s') ↔ G s e))
    {s : σ} {es : List ε} (initial : I s) (holds : P s) (each : Each step Q s es) :
    ((∃ s', run step s es = some s') ∧ Always step P s es) ↔ Each step G s es := by
  induction es generalizing s with
  | nil => simp [Always, Each, holds]
  | cons e es ih =>
    have iff := exact_step s e initial holds each.1
    constructor
    · rintro ⟨⟨s', executed⟩, always⟩
      obtain ⟨mid, stepped, rest⟩ := run_cons_eq_some executed
      have later := always.2 mid stepped
      have here := always_head later
      exact each_cons (iff.mp ⟨mid, stepped, here⟩) stepped
        ((ih (keeps s e mid initial each.1 stepped) here (each.2 mid stepped)).mp ⟨⟨s', rest⟩, later⟩)
    · intro good
      obtain ⟨mid, stepped, here⟩ := iff.mpr good.1
      obtain ⟨⟨s', rest⟩, later⟩ :=
        (ih (keeps s e mid initial each.1 stepped) here (each.2 mid stepped)).mpr (good.2 mid stepped)
      refine ⟨⟨s', by rw [run_cons, stepped]; exact rest⟩, holds, ?_⟩
      intro other same
      cases stepped.symm.trans same
      exact later

/-- Two systems that are given the same operations: steps that keep them related, when they
    are issued as the second one asks for, relate the runs. -/
theorem run_simulates {τ : Type*} {stepT : τ → ε → Option τ} {R : σ → τ → Prop} {Q : τ → ε → Prop}
    (simulates : ∀ s t e, R s t → Q t e → ∃ s' t', step s e = some s' ∧ stepT t e = some t' ∧ R s' t')
    {s : σ} {t : τ} {es : List ε} (related : R s t) (each : Each stepT Q t es) :
    ∃ s' t', run step s es = some s' ∧ run stepT t es = some t' ∧ R s' t' := by
  induction es generalizing s t with
  | nil => exact ⟨s, t, rfl, rfl, related⟩
  | cons e es ih =>
    obtain ⟨mid, midT, stepped, steppedT, kept⟩ := simulates s t e related each.1
    obtain ⟨s', t', rest, restT, last⟩ := ih kept (each.2 midT steppedT)
    exact ⟨s', t', by rw [run_cons, stepped]; exact rest, by rw [run_cons, steppedT]; exact restT, last⟩

end TcpLearn.Runs
