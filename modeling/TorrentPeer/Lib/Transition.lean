import Mathlib.Logic.Relation

/-! Deterministic machines driven by an input: runs, reachable states, and the
two induction rules every safety result uses. -/

namespace TorrentPeer.Transition

variable {σ ι : Type} (step : σ → ι → Option σ)

def run (start : σ) : List ι → Option σ
  | [] => some start
  | input :: inputs => (step start input).bind (fun next => run next inputs)

/-- Every state some sequence of inputs leads to from an initial state. -/
inductive Reachable (initial : σ → Prop) : σ → Prop
  | start (state : σ) (begins : initial state) : Reachable initial state
  | next (state after : σ) (input : ι) (earlier : Reachable initial state)
      (moves : step state input = some after) : Reachable initial after

variable {step}

theorem run_append (start : σ) (first second : List ι) :
    run step start (first ++ second) = (run step start first).bind (fun state => run step state second) := by
  induction first generalizing start with
  | nil => rfl
  | cons input inputs ih =>
    simp only [List.cons_append, run, Option.bind_assoc]
    exact congrArg _ (funext ih)

theorem Reachable.invariant {initial : σ → Prop} {good : σ → Prop}
    (base : ∀ state, initial state → good state)
    (preserved : ∀ state after input, good state → step state input = some after → good after)
    {state : σ} (reached : Reachable step initial state) : good state := by
  induction reached with
  | start state begins => exact base state begins
  | next state after input _ moves ih => exact preserved state after input ih moves

section Annotations

variable {τ : Type} {wide : τ → ι → Option τ} {initial : σ → Prop} {starts : τ → Prop} (shadow : τ → σ)

/-- A machine that keeps notes of its run reaches no more states than the machine it takes notes of. -/
theorem Reachable.forget (base : ∀ state, starts state → initial (shadow state))
    (follows : ∀ state after input, wide state input = some after → step (shadow state) input = some (shadow after))
    {state : τ} (reached : Reachable wide starts state) : Reachable step initial (shadow state) := by
  induction reached with
  | start state begins => exact .start _ (base state begins)
  | next state after input _ moves ih => exact .next _ _ input ih (follows state after input moves)

theorem Reachable.annotate (base : ∀ state, initial state → ∃ noted, shadow noted = state ∧ starts noted)
    (follows : ∀ noted after input, step (shadow noted) input = some after →
      ∃ next, wide noted input = some next ∧ shadow next = after)
    {state : σ} (reached : Reachable step initial state) :
    ∃ noted, shadow noted = state ∧ Reachable wide starts noted := by
  induction reached with
  | start state begins =>
    obtain ⟨noted, same, fresh⟩ := base state begins
    exact ⟨noted, same, .start noted fresh⟩
  | next state after input _ moves ih =>
    obtain ⟨noted, same, reached⟩ := ih
    rw [← same] at moves
    obtain ⟨next, moved, shown⟩ := follows noted after input moves
    exact ⟨next, shown, .next noted next input reached moved⟩

end Annotations

/-- The states reached by runs all of whose steps meet `allowed`. -/
inductive ReachableWithin (step : σ → ι → Option σ) (initial : σ → Prop)
    (allowed : σ → ι → Prop) : σ → Prop
  | start (state : σ) (begins : initial state) : ReachableWithin step initial allowed state
  | next (state after : σ) (input : ι) (earlier : ReachableWithin step initial allowed state)
      (permitted : allowed state input) (moves : step state input = some after) :
      ReachableWithin step initial allowed after

theorem ReachableWithin.reachable {initial : σ → Prop} {allowed : σ → ι → Prop} {state : σ}
    (reached : ReachableWithin step initial allowed state) : Reachable step initial state := by
  induction reached with
  | start state begins => exact Reachable.start state begins
  | next state after input _ _ moves ih => exact Reachable.next state after input ih moves

theorem ReachableWithin.widen {initial : σ → Prop} {allowed wider : σ → ι → Prop} {state : σ}
    (reached : ReachableWithin step initial allowed state)
    (more : ∀ state input, allowed state input → wider state input) :
    ReachableWithin step initial wider state := by
  induction reached with
  | start state begins => exact .start state begins
  | next state after input _ permitted moves ih => exact .next state after input ih (more state input permitted) moves

theorem Reachable.within {initial : σ → Prop} {allowed : σ → ι → Prop} {state : σ}
    (reached : Reachable step initial state) (all : ∀ state input, allowed state input) :
    ReachableWithin step initial allowed state := by
  induction reached with
  | start state begins => exact .start state begins
  | next state after input _ moves ih => exact .next state after input ih (all state input) moves

theorem Reachable.run {initial : σ → Prop} {state after : σ} {inputs : List ι}
    (reached : Reachable step initial state) (moves : run step state inputs = some after) :
    Reachable step initial after := by
  induction inputs generalizing state with
  | nil =>
    simp only [Transition.run, Option.some.injEq] at moves
    exact moves ▸ reached
  | cons input inputs ih =>
    simp only [Transition.run, Option.bind_eq_some_iff] at moves
    obtain ⟨middle, first, rest⟩ := moves
    exact ih (Reachable.next state middle input reached first) rest

theorem ReachableWithin.run {initial : σ → Prop} {allowed : σ → ι → Prop} {state after : σ} {inputs : List ι}
    (reached : ReachableWithin step initial allowed state)
    (permitted : ∀ state, ∀ input ∈ inputs, allowed state input) (moves : run step state inputs = some after) :
    ReachableWithin step initial allowed after := by
  induction inputs generalizing state with
  | nil =>
    simp only [Transition.run, Option.some.injEq] at moves
    exact moves ▸ reached
  | cons input inputs ih =>
    simp only [Transition.run, Option.bind_eq_some_iff] at moves
    obtain ⟨middle, first, rest⟩ := moves
    exact ih (.next state middle input reached (permitted state input (List.mem_cons_self ..)) first)
      (fun other one member => permitted other one (List.mem_cons_of_mem _ member)) rest

variable (step) in
def guarded (check : σ → ι → Bool) (state : σ) (input : ι) : Option σ :=
  if check state input = true then step state input else none

theorem ReachableWithin.guarded {initial : σ → Prop} {allowed : σ → ι → Prop} {check : σ → ι → Bool}
    {state after : σ} {inputs : List ι} (reached : ReachableWithin step initial allowed state)
    (passes : ∀ state input, check state input = true → allowed state input)
    (moves : Transition.run (Transition.guarded step check) state inputs = some after) :
    ReachableWithin step initial allowed after := by
  induction inputs generalizing state with
  | nil =>
    simp only [Transition.run, Option.some.injEq] at moves
    exact moves ▸ reached
  | cons input inputs ih =>
    simp only [Transition.run, Option.bind_eq_some_iff] at moves
    obtain ⟨middle, first, rest⟩ := moves
    unfold Transition.guarded at first
    split at first
    · rename_i passed
      exact ih (.next state middle input reached (passes state input passed) first) rest
    · cases first

variable (step) in
/-- Some sequence of inputs of the given kind leads from one state to the other. -/
abbrev Reaches (kind : ι → Prop) : σ → σ → Prop :=
  Relation.ReflTransGen (fun state after => ∃ input, kind input ∧ step state input = some after)

theorem Reaches.one {kind : ι → Prop} {state after : σ} (input : ι) (kept : kind input)
    (moves : step state input = some after) : Reaches step kind state after :=
  Relation.ReflTransGen.single ⟨input, kept, moves⟩

theorem Reaches.widen {narrow wide : ι → Prop} (wider : ∀ input, narrow input → wide input)
    {state after : σ} (moves : Reaches step narrow state after) : Reaches step wide state after :=
  Relation.ReflTransGen.mono
    (fun _ _ ⟨input, kept, moved⟩ => ⟨input, wider input kept, moved⟩) state after moves

theorem Reaches.preserves {kind : ι → Prop} {good : σ → Prop}
    (preserved : ∀ state after input, kind input → good state → step state input = some after →
      good after)
    {state after : σ} (moves : Reaches step kind state after) (holds : good state) : good after := by
  induction moves with
  | refl => exact holds
  | tail _ last ih =>
    obtain ⟨input, kept, moves⟩ := last
    exact preserved _ _ input kept ih moves

end TorrentPeer.Transition
