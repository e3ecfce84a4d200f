import Mathlib.Logic.Basic

/-! Computations that may throw and keep their state when they do: how they run in sequence, and
conditions on both ways they can end. -/

namespace TorrentPeer.Outcome

variable {ε σ α β : Type}

theorem bind_run {first : EStateM ε σ α} {rest : α → EStateM ε σ β} {state next : σ} {value : α}
    (done : first state = .ok value next) : (first >>= rest) state = rest value next := by
  simp only [bind, EStateM.bind, done]

theorem bind_throw {first : EStateM ε σ α} {rest : α → EStateM ε σ β} {state next : σ} {problem : ε}
    (thrown : first state = .error problem next) : (first >>= rest) state = .error problem next := by
  simp only [bind, EStateM.bind, thrown]

def Ends (good : α → σ → Prop) (bad : ε → σ → Prop) : EStateM.Result ε σ α → Prop
  | .ok value state => good value state
  | .error problem state => bad problem state

variable {good : α → σ → Prop} {bad : ε → σ → Prop}

theorem Ends.weaken {wider : α → σ → Prop} {worse : ε → σ → Prop} {result : EStateM.Result ε σ α}
    (ends : Ends good bad result) (returns : ∀ value state, good value state → wider value state)
    (throws : ∀ problem state, bad problem state → worse problem state) : Ends wider worse result := by
  cases result with
  | ok value state => exact returns value state ends
  | error problem state => exact throws problem state ends

theorem Ends.bind {first : EStateM ε σ α} {rest : α → EStateM ε σ β} {state : σ} {last : β → σ → Prop}
    (begun : Ends (fun value next => Ends last bad (rest value next)) bad (first state)) :
    Ends last bad ((first >>= rest) state) := by
  cases ran : first state with
  | ok value next =>
    rw [ran] at begun
    rw [bind_run ran]
    exact begun
  | error problem next =>
    rw [ran] at begun
    rw [bind_throw ran]
    exact begun

section Fuel

/-- From `enough` on, more fuel changes nothing, and the result is not that of running out. -/
def Settles (out : ε) (run : Nat → Except ε α) (enough : Nat) : Prop :=
  ∃ result, result ≠ .error out ∧ ∀ fuel, enough ≤ fuel → run fuel = result

variable {out : ε} {run : Nat → Except ε α} {enough : Nat}

theorem Settles.constant {result : Except ε α} (decided : result ≠ .error out) (enough : Nat) :
    Settles out (fun _ => result) enough :=
  ⟨result, decided, fun _ _ => rfl⟩

theorem Settles.widen (settles : Settles out run enough) {more : Nat} (wider : enough ≤ more) :
    Settles out run more := by
  obtain ⟨result, decided, same⟩ := settles
  exact ⟨result, decided, fun fuel above => same fuel (Nat.le_trans wider above)⟩

theorem Settles.enter {inner : Nat → Except ε α} (settles : Settles out inner enough)
    (unfolds : ∀ fuel, run (fuel + 1) = inner fuel) : Settles out run (enough + 1) := by
  obtain ⟨result, decided, same⟩ := settles
  refine ⟨result, decided, ?_⟩
  intro fuel above
  obtain ⟨rest, spent⟩ := Nat.exists_eq_add_of_le above
  have split : fuel = enough + rest + 1 := by omega
  rw [split, unfolds]
  exact same _ (Nat.le_add_right _ _)

theorem Settles.bind {rest : Nat → α → Except ε β} (first : Settles out run enough)
    (next : ∀ value, run enough = .ok value → Settles out (fun fuel => rest fuel value) enough) :
    Settles out (fun fuel => run fuel >>= rest fuel) enough := by
  obtain ⟨result, decided, same⟩ := first
  cases result with
  | error problem =>
    refine ⟨.error problem, ?_, ?_⟩
    · intro wrong
      exact decided (congrArg Except.error (Except.error.inj wrong))
    · intro fuel above
      simp only [same fuel above, Bind.bind, Except.bind]
  | ok value =>
    obtain ⟨final, finished, later⟩ := next value (same enough (Nat.le_refl _))
    refine ⟨final, finished, ?_⟩
    intro fuel above
    rw [← later fuel above]
    simp only [same fuel above, Bind.bind, Except.bind]

end Fuel

end TorrentPeer.Outcome
