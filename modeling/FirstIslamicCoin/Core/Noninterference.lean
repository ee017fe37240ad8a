import Mathlib

/-!
# Noninterference

A machine takes events in turn and answers each with an output.  The events of
one party are isolated when its outputs, along any interleaving with the events
of others, are those of its own events alone.  An unwinding relation proves it:
own events keep related states related and answer them alike, and any other
event keeps the state related to where it was.
-/

namespace FirstIslamicCoin.Noninterference

variable {State Event Output : Type}

/-- Each event with the output it is answered by. -/
def trace (step : State → Event → State × Output) :
    State → List Event → List (Event × Output)
  | _, [] => []
  | state, event :: events =>
      (event, (step state event).2) :: trace step (step state event).1 events

def after (step : State → Event → State × Output) (state : State)
    (events : List Event) : State :=
  events.foldl (fun current event => (step current event).1) state

/-- The outputs of own events do not depend on the other events. -/
def Isolated (step : State → Event → State × Output) (start : State)
    (own : Event → Bool) : Prop :=
  ∀ events, (trace step start events).filter (fun answer => own answer.1) =
    trace step start (events.filter own)

variable {step : State → Event → State × Output} {start : State} {own : Event → Bool}

theorem trace_append (state : State) (earlier later : List Event) :
    trace step state (earlier ++ later) =
      trace step state earlier ++ trace step (after step state earlier) later := by
  induction earlier generalizing state with
  | nil => rfl
  | cons event earlier ih =>
    rw [List.cons_append, trace, trace, ih, List.cons_append]
    rfl

/-- An unwinding relation proves isolation. -/
theorem isolated_of_unwinding (related : State → State → Prop) (hstart : related start start)
    (hown : ∀ left right event, own event = true → related left right →
      related (step left event).1 (step right event).1 ∧
        (step left event).2 = (step right event).2)
    (hother : ∀ left right event, own event = false → related left right →
      related (step left event).1 right) :
    Isolated step start own := by
  suffices hgeneral : ∀ events left right, related left right →
      (trace step left events).filter (fun answer => own answer.1) =
        trace step right (events.filter own) from
    fun events => hgeneral events start start hstart
  intro events
  induction events with
  | nil => intro _ _ _; rfl
  | cons event events ih =>
    intro left right hrelated
    cases hevent : own event with
    | false =>
      simp only [trace, List.filter_cons, hevent, Bool.false_eq_true, if_false]
      exact ih _ _ (hother left right event hevent hrelated)
    | true =>
      obtain ⟨hnext, houtput⟩ := hown left right event hevent hrelated
      simp only [trace, List.filter_cons, hevent, if_true, houtput]
      rw [ih _ _ hnext]

/-- Under isolation, an own event is answered as if no other had come before. -/
theorem Isolated.output_eq (hisolated : Isolated step start own)
    (events : List Event) (event : Event) (hevent : own event = true) :
    (step (after step start events) event).2 =
      (step (after step start (events.filter own)) event).2 := by
  have hbefore := hisolated events
  have hall := hisolated (events ++ [event])
  rw [List.filter_append, trace_append, trace_append, List.filter_append, hbefore] at hall
  simpa [trace, hevent] using hall

end FirstIslamicCoin.Noninterference
