import Mathlib

/-!
# Computations that may fail

Validation code is a sequence of tests, each of which may stop the run with an
error value.  These lemmas turn a successful run of such a sequence into the
facts its tests established, and carry an invariant or a relation through a
loop whose body may fail.
-/

namespace FirstIslamicCoin.Outcome

variable {ε α β γ : Type}

/-- Continue when `condition` holds and stop with `failure` otherwise. -/
def require (condition : Bool) (failure : ε) : Except ε Unit :=
  if condition then .ok () else .error failure

@[simp]
theorem require_true (failure : ε) : require true failure = .ok () := rfl

@[simp]
theorem require_false (failure : ε) :
    require false failure = .error failure := rfl

@[simp]
theorem require_eq_ok {condition : Bool} {failure : ε} {result : Unit} :
    require condition failure = .ok result ↔ condition = true := by
  cases condition <;> simp [require]

variable {first : Except ε α}

theorem bind_eq_ok {next : α → Except ε β} {result : β} :
    first >>= next = .ok result ↔
      ∃ value, first = .ok value ∧ next value = .ok result := by
  cases first with
  | error failure => simp [bind, Except.bind]
  | ok value => simp [bind, Except.bind]

/-- A computation run for its tests alone has only one result. -/
theorem exists_unit {property : Unit → Prop} :
    (∃ value, property value) ↔ property () := by
  constructor
  · rintro ⟨⟨⟩, hproperty⟩
    exact hproperty
  · intro hproperty
    exact ⟨(), hproperty⟩

@[simp]
theorem pure_eq_ok {value result : α} :
    (pure value : Except ε α) = .ok result ↔ value = result := by
  simp [pure, Except.pure]

@[simp]
theorem ok_bind (value : α) (next : α → Except ε β) :
    (Except.ok value >>= next) = next value := rfl

@[simp]
theorem error_bind (failure : ε) (next : α → Except ε β) :
    (Except.error failure >>= next) = .error failure := rfl

/-- A successful test in front of a computation can be dropped, and what it
tested is known. -/
theorem require_bind_eq_ok {condition : Bool} {failure : ε}
    {next : Unit → Except ε β} {result : β} :
    require condition failure >>= next = .ok result ↔
      condition = true ∧ next () = .ok result := by
  cases condition <;> simp

theorem mapError_eq_ok {δ : Type} {rename : ε → δ} {result : α} :
    first.mapError rename = .ok result ↔ first = .ok result := by
  cases first <;> simp [Except.mapError]

theorem isOk_iff_exists :
    first.isOk = true ↔ ∃ value, first = .ok value := by
  cases first <;> simp [Except.isOk, Except.toBool]

theorem toOption_eq_some {value : α} : first.toOption = some value ↔ first = .ok value := by
  cases first <;> simp [Except.toOption]

/-- A list is converted item by item. -/
theorem mapM_eq_ok {body : α → Except ε β} {items : List α} {results : List β} :
    items.mapM body = .ok results ↔
      List.Forall₂ (fun item result => body item = .ok result) items results := by
  induction items generalizing results with
  | nil => rw [List.mapM_nil, pure_eq_ok, List.forall₂_nil_left_iff, eq_comm]
  | cons item items ih =>
    simp only [List.mapM_cons, bind_eq_ok, pure_eq_ok, ih, List.forall₂_cons_left_iff]
    constructor
    · rintro ⟨first, hfirst, rest, hrest, rfl⟩
      exact ⟨first, rest, hfirst, hrest, rfl⟩
    · rintro ⟨first, rest, hfirst, hrest, rfl⟩
      exact ⟨first, hfirst, rest, hrest, rfl⟩

theorem exists_mapM_eq_ok {body : α → Except ε β} {items : List α} :
    (∃ results, items.mapM body = .ok results) ↔
      ∀ item ∈ items, ∃ result, body item = .ok result := by
  simp only [mapM_eq_ok]
  induction items with
  | nil => exact ⟨fun _ => nofun, fun _ => ⟨[], .nil⟩⟩
  | cons item items ih =>
    rw [List.forall_mem_cons, ← ih]
    constructor
    · rintro ⟨_, hfirst | ⟨hfirst, hrest⟩⟩
      exact ⟨⟨_, hfirst⟩, _, hrest⟩
    · rintro ⟨⟨first, hfirst⟩, rest, hrest⟩
      exact ⟨first :: rest, .cons hfirst hrest⟩

theorem mapM_congr {body other : α → Except ε β} {items : List α}
    (hsame : ∀ item ∈ items, body item = other item) : items.mapM body = items.mapM other := by
  induction items with
  | nil => rfl
  | cons item items ih =>
    obtain ⟨hfirst, hrest⟩ := List.forall_mem_cons.mp hsame
    rw [List.mapM_cons, List.mapM_cons, hfirst, ih hrest]

section Loop

variable {body : β → α → Except ε β}

/-- A loop over `items` whose body may fail. -/
def loop (body : β → α → Except ε β) : β → List α → Except ε β
  | state, [] => .ok state
  | state, item :: items => do
      let next ← body state item
      loop body next items

@[simp]
theorem loop_nil (state : β) : loop body state [] = .ok state := rfl

variable {items : List α}

theorem loop_cons_eq_ok {state final : β} {item : α} :
    loop body state (item :: items) = .ok final ↔
      ∃ next, body state item = .ok next ∧ loop body next items = .ok final := by
  rw [loop, bind_eq_ok]

/-- A state invariant kept by every successful pass holds after the loop. -/
theorem loop_invariant (invariant : β → Prop)
    (hstep : ∀ item ∈ items, ∀ state next, invariant state →
      body state item = .ok next → invariant next) {state final : β} (hinitial : invariant state)
    (hrun : loop body state items = .ok final) : invariant final := by
  induction items generalizing state with
  | nil =>
    obtain rfl : state = final := by simpa using hrun
    exact hinitial
  | cons item items ih =>
    obtain ⟨next, hbody, hrest⟩ := loop_cons_eq_ok.mp hrun
    have hnext : invariant next := hstep item List.mem_cons_self state next hinitial hbody
    exact ih (fun other hmem => hstep other (List.mem_cons_of_mem _ hmem)) hnext hrest

theorem loop_append {first second : List α} {state : β} :
    loop body state (first ++ second) =
      (loop body state first >>= fun next => loop body next second) := by
  induction first generalizing state with
  | nil => rfl
  | cons item items ih =>
    rw [List.cons_append, loop, loop]
    cases body state item with
    | error failure => rfl
    | ok next => exact ih

/-- Two loops whose bodies agree on every state an invariant allows give the
same outcome, errors included. -/
theorem loop_congr {other : β → α → Except ε β} (invariant : List α → β → Prop)
    (hagree : ∀ item items state, invariant (item :: items) state →
      body state item = other state item)
    (hstep : ∀ item items state next, invariant (item :: items) state →
      body state item = .ok next → invariant items next) {state : β}
    (hinitial : invariant items state) :
    loop body state items = loop other state items := by
  induction items generalizing state with
  | nil => rfl
  | cons item items ih =>
    rw [loop, loop, ← hagree item items state hinitial]
    cases hbody : body state item with
    | error failure => rfl
    | ok next => exact ih (hstep item items state next hinitial hbody)

/-- A successful loop is a successful loop of another body when every pass
under an invariant is. -/
theorem loop_transfer {other : β → α → Except ε β} (invariant : List α → β → Prop)
    (hstep : ∀ item items state next, invariant (item :: items) state →
      body state item = .ok next →
        invariant items next ∧ other state item = .ok next) {state final : β}
    (hinitial : invariant items state) (hrun : loop body state items = .ok final) :
    loop other state items = .ok final := by
  induction items generalizing state with
  | nil => exact hrun
  | cons item items ih =>
    obtain ⟨next, hbody, hrest⟩ := loop_cons_eq_ok.mp hrun
    obtain ⟨hnext, hother⟩ := hstep item items state next hinitial hbody
    exact loop_cons_eq_ok.mpr ⟨next, hother, ih hnext hrest⟩

end Loop

end FirstIslamicCoin.Outcome
