import FirstIslamicCoin.Core.Interaction

/-!
# Programs beside others

What a program that shares its store does can be said without the programs it runs
beside, once it is known how these may change the store.  `Sustains` states that a
program, whatever changes within `rely` come between its requests, makes only changes
within `guarantee` and is done as wanted.  The rules for sequences and loops are those of
a program that runs alone, and in an interleaving the statement stays true of what is
left of each program as long as the steps of the others are within its `rely`.
-/

namespace FirstIslamicCoin.Program

section Sustains

variable {Failure Request : Type} {Response : Request → Type} {Result Other Item State : Type}
  (answers : State → (request : Request) → Response request → State → Prop)
  (rely guarantee : State → State → Prop)

/-- Beside changes within `rely`, the program makes changes within `guarantee`, and is done
with a result and a state as wanted. -/
def Sustains (post : Result → State → Prop) :
    Program Failure Request Response Result → State → Prop
  | .done result, state => ∀ later, rely state later → post result later
  | .fail _, _ => True
  | .ask request rest, state => ∀ later, rely state later → ∀ response next,
      answers later request response next →
        guarantee later next ∧ (rest response).Sustains post next

variable {answers rely guarantee}

theorem Sustains.mono {post other : Result → State → Prop}
    {program : Program Failure Request Response Result} {state : State}
    (hsustains : program.Sustains answers rely guarantee post state)
    (himplies : ∀ result final, post result final → other result final) :
    program.Sustains answers rely guarantee other state := by
  induction program generalizing state with
  | done result => exact fun later hrely => himplies result later (hsustains later hrely)
  | fail failure => trivial
  | ask request rest ih =>
    intro later hrely response next hanswer
    obtain ⟨hguarantee, hrest⟩ := hsustains later hrely response next hanswer
    exact ⟨hguarantee, ih response hrest⟩

/-- Changes of others leave it true. -/
theorem Sustains.later {post : Result → State → Prop}
    {program : Program Failure Request Response Result} {state later : State}
    (htrans : ∀ first second third, rely first second → rely second third → rely first third)
    (hsustains : program.Sustains answers rely guarantee post state) (hrely : rely state later) :
    program.Sustains answers rely guarantee post later := by
  cases program with
  | done result => exact fun last hlast => hsustains last (htrans _ _ _ hrely hlast)
  | fail failure => trivial
  | ask request rest => exact fun last hlast => hsustains last (htrans _ _ _ hrely hlast)

/-- The second of two programs starts from any state the first may leave. -/
theorem sustains_bind {post : Other → State → Prop}
    {first : Program Failure Request Response Result}
    {next : Result → Program Failure Request Response Other} {state : State}
    (hrefl : ∀ state, rely state state) (hfirst : first.Sustains answers rely guarantee
      (fun result middle => (next result).Sustains answers rely guarantee post middle) state) :
    (first >>= next).Sustains answers rely guarantee post state := by
  induction first generalizing state with
  | done result => exact hfirst state (hrefl state)
  | fail failure => trivial
  | ask request rest ih =>
    intro later hrely response after hanswer
    obtain ⟨hguarantee, hrest⟩ := hfirst later hrely response after hanswer
    exact ⟨hguarantee, ih response hrest⟩

/-- A loop keeps what each pass keeps, on the items still to come. -/
theorem sustains_foldEach (invariant : List Item → Result → State → Prop)
    (hrefl : ∀ state, rely state state)
    (hstable : ∀ items total state later, invariant items total state → rely state later →
      invariant items total later)
    {body : Result → Item → Program Failure Request Response Result}
    (hstep : ∀ item items total state, invariant (item :: items) total state →
      (body total item).Sustains answers rely guarantee (invariant items) state)
    {items : List Item} {total : Result} {state : State} (hinitial : invariant items total state) :
    (foldEach body total items).Sustains answers rely guarantee (invariant []) state := by
  induction items generalizing total state with
  | nil => exact fun later hrely => hstable [] total state later hinitial hrely
  | cons item items ih =>
    exact sustains_bind hrefl
      ((hstep item items total state hinitial).mono fun _ _ hnext => ih hnext)

/-- A loop has reached for every item, at its end, what the pass over it reaches and later
changes keep. -/
theorem sustains_foldEach_forall (goal : Item → State → Prop) (hrefl : ∀ state, rely state state)
    (htrans : ∀ first second third, rely first second → rely second third → rely first third)
    (hkept : ∀ item state later, goal item state → rely state later → goal item later)
    {body : Result → Item → Program Failure Request Response Result} {items : List Item}
    {start : State} (hstep : ∀ item ∈ items, ∀ total state, rely start state →
      (body total item).Sustains answers rely guarantee
        (fun _ final => rely state final ∧ goal item final) state)
    (total : Result) {state : State} (hstate : rely start state) :
    (foldEach body total items).Sustains answers rely guarantee
      (fun _ final => rely start final ∧ ∀ item ∈ items, goal item final) state := by
  -- every item has reached its goal or is still to come
  refine (sustains_foldEach (fun remaining _ current => rely start current ∧
    (∀ item ∈ remaining, item ∈ items) ∧
      ∀ item ∈ items, item ∈ remaining ∨ goal item current)
    hrefl ?_ ?_ ⟨hstate, fun _ hmem => hmem, fun _ hmem => .inl hmem⟩).mono ?_
  · rintro remaining _ current later ⟨hcurrent, hitems, hdone⟩ hlater
    refine ⟨htrans _ _ _ hcurrent hlater, hitems, fun item hmem => ?_⟩
    exact (hdone item hmem).imp_right fun hgoal => hkept item current later hgoal hlater
  · rintro item remaining next current ⟨hcurrent, hitems, hdone⟩
    obtain ⟨hitem, hothers⟩ := List.forall_mem_cons.mp hitems
    refine (hstep item hitem next current hcurrent).mono ?_
    rintro _ final ⟨hfinal, hgoal⟩
    refine ⟨htrans _ _ _ hcurrent hfinal, hothers, fun other hmem => ?_⟩
    rcases hdone other hmem with hcons | hearlier
    · rcases List.mem_cons.mp hcons with rfl | hlater
      · exact .inr hgoal
      · exact .inl hlater
    · exact .inr (hkept other current final hearlier hfinal)
  · rintro _ final ⟨hfinal, _, hdone⟩
    exact ⟨hfinal, fun item hmem => (hdone item hmem).resolve_left List.not_mem_nil⟩

end Sustains

section Threads

variable {Failure Request : Type} {Response : Request → Type} {Result State Client : Type}
  {answers : ℕ → Client → State → (request : Request) → Response request → State → Prop}

theorem getElem?_set_split {Other : Type} {items : List Other} {changed item : Other}
    {position other : ℕ} (hget : (items.set position changed)[other]? = some item) :
    (other = position ∧ item = changed) ∨ (other ≠ position ∧ items[other]? = some item) := by
  rw [List.getElem?_set] at hget
  split_ifs at hget with hsame hlength
  · exact .inl ⟨hsame.symm, (Option.some.inj hget).symm⟩
  · exact .inr ⟨fun heq => hsame heq.symm, hget⟩

/-- What is known of every program after a step: of the one that moves by its request, of
the others by what the step does to the store. -/
theorem Interleaves.forall_threads
    {system next : Interleaving State Client Failure Request Response Result} {label : ℕ × Request}
    {known : ℕ → Thread Client Failure Request Response Result → State → Prop}
    (hstep : Interleaves answers system label next) (hmoves : ∀ client started response
      (rest : Response label.2 → Program Failure Request Response Result) store,
      system.threads[label.1]? = some ⟨client, .ask label.2 rest, started⟩ →
        answers label.1 client system.store label.2 response store →
          known label.1 ⟨client, rest response, true⟩ store ∧
            ∀ other thread, other ≠ label.1 → system.threads[other]? = some thread →
              known other thread store) :
    ∀ position thread, next.threads[position]? = some thread →
      known position thread next.store := by
  cases hstep with
  | intro hget hanswer =>
    obtain ⟨hmoved, hothers⟩ := hmoves _ _ _ _ _ hget hanswer
    intro position thread hthread
    rcases getElem?_set_split hthread with ⟨rfl, rfl⟩ | ⟨hne, hkept⟩
    · exact hmoved
    · exact hothers position thread hne hkept

theorem Interleaves.mono
    {other : ℕ → Client → State → (request : Request) → Response request → State → Prop}
    {system next : Interleaving State Client Failure Request Response Result}
    {label : ℕ × Request} (hstep : Interleaves answers system label next)
    (himplies : ∀ client response store, answers label.1 client system.store label.2 response store →
      other label.1 client system.store label.2 response store) :
    Interleaves other system label next := by
  cases hstep with
  | intro hget hanswer => exact .intro hget (himplies _ _ _ hanswer)

/-- Every program of a system sustains changes of one kind. -/
def AllSustain
    (answers : ℕ → Client → State → (request : Request) → Response request → State → Prop)
    (rely : State → State → Prop) (post : ℕ → Result → State → Prop)
    (system : Interleaving State Client Failure Request Response Result) : Prop :=
  ∀ position (thread : Thread Client Failure Request Response Result),
    system.threads[position]? = some thread →
      thread.program.Sustains (answers position thread.client) rely rely (post position)
        system.store

/-- Programs that sustain changes of one kind go on doing so, and the store has only been
changed in this way. -/
theorem AllSustain.run {rely : State → State → Prop} {post : ℕ → Result → State → Prop}
    (hrefl : ∀ state, rely state state)
    (htrans : ∀ first second third, rely first second → rely second third → rely first third)
    {start system : Interleaving State Client Failure Request Response Result}
    {labels : List (ℕ × Request)} (hstart : AllSustain answers rely post start)
    (hrun : Run (Interleaves answers) start labels system) :
    rely start.store system.store ∧ AllSustain answers rely post system := by
  refine hrun.invariant (fun _ current => rely start.store current.store ∧
    AllSustain answers rely post current) ⟨hrefl _, hstart⟩ ?_
  rintro _ current label next ⟨hcurrent, hthreads⟩ hstep
  have hmoved : rely current.store next.store := by
    cases hstep with
    | intro hget hanswer =>
      exact (hthreads _ _ hget current.store (hrefl _) _ _ hanswer).1
  refine ⟨htrans _ _ _ hcurrent hmoved, hstep.forall_threads ?_⟩
  intro client started response rest store hget hanswer
  obtain ⟨hchange, hrest⟩ := hthreads _ _ hget current.store (hrefl _) response store hanswer
  refine ⟨hrest, fun other thread _ hother => ?_⟩
  exact (hthreads other thread hother).later htrans hchange

end Threads

end FirstIslamicCoin.Program
