import FirstIslamicCoin.Core.Run

/-!
# Programs that ask a shared store

A program makes one request at a time and goes on with the answer, until it is done
or fails.  Two semantics are given.  Run alone, a program goes from one state of the
store to another; `Ensures` is the weakest condition under which all such runs end as
wanted.  Run together, several programs interleave their requests in any order, each
possibly stopping for good; `Follows` is a discipline for the requests of one
program, a stage at a time, which holds of what is left of the program after any of
its requests.
-/

namespace FirstIslamicCoin

/-- A program with requests, answered at a type that depends on the request. -/
inductive Program (Failure Request : Type) (Response : Request → Type) (Result : Type) : Type
  | done (result : Result)
  | fail (failure : Failure)
  | ask (request : Request)
      (next : Response request → Program Failure Request Response Result)

namespace Program

variable {Failure Request : Type} {Response : Request → Type} {Result Other Item : Type}

protected def bind :
    Program Failure Request Response Result →
      (Result → Program Failure Request Response Other) →
        Program Failure Request Response Other
  | .done result, next => next result
  | .fail failure, _ => .fail failure
  | .ask request rest, next => .ask request fun response => (rest response).bind next

instance : Monad (Program Failure Request Response) where
  pure := .done
  bind := Program.bind

/-- A loop over a list with an accumulator. -/
def foldEach (body : Result → Item → Program Failure Request Response Result) :
    Result → List Item → Program Failure Request Response Result
  | total, [] => .done total
  | total, item :: items => body total item >>= fun next => foldEach body next items

def isRunning : Program Failure Request Response Result → Bool
  | .ask _ _ => true
  | _ => false

section Alone

variable {State : Type}
  (answers : State → (request : Request) → Response request → State → Prop)

/-- A run of a program alone. -/
inductive Finishes :
    State → Program Failure Request Response Result → Except Failure Result → State → Prop
  | done {state : State} {result : Result} : Finishes state (.done result) (.ok result) state
  | fail {state : State} {failure : Failure} :
      Finishes state (.fail failure) (.error failure) state
  | ask {state next final : State} {request : Request} {response : Response request}
      {rest : Response request → Program Failure Request Response Result}
      {outcome : Except Failure Result} :
      answers state request response next → Finishes next (rest response) outcome final →
        Finishes state (.ask request rest) outcome final

/-- Every run of a program alone from a state ends as wanted. -/
def Ensures (post : Except Failure Result → State → Prop) :
    Program Failure Request Response Result → State → Prop
  | .done result, state => post (.ok result) state
  | .fail failure, state => post (.error failure) state
  | .ask request rest, state =>
      ∀ response next, answers state request response next → Ensures post (rest response) next

variable {answers}

theorem Ensures.of_finishes {post : Except Failure Result → State → Prop}
    {program : Program Failure Request Response Result} {state final : State}
    {outcome : Except Failure Result} (hensures : program.Ensures answers post state)
    (hfinishes : Finishes answers state program outcome final) : post outcome final := by
  induction hfinishes with
  | done => exact hensures
  | fail => exact hensures
  | ask hanswer _ ih => exact ih (hensures _ _ hanswer)

variable {state : State} {first : Program Failure Request Response Result}
  {next : Result → Program Failure Request Response Other}
  {body : Result → Item → Program Failure Request Response Result}

theorem Ensures.mono {post other : Except Failure Result → State → Prop}
    {program : Program Failure Request Response Result}
    (hensures : program.Ensures answers post state)
    (himplies : ∀ outcome final, post outcome final → other outcome final) :
    program.Ensures answers other state := by
  induction program generalizing state with
  | done result => exact himplies _ _ hensures
  | fail failure => exact himplies _ _ hensures
  | ask request rest ih =>
    intro response next hanswer
    exact ih response (hensures response next hanswer)

theorem Finishes.bind {state middle final : State} {result : Result}
    {outcome : Except Failure Other} (hfirst : Finishes answers state first (.ok result) middle)
    (hnext : Finishes answers middle (next result) outcome final) :
    Finishes answers state (first >>= next) outcome final := by
  generalize hok : Except.ok result = reached at hfirst
  induction hfirst with
  | done =>
    obtain rfl := Except.ok.inj hok
    exact hnext
  | fail => exact absurd hok nofun
  | ask hanswer _ ih => exact .ask hanswer (ih hnext hok)

/-- What the second of two programs ensures from where the first ends. -/
def andThen (post : Except Failure Other → State → Prop)
    (next : Result → Program Failure Request Response Other)
    (answers : State → (request : Request) → Response request → State → Prop) :
    Except Failure Result → State → Prop
  | .ok result, state => (next result).Ensures answers post state
  | .error failure, state => post (.error failure) state

theorem ensures_bind {post : Except Failure Other → State → Prop}
    (hfirst : first.Ensures answers (andThen post next answers) state) :
    (first >>= next).Ensures answers post state := by
  induction first generalizing state with
  | done result => exact hfirst
  | fail failure => exact hfirst
  | ask request rest ih =>
    intro response after hanswer
    exact ih response (hfirst response after hanswer)

/-- A loop keeps what each pass keeps, on the items still to come. -/
theorem ensures_foldEach (invariant : List Item → Result → State → Prop)
    (failed : Failure → State → Prop)
    (hstep : ∀ item items total state, invariant (item :: items) total state →
      (body total item).Ensures answers (fun outcome final => match outcome with
        | .ok next => invariant items next final
        | .error failure => failed failure final) state) {items : List Item} {total : Result}
    (hinitial : invariant items total state) :
    (foldEach body total items).Ensures answers (fun outcome final => match outcome with
      | .ok last => invariant [] last final
      | .error failure => failed failure final) state := by
  induction items generalizing total state with
  | nil => exact hinitial
  | cons item items ih =>
    refine ensures_bind ((hstep item items total state hinitial).mono ?_)
    intro outcome final hpost
    cases outcome with
    | ok next => exact ih hpost
    | error failure => exact hpost

/-- Every run of a program alone keeps an invariant, however it ends. -/
def Keeps (answers : State → (request : Request) → Response request → State → Prop)
    (invariant : State → Prop) (program : Program Failure Request Response Result) : Prop :=
  ∀ state, invariant state → program.Ensures answers (fun _ final => invariant final) state

variable {invariant : State → Prop}

theorem keeps_done (result : Result) :
    Keeps answers invariant (.done result : Program Failure Request Response Result) :=
  fun _ hstate => hstate

theorem keeps_fail (failure : Failure) :
    Keeps answers invariant (.fail failure : Program Failure Request Response Result) :=
  fun _ hstate => hstate

theorem keeps_ask {request : Request}
    {rest : Response request → Program Failure Request Response Result}
    (hanswer : ∀ state response next, invariant state → answers state request response next →
      invariant next)
    (hrest : ∀ response, Keeps answers invariant (rest response)) :
    Keeps answers invariant (.ask request rest) :=
  fun state hstate response next hasked =>
    hrest response next (hanswer state response next hstate hasked)

theorem keeps_bind (hfirst : Keeps answers invariant first)
    (hnext : ∀ result, Keeps answers invariant (next result)) :
    Keeps answers invariant (first >>= next) := by
  intro state hstate
  refine ensures_bind ((hfirst state hstate).mono ?_)
  intro outcome final hfinal
  cases outcome with
  | ok result => exact hnext result final hfinal
  | error failure => exact hfinal

theorem keeps_foldEach {items : List Item}
    (hbody : ∀ item ∈ items, ∀ total, Keeps answers invariant (body total item)) (total : Result) :
    Keeps answers invariant (foldEach body total items) := by
  induction items generalizing total with
  | nil => exact keeps_done total
  | cons item items ih =>
    obtain ⟨hfirst, hothers⟩ := List.forall_mem_cons.mp hbody
    exact keeps_bind (hfirst total) fun next => ih hothers next

/-- A loop that comes to its end has reached what the pass over one of its items reaches
and the passes over all of them keep. -/
theorem ensures_foldEach_reaches {goal : State → Prop} {items : List Item}
    (hkeeps : ∀ item ∈ items, ∀ total, Keeps answers invariant (body total item))
    (hgoal : ∀ item ∈ items, ∀ total,
      Keeps answers (fun state => invariant state ∧ goal state) (body total item)) {wanted : Item}
    (hwanted : wanted ∈ items)
    (hreaches : ∀ total state, invariant state → (body total wanted).Ensures answers
      (fun outcome final => ∀ result, outcome = .ok result → invariant final ∧ goal final) state)
    (total : Result) (hstate : invariant state) :
    (foldEach body total items).Ensures answers
      (fun outcome final => ∀ result, outcome = .ok result → invariant final ∧ goal final)
      state := by
  induction items generalizing total state with
  | nil => exact absurd hwanted List.not_mem_nil
  | cons item items ih =>
    obtain ⟨hfirst, hothers⟩ := List.forall_mem_cons.mp hkeeps
    obtain ⟨_, hlater⟩ := List.forall_mem_cons.mp hgoal
    rcases List.mem_cons.mp hwanted with rfl | hrest
    · refine ensures_bind ((hreaches total state hstate).mono ?_)
      intro outcome final hfinal
      cases outcome with
      | error failure => exact fun _ hfailed => absurd hfailed nofun
      | ok next =>
        refine (keeps_foldEach hlater next final (hfinal next rfl)).mono ?_
        exact fun _ _ hlast _ _ => hlast
    · refine ensures_bind ((hfirst total state hstate).mono ?_)
      intro outcome final hfinal
      cases outcome with
      | error failure => exact fun _ hfailed => absurd hfailed nofun
      | ok next => exact ih hothers hlater hrest next hfinal

end Alone

section Together

variable {State Stage Client : Type}

/-- A discipline: the requests a program may make at a stage, the answers it may
expect, and the stage after an answer. -/
structure Discipline (Request : Type) (Response : Request → Type) (Stage : Type) where
  allowed : Stage → Request → Prop
  expected : (request : Request) → Response request → Prop
  advance : Stage → (request : Request) → Response request → Stage

/-- The program keeps to a discipline from a stage on, and is done at a result and a
stage as wanted. -/
def Follows (discipline : Discipline Request Response Stage) (post : Result → Stage → Prop) :
    Program Failure Request Response Result → Stage → Prop
  | .done result, stage => post result stage
  | .fail _, _ => True
  | .ask request rest, stage => discipline.allowed stage request ∧
      ∀ response, discipline.expected request response →
        (rest response).Follows discipline post (discipline.advance stage request response)

variable {discipline : Discipline Request Response Stage}

variable {stage : Stage}

theorem Follows.mono {post other : Result → Stage → Prop}
    {program : Program Failure Request Response Result}
    (hfollows : program.Follows discipline post stage)
    (himplies : ∀ result last, post result last → other result last) :
    program.Follows discipline other stage := by
  induction program generalizing stage with
  | done result => exact himplies _ _ hfollows
  | fail failure => trivial
  | ask request rest ih =>
    refine ⟨hfollows.1, fun response hexpected => ?_⟩
    exact ih response (hfollows.2 response hexpected)

theorem follows_bind {post : Other → Stage → Prop} {first : Program Failure Request Response Result}
    {next : Result → Program Failure Request Response Other} (hfirst : first.Follows discipline
      (fun result last => (next result).Follows discipline post last) stage) :
    (first >>= next).Follows discipline post stage := by
  induction first generalizing stage with
  | done result => exact hfirst
  | fail failure => trivial
  | ask request rest ih =>
    refine ⟨hfirst.1, fun response hexpected => ?_⟩
    exact ih response (hfirst.2 response hexpected)

/-- A loop keeps to a discipline when each pass does, on the items still to come. -/
theorem follows_foldEach (invariant : List Item → Result → Stage → Prop)
    {body : Result → Item → Program Failure Request Response Result}
    (hstep : ∀ item items total stage, invariant (item :: items) total stage →
      (body total item).Follows discipline (invariant items) stage) {items : List Item}
    {total : Result} (hinitial : invariant items total stage) :
    (foldEach body total items).Follows discipline (invariant []) stage := by
  induction items generalizing total stage with
  | nil => exact hinitial
  | cons item items ih =>
    exact follows_bind ((hstep item items total stage hinitial).mono fun _ _ hnext => ih hnext)

/-- Run alone, a program that keeps to a discipline keeps what the requests it is allowed
keep. -/
theorem Follows.keeps {post : Result → Stage → Prop} {invariant : State → Prop}
    {answers : State → (request : Request) → Response request → State → Prop}
    {program : Program Failure Request Response Result}
    (hfollows : program.Follows discipline post stage)
    (hanswer : ∀ stage state request response next, discipline.allowed stage request →
      invariant state → answers state request response next →
        discipline.expected request response ∧ invariant next) :
    Keeps answers invariant program := by
  induction program generalizing stage with
  | done result => exact keeps_done result
  | fail failure => exact keeps_fail failure
  | ask request rest ih =>
    intro state hstate response next hasked
    obtain ⟨hexpected, hnext⟩ := hanswer stage state request response next hfollows.1 hstate hasked
    exact ih response (hfollows.2 response hexpected) next hnext

/-- A program in the middle of its run, with who runs it. -/
structure Thread (Client Failure Request : Type) (Response : Request → Type) (Result : Type) where
  client : Client
  program : Program Failure Request Response Result
  started : Bool

/-- Programs over one shared store. -/
structure Interleaving (State Client Failure Request : Type) (Response : Request → Type)
    (Result : Type) where
  threads : List (Thread Client Failure Request Response Result)
  store : State

variable (answers : ℕ → Client → State → (request : Request) → Response request → State → Prop)

/-- One of the programs makes its next request.  The label is its position and the
request. -/
inductive Interleaves :
    Interleaving State Client Failure Request Response Result → ℕ × Request →
      Interleaving State Client Failure Request Response Result → Prop
  | intro {system : Interleaving State Client Failure Request Response Result} {position : ℕ}
      {client : Client} {started : Bool} {request : Request} {response : Response request}
      {rest : Response request → Program Failure Request Response Result} {store : State} :
      system.threads[position]? = some ⟨client, .ask request rest, started⟩ →
      answers position client system.store request response store →
        Interleaves system (position, request)
          ⟨system.threads.set position ⟨client, rest response, true⟩, store⟩

end Together

end Program

end FirstIslamicCoin
