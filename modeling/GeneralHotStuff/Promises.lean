-- The promises of `promise.hpp`, which the message handlers are written with. What the code
-- around them does is left open: whenever it runs, also inside a callback, it may call any
-- of their functions, return or throw.
import Mathlib.Logic.Function.Basic
import GeneralHotStuff.Transitions

namespace general_hotstuff.promise

variable {V F : Type}

/-! ## Promises and callbacks -/

/-- How a promise is settled. -/
inductive Side where
  | fulfilled
  | rejected
  deriving DecidableEq

/-- A `pm_any_t`: the results of `all` are one, too. -/
inductive Any (V : Type) where
  | empty
  | of (v : V)
  | values (results : List (Any V))

/-- A function given to `then`: one of the caller, the one with which `all` fills in a result, or
one that hands what it gets on to `npm`. -/
inductive Func (F : Type) where
  | user (f : F)
  | fill (join idx : ℕ)
  | settle (npm : ℕ) (side : Side)

/-- A `callback_t`. It settles the promise that `then` has returned after `func`, which is not there
where `then` was given a function for the other side only. -/
structure Callback (F : Type) where
  func : Option (Func F)
  npm : ℕ

/-- `state` is `none` as long as the promise is pending. `any` is `result` and `reason`. -/
structure Promise (V F : Type) where
  state : Option Side
  any : Side → Any V
  callbacks : Side → List (Callback F)

/-- What the functions of one `all` share. -/
structure Join (V : Type) where
  size : ℕ
  results : List (Any V)
  npm : ℕ

/-- A call that has not returned: a function of the caller, whose return settles `npm`, a call of
`resolve` or `reject` that comes next, the loop over the callbacks of a promise, with those that
are left, and the loop of `all`. -/
inductive Frame (V F : Type) where
  | user (side : Side) (npm : ℕ)
  | settle (pm : ℕ) (side : Side) (v : Option (Any V))
  | fire (pm : ℕ) (side : Side) (cbs : List (Callback F))
  | all (join idx : ℕ) (pms : List ℕ)

def Frame.isUser : Frame V F → Bool
  | .user .. => true
  | _ => false

/-- A callback that has run, and what it was given. -/
structure Ran (V F : Type) where
  callback : Callback F
  side : Side
  arg : Any V

/-- Promises and joins are numbered as they are made. The innermost call is the head of `stack`. -/
structure Machine (V F : Type) where
  promises : ℕ → Promise V F
  next : ℕ
  joins : ℕ → Join V
  next_join : ℕ
  stack : List (Frame V F)
  ran : List (Ran V F)

/-- What `then` and `fail` are given. -/
inductive Handlers (F : Type) where
  | both (on_fulfilled on_rejected : F)
  | fulfilled (on_fulfilled : F)
  | rejected (on_rejected : F)

def Handlers.on : Handlers F → Side → Option (Func F)
  | .both f _, .fulfilled => some (.user f)
  | .both _ r, .rejected => some (.user r)
  | .fulfilled f, .fulfilled => some (.user f)
  | .rejected r, .rejected => some (.user r)
  | _, _ => none

def Join.fill (j : Join V) (idx : ℕ) (result : Any V) : Join V :=
  { j with
    size := j.size - 1
    results := j.results.set idx result }

/-- What a function of the caller returns. -/
inductive Ret (V : Type) where
  | void
  | any (v : Any V)
  | pm (pm : ℕ)

/-- `return_` and `throw` are those of a callback. -/
inductive Event (V F : Type) where
  | tick
  | promise_t
  | settle (pm : ℕ) (side : Side) (v : Option (Any V))
  | then_ (pm : ℕ) (handlers : Handlers F)
  | all (pms : List ℕ)
  | return_ (ret : Ret V)
  | throw

namespace Machine

def start : Machine V F :=
  { promises := fun _ => ⟨none, fun _ => .empty, fun _ => []⟩
    next := 0
    joins := fun _ => ⟨0, [], 0⟩
    next_join := 0
    stack := []
    ran := [] }

/-! ## Settling -/

/-- The loop runs over the callbacks that are there when the promise is settled. -/
def settle (pm : ℕ) (side : Side) (v : Option (Any V)) (s : Machine V F) : Machine V F :=
  let p := s.promises pm
  if p.state = none then
    { s with
      promises := Function.update s.promises pm
        { p with
          state := some side
          any := v.elim p.any (Function.update p.any side) }
      stack := .fire pm side (p.callbacks side) :: s.stack }
  else s

/-- The loop is over: its list is cleared, and the other one stays. -/
def clear (pm : ℕ) (side : Side) (s : Machine V F) : Machine V F :=
  let p := s.promises pm
  { s with
    promises := Function.update s.promises pm
      { p with callbacks := Function.update p.callbacks side [] } }

/-- The joins after a call of the function. -/
def filled (func : Option (Func F)) (arg : Any V) (s : Machine V F) : ℕ → Join V :=
  match func with
  | some (.fill join idx) => Function.update s.joins join ((s.joins join).fill idx arg)
  | _ => s.joins

/-- What comes next in a callback. After a function without a result `npm` is settled without a
value. -/
def frames (cb : Callback F) (side : Side) (arg : Any V) (s : Machine V F) : List (Frame V F) :=
  match cb.func with
  | none => [.settle cb.npm side (some arg)]
  | some (.user _) => [.user side cb.npm]
  | some (.settle npm side') => [.settle npm side' (some arg), .settle cb.npm side none]
  | some (.fill join idx) =>
    let j := (s.joins join).fill idx arg
    if j.size = 0 then
      [.settle j.npm .fulfilled (some (.values j.results)), .settle cb.npm side none]
    else [.settle cb.npm side none]

def run (cb : Callback F) (side : Side) (arg : Any V) (s : Machine V F) : Machine V F :=
  { s with
    joins := s.filled cb.func arg
    stack := s.frames cb side arg ++ s.stack
    ran := s.ran ++ [⟨cb, side, arg⟩] }

/-- `then` and `fail`: the callbacks are added to a promise that is pending, and otherwise the one
for its side runs at once. -/
def register (pm : ℕ) (on : Side → Option (Func F)) (s : Machine V F) : Machine V F :=
  let p := s.promises pm
  let s1 := { s with next := s.next + 1 }
  match p.state with
  | none =>
    { s1 with
      promises := Function.update s.promises pm
        { p with callbacks := fun side => p.callbacks side ++ [⟨on side, s.next⟩] } }
  | some side => s1.run ⟨on side, s.next⟩ side (p.any side)

/-- The functions that hand on what a promise is settled with. -/
def hand_on (npm : ℕ) (side : Side) : Option (Func F) := some (.settle npm side)

/-- The functions that `all` gives to the promise at `idx`. -/
def part (join idx npm : ℕ) : Side → Option (Func F)
  | .fulfilled => some (.fill join idx)
  | .rejected => some (.settle npm .rejected)

/-- An empty list makes `all` throw. -/
def all (pms : List ℕ) (s : Machine V F) : Machine V F :=
  if pms = [] then { s with next := s.next + 1 }
  else
    { s with
      next := s.next + 1
      joins := Function.update s.joins s.next_join
        ⟨pms.length, List.replicate pms.length .empty, s.next⟩
      next_join := s.next_join + 1
      stack := .all s.next_join 0 pms :: s.stack }

/-! ## Steps -/

/-- The next thing that these functions do on their own. -/
def tick (s : Machine V F) : Option (Machine V F) :=
  match s.stack with
  | .settle pm side v :: st => some ({ s with stack := st }.settle pm side v)
  | .fire pm side [] :: st => some ({ s with stack := st }.clear pm side)
  | .fire pm side (cb :: cbs) :: st =>
    some ({ s with stack := .fire pm side cbs :: st }.run cb side ((s.promises pm).any side))
  | .all _ _ [] :: st => some { s with stack := st }
  | .all join idx (pm :: pms) :: st =>
    some ({ s with stack := .all join (idx + 1) pms :: st }.register pm
      (part join idx (s.joins join).npm))
  | _ => none

/-- A function that throws ends the loops around it, up to the caller. -/
def unwind (s : Machine V F) : Machine V F :=
  { s with stack := s.stack.dropWhile fun frame => !frame.isUser }

/-- A callback of the caller returns. -/
def return_ (side : Side) (npm : ℕ) (s : Machine V F) : Ret V → Machine V F
  | .void => s.settle npm side none
  | .any v => s.settle npm side (some v)
  | .pm q => s.register q (hand_on npm)

/-- The caller runs: the event loop, or one of the callbacks. -/
def Control (s : Machine V F) : Bool := s.stack.head?.all Frame.isUser

/-- Nobody has a promise before it is made. -/
def Given (s : Machine V F) : Event V F → Bool
  | .settle pm _ _ => pm < s.next
  | .then_ pm _ => pm < s.next
  | .all pms => pms.all (· < s.next)
  | .return_ (.pm q) => q < s.next
  | _ => true

/-- What the caller does. What throws outside of a callback ends in the event loop. -/
def act (s : Machine V F) (e : Event V F) : Option (Machine V F) :=
  match e, s.stack with
  | .promise_t, _ => some { s with next := s.next + 1 }
  | .settle pm side v, _ => some (s.settle pm side v)
  | .then_ pm handlers, _ => some (s.register pm handlers.on)
  | .all pms, _ => some (s.all pms)
  | .return_ ret, .user side npm :: st => some ({ s with stack := st }.return_ side npm ret)
  | .throw, .user _ _ :: st => some { s with stack := st }.unwind
  | _, _ => none

def step (s : Machine V F) : Event V F → Option (Machine V F)
  | .tick => s.tick
  | e => if s.Control && s.Given e then s.act e else none

end Machine

end general_hotstuff.promise
