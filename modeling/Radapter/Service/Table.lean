import Radapter.Library.Assoc
import Radapter.Library.Runs
import Mathlib.Algebra.Order.Ring.Nat
import Mathlib.Data.List.Perm.Basic
import Mathlib.Data.Int.Notation
import Mathlib.Logic.Function.Basic

/-!
# The table of a service

`make_service` sends requests with ids of its own and keeps a table of those that wait for a
response. A response with the id of a request in the table removes it and calls its callback; a
timer counts the time down, and sweeps the requests whose time has run out. Callbacks are code of
the script: they may send requests, cause responses or be suspended while other events are
processed, so that every fiber has a control stack and any of them may take the next step.
-/

namespace Radapter.Service

open Library

/-! ## Data -/

/-- An entry of `reqs`. Callbacks are named by the number of the call of `next_id` that gave the
request its id; a callback that is nil is one that raises. -/
structure Request where
  timeout : ℤ
  cb : ℕ
deriving DecidableEq, Repr

/-- What a callback is called with: a message, of which `id` is noted, or `(nil, err)`. -/
inductive Reply where
  | msg (id : ℕ)
  | err (text : String)
deriving DecidableEq, Repr

/-- What a fiber is in the middle of. -/
inductive Frame where
  /-- Code of the script. -/
  | script
  /-- A `pcall` of the script, or the listener of a pipe. -/
  | pcall
  /-- The second loop of the timer, about to process these ids of `toRemove`. -/
  | sweep (toRemove : List ℕ)
deriving DecidableEq, Repr

/-- What happens to requests. An invocation notes how many ids had been issued. -/
inductive Event where
  | requested (k : ℕ)
  | expired (k : ℕ)
  | invoked (k : ℕ) (r : Reply) (issued : ℕ)
  | warn (text : String) (id : Option ℕ)
  | error (text : String)
deriving DecidableEq, Repr

/-- The table, the calls of `next_id` so far, the control stack of each fiber (the top first), and
the events so far. -/
structure State where
  reqs : List (ℕ × Request)
  issued : ℕ
  fibers : ℕ → List Frame
  log : List Event

/-- A new service; `next_id` may have been called before. -/
def init (issued : ℕ) : State where
  reqs := []
  issued := issued
  fibers := fun _ => []
  log := []

/-! ## Parts of a step -/

def check_delta : ℤ := 500

def timeoutError : Reply := .err "Timeout error"

/-- The id that the call of `next_id` with this number returns: the counter is an `unsigned`. -/
def idOf (k : ℕ) : ℕ := k % 2 ^ 32

def State.setFiber (s : State) (t : ℕ) (stack : List Frame) : State :=
  { s with fibers := Function.update s.fibers t stack }

def State.push (s : State) (t : ℕ) (frame : Frame) : State :=
  s.setFiber t (frame :: s.fibers t)

def State.note (s : State) (e : Event) : State :=
  { s with log := s.log ++ [e] }

/-- `local cb = reqs[id].cb; reqs[id] = nil; cb(...)`. -/
def State.complete (s : State) (t : ℕ) (id : ℕ) (req : Request) (r : Reply) : State :=
  (({ s with reqs := Assoc.erase id s.reqs }).note (.invoked req.cb r s.issued)).push t .script

/-- The request function: `next_id()`, the entry, and the call of `request`, which is code of the
script or of a worker. -/
def State.request (s : State) (t : ℕ) (timeout : ℤ) : State :=
  (({ s with issued := s.issued + 1,
             reqs := Assoc.put (idOf s.issued) ⟨timeout, s.issued⟩ s.reqs }).note
    (.requested s.issued)).push t .script

/-- The function piped to `responce`, called by the listener of the pipe. The `id` of the message
is none if it is no number that `next_id` could return. -/
def State.responce (s : State) (t : ℕ) (id : Option ℕ) : State :=
  match id.bind (fun id => (s.reqs.lookup id).map (fun req => (id, req))) with
  | some (id, req) => (s.push t .pcall).complete t id req (.msg id)
  | none => s.note (.warn "Service response with id:{} -> handler not found (maybe timeout)" id)

/-- The time of the entry has run out. -/
def Request.due (req : Request) : Bool := req.timeout ≤ check_delta

/-- The branches of the first loop of the timer. -/
def Request.wait (req : Request) : Request :=
  if req.due then req else { req with timeout := req.timeout - check_delta }

/-- The entries whose time has run out. -/
def State.due (s : State) : List (ℕ × Request) := s.reqs.filter (fun entry => entry.2.due)

/-- The timer of `each`, up to the second loop. The order of `pairs` is any. -/
def State.tick (s : State) (t : ℕ) (toRemove : List ℕ) : Option State :=
  if s.fibers t = [] ∧ toRemove.Perm (s.due.map Prod.fst) then
    some { s with
      reqs := s.reqs.map (fun entry => (entry.1, entry.2.wait))
      fibers := Function.update s.fibers t [.sweep toRemove]
      log := s.log ++ s.due.map (fun entry => .expired entry.2.cb) }
  else none

/-- The frames that an error of the code on top of the stack leaves. -/
def State.left (s : State) (t : ℕ) : List Frame :=
  (s.fibers t).takeWhile (fun frame => decide (frame ≠ .pcall))

/-- An error leaves the frames down to the next `pcall`, which returns. -/
def State.unwind (s : State) (t : ℕ) : State :=
  s.setFiber t ((s.fibers t).dropWhile (fun frame => decide (frame ≠ .pcall))).tail

/-- The next iteration of the second loop, or the end of a call. -/
def State.next (s : State) (t : ℕ) : Option State :=
  match s.fibers t with
  | .sweep (id :: toRemove) :: rest =>
    match s.reqs.lookup id with
    | some req => some ((s.setFiber t (.sweep toRemove :: rest)).complete t id req timeoutError)
    | none => some ((s.note (.error "attempt to index a nil value")).unwind t)
  | .sweep [] :: rest => some (s.setFiber t rest)
  | .pcall :: rest => some (s.setFiber t rest)
  | _ => none

/-! ## Steps -/

/-- What a fiber or the event loop does next. -/
inductive Op where
  /-- The event loop calls into the script. -/
  | start
  | request
  /-- Anyone else calls `next_id`. -/
  | next_id
  | responce (id : Option ℕ)
  | pcall
  /-- The script's code on top of the stack returns. -/
  | ret
  /-- The script's code on top of the stack raises. -/
  | raise
  /-- The code of this file that is on top of the stack goes on. -/
  | next
  | tick (toRemove : List ℕ)
deriving DecidableEq, Repr

/-- The operations of script code. -/
def State.script (s : State) (t : ℕ) (timeout : ℤ) (rest : List Frame) : Op → Option State
  | .request => some (s.request t timeout)
  | .responce id => some (s.responce t id)
  | .pcall => some ((s.push t .pcall).push t .script)
  | .ret => some (s.setFiber t rest)
  | .raise => some (s.unwind t)
  | _ => none

/-- One step, on fiber `t`, of a service with this timeout. -/
def step (timeout : ℤ) (s : State) : ℕ × Op → Option State
  | (t, .start) => if s.fibers t = [] then some (s.setFiber t [.script]) else none
  | (_, .next_id) => some { s with issued := s.issued + 1 }
  | (t, .next) => s.next t
  | (t, .tick toRemove) => s.tick t toRemove
  | (t, op) =>
    match s.fibers t with
    | .script :: rest => s.script t timeout rest op
    | _ => none

end Radapter.Service
