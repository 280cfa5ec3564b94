import GridcoreRunner.Runs
import Mathlib.Tactic.Common

/-!
# Which model is resident

The request worker, the thread that answers `/unload` and the idle reaper share a slot, the
resident index, the count of active requests and the flags of a load in flight. Every
section under the swap lock is one event, and so is every step outside it that touches
what they share; a load itself runs between two sections of the worker.
-/

namespace GridcoreRunner.Server

set_option autoImplicit false

/-- What is served: the names of the registry, the first of which answers to the aliases. -/
structure Config where
  reg : List String
  registered : 0 < reg.length
  single : Bool
  draftPath : Bool
  yieldOnRequest : Bool

/-- A loaded model: the entry it was loaded for, and which load made it. -/
structure Model where
  index : Nat
  serial : Nat
  deriving Repr, DecidableEq

/-- Where the request worker is. -/
inductive Worker where
  | idle
  | entered (want : Option String)
  | loading (idx : Nat)
  | served (held : Option Model)
  | settled (held : Option Model)
  | refused
  | ended
  deriving Repr, DecidableEq

structure State where
  slot : Option Model
  resident : Option Nat
  draft : Bool
  loading : Bool
  pendingUnload : Bool
  loadCancel : Bool
  activeRequests : Nat
  ttl : Int
  lastUsed : Int
  born : Nat
  freed : List Nat
  worker : Worker
  awake : Bool
  deriving Repr, DecidableEq

namespace State

/-- Frees the model of the slot; nothing to do without a resident. -/
def unloadResident (s : State) : State :=
  match s.resident with
  | none => s
  | some _ =>
      { s with
        freed := (s.slot.map Model.serial).toList ++ s.freed
        slot := none
        resident := none }

def unloadDraft (s : State) : State := { s with draft := false }

end State

def aliases : List String := ["runner", "default", "local", "test", "thane", "clu"]

def requestModelMatches (want : Option String) (served : String) : Bool :=
  match want with
  | none => true
  | some want => want == "" || want == served || aliases.contains want

/-- The entry a request asks for. -/
def Config.lookup (cfg : Config) (want : Option String) : Option Nat :=
  match want with
  | none => some 0
  | some name =>
      if name = "" then some 0
      else
        match cfg.reg.findIdx? (fun entry => entry == name) with
        | some idx => some idx
        | none => if requestModelMatches want (cfg.reg.headD "") then some 0 else none

/-- How the steps of a load turn out. -/
structure Outcome where
  modelOk : Bool
  tokOk : Bool
  envRefused : Bool
  engineOk : Bool
  draftOk : Bool
  deriving Repr, DecidableEq

inductive Event where
  | arrive (want : Option String)
  | swapBegin
  | swapEnd (outcome : Outcome)
  | keepAlive (seconds : Int)
  | leave
  | requestEnd (now : Int)
  | unload
  | peek
  | tick (now : Int) (yielded locked : Bool)
  | cancel
  deriving Repr, DecidableEq

namespace State

/-- The first section of `swap_to`, up to the load. -/
def beginSwap (s : State) (idx : Nat) : State :=
  let s := { s with pendingUnload := false }
  if s.resident = some idx then { s with worker := .served s.slot }
  else { s.unloadResident with loading := true, loadCancel := false, worker := .loading idx }

/-- The second section of `swap_to`: the load is discarded or installed. -/
def endSwap (s : State) (cfg : Config) (idx : Nat) (outcome : Outcome) : State :=
  let discard := s.pendingUnload || s.loadCancel
  let s := { s with loading := false, pendingUnload := false }
  let loaded := { s with born := s.born + 1 }
  if !outcome.modelOk then { s with worker := .refused }
  else if !outcome.tokOk || discard || outcome.envRefused || !outcome.engineOk then
    { loaded with freed := s.born :: s.freed, worker := .refused }
  else
    let model : Model := { index := idx, serial := s.born }
    { loaded with
      slot := some model
      resident := some idx
      draft := s.draft || (cfg.single && cfg.draftPath && outcome.draftOk)
      worker := .served (some model) }

/-- A request that asks for zero seconds wishes the model away, any other sets the idle time. -/
def keep (s : State) (held : Option Model) (seconds : Int) : State :=
  if seconds = 0 then { s with pendingUnload := true, worker := .settled held }
  else { s with ttl := if seconds < 0 then 0 else seconds, worker := .settled held }

/-- The safe point behind the last request. -/
def endRequest (s : State) (now : Int) : State :=
  let s := { s with lastUsed := now, worker := .idle }
  if s.pendingUnload && !s.loading && s.activeRequests == 0 then
    { s.unloadDraft.unloadResident with pendingUnload := false }
  else s

def handleUnload (s : State) : State :=
  if s.loading then { s with pendingUnload := true, loadCancel := true }
  else if s.activeRequests > 0 then { s with pendingUnload := true }
  else s.unloadDraft.unloadResident

/-- The reaper's section, if it gets the lock. -/
def reap (s : State) (cfg : Config) (now : Int) (yielded locked : Bool) : State :=
  let s := { s with awake := false }
  if locked && s.resident.isSome && s.activeRequests == 0 &&
      (decide (0 < s.ttl ∧ s.ttl < now - s.lastUsed) ||
        (cfg.yieldOnRequest && s.slot.isSome && yielded)) then s.unloadResident
  else s

end State

def fire (cfg : Config) (s : State) : Event → Option State
  | .arrive want =>
      if s.worker = .idle then
        some { s with activeRequests := s.activeRequests + 1, worker := .entered want }
      else none
  | .swapBegin =>
      match s.worker with
      | .entered want =>
          match cfg.lookup want with
          | some idx => some (s.beginSwap idx)
          | none => some { s with worker := .refused }
      | _ => none
  | .swapEnd outcome =>
      match s.worker with
      | .loading idx => some (s.endSwap cfg idx outcome)
      | _ => none
  | .keepAlive seconds =>
      match s.worker with
      | .served held => some (s.keep held seconds)
      | _ => none
  | .leave =>
      match s.worker with
      | .served _ | .settled _ | .refused =>
          some { s with activeRequests := s.activeRequests - 1, worker := .ended }
      | _ => none
  | .requestEnd now => if s.worker = .ended then some (s.endRequest now) else none
  | .unload => some s.handleUnload
  | .peek =>
      if s.resident.isSome && s.activeRequests == 0 then some { s with awake := true } else some s
  | .tick now yielded locked => if s.awake then some (s.reap cfg now yielded locked) else none
  | .cancel => some { s with loadCancel := true }

/-- A server that has just started: no model yet, or the one it was started with. -/
structure Starts (cfg : Config) (s : State) : Prop where
  worker : s.worker = .idle
  awake : s.awake = false
  active : s.activeRequests = 0
  loading : s.loading = false
  pending : s.pendingUnload = false
  freed : s.freed = []
  preload : (s.slot = none ∧ s.resident = none ∧ s.draft = false) ∨
    (cfg.single = true ∧ s.slot = some { index := 0, serial := 0 } ∧ s.resident = some 0 ∧
      s.born = 1)

abbrev Reachable (cfg : Config) : State → Prop := Runs.Reachable (Starts cfg) (fire cfg)

end GridcoreRunner.Server
