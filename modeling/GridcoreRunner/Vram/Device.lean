import GridcoreRunner.Runs
import GridcoreRunner.Vram.RegistryText

/-!
# Runners on one device

Any number of runner processes over one registry. An event is one transaction on
the registry, or a step a process takes without it: it starts, dies, allocates or
frees. A process id may be used again once its process is dead, and two processes
with one id never start at the same time. A registry that cannot be read and written,
without which the source lets every claim in, is left out.
-/

namespace GridcoreRunner.Vram

set_option autoImplicit false

open GridcoreRunner.Runs

scoped instance lawfulKey : LawfulBEq (Int64 × UInt64) := inferInstance

/-- A live runner, and the number its next claim gets. -/
structure Process where
  pid : Int64
  start : UInt64
  nextSeq : Nat

/-- A claim asks, possibly several times. Let in, its load allocates; a commit or
a release settles it. -/
inductive Stage
  | asking
  | loading (allocated : Nat)
  | settled (allocated : Nat)

structure Job where
  claim : Claim
  stage : Stage

namespace Job

def named (pid seq : Int64) (j : Job) : Bool := j.claim.pid == pid && j.claim.seq == seq

/-- Let in and not yet committed. -/
def loading (j : Job) : Bool :=
  match j.stage with
  | .loading _ => true
  | _ => false

def allocated (j : Job) : Nat :=
  match j.stage with
  | .asking => 0
  | .loading allocated => allocated
  | .settled allocated => allocated

/-- What a load may still allocate. -/
def outstanding (j : Job) : Nat :=
  if j.loading then j.claim.need.toNat - j.allocated else 0

/-- The whole need of a load. -/
def pendingNeed (j : Job) : Nat := if j.loading then j.claim.need.toNat else 0

end Job

structure Device where
  capacity : UInt64
  registry : Bytes
  processes : List Process
  /-- Process ids and start times, of dead processes too. -/
  born : List (Int64 × UInt64)
  jobs : List Job

namespace Device

/-- Nobody has used the device. -/
def Unused (d : Device) : Prop :=
  d.registry = [] ∧ d.processes = [] ∧ d.born = [] ∧ d.jobs = []

def allocated (d : Device) : Nat := (d.jobs.map Job.allocated).sum

def outstanding (d : Device) : Nat := (d.jobs.map Job.outstanding).sum

def pendingNeeds (d : Device) : Nat := (d.jobs.map Job.pendingNeed).sum

/-- What the driver reports free. -/
def free (d : Device) : UInt64 := UInt64.ofNat (d.capacity.toNat - d.allocated)

def host (d : Device) (now : UInt64) : Host where
  alive := fun pid => d.processes.any fun p => p.pid == pid
  startTime := fun pid => (d.processes.find? fun p => p.pid == pid).map Process.start
  now := now

def job (d : Device) (pid seq : Int64) : Option Job := d.jobs.find? (Job.named pid seq)

def setStage (d : Device) (pid seq : Int64) (stage : Stage) : Device :=
  { d with jobs := d.jobs.map fun j => if j.named pid seq then { j with stage } else j }

def drop (d : Device) (pid seq : Int64) : Device :=
  { d with jobs := d.jobs.filter fun j => !j.named pid seq }

/-- The entries a claim finds. -/
def seen (d : Device) (c : Claim) (now : UInt64) : List RegEntry :=
  c.others (reap (d.host now) (parse d.registry))

/-- One poll of `vram_claim`. A claim that does not wait asks once. -/
def poll (d : Device) (c : Claim) (now : UInt64) : Device :=
  let (registry, verdict) := claimRmw (d.host now) c d.free d.registry
  let written := { d with registry }
  if verdict.admitted then written.setStage c.pid c.seq (.loading 0)
  else if c.waiting then written
  else written.drop c.pid c.seq

def edit (d : Device) (x : Edit) (now : UInt64) : Device :=
  { d with registry := editRmw (d.host now) x d.registry }

end Device

inductive Event
  | spawn (pid : Int64) (start : UInt64)
  | die (pid : Int64)
  /-- `vram_claim` takes its number. -/
  | ask (pid : Int64) (model : Bytes) (need : UInt64) (priority : Int32) (waiting : Bool)
  | poll (pid seq : Int64) (now : UInt64)
  /-- The deadline has passed, or the wait is cancelled. -/
  | giveUp (pid seq : Int64) (now : UInt64)
  | allocate (pid seq : Int64) (amount : Nat)
  | free (pid seq : Int64) (amount : Nat)
  | commit (pid seq : Int64) (actual now : UInt64)
  | release (pid seq : Int64) (now : UInt64)

namespace Device

def fire (d : Device) : Event → Option Device
  | .spawn pid start =>
      if 0 < pid ∧ start ≠ 0 ∧ (∀ p ∈ d.processes, p.pid ≠ pid) ∧ (pid, start) ∉ d.born then
        some { d with
          processes := { pid, start, nextSeq := 1 } :: d.processes
          born := (pid, start) :: d.born }
      else none
  | .die pid =>
      some { d with
        processes := d.processes.filter fun p => p.pid != pid
        jobs := d.jobs.filter fun j => j.claim.pid != pid }
  | .ask pid model need priority waiting =>
      match d.processes.find? fun p => p.pid == pid with
      | none => none
      | some p =>
          if p.nextSeq < 2 ^ 63 then
            let claim : Claim :=
              { model, need, priority, waiting, pid, seq := Int64.ofNat p.nextSeq,
                procstart := p.start }
            some { d with
              processes := d.processes.map fun q =>
                if q.pid == pid then { q with nextSeq := q.nextSeq + 1 } else q
              jobs := d.jobs ++ [{ claim, stage := .asking }] }
          else none
  | .poll pid seq now =>
      match d.job pid seq with
      | some { claim, stage := .asking } => some (d.poll claim now)
      | _ => none
  | .giveUp pid seq now =>
      match d.job pid seq with
      | some { claim, stage := .asking } =>
          if claim.waiting then
            some ((d.edit { pid, seq, commit := none } now).drop pid seq)
          else none
      | _ => none
  | .allocate pid seq amount =>
      match d.job pid seq with
      | some { claim, stage := .loading allocated } =>
          if allocated + amount ≤ claim.need.toNat then
            some (d.setStage pid seq (.loading (allocated + amount)))
          else none
      | _ => none
  | .free pid seq amount =>
      match d.job pid seq with
      | some { claim := _, stage := .loading allocated } =>
          some (d.setStage pid seq (.loading (allocated - amount)))
      | some { claim := _, stage := .settled allocated } =>
          some (d.setStage pid seq (.settled (allocated - amount)))
      | _ => none
  | .commit pid seq actual now =>
      match d.job pid seq with
      | some { claim := _, stage := .loading allocated } =>
          some ((d.edit { pid, seq, commit := some actual } now).setStage pid seq
            (.settled allocated))
      | _ => none
  | .release pid seq now =>
      match d.job pid seq with
      | some { claim := _, stage := .loading allocated } =>
          some ((d.edit { pid, seq, commit := none } now).setStage pid seq (.settled allocated))
      | some { claim := _, stage := .settled allocated } =>
          some ((d.edit { pid, seq, commit := none } now).setStage pid seq (.settled allocated))
      | _ => none

/-- The claim that an event lets in. -/
def letIn (d : Device) : Event → Option Claim
  | .poll pid seq now =>
      match d.job pid seq with
      | some { claim, stage := .asking } =>
          if (claimRmw (d.host now) claim d.free d.registry).2.admitted then some claim else none
      | _ => none
  | _ => none

/-- A claim that is let in finds room in the table. -/
def Roomy (d : Device) : Event → Prop
  | .poll pid seq now => ∀ j, d.job pid seq = some j →
      j.claim.admits d.free (d.seen j.claim now) = true →
      (d.seen j.claim now).length < regMaxEntries
  | _ => True

end Device

end GridcoreRunner.Vram
