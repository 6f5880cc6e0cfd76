import FioRelic.Prototype.Steps

/-! The checkpoint: the block that SYNC holds for the writer, against the block it has
confirmed to Chronicle. -/
namespace FioRelic.Prototype
open Relational
namespace Writer

def storedBlock (w : Writer) (s : Store) : Option Int :=
  (s.sync.find? fun r => r.sourceid == w.sourceId).map Sync.blockNum

def Durable (w : Writer) : Prop := w.storedBlock w.connection.committed = some w.confirmedBlock

structure Checkpointed (w : Writer) : Prop where
  durable : w.Durable
  pending : w.storedBlock w.connection.working = some w.confirmedBlock

section Checkpoint
variable {w w' : Writer} {s : Store} {o : Options} {json : BlockCompleted} {n : Int}

theorem restartResumes (start : initializeWriter o s = .ok w) : w.storedBlock s = some w.confirmedBlock := by
  obtain ⟨own,found,rfl⟩ := initialized start
  simp [storedBlock, fresh, found]

theorem startCheckpointed (start : initializeWriter o s = .ok w) : w.Checkpointed := by
  have resumes := restartResumes start
  obtain ⟨own,found,rfl⟩ := initialized start
  exact ⟨resumes,resumes⟩

theorem forkedBlock : w.storedBlock (w.forking n s) = (w.storedBlock s).map fun _ => n - 1 := by
  unfold storedBlock forking
  simp only [updSyncForkOwn, Option.map_map]
  split <;> rfl

theorem takenBlock : w.storedBlock (w.taken json).connection.working = w.storedBlock w.connection.working := by
  unfold storedBlock
  rw [takenSync]

theorem checkpointKept {now m v} (held : w.Checkpointed) (waits : ¬ w.Commits m) (call : Processed now w m w' v) :
    w'.Checkpointed := by
  cases call with
  | ignored => exact ⟨held.pending,held.pending⟩
  | @forked n =>
    have moved : w.storedBlock (w.forking n w.connection.working) = some (n - 1) := by
      rw [forkedBlock, held.pending]
      rfl
    exact ⟨moved,moved⟩
  | skipped => exact held
  | traced =>
    unfold traced saved saveTrace
    repeat' split
    all_goals exact ⟨held.durable,held.pending⟩
  | batched => exact ⟨held.durable,takenBlock.trans held.pending⟩
  | completed commits => exact absurd commits waits
  | unknown => exact held

theorem checkpointLost {now m v} (held : w.Checkpointed) (commits : w.Commits m) (call : Processed now w m w' v) :
    ¬ w'.Durable := by
  cases call with
  | batched waits => exact absurd commits waits
  | @completed json =>
    intro durable
    have same : some json.blockNum = some w.confirmedBlock := durable.symm.trans (takenBlock.trans held.pending)
    exact absurd (Option.some.inj same) (Int.ne_of_gt commits.1)
  | _ => exact absurd commits id

theorem checkpointDurable {run : List (Clock × Message)} (start : initializeWriter o s = .ok w) :
    Throughout step Durable w run ↔ Along step (fun w call => ¬ w.Commits call.2) w run := by
  refine throughoutIff Checkpointed Checkpointed.durable ?_ ?_ (startCheckpointed start)
  · intro w call w' held waits ok
    obtain ⟨v,processed⟩ := stepped ok
    exact checkpointKept held waits processed
  · intro w call w' held off ok
    obtain ⟨v,processed⟩ := stepped ok
    exact checkpointLost held (not_not.mp off) processed

end Checkpoint

theorem checkpointDurableStarted :
    initializeWriter defaultOptions Store.shipped = .ok started ∧
      Throughout step Durable started [(⟨0,0⟩,.fork 1)] :=
  ⟨startedShipped,(checkpointDurable startedShipped).mpr fun _ _ => ⟨id,trivial⟩⟩

theorem firstBlockNotDurable : ∃ w, initializeWriter defaultOptions Store.shipped = .ok started ∧
    step started (⟨0,0⟩,.blockCompleted firstBlock) = some w ∧ ¬ w.Durable := by
  refine ⟨started.completed firstBlock,startedShipped,by decide +kernel,?_⟩
  unfold Durable
  decide +kernel

end Writer
end FioRelic.Prototype
