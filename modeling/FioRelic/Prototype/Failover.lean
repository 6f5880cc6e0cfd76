import FioRelic.Prototype.Steps

/-! Failover: what the slave is meant to do when the master has died, and what it does. -/
namespace FioRelic.Prototype
open Relational
namespace Writer

structure Watching (now : Clock) (w : Writer) (json : BlockCompleted) (own master : Sync) : Prop where
  slave : w.iAmMaster = false
  traces : w.noTraces = false
  retired : w.retiredTime + 60 * second < now.system
  buffers : w.insertTransactions = [] ∧ w.insertReceipts = [] ∧ w.upsertRecvSeqMax = []
  timed : ∃ t, getBlockTime json.blockTimestamp = .ok t
  commits : w.Commits (.blockCompleted json)
  reversible : json.lastIrreversible < json.blockNum
  sync : w.connection.working.sync = [own,master] ∨ w.connection.working.sync = [master,own]
  mine : own.sourceid = w.sourceId ∧ own.isMaster = 0
  other : master.sourceid ≠ w.sourceId ∧ master.isMaster ≠ 0
  irreversible : 0 ≤ own.irreversible ∧ 0 ≤ master.irreversible
  ages : 0 ≤ upd now own ∧ 0 ≤ upd now master

def Dead (now : Clock) (own master : Sync) : Prop :=
  master.irreversible < own.irreversible - 120 ∧ upd now own + 120 < upd now master ∧ upd now own < 10

structure FailsOver (now : Clock) (w : Writer) (json : BlockCompleted) (own master : Sync) : Prop where
  returns : ∃ v, (processData now w (.blockCompleted json)).2 = .ok v
  decides : (processData now w (.blockCompleted json)).1.iAmMaster = true ↔ Dead now own master
  alone : (processData now w (.blockCompleted json)).1.iAmMaster = true →
    ∀ r ∈ (processData now w (.blockCompleted json)).1.connection.committed.sync, r.isMaster ≠ 0 ↔ r.sourceid = w.sourceId
  lossless : (processData now w (.blockCompleted json)).1.iAmMaster = true →
    ∀ r, (r ∈ (processData now w (.blockCompleted json)).1.connection.committed.transactions ∧
        master.irreversible < r.blockNum) ↔
      (r ∈ (w.completed json).connection.committed.bkpTraces ∧ master.irreversible < r.blockNum)

section Failover
variable {now : Clock} {w : Writer} {json : BlockCompleted} {own master : Sync}

theorem watchingLooks (watching : Watching now w json own master) : Looks now w json :=
  ⟨by simp [watching.slave],watching.reversible,watching.retired⟩

/- The loop over SYNC starts at the first row and goes on while it is after the last. -/
theorem watchingThrows (watching : Watching now w json own master) :
    processData now w (.blockCompleted json) = (w.completed json,.error (.exception "SYNC corrupted")) := by
  have commits := watching.commits
  change completeBlock now w json = _
  rw [completeBlockEq watching.timed, if_neg (Int.not_le.mpr commits.1), if_neg (Int.not_lt.mpr commits.2),
    if_pos (watchingLooks watching)]

theorem neverFailsOver (watching : Watching now w json own master) : ¬ FailsOver now w json own master := by
  intro fails
  obtain ⟨v,returned⟩ := fails.returns
  rw [watchingThrows watching] at returned
  cases returned

end Failover

def mourning : Store := ⟨[⟨1,1000,1000,1,0⟩,⟨2,1300,1200,0,86400⟩],[],[],[],[]⟩

def heir : Writer := { fresh ⟨2,1,-1,false⟩ mourning with
  confirmedBlock := 1300
  unconfirmedBlock := 1300
  irreversible := 1200 }

def freshBlock : BlockCompleted := ⟨1301,"2020-03-24T00:00:00","00000515",1200⟩

def morning : Clock := ⟨86400 * second,86400⟩

theorem heirWatching : Watching morning heir freshBlock ⟨2,1300,1200,0,86400⟩ ⟨1,1000,1000,1,0⟩ where
  slave := rfl
  traces := rfl
  retired := by decide
  buffers := ⟨rfl,rfl,rfl⟩
  timed := ⟨"2020-03-24 00:00:00",by decide⟩
  commits := by decide
  reversible := by decide
  sync := Or.inr rfl
  mine := ⟨rfl,rfl⟩
  other := ⟨by decide,by decide⟩
  irreversible := ⟨by decide,by decide⟩
  ages := ⟨by decide,by decide⟩

theorem neverFailsOverHeir : initializeWriter ⟨2,1,-1,false⟩ mourning = .ok heir ∧
    ¬ FailsOver morning heir freshBlock ⟨2,1300,1200,0,86400⟩ ⟨1,1000,1000,1,0⟩ :=
  ⟨by decide +kernel,neverFailsOver heirWatching⟩

theorem heirThrows : initializeWriter ⟨2,1,-1,false⟩ mourning = .ok heir ∧
    Dead morning ⟨2,1300,1200,0,86400⟩ ⟨1,1000,1000,1,0⟩ ∧
      (processData morning heir (.blockCompleted freshBlock)).2 = .error (.exception "SYNC corrupted") ∧
        ¬ FailsOver morning heir freshBlock ⟨2,1300,1200,0,86400⟩ ⟨1,1000,1000,1,0⟩ := by
  have thrown : (processData morning heir (.blockCompleted freshBlock)).2 = .error (.exception "SYNC corrupted") := by
    decide +kernel
  refine ⟨by decide +kernel,⟨by decide,by decide,by decide⟩,thrown,?_⟩
  intro fails
  obtain ⟨v,returned⟩ := fails.returns
  rw [thrown] at returned
  cases returned

end Writer
end FioRelic.Prototype
