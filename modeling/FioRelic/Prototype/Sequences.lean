import FioRelic.Prototype.Chain
import FioRelic.Relational.Maxima

/-! RECV_SEQUENCE_MAX next to RECEIPTS: the map is assigned receipt after receipt and
upserted batch after batch, and a fork deletes receipts only. -/
namespace FioRelic.Prototype
open Relational

def Receipt.entry (x : Receipt) : String × Int := (x.receiver,x.recvSequence)

def Store.Sequenced (s : Store) : Prop := Tracks s.recvSequenceMax (s.receipts.map Receipt.entry)

namespace Writer

def known (w : Writer) : List Receipt := w.connection.working.receipts ++ w.insertReceipts

def Rises (w : Writer) (r : TraceRow) : Prop :=
  ∀ x ∈ r.receipts, ∀ last ∈ (r.receipts.filter fun y => decide (y.receiver = x.receiver)).getLast?,
    ∀ y ∈ w.known ++ r.receipts, y.receiver = x.receiver → y.recvSequence ≤ last.recvSequence

def Outlived (w : Writer) (n : Int) : Prop :=
  ∀ x ∈ w.connection.working.receipts, n ≤ x.blockNum → ∃ y ∈ w.connection.working.receipts,
    y.blockNum < n ∧ y.receiver = x.receiver ∧ x.recvSequence ≤ y.recvSequence

def SequenceKept (w : Writer) (call : Clock × Message) : Prop := match call.2 with
  | .fork n => w.confirmedBlock ≤ w.irreversible ∨ w.Outlived n
  | .txTrace json => json.blockNum ≤ w.confirmedBlock ∨ ∀ r ∈ json.row, w.Rises r
  | _ => True

instance (w : Writer) (r : TraceRow) : Decidable (w.Rises r) := by
  unfold Rises
  infer_instance

instance (w : Writer) (n : Int) : Decidable (w.Outlived n) := by
  unfold Outlived
  infer_instance

instance (w : Writer) : (call : Clock × Message) → Decidable (w.SequenceKept call)
  | (_,.fork n) => inferInstanceAs (Decidable (w.confirmedBlock ≤ w.irreversible ∨ w.Outlived n))
  | (_,.txTrace json) =>
    inferInstanceAs (Decidable (json.blockNum ≤ w.confirmedBlock ∨ ∀ r ∈ json.row, w.Rises r))
  | (_,.blockCompleted _) => isTrue trivial
  | (_,.malformed _ _) => isTrue trivial
  | (_,.unknown) => isTrue trivial

structure Summarises (w : Writer) : Prop where
  master : w.iAmMaster = true
  traces : w.noTraces = false
  stored : w.connection.working.Sequenced
  latest : ∀ a k, (a,k) ∈ w.upsertRecvSeqMax → Largest (w.known.map Receipt.entry) a k
  named : ∀ a, a ∈ (w.insertReceipts.map Receipt.entry).map Prod.fst → a ∈ w.upsertRecvSeqMax.map Prod.fst
  whole : w.insertTransactions = [] → w.insertReceipts = []

section Sequences
variable {w w' : Writer} {s : Store} {o : Options} {json : BlockCompleted} {n : Int} {r : TraceRow}

theorem summarisesStart (start : initializeWriter o s = .ok w) (master : w.iAmMaster = true) (traces : o.noTraces = false)
    (sequenced : s.Sequenced) : w.Summarises := by
  obtain ⟨own,found,rfl⟩ := initialized start
  exact {
    master := master
    traces := traces
    stored := sequenced
    latest := by simp [fresh]
    named := by simp [fresh]
    whole := fun _ => rfl }

theorem summarisesForked (held : w.Summarises) (outlived : w.Outlived n) : (w.forked n).Summarises := by
  have working : (w.forked n).connection.working =
      ((w.connection.working.forkReceipts n).forkTransactions n).updSyncFork (n - 1) w.sourceId := by
    simp [forked, forking, held.master, Connection.execute, Connection.commit]
  exact {
    master := held.master
    traces := held.traces
    stored := by
      rw [working]
      refine held.stored.cut (List.map_subset _ List.filter_sublist.subset) ?_
      intro a k mem
      obtain ⟨x,stored,same⟩ := List.mem_map.mp mem
      cases same
      by_cases late : n ≤ x.blockNum
      · obtain ⟨y,stays,early,receiver,le⟩ := outlived x stored late
        refine ⟨y.recvSequence,le,List.mem_map.mpr ⟨y,List.mem_filter.mpr ⟨stays,?_⟩,?_⟩⟩
        · simpa using early
        · simp [Receipt.entry, receiver]
      · refine ⟨x.recvSequence,le_refl _,List.mem_map.mpr ⟨x,List.mem_filter.mpr ⟨stored,?_⟩,rfl⟩⟩
        simpa using late
    latest := by simp [forked]
    named := by simp [forked]
    whole := fun _ => rfl }

theorem tracedSequences {json : Json} (held : w.Summarises) (row : json.row = some r) : w.traced r =
    { w with
      insertTransactions := w.insertTransactions ++ [r]
      insertReceipts := w.insertReceipts ++ r.receipts
      upsertRecvSeqMax := upsertBatch Prod.fst w.upsertRecvSeqMax (r.receipts.map Receipt.entry) } := by
  simp [traced, saved, saveTrace, held.master, held.traces, TraceRow.receipts, ← (rowSource row).2.1, upsertBatch,
    List.foldl_map, Receipt.entry]

theorem summarisesTraced {json : Json} (held : w.Summarises) (row : json.row = some r) (rises : w.Rises r) :
    (w.traced r).Summarises := by
  rw [tracedSequences held row]
  exact {
    master := held.master
    traces := held.traces
    stored := held.stored
    latest := by
      intro a k mem
      simp only [known, List.map_append, ← List.append_assoc]
      rw [← List.map_append]
      change Largest (w.known.map Receipt.entry ++ r.receipts.map Receipt.entry) a k
      rcases upsertBatchMem mem with ⟨old,absent⟩ | last
      · -- the trace has no receipt of this receiver
        obtain ⟨recorded,top⟩ := held.latest a k old
        refine ⟨List.mem_append_left _ recorded,fun k' later => ?_⟩
        rcases List.mem_append.mp later with before | brought
        · exact top k' before
        · exact absurd (List.mem_map.mpr ⟨_,brought,rfl⟩) absent
      · rw [List.filter_map, List.getLast?_map, Option.map_eq_some_iff] at last
        obtain ⟨z,last,same⟩ := last
        cases same
        have own := (List.mem_filter.mp (List.mem_of_getLast? last)).1
        refine ⟨List.mem_append_right _ (List.mem_map_of_mem own),fun k' later => ?_⟩
        rw [← List.map_append] at later
        obtain ⟨y,mem,entry⟩ := List.mem_map.mp later
        rw [Receipt.entry, Prod.mk.injEq] at entry
        exact entry.2 ▸ rises z own z last y mem entry.1
    named := by
      intro a mem
      rw [List.map_append, List.map_append, List.mem_append] at mem
      exact upsertBatchKeys (mem.imp (held.named a) id)
    whole := by simp }

theorem insertReceiptsEntries {rows new : List Receipt} (e : String × Int) :
    e ∈ (insertBatch Receipt.key rows new).map Receipt.entry ↔ e ∈ (rows ++ new).map Receipt.entry := by
  constructor
  · intro mem
    obtain ⟨x,stored,rfl⟩ := List.mem_map.mp mem
    exact List.mem_map_of_mem (List.mem_append.mpr (insertBatchMem stored))
  · intro mem
    obtain ⟨x,known,rfl⟩ := List.mem_map.mp mem
    rcases List.mem_append.mp known with old | sent
    · exact List.mem_map_of_mem (insertBatchSub old)
    · -- a row that is dropped finds its key, and so its receiver and recv_sequence
      have stored : ∃ y ∈ insertBatch Receipt.key rows new, y.key = x.key := insertBatchKeys sent
      obtain ⟨y,mem,same⟩ := stored
      have entry : y.entry = x.entry := congrArg (fun k => (k.1,k.2.2.2.1)) same
      exact entry ▸ List.mem_map_of_mem mem

theorem takenSequenced (json : BlockCompleted) (held : w.Summarises) :
    (w.taken json).connection.working.Sequenced ∧
      ∀ e, e ∈ w.known.map Receipt.entry ↔ e ∈ (w.taken json).connection.working.receipts.map Receipt.entry := by
  cases buffer : w.insertTransactions with
  | nil =>
    have working : (w.taken json).connection.working = w.connection.working := by
      simp [taken, sending, cleaning, Connection.execute, held.master, buffer]
    rw [working]
    exact ⟨held.stored,by simp [known, held.whole buffer]⟩
  | cons r rest =>
    have receipts : (w.taken json).connection.working.receipts =
        insertBatch Receipt.key w.connection.working.receipts w.insertReceipts := by
      simp [taken, sending, cleaning, Connection.execute, held.master, buffer, Store.insertReceipts,
        Store.insertTransactions, Store.insertRecvSeqMax]
    have maxima : (w.taken json).connection.working.recvSequenceMax =
        upsertBatch Prod.fst w.connection.working.recvSequenceMax w.upsertRecvSeqMax := by
      simp [taken, sending, cleaning, Connection.execute, held.master, buffer, Store.insertReceipts,
        Store.insertTransactions, Store.insertRecvSeqMax]
    have same : ∀ e, e ∈ w.known.map Receipt.entry ↔
        e ∈ (w.taken json).connection.working.receipts.map Receipt.entry := by
      intro e
      rw [receipts]
      exact (insertReceiptsEntries e).symm
    refine ⟨?_,same⟩
    unfold Store.Sequenced
    rw [maxima]
    refine Tracks.congr ?_ same
    have latest := held.latest
    simp only [known, List.map_append] at latest ⊢
    exact held.stored.send latest held.named

theorem summarisesTaken (held : w.Summarises) : (w.taken json).Summarises := by
  obtain ⟨sequenced,same⟩ := takenSequenced json held
  cases buffer : w.insertTransactions with
  | nil =>
    have kept : (w.taken json).insertReceipts = [] ∧ (w.taken json).upsertRecvSeqMax = w.upsertRecvSeqMax := by
      simp [taken, buffer, held.whole buffer]
    exact {
      master := held.master
      traces := held.traces
      stored := sequenced
      latest := by
        intro a k mem
        rw [kept.2] at mem
        obtain ⟨recorded,top⟩ := held.latest a k mem
        simp only [known, kept.1, List.append_nil]
        exact ⟨(same _).mp recorded,fun k' later => top k' ((same _).mpr later)⟩
      named := by simp [kept.1]
      whole := fun _ => kept.1 }
  | cons r rest =>
    have sent : (w.taken json).insertReceipts = [] ∧ (w.taken json).upsertRecvSeqMax = [] := by
      simp [taken, buffer, held.master]
    exact {
      master := held.master
      traces := held.traces
      stored := sequenced
      latest := by simp [sent.2]
      named := by simp [sent.1]
      whole := fun _ => sent.1 }

theorem summarisesStep {call : Clock × Message} (held : w.Summarises) (kept : w.SequenceKept call)
    (ok : w.step call = some w') : w'.Summarises := by
  obtain ⟨now,m⟩ := call
  obtain ⟨v,processed⟩ := stepped ok
  cases processed with
  | ignored => exact { held with }
  | forked reversible =>
    rcases kept with ignored | outlived
    · exact absurd reversible (Int.not_lt.mpr ignored)
    · exact summarisesForked held outlived
  | skipped => exact held
  | traced new row =>
    rcases kept with old | rises
    · exact absurd new (Int.not_lt.mpr old)
    · exact summarisesTraced held row (rises _ row)
  | batched => exact summarisesTaken held
  | completed => exact { summarisesTaken held with }
  | unknown => exact held

theorem sequencesFollow {run : List (Clock × Message)} {now : Clock} {v : Int} {w'' : Writer}
    (start : initializeWriter o s = .ok w) (master : w.iAmMaster = true) (traces : o.noTraces = false)
    (sequenced : s.Sequenced) (kept : Along step SequenceKept w run) (ran : run.foldlM step w = some w')
    (commits : w'.Commits (.blockCompleted json))
    (call : processData now w' (.blockCompleted json) = (w'',.ok v)) : w''.connection.committed.Sequenced := by
  have held : w'.Summarises :=
    runPreserves Summarises summarisesStep (summarisesStart start master traces sequenced) kept ran
  cases processed call with
  | batched waits => exact absurd commits waits
  | completed => exact (summarisesTaken held).stored

end Sequences
theorem shippedSequenced : Store.shipped.Sequenced := ⟨fun _ mem => mem,fun _ _ mem => absurd mem List.not_mem_nil⟩

theorem sequencesFollowPaid : ∃ w w' v, Along step SequenceKept started [(⟨0,0⟩,.txTrace (paid 1 "a1"))] ∧
    processData ⟨0,0⟩ w (.blockCompleted firstBlock) = (w',.ok v) ∧ w'.connection.committed.Sequenced := by
  have kept : Along step SequenceKept started [(⟨0,0⟩,.txTrace (paid 1 "a1"))] := by decide +kernel
  have ran : [((⟨0,0⟩ : Clock),Message.txTrace (paid 1 "a1"))].foldlM step started =
      some (started.traced (paidRow 1 "a1")) := by decide +kernel
  have commits : (started.traced (paidRow 1 "a1")).Commits (.blockCompleted firstBlock) := by decide +kernel
  have call : processData ⟨0,0⟩ (started.traced (paidRow 1 "a1")) (.blockCompleted firstBlock) =
      ((started.traced (paidRow 1 "a1")).completed firstBlock,.ok 1) := by decide +kernel
  exact ⟨_,_,_,kept,call,sequencesFollow startedShipped rfl rfl shippedSequenced kept ran commits call⟩

def notified : Json := { paid 1 "a1" with
  actionTraces := [⟨"fio.token","trnsfiopubky","alice",2,8⟩,⟨"fio.token","trnsfiopubky","alice",1,7⟩] }

def notifiedRow : TraceRow := ⟨8,1,"2020-03-24 00:00:00","a1",notified⟩

theorem notifiedNotSequenced : ∃ w w' v, initializeWriter defaultOptions Store.shipped = .ok started ∧
    step started (⟨0,0⟩,.txTrace notified) = some w ∧ w.Commits (.blockCompleted firstBlock) ∧
      processData ⟨0,0⟩ w (.blockCompleted firstBlock) = (w',.ok v) ∧ ¬ w'.connection.committed.Sequenced := by
  refine ⟨started.traced notifiedRow,(started.traced notifiedRow).completed firstBlock,1,startedShipped,
    by decide +kernel,by decide +kernel,by decide +kernel,?_⟩
  intro sequenced
  have stored : ("alice",1) ∈ ((started.traced notifiedRow).completed firstBlock).connection.committed.recvSequenceMax := by
    decide +kernel
  have larger : ("alice",2) ∈
      ((started.traced notifiedRow).completed firstBlock).connection.committed.receipts.map Receipt.entry := by
    decide +kernel
  exact absurd ((sequenced.largest _ _ stored).2 2 larger) (by decide)

end Writer
end FioRelic.Prototype
