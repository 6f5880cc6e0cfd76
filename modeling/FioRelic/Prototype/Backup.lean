import FioRelic.Prototype.Chain

/-! What a slave has of the chain while its session lasts: the backup in the open
transaction, and after it the buffer. -/
namespace FioRelic.Prototype
open Relational
namespace Writer

def BackupHeeded (f : Writer × Chain) (call : Clock × Message) : Prop := match call.2 with
  | .fork n => (f.1.irreversible < f.1.confirmedBlock ∧ f.1.insertBkpTraces = []) ∨
      (f.1.confirmedBlock < n ∧ (∀ r ∈ f.2.alive, r.blockNum < n) ∧
        ∀ x ∈ f.1.connection.working.bkpTraces, x.blockNum < n)
  | .txTrace json => ∀ r ∈ json.row, ∀ x ∈ f.1.connection.working.bkpTraces, x ∈ f.2.before → x.seq = r.seq → x = r
  | _ => True

instance (f : Writer × Chain) : (call : Clock × Message) → Decidable (BackupHeeded f call)
  | (_,.fork n) => inferInstanceAs (Decidable ((f.1.irreversible < f.1.confirmedBlock ∧ f.1.insertBkpTraces = []) ∨
      (f.1.confirmedBlock < n ∧ (∀ r ∈ f.2.alive, r.blockNum < n) ∧
        ∀ x ∈ f.1.connection.working.bkpTraces, x.blockNum < n)))
  | (_,.txTrace json) => inferInstanceAs (Decidable (∀ r ∈ json.row, ∀ x ∈ f.1.connection.working.bkpTraces,
      x ∈ f.2.before → x.seq = r.seq → x = r))
  | (_,.blockCompleted _) => isTrue trivial
  | (_,.malformed _ _) => isTrue trivial
  | (_,.unknown) => isTrue trivial

structure Backs (lowest : Option Int) (w : Writer) (c : Chain) : Prop where
  slave : w.iAmMaster = false
  confirmed : w.confirmedBlock ≤ c.last
  irreversible : w.connection.working.minIrreversible = lowest
  seqs : (c.alive.map TraceRow.seq).Nodup
  buffered : ∀ r ∈ w.insertBkpTraces, r ∈ c.alive ∧ c.last < r.blockNum
  kept : ∀ r ∈ c.alive, below (some r.blockNum) lowest = false →
    r ∈ w.connection.working.bkpTraces ∨ r ∈ w.insertBkpTraces
  known : ∀ x ∈ w.connection.working.bkpTraces, x ∈ c.alive ∨ x ∈ c.before
  single : ∀ x ∈ w.connection.working.bkpTraces, ∀ r ∈ c.alive, x.seq = r.seq → x = r
  spared : ∀ x ∈ w.connection.working.bkpTraces, x ∈ c.discarded → x ∈ c.alive

structure BacksUp (s : Store) (c : Chain) (m : Int) : Prop where
  kept : ∀ r ∈ c.alive, atLeast (some r.blockNum) s.minIrreversible = true → r.blockNum ≤ m → r ∈ s.bkpTraces
  spared : ∀ x ∈ s.bkpTraces, x ∈ c.discarded → x ∈ c.alive

section Backup
variable {w w' : Writer} {c : Chain} {s : Store} {o : Options} {json : BlockCompleted} {n : Int} {lowest : Option Int}

theorem backsStart (start : initializeWriter o s = .ok w) (slave : w.iAmMaster = false) :
    Backs s.minIrreversible w (Chain.above s.bkpTraces w.confirmedBlock) := by
  obtain ⟨own,found,rfl⟩ := initialized start
  exact {
    slave := slave
    confirmed := Int.le_refl _
    irreversible := rfl
    seqs := by simp [Chain.above]
    buffered := by simp [fresh]
    kept := by simp [Chain.above]
    known := fun x mem => Or.inr mem
    single := by simp [Chain.above]
    spared := by simp [Chain.above] }

theorem updSyncForkLowest {sourceId : Int} : (s.updSyncFork n sourceId).minIrreversible = s.minIrreversible := by
  have same : (s.updSyncFork n sourceId).sync.map Sync.irreversible = s.sync.map Sync.irreversible := by
    simp only [Store.updSyncFork, List.map_map]
    refine List.map_congr_left fun r _ => ?_
    simp only [Function.comp_apply]
    split <;> rfl
  simp [Store.minIrreversible, same]

/- A fork finds nothing buffered: what is buffered is past the last block, and discarded. -/
theorem backupEmpty (now : Clock) (held : Backs lowest w c) (accepts : n ≤ c.last + 1)
    (heeded : BackupHeeded (w,c) (now,.fork n)) : w.insertBkpTraces = [] := by
  rcases heeded with ⟨_,empty⟩ | ⟨_,early,_⟩
  · exact empty
  · rw [List.eq_nil_iff_forall_not_mem]
    intro r mem
    obtain ⟨alive,past⟩ := held.buffered r mem
    have below := early r alive
    omega

theorem backsForked (held : Backs lowest w c) (empty : w.insertBkpTraces = []) :
    Backs lowest (w.forked n) (c.after (.fork n)) := by
  have working : (w.forked n).connection.working =
      (w.connection.working.forkBkp n).updSyncFork (n - 1) w.sourceId := by
    simp [forked, forking, held.slave, Connection.execute, Connection.commit]
  have rows : ∀ x, x ∈ (w.forked n).connection.working.bkpTraces ↔
      x ∈ w.connection.working.bkpTraces ∧ (!decide (n ≤ x.blockNum)) = true := by
    intro x
    rw [working]
    exact List.mem_filter
  exact {
    slave := held.slave
    confirmed := Int.le_refl _
    irreversible := by rw [working, updSyncForkLowest]; exact held.irreversible
    seqs := held.seqs.sublist ((List.filter_sublist).map _)
    buffered := by simp [forked, empty]
    kept := by
      intro r mem past
      obtain ⟨alive,early⟩ := List.mem_filter.mp mem
      have stored := held.kept r alive past
      rw [empty] at stored
      exact Or.inl ((rows r).mpr ⟨stored.resolve_right (List.not_mem_nil),early⟩)
    known := by
      intro x mem
      obtain ⟨stored,early⟩ := (rows x).mp mem
      exact (held.known x stored).imp (fun alive => List.mem_filter.mpr ⟨alive,early⟩)
        fun old => List.mem_filter.mpr ⟨old,early⟩
    single := fun x mem r alive => held.single x ((rows x).mp mem).1 r (List.mem_filter.mp alive).1
    spared := by
      intro x mem gone
      obtain ⟨stored,early⟩ := (rows x).mp mem
      rcases List.mem_append.mp gone with old | new
      · exact List.mem_filter.mpr ⟨held.spared x stored old,early⟩
      · have late := (List.mem_filter.mp new).2
        simp [late] at early }

theorem backsIgnored (held : Backs lowest w c) (empty : w.insertBkpTraces = [])
    (nothing : w.confirmedBlock < n ∧ (∀ r ∈ c.alive, r.blockNum < n) ∧
      ∀ x ∈ w.connection.working.bkpTraces, x.blockNum < n) :
    Backs lowest w.ignored (c.after (.fork n)) := by
  have early : ∀ {r : TraceRow}, r.blockNum < n → (!decide (n ≤ r.blockNum)) = true := by
    intro r below
    simpa using below
  have kept : c.alive.filter (fun r => !decide (n ≤ r.blockNum)) = c.alive :=
    List.filter_eq_self.mpr fun r mem => early (nothing.2.1 r mem)
  exact {
    slave := held.slave
    confirmed := Int.le_sub_one_of_lt nothing.1
    irreversible := held.irreversible
    seqs := by simpa [Chain.after, kept] using held.seqs
    buffered := by simp [ignored, empty]
    kept := fun r mem past => held.kept r (List.mem_filter.mp mem).1 past
    known := by
      intro x mem
      have before := early (nothing.2.2 x mem)
      exact (held.known x mem).imp (fun alive => List.mem_filter.mpr ⟨alive,before⟩)
        fun old => List.mem_filter.mpr ⟨old,before⟩
    single := fun x mem r alive => held.single x mem r (List.mem_filter.mp alive).1
    spared := by
      intro x mem gone
      have before := early (nothing.2.2 x mem)
      rcases List.mem_append.mp gone with old | new
      · exact List.mem_filter.mpr ⟨held.spared x mem old,before⟩
      · have late := (List.mem_filter.mp new).2
        simp [late] at before }

theorem backsTraced {now : Clock} {json : Json} {r : TraceRow} (held : Backs lowest w c) (row : json.row = some r)
    (accepts : c.Accepts (.txTrace json)) (heeded : BackupHeeded (w,c) (now,.txTrace json)) :
    Backs lowest (w.traced r) (c.after (.txTrace json)) := by
  have after : c.after (.txTrace json) = { c with alive := c.alive ++ [r] } := by simp [Chain.after, row]
  have kept : w.traced r = { w with insertBkpTraces := w.insertBkpTraces ++ [r] } := by simp [traced, held.slave]
  have fresh : r.seq ∉ c.alive.map TraceRow.seq := accepts.2 r row
  rw [after, kept]
  exact {
    slave := held.slave
    confirmed := held.confirmed
    irreversible := held.irreversible
    seqs := seqsTraced held.seqs fresh
    buffered := by
      intro x mem
      rcases List.mem_append.mp mem with old | new
      · obtain ⟨alive,past⟩ := held.buffered x old
        exact ⟨List.mem_append_left _ alive,past⟩
      · refine ⟨List.mem_append_right _ new,?_⟩
        rw [List.mem_singleton.mp new, (rowSource row).1]
        exact accepts.1
    kept := by
      intro x mem past
      rcases List.mem_append.mp mem with old | new
      · exact (held.kept x old past).imp id (List.mem_append_left _)
      · exact Or.inr (List.mem_append_right _ new)
    known := fun x mem => (held.known x mem).imp (List.mem_append_left _) id
    single := by
      intro x mem y alive same
      rcases List.mem_append.mp alive with old | new
      · exact held.single x mem y old same
      · rw [List.mem_singleton.mp new] at same ⊢
        rcases held.known x mem with own | before
        · exact absurd (same ▸ List.mem_map_of_mem own) fresh
        · exact heeded r row x mem before same
    spared := fun x mem gone => List.mem_append_left _ (held.spared x mem gone) }

theorem takenBackup (json : BlockCompleted) (held : Backs lowest w c) : ∃ rows,
    (w.taken json).connection.working.bkpTraces = insertBatch TraceRow.seq rows w.insertBkpTraces ∧
      rows ⊆ w.connection.working.bkpTraces ∧
        ∀ r ∈ w.connection.working.bkpTraces, below (some r.blockNum) lowest = false → r ∈ rows := by
  refine ⟨(w.cleaning json.lastIrreversible w.connection.working).bkpTraces,?_,?_,?_⟩
  · simp [taken, sending, held.slave, Connection.execute, Store.insrtBkpTraces]
  · unfold cleaning
    repeat' split
    all_goals simp [Store.pruneTransactions, Store.pruneReceipts, Store.cleanBkp]
  · intro r mem past
    rw [← held.irreversible] at past
    unfold cleaning
    repeat' split
    all_goals simp [Store.pruneTransactions, Store.pruneReceipts, Store.cleanBkp, mem, past]

theorem backsTaken (held : Backs lowest w c) (accepts : c.Accepts (.blockCompleted json)) :
    Backs lowest (w.taken json) (c.after (.blockCompleted json)) := by
  obtain ⟨rows,working,sub,clean⟩ := takenBackup json held
  have source : ∀ x ∈ (w.taken json).connection.working.bkpTraces,
      x ∈ w.connection.working.bkpTraces ∨ x ∈ c.alive := by
    intro x mem
    rw [working] at mem
    exact (insertBatchMem mem).imp (fun old => sub old) fun new => (held.buffered x new).1
  have single : ∀ x ∈ (w.taken json).connection.working.bkpTraces, ∀ r ∈ c.alive, x.seq = r.seq → x = r := by
    intro x mem r alive same
    rcases source x mem with old | new
    · exact held.single x old r alive same
    · exact List.inj_on_of_nodup_map held.seqs new alive same
  have empty : (w.taken json).insertBkpTraces = [] := by simp [taken, held.slave]
  exact {
    slave := held.slave
    confirmed := Int.le_trans held.confirmed (Int.le_of_lt accepts.1)
    irreversible := by
      unfold Store.minIrreversible
      rw [takenSync]
      exact held.irreversible
    seqs := held.seqs
    buffered := by simp [empty]
    kept := by
      intro r mem past
      refine Or.inl ?_
      rw [working]
      rcases held.kept r mem past with stored | buffered
      · exact insertBatchSub (clean r stored past)
      · have sent : ∃ x ∈ insertBatch TraceRow.seq rows w.insertBkpTraces, x.seq = r.seq := insertBatchKeys buffered
        obtain ⟨x,listed,same⟩ := sent
        exact single x (working ▸ listed) r mem same ▸ listed
    known := fun x mem => (source x mem).elim (held.known x) Or.inl
    single := single
    spared := fun x mem gone => (source x mem).elim (fun old => held.spared x old gone) id }

theorem backsCompleted (held : Backs lowest w c) (accepts : c.Accepts (.blockCompleted json)) :
    Backs lowest (w.completed json) (c.after (.blockCompleted json)) := by
  have taken := backsTaken held accepts
  exact { taken with confirmed := Int.le_refl _ }

theorem backsStep {call : Clock × Message} {f f' : Writer × Chain} (held : Backs lowest f.1 f.2)
    (conditions : Accepted f call ∧ BackupHeeded f call) (ok : follow f call = some f') : Backs lowest f'.1 f'.2 := by
  obtain ⟨w,c⟩ := f
  obtain ⟨w',c'⟩ := f'
  obtain ⟨now,m⟩ := call
  obtain ⟨accepts,heeded⟩ := conditions
  obtain ⟨v,processed,rfl⟩ := followed ok
  cases processed with
  | ignored reversible =>
    rcases heeded with ⟨past,_⟩ | nothing
    · exact absurd past (Int.not_lt.mpr reversible)
    · exact backsIgnored held (backupEmpty now held accepts (Or.inr nothing)) nothing
  | forked => exact backsForked held (backupEmpty now held accepts heeded)
  | skipped known => exact (skippedChain held.confirmed accepts known).symm ▸ held
  | traced new row => exact backsTraced held row accepts heeded
  | batched => exact backsTaken held accepts
  | completed => exact backsCompleted held accepts
  | unknown => exact held

theorem slaveBacksUpChain {run : List (Clock × Message)} {now : Clock} {v : Int} {w'' : Writer}
    (start : initializeWriter o s = .ok w) (slave : w.iAmMaster = false)
    (accepted : Along follow Accepted (w,Chain.above s.bkpTraces w.confirmedBlock) run)
    (heeded : Along follow BackupHeeded (w,Chain.above s.bkpTraces w.confirmedBlock) run)
    (ran : run.foldlM follow (w,Chain.above s.bkpTraces w.confirmedBlock) = some (w',c))
    (accepts : c.Accepts (.blockCompleted json)) (commits : w'.Commits (.blockCompleted json))
    (call : processData now w' (.blockCompleted json) = (w'',.ok v)) :
    BacksUp w''.connection.committed c json.blockNum := by
  have held : Backs s.minIrreversible w' c :=
    runPreserves (fun f => Backs s.minIrreversible f.1 f.2) backsStep (backsStart start slave) (accepted.and heeded) ran
  have done := backsCompleted held accepts
  cases processed call with
  | batched waits => exact absurd commits waits
  | completed =>
    exact {
      kept := by
        intro r mem late _
        have past : below (some r.blockNum) s.minIrreversible = false := done.irreversible ▸ atLeastNotBelow late
        have empty : (w'.completed json).insertBkpTraces = [] := by simp [completed, taken, held.slave]
        exact (done.kept r mem past).resolve_right (by simp [empty])
      spared := done.spared }

end Backup
def paired : Store := ⟨[⟨1,12,10,1,0⟩,⟨2,12,10,0,0⟩],[],[],[],[]⟩

def standby : Writer := { fresh ⟨2,1,-1,false⟩ paired with
  confirmedBlock := 12
  unconfirmedBlock := 12
  irreversible := 10
  iAmMaster := false }

def spareBlock : BlockCompleted := ⟨13,"2020-03-24T00:00:00","0000000d",13⟩

theorem standbyPaired : initializeWriter ⟨2,1,-1,false⟩ paired = .ok standby := by decide +kernel

def watched : Writer × Chain := (standby,Chain.above [] 12)

theorem slaveBacksUpChainPaid : ∃ w c w' v, Along follow Accepted watched [(⟨0,0⟩,.txTrace (paid 13 "a1"))] ∧
    w.Commits (.blockCompleted spareBlock) ∧ processData ⟨0,0⟩ w (.blockCompleted spareBlock) = (w',.ok v) ∧
      BacksUp w'.connection.committed c 13 := by
  have accepted : Along follow Accepted watched [(⟨0,0⟩,.txTrace (paid 13 "a1"))] := by decide +kernel
  have heeded : Along follow BackupHeeded watched [(⟨0,0⟩,.txTrace (paid 13 "a1"))] := by decide +kernel
  have ran : [((⟨0,0⟩ : Clock),Message.txTrace (paid 13 "a1"))].foldlM follow watched =
      some (standby.traced (paidRow 13 "a1"),⟨[],[paidRow 13 "a1"],[],12⟩) := by decide +kernel
  have accepts : (⟨[],[paidRow 13 "a1"],[],12⟩ : Chain).Accepts (.blockCompleted spareBlock) := by decide +kernel
  have commits : (standby.traced (paidRow 13 "a1")).Commits (.blockCompleted spareBlock) := by decide +kernel
  have call : processData ⟨0,0⟩ (standby.traced (paidRow 13 "a1")) (.blockCompleted spareBlock) =
      ((standby.traced (paidRow 13 "a1")).completed spareBlock,.ok 13) := by decide +kernel
  exact ⟨_,_,_,_,accepted,commits,call,slaveBacksUpChain standbyPaired rfl accepted heeded ran accepts commits call⟩

def outlivedRun : List (Clock × Message) :=
  [(⟨0,0⟩,.txTrace (paid 13 "a1")),(⟨0,0⟩,.fork 13),(⟨0,0⟩,.txTrace (paid 13 "b2"))]

def outlived : Writer := ((standby.traced (paidRow 13 "a1")).forked 13).traced (paidRow 13 "b2")

theorem outlivedNotBackedUp : ∃ w c w' v, initializeWriter ⟨2,1,-1,false⟩ paired = .ok standby ∧
    Along follow Accepted watched outlivedRun ∧ outlivedRun.foldlM follow watched = some (w,c) ∧
      c.Accepts (.blockCompleted spareBlock) ∧ w.Commits (.blockCompleted spareBlock) ∧
        processData ⟨0,0⟩ w (.blockCompleted spareBlock) = (w',.ok v) ∧ ¬ BacksUp w'.connection.committed c 13 := by
  refine ⟨outlived,⟨[],[paidRow 13 "b2"],[paidRow 13 "a1"],12⟩,outlived.completed spareBlock,13,standbyPaired,
    by decide +kernel,by decide +kernel,by decide +kernel,by decide +kernel,by decide +kernel,?_⟩
  intro backsUp
  have stored : paidRow 13 "a1" ∈ (outlived.completed spareBlock).connection.committed.bkpTraces := by decide +kernel
  have survives := backsUp.spared (paidRow 13 "a1") stored (List.mem_singleton.mpr rfl)
  revert survives
  decide

end Writer
end FioRelic.Prototype
