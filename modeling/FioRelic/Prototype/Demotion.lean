import FioRelic.Prototype.Chain

/-! A master that another writer takes over from: it asks SYNC for its role only at the
first message after a commit of its own. -/
namespace FioRelic.Prototype
open Relational

inductive Event where
  | message (now : Clock) (m : Message)
  | takeover (sourceId : Int)
  deriving DecidableEq, Repr

namespace Writer

def unseated (w : Writer) (sourceId : Int) : Writer :=
  { w with connection := (w.connection.elsewhere (Store.updSync1 sourceId)).elsewhere (Store.updSync2 sourceId) }

end Writer

namespace Event

def step (w : Writer) : Event → Option Writer
  | .message now m => match w.onRead now m with
    | (w',.ok _) => some w'
    | (_,.error _) => none
  | .takeover sourceId => if sourceId = w.sourceId then none else some (w.unseated sourceId)

def after (w : Writer) : Event → Writer
  | .message now m => (w.onRead now m).1
  | .takeover sourceId => if sourceId = w.sourceId then w else w.unseated sourceId

def Commits (w : Writer) : Event → Prop
  | .message _ (.fork _) => True
  | .message _ m => w.Commits m
  | .takeover _ => False

end Event

structure NoRow (s s' : Store) : Prop where
  transactions : s'.transactions ⊆ s.transactions
  receipts : s'.receipts ⊆ s.receipts

theorem NoRow.refl (s : Store) : NoRow s s := ⟨List.Subset.refl _,List.Subset.refl _⟩

theorem NoRow.trans {s s' s'' : Store} (early : NoRow s s') (late : NoRow s' s'') : NoRow s s'' :=
  ⟨List.Subset.trans late.transactions early.transactions,List.Subset.trans late.receipts early.receipts⟩

namespace Writer

def Calm (w : Writer) : Prop := w.iAmMaster = true → w.justCommitted = true

def Steady (w : Writer) : Prop := w.Calm → NoRow w.connection.committed w.connection.working

def Deposed (w : Writer) : Prop :=
  ∀ r, (w.connection.working.sync.find? fun r => r.sourceid == w.sourceId) = some r → r.isMaster = 0

structure Over (w : Writer) : Prop where
  calm : w.Calm
  steady : w.Steady
  deposed : w.Deposed

inductive Asked (now : Clock) (w : Writer) : Writer → Prop where
  | quiet (silent : w.iAmMaster = true → w.justCommitted = false) : Asked now w w
  | seated {r} (asks : w.iAmMaster = true ∧ w.justCommitted = true)
      (found : (w.connection.working.sync.find? fun r => r.sourceid == w.sourceId) = some r) (seat : r.isMaster ≠ 0) :
      Asked now w { w with justCommitted := false }
  | demoted (asks : w.iAmMaster = true ∧ w.justCommitted = true) :
      Asked now w { w with iAmMaster := false, retiredTime := now.system, justCommitted := false }

section Demotion
variable {w w' u : Writer} {now : Clock} {m : Message} {v : Int} {s : Store} {o : Options} {n : Int} {e : Event}

theorem asked : Asked now w (w.checkRole now) := by
  unfold checkRole
  split
  · rename_i asks
    rw [Bool.and_eq_true] at asks
    cases found : w.connection.working.sync.find? fun r => r.sourceid == w.sourceId with
    | none => exact .demoted asks
    | some r =>
      by_cases seat : r.isMaster = 0
      · simp only [seat, ne_eq, not_true_eq_false, decide_false, Bool.false_eq_true, if_false]
        exact .demoted asks
      · simp only [seat, ne_eq, not_false_eq_true, decide_true, if_true]
        exact .seated asks found seat
  · rename_i quiet
    exact .quiet fun master => by simpa [master] using quiet

theorem askedSteady (asked : Asked now w u) (steady : w.Steady) : u.Steady := by
  cases asked with
  | quiet => exact steady
  | seated asks => exact fun calm => absurd (calm asks.1) Bool.false_ne_true
  | demoted asks => exact fun _ => steady fun _ => asks.2

theorem askedOver (asked : Asked now w u) (settled : w.Over) : u.iAmMaster = false := by
  cases asked with
  | quiet silent =>
    cases master : w.iAmMaster with
    | false => rfl
    | true => exact absurd ((settled.calm master).symm.trans (silent master)) Bool.false_ne_true.symm
  | seated asks found seat => exact absurd (settled.deposed _ found) seat
  | demoted => rfl

theorem askedDeposed (asked : Asked now w u) (deposed : w.Deposed) : u.Deposed := by
  cases asked <;> exact deposed

theorem askedCommits (asked : Asked now w u) : u.connection = w.connection ∧ (u.Commits m ↔ w.Commits m) := by
  cases asked <;> exact ⟨rfl,Iff.rfl⟩

theorem processedCommits (call : Processed now w m w' v) :
    (¬ (Event.message now m).Commits w ∧ w'.connection.committed = w.connection.committed ∧
        w'.justCommitted = w.justCommitted) ∨
      ((Event.message now m).Commits w ∧ w'.connection.committed = w'.connection.working ∧ w'.justCommitted = true) := by
  cases call with
  | ignored => exact Or.inr ⟨trivial,rfl,rfl⟩
  | forked => exact Or.inr ⟨trivial,rfl,rfl⟩
  | skipped => exact Or.inl ⟨id,rfl,rfl⟩
  | traced =>
    unfold traced saved saveTrace
    repeat' split
    all_goals exact Or.inl ⟨id,rfl,rfl⟩
  | batched waits => exact Or.inl ⟨waits,rfl,rfl⟩
  | completed commits => exact Or.inr ⟨commits,rfl,rfl⟩
  | unknown => exact Or.inl ⟨id,rfl,rfl⟩

theorem processedDeposed (call : Processed now w m w' v) (deposed : w.Deposed) : w'.Deposed := by
  cases call with
  | @forked n =>
    intro r found
    change ((w.forking n w.connection.working).sync.find? fun r => r.sourceid == w.sourceId) = some r at found
    unfold forking at found
    rw [updSyncForkOwn, Option.map_eq_some_iff] at found
    obtain ⟨old,stored,rfl⟩ := found
    refine deposed old ?_
    split at stored <;> exact stored
  | traced =>
    unfold Deposed
    rw [tracedConnection.1, tracedConnection.2]
    exact deposed
  | batched | completed =>
    intro r found
    exact deposed r (takenSync ▸ found)
  | _ => exact deposed

theorem cleaningRows : NoRow s (w.cleaning n s) := by
  unfold cleaning
  split
  · split
    · exact ⟨List.filter_sublist.subset,List.filter_sublist.subset⟩
    · exact ⟨List.Subset.refl _,List.Subset.refl _⟩
  · exact NoRow.refl s

theorem takenSlave {json : BlockCompleted} (slave : w.iAmMaster = false) :
    NoRow w.connection.working (w.taken json).connection.working := by
  have rows : NoRow w.connection.working (w.cleaning json.lastIrreversible w.connection.working) := cleaningRows
  simp only [taken, sending, Connection.execute, slave]
  exact ⟨rows.transactions,rows.receipts⟩

theorem processedSlave (call : Processed now w m w' v) (slave : w.iAmMaster = false) :
    NoRow w.connection.working w'.connection.working := by
  cases call with
  | forked =>
    simp only [Writer.forked, forking, slave, Connection.execute, Connection.commit]
    exact ⟨List.Subset.refl _,List.Subset.refl _⟩
  | traced =>
    rw [tracedConnection.1]
    exact NoRow.refl _
  | batched | completed => exact takenSlave slave
  | _ => exact NoRow.refl _

theorem messageStep (ok : (Event.message now m).step w = some w') :
    ∃ u v, Asked now w u ∧ Processed now u m w' v := by
  simp only [Event.step, onRead] at ok
  split at ok
  · rename_i next v returned
    cases ok
    exact ⟨_,v,asked,processed returned⟩
  · cases ok

theorem unseatedDeposed (other : n ≠ w.sourceId) : (w.unseated n).Deposed := by
  intro r found
  change ((w.connection.working.updSync1 n).updSync2 n).sync.find? (fun r => r.sourceid == w.sourceId) = some r at found
  have own := List.find?_some found
  have mem := List.mem_of_find?_eq_some found
  simp only [Store.updSync2, Store.updSync1, List.map_map, List.mem_map, Function.comp_apply] at mem
  obtain ⟨old,_,rfl⟩ := mem
  by_cases same : old.sourceid = n
  · simp_all
  · simp [same]

theorem unseatedSteady (steady : w.Steady) : (w.unseated n).Steady := by
  intro calm
  have rows := steady calm
  exact ⟨rows.transactions,rows.receipts⟩

theorem messageSteady (steady : w.Steady) (asked : Asked now w u) (call : Processed now u m w' v) : w'.Steady := by
  have quiet : u.iAmMaster = true → u.justCommitted = false := by
    cases asked with
    | quiet silent => exact silent
    | seated => exact fun _ => rfl
    | demoted => exact fun _ => rfl
  intro calm
  rcases processedCommits call with ⟨_,same,silent⟩ | ⟨_,all,_⟩
  · -- nothing is committed, so the writer is a slave, or calm would have been quiet
    have slave : u.iAmMaster = false := by
      cases master : u.iAmMaster with
      | false => rfl
      | true =>
        have spoken := calm ((processedFixed call).1.trans master)
        rw [silent, quiet master] at spoken
        cases spoken
    rw [same]
    refine (askedSteady asked steady ?_).trans (processedSlave call slave)
    intro master
    rw [slave] at master
    cases master
  · rw [all]
    exact NoRow.refl _

theorem steadyStep (steady : w.Steady) (ok : e.step w = some w') : w'.Steady := by
  cases e with
  | message now m =>
    obtain ⟨u,v,asked,call⟩ := messageStep ok
    exact messageSteady steady asked call
  | takeover b =>
    simp only [Event.step] at ok
    split at ok <;> cases ok
    exact unseatedSteady steady

theorem deposedStep (deposed : w.Deposed) (ok : e.step w = some w') : w'.Deposed := by
  cases e with
  | message now m =>
    obtain ⟨u,v,asked,call⟩ := messageStep ok
    exact processedDeposed call (askedDeposed asked deposed)
  | takeover b =>
    simp only [Event.step] at ok
    split at ok <;> cases ok
    rename_i other
    exact unseatedDeposed other

theorem stepAfter (ok : e.step w = some w') : w' = e.after w := by
  cases e with
  | message now m =>
    simp only [Event.step] at ok
    split at ok
    · rename_i next v returned
      cases ok
      simp [Event.after, returned]
    · cases ok
  | takeover b =>
    simp only [Event.step] at ok
    split at ok
    · cases ok
    · rename_i other
      cases ok
      simp [Event.after, other]

theorem slaveRows (slave : w.iAmMaster = false) (opened : NoRow w.connection.committed w.connection.working) :
    NoRow w.connection.committed (processData now w m).1.connection.committed := by
  rcases outcome (w := w) (m := m) with ⟨v,call⟩ | same | ⟨json,_,_,_,same⟩
  · rcases processedCommits call with ⟨_,same,_⟩ | ⟨_,all,_⟩
    · rw [same]
      exact NoRow.refl _
    · rw [all]
      exact opened.trans (processedSlave call slave)
  · rw [same]
    exact NoRow.refl _
  · rw [same]
    exact opened.trans (takenSlave slave)

theorem overAfter (settled : w.Over) : NoRow w.connection.committed (e.after w).connection.committed := by
  cases e with
  | message now m =>
    have role : Asked now w (w.checkRole now) := asked
    have rows := @slaveRows _ now m (askedOver role settled)
    rw [(askedCommits (m := m) role).1] at rows
    exact rows (settled.steady settled.calm)
  | takeover b =>
    simp only [Event.after]
    split <;> exact ⟨List.Subset.refl _,List.Subset.refl _⟩

theorem overStep (settled : w.Over) (ok : e.step w = some w') : w'.Over := by
  refine ⟨?_,steadyStep settled.steady ok,deposedStep settled.deposed ok⟩
  cases e with
  | message now m =>
    obtain ⟨u,v,asked,call⟩ := messageStep ok
    have stays : w'.iAmMaster = false := (processedFixed call).1.trans (askedOver asked settled)
    exact fun master => absurd (stays.symm.trans master) Bool.false_ne_true
  | takeover b =>
    simp only [Event.step] at ok
    split at ok <;> cases ok
    exact settled.calm

theorem startSteady (start : initializeWriter o s = .ok w) : w.Steady := by
  obtain ⟨own,found,rfl⟩ := initialized start
  exact fun _ => NoRow.refl _

theorem steadyRun {run : List Event} (steady : w.Steady) (ran : run.foldlM Event.step w = some w') : w'.Steady :=
  runPreserves Steady (fun held _ ok => steadyStep held ok) steady (Along.always fun _ _ => trivial) ran

theorem deposedRun {run : List Event} (deposed : w.Deposed) (ran : run.foldlM Event.step w = some w') : w'.Deposed :=
  runPreserves Deposed (fun held _ ok => deposedStep held ok) deposed (Along.always fun _ _ => trivial) ran

theorem overRun {run : List Event} (settled : w.Over) (ran : run.foldlM Event.step w = some w') :
    w'.Over ∧ NoRow w.connection.committed w'.connection.committed := by
  refine runPreserves (fun u => u.Over ∧ NoRow w.connection.committed u.connection.committed) ?_
    ⟨settled,NoRow.refl _⟩ (Along.always (P := fun _ _ => True) fun _ _ => trivial) ran
  rintro u e u' ⟨held,rows⟩ _ ok
  exact ⟨overStep held ok,rows.trans (stepAfter ok ▸ overAfter held)⟩

theorem askedEvent (asked : Asked now w u) : (Event.message now m).Commits u ↔ (Event.message now m).Commits w := by
  cases m with
  | fork => exact Iff.rfl
  | _ => cases asked <;> exact Iff.rfl

theorem waitingAfter (waits : ¬ e.Commits w) : NoRow w.connection.committed (e.after w).connection.committed := by
  cases e with
  | message now m =>
    have role : Asked now w (w.checkRole now) := asked
    change NoRow _ (processData now (w.checkRole now) m).1.connection.committed
    rw [← (askedCommits (m := m) role).1]
    rcases @outcome (w.checkRole now) now m with ⟨v,call⟩ | same | ⟨json,rfl,commits,_,_⟩
    · rcases processedCommits call with ⟨_,same,_⟩ | ⟨commits,_,_⟩
      · rw [same]
        exact NoRow.refl _
      · exact absurd ((askedEvent role).mp commits) waits
    · rw [same]
      exact NoRow.refl _
    · exact absurd ((askedCommits role).2.mp commits) waits
  | takeover b =>
    simp only [Event.after]
    split <;> exact ⟨List.Subset.refl _,List.Subset.refl _⟩

theorem commitOver (steady : w.Steady) (deposed : w.Deposed) (commits : e.Commits w) (ok : e.step w = some w') :
    w'.Over := by
  refine ⟨?_,steadyStep steady ok,deposedStep deposed ok⟩
  cases e with
  | message now m =>
    obtain ⟨u,v,asked,call⟩ := messageStep ok
    rcases processedCommits call with ⟨waits,_,_⟩ | ⟨_,_,spoken⟩
    · exact absurd ((askedEvent asked).mpr commits) waits
    · exact fun _ => spoken
  | takeover => exact absurd commits id

theorem unseatedRows : NoRow w.connection.committed (w.unseated n).connection.committed :=
  ⟨List.Subset.refl _,List.Subset.refl _⟩

theorem demotedStops {w₀ w₁ w₂ : Writer} {b : Int} {early late : List Event}
    (start : initializeWriter o s = .ok w) (before : early.foldlM Event.step w = some w₀)
    (taken : (Event.takeover b).step w₀ = some w₁) (since : late.foldlM Event.step w₁ = some w₂) (e : Event) :
    (¬ e.Commits w₂ → NoRow w₂.connection.committed (e.after w₂).connection.committed) ∧
      (e.Commits w₂ → ∀ (w₃ w₄ : Writer) (rest : List Event) (e' : Event), e.step w₂ = some w₃ →
        rest.foldlM Event.step w₃ = some w₄ → NoRow w₃.connection.committed (e'.after w₄).connection.committed) ∧
      (w₀.Calm → NoRow w₀.connection.committed (e.after w₂).connection.committed) := by
  have steady₀ : w₀.Steady := steadyRun (startSteady start) before
  have steady₁ : w₁.Steady := steadyStep steady₀ taken
  simp only [Event.step] at taken
  split at taken <;> cases taken
  rename_i other
  have deposed₁ : (w₀.unseated b).Deposed := unseatedDeposed other
  refine ⟨waitingAfter,?_,?_⟩
  · intro commits w₃ w₄ rest e' ok ran
    obtain ⟨settled,rows⟩ := overRun (commitOver (steadyRun steady₁ since) (deposedRun deposed₁ since) commits ok) ran
    exact rows.trans (overAfter settled)
  · intro calm
    have settled : (w₀.unseated b).Over := ⟨calm,steady₁,deposed₁⟩
    obtain ⟨settled₂,rows⟩ := overRun settled since
    exact unseatedRows.trans (rows.trans (overAfter settled₂))

end Demotion

def manned : Store := ⟨[⟨1,0,0,1,946684800⟩,⟨2,0,0,0,946684800⟩],[],[],[],[]⟩

def acting : Writer := { started with connection := ⟨manned,manned⟩ }

theorem actingManned : initializeWriter defaultOptions manned = .ok acting := by decide +kernel

def laden : Writer := acting.traced (paidRow 1 "a1")

theorem ladenActing : [Event.message ⟨0,0⟩ (.txTrace (paid 1 "a1"))].foldlM Event.step acting = some laden := by
  decide +kernel

def seized : Writer := laden.unseated 2

theorem seizedTaken : (Event.takeover 2).step laden = some seized := by decide +kernel

theorem seizedCompleted : (Event.message ⟨0,0⟩ (.blockCompleted firstBlock)).step seized =
    some (seized.completed firstBlock) := by decide +kernel

theorem demotedStopsSeized : ∃ w, (Event.message ⟨0,0⟩ (.blockCompleted firstBlock)).step seized = some w ∧
    NoRow w.connection.committed ((Event.message ⟨0,0⟩ (.fork 1)).after w).connection.committed := by
  have commits : (Event.message ⟨0,0⟩ (.blockCompleted firstBlock)).Commits seized := by
    change seized.Commits (.blockCompleted firstBlock)
    decide +kernel
  have since : ([] : List Event).foldlM Event.step seized = some seized := rfl
  have stops := demotedStops actingManned ladenActing seizedTaken since (.message ⟨0,0⟩ (.blockCompleted firstBlock))
  exact ⟨_,seizedCompleted,stops.2.1 commits _ _ [] (.message ⟨0,0⟩ (.fork 1)) seizedCompleted rfl⟩

theorem seizedCommits : initializeWriter defaultOptions manned = .ok acting ∧
    (Event.message ⟨0,0⟩ (.blockCompleted firstBlock)).step seized = some (seized.completed firstBlock) ∧
      paidRow 1 "a1" ∉ seized.connection.committed.transactions ∧
        paidRow 1 "a1" ∈ (seized.completed firstBlock).connection.committed.transactions :=
  ⟨actingManned,seizedCompleted,by decide +kernel,by decide +kernel⟩

end Writer
end FioRelic.Prototype
