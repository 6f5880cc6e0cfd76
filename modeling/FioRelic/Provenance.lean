import FioRelic.AuditOrder
import FioRelic.ProcedureLinks
import FioRelic.ProcedureTwins

/-! Where the data of an audit row was written: its block number is that of the operation
before, as long as no row is rewritten under an older number. -/
namespace FioRelic
open Relational Versioning

structure Consecutive (a : Audited) (s : DB) (e e' : Row a.log) : Prop where
  first : e ∈ (s a.log).rows
  second : e' ∈ (s a.log).rows
  entity : a.layout.entity e' = a.layout.entity e
  later : key a.log e < key a.log e'
  next : ∀ m ∈ (s a.log).rows, a.layout.entity m = a.layout.entity e →
    ¬(key a.log e < key a.log m ∧ key a.log m < key a.log e')

def Traced (a : Audited) (s : DB) : Prop :=
  ∀ e e', Consecutive a s e e' →
    ∃ b, a.written e = some b ∧ fkBlockNumber a.log e' = some b ∧ a.timestamp e' = DB.stampOf s (some b)

def Restamps (n : Node) (e : Event) : Prop :=
  e.call.isFork = false ∧ ∀ b ∈ e.call.keptBlocks e.server n.db, b = DB.head n.db

instance (n : Node) (e : Event) : Decidable (Restamps n e) :=
  inferInstanceAs (Decidable (e.call.isFork = false ∧ ∀ b ∈ e.call.keptBlocks e.server n.db, b = DB.head n.db))

structure Provenance (s : DB) : Prop where
  linked : ∀ a : Audited, a.layout.Linked (a.seen s) (s a.log).rows
  clocked : ∀ a : Audited, ∀ e ∈ (s a.log).rows, a.timestamp e = DB.stampOf s (fkBlockNumber a.log e)

section Run
variable {c : Call} {s s' : DB}

theorem linkedChange {a : Audited} (deletes : a.deletes = true) (valid : s.Valid) (chain : Chain a s) (atHead : AtHead c s)
    (h : Change c s s') (linked : a.layout.Linked (a.seen s) (s a.log).rows) :
    a.layout.Linked (a.seen s') (s' a.log).rows := by
  cases changeEffect h valid a fun _ => atHead with
  | same rows log =>
    have seen : a.seen s' = a.seen s := by
      unfold Audited.seen
      rw [rows]
    rw [seen, log]
    exact linked
  | inserted r number stamped rows log =>
    rw [seenAppend rows, log]
    refine linkedInsert (fun listed => ?_) linked
    obtain ⟨e,mem,same⟩ := List.mem_map.mp listed
    have issued := chain.issued e mem
    have fresh : a.layout.entity e = (s a.table).next := same.trans ((a.keyCopied r).trans number)
    omega
  | written entries log write restamped static updates =>
    rw [log]
    refine linkedWrite write (fun r mem listed => ?_) linked
    rcases restamped deletes r mem with ⟨_,missed⟩ | ⟨m,top,stamp⟩
    · exact absurd listed missed
    · exact stamp.trans top.symm

theorem linkedChanges {a : Audited} (deletes : a.deletes = true) (kempt : Kempt s) (chain : Chain a s) (atHead : AtHead c s)
    (h : Changes c s s') (linked : a.layout.Linked (a.seen s) (s a.log).rows) :
    a.layout.Linked (a.seen s') (s' a.log).rows := by
  suffices standing : Chain a s' ∧ a.layout.Linked (a.seen s') (s' a.log).rows from standing.2
  induction h with
  | refl => exact ⟨chain,linked⟩
  | tail before last ih =>
    have kempt' := kemptChanges kempt before
    have atHead' := Changes.atHead before atHead
    exact ⟨chainChange deletes kempt'.valid kempt'.serial ih.1 last atHead',
      linkedChange deletes kempt'.valid ih.1 atHead' last ih.2⟩

theorem entryClock {a : Audited} {old : Row a.table} {block : Option Int} {operation : String} {e : Row a.log}
    (entry : Entry a s old block operation e) : a.timestamp e = DB.stampOf s (fkBlockNumber a.log e) := by
  rw [entry.timestamp, entryStamp, entry.row]
  exact congrArg (DB.stampOf s) (a.stampCopied old).symm

theorem clockedChange (h : Change c s s') (a : Audited)
    (clocked : ∀ e ∈ (s a.log).rows, a.timestamp e = DB.stampOf s (fkBlockNumber a.log e)) :
    ∀ e ∈ (s' a.log).rows, a.timestamp e = DB.stampOf s' (fkBlockNumber a.log e) := by
  have blocks : ∀ number, DB.stampOf s' number = DB.stampOf s number := fun number => by
    unfold DB.stampOf
    rw [changeBlocks h]
  intro e mem
  rw [blocks]
  cases h with
  | insert t row number stamped inserted valid =>
    by_cases own : a.log = t
    · subst own
      exact absurd inserted insertedLog
    · rw [Database.appendOther _ own] at mem
      exact clocked e mem
  | update a' p assign entries rewritten logged committed valid =>
    by_cases own : a = a'
    · subst own
      rw [logWritten] at mem
      rcases List.mem_append.mp mem with old | new
      · exact clocked e old
      · obtain ⟨_,_,entry⟩ := entriesSource logged new
        exact entryClock entry
    · rw [(writtenApart own).2] at mem
      exact clocked e mem
  | delete a' deletes p entries logged committed valid =>
    by_cases own : a = a'
    · subst own
      rw [logWritten] at mem
      rcases List.mem_append.mp mem with old | new
      · exact clocked e old
      · obtain ⟨_,_,entry⟩ := entriesSource logged new
        exact entryClock entry
    · rw [(writtenApart own).2] at mem
      exact clocked e mem

theorem clockedChanges (h : Changes c s s') (a : Audited)
    (clocked : ∀ e ∈ (s a.log).rows, a.timestamp e = DB.stampOf s (fkBlockNumber a.log e)) :
    ∀ e ∈ (s' a.log).rows, a.timestamp e = DB.stampOf s' (fkBlockNumber a.log e) := by
  induction h with
  | refl => exact clocked
  | tail _ last ih => exact clockedChange last a ih

theorem stampOfGrown {number : Option Int} (resolves : s.Resolves .blocks number) (block : Block) :
    DB.stampOf (s.append .blocks [block]) number = DB.stampOf s number := by
  unfold DB.stampOf
  rw [Database.appendSame, List.find?_append]
  cases number with
  | none => simp
  | some k =>
    obtain ⟨r,mem,own⟩ := List.mem_map.mp resolves
    have found : ((s .blocks).rows.find? fun r : Block => same (some r.pkBlockNumber) (some k)).isSome = true :=
      List.find?_isSome.mpr ⟨r,mem,decide_eq_true own⟩
    rw [Option.or_of_isSome found]

theorem provenanceBlock {block : Block} (valid : s.Valid) (provenance : Provenance s) :
    Provenance (s.append .blocks [block]) where
  linked := by
    intro a
    unfold Audited.seen
    rw [Database.appendOther _ a.tableBlocks, Database.appendOther _ a.logBlocks]
    exact provenance.linked a
  clocked := by
    intro a e mem
    rw [Database.appendOther _ a.logBlocks] at mem
    rw [stampOfGrown (valid.resolves (blockReference a.logBlocks) mem)]
    exact provenance.clocked a e mem

theorem provenanceMoved {n n' : Node} {e : Event} (sound : Sound n) (met : Restamps n e) (move : Moved n e n')
    (provenance : Provenance n.db) : Provenance n'.db := by
  cases move with
  | lost => exact ⟨provenance.linked,provenance.clocked⟩
  | grown block above valid => exact provenanceBlock sound.kempt.valid provenance
  | forked b s' v nonneg call ran =>
    have forward := met.1
    rw [call] at forward
    cases forward
  | changed s' v ordinary atHead ran changes =>
    refine ⟨fun a => ?_,fun a => clockedChanges changes a (provenance.clocked a)⟩
    cases deletes : a.deletes with
    | true => exact linkedChanges deletes sound.kempt (sound.chain a deletes) atHead changes (provenance.linked a)
    | false =>
      have linking : Linking (DB.head n.db) n.db :=
        ⟨sound.kempt.valid,sound.kempt.serial,rfl,fun a _ => provenance.linked a⟩
      exact (callLinks ordinary (fun b given => (atHead b given).2) met.2 linking v s' ran).linked a deletes

end Run

theorem auditsTraced {history : List Event} (order : ChainOrder history) (restamped : Meets Restamps history) {a : Audited}
    (dated : a ≠ .nftSignatures) : Traced a (run history).db := by
  have empty : Provenance Node.empty.db := ⟨fun _ => linkedEmpty,fun _ _ mem => absurd mem List.not_mem_nil⟩
  obtain ⟨sound,provenance⟩ := runInduction (P := fun n => Provenance n.db) empty
    (fun n e n' sound met move provenance => provenanceMoved sound met move provenance) order restamped
  intro e e' consecutive
  obtain ⟨b,written⟩ := Option.isSome_iff_exists.mp ((auditStampedRun order).entries a dated e consecutive.first).2
  have sorted := (sound.kempt.serial a.log (serialLog a)).1
  unfold Database.keys at sorted
  rw [List.pairwise_map] at sorted
  have link : a.layout.stamp (a.row e') = a.written e :=
    chainBetween ((provenance.linked a).chain (a.layout.entity e)) (sorted.sublist List.filter_sublist)
      (trailMem.mpr ⟨consecutive.first,rfl⟩) (trailMem.mpr ⟨consecutive.second,consecutive.entity⟩) consecutive.later
      fun m mem => consecutive.next m (trailMem.mp mem).1 (trailMem.mp mem).2
  have stamp : fkBlockNumber a.log e' = some b := (entryStamp a e').trans (link.trans written)
  exact ⟨b,written,stamp,by rw [provenance.clocked a e' consecutive.second, stamp]⟩

def restamped : List Call :=
  transferred.take 6 ++
    [.updDomainExp (some "fio") (some 19),
      .insTokenTransfers none (some 1) (some "fio.token") (some "bob") (some 5) (some "transfer") none none,
      .insBlocks (some 2) none (some "b2") none none,
      .updHandlesXferOwner (some 2) (some "alice@fio") (some "bob") (some "k2") (some true),
      .insBlocks (some 3) none (some "b3") none none,
      .updHandleBurnt (some 3) (some "alice@fio")]

theorem auditsTracedRestamped : Traced .handles (run (events restamped)).db :=
  auditsTraced (by decide +kernel) (by decide +kernel) (by decide)

def renewed : List Call :=
  [.insBlocks (some 1) none (some "b1") none none,
    .insUpdAccounts (some 1) (some "alice") (some "k1") none none,
    .insDomains (some 1) (some "fio") (some "alice") (some false) (some 9) (some "active"),
    .insBlocks (some 2) none (some "b2") none none,
    .updDomainExp (some "fio") (some 19),
    .insBlocks (some 3) none (some "b3") none none,
    .updDomainExp (some "fio") (some 29)]

def firstRenewal : DomainAudit :=
  ⟨1,1,some 1,some 2,some "fio",some 1,some false,some 9,⟨"active",by decide⟩,updateOnly,none⟩
def secondRenewal : DomainAudit :=
  ⟨2,1,some 1,some 3,some "fio",some 1,some false,some 19,⟨"active",by decide⟩,updateOnly,none⟩

theorem renewedUntraced : ChainOrder (events renewed) ∧ (∀ e ∈ events renewed, e.call.isFork = false) ∧
    ((run (events renewed)).db .domainsAudit).rows = [firstRenewal,secondRenewal] ∧
    ¬Traced .domains (run (events renewed)).db := by
  have rows : ((run (events renewed)).db .domainsAudit).rows = [firstRenewal,secondRenewal] := by decide +kernel
  refine ⟨by decide +kernel,by decide +kernel,rows,fun traced => ?_⟩
  have consecutive : Consecutive .domains (run (events renewed)).db firstRenewal secondRenewal := by
    refine ⟨?_,?_,rfl,by decide,?_⟩
    · exact rows ▸ List.mem_cons_self
    · exact rows ▸ List.mem_cons_of_mem _ List.mem_cons_self
    · intro m mem
      rw [show ((run (events renewed)).db (Audited.log .domains)).rows = _ from rows] at mem
      revert m
      decide
  obtain ⟨b,written,stamp,_⟩ := traced firstRenewal secondRenewal consecutive
  have two : b = 2 := (Option.some.inj written).symm
  have one : b = 1 := (Option.some.inj stamp).symm
  omega

end FioRelic
