import FioRelic.Restore

/-! The audit tables at a call boundary. Every row of an audited table and every audit row
is dated, the dates of an audit row are in order and stored, and they grow with the audit
id, also after reorganisations. NFT signatures are left out: a fork loses their dates. -/
namespace FioRelic
open Relational Versioning

structure AuditStamped (s : DB) : Prop where
  rows : ∀ a : Audited, a ≠ .nftSignatures → ∀ r ∈ a.seen s, (a.layout.stamp r).isSome = true
  entries : ∀ a : Audited, a ≠ .nftSignatures → ∀ e ∈ (s a.log).rows,
    (a.layout.stamp (a.row e)).isSome = true ∧ (a.written e).isSome = true

theorem entryStamp (a : Audited) (e : Row a.log) : fkBlockNumber a.log e = a.layout.stamp (a.row e) := by
  cases a <;> rfl

section Changes
variable {c : Call} {s s' : DB} {a : Audited}

theorem seenRow {r : Row a.table} (mem : r ∈ (s a.table).rows) : a.copied r ∈ a.seen s := List.mem_map_of_mem mem

theorem givenStamp {number : Option Int} (atHead : AtHead c s) (given : c.blockArgument = some number) :
    number.isSome = true := (atHead number given).1

theorem changeStamps (h : Change c s s') (atHead : AtHead c s)
    (rows : ∀ r ∈ (s a.table).rows, (fkBlockNumber a.table r).isSome = true) :
    ∀ r ∈ (s' a.table).rows, (fkBlockNumber a.table r).isSome = true := by
  intro r mem
  cases h with
  | insert t row number stamped inserted valid =>
    by_cases own : a.table = t
    · subst own
      rw [Database.appendSame] at mem
      rcases List.mem_append.mp mem with old | new
      · exact rows r old
      · rw [List.mem_singleton.mp new]
        exact givenStamp atHead stamped
    · rw [Database.appendOther _ own] at mem
      exact rows r mem
  | update a' p assign entries rewritten logged committed valid =>
    rw [Database.appendOther _ (a.tableLog a')] at mem
    by_cases own : a = a'
    · subst own
      rw [Database.withRowsSame] at mem
      obtain ⟨old,inRows,rfl⟩ := List.mem_map.mp mem
      unfold assigned
      cases hit : p old with
      | false => exact rows old inRows
      | true =>
        rcases (rewritten old inRows hit).stamp with given | ⟨_,same⟩
        · exact givenStamp atHead given
        · rw [if_pos rfl, same]
          exact rows old inRows
    · rw [Database.withRowsOther _ (Audited.tableInjective own)] at mem
      exact rows r mem
  | delete a' deletes p entries logged committed valid =>
    rw [Database.appendOther _ (a.tableLog a')] at mem
    by_cases own : a = a'
    · subst own
      rw [Database.withRowsSame] at mem
      exact rows r (List.mem_filter.mp mem).1
    · rw [Database.withRowsOther _ (Audited.tableInjective own)] at mem
      exact rows r mem

theorem auditStampedChange (valid : s.Valid) (atHead : AtHead c s) (h : Change c s s') (stamped : AuditStamped s) :
    AuditStamped s' where
  rows := by
    intro a dated r mem
    obtain ⟨source,inRows,rfl⟩ := List.mem_map.mp mem
    have before : ∀ r ∈ (s a.table).rows, (fkBlockNumber a.table r).isSome = true := fun r mem =>
      a.stampCopied r ▸ stamped.rows a dated _ (seenRow mem)
    change (fkBlockNumber a.table (a.copied source)).isSome = true
    rw [a.stampCopied]
    exact changeStamps h atHead before source inRows
  entries := by
    intro a dated e mem
    cases changeEffect h valid a fun _ => atHead with
    | same rows log => exact stamped.entries a dated e (log ▸ mem)
    | inserted r number given rows log => exact stamped.entries a dated e (log ▸ mem)
    | written entries log write restamped static updates =>
      rw [log] at mem
      rcases List.mem_append.mp mem with old | new
      · exact stamped.entries a dated e old
      · have stored := (findMem (write.old e new)).1
        have present := stamped.rows a dated _ stored
        obtain ⟨d,stamp⟩ := Option.isSome_iff_exists.mp present
        obtain ⟨h,top,_⟩ := seenStamp valid stored stamp
        exact ⟨present,by rw [show a.written e = DB.head s from write.written e new, top]; rfl⟩

theorem auditStampedChanges (kempt : Kempt s) (atHead : AtHead c s) (h : Changes c s s') (stamped : AuditStamped s) :
    AuditStamped s' := by
  induction h with
  | refl => exact stamped
  | tail before last ih => exact auditStampedChange (kemptChanges kempt before).valid (Changes.atHead before atHead) last ih

theorem auditStampedBlock {block : Block} (stamped : AuditStamped s) : AuditStamped (s.append .blocks [block]) where
  rows := by
    intro a dated r mem
    unfold Audited.seen at mem
    rw [Database.appendOther _ a.tableBlocks] at mem
    exact stamped.rows a dated r mem
  entries := by
    intro a dated e mem
    rw [Database.appendOther _ a.logBlocks] at mem
    exact stamped.entries a dated e mem

theorem auditStampedRestored {s₀ : DB} (restored : Restored s' s₀) (stamped : AuditStamped s₀) : AuditStamped s' where
  rows := by
    intro a dated r mem
    cases deletes : a.deletes with
    | false => exact stamped.rows a dated r (restored.kept a deletes ▸ mem)
    | true =>
      have only : a = .pubAddresses := by
        cases a <;> first
          | rfl
          | exact absurd rfl dated
          | cases deletes
      subst only
      rw [seenDeletes rfl] at mem
      have listed : Audited.blank .pubAddresses r ∈ (s₀ .pubAddresses).rows.map (Audited.blank .pubAddresses) :=
        restored.addresses.subset (List.mem_map_of_mem mem)
      obtain ⟨r₀,inRows,same⟩ := List.mem_map.mp listed
      rw [← blankStamp (a := .pubAddresses) same]
      exact stamped.rows .pubAddresses dated r₀ (by rw [seenDeletes rfl]; exact inRows)
  entries := by
    intro a dated e mem
    rw [restored.entries a] at mem
    exact stamped.entries a dated e mem

end Changes

theorem auditStampedEmpty : AuditStamped (Database.empty relic) :=
  ⟨fun _ _ _ mem => absurd mem List.not_mem_nil,fun _ _ _ mem => absurd mem List.not_mem_nil⟩

theorem auditStampedRun {history : List Event} (order : ChainOrder history) : AuditStamped (run history).db :=
  (reorgInduction auditStampedEmpty (fun _ _ stamped => ⟨stamped.rows,stamped.entries⟩) (fun _ _ => auditStampedBlock)
    (fun _ _ _ _ _ _ standing atHead _ changes => auditStampedChanges standing.kempt atHead changes)
    (fun _ _ _ _ => auditStampedRestored) order
    (meetsEach fun _ _ => trivial : Meets (fun _ _ => True) history)).1

def LeastSince (a : Audited) (log : List (Row a.log)) (b : Int) (e : Row a.log) : Prop :=
  e ∈ log ∧ atLeast (a.written e) (some b) = true ∧
    ∀ e' ∈ log, a.layout.entity e' = a.layout.entity e → atLeast (a.written e') (some b) = true → key a.log e ≤ key a.log e'

structure WellOrdered (a : Audited) (n : Node) : Prop where
  within : ∀ e ∈ (n.db a.log).rows, ∃ data operation head, fkBlockNumber a.log e = some data ∧
    a.written e = some operation ∧ DB.head n.db = some head ∧ data ≤ operation ∧ operation ≤ head
  ascending : ∀ e ∈ (n.db a.log).rows, ∀ e' ∈ (n.db a.log).rows, a.layout.entity e = a.layout.entity e' →
    key a.log e < key a.log e' → ∃ operation operation', a.written e = some operation ∧ a.written e' = some operation' ∧
      operation ≤ operation'
  before : ∀ b e, LeastSince a (n.db a.log).rows b e → atLeast (fkBlockNumber a.log e) (some b) = false →
    ∃ r ∈ a.seen (n.beforeBlock b), a.blank r = a.blank (a.row e)

section Orders
variable {n : Node} {a : Audited} {b : Int}

theorem leastReplaced {s : DB} (serial : s.Serial) {e : Row a.log} (least : LeastSince a (s a.log).rows b e) :
    a.layout.replaced (some b) (s a.log).rows (a.layout.entity e) = some e := by
  obtain ⟨mem,late,lowest⟩ := least
  have sorted := (serial a.log (serialLog a)).1
  unfold Database.keys at sorted
  rw [List.pairwise_map] at sorted
  cases first : a.layout.replaced (some b) (s a.log).rows (a.layout.entity e) with
  | none =>
    have early : atLeast (a.written e) (some b) = false := replacedNone.mp first e mem rfl
    rw [early] at late
    cases late
  | some e' =>
    obtain ⟨mem',same,late'⟩ := replacedSpec first
    have le := lowest e' mem' same late'
    obtain ⟨_,front,back,split,missed⟩ := List.find?_eq_some_iff_append.mp first
    rw [split] at mem sorted
    rcases List.mem_append.mp mem with earlier | later
    · have hit : (decide (a.layout.entity e = a.layout.entity e) && atLeast (a.layout.written e) (some b)) = true := by
        rw [decide_eq_true rfl, Bool.true_and]
        exact late
      have miss := missed e earlier
      rw [hit] at miss
      cases miss
    · rcases List.mem_cons.mp later with rfl | after
      · rfl
      · have greater := (List.pairwise_cons.mp (List.pairwise_append.mp sorted).2.1).1 e after
        exact absurd greater (Int.not_lt.mpr le)

theorem leastBefore (sound : Sound n) (dated : a ≠ .nftSignatures) {e : Row a.log}
    (least : LeastSince a (n.db a.log).rows b e) (early : atLeast (fkBlockNumber a.log e) (some b) = false) :
    ∃ r ∈ a.seen (n.beforeBlock b), a.blank r = a.blank (a.row e) := by
  rw [entryStamp] at early
  have version : a.layout.rewind (some b) (a.seen n.db) (n.db a.log).rows (a.layout.entity e) = some (a.row e) := by
    unfold Layout.rewind Layout.version
    rw [leastReplaced sound.kempt.serial least]
    exact Option.filter_eq_some_iff.mpr ⟨rfl,by rw [early]; rfl⟩
  cases deletes : a.deletes with
  | false =>
    rw [← (sound.past b).kept a deletes] at version
    exact ⟨a.row e,(findMem version).1,rfl⟩
  | true =>
    have only : a = .pubAddresses := by
      cases a <;> first
        | rfl
        | exact absurd rfl dated
        | cases deletes
    subst only
    obtain ⟨keys,_,cover,perm⟩ := (sound.past b).addresses
    have found : Audited.row .pubAddresses e ∈ keys.filterMap ((Audited.layout .pubAddresses).rewind (some b)
        (Audited.seen .pubAddresses n.db) (n.db .pubAddressesAudit).rows) :=
      List.mem_filterMap.mpr ⟨_,cover _ (by rw [version]; simp),version⟩
    exact List.mem_map.mp (perm.symm.subset (List.mem_map_of_mem found))

theorem soundOrdered (sound : Sound n) (a : Audited) : a.layout.Ordered (n.db a.log).rows := by
  cases deletes : a.deletes with
  | false => exact sound.kempt.ordered a deletes
  | true => exact (sound.chain a deletes).chained.toOrdered

theorem wellOrdered (sound : Sound n) (stamped : AuditStamped n.db) (dated : a ≠ .nftSignatures) : WellOrdered a n where
  within := by
    intro e mem
    obtain ⟨present,present'⟩ := stamped.entries a dated e mem
    obtain ⟨data,stamp⟩ := Option.isSome_iff_exists.mp present
    obtain ⟨operation,written⟩ := Option.isSome_iff_exists.mp present'
    obtain ⟨head,top,le⟩ := writtenBound sound.kempt.valid mem written
    exact ⟨data,operation,head,(entryStamp a e).trans stamp,written,top,
      (soundOrdered sound a).within e mem data operation stamp written,le⟩
  ascending := by
    intro e mem e' mem' _ less
    obtain ⟨operation,written⟩ := Option.isSome_iff_exists.mp (stamped.entries a dated e mem).2
    obtain ⟨operation',written'⟩ := Option.isSome_iff_exists.mp (stamped.entries a dated e' mem').2
    have sorted := (sound.kempt.serial a.log (serialLog a)).1
    unfold Database.keys at sorted
    rw [List.pairwise_map] at sorted
    have both := sorted.and (soundOrdered sound a).ascending
    refine ⟨operation,operation',written,written',?_⟩
    obtain ⟨i,hi,rfl⟩ := List.getElem_of_mem mem
    obtain ⟨j,hj,rfl⟩ := List.getElem_of_mem mem'
    rcases Nat.lt_trichotomy i j with early | same | late
    · exact (List.pairwise_iff_getElem.mp both i j hi hj early).2 operation operation' written written'
    · subst same
      exact absurd less (Int.lt_irrefl _)
    · exact absurd (List.pairwise_iff_getElem.mp both j i hj hi late).1 (Int.not_lt.mpr (Int.le_of_lt less))
  before := fun _ _ least early => leastBefore sound dated least early

end Orders

theorem auditsWellOrdered {history : List Event} (order : ChainOrder history) {a : Audited} (dated : a ≠ .nftSignatures) :
    WellOrdered a (run history) :=
  wellOrdered (soundRun order) (auditStampedRun order) dated

theorem auditsWellOrderedForked : WellOrdered .pubAddresses (run (events (transferred ++ [.rbFork (some 2),
    .insBlocks (some 2) none (some "b2'") none none, .delPubAddresses (some "alice@fio")]))) :=
  auditsWellOrdered (by decide +kernel) (by decide)

end FioRelic
