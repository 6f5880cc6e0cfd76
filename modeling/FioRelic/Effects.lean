import FioRelic.ProcedureChanges

/-! What one change does to the row and the log of an audited table, and what every
change keeps. The references to blocks bound every block number by the head. -/
namespace FioRelic
open Relational Versioning

def AtHead (c : Call) (s : DB) : Prop := ∀ b, c.blockArgument = some b → b.isSome = true ∧ b = DB.head s

def Audited.seen (a : Audited) (s : DB) : List (Row a.table) := (s a.table).rows.map a.copied

section References
variable {s : DB}

theorem blockReference {t : TableName} (h : t ≠ .blocks) :
    (⟨fkBlockNumber t,.blocks⟩ : Reference TableName (Row t)) ∈ references t := by
  cases t <;> first | exact absurd rfl h | simp [references, fkBlockNumber]

theorem writtenReference (a : Audited) :
    (⟨a.written,.blocks⟩ : Reference TableName (Row a.log)) ∈ references a.log := by
  cases a <;> simp [references, Audited.written]

theorem entityReference {a : Audited} (keeps : a.deletes = false) :
    (⟨fun e => some (a.layout.entity e),a.table⟩ : Reference TableName (Row a.log)) ∈ references a.log := by
  cases a <;> first | exact List.mem_cons_self | cases keeps

theorem headAtLeast {m : Int} (mem : m ∈ DB.blockNumbers s) : ∃ h, DB.head s = some h ∧ m ≤ h := by
  cases top : DB.head s with
  | none =>
    rw [DB.head, List.max?_eq_none_iff] at top
    rw [top] at mem
    cases mem
  | some h => exact ⟨h,rfl,(List.max?_eq_some_iff.mp top).2 m mem⟩

theorem stampBound (valid : s.Valid) {t : TableName} {r : Row t} (mem : r ∈ (s t).rows) {m : Int}
    (stamp : fkBlockNumber t r = some m) : ∃ h, DB.head s = some h ∧ m ≤ h := by
  by_cases blocks : t = .blocks
  · subst blocks
    cases Option.some.inj stamp
    exact headAtLeast (List.mem_map_of_mem mem)
  · obtain ⟨p,inBlocks,number⟩ := valid.parentRow (blockReference blocks) mem stamp
    exact headAtLeast (List.mem_map.mpr ⟨p,inBlocks,number⟩)

theorem writtenBound (valid : s.Valid) {a : Audited} {e : Row a.log} (mem : e ∈ (s a.log).rows) {m : Int}
    (written : a.written e = some m) : ∃ h, DB.head s = some h ∧ m ≤ h := by
  obtain ⟨p,inBlocks,number⟩ := valid.parentRow (writtenReference a) mem written
  exact headAtLeast (List.mem_map.mpr ⟨p,inBlocks,number⟩)

end References

section Seen
variable {s : DB} {a : Audited}

theorem seenKeys : (a.seen s).map a.layout.key = s.keys a.table := by
  unfold Audited.seen Database.keys
  rw [List.map_map]
  exact List.map_congr_left fun r _ => a.keyCopied r

theorem seenNodup (valid : s.Valid) : ((a.seen s).map a.layout.key).Nodup := by
  rw [seenKeys]
  exact valid.keysNodup a.table

theorem seenStamp (valid : s.Valid) {r : Row a.table} (mem : r ∈ a.seen s) {m : Int}
    (stamp : a.layout.stamp r = some m) : ∃ h, DB.head s = some h ∧ m ≤ h := by
  obtain ⟨source,inRows,rfl⟩ := List.mem_map.mp mem
  exact stampBound valid inRows ((a.stampCopied source).symm.trans stamp)

end Seen

inductive Effect (c : Call) (a : Audited) (s s' : DB) : Prop where
  | same (rows : (s' a.table).rows = (s a.table).rows) (log : (s' a.log).rows = (s a.log).rows)
  | inserted (r : Row a.table) (number : key a.table r = (s a.table).next)
      (stamped : c.blockArgument = some (fkBlockNumber a.table r))
      (rows : (s' a.table).rows = (s a.table).rows ++ [r]) (log : (s' a.log).rows = (s a.log).rows)
  | written (entries : List (Row a.log)) (log : (s' a.log).rows = (s a.log).rows ++ entries)
      (write : a.layout.Write (DB.head s) (a.seen s) (a.seen s') entries)
      (restamped : a.deletes = true → ∀ r ∈ a.seen s',
        r ∈ a.seen s ∧ a.layout.key r ∉ entries.map a.layout.entity ∨
          ∃ m, DB.head s = some m ∧ a.layout.stamp r = some m)
      (static : ∀ r ∈ a.seen s', ∃ old ∈ a.seen s, a.layout.key old = a.layout.key r ∧ a.fixed r = a.fixed old)
      (updates : a.deletes = false → ∀ e ∈ entries, a.operation e = "update")

theorem entriesSource {a : Audited} {s : DB} {block : Row a.table → Option Int} {operation : String}
    {hits : List (Row a.table)} {entries : List (Row a.log)} (logged : Entries a s block operation hits entries)
    {e : Row a.log} (mem : e ∈ entries) : ∃ old ∈ hits, Entry a s old (block old) operation e := by
  have each := logged.each
  clear logged
  induction each with
  | nil => cases mem
  | cons entry _ ih =>
    rcases List.mem_cons.mp mem with rfl | later
    · exact ⟨_,List.mem_cons_self,entry⟩
    · obtain ⟨old,hit,entry'⟩ := ih later
      exact ⟨old,List.mem_cons_of_mem _ hit,entry'⟩

theorem entriesLogs {a : Audited} {s : DB} {block : Row a.table → Option Int} {operation : String}
    {hits : List (Row a.table)} {entries : List (Row a.log)} {now : Option Int}
    (logged : Entries a s block operation hits entries) (blocks : ∀ old ∈ hits, block old = now) :
    Logs a.layout a.copied now hits entries := by
  have each := logged.each
  clear logged
  induction each with
  | nil => exact .nil
  | cons entry _ ih =>
    refine .cons ⟨entry.row,entry.written.trans (blocks _ List.mem_cons_self)⟩ ?_
    exact ih fun old mem => blocks old (List.mem_cons_of_mem _ mem)

theorem assignedOther {ρ : Type} [DecidableEq ρ] {p : ρ → Bool} {assign : ρ → ρ} {rows : List ρ} {r : ρ}
    (mem : r ∈ rows) (missed : r ∉ changed p assign rows) : assigned p assign r = r := by
  unfold assigned
  cases hit : p r with
  | false => rfl
  | true =>
    by_contra different
    rw [if_pos rfl] at different
    exact missed (List.mem_filter.mpr ⟨mem,by simp [hit, Ne.symm different]⟩)

theorem changedSub {ρ : Type} [DecidableEq ρ] {p : ρ → Bool} {assign : ρ → ρ} {rows : List ρ} {r : ρ}
    (hit : r ∈ changed p assign rows) : r ∈ rows ∧ p r = true := by
  obtain ⟨mem,moves⟩ := List.mem_filter.mp hit
  rw [Bool.and_eq_true] at moves
  exact ⟨mem,moves.1⟩

section
variable {c : Call} {s : DB}

theorem seenWritten {a : Audited} {rows : List (Row a.table)} {entries : List (Row a.log)} :
    a.seen ((s.withRows a.table rows).append a.log entries) = rows.map a.copied := by
  unfold Audited.seen
  rw [Database.appendOther _ a.logOther.symm, Database.withRowsSame]

theorem logWritten {a : Audited} {rows : List (Row a.table)} {entries : List (Row a.log)} :
    (((s.withRows a.table rows).append a.log entries) a.log).rows = (s a.log).rows ++ entries := by
  rw [Database.appendSame, Database.withRowsOther _ a.logOther]

theorem loggedHit {a : Audited} {now : Option Int} {hits : List (Row a.table)} {entries : List (Row a.log)}
    (valid : s.Valid)
    (sub : ∀ r ∈ hits, r ∈ (s a.table).rows) (logs : Logs a.layout a.copied now hits entries) {old : Row a.table}
    (mem : old ∈ (s a.table).rows) (listed : a.layout.key (a.copied old) ∈ entries.map a.layout.entity) : old ∈ hits := by
  rw [loggedEntities logs] at listed
  obtain ⟨other,inHits,same⟩ := List.mem_map.mp listed
  obtain ⟨source,inSource,rfl⟩ := List.mem_map.mp inHits
  change key a.table (a.copied source) = key a.table (a.copied old) at same
  rw [a.keyCopied, a.keyCopied] at same
  exact valid.sameRow (sub source inSource) mem same ▸ inSource

theorem assignedKept {a : Audited} {p : Row a.table → Bool} {assign : Row a.table → Row a.table}
    (keyed : ∀ r ∈ (s a.table).rows, p r = true → key a.table (assign r) = key a.table r) :
    ∀ r ∈ (s a.table).rows, key a.table (assigned p assign r) = key a.table r := by
  intro r mem
  unfold assigned
  split
  · rename_i hit
    exact keyed r mem hit
  · rfl

theorem updateLayout {a : Audited} (valid : s.Valid) {p : Row a.table → Bool} {assign : Row a.table → Row a.table}
    {entries : List (Row a.log)}
    (numbers : ∀ r ∈ (s a.table).rows, p r = true → key a.table (assign r) = key a.table r)
    (logs : Logs a.layout a.copied (DB.head s) (changed p assign (s a.table).rows) entries) :
    a.layout.Write (DB.head s) (a.seen s) (((s a.table).rows.map (assigned p assign)).map a.copied) entries := by
  refine writeUpdate (seenNodup valid) (fun r mem => ?_) List.filter_sublist (fun r mem => assignedOther mem) logs
  change key a.table (a.copied (assigned p assign r)) = key a.table (a.copied r)
  rw [a.keyCopied, a.keyCopied, assignedKept numbers r mem]

theorem updateEffect {a : Audited} (valid : s.Valid) (atHead : a.deletes = true → AtHead c s)
    {p : Row a.table → Bool} {assign : Row a.table → Row a.table} {entries : List (Row a.log)}
    (rewritten : ∀ r ∈ (s a.table).rows, p r = true → Rewritten c a r (assign r))
    (logged : Entries a s (fun old => a.updated s (assign old)) "update" (changed p assign (s a.table).rows)
      entries) :
    Effect c a s ((s.withRows a.table ((s a.table).rows.map (assigned p assign))).append a.log entries) := by
  have numbers := fun r mem hit => (rewritten r mem hit).number
  have restamp : a.deletes = true → ∀ r ∈ (s a.table).rows, p r = true →
      ∃ m, DB.head s = some m ∧ fkBlockNumber a.table (assign r) = some m := by
    intro deletes r mem hit
    rcases (rewritten r mem hit).stamp with given | ⟨keeps,_⟩
    · obtain ⟨present,same⟩ := atHead deletes _ given
      obtain ⟨m,stamp⟩ := Option.isSome_iff_exists.mp present
      exact ⟨m,same.symm.trans stamp,stamp⟩
    · rw [keeps] at deletes
      cases deletes
  have blocks : ∀ old ∈ changed p assign (s a.table).rows, a.updated s (assign old) = DB.head s := by
    intro old hit
    obtain ⟨mem,holds⟩ := changedSub hit
    cases a <;> first
      | rfl
      | obtain ⟨m,top,stamp⟩ := restamp rfl old mem holds
        exact stamp.trans top.symm
  have logs := entriesLogs logged blocks
  refine .written entries logWritten ?_ ?_ (fun r mem => ?_) fun _ e mem => ?_
  · rw [seenWritten]
    exact updateLayout valid numbers logs
  · intro deletes r mem
    rw [seenWritten] at mem
    obtain ⟨moved,inMoved,rfl⟩ := List.mem_map.mp mem
    obtain ⟨old,inRows,rfl⟩ := List.mem_map.mp inMoved
    by_cases hit : old ∈ changed p assign (s a.table).rows
    · right
      obtain ⟨_,holds⟩ := changedSub hit
      rw [assigned, if_pos holds]
      obtain ⟨m,top,stamp⟩ := restamp deletes old inRows holds
      exact ⟨m,top,(a.stampCopied _).trans stamp⟩
    · left
      rw [assignedOther inRows hit]
      exact ⟨List.mem_map_of_mem inRows,fun listed =>
        hit (loggedHit valid (fun r hit => (changedSub hit).1) logs inRows listed)⟩
  · rw [seenWritten] at mem
    obtain ⟨moved,inMoved,rfl⟩ := List.mem_map.mp mem
    obtain ⟨old,inRows,rfl⟩ := List.mem_map.mp inMoved
    have number : a.layout.key (a.copied (assigned p assign old)) = a.layout.key (a.copied old) := by
      change key a.table (a.copied (assigned p assign old)) = key a.table (a.copied old)
      rw [a.keyCopied, a.keyCopied, assignedKept numbers old inRows]
    refine ⟨a.copied old,List.mem_map_of_mem inRows,number.symm,?_⟩
    rw [a.fixedCopied, a.fixedCopied]
    unfold assigned
    split
    · rename_i hit
      exact keptFixed (rewritten old inRows hit).kept
    · rfl
  · obtain ⟨_,_,entry⟩ := entriesSource logged mem
    exact entry.operation

theorem deleteEffect {a : Audited} (deletes : a.deletes = true) (valid : s.Valid) {p : Row a.table → Bool}
    {entries : List (Row a.log)}
    (logged : Entries a s (fun _ => DB.head s) "delete" ((s a.table).rows.filter p) entries) :
    Effect c a s ((s.withRows a.table ((s a.table).rows.filter fun r => !p r)).append a.log entries) := by
  have logs := entriesLogs logged fun _ _ => rfl
  refine .written entries logWritten ?_ (fun _ r mem => Or.inl ?_) (fun r mem => ?_) fun keeps => ?_
  · rw [seenWritten]
    exact writeDelete (seenNodup valid) logs
  · rw [seenWritten] at mem
    obtain ⟨old,inKept,rfl⟩ := List.mem_map.mp mem
    obtain ⟨inRows,kept⟩ := List.mem_filter.mp inKept
    refine ⟨List.mem_map_of_mem inRows,fun listed => ?_⟩
    have hit := loggedHit valid (fun r hit => (List.mem_filter.mp hit).1) logs inRows listed
    simp [(List.mem_filter.mp hit).2] at kept
  · rw [seenWritten] at mem
    exact ⟨r,((List.filter_sublist).map a.copied).subset mem,rfl,rfl⟩
  · rw [deletes] at keeps
    cases keeps

end

def TableName.plain : TableName → Bool
  | .blocks | .transactions | .traces | .accountActivities | .domainActivities | .handleActivities
  | .tokenTransfers | .tokenStakings | .fioDatas | .fioDatasAudit => true
  | _ => false

namespace Audited

theorem tableLog (a a' : Audited) : a.table ≠ a'.log := by cases a <;> cases a' <;> decide

theorem tableInjective {a a' : Audited} (h : a ≠ a') : a.table ≠ a'.table := by
  cases a <;> cases a' <;> first | exact absurd rfl h | decide

theorem logInjective {a a' : Audited} (h : a ≠ a') : a.log ≠ a'.log := by
  cases a <;> cases a' <;> first | exact absurd rfl h | decide

theorem plainTable {t : TableName} (plain : t.plain = true) (a : Audited) : t ≠ a.table ∧ t ≠ a.log := by
  cases a <;> constructor <;> rintro rfl <;> cases plain

end Audited

section
variable {c : Call} {s s' : DB}

theorem insertedLog {a : Audited} {row : Row a.log} : ¬Inserted c s a.log row := by
  cases a <;> exact id

theorem changeEffect (h : Change c s s') (valid : s.Valid) (a : Audited) (atHead : a.deletes = true → AtHead c s) :
    Effect c a s s' := by
  cases h with
  | insert t row number stamped inserted _ =>
    by_cases onLog : a.log = t
    · subst onLog
      exact absurd inserted insertedLog
    have log : (s.append t [row] a.log).rows = (s a.log).rows := by rw [Database.appendOther _ onLog]
    by_cases onTable : a.table = t
    · subst onTable
      exact .inserted row number stamped (by rw [Database.appendSame]) log
    · exact .same (by rw [Database.appendOther _ onTable]) log
  | update a' p assign entries rewritten logged committed _ =>
    by_cases own : a = a'
    · subst own
      exact updateEffect valid atHead rewritten logged
    · refine .same ?_ ?_
      · rw [Database.appendOther _ (a.tableLog a'), Database.withRowsOther _ (Audited.tableInjective own)]
      · rw [Database.appendOther _ (Audited.logInjective own), Database.withRowsOther _ (a'.tableLog a).symm]
  | delete a' deletes p entries logged committed _ =>
    by_cases own : a = a'
    · subst own
      exact deleteEffect deletes valid logged
    · refine .same ?_ ?_
      · rw [Database.appendOther _ (a.tableLog a'), Database.withRowsOther _ (Audited.tableInjective own)]
      · rw [Database.appendOther _ (Audited.logInjective own), Database.withRowsOther _ (a'.tableLog a).symm]

theorem changePlain (h : Change c s s') {t : TableName} (plain : t.plain = true) :
    (s' t).rows = (s t).rows ∨
      ∃ r, (s' t).rows = (s t).rows ++ [r] ∧ c.blockArgument = some (fkBlockNumber t r) ∧ Inserted c s t r := by
  cases h with
  | insert u row number stamped inserted _ =>
    by_cases own : t = u
    · subst own
      exact Or.inr ⟨row,by rw [Database.appendSame],stamped,inserted⟩
    · exact Or.inl (by rw [Database.appendOther _ own])
  | update a p assign entries rewritten logged committed _ =>
    obtain ⟨other,other'⟩ := Audited.plainTable plain a
    exact Or.inl (by rw [Database.appendOther _ other', Database.withRowsOther _ other])
  | delete a deletes p entries logged committed _ =>
    obtain ⟨other,other'⟩ := Audited.plainTable plain a
    exact Or.inl (by rw [Database.appendOther _ other', Database.withRowsOther _ other])

theorem changeBlocks (h : Change c s s') : s' .blocks = s .blocks := by
  cases h with
  | insert t row number stamped inserted _ =>
    have other : TableName.blocks ≠ t := fun same => by
      subst same
      exact inserted
    exact Database.appendOther _ other _
  | update a p assign entries rewritten logged committed _ =>
    rw [Database.appendOther _ a.logBlocks.symm, Database.withRowsOther _ a.tableBlocks.symm]
  | delete a deletes p entries logged committed _ =>
    rw [Database.appendOther _ a.logBlocks.symm, Database.withRowsOther _ a.tableBlocks.symm]

theorem changeHead (h : Change c s s') : DB.head s' = DB.head s := by
  simp only [DB.head, DB.blockNumbers, changeBlocks h]

theorem Changes.blocks (h : Changes c s s') : s' .blocks = s .blocks := by
  induction h with
  | refl => rfl
  | tail _ last ih => exact (changeBlocks last).trans ih

theorem Changes.head (h : Changes c s s') : DB.head s' = DB.head s := by
  simp only [DB.head, DB.blockNumbers, h.blocks]

theorem AtHead.of_head {m : DB} (h : AtHead c s) (same : DB.head m = DB.head s) : AtHead c m :=
  fun b given => ⟨(h b given).1,(h b given).2.trans same.symm⟩

theorem Changes.atHead (h : Changes c s s') (atHead : AtHead c s) : AtHead c s' := atHead.of_head h.head

theorem writtenSerial {a : Audited} {rows : List (Row a.table)} {entries : List (Row a.log)} (serial : s.Serial)
    (sub : (rows.map (key a.table)).Sublist (s.keys a.table)) (drawn : Drawn a.log (s a.log).next entries) :
    ((s.withRows a.table rows).append a.log entries).Serial := by
  refine (serial.withRows a.table sub).append a.log ?_
  rw [Database.withRowsOther _ a.logOther]
  exact drawn

theorem insertedSerial {t : TableName} {row : Row t} (serial : s.Serial) (number : key t row = (s t).next) :
    (s.append t [row]).Serial := by
  refine serial.append t fun i r found => ?_
  cases i with
  | zero =>
    cases Option.some.inj found
    simpa using number
  | succ i => simp at found

theorem assignedKeys {a : Audited} {p : Row a.table → Bool} {assign : Row a.table → Row a.table}
    (keyed : ∀ r ∈ (s a.table).rows, p r = true → key a.table (assign r) = key a.table r) :
    ((s a.table).rows.map (assigned p assign)).map (key a.table) = s.keys a.table := by
  unfold Database.keys
  rw [List.map_map]
  exact List.map_congr_left (assignedKept keyed)

theorem changeSerial (h : Change c s s') (serial : s.Serial) : s'.Serial := by
  cases h with
  | insert t row number stamped inserted _ => exact insertedSerial serial number
  | update a p assign entries rewritten logged committed _ =>
    have same := assignedKeys fun r mem hit => (rewritten r mem hit).number
    exact writtenSerial serial (same ▸ List.Sublist.refl _) logged.drawn
  | delete a deletes p entries logged committed _ =>
    exact writtenSerial serial (List.filter_sublist.map _) logged.drawn

theorem appendNext (s : DB) (t u : TableName) (rows : List (Row t)) :
    (s u).next ≤ (s.append t rows u).next := by
  by_cases own : u = t
  · subst own
    rw [Database.appendSame]
    exact Int.le_add_of_nonneg_right (Int.natCast_nonneg _)
  · have same : s.append t rows u = s u := Database.appendOther s own rows
    exact Int.le_of_eq (congrArg Table.next same.symm)

theorem withRowsNext (s : DB) (t u : TableName) (rows : List (Row t)) :
    (s.withRows t rows u).next = (s u).next := by
  by_cases own : u = t
  · subst own
    rw [Database.withRowsSame]
  · rw [Database.withRowsOther _ own]

theorem changeNext (h : Change c s s') (t : TableName) : (s t).next ≤ (s' t).next := by
  cases h with
  | insert u row number stamped inserted _ => exact appendNext s u t [row]
  | update a p assign entries rewritten logged committed _ =>
    exact withRowsNext s a.table t _ ▸ appendNext (s.withRows a.table _) a.log t entries
  | delete a deletes p entries logged committed _ =>
    exact withRowsNext s a.table t _ ▸ appendNext (s.withRows a.table _) a.log t entries

end

section
variable {c : Call} {s s' : DB} {a : Audited}

theorem serialTable (a : Audited) : relic.serial a.table = true := by cases a <;> rfl

theorem serialLog (a : Audited) : relic.serial a.log = true := by cases a <;> rfl

theorem keyIssued (serial : s.Serial) {r : Row a.table} (mem : r ∈ a.seen s) :
    a.layout.key r < (s a.table).next := by
  have listed : a.layout.key r ∈ s.keys a.table := by
    rw [← seenKeys]
    exact List.mem_map_of_mem mem
  exact (serial a.table (serialTable a)).2 _ listed

theorem entityStored (valid : s.Valid) (keeps : a.deletes = false) {e : Row a.log} (mem : e ∈ (s a.log).rows) :
    ∃ r ∈ (s a.table).rows, key a.table r = a.layout.entity e :=
  valid.parentRow (entityReference keeps) mem rfl

theorem entityIssued (valid : s.Valid) (serial : s.Serial) (keeps : a.deletes = false) {e : Row a.log}
    (mem : e ∈ (s a.log).rows) : a.layout.entity e < (s a.table).next := by
  obtain ⟨r,inRows,number⟩ := entityStored valid keeps mem
  have listed : a.layout.entity e ∈ s.keys a.table := List.mem_map.mpr ⟨r,inRows,number⟩
  exact (serial a.table (serialTable a)).2 _ listed

end

structure Fixed (a : Audited) (s : DB) : Prop where
  agree : ∀ e ∈ (s a.log).rows, ∀ r ∈ a.seen s, a.layout.key r = a.layout.entity e → a.fixed r = a.fixed (a.row e)
  copies : ∀ e ∈ (s a.log).rows, a.copied (a.row e) = a.row e

structure Kempt (s : DB) : Prop where
  valid : s.Valid
  serial : s.Serial
  datas : (s .fioDatasAudit).rows = []
  ordered : ∀ a : Audited, a.deletes = false → a.layout.Ordered (s a.log).rows
  updates : ∀ a : Audited, a.deletes = false → ∀ e ∈ (s a.log).rows, a.operation e = "update"
  fixed : ∀ a : Audited, a.deletes = false → Fixed a s

structure Chain (a : Audited) (s : DB) : Prop where
  issued : ∀ e ∈ (s a.log).rows, a.layout.entity e < (s a.table).next
  chained : a.layout.Chained (a.seen s) (s a.log).rows
  fixed : Fixed a s

section
variable {c : Call} {s s' : DB}

theorem seenAppend {a : Audited} {r : Row a.table} (rows : (s' a.table).rows = (s a.table).rows ++ [r]) :
    a.seen s' = a.seen s ++ [a.copied r] := by
  unfold Audited.seen
  rw [rows, List.map_append, List.map_singleton]

theorem fixedEffect {a : Audited} (valid : s.Valid) (issued : ∀ e ∈ (s a.log).rows, a.layout.entity e < (s a.table).next)
    (fixed : Fixed a s) (effect : Effect c a s s') : Fixed a s' := by
  cases effect with
  | same rows log =>
    have seen : a.seen s' = a.seen s := by unfold Audited.seen; rw [rows]
    exact ⟨by rw [log, seen]; exact fixed.agree,by rw [log]; exact fixed.copies⟩
  | inserted r number stamped rows log =>
    refine ⟨fun e mem r' mem' same => ?_,by rw [log]; exact fixed.copies⟩
    rw [log] at mem
    rw [seenAppend rows] at mem'
    rcases List.mem_append.mp mem' with old | new
    · exact fixed.agree e mem r' old same
    · rw [List.mem_singleton.mp new] at same
      have := issued e mem
      have fresh : a.layout.entity e = (s a.table).next := same.symm.trans ((a.keyCopied r).trans number)
      omega
  | written entries log write restamped static updates =>
    refine ⟨fun e mem r mem' same => ?_,fun e mem => ?_⟩
    · obtain ⟨old,inSeen,key,agrees⟩ := static r mem'
      rw [log] at mem
      rcases List.mem_append.mp mem with before | new
      · exact agrees.trans (fixed.agree e before old inSeen (key.trans same))
      · have found := findOfMem (seenNodup valid) inSeen
        rw [key, same, write.old e new] at found
        exact agrees.trans (congrArg a.fixed (Option.some.inj found).symm)
    · rw [log] at mem
      rcases List.mem_append.mp mem with before | new
      · exact fixed.copies e before
      · obtain ⟨old,_,same⟩ := List.mem_map.mp (findMem (write.old e new)).1
        change a.copied (a.layout.row e) = a.layout.row e
        rw [← same, a.copiedCopied]

theorem kemptChange (kempt : Kempt s) (h : Change c s s') : Kempt s' where
  valid := h.valid
  serial := changeSerial h kempt.serial
  datas := by
    have plain : TableName.fioDatasAudit.plain = true := rfl
    rcases changePlain h plain with same | ⟨_,_,_,inserted⟩
    · rw [same, kempt.datas]
    · exact inserted.elim
  ordered := by
    intro a keeps
    have effect := changeEffect h kempt.valid a fun deletes => by rw [keeps] at deletes; cases deletes
    cases effect with
    | same rows log => exact log ▸ kempt.ordered a keeps
    | inserted r number stamped rows log => exact log ▸ kempt.ordered a keeps
    | written entries log write restamped static updates =>
      rw [log]
      refine orderedAppend (kempt.ordered a keeps) (fun e mem o written => ?_) write.written fun e mem d stamp => ?_
      · exact writtenBound kempt.valid mem written
      · exact seenStamp kempt.valid (findMem (write.old e mem)).1 stamp
  updates := by
    intro a keeps e mem
    have effect := changeEffect h kempt.valid a fun deletes => by rw [keeps] at deletes; cases deletes
    cases effect with
    | same rows log => exact kempt.updates a keeps e (log ▸ mem)
    | inserted r number stamped rows log => exact kempt.updates a keeps e (log ▸ mem)
    | written entries log write restamped static updates =>
      rw [log] at mem
      rcases List.mem_append.mp mem with old | new
      · exact kempt.updates a keeps e old
      · exact updates keeps e new
  fixed := by
    intro a keeps
    have effect := changeEffect h kempt.valid a fun deletes => by rw [keeps] at deletes; cases deletes
    exact fixedEffect kempt.valid (fun e mem => entityIssued kempt.valid kempt.serial keeps mem) (kempt.fixed a keeps)
      effect

theorem kemptChanges (kempt : Kempt s) (h : Changes c s s') : Kempt s' := by
  induction h with
  | refl => exact kempt
  | tail _ last ih => exact kemptChange ih last

theorem chainChange {a : Audited} (deletes : a.deletes = true) (valid : s.Valid) (serial : s.Serial)
    (chain : Chain a s) (h : Change c s s') (atHead : AtHead c s) : Chain a s' := by
  have mono := changeNext h a.table
  have effect := changeEffect h valid a fun _ => atHead
  have fixed := fixedEffect valid chain.issued chain.fixed effect
  cases effect with
  | same rows log =>
    have seen : a.seen s' = a.seen s := by unfold Audited.seen; rw [rows]
    refine ⟨fun e mem => ?_,by rw [seen, log]; exact chain.chained,fixed⟩
    exact Int.lt_of_lt_of_le (chain.issued e (log ▸ mem)) mono
  | inserted r number stamped rows log =>
    refine ⟨fun e mem => Int.lt_of_lt_of_le (chain.issued e (log ▸ mem)) mono,?_,fixed⟩
    rw [seenAppend rows, log]
    refine chainedInsert chain.chained fun e mem same => ?_
    have issued := chain.issued e mem
    have fresh : a.layout.entity e = (s a.table).next := same.trans ((a.keyCopied r).trans number)
    omega
  | written entries log write restamped static updates =>
    refine ⟨fun e mem => ?_,?_,fixed⟩
    · rw [log] at mem
      rcases List.mem_append.mp mem with old | new
      · exact Int.lt_of_lt_of_le (chain.issued e old) mono
      · obtain ⟨inSeen,number⟩ := findMem (write.old e new)
        exact Int.lt_of_lt_of_le (number ▸ keyIssued serial inSeen) mono
    · rw [log]
      refine chainedWrite chain.chained write (fun e mem o written => ?_) (fun r mem d stamp => ?_) (restamped deletes)
      · exact writtenBound valid mem written
      · exact seenStamp valid mem stamp

end
end FioRelic
