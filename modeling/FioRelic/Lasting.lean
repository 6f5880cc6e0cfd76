import FioRelic.Restore

/-! What a later database still says of an earlier one. An id is never given to another
row, also when rows are discarded between; and without a fork every row that was stored is
stored still or kept by its audit table. -/
namespace FioRelic
open Relational Versioning

structure Lasting (s s' : DB) : Prop where
  next : ∀ t, (s t).next ≤ (s' t).next
  plain : ∀ t : TableName, t.plain = true → t ≠ .blocks → ∀ r ∈ (s' t).rows, key t r < (s t).next → r ∈ (s t).rows
  entries : ∀ a : Audited, ∀ e ∈ (s' a.log).rows, key a.log e < (s a.log).next → e ∈ (s a.log).rows
  tables : ∀ a : Audited, ∀ r ∈ (s' a.table).rows, key a.table r < (s a.table).next →
    ∃ old ∈ (s a.table).rows, key a.table old = key a.table r ∧ a.fixed old = a.fixed r

/- Every row is stored still, or a new entry of its audit table holds what its trigger copies. The three
columns of an FIO request that are not copied (binary_content and the two public keys) stay in its row. -/
structure Recorded (s s' : DB) : Prop where
  plain : ∀ t : TableName, t.plain = true → (s t).rows <+: (s' t).rows
  logs : ∀ a : Audited, (s a.log).rows <+: (s' a.log).rows
  rows : ∀ a : Audited, ∀ r ∈ (s a.table).rows,
    r ∈ (s' a.table).rows ∨ ∃ e ∈ (s' a.log).rows, e ∉ (s a.log).rows ∧ a.row e = a.copied r
  requests : ∀ r ∈ (s .fioRequests).rows,
    ∃ r' ∈ (s' .fioRequests).rows, r' = { r with requestStatus := r'.requestStatus }

section Orders
variable {s m s' : DB}

theorem Lasting.refl (s : DB) : Lasting s s where
  next := fun _ => Int.le_refl _
  plain := fun _ _ _ _ mem _ => mem
  entries := fun _ _ mem _ => mem
  tables := fun _ r mem _ => ⟨r,mem,rfl,rfl⟩

theorem Lasting.trans (early : Lasting s m) (late : Lasting m s') : Lasting s s' where
  next := fun t => Int.le_trans (early.next t) (late.next t)
  plain := by
    intro t plain other r mem drawn
    have drawn' := Int.lt_of_lt_of_le drawn (early.next t)
    exact early.plain t plain other r (late.plain t plain other r mem drawn') drawn
  entries := by
    intro a e mem drawn
    have drawn' := Int.lt_of_lt_of_le drawn (early.next a.log)
    exact early.entries a e (late.entries a e mem drawn') drawn
  tables := by
    intro a r mem drawn
    obtain ⟨between,mem',number,same⟩ := late.tables a r mem (Int.lt_of_lt_of_le drawn (early.next a.table))
    obtain ⟨old,stored,number',same'⟩ := early.tables a between mem' (number.symm ▸ drawn)
    exact ⟨old,stored,number'.trans number,same'.trans same⟩

theorem Recorded.refl (s : DB) : Recorded s s where
  plain := fun _ _ => List.prefix_rfl
  logs := fun _ => List.prefix_rfl
  rows := fun _ _ mem => Or.inl mem
  requests := fun r mem => ⟨r,mem,rfl⟩

theorem Recorded.trans (early : Recorded s m) (late : Recorded m s') : Recorded s s' where
  plain := fun t plain => (early.plain t plain).trans (late.plain t plain)
  logs := fun a => (early.logs a).trans (late.logs a)
  rows := by
    intro a r mem
    rcases early.rows a r mem with stored | ⟨e,logged,new,row⟩
    · rcases late.rows a r stored with stored' | ⟨e,logged,new,row⟩
      · exact Or.inl stored'
      · exact Or.inr ⟨e,logged,fun old => new ((early.logs a).subset old),row⟩
    · exact Or.inr ⟨e,(late.logs a).subset logged,new,row⟩
  requests := by
    intro r mem
    obtain ⟨between,mem',same⟩ := early.requests r mem
    obtain ⟨r',stored,same'⟩ := late.requests between mem'
    refine ⟨r',stored,?_⟩
    rw [same'.trans (congrArg (fun q : FioRequest => { q with requestStatus := r'.requestStatus }) same)]

end Orders

section Statements
variable {s : DB} {t : TableName} {rows : List (Row t)}

theorem drawnLater {start : Int} (drawn : Drawn t start rows) {r : Row t} (mem : r ∈ rows) : start ≤ key t r := by
  obtain ⟨i,at_i⟩ := List.mem_iff_getElem?.mp mem
  rw [drawn i r at_i]
  omega

theorem appendOlder (drawn : Drawn t (s t).next rows) {u : TableName} {r : Row u}
    (mem : r ∈ (s.append t rows u).rows) (before : key u r < (s u).next) : r ∈ (s u).rows := by
  by_cases same : u = t
  · subst same
    rw [Database.appendSame] at mem
    rcases List.mem_append.mp mem with old | new
    · exact old
    · exact absurd (drawnLater drawn new) (Int.not_le.mpr before)
  · rwa [Database.appendOther _ same] at mem

theorem drawnOne {row : Row t} (number : key t row = (s t).next) : Drawn t (s t).next [row] := by
  intro i r found
  cases i with
  | zero =>
    cases Option.some.inj found
    simpa using number
  | succ i => simp at found

theorem writtenOlder {a : Audited} {rows : List (Row a.table)} {entries : List (Row a.log)}
    (drawn : Drawn a.log (s a.log).next entries) {u : TableName} (other : u ≠ a.table) {r : Row u}
    (mem : r ∈ (((s.withRows a.table rows).append a.log entries) u).rows) (before : key u r < (s u).next) :
    r ∈ (s u).rows := by
  have drawn' : Drawn a.log (s.withRows a.table rows a.log).next entries := by rwa [withRowsNext]
  have kept := appendOlder drawn' mem (by rwa [withRowsNext])
  rwa [Database.withRowsOther _ other] at kept

theorem writtenTable {a : Audited} {rows : List (Row a.table)} {entries : List (Row a.log)} :
    (((s.withRows a.table rows).append a.log entries) a.table).rows = rows := by
  rw [Database.appendOther _ a.logOther.symm, Database.withRowsSame]

theorem writtenNext {a : Audited} {rows : List (Row a.table)} {entries : List (Row a.log)} (u : TableName) :
    (s u).next ≤ (((s.withRows a.table rows).append a.log entries) u).next :=
  withRowsNext s a.table u rows ▸ appendNext (s.withRows a.table rows) a.log u entries

theorem lastingWritten {a : Audited} {rows : List (Row a.table)} {entries : List (Row a.log)}
    (drawn : Drawn a.log (s a.log).next entries)
    (sources : ∀ r ∈ rows, ∃ old ∈ (s a.table).rows, key a.table old = key a.table r ∧ a.fixed old = a.fixed r) :
    Lasting s ((s.withRows a.table rows).append a.log entries) where
  next := writtenNext
  plain := fun _ plain _ _ mem before => writtenOlder drawn (Audited.plainTable plain a).1 mem before
  entries := fun a' _ mem before => writtenOlder drawn (Audited.tableLog a a').symm mem before
  tables := by
    intro a' r mem before
    by_cases same : a' = a
    · subst same
      rw [writtenTable] at mem
      exact sources r mem
    · exact ⟨r,writtenOlder drawn (Audited.tableInjective same) mem before,rfl,rfl⟩

end Statements

section Steps
variable {c : Call} {s s' : DB} {b : Int} {v : Option Int}

theorem lastingChange (h : Change c s s') : Lasting s s' := by
  cases h with
  | insert t row number stamped inserted valid =>
    have older := fun u (r : Row u) => appendOlder (s := s) (r := r) (drawnOne number)
    exact
      { next := fun u => appendNext s t u [row]
        plain := fun u _ _ r mem before => older u r mem before
        entries := fun a e mem before => older a.log e mem before
        tables := fun a r mem before => ⟨r,older a.table r mem before,rfl,rfl⟩ }
  | update a p assign entries rewritten logged committed valid =>
    refine lastingWritten logged.drawn fun r mem => ?_
    obtain ⟨old,stored,rfl⟩ := List.mem_map.mp mem
    refine ⟨old,stored,?_⟩
    unfold assigned
    split
    · rename_i hit
      have done := rewritten old stored hit
      exact ⟨done.number.symm,(keptFixed done.kept).symm⟩
    · exact ⟨rfl,rfl⟩
  | delete a deletes p entries logged committed valid =>
    exact lastingWritten logged.drawn fun r mem => ⟨r,(List.mem_filter.mp mem).1,rfl,rfl⟩

theorem lastingChanges (h : Changes c s s') : Lasting s s' := by
  induction h with
  | refl => exact .refl _
  | tail _ last ih => exact ih.trans (lastingChange last)

theorem lastingBlock (block : Block) : Lasting s (s.append .blocks [block]) where
  next := fun u => appendNext s .blocks u [block]
  plain := by
    intro t _ other r mem _
    rwa [blockOther other] at mem
  entries := by
    intro a e mem _
    rwa [blockOther a.logBlocks] at mem
  tables := by
    intro a r mem _
    rw [blockOther a.tableBlocks] at mem
    exact ⟨r,mem,rfl,rfl⟩

theorem lastingFork {n : Node} (standing : Standing n) (nonneg : 0 ≤ b) (ran : rbFork (some b) n.db = .ok (v,s')) :
    Lasting n.db s' := by
  have kempt := standing.kempt
  have forked := rbForkForked nonneg kempt ran
  have sources : ∀ a : Audited, Fixed a n.db → ∀ r ∈ (n.db a.table).rows.map (a.original (some b) (n.db a.log).rows),
      ∃ old ∈ (n.db a.table).rows, key a.table old = key a.table r ∧ a.fixed old = a.fixed r := by
    intro a fixed r mem
    obtain ⟨old,stored,rfl⟩ := List.mem_map.mp mem
    exact ⟨old,stored,(originalKey old).symm,(originalFixed fixed stored).symm⟩
  constructor
  · exact forked.next
  · intro t plain _ r mem _
    rw [forked.plain t plain] at mem
    exact (List.mem_filter.mp mem).1
  · intro a e mem _
    rw [forkLogs standing nonneg ran a] at mem
    exact (List.mem_filter.mp mem).1
  · intro a r mem before
    cases deletes : a.deletes with
    | false =>
      rw [forked.kept a deletes] at mem
      exact sources a (kempt.fixed a deletes) r (List.mem_filter.mp mem).1
    | true =>
      obtain ⟨fresh,refilled⟩ := rbForkRefilled nonneg kempt standing.chain ran a deletes
      rw [refilled.rows] at mem
      rcases List.mem_append.mp (List.mem_filter.mp mem).1 with old | new
      · exact sources a (standing.chain a deletes).fixed r old
      · exact absurd (drawnLater refilled.drawn new) (Int.not_le.mpr before)

theorem lastingSkip (drawn : TableName → Nat) : Lasting s (s.skip drawn) where
  next := s.skipNext drawn
  plain := fun _ _ _ _ mem _ => mem
  entries := fun _ _ mem _ => mem
  tables := fun _ r mem _ => ⟨r,mem,rfl,rfl⟩

theorem lastingMoved {n n' : Node} {e : Event} (standing : Standing n) (move : Moved n e n') :
    Lasting n.db n'.db := by
  cases move with
  | lost drawn => exact lastingSkip drawn
  | changed s' v ordinary atHead ran changes => exact lastingChanges changes
  | grown block above valid => exact lastingBlock block
  | forked b s' v nonneg call ran => exact lastingFork standing nonneg ran

theorem entriesNew (serial : s.Serial) {t : TableName} (serials : relic.serial t = true) {rows : List (Row t)}
    (drawn : Drawn t (s t).next rows) {r : Row t} (mem : r ∈ rows) : r ∉ (s t).rows := by
  intro old
  have below := (serial t serials).2 _ (List.mem_map_of_mem old)
  exact absurd (drawnLater drawn mem) (Int.not_le.mpr below)

theorem recordedAppend {t : TableName} (rows : List (Row t)) : Recorded s (s.append t rows) := by
  have grown : ∀ u, (s u).rows <+: (s.append t rows u).rows := by
    intro u
    by_cases same : u = t
    · subst same
      rw [Database.appendSame]
      exact List.prefix_append _ _
    · rw [Database.appendOther _ same]
  exact
    { plain := fun u _ => grown u
      logs := fun a => grown a.log
      rows := fun a r mem => Or.inl ((grown a.table).subset mem)
      requests := fun r mem => ⟨r,(grown .fioRequests).subset mem,rfl⟩ }

theorem writtenPrefix {a : Audited} {rows : List (Row a.table)} {entries : List (Row a.log)} {u : TableName}
    (other : u ≠ a.table) : (s u).rows <+: (((s.withRows a.table rows).append a.log entries) u).rows := by
  by_cases own : u = a.log
  · subst own
    rw [Database.appendSame, Database.withRowsOther _ other]
    exact List.prefix_append _ _
  · rw [Database.appendOther _ own, Database.withRowsOther _ other]

theorem recordedWritten (serial : s.Serial) {a : Audited} {block : Row a.table → Option Int} {operation : String}
    {hits rows : List (Row a.table)} {entries : List (Row a.log)} (logged : Entries a s block operation hits entries)
    (covers : ∀ r ∈ (s a.table).rows, r ∈ rows ∨ r ∈ hits)
    (requests : ∀ r ∈ (s .fioRequests).rows, ∃ r' ∈ (((s.withRows a.table rows).append a.log entries) .fioRequests).rows,
      r' = { r with requestStatus := r'.requestStatus }) :
    Recorded s ((s.withRows a.table rows).append a.log entries) := by
  refine ⟨fun u plain => writtenPrefix (Audited.plainTable plain a).1,
    fun a' => writtenPrefix (Audited.tableLog a a').symm,fun a' r mem => ?_,requests⟩
  by_cases same : a' = a
  · subst same
    rw [writtenTable]
    refine (covers r mem).imp_right fun hit => ?_
    obtain ⟨i,at_i⟩ := List.mem_iff_getElem?.mp hit
    obtain ⟨e,at_e,entry⟩ : ∃ e, entries[i]? = some e ∧ Entry a' s r (block r) operation e := by
      have length := logged.each.length_eq
      obtain ⟨short,same⟩ := List.getElem?_eq_some_iff.mp at_i
      have short' : i < entries.length := length ▸ short
      refine ⟨entries[i],List.getElem?_eq_getElem short',?_⟩
      have pair := (List.forall₂_iff_get.mp logged.each).2 i short short'
      simp only [List.get_eq_getElem, same] at pair
      exact pair
    have new := List.mem_of_getElem? at_e
    refine ⟨e,?_,entriesNew serial (serialLog a') logged.drawn new,entry.row⟩
    rw [logWritten]
    exact List.mem_append_right _ new
  · exact Or.inl ((writtenPrefix (Audited.tableInjective same)).subset mem)

theorem recordedChange (serial : s.Serial) (h : Change c s s') : Recorded s s' := by
  cases h with
  | insert t row number stamped inserted valid => exact recordedAppend [row]
  | update a p assign entries rewritten logged committed valid =>
    refine recordedWritten serial logged (fun r mem => ?_) fun r mem => ?_
    · by_cases hit : r ∈ changed p assign (s a.table).rows
      · exact Or.inr hit
      · left
        exact List.mem_map.mpr ⟨r,mem,assignedOther mem hit⟩
    · by_cases own : a = .fioRequests
      · subst own
        refine ⟨assigned p assign r,?_,?_⟩
        · rw [writtenTable]
          exact List.mem_map_of_mem mem
        · unfold assigned
          split
          · rename_i hit
            exact (rewritten r mem hit).kept
          · rfl
      · exact ⟨r,(writtenPrefix (Audited.tableInjective (Ne.symm own))).subset mem,rfl⟩
  | delete a deletes p entries logged committed valid =>
    refine recordedWritten serial logged (fun r mem => ?_) fun r mem => ?_
    · cases hit : p r with
      | true => exact Or.inr (List.mem_filter.mpr ⟨mem,hit⟩)
      | false => exact Or.inl (List.mem_filter.mpr ⟨mem,by simp [hit]⟩)
    · have other : Audited.fioRequests ≠ a := by
        rintro rfl
        cases deletes
      exact ⟨r,(writtenPrefix (Audited.tableInjective other)).subset mem,rfl⟩

theorem recordedChanges (serial : s.Serial) (h : Changes c s s') : Recorded s s' := by
  suffices both : Recorded s s' ∧ s'.Serial from both.1
  induction h with
  | refl => exact ⟨.refl _,serial⟩
  | tail _ last ih => exact ⟨ih.1.trans (recordedChange ih.2 last),changeSerial last ih.2⟩

end Steps

section Runs

theorem runAppend (early late : List Event) : run (early ++ late) = runFrom (run early) late := by
  simp only [run, runFrom, List.foldl_append]

theorem idsLast {early late : List Event} (order : ChainOrder (early ++ late)) :
    Lasting (run early).db (run (early ++ late)).db := by
  obtain ⟨before,after⟩ := meetsAppend order
  have along : ∀ n, Sound n → MeetsFrom (fun n e => e.call.InOrder n.db) n late → Lasting n.db (runFrom n late).db := by
    clear order before after
    induction late with
    | nil => exact fun n _ _ => .refl _
    | cons e rest ih =>
      intro n sound ⟨first,later⟩
      have move := moved sound.toStanding first
      exact (lastingMoved sound.toStanding move).trans (ih (n.step e) (soundMoved sound move) later)
  rw [runAppend]
  exact along (run early) (soundRun before) after

def untransferred : List Call := [.rbFork (some 2),.insBlocks (some 2) none (some "c2") none none,
  .insTokenTransfers none (some 2) (some "fio.token") (some "carol") (some 5) (some "transfer") none none]

theorem idsLastUntransferred : Lasting (run (events transferred)).db
    (run (events transferred ++ events untransferred)).db :=
  idsLast (by decide +kernel)

end Runs
end FioRelic
