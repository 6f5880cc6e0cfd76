import FioRelic.ForkEffect

/-! The past of a database. At every block still stored the audit tables determine what
the tables held before it. Later changes do not touch that past, and a fork makes it
the present. -/
namespace FioRelic
open Relational Versioning

def Audited.blank : (a : Audited) → Row a.table → Row a.table
  | .pubAddresses => fun r => { r with pkPubAddressesId := 0 }
  | .nftSignatures => fun r => { r with pkNftSignaturesId := 0 }
  | _ => fun r => r

structure Past (b : Int) (s s₀ : DB) : Prop where
  plain : ∀ t : TableName, t.plain = true → (s₀ t).rows = (s t).rows.filter fun r => !atLeast (fkBlockNumber t r) (some b)
  kept : ∀ a : Audited, a.deletes = false → ∀ x,
    a.layout.find (a.seen s₀) x = a.layout.rewind (some b) (a.seen s) (s a.log).rows x
  entries : ∀ a : Audited, (s₀ a.log).rows = (s a.log).rows.filter fun e => !a.layout.lateEntry (some b) e
  addresses : Gathers (Audited.blank .pubAddresses)
    ((Audited.layout .pubAddresses).rewind (some b) (Audited.seen .pubAddresses s) (s .pubAddressesAudit).rows)
    (Audited.seen .pubAddresses s₀)

section
variable {s s' s₀ : DB} {b : Int}

theorem originalKeys {a : Audited} {cut : Option Int} {rows : List (Row a.table)} {log : List (Row a.log)} :
    ((rows.map (a.original cut log)).map a.copied).map a.layout.key = rows.map (key a.table) := by
  rw [List.map_map, List.map_map]
  exact List.map_congr_left fun r _ => (a.keyCopied _).trans (originalKey r)

theorem originalNodup {a : Audited} {cut : Option Int} {rows : List (Row a.table)} {log : List (Row a.log)}
    (nodup : (rows.map (key a.table)).Nodup) : ((rows.map (a.original cut log)).map a.layout.key).Nodup := by
  have same : (rows.map (a.original cut log)).map a.layout.key = rows.map (key a.table) := by
    rw [List.map_map]
    exact List.map_congr_left fun r _ => originalKey r
  rwa [same]

theorem originalVersion {a : Audited} {cut : Option Int} {rows : List (Row a.table)} {log : List (Row a.log)}
    (nodup : (rows.map (key a.table)).Nodup) (copies : ∀ e ∈ log, a.copied (a.row e) = a.row e) {x : Int}
    (stored : ∀ e, a.layout.replaced cut log x = some e → ∃ r ∈ rows, key a.table r = x) :
    a.layout.find ((rows.map (a.original cut log)).map a.copied) x =
      a.layout.version cut (rows.map a.copied) log x := by
  unfold Layout.version
  cases first : a.layout.replaced cut log x with
  | some e =>
    obtain ⟨r,mem,own⟩ := stored e first
    obtain ⟨inLog,entity,_⟩ := replacedSpec first
    have moved : a.copied (a.original cut log r) = a.row e := by
      rw [originalOf (own ▸ first), copies e inLog]
    have listed : a.row e ∈ (rows.map (a.original cut log)).map a.copied :=
      moved ▸ List.mem_map_of_mem (List.mem_map_of_mem mem)
    have nodup' : (((rows.map (a.original cut log)).map a.copied).map a.layout.key).Nodup := by
      rw [originalKeys]
      exact nodup
    have found := findOfMem nodup' listed
    rwa [show a.layout.key (a.row e) = x from entity] at found
  | none =>
    rw [List.map_map]
    refine findCongr (fun r _ => ?_) fun r _ own => ?_
    · change key a.table (a.copied (a.original cut log r)) = key a.table (a.copied r)
      rw [a.keyCopied, a.keyCopied, originalKey]
    · have own' : key a.table r = x := (a.keyCopied r).symm.trans own
      simp only [Function.comp]
      unfold Audited.original
      rw [own', first]

theorem seenFilter {a : Audited} {cut : Option Int} (rows : List (Row a.table)) :
    (rows.filter fun r => !atLeast (fkBlockNumber a.table r) cut).map a.copied =
      (rows.map a.copied).filter fun r => !atLeast (a.layout.stamp r) cut := by
  rw [List.filter_map]
  congr 1
  exact List.filter_congr fun r _ => by
    rw [Function.comp, show a.layout.stamp (a.copied r) = fkBlockNumber a.table r from a.stampCopied r]

theorem originalRewinds (kempt : Kempt s) {a : Audited} (keeps : a.deletes = false)
    (rows : (s' a.table).rows = ((s a.table).rows.map (a.original (some b) (s a.log).rows)).filter fun r =>
      !atLeast (fkBlockNumber a.table r) (some b)) (x : Int) :
    a.layout.find (a.seen s') x = a.layout.rewind (some b) (a.seen s) (s a.log).rows x := by
  unfold Audited.seen Layout.rewind
  have nodup : (((s a.table).rows.map (a.original (some b) (s a.log).rows)).map a.copied |>.map a.layout.key).Nodup := by
    rw [originalKeys]
    exact kempt.valid.keysNodup a.table
  rw [rows, seenFilter, findFilter nodup]
  congr 1
  refine originalVersion (kempt.valid.keysNodup a.table) (kempt.fixed a keeps).copies fun e first => ?_
  obtain ⟨inLog,entity,_⟩ := replacedSpec first
  obtain ⟨r,mem,own⟩ := entityStored kempt.valid keeps inLog
  exact ⟨r,mem,own.trans entity⟩

theorem copiedWhole {a : Audited} (other : a ≠ .fioRequests) (r : Row a.table) : a.copied r = r := by
  cases a <;> first | rfl | exact absurd rfl other

theorem copiedDeletes {a : Audited} (deletes : a.deletes = true) (r : Row a.table) : a.copied r = r :=
  copiedWhole (by rintro rfl; cases deletes) r

theorem seenDeletes {a : Audited} (deletes : a.deletes = true) : a.seen s = (s a.table).rows := by
  unfold Audited.seen
  exact List.map_id'' (copiedDeletes deletes) _

def Audited.survivors (a : Audited) (b : Int) (s : DB) : List (Row a.table) :=
  ((s a.table).rows.map (a.original (some b) (s a.log).rows)).filter fun r =>
    !atLeast (fkBlockNumber a.table r) (some b)

theorem survivorsFound {a : Audited} (deletes : a.deletes = true) (valid : s.Valid) (chain : Chain a s) (x : Int) :
    a.layout.find (a.survivors b s) x =
      (a.layout.find (a.seen s) x).bind fun _ => a.layout.rewind (some b) (a.seen s) (s a.log).rows x := by
  have early : a.layout.find (a.survivors b s) x =
      (a.layout.find ((s a.table).rows.map (a.original (some b) (s a.log).rows)) x).filter fun r =>
        !atLeast (fkBlockNumber a.table r) (some b) :=
    findFilter (originalNodup (valid.keysNodup a.table)) _ x
  rw [early]
  cases present : a.layout.find (a.seen s) x with
  | none =>
    have absent := findNone.mp present
    have missing : a.layout.find ((s a.table).rows.map (a.original (some b) (s a.log).rows)) x = none := by
      refine findNone.mpr fun r mem own => ?_
      obtain ⟨r',inRows,rfl⟩ := List.mem_map.mp mem
      refine absent r' (seenDeletes deletes ▸ inRows) ?_
      exact (originalKey r').symm.trans own
    rw [missing]
    rfl
  | some r =>
    obtain ⟨mem,own⟩ := findMem present
    rw [Option.bind_some, Layout.rewind]
    have stored : ∀ e, a.layout.replaced (some b) (s a.log).rows x = some e → ∃ r ∈ (s a.table).rows,
        key a.table r = x := fun _ _ => ⟨r,seenDeletes deletes ▸ mem,own⟩
    have version := originalVersion (valid.keysNodup a.table) chain.fixed.copies stored
    rw [List.map_id'' (copiedDeletes deletes), List.map_id'' (copiedDeletes deletes)] at version
    rw [version, seenDeletes deletes]
    rfl

theorem drawnNodup {t : TableName} {start : Int} {rows : List (Row t)} (drawn : Drawn t start rows) :
    (rows.map (key t)).Nodup := by
  rw [List.nodup_iff_pairwise_ne, List.pairwise_iff_getElem]
  intro i j hi hj less
  simp only [List.length_map] at hi hj
  rw [List.getElem_map, List.getElem_map, drawn i _ (List.getElem?_eq_getElem hi),
    drawn j _ (List.getElem?_eq_getElem hj)]
  omega

theorem goneListed {a : Audited} {x : Int} :
    x ∈ a.gone b s ↔ a.layout.find (a.seen s) x = none ∧ a.layout.replaced (some b) (s a.log).rows x ≠ none := by
  unfold Audited.gone
  rw [List.mem_filter, cursorListed, decide_eq_true_eq, findNone, ← seenKeys, List.mem_map, and_comm]
  refine and_congr ⟨fun h r mem own => h ⟨r,mem,own⟩,fun h ⟨r,mem,own⟩ => h r mem own⟩ Iff.rfl

theorem refilledReinserts {γ : Type} {a : Audited} (content : Row a.table → γ) (deletes : a.deletes = true)
    (kempt : Kempt s) (chain : Chain a s) {fresh : List (Row a.table)} (refilled : Refilled a b s s' fresh)
    (faithful : ∀ x ∈ a.gone b s, ∀ e r, Back a e r → content r = content (a.row e)) :
    a.layout.Reinserts content (some b) (a.seen s) (s a.log).rows (a.survivors b s) (a.gone b s) fresh where
  rewound := survivorsFound deletes kempt.valid chain
  once := cursorNodup.filter _
  removed := fun _ => goneListed
  copied := by
    have pairs := refilled.copied
    refine List.forall₂_iff_get.mpr ⟨pairs.length_eq,fun i hi hi' => ?_⟩
    obtain ⟨e,first,back⟩ := (List.forall₂_iff_get.mp pairs).2 i hi hi'
    exact ⟨e,first,faithful _ (List.get_mem _ ⟨i,hi⟩) e _ back⟩
  distinct := drawnNodup refilled.drawn
  unused := by
    intro r mem
    have above := drawnKey refilled.drawn mem
    refine ⟨fun r' mem' same => ?_,fun e mem' same => ?_⟩
    · have below := keyIssued kempt.serial mem'
      rw [same] at below
      exact absurd below (Int.not_lt.mpr above)
    · have below := chain.issued e mem'
      rw [same] at below
      exact absurd below (Int.not_lt.mpr above)

theorem refilledSeen {a : Audited} (deletes : a.deletes = true) {fresh : List (Row a.table)}
    (refilled : Refilled a b s s' fresh) :
    a.seen s' = a.survivors b s ++ fresh.filter fun r => !atLeast (a.layout.stamp r) (some b) := by
  rw [seenDeletes deletes, refilled.rows, List.filter_append]
  rfl

theorem survivorsNodup {a : Audited} (valid : s.Valid) :
    ((a.survivors b s).map a.layout.key).Nodup :=
  List.Nodup.sublist (List.filter_sublist.map _) (originalNodup (valid.keysNodup a.table))

theorem backAddresses {e : Row Audited.pubAddresses.log} {r : Row Audited.pubAddresses.table}
    (back : Back .pubAddresses e r) : Audited.blank .pubAddresses r = Audited.blank .pubAddresses (Audited.row _ e) := by
  change r = { Audited.row .pubAddresses e with pkPubAddressesId := r.pkPubAddressesId } at back
  rw [back]
  rfl

theorem blankStamp {a : Audited} {r r' : Row a.table} (same : a.blank r = a.blank r') :
    a.layout.stamp r = a.layout.stamp r' := by
  have stamp : ∀ r : Row a.table, fkBlockNumber a.table (a.blank r) = fkBlockNumber a.table r := by
    intro r
    cases a <;> rfl
  change fkBlockNumber a.table r = fkBlockNumber a.table r'
  rw [← stamp r, same, stamp r']

end

section Transport
variable {s s' s₀ : DB} {b c : Int}

theorem aboveHead (above : atLeast (DB.head s) (some b) = false) {x : Option Int}
    (bound : ∀ m, x = some m → ∃ h, DB.head s = some h ∧ m ≤ h) : atLeast x (some b) = false := by
  cases x with
  | none => rfl
  | some m =>
    obtain ⟨h,top,le⟩ := bound m rfl
    rw [top] at above
    simp only [atLeastSome, decide_eq_false_iff_not] at above ⊢
    omega

theorem rewindNow (valid : s.Valid) (above : atLeast (DB.head s) (some b) = false) (a : Audited) :
    a.layout.rewind (some b) (a.seen s) (s a.log).rows = a.layout.find (a.seen s) := by
  funext x
  refine rewindSettled (fun e mem => ?_) (fun r mem => ?_) x
  · exact aboveHead above fun m stamp => writtenBound valid mem stamp
  · exact aboveHead above fun m stamp => seenStamp valid mem stamp

theorem pastSelf (valid : s.Valid) (above : atLeast (DB.head s) (some b) = false) : Past b s s := by
  constructor
  · intro t _
    refine (List.filter_eq_self.mpr fun r mem => ?_).symm
    rw [aboveHead above fun m stamp => stampBound valid mem stamp]
    rfl
  · intro a _ x
    rw [rewindNow valid above]
  · intro a
    refine (List.filter_eq_self.mpr fun e mem => ?_).symm
    have stamp : atLeast (a.layout.stamp (a.layout.row e)) (some b) = false := by
      refine aboveHead above fun m stamp => ?_
      have reference : fkBlockNumber a.log e = some m := by cases a <;> exact stamp
      exact stampBound valid mem reference
    have written : atLeast (a.layout.written e) (some b) = false :=
      aboveHead above fun m stamp => writtenBound valid mem stamp
    simp [Layout.lateEntry, stamp, written]
  · have settled := rewindNow valid above .pubAddresses
    change (Audited.layout .pubAddresses).rewind (some b) (Audited.seen .pubAddresses s) (s .pubAddressesAudit).rows = _
      at settled
    rw [settled]
    exact gathersFind (seenNodup valid)

theorem rewindEffect {call : Call} {a : Audited} (serial : s.Serial)
    (issued : ∀ e ∈ (s a.log).rows, a.layout.entity e < (s a.table).next) (atHead : AtHead call s)
    (late : atLeast (DB.head s) (some b) = true) (effect : Effect call a s s') (x : Int) :
    a.layout.rewind (some b) (a.seen s') (s' a.log).rows x = a.layout.rewind (some b) (a.seen s) (s a.log).rows x := by
  cases effect with
  | same rows log =>
    have seen : a.seen s' = a.seen s := by unfold Audited.seen; rw [rows]
    rw [seen, log]
  | inserted r number stamped rows log =>
    have fresh : a.layout.key (a.copied r) = (s a.table).next := (a.keyCopied r).trans number
    rw [seenAppend rows, log]
    refine rewindInsertLate (findNone.mpr fun r' mem same => ?_) (fun e mem same => ?_) ?_ x
    · have := keyIssued serial mem
      rw [same, fresh] at this
      omega
    · have := issued e mem
      rw [same, fresh] at this
      omega
    · rw [show a.layout.stamp (a.copied r) = fkBlockNumber a.table r from a.stampCopied r, (atHead _ stamped).2]
      exact late
  | written entries log write restamped static updates =>
    rw [log]
    exact rewindWrite write late x

theorem entriesEffect {call : Call} {a : Audited} (late : atLeast (DB.head s) (some b) = true)
    (effect : Effect call a s s') :
    ((s' a.log).rows.filter fun e => !a.layout.lateEntry (some b) e) =
      (s a.log).rows.filter fun e => !a.layout.lateEntry (some b) e := by
  cases effect with
  | same rows log => rw [log]
  | inserted r number stamped rows log => rw [log]
  | written entries log write restamped static updates =>
    have gone : entries.filter (fun e => !a.layout.lateEntry (some b) e) = [] :=
      List.filter_eq_nil_iff.mpr fun e mem => by simp [Layout.lateEntry, write.written e mem, late]
    rw [log, List.filter_append, gone, List.append_nil]

theorem pastChange {call : Call} (kempt : Kempt s) (chain : ∀ a : Audited, a.deletes = true → Chain a s)
    (atHead : AtHead call s) (late : atLeast (DB.head s) (some b) = true) (h : Change call s s')
    (past : Past b s s₀) : Past b s' s₀ := by
  have effect := fun a : Audited => changeEffect h kempt.valid a fun _ => atHead
  have issued : ∀ a : Audited, ∀ e ∈ (s a.log).rows, a.layout.entity e < (s a.table).next := by
    intro a e mem
    cases deletes : a.deletes with
    | true => exact (chain a deletes).issued e mem
    | false => exact entityIssued kempt.valid kempt.serial deletes mem
  have rewinds := fun a : Audited => funext fun x => rewindEffect kempt.serial (issued a) atHead late (effect a) x
  constructor
  · intro t plain
    rcases changePlain h plain with same | ⟨r,appended,stamped,_⟩
    · rw [same]
      exact past.plain t plain
    · have dropped : [r].filter (fun r => !atLeast (fkBlockNumber t r) (some b)) = [] := by
        simp [(atHead _ stamped).2, late]
      rw [appended, List.filter_append, dropped, List.append_nil]
      exact past.plain t plain
  · intro a keeps x
    rw [rewinds a]
    exact past.kept a keeps x
  · intro a
    rw [entriesEffect late (effect a)]
    exact past.entries a
  · have same := rewinds .pubAddresses
    change Gathers _ ((Audited.layout .pubAddresses).rewind (some b) (Audited.seen .pubAddresses s')
      (s' Audited.pubAddresses.log).rows) _
    rw [same]
    exact past.addresses

theorem pastFork (kempt : Kempt s) (chain : Chain .pubAddresses s) (le : b ≤ c) (forked : Forked c s s')
    {fresh : List (Row Audited.pubAddresses.table)} (refilled : Refilled .pubAddresses c s s' fresh)
    (entries : ∀ a : Audited, (s' a.log).rows = (s a.log).rows.filter fun e => !a.layout.lateEntry (some c) e)
    (past : Past b s s₀) : Past b s' s₀ := by
  constructor
  · intro t plain
    rw [past.plain t plain, forked.plain t plain, List.filter_filter]
    refine List.filter_congr fun r _ => ?_
    cases late : atLeast (fkBlockNumber t r) (some c) with
    | false => simp
    | true => simp [atLeastMono le late]
  · intro a keeps x
    rw [past.kept a keeps x, entries a]
    exact (rewindRewind le (kempt.ordered a keeps) (originalRewinds kempt keeps (forked.kept a keeps) x)).symm
  · intro a
    rw [past.entries a, entries a, List.filter_filter]
    refine List.filter_congr fun e _ => ?_
    cases late : a.layout.lateEntry (some c) e with
    | false => simp
    | true =>
      have earlier : a.layout.lateEntry (some b) e = true := by
        unfold Layout.lateEntry at late ⊢
        rcases Bool.or_eq_true_iff.mp late with stamp | written
        · rw [atLeastMono le stamp, Bool.true_or]
        · rw [atLeastMono le written, Bool.or_true]
      simp [earlier]
  · have done := refilledReinserts (Audited.blank .pubAddresses) rfl kempt chain refilled fun _ _ _ _ => backAddresses
    have gathered := gathersReinserted le chain.chained done (fun _ _ => blankStamp) past.addresses
    rw [← refilledSeen rfl refilled] at gathered
    have log := entries .pubAddresses
    change (s' .pubAddressesAudit).rows = _ at log
    rw [log]
    exact gathered

theorem originalFixed {a : Audited} {cut : Option Int} (fixed : Fixed a s) {r : Row a.table}
    (mem : r ∈ (s a.table).rows) : a.fixed (a.original cut (s a.log).rows r) = a.fixed r := by
  unfold Audited.original
  split
  · rename_i e first
    obtain ⟨inLog,entity,_⟩ := replacedSpec first
    have agree := fixed.agree e inLog (a.copied r) (List.mem_map_of_mem mem) ((a.keyCopied r).trans entity.symm)
    rw [← agree, a.fixedCopied]
  · rfl

theorem originalAgrees {a : Audited} {cut : Option Int} (fixed : Fixed a s) {e : Row a.log} (inLog : e ∈ (s a.log).rows)
    {r : Row a.table} (mem : r ∈ (s a.table).rows)
    (own : key a.table (a.original cut (s a.log).rows r) = a.layout.entity e) :
    a.fixed (a.original cut (s a.log).rows r) = a.fixed (a.row e) := by
  rw [originalKey] at own
  rw [originalFixed fixed mem, ← fixed.agree e inLog _ (List.mem_map_of_mem mem) ((a.keyCopied r).trans own),
    a.fixedCopied]

theorem rewindStored {a : Audited} (keeps : a.deletes = false) (kempt : Kempt s) {x : Int} {r : Row a.table}
    (found : a.layout.rewind (some b) (a.seen s) (s a.log).rows x = some r) :
    ∃ now ∈ (s a.table).rows, key a.table now = x ∧ a.fixed now = a.fixed r := by
  have version := (Option.filter_eq_some_iff.mp found).1
  unfold Layout.version at version
  cases first : a.layout.replaced (some b) (s a.log).rows x with
  | none =>
    rw [first] at version
    obtain ⟨mem,number⟩ := findMem version
    obtain ⟨now,stored,rfl⟩ := List.mem_map.mp mem
    exact ⟨now,stored,(a.keyCopied now).symm.trans number,(a.fixedCopied now).symm⟩
  | some e =>
    rw [first] at version
    cases version
    obtain ⟨inLog,entity,_⟩ := replacedSpec first
    obtain ⟨now,stored,number⟩ := entityStored kempt.valid keeps inLog
    have agree := (kempt.fixed a keeps).agree e inLog (a.copied now) (List.mem_map_of_mem stored)
      ((a.keyCopied now).trans number)
    rw [a.fixedCopied] at agree
    exact ⟨now,stored,number.trans entity,agree⟩

theorem kemptFork (kempt : Kempt s) (forked : Forked b s s') : Kempt s' where
  valid := forked.valid
  serial := forked.serial
  datas := by
    rw [forked.plain .fioDatasAudit rfl, kempt.datas]
    rfl
  ordered := fun a keeps => by
    rw [forked.entries a keeps]
    exact orderedFilter (kempt.ordered a keeps) _
  updates := fun a keeps e mem => by
    rw [forked.entries a keeps] at mem
    exact kempt.updates a keeps e (List.mem_filter.mp mem).1
  fixed := fun a keeps => by
    have fixed := kempt.fixed a keeps
    refine ⟨fun e mem r mem' own => ?_,fun e mem => ?_⟩
    · rw [forked.entries a keeps] at mem
      obtain ⟨r',listed,rfl⟩ := List.mem_map.mp mem'
      rw [forked.kept a keeps] at listed
      obtain ⟨r,inRows,rfl⟩ := List.mem_map.mp (List.mem_filter.mp listed).1
      rw [a.fixedCopied]
      exact originalAgrees fixed (List.mem_filter.mp mem).1 inRows ((a.keyCopied _).symm.trans own)
    · rw [forked.entries a keeps] at mem
      exact fixed.copies e (List.mem_filter.mp mem).1

theorem chainFork {a : Audited} (deletes : a.deletes = true) (kempt : Kempt s) (chain : Chain a s)
    (forked : Forked b s s') {fresh : List (Row a.table)} (refilled : Refilled a b s s' fresh) : Chain a s' := by
  have done := refilledReinserts (fun _ => ()) deletes kempt chain refilled fun _ _ _ _ _ => rfl
  have seen := refilledSeen deletes refilled
  refine ⟨fun e mem => ?_,?_,?_,fun e mem => ?_⟩
  · rw [refilled.entries] at mem
    exact Int.lt_of_lt_of_le (chain.issued e (List.mem_filter.mp mem).1) (forked.next a.table)
  · rw [seen, refilled.entries]
    exact chainedReinserted chain.chained (survivorsNodup kempt.valid) done
  · intro e mem r mem' own
    rw [refilled.entries] at mem
    have inLog := (List.mem_filter.mp mem).1
    rw [seen] at mem'
    rcases List.mem_append.mp mem' with kept | new
    · obtain ⟨old,inRows,rfl⟩ := List.mem_map.mp (List.mem_filter.mp kept).1
      exact originalAgrees chain.fixed inLog inRows own
    · exact absurd own.symm ((done.unused r (List.mem_filter.mp new).1).2 e inLog)
  · rw [refilled.entries] at mem
    exact chain.fixed.copies e (List.mem_filter.mp mem).1

end Transport
end FioRelic
