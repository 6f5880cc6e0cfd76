import FioRelic.WriteBack

/-! What rbfork does when it returns: the rb functions one after the other, each on its
own table and log, then the deletions. The triggers of the deletions write only
entries that a later deletion removes. -/
namespace FioRelic
open Relational Versioning

def Audited.gone (a : Audited) (b : Int) (s : DB) : List Int :=
  ((cursor (s a.log).rows (key a.log) a.layout.entity a.written (some b)).map Group.entity).filter fun x =>
    decide (x ∉ s.keys a.table)

structure Returned (a : Audited) (b : Int) (s m : DB) (fresh : List (Row a.table)) (extra : List (Row a.log)) :
    Prop where
  rows : (m a.table).rows = (s a.table).rows.map (a.original (some b) (s a.log).rows) ++ fresh
  logged : (m a.log).rows = (s a.log).rows ++ extra
  late : ∀ e ∈ extra, a.layout.lateEntry (some b) e = true
  copied : List.Forall₂ (fun x r => ∃ e, a.layout.replaced (some b) (s a.log).rows x = some e ∧ Back a e r)
    (a.gone b s) fresh
  drawn : Drawn a.table (s a.table).next fresh
  counted : fitsInt (cursor (s a.log).rows (key a.log) a.layout.entity a.written (some b)).length = true
  roomy : Roomy a (some b) (s a.log).rows s
    ((cursor (s a.log).rows (key a.log) a.layout.entity a.written (some b)).map Group.entity)
  logNext : (m a.log).next = (s a.log).next + a.rewrites (some b) (s a.log).rows
    ((cursor (s a.log).rows (key a.log) a.layout.entity a.written (some b)).map Group.entity) (s a.table).rows

structure Stage (b : Int) (s m : DB) (done : List Audited) : Prop where
  untouched : ∀ t, (∀ a ∈ done, t ≠ a.table ∧ t ≠ a.log) → m t = s t
  returned : ∀ a ∈ done, ∃ fresh extra, Returned a b s m fresh extra
  next : ∀ t, (s t).next ≤ (m t).next
  valid : m.Valid
  serial : m.Serial

section Stages
variable {a : Audited} {b : Int} {s m m' : DB} {v : Option Int} {done : List Audited}

theorem seenCongr (table : m a.table = s a.table) : a.seen m = a.seen s := by
  unfold Audited.seen
  rw [table]

theorem chainCongr (table : m a.table = s a.table) (log : m a.log = s a.log) (chain : Chain a s) : Chain a m := by
  refine ⟨?_,?_,?_,?_⟩
  · rw [table, log]
    exact chain.issued
  · rw [seenCongr table, log]
    exact chain.chained
  · rw [seenCongr table, log]
    exact chain.fixed.agree
  · rw [log]
    exact chain.fixed.copies

theorem fixedCongr (table : m a.table = s a.table) (log : m a.log = s a.log) (fixed : Fixed a s) : Fixed a m := by
  refine ⟨?_,?_⟩
  · rw [seenCongr table, log]
    exact fixed.agree
  · rw [log]
    exact fixed.copies

theorem roomyCongr {cut : Option Int} {log : List (Row a.log)} {xs : List Int} (table : m a.table = s a.table)
    (log' : m a.log = s a.log) (roomy : Roomy a cut log s xs) : Roomy a cut log m xs := by
  refine ⟨Database.roomCongr (by rw [log']) (table ▸ roomy.log),Database.roomCongr (by rw [table]) ?_⟩
  unfold Database.keys
  rw [table]
  exact roomy.table

theorem stageStart (valid : s.Valid) (serial : s.Serial) : Stage b s s [] where
  untouched := fun _ _ => rfl
  returned := fun _ mem => by cases mem
  next := fun _ => Int.le_refl _
  valid := valid
  serial := serial

theorem tablesApart (new : a ∉ done) : ∀ a' ∈ done, a.table ≠ a'.table ∧ a.table ≠ a'.log ∧ a.log ≠ a'.table ∧
    a.log ≠ a'.log := by
  intro a' mem
  have differ : a ≠ a' := fun same => new (same ▸ mem)
  exact ⟨Audited.tableInjective differ,a.tableLog a',(a'.tableLog a).symm,Audited.logInjective differ⟩

theorem stageOwn (stage : Stage b s m done) (new : a ∉ done) : m a.table = s a.table ∧ m a.log = s a.log := by
  refine ⟨stage.untouched _ fun a' mem => ?_,stage.untouched _ fun a' mem => ?_⟩
  · exact ⟨(tablesApart new a' mem).1,(tablesApart new a' mem).2.1⟩
  · exact ⟨(tablesApart new a' mem).2.2.1,(tablesApart new a' mem).2.2.2⟩

theorem stageStep (nonneg : 0 ≤ b) (stage : Stage b s m done) (new : a ∉ done) {undo : Int → Row a.log → Proc Unit}
    (undoes : Undoes a (Back a) undo) (chain : a.deletes = true → Chain a s) (fixed : a.deletes = false → Fixed a s)
    (ran : rollbackRows a.log (key a.log) a.layout.entity a.written (some b) undo m = .ok (v,m')) :
    Stage b s m' (a :: done) := by
  obtain ⟨table,log⟩ := stageOwn stage new
  obtain ⟨fresh,extra,undone⟩ := rollbackUndone undoes nonneg stage.valid stage.serial
    (fun deletes => chainCongr table log (chain deletes)) (fun keeps => fixedCongr table log (fixed keeps)) ran
  have gone : ((cursor (m a.log).rows (key a.log) a.layout.entity a.written (some b)).map Group.entity).filter
      (fun x => decide (x ∉ m.keys a.table)) = a.gone b s := by
    unfold Audited.gone Database.keys
    rw [table, log]
  have own : Returned a b s m' fresh extra := by
    refine ⟨?_,?_,undone.late,?_,table ▸ undone.drawn,?_,?_,?_⟩
    · rw [undone.rows, returnedAll, table, log]
    · rw [undone.logged, log]
    · have copied := undone.copied
      rw [gone, log] at copied
      exact copied
    · have counted := ((rollbackRowsOk nonneg).mp ran).2.2
      rwa [log] at counted
    · have roomy := roomyCongr table.symm log.symm (undoneRoomy undone)
      rwa [log] at roomy
    · rw [undone.logNext, undone.rewritten, table, log]
  constructor
  · intro t apart'
    obtain ⟨other,other'⟩ := apart' a List.mem_cons_self
    rw [undone.others t other other']
    exact stage.untouched t fun a' mem => apart' a' (List.mem_cons_of_mem _ mem)
  · intro a' mem
    rcases List.mem_cons.mp mem with rfl | before
    · exact ⟨fresh,extra,own⟩
    · obtain ⟨fresh',extra',returned⟩ := stage.returned a' before
      obtain ⟨o,o',p,p'⟩ := tablesApart new a' before
      have table' : m' a'.table = m a'.table := undone.others _ o.symm p.symm
      have log' : m' a'.log = m a'.log := undone.others _ o'.symm p'.symm
      exact ⟨fresh',extra',table' ▸ returned.rows,log' ▸ returned.logged,returned.late,returned.copied,
        returned.drawn,returned.counted,returned.roomy,log' ▸ returned.logNext⟩
  · exact fun t => Int.le_trans (stage.next t) (undone.next t)
  · exact undone.valid
  · exact undone.serial

end Stages

def Deletion.hits (d : Deletion) (t : TableName) (r : Row t) : Bool :=
  if same : d.table = t then d.condition (same ▸ r) else false

def struck (ds : List Deletion) (t : TableName) (r : Row t) : Bool := ds.any fun d => d.hits t r

@[simp] theorem hitsOwn {t : TableName} {p : Row t → Bool} {r : Row t} : (⟨t,p⟩ : Deletion).hits t r = p r :=
  dif_pos rfl

theorem hitsOther {d : Deletion} {t : TableName} (other : d.table ≠ t) (r : Row t) : d.hits t r = false :=
  dif_neg other

structure Strikes (d : Deletion) (m m' : DB) : Prop where
  rows : ∀ t, (∀ a : Audited, a.deletes = true → d.table = a.table → t ≠ a.log) →
    (m' t).rows = (m t).rows.filter fun r => !d.hits t r
  logged : ∀ a : Audited, a.deletes = true → d.table = a.table → ∃ extra,
    (m' a.log).rows = (m a.log).rows ++ extra ∧ ∀ e ∈ extra, ∃ r, d.hits a.table r = true ∧ a.row e = a.copied r
  quiet : ∀ t, (∀ a : Audited, a.deletes = true → d.table = a.table → t ≠ a.log) → (m' t).next = (m t).next
  next : ∀ t, (m t).next ≤ (m' t).next
  valid : m'.Valid
  serial : m'.Serial

section Deletions
variable {m m' : DB} {d : Deletion} {ds : List Deletion}

theorem filterAll {ρ : Type} {p : ρ → Bool} {rows : List ρ} (none : ∀ r, p r = false) :
    rows.filter (fun r => !p r) = rows := List.filter_eq_self.mpr fun r _ => by simp [none r]

theorem onDeleteCases (t : TableName) : (∃ a : Audited, a.deletes = true ∧ t = a.table) ∨
    (∀ a : Audited, a.deletes = true → t ≠ a.table) ∧ ∀ old : Row t, onDelete t old = pure () := by
  by_cases audited : ∃ a : Audited, a.deletes = true ∧ t = a.table
  · exact Or.inl audited
  · refine Or.inr ⟨fun a deletes same => audited ⟨a,deletes,same⟩,fun old => ?_⟩
    cases t <;> first
      | rfl
      | exact absurd ⟨.pubAddresses,rfl,rfl⟩ audited
      | exact absurd ⟨.nftSignatures,rfl,rfl⟩ audited

theorem withoutHits {t u : TableName} {p : Row t → Bool} :
    ((m.withRows t ((m t).rows.filter fun r => !p r)) u).rows =
      (m u).rows.filter fun r => !(⟨t,p⟩ : Deletion).hits u r := by
  by_cases own : u = t
  · subst own
    simp only [Database.withRowsSame, hitsOwn]
  · rw [Database.withRowsOther _ own]
    exact (filterAll (hitsOther (Ne.symm own))).symm

theorem deletionStrikes (serial : m.Serial) (ran : delete d.table d.condition m = .ok ((),m')) :
    Strikes d m m' := by
  obtain ⟨t,p⟩ := d
  rcases onDeleteCases t with ⟨a,deletes,rfl⟩ | ⟨unaudited,silent⟩
  · obtain ⟨entries,logged,rfl,_,valid⟩ := deleteWrites deletes ran
    constructor
    · intro t quiet
      have notLog : t ≠ a.log := quiet a deletes rfl
      rw [Database.appendOther _ notLog]
      exact withoutHits
    · intro a' deletes' same
      have only : a = a' := by
        by_contra differ
        exact Audited.tableInjective differ same
      subst only
      refine ⟨entries,by rw [Database.appendSame, Database.withRowsOther _ a.logOther],fun e mem => ?_⟩
      obtain ⟨old,hit,entry⟩ := entriesSource logged mem
      exact ⟨old,by rw [hitsOwn]; exact (List.mem_filter.mp hit).2,entry.row⟩
    · intro t quiet
      rw [Database.appendOther _ (quiet a deletes rfl)]
      exact withRowsNext m a.table t _
    · intro t
      exact withRowsNext m a.table t _ ▸ appendNext (m.withRows a.table _) a.log t entries
    · exact valid
    · exact writtenSerial serial (List.filter_sublist.map _) logged.drawn
  · obtain ⟨rfl,valid⟩ := (deletePlain silent).mp ran
    constructor
    · exact fun u _ => withoutHits
    · intro a deletes same
      exact absurd same (unaudited a deletes)
    · exact fun u _ => withRowsNext m t u _
    · exact fun u => Int.le_of_eq (withRowsNext m t u _).symm
    · exact valid
    · exact serial.withRows t (List.filter_sublist.map _)

theorem deletionsFramed (valid : m.Valid) (serial : m.Serial)
    (ran : ds.forM (fun d => delete d.table d.condition) m = .ok ((),m')) :
    (∀ t, (m t).next ≤ (m' t).next) ∧ m'.Valid ∧ m'.Serial := by
  induction ds generalizing m with
  | nil =>
    cases forMNil.mp ran
    exact ⟨fun _ => Int.le_refl _,valid,serial⟩
  | cons d rest ih =>
    obtain ⟨middle,first,later⟩ := forMCons.mp ran
    have strikes := deletionStrikes serial first
    obtain ⟨next,valid',serial'⟩ := ih strikes.valid strikes.serial later
    exact ⟨fun t => Int.le_trans (strikes.next t) (next t),valid',serial'⟩

theorem deletionsRows (serial : m.Serial) {t : TableName}
    (quiet : ∀ d ∈ ds, ∀ a : Audited, a.deletes = true → d.table = a.table → t ≠ a.log)
    (ran : ds.forM (fun d => delete d.table d.condition) m = .ok ((),m')) :
    (m' t).rows = (m t).rows.filter fun r => !struck ds t r := by
  induction ds generalizing m with
  | nil =>
    cases forMNil.mp ran
    exact (filterAll fun _ => rfl).symm
  | cons d rest ih =>
    obtain ⟨middle,first,later⟩ := forMCons.mp ran
    have strikes := deletionStrikes serial first
    rw [ih strikes.serial (fun d' mem => quiet d' (List.mem_cons_of_mem _ mem)) later,
      strikes.rows t (quiet d List.mem_cons_self), List.filter_filter]
    refine List.filter_congr fun r _ => ?_
    simp only [struck, List.any_cons, Bool.not_or, Bool.and_comm]

theorem deletionsNext (serial : m.Serial) {t : TableName}
    (quiet : ∀ d ∈ ds, ∀ a : Audited, a.deletes = true → d.table = a.table → t ≠ a.log)
    (ran : ds.forM (fun d => delete d.table d.condition) m = .ok ((),m')) : (m' t).next = (m t).next := by
  induction ds generalizing m with
  | nil =>
    cases forMNil.mp ran
    rfl
  | cons d rest ih =>
    obtain ⟨middle,first,later⟩ := forMCons.mp ran
    have strikes := deletionStrikes serial first
    rw [ih strikes.serial (fun d' mem => quiet d' (List.mem_cons_of_mem _ mem)) later,
      strikes.quiet t (quiet d List.mem_cons_self)]

theorem deletionsLog {b : Option Int} {a : Audited} (deletes : a.deletes = true) (serial : m.Serial)
    (tables : ∀ d ∈ ds, ∀ r, d.hits a.table r = true → atLeast (fkBlockNumber a.table r) b = true)
    (logs : ∀ d ∈ ds, ∀ e, d.hits a.log e = true → a.layout.lateEntry b e = true)
    (ran : ds.forM (fun d => delete d.table d.condition) m = .ok ((),m')) :
    (m' a.log).rows.filter (fun e => !a.layout.lateEntry b e) =
      (m a.log).rows.filter fun e => !a.layout.lateEntry b e := by
  induction ds generalizing m with
  | nil =>
    cases forMNil.mp ran
    rfl
  | cons d rest ih =>
    obtain ⟨middle,first,later⟩ := forMCons.mp ran
    have strikes := deletionStrikes serial first
    rw [ih strikes.serial (fun d' mem => tables d' (List.mem_cons_of_mem _ mem))
      (fun d' mem => logs d' (List.mem_cons_of_mem _ mem)) later]
    by_cases own : d.table = a.table
    · obtain ⟨extra,logged,copies⟩ := strikes.logged a deletes own
      have late : extra.filter (fun e => !a.layout.lateEntry b e) = [] := by
        refine List.filter_eq_nil_iff.mpr fun e mem => ?_
        obtain ⟨r,hit,row⟩ := copies e mem
        have stamped : atLeast (a.layout.stamp (a.layout.row e)) b = true := by
          change atLeast (fkBlockNumber a.table (a.row e)) b = true
          rw [row, a.stampCopied]
          exact tables d List.mem_cons_self r hit
        simp [Layout.lateEntry, stamped]
      rw [logged, List.filter_append, late, List.append_nil]
    · have quiet : ∀ a' : Audited, a'.deletes = true → d.table = a'.table → a.log ≠ a'.log := by
        intro a' _ same log
        have only : a = a' := by
          by_contra differ
          exact Audited.logInjective differ log
        exact own (only ▸ same)
      rw [strikes.rows a.log quiet, List.filter_filter]
      refine List.filter_congr fun e _ => ?_
      cases hit : d.hits a.log e with
      | false => simp
      | true => simp [logs d List.mem_cons_self e hit]

end Deletions

def TableName.dated : TableName → Bool
  | .handlesAudit | .domainsAudit | .accountsAudit | .fioRequestsAudit | .fioDatasAudit | .pubAddressesAudit
  | .nftSignaturesAudit => false
  | _ => true

section Fork
variable {b : Option Int} {m m' : DB}

theorem struckDated {t : TableName} (dated : t.dated = true) (r : Row t) :
    struck (forkDeletions b) t r = atLeast (fkBlockNumber t r) b := by
  cases t <;> first
    | contradiction
    | simp [struck, forkDeletions, Deletion.hits, fkBlockNumber]

theorem struckLog (a : Audited) (e : Row a.log) :
    struck (forkDeletions b) a.log e = a.layout.lateEntry b e := by
  cases a <;> simp [struck, forkDeletions, Deletion.hits, Layout.lateEntry] <;> rfl

theorem deletionsDated {t : TableName} (serial : m.Serial) (dated : t.dated = true)
    (ran : (forkDeletions b).forM (fun d => delete d.table d.condition) m = .ok ((),m')) :
    (m' t).rows = (m t).rows.filter fun r => !atLeast (fkBlockNumber t r) b := by
  have quiet : ∀ d ∈ forkDeletions b, ∀ a : Audited, a.deletes = true → d.table = a.table → t ≠ a.log := by
    intro d _ a _ _ same
    subst same
    cases a <;> cases dated
  rw [deletionsRows serial quiet ran]
  exact List.filter_congr fun r _ => by rw [struckDated dated]

theorem deletionsEntries {a : Audited} (serial : m.Serial) (keeps : a.deletes = false)
    (ran : (forkDeletions b).forM (fun d => delete d.table d.condition) m = .ok ((),m')) :
    (m' a.log).rows = (m a.log).rows.filter fun e => !a.layout.lateEntry b e := by
  have quiet : ∀ d ∈ forkDeletions b, ∀ a' : Audited, a'.deletes = true → d.table = a'.table → a.log ≠ a'.log := by
    intro d _ a' deletes _ same
    have only : a = a' := by
      by_contra differ
      exact Audited.logInjective differ same
    rw [← only, keeps] at deletes
    cases deletes
  rw [deletionsRows serial quiet ran]
  exact List.filter_congr fun e _ => by rw [struckLog]

theorem deletionsDeleted {a : Audited} {n : Nat} (valid : m.Valid) (serial : m.Serial) (deletes : a.deletes = true)
    (cut : ∀ t ∈ ((forkDeletions none).map Deletion.table).drop n, t ≠ a.table)
    (late : ∀ e, struck ((forkDeletions b).drop n) a.log e = a.layout.lateEntry b e)
    (ran : (forkDeletions b).forM (fun d => delete d.table d.condition) m = .ok ((),m')) :
    (m' a.log).rows = (m a.log).rows.filter fun e => !a.layout.lateEntry b e := by
  rw [← List.take_append_drop n (forkDeletions b)] at ran
  obtain ⟨middle,first,last⟩ := forMAppend.mp ran
  have dated : a.table.dated = true := by cases a <;> rfl
  have before : (middle a.log).rows.filter (fun e => !a.layout.lateEntry b e) =
      (m a.log).rows.filter fun e => !a.layout.lateEntry b e := by
    refine deletionsLog deletes serial (fun d mem r hit => ?_) (fun d mem e hit => ?_) first
    · rw [← struckDated dated r]
      exact List.any_eq_true.mpr ⟨d,List.mem_of_mem_take mem,hit⟩
    · rw [← struckLog a e]
      exact List.any_eq_true.mpr ⟨d,List.mem_of_mem_take mem,hit⟩
  have tables : (forkDeletions b).map Deletion.table = (forkDeletions none).map Deletion.table := rfl
  have quiet : ∀ d ∈ (forkDeletions b).drop n, ∀ a' : Audited, a'.deletes = true → d.table = a'.table →
      a.log ≠ a'.log := by
    intro d mem a' _ same log
    have only : a = a' := by
      by_contra differ
      exact Audited.logInjective differ log
    have listed : d.table ∈ ((forkDeletions none).map Deletion.table).drop n := by
      rw [← tables, ← List.map_drop]
      exact List.mem_map_of_mem mem
    exact cut d.table listed (only ▸ same)
  have framed := deletionsFramed valid serial first
  rw [deletionsRows framed.2.2 quiet last, ← before]
  exact List.filter_congr fun e _ => by rw [late]

theorem deletionsPubAddresses (valid : m.Valid) (serial : m.Serial)
    (ran : (forkDeletions b).forM (fun d => delete d.table d.condition) m = .ok ((),m')) :
    (m' .pubAddressesAudit).rows =
      (m .pubAddressesAudit).rows.filter fun e => !(Audited.layout .pubAddresses).lateEntry b e := by
  refine deletionsDeleted (a := .pubAddresses) (n := 8) valid serial rfl (by decide) (fun e => ?_) ran
  simp [struck, forkDeletions, Deletion.hits, Layout.lateEntry]
  rfl

theorem deletionsNftSignatures (valid : m.Valid) (serial : m.Serial)
    (ran : (forkDeletions b).forM (fun d => delete d.table d.condition) m = .ok ((),m')) :
    (m' .nftSignaturesAudit).rows =
      (m .nftSignaturesAudit).rows.filter fun e => !(Audited.layout .nftSignatures).lateEntry b e := by
  refine deletionsDeleted (a := .nftSignatures) (n := 26) valid serial rfl (by decide) (fun e => ?_) ran
  simp [struck, forkDeletions, Deletion.hits, Layout.lateEntry]
  rfl

theorem deletionsLogs {a : Audited} (valid : m.Valid) (serial : m.Serial)
    (ran : (forkDeletions b).forM (fun d => delete d.table d.condition) m = .ok ((),m')) :
    (m' a.log).rows = (m a.log).rows.filter fun e => !a.layout.lateEntry b e := by
  cases a with
  | pubAddresses => exact deletionsPubAddresses valid serial ran
  | nftSignatures => exact deletionsNftSignatures valid serial ran
  | accounts => exact deletionsEntries (a := .accounts) serial rfl ran
  | domains => exact deletionsEntries (a := .domains) serial rfl ran
  | handles => exact deletionsEntries (a := .handles) serial rfl ran
  | fioRequests => exact deletionsEntries (a := .fioRequests) serial rfl ran

end Fork

structure Forked (b : Int) (s s' : DB) : Prop where
  plain : ∀ t : TableName, t.plain = true → (s' t).rows = (s t).rows.filter fun r => !atLeast (fkBlockNumber t r) (some b)
  kept : ∀ a : Audited, a.deletes = false → (s' a.table).rows =
    ((s a.table).rows.map (a.original (some b) (s a.log).rows)).filter fun r =>
      !atLeast (fkBlockNumber a.table r) (some b)
  entries : ∀ a : Audited, a.deletes = false →
    (s' a.log).rows = (s a.log).rows.filter fun e => !a.layout.lateEntry (some b) e
  next : ∀ t, (s t).next ≤ (s' t).next
  valid : s'.Valid
  serial : s'.Serial

structure Refilled (a : Audited) (b : Int) (s s' : DB) (fresh : List (Row a.table)) : Prop where
  rows : (s' a.table).rows = ((s a.table).rows.map (a.original (some b) (s a.log).rows) ++ fresh).filter fun r =>
    !atLeast (fkBlockNumber a.table r) (some b)
  entries : (s' a.log).rows = (s a.log).rows.filter fun e => !a.layout.lateEntry (some b) e
  copied : List.Forall₂ (fun x r => ∃ e, a.layout.replaced (some b) (s a.log).rows x = some e ∧ Back a e r)
    (a.gone b s) fresh
  drawn : Drawn a.table (s a.table).next fresh

section Run
variable {b : Int} {s s' m m' : DB} {v : Option Int}

theorem rbFioDatasOk (nonneg : 0 ≤ b) (empty : (m .fioDatasAudit).rows = [])
    (ran : rbFioDatas (some b) m = .ok (v,m')) : m' = m := by
  obtain ⟨loop,_⟩ := (rollbackRowsOk nonneg).mp ran
  rw [empty] at loop
  exact forMNil.mp loop

theorem rbForkRuns (nonneg : 0 ≤ b) (kempt : Kempt s) (ran : rbFork (some b) s = .ok (v,s')) :
    v = some 1 ∧ ∃ (kept addresses signatures : DB) (v₁ v₂ : Option Int),
      Stage b s kept [.fioRequests,.accounts,.domains,.handles] ∧
      rbPubAddresses (some b) kept = .ok (v₁,addresses) ∧
      rbNftSignatures (some b) addresses = .ok (v₂,signatures) ∧
      (forkDeletions (some b)).forM (fun d => delete d.table d.condition) signatures = .ok ((),s') := by
  have counted : below (some b) (some 0) = false := by simp [nonneg]
  unfold rbFork at ran
  simp only [counted, Bool.false_eq_true, if_false] at ran
  obtain ⟨_,m₁,handles,ran⟩ := bindOk.mp ran
  obtain ⟨_,m₂,domains,ran⟩ := bindOk.mp ran
  obtain ⟨_,m₃,accounts,ran⟩ := bindOk.mp ran
  obtain ⟨_,m₄,requests,ran⟩ := bindOk.mp ran
  obtain ⟨_,m₅,datas,ran⟩ := bindOk.mp ran
  obtain ⟨_,m₆,addresses,ran⟩ := bindOk.mp ran
  obtain ⟨_,m₇,signatures,ran⟩ := bindOk.mp ran
  obtain ⟨_,m₈,deletions,ran⟩ := bindOk.mp ran
  obtain ⟨rfl,rfl⟩ := pureOk.mp ran
  have fixed := fun (a : Audited) (keeps : a.deletes = false) => kempt.fixed a keeps
  obtain ⟨_,undoes,same⟩ := rbHandlesLoop (b := some b)
  rw [same] at handles
  have stage := stageStep nonneg (stageStart kempt.valid kempt.serial) (by decide) undoes (fun h => by cases h)
    (fixed .handles) handles
  obtain ⟨_,undoes,same⟩ := rbDomainsLoop (b := some b)
  rw [same] at domains
  have stage := stageStep nonneg stage (by decide) undoes (fun h => by cases h) (fixed .domains) domains
  obtain ⟨_,undoes,same⟩ := rbAccountsLoop (b := some b)
  rw [same] at accounts
  have stage := stageStep nonneg stage (by decide) undoes (fun h => by cases h) (fixed .accounts) accounts
  obtain ⟨_,undoes,same⟩ := rbFioRequestsLoop (b := some b)
  rw [same] at requests
  have stage := stageStep nonneg stage (by decide) undoes (fun h => by cases h) (fixed .fioRequests) requests
  have empty : (m₄ .fioDatasAudit).rows = [] := by
    rw [stage.untouched .fioDatasAudit (by decide)]
    exact kempt.datas
  rw [rbFioDatasOk nonneg empty datas] at addresses
  exact ⟨rfl,m₄,m₆,m₇,_,_,stage,addresses,signatures,deletions⟩

theorem noneFresh {a : Audited} (keeps : a.deletes = false) {fresh : List (Row a.table)} {extra : List (Row a.log)}
    (returned : Returned a b s m fresh extra) : fresh = [] := by
  cases copied : fresh with
  | nil => rfl
  | cons r rest =>
    have pairs := returned.copied
    rw [copied] at pairs
    obtain ⟨_,_,⟨e,_,back⟩,_,_⟩ := List.forall₂_cons_right_iff.mp pairs
    cases a <;> contradiction

theorem rbForkForked (nonneg : 0 ≤ b) (kempt : Kempt s) (ran : rbFork (some b) s = .ok (v,s')) : Forked b s s' := by
  obtain ⟨_,m₄,m₅,m₆,_,_,stage,addresses,signatures,deletions⟩ := rbForkRuns nonneg kempt ran
  obtain ⟨_,undoes,same⟩ := rbPubAddressesLoop (b := some b)
  rw [same] at addresses
  have framed₅ := rollbackFramed undoes stage.valid stage.serial addresses
  obtain ⟨_,undoes,same⟩ := rbNftSignaturesLoop (b := some b)
  rw [same] at signatures
  have framed₆ := rollbackFramed undoes framed₅.valid framed₅.serial signatures
  have framed := deletionsFramed framed₆.valid framed₆.serial deletions
  have outside : ∀ t, t ≠ .pubAddresses → t ≠ .pubAddressesAudit → t ≠ .nftSignatures → t ≠ .nftSignaturesAudit →
      m₆ t = m₄ t := fun t p p' q q' => (framed₆.others t q q').trans (framed₅.others t p p')
  have listed : ∀ a : Audited, a.deletes = false → a ∈ [Audited.fioRequests,.accounts,.domains,.handles] := by
    intro a keeps
    cases a <;> first
      | contradiction
      | decide
  constructor
  · intro t plain
    have dated : t = .fioDatasAudit ∨ t.dated = true := by cases t <;> first | contradiction | decide
    have same : m₆ t = s t := by
      obtain ⟨p,p'⟩ := Audited.plainTable plain .pubAddresses
      obtain ⟨q,q'⟩ := Audited.plainTable plain .nftSignatures
      rw [outside t p p' q q', stage.untouched t fun a _ => Audited.plainTable plain a]
    rcases dated with rfl | dated
    · have quiet : ∀ d ∈ forkDeletions (some b), ∀ a : Audited, a.deletes = true → d.table = a.table →
          TableName.fioDatasAudit ≠ a.log := fun _ _ a _ _ => (Audited.plainTable rfl a).2
      rw [deletionsRows framed₆.serial quiet deletions, same, kempt.datas]
      rfl
    · rw [deletionsDated framed₆.serial dated deletions, same]
  · intro a keeps
    obtain ⟨fresh,extra,returned⟩ := stage.returned a (listed a keeps)
    have dated : a.table.dated = true := by cases a <;> rfl
    have same : m₆ a.table = m₄ a.table := by
      cases a <;> first
        | contradiction
        | exact outside _ (by decide) (by decide) (by decide) (by decide)
    rw [deletionsDated framed₆.serial dated deletions, same, returned.rows, noneFresh keeps returned,
      List.append_nil]
  · intro a keeps
    obtain ⟨fresh,extra,returned⟩ := stage.returned a (listed a keeps)
    have same : m₆ a.log = m₄ a.log := by
      cases a <;> first
        | contradiction
        | exact outside _ (by decide) (by decide) (by decide) (by decide)
    have late : extra.filter (fun e => !a.layout.lateEntry (some b) e) = [] :=
      List.filter_eq_nil_iff.mpr fun e mem => by simp [returned.late e mem]
    rw [deletionsLogs framed₆.valid framed₆.serial deletions, same, returned.logged, List.filter_append, late,
      List.append_nil]
  · exact fun t => Int.le_trans (stage.next t) (Int.le_trans (framed₅.next t) (Int.le_trans (framed₆.next t) (framed.1 t)))
  · exact framed.2.1
  · exact framed.2.2

def writtenBack : List Audited := [.nftSignatures,.pubAddresses,.fioRequests,.accounts,.domains,.handles]

theorem writtenBackAll (a : Audited) : a ∈ writtenBack := by cases a <;> decide

theorem rbForkStaged (nonneg : 0 ≤ b) (kempt : Kempt s) (chain : ∀ a : Audited, a.deletes = true → Chain a s)
    (ran : rbFork (some b) s = .ok (v,s')) : ∃ m, Stage b s m writtenBack ∧
      (forkDeletions (some b)).forM (fun d => delete d.table d.condition) m = .ok ((),s') := by
  obtain ⟨_,m₄,m₅,m₆,_,_,stage,addresses,signatures,deletions⟩ := rbForkRuns nonneg kempt ran
  obtain ⟨_,undoes,same⟩ := rbPubAddressesLoop (b := some b)
  rw [same] at addresses
  have stage := stageStep nonneg stage (by decide) undoes (chain .pubAddresses) (fun h => by cases h) addresses
  obtain ⟨_,undoes,same⟩ := rbNftSignaturesLoop (b := some b)
  rw [same] at signatures
  have stage := stageStep nonneg stage (by decide) undoes (chain .nftSignatures) (fun h => by cases h) signatures
  exact ⟨m₆,stage,deletions⟩

theorem rbForkRefilled (nonneg : 0 ≤ b) (kempt : Kempt s) (chain : ∀ a : Audited, a.deletes = true → Chain a s)
    (ran : rbFork (some b) s = .ok (v,s')) (a : Audited) (deletes : a.deletes = true) :
    ∃ fresh, Refilled a b s s' fresh := by
  obtain ⟨m,stage,deletions⟩ := rbForkStaged nonneg kempt chain ran
  obtain ⟨fresh,extra,returned⟩ := stage.returned a (writtenBackAll a)
  have dated : a.table.dated = true := by cases a <;> rfl
  have late : extra.filter (fun e => !a.layout.lateEntry (some b) e) = [] :=
    List.filter_eq_nil_iff.mpr fun e mem => by simp [returned.late e mem]
  refine ⟨fresh,?_,?_,returned.copied,returned.drawn⟩
  · rw [deletionsDated stage.serial dated deletions, returned.rows]
  · rw [deletionsLogs stage.valid stage.serial deletions, returned.logged, List.filter_append, late, List.append_nil]

end Run
end FioRelic
