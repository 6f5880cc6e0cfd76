import FioRelic.Restore

/-! When a fork returns. The rb functions return whenever their counts are ints: what an
entry refers to is still stored. The deletions cut every referring table before the table
it refers to, except that handles are cut before the NFT signatures that refer to them. -/
namespace FioRelic
open Relational Versioning

section Parents

theorem parentLasting {t : TableName} {ref : Reference TableName (Row t)} (listed : ref ∈ references t) :
    ref.parent.plain = true ∨ ∃ a : Audited, a.deletes = false ∧ ref.parent = a.table := by
  have named : ∀ p ∈ (references t).map Reference.parent,
      p ∈ [TableName.blocks,.transactions,.fioDatas,.accounts,.domains,.handles,.fioRequests] := by
    cases t <;> decide
  have found := named ref.parent (List.mem_map_of_mem listed)
  simp only [List.mem_cons, List.not_mem_nil, or_false] at found
  rcases found with same | same | same | same | same | same | same <;> rw [same]
  · exact Or.inl rfl
  · exact Or.inl rfl
  · exact Or.inl rfl
  · exact Or.inr ⟨.accounts,rfl,rfl⟩
  · exact Or.inr ⟨.domains,rfl,rfl⟩
  · exact Or.inr ⟨.handles,rfl,rfl⟩
  · exact Or.inr ⟨.fioRequests,rfl,rfl⟩

variable {c : Call} {s s' s₀ : DB} {t : TableName} {ref : Reference TableName (Row t)}

theorem parentOther (listed : ref ∈ references t) {a : Audited} (deletes : a.deletes = true) : ref.parent ≠ a.table := by
  rcases parentLasting listed with plain | ⟨a',keeps,same⟩
  · exact (Audited.plainTable plain a).1
  · intro same'
    have only : a' = a := by
      by_contra differ
      exact Audited.tableInjective differ (same.symm.trans same')
    rw [only, deletes] at keeps
    cases keeps

theorem restoredParent (restored : Restored s' s₀) (listed : ref ∈ references t) :
    s'.keys ref.parent = s₀.keys ref.parent := by
  rcases parentLasting listed with plain | ⟨a,keeps,same⟩
  · unfold Database.keys
    rw [restored.plain _ plain]
  · rw [same, ← seenKeys (a := a), ← seenKeys (a := a), restored.kept a keeps]

theorem changeParent (h : Change c s s') (listed : ref ∈ references t) :
    ∀ k ∈ s.keys ref.parent, k ∈ s'.keys ref.parent := by
  intro k mem
  cases h with
  | insert u row number stamped inserted _ => exact Database.keysAppendSub [row] ref.parent k mem
  | update a p assign entries rewritten logged committed _ =>
    refine Database.keysAppendSub (S := relic) (t := a.log) entries ref.parent k ?_
    rw [Database.keysWithRows (assignedKeys fun r mem hit => (rewritten r mem hit).number)]
    exact mem
  | delete a deletes p entries logged committed _ =>
    refine Database.keysAppendSub (S := relic) (t := a.log) entries ref.parent k ?_
    unfold Database.keys
    rw [Database.withRowsOther _ (parentOther listed deletes)]
    exact mem

end Parents

structure Anchored (s : DB) : Prop where
  refers : ∀ a : Audited, ∀ e ∈ (s a.log).rows, ∀ ref ∈ references a.table, s.Resolves ref.parent (ref.column (a.row e))
  agree : ∀ a : Audited, ∀ e ∈ (s a.log).rows, ∀ e' ∈ (s a.log).rows, a.layout.entity e = a.layout.entity e' →
    a.fixed (a.row e) = a.fixed (a.row e')

section Anchors
variable {c : Call} {s s' s₀ : DB}

theorem anchoredChange (kempt : Kempt s) (chain : ∀ a : Audited, a.deletes = true → Chain a s) (atHead : AtHead c s)
    (h : Change c s s') (anchored : Anchored s) : Anchored s' := by
  have grown : ∀ (a : Audited), ∀ ref ∈ references a.table, ∀ k, s.Resolves ref.parent k → s'.Resolves ref.parent k :=
    fun a ref listed k => Database.resolvesMono (changeParent h listed)
  have written : ∀ a : Audited, ∃ entries, (s' a.log).rows = (s a.log).rows ++ entries ∧
      ∀ e ∈ entries, a.layout.find (a.seen s) (a.layout.entity e) = some (a.row e) := by
    intro a
    cases changeEffect h kempt.valid a fun _ => atHead with
    | same rows log => exact ⟨[],by rw [log, List.append_nil],fun _ mem => absurd mem List.not_mem_nil⟩
    | inserted r number stamped rows log =>
      exact ⟨[],by rw [log, List.append_nil],fun _ mem => absurd mem List.not_mem_nil⟩
    | written entries log write restamped static updates => exact ⟨entries,log,write.old⟩
  refine ⟨fun a e mem ref listed => grown a ref listed _ ?_,fun a e mem e' mem' own => ?_⟩
  · obtain ⟨entries,log,source⟩ := written a
    rw [log] at mem
    rcases List.mem_append.mp mem with old | new
    · exact anchored.refers a e old ref listed
    · obtain ⟨r,stored,same⟩ := List.mem_map.mp (findMem (source e new)).1
      rw [← same, copiedReference listed]
      exact kempt.valid.resolves listed stored
  · obtain ⟨entries,log,source⟩ := written a
    have fixed : Fixed a s := by
      cases deletes : a.deletes with
      | true => exact (chain a deletes).fixed
      | false => exact kempt.fixed a deletes
    have late : ∀ e ∈ (s a.log).rows, ∀ e' ∈ entries, a.layout.entity e = a.layout.entity e' →
        a.fixed (a.row e) = a.fixed (a.row e') := by
      intro e old e' new own
      obtain ⟨inSeen,number⟩ := findMem (source e' new)
      exact (fixed.agree e old _ inSeen (number.trans own.symm)).symm
    rw [log] at mem mem'
    rcases List.mem_append.mp mem with old | new <;> rcases List.mem_append.mp mem' with old' | new'
    · exact anchored.agree a e old e' old' own
    · exact late e old e' new' own
    · exact (late e' old' e new own.symm).symm
    · have found := source e new
      rw [own, source e' new'] at found
      rw [Option.some.inj found]

theorem anchoredChanges (standing : Kempt s ∧ ∀ a : Audited, a.deletes = true → Chain a s) (atHead : AtHead c s)
    (h : Changes c s s') (anchored : Anchored s) : Anchored s' := by
  induction h with
  | refl => exact anchored
  | tail before last ih =>
    obtain ⟨kempt,chain⟩ := changesStanding standing.1 standing.2 atHead before
    exact anchoredChange kempt chain (Changes.atHead before atHead) last ih

theorem anchoredBlock (block : Block) (anchored : Anchored s) : Anchored (s.append .blocks [block]) := by
  refine ⟨fun a e mem ref listed => ?_,fun a e mem e' mem' own => ?_⟩
  · rw [blockOther a.logBlocks] at mem
    exact Database.resolvesMono (Database.keysAppendSub (S := relic) (t := .blocks) [block] ref.parent)
      (anchored.refers a e mem ref listed)
  · rw [blockOther a.logBlocks] at mem mem'
    exact anchored.agree a e mem e' mem' own

theorem anchoredRestored (restored : Restored s' s₀) (anchored : Anchored s₀) : Anchored s' := by
  refine ⟨fun a e mem ref listed => ?_,fun a e mem e' mem' own => ?_⟩
  · rw [restored.entries a] at mem
    rw [Database.resolvesCongr (restoredParent restored listed)]
    exact anchored.refers a e mem ref listed
  · rw [restored.entries a] at mem mem'
    exact anchored.agree a e mem e' mem' own

theorem anchoredRun {history : List Event} (order : ChainOrder history) : Anchored (run history).db := by
  refine (reorgInduction (P := Anchored) (Q := fun _ _ => True) ?_ ?_ ?_ ?_ ?_ order (meetsEach fun _ _ => trivial)).1
  · exact ⟨fun _ _ mem => absurd mem List.not_mem_nil,fun _ _ mem => absurd mem List.not_mem_nil⟩
  · exact fun _ _ anchored => ⟨anchored.refers,anchored.agree⟩
  · exact fun _ block anchored => anchoredBlock block anchored
  · exact fun _ _ _ _ _ _ standing atHead _ changes anchored =>
      anchoredChanges ⟨standing.kempt,standing.chain⟩ atHead changes anchored
  · exact fun _ _ _ _ restored anchored => anchoredRestored restored anchored

end Anchors

section Stages
variable {a : Audited} {b : Int} {s m : DB} {done : List Audited}

theorem stageKeys (stage : Stage b s m done) (t : TableName) : ∀ k ∈ s.keys t, k ∈ m.keys t := by
  intro k mem
  by_cases touched : ∃ a ∈ done, t = a.table ∨ t = a.log
  · obtain ⟨a,listed,own⟩ := touched
    obtain ⟨fresh,extra,returned⟩ := stage.returned a listed
    unfold Database.keys at mem ⊢
    rcases own with rfl | rfl
    · have kept : (s a.table).rows.map (key a.table ∘ a.original (some b) (s a.log).rows) =
          (s a.table).rows.map (key a.table) := List.map_congr_left fun r _ => originalKey r
      rw [returned.rows, List.map_append, List.map_map]
      exact List.mem_append_left _ (kept ▸ mem)
    · rw [returned.logged, List.map_append]
      exact List.mem_append_left _ mem
  · have same : m t = s t := stage.untouched t fun a listed =>
      ⟨fun own => touched ⟨a,listed,Or.inl own⟩,fun own => touched ⟨a,listed,Or.inr own⟩⟩
    unfold Database.keys at mem ⊢
    rwa [same]

def Audited.Counted (a : Audited) (b : Int) (s : DB) : Prop :=
  fitsInt ((((s a.log).rows.filter fun e => atLeast (a.written e) (some b)).map a.layout.entity).dedup).length = true

theorem countedCursor : a.Counted b s ↔
    fitsInt (cursor (s a.log).rows (key a.log) a.layout.entity a.written (some b)).length = true := by
  have groups : (cursor (s a.log).rows (key a.log) a.layout.entity a.written (some b)).map Group.entity =
      (((s a.log).rows.filter fun e => atLeast (a.written e) (some b)).map a.layout.entity).dedup := cursorEntities
  unfold Audited.Counted
  rw [← groups, List.length_map]

def Audited.reinserted : (a : Audited) → Row a.log → Option Int
  | .pubAddresses => fun e => e.fkBlockNumber
  | _ => fun _ => none

def Audited.undone (a : Audited) (b : Int) (s : DB) : Nat :=
  (s a.table).rows.countP fun r => decide (r ≠ a.original (some b) (s a.log).rows r)

def Audited.discarded (a : Audited) (b : Int) (s : DB) : Nat :=
  if a.deletes then
    ((s a.table).rows.countP fun r =>
      atLeast (fkBlockNumber a.table (a.original (some b) (s a.log).rows r)) (some b)) +
    (a.gone b s).countP fun x =>
      atLeast ((a.layout.replaced (some b) (s a.log).rows x).bind a.reinserted) (some b)
  else 0

def Audited.Sequenced (a : Audited) (b : Int) (s : DB) : Prop :=
  s.Room a.log (a.undone b s + a.discarded b s) ∧ s.Room a.table (a.gone b s).length

instance (a : Audited) (b : Int) (s : DB) : Decidable (a.Sequenced b s) :=
  inferInstanceAs (Decidable (_ ∧ _))

theorem undoneRewrites : a.rewrites (some b) (s a.log).rows
    ((cursor (s a.log).rows (key a.log) a.layout.entity a.written (some b)).map Group.entity) (s a.table).rows =
      a.undone b s := by
  unfold Audited.rewrites Audited.undone
  refine List.countP_congr fun r _ => ?_
  rw [returnedOriginal]

theorem sequencedRoomy (sequenced : a.Sequenced b s) : Roomy a (some b) (s a.log).rows s
    ((cursor (s a.log).rows (key a.log) a.layout.entity a.written (some b)).map Group.entity) :=
  ⟨sequenced.1.less (by rw [undoneRewrites]; omega),sequenced.2⟩

theorem discardedRows {fresh : List (Row a.table)} {extra : List (Row a.log)} (deletes : a.deletes = true)
    (returned : Returned a b s m fresh extra) :
    ((m a.table).rows.filter fun r => atLeast (fkBlockNumber a.table r) (some b)).length = a.discarded b s := by
  have again : ∀ {e r}, Back a e r → fkBlockNumber a.table r = a.reinserted e := by
    intro e r back
    cases a with
    | pubAddresses =>
      change r = { Audited.row .pubAddresses e with pkPubAddressesId := r.pkPubAddressesId } at back
      rw [back]
      rfl
    | nftSignatures =>
      change r = { Audited.row .nftSignatures e with
        pkNftSignaturesId := r.pkNftSignaturesId, fkBlockNumber := none } at back
      rw [back]
      rfl
    | _ => exact back.elim
  have inserted : fresh.countP (fun r => atLeast (fkBlockNumber a.table r) (some b)) = (a.gone b s).countP fun x =>
      atLeast ((a.layout.replaced (some b) (s a.log).rows x).bind a.reinserted) (some b) := by
    have copied := returned.copied
    clear returned
    generalize a.gone b s = xs at copied ⊢
    induction copied with
    | nil => rfl
    | cons pair _ ih =>
      obtain ⟨e,first,back⟩ := pair
      rw [List.countP_cons, List.countP_cons, ih, first, again back, Option.bind_some]
  rw [← List.countP_eq_length_filter, returned.rows, List.countP_append, List.countP_map, inserted, Audited.discarded,
    if_pos deletes]
  rfl

theorem stageRuns (nonneg : 0 ≤ b) (stage : Stage b s m done) (new : a ∉ done) {undo : Int → Row a.log → Proc Unit}
    (undoes : Undoes a (Back a) undo) (kempt : Kempt s) (chain : a.deletes = true → Chain a s) (anchored : Anchored s)
    (counted : a.Counted b s) (sequenced : a.Sequenced b s) :
    ∃ v m', rollbackRows a.log (key a.log) a.layout.entity a.written (some b) undo m = .ok (v,m') ∧
      Stage b s m' (a :: done) := by
  obtain ⟨table,log⟩ := stageOwn stage new
  have fixed := kempt.fixed a
  obtain ⟨v,m',ran⟩ := rollbackRuns undoes nonneg stage.valid stage.serial
    (fun deletes => chainCongr table log (chain deletes)) (fun keeps => fixedCongr table log (fixed keeps))
    (fun keeps e mem => kempt.updates a keeps e (log ▸ mem))
    (fun e mem ref listed => Database.resolvesMono (stageKeys stage ref.parent) (anchored.refers a e (log ▸ mem) ref listed))
    (log ▸ roomyCongr table log (sequencedRoomy sequenced)) (log ▸ countedCursor.mp counted)
  exact ⟨v,m',ran,stageStep nonneg stage new undoes chain fixed ran⟩

theorem rbFioDatasRuns (nonneg : 0 ≤ b) (empty : (m .fioDatasAudit).rows = []) :
    ∃ v, rbFioDatas (some b) m = .ok (v,m) := by
  refine ⟨some 0,(rollbackRowsOk nonneg).mpr ?_⟩
  rw [empty]
  exact ⟨forMNil.mpr rfl,rfl,rfl⟩

theorem stagesRun (nonneg : 0 ≤ b) (kempt : Kempt s) (chain : ∀ a : Audited, a.deletes = true → Chain a s)
    (anchored : Anchored s) (counted : ∀ a : Audited, a.Counted b s) (sequenced : ∀ a : Audited, a.Sequenced b s) :
    ∃ m, Stage b s m writtenBack ∧
      ∀ s', (forkDeletions (some b)).forM (fun d => delete d.table d.condition) m = .ok ((),s') →
        rbFork (some b) s = .ok (some 1,s') := by
  obtain ⟨_,undoes,same⟩ := rbHandlesLoop (b := some b)
  obtain ⟨v₁,m₁,handles,stage₁⟩ := stageRuns nonneg (stageStart kempt.valid kempt.serial) (by decide) undoes kempt
    (chain .handles) anchored (counted .handles) (sequenced .handles)
  rw [← same] at handles
  obtain ⟨_,undoes,same⟩ := rbDomainsLoop (b := some b)
  obtain ⟨v₂,m₂,domains,stage₂⟩ := stageRuns nonneg stage₁ (by decide) undoes kempt (chain .domains) anchored
    (counted .domains) (sequenced .domains)
  rw [← same] at domains
  obtain ⟨_,undoes,same⟩ := rbAccountsLoop (b := some b)
  obtain ⟨v₃,m₃,accounts,stage₃⟩ := stageRuns nonneg stage₂ (by decide) undoes kempt (chain .accounts) anchored
    (counted .accounts) (sequenced .accounts)
  rw [← same] at accounts
  obtain ⟨_,undoes,same⟩ := rbFioRequestsLoop (b := some b)
  obtain ⟨v₄,m₄,requests,stage₄⟩ := stageRuns nonneg stage₃ (by decide) undoes kempt (chain .fioRequests) anchored
    (counted .fioRequests) (sequenced .fioRequests)
  rw [← same] at requests
  obtain ⟨v₅,datas⟩ := rbFioDatasRuns (m := m₄) nonneg (by rw [stage₄.untouched .fioDatasAudit (by decide), kempt.datas])
  obtain ⟨_,undoes,same⟩ := rbPubAddressesLoop (b := some b)
  obtain ⟨v₆,m₆,addresses,stage₆⟩ := stageRuns nonneg stage₄ (by decide) undoes kempt (chain .pubAddresses) anchored
    (counted .pubAddresses) (sequenced .pubAddresses)
  rw [← same] at addresses
  obtain ⟨_,undoes,same⟩ := rbNftSignaturesLoop (b := some b)
  obtain ⟨v₇,m₇,signatures,stage₇⟩ := stageRuns nonneg stage₆ (by decide) undoes kempt (chain .nftSignatures) anchored
    (counted .nftSignatures) (sequenced .nftSignatures)
  rw [← same] at signatures
  refine ⟨m₇,stage₇,fun s' deletions => ?_⟩
  have guard : below (some b) (some 0) = false := by simp [nonneg]
  unfold rbFork
  simp only [guard, Bool.false_eq_true, if_false]
  exact bindOk.mpr ⟨v₁,m₁,handles,bindOk.mpr ⟨v₂,m₂,domains,bindOk.mpr ⟨v₃,m₃,accounts,bindOk.mpr ⟨v₄,m₄,requests,
    bindOk.mpr ⟨v₅,m₄,datas,bindOk.mpr ⟨v₆,m₆,addresses,bindOk.mpr ⟨v₇,m₇,signatures,
      bindOk.mpr ⟨(),s',deletions,pureOk.mpr ⟨rfl,rfl⟩⟩⟩⟩⟩⟩⟩⟩⟩

end Stages

/- Each table of the deletions is cut after every table that refers to it, handles before
NFT signatures excepted, and once, before the log of its trigger is. -/
def Orderly (done : List TableName) : List TableName → Prop
  | [] => True
  | t :: rest =>
    (∀ u ∈ tables, t ∈ (references u).map Reference.parent → u ∈ t :: rest → t = .handles ∧ u = .nftSignatures) ∧
      (∀ a ∈ writtenBack, a.deletes = true → t = a.table → a.log ∉ done ∧ a.table ∉ rest) ∧ Orderly (done ++ [t]) rest

instance decideOrderly : (done rest : List TableName) → Decidable (Orderly done rest)
  | _, [] => isTrue trivial
  | done, t :: rest =>
    have := decideOrderly (done ++ [t]) rest
    inferInstanceAs (Decidable (_ ∧ _ ∧ _))

theorem forkOrderly (b : Option Int) : Orderly [] ((forkDeletions b).map Deletion.table) := by
  have order : Orderly [] ((forkDeletions none).map Deletion.table) := by decide
  exact order

theorem handleReference : (⟨NftSignature.fkHandleId,.handles⟩ : Reference TableName (Row .nftSignatures)) ∈
    references .nftSignatures := by simp [references]

section Deletions
variable {b : Int} {m m' m'' : DB} {d : Deletion} {done rest : List Deletion}

theorem hitsUnlisted {ds : List Deletion} {t : TableName} (unlisted : t ∉ ds.map Deletion.table) (r : Row t) :
    struck ds t r = false := by
  unfold struck
  rw [List.any_eq_false]
  intro d mem hit
  rw [hitsOther (fun same => unlisted (List.mem_map.mpr ⟨d,mem,same⟩))] at hit
  cases hit

theorem struckSplit (t : TableName) (r : Row t) :
    struck (done ++ d :: rest) t r = (struck done t r || (d.hits t r || struck rest t r)) := by
  unfold struck
  rw [List.any_append, List.any_cons]

structure Clearing (b : Int) (m m' : DB) (rest : List Deletion) : Prop where
  valid : m'.Valid
  serial : m'.Serial
  kept : ∀ t, ∀ r ∈ (spared b m t).rows, r ∈ (m' t).rows
  left : ∀ t, ∀ r ∈ (m' t).rows, struck (forkDeletions (some b)) t r = true → struck rest t r = true
  origin : ∀ t, (∀ a : Audited, a.deletes = true → t ≠ a.log) → ∀ r ∈ (m' t).rows, r ∈ (m t).rows
  entries : ∀ a : Audited, a.deletes = true → ∀ e ∈ (m' a.log).rows, e ∈ (m a.log).rows ∨
    a.layout.lateEntry (some b) e = true
  pending : ∀ a : Audited, a.deletes = true → a.table ∈ rest.map Deletion.table →
    (m' a.table).rows = (m a.table).rows ∧ (m' a.log).next = (m a.log).next

theorem cleared (clearing : Clearing b m m' rest) {t : TableName} (unlisted : t ∉ rest.map Deletion.table) :
    ∀ r ∈ (m' t).rows, r ∈ (spared b m t).rows := by
  intro r mem
  have unstruck : struck (forkDeletions (some b)) t r = false := by
    cases hit : struck (forkDeletions (some b)) t r with
    | false => rfl
    | true => exact absurd (clearing.left t r mem hit) (by rw [hitsUnlisted unlisted]; decide)
  refine List.mem_filter.mpr ⟨?_,by simp [unstruck]⟩
  by_cases logged : ∃ a : Audited, a.deletes = true ∧ t = a.log
  · obtain ⟨a,deletes,rfl⟩ := logged
    rcases clearing.entries a deletes r mem with old | late
    · exact old
    · rw [struckLog, late] at unstruck
      cases unstruck
  · exact clearing.origin t (fun a deletes same => logged ⟨a,deletes,same⟩) r mem

theorem strikesLate (split : forkDeletions (some b) = done ++ d :: rest) (strikes : Strikes d m' m'') {a : Audited}
    (deletes : a.deletes = true) (same : d.table = a.table) {e : Row a.log} (mem : e ∈ (m'' a.log).rows) :
    e ∈ (m' a.log).rows ∨ a.layout.lateEntry (some b) e = true := by
  obtain ⟨extra,logged,copies⟩ := strikes.logged a deletes same
  rw [logged] at mem
  refine (List.mem_append.mp mem).imp_right fun new => ?_
  obtain ⟨r,hit,row⟩ := copies e new
  have dated : a.table.dated = true := by cases a <;> rfl
  have late : atLeast (fkBlockNumber a.table r) (some b) = true := by
    rw [← struckDated dated, split, struckSplit, hit]
    simp
  have stamp : a.layout.stamp (a.layout.row e) = fkBlockNumber a.table r := by
    change fkBlockNumber a.table (a.row e) = _
    rw [row, a.stampCopied]
  simp [Layout.lateEntry, stamp, late]

theorem clearingStep (split : forkDeletions (some b) = done ++ d :: rest)
    (quiet : ∀ a : Audited, a.deletes = true → d.table = a.table →
      a.log ∉ done.map Deletion.table ∧ a.table ∉ rest.map Deletion.table)
    (clearing : Clearing b m m' (d :: rest)) (strikes : Strikes d m' m'') : Clearing b m m'' rest := by
  have passes : ∀ t, ∀ r ∈ (spared b m t).rows, d.hits t r = false := by
    intro t r mem
    have unstruck := (List.mem_filter.mp mem).2
    rw [split, struckSplit] at unstruck
    cases hit : d.hits t r with
    | false => rfl
    | true => simp [hit] at unstruck
  have remains : ∀ t, ∀ r ∈ (m' t).rows, d.hits t r = false → struck (forkDeletions (some b)) t r = true →
      struck rest t r = true := by
    intro t r mem missed hit
    have left := clearing.left t r mem hit
    unfold struck at left ⊢
    rwa [List.any_cons, missed, Bool.false_or] at left
  have loud : ∀ t, (∃ a : Audited, a.deletes = true ∧ d.table = a.table ∧ t = a.log) ∨
      (m'' t).rows = (m' t).rows.filter fun r => !d.hits t r := by
    intro t
    by_cases fires : ∃ a : Audited, a.deletes = true ∧ d.table = a.table ∧ t = a.log
    · exact Or.inl fires
    · exact Or.inr (strikes.rows t fun a deletes same log => fires ⟨a,deletes,same,log⟩)
  refine ⟨strikes.valid,strikes.serial,fun t r mem => ?kept,fun t r mem hit => ?left,fun t outside r mem => ?origin,
    fun a deletes e mem => ?entries,fun a deletes listed => ?pending⟩
  case kept =>
    have stored := clearing.kept t r mem
    rcases loud t with ⟨a,deletes,same,rfl⟩ | rows
    · obtain ⟨extra,logged,_⟩ := strikes.logged a deletes same
      rw [logged]
      exact List.mem_append_left _ stored
    · rw [rows]
      exact List.mem_filter.mpr ⟨stored,by simp [passes t r mem]⟩
  case left =>
    rcases loud t with ⟨a,deletes,same,rfl⟩ | rows
    · obtain ⟨extra,logged,_⟩ := strikes.logged a deletes same
      have other : d.table ≠ a.log := same ▸ a.logOther.symm
      rw [logged] at mem
      rcases List.mem_append.mp mem with old | new
      · exact remains a.log r old (hitsOther other r) hit
      · rwa [split, struckSplit, hitsUnlisted (quiet a deletes same).1, hitsOther other, Bool.false_or,
          Bool.false_or]
          at hit
    · rw [rows] at mem
      obtain ⟨stored,missed⟩ := List.mem_filter.mp mem
      exact remains t r stored (by simpa using missed) hit
  case origin =>
    rcases loud t with ⟨a,deletes,_,log⟩ | rows
    · exact absurd log (outside a deletes)
    · rw [rows] at mem
      exact clearing.origin t outside r (List.mem_filter.mp mem).1
  case entries =>
    rcases loud a.log with ⟨a',deletes',same,log⟩ | rows
    · have only : a = a' := by
        by_contra differ
        exact Audited.logInjective differ log
      subst only
      rcases strikesLate split strikes deletes same mem with old | late
      · exact clearing.entries a deletes e old
      · exact Or.inr late
    · rw [rows] at mem
      exact clearing.entries a deletes e (List.mem_filter.mp mem).1
  case pending =>
    have other : d.table ≠ a.table := fun same => (quiet a deletes same).2 listed
    obtain ⟨rows,next⟩ := clearing.pending a deletes (by rw [List.map_cons]; exact List.mem_cons_of_mem _ listed)
    refine ⟨?_,?_⟩
    · rw [strikes.rows a.table fun a' _ _ => a.tableLog a', filterAll (hitsOther other), rows]
    · rw [strikes.quiet a.log (fun a' _ same log => ?_), next]
      have only : a = a' := by
        by_contra differ
        exact Audited.logInjective differ log
      exact other (only ▸ same)

theorem deletionRuns (valid : m.Valid)
    (draws : ∀ a : Audited, a.deletes = true → d.table = a.table →
      m.Draws a.log ((m a.table).rows.filter fun r => d.hits a.table r).length)
    (target : (m.withRows d.table ((m d.table).rows.filter fun r => !d.condition r)).Valid) :
    ∃ m', delete d.table d.condition m = .ok ((),m') := by
  obtain ⟨t,p⟩ := d
  rcases onDeleteCases t with ⟨a,deletes,rfl⟩ | ⟨_,silent⟩
  · refine deleteRuns deletes valid ((draws a deletes rfl).less (Nat.le_of_eq ?_)) target
    exact congrArg List.length (List.filter_congr fun r _ => hitsOwn.symm)
  · exact ⟨_,(deletePlain silent).mpr ⟨rfl,target⟩⟩

theorem hitsSelf (r : Row d.table) : d.hits d.table r = d.condition r := dif_pos rfl

theorem deletionsRun (refers : ∀ t, ∀ ref ∈ references t, ∀ r ∈ (spared b m t).rows,
      (spared b m).Resolves ref.parent (ref.column r))
    (signatures : ∀ r ∈ (m .nftSignatures).rows, (spared b m).Resolves .handles r.fkHandleId)
    (room : ∀ a : Audited, a.deletes = true →
      m.Room a.log ((m a.table).rows.filter fun r => atLeast (fkBlockNumber a.table r) (some b)).length)
    (split : forkDeletions (some b) = done ++ rest)
    (order : Orderly (done.map Deletion.table) (rest.map Deletion.table)) (clearing : Clearing b m m' rest) :
    ∃ s', rest.forM (fun d => delete d.table d.condition) m' = .ok ((),s') := by
  induction rest generalizing done m' with
  | nil => exact ⟨m',forMNil.mpr rfl⟩
  | cons d rest ih =>
    obtain ⟨children,quiet,order⟩ := order
    have resolved : ∀ u, ∀ ref ∈ references u, ref.parent = d.table → ∀ r ∈ (m' u).rows,
        (spared b m).Resolves ref.parent (ref.column r) := by
      intro u ref listed parent r mem
      by_cases unlisted : u ∈ (d :: rest).map Deletion.table
      · obtain ⟨handles,nft⟩ := children u (relic.complete u) (parent ▸ List.mem_map_of_mem listed) unlisted
        subst nft
        have stored : r ∈ (m .nftSignatures).rows := clearing.origin .nftSignatures (fun a _ => by cases a <;> decide) r mem
        simp only [references, List.mem_cons, List.not_mem_nil, or_false] at listed
        rcases listed with rfl | rfl
        · rw [← parent] at handles
          cases handles
        · exact signatures r stored
      · exact refers u ref listed r (cleared clearing unlisted r mem)
    have target : (m'.withRows d.table ((m' d.table).rows.filter fun r => !d.condition r)).Valid := by
      refine clearing.valid.remove fun u ref listed parent r mem k given => ?_
      have found := resolved u ref listed parent r mem
      rw [given, parent] at found
      obtain ⟨r',inSpared,number⟩ := List.mem_map.mp found
      refine ⟨r',clearing.kept d.table r' inSpared,number,?_⟩
      have unstruck := (List.mem_filter.mp inSpared).2
      rw [split, struckSplit, hitsSelf] at unstruck
      cases hit : d.condition r' with
      | false => rfl
      | true => simp [hit] at unstruck
    have draws : ∀ a : Audited, a.deletes = true → d.table = a.table →
        m'.Draws a.log ((m' a.table).rows.filter fun r => d.hits a.table r).length := by
      intro a deletes same
      obtain ⟨rows,next⟩ := clearing.pending a deletes (same ▸ List.mem_cons_self)
      refine ((Database.roomCongr next (room a deletes)).less ?_).draws clearing.serial (serialLog a)
      rw [rows, ← List.countP_eq_length_filter, ← List.countP_eq_length_filter]
      refine List.countP_mono_left fun r _ hit => ?_
      have dated : a.table.dated = true := by cases a <;> rfl
      rw [← struckDated dated, split, struckSplit, hit]
      simp
    obtain ⟨middle,first⟩ := deletionRuns clearing.valid draws target
    have clearing' := clearingStep split (fun a deletes => quiet a (writtenBackAll a) deletes) clearing
      (deletionStrikes clearing.serial first)
    have split' : forkDeletions (some b) = (done ++ [d]) ++ rest := by rw [split, List.append_assoc]; rfl
    obtain ⟨s',later⟩ := ih split' (by rw [List.map_append]; exact order) clearing'
    exact ⟨s',forMCons.mpr ⟨middle,first,later⟩⟩

theorem deletionsDrew {s' : DB} {a : Audited} (deletes : a.deletes = true) (serial : m.Serial) (early : List Deletion)
    (split : forkDeletions (some b) = early ++ ⟨a.table,fun r => atLeast (fkBlockNumber a.table r) (some b)⟩ :: rest)
    (unlisted : a.table ∉ early.map Deletion.table)
    (ran : (forkDeletions (some b)).forM (fun d => delete d.table d.condition) m = .ok ((),s')) :
    m.Room a.log ((m a.table).rows.filter fun r => atLeast (fkBlockNumber a.table r) (some b)).length := by
  rw [split] at ran
  obtain ⟨middle,first,later⟩ := forMAppend.mp ran
  obtain ⟨_,cut,_⟩ := forMCons.mp later
  have rows : (middle a.table).rows = (m a.table).rows := by
    rw [deletionsRows serial (fun _ _ a' _ _ => a.tableLog a') first]
    exact filterAll (hitsUnlisted unlisted)
  have next : (middle a.log).next = (m a.log).next := by
    refine deletionsNext serial (fun d mem a' _ same log => ?_) first
    have only : a = a' := by
      by_contra differ
      exact Audited.logInjective differ log
    exact unlisted (List.mem_map.mpr ⟨d,mem,only ▸ same⟩)
  have room := (deleteDraws deletes cut).room
  rw [rows] at room
  exact Database.roomCongr next.symm room

theorem deletionsRoom {s' : DB} (serial : m.Serial)
    (ran : (forkDeletions (some b)).forM (fun d => delete d.table d.condition) m = .ok ((),s')) (a : Audited)
    (deletes : a.deletes = true) :
    m.Room a.log ((m a.table).rows.filter fun r => atLeast (fkBlockNumber a.table r) (some b)).length := by
  cases a with
  | pubAddresses =>
    exact deletionsDrew (a := .pubAddresses) rfl serial ((forkDeletions (some b)).take 7) rfl (by
      rw [List.map_take]
      change TableName.pubAddresses ∉ ((forkDeletions none).map Deletion.table).take 7
      decide) ran
  | nftSignatures =>
    exact deletionsDrew (a := .nftSignatures) rfl serial ((forkDeletions (some b)).take 25) rfl (by
      rw [List.map_take]
      change TableName.nftSignatures ∉ ((forkDeletions none).map Deletion.table).take 25
      decide) ran
  | _ => cases deletes

theorem deletionsCut {s' : DB} (valid : m.Valid) (serial : m.Serial)
    (ran : (forkDeletions (some b)).forM (fun d => delete d.table d.condition) m = .ok ((),s')) :
    ∀ r ∈ (m .nftSignatures).rows, (spared b m).Resolves .handles r.fkHandleId := by
  intro r mem
  rw [← List.take_append_drop 13 (forkDeletions (some b))] at ran
  obtain ⟨middle,first,_⟩ := forMAppend.mp ran
  have stored : r ∈ (middle .nftSignatures).rows := by
    have unlisted : TableName.nftSignatures ∉ ((forkDeletions (some b)).take 13).map Deletion.table := by
      rw [List.map_take]
      change TableName.nftSignatures ∉ ((forkDeletions none).map Deletion.table).take 13
      decide
    rw [deletionsRows serial (fun _ _ a _ _ => by cases a <;> decide) first]
    exact List.mem_filter.mpr ⟨mem,by rw [hitsUnlisted unlisted]; rfl⟩
  have cut : middle.keys .handles = (spared b m).keys .handles := by
    have unlisted : TableName.handles ∉ ((forkDeletions (some b)).drop 13).map Deletion.table := by
      rw [List.map_drop]
      change TableName.handles ∉ ((forkDeletions none).map Deletion.table).drop 13
      decide
    unfold Database.keys
    rw [deletionsRows serial (fun _ _ a _ _ => by cases a <;> decide) first]
    refine congrArg _ (List.filter_congr fun h _ => ?_)
    have split : struck (forkDeletions (some b)) .handles h = (struck ((forkDeletions (some b)).take 13) .handles h ||
        struck ((forkDeletions (some b)).drop 13) .handles h) := by
      unfold struck
      rw [← List.any_append, List.take_append_drop]
    rw [split, hitsUnlisted unlisted, Bool.or_false]
  have found := (deletionsFramed valid serial first).2.1.resolves handleReference stored
  rwa [Database.resolvesCongr cut] at found

end Deletions

section Restored
variable {s' s₀ : DB}

theorem TableName.kinds (t : TableName) : t.plain = true ∨ (∃ a : Audited, a.deletes = false ∧ t = a.table) ∨
    (∃ a : Audited, t = a.log) ∨ t = .pubAddresses ∨ t = .nftSignatures := by
  cases t with
  | accounts => exact Or.inr (Or.inl ⟨.accounts,rfl,rfl⟩)
  | domains => exact Or.inr (Or.inl ⟨.domains,rfl,rfl⟩)
  | handles => exact Or.inr (Or.inl ⟨.handles,rfl,rfl⟩)
  | fioRequests => exact Or.inr (Or.inl ⟨.fioRequests,rfl,rfl⟩)
  | accountsAudit => exact Or.inr (Or.inr (Or.inl ⟨.accounts,rfl⟩))
  | domainsAudit => exact Or.inr (Or.inr (Or.inl ⟨.domains,rfl⟩))
  | handlesAudit => exact Or.inr (Or.inr (Or.inl ⟨.handles,rfl⟩))
  | fioRequestsAudit => exact Or.inr (Or.inr (Or.inl ⟨.fioRequests,rfl⟩))
  | pubAddressesAudit => exact Or.inr (Or.inr (Or.inl ⟨.pubAddresses,rfl⟩))
  | nftSignaturesAudit => exact Or.inr (Or.inr (Or.inl ⟨.nftSignatures,rfl⟩))
  | pubAddresses => exact Or.inr (Or.inr (Or.inr (Or.inl rfl)))
  | nftSignatures => exact Or.inr (Or.inr (Or.inr (Or.inr rfl)))
  | _ => exact Or.inl rfl

theorem restoredRow (restored : Restored s' s₀) {t : TableName} (other : t ≠ .nftSignatures)
    {ref : Reference TableName (Row t)} (listed : ref ∈ references t) {r : Row t} (mem : r ∈ (s' t).rows) :
    ∃ r₀ ∈ (s₀ t).rows, ref.column r₀ = ref.column r := by
  rcases t.kinds with plain | ⟨a,keeps,rfl⟩ | ⟨a,rfl⟩ | rfl | same
  · exact ⟨r,restored.plain t plain ▸ mem,rfl⟩
  · have seen : a.copied r ∈ a.seen s' := List.mem_map_of_mem mem
    rw [restored.kept a keeps] at seen
    obtain ⟨r₀,stored,same⟩ := List.mem_map.mp seen
    exact ⟨r₀,stored,by rw [← copiedReference listed r₀, same, copiedReference listed r]⟩
  · exact ⟨r,restored.entries a ▸ mem,rfl⟩
  · have blank := restored.addresses.mem_iff.mp (List.mem_map_of_mem mem)
    obtain ⟨r₀,stored,same⟩ := List.mem_map.mp blank
    refine ⟨r₀,stored,?_⟩
    simp only [Audited.blank, PubAddress.mk.injEq] at same
    simp only [references, List.mem_cons, List.not_mem_nil, or_false] at listed
    rcases listed with rfl | rfl
    · exact same.2.1
    · exact same.2.2.1
  · exact absurd same other

end Restored

structure Rooted (b : Int) (s s₀ : DB) : Prop where
  stored : ∀ r ∈ (s .nftSignatures).rows, s₀.Resolves .handles r.fkHandleId
  logged : ∀ e ∈ (s .nftSignaturesAudit).rows, atLeast e.fkTableOperationBlockNumber (some b) = true →
    s₀.Resolves .handles e.fkHandleId

theorem sparedStamp {b : Int} {m : DB} (valid : m.Valid) {t : TableName} (dated : t.dated = true) (other : t ≠ .blocks)
    {r : Row t} (mem : r ∈ (spared b m t).rows) : (spared b m).Resolves .blocks (fkBlockNumber t r) := by
  rw [sparedDated m dated] at mem
  obtain ⟨stored,early⟩ := List.mem_filter.mp mem
  have found : m.Resolves .blocks (fkBlockNumber t r) := valid.resolves (blockReference other) stored
  cases given : fkBlockNumber t r with
  | none => trivial
  | some k =>
    rw [given] at found early
    obtain ⟨block,inBlocks,number⟩ := List.mem_map.mp found
    refine List.mem_map.mpr ⟨block,?_,number⟩
    rw [sparedDated m rfl]
    refine List.mem_filter.mpr ⟨inBlocks,?_⟩
    rw [show fkBlockNumber .blocks block = some k from congrArg some number]
    exact early

section Rooted
variable {s s₀ m : DB} {b : Int} {done : List Audited}

theorem sameHandle {r r' : NftSignature} (same : Audited.fixed .nftSignatures r = Audited.fixed .nftSignatures r') :
    r.fkHandleId = r'.fkHandleId := by
  simp only [Audited.fixed, Prod.mk.injEq, List.cons.injEq] at same
  exact same.1.1

theorem rootedReturned (chain : Chain .nftSignatures s) (anchored : Anchored s) {fresh : List NftSignature}
    {extra : List NftSignatureAudit} (returned : Returned .nftSignatures b s m fresh extra) :
    (∀ r ∈ (m .nftSignatures).rows, s₀.Resolves .handles r.fkHandleId) ↔ Rooted b s s₀ := by
  have kept : ∀ r ∈ (s .nftSignatures).rows,
      (Audited.original .nftSignatures (some b) (s .nftSignaturesAudit).rows r).fkHandleId = r.fkHandleId :=
    fun r mem => sameHandle (originalFixed chain.fixed mem)
  have rows : (m .nftSignatures).rows = _ := returned.rows
  constructor
  · intro all
    have stored : ∀ r ∈ (s .nftSignatures).rows, s₀.Resolves .handles r.fkHandleId := by
      intro r mem
      rw [← kept r mem]
      exact all _ (rows ▸ List.mem_append_left _ (List.mem_map_of_mem mem))
    refine ⟨stored,fun e mem late => ?_⟩
    by_cases present : ∃ r ∈ Audited.seen .nftSignatures s, (Audited.layout .nftSignatures).key r =
        (Audited.layout .nftSignatures).entity e
    · obtain ⟨r,inSeen,own⟩ := present
      have handle := sameHandle (chain.fixed.agree e mem r inSeen own)
      change s₀.Resolves .handles (Audited.row .nftSignatures e).fkHandleId
      rw [← handle]
      rw [seenDeletes (a := .nftSignatures) rfl] at inSeen
      exact stored r inSeen
    · have gone : (Audited.layout .nftSignatures).entity e ∈ Audited.gone .nftSignatures b s := by
        refine goneListed.mpr ⟨findNone.mpr fun r inSeen own => present ⟨r,inSeen,own⟩,fun quiet => ?_⟩
        have early : atLeast e.fkTableOperationBlockNumber (some b) = false := replacedNone.mp quiet e mem rfl
        rw [late] at early
        cases early
      obtain ⟨i,hi,own⟩ := List.mem_iff_getElem.mp gone
      have pairs := List.forall₂_iff_get.mp returned.copied
      obtain ⟨first,replaced,back⟩ := pairs.2 i hi (pairs.1 ▸ hi)
      rw [List.get_eq_getElem, own] at replaced
      obtain ⟨inLog,entity,_⟩ := replacedSpec replaced
      have handle := sameHandle (anchored.agree .nftSignatures first inLog e mem entity)
      have root := all (fresh.get ⟨i,pairs.1 ▸ hi⟩) (rows ▸ List.mem_append_right _ (List.get_mem _ _))
      rw [show (fresh.get ⟨i,pairs.1 ▸ hi⟩).fkHandleId = first.fkHandleId from congrArg NftSignature.fkHandleId back]
        at root
      change s₀.Resolves .handles (Audited.row .nftSignatures e).fkHandleId
      rw [← handle]
      exact root
  · intro rooted r mem
    rw [rows] at mem
    rcases List.mem_append.mp mem with old | new
    · obtain ⟨r',stored,rfl⟩ := List.mem_map.mp old
      rw [kept r' stored]
      exact rooted.stored r' stored
    · obtain ⟨i,hi,rfl⟩ := List.mem_iff_getElem.mp new
      have pairs := List.forall₂_iff_get.mp returned.copied
      obtain ⟨first,replaced,back⟩ := pairs.2 i (pairs.1.symm ▸ hi) hi
      obtain ⟨inLog,_,late⟩ := replacedSpec replaced
      rw [show (fresh[i]).fkHandleId = first.fkHandleId from congrArg NftSignature.fkHandleId back]
      exact rooted.logged first inLog late

end Rooted

section Histories
variable {history : List Event} {b : Int}

theorem forkReturns (order : ChainOrder history) (nonneg : 0 ≤ b) :
    (∃ s', rbFork (some b) (run history).db = .ok (some 1,s')) ↔
      (∀ a : Audited, a.Counted b (run history).db ∧ a.Sequenced b (run history).db) ∧
        Rooted b (run history).db ((run history).beforeBlock b) := by
  have sound := soundRun order
  have anchored := anchoredRun order
  have handles : ∀ {m : DB}, Stage b (run history).db m writtenBack →
      (spared b m).keys .handles = ((run history).beforeBlock b).keys .handles := by
    intro m stage
    exact restoredParent (stageRestores sound stage) handleReference
  constructor
  · intro ⟨s',ran⟩
    obtain ⟨m,stage,deletions⟩ := rbForkStaged nonneg sound.kempt sound.chain ran
    refine ⟨fun a => ?_,?_⟩
    · obtain ⟨_,_,returned⟩ := stage.returned a (writtenBackAll a)
      refine ⟨countedCursor.mpr returned.counted,?_,returned.roomy.table⟩
      rw [← undoneRewrites]
      refine returned.roomy.log.join ?_ returned.logNext
      cases deletes : a.deletes with
      | true =>
        rw [← discardedRows deletes returned]
        exact deletionsRoom stage.serial deletions a deletes
      | false =>
        rw [Audited.discarded, deletes]
        exact fun i lt => absurd lt (Nat.not_lt_zero i)
    · obtain ⟨_,_,returned⟩ := stage.returned .nftSignatures (writtenBackAll _)
      refine (rootedReturned (sound.chain .nftSignatures rfl) anchored returned).mp fun r mem => ?_
      rw [← Database.resolvesCongr (handles stage)]
      exact deletionsCut stage.valid stage.serial deletions r mem
  · intro ⟨drawn,rooted⟩
    obtain ⟨m,stage,finish⟩ := stagesRun nonneg sound.kempt sound.chain anchored (fun a => (drawn a).1)
      fun a => (drawn a).2
    have restored := stageRestores sound stage
    obtain ⟨_,_,returned⟩ := stage.returned .nftSignatures (writtenBackAll _)
    have signatures : ∀ r ∈ (m .nftSignatures).rows, (spared b m).Resolves .handles r.fkHandleId := by
      intro r mem
      rw [Database.resolvesCongr (handles stage)]
      exact (rootedReturned (sound.chain .nftSignatures rfl) anchored returned).mpr rooted r mem
    have refers : ∀ t, ∀ ref ∈ references t, ∀ r ∈ (spared b m t).rows,
        (spared b m).Resolves ref.parent (ref.column r) := by
      intro t ref listed r mem
      by_cases other : t = .nftSignatures
      · subst other
        obtain ⟨stored,unstruck⟩ := List.mem_filter.mp mem
        simp only [references, List.mem_cons, List.not_mem_nil, or_false] at listed
        rcases listed with rfl | rfl
        · exact sparedStamp stage.valid rfl (by decide) mem
        · exact signatures r (List.mem_filter.mp mem).1
      · obtain ⟨r₀,stored,same⟩ := restoredRow restored other listed mem
        rw [← same, Database.resolvesCongr (restoredParent restored listed)]
        exact (beforeKempt sound b).valid.resolves listed stored
    have start : Clearing b m m (forkDeletions (some b)) :=
      ⟨stage.valid,stage.serial,fun _ _ mem => (List.mem_filter.mp mem).1,fun _ _ _ hit => hit,fun _ _ _ mem => mem,
        fun _ _ _ mem => Or.inl mem,fun _ _ _ => ⟨rfl,rfl⟩⟩
    have room : ∀ a : Audited, a.deletes = true →
        m.Room a.log ((m a.table).rows.filter fun r => atLeast (fkBlockNumber a.table r) (some b)).length := by
      intro a deletes
      obtain ⟨_,_,returned⟩ := stage.returned a (writtenBackAll a)
      rw [discardedRows deletes returned]
      refine ((drawn a).2.1).drop ?_
      rw [returned.logNext, undoneRewrites]
    obtain ⟨s',deletions⟩ := deletionsRun refers signatures room (List.nil_append _).symm (forkOrderly (some b)) start
    exact ⟨s',finish s' deletions⟩

theorem forkReturnsTransferred :
    (∃ s', rbFork (some 2) (run (events transferred)).db = .ok (some 1,s')) ↔
      (∀ a : Audited, a.Counted 2 (run (events transferred)).db ∧ a.Sequenced 2 (run (events transferred)).db) ∧
        Rooted 2 (run (events transferred)).db ((run (events transferred)).beforeBlock 2) :=
  forkReturns (by decide +kernel) (by decide)

def orphaned : List Call :=
  [.insBlocks (some 1) none (some "b1") none none,
    .insUpdHandles (some 1) none none (some "alice@fio") none none none (some "active"),
    .insUpdNftSignatures (some 1) (some "alice@fio") (some "ETH") (some "0x1") (some "1") none none none]

def raisedBy {α : Type} : Except Error α → Option Error
  | .error e => some e
  | .ok _ => none

theorem orphanedForkRaises : ChainOrder (events orphaned) ∧
    raisedBy (rbFork (some 1) (run (events orphaned)).db) = some .foreignKeyViolation ∧
      ¬∃ s', rbFork (some 1) (run (events orphaned)).db = .ok (some 1,s') := by
  have raises : raisedBy (rbFork (some 1) (run (events orphaned)).db) = some .foreignKeyViolation := by decide +kernel
  refine ⟨by decide +kernel,raises,fun ⟨s',ran⟩ => ?_⟩
  rw [ran] at raises
  cases raises

end Histories
end FioRelic
