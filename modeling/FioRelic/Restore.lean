import FioRelic.Undo

/-! What a fork brings back. The plain tables, the four tables without deletions, and
every audit table are as they were before the cut, generated ids included; the public
addresses are, apart from their ids. An invariant of all that survives reorganisations. -/
namespace FioRelic
open Relational Versioning

structure Restored (s' s₀ : DB) : Prop where
  plain : ∀ t : TableName, t.plain = true → (s' t).rows = (s₀ t).rows
  kept : ∀ a : Audited, a.deletes = false → a.seen s' = a.seen s₀
  entries : ∀ a : Audited, (s' a.log).rows = (s₀ a.log).rows
  addresses : ((s' .pubAddresses).rows.map (Audited.blank .pubAddresses)).Perm
    ((s₀ .pubAddresses).rows.map (Audited.blank .pubAddresses))

section Fork
variable {n : Node} {s s' : DB} {b : Int} {v : Option Int}

theorem beforeKempt (sound : Sound n) (b : Int) : Kempt (n.beforeBlock b) := by
  unfold Node.beforeBlock
  cases kept : n.before.find? fun p => decide (b ≤ p.1) with
  | none => exact sound.kempt
  | some p => exact sound.earlier p (List.mem_of_find?_eq_some kept)

theorem seenSorted {a : Audited} (serial : s.Serial) : ((a.seen s).map a.layout.key).Pairwise (· < ·) := by
  rw [seenKeys]
  exact (serial a.table (serialTable a)).1

def spared (b : Int) (m : DB) : DB :=
  fun t => ⟨(m t).rows.filter fun r => !struck (forkDeletions (some b)) t r,(m t).next⟩

theorem sparedDated (m : DB) {t : TableName} (dated : t.dated = true) :
    (spared b m t).rows = (m t).rows.filter fun r => !atLeast (fkBlockNumber t r) (some b) :=
  List.filter_congr fun r _ => by rw [struckDated dated]

theorem sparedLog (m : DB) (a : Audited) :
    (spared b m a.log).rows = (m a.log).rows.filter fun e => !a.layout.lateEntry (some b) e :=
  List.filter_congr fun e _ => by rw [struckLog]

theorem sparedSerial {m : DB} (serial : m.Serial) : (spared b m).Serial := by
  intro t serials
  obtain ⟨sorted,bounded⟩ := serial t serials
  have sub : ((spared b m).keys t).Sublist (m.keys t) := List.filter_sublist.map _
  exact ⟨sorted.sublist sub,fun k mem => bounded k (sub.subset mem)⟩

theorem stageRestores {m : DB} (sound : Sound n) (stage : Stage b n.db m writtenBack) :
    Restored (spared b m) (n.beforeBlock b) := by
  have past := sound.past b
  have logs : ∀ a : Audited, (spared b m a.log).rows = (n.db a.log).rows.filter fun e => !a.layout.lateEntry (some b) e := by
    intro a
    obtain ⟨fresh,extra,returned⟩ := stage.returned a (writtenBackAll a)
    have late : extra.filter (fun e => !a.layout.lateEntry (some b) e) = [] :=
      List.filter_eq_nil_iff.mpr fun e mem => by simp [returned.late e mem]
    rw [sparedLog, returned.logged, List.filter_append, late, List.append_nil]
  constructor
  · intro t plain
    have same : m t = n.db t := stage.untouched t fun a _ => Audited.plainTable plain a
    rw [past.plain t plain, ← same]
    by_cases datas : t = .fioDatasAudit
    · subst datas
      have empty : (m .fioDatasAudit).rows = [] := by rw [same, sound.kempt.datas]
      change (m .fioDatasAudit).rows.filter _ = _
      rw [empty]
      rfl
    · refine sparedDated m ?_
      cases t <;> first
        | rfl
        | exact absurd rfl datas
        | cases plain
  · intro a keeps
    obtain ⟨fresh,extra,returned⟩ := stage.returned a (writtenBackAll a)
    have dated : a.table.dated = true := by cases a <;> rfl
    have rows := sparedDated (b := b) m dated
    rw [returned.rows, noneFresh keeps returned, List.append_nil] at rows
    refine sortedExt (seenSorted (sparedSerial stage.serial)) (seenSorted (beforeKempt sound b).serial) fun x => ?_
    rw [originalRewinds sound.kempt keeps rows, past.kept a keeps]
  · intro a
    rw [logs, past.entries a]
  · obtain ⟨fresh,extra,returned⟩ := stage.returned .pubAddresses (writtenBackAll _)
    have rows := sparedDated (b := b) (t := .pubAddresses) m rfl
    rw [show (m .pubAddresses).rows = _ from returned.rows] at rows
    have refilled : Refilled .pubAddresses b n.db (spared b m) fresh :=
      ⟨rows,logs .pubAddresses,returned.copied,returned.drawn⟩
    have done := refilledReinserts (Audited.blank .pubAddresses) rfl sound.kempt (sound.chain .pubAddresses rfl)
      refilled fun _ _ _ _ => backAddresses
    have perm := restoredPerm (sound.chain .pubAddresses rfl).chained done (fun _ _ => blankStamp)
      (survivorsNodup sound.kempt.valid) past.addresses
    rw [← refilledSeen rfl refilled, seenDeletes rfl, seenDeletes rfl] at perm
    exact perm

theorem restoredCongr {s₀ : DB} (same : ∀ t, (s' t).rows = (s t).rows) (restored : Restored s s₀) :
    Restored s' s₀ := by
  constructor
  · intro t plain
    rw [same t, restored.plain t plain]
  · intro a keeps
    unfold Audited.seen
    rw [same a.table]
    exact restored.kept a keeps
  · intro a
    rw [same a.log, restored.entries a]
  · rw [same .pubAddresses]
    exact restored.addresses

theorem deletionsSpare {m : DB} (valid : m.Valid) (serial : m.Serial)
    (ran : (forkDeletions (some b)).forM (fun d => delete d.table d.condition) m = .ok ((),s')) (t : TableName) :
    (s' t).rows = (spared b m t).rows := by
  by_cases dated : t.dated = true
  · rw [deletionsDated serial dated ran, sparedDated m dated]
  · by_cases datas : t = .fioDatasAudit
    · subst datas
      exact deletionsRows serial (fun _ _ a _ _ => (Audited.plainTable rfl a).2) ran
    · have logged : ∃ a : Audited, t = a.log := by
        cases t <;> first
          | exact absurd rfl dated
          | exact absurd rfl datas
          | exact ⟨.handles,rfl⟩
          | exact ⟨.domains,rfl⟩
          | exact ⟨.accounts,rfl⟩
          | exact ⟨.fioRequests,rfl⟩
          | exact ⟨.pubAddresses,rfl⟩
          | exact ⟨.nftSignatures,rfl⟩
      obtain ⟨a,rfl⟩ := logged
      rw [deletionsLogs valid serial ran, sparedLog]

theorem forkRestores (sound : Sound n) (nonneg : 0 ≤ b) (ran : rbFork (some b) n.db = .ok (v,s')) :
    Restored s' (n.beforeBlock b) := by
  obtain ⟨m,stage,deletions⟩ := rbForkStaged nonneg sound.kempt sound.chain ran
  exact restoredCongr (fun t => deletionsSpare stage.valid stage.serial deletions t) (stageRestores sound stage)

theorem restoredRows {s₀ : DB} (restored : Restored s' s₀) {a : Audited} (keeps : a.deletes = false)
    (whole : ∀ r, a.copied r = r) : (s' a.table).rows = (s₀ a.table).rows := by
  have same := restored.kept a keeps
  unfold Audited.seen at same
  rwa [List.map_id'' whole, List.map_id'' whole] at same

end Fork

def exactTables : List TableName :=
  [.blocks,.accounts,.domains,.handles,.accountsAudit,.domainsAudit,.handlesAudit,.transactions,.traces,
    .accountActivities,.domainActivities,.handleActivities,.tokenTransfers,.tokenStakings,.fioDatas]

theorem restoredExactly {s' s₀ : DB} (restored : Restored s' s₀) {t : TableName} (exact : t ∈ exactTables) :
    (s' t).rows = (s₀ t).rows := by
  cases t with
  | accounts => exact restoredRows restored (a := .accounts) rfl fun _ => rfl
  | domains => exact restoredRows restored (a := .domains) rfl fun _ => rfl
  | handles => exact restoredRows restored (a := .handles) rfl fun _ => rfl
  | accountsAudit => exact restored.entries .accounts
  | domainsAudit => exact restored.entries .domains
  | handlesAudit => exact restored.entries .handles
  | _ => first | exact restored.plain _ rfl | exact absurd exact (by decide)

def transferred : List Call :=
  [.insBlocks (some 1) none (some "b1") none none,
    .insUpdAccounts (some 1) (some "fio.token") (some "k0") none none,
    .insUpdAccounts (some 1) (some "alice") (some "k1") none none,
    .insDomains (some 1) (some "fio") (some "alice") (some false) (some 9) (some "active"),
    .insUpdHandles (some 1) (some "fio") (some "alice") (some "alice@fio") (some "k1") (some false) (some 9)
      (some "active"),
    .insUpdPubAddresses (some 1) (some "alice@fio") (some "ETH") (some "ETH") (some "0x1"),
    .insBlocks (some 2) none (some "b2") none none,
    .insTokenTransfers none (some 2) (some "fio.token") (some "bob") (some 5) (some "transfer") none none,
    .updDomainOwner (some "fio") (some "bob"),
    .updHandlesXferOwner (some 2) (some "alice@fio") (some "bob") (some "k2") (some true),
    .insUpdPubAddresses (some 2) (some "alice@fio") (some "ETH") (some "ETH") (some "0x2"),
    .delPubAddresses (some "alice@fio")]

def retransferred : List Call := transferred ++ .rbFork (some 2) :: transferred.drop 6

theorem returned {ε α : Type} {x : Except ε α} (ok : x.isOk = true) : ∃ a, x = .ok a := by
  cases x with
  | error e => cases ok
  | ok a => exact ⟨a,rfl⟩

def rowsAfter (x : Except Error (Option Int × DB)) (t : TableName) : List (Row t) := match x with
  | .ok result => (result.2 t).rows
  | .error _ => []

section Histories
variable {history : List Event} {b : Int} {s' : DB} {v : Option Int}

theorem forkUndoes (order : ChainOrder history) (nonneg : 0 ≤ b)
    (ran : rbFork (some b) (run history).db = .ok (v,s')) :
    ∀ t ∈ exactTables, (s' t).rows = ((run history).beforeBlock b t).rows :=
  fun _ exact => restoredExactly (forkRestores (soundRun order) nonneg ran) exact

theorem forkUndoesTransfer : ∃ s' v, rbFork (some 2) (run (events transferred)).db = .ok (v,s') ∧
    ∀ t ∈ exactTables, (s' t).rows = ((run (events transferred)).beforeBlock 2 t).rows := by
  obtain ⟨⟨v,s'⟩,ran⟩ := returned (x := rbFork (some 2) (run (events transferred)).db) (by decide +kernel)
  exact ⟨s',v,ran,forkUndoes (by decide +kernel) (by decide) ran⟩

theorem forkRestoresAddresses (order : ChainOrder history) (nonneg : 0 ≤ b)
    (ran : rbFork (some b) (run history).db = .ok (v,s')) :
    ((s' .pubAddresses).rows.map (Audited.blank .pubAddresses)).Perm
      (((run history).beforeBlock b .pubAddresses).rows.map (Audited.blank .pubAddresses)) :=
  (forkRestores (soundRun order) nonneg ran).addresses

theorem forkRestoresAddressesDeleted : ∃ s' v, rbFork (some 2) (run (events transferred)).db = .ok (v,s') ∧
    ((s' .pubAddresses).rows.map (Audited.blank .pubAddresses)).Perm
      (((run (events transferred)).beforeBlock 2 .pubAddresses).rows.map (Audited.blank .pubAddresses)) := by
  obtain ⟨⟨v,s'⟩,ran⟩ := returned (x := rbFork (some 2) (run (events transferred)).db) (by decide +kernel)
  exact ⟨s',v,ran,forkRestoresAddresses (by decide +kernel) (by decide) ran⟩

end Histories

theorem reorgInduction {P : DB → Prop} {Q : Node → Event → Prop} {history : List Event}
    (start : P (Database.empty relic)) (lost : ∀ s drawn, P s → P (s.skip drawn))
    (block : ∀ s (b : Block), P s → P (s.append .blocks [b]))
    (call : ∀ n e s' v, e.call.ordinary = true → Q n e → Standing n → AtHead e.call n.db →
      e.call.run e.server n.db = .ok (v,s') → Changes e.call n.db s' → P n.db → P s')
    (fork : ∀ s' s₀, Kempt s' → Kempt s₀ → Restored s' s₀ → P s₀ → P s') (order : ChainOrder history)
    (meets : Meets Q history) : P (run history).db ∧ ∀ p ∈ (run history).before, P p.2 := by
  refine (runInduction (P := fun n => P n.db ∧ ∀ p ∈ n.before, P p.2) ⟨start,?_⟩ ?_ order meets).2
  · exact fun _ mem => absurd mem List.not_mem_nil
  · intro n e n' sound met move ⟨now,earlier⟩
    cases move with
    | lost drawn => exact ⟨lost n.db drawn now,earlier⟩
    | changed s' v ordinary atHead ran changes =>
      exact ⟨call n e s' v ordinary met sound.toStanding atHead ran changes now,earlier⟩
    | grown b above valid =>
      refine ⟨block n.db b now,fun p mem => ?_⟩
      rcases List.mem_append.mp mem with old | new
      · exact earlier p old
      · rw [List.mem_singleton.mp new]
        exact now
    | forked b s' v nonneg called ran =>
      refine ⟨?_,fun p mem => earlier p (List.mem_filter.mp mem).1⟩
      have forked := rbForkForked nonneg sound.kempt ran
      refine fork s' (n.beforeBlock b) (kemptFork sound.kempt forked) (beforeKempt sound b)
        (forkRestores sound nonneg ran) ?_
      unfold Node.beforeBlock
      cases kept : n.before.find? fun p => decide (b ≤ p.1) with
      | none => exact now
      | some p => exact earlier p (List.mem_of_find?_eq_some kept)

end FioRelic
