import FioRelic.Restore

/-! Forks after forks. A fork above the head changes nothing, so a second fork that is no
deeper than the first is a return; a deeper one is as good as it alone. -/
namespace FioRelic
open Relational Versioning

section Above
variable {s : DB} {c : Int}

theorem resolvesBelow {k : Option Int} (above : atLeast (DB.head s) (some c) = false) (refers : s.Resolves .blocks k) :
    atLeast k (some c) = false := by
  refine aboveHead above fun m same => ?_
  rw [same] at refers
  exact headAtLeast refers

theorem deleteNothing {t : TableName} {p : Row t → Bool} (valid : s.Valid) (none : ∀ r ∈ (s t).rows, p r = false) :
    delete t p s = .ok ((),s) := by
  have kept : s.withRows t ((s t).rows.filter fun r => !p r) = s := by
    have all : ((s t).rows.filter fun r => !p r) = (s t).rows :=
      List.filter_eq_self.mpr fun r mem => by simp [none r mem]
    rw [all]
    exact Database.putSelf s t
  have hits : (s t).rows.filter p = [] := List.filter_eq_nil_iff.mpr fun r mem => by simp [none r mem]
  refine deleteWhereOk.mpr ⟨by rw [kept]; exact valid,?_⟩
  rw [hits, kept]
  exact forMNil.mpr rfl

/- No entry was written at or after a block above the head, so the cursor is empty. -/
theorem rollbackNothing {log : TableName} {id entity : Row log → Int} {operation : Row log → Option Int}
    {undo : Int → Row log → Proc Unit} (nonneg : 0 ≤ c)
    (calm : ∀ e ∈ (s log).rows, atLeast (operation e) (some c) = false) :
    rollbackRows log id entity operation (some c) undo s = .ok (some 0,s) := by
  have guarded : below (some c) (some 0) = false := by simpa using nonneg
  have quiet : cursor (s log).rows id entity operation (some c) = [] := by
    have hits : ((s log).rows.filter fun e => atLeast (operation e) (some c)) = [] :=
      List.filter_eq_nil_iff.mpr fun e mem => by simp [calm e mem]
    unfold cursor
    simp [hits]
  unfold rollbackRows
  simp only [guarded, Bool.false_eq_true, if_false]
  refine readOk.mpr ?_
  rw [quiet]
  exact bindOk.mpr ⟨(),s,forMNil.mpr rfl,fitsRuns (by decide)⟩

theorem writtenBelow (valid : s.Valid) (above : atLeast (DB.head s) (some c) = false) (a : Audited) :
    ∀ e ∈ (s a.log).rows, atLeast (a.written e) (some c) = false :=
  fun _ mem => resolvesBelow above (valid.resolves (writtenReference a) mem)

theorem struckNothing (kempt : Kempt s) (above : atLeast (DB.head s) (some c) = false) (t : TableName) :
    ∀ r ∈ (s t).rows, struck (forkDeletions (some c)) t r = false := by
  intro r mem
  have dated : atLeast (fkBlockNumber t r) (some c) = false := by
    by_cases own : t = .blocks
    · subst own
      exact aboveHead above fun m same => by
        cases same
        exact headAtLeast (List.mem_map_of_mem mem)
    · exact resolvesBelow above (kempt.valid.resolves (blockReference own) mem)
  have logged : ∀ (a : Audited) (e : Row a.log), e ∈ (s a.log).rows →
      struck (forkDeletions (some c)) a.log e = false := by
    intro a e mem
    have stamp : atLeast (a.layout.stamp (a.layout.row e)) (some c) = false := by
      have refers := resolvesBelow above (kempt.valid.resolves (blockReference a.logBlocks) mem)
      cases a <;> exact refers
    have written : atLeast (a.layout.written e) (some c) = false := writtenBelow kempt.valid above a e mem
    rw [struckLog, Layout.lateEntry, stamp, written]
    rfl
  have plain : t.dated = true → struck (forkDeletions (some c)) t r = false := by
    intro listed
    rw [struckDated listed]
    exact dated
  cases t with
  | handlesAudit => exact logged .handles r mem
  | domainsAudit => exact logged .domains r mem
  | accountsAudit => exact logged .accounts r mem
  | fioRequestsAudit => exact logged .fioRequests r mem
  | pubAddressesAudit => exact logged .pubAddresses r mem
  | nftSignaturesAudit => exact logged .nftSignatures r mem
  | fioDatasAudit =>
    rw [kempt.datas] at mem
    cases mem
  | _ => exact plain rfl

theorem deletionsSpareAll {ds : List Deletion} (valid : s.Valid)
    (none : ∀ d ∈ ds, ∀ r ∈ (s d.table).rows, d.condition r = false) :
    ds.forM (fun d => delete d.table d.condition) s = .ok ((),s) := by
  induction ds with
  | nil => exact forMNil.mpr rfl
  | cons d rest ih =>
    have first := deleteNothing valid (none d List.mem_cons_self)
    exact forMCons.mpr ⟨s,first,ih fun d' mem => none d' (List.mem_cons_of_mem _ mem)⟩

theorem forkAbove (kempt : Kempt s) (nonneg : 0 ≤ c) (above : atLeast (DB.head s) (some c) = false) :
    rbFork (some c) s = .ok (some 1,s) := by
  have guarded : below (some c) (some 0) = false := by simpa using nonneg
  have calm := writtenBelow kempt.valid above
  have empty : ∀ e ∈ (s .fioDatasAudit).rows, atLeast e.fkTableOperationBlockNumber (some c) = false := by
    rw [kempt.datas]
    exact fun _ mem => absurd mem List.not_mem_nil
  have quiet : ∀ d ∈ forkDeletions (some c), ∀ r ∈ (s d.table).rows, d.condition r = false := by
    intro d mem r stored
    have missed := List.any_eq_false.mp (struckNothing kempt above d.table r stored) d mem
    simpa [Deletion.hits] using missed
  have handles : rbHandles (some c) s = .ok (some 0,s) := rollbackNothing nonneg (calm .handles)
  have domains : rbDomains (some c) s = .ok (some 0,s) := rollbackNothing nonneg (calm .domains)
  have accounts : rbAccounts (some c) s = .ok (some 0,s) := rollbackNothing nonneg (calm .accounts)
  have requests : rbFioRequests (some c) s = .ok (some 0,s) := rollbackNothing nonneg (calm .fioRequests)
  have datas : rbFioDatas (some c) s = .ok (some 0,s) := rollbackNothing nonneg empty
  have addresses : rbPubAddresses (some c) s = .ok (some 0,s) := rollbackNothing nonneg (calm .pubAddresses)
  have signatures : rbNftSignatures (some c) s = .ok (some 0,s) := rollbackNothing nonneg (calm .nftSignatures)
  unfold rbFork
  simp only [guarded, Bool.false_eq_true, if_false]
  rw [bindRuns handles, bindRuns domains, bindRuns accounts, bindRuns requests, bindRuns datas, bindRuns addresses,
    bindRuns signatures, bindRuns (deletionsSpareAll kempt.valid quiet)]
  rfl

end Above

section Twice
variable {n : Node} {s' : DB} {b c : Int} {v : Option Int}

theorem forkedHead (standing : Standing n) (nonneg : 0 ≤ b) (ran : rbFork (some b) n.db = .ok (v,s')) :
    atLeast (DB.head s') (some b) = false := by
  refine headBelow.mpr fun k mem => ?_
  rw [forkBlocks (rbForkForked nonneg standing.kempt ran)] at mem
  have kept := (List.mem_filter.mp mem).2
  simpa using kept

theorem beforeGap (sound : Sound n) (le : c ≤ b)
    (gap : ∀ k ∈ DB.blockNumbers n.db, k < b → k < c) : n.beforeBlock c = n.beforeBlock b := by
  have same : (n.before.find? fun p => decide (c ≤ p.1)) = n.before.find? fun p => decide (b ≤ p.1) := by
    refine List.find?_congr fun p mem => ?_
    have stored : p.1 ∈ DB.blockNumbers n.db := by
      rw [← sound.stack]
      exact List.mem_map_of_mem mem
    have between := gap p.1 stored
    rw [decide_eq_decide]
    omega
  unfold Node.beforeBlock
  rw [same]

theorem forkTwice (sound : Sound n) (nonneg : 0 ≤ c) (le : c ≤ b) (ran : rbFork (some b) n.db = .ok (v,s')) :
    Restored ((n.advance s').beforeBlock c) (n.beforeBlock c) := by
  have nonneg' := Int.le_trans nonneg le
  have standing := sound.toStanding
  have numbers := forkBlocks (rbForkForked nonneg' sound.kempt ran)
  have restored := forkRestores sound nonneg' ran
  rw [advanceCut sound.stack numbers]
  have stack : (n.before.filter fun p => !decide (b ≤ p.1)).map Prod.fst = DB.blockNumbers s' := by
    rw [numbers, ← sound.stack, List.filter_map]
    rfl
  cases late : atLeast (DB.head s') (some c) with
  | true =>
    rw [(beforeCut (sound.stack ▸ sound.ascending) stack late).2]
    exact ⟨fun _ _ => rfl,fun _ _ => rfl,fun _ => rfl,.refl _⟩
  | false =>
    rw [beforeAbove (n := ⟨s',n.before.filter fun p => !decide (b ≤ p.1)⟩) stack late]
    have gap : ∀ k ∈ DB.blockNumbers n.db, k < b → k < c := by
      intro k mem low
      refine headBelow.mp late k ?_
      rw [numbers]
      exact List.mem_filter.mpr ⟨mem,by simpa using low⟩
    rw [beforeGap sound le gap]
    exact restored

end Twice

theorem Restored.trans {s m s' : DB} (early : Restored s m) (late : Restored m s') : Restored s s' where
  plain := fun t plain => (early.plain t plain).trans (late.plain t plain)
  kept := fun a keeps => (early.kept a keeps).trans (late.kept a keeps)
  entries := fun a => (early.entries a).trans (late.entries a)
  addresses := early.addresses.trans late.addresses

theorem Restored.symm {s s' : DB} (h : Restored s s') : Restored s' s where
  plain := fun t plain => (h.plain t plain).symm
  kept := fun a keeps => (h.kept a keeps).symm
  entries := fun a => (h.entries a).symm
  addresses := h.addresses.symm

theorem forksCompose {history : List Event} (order : ChainOrder history) {b c : Int} {s' : DB} {v : Option Int}
    (nonneg : 0 ≤ b) (nonneg' : 0 ≤ c) (ran : rbFork (some b) (run history).db = .ok (v,s')) :
    (b ≤ c → rbFork (some c) s' = .ok (some 1,s')) ∧
      (c ≤ b → ∀ (s₁ s₂ : DB) (v₁ v₂ : Option Int), rbFork (some c) s' = .ok (v₁,s₁) →
        rbFork (some c) (run history).db = .ok (v₂,s₂) → (∀ t ∈ exactTables, (s₁ t).rows = (s₂ t).rows) ∧
          ((s₁ .pubAddresses).rows.map (Audited.blank .pubAddresses)).Perm
            ((s₂ .pubAddresses).rows.map (Audited.blank .pubAddresses))) := by
  have sound := soundRun order
  have kempt' := kemptFork sound.kempt (rbForkForked nonneg sound.kempt ran)
  refine ⟨fun le => ?_,fun le s₁ s₂ v₁ v₂ second direct => ?_⟩
  · have below := forkedHead sound.toStanding nonneg ran
    refine forkAbove kempt' nonneg' (headBelow.mpr fun k mem => ?_)
    exact Int.lt_of_lt_of_le (headBelow.mp below k mem) le
  · have sound' : Sound ((run history).advance s') := by
      have step : (run history).step ⟨leastServer,.rbFork (some b),fun _ => 0⟩ = (run history).advance s' := stepAdvances ran
      have move := moved (e := ⟨leastServer,.rbFork (some b),fun _ => 0⟩) sound.toStanding fun _ given => by cases given
      exact step ▸ soundMoved sound move
    have here : Restored s₁ (((run history).advance s').beforeBlock c) := forkRestores sound' nonneg' second
    have there := forkRestores sound nonneg' direct
    have same := (here.trans (forkTwice sound nonneg' le ran)).trans there.symm
    exact ⟨fun t exact => restoredExactly same exact,same.addresses⟩

theorem forksComposeTransferred : ∃ s' v, rbFork (some 2) (run (events transferred)).db = .ok (v,s') ∧
    ((2 : Int) ≤ 2 → rbFork (some 2) s' = .ok (some 1,s')) ∧
    ((2 : Int) ≤ 2 → ∀ (s₁ s₂ : DB) (v₁ v₂ : Option Int), rbFork (some 2) s' = .ok (v₁,s₁) →
      rbFork (some 2) (run (events transferred)).db = .ok (v₂,s₂) → (∀ t ∈ exactTables, (s₁ t).rows = (s₂ t).rows) ∧
        ((s₁ .pubAddresses).rows.map (Audited.blank .pubAddresses)).Perm
          ((s₂ .pubAddresses).rows.map (Audited.blank .pubAddresses))) := by
  obtain ⟨⟨v,s'⟩,ran⟩ := returned (x := rbFork (some 2) (run (events transferred)).db) (by decide +kernel)
  exact ⟨s',v,ran,forksCompose (by decide +kernel) (by decide) (by decide) ran⟩

end FioRelic
