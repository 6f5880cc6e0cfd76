import FioRelic.Restore

/-! Signatures under rollback. A signature deleted in a discarded block is inserted again
with the block number NULL, so it is not the row it was, and no later fork removes it.
Where no such signature is met a fork restores the table, ids included. -/
namespace FioRelic
open Relational Versioning

def Undeleted (b : Int) (s : DB) : Prop :=
  ∀ e ∈ (s .nftSignaturesAudit).rows, atLeast e.fkTableOperationBlockNumber (some b) = true →
    ∃ r ∈ (s .nftSignatures).rows, r.pkNftSignaturesId = e.fkNftSignaturesId

instance (b : Int) (s : DB) : Decidable (Undeleted b s) := by unfold Undeleted; infer_instance

def KeptSignatures (b : Int) (s s₀ : DB) : Prop :=
  ∀ x, (Audited.layout .nftSignatures).find (Audited.seen .nftSignatures s₀) x =
    (Audited.layout .nftSignatures).rewind (some b) (Audited.seen .nftSignatures s) (s .nftSignaturesAudit).rows x

structure Stamped (s : DB) : Prop where
  rows : ∀ r ∈ (s .nftSignatures).rows, r.fkBlockNumber.isSome
  entries : ∀ e ∈ (s .nftSignaturesAudit).rows, e.fkBlockNumber.isSome

section
variable {n : Node} {event : Event} {c : Call} {s s' s₀ : DB} {b : Int} {v : Option Int}

theorem undeletedGone (undeleted : Undeleted b s) : Audited.gone .nftSignatures b s = [] := by
  refine List.eq_nil_iff_forall_not_mem.mpr fun x mem => ?_
  obtain ⟨absent,first⟩ := goneListed.mp mem
  obtain ⟨e,first⟩ := Option.ne_none_iff_exists'.mp first
  obtain ⟨inLog,entity,late⟩ := replacedSpec first
  obtain ⟨r,stored,number⟩ := undeleted e inLog late
  exact findNone.mp absent r (List.mem_map_of_mem stored) (number.trans entity)

theorem goneFresh {fresh : List NftSignature} (refilled : Refilled .nftSignatures b s s' fresh)
    (gone : Audited.gone .nftSignatures b s = []) : fresh = [] := by
  have pairs := refilled.copied
  rw [gone] at pairs
  exact List.forall₂_nil_left_iff.mp pairs

theorem signaturesRewound (kempt : Kempt s) (chain : Chain .nftSignatures s) (undeleted : Undeleted b s)
    {fresh : List NftSignature} (refilled : Refilled .nftSignatures b s s' fresh) (x : Int) :
    (Audited.layout .nftSignatures).find (Audited.seen .nftSignatures s') x =
      (Audited.layout .nftSignatures).rewind (some b) (Audited.seen .nftSignatures s) (s .nftSignaturesAudit).rows x := by
  have gone := undeletedGone undeleted
  rw [refilledSeen rfl refilled, goneFresh refilled gone, List.filter_nil, List.append_nil,
    survivorsFound rfl kempt.valid chain]
  cases present : (Audited.layout .nftSignatures).find (Audited.seen .nftSignatures s) x with
  | some r => rfl
  | none =>
    have quiet : (Audited.layout .nftSignatures).replaced (some b) (s .nftSignaturesAudit).rows x = none := by
      by_contra first
      have listed : x ∈ Audited.gone .nftSignatures b s := goneListed.mpr ⟨present,first⟩
      rw [gone] at listed
      cases listed
    unfold Layout.rewind Layout.version
    rw [quiet, present]
    rfl

theorem stampedChange (valid : s.Valid) (atHead : AtHead c s) (h : Change c s s') (stamped : Stamped s) : Stamped s' := by
  have seen : ∀ m : DB, Audited.seen .nftSignatures m = (m .nftSignatures).rows := fun _ => List.map_id' _
  have effect := changeEffect h valid .nftSignatures fun _ => atHead
  cases effect with
  | same rows log =>
    exact ⟨fun r mem => stamped.rows r (rows ▸ mem),fun e mem => stamped.entries e (log ▸ mem)⟩
  | inserted r number given rows log =>
    refine ⟨fun r' mem => ?_,fun e mem => stamped.entries e (log ▸ mem)⟩
    rw [show (s' .nftSignatures).rows = _ from rows] at mem
    rcases List.mem_append.mp mem with old | new
    · exact stamped.rows r' old
    · rw [List.mem_singleton.mp new]
      exact (atHead _ given).1
  | written entries log write restamped static updates =>
    refine ⟨fun r mem => ?_,fun e mem => ?_⟩
    · rw [← seen s'] at mem
      rcases restamped rfl r mem with ⟨old,_⟩ | ⟨m,_,stamp⟩
      · rw [seen s] at old
        exact stamped.rows r old
      · have stamp : r.fkBlockNumber = some m := stamp
        rw [stamp]
        rfl
    · rw [show (s' .nftSignaturesAudit).rows = _ from log] at mem
      rcases List.mem_append.mp mem with old | new
      · exact stamped.entries e old
      · have copied := (findMem (write.old e new)).1
        rw [seen s] at copied
        exact stamped.rows _ copied

theorem stampedChanges (valid : s.Valid) (atHead : AtHead c s) (h : Changes c s s') (stamped : Stamped s) :
    Stamped s' := by
  induction h with
  | refl => exact stamped
  | tail before last ih =>
    exact stampedChange (Changes.valid before valid) (Changes.atHead before atHead) last ih

theorem stampedBlock {block : Block} (stamped : Stamped s) : Stamped (s.append .blocks [block]) := by
  constructor
  · rw [blockOther (by decide)]
    exact stamped.rows
  · rw [blockOther (by decide)]
    exact stamped.entries

theorem stampedFork {fresh : List NftSignature} (undeleted : Undeleted b s)
    (refilled : Refilled .nftSignatures b s s' fresh) (stamped : Stamped s) : Stamped s' := by
  refine ⟨fun r mem => ?_,fun e mem => ?_⟩
  · rw [show (s' .nftSignatures).rows = _ from refilled.rows, goneFresh refilled (undeletedGone undeleted),
      List.append_nil] at mem
    obtain ⟨old,stored,rfl⟩ := List.mem_map.mp (List.mem_filter.mp mem).1
    unfold Audited.original
    split
    · rename_i e first
      exact stamped.entries e (replacedSpec first).1
    · exact stamped.rows old stored
  · rw [show (s' .nftSignaturesAudit).rows = _ from refilled.entries] at mem
    exact stamped.entries e (List.mem_filter.mp mem).1

end

section Run
variable {history : List Event} {s' : DB} {b : Int} {v : Option Int}

theorem signaturesKept (order : ChainOrder history) (earlier : Meets (AtForks Undeleted) history) (b : Int) :
    KeptSignatures b (run history).db ((run history).beforeBlock b) := by
  have self : ∀ s b, Kempt s → atLeast (DB.head s) (some b) = false → KeptSignatures b s s := by
    intro s b kempt above x
    exact (congrFun (rewindNow kempt.valid above .nftSignatures) x).symm
  refine pastInduction (R := KeptSignatures) order earlier (fun n e sound met => ?_) self b
  have carried := pastCarried (e := e) sound.toStanding
  constructor
  · exact fun s b kempt above => ⟨carried.self s b kempt above,self s b kempt above⟩
  · exact fun s s₀ b drawn ⟨past,kept⟩ => ⟨carried.lost s s₀ b drawn past,kept⟩
  · intro s s₀ b block le ⟨past,kept⟩
    refine ⟨carried.block s s₀ b block le past,fun x => ?_⟩
    rw [blockSeen, blockOther (by decide)]
    exact kept x
  · intro s s' s₀ b kempt chain atHead late h ⟨past,kept⟩
    refine ⟨carried.change s s' s₀ b kempt chain atHead late h past,fun x => (kept x).trans ?_⟩
    have effect := changeEffect h kempt.valid .nftSignatures fun _ => atHead
    exact (rewindEffect kempt.serial (chain .nftSignatures rfl).issued atHead late effect x).symm
  · intro s' v b c s₀ nonneg call ran le ⟨past,kept⟩
    refine ⟨carried.fork s' v b c s₀ nonneg call ran le past,fun x => (kept x).trans ?_⟩
    have undeleted : Undeleted c n.db := met c (by rw [call]; rfl)
    obtain ⟨fresh,refilled⟩ := rbForkRefilled nonneg sound.kempt sound.chain ran .nftSignatures rfl
    have rewound := signaturesRewound sound.kempt (sound.chain .nftSignatures rfl) undeleted refilled x
    rw [show (s' .nftSignaturesAudit).rows = _ from refilled.entries]
    exact (rewindRewind le (sound.chain .nftSignatures rfl).chained.toOrdered rewound).symm

theorem signaturesStamped (order : ChainOrder history) (earlier : Meets (AtForks Undeleted) history) :
    Stamped (run history).db := by
  refine (runInduction (P := fun n => Stamped n.db) ?_ ?_ order earlier).2
  · exact ⟨fun _ mem => absurd mem List.not_mem_nil,fun _ mem => absurd mem List.not_mem_nil⟩
  · intro n e n' sound met move stamped
    cases move with
    | lost drawn => exact ⟨stamped.rows,stamped.entries⟩
    | changed s' v ordinary atHead ran changes => exact stampedChanges sound.kempt.valid atHead changes stamped
    | grown block above valid =>
      exact stampedBlock stamped
    | forked c s' v nonneg call ran =>
      have undeleted : Undeleted c n.db := met c (by rw [call]; rfl)
      obtain ⟨fresh,refilled⟩ := rbForkRefilled nonneg sound.kempt sound.chain ran .nftSignatures rfl
      exact stampedFork undeleted refilled stamped

theorem pastStamped (order : ChainOrder history) (earlier : Meets (AtForks Undeleted) history) (b : Int) :
    ∀ r ∈ ((run history).beforeBlock b .nftSignatures).rows, r.fkBlockNumber.isSome := by
  intro r mem
  have sound := soundRun order
  have stamped := signaturesStamped order earlier
  have found := findOfMem (seenNodup (a := .nftSignatures) (beforeKempt sound b).valid) (List.mem_map_of_mem mem)
  rw [signaturesKept order earlier b] at found
  have version := (Option.filter_eq_some_iff.mp found).1
  unfold Layout.version at version
  split at version
  · rename_i e first
    have row := Option.some.inj version
    have stamp := stamped.entries e (replacedSpec first).1
    have same : e.fkBlockNumber = r.fkBlockNumber := congrArg NftSignature.fkBlockNumber row
    exact same ▸ stamp
  · have stored := (findMem version).1
    obtain ⟨old,inRows,same⟩ := List.mem_map.mp stored
    have same : old = r := same
    exact same ▸ stamped.rows old inRows

theorem signaturesReturn (order : ChainOrder history) (earlier : Meets (AtForks Undeleted) history) (nonneg : 0 ≤ b)
    (ran : rbFork (some b) (run history).db = .ok (v,s')) (undeleted : Undeleted b (run history).db) :
    ((s' .nftSignatures).rows.map (Audited.blank .nftSignatures)).Perm
      (((run history).beforeBlock b .nftSignatures).rows.map (Audited.blank .nftSignatures)) := by
  have sound := soundRun order
  obtain ⟨fresh,refilled⟩ := rbForkRefilled nonneg sound.kempt sound.chain ran .nftSignatures rfl
  have forked := rbForkForked nonneg sound.kempt ran
  have rows : Audited.seen .nftSignatures s' = Audited.seen .nftSignatures ((run history).beforeBlock b) := by
    refine sortedExt (seenSorted forked.serial) (seenSorted (beforeKempt sound b).serial) fun x => ?_
    rw [signaturesRewound sound.kempt (sound.chain .nftSignatures rfl) undeleted refilled]
    exact (signaturesKept order earlier b x).symm
  rw [seenDeletes rfl, seenDeletes rfl] at rows
  have rows : (s' .nftSignatures).rows = ((run history).beforeBlock b .nftSignatures).rows := rows
  rw [rows]

theorem forksRestoreSignatures {before after : List Event} {e : Event} (order : ChainOrder (before ++ e :: after))
    (every : Meets (AtForks Undeleted) (before ++ e :: after)) (called : e.call = .rbFork (some b)) (nonneg : 0 ≤ b)
    (ran : rbFork (some b) (run before).db = .ok (v,s')) :
    ((s' .nftSignatures).rows.map (Audited.blank .nftSignatures)).Perm
      (((run before).beforeBlock b .nftSignatures).rows.map (Audited.blank .nftSignatures)) := by
  obtain ⟨order,_⟩ := meetsAppend order
  obtain ⟨earlier,now,_⟩ := meetsAppend every
  exact signaturesReturn order earlier nonneg ran (now b (by rw [called]; rfl))

theorem signaturesRestored (order : ChainOrder history) (earlier : Meets (AtForks Undeleted) history) (nonneg : 0 ≤ b)
    (ran : rbFork (some b) (run history).db = .ok (v,s')) :
    ((s' .nftSignatures).rows.map (Audited.blank .nftSignatures)).Perm
        (((run history).beforeBlock b .nftSignatures).rows.map (Audited.blank .nftSignatures)) ↔
      Undeleted b (run history).db := by
  have sound := soundRun order
  obtain ⟨fresh,refilled⟩ := rbForkRefilled nonneg sound.kempt sound.chain ran .nftSignatures rfl
  constructor
  · intro perm e inLog late
    by_contra missing
    have listed : e.fkNftSignaturesId ∈ Audited.gone .nftSignatures b (run history).db := by
      refine goneListed.mpr ⟨findNone.mpr fun r mem number => missing ?_,fun quiet => ?_⟩
      · obtain ⟨old,stored,rfl⟩ := List.mem_map.mp mem
        exact ⟨old,stored,number⟩
      · have early := replacedNone.mp quiet e inLog rfl
        exact absurd (early.symm.trans late) Bool.false_ne_true
    obtain ⟨i,bound,at'⟩ := List.mem_iff_getElem.mp listed
    have pairs := List.forall₂_iff_get.mp refilled.copied
    obtain ⟨e',_,back⟩ := pairs.2 i bound (pairs.1 ▸ bound)
    have unstamped : fresh[i].fkBlockNumber = none := congrArg NftSignature.fkBlockNumber back
    have left : fresh[i] ∈ (s' .nftSignatures).rows := by
      rw [show (s' .nftSignatures).rows = _ from refilled.rows]
      refine List.mem_filter.mpr ⟨List.mem_append_right _ (List.getElem_mem _),?_⟩
      change (!atLeast fresh[i].fkBlockNumber (some b)) = true
      rw [unstamped]
      rfl
    obtain ⟨r,stored,same⟩ := List.mem_map.mp (perm.subset (List.mem_map_of_mem left))
    have stamp := pastStamped order earlier b r stored
    have equal : r.fkBlockNumber = fresh[i].fkBlockNumber := blankStamp (a := .nftSignatures) same
    rw [equal, unstamped] at stamp
    cases stamp
  · exact signaturesReturn order earlier nonneg ran

end Run

def signed (dropped : Bool) : List Call :=
  [.insBlocks (some 1) none (some "b1") none none,
    .insUpdHandles (some 1) none none (some "alice@fio") none none none (some "active"),
    .insUpdNftSignatures (some 1) (some "alice@fio") (some "ETH") (some "0x1") (some "1") none none none,
    .insBlocks (some 2) none (some "b2") none none] ++
  if dropped then [.delNftSignatures (some "alice@fio")]
  else [.insUpdNftSignatures (some 2) (some "alice@fio") (some "ETH") (some "0x1") (some "1") (some "url") none none]

theorem signaturesRestoredUpdated : ∃ s' v, rbFork (some 2) (run (events (signed false))).db = .ok (v,s') ∧
    (((s' .nftSignatures).rows.map (Audited.blank .nftSignatures)).Perm
        (((run (events (signed false))).beforeBlock 2 .nftSignatures).rows.map (Audited.blank .nftSignatures)) ↔
      Undeleted 2 (run (events (signed false))).db) := by
  obtain ⟨⟨v,s'⟩,ran⟩ := returned (x := rbFork (some 2) (run (events (signed false))).db) (by decide +kernel)
  exact ⟨s',v,ran,signaturesRestored (by decide +kernel) (by decide +kernel) (by decide) ran⟩

theorem droppedUnstamped : ChainOrder (events (signed true)) ∧
    ∃ s' v, rbFork (some 2) (run (events (signed true))).db = .ok (v,s') ∧
      ¬((s' .nftSignatures).rows.map (Audited.blank .nftSignatures)).Perm
        (((run (events (signed true))).beforeBlock 2 .nftSignatures).rows.map (Audited.blank .nftSignatures)) := by
  refine ⟨by decide +kernel,?_⟩
  obtain ⟨⟨v,s'⟩,ran⟩ := returned (x := rbFork (some 2) (run (events (signed true))).db) (by decide +kernel)
  have differ : ¬((rowsAfter (rbFork (some 2) (run (events (signed true))).db) .nftSignatures).map
      (Audited.blank .nftSignatures)).Perm
        (((run (events (signed true))).beforeBlock 2 .nftSignatures).rows.map (Audited.blank .nftSignatures)) := by
    decide +kernel
  rw [ran] at differ
  exact ⟨s',v,ran,differ⟩

end FioRelic
