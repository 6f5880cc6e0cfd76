import FioRelic.Restore

/-! Requests under rollback. The audit trigger leaves out binary_content and the two public
keys, so a request that is written back loses them; nothing else is lost. -/
namespace FioRelic
open Relational Versioning

def contents (r : FioRequest) : Option Bytes × Option String × Option String :=
  (r.binaryContent,r.payerPubKey,r.payeePubKey)

def Altered (b : Int) (s : DB) (r : FioRequest) : Prop :=
  ∃ e ∈ (s .fioRequestsAudit).rows, e.fkFioRequestsId = r.pkFioRequestsId ∧
    atLeast e.fkTableOperationBlockNumber (some b) = true

instance (b : Int) (s : DB) (r : FioRequest) : Decidable (Altered b s r) := by unfold Altered; infer_instance

def Uncleared (b : Int) (s : DB) : Prop :=
  ∀ r ∈ (s .fioRequests).rows, Altered b s r → atLeast r.fkBlockNumber (some b) = false →
    r.binaryContent = none ∧ r.payerPubKey = none ∧ r.payeePubKey = none

instance (b : Int) (s : DB) : Decidable (Uncleared b s) := by unfold Uncleared; infer_instance

def KeptContents (s s₀ : DB) : Prop :=
  ∀ r₀ ∈ (s₀ .fioRequests).rows, ∀ r ∈ (s .fioRequests).rows, r.pkFioRequestsId = r₀.pkFioRequestsId →
    contents r = contents r₀

section
variable {n : Node} {event : Event} {c : Call} {s s' s₀ : DB} {b : Int} {v : Option Int}

theorem originalAltered (kempt : Kempt s) {r : FioRequest} (altered : Altered b s r) :
    contents (Audited.original .fioRequests (some b) (s .fioRequestsAudit).rows r) = (none,none,none) := by
  obtain ⟨e',inLog',entity',late'⟩ := altered
  cases first : (Audited.layout .fioRequests).replaced (some b) (s .fioRequestsAudit).rows r.pkFioRequestsId with
  | none =>
    have quiet := replacedNone.mp first e' inLog' entity'
    exact absurd (quiet.symm.trans late') Bool.false_ne_true
  | some e =>
    have row : Audited.original .fioRequests (some b) (s .fioRequestsAudit).rows r = Audited.row .fioRequests e :=
      originalOf first
    rw [row, ← (kempt.fixed .fioRequests rfl).copies e (replacedSpec first).1]
    rfl

theorem originalUnaltered {r : FioRequest} (unaltered : ¬Altered b s r) :
    Audited.original .fioRequests (some b) (s .fioRequestsAudit).rows r = r := by
  have none : (Audited.layout .fioRequests).replaced (some b) (s .fioRequestsAudit).rows (key .fioRequests r) = none := by
    refine replacedNone.mpr fun e mem own => ?_
    cases late : atLeast ((Audited.layout .fioRequests).written e) (some b) with
    | false => rfl
    | true => exact absurd ⟨e,mem,own,late⟩ unaltered
  unfold Audited.original
  rw [none]

theorem originalStamp (kempt : Kempt s) {r : FioRequest} (mem : r ∈ (s .fioRequests).rows) :
    (Audited.original .fioRequests (some b) (s .fioRequestsAudit).rows r).fkBlockNumber = r.fkBlockNumber := by
  have same : Audited.fixed .fioRequests (Audited.original .fioRequests (some b) (s .fioRequestsAudit).rows r) =
      Audited.fixed .fioRequests r := originalFixed (kempt.fixed .fioRequests rfl) mem
  simp only [Audited.fixed, Prod.mk.injEq, List.cons.injEq] at same
  exact same.1.1

theorem forkedRequest (forked : Forked b s s') {r' : FioRequest} (mem : r' ∈ (s' .fioRequests).rows) :
    ∃ r ∈ (s .fioRequests).rows, r' = Audited.original .fioRequests (some b) (s .fioRequestsAudit).rows r ∧
      r'.pkFioRequestsId = r.pkFioRequestsId ∧ atLeast r'.fkBlockNumber (some b) = false := by
  rw [show (s' .fioRequests).rows = _ from forked.kept .fioRequests rfl] at mem
  obtain ⟨back,early⟩ := List.mem_filter.mp mem
  obtain ⟨r,stored,rfl⟩ := List.mem_map.mp back
  exact ⟨r,stored,rfl,originalKey r,Bool.not_eq_true' _ ▸ early⟩

theorem pastRequest (kempt : Kempt s) (kempt₀ : Kempt s₀) (past : Past b s s₀) {r₀ : FioRequest}
    (mem : r₀ ∈ (s₀ .fioRequests).rows) : ∃ r ∈ (s .fioRequests).rows, r.pkFioRequestsId = r₀.pkFioRequestsId := by
  have found := findOfMem (seenNodup (a := .fioRequests) kempt₀.valid) (List.mem_map_of_mem mem)
  rw [past.kept .fioRequests rfl] at found
  obtain ⟨r,stored,number,_⟩ := rewindStored rfl kempt found
  exact ⟨r,stored,number⟩

theorem contentsChange (h : Change c s s') {r' : FioRequest} (mem : r' ∈ (s' .fioRequests).rows) :
    (∃ r ∈ (s .fioRequests).rows, r'.pkFioRequestsId = r.pkFioRequestsId ∧ contents r' = contents r) ∨
      r'.pkFioRequestsId = (s .fioRequests).next := by
  cases h with
  | insert t row number stamped inserted valid =>
    by_cases own : TableName.fioRequests = t
    · subst own
      rw [Database.appendSame] at mem
      rcases List.mem_append.mp mem with old | new
      · exact Or.inl ⟨r',old,rfl,rfl⟩
      · exact Or.inr (List.mem_singleton.mp new ▸ number)
    · rw [Database.appendOther _ own] at mem
      exact Or.inl ⟨r',mem,rfl,rfl⟩
  | update a p assign entries rewritten logged committed valid =>
    left
    by_cases own : Audited.fioRequests = a
    · subst own
      rw [Database.appendOther _ (by decide), Database.withRowsSame] at mem
      obtain ⟨r,stored,rfl⟩ := List.mem_map.mp mem
      refine ⟨r,stored,?_⟩
      unfold assigned
      cases hit : p r with
      | false => exact ⟨rfl,rfl⟩
      | true =>
        have kept : assign r = { r with requestStatus := (assign r).requestStatus } := (rewritten r stored hit).kept
        simp only [if_true]
        rw [kept]
        exact ⟨rfl,rfl⟩
    · rw [Database.appendOther _ (Audited.fioRequests.tableLog a), Database.withRowsOther _ (Audited.tableInjective own)]
        at mem
      exact ⟨r',mem,rfl,rfl⟩
  | delete a deletes p entries logged committed valid =>
    have own : Audited.fioRequests ≠ a := fun same => by
      subst same
      cases deletes
    rw [Database.appendOther _ (Audited.fioRequests.tableLog a), Database.withRowsOther _ (Audited.tableInjective own)]
      at mem
    exact Or.inl ⟨r',mem,rfl,rfl⟩

theorem keptContentsChange (kempt : Kempt s) (kempt₀ : Kempt s₀) (past : Past b s s₀) (h : Change c s s')
    (kept : KeptContents s s₀) : KeptContents s' s₀ := by
  intro r₀ mem₀ r' mem same
  rcases contentsChange h mem with ⟨r,stored,number,contents⟩ | fresh
  · exact contents.trans (kept r₀ mem₀ r stored (number.symm.trans same))
  · obtain ⟨r,stored,number⟩ := pastRequest kempt kempt₀ past mem₀
    have issued := (kempt.serial .fioRequests rfl).2 _ (List.mem_map_of_mem stored)
    change r.pkFioRequestsId < _ at issued
    omega

theorem keptContentsFork (kempt : Kempt s) (forked : Forked b s s') (uncleared : Uncleared b s)
    (kept : KeptContents s s₀) : KeptContents s' s₀ := by
  intro r₀ mem₀ r' mem same
  obtain ⟨r,stored,back,number,early⟩ := forkedRequest forked mem
  have before := kept r₀ mem₀ r stored (number.symm.trans same)
  rw [← before]
  by_cases altered : Altered b s r
  · have stamp : atLeast r.fkBlockNumber (some b) = false := by
      rw [← originalStamp kempt stored (b := b), ← back]
      exact early
    obtain ⟨binary,payer,payee⟩ := uncleared r stored altered stamp
    rw [back, originalAltered kempt altered]
    simp only [contents, binary, payer, payee]
  · rw [back, originalUnaltered altered]

end

theorem contentsKept {history : List Event} (order : ChainOrder history) (earlier : Meets (AtForks Uncleared) history)
    (b : Int) : KeptContents (run history).db ((run history).beforeBlock b) := by
  have self : ∀ s b, Kempt s → atLeast (DB.head s) (some b) = false → Kempt s ∧ KeptContents s s := by
    intro s b kempt _
    refine ⟨kempt,fun r₀ mem₀ r mem same => ?_⟩
    rw [kempt.valid.sameRow (t := .fioRequests) mem mem₀ same]
  refine (pastInduction (R := fun _ s s₀ => Kempt s₀ ∧ KeptContents s s₀) order earlier (fun n e sound met => ?_) self
    b).2
  have carried := pastCarried (e := e) sound.toStanding
  constructor
  · exact fun s b kempt above => ⟨carried.self s b kempt above,self s b kempt above⟩
  · exact fun s s₀ b drawn ⟨past,kempt₀,kept⟩ => ⟨carried.lost s s₀ b drawn past,kempt₀,kept⟩
  · intro s s₀ b block le ⟨past,kempt₀,kept⟩
    refine ⟨carried.block s s₀ b block le past,kempt₀,?_⟩
    unfold KeptContents
    rw [blockOther (by decide)]
    exact kept
  · intro s s' s₀ b kempt chain atHead late h ⟨past,kempt₀,kept⟩
    exact ⟨carried.change s s' s₀ b kempt chain atHead late h past,kempt₀,keptContentsChange kempt kempt₀ past h kept⟩
  · intro s' v b c s₀ nonneg call ran le ⟨past,kempt₀,kept⟩
    have uncleared : Uncleared c n.db := met c (by rw [call]; rfl)
    exact ⟨carried.fork s' v b c s₀ nonneg call ran le past,kempt₀,
      keptContentsFork sound.kempt (rbForkForked nonneg sound.kempt ran) uncleared kept⟩

theorem requestRows {s' s₀ : DB} (restored : Restored s' s₀) (kept : KeptContents s' s₀) :
    (s' .fioRequests).rows = (s₀ .fioRequests).rows := by
  have copied : (s' .fioRequests).rows.map (Audited.copied .fioRequests) =
      (s₀ .fioRequests).rows.map (Audited.copied .fioRequests) := restored.kept .fioRequests rfl
  have lengths := congrArg List.length copied
  simp only [List.length_map] at lengths
  refine List.ext_getElem lengths fun i hi hi₀ => ?_
  have alike : Audited.copied .fioRequests (s' .fioRequests).rows[i] =
      Audited.copied .fioRequests (s₀ .fioRequests).rows[i] := by
    have each := List.getElem_of_eq copied (by rwa [List.length_map])
    rwa [List.getElem_map, List.getElem_map] at each
  have number : (s' .fioRequests).rows[i].pkFioRequestsId = (s₀ .fioRequests).rows[i].pkFioRequestsId := by
    have keys := congrArg (key .fioRequests) alike
    rwa [Audited.fioRequests.keyCopied, Audited.fioRequests.keyCopied] at keys
  have same := kept _ (List.getElem_mem hi₀) _ (List.getElem_mem hi) number
  generalize (s' .fioRequests).rows[i] = r at alike same
  generalize (s₀ .fioRequests).rows[i] = r₀ at alike same
  cases r
  cases r₀
  simp_all [Audited.copied, contents]

theorem requestsRestored {history : List Event} {b : Int} {s' : DB} {v : Option Int} (order : ChainOrder history)
    (earlier : Meets (AtForks Uncleared) history) (nonneg : 0 ≤ b)
    (ran : rbFork (some b) (run history).db = .ok (v,s')) :
    (s' .fioRequests).rows = ((run history).beforeBlock b .fioRequests).rows ↔ Uncleared b (run history).db := by
  have sound := soundRun order
  have forked := rbForkForked nonneg sound.kempt ran
  have restored := forkRestores sound nonneg ran
  have kept := contentsKept order earlier b
  constructor
  · intro same r stored altered stamp
    have back : Audited.original .fioRequests (some b) ((run history).db .fioRequestsAudit).rows r ∈
        (s' .fioRequests).rows := by
      rw [show (s' .fioRequests).rows = _ from forked.kept .fioRequests rfl]
      refine List.mem_filter.mpr ⟨List.mem_map_of_mem stored,?_⟩
      have early := originalStamp sound.kempt stored (b := b) ▸ stamp
      exact Bool.not_eq_true' _ ▸ early
    have number : r.pkFioRequestsId =
        (Audited.original .fioRequests (some b) ((run history).db .fioRequestsAudit).rows r).pkFioRequestsId :=
      (originalKey (a := .fioRequests) r).symm
    have before := kept _ (same ▸ back) r stored number
    rw [originalAltered sound.kempt altered] at before
    simpa [contents] using before
  · exact fun uncleared => requestRows restored (keptContentsFork sound.kempt forked uncleared kept)

theorem forksRestoreRequests {before after : List Event} {e : Event} {b : Int} {s' : DB} {v : Option Int}
    (order : ChainOrder (before ++ e :: after)) (every : Meets (AtForks Uncleared) (before ++ e :: after))
    (called : e.call = .rbFork (some b)) (nonneg : 0 ≤ b) (ran : rbFork (some b) (run before).db = .ok (v,s')) :
    (s' .fioRequests).rows = ((run before).beforeBlock b .fioRequests).rows := by
  obtain ⟨order,_⟩ := meetsAppend order
  obtain ⟨earlier,now,_⟩ := meetsAppend every
  have sound := soundRun order
  exact requestRows (forkRestores sound nonneg ran) (keptContentsFork sound.kempt (rbForkForked nonneg sound.kempt ran)
    (now b (by rw [called]; rfl)) (contentsKept order earlier b))

def cancelled (content : Option Bytes) : List Call :=
  [.insBlocks (some 1) none (some "b1") none none,
    .insFioRequests none (some 1) (some 7) none none content (some "pending") none,
    .insBlocks (some 2) none (some "b2") none none,
    .updFioRequestsStatus (some 7) (some "cancelled")]

theorem requestsRestoredCancelled : ∃ s' v, rbFork (some 2) (run (events (cancelled none))).db = .ok (v,s') ∧
    ((s' .fioRequests).rows = ((run (events (cancelled none))).beforeBlock 2 .fioRequests).rows ↔
      Uncleared 2 (run (events (cancelled none))).db) := by
  obtain ⟨⟨v,s'⟩,ran⟩ := returned (x := rbFork (some 2) (run (events (cancelled none))).db) (by decide +kernel)
  exact ⟨s',v,ran,requestsRestored (by decide +kernel) (by decide +kernel) (by decide) ran⟩

theorem cancelledCleared : ChainOrder (events (cancelled (some [1]))) ∧
    ∃ s' v, rbFork (some 2) (run (events (cancelled (some [1])))).db = .ok (v,s') ∧
      (s' .fioRequests).rows ≠ ((run (events (cancelled (some [1])))).beforeBlock 2 .fioRequests).rows := by
  refine ⟨by decide +kernel,?_⟩
  obtain ⟨⟨v,s'⟩,ran⟩ := returned (x := rbFork (some 2) (run (events (cancelled (some [1])))).db) (by decide +kernel)
  have cleared : rowsAfter (rbFork (some 2) (run (events (cancelled (some [1])))).db) .fioRequests ≠
      ((run (events (cancelled (some [1])))).beforeBlock 2 .fioRequests).rows := by decide +kernel
  rw [ran] at cleared
  exact ⟨s',v,ran,cleared⟩

end FioRelic
