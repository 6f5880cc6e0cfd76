import FioRelic.Past

/-! Undo over whole histories. A node is sound when, at every cut, its database still
determines the database the node keeps for that cut; every call in chain order keeps a
node sound, and a fork at a cut brings the kept database back. -/
namespace FioRelic
open Relational Versioning

section Blocks
variable {s s' s₀ : DB} {server : Server} {b : Int} {block : Block}

theorem castTimestampSame {text : Option String} {v : Option Timestamp}
    (ran : castTimestamp server text s = .ok (v,s')) : s' = s := by
  cases text with
  | none => exact (pureOk.mp ran).2
  | some t =>
    unfold castTimestamp at ran
    cases read : server.timestamp t with
    | none =>
      simp only [read] at ran
      exact absurd ran throwOk
    | some stamp =>
      simp only [read] at ran
      exact (pureOk.mp ran).2

theorem insBlocksStores {n : Option Int} {t i p w : Option String} {v : Option Int} (dated : below n (some 0) = false)
    (ran : insBlocks server n t i p w s = .ok (v,s')) :
    ∃ block : Block, n = some block.pkBlockNumber ∧ s' = s.append .blocks [block] ∧ s'.Valid := by
  unfold insBlocks at ran
  rw [dated] at ran
  obtain ⟨_,_,cast,rest⟩ := bindOk.mp ran
  obtain rfl := castTimestampSame cast
  cases n with
  | none => exact absurd rest throwOk
  | some number =>
    obtain ⟨_,m,inserted,last⟩ := bindOk.mp rest
    obtain ⟨_,rfl⟩ := pureOk.mp last
    obtain ⟨_,target,valid⟩ := insertIntoOk.mp inserted
    exact ⟨_,rfl,target,valid⟩

theorem insBlocksSkips {n : Option Int} {t i p w : Option String} {v : Option Int} (negative : below n (some 0) = true)
    (ran : insBlocks server n t i p w s = .ok (v,s')) : s' = s := by
  unfold insBlocks at ran
  rw [negative] at ran
  exact (pureOk.mp ran).2

theorem insBlocksOk {n : Option Int} {t i p w : Option String} {v : Option Int}
    (ran : insBlocks server n t i p w s = .ok (v,s')) :
    s' = s ∨ ∃ block : Block, n = some block.pkBlockNumber ∧ s' = s.append .blocks [block] ∧ s'.Valid := by
  cases dated : below n (some 0) with
  | true => exact Or.inl (insBlocksSkips dated ran)
  | false => exact Or.inr (insBlocksStores dated ran)

theorem blockNumbersAppend : DB.blockNumbers (s.append .blocks [block]) = DB.blockNumbers s ++ [block.pkBlockNumber] := by
  unfold DB.blockNumbers
  rw [Database.appendSame, List.map_append]
  rfl

theorem blockOther {t : TableName} (other : t ≠ .blocks) : (s.append .blocks [block]) t = s t :=
  Database.appendOther _ other _

theorem blockSeen (a : Audited) : a.seen (s.append .blocks [block]) = a.seen s := seenCongr (blockOther a.tableBlocks)

theorem kemptBlock (kempt : Kempt s) (valid : (s.append .blocks [block]).Valid) : Kempt (s.append .blocks [block]) where
  valid := valid
  serial := by
    intro t serial
    have other : t ≠ .blocks := of_decide_eq_true serial
    rw [Database.keys, blockOther other]
    exact kempt.serial t serial
  datas := by rw [blockOther (by decide), kempt.datas]
  ordered := fun a keeps => by rw [blockOther a.logBlocks]; exact kempt.ordered a keeps
  updates := fun a keeps => by rw [blockOther a.logBlocks]; exact kempt.updates a keeps
  fixed := fun a keeps => fixedCongr (blockOther a.tableBlocks) (blockOther a.logBlocks) (kempt.fixed a keeps)

theorem kemptSkip (kempt : Kempt s) (lost : TableName → Nat) : Kempt (s.skip lost) where
  valid := kempt.valid.skip lost
  serial := kempt.serial.skip lost
  datas := kempt.datas
  ordered := kempt.ordered
  updates := kempt.updates
  fixed := fun a keeps => ⟨(kempt.fixed a keeps).agree,(kempt.fixed a keeps).copies⟩

theorem chainSkip {a : Audited} (chain : Chain a s) (lost : TableName → Nat) : Chain a (s.skip lost) where
  issued := fun e mem => Int.lt_of_lt_of_le (chain.issued e mem) (Database.skipNext s lost a.table)
  chained := chain.chained
  fixed := ⟨chain.fixed.agree,chain.fixed.copies⟩

theorem pastSkip (past : Past b s s₀) (lost : TableName → Nat) : Past b (s.skip lost) s₀ where
  plain := past.plain
  kept := past.kept
  entries := past.entries
  addresses := past.addresses

theorem chainBlock {a : Audited} (chain : Chain a s) : Chain a (s.append .blocks [block]) :=
  chainCongr (blockOther a.tableBlocks) (blockOther a.logBlocks) chain

theorem pastBlock (le : b ≤ block.pkBlockNumber) (past : Past b s s₀) : Past b (s.append .blocks [block]) s₀ where
  plain := by
    intro t plain
    by_cases own : t = .blocks
    · subst own
      have late : [block].filter (fun r => !atLeast (fkBlockNumber .blocks r) (some b)) = [] := by
        simp [fkBlockNumber, le]
      rw [past.plain .blocks plain, Database.appendSame, List.filter_append, late, List.append_nil]
    · rw [blockOther own]
      exact past.plain t plain
  kept := by
    intro a keeps x
    rw [blockSeen, blockOther a.logBlocks]
    exact past.kept a keeps x
  entries := by
    intro a
    rw [blockOther a.logBlocks]
    exact past.entries a
  addresses := by
    rw [blockSeen, blockOther (by decide)]
    exact past.addresses

theorem headBelow : atLeast (DB.head s) (some b) = false ↔ ∀ k ∈ DB.blockNumbers s, k < b := by
  cases top : DB.head s with
  | none =>
    rw [DB.head, List.max?_eq_none_iff] at top
    simp [top]
  | some h =>
    obtain ⟨mem,bound⟩ := List.max?_eq_some_iff.mp top
    rw [atLeastSome, decide_eq_false_iff_not, Int.not_le]
    constructor
    · intro less k listed
      have := bound k listed
      omega
    · exact fun all => all h mem

end Blocks

theorem deletionsNothing {s s' : DB} {ds : List Deletion} (never : ∀ d ∈ ds, ∀ r, d.condition r = false)
    (ran : ds.forM (fun d => delete d.table d.condition) s = .ok ((),s')) : s' = s := by
  induction ds with
  | nil => exact forMNil.mp ran
  | cons d rest ih =>
    obtain ⟨middle,first,later⟩ := forMCons.mp ran
    obtain ⟨_,fired⟩ := deleteWhereOk.mp first
    have kept : ((s d.table).rows.filter fun r => !d.condition r) = (s d.table).rows :=
      List.filter_eq_self.mpr fun r _ => by simp [never d List.mem_cons_self r]
    have struck : (s d.table).rows.filter d.condition = [] :=
      List.filter_eq_nil_iff.mpr fun r _ => by simp [never d List.mem_cons_self r]
    have same : s.withRows d.table (s d.table).rows = s := Database.putSelf s d.table
    rw [kept, struck, same] at fired
    obtain rfl := forMNil.mp fired
    exact ih (fun d' mem => never d' (List.mem_cons_of_mem _ mem)) later

theorem cursorNone {α : Type} {rows : List α} {id entity : α → Int} {operation : α → Option Int} :
    cursor rows id entity operation none = [] := by
  have quiet : rows.filter (fun e => atLeast (operation e) none) = [] :=
    List.filter_eq_nil_iff.mpr fun e _ => by simp
  unfold cursor
  rw [quiet]
  rfl

theorem rollbackRowsNone {log : TableName} {id entity : Row log → Int} {operation : Row log → Option Int}
    {undo : Int → Row log → Proc Unit} {s s' : DB} {v : Option Int}
    (ran : rollbackRows log id entity operation none undo s = .ok (v,s')) : s' = s := by
  have body : (do
      let opened ← get
      let groups := cursor (opened log).rows id entity operation none
      groups.forM (rollbackRow log id undo)
      toInt (some groups.length) : Proc (Option Int)) s = .ok (v,s') := ran
  obtain ⟨_,m',loop,last⟩ := bindOk.mp (readOk.mp body)
  rw [cursorNone] at loop
  exact (toIntOk.mp last).2.1.trans (forMNil.mp loop)

theorem rbForkNone {s s' : DB} {v : Option Int} (ran : rbFork none s = .ok (v,s')) : s' = s := by
  have counted : below none (some 0) = false := rfl
  unfold rbFork at ran
  simp only [counted, Bool.false_eq_true, if_false] at ran
  obtain ⟨_,m₁,handles,rest₁⟩ := bindOk.mp ran
  obtain ⟨_,m₂,domains,rest₂⟩ := bindOk.mp rest₁
  obtain ⟨_,m₃,accounts,rest₃⟩ := bindOk.mp rest₂
  obtain ⟨_,m₄,requests,rest₄⟩ := bindOk.mp rest₃
  obtain ⟨_,m₅,datas,rest₅⟩ := bindOk.mp rest₄
  obtain ⟨_,m₆,addresses,rest₆⟩ := bindOk.mp rest₅
  obtain ⟨_,m₇,signatures,rest₇⟩ := bindOk.mp rest₆
  obtain ⟨_,m₈,deletions,last⟩ := bindOk.mp rest₇
  obtain rfl := rollbackRowsNone handles
  obtain rfl := rollbackRowsNone domains
  obtain rfl := rollbackRowsNone accounts
  obtain rfl := rollbackRowsNone requests
  obtain rfl := rollbackRowsNone datas
  obtain rfl := rollbackRowsNone addresses
  obtain rfl := rollbackRowsNone signatures
  exact (pureOk.mp last).2.trans (deletionsNothing (by simp [forkDeletions]) deletions)

theorem rbForkNegative {s s' : DB} {b : Int} {v : Option Int} (negative : b < 0)
    (ran : rbFork (some b) s = .ok (v,s')) : s' = s := by
  have counted : below (some b) (some 0) = true := decide_eq_true negative
  unfold rbFork at ran
  rw [if_pos counted] at ran
  exact (pureOk.mp ran).2

section Nodes
variable {n : Node} {s' : DB} {b c : Int}

theorem advanceStored (stack : n.before.map Prod.fst = DB.blockNumbers n.db)
    (grows : ∀ k ∈ DB.blockNumbers n.db, k ∈ DB.blockNumbers s') :
    (n.before.filter fun p => decide (p.1 ∈ DB.blockNumbers s')) = n.before := by
  refine List.filter_eq_self.mpr fun p mem => decide_eq_true (grows p.1 ?_)
  rw [← stack]
  exact List.mem_map_of_mem mem

theorem advanceKept (stack : n.before.map Prod.fst = DB.blockNumbers n.db)
    (same : DB.blockNumbers s' = DB.blockNumbers n.db) : n.advance s' = ⟨s',n.before⟩ := by
  have nothing : ((DB.blockNumbers s').filter fun k => decide (k ∉ DB.blockNumbers n.db)) = [] :=
    List.filter_eq_nil_iff.mpr fun k mem => by simp [← same, mem]
  unfold Node.advance
  rw [advanceStored stack fun k mem => same ▸ mem]
  simp only [nothing, List.map_nil, List.append_nil]

theorem advanceGrown {block : Block} (stack : n.before.map Prod.fst = DB.blockNumbers n.db)
    (fresh : block.pkBlockNumber ∉ DB.blockNumbers n.db) :
    n.advance (n.db.append .blocks [block]) =
      ⟨n.db.append .blocks [block],n.before ++ [(block.pkBlockNumber,n.db)]⟩ := by
  have new : ((DB.blockNumbers (n.db.append .blocks [block])).filter fun k => decide (k ∉ DB.blockNumbers n.db)) =
      [block.pkBlockNumber] := by
    have old : ((DB.blockNumbers n.db).filter fun k => decide (k ∉ DB.blockNumbers n.db)) = [] :=
      List.filter_eq_nil_iff.mpr fun k mem => by simp [mem]
    rw [blockNumbersAppend, List.filter_append, old]
    simp [fresh]
  unfold Node.advance
  rw [advanceStored stack fun k mem => by rw [blockNumbersAppend]; exact List.mem_append_left _ mem]
  simp only [new, List.map_cons, List.map_nil]

theorem advanceCut (stack : n.before.map Prod.fst = DB.blockNumbers n.db)
    (cut : DB.blockNumbers s' = (DB.blockNumbers n.db).filter fun k => !decide (b ≤ k)) :
    n.advance s' = ⟨s',n.before.filter fun p => !decide (b ≤ p.1)⟩ := by
  have nothing : ((DB.blockNumbers s').filter fun k => decide (k ∉ DB.blockNumbers n.db)) = [] :=
    List.filter_eq_nil_iff.mpr fun k mem => by
      rw [cut] at mem
      simp [(List.mem_filter.mp mem).1]
  have kept : (n.before.filter fun p => decide (p.1 ∈ DB.blockNumbers s')) =
      n.before.filter fun p => !decide (b ≤ p.1) := by
    refine List.filter_congr fun p mem => ?_
    have stored : p.1 ∈ DB.blockNumbers n.db := stack ▸ List.mem_map_of_mem mem
    rw [cut, Bool.eq_iff_iff]
    simp [List.mem_filter, stored]
  unfold Node.advance
  simp only [nothing, kept, List.map_nil, List.append_nil]

theorem nothingLate (stack : n.before.map Prod.fst = DB.blockNumbers n.db) :
    (n.before.find? fun p => decide (b ≤ p.1)) = none ↔ atLeast (DB.head n.db) (some b) = false := by
  rw [headBelow, ← stack, List.find?_eq_none]
  simp

theorem beforeAbove (stack : n.before.map Prod.fst = DB.blockNumbers n.db)
    (above : atLeast (DB.head n.db) (some b) = false) : n.beforeBlock b = n.db := by
  unfold Node.beforeBlock
  rw [(nothingLate stack).mpr above]

theorem beforeKept {s' : DB} (stack : n.before.map Prod.fst = DB.blockNumbers n.db)
    (late : atLeast (DB.head n.db) (some b) = true) : Node.beforeBlock ⟨s',n.before⟩ b = n.beforeBlock b := by
  unfold Node.beforeBlock
  cases kept : n.before.find? fun p => decide (b ≤ p.1) with
  | none =>
    rw [(nothingLate stack).mp kept] at late
    cases late
  | some p => rfl

theorem beforeGrown {block : Block} {s' : DB} (le : b ≤ block.pkBlockNumber) :
    Node.beforeBlock ⟨s',n.before ++ [(block.pkBlockNumber,n.db)]⟩ b = n.beforeBlock b := by
  unfold Node.beforeBlock
  rw [List.find?_append]
  cases n.before.find? fun p => decide (b ≤ p.1) with
  | none => simp [le]
  | some p => rfl

theorem headReaches {s : DB} {block : Block} (above : ∀ k ∈ DB.blockNumbers s, k < block.pkBlockNumber)
    (late : atLeast (DB.head (s.append .blocks [block])) (some b) = true) : b ≤ block.pkBlockNumber := by
  by_contra high
  have below : atLeast (DB.head (s.append .blocks [block])) (some b) = false := by
    refine headBelow.mpr fun k mem => ?_
    rw [blockNumbersAppend] at mem
    rcases List.mem_append.mp mem with old | new
    · have := above k old
      omega
    · rw [List.mem_singleton.mp new]
      omega
  rw [below] at late
  cases late

theorem findCut {α : Type} {l : List (Int × α)} (ascending : (l.map Prod.fst).Pairwise (· < ·)) :
    (l.filter fun p => !decide (c ≤ p.1)).find? (fun p => decide (b ≤ p.1)) =
      (l.find? fun p => decide (b ≤ p.1)).filter fun p => !decide (c ≤ p.1) := by
  induction l with
  | nil => rfl
  | cons head tail ih =>
    obtain ⟨below,ascending⟩ := List.pairwise_cons.mp ascending
    have ih := ih ascending
    by_cases late : c ≤ head.1
    · have empty : (tail.filter fun p => !decide (c ≤ p.1)) = [] := by
        refine List.filter_eq_nil_iff.mpr fun p mem => ?_
        have less := below p.1 (List.mem_map_of_mem mem)
        simp only [Bool.not_eq_true', decide_eq_false_iff_not, not_not]
        omega
      rw [empty] at ih
      by_cases hit : b ≤ head.1
      · simp [late, hit, empty, Option.filter]
      · simpa [late, hit, empty] using ih
    · by_cases hit : b ≤ head.1
      · simp [late, hit, Option.filter]
      · simpa [late, hit] using ih

theorem beforeCut {s' : DB} (ascending : (n.before.map Prod.fst).Pairwise (· < ·))
    (stack : (n.before.filter fun p => !decide (c ≤ p.1)).map Prod.fst = DB.blockNumbers s')
    (late : atLeast (DB.head s') (some b) = true) :
    b ≤ c ∧ Node.beforeBlock ⟨s',n.before.filter fun p => !decide (c ≤ p.1)⟩ b = n.beforeBlock b := by
  have cut := findCut (b := b) (c := c) ascending
  cases kept : (n.before.filter fun p => !decide (c ≤ p.1)).find? fun p => decide (b ≤ p.1) with
  | none =>
    rw [(nothingLate (n := ⟨s',n.before.filter fun p => !decide (c ≤ p.1)⟩) stack).mp kept] at late
    cases late
  | some p =>
    rw [kept] at cut
    obtain ⟨first,below⟩ := Option.filter_eq_some_iff.mp cut.symm
    have reached := List.find?_some first
    simp only [decide_eq_true_eq, Bool.not_eq_true', decide_eq_false_iff_not] at reached below
    refine ⟨by omega,?_⟩
    unfold Node.beforeBlock
    simp only [kept, first]

end Nodes

inductive Does (c : Call) (s : DB) : DB → Prop where
  | nothing : Does c s s
  | block (block : Block) (t i p w : Option String) (call : c = .insBlocks (some block.pkBlockNumber) t i p w)
      (valid : (s.append .blocks [block]).Valid) : Does c s (s.append .blocks [block])
  | fork (b : Int) (s' : DB) (nonneg : 0 ≤ b) (call : c = .rbFork (some b)) (forked : Forked b s s') : Does c s s'
  | changed (s' : DB) (ordinary : c.ordinary = true) (changes : Changes c s s') : Does c s s'

theorem callDoes {c : Call} {server : Server} {s s' : DB} {v : Option Int} (kempt : Kempt s)
    (ran : c.run server s = .ok (v,s')) : Does c s s' := by
  cases c with
  | insBlocks number t i p w =>
    rcases insBlocksOk ran with rfl | ⟨block,rfl,rfl,valid⟩
    · exact .nothing
    · exact .block block t i p w rfl valid
  | rbFork number =>
    cases number with
    | none => exact rbForkNone ran ▸ .nothing
    | some b =>
      rcases Int.lt_or_le b 0 with negative | nonneg
      · exact rbForkNegative negative ran ▸ .nothing
      · exact .fork b s' nonneg rfl (rbForkForked nonneg kempt ran)
  | _ => exact .changed s' rfl (callChanges rfl kempt.valid ran)

theorem atHeadOrder {c : Call} {s : DB} (ordinary : c.ordinary = true) (order : c.InOrder s) : AtHead c s := by
  cases c with
  | insBlocks => cases ordinary
  | rbFork => cases ordinary
  | _ => exact order

structure Standing (n : Node) : Prop where
  kempt : Kempt n.db
  chain : ∀ a : Audited, a.deletes = true → Chain a n.db
  ascending : (DB.blockNumbers n.db).Pairwise (· < ·)
  stack : n.before.map Prod.fst = DB.blockNumbers n.db
  earlier : ∀ p ∈ n.before, Kempt p.2

structure Sound (n : Node) : Prop extends Standing n where
  past : ∀ b, Past b n.db (n.beforeBlock b)

inductive Moved (n : Node) (e : Event) : Node → Prop where
  | lost (drawn : TableName → Nat) : Moved n e ⟨n.db.skip drawn,n.before⟩
  | changed (s' : DB) (v : Option Int) (ordinary : e.call.ordinary = true) (atHead : AtHead e.call n.db)
      (ran : e.call.run e.server n.db = .ok (v,s')) (changes : Changes e.call n.db s') : Moved n e ⟨s',n.before⟩
  | grown (block : Block) (above : ∀ k ∈ DB.blockNumbers n.db, k < block.pkBlockNumber)
      (valid : (n.db.append .blocks [block]).Valid) :
      Moved n e ⟨n.db.append .blocks [block],n.before ++ [(block.pkBlockNumber,n.db)]⟩
  | forked (b : Int) (s' : DB) (v : Option Int) (nonneg : 0 ≤ b) (call : e.call = .rbFork (some b))
      (ran : rbFork (some b) n.db = .ok (v,s')) : Moved n e ⟨s',n.before.filter fun p => !decide (b ≤ p.1)⟩

section Steps
variable {n n' : Node} {e : Event} {s' : DB} {b : Int} {v : Option Int}

theorem forkBlocks (forked : Forked b n.db s') :
    DB.blockNumbers s' = (DB.blockNumbers n.db).filter fun k => !decide (b ≤ k) := by
  unfold DB.blockNumbers
  rw [forked.plain .blocks rfl, List.filter_map]
  rfl

theorem movedNowhere : Moved n e ⟨n.db,n.before⟩ := by
  have lost := Moved.lost (n := n) (e := e) fun _ => 0
  rwa [Database.skipNothing] at lost

theorem moved (standing : Standing n) (order : e.call.InOrder n.db) : Moved n e (n.step e) := by
  cases ran : e.call.run e.server n.db with
  | error raised =>
    rw [stepRaised ran]
    exact .lost e.drawn
  | ok result =>
    obtain ⟨v,s'⟩ := result
    rw [stepAdvances ran]
    cases callDoes standing.kempt ran with
    | nothing =>
      rw [advanceKept standing.stack rfl]
      exact movedNowhere
    | block block t i p w call valid =>
      have above : ∀ k ∈ DB.blockNumbers n.db, k < block.pkBlockNumber := by
        rw [call] at order
        exact order
      rw [advanceGrown standing.stack fun listed => absurd (above _ listed) (Int.lt_irrefl _)]
      exact .grown block above valid
    | fork b s' nonneg call forked =>
      rw [call] at ran
      rw [advanceCut standing.stack (forkBlocks forked)]
      exact .forked b s' v nonneg call ran
    | changed s' ordinary changes =>
      rw [advanceKept standing.stack (by simp only [DB.blockNumbers, changes.blocks])]
      exact .changed s' v ordinary (atHeadOrder ordinary order) ran changes

theorem forkLogs (standing : Standing n) (nonneg : 0 ≤ b) (ran : rbFork (some b) n.db = .ok (v,s')) (a : Audited) :
    (s' a.log).rows = (n.db a.log).rows.filter fun e => !a.layout.lateEntry (some b) e := by
  cases deletes : a.deletes with
  | true =>
    obtain ⟨_,refilled⟩ := rbForkRefilled nonneg standing.kempt standing.chain ran a deletes
    exact refilled.entries
  | false => exact (rbForkForked nonneg standing.kempt ran).entries a deletes

theorem changesStanding {c : Call} {s s' : DB} (kempt : Kempt s) (chain : ∀ a : Audited, a.deletes = true → Chain a s)
    (atHead : AtHead c s) (h : Changes c s s') : Kempt s' ∧ ∀ a : Audited, a.deletes = true → Chain a s' := by
  induction h with
  | refl => exact ⟨kempt,chain⟩
  | tail before last ih =>
    obtain ⟨kempt',chain'⟩ := ih
    refine ⟨kemptChange kempt' last,fun a deletes => ?_⟩
    exact chainChange deletes kempt'.valid kempt'.serial (chain' a deletes) last (Changes.atHead before atHead)

theorem standingMoved (standing : Standing n) (move : Moved n e n') : Standing n' := by
  obtain ⟨kempt,chain,ascending,stack,earlier⟩ := standing
  cases move with
  | lost drawn =>
    exact ⟨kemptSkip kempt drawn,fun a deletes => chainSkip (chain a deletes) drawn,ascending,stack,earlier⟩
  | changed s' v ordinary atHead ran changes =>
    have numbers : DB.blockNumbers s' = DB.blockNumbers n.db := by simp only [DB.blockNumbers, changes.blocks]
    obtain ⟨kempt',chain'⟩ := changesStanding kempt chain atHead changes
    exact ⟨kempt',chain',by rw [numbers]; exact ascending,stack.trans numbers.symm,earlier⟩
  | grown block above valid =>
    refine ⟨kemptBlock kempt valid,fun a deletes => chainBlock (chain a deletes),?_,?_,fun p mem => ?_⟩
    · rw [blockNumbersAppend]
      refine List.pairwise_append.mpr ⟨ascending,List.pairwise_singleton _ _,fun k mem k' mem' => ?_⟩
      rw [List.mem_singleton.mp mem']
      exact above k mem
    · rw [List.map_append, stack, blockNumbersAppend]
      rfl
    · rcases List.mem_append.mp mem with old | new
      · exact earlier p old
      · rw [List.mem_singleton.mp new]
        exact kempt
  | forked c s' v nonneg call ran =>
    have forked := rbForkForked nonneg kempt ran
    refine ⟨kemptFork kempt forked,fun a deletes => ?_,?_,?_,fun p mem => earlier p (List.mem_filter.mp mem).1⟩
    · obtain ⟨_,refilled⟩ := rbForkRefilled nonneg kempt chain ran a deletes
      exact chainFork deletes kempt (chain a deletes) forked refilled
    · rw [forkBlocks forked]
      exact ascending.sublist List.filter_sublist
    · rw [forkBlocks forked, ← stack, List.filter_map]
      rfl

structure Carried (R : Int → DB → DB → Prop) (n : Node) (e : Event) : Prop where
  self : ∀ s b, Kempt s → atLeast (DB.head s) (some b) = false → R b s s
  lost : ∀ s s₀ b drawn, R b s s₀ → R b (s.skip drawn) s₀
  block : ∀ s s₀ b (block : Block), b ≤ block.pkBlockNumber → R b s s₀ → R b (s.append .blocks [block]) s₀
  change : ∀ s s' s₀ b, Kempt s → (∀ a : Audited, a.deletes = true → Chain a s) → AtHead e.call s →
    atLeast (DB.head s) (some b) = true → Change e.call s s' → R b s s₀ → R b s' s₀
  fork : ∀ s' v b c s₀, 0 ≤ c → e.call = .rbFork (some c) → rbFork (some c) n.db = .ok (v,s') → b ≤ c →
    R b n.db s₀ → R b s' s₀

theorem changesCarried {R : Int → DB → DB → Prop} {s₀ : DB} (carried : Carried R n e) (kempt : Kempt n.db)
    (chain : ∀ a : Audited, a.deletes = true → Chain a n.db) (atHead : AtHead e.call n.db)
    (late : atLeast (DB.head n.db) (some b) = true) (past : R b n.db s₀) (changes : Changes e.call n.db s') :
    R b s' s₀ := by
  induction changes with
  | refl => exact past
  | tail before last ih =>
    obtain ⟨kempt',chain'⟩ := changesStanding kempt chain atHead before
    exact carried.change _ _ _ b kempt' chain' (Changes.atHead before atHead) (Changes.head before ▸ late) last ih

theorem pastMoved {R : Int → DB → DB → Prop} (standing : Standing n) (move : Moved n e n') (carried : Carried R n e)
    (past : ∀ b, R b n.db (n.beforeBlock b)) (b : Int) : R b n'.db (n'.beforeBlock b) := by
  have standing' := standingMoved standing move
  obtain ⟨kempt,chain,ascending,stack,earlier⟩ := standing
  cases late' : atLeast (DB.head n'.db) (some b) with
  | false =>
    rw [beforeAbove standing'.stack late']
    exact carried.self n'.db b standing'.kempt late'
  | true =>
    cases move with
    | lost drawn =>
      rw [beforeKept stack late']
      exact carried.lost _ _ b drawn (past b)
    | changed s' v ordinary atHead ran changes =>
      have late : atLeast (DB.head n.db) (some b) = true := changes.head ▸ late'
      rw [beforeKept stack late]
      exact changesCarried carried kempt chain atHead late (past b) changes
    | grown block above valid =>
      have le : b ≤ block.pkBlockNumber := headReaches above late'
      rw [beforeGrown le]
      exact carried.block _ _ b block le (past b)
    | forked c s' v nonneg call ran =>
      obtain ⟨le,same⟩ := beforeCut (stack ▸ ascending) standing'.stack late'
      rw [same]
      exact carried.fork s' v b c _ nonneg call ran le (past b)

theorem pastCarried (standing : Standing n) : Carried Past n e where
  self := fun _ _ kempt above => pastSelf kempt.valid above
  lost := fun _ _ _ drawn past => pastSkip past drawn
  block := fun _ _ _ _ le past => pastBlock le past
  change := fun _ _ _ _ kempt chain atHead late h past => pastChange kempt chain atHead late h past
  fork := by
    intro s' v b c s₀ nonneg call ran le past
    have forked := rbForkForked nonneg standing.kempt ran
    obtain ⟨_,refilled⟩ := rbForkRefilled nonneg standing.kempt standing.chain ran .pubAddresses rfl
    exact pastFork standing.kempt (standing.chain .pubAddresses rfl) le forked refilled (forkLogs standing nonneg ran)
      past

theorem soundMoved (sound : Sound n) (move : Moved n e n') : Sound n' :=
  ⟨standingMoved sound.toStanding move,pastMoved sound.toStanding move (pastCarried sound.toStanding) sound.past⟩

end Steps

section Runs
variable {n : Node} {history : List Event}

theorem emptyKempt : Kempt (Database.empty relic) where
  valid := Database.emptyValid relic
  serial := Database.emptySerial relic
  datas := rfl
  ordered := fun _ _ => ⟨fun _ mem => absurd mem List.not_mem_nil,List.Pairwise.nil⟩
  updates := fun _ _ _ mem => absurd mem List.not_mem_nil
  fixed := fun _ _ => ⟨fun _ mem => absurd mem List.not_mem_nil,fun _ mem => absurd mem List.not_mem_nil⟩

theorem emptyChain (a : Audited) : Chain a (Database.empty relic) where
  issued := fun _ mem => absurd mem List.not_mem_nil
  chained := ⟨⟨fun _ mem => absurd mem List.not_mem_nil,List.Pairwise.nil⟩,List.Pairwise.nil,
    fun _ mem => absurd mem List.not_mem_nil⟩
  fixed := ⟨fun _ mem => absurd mem List.not_mem_nil,fun _ mem => absurd mem List.not_mem_nil⟩

theorem emptySound : Sound Node.empty where
  kempt := emptyKempt
  chain := fun a _ => emptyChain a
  ascending := List.Pairwise.nil
  stack := rfl
  earlier := fun _ mem => absurd mem List.not_mem_nil
  past := fun _ => pastSelf (Database.emptyValid relic) rfl

theorem runInduction {P : Node → Prop} {Q : Node → Event → Prop} (start : P Node.empty)
    (step : ∀ n e n', Sound n → Q n e → Moved n e n' → P n → P n') (order : ChainOrder history)
    (meets : Meets Q history) : Sound (run history) ∧ P (run history) := by
  have along : ∀ n, Sound n ∧ P n → MeetsFrom (fun n e => e.call.InOrder n.db) n history → MeetsFrom Q n history →
      Sound (runFrom n history) ∧ P (runFrom n history) := by
    clear order meets
    induction history with
    | nil => exact fun n holds _ _ => holds
    | cons e rest ih =>
      intro n ⟨sound,holds⟩ ⟨first,later⟩ ⟨met,later'⟩
      have move := moved sound.toStanding first
      exact ih (n.step e) ⟨soundMoved sound move,step n e _ sound met move holds⟩ later later'
  exact along Node.empty ⟨emptySound,start⟩ order meets

theorem pastInduction {R : Int → DB → DB → Prop} {Q : Node → Event → Prop} (order : ChainOrder history)
    (meets : Meets Q history) (carried : ∀ n e, Sound n → Q n e → Carried (fun b s s₀ => Past b s s₀ ∧ R b s s₀) n e)
    (self : ∀ s b, Kempt s → atLeast (DB.head s) (some b) = false → R b s s) (b : Int) :
    R b (run history).db ((run history).beforeBlock b) := by
  have start : ∀ b, Past b Node.empty.db (Node.empty.beforeBlock b) ∧ R b Node.empty.db (Node.empty.beforeBlock b) :=
    fun b => ⟨emptySound.past b,self _ b emptyKempt rfl⟩
  exact ((runInduction start (fun n e _ sound met move past =>
    pastMoved sound.toStanding move (carried n e sound met) past) order meets).2 b).2

theorem soundRun (order : ChainOrder history) : Sound (run history) :=
  (runInduction (P := fun _ => True) (Q := fun _ _ => True) trivial (fun _ _ _ _ _ _ _ => trivial) order
    (meetsEach fun _ _ => trivial)).1

theorem anyOrderInduction {P : DB → Prop} {Q : Node → Event → Prop} (start : P (Database.empty relic))
    (lost : ∀ s drawn, P s → P (s.skip drawn))
    (block : ∀ s (b : Block), P s → P (s.append .blocks [b]))
    (call : ∀ n e s' v, e.call.ordinary = true → Q n e → Kempt n.db → e.call.run e.server n.db = .ok (v,s') →
      Changes e.call n.db s' → P n.db → P s')
    (fork : ∀ s s' b, Kempt s → Kempt s' → 0 ≤ b → Forked b s s' → P s → P s') (meets : Meets Q history) :
    Kempt (run history).db ∧ P (run history).db := by
  have step : ∀ n e, Kempt n.db ∧ P n.db → Q n e → Kempt (n.step e).db ∧ P (n.step e).db := by
    intro n e ⟨kempt,holds⟩ met
    cases ran : e.call.run e.server n.db with
    | error raised =>
      rw [stepRaised ran]
      exact ⟨kemptSkip kempt e.drawn,lost n.db e.drawn holds⟩
    | ok result =>
      obtain ⟨v,s'⟩ := result
      rw [stepRan ran]
      cases callDoes kempt ran with
      | nothing => exact ⟨kempt,holds⟩
      | block b _ _ _ _ _ valid => exact ⟨kemptBlock kempt valid,block n.db b holds⟩
      | fork b s' nonneg _ forked =>
        have kempt' := kemptFork kempt forked
        exact ⟨kempt',fork n.db s' b kempt kempt' nonneg forked holds⟩
      | changed s' ordinary changes =>
        exact ⟨kemptChanges kempt changes,call n e s' v ordinary met kempt ran changes holds⟩
  have along : ∀ n, Kempt n.db ∧ P n.db → MeetsFrom Q n history →
      Kempt (runFrom n history).db ∧ P (runFrom n history).db := by
    clear meets
    induction history with
    | nil => exact fun n holds _ => holds
    | cons e rest ih => exact fun n holds ⟨met,later⟩ => ih (n.step e) (step n e holds met) later
  exact along Node.empty ⟨emptyKempt,start⟩ meets

theorem kemptRun (history : List Event) : Kempt (run history).db :=
  (anyOrderInduction (P := fun _ => True) (Q := fun _ _ => True) trivial (fun _ _ _ => trivial)
    (fun _ _ _ => trivial) (fun _ _ _ _ _ _ _ _ _ _ => trivial) (fun _ _ _ _ _ _ _ _ => trivial) (meetsEach fun _ _ => trivial)).1

end Runs
end FioRelic
