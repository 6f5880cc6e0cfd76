import FioRelic.Effects
import FioRelic.Relational.Constraints

/-! When a statement on an audited table returns. Once its own constraints hold the
trigger cannot fail: an entry refers to what the old row refers to, to the row itself
and to the block of the operation. -/
namespace FioRelic
open Relational Versioning

section Evaluation
variable {s s' : DB} {α β : Type}

theorem bindRuns {x : Proc α} {f : α → Proc β} {a : α} (ran : x s = .ok (a,s')) : (x >>= f) s = f a s' := by
  change (x s >>= fun p => f p.1 p.2) = f a s'
  rw [ran]
  rfl

theorem lookupRuns {server : Server} {t : TableName} {p : Row t → Bool} {f : Option (Row t) → Proc β} :
    (select server t p >>= f) s = f (chosen (server.takes t) t p s) s := rfl

end Evaluation

theorem insertBind {s : DB} {t : TableName} {row : Int → Row t} {β : Type} {rest : Int → Proc β} {out : β × DB}
    (valid : s.Valid) (number : ∀ k, key t (row k) = k)
    (refers : ∀ ref ∈ references t, s.Resolves ref.parent (ref.column (row (s t).next))) :
    (insertInto t row >>= rest) s = .ok out ↔ (s.Draws t 1 ∧
      (∀ c ∈ varchars t, fitsWidth c.width (c.column (row (s t).next)) = true) ∧
      ∀ column ∈ unique t, ∀ r ∈ (s t).rows, ∀ x, column (row (s t).next) = some x → column r ≠ some x) ∧
      rest (s t).next (s.append t [row (s t).next]) = .ok out := by
  obtain ⟨answer,s'⟩ := out
  rw [bindOk, ← valid.inserts (number _) refers]
  constructor
  · rintro ⟨_,_,inserted,ran⟩
    obtain ⟨rfl,rfl,valid'⟩ := insertIntoOk.mp inserted
    exact ⟨valid',ran⟩
  · exact fun ⟨valid',ran⟩ => ⟨_,_,insertIntoOk.mpr ⟨rfl,rfl,valid'⟩,ran⟩

theorem insertRuns {s : DB} {t : TableName} {row : Int → Row t} (valid : s.Valid) (draws : s.Draws t 1)
    (number : ∀ k, key t (row k) = k)
    (texts : ∀ c ∈ varchars t, fitsWidth c.width (c.column (row (s t).next)) = true)
    (distinct : ∀ column ∈ unique t, ∀ r ∈ (s t).rows, ∀ x, column (row (s t).next) = some x → column r ≠ some x)
    (refers : ∀ ref ∈ references t, s.Resolves ref.parent (ref.column (row (s t).next))) :
    insertInto t row s = .ok ((s t).next,s.append t [row (s t).next]) :=
  insertIntoOk.mpr ⟨rfl,rfl,(valid.inserts (number _) refers).mpr ⟨draws,texts,distinct⟩⟩

structure Loggable (a : Audited) (s : DB) (old : Row a.table) (operationBlock : Option Int) : Prop where
  texts : ∀ c ∈ varchars a.table, fitsWidth c.width (c.column old) = true
  stored : a.deletes = false → key a.table old ∈ s.keys a.table
  refers : ∀ ref ∈ references a.table, s.Resolves ref.parent (ref.column old)
  operation : s.Resolves .blocks operationBlock

section References
variable {a : Audited} {s : DB}

def Audited.logged (a : Audited) (ref : Reference TableName (Row a.table)) : Reference TableName (Row a.log) :=
  ⟨fun e => ref.column (a.row e),ref.parent⟩

theorem logReferences (a : Audited) : references a.log =
    (if a.deletes then [] else [⟨fun e => some (a.layout.entity e),a.table⟩]) ++
      (((references a.table).map a.logged).take 1 ++
        ⟨a.written,.blocks⟩ :: if a.deletes then [] else ((references a.table).map a.logged).drop 1) := by
  cases a <;> rfl

theorem logReference {ref : Reference TableName (Row a.log)} (listed : ref ∈ references a.log) :
    (a.deletes = false ∧ ref = ⟨fun e => some (a.layout.entity e),a.table⟩) ∨ ref = ⟨a.written,.blocks⟩ ∨
      ∃ ref' ∈ references a.table, ref = a.logged ref' := by
  have row : ref ∈ (references a.table).map a.logged → ∃ ref' ∈ references a.table, ref = a.logged ref' := by
    intro mem
    obtain ⟨ref',listed',rfl⟩ := List.mem_map.mp mem
    exact ⟨ref',listed',rfl⟩
  rw [logReferences] at listed
  rcases List.mem_append.mp listed with entity | rest
  · cases deletes : a.deletes with
    | true => simp [deletes] at entity
    | false => exact Or.inl ⟨rfl,by simpa [deletes] using entity⟩
  · rcases List.mem_append.mp rest with first | rest
    · exact Or.inr (Or.inr (row (List.mem_of_mem_take first)))
    · rcases List.mem_cons.mp rest with written | later
      · exact Or.inr (Or.inl written)
      · cases deletes : a.deletes with
        | true => simp [deletes] at later
        | false =>
          rw [deletes] at later
          exact Or.inr (Or.inr (row (List.mem_of_mem_drop later)))

theorem copiedReference {ref : Reference TableName (Row a.table)} (listed : ref ∈ references a.table)
    (r : Row a.table) : ref.column (a.copied r) = ref.column r := by
  cases a <;> try rfl
  case fioRequests =>
    simp only [references, List.mem_cons, List.not_mem_nil, or_false] at listed
    rcases listed with rfl | rfl | rfl | rfl <;> rfl

theorem logTexts (a : Audited) :
    varchars a.log = (varchars a.table).map fun c => ⟨c.width,fun e => c.column (a.row e)⟩ := by
  cases a <;> rfl

theorem entryTexts (valid : s.Valid) {e : Row a.log} (mem : e ∈ (s a.log).rows) {c : Varchar (Row a.table)}
    (listed : c ∈ varchars a.table) : fitsWidth c.width (c.column (a.row e)) = true := by
  have inLog : (⟨c.width,fun e => c.column (a.row e)⟩ : Varchar (Row a.log)) ∈ varchars a.log := by
    rw [logTexts]
    exact List.mem_map_of_mem listed
  exact valid.fitsColumn inLog mem

theorem copiedTexts {r : Row a.table} {c : Varchar (Row a.table)} (listed : c ∈ varchars a.table)
    (fits : fitsWidth c.width (c.column r) = true) : fitsWidth c.width (c.column (a.copied r)) = true := by
  cases a <;> try exact fits
  case fioRequests =>
    simp only [varchars, List.mem_cons, List.not_mem_nil, or_false] at listed
    rcases listed with rfl | rfl <;> rfl

theorem headResolves : s.Resolves .blocks (DB.head s) := by
  cases top : DB.head s with
  | none => trivial
  | some h => exact (List.max?_eq_some_iff.mp top).1

end References

section Triggers
variable {a : Audited} {s : DB}

theorem Loggable.append {old : Row a.table} {block : Option Int} (loggable : Loggable a s old block)
    (entries : List (Row a.log)) : Loggable a (s.append a.log entries) old block where
  texts := loggable.texts
  stored := fun keeps => Database.keysAppendSub entries _ _ (loggable.stored keeps)
  refers := fun ref listed => Database.resolvesMono (Database.keysAppendSub entries _) (loggable.refers ref listed)
  operation := Database.resolvesMono (Database.keysAppendSub entries _) loggable.operation

theorem entryValid (valid : s.Valid) (draws : s.Draws a.log 1) {old : Row a.table} {block : Option Int}
    {operation : String} {e : Row a.log} (loggable : Loggable a s old block) (entry : Entry a s old block operation e)
    (number : key a.log e = (s a.log).next) : (s.append a.log [e]).Valid := by
  obtain ⟨fits,fresh⟩ := draws.one
  rw [← number] at fits fresh
  refine valid.insert (fitsIff.mpr ⟨fits,fun c listed => ?_⟩) fresh (fun column mem => ?_) fun ref listed => ?_
  · change c ∈ varchars a.log at listed
    rw [logTexts] at listed
    obtain ⟨c',listed',rfl⟩ := List.mem_map.mp listed
    change fitsWidth c'.width (c'.column (a.row e)) = true
    rw [entry.row]
    exact copiedTexts listed' (loggable.texts c' listed')
  · cases a <;> exact absurd mem List.not_mem_nil
  · rcases logReference listed with ⟨keeps,rfl⟩ | rfl | ⟨ref',listed',rfl⟩
    · have own : a.layout.entity e = key a.table old := by
        change key a.table (a.row e) = key a.table old
        rw [entry.row, a.keyCopied]
      change a.layout.entity e ∈ s.keys a.table
      rw [own]
      exact loggable.stored keeps
    · change s.Resolves .blocks (a.written e)
      rw [entry.written]
      exact loggable.operation
    · change s.Resolves ref'.parent (ref'.column (a.row e))
      rw [entry.row, copiedReference listed']
      exact loggable.refers ref' listed'

theorem triggersRun {trigger : Row a.table → Proc Unit} (block : DB → Row a.table → Option Int) {operation : String}
    (writes : ∀ old m, ∃ e, Entry a m old (block m old) operation e ∧ key a.log e = (m a.log).next ∧
      ∀ m', trigger old m = .ok ((),m') ↔ m' = m.append a.log [e] ∧ m'.Valid)
    (stable : ∀ m rows old, block (m.append a.log rows) old = block m old) {hits : List (Row a.table)}
    (valid : s.Valid) (draws : s.Draws a.log hits.length) (loggable : ∀ old ∈ hits, Loggable a s old (block s old)) :
    ∃ s', hits.forM trigger s = .ok ((),s') := by
  induction hits generalizing s with
  | nil => exact ⟨s,forMNil.mpr rfl⟩
  | cons old rest ih =>
    obtain ⟨e,entry,number,runs⟩ := writes old s
    rw [List.length_cons] at draws
    have valid' := entryValid valid (draws.less (by omega)) (loggable old List.mem_cons_self) entry number
    obtain ⟨s',later⟩ := ih valid' ((Database.drawsInsert number).mp draws).2 fun old' mem => by
      rw [stable]
      exact (loggable old' (List.mem_cons_of_mem _ mem)).append [e]
    exact ⟨s',forMCons.mpr ⟨_,(runs _).mpr ⟨rfl,valid'⟩,later⟩⟩

end Triggers

section Statements
variable {a : Audited} {s : DB}

theorem logDraws {m : DB} {n : Nat} (other : m a.log = s a.log) (draws : s.Draws a.log n) : m.Draws a.log n :=
  Database.drawsSub (by rw [other]) (fun k listed => by rwa [Database.keys, other] at listed) draws

theorem oneRow {x : Int} {assign : Row a.table → Row a.table} {m : DB} (valid : m.Valid)
    (draws : ∀ r ∈ (m a.table).rows, key a.table r = x → r ≠ assign r → m.Draws a.log 1) :
    m.Draws a.log (changed (fun r => decide (key a.table r = x)) assign (m a.table).rows).length := by
  cases hits : changed (fun r => decide (key a.table r = x)) assign (m a.table).rows with
  | nil => exact fun i lt => absurd lt (Nat.not_lt_zero i)
  | cons r rest =>
    have stored : ∀ r' ∈ r :: rest, r' ∈ (m a.table).rows ∧ key a.table r' = x ∧ r' ≠ assign r' := by
      intro r' mem
      rw [← hits] at mem
      obtain ⟨inRows,moves⟩ := List.mem_filter.mp mem
      simp only [Bool.and_eq_true, decide_eq_true_eq] at moves
      exact ⟨inRows,moves⟩
    obtain ⟨inRows,own,moves⟩ := stored r List.mem_cons_self
    have alone : rest = [] := by
      cases rest with
      | nil => rfl
      | cons r' _ =>
        obtain ⟨inRows',own',_⟩ := stored r' (by simp)
        have same : r = r' := valid.sameRow inRows inRows' (own.trans own'.symm)
        have nodup : (changed (fun r => decide (key a.table r = x)) assign (m a.table).rows).Nodup :=
          (List.Nodup.of_map _ (valid.keysNodup a.table)).sublist List.filter_sublist
        rw [hits] at nodup
        exact absurd (same ▸ List.mem_cons_self) (List.nodup_cons.mp nodup).1
    rw [alone]
    exact draws r inRows own moves

theorem updateRuns {p : Row a.table → Bool} {assign : Row a.table → Row a.table} (valid : s.Valid)
    (draws : s.Draws a.log (changed p assign (s a.table).rows).length)
    (keyed : ∀ r ∈ (s a.table).rows, p r = true → key a.table (assign r) = key a.table r)
    (target : (s.withRows a.table ((s a.table).rows.map (assigned p assign))).Valid) :
    ∃ s', update a.table p assign s = .ok ((),s') := by
  have keys := assignedKeys keyed
  have loggable : ∀ old ∈ changed p assign (s a.table).rows,
      Loggable a (s.withRows a.table ((s a.table).rows.map (assigned p assign))) old
        (a.updated (s.withRows a.table ((s a.table).rows.map (assigned p assign))) (assign old)) := by
    intro old hit
    obtain ⟨mem,holds⟩ := changedSub hit
    refine ⟨fun c listed => valid.fitsColumn listed mem,fun _ => ?_,fun ref listed => ?_,?_⟩
    · rw [Database.keysWithRows keys]
      exact List.mem_map_of_mem mem
    · rw [Database.resolvesCongr (Database.keysWithRows keys _)]
      exact valid.resolves listed mem
    · have moved : assign old ∈ ((s.withRows a.table ((s a.table).rows.map (assigned p assign))) a.table).rows := by
        rw [Database.withRowsSame]
        exact List.mem_map.mpr ⟨old,mem,if_pos holds⟩
      have stamp := target.resolves (blockReference a.tableBlocks) moved
      cases a <;> first
        | exact headResolves
        | exact stamp
  have other : (s.withRows a.table ((s a.table).rows.map (assigned p assign))) a.log = s a.log :=
    Database.withRowsOther _ a.logOther _
  obtain ⟨s',fired⟩ := triggersRun (fun m old => a.updated m (assign old))
    (fun old m => onUpdateWrites a old (assign old) m) (fun m rows old => updatedAppend m rows (assign old)) target
    (logDraws other draws) loggable
  exact ⟨s',updateWhereOk.mpr ⟨target,fired⟩⟩

theorem updateDraws {p : Row a.table → Bool} {assign : Row a.table → Row a.table} {s' : DB}
    (ran : update a.table p assign s = .ok ((),s')) : s.Draws a.log (changed p assign (s a.table).rows).length := by
  obtain ⟨entries,logged,rfl,_,valid'⟩ := updateWrites ran
  have other : (s.withRows a.table ((s a.table).rows.map (assigned p assign))) a.log = s a.log :=
    Database.withRowsOther _ a.logOther _
  rw [logged.each.length_eq]
  refine logDraws other.symm (Database.appendedDraws valid' fun i e at_ => ?_)
  rw [other]
  exact logged.drawn i e at_

theorem updatedDraws {p : Row a.table → Bool} {assign : Row a.table → Row a.table} {s' : DB} {m : Nat}
    (ran : update a.table p assign s = .ok ((),s')) :
    s.Draws a.log ((changed p assign (s a.table).rows).length + m) ↔ s'.Draws a.log m := by
  have draws := updateDraws ran
  obtain ⟨entries,logged,rfl,_,_⟩ := updateWrites ran
  have other : (s.withRows a.table ((s a.table).rows.map (assigned p assign))) a.log = s a.log :=
    Database.withRowsOther _ a.logOther _
  have length := logged.each.length_eq
  have left := Database.drawsAppend (n := m) (s := s.withRows a.table ((s a.table).rows.map (assigned p assign)))
    (t := a.log) fun i e at_ => by rw [other]; exact logged.drawn i e at_
  rw [length] at draws ⊢
  exact ⟨fun all => (left.mp (logDraws other all)).2,
    fun later => logDraws other.symm (left.mpr ⟨logDraws other draws,later⟩)⟩

def entryCount {ρ : Type} [DecidableEq ρ] (r r' : ρ) : Nat := if r' = r then 0 else 1

theorem changedOne {rows : List (Row a.table)} {r : Row a.table} (nodup : (rows.map (key a.table)).Nodup)
    (stored : r ∈ rows) (assign : Row a.table → Row a.table) :
    changed (fun x => decide (key a.table x = key a.table r)) assign rows = if assign r = r then [] else [r] := by
  have only : ∀ x ∈ rows, key a.table x = key a.table r → x = r := fun x mem => List.inj_on_of_nodup_map nodup mem stored
  by_cases same : assign r = r
  · rw [if_pos same]
    refine List.filter_eq_nil_iff.mpr fun x mem hit => ?_
    simp only [Bool.and_eq_true, decide_eq_true_eq] at hit
    rw [only x mem hit.1] at hit
    exact hit.2 same.symm
  · have one : changed (fun x => decide (key a.table x = key a.table r)) assign rows = rows.filter (· == r) := by
      refine List.filter_congr fun x mem => ?_
      by_cases own : x = r
      · simp [own, Ne.symm same]
      · have apart : key a.table x ≠ key a.table r := fun number => own (only x mem number)
        simp [apart, own]
    rw [one, if_neg same, List.filter_beq, List.count_eq_one_of_mem (List.Nodup.of_map _ nodup) stored]
    rfl

theorem changedCount {r : Row a.table} (valid : s.Valid) (stored : r ∈ (s a.table).rows)
    (assign : Row a.table → Row a.table) :
    (changed (fun x => decide (key a.table x = key a.table r)) assign (s a.table).rows).length =
      entryCount r (assign r) := by
  rw [changedOne (valid.keysNodup a.table) stored]
  unfold entryCount
  split <;> rfl

structure Settled (a : Audited) (p : Row a.table → Bool) (assign : Row a.table → Row a.table) (s s' : DB) : Prop where
  rows : (s' a.table).rows = (s a.table).rows.map (assigned p assign)
  next : (s' a.table).next = (s a.table).next
  others : ∀ t, t ≠ a.table → t ≠ a.log → s' t = s t
  valid : s'.Valid
  serial : s.Serial → s'.Serial

theorem updateSettles {p : Row a.table → Bool} {f : Row a.table → Row a.table} (valid : s.Valid)
    (draws : s.Draws a.log (changed p f (s a.table).rows).length)
    (keyed : ∀ r, key a.table (f r) = key a.table r) (kept : ∀ column ∈ unique a.table, ∀ r, column (f r) = column r)
    (texts : ∀ c ∈ varchars a.table, ∀ r ∈ (s a.table).rows, p r = true → fitsWidth c.width (c.column (f r)) = true)
    (refers : ∀ ref ∈ references a.table, ∀ r ∈ (s a.table).rows, p r = true → s.Resolves ref.parent (ref.column (f r))) :
    ∃ s', update a.table p f s = .ok ((),s') ∧ Settled a p f s s' := by
  have numbers : ∀ r ∈ (s a.table).rows, p r = true → key a.table (f r) = key a.table r := fun r _ _ => keyed r
  have target : (s.withRows a.table ((s a.table).rows.map (assigned p f))).Valid := by
    refine valid.rewrite (fun r mem => ?_) (assignedKept numbers) (fun column listed r _ => ?_) fun ref listed r mem => ?_
    · unfold assigned
      split
      · rename_i hit
        refine fitsIff.mpr ⟨?_,fun c listed => texts c listed r mem hit⟩
        rw [show relic.key a.table (f r) = key a.table r from keyed r]
        exact (fitsIff.mp (valid.fits mem)).1
      · exact valid.fits mem
    · unfold assigned
      split
      · exact kept column listed r
      · rfl
    · unfold assigned
      split
      · rename_i hit
        exact refers ref listed r mem hit
      · exact valid.resolves listed mem
  obtain ⟨s',ran⟩ := updateRuns valid draws numbers target
  refine ⟨s',ran,?_⟩
  obtain ⟨entries,logged,rfl,_,valid'⟩ := updateWrites ran
  have sub : (((s a.table).rows.map (assigned p f)).map (key a.table)).Sublist (s.keys a.table) := by
    rw [assignedKeys numbers]
  refine ⟨?_,?_,fun t table log => ?_,valid',fun serial => writtenSerial serial sub logged.drawn⟩
  · rw [Database.appendOther _ a.logOther.symm, Database.withRowsSame]
  · rw [Database.appendOther _ a.logOther.symm, Database.withRowsSame]
  · rw [Database.appendOther _ log, Database.withRowsOther _ table]

theorem deleteRuns (deletes : a.deletes = true) {p : Row a.table → Bool} (valid : s.Valid)
    (draws : s.Draws a.log ((s a.table).rows.filter p).length)
    (target : (s.withRows a.table ((s a.table).rows.filter fun r => !p r)).Valid) :
    ∃ s', delete a.table p s = .ok ((),s') := by
  have others : ∀ t, t ≠ a.table →
      (s.withRows a.table ((s a.table).rows.filter fun r => !p r)).keys t = s.keys t := by
    intro t other
    unfold Database.keys
    rw [Database.withRowsOther _ other]
  have loggable : ∀ old ∈ (s a.table).rows.filter p,
      Loggable a (s.withRows a.table ((s a.table).rows.filter fun r => !p r)) old
        (DB.head (s.withRows a.table ((s a.table).rows.filter fun r => !p r))) := by
    intro old hit
    have mem := (List.mem_filter.mp hit).1
    refine ⟨fun c listed => valid.fitsColumn listed mem,fun keeps => ?_,fun ref listed => ?_,headResolves⟩
    · rw [keeps] at deletes
      cases deletes
    · have apart : ref.parent ≠ a.table := by
        cases a <;> simp only [references, List.mem_cons, List.not_mem_nil, or_false] at listed <;> try contradiction
        case pubAddresses => rcases listed with rfl | rfl <;> decide
        case nftSignatures => rcases listed with rfl | rfl <;> decide
      rw [Database.resolvesCongr (others ref.parent apart)]
      exact valid.resolves listed mem
  obtain ⟨s',fired⟩ := triggersRun (fun m _ => DB.head m) (fun old m => onDeleteWrites deletes old m)
    (fun m rows _ => DB.headAppend a.logBlocks rows) target
    (logDraws (Database.withRowsOther _ a.logOther _) draws) loggable
  exact ⟨s',deleteWhereOk.mpr ⟨target,fired⟩⟩

theorem deleteDraws (deletes : a.deletes = true) {p : Row a.table → Bool} {s' : DB}
    (ran : delete a.table p s = .ok ((),s')) : s.Draws a.log ((s a.table).rows.filter p).length := by
  obtain ⟨entries,logged,rfl,_,valid'⟩ := deleteWrites deletes ran
  have other : (s.withRows a.table ((s a.table).rows.filter fun r => !p r)) a.log = s a.log :=
    Database.withRowsOther _ a.logOther _
  rw [logged.each.length_eq]
  refine logDraws other.symm (Database.appendedDraws valid' fun i e at_ => ?_)
  rw [other]
  exact logged.drawn i e at_

/- Nothing refers to a row that a trigger on DELETE logs, so such a row can always go. -/
theorem deleteSettles (deletes : a.deletes = true) (valid : s.Valid) (p : Row a.table → Bool)
    (draws : s.Draws a.log ((s a.table).rows.filter p).length) :
    ∃ s', delete a.table p s = .ok ((),s') ∧ (s' a.table).rows = (s a.table).rows.filter (fun r => !p r) ∧
      ∀ t, t ≠ a.table → t ≠ a.log → s' t = s t := by
  have target : (s.withRows a.table ((s a.table).rows.filter fun r => !p r)).Valid := by
    refine valid.remove fun u ref listed parent => ?_
    have apart : ref.parent ≠ a.table := by
      cases a <;> cases deletes <;> revert ref <;> cases u <;> simp [references, Audited.table]
    exact absurd parent apart
  obtain ⟨s',ran⟩ := deleteRuns deletes valid draws target
  refine ⟨s',ran,?_⟩
  obtain ⟨entries,_,rfl,_,_⟩ := deleteWrites deletes ran
  refine ⟨?_,fun t table log => ?_⟩
  · rw [Database.appendOther _ a.logOther.symm, Database.withRowsSame]
  · rw [Database.appendOther _ log, Database.withRowsOther _ table]

end Statements
end FioRelic
