import Mathlib
import FioRelic.Progress

/-! What an rb function does. Its cursor names, for every key with an entry at or after
the block, the first of these entries; the loop writes each back. A key that is no
longer stored comes back under a fresh one. -/
namespace FioRelic
open Relational Versioning

section Cursor
variable {α : Type} {log : List α} {id entity : α → Int} {operation : α → Option Int} {b : Option Int}

theorem minFirst {xs : List α} (sorted : (xs.map id).Pairwise (· < ·)) :
    (xs.map id).min? = xs.head?.map id := by
  cases xs with
  | nil => rfl
  | cons x xs =>
    have least := (List.pairwise_cons.mp sorted).1
    rw [List.head?_cons, Option.map_some, List.min?_eq_some_iff]
    refine ⟨List.mem_cons_self,fun n mem => ?_⟩
    rcases List.mem_cons.mp mem with rfl | later
    · exact Int.le_refl _
    · exact Int.le_of_lt (least n later)

theorem cursorGroup (sorted : (log.map id).Pairwise (· < ·)) {g : Group}
    (mem : g ∈ cursor log id entity operation b) :
    ∃ e, log.find? (fun a => decide (entity a = g.entity) && atLeast (operation a) b) = some e ∧
      g.least = some (id e) := by
  unfold cursor at mem
  obtain ⟨x,listed,rfl⟩ := List.mem_map.mp mem
  obtain ⟨a,hit,same⟩ := List.mem_map.mp (List.mem_dedup.mp listed)
  have first : (((log.filter fun a => atLeast (operation a) b).filter fun a => decide (entity a = x)).map id).min? =
      (log.find? fun a => decide (entity a = x) && atLeast (operation a) b).map id := by
    have sub := (List.filter_sublist (p := fun a => decide (entity a = x))).trans
      (List.filter_sublist (p := fun a => atLeast (operation a) b) (l := log))
    rw [minFirst (sorted.sublist (sub.map id)), List.filter_filter, List.head?_filter]
  cases found : log.find? fun a => decide (entity a = x) && atLeast (operation a) b with
  | none =>
    obtain ⟨inLog,late⟩ := List.mem_filter.mp hit
    have missed := List.find?_eq_none.mp found a inLog
    simp [same, late] at missed
  | some e => exact ⟨e,rfl,by rw [first, found]; rfl⟩

theorem cursorEntities : (cursor log id entity operation b).map Group.entity =
    ((log.filter fun a => atLeast (operation a) b).map entity).dedup := by
  unfold cursor
  rw [List.map_map]
  exact List.map_id _

theorem cursorNodup : ((cursor log id entity operation b).map Group.entity).Nodup := by
  rw [cursorEntities]
  exact List.nodup_dedup _

theorem cursorListed {x : Int} : x ∈ (cursor log id entity operation b).map Group.entity ↔
    log.find? (fun a => decide (entity a = x) && atLeast (operation a) b) ≠ none := by
  rw [cursorEntities, List.mem_dedup, List.mem_map, Ne, List.find?_eq_none]
  constructor
  · intro ⟨a,hit,same⟩ missed
    obtain ⟨inLog,late⟩ := List.mem_filter.mp hit
    exact missed a inLog (by simp [same, late])
  · intro found
    by_contra missed
    refine found fun a inLog hit => missed ⟨a,?_⟩
    simp only [Bool.and_eq_true, decide_eq_true_eq] at hit
    exact ⟨List.mem_filter.mpr ⟨inLog,hit.2⟩,hit.1⟩

end Cursor
def Audited.original (a : Audited) (cut : Option Int) (log : List (Row a.log)) (r : Row a.table) : Row a.table :=
  match a.layout.replaced cut log (key a.table r) with
  | some e => a.row e
  | none => r

def Audited.returned (a : Audited) (cut : Option Int) (log : List (Row a.log)) (xs : List Int) (r : Row a.table) :
    Row a.table := if key a.table r ∈ xs then a.original cut log r else r

section
variable {a : Audited} {cut : Option Int} {log : List (Row a.log)}

theorem originalKey (r : Row a.table) : key a.table (a.original cut log r) = key a.table r := by
  unfold Audited.original
  split
  · rename_i e first
    exact (replacedSpec first).2.1
  · rfl

theorem returnedKey (xs : List Int) (r : Row a.table) :
    key a.table (a.returned cut log xs r) = key a.table r := by
  unfold Audited.returned
  split
  · exact originalKey r
  · rfl

theorem originalOf {r : Row a.table} {e : Row a.log}
    (first : a.layout.replaced cut log (key a.table r) = some e) : a.original cut log r = a.row e := by
  unfold Audited.original
  rw [first]

theorem returnedCons {x : Int} {xs : List Int} (fresh : x ∉ xs) (r : Row a.table) :
    a.returned cut log xs (a.returned cut log [x] r) = a.returned cut log (x :: xs) r := by
  by_cases own : key a.table r = x
  · have single : a.returned cut log [x] r = a.original cut log r := if_pos (own ▸ List.mem_cons_self)
    have both : a.returned cut log (x :: xs) r = a.original cut log r := if_pos (own ▸ List.mem_cons_self)
    rw [single, both]
    exact if_neg (by rwa [originalKey, own])
  · have single : a.returned cut log [x] r = r := if_neg (by simpa using own)
    rw [single]
    unfold Audited.returned
    simp only [List.mem_cons, own, false_or]

theorem returnedNil (rows : List (Row a.table)) : rows.map (a.returned cut log []) = rows := by
  have still : ∀ r, a.returned cut log [] r = r := fun r => if_neg List.not_mem_nil
  exact List.map_id'' still rows

theorem returnedMissing {x : Int} {xs : List Int} {rows : List (Row a.table)}
    (missing : x ∉ rows.map (key a.table)) :
    rows.map (a.returned cut log (x :: xs)) = rows.map (a.returned cut log xs) := by
  refine List.map_congr_left fun r mem => ?_
  have other : key a.table r ≠ x := fun same => missing (List.mem_map.mpr ⟨r,mem,same⟩)
  unfold Audited.returned
  simp only [List.mem_cons, other, false_or]

end

def Audited.rewrites (a : Audited) (cut : Option Int) (log : List (Row a.log)) (xs : List Int)
    (rows : List (Row a.table)) : Nat := rows.countP fun r => decide (r ≠ a.returned cut log xs r)

section
variable {a : Audited} {cut : Option Int} {log : List (Row a.log)} {x : Int} {xs : List Int} {rows : List (Row a.table)}

theorem rewritesStill (still : ∀ r ∈ rows, key a.table r ∉ xs) : a.rewrites cut log xs rows = 0 := by
  refine List.countP_eq_zero.mpr fun r mem moves => of_decide_eq_true moves ?_
  exact (if_neg (still r mem)).symm

theorem rewritesCons (fresh : x ∉ xs) : a.rewrites cut log (x :: xs) rows =
    a.rewrites cut log [x] rows + a.rewrites cut log xs (rows.map (a.returned cut log [x])) := by
  induction rows with
  | nil => rfl
  | cons r rest ih =>
    unfold Audited.rewrites at ih ⊢
    rw [List.map_cons, List.countP_cons, List.countP_cons, List.countP_cons, ih, returnedCons fresh]
    -- A row of the key x is rewritten first or not at all.
    by_cases own : key a.table r = x
    · have left : a.returned cut log (x :: xs) r = a.returned cut log [x] r := by
        unfold Audited.returned
        simp [own]
      have later : a.returned cut log (x :: xs) r = a.returned cut log xs (a.returned cut log [x] r) :=
        (returnedCons fresh r).symm
      rw [left]
      simp only [ne_eq, not_true, decide_false, Bool.false_eq_true, if_false]
      omega
    · have single : a.returned cut log [x] r = r := if_neg (by simpa using own)
      rw [single]
      simp only [ne_eq, not_true, decide_false, Bool.false_eq_true, if_false]
      omega

theorem rewritesAppend {rows' : List (Row a.table)} : a.rewrites cut log xs (rows ++ rows') =
    a.rewrites cut log xs rows + a.rewrites cut log xs rows' := List.countP_append

end

structure Framed (a : Audited) (m m' : DB) : Prop where
  others : ∀ t, t ≠ a.table → t ≠ a.log → m' t = m t
  next : ∀ t, (m t).next ≤ (m' t).next
  valid : m'.Valid
  serial : m'.Serial

structure Restorable (a : Audited) (m : DB) (e : Row a.log) : Prop where
  operation : a.deletes = false → a.operation e = "update"
  stored : a.deletes = false → a.layout.entity e ∈ m.keys a.table
  fixed : ∀ r ∈ (m a.table).rows, key a.table r = a.layout.entity e → a.fixed r = a.fixed (a.row e)
  texts : ∀ c ∈ varchars a.table, fitsWidth c.width (c.column (a.row e)) = true
  logs : ∀ r ∈ (m a.table).rows, key a.table r = a.layout.entity e → r ≠ a.row e → m.Draws a.log 1
  draws : a.layout.entity e ∉ m.keys a.table → m.Draws a.table 1
  refers : ∀ ref ∈ references a.table, m.Resolves ref.parent (ref.column (a.row e))

structure Undoes (a : Audited) (back : Row a.log → Row a.table → Prop) (undo : Int → Row a.log → Proc Unit) :
    Prop where
  stored : ∀ {m m' : DB} {e : Row a.log}, a.layout.entity e ∈ m.keys a.table →
    undo (a.layout.entity e) e m = .ok ((),m') → ∃ assign : Row a.table → Row a.table,
      (∀ r, key a.table r = a.layout.entity e → a.fixed r = a.fixed (a.row e) → assign r = a.row e) ∧
      update a.table (fun r => decide (key a.table r = a.layout.entity e)) assign m = .ok ((),m')
  missing : a.deletes = true → ∀ {m m' : DB} {e : Row a.log}, a.layout.entity e ∉ m.keys a.table →
    undo (a.layout.entity e) e m = .ok ((),m') → ∃ (row : Int → Row a.table) (k : Int),
      (∀ pk, key a.table (row pk) = pk ∧ back e (row pk)) ∧ insertInto a.table row m = .ok (k,m')
  framed : ∀ {m m' : DB} {x : Int} {e : Row a.log}, m.Serial → undo x e m = .ok ((),m') → Framed a m m'
  runs : ∀ {m : DB} {e : Row a.log}, m.Valid → Restorable a m e →
    ∃ m', undo (a.layout.entity e) e m = .ok ((),m')

structure Undone (a : Audited) (back : Row a.log → Row a.table → Prop) (cut : Option Int) (log : List (Row a.log))
    (xs : List Int) (m m' : DB) (fresh : List (Row a.table)) (extra : List (Row a.log)) : Prop where
  others : ∀ t, t ≠ a.table → t ≠ a.log → m' t = m t
  rows : (m' a.table).rows = (m a.table).rows.map (a.returned cut log xs) ++ fresh
  logged : (m' a.log).rows = (m a.log).rows ++ extra
  late : ∀ e ∈ extra, a.layout.lateEntry cut e = true
  copied : List.Forall₂ (fun x r => ∃ e, a.layout.replaced cut log x = some e ∧ back e r)
    (xs.filter fun x => decide (x ∉ m.keys a.table)) fresh
  drawn : Drawn a.table (m a.table).next fresh
  counted : (m' a.table).next = (m a.table).next + fresh.length
  rewritten : extra.length = a.rewrites cut log xs (m a.table).rows
  logNext : (m' a.log).next = (m a.log).next + extra.length
  logDrawn : Drawn a.log (m a.log).next extra
  next : ∀ t, (m t).next ≤ (m' t).next
  valid : m'.Valid
  serial : m'.Serial

section Loop
variable {a : Audited} {back : Row a.log → Row a.table → Prop} {undo : Int → Row a.log → Proc Unit}
  {cut : Option Int} {log : List (Row a.log)} {m m' : DB}

theorem undoneStored (serial : m.Serial) {x : Int} {e : Row a.log}
    (first : a.layout.replaced cut log x = some e) (stored : x ∈ m.keys a.table)
    (undoable : ∀ r ∈ (m a.table).rows, key a.table r = x → a.fixed r = a.fixed (a.row e) ∧
      ∀ entry, a.row entry = a.copied r → a.written entry = a.updated m (a.row e) →
        a.layout.lateEntry cut entry = true)
    {assign : Row a.table → Row a.table}
    (assigns : ∀ r, key a.table r = x → a.fixed r = a.fixed (a.row e) → assign r = a.row e)
    (ran : update a.table (fun r => decide (key a.table r = x)) assign m = .ok ((),m')) :
    ∃ extra, Undone a back cut log [x] m m' [] extra := by
  obtain ⟨entries,logged,rfl,_,valid'⟩ := updateWrites ran
  have entity : key a.table (a.row e) = x := (replacedSpec first).2.1
  have keyed : ∀ r ∈ (m a.table).rows, decide (key a.table r = x) = true →
      key a.table (assign r) = key a.table r := by
    intro r mem hit
    have own := of_decide_eq_true hit
    rw [assigns r own (undoable r mem own).1, entity, own]
  refine ⟨entries,?_⟩
  constructor
  · intro t other other'
    rw [Database.appendOther _ other', Database.withRowsOther _ other]
  · rw [Database.appendOther _ a.logOther.symm, Database.withRowsSame, List.append_nil]
    refine List.map_congr_left fun r mem => ?_
    unfold assigned Audited.returned
    by_cases own : key a.table r = x
    · rw [if_pos (decide_eq_true own), if_pos (by rw [own]; exact List.mem_cons_self),
        assigns r own (undoable r mem own).1, originalOf (own ▸ first)]
    · rw [if_neg (by simpa using own), if_neg (by simpa using own)]
  · rw [Database.appendSame, Database.withRowsOther _ a.logOther]
  · intro entry mem
    obtain ⟨old,hit,facts⟩ := entriesSource logged mem
    obtain ⟨inRows,holds⟩ := changedSub hit
    have own := of_decide_eq_true holds
    obtain ⟨fixed,late⟩ := undoable old inRows own
    exact late entry facts.row (by rw [facts.written, assigns old own fixed])
  · rw [List.filter_cons_of_neg (by simpa using stored)]
    exact .nil
  · intro i r at_
    simp at at_
  · rw [Database.appendOther _ a.logOther.symm, Database.withRowsSame]
    simp
  · rw [← logged.each.length_eq]
    unfold changed Audited.rewrites
    rw [← List.countP_eq_length_filter]
    refine List.countP_congr fun r mem => ?_
    unfold Audited.returned
    by_cases own : key a.table r = x
    · rw [if_pos (by rw [own]; exact List.mem_cons_self), assigns r own (undoable r mem own).1,
        originalOf (own ▸ first)]
      simp [own]
    · rw [if_neg (by simpa using own)]
      simp [own]
  · rw [Database.appendSame, Database.withRowsOther _ a.logOther]
  · exact logged.drawn
  · intro t
    exact withRowsNext m a.table t _ ▸ appendNext (m.withRows a.table _) a.log t entries
  · exact valid'
  · exact writtenSerial serial (assignedKeys keyed ▸ List.Sublist.refl _) logged.drawn

theorem drawnNil {t : TableName} {start : Int} : Drawn t start [] := fun i r at_ => by simp at at_

theorem drawnAppend {t : TableName} {start : Int} {rows rows' : List (Row t)} (drawn : Drawn t start rows)
    (drawn' : Drawn t (start + rows.length) rows') : Drawn t start (rows ++ rows') := by
  intro i r at_
  rcases Nat.lt_or_ge i rows.length with old | new
  · rw [List.getElem?_append_left old] at at_
    exact drawn i r at_
  · rw [List.getElem?_append_right new] at at_
    have := drawn' _ r at_
    omega

theorem undoneMissing (serial : m.Serial) {x : Int} {e : Row a.log}
    (first : a.layout.replaced cut log x = some e) (missing : x ∉ m.keys a.table) {row : Int → Row a.table} {k : Int}
    (rows : ∀ pk, key a.table (row pk) = pk ∧ back e (row pk)) (ran : insertInto a.table row m = .ok (k,m')) :
    Undone a back cut log [x] m m' [row (m a.table).next] [] := by
  obtain ⟨_,rfl,valid'⟩ := insertIntoOk.mp ran
  constructor
  · intro t other _
    rw [Database.appendOther _ other]
  · rw [Database.appendSame, returnedMissing missing, returnedNil]
  · rw [Database.appendOther _ a.logOther, List.append_nil]
  · intro entry mem
    cases mem
  · rw [List.filter_cons_of_pos (by simpa using missing)]
    exact .cons ⟨e,first,(rows _).2⟩ .nil
  · intro i r at_
    cases i with
    | zero =>
      cases Option.some.inj at_
      simpa using (rows (m a.table).next).1
    | succ i => simp at at_
  · rw [Database.appendSame]
  · exact (rewritesStill fun r mem listed => missing
      (List.mem_map.mpr ⟨r,mem,List.mem_singleton.mp listed⟩)).symm
  · rw [Database.appendOther _ a.logOther]
    exact (Int.add_zero _).symm
  · exact drawnNil
  · exact fun t => appendNext m a.table t _
  · exact valid'
  · exact insertedSerial serial (rows _).1

theorem drawnRoom {t : TableName} {rows : List (Row t)} (valid : m'.Valid) (stored : ∀ r ∈ rows, r ∈ (m' t).rows)
    (drawn : Drawn t (m t).next rows) : m.Room t rows.length := by
  intro i lt
  rw [← drawn i _ (List.getElem?_eq_getElem lt)]
  exact (fitsIff.mp (valid.fits (stored _ (List.getElem_mem lt)))).1

theorem undoneNil (valid : m.Valid) (serial : m.Serial) : Undone a back cut log [] m m [] [] where
  others := fun _ _ _ => rfl
  rows := by rw [returnedNil, List.append_nil]
  logged := (List.append_nil _).symm
  late := fun _ mem => by cases mem
  copied := .nil
  drawn := drawnNil
  counted := by simp
  rewritten := (rewritesStill fun _ _ listed => absurd listed List.not_mem_nil).symm
  logNext := by simp
  logDrawn := drawnNil
  next := fun _ => Int.le_refl _
  valid := valid
  serial := serial

theorem drawnKey {t : TableName} {start : Int} {rows : List (Row t)} (drawn : Drawn t start rows) {r : Row t}
    (mem : r ∈ rows) : start ≤ key t r := by
  obtain ⟨i,hi,rfl⟩ := List.mem_iff_getElem.mp mem
  have := drawn i _ (List.getElem?_eq_getElem hi)
  omega

theorem undoneFresh {xs ys : List Int} {fresh : List (Row a.table)} {extra : List (Row a.log)}
    (issued : ∀ y ∈ ys, y < (m a.table).next) (undone : Undone a back cut log xs m m' fresh extra) :
    ∀ r ∈ fresh, key a.table r ∉ ys := fun r mem listed => by
  have := issued _ listed
  have := drawnKey undone.drawn mem
  omega

theorem undoneIssued {xs ys : List Int} {fresh : List (Row a.table)} {extra : List (Row a.log)}
    (issued : ∀ y ∈ ys, y < (m a.table).next) (undone : Undone a back cut log xs m m' fresh extra) :
    ∀ y ∈ ys, (y ∈ m'.keys a.table ↔ y ∈ m.keys a.table) := by
  intro y listed
  have split : m'.keys a.table = m.keys a.table ++ fresh.map (key a.table) := by
    unfold Database.keys
    rw [undone.rows, List.map_append, List.map_map]
    congr 1
    exact List.map_congr_left fun r _ => returnedKey xs r
  rw [split, List.mem_append]
  refine ⟨fun h => h.elim id fun drawn => ?_,Or.inl⟩
  obtain ⟨r,mem,rfl⟩ := List.mem_map.mp drawn
  exact absurd listed (undoneFresh issued undone r mem)

theorem undoneLeft {xs ys : List Int} {fresh : List (Row a.table)} {extra : List (Row a.log)}
    (issued : ∀ y ∈ ys, y < (m a.table).next) (undone : Undone a back cut log xs m m' fresh extra) :
    ys.filter (fun y => decide (y ∉ m'.keys a.table)) = ys.filter fun y => decide (y ∉ m.keys a.table) :=
  List.filter_congr fun y listed => by simp only [undoneIssued issued undone y listed]

theorem undoneCons {x : Int} {xs : List Int} {middle : DB} {fresh fresh' : List (Row a.table)}
    {extra extra' : List (Row a.log)} (once : x ∉ xs) (issued : ∀ y ∈ xs, y < (m a.table).next)
    (first : Undone a back cut log [x] m middle fresh extra)
    (rest : Undone a back cut log xs middle m' fresh' extra') :
    Undone a back cut log (x :: xs) m m' (fresh ++ fresh') (extra ++ extra') := by
  have unlisted := undoneFresh issued first
  have still : fresh.map (a.returned cut log xs) = fresh := by
    conv_rhs => rw [← List.map_id fresh]
    exact List.map_congr_left fun r mem => if_neg (unlisted r mem)
  constructor
  · intro t other other'
    rw [rest.others t other other', first.others t other other']
  · rw [rest.rows, first.rows, List.map_append, List.map_map, still, List.append_assoc]
    congr 1
    exact List.map_congr_left fun r _ => returnedCons once r
  · rw [rest.logged, first.logged, List.append_assoc]
  · intro entry mem
    exact (List.mem_append.mp mem).elim (first.late entry) (rest.late entry)
  · have parts := List.rel_append first.copied rest.copied
    simp only [undoneLeft issued first, ← List.filter_append] at parts
    exact parts
  · exact drawnAppend first.drawn (first.counted ▸ rest.drawn)
  · rw [rest.counted, first.counted, List.length_append]
    omega
  · rw [List.length_append, first.rewritten, rest.rewritten, first.rows, rewritesAppend, rewritesStill unlisted,
      rewritesCons once, Nat.add_zero]
  · rw [rest.logNext, first.logNext, List.length_append]
    omega
  · exact drawnAppend first.logDrawn (first.logNext ▸ rest.logDrawn)
  · exact fun t => Int.le_trans (first.next t) (rest.next t)
  · exact rest.valid
  · exact rest.serial

def Undoable (a : Audited) (cut : Option Int) (log : List (Row a.log)) (m : DB) (xs : List Int) : Prop :=
  ∀ x ∈ xs, ∀ r ∈ (m a.table).rows, key a.table r = x → ∀ e, a.layout.replaced cut log x = some e →
    a.fixed r = a.fixed (a.row e) ∧
      ∀ entry, a.row entry = a.copied r → a.written entry = a.updated m (a.row e) →
        a.layout.lateEntry cut entry = true

theorem undoableStep {x : Int} {xs : List Int} {middle : DB} {fresh : List (Row a.table)}
    {extra : List (Row a.log)} (once : x ∉ xs) (issued : ∀ y ∈ xs, y < (m a.table).next)
    (undoable : Undoable a cut log m (x :: xs)) (step : Undone a back cut log [x] m middle fresh extra) :
    Undoable a cut log middle xs := by
  intro y listed r mem own e first
  rw [step.rows] at mem
  rcases List.mem_append.mp mem with old | new
  · obtain ⟨r',inRows,rfl⟩ := List.mem_map.mp old
    rw [returnedKey] at own
    have other : key a.table r' ≠ x := fun same => once (same ▸ own ▸ listed)
    have still : a.returned cut log [x] r' = r' := if_neg (by simpa using other)
    rw [still]
    obtain ⟨fixed,late⟩ := undoable y (List.mem_cons_of_mem _ listed) r' inRows own e first
    refine ⟨fixed,fun entry row written => late entry row (written.trans ?_)⟩
    have blocks := step.others .blocks a.tableBlocks.symm a.logBlocks.symm
    cases a <;> simp only [Audited.updated, DB.head, DB.blockNumbers, blocks]
  · have := issued y listed
    have := drawnKey step.drawn new
    omega

theorem rollbackRowOk {g : Group} : rollbackRow a.log (key a.log) undo g m = .ok ((),m') ↔
    ∃ entry, (m a.log).rows.find? (fun e => same (some (key a.log e)) g.least) = some entry ∧
      undo g.entity entry m = .ok ((),m') := by
  unfold rollbackRow
  rw [readOk]
  cases (m a.log).rows.find? fun e => same (some (key a.log e)) g.least with
  | none => exact ⟨fun ran => absurd ran throwOk,fun ⟨_,found,_⟩ => by cases found⟩
  | some entry => exact ⟨fun ran => ⟨entry,rfl,ran⟩,fun ⟨_,found,ran⟩ => by cases found; exact ran⟩

theorem bodyOk (valid : m.Valid) {g : Group} {e : Row a.log} (mem : e ∈ (m a.log).rows)
    (least : g.least = some (key a.log e)) (entity : a.layout.entity e = g.entity) :
    rollbackRow a.log (key a.log) undo g m = .ok ((),m') ↔ undo (a.layout.entity e) e m = .ok ((),m') := by
  have read : (m a.log).rows.find? (fun e' => same (some (key a.log e')) g.least) = some e := by
    rw [least]
    cases found : (m a.log).rows.find? fun e' => same (some (key a.log e')) (some (key a.log e)) with
    | none => exact absurd (decide_eq_true rfl) (List.find?_eq_none.mp found e mem)
    | some entry =>
      have hit := List.find?_some found
      rw [sameSome, decide_eq_true_eq] at hit
      rw [valid.sameRow (List.mem_of_find?_eq_some found) mem hit]
  rw [rollbackRowOk, entity]
  constructor
  · intro ⟨entry,found,undid⟩
    rw [read] at found
    cases found
    exact undid
  · exact fun undid => ⟨e,read,undid⟩

theorem undoneKeys {xs : List Int} {fresh : List (Row a.table)} {extra : List (Row a.log)}
    (undone : Undone a back cut log xs m m' fresh extra) (t : TableName) : ∀ k ∈ m.keys t, k ∈ m'.keys t := by
  intro k mem
  unfold Database.keys at mem ⊢
  by_cases table : t = a.table
  · subst table
    rw [undone.rows, List.map_append, List.map_map]
    have same : (m a.table).rows.map (key a.table ∘ a.returned cut log xs) = (m a.table).rows.map (key a.table) :=
      List.map_congr_left fun r _ => returnedKey xs r
    exact List.mem_append_left _ (same ▸ mem)
  · by_cases logs : t = a.log
    · subst logs
      rw [undone.logged, List.map_append]
      exact List.mem_append_left _ mem
    · rwa [undone.others t table logs]

structure Looping (a : Audited) (cut : Option Int) (log : List (Row a.log)) (m : DB) (gs : List Group) : Prop where
  logged : ∀ e ∈ log, e ∈ (m a.log).rows
  valid : m.Valid
  serial : m.Serial
  once : (gs.map Group.entity).Nodup
  issued : ∀ y ∈ gs.map Group.entity, y < (m a.table).next
  stored : a.deletes = false → ∀ y ∈ gs.map Group.entity, y ∈ m.keys a.table
  undoable : Undoable a cut log m (gs.map Group.entity)
  firsts : ∀ g ∈ gs, ∃ e, a.layout.replaced cut log g.entity = some e ∧ g.least = some (key a.log e)

theorem loopingStep (undoes : Undoes a back undo) {g : Group} {rest : List Group}
    (looping : Looping a cut log m (g :: rest)) (body : rollbackRow a.log (key a.log) undo g m = .ok ((),m')) :
    ∃ fresh extra, Undone a back cut log [g.entity] m m' fresh extra ∧ Looping a cut log m' rest := by
  obtain ⟨e,first,least⟩ := looping.firsts g List.mem_cons_self
  obtain ⟨inLog,entity,_⟩ := replacedSpec first
  obtain ⟨unlisted,once⟩ := List.nodup_cons.mp looping.once
  have undid := (bodyOk looping.valid (looping.logged e inLog) least entity).mp body
  have single : ∃ fresh extra, Undone a back cut log [g.entity] m m' fresh extra := by
    by_cases present : g.entity ∈ m.keys a.table
    · obtain ⟨assign,assigns,ran⟩ := undoes.stored (entity ▸ present) undid
      rw [entity] at assigns ran
      obtain ⟨extra,done⟩ := undoneStored looping.serial first present
        (fun r mem own => looping.undoable g.entity List.mem_cons_self r mem own e first) assigns ran
      exact ⟨[],extra,done⟩
    · have deletes : a.deletes = true := by
        cases keeps : a.deletes with
        | true => rfl
        | false => exact absurd (looping.stored keeps g.entity List.mem_cons_self) present
      obtain ⟨row,k,rows,ran⟩ := undoes.missing deletes (entity ▸ present) undid
      exact ⟨[row (m a.table).next],[],undoneMissing looping.serial first present rows ran⟩
  obtain ⟨fresh,extra,step⟩ := single
  have issued : ∀ y ∈ rest.map Group.entity, y < (m a.table).next :=
    fun y listed => looping.issued y (List.mem_cons_of_mem _ listed)
  refine ⟨fresh,extra,step,?_⟩
  constructor
  · intro e' mem
    rw [step.logged]
    exact List.mem_append_left _ (looping.logged e' mem)
  · exact step.valid
  · exact step.serial
  · exact once
  · exact fun y listed => Int.lt_of_lt_of_le (issued y listed) (step.next a.table)
  · exact fun keeps y listed => undoneKeys step a.table y (looping.stored keeps y (List.mem_cons_of_mem _ listed))
  · exact undoableStep unlisted issued looping.undoable step
  · exact fun g' mem => looping.firsts g' (List.mem_cons_of_mem _ mem)

theorem loopWritesBack (undoes : Undoes a back undo) {gs : List Group} (looping : Looping a cut log m gs)
    (ran : gs.forM (rollbackRow a.log (key a.log) undo) m = .ok ((),m')) :
    ∃ fresh extra, Undone a back cut log (gs.map Group.entity) m m' fresh extra := by
  induction gs generalizing m with
  | nil =>
    cases forMNil.mp ran
    exact ⟨[],[],undoneNil looping.valid looping.serial⟩
  | cons g rest ih =>
    obtain ⟨middle,body,later⟩ := forMCons.mp ran
    obtain ⟨fresh,extra,step,looping'⟩ := loopingStep undoes looping body
    obtain ⟨fresh',extra',done⟩ := ih looping' later
    exact ⟨fresh ++ fresh',extra ++ extra',undoneCons (List.nodup_cons.mp looping.once).1
      (fun y listed => looping.issued y (List.mem_cons_of_mem _ listed)) step done⟩

structure Roomy (a : Audited) (cut : Option Int) (log : List (Row a.log)) (m : DB) (xs : List Int) : Prop where
  log : m.Room a.log (a.rewrites cut log xs (m a.table).rows)
  table : m.Room a.table (xs.filter fun x => decide (x ∉ m.keys a.table)).length

theorem roomyStep {x : Int} {xs : List Int} {fresh : List (Row a.table)} {extra : List (Row a.log)} (once : x ∉ xs)
    (issued : ∀ y ∈ xs, y < (m a.table).next) (roomy : Roomy a cut log m (x :: xs))
    (step : Undone a back cut log [x] m m' fresh extra) : Roomy a cut log m' xs := by
  have drawn : ([x].filter fun y => decide (y ∉ m.keys a.table)).length = fresh.length := step.copied.length_eq
  refine ⟨(roomy.log.less (Nat.le_of_eq ?_)).drop step.logNext,(roomy.table.less (Nat.le_of_eq ?_)).drop step.counted⟩
  · rw [rewritesCons once, step.rewritten, step.rows, rewritesAppend, rewritesStill (undoneFresh issued step)]
    rfl
  · rw [undoneLeft issued step, ← drawn, ← List.length_append, ← List.filter_append]
    rfl

theorem loopRuns (undoes : Undoes a back undo) {gs : List Group} (looping : Looping a cut log m gs)
    (updates : a.deletes = false → ∀ e ∈ log, a.operation e = "update")
    (refers : ∀ e ∈ log, ∀ ref ∈ references a.table, m.Resolves ref.parent (ref.column (a.row e)))
    (roomy : Roomy a cut log m (gs.map Group.entity)) :
    ∃ m', gs.forM (rollbackRow a.log (key a.log) undo) m = .ok ((),m') := by
  induction gs generalizing m with
  | nil => exact ⟨m,forMNil.mpr rfl⟩
  | cons g rest ih =>
    obtain ⟨e,first,least⟩ := looping.firsts g List.mem_cons_self
    obtain ⟨inLog,entity,_⟩ := replacedSpec first
    obtain ⟨unlisted,_⟩ := List.nodup_cons.mp looping.once
    have issued : ∀ y ∈ rest.map Group.entity, y < (m a.table).next :=
      fun y listed => looping.issued y (List.mem_cons_of_mem _ listed)
    have restorable : Restorable a m e := by
      refine ⟨fun keeps => updates keeps e inLog,fun keeps => ?_,fun r mem own => ?_,
        fun c listed => entryTexts looping.valid (looping.logged e inLog) listed,fun r mem own moves => ?_,
        fun missing => ?_,refers e inLog⟩
      · rw [entity]
        exact looping.stored keeps g.entity List.mem_cons_self
      · exact (looping.undoable g.entity List.mem_cons_self r mem (own.trans entity) e first).1
      · refine (roomy.log.less ?_).draws looping.serial (serialLog a)
        refine List.countP_pos_iff.mpr ⟨r,mem,decide_eq_true ?_⟩
        have listed : key a.table r ∈ (g :: rest).map Group.entity := own.trans entity ▸ List.mem_cons_self
        unfold Audited.returned
        rw [if_pos listed, originalOf ((own.trans entity).symm ▸ first)]
        exact moves
      · refine (roomy.table.less ?_).draws looping.serial (serialTable a)
        refine List.length_pos_of_mem (a := g.entity) (List.mem_filter.mpr ⟨List.mem_cons_self,?_⟩)
        exact decide_eq_true (entity ▸ missing)
    obtain ⟨middle,undid⟩ := undoes.runs looping.valid restorable
    have body := (bodyOk looping.valid (looping.logged e inLog) least entity).mpr undid
    obtain ⟨fresh,extra,step,looping'⟩ := loopingStep undoes looping body
    obtain ⟨m',later⟩ := ih looping' (fun e' mem ref listed =>
      Database.resolvesMono (undoneKeys step ref.parent) (refers e' mem ref listed)) (roomyStep unlisted issued roomy step)
    exact ⟨m',forMCons.mpr ⟨middle,body,later⟩⟩

theorem undoneRoomy {xs : List Int} {fresh : List (Row a.table)} {extra : List (Row a.log)}
    (undone : Undone a back cut log xs m m' fresh extra) : Roomy a cut log m xs := by
  have drawn : (xs.filter fun x => decide (x ∉ m.keys a.table)).length = fresh.length := undone.copied.length_eq
  refine ⟨undone.rewritten ▸ drawnRoom undone.valid (fun e mem => ?_) undone.logDrawn,
    drawn ▸ drawnRoom undone.valid (fun r mem => ?_) undone.drawn⟩
  · rw [undone.logged]
    exact List.mem_append_right _ mem
  · rw [undone.rows]
    exact List.mem_append_right _ mem

end Loop

def Back : (a : Audited) → Row a.log → Row a.table → Prop
  | .pubAddresses => fun e r => r = { Audited.row .pubAddresses e with pkPubAddressesId := r.pkPubAddressesId }
  | .nftSignatures => fun e r =>
    r = { Audited.row .nftSignatures e with pkNftSignaturesId := r.pkNftSignaturesId, fkBlockNumber := none }
  | _ => fun _ _ => False

section Bodies
variable {a : Audited} {s s' : DB} {b : Int} {v : Option Int}

theorem rollbackRowsOk {log : TableName} {id entity : Row log → Int} {operation : Row log → Option Int}
    {undo : Int → Row log → Proc Unit} (nonneg : 0 ≤ b) :
    rollbackRows log id entity operation (some b) undo s = .ok (v,s') ↔
      (cursor (s log).rows id entity operation (some b)).forM (rollbackRow log id undo) s = .ok ((),s') ∧
        v = some ((cursor (s log).rows id entity operation (some b)).length : Int) ∧
          fitsInt (cursor (s log).rows id entity operation (some b)).length = true := by
  have counted : below (some b) (some 0) = false := by simp [nonneg]
  unfold rollbackRows
  simp only [counted, Bool.false_eq_true, if_false, bindOk, getOk, toIntOk]
  constructor
  · intro ⟨_,_,⟨opened,same⟩,_,m,loop,count,last,fits⟩
    subst opened
    subst same
    subst last
    exact ⟨loop,count,fits _ rfl⟩
  · intro ⟨loop,count,fits⟩
    exact ⟨s,s,⟨rfl,rfl⟩,(),s',loop,count,rfl,fun k given => Option.some.inj given ▸ fits⟩

theorem undoableKept (keeps : a.deletes = false) (valid : s.Valid) (fixed : Fixed a s) (xs : List Int) :
    Undoable a (some b) (s a.log).rows s xs := by
  intro x _ r inRows own e first
  obtain ⟨mem,entity,late⟩ := replacedSpec first
  refine ⟨?_,fun entry _ written => ?_⟩
  · rw [← a.fixedCopied r]
    exact fixed.agree e mem _ (List.mem_map_of_mem inRows) ((a.keyCopied r).trans (own.trans entity.symm))
  obtain ⟨o,_,ho,hb,bound⟩ := atLeastTrue.mp late
  cases hb
  obtain ⟨m,top,above⟩ := writtenBound valid mem ho
  have operation : a.updated s (a.row e) = DB.head s := by cases a <;> first | rfl | cases keeps
  have stamp : a.layout.written entry = some m := (written.trans operation).trans top
  unfold Layout.lateEntry
  rw [stamp, Bool.or_eq_true]
  right
  simp only [atLeastSome, decide_eq_true_eq]
  omega

theorem undoableDeleted (chain : Chain a s) (xs : List Int) : Undoable a (some b) (s a.log).rows s xs := by
  intro x _ r mem own e first
  obtain ⟨inLog,entity,late⟩ := replacedSpec first
  have key : a.layout.key (a.copied r) = a.layout.entity e := (a.keyCopied r).trans (own.trans entity.symm)
  refine ⟨?_,fun entry row _ => ?_⟩
  · rw [← a.fixedCopied r]
    exact chain.fixed.agree e inLog _ (List.mem_map_of_mem mem) key
  obtain ⟨o,_,ho,hb,bound⟩ := atLeastTrue.mp late
  cases hb
  obtain ⟨d,stamp,above⟩ := chain.chained.current e inLog (a.copied r) (List.mem_map_of_mem mem) key o ho
  have stamp' : a.layout.stamp (a.layout.row entry) = some d := by
    change a.layout.stamp (a.row entry) = some d
    rw [row, stamp]
  unfold Layout.lateEntry
  rw [stamp', Bool.or_eq_true]
  left
  simp only [atLeastSome, decide_eq_true_eq]
  omega

theorem loopingOpened (valid : s.Valid) (serial : s.Serial) (chain : a.deletes = true → Chain a s)
    (fixed : a.deletes = false → Fixed a s) :
    Looping a (some b) (s a.log).rows s (cursor (s a.log).rows (key a.log) a.layout.entity a.written (some b)) := by
  have serials : relic.serial a.log = true := by cases a <;> rfl
  have sorted : ((s a.log).rows.map (key a.log)).Pairwise (· < ·) := (serial a.log serials).1
  have firsts : ∀ g ∈ cursor (s a.log).rows (key a.log) a.layout.entity a.written (some b),
      ∃ e, a.layout.replaced (some b) (s a.log).rows g.entity = some e ∧ g.least = some (key a.log e) :=
    fun g mem => cursorGroup sorted mem
  refine ⟨fun _ mem => mem,valid,serial,cursorNodup,fun y listed => ?_,fun keeps y listed => ?_,?_,firsts⟩
  · obtain ⟨g,mem,rfl⟩ := List.mem_map.mp listed
    obtain ⟨e,first,_⟩ := firsts g mem
    obtain ⟨inLog,entity,_⟩ := replacedSpec first
    cases deletes : a.deletes with
    | true => exact entity ▸ (chain deletes).issued e inLog
    | false => exact entity ▸ entityIssued valid serial deletes inLog
  · obtain ⟨g,mem,rfl⟩ := List.mem_map.mp listed
    obtain ⟨e,first,_⟩ := firsts g mem
    obtain ⟨inLog,entity,_⟩ := replacedSpec first
    obtain ⟨r,inRows,number⟩ := entityStored valid keeps inLog
    exact List.mem_map.mpr ⟨r,inRows,number.trans entity⟩
  · cases deletes : a.deletes with
    | true => exact undoableDeleted (chain deletes) _
    | false => exact undoableKept deletes valid (fixed deletes) _

theorem rollbackUndone {back : Row a.log → Row a.table → Prop} {undo : Int → Row a.log → Proc Unit}
    (undoes : Undoes a back undo) (nonneg : 0 ≤ b) (valid : s.Valid) (serial : s.Serial)
    (chain : a.deletes = true → Chain a s) (fixed : a.deletes = false → Fixed a s)
    (ran : rollbackRows a.log (key a.log) a.layout.entity a.written (some b) undo s = .ok (v,s')) :
    ∃ fresh extra, Undone a back (some b) (s a.log).rows
      ((cursor (s a.log).rows (key a.log) a.layout.entity a.written (some b)).map Group.entity) s s' fresh extra :=
  loopWritesBack undoes (loopingOpened valid serial chain fixed) ((rollbackRowsOk nonneg).mp ran).1

theorem rollbackRuns {back : Row a.log → Row a.table → Prop} {undo : Int → Row a.log → Proc Unit}
    (undoes : Undoes a back undo) (nonneg : 0 ≤ b) (valid : s.Valid) (serial : s.Serial)
    (chain : a.deletes = true → Chain a s) (fixed : a.deletes = false → Fixed a s)
    (updates : a.deletes = false → ∀ e ∈ (s a.log).rows, a.operation e = "update")
    (refers : ∀ e ∈ (s a.log).rows, ∀ ref ∈ references a.table, s.Resolves ref.parent (ref.column (a.row e)))
    (roomy : Roomy a (some b) (s a.log).rows s
      ((cursor (s a.log).rows (key a.log) a.layout.entity a.written (some b)).map Group.entity))
    (counted : fitsInt (cursor (s a.log).rows (key a.log) a.layout.entity a.written (some b)).length = true) :
    ∃ v s', rollbackRows a.log (key a.log) a.layout.entity a.written (some b) undo s = .ok (v,s') := by
  obtain ⟨s',ran⟩ := loopRuns undoes (loopingOpened valid serial chain fixed) updates refers roomy
  exact ⟨_,s',(rollbackRowsOk nonneg).mpr ⟨ran,rfl,counted⟩⟩

theorem loopFramed {back : Row a.log → Row a.table → Prop} {undo : Int → Row a.log → Proc Unit}
    (undoes : Undoes a back undo) {gs : List Group} (valid : s.Valid) (serial : s.Serial)
    (ran : gs.forM (rollbackRow a.log (key a.log) undo) s = .ok ((),s')) : Framed a s s' := by
  induction gs generalizing s with
  | nil =>
    cases forMNil.mp ran
    exact ⟨fun _ _ _ => rfl,fun _ => Int.le_refl _,valid,serial⟩
  | cons g rest ih =>
    obtain ⟨middle,body,later⟩ := forMCons.mp ran
    obtain ⟨entry,_,undone⟩ := rollbackRowOk.mp body
    have first := undoes.framed serial undone
    have second := ih first.valid first.serial later
    exact ⟨fun t o o' => (second.others t o o').trans (first.others t o o'),
      fun t => Int.le_trans (first.next t) (second.next t),second.valid,second.serial⟩

theorem rollbackFramed {cut : Option Int} {back : Row a.log → Row a.table → Prop}
    {undo : Int → Row a.log → Proc Unit} (undoes : Undoes a back undo) (valid : s.Valid) (serial : s.Serial)
    (ran : rollbackRows a.log (key a.log) a.layout.entity a.written cut undo s = .ok (v,s')) : Framed a s s' := by
  unfold rollbackRows at ran
  by_cases negative : below cut (some 0) = true
  · simp only [negative, if_true] at ran
    rw [(pureOk.mp ran).2]
    exact ⟨fun _ _ _ => rfl,fun _ => Int.le_refl _,valid,serial⟩
  · simp only [negative, Bool.false_eq_true, if_false] at ran
    obtain ⟨_,m',loop,count⟩ := bindOk.mp (readOk.mp ran)
    rw [(toIntOk.mp count).2.1]
    exact loopFramed undoes valid serial loop

theorem returnedOriginal {cut : Option Int} {log : List (Row a.log)} (r : Row a.table) :
    a.returned cut log ((cursor log (key a.log) a.layout.entity a.written cut).map Group.entity) r =
      a.original cut log r := by
  unfold Audited.returned
  split
  · rfl
  · rename_i unlisted
    have quiet : a.layout.replaced cut log (key a.table r) = none := by
      by_contra found
      exact unlisted (cursorListed.mpr found)
    unfold Audited.original
    rw [quiet]

theorem returnedAll {cut : Option Int} {log : List (Row a.log)} (rows : List (Row a.table)) :
    rows.map (a.returned cut log ((cursor log (key a.log) a.layout.entity a.written cut).map Group.entity)) =
      rows.map (a.original cut log) := List.map_congr_left fun r _ => returnedOriginal r

end Bodies

section Undos
variable {m m' : DB}

theorem updateFramed {a : Audited} {p : Row a.table → Bool} {assign : Row a.table → Row a.table}
    (keyed : ∀ r, key a.table (assign r) = key a.table r) (serial : m.Serial)
    (ran : update a.table p assign m = .ok ((),m')) : Framed a m m' := by
  obtain ⟨entries,logged,rfl,_,valid⟩ := updateWrites ran
  constructor
  · intro t other other'
    rw [Database.appendOther _ other', Database.withRowsOther _ other]
  · intro t
    exact withRowsNext m a.table t _ ▸ appendNext (m.withRows a.table _) a.log t entries
  · exact valid
  · exact writtenSerial serial (assignedKeys (fun r _ _ => keyed r) ▸ List.Sublist.refl _) logged.drawn

theorem insertFramed {a : Audited} {row : Int → Row a.table} {k : Int} (keyed : ∀ pk, key a.table (row pk) = pk)
    (serial : m.Serial) (ran : insertInto a.table row m = .ok (k,m')) : Framed a m m' := by
  obtain ⟨_,rfl,valid⟩ := insertIntoOk.mp ran
  exact ⟨fun t other _ => by rw [Database.appendOther _ other],fun t => appendNext m a.table t _,valid,
    insertedSerial serial (keyed _)⟩

theorem uniqueFixed {a : Audited} {column : Row a.table → Option String} (mem : column ∈ unique a.table)
    {r r' : Row a.table} (same : a.fixed r = a.fixed r') : column r = column r' := by
  cases a with
  | accounts =>
    rw [List.mem_singleton.mp mem]
    simpa [Audited.fixed] using same
  | _ => exact absurd mem List.not_mem_nil

theorem restoreRuns {a : Audited} {e : Row a.log} (valid : m.Valid) (restorable : Restorable a m e)
    {assign : Row a.table → Row a.table}
    (assigns : ∀ r, key a.table r = a.layout.entity e → a.fixed r = a.fixed (a.row e) → assign r = a.row e) :
    ∃ m', update a.table (fun r => decide (key a.table r = a.layout.entity e)) assign m = .ok ((),m') := by
  have written : ∀ r ∈ (m a.table).rows, decide (key a.table r = a.layout.entity e) = true → assign r = a.row e :=
    fun r mem hit => assigns r (of_decide_eq_true hit) (restorable.fixed r mem (of_decide_eq_true hit))
  have keyed : ∀ r ∈ (m a.table).rows, decide (key a.table r = a.layout.entity e) = true →
      key a.table (assign r) = key a.table r := by
    intro r mem hit
    rw [written r mem hit, of_decide_eq_true hit]
    rfl
  refine updateRuns valid (oneRow valid fun r mem own moves => ?_) keyed (valid.rewrite (fun r inRows => ?_)
    (assignedKept keyed) (fun column mem r inRows => ?_) fun ref listed r inRows => ?_)
  · rw [written r mem (decide_eq_true own)] at moves
    exact restorable.logs r mem own moves
  · refine fitsIff.mpr ⟨?_,fun c listed => ?_⟩
    · rw [show relic.key a.table (assigned _ assign r) = key a.table r from assignedKept keyed r inRows]
      exact (fitsIff.mp (valid.fits inRows)).1
    · unfold assigned
      split
      · rename_i hit
        rw [written r inRows hit]
        exact restorable.texts c listed
      · exact valid.fitsColumn listed inRows
  · unfold assigned
    split
    · rename_i hit
      rw [written r inRows hit]
      exact (uniqueFixed mem (restorable.fixed r inRows (of_decide_eq_true hit))).symm
    · rfl
  · unfold assigned
    split
    · rename_i hit
      rw [written r inRows hit]
      exact restorable.refers ref listed
    · exact valid.resolves listed inRows

theorem backReference {a : Audited} {e : Row a.log} {r : Row a.table} (back : Back a e r)
    {ref : Reference TableName (Row a.table)} (listed : ref ∈ references a.table) :
    ref.column r = none ∨ ref.column r = ref.column (a.row e) := by
  cases a with
  | pubAddresses =>
    change r = { Audited.row .pubAddresses e with pkPubAddressesId := r.pkPubAddressesId } at back
    simp only [references, List.mem_cons, List.not_mem_nil, or_false] at listed
    rcases listed with rfl | rfl <;> rw [back] <;> exact Or.inr rfl
  | nftSignatures =>
    change r = { Audited.row .nftSignatures e with
      pkNftSignaturesId := r.pkNftSignaturesId, fkBlockNumber := none } at back
    simp only [references, List.mem_cons, List.not_mem_nil, or_false] at listed
    rcases listed with rfl | rfl <;> rw [back]
    · exact Or.inl rfl
    · exact Or.inr rfl
  | _ => exact back.elim

theorem updateUndoOk {a : Audited} {e : Row a.log} {x : Int} {assign : Row a.table → Row a.table} {m m' : DB} :
    (do
      if a.operation e ≠ "update" then throw rollbackUnsupported
      update a.table (fun r => decide (key a.table r = x)) assign : Proc Unit) m = .ok ((),m') ↔
      a.operation e = "update" ∧ update a.table (fun r => decide (key a.table r = x)) assign m = .ok ((),m') := by
  by_cases updated : a.operation e = "update"
  · simp [updated]
  · simp only [updated, ne_eq, not_false_eq_true, if_true, false_and, iff_false]
    exact raiseOk

theorem undoesUpdate {a : Audited} (keeps : a.deletes = false) {assign : Row a.log → Row a.table → Row a.table}
    (keyed : ∀ e r, key a.table (assign e r) = key a.table r)
    (assigns : ∀ e r, key a.table r = a.layout.entity e → a.fixed r = a.fixed (a.row e) → assign e r = a.row e) :
    Undoes a (Back a) fun x e => do
      if a.operation e ≠ "update" then throw rollbackUnsupported
      update a.table (fun r => decide (key a.table r = x)) (assign e) where
  stored := by
    intro m m' e _ ran
    exact ⟨assign e,assigns e,(updateUndoOk.mp ran).2⟩
  missing := fun deletes => by
    rw [keeps] at deletes
    cases deletes
  framed := by
    intro m m' x e serial ran
    exact updateFramed (keyed e) serial (updateUndoOk.mp ran).2
  runs := by
    intro m e valid restorable
    obtain ⟨m',ran⟩ := restoreRuns valid restorable (assigns e)
    exact ⟨m',updateUndoOk.mpr ⟨restorable.operation keeps,ran⟩⟩

theorem reinsertUndoOk {a : Audited} {x : Int} {assign : Row a.table → Row a.table} {row : Int → Row a.table}
    {m m' : DB} :
    (do
      let s ← get
      if (s a.table).rows.any fun r => decide (key a.table r = x) then
        update a.table (fun r => decide (key a.table r = x)) assign
      else
        let _ ← insertInto a.table row : Proc Unit) m = .ok ((),m') ↔
      x ∈ m.keys a.table ∧ update a.table (fun r => decide (key a.table r = x)) assign m = .ok ((),m') ∨
        x ∉ m.keys a.table ∧ ∃ k, insertInto a.table row m = .ok (k,m') := by
  have listed : ((m a.table).rows.any fun r => decide (key a.table r = x)) = true ↔ x ∈ m.keys a.table := by
    simp [Database.keys]
  rw [readOk]
  by_cases present : x ∈ m.keys a.table
  · rw [if_pos (listed.mpr present)]
    simp [present]
  · rw [if_neg (mt listed.mp present), bindOk]
    simp [present, pureOk]

theorem backText {a : Audited} {e : Row a.log} {r : Row a.table} (back : Back a e r) {c : Varchar (Row a.table)}
    (listed : c ∈ varchars a.table) : c.column r = c.column (a.row e) := by
  cases a with
  | pubAddresses =>
    change r = { Audited.row .pubAddresses e with pkPubAddressesId := r.pkPubAddressesId } at back
    simp only [varchars, List.mem_cons, List.not_mem_nil, or_false] at listed
    rcases listed with rfl | rfl | rfl <;> rw [back]
  | nftSignatures =>
    change r = { Audited.row .nftSignatures e with
      pkNftSignaturesId := r.pkNftSignaturesId, fkBlockNumber := none } at back
    simp only [varchars, List.mem_cons, List.not_mem_nil, or_false] at listed
    rcases listed with rfl | rfl | rfl | rfl | rfl | rfl <;> rw [back]
  | _ => exact back.elim

theorem reinsertValid {a : Audited} (deletes : a.deletes = true) {m : DB} (valid : m.Valid) (draws : m.Draws a.table 1)
    {e : Row a.log} (texts : ∀ c ∈ varchars a.table, fitsWidth c.width (c.column (a.row e)) = true)
    (refers : ∀ ref ∈ references a.table, m.Resolves ref.parent (ref.column (a.row e))) {r : Row a.table}
    (number : key a.table r = (m a.table).next) (back : Back a e r) : (m.append a.table [r]).Valid := by
  obtain ⟨fits,fresh⟩ := draws.one
  rw [← number] at fits fresh
  refine valid.insert (fitsIff.mpr ⟨fits,fun c listed => ?_⟩) fresh (fun column mem => ?_) fun ref listed => ?_
  · rw [backText back listed]
    exact texts c listed
  · cases a <;> first
      | exact absurd mem List.not_mem_nil
      | cases deletes
  · rcases backReference back listed with absent | same
    · rw [absent]
      trivial
    · rw [same]
      exact refers ref listed

theorem undoesReinsert {a : Audited} (deletes : a.deletes = true) {assign : Row a.log → Row a.table → Row a.table}
    {row : Row a.log → Int → Row a.table} (keyed : ∀ e r, key a.table (assign e r) = key a.table r)
    (assigns : ∀ e r, key a.table r = a.layout.entity e → a.fixed r = a.fixed (a.row e) → assign e r = a.row e)
    (rows : ∀ e pk, key a.table (row e pk) = pk ∧ Back a e (row e pk)) :
    Undoes a (Back a) fun x e => do
      let s ← get
      if (s a.table).rows.any fun r => decide (key a.table r = x) then
        update a.table (fun r => decide (key a.table r = x)) (assign e)
      else
        let _ ← insertInto a.table (row e) where
  stored := by
    intro m m' e present ran
    rcases reinsertUndoOk.mp ran with ⟨_,updated⟩ | ⟨absent,_⟩
    · exact ⟨assign e,assigns e,updated⟩
    · exact absurd present absent
  missing := by
    intro _ m m' e absent ran
    rcases reinsertUndoOk.mp ran with ⟨present,_⟩ | ⟨_,k,inserted⟩
    · exact absurd present absent
    · exact ⟨row e,k,rows e,inserted⟩
  framed := by
    intro m m' x e serial ran
    rcases reinsertUndoOk.mp ran with ⟨_,updated⟩ | ⟨_,k,inserted⟩
    · exact updateFramed (keyed e) serial updated
    · exact insertFramed (fun pk => (rows e pk).1) serial inserted
  runs := by
    intro m e valid restorable
    by_cases present : a.layout.entity e ∈ m.keys a.table
    · obtain ⟨m',ran⟩ := restoreRuns valid restorable (assigns e)
      exact ⟨m',reinsertUndoOk.mpr (Or.inl ⟨present,ran⟩)⟩
    · have target := reinsertValid deletes valid (restorable.draws present) restorable.texts restorable.refers
        (rows e _).1 (rows e _).2
      exact ⟨_,reinsertUndoOk.mpr (Or.inr ⟨present,_,insertIntoOk.mpr ⟨rfl,rfl,target⟩⟩)⟩

end Undos

section Loops
variable {b : Option Int}

theorem rbAccountsLoop : ∃ undo, Undoes .accounts (Back .accounts) undo ∧ rbAccounts b =
    rollbackRows _ (key _) (Audited.layout .accounts).entity (Audited.written .accounts) b undo :=
  ⟨_,undoesUpdate (a := .accounts) rfl (fun _ _ => by rfl) fun e r own _ => by cases r; cases own; rfl,rfl⟩

theorem rbDomainsLoop : ∃ undo, Undoes .domains (Back .domains) undo ∧ rbDomains b =
    rollbackRows _ (key _) (Audited.layout .domains).entity (Audited.written .domains) b undo :=
  ⟨_,undoesUpdate (a := .domains) rfl (fun _ _ => by rfl) fun e r own _ => by cases r; cases own; rfl,rfl⟩

theorem rbHandlesLoop : ∃ undo, Undoes .handles (Back .handles) undo ∧ rbHandles b =
    rollbackRows _ (key _) (Audited.layout .handles).entity (Audited.written .handles) b undo :=
  ⟨_,undoesUpdate (a := .handles) rfl (fun _ _ => by rfl) fun e r own _ => by cases r; cases own; rfl,rfl⟩

theorem rbFioRequestsLoop : ∃ undo, Undoes .fioRequests (Back .fioRequests) undo ∧ rbFioRequests b =
    rollbackRows _ (key _) (Audited.layout .fioRequests).entity (Audited.written .fioRequests) b undo :=
  ⟨_,undoesUpdate (a := .fioRequests) rfl (fun _ _ => by rfl) fun e r own _ => by cases r; cases own; rfl,rfl⟩

theorem rbPubAddressesLoop : ∃ undo, Undoes .pubAddresses (Back .pubAddresses) undo ∧ rbPubAddresses b =
    rollbackRows _ (key _) (Audited.layout .pubAddresses).entity (Audited.written .pubAddresses) b undo :=
  ⟨_,undoesReinsert (a := .pubAddresses) rfl (fun _ _ => by rfl) (fun e r own _ => by cases r; cases own; rfl)
    fun _ _ => by exact ⟨rfl,rfl⟩,rfl⟩

theorem rbNftSignaturesLoop : ∃ undo, Undoes .nftSignatures (Back .nftSignatures) undo ∧ rbNftSignatures b =
    rollbackRows _ (key _) (Audited.layout .nftSignatures).entity (Audited.written .nftSignatures) b undo :=
  ⟨_,undoesReinsert (a := .nftSignatures) rfl (fun _ _ => by rfl) (fun e r own fixed => by cases r; cases own; cases fixed; rfl)
    fun _ _ => by exact ⟨rfl,rfl⟩,rfl⟩

end Loops
end FioRelic
