import Mathlib.Data.List.Forall2
import FioRelic.Relational.Constraints

/-! Two databases that hold the same rows under other keys, and two procedures that keep
them so. What the first procedure returns, the second returns with the keys renamed. -/
namespace FioRelic.Relational
open Database

section Matching
variable {τ : Type} {S : Schema τ}

structure Matching (S : Schema τ) where
  covers : List τ
  logs : List τ
  ids : τ → Int → Int
  known : τ → Int → Prop
  twin : (t : τ) → S.Row t → S.Row t → Prop
  apart : ∀ t ∈ logs, t ∉ covers
  injective : ∀ t ∈ covers, ∀ j k, known t j → known t k → ids t j = ids t k → j = k
  keyed : ∀ t ∈ covers, ∀ r r', twin t r r' → known t (S.key t r) ∧ S.key t r' = ids t (S.key t r)
  fits : ∀ t ∈ covers, ∀ r r', twin t r r' → S.fits t r = true → S.fits t r' = true
  unique : ∀ t ∈ covers, ∀ column ∈ S.unique t, ∀ r r', twin t r r' → column r' = column r
  closed : ∀ t ∈ covers, ∀ ref ∈ S.references t, ref.parent ∈ covers
  refers : ∀ t ∈ covers, ∀ ref ∈ S.references t, ∀ r r', twin t r r' →
    ref.column r' = (ref.column r).map (ids ref.parent)

/- The keys the first database draws next are the ones the second draws next, renamed. In a
log the second is behind. -/
structure Matches (f : Matching S) (s t : Database S) : Prop where
  rows : ∀ u ∈ f.covers, List.Forall₂ (f.twin u) (s u).rows (t u).rows
  fresh : ∀ u ∈ f.covers, S.serial u = true → ∀ i : Nat,
    f.known u ((s u).next + i) ∧ f.ids u ((s u).next + i) = (t u).next + i
  behind : ∀ u ∈ f.logs, 0 ≤ (t u).next ∧ (t u).next ≤ (s u).next
  valid : t.Valid
  serial : t.Serial

theorem twinOf {α β : Type} {R : α → β → Prop} {xs : List α} {ys : List β} (twins : List.Forall₂ R xs ys) :
    ∀ y ∈ ys, ∃ x ∈ xs, R x y := by
  induction twins with
  | nil => exact fun y mem => absurd mem List.not_mem_nil
  | cons twin _ ih =>
    intro y mem
    rcases List.mem_cons.mp mem with rfl | later
    · exact ⟨_,List.mem_cons_self,twin⟩
    · obtain ⟨x,inRows,twin'⟩ := ih y later
      exact ⟨x,List.mem_cons_of_mem _ inRows,twin'⟩

theorem twinsFewer {α β : Type} {R : α → β → Prop} {xs : List α} {ys : List β} {p : α → Bool} {q : β → Bool}
    (twins : List.Forall₂ R xs ys) (hits : ∀ x y, R x y → q y = true → p x = true) :
    (ys.filter q).length ≤ (xs.filter p).length := by
  induction twins with
  | nil => exact Nat.le_refl 0
  | @cons x y _ _ twin _ ih =>
    by_cases hit : q y = true
    · rw [List.filter_cons_of_pos hit, List.filter_cons_of_pos (hits x y twin hit)]
      exact Nat.succ_le_succ ih
    · rw [List.filter_cons_of_neg hit]
      exact Nat.le_trans ih ((List.sublist_cons_self x _).filter p).length_le

variable {f : Matching S} {u : τ} {xs ys : List (S.Row u)}

theorem Matches.room {s t : Database S} (hold : Matches f s t) (listed : u ∈ f.logs) {n : Nat} (room : s.Room u n) :
    t.Room u n := by
  intro i lt
  obtain ⟨low,le⟩ := hold.behind u listed
  have above := room i lt
  simp only [fitsBigint, decide_eq_true_eq] at above ⊢
  omega

theorem twinsKeys (covered : u ∈ f.covers) (twins : List.Forall₂ (f.twin u) xs ys) :
    ys.map (S.key u) = (xs.map (S.key u)).map (f.ids u) := by
  induction twins with
  | nil => rfl
  | cons twin _ ih => simp only [List.map_cons, ih, (f.keyed u covered _ _ twin).2]

theorem twinsKnown (covered : u ∈ f.covers) (twins : List.Forall₂ (f.twin u) xs ys) :
    ∀ k ∈ xs.map (S.key u), f.known u k := by
  induction twins with
  | nil => exact fun k mem => absurd mem List.not_mem_nil
  | cons twin _ ih =>
    intro k mem
    rcases List.mem_cons.mp mem with rfl | later
    · exact (f.keyed u covered _ _ twin).1
    · exact ih k later

theorem twinsUnique (covered : u ∈ f.covers) {column : S.Row u → Option String} (listed : column ∈ S.unique u)
    (twins : List.Forall₂ (f.twin u) xs ys) : ys.filterMap column = xs.filterMap column := by
  induction twins with
  | nil => rfl
  | cons twin _ ih => rw [List.filterMap_cons, List.filterMap_cons, f.unique u covered column listed _ _ twin, ih]

theorem matchedValid {s' t t' : Database S} (before : t.Valid) (source : s'.Valid)
    (twins : ∀ u ∈ f.covers, List.Forall₂ (f.twin u) (s' u).rows (t' u).rows)
    (grows : ∀ u, ∀ k ∈ t.keys u, k ∈ t'.keys u) (others : ∀ u, u ∉ f.covers → t' u = t u) : t'.Valid := by
  refine ⟨fun u listed r stored => ?_,fun u listed => ?_,fun u listed ref mem r stored => ?_⟩
  · by_cases covered : u ∈ f.covers
    · obtain ⟨r₀,inRows,twin⟩ := twinOf (twins u covered) r stored
      exact f.fits u covered r₀ r twin (source.fits inRows)
    · rw [others u covered] at stored
      exact before.fits stored
  · by_cases covered : u ∈ f.covers
    · refine ⟨?_,fun column mem => ?_⟩
      · rw [keys, twinsKeys covered (twins u covered)]
        have known := twinsKnown covered (twins u covered)
        exact (source.keysNodup u).map_on fun j mem k mem' => f.injective u covered j k (known j mem) (known k mem')
      · rw [twinsUnique covered mem (twins u covered)]
        exact source.uniqueNodup mem
    · rw [keys, others u covered]
      exact before.distinct u listed
  · by_cases covered : u ∈ f.covers
    · obtain ⟨r₀,inRows,twin⟩ := twinOf (twins u covered) r stored
      rw [f.refers u covered ref mem r₀ r twin]
      have found := source.resolves mem inRows
      have parent := f.closed u covered ref mem
      cases refers : ref.column r₀ with
      | none => trivial
      | some k =>
        rw [refers] at found
        change f.ids ref.parent k ∈ (t' ref.parent).rows.map (S.key ref.parent)
        rw [twinsKeys parent (twins ref.parent parent)]
        exact List.mem_map_of_mem found
    · rw [others u covered] at stored
      exact resolvesMono (grows ref.parent) (before.resolves mem stored)

end Matching

section Follows
variable {τ : Type} {S : Schema τ} {α β α' β' : Type} {f : Matching S} {R : α → α' → Prop} {Q : β → β' → Prop}

def Follows (f : Matching S) (R : α → α' → Prop) (x : Proc S α) (y : Proc S α') : Prop :=
  ∀ s t, Matches f s t → ∀ a s', x s = .ok (a,s') → ∃ b t', y t = .ok (b,t') ∧ R a b ∧ Matches f s' t'

namespace Follows

theorem pure {a : α} {b : α'} (related : R a b) : Follows f R (pure a) (pure b) := by
  intro s t hold v s' ran
  obtain ⟨rfl,rfl⟩ := pureOk.mp ran
  exact ⟨b,t,rfl,related,hold⟩

theorem throw {e : Error} {y : Proc S α'} : Follows f R (throw e) y := fun _ _ _ _ _ ran => absurd ran throwOk

theorem bind {x : Proc S α} {y : Proc S α'} {g : α → Proc S β} {h : α' → Proc S β'} (first : Follows f R x y)
    (rest : ∀ a b, R a b → Follows f Q (g a) (h b)) : Follows f Q (x >>= g) (y >>= h) := by
  intro s t hold v s' ran
  obtain ⟨a,m,ran,ran'⟩ := bindOk.mp ran
  obtain ⟨b,m',returned,related,hold'⟩ := first s t hold a m ran
  obtain ⟨w,t',returned',related',hold''⟩ := rest a b related m m' hold' v s' ran'
  exact ⟨w,t',bindOk.mpr ⟨b,m',returned,returned'⟩,related',hold''⟩

theorem raise {e : Error} {g : α → Proc S β} {y : Proc S β'} : Follows f Q (MonadExcept.throw e >>= g) y :=
  fun _ _ _ _ _ ran => absurd ran raiseOk

theorem ite {p q : Prop} [Decidable p] [Decidable q] {x y : Proc S α} {x' y' : Proc S α'} (agree : p ↔ q)
    (yes : p → Follows f R x x') (no : ¬p → Follows f R y y') :
    Follows f R (if p then x else y) (if q then x' else y') := by
  by_cases taken : p
  · rw [if_pos taken, if_pos (agree.mp taken)]
    exact yes taken
  · rw [if_neg taken, if_neg fun h => taken (agree.mpr h)]
    exact no taken

theorem reads {x : Proc S α} {y : Proc S α'} (read : ∀ s t, Matches f s t → ∀ a s', x s = .ok (a,s') →
    s' = s ∧ ∃ b, y t = .ok (b,t) ∧ R a b) : Follows f R x y := by
  intro s t hold a s' ran
  obtain ⟨rfl,b,returned,related⟩ := read s t hold a s' ran
  exact ⟨b,t,returned,related,hold⟩

end Follows

theorem chosenLeast {takes : List Int → Nat} {u : τ} {p : S.Row u → Bool} {s : Database S}
    (least : ∀ ks, ks ≠ [] → takes ks % ks.length = 0) : chosen takes u p s = ((s u).rows.filter p).head? := by
  unfold chosen
  cases hits : (s u).rows.filter p with
  | nil => rfl
  | cons r rest =>
    have first := least ((r :: rest).map (S.key u)) (by simp)
    rw [List.length_map] at first
    simp only [first]
    rfl

theorem Follows.select {takes : τ → List Int → Nat} {u : τ} {p p' : S.Row u → Bool} (covered : u ∈ f.covers)
    (least : ∀ ks, ks ≠ [] → takes u ks % ks.length = 0) (agree : ∀ r r', f.twin u r r' → p' r' = p r) :
    Follows f (Option.Rel (f.twin u)) (selectInto takes u p) (selectInto takes u p') := by
  refine reads fun s t hold found s' ran => ?_
  obtain ⟨rfl,rfl⟩ := selectIntoOk.mp ran
  refine ⟨rfl,_,selectIntoOk.mpr ⟨rfl,rfl⟩,?_⟩
  rw [chosenLeast least, chosenLeast least]
  have hits : List.Forall₂ (f.twin u) ((s' u).rows.filter p) ((t u).rows.filter p') :=
    List.rel_filter (fun r r' twin => by simp only [agree r r' twin]) (hold.rows u covered)
  revert hits
  generalize (s' u).rows.filter p = xs
  generalize (t u).rows.filter p' = ys
  intro hits
  cases hits with
  | nil => exact .none
  | cons twin _ => exact .some twin

theorem Matches.aside {s s' t t' : Database S} (hold : Matches f s t) (left : ∀ w ∈ f.covers, s' w = s w)
    (right : ∀ w ∈ f.covers, t' w = t w) (behind : ∀ w ∈ f.logs, 0 ≤ (t' w).next ∧ (t' w).next ≤ (s' w).next)
    (valid : t'.Valid) (serial : t'.Serial) : Matches f s' t' where
  rows := by
    intro w listed
    rw [left w listed, right w listed]
    exact hold.rows w listed
  fresh := by
    intro w listed
    rw [left w listed, right w listed]
    exact hold.fresh w listed
  behind := behind
  valid := valid
  serial := serial

variable [DecidableEq τ] {s t : Database S} {u : τ}

theorem Matches.insert {row row' : S.Row u} (hold : Matches f s t) (covered : u ∈ f.covers) (twin : f.twin u row row')
    (number : S.serial u = true → S.key u row' = (t u).next) (source : (s.append u [row]).Valid) :
    Matches f (s.append u [row]) (t.append u [row']) := by
  have rows : ∀ w ∈ f.covers, List.Forall₂ (f.twin w) ((s.append u [row]) w).rows ((t.append u [row']) w).rows := by
    intro w listed
    by_cases own : w = u
    · subst own
      rw [appendSame, appendSame]
      exact List.rel_append (hold.rows w listed) (.cons twin .nil)
    · rw [appendOther _ own, appendOther _ own]
      exact hold.rows w listed
  refine ⟨rows,fun w listed serial i => ?_,fun w listed => ?_,?_,fun w serial => ?_⟩
  · by_cases own : w = u
    · subst own
      have later := hold.fresh w listed serial (i + 1)
      simp only [appendSame, List.length_singleton, Int.natCast_add, Int.natCast_one, Int.add_assoc] at later ⊢
      rwa [Int.add_comm 1 (i : Int)]
    · rw [appendOther _ own, appendOther _ own]
      exact hold.fresh w listed serial i
  · have other : w ≠ u := fun same => f.apart w listed (by rwa [same])
    rw [appendOther _ other, appendOther _ other]
    exact hold.behind w listed
  · refine matchedValid hold.valid source rows (fun w => keysAppendSub _ w) fun w apart => ?_
    have other : w ≠ u := fun same => apart (by rwa [same])
    exact appendOther _ other _
  · by_cases own : w = u
    · subst own
      obtain ⟨sorted,bounded⟩ := hold.serial w serial
      rw [keysAppendSame, appendSame]
      refine ⟨List.pairwise_append.mpr ⟨sorted,List.pairwise_singleton _ _,fun k old k' new => ?_⟩,fun k mem => ?_⟩
      · rw [List.mem_singleton.mp new, number serial]
        exact bounded k old
      · rcases List.mem_append.mp mem with old | new
        · have := bounded k old
          simp only [List.length_singleton]
          omega
        · rw [List.mem_singleton.mp new, number serial]
          exact Int.lt_succ _
    · rw [keysAppendOther own, appendOther _ own]
      exact hold.serial w serial

theorem Matches.rewrite {rows rows' : List (S.Row u)} (hold : Matches f s t) (covered : u ∈ f.covers)
    (twins : List.Forall₂ (f.twin u) rows rows') (kept : rows'.map (S.key u) = t.keys u)
    (source : (s.withRows u rows).Valid) : Matches f (s.withRows u rows) (t.withRows u rows') := by
  have rows : ∀ w ∈ f.covers, List.Forall₂ (f.twin w) ((s.withRows u rows) w).rows ((t.withRows u rows') w).rows := by
    intro w listed
    by_cases own : w = u
    · subst own
      rw [withRowsSame, withRowsSame]
      exact twins
    · rw [withRowsOther _ own, withRowsOther _ own]
      exact hold.rows w listed
  refine ⟨rows,fun w listed serial i => ?_,fun w listed => ?_,?_,hold.serial.withRows u (kept ▸ List.Sublist.refl _)⟩
  · have same := hold.fresh w listed serial i
    by_cases own : w = u
    · subst own
      rwa [withRowsSame, withRowsSame]
    · rwa [withRowsOther _ own, withRowsOther _ own]
  · have other : w ≠ u := fun same => f.apart w listed (by rwa [same])
    rw [withRowsOther _ other, withRowsOther _ other]
    exact hold.behind w listed
  · refine matchedValid hold.valid source rows (fun w k mem => keysWithRows kept w ▸ mem) fun w apart => ?_
    have other : w ≠ u := fun same => apart (by rwa [same])
    exact withRowsOther _ other _

theorem Follows.insert {row row' : Int → S.Row u} (covered : u ∈ f.covers) (serial : S.serial u = true)
    (twin : ∀ k, f.known u k → f.twin u (row k) (row' (f.ids u k))) (number : ∀ k, S.key u (row' k) = k) :
    Follows f (fun k k' => f.known u k ∧ k' = f.ids u k) (insertInto u row) (insertInto u row') := by
  intro s t hold k s' ran
  obtain ⟨rfl,rfl,source⟩ := insertIntoOk.mp ran
  have drawn := hold.fresh u covered serial 0
  simp only [Int.natCast_zero, Int.add_zero] at drawn
  have twins := twin _ drawn.1
  rw [drawn.2] at twins
  have hold' := hold.insert covered twins (fun _ => number _) source
  exact ⟨_,_,insertIntoOk.mpr ⟨rfl,rfl,hold'.valid⟩,⟨drawn.1,drawn.2.symm⟩,hold'⟩

theorem Follows.store {row row' : S.Row u} (covered : u ∈ f.covers) (given : S.serial u = false)
    (twin : f.twin u row row') :
    Follows f (fun _ _ => True) (insertInto u fun _ => row) (insertInto u fun _ => row') := by
  intro s t hold k s' ran
  obtain ⟨rfl,rfl,source⟩ := insertIntoOk.mp ran
  have hold' := hold.insert covered twin (fun serial => by rw [given] at serial; cases serial) source
  exact ⟨_,_,insertIntoOk.mpr ⟨rfl,rfl,hold'.valid⟩,trivial,hold'⟩

end Follows
end FioRelic.Relational
