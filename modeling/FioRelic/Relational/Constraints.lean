import FioRelic.Relational.Database

/-! When the constraints still hold after a statement: what one inserted row, one
rewriting of rows and one removal of rows each have to respect. -/
namespace FioRelic.Relational.Database
variable {τ : Type} {S : Schema τ} {s s' : Database S}

theorem resolvesMono {parent : τ} (grows : ∀ k ∈ s.keys parent, k ∈ s'.keys parent) {k : Option Int}
    (found : s.Resolves parent k) : s'.Resolves parent k := by
  cases k with
  | none => trivial
  | some k => exact grows k found

theorem resolvesCongr {parent : τ} (same : s'.keys parent = s.keys parent) {k : Option Int} :
    s'.Resolves parent k ↔ s.Resolves parent k :=
  ⟨resolvesMono fun _ mem => same ▸ mem,resolvesMono fun _ mem => same.symm ▸ mem⟩

def Room (s : Database S) (t : τ) (n : Nat) : Prop := ∀ i < n, fitsBigint ((s t).next + i) = true

def Draws (s : Database S) (t : τ) (n : Nat) : Prop :=
  ∀ i < n, fitsBigint ((s t).next + i) = true ∧ (s t).next + i ∉ s.keys t

instance (s : Database S) (t : τ) (n : Nat) : Decidable (s.Room t n) :=
  inferInstanceAs (Decidable (∀ i < n, fitsBigint ((s t).next + i) = true))

instance (s : Database S) (t : τ) (n : Nat) : Decidable (s.Draws t n) :=
  inferInstanceAs (Decidable (∀ i < n, fitsBigint ((s t).next + i) = true ∧ (s t).next + i ∉ s.keys t))

section Sequences
variable {t : τ} {m n : Nat}

theorem Room.less (room : s.Room t n) (le : m ≤ n) : s.Room t m := fun i lt => room i (Nat.lt_of_lt_of_le lt le)

theorem Draws.less (draws : s.Draws t n) (le : m ≤ n) : s.Draws t m := fun i lt => draws i (Nat.lt_of_lt_of_le lt le)

theorem Draws.room (draws : s.Draws t n) : s.Room t n := fun i lt => (draws i lt).1

theorem roomCongr (next : (s' t).next = (s t).next) (room : s.Room t n) : s'.Room t n := by
  intro i lt
  rw [next]
  exact room i lt

theorem drawsCongr (same : s' t = s t) : s'.Draws t n ↔ s.Draws t n := by
  unfold Draws keys
  rw [same]

theorem Room.drop {i : Nat} (room : s.Room t (i + n)) (next : (s' t).next = (s t).next + i) : s'.Room t n := by
  intro j lt
  have left := room (i + j) (by omega)
  rw [next]
  have shift : (s t).next + (i : Int) + j = (s t).next + (i + j : Nat) := by omega
  rw [shift]
  exact left

theorem Room.join {i : Nat} (room : s.Room t i) (later : s'.Room t n) (next : (s' t).next = (s t).next + i) :
    s.Room t (i + n) := by
  intro j lt
  by_cases early : j < i
  · exact room j early
  · have left := later (j - i) (by omega)
    rw [next] at left
    have shift : (s t).next + (i : Int) + (j - i : Nat) = (s t).next + j := by omega
    rwa [shift] at left

theorem drawsSub (next : (s' t).next = (s t).next) (sub : ∀ k ∈ s'.keys t, k ∈ s.keys t) (draws : s.Draws t n) :
    s'.Draws t n := by
  intro i lt
  rw [next]
  exact ⟨(draws i lt).1,fun stored => (draws i lt).2 (sub _ stored)⟩

theorem Draws.one (draws : s.Draws t 1) : fitsBigint (s t).next = true ∧ (s t).next ∉ s.keys t := by
  simpa using draws 0 (by omega)

theorem Room.draws (room : s.Room t n) (serial : s.Serial) (serials : S.serial t = true) : s.Draws t n := by
  refine fun i lt => ⟨room i lt,fun listed => ?_⟩
  have := (serial t serials).2 _ listed
  omega

end Sequences

variable [DecidableEq τ] {t : τ}

theorem keysAppendSame (rows : List (S.Row t)) : (s.append t rows).keys t = s.keys t ++ rows.map (S.key t) := by
  unfold keys
  rw [appendSame, List.map_append]

theorem keysAppendOther {u : τ} (other : u ≠ t) (rows : List (S.Row t)) : (s.append t rows).keys u = s.keys u := by
  unfold keys
  rw [appendOther s other]

theorem keysAppendSub (rows : List (S.Row t)) (u : τ) : ∀ k ∈ s.keys u, k ∈ (s.append t rows).keys u := by
  intro k mem
  by_cases own : u = t
  · subst own
    rw [keysAppendSame]
    exact List.mem_append_left _ mem
  · rwa [keysAppendOther own]

theorem keysWithRows {rows : List (S.Row t)} (same : rows.map (S.key t) = s.keys t) (u : τ) :
    (s.withRows t rows).keys u = s.keys u := by
  by_cases own : u = t
  · subst own
    rw [← same, keys, withRowsSame]
  · unfold keys
    rw [withRowsOther s own]

theorem drawsAppend {rows : List (S.Row t)} {n : Nat}
    (drawn : ∀ (i : Nat) r, rows[i]? = some r → S.key t r = (s t).next + i) :
    s.Draws t (rows.length + n) ↔ s.Draws t rows.length ∧ (s.append t rows).Draws t n := by
  have shift (i : Nat) : (s.append t rows t).next + i = (s t).next + (rows.length + i : Nat) := by
    rw [appendSame]
    simp only
    omega
  constructor
  · refine fun draws => ⟨draws.less (by omega),fun i lt => ?_⟩
    have left := draws (rows.length + i) (by omega)
    rw [shift, keysAppendSame, List.mem_append]
    refine ⟨left.1,fun listed => listed.elim left.2 fun new => ?_⟩
    obtain ⟨r,mem,own⟩ := List.mem_map.mp new
    obtain ⟨j,less,rfl⟩ := List.getElem_of_mem mem
    have number := drawn j _ (List.getElem?_eq_getElem less)
    omega
  · rintro ⟨first,later⟩ i lt
    by_cases early : i < rows.length
    · exact first i early
    · have left := later (i - rows.length) (by omega)
      rw [shift, keysAppendSame, List.mem_append, Nat.add_sub_of_le (by omega)] at left
      exact ⟨left.1,fun stored => left.2 (Or.inl stored)⟩

theorem drawsInsert {row : S.Row t} {n : Nat} (number : S.key t row = (s t).next) :
    s.Draws t (n + 1) ↔ s.Draws t 1 ∧ (s.append t [row]).Draws t n := by
  have drawn : ∀ (i : Nat) r, [row][i]? = some r → S.key t r = (s t).next + i := by
    intro i r at_
    cases i with
    | zero =>
      cases at_
      simpa using number
    | succ i => simp at at_
  rw [Nat.add_comm n 1]
  exact drawsAppend drawn

theorem appendedDraws {rows : List (S.Row t)} (valid : (s.append t rows).Valid)
    (drawn : ∀ (i : Nat) r, rows[i]? = some r → S.key t r = (s t).next + i) : s.Draws t rows.length := by
  intro i lt
  have number := drawn i _ (List.getElem?_eq_getElem lt)
  have inRows : rows[i] ∈ (s.append t rows t).rows := by
    rw [appendSame]
    exact List.mem_append_right _ (List.getElem_mem lt)
  refine ⟨number ▸ (fitsIff.mp (valid.fits inRows)).1,fun stored => ?_⟩
  have nodup := valid.keysNodup t
  rw [keysAppendSame] at nodup
  exact (List.nodup_append.mp nodup).2.2 _ stored _ (List.mem_map_of_mem (List.getElem_mem lt)) number.symm

theorem Valid.insert (valid : s.Valid) {row : S.Row t} (fits : S.fits t row = true) (fresh : S.key t row ∉ s.keys t)
    (distinct : ∀ column ∈ S.unique t, ∀ r ∈ (s t).rows, ∀ x, column row = some x → column r ≠ some x)
    (refers : ∀ ref ∈ S.references t, s.Resolves ref.parent (ref.column row)) : (s.append t [row]).Valid := by
  refine ⟨fun u listed r stored => ?_,fun u listed => ?_,fun u listed ref mem r stored => ?_⟩
  · by_cases own : u = t
    · subst own
      rw [appendSame] at stored
      rcases List.mem_append.mp stored with old | new
      · exact valid.fits old
      · rw [List.mem_singleton.mp new]
        exact fits
    · rw [appendOther s own] at stored
      exact valid.fits stored
  · by_cases own : u = t
    · subst own
      refine ⟨?_,fun column mem => ?_⟩
      · rw [keysAppendSame]
        refine List.nodup_append.mpr ⟨valid.keysNodup u,List.nodup_singleton _,fun k old k' new same => ?_⟩
        rw [same, List.mem_singleton.mp new] at old
        exact fresh old
      · rw [appendSame, List.filterMap_append]
        refine List.nodup_append.mpr ⟨valid.uniqueNodup mem,?_,fun x old x' new same => ?_⟩
        · cases given : column row <;> simp [given]
        · obtain ⟨r,stored,value⟩ := List.mem_filterMap.mp old
          obtain ⟨r',inserted,value'⟩ := List.mem_filterMap.mp new
          rw [List.mem_singleton.mp inserted] at value'
          exact distinct column mem r stored x' value' (same ▸ value)
    · rw [keysAppendOther own, appendOther s own]
      exact valid.distinct u listed
  · refine resolvesMono (keysAppendSub [row] ref.parent) ?_
    by_cases own : u = t
    · subst own
      rw [appendSame] at stored
      rcases List.mem_append.mp stored with old | new
      · exact valid.resolves mem old
      · rw [List.mem_singleton.mp new]
        exact refers ref mem
    · rw [appendOther s own] at stored
      exact valid.resolves mem stored

theorem Valid.inserts (valid : s.Valid) {row : S.Row t} (number : S.key t row = (s t).next)
    (refers : ∀ ref ∈ S.references t, s.Resolves ref.parent (ref.column row)) : (s.append t [row]).Valid ↔
      s.Draws t 1 ∧ (∀ c ∈ S.varchars t, fitsWidth c.width (c.column row) = true) ∧
        ∀ column ∈ S.unique t, ∀ r ∈ (s t).rows, ∀ x, column row = some x → column r ≠ some x := by
  constructor
  · intro valid'
    have inserted : row ∈ (s.append t [row] t).rows := by
      rw [appendSame]
      exact List.mem_append_right _ (List.mem_singleton.mpr rfl)
    refine ⟨appendedDraws valid' fun i r at_ => ?_,fun c mem => valid'.fitsColumn mem inserted,
      fun column mem r stored x given here => ?_⟩
    · cases i with
      | zero =>
        cases at_
        simpa using number
      | succ i => simp at at_
    · have nodup := valid'.uniqueNodup mem
      rw [appendSame, List.filterMap_append] at nodup
      exact (List.nodup_append.mp nodup).2.2 x (List.mem_filterMap.mpr ⟨r,stored,here⟩) x
        (List.mem_filterMap.mpr ⟨row,List.mem_singleton.mpr rfl,given⟩) rfl
  · rintro ⟨draws,texts,distinct⟩
    obtain ⟨fits,fresh⟩ := draws.one
    exact valid.insert (fitsIff.mpr ⟨number ▸ fits,texts⟩) (number ▸ fresh) distinct refers

theorem Valid.rewrite (valid : s.Valid) {f : S.Row t → S.Row t} (fits : ∀ r ∈ (s t).rows, S.fits t (f r) = true)
    (number : ∀ r ∈ (s t).rows, S.key t (f r) = S.key t r)
    (kept : ∀ column ∈ S.unique t, ∀ r ∈ (s t).rows, column (f r) = column r)
    (refers : ∀ ref ∈ S.references t, ∀ r ∈ (s t).rows, s.Resolves ref.parent (ref.column (f r))) :
    (s.withRows t ((s t).rows.map f)).Valid := by
  have keyed : ((s t).rows.map f).map (S.key t) = s.keys t := by
    rw [List.map_map]
    exact List.map_congr_left number
  refine ⟨fun u listed r stored => ?_,fun u listed => ?_,fun u listed ref mem r stored => ?_⟩
  · by_cases own : u = t
    · subst own
      rw [withRowsSame] at stored
      obtain ⟨old,inRows,rfl⟩ := List.mem_map.mp stored
      exact fits old inRows
    · rw [withRowsOther s own] at stored
      exact valid.fits stored
  · refine ⟨by rw [keysWithRows keyed]; exact valid.keysNodup u,fun column mem => ?_⟩
    by_cases own : u = t
    · subst own
      have same : (s u).rows.filterMap (column ∘ f) = (s u).rows.filterMap column :=
        List.filterMap_congr fun r stored => kept column mem r stored
      rw [withRowsSame, List.filterMap_map, same]
      exact valid.uniqueNodup mem
    · rw [withRowsOther s own]
      exact valid.uniqueNodup mem
  · rw [resolvesCongr (keysWithRows keyed ref.parent)]
    by_cases own : u = t
    · subst own
      rw [withRowsSame] at stored
      obtain ⟨old,inRows,rfl⟩ := List.mem_map.mp stored
      exact refers ref mem old inRows
    · rw [withRowsOther s own] at stored
      exact valid.resolves mem stored

theorem Valid.remove (valid : s.Valid) {p : S.Row t → Bool}
    (spared : ∀ u, ∀ ref ∈ S.references u, ref.parent = t → ∀ r ∈ (s u).rows, ∀ k, ref.column r = some k →
      ∃ r' ∈ (s t).rows, S.key t r' = k ∧ p r' = false) :
    (s.withRows t ((s t).rows.filter fun r => !p r)).Valid := by
  have within : ∀ u, ∀ r ∈ ((s.withRows t ((s t).rows.filter fun r => !p r)) u).rows, r ∈ (s u).rows := by
    intro u r stored
    by_cases own : u = t
    · subst own
      rw [withRowsSame] at stored
      exact (List.mem_filter.mp stored).1
    · rwa [withRowsOther s own] at stored
  refine ⟨fun u _ r stored => valid.fits (within u r stored),fun u listed => ?_,fun u listed ref mem r stored => ?_⟩
  · by_cases own : u = t
    · subst own
      rw [keys, withRowsSame]
      exact ⟨(valid.keysNodup u).sublist (List.filter_sublist.map _),fun column mem =>
        (valid.uniqueNodup mem).sublist (List.filter_sublist.filterMap _)⟩
    · rw [keys, withRowsOther s own]
      exact valid.distinct u listed
  · cases given : ref.column r with
    | none => trivial
    | some k =>
      by_cases own : ref.parent = t
      · obtain ⟨r',inRows,number,kept⟩ := spared u ref mem own r (within u r stored) k given
        change k ∈ keys _ ref.parent
        rw [own, keys, withRowsSame]
        exact List.mem_map.mpr ⟨r',List.mem_filter.mpr ⟨inRows,by simp [kept]⟩,number⟩
      · have found := valid.resolves mem (within u r stored)
        rw [given] at found
        change k ∈ keys _ ref.parent
        rw [keys, withRowsOther s own]
        exact found

end FioRelic.Relational.Database
