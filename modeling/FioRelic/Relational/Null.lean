import Mathlib.Data.List.Basic

/-! SQL values. A nullable column is an `Option`, `none` is NULL. A WHERE clause
and an IF are taken only when their condition is TRUE, so a comparison with a
NULL side is not taken; `Truth` keeps the third value for a negated condition. -/
namespace FioRelic.Relational

def same {α : Type} [DecidableEq α] (x y : Option α) : Bool := match x, y with
  | some a, some b => decide (a = b)
  | _, _ => false

def atLeast (x y : Option Int) : Bool := match x, y with
  | some n, some m => decide (m ≤ n)
  | _, _ => false

def below (x y : Option Int) : Bool := match x, y with
  | some n, some m => decide (n < m)
  | _, _ => false

@[simp] theorem sameNoneLeft {α : Type} [DecidableEq α] (y : Option α) : same none y = false := rfl

@[simp] theorem sameNoneRight {α : Type} [DecidableEq α] (x : Option α) : same x none = false := by
  cases x <;> rfl

theorem sameTrue {α : Type} [DecidableEq α] {x y : Option α} :
    same x y = true ↔ ∃ a, x = some a ∧ y = some a := by
  cases x <;> cases y <;> simp [same, eq_comm]

@[simp] theorem sameSome {α : Type} [DecidableEq α] (a b : α) :
    same (some a) (some b) = decide (a = b) := rfl

@[simp] theorem atLeastNoneLeft (y : Option Int) : atLeast none y = false := rfl

@[simp] theorem atLeastNoneRight (x : Option Int) : atLeast x none = false := by
  cases x <;> rfl

@[simp] theorem atLeastSome (n m : Int) : atLeast (some n) (some m) = decide (m ≤ n) := rfl

theorem atLeastTrue {x y : Option Int} :
    atLeast x y = true ↔ ∃ n m, x = some n ∧ y = some m ∧ m ≤ n := by
  cases x <;> cases y <;> simp

@[simp] theorem belowSome (n m : Int) : below (some n) (some m) = decide (n < m) := rfl

@[simp] theorem belowNoneLeft (y : Option Int) : below none y = false := rfl

theorem atLeastNotBelow {x y : Option Int} (late : atLeast x y = true) : below x y = false := by
  obtain ⟨n,m,rfl,rfl,le⟩ := atLeastTrue.mp late
  simpa using le

abbrev Truth := Option Bool

def truthEq {α : Type} [DecidableEq α] (x y : Option α) : Truth := match x, y with
  | some a, some b => some (decide (a = b))
  | _, _ => none

def truthAnd : Truth → Truth → Truth
  | some false, _ => some false
  | _, some false => some false
  | some true, some true => some true
  | _, _ => none

def truthNot (x : Truth) : Truth := x.map (!·)

def holds (x : Truth) : Bool := x == some true

/- `int` is 32 bits and `bigint` is 64; a value outside the type raises. -/
def fitsInt (n : Int) : Bool := decide (-2147483648 ≤ n ∧ n ≤ 2147483647)

def fitsBigint (n : Int) : Bool := decide (-9223372036854775808 ≤ n ∧ n ≤ 9223372036854775807)

/- `varchar(width)`, in characters. -/
def fitsWidth (width : Nat) (text : Option String) : Bool := text.all fun t => decide (t.length ≤ width)

/- Assignment to a varchar column. Blanks beyond the width are dropped; a text that is too
long otherwise is left, and fits no row. -/
def cut (width : Nat) (text : Option String) : Option String := text.map fun t =>
  if t.length ≤ width then t
  else if (t.toList.drop width).all (· == ' ') then String.ofList (t.toList.take width)
  else t

def castable (width : Nat) (text : Option String) : Bool := fitsWidth width (cut width text)

section Cut
variable {width : Nat} {text : Option String}

@[simp] theorem cutNone : cut width none = none := rfl

theorem cutFits (fits : fitsWidth width text = true) : cut width text = text := by
  cases text with
  | none => rfl
  | some t => simp_all [fitsWidth, cut]

theorem cutSome {t : String} : ∃ t', cut width (some t) = some t' := ⟨_,rfl⟩

theorem cutCases (width : Nat) (text : Option String) :
    cut width text = text ∨ ∃ t, cut width text = some t ∧ t.length = width := by
  cases text with
  | none => exact Or.inl rfl
  | some t =>
    unfold cut
    simp only [Option.map_some]
    split
    · exact Or.inl rfl
    · rename_i long
      split
      · refine Or.inr ⟨_,rfl,?_⟩
        rw [String.length_ofList, List.length_take, String.length_toList]
        omega
      · exact Or.inl rfl

theorem fitsCastable (fits : fitsWidth width text = true) : castable width text = true := by
  rw [castable, cutFits fits]
  exact fits

end Cut

end FioRelic.Relational
