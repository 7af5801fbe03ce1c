import Calculator.Proofs.CheckedExact
import Mathlib.Control.Monad.Writer

/-!
The checks on words are safe. They work out the bounds that they compare with on words themselves,
so none of this may leave the words, or divide by zero, either. A check that keeps a record notes
each operation that it carries out, and answers as the check without a record. It works out one
bound at most, the one on the side where the result can leave the words, and then the result unless
it is refused; all of these operations have exact results that are words.
-/

namespace Calculator.Checked

/-- An answer of a check is exact if it is the result over the whole numbers just when that is a
word. -/
structure IsExact (answer : Option Int64) (n : Int) : Prop where
  isSome_iff : answer.isSome ↔ IsWord n
  toInt_eq : ∀ c ∈ answer, c.toInt = n

theorem IsExact.of_eq_some_iff {answer : Option Int64} {n : Int}
    (h : ∀ {c : Int64}, answer = some c ↔ c.toInt = n) : IsExact answer n where
  isSome_iff := by
    rw [Option.isSome_iff_exists, ← exists_toInt_eq_iff]
    exact exists_congr fun c => h
  toInt_eq _ hc := h.mp hc

inductive Operation
  | add (x y : Int64)
  | sub (x y : Int64)
  | mul (x y : Int64)
  | div (x y : Int64)
deriving DecidableEq

namespace Operation

variable {x y : Int64}

/-- The word that an operation gives; it wraps around. -/
def onWords : Operation → Int64
  | add x y => x + y
  | sub x y => x - y
  | mul x y => x * y
  | div x y => x / y

/-- The result over the whole numbers. Quotients are cut off towards zero, and there are none by
zero. -/
def result? : Operation → Option Int
  | add x y => some (x.toInt + y.toInt)
  | sub x y => some (x.toInt - y.toInt)
  | mul x y => some (x.toInt * y.toInt)
  | div x y => if y.toInt = 0 then none else some (x.toInt.tdiv y.toInt)

/-- An operation that does not divide by zero and whose exact result is a word. -/
def IsSafe (operation : Operation) : Prop := ∃ n ∈ operation.result?, IsWord n

instance : DecidablePred IsSafe := fun operation =>
  inferInstanceAs (Decidable (∃ n ∈ operation.result?, IsWord n))

/-- An operation is safe where its words give the exact result. -/
theorem isSafe_of_toInt_onWords {operation : Operation} {n : Int}
    (hn : operation.result? = some n) (h : operation.onWords.toInt = n) : operation.IsSafe :=
  ⟨n, hn, h ▸ isWord_toInt _⟩

/-- Of the quotients by words other than zero one alone is no word: that of the least word by `-1`,
one more than the greatest word. -/
theorem isSafe_div_iff : (div x y).IsSafe ↔ y ≠ 0 ∧ (x ≠ .minValue ∨ y ≠ -1) := by
  by_cases hy : y = 0
  · simp [IsSafe, result?, hy]
  · by_cases hother : x ≠ .minValue ∨ y ≠ -1
    · have hquotient : (x / y).toInt = x.toInt.tdiv y.toInt := by
        rcases hother with hx | hone
        · exact Int64.toInt_div_of_ne_left x y hx
        · exact Int64.toInt_div_of_ne_right x y hone
      have hzero : y.toInt ≠ 0 := by rwa [Ne, ← Int64.toInt_zero, Int64.toInt_inj]
      exact iff_of_true (isSafe_of_toInt_onWords (if_neg hzero) hquotient) ⟨hy, hother⟩
    · obtain ⟨rfl, rfl⟩ : x = .minValue ∧ y = -1 := by simpa [not_or] using hother
      decide

theorem isSafe_maxValue_sub (hy : 0 < y.toInt) : (sub .maxValue y).IsSafe :=
  isSafe_of_toInt_onWords rfl (toInt_maxValue_sub hy)

theorem isSafe_minValue_sub (hy : y.toInt < 0) : (sub .minValue y).IsSafe :=
  isSafe_of_toInt_onWords rfl (toInt_minValue_sub hy)

theorem isSafe_maxValue_add (hy : y.toInt < 0) : (add .maxValue y).IsSafe :=
  isSafe_of_toInt_onWords rfl (toInt_maxValue_add hy)

theorem isSafe_minValue_add (hy : 0 < y.toInt) : (add .minValue y).IsSafe :=
  isSafe_of_toInt_onWords rfl (toInt_minValue_add hy)

theorem isSafe_maxValue_div (hy : y ≠ 0) : (div .maxValue y).IsSafe :=
  isSafe_div_iff.mpr ⟨hy, Or.inl (by decide)⟩

theorem isSafe_minValue_div (hy : 0 < y) : (div .minValue y).IsSafe := by
  refine isSafe_div_iff.mpr ⟨(Int64.ne_of_lt hy).symm, Or.inr ?_⟩
  rintro rfl
  exact absurd hy (by decide)

/-- The bound that the check of an operation compares with, on the side where the result can leave
the words. Quotients are not checked. -/
def bound? : Operation → Option Operation
  | add _ b =>
    if 0 < b then some (sub .maxValue b) else if b < 0 then some (sub .minValue b) else none
  | sub _ b =>
    if b < 0 then some (add .maxValue b) else if 0 < b then some (add .minValue b) else none
  | mul a b =>
    if 0 < a then
      if 0 < b then some (div .maxValue b) else some (div .minValue a)
    else
      if 0 < b then some (div .minValue b) else if a ≠ 0 then some (div .maxValue a) else none
  | div _ _ => none

/-- On the side where a bound is looked at, the operation that gives it stays among the words. -/
theorem isSafe_of_mem_bound? {operation bound : Operation} (h : bound ∈ operation.bound?) :
    bound.IsSafe := by
  have hzero : (0 : Int64).toInt = 0 := Int64.toInt_zero
  cases operation with
  | add a b =>
      simp only [bound?, Int64.lt_iff_toInt_lt, hzero] at h
      split at h
      · cases h
        exact isSafe_maxValue_sub ‹_›
      · split at h
        · cases h
          exact isSafe_minValue_sub ‹_›
        · cases h
  | sub a b =>
      simp only [bound?, Int64.lt_iff_toInt_lt, hzero] at h
      split at h
      · cases h
        exact isSafe_maxValue_add ‹_›
      · split at h
        · cases h
          exact isSafe_minValue_add ‹_›
        · cases h
  | mul a b =>
      simp only [bound?] at h
      split at h
      · rename_i ha
        split at h
        · rename_i hb
          cases h
          exact isSafe_maxValue_div (Int64.ne_of_lt hb).symm
        · cases h
          exact isSafe_minValue_div ha
      · split at h
        · cases h
          exact isSafe_minValue_div ‹_›
        · split at h
          · cases h
            exact isSafe_maxValue_div ‹_›
          · cases h
  | div a b => cases h

end Operation

/-! ### Checks that keep a record -/

/-- A computation with a record of the operations that it carries out. -/
abbrev Recorded (α : Type) := Writer (List Operation) α

namespace Recorded

section
variable {α : Type}

def value (x : Recorded α) : α := (Id.run x.run).1

def operations (x : Recorded α) : List Operation := (Id.run x.run).2

def carryOut (operation : Operation) : Recorded Int64 :=
  WriterT.mk (pure (operation.onWords, [operation]))

/-- Whether the bound that an operation gives is passed. -/
def passes (bound : Operation) (beyond : Int64 → Bool) : Recorded Bool := beyond <$> carryOut bound

/-- Whether a word lies above an upper bound or below a lower one, each of which is worked out only
if it counts. -/
def liesBeyond (upperCounts : Bool) (upper : Operation) (lowerCounts : Bool) (lower : Operation)
    (a : Int64) : Recorded Bool :=
  (pure upperCounts <&&> passes upper (· < a)) <||> (pure lowerCounts <&&> passes lower (a < ·))

def resultUnless (refused : Recorded Bool) (operation : Operation) : Recorded (Option Int64) := do
  if ← refused then return none else return some (← carryOut operation)

end

def add? (a b : Int64) : Recorded (Option Int64) :=
  resultUnless (liesBeyond (0 < b) (.sub .maxValue b) (b < 0) (.sub .minValue b) a) (.add a b)

def sub? (a b : Int64) : Recorded (Option Int64) :=
  resultUnless (liesBeyond (b < 0) (.add .maxValue b) (0 < b) (.add .minValue b) a) (.sub a b)

def mulOverflows (a b : Int64) : Recorded Bool :=
  if 0 < a then
    if 0 < b then passes (.div .maxValue b) (· < a) else passes (.div .minValue a) (b < ·)
  else
    if 0 < b then passes (.div .minValue b) (a < ·)
    else pure (a != 0) <&&> passes (.div .maxValue a) (b < ·)

def mul? (a b : Int64) : Recorded (Option Int64) := resultUnless (mulOverflows a b) (.mul a b)

section
variable {α : Type} (x y : Recorded Bool) (operation : Operation)

@[simp]
theorem value_pure (a : α) : (pure a : Recorded α).value = a := rfl

@[simp]
theorem operations_pure (a : α) : (pure a : Recorded α).operations = [] := rfl

@[simp]
theorem value_passes (beyond : Int64 → Bool) :
    (passes operation beyond).value = beyond operation.onWords := rfl

@[simp]
theorem operations_passes (beyond : Int64 → Bool) :
    (passes operation beyond).operations = [operation] := rfl

@[simp]
theorem value_and : (x <&&> y).value = (x.value && y.value) := by
  unfold andM
  rcases x with ⟨_ | _, _⟩ <;> rfl

@[simp]
theorem operations_and :
    (x <&&> y).operations = x.operations ++ if x.value then y.operations else [] := by
  unfold andM
  rcases x with ⟨_ | _, _⟩ <;> rfl

@[simp]
theorem value_or : (x <||> y).value = (x.value || y.value) := by
  unfold orM
  rcases x with ⟨_ | _, _⟩ <;> rfl

@[simp]
theorem operations_or :
    (x <||> y).operations = x.operations ++ if x.value then [] else y.operations := by
  unfold orM
  rcases x with ⟨_ | _, _⟩ <;> rfl

theorem value_resultUnless :
    (resultUnless x operation).value = if x.value then none else some operation.onWords := by
  unfold resultUnless
  rcases x with ⟨_ | _, _⟩ <;> rfl

/-- An operation that is not refused comes last. -/
theorem operations_resultUnless :
    (resultUnless x operation).operations =
      x.operations ++ if (resultUnless x operation).value.isSome then [operation] else [] := by
  unfold resultUnless
  rcases x with ⟨_ | _, _⟩ <;> rfl

end

section
variable {upperCounts lowerCounts : Bool} {upper lower : Operation} {a b : Int64}

theorem value_liesBeyond :
    (liesBeyond upperCounts upper lowerCounts lower a).value = true ↔
      upperCounts ∧ upper.onWords < a ∨ lowerCounts ∧ a < lower.onWords := by
  simp [liesBeyond]

/-- Where only one bound can count, no other is worked out. -/
theorem operations_liesBeyond (h : ¬(upperCounts ∧ lowerCounts)) :
    (liesBeyond upperCounts upper lowerCounts lower a).operations =
      (if upperCounts then some upper else if lowerCounts then some lower else none).toList := by
  cases upperCounts <;> cases lowerCounts <;> simp [liesBeyond] at h ⊢

theorem value_add? : (add? a b).value = Checked.add? a b := by
  rw [add?, value_resultUnless]
  apply if_congr _ rfl rfl
  simp only [value_liesBeyond, decide_eq_true_eq]
  rfl

theorem value_sub? : (sub? a b).value = Checked.sub? a b := by
  rw [sub?, value_resultUnless]
  apply if_congr _ rfl rfl
  simp only [value_liesBeyond, decide_eq_true_eq]
  rfl

theorem value_mulOverflows : (mulOverflows a b).value = Checked.mulOverflows a b := by
  unfold mulOverflows Checked.mulOverflows
  split <;> split <;> simp only [value_and, value_pure, value_passes] <;> rfl

theorem value_mul? : (mul? a b).value = Checked.mul? a b := by
  rw [mul?, value_resultUnless, value_mulOverflows]
  rfl

theorem operations_add? : (add? a b).operations = (Operation.add a b).bound?.toList ++
    if (Checked.add? a b).isSome then [.add a b] else [] := by
  rw [← value_add?, add?, operations_resultUnless, operations_liesBeyond]
  · simp only [decide_eq_true_eq, Operation.bound?]
  · simp only [decide_eq_true_eq, Int64.lt_iff_toInt_lt]
    omega

theorem operations_sub? : (sub? a b).operations = (Operation.sub a b).bound?.toList ++
    if (Checked.sub? a b).isSome then [.sub a b] else [] := by
  rw [← value_sub?, sub?, operations_resultUnless, operations_liesBeyond]
  · simp only [decide_eq_true_eq, Operation.bound?]
  · simp only [decide_eq_true_eq, Int64.lt_iff_toInt_lt]
    omega

/-- No bound is worked out that would be a quotient by zero. -/
theorem operations_mulOverflows :
    (mulOverflows a b).operations = (Operation.mul a b).bound?.toList := by
  unfold mulOverflows
  simp only [Operation.bound?]
  by_cases ha : 0 < a
  · rw [if_pos ha, if_pos ha]
    split <;> rfl
  · rw [if_neg ha, if_neg ha]
    split
    · rfl
    · by_cases hzero : a = 0 <;> simp [hzero]

theorem operations_mul? : (mul? a b).operations = (Operation.mul a b).bound?.toList ++
    if (Checked.mul? a b).isSome then [.mul a b] else [] := by
  rw [← value_mul?, mul?, operations_resultUnless, operations_mulOverflows]

end

end Recorded

/-- A check that keeps a record: it answers as the check without one, and its record is the bound
that it compares with, if there is one, and the operation itself if its result is given. -/
structure Records (recorded : Recorded (Option Int64)) (answer : Option Int64)
    (operation : Operation) : Prop where
  value : recorded.value = answer
  operations : recorded.operations =
    operation.bound?.toList ++ if answer.isSome then [operation] else []

/-- What a check carries out is safe if it gives no result but an exact one. -/
theorem Records.isSafe {recorded : Recorded (Option Int64)} {answer : Option Int64} {n : Int}
    {operation : Operation} (h : Records recorded answer operation) (hexact : IsExact answer n)
    (hn : operation.result? = some n) : ∀ carried ∈ recorded.operations, carried.IsSafe := by
  intro carried hcarried
  rw [h.operations, List.mem_append, Option.mem_toList] at hcarried
  rcases hcarried with hbound | hresult
  · exact Operation.isSafe_of_mem_bound? hbound
  · split at hresult
    · rename_i hsome
      obtain rfl := List.mem_singleton.mp hresult
      exact ⟨n, hn, hexact.isSome_iff.mp hsome⟩
    · cases hresult

/-- The checks are exact, and safe on every path to their answer. Each gives the sum, difference or
product over the whole numbers just when that is a word; and each works out nothing but its bound
and its result, by operations that neither leave the words nor divide by zero. So the least word is
never divided by `-1`, or multiplied with it. -/
theorem checks_are_exact_and_safe (a b : Int64) :
    (IsExact (add? a b) (a.toInt + b.toInt) ∧ IsExact (sub? a b) (a.toInt - b.toInt) ∧
      IsExact (mul? a b) (a.toInt * b.toInt)) ∧
    (Records (Recorded.add? a b) (add? a b) (.add a b) ∧
      Records (Recorded.sub? a b) (sub? a b) (.sub a b) ∧
      Records (Recorded.mul? a b) (mul? a b) (.mul a b)) ∧
    ∀ carried ∈ (Recorded.add? a b).operations ++ (Recorded.sub? a b).operations ++
        (Recorded.mul? a b).operations,
      carried.IsSafe ∧
        carried ∉ [.div .minValue (-1), .mul .minValue (-1), .mul (-1) .minValue] := by
  have hadd : IsExact (add? a b) (a.toInt + b.toInt) := .of_eq_some_iff add?_eq_some_iff
  have hsub : IsExact (sub? a b) (a.toInt - b.toInt) := .of_eq_some_iff sub?_eq_some_iff
  have hmul : IsExact (mul? a b) (a.toInt * b.toInt) := .of_eq_some_iff mul?_eq_some_iff
  have hrecordsAdd : Records (Recorded.add? a b) (add? a b) (.add a b) :=
    ⟨Recorded.value_add?, Recorded.operations_add?⟩
  have hrecordsSub : Records (Recorded.sub? a b) (sub? a b) (.sub a b) :=
    ⟨Recorded.value_sub?, Recorded.operations_sub?⟩
  have hrecordsMul : Records (Recorded.mul? a b) (mul? a b) (.mul a b) :=
    ⟨Recorded.value_mul?, Recorded.operations_mul?⟩
  refine ⟨⟨hadd, hsub, hmul⟩, ⟨hrecordsAdd, hrecordsSub, hrecordsMul⟩, ?_⟩
  intro carried hcarried
  have hsafe : carried.IsSafe := by
    rw [List.mem_append, List.mem_append] at hcarried
    rcases hcarried with (h | h) | h
    · exact hrecordsAdd.isSafe hadd rfl carried h
    · exact hrecordsSub.isSafe hsub rfl carried h
    · exact hrecordsMul.isSafe hmul rfl carried h
  refine ⟨hsafe, ?_⟩
  have hunsafe : ∀ beyond ∈ [Operation.div .minValue (-1), .mul .minValue (-1),
      .mul (-1) .minValue], ¬beyond.IsSafe := by decide
  exact fun h => hunsafe carried h hsafe

/-- The least word and `-1` reach no operation but the division of the greatest word by either. -/
example : (Recorded.mul? .minValue (-1)).operations = [.div .maxValue .minValue] ∧
    (Recorded.mul? (-1) .minValue).operations = [.div .maxValue (-1)] := by decide

end Calculator.Checked
