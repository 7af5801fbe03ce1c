import Calculator.Fault

/-!
Answers, which are results or the first fault met on the way to one. A chain of steps ends at its
first fault, and it has a result exactly when each of its steps has one.
-/

namespace Calculator

variable {α β : Type}

@[simp]
theorem ok_bind (a : α) (next : α → Except Fault β) : (Except.ok a >>= next) = next a := rfl

@[simp]
theorem error_bind (fault : Fault) (next : α → Except Fault β) :
    (Except.error fault >>= next) = .error fault := rfl

theorem bind_eq_ok_iff {answer : Except Fault α} {next : α → Except Fault β} {b : β} :
    answer >>= next = .ok b ↔ ∃ a, answer = .ok a ∧ next a = .ok b := by
  cases answer with
  | error fault => simp
  | ok a => simp

theorem bind_eq_error_iff {answer : Except Fault α} {next : α → Except Fault β} {fault : Fault} :
    answer >>= next = .error fault ↔
      answer = .error fault ∨ ∃ a, answer = .ok a ∧ next a = .error fault := by
  cases answer with
  | error found => simp
  | ok a => simp

theorem eq_ok_of_toOption {answer : Except Fault α} {a : α} (h : answer.toOption = some a) :
    answer = .ok a := by
  cases answer with
  | error fault => cases h
  | ok found => exact congrArg Except.ok (Option.some.inj h)

end Calculator
