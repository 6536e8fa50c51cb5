/-!
# Analysis/Settle — the least value that a round does not change

A round adds to a value what rules derive from it in one step.  The value has settled when a round
leaves it as it is.
-/

namespace GrammarTables

/-- The value after the rounds that change it.  `none` when the first `limit` rounds all do. -/
def settle? {α : Type} [DecidableEq α] (round : α → α) : Nat → α → Option α
  | 0, _ => none
  | limit + 1, value =>
    let next := round value
    if next = value then some value else settle? round limit next

/-- A settled value is one that a round does not change, reached by rounds from the first value. -/
theorem settle?_eq_some {α : Type} [DecidableEq α] {round : α → α} {limit : Nat} {value result : α}
    (h : settle? round limit value = some result) :
    round result = result ∧ ∃ n < limit, result = Nat.repeat round n value := by
  induction limit generalizing value with
  | zero => exact nomatch h
  | succ limit ih =>
    rw [settle?] at h
    split at h
    · next hfix =>
      obtain rfl := Option.some.inj h
      exact ⟨hfix, 0, Nat.succ_pos limit, rfl⟩
    · obtain ⟨hfix, n, hn, rfl⟩ := ih h
      refine ⟨hfix, n + 1, Nat.succ_lt_succ hn, ?_⟩
      clear hfix h ih hn
      induction n with
      | zero => rfl
      | succ n ih => exact congrArg round ih

/-- **A property of the first value that rounds keep holds of the settled one.** -/
theorem settle?_induction {α : Type} [DecidableEq α] {round : α → α} {motive : α → Prop}
    {limit : Nat} {value result : α} (h : settle? round limit value = some result)
    (start : motive value) (keep : ∀ v, motive v → motive (round v)) : motive result := by
  obtain ⟨-, n, -, rfl⟩ := settle?_eq_some h
  clear h
  induction n with
  | zero => exact start
  | succ n ih => exact keep _ ih

/-- **A value settles when each round that changes it makes `measure` larger, up to a bound.** -/
theorem settle?_isSome {α : Type} [DecidableEq α] {round : α → α} {motive : α → Prop}
    {measure : α → Nat} {bound limit : Nat} {value : α} (start : motive value)
    (keep : ∀ v, motive v → motive (round v))
    (grows : ∀ v, motive v → round v ≠ v → measure v < measure (round v))
    (bounded : ∀ v, motive v → measure v ≤ bound) (hlimit : bound < limit + measure value) :
    (settle? round limit value).isSome := by
  induction limit generalizing value with
  | zero => exact absurd (bounded value start) (by omega)
  | succ limit ih =>
    rw [settle?]
    split
    · rfl
    · next hne =>
      have := grows value start hne
      exact ih (keep value start) (by omega)

end GrammarTables
