/-!
# Ascending — finite sets and maps as ascending lists

A set is the list of its members in ascending order, each once; a map is the list of its entries
in ascending order of their keys.  Both are then determined by what they hold, so two sets are
equal exactly when they have the same members, and listing one needs no further sorting.
-/

namespace GrammarTables.Ascending

variable {α β : Type}

section Ordered

variable [Ord α]

/-- The set with `a` put in. -/
def insert (a : α) : List α → List α
  | [] => [a]
  | b :: bs =>
    match compare a b with
    | .lt => a :: b :: bs
    | .eq => b :: bs
    | .gt => b :: insert a bs

/-- The set with the members of a list put in. -/
def insertAll (as bs : List α) : List α :=
  as.foldr insert bs

/-- The members of a list, as a set. -/
def ofList (as : List α) : List α :=
  insertAll as []

/-- `a` and the members of a set, when `rest` adds to a set what comes after `a`. -/
def unionFrom (a : α) (rest : List α → List α) : List α → List α
  | [] => a :: rest []
  | b :: bs =>
    match compare a b with
    | .lt => a :: rest (b :: bs)
    | .eq => a :: rest bs
    | .gt => b :: unionFrom a rest bs

/-- The members of either set, found in one walk along both. -/
def union : List α → List α → List α
  | [], bs => bs
  | a :: as, bs => unionFrom a (union as) bs

/-- The map in which `key` has the value that `f` makes of its old one, if it had one. -/
def update (key : α) (f : Option β → β) : List (α × β) → List (α × β)
  | [] => [(key, f none)]
  | (other, value) :: rest =>
    match compare key other with
    | .lt => (key, f none) :: (other, value) :: rest
    | .eq => (other, f (some value)) :: rest
    | .gt => (other, value) :: update key f rest

/-- `as` with `a` put before the first member whose key is not smaller. -/
def insertBy (key : β → α) (a : β) : List β → List β
  | [] => [a]
  | b :: bs => if (compare (key a) (key b)).isLE then a :: b :: bs else b :: insertBy key a bs

/-- `as` in ascending order of the keys; members with one key keep their order. -/
def sortBy (key : β → α) (as : List β) : List β :=
  as.foldr (insertBy key) []

end Ordered

/-- The value of `key` in a map. -/
def get? [DecidableEq α] (key : α) (entries : List (α × β)) : Option β :=
  (entries.find? fun entry => entry.1 = key).map (·.2)

end GrammarTables.Ascending
