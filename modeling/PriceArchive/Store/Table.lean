import PriceArchive.Store.Error

namespace PriceArchive

/-- What a table asks of its rows. -/
structure TableRule (ρ κ : Type) where
  /-- The key on which a proposed row meets a stored one. -/
  key : ρ → κ
  /-- The stored row after a proposed one has met it. -/
  overwrite : (stored proposed : ρ) → ρ
  /-- Why a row that meets none may not be added. -/
  refusal : (rows : List ρ) → (row : ρ) → Option Refusal

namespace TableRule

variable {ρ κ : Type} [DecidableEq κ]

def holds (rule : TableRule ρ κ) (rows : List ρ) (k : κ) : Bool :=
  rows.any fun r => decide (rule.key r = k)

/-- The rows with one more, if nothing stands against it. -/
def insert (rule : TableRule ρ κ) (rows : List ρ) (row : ρ) : Except Refusal (List ρ) :=
  match rule.refusal rows row with
  | some r => .error r
  | none => .ok (rows ++ [row])

/-- The rows with the stored one that the proposed row meets overwritten. -/
def update (rule : TableRule ρ κ) (rows : List ρ) (row : ρ) : List ρ :=
  rows.map fun r => if rule.key r = rule.key row then rule.overwrite r row else r

/-- Writes one row of a statement that has already written rows with the keys `written`. -/
def upsertRow (rule : TableRule ρ κ) (written : List κ) (rows : List ρ) (row : ρ) :
    Except Refusal (List ρ) :=
  if rule.holds rows (rule.key row) then
    if rule.key row ∈ written then .error .updatedTwice else .ok (rule.update rows row)
  else
    rule.insert rows row

/-- Writes the rows of a statement that has already written rows with the keys `written`. -/
def upsertFrom (rule : TableRule ρ κ) (written : List κ) (rows : List ρ) :
    List ρ → Except Refusal (List ρ)
  | [] => .ok rows
  | row :: batch =>
    match rule.upsertRow written rows row with
    | .ok rows => rule.upsertFrom (rule.key row :: written) rows batch
    | .error r => .error r

/-- Writes the rows of one statement. -/
def upsert (rule : TableRule ρ κ) (rows batch : List ρ) : Except Refusal (List ρ) :=
  rule.upsertFrom [] rows batch

end TableRule

section Batch

variable {α κ : Type} [DecidableEq κ]

/-- Puts an item in the place of the one with its key, or at the end. -/
def putByKey (key : α → κ) (x : α) : List α → List α
  | [] => [x]
  | y :: rest => if key y = key x then x :: rest else y :: putByKey key x rest

/-- The last item of every key, in the place where the key first occurs. -/
def lastPerKey (key : α → κ) (xs : List α) : List α :=
  xs.foldl (fun kept x => putByKey key x kept) []

end Batch

/-- The list in pieces of `size` items; the last one may be shorter. -/
def chunks {α : Type} (size : Nat) : List α → List (List α)
  | [] => []
  | x :: rest => (x :: rest.take (size - 1)) :: chunks size (rest.drop (size - 1))
termination_by xs => xs.length
decreasing_by simp only [List.length_drop, List.length_cons]; omega

/-- Puts an item before the first one that it does not come after. -/
def insertBy {α : Type} (le : α → α → Bool) (x : α) : List α → List α
  | [] => [x]
  | y :: rest => if le x y then x :: y :: rest else y :: insertBy le x rest

/-- The items in order. -/
def sortBy {α : Type} (le : α → α → Bool) (xs : List α) : List α := xs.foldr (insertBy le) []

end PriceArchive
