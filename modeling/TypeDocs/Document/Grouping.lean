/-!
Items grouped by a key. Groups come in the order of their first items, items in the order given.
-/

namespace TypeDocs

variable {α β : Type}

def addToGroup [DecidableEq β] (key : β) (item : α) : List (β × List α) → List (β × List α)
  | [] => [(key, [item])]
  | (k, items) :: groups =>
    if k = key then (k, items ++ [item]) :: groups else (k, items) :: addToGroup key item groups

def groupBy [DecidableEq β] (key : α → β) (items : List α) : List (β × List α) :=
  items.foldl (fun groups item => addToGroup (key item) item groups) []

end TypeDocs
