
namespace FlowCompletion

def sampleSize : Nat := 50

/-- At most `limit` items, evenly spaced over the whole list and in its order. -/
def sample {α : Type} (limit : Nat) (items : List α) : List α :=
  if items.length ≤ limit then items
  else (List.range limit).filterMap fun i => items[i * items.length / limit]?

end FlowCompletion
