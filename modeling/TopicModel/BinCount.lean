/-!
# Counting by bins

`binCounts n items` counts how often each of `0, …, n - 1` occurs, in one pass over the items;
`getElem?_binCounts` says that it does. `binCounts?` refuses items outside the bins.
-/

namespace TopicModel

def addToBin (bins : Array Nat) (k : Nat) : Array Nat := bins.modify k (· + 1)

def binCounts (n : Nat) (items : List Nat) : List Nat :=
  (items.foldl addToBin (Array.replicate n 0)).toList

def binCounts? (n : Nat) (items : List Nat) : Option (List Nat) :=
  if items.all (· < n) then some (binCounts n items) else none

theorem size_foldl_addToBin (items : List Nat) (bins : Array Nat) :
    (items.foldl addToBin bins).size = bins.size := by
  induction items generalizing bins with
  | nil => rfl
  | cons k items ih => rw [List.foldl_cons, ih, addToBin, Array.size_modify]

theorem getElem?_foldl_addToBin (items : List Nat) (bins : Array Nat) (k : Nat) :
    (items.foldl addToBin bins)[k]? = bins[k]?.map (· + items.count k) := by
  induction items generalizing bins with
  | nil => simp
  | cons j items ih =>
    rw [List.foldl_cons, ih, addToBin, Array.getElem?_modify, List.count_cons]
    by_cases h : j = k
    · subst h
      cases bins[j]? <;> simp [Nat.add_comm, Nat.add_left_comm]
    · simp [h]

@[simp]
theorem length_binCounts (n : Nat) (items : List Nat) : (binCounts n items).length = n := by
  simp [binCounts, size_foldl_addToBin]

theorem getElem?_binCounts (n : Nat) (items : List Nat) (k : Nat) :
    (binCounts n items)[k]? = if k < n then some (items.count k) else none := by
  rw [binCounts, Array.getElem?_toList, getElem?_foldl_addToBin, Array.getElem?_replicate]
  split <;> simp

end TopicModel
