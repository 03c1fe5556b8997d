import TopicModel.Counts

/-!
# The cache of a scan

While a partition is scanned its counts drift away from those that were broadcast. `ScanCache` keeps
this one private copy, under the key of the scan: `acquire` lends it to a computation and keeps what
the computation leaves; a request under another key drops it and starts from the broadcast counts;
`release` gives it up. The number of copies made so far is kept for inspection.
-/

namespace TopicModel

/-- The scan of one partition in one iteration. -/
structure ScanKey where
  iteration : Nat
  partition : Nat
deriving DecidableEq, Repr

/-- At most one private copy of the counts, with the scan it belongs to. -/
structure ScanCache where
  entry : Option (ScanKey × Counts) := none
  /-- How often counts were taken over from the flat form. -/
  decodes : Nat := 0
deriving DecidableEq

namespace ScanCache

variable {α β : Type}

/-- Lends the counts of the scan `key` to `use` and keeps the counts that it leaves. They are those
held for this scan, or else taken over from `flat`, which must fit the dimensions. -/
def acquire (c : ScanCache) (key : ScanKey) (vocSize topicNum : Nat) (flat : Array Int)
    (use : Counts → β × Counts) : Except (Error α) β × ScanCache :=
  match c with
  | ⟨some (held, counts), decodes⟩ =>
    if held = key then
      let (result, counts) := use counts
      (.ok result, ⟨some (key, counts), decodes⟩)
    else decode decodes
  | ⟨none, decodes⟩ => decode decodes
where
  decode (decodes : Nat) : Except (Error α) β × ScanCache :=
    match Counts.ofFlat vocSize topicNum flat with
    | .error e => (.error e, ⟨none, decodes⟩)
    | .ok counts =>
      let (result, counts) := use counts
      (.ok result, ⟨some (key, counts), decodes + 1⟩)

/-- Empties the cache and gives back its counts if they belong to the scan `key`. -/
def release (c : ScanCache) (key : ScanKey) : Option Counts × ScanCache :=
  match c with
  | ⟨some (held, counts), decodes⟩ => (if held = key then some counts else none, ⟨none, decodes⟩)
  | ⟨none, decodes⟩ => (none, ⟨none, decodes⟩)

def key? (c : ScanCache) : Option ScanKey := c.entry.map Prod.fst

def isEmpty (c : ScanCache) : Bool := c.entry.isNone

end ScanCache

end TopicModel
