import PulseHits.Channel.Key

/-!
# Accumulating samples by channel

An accumulator holds the samples that each channel of a board has received so far, in the order in
which they came. `samples` is the view through which the operations are described: `push` adds one
sample at the end of one channel and changes no other, `clear` leaves every channel empty.
-/

namespace PulseHits.Channel

/-- One digitised value of a trace and the time bucket it was taken in. -/
structure Sample where
  bucket : UInt32
  value : UInt16
  deriving DecidableEq, Repr

/-- The traces of all channels, each at the place of its key. -/
structure Accumulator where
  traces : Array (Array Sample)
  size_eq : traces.size = keyCount

namespace Accumulator

/-- No channel has any sample. -/
def empty : Accumulator :=
  ⟨Array.replicate keyCount #[], Array.size_replicate⟩

instance : Inhabited Accumulator := ⟨empty⟩

def trace (a : Accumulator) (k : Key) : Array Sample :=
  have h : k.index.val < a.traces.size := by rw [a.size_eq]; exact k.index.isLt
  a.traces[k.index.val]

/-- The samples of a channel, in the order in which they came. -/
def samples (a : Accumulator) (k : Key) : List Sample :=
  (a.trace k).toList

/-- The number of samples of a channel. -/
def count (a : Accumulator) (k : Key) : Nat :=
  (a.trace k).size

/-- Adds a sample to a channel. -/
def push (a : Accumulator) (k : Key) (s : Sample) : Accumulator :=
  ⟨a.traces.modify k.index (·.push s), by rw [Array.size_modify, a.size_eq]⟩

/-- Drops the samples of every channel. -/
def clear (a : Accumulator) : Accumulator :=
  ⟨a.traces.map fun _ => #[], by rw [Array.size_map, a.size_eq]⟩

/-- The keys of the channels that have samples, in the order of their indices. -/
def activeKeys (a : Accumulator) : List Key :=
  Key.all.filter fun k => 0 < a.count k

/-- The channels that have samples, each with its samples, in the order of their indices. -/
def active (a : Accumulator) : List (Key × List Sample) :=
  a.activeKeys.map fun k => (k, a.samples k)

def activeCount (a : Accumulator) : Nat :=
  a.activeKeys.length

/-! ## The operations seen through `samples` -/

theorem count_eq_length (a : Accumulator) (k : Key) : a.count k = (a.samples k).length := by
  simp [count, samples]

@[simp] theorem samples_empty (k : Key) : empty.samples k = [] := by
  simp [samples, trace, empty]

@[simp] theorem samples_clear (a : Accumulator) (k : Key) : a.clear.samples k = [] := by
  simp [samples, trace, clear]

theorem clear_eq_empty (a : Accumulator) : a.clear = empty := by
  obtain ⟨traces, hsize⟩ := a
  simp only [clear, empty, mk.injEq]
  rw [Array.map_const', hsize]

theorem samples_push (a : Accumulator) (k k' : Key) (s : Sample) :
    (a.push k s).samples k' = a.samples k' ++ if k = k' then [s] else [] := by
  have hindex : k.index.val = k'.index.val ↔ k = k' := by
    refine ⟨fun h => ?_, fun h => by rw [h]⟩
    rw [← Key.ofIndex_index k, Fin.ext h, Key.ofIndex_index]
  simp only [samples, trace, push, Array.getElem_modify, hindex]
  split <;> simp

theorem mem_activeKeys {a : Accumulator} {k : Key} : k ∈ a.activeKeys ↔ a.samples k ≠ [] := by
  rw [activeKeys, List.mem_filter, count_eq_length, decide_eq_true_eq, List.length_pos_iff]
  exact and_iff_right (Key.mem_all k)

end Accumulator

end PulseHits.Channel
