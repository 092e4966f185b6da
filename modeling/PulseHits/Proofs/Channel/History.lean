import Mathlib.Data.List.DropRight
import Mathlib.Data.List.Induction
import PulseHits.Channel.Accumulator

/-!
# What an accumulator remembers

Samples are pushed to the channels of a board, and from time to time all of them are dropped. What a
channel holds in the end depends on the history alone: the samples that were pushed to its chip and
channel numbers after the last clearing, in their order (`samples_applyAll`). The channels that hold
any are found by their places, and their numbers are those that the samples were pushed to
(`remembers_applyAll`).
-/

namespace PulseHits.Channel

/-- One thing that is done to an accumulator. -/
inductive Operation where
  /-- Adds a sample to the channel with these chip and channel numbers. -/
  | push (aget channel : Nat) (s : Sample)
  | clear
  deriving DecidableEq, Repr

namespace Accumulator

/-- Numbers that no channel has name no key, so there is nothing to push to. -/
def apply (a : Accumulator) : Operation → Accumulator
  | .push aget channel s =>
    match Key.ofPair? aget channel with
    | some k => a.push k s
    | none => a
  | .clear => a.clear

def applyAll (a : Accumulator) (ops : List Operation) : Accumulator :=
  ops.foldl apply a

end Accumulator

/-! ## Histories -/

/-- The sample that an operation pushes to the channel with these numbers. -/
def Operation.sampleFor? (aget channel : Nat) : Operation → Option Sample
  | .push aget' channel' s => if aget' = aget ∧ channel' = channel then some s else none
  | .clear => none

/-- The samples that operations push to the channel with these numbers, in their order. -/
def pushedTo (aget channel : Nat) (ops : List Operation) : List Sample :=
  ops.filterMap (Operation.sampleFor? aget channel)

/-- The operations after the last clearing. -/
def sinceClear (ops : List Operation) : List Operation :=
  ops.rtakeWhile (· ≠ .clear)

theorem pushedTo_concat (aget channel : Nat) (ops : List Operation) (op : Operation) :
    pushedTo aget channel (ops ++ [op]) =
      pushedTo aget channel ops ++ (op.sampleFor? aget channel).toList := by
  rw [pushedTo, List.filterMap_append, ← pushedTo]
  cases h : op.sampleFor? aget channel <;> simp [h]

theorem sinceClear_concat_push (ops : List Operation) (aget channel : Nat) (s : Sample) :
    sinceClear (ops ++ [.push aget channel s]) = sinceClear ops ++ [.push aget channel s] := by
  apply List.rtakeWhile_concat_pos
  simp

theorem sinceClear_concat_clear (ops : List Operation) : sinceClear (ops ++ [.clear]) = [] := by
  apply List.rtakeWhile_concat_neg
  simp

/-! ## One operation, then all of them -/

namespace Accumulator

theorem applyAll_concat (a : Accumulator) (ops : List Operation) (op : Operation) :
    a.applyAll (ops ++ [op]) = (a.applyAll ops).apply op := by
  rw [applyAll, List.foldl_append]
  rfl

theorem samples_apply_push (a : Accumulator) (aget channel : Nat) (s : Sample) (k : Key) :
    (a.apply (.push aget channel s)).samples k =
      a.samples k ++ ((Operation.push aget channel s).sampleFor? k.aget k.channel).toList := by
  simp only [apply, Operation.sampleFor?]
  cases hkey : Key.ofPair? aget channel with
  | none =>
    have hother : ¬ (aget = k.aget.val ∧ channel = k.channel.val) := by
      rintro ⟨rfl, rfl⟩
      rw [Key.ofPair?_eq_some_iff.mpr ⟨rfl, rfl⟩] at hkey
      exact Option.some_ne_none k hkey
    simp [hother]
  | some k' =>
    have hnamed : k' = k ↔ aget = k.aget.val ∧ channel = k.channel.val := by
      rw [← Option.some_inj, ← hkey, Key.ofPair?_eq_some_iff]
      exact and_congr eq_comm eq_comm
    rw [samples_push]
    by_cases h : k' = k
    · rw [if_pos h, if_pos (hnamed.mp h)]
      rfl
    · rw [if_neg h, if_neg fun hnumbers => h (hnamed.mpr hnumbers)]
      rfl

theorem samples_applyAll (ops : List Operation) (k : Key) :
    (empty.applyAll ops).samples k = pushedTo k.aget k.channel (sinceClear ops) := by
  induction ops using List.reverseRecOn with
  | nil => exact samples_empty k
  | append_singleton ops op ih =>
    rw [applyAll_concat]
    cases op with
    | push aget channel s =>
      rw [samples_apply_push, ih, sinceClear_concat_push, pushedTo_concat]
    | clear =>
      rw [sinceClear_concat_clear]
      exact samples_clear _ k

/-! ## The channels that hold samples -/

theorem map_fst_active (a : Accumulator) : a.active.map Prod.fst = a.activeKeys := by
  rw [active, List.map_map]
  exact List.map_id _

theorem mem_active {a : Accumulator} {k : Key} {trace : List Sample} :
    (k, trace) ∈ a.active ↔ trace = a.samples k ∧ trace ≠ [] := by
  simp only [active, List.mem_map, mem_activeKeys, Prod.mk.injEq]
  constructor
  · rintro ⟨k', hsome, rfl, rfl⟩
    exact ⟨rfl, hsome⟩
  · rintro ⟨rfl, hsome⟩
    exact ⟨k, hsome, rfl, rfl⟩

theorem pairwise_index_active (a : Accumulator) :
    a.active.Pairwise fun p p' => p.1.index < p'.1.index := by
  have hkeys : a.activeKeys.Pairwise fun k k' => k.index < k'.index := Key.pairwise_all.filter _
  rwa [← map_fst_active, List.pairwise_map] at hkeys

theorem activeCount_eq_length (a : Accumulator) : a.activeCount = a.active.length := by
  rw [activeCount, ← map_fst_active, List.length_map]

end Accumulator

/-- An accumulator holds what a history leaves in it. A key is made from chip and channel numbers. -/
structure Remembers (ops : List Operation) (a : Accumulator) : Prop where
  samples_eq : ∀ {aget channel : Nat} {k : Key}, Key.ofPair? aget channel = some k →
    a.samples k = pushedTo aget channel (sinceClear ops)
  count_eq : ∀ {aget channel : Nat} {k : Key}, Key.ofPair? aget channel = some k →
    a.count k = (pushedTo aget channel (sinceClear ops)).length
  samples_push_other : ∀ {k k' : Key} (s : Sample), k ≠ k' → (a.push k s).samples k' = a.samples k'
  /-- The channels with samples are gone through once each, by their places. -/
  pairwise_index : a.active.Pairwise fun p p' => p.1.index < p'.1.index
  mem_active_iff : ∀ {k : Key} {trace : List Sample}, (k, trace) ∈ a.active ↔
    trace = pushedTo k.aget k.channel (sinceClear ops) ∧ trace ≠ []
  /-- A key that is come by is one that can be made, and it has the numbers that it is made from. -/
  numbers_eq : ∀ {k : Key} {trace : List Sample}, (k, trace) ∈ a.active →
    Key.ofPair? k.aget k.channel = some k ∧
      ∀ {aget channel : Nat}, Key.ofPair? aget channel = some k →
        k.aget.val = aget ∧ k.channel.val = channel ∧ k.index.val = aget * channelCount + channel
  activeCount_eq : a.activeCount = a.active.length

/-- **What an accumulator remembers.** After any operations on an empty accumulator every channel
holds the samples that were pushed to it since the last clearing, and the channels with samples are
gone through by their places. -/
theorem remembers_applyAll (ops : List Operation) :
    Remembers ops (Accumulator.empty.applyAll ops) where
  samples_eq := by
    intro aget channel k hkey
    obtain ⟨rfl, rfl⟩ := Key.ofPair?_eq_some_iff.mp hkey
    exact Accumulator.samples_applyAll ops k
  count_eq := by
    intro aget channel k hkey
    obtain ⟨rfl, rfl⟩ := Key.ofPair?_eq_some_iff.mp hkey
    rw [Accumulator.count_eq_length, Accumulator.samples_applyAll]
  samples_push_other := by
    intro k k' s hne
    rw [Accumulator.samples_push, if_neg hne, List.append_nil]
  pairwise_index := Accumulator.pairwise_index_active _
  mem_active_iff := by
    intro k trace
    rw [Accumulator.mem_active, Accumulator.samples_applyAll]
  numbers_eq := by
    intro k trace _
    refine ⟨Key.ofPair?_eq_some_iff.mpr ⟨rfl, rfl⟩, fun hkey => ?_⟩
    obtain ⟨rfl, rfl⟩ := Key.ofPair?_eq_some_iff.mp hkey
    exact ⟨rfl, rfl, rfl⟩
  activeCount_eq := Accumulator.activeCount_eq_length _

/-- Two channels after a clearing, and numbers that no channel has. -/
theorem remembers_twoChannels :
    let ops : List Operation := [.push 0 3 ⟨9, 9⟩, .clear, .push 3 0 ⟨7, 100⟩, .push 0 3 ⟨2, 10⟩,
      .push 0 68 ⟨5, 5⟩, .push 0 3 ⟨1, 20⟩]
    let a := Accumulator.empty.applyAll ops
    Key.ofPair? 0 3 = some ⟨0, 3⟩ ∧ a.samples ⟨0, 3⟩ = [⟨2, 10⟩, ⟨1, 20⟩] ∧
      (⟨3, 0⟩, [⟨7, 100⟩]) ∈ a.active := by
  intro ops a
  have hkey : Key.ofPair? 0 3 = some ⟨0, 3⟩ := by decide
  have hremembers := remembers_applyAll ops
  refine ⟨hkey, ?_, hremembers.mem_active_iff.mpr ⟨by decide, by decide⟩⟩
  rw [hremembers.samples_eq hkey]
  decide

end PulseHits.Channel
