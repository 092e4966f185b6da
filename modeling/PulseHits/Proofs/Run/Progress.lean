import Mathlib.Data.Nat.Cast.Order.Field
import PulseHits.Proofs.Number.Rounding
import PulseHits.Proofs.Run.FileLoop
import PulseHits.Proofs.Run.HitFile

/-!
# How far the reports are from the reading

A step of progress is reported when more bytes than `flushLimit` have come since the last one, and
it is one step however many bytes have come. So the steps never run ahead of the reading, and each
of them may fall behind it by the length of a frame (`Tracked`): where the frames are short, the
fraction that was last reported is close to the one that was read, and where every frame is longer
than a step, it is the frames that are counted (`progress_follows_reading`).
-/

namespace PulseHits.Run

open Number (Binary32 Binary64)

/-! ## The limit -/

theorem datum_stepFraction :
    stepFraction.toBinary64.datum = .finite false (10737418 / 2 ^ 30) := by
  decide +kernel

theorem flushLimit_le_lt {total : Nat} {negative : Bool} {limit : Rat}
    (h : ((total : Binary64) * stepFraction.toBinary64).datum = .finite negative limit)
    (hnonneg : 0 ≤ limit) :
    ((flushLimit total : Nat) : Rat) ≤ limit ∧ limit < (flushLimit total : Nat) + 1 := by
  have hflush : flushLimit total = limit.floor.toNat := by
    unfold flushLimit
    rw [h]
  have hfloor : 0 ≤ limit.floor := Rat.le_floor_iff.mpr (by exact_mod_cast hnonneg)
  have hcast : ((flushLimit total : Nat) : Rat) = limit.floor := by
    rw [hflush]
    exact_mod_cast Int.toNat_of_nonneg hfloor
  rw [hcast]
  exact ⟨Rat.floor_le limit, by exact_mod_cast Rat.lt_floor_add_one limit⟩

/-- The hundredth that is a double is one of the run, up to the rounding. -/
theorem exists_datum_hundredth {total : Nat} (hpos : 0 < total) (hword : total < 2 ^ 64) :
    ∃ limit : Rat,
      ((total : Binary64) * stepFraction.toBinary64).datum = .finite false limit ∧
        100 * limit ≤ total ∧ total ≤ 101 * limit ∧
        total * (10737418 / 2 ^ 30) * (1 - 1 / 2 ^ 52) ≤ limit := by
  have hone : (1 : Rat) ≤ total := by exact_mod_cast hpos
  have hword' : (total : Rat) < 2 ^ 64 := by exact_mod_cast hword
  have hleast : (2 : Rat) ^ (-1022 : Int) ≤ 2 ^ (-7 : Int) :=
    zpow_le_zpow_right₀ (by norm_num) (by norm_num)
  have hgreatest : (2 : Rat) ^ 64 ≤ 2 ^ 1023 := pow_le_pow_right₀ (by norm_num) (by norm_num)
  norm_num only at hleast
  obtain ⟨size, hsize, hsizeError⟩ :=
    Binary64.exists_datum_ofDatum (q := total) (by linarith)
      (hword'.trans_le hgreatest)
  rw [abs_le] at hsizeError
  obtain ⟨limit, hlimit, hlimitError⟩ :=
    Binary64.exists_datum_ofDatum (q := size * (10737418 / 2 ^ 30)) (by linarith)
      (lt_of_lt_of_le (by linarith) hgreatest)
  rw [abs_le] at hlimitError
  refine ⟨limit, ?_, by linarith, by linarith, by linarith⟩
  show (Binary64.ofDatum ((total : Binary64).datum.mul stepFraction.toBinary64.datum)).datum = _
  rw [show (total : Binary64).datum = .finite false size from hsize, datum_stepFraction]
  exact hlimit

/-- The limit is a hundredth of the run, up to the rounding of the hundredth and to whole bytes. -/
theorem flushLimit_spec {total : Nat} (hpos : 0 < total) (hword : total < 2 ^ 64) :
    100 * flushLimit total ≤ total ∧ total < 101 * (flushLimit total + 1) := by
  have hpos' : (0 : Rat) < total := by exact_mod_cast hpos
  obtain ⟨limit, hdatum, hle, hge, -⟩ := exists_datum_hundredth hpos hword
  obtain ⟨hfloor, hfloor'⟩ := flushLimit_le_lt hdatum (by linarith)
  constructor
  · have h : 100 * ((flushLimit total : Nat) : Rat) ≤ total := by linarith
    exact_mod_cast h
  · have h : (total : Rat) < 101 * ((flushLimit total : Nat) + 1) := by linarith
    exact_mod_cast h

/-! ## The states of a run -/

/-- A run of `total` bytes comes to a state in which it has taken `frames` in. -/
inductive State.ReachedBy (skipBadFrames : Bool) (total : Nat) : List Frame → State → Prop
  | start : ReachedBy skipBadFrames total [] (.start total)
  | begin {frames : List Frame} {s : State} (path : String)
    (h : ReachedBy skipBadFrames total frames s) :
    ReachedBy skipBadFrames total frames (s.begin path)
  | frame {frames : List Frame} {s : State} (path : String) (f : Frame)
    (h : ReachedBy skipBadFrames total frames s) :
    ReachedBy skipBadFrames total (frames ++ [f]) (s.takeFrame skipBadFrames path f).1

/-- The bytes of frames together. -/
def bytesOf (frames : List Frame) : Nat :=
  (frames.map (·.bytes.length)).sum

@[simp] theorem bytesOf_nil : bytesOf [] = 0 := rfl

@[simp] theorem bytesOf_cons (f : Frame) (frames : List Frame) :
    bytesOf (f :: frames) = f.bytes.length + bytesOf frames := by
  simp [bytesOf]

@[simp] theorem bytesOf_append (frames frames' : List Frame) :
    bytesOf (frames ++ frames') = bytesOf frames + bytesOf frames' := by
  simp [bytesOf]

/-- The fraction after so many steps, each of which is rounded. -/
def fractionAfter : (steps : Nat) → Binary32
  | 0 => .ofRat 0
  | n + 1 => fractionAfter n + stepFraction

/-- What is reported with the last of so many steps; with none, that nothing has been read. -/
def reportAfter : (steps : Nat) → Binary32
  | 0 => .ofRat 0
  | n + 1 => Progress.atMostOne (fractionAfter (n + 1))

theorem State.progress_takeFrame (skipBadFrames : Bool) (path : String) (s : State) (f : Frame) :
    let advanced := s.progress.advance f.bytes.length
    let taken := (s.takeFrame skipBadFrames path f).1
    taken.progress = advanced.1 ∧ taken.reported = s.reported ++ advanced.2.toArray := by
  have hwrite : ∀ (s : State) (e : Hit.EventHits),
      (s.writeHits e).1.progress = s.progress ∧ (s.writeHits e).1.reported = s.reported := by
    intro s e
    unfold writeHits
    split <;> exact ⟨rfl, rfl⟩
  unfold takeFrame
  simp only
  split
  · exact ⟨rfl, rfl⟩
  · split
    · exact hwrite _ _
    · split <;> exact ⟨rfl, rfl⟩

/-! ## Steps and bytes -/

/-- Of the bytes of `frames`, some are unreported and the others were reported in `steps`. -/
structure Tracked (total : Nat) (frames : List Frame) (steps : Nat) (p : Progress)
    (reported : Array Binary32) : Prop where
  flushLimit_eq : p.flushLimit = flushLimit total
  fraction_eq : p.fraction = fractionAfter steps
  reported_eq : reported.toList = (List.range (steps + 1)).map reportAfter
  unreported_le : p.unreported ≤ flushLimit total
  /-- Each step took more bytes than the limit. -/
  le_read : steps * (flushLimit total + 1) + p.unreported ≤ bytesOf frames
  /-- It exceeded the limit by one frame at most. -/
  read_le : ∀ longest, (∀ f ∈ frames, f.bytes.length ≤ longest) →
    bytesOf frames ≤ steps * (flushLimit total + longest) + p.unreported
  /-- Frames that are longer than the limit are a step each. -/
  steps_of_long : (∀ f ∈ frames, flushLimit total < f.bytes.length) →
    steps = frames.length ∧ p.unreported = 0

theorem tracked_start (total : Nat) : Tracked total [] 0 (.start total) #[.ofRat 0] where
  flushLimit_eq := rfl
  fraction_eq := rfl
  reported_eq := rfl
  unreported_le := Nat.zero_le _
  le_read := by simp [Progress.start]
  read_le := by simp
  steps_of_long _ := ⟨rfl, rfl⟩

section tracked
variable {skipBadFrames : Bool} {total steps : Nat} {frames : List Frame} {p : Progress}
  {reported : Array Binary32}

/-- A frame brings one step at most. -/
theorem Tracked.advance (h : Tracked total frames steps p reported) (f : Frame) :
    ∃ steps', Tracked total (frames ++ [f]) steps' (p.advance f.bytes.length).1
      (reported ++ (p.advance f.bytes.length).2.toArray) := by
  have hunreported := h.unreported_le
  have hle := h.le_read
  have hlast : bytesOf (frames ++ [f]) = bytesOf frames + f.bytes.length := by simp
  unfold Progress.advance
  rw [h.flushLimit_eq]
  by_cases hdue : flushLimit total < p.unreported + f.bytes.length
  · -- a step is due, and it takes all that was unreported
    simp only [if_pos hdue]
    refine ⟨steps + 1, rfl, ?_, ?_, Nat.zero_le _, ?_, fun longest hlongest => ?_, fun hlong => ?_⟩
    · rw [h.fraction_eq]
      rfl
    · rw [h.fraction_eq, Array.toList_append, h.reported_eq, List.range_succ (n := steps + 1),
        List.map_append]
      rfl
    · rw [hlast, Nat.succ_mul]
      simp only
      omega
    · have hread := h.read_le longest fun f' hf' => hlongest f' (List.mem_append_left _ hf')
      have hf := hlongest f (by simp)
      rw [hlast, Nat.succ_mul]
      omega
    · have hsteps := h.steps_of_long fun f' hf' => hlong f' (List.mem_append_left _ hf')
      simp [hsteps.1]
  · simp only [if_neg hdue]
    refine ⟨steps, rfl, h.fraction_eq, ?_, ?_, ?_, fun longest hlongest => ?_, fun hlong => ?_⟩
    · rw [Option.toArray_none, Array.append_empty]
      exact h.reported_eq
    · exact Nat.le_of_not_lt hdue
    · rw [hlast]
      simp only
      omega
    · have hread := h.read_le longest fun f' hf' => hlongest f' (List.mem_append_left _ hf')
      rw [hlast]
      simp only
      omega
    · have hf := hlong f (by simp)
      omega

theorem exists_tracked {s : State} (h : s.ReachedBy skipBadFrames total frames) :
    ∃ steps, Tracked total frames steps s.progress s.reported := by
  induction h with
  | start => exact ⟨0, tracked_start total⟩
  | begin path _ ih => exact ih
  | frame path f _ ih =>
    obtain ⟨steps, hs⟩ := ih
    obtain ⟨hprogress, hreported⟩ := State.progress_takeFrame skipBadFrames path _ f
    rw [hprogress, hreported]
    exact hs.advance f

theorem Tracked.steps_eq (h : Tracked total frames steps p reported) :
    steps = reported.size - 1 := by
  rw [← Array.length_toList, h.reported_eq]
  simp

theorem Tracked.steps_le (h : Tracked total frames steps p reported) (hpos : 0 < total)
    (hword : total < 2 ^ 64) (hread : bytesOf frames ≤ total) : steps ≤ 100 := by
  have hlimit := (flushLimit_spec hpos hword).2
  have hle := h.le_read
  by_contra hlt
  have hmany : 101 * (flushLimit total + 1) ≤ steps * (flushLimit total + 1) :=
    Nat.mul_le_mul_right _ (by omega)
  omega

theorem Tracked.ahead (h : Tracked total frames steps p reported) (hpos : 0 < total)
    (hword : total < 2 ^ 64) (hread : bytesOf frames ≤ total) :
    steps * total ≤ 100 * bytesOf frames + total := by
  have hlimit := (flushLimit_spec hpos hword).2
  have hle := h.le_read
  calc steps * total ≤ steps * (101 * (flushLimit total + 1)) := Nat.mul_le_mul_left _ hlimit.le
    _ = 101 * (steps * (flushLimit total + 1)) := by ring
    _ ≤ 100 * bytesOf frames + total := by omega

theorem Tracked.behind (h : Tracked total frames steps p reported) (hpos : 0 < total)
    (hword : total < 2 ^ 64) {longest : Nat} (hlongest : ∀ f ∈ frames, f.bytes.length ≤ longest) :
    100 * bytesOf frames ≤ steps * total + total + 100 * (steps * longest) := by
  have hlimit := (flushLimit_spec hpos hword).1
  have hunreported := h.unreported_le
  have hsteps : steps * (100 * flushLimit total) ≤ steps * total := Nat.mul_le_mul_left _ hlimit
  calc 100 * bytesOf frames
      ≤ 100 * (steps * (flushLimit total + longest) + p.unreported) :=
        Nat.mul_le_mul_left _ (h.read_le longest hlongest)
    _ = steps * (100 * flushLimit total) + 100 * p.unreported + 100 * (steps * longest) := by ring
    _ ≤ steps * total + total + 100 * (steps * longest) := by omega

/-! ### As fractions -/

theorem Tracked.steps_le_read_add (h : Tracked total frames steps p reported) (hpos : 0 < total)
    (hword : total < 2 ^ 64) (hread : bytesOf frames ≤ total) :
    (steps : Rat) / 100 ≤ bytesOf frames / total + 1 / 100 := by
  have htotal : (0 : Rat) < total := by exact_mod_cast hpos
  have hahead : (steps : Rat) * total ≤ 100 * bytesOf frames + total := by
    exact_mod_cast h.ahead hpos hword hread
  rw [← mul_le_mul_iff_of_pos_right htotal, add_mul, div_mul_cancel₀ _ htotal.ne']
  linarith

theorem Tracked.read_le_steps_add (h : Tracked total frames steps p reported) (hpos : 0 < total)
    (hword : total < 2 ^ 64) {longest : Nat} (hlongest : ∀ f ∈ frames, f.bytes.length ≤ longest) :
    (bytesOf frames : Rat) / total ≤ steps / 100 + 1 / 100 + steps * longest / total := by
  have htotal : (0 : Rat) < total := by exact_mod_cast hpos
  have hbehind :
      100 * (bytesOf frames : Rat) ≤ steps * total + total + 100 * (steps * longest) := by
    exact_mod_cast h.behind hpos hword hlongest
  rw [← mul_le_mul_iff_of_pos_right htotal, add_mul, add_mul, div_mul_cancel₀ _ htotal.ne',
    div_mul_cancel₀ _ htotal.ne']
  linarith

theorem Tracked.near_read (h : Tracked total frames steps p reported) (hpos : 0 < total)
    (hword : total < 2 ^ 64) (hread : bytesOf frames ≤ total)
    (hshort : ∀ f ∈ frames, 10000 * f.bytes.length ≤ total) :
    |(steps : Rat) / 100 - bytesOf frames / total| ≤ 2 / 100 := by
  have htotal : (0 : Rat) < total := by exact_mod_cast hpos
  have hsteps : (steps : Rat) ≤ 100 := by exact_mod_cast h.steps_le hpos hword hread
  have hlongest : ∀ f ∈ frames, f.bytes.length ≤ total / 10000 := by
    intro f hf
    have := hshort f hf
    omega
  have hpart : ((total / 10000 : Nat) : Rat) ≤ total / 10000 := Nat.cast_div_le
  have hlag : (steps : Rat) * (total / 10000 : Nat) / total ≤ 1 / 100 := by
    rw [div_le_iff₀ htotal]
    calc (steps : Rat) * (total / 10000 : Nat) ≤ 100 * (total / 10000) := by gcongr
      _ = 1 / 100 * total := by ring
  have hahead := h.steps_le_read_add hpos hword hread
  have hbehind := h.read_le_steps_add hpos hword hlongest
  rw [abs_le]
  constructor <;> linarith

end tracked

/-! ## Runs over files -/

/-- What comes of offering frames after `frames`: those up to one that ends the run are taken in,
or else all of them. -/
def Offered (skipBadFrames : Bool) (total : Nat) (frames offered : List Frame)
    (x : State × Option Error) : Prop :=
  ∃ taken, taken <+: offered ∧ (x.2 = none → taken = offered) ∧
    x.1.ReachedBy skipBadFrames total (frames ++ taken)

section files
variable {skipBadFrames : Bool} {total : Nat} {s : State} {frames offered₁ offered₂ : List Frame}

theorem Offered.nothing {e? : Option Error} (h : s.ReachedBy skipBadFrames total frames) :
    Offered skipBadFrames total frames [] (s, e?) := by
  refine ⟨[], List.nil_prefix, fun _ => rfl, ?_⟩
  rwa [List.append_nil]

theorem Offered.of_none {e? : Option Error}
    (h : Offered skipBadFrames total frames offered₁ (s, none)) :
    Offered skipBadFrames total frames offered₁ (s, e?) := by
  obtain ⟨taken, hfirst, hall, hreached⟩ := h
  exact ⟨taken, hfirst, fun _ => hall rfl, hreached⟩

theorem Offered.append_right {e : Error}
    (h : Offered skipBadFrames total frames offered₁ (s, some e)) :
    Offered skipBadFrames total frames (offered₁ ++ offered₂) (s, some e) := by
  obtain ⟨taken, hfirst, -, hreached⟩ := h
  exact ⟨taken, hfirst.trans (List.prefix_append _ _), nofun, hreached⟩

theorem Offered.trans {x : State × Option Error}
    (h₁ : Offered skipBadFrames total frames offered₁ (s, none))
    (h₂ : s.ReachedBy skipBadFrames total (frames ++ offered₁) →
      Offered skipBadFrames total (frames ++ offered₁) offered₂ x) :
    Offered skipBadFrames total frames (offered₁ ++ offered₂) x := by
  obtain ⟨taken, -, hall, hreached⟩ := h₁
  obtain rfl := hall rfl
  obtain ⟨later, hfirst, hlater, hreached⟩ := h₂ hreached
  refine ⟨taken ++ later, (List.prefix_append_right_inj taken).mpr hfirst, fun hnone => ?_, ?_⟩
  · rw [hlater hnone]
  · rwa [← List.append_assoc]

theorem offered_takeFrames (path : String) (h : s.ReachedBy skipBadFrames total frames)
    (fs : List Frame) :
    Offered skipBadFrames total frames fs (s.takeFrames skipBadFrames path fs) := by
  induction fs generalizing s frames with
  | nil => exact .nothing h
  | cons f fs ih =>
    have hstep : Offered skipBadFrames total frames [f] (s.takeFrame skipBadFrames path f) :=
      ⟨[f], List.prefix_rfl, fun _ => rfl, h.frame path f⟩
    rw [State.takeFrames, ← List.singleton_append]
    split
    · next s' htake =>
      rw [htake] at hstep
      exact hstep.trans fun h' => ih h'
    · next s' e htake =>
      rw [htake] at hstep
      exact hstep.append_right

theorem framesOf_attempts (stream : Bytes) :
    framesOf (Frame.attempts stream) = (Frame.readAll stream).1 := by
  rw [Frame.attempts_eq_readAll, framesOf_append, framesOf_map_ok]
  cases (Frame.readAll stream).2 <;> exact List.append_nil _

theorem offered_takeFile (path : String) (content : Except IoError Bytes)
    (h : s.ReachedBy skipBadFrames total frames) :
    Offered skipBadFrames total frames (framesOf (readsOf content))
      (s.takeFile skipBadFrames path content) := by
  have hbegin := h.begin path
  cases content with
  | error cause => exact .nothing hbegin
  | ok stream =>
    have hframes := offered_takeFrames path hbegin (Frame.readAll stream).1
    rw [readsOf, framesOf_attempts, State.takeFile_ok, State.takeStream]
    split
    · next s' htake =>
      rw [htake] at hframes
      exact hframes.of_none
    · next s' e htake =>
      rw [htake] at hframes
      exact hframes

theorem offered_takeFiles (h : s.ReachedBy skipBadFrames total frames)
    (files : List (String × Except IoError Bytes)) :
    Offered skipBadFrames total frames (framesOf (reads files))
      (s.takeFiles skipBadFrames files) := by
  induction files generalizing s frames with
  | nil => exact .nothing h
  | cons file files ih =>
    obtain ⟨path, content⟩ := file
    have hfile := offered_takeFile path content h
    rw [State.takeFiles, reads, List.flatMap_cons, ← reads, framesOf_append]
    split
    · next s' htake =>
      rw [htake] at hfile
      exact hfile.trans fun h' => ih h'
    · next s' e htake =>
      rw [htake] at hfile
      exact hfile.append_right

theorem bytesOf_readAll_le (stream : Bytes) :
    bytesOf (Frame.readAll stream).1 ≤ stream.length := by
  induction stream using Frame.attempts.induct with
  | case1 stream f rest h hlt ih =>
    have haccounted := Frame.accounted_readNext stream
    rw [h] at haccounted
    rw [Frame.readAll_of_ok h, haccounted.frame f rfl, bytesOf_cons, List.length_append]
    exact Nat.add_le_add_left ih _
  | case2 stream rest h =>
    rw [Frame.readAll_of_end h]
    exact Nat.zero_le _
  | case3 stream e rest he h =>
    rw [Frame.readAll_of_error h he]
    exact Nat.zero_le _

theorem totalSize_eq (files : List (String × Except IoError Bytes)) :
    totalSize files = (files.map fun p => (p.2.toOption.getD []).length).sum := by
  unfold totalSize
  rw [List.sum_eq_foldl, List.foldl_map]

theorem bytesOf_reads_le (files : List (String × Except IoError Bytes)) :
    bytesOf (framesOf (reads files)) ≤ totalSize files := by
  rw [totalSize_eq]
  induction files with
  | nil => exact Nat.zero_le _
  | cons file files ih =>
    obtain ⟨path, content⟩ := file
    rw [reads, List.flatMap_cons, ← reads, framesOf_append, bytesOf_append, List.map_cons,
      List.sum_cons]
    refine Nat.add_le_add ?_ ih
    cases content with
    | error cause => exact Nat.zero_le _
    | ok stream =>
      rw [readsOf, framesOf_attempts]
      exact bytesOf_readAll_le stream

theorem prefix_reads_singleton (path : String) (f : Frame) (rest : Bytes) :
    [f] <+: framesOf (reads [(path, .ok (f.bytes ++ rest))]) := by
  rw [reads, List.flatMap_singleton, readsOf, Frame.attempts_bytes_append]
  exact ⟨framesOf (Frame.attempts rest), rfl⟩

theorem bytesOf_mono {frames frames' : List Frame} (h : frames <+: frames') :
    bytesOf frames ≤ bytesOf frames' := by
  obtain ⟨later, rfl⟩ := h
  rw [bytesOf_append]
  exact Nat.le_add_right _ _

end files

/-- **Progress and reading.** A run over files ends in a state that it has come to by taking in
the first of their frames, and in every such state the last report is that of the steps so far. They
are ahead of the fraction that has been read by a hundredth at most; they are behind it by a
hundredth at most and, for each step, one frame. So they are near it if ten thousand of the longest
frame are no longer than the files together, but a frame that is longer than a step brings one step,
however long it is. -/
theorem progress_follows_reading (skipBadFrames : Bool)
    {files : List (String × Except IoError Bytes)} (hpos : 0 < totalSize files)
    (hword : totalSize files < 2 ^ 64) :
    let total := totalSize files
    (∃ frames, frames <+: framesOf (reads files) ∧
      ((State.start total).takeFiles skipBadFrames files).1.ReachedBy skipBadFrames total frames) ∧
    ∀ (frames : List Frame) (s : State), frames <+: framesOf (reads files) →
      s.ReachedBy skipBadFrames total frames →
      let steps := s.reported.size - 1
      let read : Rat := bytesOf frames / total
      s.reported.back? = some (reportAfter steps) ∧ steps ≤ 100 ∧
        (steps : Rat) / 100 ≤ read + 1 / 100 ∧
        (∀ longest, (∀ f ∈ frames, f.bytes.length ≤ longest) →
          read ≤ steps / 100 + 1 / 100 + steps * longest / total) ∧
        ((∀ f ∈ frames, 10000 * f.bytes.length ≤ total) → |(steps : Rat) / 100 - read| ≤ 2 / 100) ∧
        ((∀ f ∈ frames, flushLimit total < f.bytes.length) → steps = frames.length) := by
  intro total
  refine ⟨?_, fun frames s hfirst h => ?_⟩
  · have hstart : (State.start total).ReachedBy skipBadFrames total [] := .start
    obtain ⟨taken, hfirst, -, hreached⟩ := offered_takeFiles hstart files
    exact ⟨taken, hfirst, hreached⟩
  intro steps read
  have hread : bytesOf frames ≤ total :=
    (bytesOf_mono hfirst).trans (bytesOf_reads_le files)
  obtain ⟨_, htracked⟩ := exists_tracked h
  obtain rfl := htracked.steps_eq
  refine ⟨?_, htracked.steps_le hpos hword hread, htracked.steps_le_read_add hpos hword hread,
    fun longest => htracked.read_le_steps_add hpos hword, htracked.near_read hpos hword hread,
    fun hlong => (htracked.steps_of_long hlong).1⟩
  have hlast : s.reported.toList.getLast? = some (reportAfter steps) := by
    rw [htracked.reported_eq, List.range_succ, List.map_append]
    exact List.getLast?_concat
  rwa [Array.getLast?_toList] at hlast

/-- A run of ten thousand times the length of its first frame. -/
theorem progress_after_shortFrame :
    let files : List (String × Except IoError Bytes) :=
      [("a.graw", .ok (smallFrame.bytes ++ List.replicate (9999 * 512) 0))]
    let s := ((State.start 5120000).takeFrame true "a.graw" smallFrame).1
    totalSize files = 5120000 ∧ [smallFrame] <+: framesOf (reads files) ∧
      |((s.reported.size - 1 : Nat) : Rat) / 100 - bytesOf [smallFrame] / 5120000| ≤ 2 / 100 := by
  intro files s
  have hlength : smallFrame.bytes.length = 512 := smallFrame.length_eq
  have htotal : totalSize files = 5120000 := by
    rw [totalSize_eq, List.map_cons, List.map_nil, List.sum_singleton]
    show (smallFrame.bytes ++ List.replicate (9999 * 512) 0).length = 5120000
    rw [List.length_append, List.length_replicate, hlength]
  have hfirst : [smallFrame] <+: framesOf (reads files) := prefix_reads_singleton "a.graw" _ _
  have hreached : s.ReachedBy true 5120000 [smallFrame] := .frame "a.graw" smallFrame .start
  have hpos : 0 < totalSize files := by omega
  have hfollows := progress_follows_reading true hpos (by omega)
  simp only [htotal] at hfollows
  obtain ⟨-, -, -, -, hnear, -⟩ := hfollows.2 [smallFrame] s hfirst hreached
  refine ⟨htotal, hfirst, hnear ?_⟩
  intro f hf
  obtain rfl := List.mem_singleton.mp hf
  omega

/-- Frames that are longer than a step leave the progress behind: with the first of two frames half
of the run has been read, and one hundredth is reported. -/
theorem not_forall_progress_near_reading :
    ¬ ∀ (skipBadFrames : Bool) (files : List (String × Except IoError Bytes)),
      0 < totalSize files → totalSize files < 2 ^ 64 →
      ∀ (frames : List Frame) (s : State), frames <+: framesOf (reads files) →
        s.ReachedBy skipBadFrames (totalSize files) frames →
        |((s.reported.size - 1 : Nat) : Rat) / 100 - bytesOf frames / totalSize files| ≤
          2 / 100 := by
  intro hnear
  have hlength : smallFrame.bytes.length = 512 := smallFrame.length_eq
  have hbytes : bytesOf [smallFrame] = 512 := by rw [bytesOf_cons, hlength, bytesOf_nil]
  obtain ⟨files, hfiles⟩ : ∃ files : List (String × Except IoError Bytes),
      files = [("a.graw", .ok (smallFrame.bytes ++ smallFrame.bytes))] := ⟨_, rfl⟩
  have htotal : totalSize files = 1024 := by
    rw [hfiles, totalSize_eq, List.map_cons, List.map_nil, List.sum_singleton]
    show (smallFrame.bytes ++ smallFrame.bytes).length = 1024
    rw [List.length_append, hlength]
  have hfirst : [smallFrame] <+: framesOf (reads files) := by
    rw [hfiles]
    exact prefix_reads_singleton "a.graw" _ _
  obtain ⟨s, hs⟩ : ∃ s, s = ((State.start 1024).takeFrame true "a.graw" smallFrame).1 := ⟨_, rfl⟩
  have hreached : s.ReachedBy true 1024 [smallFrame] := by
    rw [hs]
    exact .frame "a.graw" smallFrame .start
  have hlong : ∀ f ∈ [smallFrame], flushLimit 1024 < f.bytes.length := by
    intro f hf
    obtain rfl := List.mem_singleton.mp hf
    rw [hlength]
    decide +kernel
  obtain ⟨steps, htracked⟩ := exists_tracked hreached
  have hsteps := htracked.steps_eq.symm.trans (htracked.steps_of_long hlong).1
  have hclose := hnear true files (by omega) (by omega) [smallFrame] s hfirst (htotal ▸ hreached)
  rw [htotal, hsteps, hbytes] at hclose
  revert hclose
  norm_num [abs_le]

end PulseHits.Run
